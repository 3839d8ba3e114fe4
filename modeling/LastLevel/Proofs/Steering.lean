import LastLevel.Proofs.Isolation
import LastLevel.Proofs.Renaming
/-!
# A region is a cache of its own

The clients of a scheme with fixed bits share one cache. Seen by one of them,
though, it is a cache that has the sets of its region only: set `low` of that
cache is the set of the region with the same low index bits, and a tag `t` of
it is the block number whose low bits are `low` and whose other bits are `t`.
`Confines` is this relation. An access of the client keeps it
(`Confines.touch`), an access of another client does not touch it
(`Confines.touch_of_ne`). Main statement: `client_has_own_cache`.
-/

namespace LastLevel

namespace Regions

/-- What the client `i` with the pattern `f` has of the shared cache is `c`. -/
structure Confines (f : FixedBits) (i : Nat) (r : Regions) (c : Cache) : Prop where
  apart : r.Apart
  fixed : r.fixed[i]? = some f
  shape : c.shape = { r.cache.shape with indexBits := r.cache.shape.indexBits - f.width }
  same : ∀ low < c.shape.sets,
    Cache.SameSet id (fun t => t * c.shape.sets + low) r.cache c (f.pattern * c.shape.sets + low) low
  tally : r.tallies[i]? = some c.tally

namespace Confines
variable {f : FixedBits} {i : Nat} {r : Regions} {c : Cache}

/-- Steering is locating, with the region's sets and tags put in place. -/
theorem steer_eq (h : Confines f i r c) (a : Address) :
    f.steer r.cache.shape a =
      { set := f.pattern * c.shape.sets + (c.locate a).set
        tag := (c.locate a).tag * c.shape.sets + (c.locate a).set } := by
  have hf := h.apart.fits h.fixed
  have hb : c.shape.blockOf a = r.cache.shape.blockOf a := by rw [h.shape]; rfl
  have hs : 2 ^ (r.cache.shape.indexBits - f.width) = c.shape.sets := by rw [h.shape]; rfl
  rw [FixedBits.steer_eq hf.width hf.pattern, hs, Cache.locate, ← Shape.blockOf_eq, hb, Shape.locate_eq, hb]

theorem hits_eq (h : Confines f i r c) (a : Address) : r.hits i a = c.hits a := by
  have hl : (c.locate a).set < c.shape.sets := c.shape.locate_set_lt a
  rw [hits, h.fixed]
  simp only [h.steer_eq a]
  exact (h.same _ hl).holdsAt Function.injective_id (add_mul_injective c.shape.sets_pos _) rfl

/-- The client's own accesses act on the region as on its cache. -/
theorem touch (h : Confines f i r c) (a : Address) (kind : AccessKind) :
    Confines f i (r.touch i a kind) (c.touch a kind) where
  apart := apart_touch h.apart i a kind
  fixed := by rw [fixed_touch, h.fixed]
  shape := by rw [shape_touch, Cache.shape_touch, h.shape]
  same := by
    intro low hlow
    rw [Cache.shape_touch] at hlow ⊢
    rw [touch_of_some h.fixed, h.steer_eq a]
    -- The set that is accessed, and the other sets of the region.
    by_cases he : (c.locate a).set = low
    · subst he
      exact (h.same _ hlow).touchAt Function.injective_id (add_mul_injective c.shape.sets_pos _) rfl a a kind
    · refine (h.same low hlow).touchAt_of_ne ?_ he a a kind
      simpa using he
  tally := by
    have hhit : r.cache.holdsAt (f.steer r.cache.shape a) = c.hits a := by
      rw [← h.hits_eq a, hits, h.fixed]
    rw [touch_of_some h.fixed, Cache.tally_touch, hhit, Array.getElem?_modify, if_pos rfl, h.tally]
    rfl

/-- The accesses of other clients stay out of the region. -/
theorem touch_of_ne (h : Confines f i r c) {j : Nat} (hj : j ≠ i) (a : Address) (kind : AccessKind) :
    Confines f i (r.touch j a kind) c where
  apart := apart_touch h.apart j a kind
  fixed := by rw [fixed_touch, h.fixed]
  shape := by rw [shape_touch, h.shape]
  same := by
    intro low hlow
    cases hg : r.fixed[j]? with
    | none => rw [touch_of_none hg]; exact h.same low hlow
    | some g =>
      rw [touch_of_some hg]
      refine (h.same low hlow).touchAt_left (fun he => ?_) a kind
      -- The set would lie in both regions.
      have hs : c.shape.sets = 2 ^ (r.cache.shape.indexBits - f.width) := by rw [h.shape]; rfl
      have hfit := h.apart.fits h.fixed
      have hin : f.pattern * c.shape.sets + low ∈ f.region r.cache.shape.indexBits := by
        rw [hs] at hlow ⊢
        exact hfit.mem_region hlow
      exact h.apart.disjoint hj hg h.fixed _ (he ▸ FixedBits.steer_mem_region (h.apart.fits hg) a) hin
  tally := by rw [getElem?_tallies_touch r j a kind i hj, h.tally]

end Confines

/-- Whether an access hits shows in the miss counter of the shared cache: it
hits if the counter stays as it was. -/
theorem hits_eq_misses_kept {r : Regions} {i : Nat} (hi : i < r.clients) (a : Address) (kind : AccessKind) :
    r.hits i a = decide ((r.touch i a kind).cache.tally.misses = r.cache.tally.misses) := by
  have hf : r.fixed[i]? = some r.fixed[i] := Array.getElem?_eq_getElem hi
  rw [touch_of_some hf, hits, hf]
  simp only [Cache.tally_touchAt, Tally.misses_record]
  cases r.cache.holdsAt (r.fixed[i].steer r.cache.shape a) <;> simp

/-! ## Runs -/

/-- In the beginning everything is empty. -/
theorem confines_empty {clients : Nat} {g : Geometry} {fixed : List FixedBits} {r : Regions}
    (h : ofFixed? clients g fixed = .ok r) {i : Nat} {f : FixedBits} (hf : fixed[i]? = some f) :
    Confines f i r (.empty (.ofCounts (2 ^ (g.sets.log2 - f.width)) g.ways g.block)) := by
  have hapart := apart_of_ofFixed? h
  obtain ⟨⟨-, hlen, -, -⟩, rfl⟩ := ofFixed?_eq_ok.1 h
  have hfixed : fixed.toArray[i]? = some f := by rw [List.getElem?_toArray, hf]
  have hlog : (2 ^ (g.sets.log2 - f.width)).log2 = g.sets.log2 - f.width := Nat.log2_two_pow
  refine ⟨hapart, hfixed, ?_, ?_, ?_⟩
  · simp only [Cache.empty, Shape.ofCounts, hlog]
  · intro low hlow
    have hsets : (Shape.ofCounts (2 ^ (g.sets.log2 - f.width)) g.ways g.block).sets = 2 ^ (g.sets.log2 - f.width) :=
      Shape.sets_ofCounts (Bits.isPow2_two_pow _)
    refine Cache.sameSet_empty ?_ hlow rfl
    have hlow : low < 2 ^ (g.sets.log2 - f.width) := hsets ▸ hlow
    show f.pattern * (Shape.ofCounts (2 ^ (g.sets.log2 - f.width)) g.ways g.block).sets + low < _
    rw [hsets]
    exact ((hapart.fits hfixed).mem_region hlow).1
  · obtain ⟨hi, -⟩ := List.getElem?_eq_some_iff.1 hf
    simp [Cache.empty, hlen ▸ hi]

/-- The sets of a region hold no more bytes than the whole cache. -/
theorem ofSets?_region {g : Geometry} (hg : g.check = .ok ()) (hsize : g.size < Bits.wordSize) (width : Nat) :
    Cache.ofSets? (2 ^ (g.sets.log2 - width)) g.ways g.block =
      .ok (.empty (.ofCounts (2 ^ (g.sets.log2 - width)) g.ways g.block)) := by
  obtain ⟨-, ⟨hb, hw, hl⟩, -, -, hp⟩ := Geometry.check_eq_ok.1 hg
  refine Cache.ofSets?_eq_ok.2 ⟨Shape.ofSets?_eq_ok.2 ⟨Bits.isPow2_two_pow _, hb, hw, hl, ?_, rfl⟩, rfl⟩
  calc 2 ^ (g.sets.log2 - width) * (g.block * g.ways) ≤ g.sets * (g.block * g.ways) :=
        Nat.mul_le_mul_right _ (Nat.le_trans (Nat.pow_le_pow_right (by decide) (Nat.sub_le _ _)) (Nat.le_of_eq hp))
    _ ≤ g.size := Nat.div_mul_le_self _ _
    _ < Bits.wordSize := hsize

/-- Whatever the clients do, and in whatever order: each of them gets the answers
and the counts of a cache of its own, as large as its region, on which only its
own accesses are carried out. The answer to an access can also be read off the
miss counter of the shared cache. -/
theorem client_has_own_cache {clients : Nat} {g : Geometry} {fixed : List FixedBits} {r : Regions}
    (h : ofFixed? clients g fixed = .ok r) (hsize : g.size < Bits.wordSize) {i : UInt64}
    (hi : i.toNat < clients) :
    ∃ sets c, r.setsOf? i.toNat = .ok sets ∧ Cache.ofSets? sets g.ways g.block = .ok c ∧
      ∀ xs : List Record,
        let own := xs.filter fun x => x.client = i
        let shared := Run.final Scheme.step (.regions r) xs
        let alone := Run.final Cache.step c own
        (Run.log Scheme.step (.regions r) xs).filter (fun e => e.1.client = i) =
          (Run.log Cache.step c own).map (fun e => (e.1, .ok e.2)) ∧
        shared.tally? i.toNat = .ok alone.tally ∧
        ∀ a kind, ∃ q q', shared = .regions q ∧ shared.access i.toNat a kind =
          .ok (decide (q'.cache.tally.misses = q.cache.tally.misses), .regions q') := by
  have hr := ofFixed?_eq_ok.1 h
  obtain ⟨f, hf⟩ : ∃ f, fixed[i.toNat]? = some f := ⟨_, List.getElem?_eq_getElem (hr.1.2.1 ▸ hi)⟩
  have hstart := confines_empty h hf
  refine ⟨2 ^ (g.sets.log2 - f.width), _, ?_, ofSets?_region hr.1.1 hsize f.width, ?_⟩
  · rw [setsOf?, hstart.fixed, hr.2]
    rfl
  intro xs
  have hclients : ∀ q c, Confines f i.toNat q c → i.toNat < q.clients := fun q c hq =>
    (Array.getElem?_eq_some_iff.1 hq.fixed).1
  -- The client's accesses move both caches, the others only the shared one.
  obtain ⟨hlog, q, hq, hend⟩ := Run.log_filter_of_simulation (f := Scheme.step) (g := Cache.step)
    (fun s c => ∃ q, s = .regions q ∧ Confines f i.toNat q c) (fun x : Record => x.client = i) Except.ok
    (by
      rintro _ c x ⟨q, rfl, hq⟩ hx
      obtain rfl : x.client = i := by simpa using hx
      have hc : (Scheme.regions q).check x.client.toNat = .ok () := checkClient_eq_ok.2 (hclients q c hq)
      rw [Scheme.step_of_ok hc]
      exact ⟨congrArg Except.ok (hq.hits_eq x.address), _, rfl, hq.touch x.address x.kind⟩)
    (by
      rintro _ c x ⟨q, rfl, hq⟩ hx
      have hx : x.client.toNat ≠ i.toNat := fun e => by simp [UInt64.toNat_inj.1 e] at hx
      cases hc : (Scheme.regions q).check x.client.toNat with
      | error e => exact ⟨q, by rw [Scheme.step_of_error hc], hq⟩
      | ok u => exact ⟨_, by rw [Scheme.step_of_ok hc]; rfl, hq.touch_of_ne hx x.address x.kind⟩)
    ⟨r, rfl, hstart⟩ xs
  have hlt := hclients q _ hend
  refine ⟨hlog, ?_, fun a kind => ?_⟩
  · show Scheme.tally? _ _ = _
    rw [hq, Scheme.tally?, tally?, if_pos hlt, Array.getD_eq_getD_getElem?, hend.tally]
    rfl
  · refine ⟨q, q.touch i.toNat a kind, hq, ?_⟩
    rw [hq, Scheme.access, ← hits_eq_misses_kept hlt a kind]
    rw [show (Scheme.regions q).check i.toNat = .ok () from checkClient_eq_ok.2 hlt]
    rfl

/-- Two clients share four sets, and the second one keeps its block although the
first one is at the same addresses. -/
theorem second_client_has_own_cache :
    let g : Geometry := ⟨128, 2, 16⟩
    let xs : List Record := [⟨0x00, 0, .write⟩, ⟨0x00, 1, .read⟩, ⟨0x20, 0, .read⟩, ⟨0x40, 0, .read⟩, ⟨0x08, 1, .read⟩]
    ∃ r c, ofFixed? 2 g [⟨0, 1⟩, ⟨1, 1⟩] = .ok r ∧ g.size < Bits.wordSize ∧ (1 : UInt64).toNat < 2 ∧
      Cache.ofSets? 2 2 16 = .ok c ∧
      (Run.log Scheme.step (.regions r) xs).filter (fun e => e.1.client = 1) =
        [(⟨0x00, 1, .read⟩, .ok false), (⟨0x08, 1, .read⟩, .ok true)] ∧
      (Run.final Scheme.step (.regions r) xs).tally? 1 = .ok { misses := 1, hits := 1 } := by
  intro g xs
  have hsize : g.size < Bits.wordSize := by decide
  have hi : (1 : UInt64).toNat < 2 := by decide
  obtain ⟨r, hr⟩ : ∃ r, ofFixed? 2 g [⟨0, 1⟩, ⟨1, 1⟩] = .ok r :=
    ⟨_, ofFixed?_eq_ok.2 ⟨⟨Geometry.check_eq_ok.2 (by decide), rfl, by decide, by decide⟩, rfl⟩⟩
  obtain ⟨sets, c, hs, hc, hruns⟩ := client_has_own_cache hr hsize hi
  obtain rfl : 2 = sets := by
    obtain ⟨-, rfl⟩ := ofFixed?_eq_ok.1 hr
    simpa [setsOf?, Cache.empty, Shape.ofCounts, Geometry.sets, g, show Nat.log2 4 = 2 by decide] using hs
  obtain ⟨hlog, ht, -⟩ := hruns xs
  obtain ⟨-, rfl⟩ := Cache.ofSets?_eq_ok.1 hc
  refine ⟨_, _, hr, hsize, hi, hc, ?_, ?_⟩
  · rw [hlog]
    decide
  · rw [show 1 = (1 : UInt64).toNat from rfl, ht]
    decide

end Regions

end LastLevel
