import LastLevel.Proofs.Interleaving
import LastLevel.Proofs.Steering
import Mathlib.Data.Nat.ModEq
/-!
# What a share is worth

A client that does not see the others is served as if it had a cache of its own.
`Scheme.Grants` says how many sets and ways that cache has. For `n` interleaved
banks it is the least common multiple of `n` and the sets of a bank
(`Banked.Interleaved.grants`): where the bits that select the bank also count in
the set index, sets of the banks stay unused. A region grants its own sets
(`Regions.grants`). Since a larger cache hits wherever a smaller one does, grants
compare schemes of all kinds: `Scheme.Grants.hitsWithin`.
-/

namespace LastLevel

/-- The numbers of the blocks that a client accesses. -/
def blocksOf (offsetBits client : Nat) (xs : List Record) : List Nat :=
  (xs.filter fun x => x.client.toNat = client).map fun x => x.address.toNat / 2 ^ offsetBits

namespace Scheme

/-- Each client hits as in a cache of its own that has so many sets and ways. -/
structure Grants (s : Scheme) (clients offsetBits sets ways : Nat) : Prop where
  served : s.clients? = some clients
  hits : ∀ (xs : List Record) (x : Record), (Run.final step s xs).hits x.client.toNat x.address = true ↔
    x.client.toNat < clients ∧
      Reused sets ways (blocksOf offsetBits x.client.toNat xs) (x.address.toNat / 2 ^ offsetBits)

theorem clients?_final (s : Scheme) (xs : List Record) : (Run.final step s xs).clients? = s.clients? :=
  Run.final_keeps (I := fun u : Scheme => u.clients? = s.clients?) (fun u x hu => (clients?_step u x).trans hu) rfl xs

/-- A client that is not served hits nowhere. -/
theorem hits_of_le {s : Scheme} {n i : Nat} (hn : s.clients? = some n) (hi : n ≤ i) (a : Address) :
    s.hits i a = false := by
  cases s with
  | plain c => cases hn
  | banked b =>
    obtain rfl := Option.some.inj hn
    have hnone : b.holdings[i]? = none := Array.getElem?_eq_none hi
    rw [hits, Banked.hits, hnone]
  | regions r =>
    obtain rfl := Option.some.inj hn
    have hnone : r.fixed[i]? = none := Array.getElem?_eq_none hi
    rw [hits, Regions.hits, hnone]

/-- Whoever is granted no fewer sets and ways hits no less. -/
theorem Grants.hitsWithin {s u : Scheme} {clients offsetBits sets sets' ways ways' : Nat}
    (h : s.Grants clients offsetBits sets ways) (h' : u.Grants clients offsetBits sets' ways') (hsets : sets ∣ sets')
    (hways : ways ≤ ways') : s.HitsWithin u := by
  refine ⟨h.served.trans h'.served.symm, fun xs x hx => ?_⟩
  obtain ⟨hserved, hreused⟩ := (h.hits xs x).1 hx
  exact (h'.hits xs x).2 ⟨hserved, hreused.mono hsets hways⟩

/-- Where there are no ways nothing hits. -/
theorem Grants.hitsWithin_of_nothing {s u : Scheme} {clients offsetBits sets : Nat}
    (h : s.Grants clients offsetBits sets 0) (hu : u.clients? = some clients) : s.HitsWithin u := by
  refine ⟨h.served.trans hu.symm, fun xs x hx => ?_⟩
  obtain ⟨-, j, -, -, hnone⟩ := (h.hits xs x).1 hx
  exact absurd hnone (Nat.not_lt_zero _)

end Scheme

/-! ## Interleaved banks -/

theorem mod_lcm_iff {m n x y : Nat} : x % m.lcm n = y % m.lcm n ↔ x % m = y % m ∧ x % n = y % n := by
  constructor
  · intro h
    exact ⟨Nat.ModEq.of_dvd (Nat.dvd_lcm_left m n) h, Nat.ModEq.of_dvd (Nat.dvd_lcm_right m n) h⟩
  · rintro ⟨hm, hn⟩
    exact Nat.mod_lcm hm hn

/-- Among the blocks of its own bank, a block has the rivals it would have with as
many sets as number of bank and set together tell apart. -/
theorem reused_filter_mod {n sets ways b : Nat} {history : List Nat} :
    Reused sets ways (history.filter fun x => x % n = b % n) b ↔ Reused (n.lcm sets) ways history b := by
  have hrivals : rivals sets b (history.filter fun x => x % n = b % n) = rivals (n.lcm sets) b history := by
    rw [rivals, rivals, List.filter_filter]
    congr 2
    funext x
    simp only [mod_lcm_iff, Bool.decide_and, Bool.and_comm]
  rw [reused_iff_mem_rtake, reused_iff_mem_rtake, hrivals]

namespace Banked.Interleaved
variable {clients n offsetBits : Nat} {b : Banked}

theorem map_share (offsetBits n client bank : Nat) (xs : List Record) :
    (share offsetBits n client bank xs).map (fun x => x.address.toNat / 2 ^ offsetBits) =
      (blocksOf offsetBits client xs).filter fun x => x % n = bank := by
  rw [blocksOf, List.filter_map, List.filter_filter, share]
  congr 2
  funext x
  simp [Bool.and_comm]

/-- Interleaved banks are worth as many sets as the number of the bank and the
set index tell blocks apart by. -/
theorem grants {sets ways block : Nat}
    (h : Interleaved clients n block.log2 (fun _ _ => some (.empty (.ofCounts sets ways block))) b)
    (hsets : Bits.IsPow2 sets) (hw : 0 < ways) :
    Scheme.Grants (.banked b) clients block.log2 (n.lcm sets) ways := by
  refine ⟨congrArg some h.size, fun xs x => ?_⟩
  obtain ⟨b', hb', h'⟩ := h.final xs
  rw [hb', ← reused_filter_mod, ← map_share]
  refine (h'.hits_iff _ _).trans (and_congr_right fun _ => ?_)
  simp only [Option.map_some, Option.some.injEq, exists_eq_left']
  rw [Cache.hits_iff_reused hw, Shape.sets_ofCounts hsets]
  rfl

/-- Where all banks are missing, a client has nothing. -/
theorem grants_nothing (h : Interleaved clients n offsetBits (fun _ _ => none) b) :
    Scheme.Grants (.banked b) clients offsetBits 1 0 := by
  refine ⟨congrArg some h.size, fun xs x => ?_⟩
  obtain ⟨b', hb', h'⟩ := h.final xs
  rw [hb']
  refine (h'.hits_iff _ _).trans (and_congr_right fun _ => ?_)
  simp [Reused]

end Banked.Interleaved

/-! ## Regions -/

namespace Regions

/-- After a run, what a client has of the shared cache is what its own accesses
make of its region. -/
theorem Confines.final {f : FixedBits} {i : Nat} {r : Regions} {c : Cache} (h : Confines f i r c) (xs : List Record) :
    ∃ q, Run.final Scheme.step (.regions r) xs = .regions q ∧
      Confines f i q (Run.final Cache.step c (xs.filter fun x => x.client.toNat = i)) := by
  induction xs generalizing r c with
  | nil => exact ⟨r, rfl, h⟩
  | cons x xs ih =>
    rw [Run.final_cons]
    have hi : i < r.clients := (Array.getElem?_eq_some_iff.1 h.fixed).1
    by_cases hx : x.client.toNat = i
    · have hc : (Scheme.regions r).check x.client.toNat = .ok () := checkClient_eq_ok.2 (hx ▸ hi)
      rw [Scheme.step_of_ok hc, List.filter_cons_of_pos (by simpa using hx), Run.final_cons]
      exact ih (hx ▸ h.touch x.address x.kind)
    · rw [List.filter_cons_of_neg (by simpa using hx)]
      cases hc : (Scheme.regions r).check x.client.toNat with
      | error e =>
        rw [Scheme.step_of_error hc]
        exact ih h
      | ok u =>
        rw [Scheme.step_of_ok hc]
        exact ih (h.touch_of_ne hx x.address x.kind)

/-- Clients whose patterns have one width are granted the sets that the pattern
leaves. -/
theorem grants {clients width : Nat} {g : Geometry} {fixed : List FixedBits} {r : Regions}
    (h : ofFixed? clients g fixed = .ok r) (hwidth : ∀ f ∈ fixed, f.width = width) :
    Scheme.Grants (.regions r) clients g.block.log2 (2 ^ (g.sets.log2 - width)) g.ways := by
  obtain ⟨⟨hg, hlen, -⟩, hr⟩ := ofFixed?_eq_ok.1 h
  have hclients : r.clients = clients := by rw [hr]; exact hlen
  obtain ⟨-, ⟨-, hw, -⟩, -⟩ := Geometry.check_eq_ok.1 hg
  refine ⟨congrArg some hclients, fun xs x => ?_⟩
  rcases Nat.lt_or_ge x.client.toNat clients with hi | hi
  · obtain ⟨f, hf⟩ : ∃ f, fixed[x.client.toNat]? = some f := ⟨_, List.getElem?_eq_getElem (hlen ▸ hi)⟩
    obtain ⟨q, hq, hend⟩ := (confines_empty h hf).final xs
    rw [hwidth f (List.mem_of_getElem? hf)] at hend
    have hsets : (Shape.ofCounts (2 ^ (g.sets.log2 - width)) g.ways g.block).sets = 2 ^ (g.sets.log2 - width) :=
      Shape.sets_ofCounts (Bits.isPow2_two_pow _)
    rw [hq, Scheme.hits, hend.hits_eq, and_iff_right hi, Cache.hits_iff_reused hw, hsets]
    rfl
  · have hno := Scheme.hits_of_le (s := Run.final Scheme.step (.regions r) xs) (n := clients)
      ((Scheme.clients?_final _ xs).trans (congrArg some hclients)) hi x.address
    simp only [hno, Bool.false_eq_true, false_iff]
    omega

end Regions

/-! ## Clusters, and undivided caches -/

namespace Banked.Gathered
variable {offsetBits indexBits k : Nat} {b u : Banked}

theorem final (h : Gathered offsetBits indexBits k b u) (xs : List Record) :
    ∃ b' u', Run.final Scheme.step (.banked b) xs = .banked b' ∧
      Run.final Scheme.step (.banked u) xs = .banked u' ∧
      Gathered offsetBits indexBits k b' u' := by
  induction xs generalizing b u with
  | nil => exact ⟨b, u, rfl, rfl, h⟩
  | cons x xs ih =>
    obtain ⟨-, b', u', hb, hu, -, h'⟩ := h.step x
    rw [Run.final_cons, Run.final_cons, hb, hu]
    exact ih h'

/-- Clusters, and the one cache that they are, hit alike. -/
theorem hitsWithin (h : Gathered offsetBits indexBits k b u) :
    Scheme.HitsWithin (.banked b) (.banked u) ∧ Scheme.HitsWithin (.banked u) (.banked b) := by
  have hhits : ∀ (xs : List Record) i a,
      (Run.final Scheme.step (.banked b) xs).hits i a = (Run.final Scheme.step (.banked u) xs).hits i a := by
    intro xs i a
    obtain ⟨b', u', hb, hu, h'⟩ := h.final xs
    rw [hb, hu]
    exact h'.hits_eq i a
  exact ⟨⟨congrArg some h.clients, fun xs x hx => (hhits xs _ _).symm.trans hx⟩,
    ⟨congrArg some h.clients.symm, fun xs x hx => (hhits xs _ _).trans hx⟩⟩

end Banked.Gathered

namespace Scheme

theorem final_plain (c : Cache) (xs : List Record) :
    Run.final step (plain c) xs = plain (Run.final Cache.step c xs) := by
  induction xs generalizing c with
  | nil => rfl
  | cons x xs ih => exact ih (c.touch x.address x.kind)

/-- An undivided cache with more sets hits wherever a smaller one does. -/
theorem hitsWithin_plain {shape shape' : Shape} (hblock : shape'.offsetBits = shape.offsetBits)
    (hsets : shape.sets ∣ shape'.sets) (hpos : 0 < shape.ways) (hways : shape.ways ≤ shape'.ways) :
    HitsWithin (plain (.empty shape)) (plain (.empty shape')) := by
  refine ⟨rfl, fun xs x hx => ?_⟩
  rw [final_plain, hits, Cache.hits_iff_reused hpos] at hx
  rw [final_plain, hits, Cache.hits_iff_reused (Nat.lt_of_lt_of_le hpos hways), Shape.blockOf_congr hblock]
  exact hx.mono hsets hways

end Scheme

end LastLevel
