import LastLevel.Proofs.Counts
import LastLevel.Proofs.Regions
import LastLevel.Scenario.Basic
/-!
# Clients do not disturb one another

In a divided scheme, accesses of different clients touch different parts of the
state: other banks, or other sets of the one cache and other counters. So they
commute, and neither changes what the other finds. `Scheme.Divided` is what a
scheme needs for this, and every scheme except an undivided cache has it
from the start. Private caches in front add nothing that clients share, so the
same holds of a hierarchy: `Hierarchy.separated`. Main statement:
`Scenario.isolated`.
-/

namespace LastLevel

theorem modify_comm {α : Type} (xs : Array α) {i j : Nat} (h : i ≠ j) (f g : α → α) :
    (xs.modify i f).modify j g = (xs.modify j g).modify i f := by
  apply Array.ext_getElem?
  intro k
  simp only [Array.getElem?_modify]
  by_cases hi : i = k
  · have hj : j ≠ k := fun e => h (hi.trans e.symm)
    simp [hi, hj]
  · simp [hi]

/-! ## One cache -/

namespace Cache

theorem eq_of_fields {c d : Cache} (hshape : c.shape = d.shape) (hsets : c.sets = d.sets)
    (htally : c.tally = d.tally) : c = d := by
  obtain ⟨_, _, _, _⟩ := c
  obtain ⟨_, _, _, _⟩ := d
  subst hshape hsets htally
  rfl

/-- An access does not show in the other sets. -/
theorem holdsAt_touchAt_of_ne {c : Cache} {l m : Location} (h : l.set ≠ m.set) (a : Address)
    (kind : AccessKind) : (c.touchAt l a kind).holdsAt m = c.holdsAt m := by
  rw [holdsAt, getElem?_sets_touchAt, if_neg h, holdsAt]

/-- Accesses to different sets commute. -/
theorem touchAt_comm {c : Cache} {l m : Location} (h : l.set ≠ m.set) (a b : Address) (k₁ k₂ : AccessKind) :
    (c.touchAt l a k₁).touchAt m b k₂ = (c.touchAt m b k₂).touchAt l a k₁ := by
  refine eq_of_fields rfl (modify_comm c.sets h (·.touch l.tag a k₁) (·.touch m.tag b k₂)) ?_
  rw [tally_touchAt, tally_touchAt, tally_touchAt, tally_touchAt, holdsAt_touchAt_of_ne h,
    holdsAt_touchAt_of_ne (Ne.symm h), Tally.record_comm]

end Cache

/-! ## Banks -/

namespace Banked
variable {b : Banked} {i j : Nat}

theorem getElem?_touch_of_ne (h : i ≠ j) (a : Address) (kind : AccessKind) :
    (b.touch i a kind).holdings[j]? = b.holdings[j]? := by
  rw [getElem?_touch, if_neg h]

theorem hits_touch_of_ne (h : i ≠ j) (a a' : Address) (kind : AccessKind) :
    (b.touch i a kind).hits j a' = b.hits j a' := by
  rw [hits, getElem?_touch_of_ne h]
  rfl

theorem tally?_touch_of_ne (h : i ≠ j) (a : Address) (kind : AccessKind) :
    (b.touch i a kind).tally? j = b.tally? j := by
  rw [tally?, getElem?_touch_of_ne h, clients_touch, tally?]

theorem touch_comm (h : i ≠ j) (a a' : Address) (k k' : AccessKind) :
    (b.touch i a k).touch j a' k' = (b.touch j a' k').touch i a k := by
  simp only [touch, modify_comm _ h]

end Banked

/-! ## Regions -/

namespace Regions
variable {r : Regions} {i j : Nat}

@[simp] theorem shape_touch (r : Regions) (i : Nat) (a : Address) (kind : AccessKind) :
    (r.touch i a kind).cache.shape = r.cache.shape := by
  unfold touch
  split <;> rfl

theorem touch_of_some {f : FixedBits} (hf : r.fixed[i]? = some f) (a : Address) (kind : AccessKind) :
    r.touch i a kind =
      { r with
        cache := r.cache.touchAt (f.steer r.cache.shape a) a kind
        tallies := r.tallies.modify i (·.record (r.cache.holdsAt (f.steer r.cache.shape a))) } := by
  rw [touch, hf]

theorem touch_of_none (hf : r.fixed[i]? = none) (a : Address) (kind : AccessKind) : r.touch i a kind = r := by
  rw [touch, hf]

theorem apart_touch (h : r.Apart) (i : Nat) (a : Address) (kind : AccessKind) : (r.touch i a kind).Apart := by
  refine ⟨?_, ?_⟩ <;> rw [shape_touch, fixed_touch]
  · exact h.fits
  · exact h.disjoint

theorem hits_touch_of_ne (hr : r.Apart) (h : i ≠ j) (a a' : Address) (kind : AccessKind) :
    (r.touch i a kind).hits j a' = r.hits j a' := by
  rw [hits, fixed_touch, shape_touch, hits]
  cases hj : r.fixed[j]? with
  | none => rfl
  | some g =>
    cases hi : r.fixed[i]? with
    | none => rw [touch_of_none hi]
    | some f =>
      rw [touch_of_some hi]
      exact Cache.holdsAt_touchAt_of_ne (hr.steer_ne h hi hj a a') a kind

theorem tally?_touch_of_ne (h : i ≠ j) (a : Address) (kind : AccessKind) :
    (r.touch i a kind).tally? j = r.tally? j := by
  simp only [tally?, clients, fixed_touch, Array.getD_eq_getD_getElem?, getElem?_tallies_touch r i a kind j h]

theorem touch_comm (hr : r.Apart) (h : i ≠ j) (a a' : Address) (k k' : AccessKind) :
    (r.touch i a k).touch j a' k' = (r.touch j a' k').touch i a k := by
  cases hi : r.fixed[i]? with
  | none => rw [touch_of_none hi, touch_of_none (r := r.touch j a' k') (by rw [fixed_touch]; exact hi)]
  | some f =>
    cases hj : r.fixed[j]? with
    | none => rw [touch_of_none hj, touch_of_none (r := r.touch i a k) (by rw [fixed_touch]; exact hj)]
    | some g =>
      have hne := hr.steer_ne h hi hj a a'
      rw [touch_of_some (i := j) (by rw [fixed_touch]; exact hj), touch_of_some hi,
        touch_of_some (i := i) (by rw [fixed_touch]; exact hi), touch_of_some hj]
      simp only [Cache.shape_touchAt, Cache.holdsAt_touchAt_of_ne hne, Cache.holdsAt_touchAt_of_ne (Ne.symm hne),
        Cache.touchAt_comm hne, modify_comm _ h]

end Regions

/-! ## Schemes -/

namespace Scheme
variable {s : Scheme} {i j : Nat}

/-- The scheme keeps its clients apart. -/
def Divided : Scheme → Prop
  | plain _ => False
  | banked _ => True
  | regions r => r.Apart

theorem divided_touch (h : s.Divided) (i : Nat) (a : Address) (kind : AccessKind) : (s.touch i a kind).Divided := by
  cases s with
  | plain c => exact h.elim
  | banked b => trivial
  | regions r => exact Regions.apart_touch h i a kind

theorem hits_touch_of_ne (hs : s.Divided) (h : i ≠ j) (a a' : Address) (kind : AccessKind) :
    (s.touch i a kind).hits j a' = s.hits j a' := by
  cases s with
  | plain c => exact hs.elim
  | banked b => exact Banked.hits_touch_of_ne h a a' kind
  | regions r => exact Regions.hits_touch_of_ne hs h a a' kind

theorem touch_comm (hs : s.Divided) (h : i ≠ j) (a a' : Address) (k k' : AccessKind) :
    (s.touch i a k).touch j a' k' = (s.touch j a' k').touch i a k := by
  cases s with
  | plain c => exact hs.elim
  | banked b => exact congrArg banked (Banked.touch_comm h a a' k k')
  | regions r => exact congrArg regions (Regions.touch_comm hs h a a' k k')

theorem tally?_touch_of_ne (hs : s.Divided) (h : i ≠ j) (a : Address) (kind : AccessKind) :
    (s.touch i a kind).tally? j = s.tally? j := by
  cases s with
  | plain c => exact hs.elim
  | banked b => exact Banked.tally?_touch_of_ne h a kind
  | regions r => exact Regions.tally?_touch_of_ne h a kind

/-- How many accesses of a client selected a bank that is missing. -/
def unserved? (s : Scheme) (client : Nat) : Option Nat :=
  match s with
  | banked b => b.holdings[client]?.map (·.unserved)
  | _ => none

theorem unserved?_touch_of_ne (h : i ≠ j) (a : Address) (kind : AccessKind) :
    (s.touch i a kind).unserved? j = s.unserved? j := by
  cases s with
  | plain c => rfl
  | banked b => simp only [touch, unserved?, Banked.getElem?_touch_of_ne h]
  | regions r => rfl

/-- Every scheme that is built keeps its clients apart, unless it is an
undivided cache. -/
theorem divided_of_build {p : Plan} (h : p.build = .ok s) (hp : ∀ g, p ≠ .plain g) : s.Divided := by
  cases p with
  | plain g => exact absurd rfl (hp g)
  | intraNode g fixed =>
    obtain ⟨r, hr, rfl⟩ := mapError_map_eq_ok.1 h
    exact Regions.apart_of_ofFixed? hr
  | way ways size block => obtain ⟨b, -, rfl⟩ := mapError_map_eq_ok.1 h; trivial
  | interNode slices g => obtain ⟨b, -, rfl⟩ := mapError_map_eq_ok.1 h; trivial
  | clusterWay clusters ways size block => obtain ⟨b, -, rfl⟩ := mapError_map_eq_ok.1 h; trivial
  | interIntra cells cores ways block => obtain ⟨b, -, rfl⟩ := map_eq_ok.1 h; trivial

end Scheme

/-! ## Hierarchies -/

namespace TwoLevel
variable {t : TwoLevel} {i j : Nat}

theorem eq_of_fields {t u : TwoLevel} (hc : t.cores = u.cores) (hs : t.shared = u.shared) : t = u := by
  cases t
  cases u
  simp only [mk.injEq]
  exact ⟨hc, hs⟩

theorem check_eq_ok {t : TwoLevel} {core client : Nat} :
    t.check core client = .ok () ↔ core < t.cores.size ∧ t.shared.check client = .ok () := by
  unfold check
  cases h : checkClient core t.cores.size with
  | ok u => simp [checkClient_eq_ok.1 h]
  | error e =>
    have hn : ¬ core < t.cores.size := fun hlt => by rw [checkClient_eq_ok.2 hlt] at h; cases h
    simp [hn]

theorem cores_touch (t : TwoLevel) (i k : Nat) (a : Address) (kind : AccessKind) :
    (t.touch i k a kind).cores = t.cores.modify i fun c =>
      { cache := c.cache.touch a kind, tally := c.tally.record (t.hits i k a) } := rfl

theorem shared_touch (t : TwoLevel) (i k : Nat) (a : Address) (kind : AccessKind) :
    (t.touch i k a kind).shared = if t.hitsPrivate i a then t.shared else t.shared.touch k a kind := rfl

theorem getElem?_cores_touch (t : TwoLevel) (i k : Nat) (a : Address) (kind : AccessKind) (j : Nat) :
    (t.touch i k a kind).cores[j]? =
      if i = j then t.cores[j]?.map fun c =>
        { cache := c.cache.touch a kind, tally := c.tally.record (t.hits i k a) }
      else t.cores[j]? := by
  rw [touch, Array.getElem?_modify]
  rfl

theorem hitsPrivate_touch_of_ne (h : i ≠ j) (a a' : Address) (kind : AccessKind) :
    (t.touch i i a kind).hitsPrivate j a' = t.hitsPrivate j a' := by
  rw [hitsPrivate, getElem?_cores_touch, if_neg h, hitsPrivate]

theorem sharedHits_touch_of_ne (ht : t.shared.Divided) (h : i ≠ j) (a a' : Address) (kind : AccessKind) :
    (t.touch i i a kind).shared.hits j a' = t.shared.hits j a' := by
  simp only [touch]
  split
  · rfl
  · exact Scheme.hits_touch_of_ne ht h a a' kind

theorem hits_touch_of_ne (ht : t.shared.Divided) (h : i ≠ j) (a a' : Address) (kind : AccessKind) :
    (t.touch i i a kind).hits j j a' = t.hits j j a' := by
  rw [hits, hitsPrivate_touch_of_ne h, sharedHits_touch_of_ne ht h, hits]

theorem touch_comm (ht : t.shared.Divided) (h : i ≠ j) (a a' : Address) (k k' : AccessKind) :
    (t.touch i i a k).touch j j a' k' = (t.touch j j a' k').touch i i a k := by
  refine eq_of_fields ?_ ?_
  · rw [cores_touch, cores_touch, cores_touch, cores_touch, hits_touch_of_ne ht h,
      hits_touch_of_ne ht (Ne.symm h), modify_comm _ h]
  · rw [shared_touch, shared_touch, shared_touch, shared_touch, hitsPrivate_touch_of_ne h,
      hitsPrivate_touch_of_ne (Ne.symm h)]
    -- Only where both miss privately does the shared level see both.
    cases t.hitsPrivate i a <;> cases t.hitsPrivate j a' <;>
      simp [Scheme.touch_comm ht h]

/-- A step changes nothing about which requests are accepted. -/
theorem check_final (t : TwoLevel) (xs : List Request) (core client : Nat) :
    (Run.final step t xs).check core client = t.check core client := by
  refine Run.final_keeps (I := fun u : TwoLevel => u.check core client = t.check core client) (fun u x hu => ?_) rfl xs
  cases hc : u.check x.core.toNat x.client.toNat with
  | error e => rw [step_of_error hc, hu]
  | ok _ => rw [step_of_ok hc, check_touch, hu]

end TwoLevel

namespace Hierarchy
variable {h : Hierarchy} {i j : Nat}

/-- The scheme keeps its clients apart, behind private caches or not. -/
def Divided (h : Hierarchy) : Prop := h.scheme.Divided

theorem divided_touch (hd : h.Divided) (i : Nat) (a : Address) (kind : AccessKind) :
    (h.touch i a kind).Divided := by
  cases h with
  | flat s => exact Scheme.divided_touch hd i a kind
  | twoLevel t =>
    show (t.touch i i a kind).shared.Divided
    rw [TwoLevel.shared_touch]
    split
    · exact hd
    · exact Scheme.divided_touch hd i a kind

@[simp] theorem check_touch (h : Hierarchy) (i : Nat) (a : Address) (kind : AccessKind) (j : Nat) :
    (h.touch i a kind).check j = h.check j := by
  cases h with
  | flat s => exact Scheme.check_touch s i a kind j
  | twoLevel t => exact TwoLevel.check_touch t i i a kind j j

theorem hits_touch_of_ne (hd : h.Divided) (hij : i ≠ j) (a a' : Address) (kind : AccessKind) :
    (h.touch i a kind).hits j a' = h.hits j a' := by
  cases h with
  | flat s => exact Scheme.hits_touch_of_ne hd hij a a' kind
  | twoLevel t => exact TwoLevel.hits_touch_of_ne hd hij a a' kind

theorem touch_comm (hd : h.Divided) (hij : i ≠ j) (a a' : Address) (k k' : AccessKind) :
    (h.touch i a k).touch j a' k' = (h.touch j a' k').touch i a k := by
  cases h with
  | flat s => exact congrArg flat (Scheme.touch_comm hd hij a a' k k')
  | twoLevel t => exact congrArg twoLevel (TwoLevel.touch_comm hd hij a a' k k')

theorem tally?_touch_of_ne (hd : h.Divided) (hij : i ≠ j) (a : Address) (kind : AccessKind) :
    (h.touch i a kind).tally? j = h.tally? j := by
  cases h with
  | flat s => exact Scheme.tally?_touch_of_ne hd hij a kind
  | twoLevel t =>
    show (t.touch i i a kind).tally? j = t.tally? j
    rw [TwoLevel.tally?, TwoLevel.getElem?_cores_touch, if_neg hij, TwoLevel.cores_size_touch, TwoLevel.tally?]

/-- What only accesses that reach the scheme can change, no other client's do. -/
theorem scheme_view_touch_of_ne {β : Type} (view : Scheme → β)
    (hv : ∀ s : Scheme, s.Divided → ∀ a kind, view (s.touch i a kind) = view s) (hd : h.Divided) (a : Address)
    (kind : AccessKind) : view (h.touch i a kind).scheme = view h.scheme := by
  cases h with
  | flat s => exact hv s hd a kind
  | twoLevel t =>
    show view (t.touch i i a kind).shared = view t.shared
    rw [TwoLevel.shared_touch]
    split
    · rfl
    · exact hv t.shared hd a kind

/-! ### Steps -/

/-- A step is an access, or it changes nothing. -/
theorem step_state (h : Hierarchy) (x : Record) :
    (h.step x).2 = h.touch x.client.toNat x.address x.kind ∨ (h.step x).2 = h := by
  cases hc : h.check x.client.toNat with
  | ok u => exact .inl (by rw [step_of_ok hc])
  | error e => exact .inr (by rw [step_of_error hc])

/-- A step changes nothing about who is refused. -/
theorem check_final (h : Hierarchy) (xs : List Record) (client : Nat) :
    (Run.final step h xs).check client = h.check client := by
  refine Run.final_keeps (I := fun k : Hierarchy => k.check client = h.check client) (fun k x hk => ?_) rfl xs
  rcases step_state k x with he | he <;> rw [he]
  · rw [check_touch, hk]
  · exact hk

/-- Steps of different clients commute, and neither shows in the answer to the
other. -/
theorem separated : Run.Separated step Record.client Divided where
  keeps h x hd := by
    rcases step_state h x with he | he <;> rw [he]
    · exact divided_touch hd _ _ _
    · exact hd
  answer h x y hd hxy := by
    have hne : x.client.toNat ≠ y.client.toNat := fun e => hxy (UInt64.toNat_inj.1 e)
    rcases step_state h x with he | he <;> rw [he]
    simp only [step, access, check_touch, hits_touch_of_ne hd hne]
    cases h.check y.client.toNat <;> rfl
  commutes h x y hd hxy := by
    have hne : x.client.toNat ≠ y.client.toNat := fun e => hxy (UInt64.toNat_inj.1 e)
    -- A refused step changes nothing, and no step changes who is refused.
    cases hx : h.check x.client.toNat with
    | error e =>
      have hx' : (h.step y).2.check x.client.toNat = .error e := by
        rcases step_state h y with he | he <;> rw [he]
        · rw [check_touch, hx]
        · exact hx
      rw [step_of_error hx, step_of_error hx']
    | ok u =>
      rw [step_of_ok hx]
      cases hy : h.check y.client.toNat with
      | error e =>
        have hy' : (h.touch x.client.toNat x.address x.kind).check y.client.toNat = .error e := by
          rw [check_touch, hy]
        rw [step_of_error hy, step_of_error hy', step_of_ok hx]
      | ok u =>
        rw [step_of_ok hy, step_of_ok (by rw [check_touch, hy]), step_of_ok (by rw [check_touch, hx])]
        exact touch_comm hd hne _ _ _ _

/-- What accesses of other clients leave alone is as if the client were alone. -/
theorem view_final {β : Type} (view : Hierarchy → β) (i : UInt64)
    (hv : ∀ (h : Hierarchy) (j : Nat) a kind, h.Divided → j ≠ i.toNat → view (h.touch j a kind) = view h)
    (hd : h.Divided) (xs : List Record) :
    view (Run.final step h xs) = view (Run.final step h (xs.filter fun x => x.client = i)) := by
  apply separated.view_final view i _ hd xs
  intro h x hd hx
  rcases step_state h x with he | he <;> rw [he]
  exact hv h _ _ _ hd fun e => hx (UInt64.toNat_inj.1 e)

theorem divided_of_build {p : Plan} {level : Option PrivateLevel} (hb : build p level = .ok h)
    (hp : ∀ g, p ≠ .plain g) : h.Divided := by
  unfold build at hb
  split at hb
  · cases hb
  · next s hs => cases hb; exact Scheme.divided_of_build hs hp
  · next s l hs =>
    split at hb
    · cases hb
    · next c hc =>
      obtain ⟨t, ht, rfl⟩ := mapError_map_eq_ok.1 hb
      unfold TwoLevel.build at ht
      split at ht
      · cases ht
      · cases ht; exact Scheme.divided_of_build hs hp

end Hierarchy

namespace Scenario

/-- On every scenario that is built and not undivided, a client gets the answers
and the counts it would get alone, and two traces in which every client does the
same leave the same hierarchy behind. -/
theorem isolated {s : Scenario} {h : Hierarchy} (hb : s.build = .ok h) (hp : ∀ g, s.plan ≠ .plain g) :
    (∀ (xs : List Record) (i : UInt64),
      let own := xs.filter fun x => x.client = i
      let together := Run.final Hierarchy.step h xs
      let alone := Run.final Hierarchy.step h own
      ((Run.log Hierarchy.step h xs).filter fun e => e.1.client = i) = Run.log Hierarchy.step h own ∧
      together.tally? i.toNat = alone.tally? i.toNat ∧
      together.scheme.tally? i.toNat = alone.scheme.tally? i.toNat ∧
      together.scheme.unserved? i.toNat = alone.scheme.unserved? i.toNat) ∧
    ∀ t u : Trace,
      (∀ i, (t.records.filter fun x => x.client = i) = u.records.filter fun x => x.client = i) →
      ∃ r q, s.replay t = .ok r ∧ s.replay u = .ok q ∧
        r.hierarchy = Run.final Hierarchy.step h t.records ∧ r.hierarchy = q.hierarchy := by
  have hd : h.Divided := Hierarchy.divided_of_build hb hp
  refine ⟨fun xs i => ⟨?_, ?_, ?_, ?_⟩, ?_⟩
  · exact Hierarchy.separated.log_filter hd xs i
  · exact Hierarchy.view_final (·.tally? i.toNat) i
      (fun h j a kind hd hj => Hierarchy.tally?_touch_of_ne hd hj a kind) hd xs
  · exact Hierarchy.view_final (·.scheme.tally? i.toNat) i
      (fun h j a kind hd hj => Hierarchy.scheme_view_touch_of_ne (·.tally? i.toNat)
        (fun s hs a kind => Scheme.tally?_touch_of_ne hs hj a kind) hd a kind) hd xs
  · exact Hierarchy.view_final (·.scheme.unserved? i.toNat) i
      (fun h j a kind hd hj => Hierarchy.scheme_view_touch_of_ne (·.unserved? i.toNat)
        (fun s _ a kind => Scheme.unserved?_touch_of_ne hj a kind) hd a kind) hd xs
  · intro t u htu
    refine ⟨_, _, by rw [replay, hb], by rw [replay, hb], ?_, ?_⟩
    · rw [Replay.hierarchy_run]
    · rw [Replay.hierarchy_run, Replay.hierarchy_run]
      exact Hierarchy.separated.final_eq hd htu

/-- Two clients in front of one cache, each behind a private cache, in two
orders of their accesses. -/
theorem isolated_interleaved :
    let s : Scenario :=
      { label := "", plan := .intraNode ⟨128, 2, 16⟩ [⟨0, 1⟩, ⟨1, 1⟩], level := some ⟨2, ⟨32, 1, 16⟩⟩ }
    let t : Trace := ⟨"t", [⟨0x00, 0, .write⟩, ⟨0x00, 1, .read⟩, ⟨0x40, 0, .read⟩, ⟨0x40, 1, .read⟩, ⟨0x00, 7, .read⟩]⟩
    let u : Trace := ⟨"u", [⟨0x00, 7, .read⟩, ⟨0x00, 1, .read⟩, ⟨0x40, 1, .read⟩, ⟨0x00, 0, .write⟩, ⟨0x40, 0, .read⟩]⟩
    (∀ g, s.plan ≠ .plain g) ∧ ∃ h, s.build = .ok h ∧
      ((Run.log Hierarchy.step h t.records).filter fun e => e.1.client = 0) =
        Run.log Hierarchy.step h [⟨0x00, 0, .write⟩, ⟨0x40, 0, .read⟩] ∧
      ∃ r q, s.replay t = .ok r ∧ s.replay u = .ok q ∧ r.hierarchy = q.hierarchy := by
  intro s t u
  have hp : ∀ g, s.plan ≠ .plain g := by simp [s]
  obtain ⟨h, hb⟩ : ∃ h, s.build = .ok h := ⟨_, rfl⟩
  obtain ⟨halone, hsame⟩ := isolated hb hp
  obtain ⟨r, q, hr, hq, -, he⟩ := hsame t u (fun i => by
    by_cases h0 : i = 0
    · subst h0; rfl
    · by_cases h1 : i = 1
      · subst h1; rfl
      · simp only [t, u, List.filter_cons, decide_eq_true_eq, Ne.symm h0, Ne.symm h1, if_false])
  exact ⟨hp, h, hb, (halone t.records 0).1, r, q, hr, hq, he⟩

end Scenario

end LastLevel
