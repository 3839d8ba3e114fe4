import LastLevel.Proofs.Offsets
/-!
# What kinds and offsets do not touch

An access looks at the block of its address, and writes down two more things:
the address itself, and whether it was a write. The outline of a state leaves
these two out, and keeps which blocks are held, by which way and in which order
of use, and every count. Two states with one outline answer an access alike, and
go on with one outline, even if the two accesses differ in kind and inside the
block: `Scheme.touch_alike`, `Hierarchy.step_alike`. Main statement:
`Scenario.kinds_and_offsets_do_not_count`.
-/

namespace LastLevel

/-! ## Outlines -/

/-- The slot without the address of its block, and as if the block were clean. -/
def Slot.outline (s : Slot) : Slot :=
  { s with line := s.line.map fun l => { l with address := 0, dirty := false } }

def CacheSet.outline (s : CacheSet) : CacheSet := ⟨s.slots.map Slot.outline⟩

def Cache.outline (c : Cache) : Cache :=
  { c with sets := c.sets.map CacheSet.outline, sets_size := by rw [Array.size_map, c.sets_size] }

def Holding.outline (h : Holding) : Holding := { h with banks := h.banks.map (·.map Cache.outline) }

def Banked.outline (b : Banked) : Banked := { b with holdings := b.holdings.map Holding.outline }

def Regions.outline (r : Regions) : Regions := { r with cache := r.cache.outline }

def Scheme.outline : Scheme → Scheme
  | plain c => plain c.outline
  | banked b => banked b.outline
  | regions r => regions r.outline

def Core.outline (c : Core) : Core := { c with cache := c.cache.outline }

def TwoLevel.outline (t : TwoLevel) : TwoLevel :=
  { cores := t.cores.map Core.outline, shared := t.shared.outline }

def Hierarchy.outline : Hierarchy → Hierarchy
  | flat s => flat s.outline
  | twoLevel t => twoLevel t.outline

/-- Changing one element in two arrays that look alike. -/
theorem map_modify_congr {α β : Type} {g : α → β} {xs ys : Array α} {i : Nat} {f f' : α → α}
    (h : xs.map g = ys.map g)
    (hf : ∀ x y, xs[i]? = some x → ys[i]? = some y → g x = g y → g (f x) = g (f' y)) :
    (xs.modify i f).map g = (ys.modify i f').map g := by
  apply Array.ext_getElem?
  intro k
  have hk : xs[k]?.map g = ys[k]?.map g := by
    have := congrArg (fun zs : Array β => zs[k]?) h
    simpa using this
  simp only [Array.getElem?_map, Array.getElem?_modify]
  by_cases hik : i = k
  · subst hik
    simp only [if_true, Option.map_map]
    cases hx : xs[i]? with
    | none =>
      rw [hx] at hk
      cases hy : ys[i]? with
      | none => rfl
      | some y => rw [hy] at hk; cases hk
    | some x =>
      rw [hx] at hk
      cases hy : ys[i]? with
      | none => rw [hy] at hk; cases hk
      | some y =>
        rw [hy] at hk
        exact congrArg some (hf x y hx hy (Option.some.inj hk))
  · simp only [hik, if_false]
    exact hk

/-! ## Sets and caches -/

namespace CacheSet

theorem slot_holds_outline (x : Slot) (tag : Nat) : x.outline.holds tag = x.holds tag := by
  cases h : x.line <;> simp [Slot.holds, Slot.outline, h]

theorem slot_outline_mark (x : Slot) (kind : AccessKind) : (x.mark kind).outline = x.outline.mark .read := by
  cases kind with
  | read => rfl
  | write => cases h : x.line <;> simp [Slot.mark, Slot.outline, h]

theorem holds_outline (s : CacheSet) (tag : Nat) : s.outline.holds tag = s.holds tag := by
  simp only [holds, outline, List.any_map, Function.comp_def, slot_holds_outline]

theorem outline_touch (s : CacheSet) (tag : Nat) (a : Address) (kind : AccessKind) :
    (s.touch tag a kind).outline = s.outline.touch tag 0 .read :=
  map_touch (slot_holds_outline · tag) (slot_outline_mark · kind) (fun _ => rfl) s

end CacheSet

namespace Cache

theorem holdsAt_outline (c : Cache) (l : Location) : c.outline.holdsAt l = c.holdsAt l := by
  simp only [holdsAt, outline, Array.getElem?_map]
  cases c.sets[l.set]? with
  | none => rfl
  | some s => exact s.holds_outline l.tag

theorem outline_touchAt (c : Cache) (l : Location) (a : Address) (kind : AccessKind) :
    (c.touchAt l a kind).outline = c.outline.touchAt l 0 .read := by
  refine eq_of_fields rfl ?_ ?_
  · apply Array.ext_getElem?
    intro i
    simp only [outline, Array.getElem?_map, getElem?_sets_touchAt]
    split
    · cases c.sets[i]? with
      | none => rfl
      | some s => exact congrArg some (s.outline_touch l.tag a kind)
    · rfl
  · rw [tally_touchAt, holdsAt_outline]
    rfl

variable {c d : Cache}

theorem shape_eq_of_outline (h : c.outline = d.outline) : c.shape = d.shape :=
  show c.outline.shape = d.outline.shape from congrArg Cache.shape h

theorem tally_eq_of_outline (h : c.outline = d.outline) : c.tally = d.tally :=
  show c.outline.tally = d.outline.tally from congrArg Cache.tally h

theorem holdsAt_eq_of_outline (h : c.outline = d.outline) (l : Location) : c.holdsAt l = d.holdsAt l := by
  rw [← holdsAt_outline, h, holdsAt_outline]

theorem touchAt_alike (h : c.outline = d.outline) (l : Location) (a b : Address) (kind kind' : AccessKind) :
    (c.touchAt l a kind).outline = (d.touchAt l b kind').outline := by
  rw [outline_touchAt, outline_touchAt, h]

end Cache

/-! ## Addresses in one block -/

/-- Two addresses that agree above their lowest bits. -/
def SameBlock (offsetBits : Nat) (a b : Address) : Prop := a.toNat / 2 ^ offsetBits = b.toNat / 2 ^ offsetBits

namespace SameBlock

variable {o : Nat} {a b : Address}

/-- Small blocks lie inside of large ones. -/
theorem mono (h : SameBlock o a b) {p : Nat} (hp : o ≤ p) : SameBlock p a b := by
  obtain ⟨k, rfl⟩ := Nat.exists_eq_add_of_le hp
  show a.toNat / 2 ^ (o + k) = b.toNat / 2 ^ (o + k)
  rw [Nat.pow_add, ← Nat.div_div_eq_div_mul, ← Nat.div_div_eq_div_mul, h]

theorem field_eq (h : SameBlock o a b) (width : Nat) :
    Bits.field a.toNat o width = Bits.field b.toNat o width := by
  rw [Bits.field_toNat, Bits.field_toNat, h]

theorem locate_eq {s : Shape} (hs : s.offsetBits = o) (h : SameBlock o a b) : s.locate a = s.locate b := by
  subst hs
  have hb : s.blockOf a = s.blockOf b := h
  rw [Shape.locate_eq, Shape.locate_eq, hb]

theorem steer_eq {s : Shape} (hs : s.offsetBits = o) (h : SameBlock o a b) (f : FixedBits) :
    f.steer s a = f.steer s b := by
  subst hs
  simp only [FixedBits.steer, h.field_eq]

/-- A bank is chosen by the block, and sees the two addresses in one block. -/
theorem route_eq {d : Division} (hd : d.RoutesBy o) (h : SameBlock o a b) (client banks : Nat) :
    (d.route client banks a).1 = (d.route client banks b).1 ∧
      SameBlock o (d.route client banks a).2 (d.route client banks b).2 := by
  cases d with
  | ways sets => exact ⟨rfl, h⟩
  | slices offsetBits selectionBits =>
    obtain rfl : offsetBits = o := hd
    refine ⟨?_, h⟩
    simp only [Division.route, Division.sliceOf, h.field_eq]
  | clusters offsetBits clusterBits =>
    obtain rfl : offsetBits = o := hd
    refine ⟨h.field_eq clusterBits, ?_⟩
    show (Bits.squeeze a offsetBits clusterBits).toNat / _ = (Bits.squeeze b offsetBits clusterBits).toNat / _
    rw [blockOf_squeeze, blockOf_squeeze, h]
  | cells offsetBits clusters tables =>
    obtain rfl : offsetBits = o := hd
    refine ⟨?_, h⟩
    simp only [Division.route, Division.cellOf?, CoreTable.selector, h.field_eq]

end SameBlock

/-! ## Schemes -/

namespace Cache
variable {c d : Cache} {o : Nat} {a b : Address}

theorem locate_alike (h : c.outline = d.outline) (hc : c.shape.offsetBits = o) (hab : SameBlock o a b) :
    c.locate a = d.locate b := by
  rw [locate, locate, ← shape_eq_of_outline h]
  exact hab.locate_eq hc

theorem hits_alike (h : c.outline = d.outline) (hc : c.shape.offsetBits = o) (hab : SameBlock o a b) :
    c.hits a = d.hits b := by
  rw [hits, hits, locate_alike h hc hab]
  exact holdsAt_eq_of_outline h _

theorem touch_alike (h : c.outline = d.outline) (hc : c.shape.offsetBits = o) (hab : SameBlock o a b)
    (kind kind' : AccessKind) : (c.touch a kind).outline = (d.touch b kind').outline := by
  rw [touch, touch, locate_alike h hc hab]
  exact touchAt_alike h _ a b kind kind'

end Cache

namespace Holding
variable {h k : Holding} {o : Nat} {a b : Address}

theorem bank?_outline (h : Holding) (i : Nat) : h.outline.bank? i = (h.bank? i).map Cache.outline := by
  simp only [bank?, outline, Array.getElem?_map]
  cases h.banks[i]? <;> rfl

/-- Each bank is missing in both or has one outline in both. -/
theorem bank_cases (he : h.outline = k.outline) (i : Nat) :
    (h.bank? i = none ∧ k.bank? i = none) ∨
      ∃ c d, h.bank? i = some c ∧ k.bank? i = some d ∧ c.outline = d.outline := by
  have hi := (bank?_outline h i).symm.trans ((congrArg (bank? · i) he).trans (bank?_outline k i))
  cases hc : h.bank? i <;> cases hd : k.bank? i <;> simp_all

theorem size_eq_of_outline (he : h.outline = k.outline) : h.banks.size = k.banks.size := by
  simpa [outline] using congrArg (fun h => h.banks.size) he

theorem unserved_eq_of_outline (he : h.outline = k.outline) : h.unserved = k.unserved :=
  show h.outline.unserved = k.outline.unserved from congrArg Holding.unserved he

theorem tally_outline (h : Holding) : h.outline.tally = h.tally := by
  unfold tally outline
  congr 1
  rw [Array.toList_map, List.filterMap_map]
  congr 1
  funext c
  cases c <;> rfl

theorem tally_eq_of_outline (he : h.outline = k.outline) : h.tally = k.tally := by
  rw [← tally_outline, he, tally_outline]

variable (hbanks : ∀ (j : Nat) (c : Cache), h.bank? j = some c → c.shape.offsetBits = o)
include hbanks

theorem hits_alike (he : h.outline = k.outline) (hab : SameBlock o a b) (i : Nat) : h.hits i a = k.hits i b := by
  unfold hits
  rcases bank_cases he i with ⟨hn, kn⟩ | ⟨c, d, hc, hd, hcd⟩
  · rw [hn, kn]
  · rw [hc, hd]
    exact Cache.hits_alike hcd (hbanks i c hc) hab

theorem touch_alike (he : h.outline = k.outline) (hab : SameBlock o a b) (i : Nat) (kind kind' : AccessKind) :
    (h.touch i a kind).outline = (k.touch i b kind').outline := by
  have hmap : h.banks.map (·.map Cache.outline) = k.banks.map (·.map Cache.outline) := congrArg Holding.banks he
  have hunserved := unserved_eq_of_outline he
  rcases bank_cases he i with ⟨hn, kn⟩ | ⟨c, d, hc, hd, hcd⟩
  · rw [touch_of_none hn, touch_of_none kn, outline, outline, hmap, hunserved]
  · have hsome : (h.bank? i).isSome := by rw [hc]; rfl
    have ksome : (k.bank? i).isSome := by rw [hd]; rfl
    rw [touch, touch, if_pos hsome, if_pos ksome, outline, outline, hunserved]
    congr 1
    refine map_modify_congr hmap fun x y hx hy _ => ?_
    obtain rfl : x = some c := by simpa [bank?, hx] using hc
    obtain rfl : y = some d := by simpa [bank?, hy] using hd
    exact congrArg some (Cache.touch_alike hcd (hbanks i c hc) hab kind kind')

end Holding

namespace Banked
variable {b d : Banked} {o : Nat} {a a' : Address}

/-- Each client is missing in both, or what it owns has one outline in both. -/
theorem holding_cases (he : b.outline = d.outline) (i : Nat) :
    (b.holdings[i]? = none ∧ d.holdings[i]? = none) ∨
      ∃ h k, b.holdings[i]? = some h ∧ d.holdings[i]? = some k ∧ h.outline = k.outline := by
  have hi : b.holdings[i]?.map Holding.outline = d.holdings[i]?.map Holding.outline := by
    simpa [outline] using congrArg (fun b => b.holdings[i]?) he
  cases hh : b.holdings[i]? <;> cases hk : d.holdings[i]? <;> simp_all

theorem clients_eq_of_outline (he : b.outline = d.outline) : b.clients = d.clients := by
  simpa [outline, clients] using congrArg (fun b => b.holdings.size) he

theorem division_eq_of_outline (he : b.outline = d.outline) : b.division = d.division :=
  show b.outline.division = d.outline.division from congrArg Banked.division he

theorem hits_alike (hb : b.RoutesBy o) (he : b.outline = d.outline) (hab : SameBlock o a a') (client : Nat) :
    b.hits client a = d.hits client a' := by
  unfold hits
  rcases holding_cases he client with ⟨hn, kn⟩ | ⟨h, k, hh, hk, hhk⟩
  · rw [hn, kn]
  · obtain ⟨hfst, hsnd⟩ := hab.route_eq hb.division client h.banks.size
    rw [hh, hk]
    dsimp only
    rw [← division_eq_of_outline he, ← Holding.size_eq_of_outline hhk, ← hfst]
    exact Holding.hits_alike (hb.bank client h hh) hhk hsnd _

theorem touch_alike (hb : b.RoutesBy o) (he : b.outline = d.outline) (hab : SameBlock o a a') (client : Nat)
    (kind kind' : AccessKind) : (b.touch client a kind).outline = (d.touch client a' kind').outline := by
  have hmap : b.holdings.map Holding.outline = d.holdings.map Holding.outline := congrArg Banked.holdings he
  unfold touch outline
  dsimp only
  rw [← division_eq_of_outline he]
  congr 1
  refine map_modify_congr hmap fun h k hh hk hhk => ?_
  obtain ⟨hfst, hsnd⟩ := hab.route_eq hb.division client h.banks.size
  rw [← Holding.size_eq_of_outline hhk, ← hfst]
  exact Holding.touch_alike (hb.bank client h hh) hhk hsnd _ kind kind'

end Banked

namespace Regions
variable {r q : Regions} {o : Nat} {a b : Address}

theorem fixed_eq_of_outline (he : r.outline = q.outline) : r.fixed = q.fixed :=
  show r.outline.fixed = q.outline.fixed from congrArg Regions.fixed he

theorem tallies_eq_of_outline (he : r.outline = q.outline) : r.tallies = q.tallies :=
  show r.outline.tallies = q.outline.tallies from congrArg Regions.tallies he

theorem cache_of_outline (he : r.outline = q.outline) : r.cache.outline = q.cache.outline := congrArg Regions.cache he

theorem steer_alike (hr : r.cache.shape.offsetBits = o) (he : r.outline = q.outline) (hab : SameBlock o a b)
    (f : FixedBits) : f.steer r.cache.shape a = f.steer q.cache.shape b := by
  rw [← Cache.shape_eq_of_outline (cache_of_outline he)]
  exact hab.steer_eq hr f

theorem hits_alike (hr : r.cache.shape.offsetBits = o) (he : r.outline = q.outline) (hab : SameBlock o a b)
    (client : Nat) : r.hits client a = q.hits client b := by
  unfold hits
  rw [← fixed_eq_of_outline he]
  cases r.fixed[client]? with
  | none => rfl
  | some f =>
    dsimp only
    rw [steer_alike hr he hab]
    exact Cache.holdsAt_eq_of_outline (cache_of_outline he) _

theorem touch_alike (hr : r.cache.shape.offsetBits = o) (he : r.outline = q.outline) (hab : SameBlock o a b)
    (client : Nat) (kind kind' : AccessKind) : (r.touch client a kind).outline = (q.touch client b kind').outline := by
  have hfixed := fixed_eq_of_outline he
  cases hf : r.fixed[client]? with
  | none => rwa [touch_of_none hf, touch_of_none (hfixed ▸ hf)]
  | some f =>
    rw [touch_of_some hf, touch_of_some (hfixed ▸ hf), outline, outline]
    simp only [steer_alike hr he hab, Cache.holdsAt_eq_of_outline (cache_of_outline he), hfixed,
      tallies_eq_of_outline he, Cache.touchAt_alike (cache_of_outline he) _ a b kind kind']

end Regions

namespace Scheme
variable {s u : Scheme} {o : Nat} {a b : Address}

theorem clients?_outline (s : Scheme) : s.outline.clients? = s.clients? := by
  cases s with
  | plain c => rfl
  | banked b => simp [outline, clients?, Banked.outline, Banked.clients]
  | regions r => rfl

theorem check_alike (he : s.outline = u.outline) (client : Nat) : s.check client = u.check client := by
  rw [check, check, ← clients?_outline s, he, clients?_outline]

/-- Schemes with one outline are of one kind. -/
theorem cases_of_outline (he : s.outline = u.outline) :
    (∃ c d, s = plain c ∧ u = plain d ∧ c.outline = d.outline) ∨
      (∃ b d, s = banked b ∧ u = banked d ∧ b.outline = d.outline) ∨
      ∃ r q, s = regions r ∧ u = regions q ∧ r.outline = q.outline := by
  cases s <;> cases u <;> simp [outline] at he ⊢
  all_goals exact he

theorem hits_alike (hs : s.RoutesBy o) (he : s.outline = u.outline) (hab : SameBlock o a b) (client : Nat) :
    s.hits client a = u.hits client b := by
  obtain ⟨c, d, rfl, rfl, hcd⟩ | ⟨x, y, rfl, rfl, hxy⟩ | ⟨r, q, rfl, rfl, hrq⟩ := cases_of_outline he
  · exact Cache.hits_alike hcd hs hab
  · exact Banked.hits_alike hs hxy hab client
  · exact Regions.hits_alike hs hrq hab client

theorem touch_alike (hs : s.RoutesBy o) (he : s.outline = u.outline) (hab : SameBlock o a b) (client : Nat)
    (kind kind' : AccessKind) : (s.touch client a kind).outline = (u.touch client b kind').outline := by
  obtain ⟨c, d, rfl, rfl, hcd⟩ | ⟨x, y, rfl, rfl, hxy⟩ | ⟨r, q, rfl, rfl, hrq⟩ := cases_of_outline he
  · exact congrArg plain (Cache.touch_alike hcd hs hab kind kind')
  · exact congrArg banked (Banked.touch_alike hs hxy hab client kind kind')
  · exact congrArg regions (Regions.touch_alike hs hrq hab client kind kind')

/-- Every count of a client shows in the outline. -/
theorem tally?_eq_of_outline (he : s.outline = u.outline) (client : Nat) : s.tally? client = u.tally? client := by
  obtain ⟨c, d, rfl, rfl, hcd⟩ | ⟨x, y, rfl, rfl, hxy⟩ | ⟨r, q, rfl, rfl, hrq⟩ := cases_of_outline he
  · exact congrArg Except.ok (Cache.tally_eq_of_outline hcd)
  · simp only [tally?, Banked.tally?]
    rcases Banked.holding_cases hxy client with ⟨hn, kn⟩ | ⟨h, k, hh, hk, hhk⟩
    · rw [hn, kn, Banked.clients_eq_of_outline hxy]
    · rw [hh, hk]
      exact congrArg Except.ok (Holding.tally_eq_of_outline hhk)
  · show r.tally? client = q.tally? client
    rw [Regions.tally?, Regions.tally?, Regions.clients, Regions.clients, Regions.fixed_eq_of_outline hrq,
      Regions.tallies_eq_of_outline hrq]

theorem unserved?_eq_of_outline (he : s.outline = u.outline) (client : Nat) :
    s.unserved? client = u.unserved? client := by
  obtain ⟨c, d, rfl, rfl, -⟩ | ⟨x, y, rfl, rfl, hxy⟩ | ⟨r, q, rfl, rfl, -⟩ := cases_of_outline he
  · rfl
  · simp only [unserved?]
    rcases Banked.holding_cases hxy client with ⟨hn, kn⟩ | ⟨h, k, hh, hk, hhk⟩
    · rw [hn, kn]
    · rw [hh, hk]
      exact congrArg some (Holding.unserved_eq_of_outline hhk)
  · rfl

end Scheme

/-! ## Hierarchies -/

namespace TwoLevel
variable {t u : TwoLevel} {o : Nat} {a b : Address}

/-- No split of an address on either level takes off fewer offset bits. -/
structure SplitsAbove (o : Nat) (t : TwoLevel) : Prop where
  cores : ∀ (i : Nat) (c : Core), t.cores[i]? = some c → o ≤ c.cache.shape.offsetBits
  shared : ∃ p, o ≤ p ∧ t.shared.RoutesBy p

theorem SplitsAbove.touch (ht : t.SplitsAbove o) (core client : Nat) (a : Address) (kind : AccessKind) :
    (t.touch core client a kind).SplitsAbove o := by
  refine ⟨fun i c hi => ?_, ?_⟩
  · rw [getElem?_cores_touch] at hi
    split at hi
    · obtain ⟨c, hc, rfl⟩ := Option.map_eq_some_iff.1 hi
      exact ht.cores i c hc
    · exact ht.cores i c hi
  · obtain ⟨p, hp, hs⟩ := ht.shared
    rw [shared_touch]
    split
    · exact ⟨p, hp, hs⟩
    · exact ⟨p, hp, hs.touch client a kind⟩

theorem shared_of_outline (he : t.outline = u.outline) : t.shared.outline = u.shared.outline :=
  congrArg TwoLevel.shared he

/-- Each core is missing in both or has one outline in both. -/
theorem core_cases (he : t.outline = u.outline) (i : Nat) :
    (t.cores[i]? = none ∧ u.cores[i]? = none) ∨
      ∃ c d, t.cores[i]? = some c ∧ u.cores[i]? = some d ∧ c.outline = d.outline := by
  have hi : t.cores[i]?.map Core.outline = u.cores[i]?.map Core.outline := by
    simpa [outline] using congrArg (fun t => t.cores[i]?) he
  cases hc : t.cores[i]? <;> cases hd : u.cores[i]? <;> simp_all

theorem size_eq_of_outline (he : t.outline = u.outline) : t.cores.size = u.cores.size := by
  simpa [outline] using congrArg (fun t => t.cores.size) he

theorem check_alike (he : t.outline = u.outline) (core client : Nat) : t.check core client = u.check core client := by
  rw [check, check, size_eq_of_outline he, Scheme.check_alike (shared_of_outline he)]

theorem hitsPrivate_alike (ht : t.SplitsAbove o) (he : t.outline = u.outline) (hab : SameBlock o a b) (core : Nat) :
    t.hitsPrivate core a = u.hitsPrivate core b := by
  unfold hitsPrivate
  rcases core_cases he core with ⟨hn, kn⟩ | ⟨c, d, hc, hd, hcd⟩
  · rw [hn, kn]
  · rw [hc, hd]
    exact Cache.hits_alike (congrArg Core.cache hcd) rfl (hab.mono (ht.cores core c hc))

theorem hits_alike (ht : t.SplitsAbove o) (he : t.outline = u.outline) (hab : SameBlock o a b) (core client : Nat) :
    t.hits core client a = u.hits core client b := by
  obtain ⟨p, hp, hs⟩ := ht.shared
  rw [hits, hits, hitsPrivate_alike ht he hab, Scheme.hits_alike hs (shared_of_outline he) (hab.mono hp)]

theorem touch_alike (ht : t.SplitsAbove o) (he : t.outline = u.outline) (hab : SameBlock o a b) (core client : Nat)
    (kind kind' : AccessKind) : (t.touch core client a kind).outline = (u.touch core client b kind').outline := by
  refine eq_of_fields ?_ ?_
  · show (t.touch core client a kind).cores.map Core.outline = (u.touch core client b kind').cores.map Core.outline
    rw [cores_touch, cores_touch, hits_alike ht he hab]
    refine map_modify_congr (congrArg TwoLevel.cores he) fun c d hc _ hcd => ?_
    have hcache := Cache.touch_alike (congrArg Core.cache hcd) rfl (hab.mono (ht.cores core c hc)) kind kind'
    have htally : c.tally = d.tally := show c.outline.tally = d.outline.tally from congrArg Core.tally hcd
    rw [Core.outline, Core.outline, htally]
    exact congrArg (fun cache => Core.mk cache _) hcache
  · show (t.touch core client a kind).shared.outline = (u.touch core client b kind').shared.outline
    rw [shared_touch, shared_touch, hitsPrivate_alike ht he hab]
    split
    · exact shared_of_outline he
    · obtain ⟨p, hp, hs⟩ := ht.shared
      exact Scheme.touch_alike hs (shared_of_outline he) (hab.mono hp) client kind kind'

theorem tally?_eq_of_outline (he : t.outline = u.outline) (core : Nat) : t.tally? core = u.tally? core := by
  unfold tally?
  rcases core_cases he core with ⟨hn, kn⟩ | ⟨c, d, hc, hd, hcd⟩
  · rw [hn, kn, size_eq_of_outline he]
  · rw [hc, hd]
    exact congrArg Except.ok (show c.outline.tally = d.outline.tally from congrArg Core.tally hcd)

end TwoLevel

namespace Hierarchy
variable {h k : Hierarchy} {o : Nat} {a b : Address}

/-- No split of an address in the hierarchy takes off fewer offset bits. -/
def SplitsAbove (o : Nat) : Hierarchy → Prop
  | flat s => ∃ p, o ≤ p ∧ s.RoutesBy p
  | twoLevel t => t.SplitsAbove o

theorem SplitsAbove.touch (hs : h.SplitsAbove o) (client : Nat) (a : Address) (kind : AccessKind) :
    (h.touch client a kind).SplitsAbove o := by
  cases h with
  | flat s =>
    obtain ⟨p, hp, hr⟩ := hs
    exact ⟨p, hp, hr.touch client a kind⟩
  | twoLevel t => exact TwoLevel.SplitsAbove.touch hs client client a kind

/-- Hierarchies with one outline have equally many levels. -/
theorem cases_of_outline (he : h.outline = k.outline) :
    (∃ s u, h = flat s ∧ k = flat u ∧ s.outline = u.outline) ∨
      ∃ t v, h = twoLevel t ∧ k = twoLevel v ∧ t.outline = v.outline := by
  cases h <;> cases k <;> simp [outline] at he ⊢
  all_goals exact he

theorem check_alike (he : h.outline = k.outline) (client : Nat) : h.check client = k.check client := by
  obtain ⟨s, u, rfl, rfl, hsu⟩ | ⟨t, v, rfl, rfl, htv⟩ := cases_of_outline he
  · exact Scheme.check_alike hsu client
  · exact TwoLevel.check_alike htv client client

theorem hits_alike (hs : h.SplitsAbove o) (he : h.outline = k.outline) (hab : SameBlock o a b) (client : Nat) :
    h.hits client a = k.hits client b := by
  obtain ⟨s, u, rfl, rfl, hsu⟩ | ⟨t, v, rfl, rfl, htv⟩ := cases_of_outline he
  · obtain ⟨p, hp, hr⟩ := hs
    exact Scheme.hits_alike hr hsu (hab.mono hp) client
  · exact TwoLevel.hits_alike hs htv hab client client

theorem touch_alike (hs : h.SplitsAbove o) (he : h.outline = k.outline) (hab : SameBlock o a b) (client : Nat)
    (kind kind' : AccessKind) : (h.touch client a kind).outline = (k.touch client b kind').outline := by
  obtain ⟨s, u, rfl, rfl, hsu⟩ | ⟨t, v, rfl, rfl, htv⟩ := cases_of_outline he
  · obtain ⟨p, hp, hr⟩ := hs
    exact congrArg flat (Scheme.touch_alike hr hsu (hab.mono hp) client kind kind')
  · exact congrArg twoLevel (TwoLevel.touch_alike hs htv hab client client kind kind')

theorem tally?_eq_of_outline (he : h.outline = k.outline) (client : Nat) : h.tally? client = k.tally? client := by
  obtain ⟨s, u, rfl, rfl, hsu⟩ | ⟨t, v, rfl, rfl, htv⟩ := cases_of_outline he
  · exact Scheme.tally?_eq_of_outline hsu client
  · exact TwoLevel.tally?_eq_of_outline htv client

theorem scheme_of_outline (he : h.outline = k.outline) : h.scheme.outline = k.scheme.outline := by
  obtain ⟨s, u, rfl, rfl, hsu⟩ | ⟨t, v, rfl, rfl, htv⟩ := cases_of_outline he
  · exact hsu
  · exact TwoLevel.shared_of_outline htv

end Hierarchy

/-! ## Runs -/

/-- Two records of one client that agree on the address above its lowest bits. -/
def Record.Alike (offsetBits : Nat) (x y : Record) : Prop :=
  x.client = y.client ∧ x.address.toNat >>> offsetBits = y.address.toNat >>> offsetBits

theorem Record.Alike.sameBlock {o : Nat} {x y : Record} (h : x.Alike o y) : SameBlock o x.address y.address := by
  have := h.2
  rwa [Nat.shiftRight_eq_div_pow, Nat.shiftRight_eq_div_pow] at this

/-- Two systems that answer two sequences of inputs, step by step, alike. -/
theorem Run.answers_eq_of_simulation {σ τ α β ω : Type} {f : σ → α → ω × σ} {g : τ → β → ω × τ} (R : σ → τ → Prop)
    {S : α → β → Prop} (move : ∀ s t x y, R s t → S x y → (f s x).1 = (g t y).1 ∧ R (f s x).2 (g t y).2) {s : σ}
    {t : τ} (h : R s t) {xs : List α} {ys : List β} (hxy : List.Forall₂ S xs ys) :
    (log f s xs).map (·.2) = (log g t ys).map (·.2) ∧ R (final f s xs) (final g t ys) := by
  induction hxy generalizing s t with
  | nil => exact ⟨rfl, h⟩
  | @cons x y xs ys hx _ ih =>
    obtain ⟨ha, hr⟩ := move s t x y h hx
    obtain ⟨hl, hf⟩ := ih hr
    exact ⟨by simp [ha, hl], hf⟩

namespace Hierarchy
variable {h k : Hierarchy} {o : Nat}

/-- Two hierarchies that look alike, the first of which splits addresses above
the lowest bits. -/
structure LooksLike (o : Nat) (h k : Hierarchy) : Prop where
  splits : h.SplitsAbove o
  outline : h.outline = k.outline

theorem step_alike (hk : LooksLike o h k) {x y : Record} (hxy : x.Alike o y) :
    (h.step x).1 = (k.step y).1 ∧ LooksLike o (h.step x).2 (k.step y).2 := by
  have hcheck := check_alike hk.outline y.client.toNat
  cases hc : h.check y.client.toNat with
  | ok _ =>
    rw [step_of_ok (by rw [hxy.1]; exact hc), step_of_ok (hcheck ▸ hc), hxy.1]
    exact ⟨congrArg Except.ok (hits_alike hk.splits hk.outline hxy.sameBlock _),
      hk.splits.touch _ _ _, touch_alike hk.splits hk.outline hxy.sameBlock _ _ _⟩
  | error e =>
    rw [step_of_error (by rw [hxy.1]; exact hc), step_of_error (hcheck ▸ hc)]
    exact ⟨rfl, hk⟩

end Hierarchy

namespace Replay

/-- Two replays that have come equally far and look alike. -/
structure LooksLike (o : Nat) (r q : Replay) : Prop where
  accesses : r.accesses = q.accesses
  rejected : r.rejected = q.rejected
  clientsSeen : r.clientsSeen = q.clientsSeen
  hierarchy : Hierarchy.LooksLike o r.hierarchy q.hierarchy

theorem step_alike {o : Nat} {r q : Replay} (h : LooksLike o r q) {x y : Record} (hxy : x.Alike o y) :
    LooksLike o (r.step x) (q.step y) := by
  have hcheck := Hierarchy.check_alike h.hierarchy.outline y.client.toNat
  have hsplits := h.hierarchy.splits.touch y.client.toNat x.address x.kind
  have houtline :=
    Hierarchy.touch_alike h.hierarchy.splits h.hierarchy.outline hxy.sameBlock y.client.toNat x.kind y.kind
  unfold step
  dsimp only
  rw [hxy.1, ← hcheck]
  cases r.hierarchy.check y.client.toNat with
  | ok _ => exact ⟨congrArg (· + 1) h.accesses, h.rejected, congrArg (max · _) h.clientsSeen, hsplits, houtline⟩
  | error e => exact ⟨h.accesses, congrArg (· + 1) h.rejected, congrArg (max · _) h.clientsSeen, h.hierarchy⟩

theorem run_alike {o : Nat} {r q : Replay} (h : LooksLike o r q) {xs ys : List Record}
    (hxy : List.Forall₂ (Record.Alike o) xs ys) : LooksLike o (r.run xs) (q.run ys) := by
  induction hxy generalizing r q with
  | nil => exact h
  | cons hx _ ih => exact ih (step_alike h hx)

end Replay

/-! ## Scenarios -/

namespace Scenario

/-- The smallest number of offset bits in a scenario: those of its scheme, or of
its private caches. -/
def offsetBits (s : Scenario) : Nat :=
  match s.level with
  | none => s.plan.block.log2
  | some l => min s.plan.block.log2 l.cache.block.log2

theorem splitsAbove_of_build {s : Scenario} {h : Hierarchy} (hb : s.build = .ok h) :
    h.SplitsAbove s.offsetBits := by
  obtain ⟨p, hp, hl⟩ := Hierarchy.build_eq_ok.1 hb
  have hroutes := Scheme.routesBy_of_build hp
  unfold offsetBits
  cases hlevel : s.level with
  | none =>
    rw [hlevel] at hl
    subst hl
    exact ⟨_, Nat.le_refl _, hroutes⟩
  | some l =>
    rw [hlevel] at hl
    obtain ⟨c, t, hc, ht, rfl⟩ := hl
    unfold TwoLevel.build at ht
    split at ht
    · cases ht
    · cases ht
      obtain ⟨-, rfl⟩ := Cache.ofGeometry?_eq_ok.1 hc
      refine ⟨fun i core hcore => ?_, _, Nat.min_le_left _ _, hroutes⟩
      obtain ⟨-, rfl⟩ := Array.getElem?_eq_some_iff.1 hcore
      rw [Array.getElem_replicate]
      exact Nat.min_le_right _ _

/-- Two traces that agree, record by record, on the client and on the address
above the offset bits of the smallest block are answered alike, and have equal
counts everywhere. The hierarchies they end in hold the same blocks in the same
ways, with the same order of use; only what is dirty and the addresses that
brought blocks in may differ. -/
theorem kinds_and_offsets_do_not_count {s : Scenario} {h : Hierarchy} (hb : s.build = .ok h) {t u : Trace}
    (htu : List.Forall₂ (Record.Alike s.offsetBits) t.records u.records) :
    (Run.log Hierarchy.step h t.records).map (·.2) = (Run.log Hierarchy.step h u.records).map (·.2) ∧
    ∃ r q, s.replay t = .ok r ∧ s.replay u = .ok q ∧
      r.accesses = q.accesses ∧ r.rejected = q.rejected ∧ r.clientsSeen = q.clientsSeen ∧
      r.hierarchy.outline = q.hierarchy.outline ∧
      ∀ i, r.hierarchy.tally? i = q.hierarchy.tally? i ∧
        r.hierarchy.scheme.tally? i = q.hierarchy.scheme.tally? i ∧
        r.hierarchy.scheme.unserved? i = q.hierarchy.scheme.unserved? i := by
  have hself : Hierarchy.LooksLike s.offsetBits h h := ⟨splitsAbove_of_build hb, rfl⟩
  have hanswers := Run.answers_eq_of_simulation (S := Record.Alike s.offsetBits)
    (Hierarchy.LooksLike s.offsetBits) (fun _ _ _ _ hk hxy => Hierarchy.step_alike hk hxy) hself htu
  have hreplay := Replay.run_alike (r := { trace := t.name, hierarchy := h }) (q := { trace := u.name, hierarchy := h })
    ⟨rfl, rfl, rfl, hself⟩ htu
  have hscheme := Hierarchy.scheme_of_outline hreplay.hierarchy.outline
  exact ⟨hanswers.1, _, _, by rw [replay, hb], by rw [replay, hb], hreplay.accesses, hreplay.rejected,
    hreplay.clientsSeen, hreplay.hierarchy.outline, fun i =>
      ⟨Hierarchy.tally?_eq_of_outline hreplay.hierarchy.outline i, Scheme.tally?_eq_of_outline hscheme i,
        Scheme.unserved?_eq_of_outline hscheme i⟩⟩

/-- Private caches of blocks of eight bytes before slices of blocks of sixteen.
One trace writes where the other one reads, and at the other end of the private
block; both end with the same counts, though not in the same state. -/
theorem kinds_and_offsets_do_not_count_before_larger_blocks :
    let s := (slices ⟨64, 2, 16⟩ 2 1 64).behind ⟨2, ⟨16, 1, 8⟩⟩
    let t : Trace := ⟨"t", [⟨0x00, 0, .read⟩, ⟨0x08, 0, .read⟩, ⟨0x40, 0, .read⟩, ⟨0x00, 0, .write⟩, ⟨0x10, 2, .read⟩]⟩
    let u : Trace := ⟨"u", [⟨0x07, 0, .write⟩, ⟨0x0f, 0, .read⟩, ⟨0x47, 0, .write⟩, ⟨0x01, 0, .read⟩, ⟨0x17, 2, .write⟩]⟩
    s.offsetBits = 3 ∧ List.Forall₂ (Record.Alike s.offsetBits) t.records u.records ∧
    ∃ h, s.build = .ok h ∧ ∃ r q, s.replay t = .ok r ∧ s.replay u = .ok q ∧
      r.hierarchy.outline = q.hierarchy.outline ∧ r.rejected = q.rejected ∧
      q.hierarchy.tally? 0 = .ok { misses := 2, hits := 2 } ∧
      q.hierarchy.scheme.tally? 0 = .ok { misses := 2, hits := 2 } := by
  intro s t u
  have hbits : s.offsetBits = 3 := by decide
  have halike : List.Forall₂ (Record.Alike s.offsetBits) t.records u.records := by
    rw [hbits]
    refine .cons ?_ (.cons ?_ (.cons ?_ (.cons ?_ (.cons ?_ .nil))))
    all_goals exact ⟨rfl, by decide⟩
  obtain ⟨h, hb⟩ : ∃ h, s.build = .ok h := ⟨_, rfl⟩
  obtain ⟨-, r, q, hr, hq, -, hrejected, -, houtline, hcounts⟩ := kinds_and_offsets_do_not_count hb halike
  have htally : (s.replay t).map (fun r => (r.hierarchy.tally? 0, r.hierarchy.scheme.tally? 0)) =
      .ok (.ok { misses := 2, hits := 2 }, .ok { misses := 2, hits := 2 }) := by decide
  rw [hr] at htally
  have hpair := Except.ok.inj htally
  exact ⟨hbits, halike, h, hb, r, q, hr, hq, houtline, hrejected,
    (hcounts 0).1 ▸ congrArg Prod.fst hpair, (hcounts 0).2.1 ▸ congrArg Prod.snd hpair⟩

end Scenario

end LastLevel
