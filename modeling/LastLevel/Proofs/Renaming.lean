import LastLevel.Cache
import Mathlib.Logic.Function.Basic
/-!
# Sets up to the names of their tags

A set treats its tags as names: it only asks whether two of them are the same.
So renaming them one to one, and forgetting the addresses that are kept for
inspection, commutes with every access (`CacheSet.rename_touch`). Two sets that
are the same up to names therefore find the same blocks and stay the same:
`CacheSet.holds_of_rename_eq` and `CacheSet.rename_touch_eq`.
-/

namespace LastLevel

/-- The slot with its tag renamed, and without the address of its block. -/
def Slot.rename (f : Nat → Nat) (s : Slot) : Slot :=
  { s with line := s.line.map fun l => { l with tag := f l.tag, address := 0 } }

namespace CacheSet

/-- The set with its tags renamed, and without the addresses of its blocks: the
ways, their order of use, and what is written stay. -/
def rename (f : Nat → Nat) (s : CacheSet) : CacheSet := ⟨s.slots.map (·.rename f)⟩

variable {f g : Nat → Nat}

theorem slot_rename_mark (x : Slot) (kind : AccessKind) : (x.mark kind).rename f = (x.rename f).mark kind := by
  cases kind with
  | read => rfl
  | write => cases h : x.line <;> simp [Slot.mark, Slot.rename, h]

theorem slot_rename_fill (x : Slot) (t : Nat) (a : Address) : (x.fill t a).rename f = (x.rename f).fill (f t) 0 := rfl

theorem slot_holds_rename (hf : Function.Injective f) (x : Slot) (t : Nat) :
    (x.rename f).holds (f t) = x.holds t := by
  cases h : x.line with
  | none => simp [Slot.holds, Slot.rename, h]
  | some l => simp [Slot.holds, Slot.rename, h, hf.eq_iff]

theorem holds_rename (hf : Function.Injective f) (s : CacheSet) (t : Nat) : (s.rename f).holds (f t) = s.holds t := by
  simp only [holds, rename, List.any_map, Function.comp_def, slot_holds_rename hf]

/-- A change of every slot commutes with an access if it commutes with each of
the things an access does to a slot. -/
theorem map_touch {m : Slot → Slot} {t t' : Nat} {a a' : Address} {kind kind' : AccessKind}
    (hholds : ∀ x, (m x).holds t' = x.holds t) (hmark : ∀ x, m (x.mark kind) = (m x).mark kind')
    (hfill : ∀ x, m (x.fill t a) = (m x).fill t' a') (s : CacheSet) :
    (⟨(s.touch t a kind).slots.map m⟩ : CacheSet) = touch ⟨s.slots.map m⟩ t' a' kind' := by
  -- Both accesses find the same slot and leave the same others.
  have hfind : (s.slots.map m).find? (·.holds t') = (s.slots.find? (·.holds t)).map m := by
    rw [List.find?_map]
    simp only [Function.comp_def, hholds]
  have herase : (s.slots.map m).eraseP (·.holds t') = (s.slots.eraseP (·.holds t)).map m := by
    rw [List.eraseP_map]
    simp only [Function.comp_def, hholds]
  simp only [touch, hfind, herase]
  cases hs : s.slots.find? (·.holds t) with
  | some x => simp [hmark]
  | none =>
    cases hv : s.slots with
    | nil => simp [hv]
    | cons victim rest => simp [hmark, hfill]

/-- An access does not depend on names. -/
theorem rename_touch (hf : Function.Injective f) (s : CacheSet) (t : Nat) (a : Address) (kind : AccessKind) :
    (s.touch t a kind).rename f = (s.rename f).touch (f t) 0 kind :=
  map_touch (slot_holds_rename hf · t) (slot_rename_mark · kind) (slot_rename_fill · t a) s

theorem rename_empty (f : Nat → Nat) (ways : Nat) : (empty ways).rename f = empty ways := by
  simp only [rename, empty, List.map_map]
  rfl

/-! ## Two sets -/

variable {s u : CacheSet}

theorem holds_of_rename_eq (hf : Function.Injective f) (hg : Function.Injective g) (h : s.rename f = u.rename g)
    {t t' : Nat} (ht : f t = g t') : s.holds t = u.holds t' := by
  rw [← holds_rename hf, h, ht, holds_rename hg]

theorem rename_touch_eq (hf : Function.Injective f) (hg : Function.Injective g) (h : s.rename f = u.rename g)
    {t t' : Nat} (ht : f t = g t') (a b : Address) (kind : AccessKind) :
    (s.touch t a kind).rename f = (u.touch t' b kind).rename g := by
  rw [rename_touch hf, rename_touch hg, h, ht]

end CacheSet

/-! ## Two sets of two caches -/

namespace Cache

/-- Set `i` of one cache and set `j` of another are the same up to names; they
both exist, or neither does. -/
def SameSet (f g : Nat → Nat) (c d : Cache) (i j : Nat) : Prop :=
  c.sets[i]?.map (·.rename f) = d.sets[j]?.map (·.rename g)

variable {f g : Nat → Nat} {c d : Cache} {i j : Nat}

theorem SameSet.both (h : SameSet f g c d i j) :
    (c.sets[i]? = none ∧ d.sets[j]? = none) ∨
      ∃ s u, c.sets[i]? = some s ∧ d.sets[j]? = some u ∧ s.rename f = u.rename g := by
  unfold SameSet at h
  cases hc : c.sets[i]? <;> cases hd : d.sets[j]? <;> simp_all

theorem SameSet.holdsAt (h : SameSet f g c d i j) (hf : Function.Injective f) (hg : Function.Injective g)
    {t t' : Nat} (ht : f t = g t') : c.holdsAt ⟨i, t⟩ = d.holdsAt ⟨j, t'⟩ := by
  unfold Cache.holdsAt
  rcases h.both with ⟨hc, hd⟩ | ⟨s, u, hc, hd, he⟩ <;> rw [hc, hd]
  exact CacheSet.holds_of_rename_eq hf hg he ht

/-- Sets that are the same stay the same when both are accessed alike. -/
theorem SameSet.touchAt (h : SameSet f g c d i j) (hf : Function.Injective f) (hg : Function.Injective g)
    {t t' : Nat} (ht : f t = g t') (a b : Address) (kind : AccessKind) :
    SameSet f g (c.touchAt ⟨i, t⟩ a kind) (d.touchAt ⟨j, t'⟩ b kind) i j := by
  unfold SameSet
  rw [getElem?_sets_touchAt, if_pos rfl, getElem?_sets_touchAt, if_pos rfl]
  rcases h.both with ⟨hc, hd⟩ | ⟨s, u, hc, hd, he⟩ <;> rw [hc, hd]
  · rfl
  · exact congrArg some (CacheSet.rename_touch_eq hf hg he ht a b kind)

theorem SameSet.symm (h : SameSet f g c d i j) : SameSet g f d c j i := Eq.symm h

theorem SameSet.touchAt_left (h : SameSet f g c d i j) {l : Location} (hl : l.set ≠ i) (a : Address)
    (kind : AccessKind) : SameSet f g (c.touchAt l a kind) d i j := by
  unfold SameSet at *
  rw [getElem?_sets_touchAt, if_neg hl, h]

theorem SameSet.touchAt_right (h : SameSet f g c d i j) {m : Location} (hm : m.set ≠ j) (a : Address)
    (kind : AccessKind) : SameSet f g c (d.touchAt m a kind) i j :=
  (h.symm.touchAt_left hm a kind).symm

/-- They stay the same when the accesses go elsewhere. -/
theorem SameSet.touchAt_of_ne (h : SameSet f g c d i j) {l m : Location} (hl : l.set ≠ i) (hm : m.set ≠ j)
    (a b : Address) (kind : AccessKind) : SameSet f g (c.touchAt l a kind) (d.touchAt m b kind) i j :=
  (h.touchAt_left hl a kind).touchAt_right hm b kind

theorem sameSet_empty {s u : Shape} (hi : i < s.sets) (hj : j < u.sets) (hw : s.ways = u.ways) :
    SameSet f g (empty s) (empty u) i j := by
  simp only [SameSet, empty, Array.getElem?_replicate, if_pos hi, if_pos hj, Option.map_some,
    CacheSet.rename_empty, hw]

end Cache

end LastLevel
