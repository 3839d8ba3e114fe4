import LastLevel.Bits
/-!
# One set of a cache

A set is kept in the order of use: its slots stand from the least to the most
recently used one, and each slot knows its way. An access moves the slot it
uses to the end; a miss uses the slot at the front. Main statements:
`order_touch_perm` (an access permutes the ways) and `holds_touch` (what was
accessed is held afterwards).
-/

namespace LastLevel

inductive AccessKind where
  | read
  | write
deriving DecidableEq, Repr

/-- A block held in a cache. -/
structure Line where
  tag : Nat
  /-- The address of the access that brought the block in. -/
  address : Address
  /-- Whether the block was written since it came in. -/
  dirty : Bool
deriving DecidableEq, Repr

/-- One way of a set, with the block it holds, if any. -/
structure Slot where
  way : Nat
  line : Option Line
deriving DecidableEq, Repr

namespace Slot

def holds (s : Slot) (tag : Nat) : Bool :=
  match s.line with
  | some l => l.tag == tag
  | none => false

/-- Puts a clean block into the slot, in place of what it held. -/
def fill (s : Slot) (tag : Nat) (a : Address) : Slot :=
  { s with line := some { tag, address := a, dirty := false } }

/-- A write makes the block in the slot dirty. -/
def mark (s : Slot) : AccessKind → Slot
  | .read => s
  | .write => { s with line := s.line.map fun l => { l with dirty := true } }

end Slot

/-- The slots of a set, least recently used first. -/
structure CacheSet where
  slots : List Slot
deriving DecidableEq, Repr

namespace CacheSet

/-- A set that holds nothing; its ways are taken in increasing order. -/
def empty (ways : Nat) : CacheSet := ⟨(List.range ways).map fun way => ⟨way, none⟩⟩

def holds (s : CacheSet) (tag : Nat) : Bool := s.slots.any (·.holds tag)

/-- Accesses a block: its slot, or else the least recently used one filled
with the block, becomes the most recently used. -/
def touch (s : CacheSet) (tag : Nat) (a : Address) (kind : AccessKind) : CacheSet :=
  match s.slots.find? (·.holds tag) with
  | some slot => ⟨s.slots.eraseP (·.holds tag) ++ [slot.mark kind]⟩
  | none =>
    match s.slots with
    | [] => s
    | victim :: rest => ⟨rest ++ [(victim.fill tag a).mark kind]⟩

def order (s : CacheSet) : List Nat := s.slots.map (·.way)

/-- The blocks held by the ways, in the order of the ways. -/
def lines (s : CacheSet) : List (Option Line) :=
  (s.slots.mergeSort fun x y => x.way ≤ y.way).map (·.line)

def occupied (s : CacheSet) : Bool := s.slots.any (·.line.isSome)

/-! ## What an access does -/

@[simp] theorem way_mark (s : Slot) (kind : AccessKind) : (s.mark kind).way = s.way := by
  cases kind <;> rfl

@[simp] theorem way_fill (s : Slot) (tag : Nat) (a : Address) : (s.fill tag a).way = s.way := rfl

@[simp] theorem holds_mark (s : Slot) (kind : AccessKind) (tag : Nat) :
    (s.mark kind).holds tag = s.holds tag := by
  cases kind with
  | read => rfl
  | write => cases h : s.line <;> simp [Slot.mark, Slot.holds, h]

@[simp] theorem holds_fill (s : Slot) (tag : Nat) (a : Address) (t : Nat) :
    (s.fill tag a).holds t = (tag == t) := rfl

/-- An access permutes the ways of its set. -/
theorem order_touch_perm (s : CacheSet) (tag : Nat) (a : Address) (kind : AccessKind) :
    (s.touch tag a kind).order.Perm s.order := by
  unfold touch
  split
  · next slot h =>
    obtain ⟨_, before, after, hs, hb⟩ := List.find?_eq_some_iff_append.1 h
    have he : s.slots.eraseP (·.holds tag) = before ++ after := by
      rw [hs, List.eraseP_append_right _ (by simpa using hb), List.eraseP_cons_of_pos (by assumption)]
    rw [order, he, order, hs]
    simp only [List.map_append, List.map_cons, List.map_nil, way_mark, List.append_assoc]
    exact (@List.perm_append_comm _ (after.map (·.way)) [slot.way]).append_left _
  · split
    · exact .refl _
    · next victim rest hs =>
      simp only [order, hs, List.map_append, List.map_cons, List.map_nil, way_mark, way_fill]
      exact @List.perm_append_comm _ (rest.map (·.way)) [victim.way]

/-- The block just accessed is held, unless the set has no way at all. -/
theorem holds_touch {s : CacheSet} (h : s.slots ≠ []) (tag : Nat) (a : Address) (kind : AccessKind) :
    (s.touch tag a kind).holds tag = true := by
  unfold touch
  split
  · next slot hf => simp [holds, List.find?_some hf]
  · split
    · next hs => exact absurd hs h
    · simp [holds]

end CacheSet

end LastLevel
