import LastLevel.CacheSet
import LastLevel.Geometry
import LastLevel.Tally
/-!
# A set-associative cache

A cache is an array of sets that all have the same ways. An address names a
block; the low bits of the block's number choose the set, the others are its
tag. `Cache.hits` asks whether an access would hit, `Cache.touch` carries the
access out, and the two together are `Cache.access`. Main statements:
`Shape.locate_set_lt` (an address always names an existing set) and
`getElem?_sets_touchAt` (an access changes only the set it names).
-/

namespace LastLevel

/-- Where a block may be held: a set, and the tag that tells it apart there. -/
structure Location where
  set : Nat
  tag : Nat
deriving DecidableEq, Repr

namespace Location

/-- Splits a word into its fields, from the top: tag, set index and offset. -/
def split (word offsetBits indexBits tagBits : Nat) : Location :=
  { set := Bits.field word offsetBits indexBits
    tag := Bits.field word (offsetBits + indexBits) tagBits }

/-- Splits an address for any block size and set count. A block of no bytes and
a cache of no sets have no field widths. -/
def ofCounts? (a : Address) (block sets tagBits : Nat) : Option Location :=
  if block = 0 ∨ sets = 0 then none else some (split a.toNat block.log2 sets.log2 tagBits)

end Location

def Shape.locate (s : Shape) (a : Address) : Location :=
  .split a.toNat s.offsetBits s.indexBits s.tagBits

theorem Shape.locate_set_lt (s : Shape) (a : Address) : (s.locate a).set < s.sets :=
  Bits.field_lt _ _ _

/-- The sets of a cache, and how its accesses went. -/
structure Cache where
  shape : Shape
  sets : Array CacheSet
  tally : Tally
  sets_size : sets.size = shape.sets

structure SetOutOfRange where
  set : Nat
  sets : Nat
deriving DecidableEq, Repr

def SetOutOfRange.message (e : SetOutOfRange) : String :=
  s!"internal invariant violated: set index {e.set} out of range ({e.sets} sets)"

namespace Cache

def empty (shape : Shape) : Cache :=
  { shape, sets := Array.replicate shape.sets (.empty shape.ways), tally := {}, sets_size := Array.size_replicate }

def ofGeometry? (g : Geometry) : Except Misfit Cache := g.shape?.map empty

def ofSets? (sets ways block : Nat) : Except Misfit Cache := (Shape.ofSets? sets ways block).map empty

def locate (c : Cache) (a : Address) : Location := c.shape.locate a

def holdsAt (c : Cache) (l : Location) : Bool :=
  match c.sets[l.set]? with
  | some s => s.holds l.tag
  | none => false

def touchAt (c : Cache) (l : Location) (a : Address) (kind : AccessKind) : Cache :=
  let hit := c.holdsAt l
  { c with
    tally := c.tally.record hit
    sets := c.sets.modify l.set (·.touch l.tag a kind)
    sets_size := by rw [Array.size_modify, c.sets_size] }

/-- Accesses a location that may not exist. -/
def accessAt? (c : Cache) (l : Location) (a : Address) (kind : AccessKind) :
    Except SetOutOfRange (Bool × Cache) :=
  if l.set < c.sets.size then .ok (c.holdsAt l, c.touchAt l a kind)
  else .error { set := l.set, sets := c.sets.size }

/-- Whether the block of an address is held, so that an access to it would hit. -/
def hits (c : Cache) (a : Address) : Bool := c.holdsAt (c.locate a)

def touch (c : Cache) (a : Address) (kind : AccessKind) : Cache := c.touchAt (c.locate a) a kind

def access (c : Cache) (a : Address) (kind : AccessKind) : Bool × Cache := (c.hits a, c.touch a kind)

/-- The sets that hold a block, with their indices, in increasing order. -/
def content (c : Cache) : List (Nat × CacheSet) :=
  c.sets.toList.zipIdx.filterMap fun (s, i) => if s.occupied then some (i, s) else none

/-! ## What an access does -/

@[simp] theorem shape_touchAt (c : Cache) (l : Location) (a : Address) (kind : AccessKind) :
    (c.touchAt l a kind).shape = c.shape := rfl

@[simp] theorem tally_touchAt (c : Cache) (l : Location) (a : Address) (kind : AccessKind) :
    (c.touchAt l a kind).tally = c.tally.record (c.holdsAt l) := rfl

/-- An access changes the set it names and no other. -/
theorem getElem?_sets_touchAt (c : Cache) (l : Location) (a : Address) (kind : AccessKind) (i : Nat) :
    (c.touchAt l a kind).sets[i]? =
      if l.set = i then c.sets[i]?.map (·.touch l.tag a kind) else c.sets[i]? := by
  rw [touchAt, Array.getElem?_modify]

@[simp] theorem shape_touch (c : Cache) (a : Address) (kind : AccessKind) : (c.touch a kind).shape = c.shape := rfl

@[simp] theorem tally_touch (c : Cache) (a : Address) (kind : AccessKind) :
    (c.touch a kind).tally = c.tally.record (c.hits a) := rfl

/-- An address always names a set that exists. -/
theorem accessAt?_locate (c : Cache) (a : Address) (kind : AccessKind) :
    c.accessAt? (c.locate a) a kind = .ok (c.access a kind) := by
  rw [accessAt?, if_pos (by rw [c.sets_size]; exact c.shape.locate_set_lt a)]
  rfl

end Cache

end LastLevel
