import LastLevel.Bits
import LastLevel.Misfit
/-!
# Geometries and the shapes they have

A `Geometry` is what a user writes down: a size, a number of ways and a block
size, in any combination. A `Shape` is what a cache is built from: the widths of
the two low address fields and the number of ways. `Geometry.shape?` and
`Shape.ofSets?` are the only ways from one to the other, and both name the first
fault they meet. `Geometry.shape?_eq` and `Shape.ofSets?_eq` say what they
yield.
-/

namespace LastLevel

/-- A cache as described by its user; the sizes are in bytes. -/
structure Geometry where
  size : Nat
  ways : Nat
  block : Nat
deriving DecidableEq, Repr

/-- The private cache that is used when nothing else is asked for. -/
def Geometry.standard : Geometry := { size := 32 * 1024, ways := 4, block := 64 }

/-- A cache as it is laid out: `2 ^ indexBits` sets of `ways` blocks of
`2 ^ offsetBits` bytes. -/
structure Shape where
  offsetBits : Nat
  indexBits : Nat
  ways : Nat
deriving DecidableEq, Repr

namespace Shape

def sets (s : Shape) : Nat := Nat.pow 2 s.indexBits

def block (s : Shape) : Nat := Nat.pow 2 s.offsetBits

def size (s : Shape) : Nat := s.sets * s.ways * s.block

/-- The address bits above offset and set index. -/
def tagBits (s : Shape) : Nat := Bits.wordWidth - s.indexBits - s.offsetBits

def ofCounts (sets ways block : Nat) : Shape :=
  { offsetBits := block.log2, indexBits := sets.log2, ways }

end Shape

/-- Refuses a set whose blocks or ways are ill-defined. -/
def checkSet (ways block : Nat) : Except Misfit Unit :=
  if ¬ Bits.IsPow2 block then .error (.blockNotPow2 block)
  else if ways = 0 then .error .noWays
  else if Bits.wordSize ≤ block * ways then .error .setOverflow
  else .ok ()

/-- The shape of `sets` sets of `ways` blocks each. The total need not be a
power of two, but one word must count it. -/
def Shape.ofSets? (sets ways block : Nat) : Except Misfit Shape :=
  if ¬ Bits.IsPow2 sets then .error (.setsNotPow2 sets)
  else match checkSet ways block with
    | .error m => .error m
    | .ok () =>
      if Bits.wordSize ≤ sets * (block * ways) then .error .sizeOverflow
      else .ok (.ofCounts sets ways block)

namespace Geometry

/-- Number of whole sets that fit into the size; none when a set is empty. -/
def sets (g : Geometry) : Nat := g.size / (g.block * g.ways)

/-- The first fault of a geometry, if it has one. -/
def check (g : Geometry) : Except Misfit Unit :=
  if ¬ Bits.IsPow2 g.size then .error (.sizeNotPow2 g.size)
  else match checkSet g.ways g.block with
    | .error m => .error m
    | .ok () =>
      if g.size < g.block * g.ways then .error (.setTooLarge g.size g.ways g.block)
      else if g.size % (g.block * g.ways) ≠ 0 then .error (.uneven g.size g.block g.ways)
      else if ¬ Bits.IsPow2 g.sets then .error (.setsNotPow2 g.sets)
      else .ok ()

/-- The shape of a geometry without fault. -/
def shape? (g : Geometry) : Except Misfit Shape :=
  match g.check with
  | .error m => .error m
  | .ok () => .ok (.ofCounts g.sets g.ways g.block)

/-! ## What the two readings yield -/

theorem shape?_eq {g : Geometry} {s : Shape} (h : g.shape? = .ok s) :
    g.check = .ok () ∧ s = .ofCounts g.sets g.ways g.block := by
  unfold shape? at h
  split at h
  · cases h
  · next hc => cases h; exact ⟨hc, rfl⟩

end Geometry

theorem Shape.ofSets?_eq {sets ways block : Nat} {s : Shape} (h : Shape.ofSets? sets ways block = .ok s) :
    s = .ofCounts sets ways block := by
  unfold Shape.ofSets? at h
  repeat' split at h
  all_goals cases h
  rfl

end LastLevel
