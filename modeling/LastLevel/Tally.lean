/-!
# Counting hits and misses

A `Tally` counts the outcomes of the accesses that something has served. The
statements say what `record` does to both counts and to their sum.
-/

namespace LastLevel

structure Tally where
  misses : Nat := 0
  hits : Nat := 0
deriving DecidableEq, Repr

namespace Tally

def record (t : Tally) (hit : Bool) : Tally :=
  if hit then { t with hits := t.hits + 1 } else { t with misses := t.misses + 1 }

def accesses (t : Tally) : Nat := t.misses + t.hits

/-- The share of hits as a double, `0.0` before the first access. -/
def hitRate (t : Tally) : Float :=
  if t.accesses = 0 then 0.0 else Float.ofNat t.hits / Float.ofNat t.accesses

/-- Counts of both, taken together. -/
def add (t u : Tally) : Tally := { misses := t.misses + u.misses, hits := t.hits + u.hits }

/-- Counts of all, taken together. -/
def sum (ts : List Tally) : Tally := ts.foldr add {}

theorem misses_record (t : Tally) (hit : Bool) :
    (t.record hit).misses = t.misses + if hit then 0 else 1 := by
  cases hit <;> rfl

theorem hits_record (t : Tally) (hit : Bool) :
    (t.record hit).hits = t.hits + if hit then 1 else 0 := by
  cases hit <;> rfl

theorem accesses_record (t : Tally) (hit : Bool) : (t.record hit).accesses = t.accesses + 1 := by
  cases hit <;> simp only [accesses, record] <;> simp <;> omega

end Tally

end LastLevel
