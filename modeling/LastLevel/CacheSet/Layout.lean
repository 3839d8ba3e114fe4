import LastLevel.Fault
/-!
# Sets as they are laid out

A set of a cache is laid out as two lists: what each way holds, and the ways in
the order of their use. The two lists belong together only as long as every
access keeps them so, and an access checks what it relies on: that the order of
use has a first way, and that the way it uses is in the order at all.
`CacheSet.layout` lays a set out, and `Layout.toSet` reads it back.
-/

namespace LastLevel

/-- What each way holds, and the ways, least recently used first. -/
structure Layout where
  lines : Array (Option Line)
  order : List Nat
deriving DecidableEq, Repr

namespace Layout

/-- The first way that holds a block with the tag. -/
def find? (w : Layout) (tag : Nat) : Option Nat := w.lines.findIdx? fun l => l.any (·.tag == tag)

/-- The least recently used way. -/
def victim : Attempt Layout Nat := do
  let w ← get
  match w.order with
  | way :: _ => if way < w.lines.size then return way else throw (.noVictim w.order)
  | [] => throw (.noVictim w.order)

/-- The place of a way in the order of use. -/
def position (way : Nat) : Attempt Layout Nat := do
  let w ← get
  match w.order.idxOf? way with
  | some i => return i
  | none => throw (.lostWay way w.order)

/-- Changes what a way holds. -/
def update (way : Nat) (f : Option Line → Option Line) : Attempt Layout Unit :=
  .within (fun w => lookup w.lines way) (fun l w => { w with lines := w.lines.modify way fun _ => l }) (modify f)

/-- Empties the least recently used way. -/
def evict : Attempt Layout Nat := do
  let way ← victim
  update way fun _ => none
  return way

/-- Makes the way at a place of the order the most recently used one. -/
def promote (i : Nat) : Attempt Layout Unit := do
  let w ← get
  if i < w.order.length then set { w with order := w.order.take i ++ (w.order.drop i).rotateLeft 1 }
  else throw (.beyond i w.order.length)

/-- The way that an access uses: the one that holds the block, or else the least
recently used one. -/
def target (tag : Nat) : Attempt Layout Nat := do
  match (← get).find? tag with
  | some way => return way
  | none => victim

/-- Gives up the least recently used way, and puts a clean block into the way
that is to hold it. -/
def bringIn (way tag : Nat) (a : Address) : Attempt Layout Unit := do
  let _ ← evict
  update way fun _ => some { tag, address := a, dirty := false }

/-- A write makes the block in a way dirty. -/
def mark (way : Nat) : AccessKind → Attempt Layout Unit
  | .read => pure ()
  | .write => update way (·.map fun l => { l with dirty := true })

def access (tag : Nat) (a : Address) (kind : AccessKind) : Attempt Layout Bool := do
  let hit := ((← get).find? tag).isSome
  let way ← target tag
  let i ← position way
  if hit then pure () else bringIn way tag a
  mark way kind
  promote i
  return hit

/-- The slots in the order of use. -/
def toSet (w : Layout) : CacheSet := ⟨w.order.map fun way => { way, line := w.lines[way]?.join }⟩

end Layout

namespace CacheSet

def layout (s : CacheSet) : Layout := { lines := s.lines.toArray, order := s.order }

/-- Accesses a block, checking what the access relies on. -/
def attempt (tag : Nat) (a : Address) (kind : AccessKind) : Attempt CacheSet Bool :=
  .within (fun s => .ok s.layout) (fun w _ => w.toSet) (Layout.access tag a kind)

end CacheSet

end LastLevel
