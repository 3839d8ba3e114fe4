import LastLevel.Scheme.Plan
/-!
# Building, operation by operation

`Plan.build` calculates with natural numbers, for which every operation has a
result. Here is the same building as the operations on words of 64 bits that it
consists of, in their order. Each of them has numbers for which it has no
result: a sum or a product may overflow, a difference may fall below zero, a
divisor may be zero, zero has no logarithm, and a word is not shifted by more
than its width. `Plan.construct` stops at the first fault of the description and
at the first operation without result, and `Stop` tells the two apart.

Memory is not among the operations: every list has room, however long it is. A
plain cache of `2 ^ 62` bytes with blocks of one byte is built here, though no
machine has room for the list of its sets.
-/

namespace LastLevel

/-- An operation that has no result for the numbers at hand. -/
inductive Undefined where
  | sum
  | product
  | difference
  | quotient
  | logarithm
  | shift
deriving DecidableEq, Repr

/-- Why building stops. -/
inductive Stop where
  | refused (cause : Misfit)
  | undefined (operation : Undefined)
deriving DecidableEq, Repr

abbrev Building := Except Stop

namespace Building

variable {α : Type}

/-- Goes on with what a check without such operations accepts. -/
def checked (x : Except Misfit α) : Building α := x.mapError .refused

/-- Goes on only if a condition holds. -/
def demand (p : Prop) [Decidable p] (m : Misfit) : Building Unit := if p then .ok () else .error (.refused m)

/-- Goes on only if no client is at fault. -/
def demandNone (client : Option Nat) (m : Nat → Misfit) : Building Unit :=
  match client with
  | none => .ok ()
  | some i => .error (.refused (m i))

/-- Adds up numbers one after the other, where every sum stays below a bound. -/
def sum (bound : Nat) (ns : List Nat) : Building Nat :=
  ns.foldlM (fun n m => if n + m < bound then .ok (n + m) else .error (.undefined .sum)) 0

def product (m n : Nat) : Building Nat :=
  if m * n < Bits.wordSize then .ok (m * n) else .error (.undefined .product)

def difference (m n : Nat) : Building Nat := if n ≤ m then .ok (m - n) else .error (.undefined .difference)

def quotient (m n : Nat) : Building Nat := if n = 0 then .error (.undefined .quotient) else .ok (m / n)

def remainder (m n : Nat) : Building Nat := if n = 0 then .error (.undefined .quotient) else .ok (m % n)

def logarithm (n : Nat) : Building Nat := if n = 0 then .error (.undefined .logarithm) else .ok n.log2

def shiftRight (n places : Nat) : Building Nat :=
  if places < Bits.wordWidth then .ok (n >>> places) else .error (.undefined .shift)

end Building

open Building

/-! ## Caches -/

namespace Geometry

/-- Number of whole sets that fit into the size; none when a set is empty. -/
def countSets (g : Geometry) : Building Nat := do
  let bytes ← product g.block g.ways
  if bytes = 0 then return 0 else quotient g.size bytes

def validate (g : Geometry) : Building Unit := do
  demand (Bits.IsPow2 g.size) (.sizeNotPow2 g.size)
  checked (checkSet g.ways g.block)
  let bytes ← product g.block g.ways
  demand (bytes ≤ g.size) (.setTooLarge g.size g.ways g.block)
  let rest ← remainder g.size bytes
  demand (rest = 0) (.uneven g.size g.block g.ways)
  let sets ← g.countSets
  demand (Bits.IsPow2 sets) (.setsNotPow2 sets)

end Geometry

namespace Cache

/-- Lays out a cache whose geometry was checked. -/
def layOut (g : Geometry) : Building Cache := do
  let sets ← g.countSets
  let indexBits ← logarithm sets
  let aboveIndex ← difference Bits.wordWidth indexBits
  let offsetBits ← logarithm g.block
  let _tagBits ← difference aboveIndex offsetBits
  return .empty { offsetBits, indexBits, ways := g.ways }

def construct (g : Geometry) : Building Cache := do
  g.validate
  layOut g

/-- A cache from its set count. -/
def constructSets (sets ways block : Nat) : Building Cache := do
  demand (Bits.IsPow2 sets) (.setsNotPow2 sets)
  checked (checkSet ways block)
  let bytes ← product block ways
  demand (sets * bytes < Bits.wordSize) .sizeOverflow
  layOut { size := sets * bytes, ways, block }

end Cache

/-! ## Banks -/

namespace Banked

def constructParts (ways : List Nat) (size block : Nat) : Building (Nat × List Cache) := do
  demand (ways ≠ []) .noWayClients
  demandNone (ways.findIdx? (· == 0)) .clientWithoutWays
  let total ← sum Bits.wordSize ways
  let whole : Geometry := { size, ways := total, block }
  whole.validate
  let sets ← whole.countSets
  let caches ← ways.mapM fun w => Cache.constructSets sets w block
  return (sets, caches)

def constructWays (ways : List Nat) (size block : Nat) : Building Banked := do
  let (sets, caches) ← constructParts ways size block
  return { division := .ways sets, holdings := (caches.map fun c => { banks := #[some c] }).toArray }

def constructSlices (clients : Nat) (owned : List Nat) (slice : Geometry) : Building Banked := do
  demand (owned.length = clients) (.sliceCounts owned.length clients)
  demand (clients ≠ 0) .noSliceClients
  demandNone (owned.findIdx? (· == 0)) .clientWithoutSlices
  let cache ← Cache.construct slice
  let offsetBits ← logarithm slice.block
  return {
    division := .slices offsetBits (Bits.bitLength clients)
    holdings := (owned.map fun n => { banks := Array.replicate n (some cache) }).toArray }

def constructClusters (clusters : Nat) (ways : List Nat) (size block : Nat) : Building Banked := do
  demand (Bits.IsPow2 clusters) (.clustersNotPow2 clusters)
  let (_, caches) ← constructParts ways size block
  let clusterBits ← logarithm clusters
  let offsetBits ← logarithm block
  return {
    division := .clusters offsetBits clusterBits
    holdings := (caches.map fun c => { banks := Array.replicate clusters (some c) }).toArray }

def constructCell (ways block size : Nat) : Building (Option Cache) :=
  if size = 0 then return none else some <$> Cache.construct { size, ways, block }

def constructGrid (clients ways block : Nat) : Nat → List (List Nat) → Building (List (List (Option Cache)))
  | _, [] => return []
  | cluster, sizes :: rest => do
    demand (sizes.length = clients) (.cellCount cluster sizes.length clients)
    let row ← sizes.mapM (constructCell ways block)
    let grid ← constructGrid clients ways block (cluster + 1) rest
    return row :: grid

def constructCells (clients : Nat) (sizes : List (List Nat)) (ways block : Nat) (tables : List CoreTable) :
    Building Banked := do
  demand (sizes ≠ []) .noClusters
  demand (tables.length = clients) (.tableCount tables.length clients)
  let grid ← constructGrid clients ways block 0 sizes
  checked (checkTables grid.length 0 tables)
  let offsetBits ← logarithm block
  return {
    division := .cells offsetBits grid.length tables.toArray
    holdings := ((List.range clients).map fun i =>
      { banks := (grid.map fun row => row[i]?.join).toArray }).toArray }

end Banked

/-- A core table, whose running totals are words of 32 bits. -/
def CoreTable.construct (counts : List Nat) : Building CoreTable := do
  let _total ← sum (Nat.pow 2 32) counts
  return .ofCounts counts

/-! ## Regions -/

/-- Whether the regions of two patterns meet: the longer one is cut to the
length of the shorter. -/
def FixedBits.meets (f g : FixedBits) : Building Bool := do
  let (short, long) := if f.width ≤ g.width then (f, g) else (g, f)
  let excess ← difference long.width short.width
  let top ← shiftRight long.pattern excess
  return top == short.pattern

namespace Regions

/-- Refuses the first client from `second` on whose region meets that of a client
before them. -/
def apartFrom (first : Nat) (f : FixedBits) : Nat → List FixedBits → Building Unit
  | _, [] => return ()
  | second, g :: rest => do
    let meet ← f.meets g
    demand (meet = false) (.overlap first second)
    apartFrom first f (second + 1) rest

def allApart : Nat → List FixedBits → Building Unit
  | _, [] => return ()
  | first, f :: rest => do
    apartFrom first f (first + 1) rest
    allApart (first + 1) rest

def construct (clients : Nat) (g : Geometry) (fixed : List FixedBits) : Building Regions := do
  let cache ← Cache.construct g
  demand (fixed.length = clients) (.patternCount fixed.length clients)
  let indexBits ← logarithm cache.shape.sets
  checked (checkPatterns indexBits 0 fixed)
  allApart 0 fixed
  let offsetBits ← logarithm g.block
  let _tagBits ← difference Bits.wordWidth offsetBits
  return { cache, fixed := fixed.toArray, tallies := Array.replicate clients {} }

end Regions

/-! ## Schemes -/

/-- The scheme of a description, built operation by operation. -/
def Plan.construct : Plan → Building Scheme
  | plain g => .plain <$> Cache.construct g
  | way ways size block => .banked <$> Banked.constructWays ways size block
  | interNode slices g => .banked <$> Banked.constructSlices slices.length slices g
  | intraNode g fixed => .regions <$> Regions.construct fixed.length g fixed
  | clusterWay clusters ways size block => .banked <$> Banked.constructClusters clusters ways size block
  | interIntra cells cores ways block => do
    let tables ← cores.mapM CoreTable.construct
    .banked <$> Banked.constructCells cores.length cells ways block tables

end LastLevel
