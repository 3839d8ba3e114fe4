import LastLevel.Scenario.Basic
/-!
# Families of scenarios

The comparisons that a run makes on its own: private caches of several sizes,
every scheme over one last-level cache, and two sweeps. All clients of a
scenario get equal shares, and a share is a quotient rounded down, so the
families are meant for at least one core; the functions that end in a question
mark refuse to share among none.
-/

namespace LastLevel.Scenario

/-! ## One scheme, divided evenly -/

/-- The ways of a cache per core, at least one. -/
def waysEach (llc : Geometry) (cores : Nat) : Nat := max (llc.ways / cores) 1

/-- One undivided cache. -/
def shared (llc : Geometry) : Scenario :=
  { label := s!"Shared {llc.size / 1024}KB {llc.ways}-way", plan := .plain llc }

/-- The ways of one cache divided between cores. -/
def ways (llc : Geometry) (cores : Nat) : Scenario :=
  { label := s!"Way partitioning {waysEach llc cores} ways/core"
    plan := .way (List.replicate cores (waysEach llc cores)) llc.size llc.block }

/-- Slices of the given size for each core. -/
def slices (llc : Geometry) (cores owned size : Nat) : Scenario :=
  { label := s!"Inter-node partitioning {owned} slice/core"
    plan := .interNode (List.replicate cores owned) { llc with size } }

/-- Set index bits that number the cores, fixed to the number of each. -/
def regions (llc : Geometry) (cores : Nat) : Scenario :=
  let width := (max cores 1).log2
  { label := s!"Intra-node partitioning {width} fixed bits"
    plan := .intraNode llc ((List.range cores).map fun pattern => { pattern, width }) }

/-- Clusters of the given size, with their ways divided between cores. -/
def clusters (llc : Geometry) (cores clusters size : Nat) : Scenario :=
  { label := s!"Cluster way partitioning {clusters} clusters"
    plan := .clusterWay clusters (List.replicate cores (waysEach llc cores)) size llc.block }

/-- A cell of the given size and one core in every cluster, for each core. -/
def cells (llc : Geometry) (cores clusters size : Nat) : Scenario :=
  { label := s!"Inter/intra partitioning {clusters} clusters"
    plan := .interIntra (List.replicate clusters (List.replicate cores size))
      (List.replicate cores (List.replicate clusters 1)) llc.ways llc.block }

/-! ## Families -/

/-- Undivided caches of several sizes. -/
def privateSizes (base : Geometry) (sizes : List Nat) : List Scenario :=
  sizes.map fun size =>
    { label := s!"{size / 1024}KB {base.ways}-way", plan := .plain { base with size } }

/-- Every scheme over one cache. -/
def schemes (llc : Geometry) (cores : Nat) : List Scenario :=
  [shared llc,
    ways llc cores,
    slices llc cores 1 (llc.size / cores),
    regions llc cores,
    clusters llc cores 2 (llc.size / 2),
    cells llc cores 2 (llc.size / 2 / cores)]

/-- Three schemes over one slice, for each slice size. -/
def sizeSweep (llc : Geometry) (cores : Nat) (sizes : List Nat) : List Scenario :=
  sizes.flatMap fun size =>
    let llc := { llc with size }
    [ways llc cores, regions llc cores, cells llc cores 2 (size / 2 / cores)].map (·.sized size)

/-- Three schemes in which a client owns the same number of slices, for each
slice size. -/
def ownedSweep (llc : Geometry) (cores owned : Nat) (sizes : List Nat) : List Scenario :=
  sizes.flatMap fun size =>
    [slices llc cores owned size, clusters llc cores owned (size * cores), cells llc cores owned size].map
      (·.sized size)

/-! ## Families for any number of cores -/

/-- Every scheme over one cache, unless it is to be shared among no cores. -/
def schemes? (llc : Geometry) (cores : Nat) : Option (List Scenario) :=
  if cores = 0 then none else some (schemes llc cores)

/-- The sweep over slice sizes, unless a slice is to be shared among no
cores. -/
def sizeSweep? (llc : Geometry) (cores : Nat) (sizes : List Nat) : Option (List Scenario) :=
  if cores = 0 ∧ sizes ≠ [] then none else some (sizeSweep llc cores sizes)

/-- The sweep over slice sizes at a number of owned slices, unless the ways are
to be shared among no cores. -/
def ownedSweep? (llc : Geometry) (cores owned : Nat) (sizes : List Nat) : Option (List Scenario) :=
  if cores = 0 ∧ sizes ≠ [] then none else some (ownedSweep llc cores owned sizes)

end LastLevel.Scenario
