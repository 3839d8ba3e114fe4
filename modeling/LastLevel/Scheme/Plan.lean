import LastLevel.Scheme.Basic
/-!
# Descriptions of schemes

A `Plan` is what an experiment says about a scheme: which kind it is, and the
numbers that kind takes. `Plan.build` is the scheme it describes, or the first
fault in it.
-/

namespace LastLevel

/-- A scheme as an experiment describes it. -/
inductive Plan where
  | plain (cache : Geometry)
  /-- Ways per client of one cache. -/
  | way (ways : List Nat) (size block : Nat)
  /-- Slices per client, all of one geometry. -/
  | interNode (slices : List Nat) (slice : Geometry)
  /-- One cache, with fixed set index bits per client. -/
  | intraNode (cache : Geometry) (fixed : List FixedBits)
  /-- A number of clusters, and ways per client in each. -/
  | clusterWay (clusters : Nat) (ways : List Nat) (size block : Nat)
  /-- Bytes of each cell by cluster and client, and cores by client and
  cluster. -/
  | interIntra (cells cores : List (List Nat)) (ways block : Nat)
deriving DecidableEq, Repr

def Plan.build : Plan → Except BuildError Scheme
  | plain g => ((Cache.ofGeometry? g).map .plain).mapError .misfit
  | way ways size block => ((Banked.ofWays? ways size block).map .banked).mapError .misfit
  | interNode slices g => ((Banked.ofSlices? slices.length slices g).map .banked).mapError .misfit
  | intraNode g fixed => ((Regions.ofFixed? fixed.length g fixed).map .regions).mapError .misfit
  | clusterWay clusters ways size block =>
    ((Banked.ofClusters? clusters ways size block).map .banked).mapError .misfit
  | interIntra cells cores ways block =>
    (Banked.ofCells? cores.length cells ways block (cores.map .ofCounts)).map .banked

end LastLevel
