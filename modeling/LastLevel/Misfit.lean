/-!
# Why a configuration is refused

Each constructor of `Misfit` is one cause, with the numbers its message shows.
`Misfit.message` is the wording of every one of them. `BuildError` adds the one
configuration for which no scheme is defined although nothing in it is checked
and refused.
-/

namespace LastLevel

/-- Why no cache, scheme or hierarchy is built from a configuration. -/
inductive Misfit where
  | sizeNotPow2 (bytes : Nat)
  | blockNotPow2 (bytes : Nat)
  | noWays
  /-- The ways of one set hold more bytes than a word counts. -/
  | setOverflow
  /-- One set needs more bytes than the whole cache has. -/
  | setTooLarge (size ways block : Nat)
  /-- The sets do not fill the cache evenly. -/
  | uneven (size block ways : Nat)
  | setsNotPow2 (count : Nat)
  /-- The sets together hold more bytes than a word counts. -/
  | sizeOverflow
  | noWayClients
  | clientWithoutWays (client : Nat)
  | sliceCounts (given clients : Nat)
  | noSliceClients
  | clientWithoutSlices (client : Nat)
  | patternCount (given clients : Nat)
  /-- A client fixes more bits than a set index has. -/
  | patternTooLong (client width indexBits : Nat)
  /-- A client's pattern needs more bits than it fixes. -/
  | patternTooWide (client pattern width : Nat)
  | overlap (first second : Nat)
  | clustersNotPow2 (count : Nat)
  | noClusters
  | tableCount (given clients : Nat)
  /-- A cluster does not list one cell per client. -/
  | cellCount (cluster given clients : Nat)
  | noCores (client : Nat)
  | unknownCluster (client cluster clusters : Nat)
  /-- A client's running core counts do not grow. -/
  | notIncreasing (client : Nat)
  /-- A client's running core counts do not end at its total. -/
  | coreSum (client sum total : Nat)
  | noPrivateCores
deriving DecidableEq, Repr

namespace Misfit

/-- A number in binary, after the mark `0b`. -/
def binary (n : Nat) : String := "0b" ++ String.ofList (Nat.toDigits 2 n)

/-- What is wrong, without saying that a configuration is meant. -/
def reason : Misfit → String
  | sizeNotPow2 bytes => s!"cache size {bytes} is not a power of two"
  | blockNotPow2 bytes => s!"block size {bytes} is not a power of two"
  | noWays => "associativity must be at least 1"
  | setOverflow => "block size x associativity overflows"
  | setTooLarge size ways block => s!"cache of {size} bytes cannot hold {ways} ways of {block} byte blocks"
  | uneven size block ways =>
    s!"cache size {size} is not a multiple of block size {block} x associativity {ways}"
  | setsNotPow2 count => s!"set count {count} is not a power of two"
  | sizeOverflow => "cache size overflows"
  | noWayClients => "way partitioning needs at least one client"
  | clientWithoutWays client => s!"client {client} has no ways"
  | sliceCounts given clients => s!"{given} slice counts given for {clients} clients"
  | noSliceClients => "inter-node partitioning needs at least one client"
  | clientWithoutSlices client => s!"client {client} owns no slices"
  | patternCount given clients => s!"{given} fixed-bit entries given for {clients} clients"
  | patternTooLong client width indexBits =>
    s!"client {client} fixes {width} bits but the set index has {indexBits}"
  | patternTooWide client pattern width =>
    s!"client {client} pattern {binary pattern} does not fit in {width} bits"
  | overlap first second => s!"clients {first} and {second} map to overlapping sets"
  | clustersNotPow2 count => s!"cluster count {count} is not a power of two"
  | noClusters => "inter/intra partitioning needs at least one cluster"
  | tableCount given clients => s!"{given} lookup tables given for {clients} clients"
  | cellCount cluster given clients => s!"cluster {cluster} lists {given} cells for {clients} clients"
  | noCores client => s!"client {client} has no cores in any cluster"
  | unknownCluster client cluster clusters => s!"client {client} references cluster {cluster} of {clusters}"
  | notIncreasing client => s!"client {client} cumulative core counts are not increasing"
  | coreSum client sum total => s!"client {client} core counts sum to {sum}, expected {total}"
  | noPrivateCores => "multi-level cache needs at least one core"

def message (m : Misfit) : String := "invalid configuration: " ++ m.reason

end Misfit

/-- Why a scheme is not built. -/
inductive BuildError where
  | misfit (cause : Misfit)
  /-- A grid without any cell was given a block of no bytes, and such a block
  has no offset width. -/
  | emptyBlock
deriving DecidableEq, Repr

def BuildError.message : BuildError → String
  | misfit cause => cause.message
  | emptyBlock => "the offset width of an empty block is undefined"

end LastLevel
