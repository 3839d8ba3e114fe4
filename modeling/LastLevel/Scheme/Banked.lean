import LastLevel.Cache
import LastLevel.Client
import LastLevel.Scheme.CoreTable
/-!
# Schemes that give each client banks of its own

In four of the schemes a client owns whole caches, its banks, and no other
client reaches them. The schemes differ in how an address selects one of the
banks:

* `ways`: one bank, some of the ways of every set;
* `slices`: low bits of the block number, modulo the slices the client owns;
* `clusters`: low bits of the block number, which the chosen cluster no longer
  sees;
* `cells`: the client's core table; a cell may be missing, and an access to it
  is not served.

So a `Banked` scheme is a `Division`, which never changes, and one `Holding`
per client, which only that client's accesses change: `getElem?_touch`.
-/

namespace LastLevel

inductive Division where
  | ways (sets : Nat)
  | slices (offsetBits selectionBits : Nat)
  | clusters (offsetBits clusterBits : Nat)
  | cells (offsetBits clusters : Nat) (tables : Array CoreTable)
deriving Repr

namespace Division

/-- The cluster an address falls into, of `2 ^ clusterBits`. -/
def clusterOf (offsetBits clusterBits : Nat) (a : Address) : Nat :=
  Bits.field a.toNat offsetBits clusterBits

/-- The slice an address falls into, of the `owned` slices of a client. -/
def sliceOf (offsetBits selectionBits owned : Nat) (a : Address) : Nat :=
  Bits.field a.toNat offsetBits selectionBits % owned

/-- The cluster that a client's core table selects for an address. -/
def cellOf? (offsetBits : Nat) (tables : Array CoreTable) (client : Nat) (a : Address) : Option Nat :=
  tables[client]?.bind fun t => t.cluster? (t.selector a offsetBits)

/-- The bank an address selects for a client that owns `banks` of them, and the
address as that bank sees it. -/
def route (d : Division) (client banks : Nat) (a : Address) : Nat × Address :=
  match d with
  | ways _ => (0, a)
  | slices offsetBits selectionBits => (sliceOf offsetBits selectionBits banks a, a)
  | clusters offsetBits clusterBits =>
    (clusterOf offsetBits clusterBits a, Bits.squeeze a offsetBits clusterBits)
  | cells offsetBits _ tables => ((cellOf? offsetBits tables client a).getD banks, a)

end Division

/-- What one client owns: its banks, some of which may be missing, and the
number of its accesses that selected a missing one. -/
structure Holding where
  banks : Array (Option Cache)
  unserved : Nat := 0

namespace Holding

def bank? (h : Holding) (i : Nat) : Option Cache := h.banks[i]?.join

def hits (h : Holding) (i : Nat) (a : Address) : Bool :=
  match h.bank? i with
  | some c => c.hits a
  | none => false

def touch (h : Holding) (i : Nat) (a : Address) (kind : AccessKind) : Holding :=
  if (h.bank? i).isSome then { h with banks := h.banks.modify i (·.map fun c => c.touch a kind) }
  else { h with unserved := h.unserved + 1 }

def tally (h : Holding) : Tally := .sum (h.banks.toList.filterMap fun c => c.map (·.tally))

end Holding

structure Banked where
  division : Division
  holdings : Array Holding

namespace Banked

def clients (b : Banked) : Nat := b.holdings.size

def check (b : Banked) (client : Nat) : Except OutOfRange Unit := checkClient client b.clients

def hits (b : Banked) (client : Nat) (a : Address) : Bool :=
  match b.holdings[client]? with
  | some h =>
    let (i, a) := b.division.route client h.banks.size a
    h.hits i a
  | none => false

def touch (b : Banked) (client : Nat) (a : Address) (kind : AccessKind) : Banked :=
  let division := b.division
  { b with
    holdings := b.holdings.modify client fun h =>
      let (i, a) := division.route client h.banks.size a
      h.touch i a kind }

def tally? (b : Banked) (client : Nat) : Except OutOfRange Tally :=
  match b.holdings[client]? with
  | some h => .ok h.tally
  | none => .error { client, clients := b.clients }

/-! ## Building -/

/-- An empty bank of the given shape for each way count. -/
def wayBanks (sets block : Nat) : List Nat → Except Misfit (List Cache)
  | [] => .ok []
  | ways :: rest =>
    match Cache.ofSets? sets ways block with
    | .error m => .error m
    | .ok c => (wayBanks sets block rest).map (c :: ·)

/-- The banks of a cache whose ways are divided among clients, and its set
count. The cache must itself be without fault. -/
def divideWays (ways : List Nat) (size block : Nat) : Except Misfit (Nat × List Cache) :=
  if ways = [] then .error .noWayClients
  else match ways.findIdx? (· == 0) with
    | some client => .error (.clientWithoutWays client)
    | none =>
      let whole : Geometry := { size, ways := totalShare ways, block }
      match whole.check with
      | .error m => .error m
      | .ok () => (wayBanks whole.sets block ways).map (whole.sets, ·)

/-- Each client owns some of the ways of one cache. -/
def ofWays? (ways : List Nat) (size block : Nat) : Except Misfit Banked :=
  (divideWays ways size block).map fun (sets, caches) =>
    { division := .ways sets
      holdings := (caches.map fun c => { banks := #[some c] }).toArray }

/-- Each client owns whole slices, all of one geometry. -/
def ofSlices? (clients : Nat) (owned : List Nat) (slice : Geometry) : Except Misfit Banked :=
  if owned.length ≠ clients then .error (.sliceCounts owned.length clients)
  else if clients = 0 then .error .noSliceClients
  else match owned.findIdx? (· == 0) with
    | some client => .error (.clientWithoutSlices client)
    | none => (Cache.ofGeometry? slice).map fun c =>
      { division := .slices slice.block.log2 (Bits.bitLength clients)
        holdings := (owned.map fun n => { banks := Array.replicate n (some c) }).toArray }

/-- Each client owns some of the ways of every cluster. -/
def ofClusters? (clusters : Nat) (ways : List Nat) (size block : Nat) : Except Misfit Banked :=
  if ¬ Bits.IsPow2 clusters then .error (.clustersNotPow2 clusters)
  else (divideWays ways size block).map fun (_, caches) =>
    { division := .clusters block.log2 clusters.log2
      holdings := (caches.map fun c => { banks := Array.replicate clusters (some c) }).toArray }

/-- The cells of one cluster; a client with no bytes there has none. -/
def rowCells (ways block : Nat) : List Nat → Except Misfit (List (Option Cache))
  | [] => .ok []
  | 0 :: sizes => (rowCells ways block sizes).map (none :: ·)
  | size :: sizes =>
    match Cache.ofGeometry? { size, ways, block } with
    | .error m => .error m
    | .ok c => (rowCells ways block sizes).map (some c :: ·)

/-- The cells of all clusters from `cluster` on. -/
def gridCells (clients ways block : Nat) : Nat → List (List Nat) → Except Misfit (List (List (Option Cache)))
  | _, [] => .ok []
  | cluster, sizes :: rest =>
    if sizes.length ≠ clients then .error (.cellCount cluster sizes.length clients)
    else match rowCells ways block sizes with
      | .error m => .error m
      | .ok row => (gridCells clients ways block (cluster + 1) rest).map (row :: ·)

/-- The first fault of the core tables of the clients from `client` on. -/
def checkTables (clusters : Nat) : Nat → List CoreTable → Except Misfit Unit
  | _, [] => .ok ()
  | client, t :: rest =>
    match t.check client clusters with
    | .error m => .error m
    | .ok () => checkTables clusters (client + 1) rest

/-- A cell for each cluster and client, where a client's core table says how
its addresses spread over the clusters. -/
def ofCells? (clients : Nat) (sizes : List (List Nat)) (ways block : Nat) (tables : List CoreTable) :
    Except BuildError Banked :=
  if sizes = [] then .error (.misfit .noClusters)
  else if tables.length ≠ clients then .error (.misfit (.tableCount tables.length clients))
  else match gridCells clients ways block 0 sizes with
    | .error m => .error (.misfit m)
    | .ok grid =>
      match checkTables grid.length 0 tables with
      | .error m => .error (.misfit m)
      | .ok () => if block = 0 then .error .emptyBlock else .ok
        { division := .cells block.log2 grid.length tables.toArray
          holdings := ((List.range clients).map fun i =>
            { banks := (grid.map fun row => row[i]?.join).toArray }).toArray }

/-! ## Clients do not disturb one another -/

/-- An access changes the holding of its own client and no other. -/
theorem getElem?_touch (b : Banked) (client : Nat) (a : Address) (kind : AccessKind) (i : Nat) :
    (b.touch client a kind).holdings[i]? =
      if client = i then b.holdings[i]?.map fun h =>
        h.touch (b.division.route client h.banks.size a).1 (b.division.route client h.banks.size a).2 kind
      else b.holdings[i]? := by
  rw [touch, Array.getElem?_modify]

@[simp] theorem clients_touch (b : Banked) (client : Nat) (a : Address) (kind : AccessKind) :
    (b.touch client a kind).clients = b.clients := by
  simp [clients, touch]

end Banked

end LastLevel
