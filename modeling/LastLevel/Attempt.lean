import LastLevel.CacheSet.Layout
import LastLevel.Replay
/-!
# Accesses, lookup by lookup

`Hierarchy.access` answers a client at once. Here is the same access as the
lookups and changes it consists of, in their order: on one level the client, the
bank, the set and the way; on two levels first the private cache, which changes
even if the shared level should then meet a fault.
-/

namespace LastLevel

/-! ## Caches -/

namespace Cache

def putSet (c : Cache) (i : Nat) (s : CacheSet) : Cache :=
  { c with sets := c.sets.modify i fun _ => s, sets_size := by rw [Array.size_modify, c.sets_size] }

def set? (c : Cache) (i : Nat) : Except Fault CacheSet :=
  match c.sets[i]? with
  | some s => .ok s
  | none => .error (.set { set := i, sets := c.sets.size })

/-- Accesses a location that may not exist. -/
def attemptAt (l : Location) (a : Address) (kind : AccessKind) : Attempt Cache Bool := do
  let hit ← Attempt.within (·.set? l.set) (fun s c => c.putSet l.set s) (CacheSet.attempt l.tag a kind)
  modify fun c => { c with tally := c.tally.record hit }
  return hit

def attempt (a : Address) (kind : AccessKind) : Attempt Cache Bool := do
  attemptAt ((← get).locate a) a kind

end Cache

/-! ## Schemes -/

namespace Division

/-- The bank an address selects for a client that owns `banks` of them, and the
address as that bank sees it. -/
def select (d : Division) (client banks : Nat) (a : Address) : Except Fault (Nat × Address) :=
  match d with
  | ways _ => .ok (0, a)
  | slices offsetBits selectionBits =>
    if banks = 0 then .error .zeroDivisor else .ok (sliceOf offsetBits selectionBits banks a, a)
  | clusters offsetBits clusterBits =>
    .ok (clusterOf offsetBits clusterBits a, Bits.squeeze a offsetBits clusterBits)
  | cells offsetBits _ tables =>
    match tables[client]? with
    | none => .error (.beyond client tables.size)
    | some t =>
      if t.total = 0 then .error .zeroDivisor
      else match t.cluster? (t.selector a offsetBits) with
        | none => .error (.uncovered (t.selector a offsetBits) client)
        | some i => .ok (i, a)

end Division

namespace Holding

/-- Accesses one of the banks; where it is missing, the access is not served. -/
def attempt (i : Nat) (a : Address) (kind : AccessKind) : Attempt Holding Bool := fun h =>
  match lookup h.banks i with
  | .error e => .error e h
  | .ok none => .ok false { h with unserved := h.unserved + 1 }
  | .ok (some c) =>
    Attempt.lift (fun c => { h with banks := h.banks.modify i fun _ => some c }) (Cache.attempt a kind c)

/-- Accesses the bank that an address selects. -/
def serve (d : Division) (client : Nat) (a : Address) (kind : AccessKind) : Attempt Holding Bool := fun h =>
  match d.select client h.banks.size a with
  | .ok (i, a) => Holding.attempt i a kind h
  | .error e => .error e h

end Holding

namespace Banked

def attempt (client : Nat) (a : Address) (kind : AccessKind) : Attempt Banked Bool := do
  let b ← get
  Attempt.require (b.check client)
  Attempt.within (fun b => lookup b.holdings client)
    (fun h b => { b with holdings := b.holdings.modify client fun _ => h })
    (Holding.serve b.division client a kind)

end Banked

namespace Regions

/-- Accesses the shared cache; an access that leaves its miss counter alone was
a hit. -/
def attempt (client : Nat) (a : Address) (kind : AccessKind) : Attempt Regions Bool := do
  let r ← get
  Attempt.require (r.check client)
  let f ← ofExcept (lookup r.fixed client)
  let _ ← Attempt.within (fun r => .ok r.cache) (fun c r => { r with cache := c })
    (Cache.attemptAt (f.steer r.cache.shape a) a kind)
  let hit := decide ((← get).cache.tally.misses = r.cache.tally.misses)
  Attempt.within (fun r => lookup r.tallies client)
    (fun t r => { r with tallies := r.tallies.modify client fun _ => t }) (modify (·.record hit))
  return hit

end Regions

def Scheme.attempt (client : Nat) (a : Address) (kind : AccessKind) : Attempt Scheme Bool
  | .plain c => Attempt.lift .plain (Cache.attempt a kind c)
  | .banked b => Attempt.lift .banked (Banked.attempt client a kind b)
  | .regions r => Attempt.lift .regions (Regions.attempt client a kind r)

/-! ## Hierarchies -/

/-- Accesses the private cache of a core. -/
def Core.attempt (a : Address) (kind : AccessKind) : Attempt Core Bool :=
  .within (fun c => .ok c.cache) (fun cache c => { c with cache }) (Cache.attempt a kind)

namespace TwoLevel

/-- Works on one of the cores. -/
def withinCore {α : Type} (core : Nat) (m : Attempt Core α) : Attempt TwoLevel α :=
  .within (fun t => lookup t.cores core) (fun c t => { t with cores := t.cores.modify core fun _ => c }) m

/-- Accesses the shared level, unless the block was found in front of it. -/
def attemptShared (found : Bool) (client : Nat) (a : Address) (kind : AccessKind) : Attempt TwoLevel Bool :=
  if found then pure true
  else .within (fun t => .ok t.shared) (fun shared t => { t with shared }) (Scheme.attempt client a kind)

/-- Accesses the private cache of a core, and the shared level if the block is
not there. -/
def attempt (core client : Nat) (a : Address) (kind : AccessKind) : Attempt TwoLevel Bool := do
  let t ← get
  Attempt.require (t.check core client)
  let found ← withinCore core (Core.attempt a kind)
  let hit ← attemptShared found client a kind
  withinCore core (modify fun c => { c with tally := c.tally.record hit })
  return hit

end TwoLevel

def Hierarchy.attempt (client : Nat) (a : Address) (kind : AccessKind) : Attempt Hierarchy Bool
  | .flat s => Attempt.lift .flat (Scheme.attempt client a kind s)
  | .twoLevel t => Attempt.lift .twoLevel (TwoLevel.attempt client client a kind t)

/-! ## Replays -/

/-- Why a replay does not come to its end. -/
inductive ReplayError where
  | unbuilt (e : RunError)
  /-- A record met a fault other than a client that is not served. -/
  | stuck (label : String) (record : Record) (fault : Fault)

namespace ReplayError

/-- What went wrong, from the outermost statement to its cause. -/
def causes : ReplayError → List String
  | unbuilt e => e.causes
  | stuck label x fault =>
    let address := String.ofList (Text.Hexadecimal.write x.address.toNat)
    [s!"Scenario '{label}' failed on {x.kind.letter} 0x{address} from cpu {x.client.toNat}", fault.message]

end ReplayError

/-- Carries out one record, lookup by lookup. -/
def Replay.attempt (label : String) (r : Replay) (x : Record) : Except ReplayError Replay :=
  let client := x.client.toNat
  let clientsSeen := max r.clientsSeen (x.client + 1).toNat
  match Hierarchy.attempt client x.address x.kind r.hierarchy with
  | .ok _ hierarchy => .ok { r with clientsSeen, accesses := r.accesses + 1, hierarchy }
  | .error (.client _) hierarchy => .ok { r with clientsSeen, rejected := r.rejected + 1, hierarchy }
  | .error fault _ => .error (.stuck label x fault)

/-- Replays a trace, lookup by lookup. -/
def Scenario.attempt (s : Scenario) (t : Trace) : Except ReplayError Replay :=
  match s.build with
  | .error cause => .error (.unbuilt { label := s.label, cause })
  | .ok hierarchy => t.records.foldlM (Replay.attempt s.label) { trace := t.name, hierarchy }

end LastLevel
