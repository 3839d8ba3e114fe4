import LastLevel.Scheme.Plan
/-!
# Private caches in front of a shared level

In a two-level hierarchy every core has a private cache, and only the accesses
that miss there reach the shared scheme. A hierarchy without private level is
the scheme alone. Main statement: `touch_of_hits` (a private hit leaves the
shared level as it was).
-/

namespace LastLevel

/-- A core: its private cache, and how its accesses went. -/
structure Core where
  cache : Cache
  tally : Tally := {}

/-- Cores with private caches in front of a shared scheme. -/
structure TwoLevel where
  cores : Array Core
  shared : Scheme

namespace TwoLevel

/-- Every core starts with the same private cache. -/
def build (cores : Nat) (cache : Cache) (shared : Scheme) : Except Misfit TwoLevel :=
  if cores = 0 then .error .noPrivateCores
  else .ok { cores := Array.replicate cores { cache }, shared }

/-- Accepts a core that exists with a client that the shared level serves. -/
def check (t : TwoLevel) (core client : Nat) : Except OutOfRange Unit :=
  match checkClient core t.cores.size with
  | .error e => .error e
  | .ok () => t.shared.check client

/-- Whether the private cache of a core holds an address. -/
def hitsPrivate (t : TwoLevel) (core : Nat) (a : Address) : Bool :=
  match t.cores[core]? with
  | some c => c.cache.hits a
  | none => false

def hits (t : TwoLevel) (core client : Nat) (a : Address) : Bool :=
  t.hitsPrivate core a || t.shared.hits client a

/-- Accesses an address; the shared level sees only what misses privately. -/
def touch (t : TwoLevel) (core client : Nat) (a : Address) (kind : AccessKind) : TwoLevel :=
  let found := t.hitsPrivate core a
  let hit := found || t.shared.hits client a
  { t with
    cores := t.cores.modify core fun c => { cache := c.cache.touch a kind, tally := c.tally.record hit }
    shared := if found then t.shared else t.shared.touch client a kind }

def access (t : TwoLevel) (core client : Nat) (a : Address) (kind : AccessKind) :
    Except OutOfRange (Bool × TwoLevel) :=
  (t.check core client).map fun () => (t.hits core client a, t.touch core client a kind)

def tally? (t : TwoLevel) (core : Nat) : Except OutOfRange Tally :=
  match t.cores[core]? with
  | some c => .ok c.tally
  | none => .error { client := core, clients := t.cores.size }

def private? (t : TwoLevel) (core : Nat) : Except OutOfRange Cache :=
  match t.cores[core]? with
  | some c => .ok c.cache
  | none => .error { client := core, clients := t.cores.size }

/-- A private hit leaves the shared level as it was. -/
theorem touch_of_hits {t : TwoLevel} {core : Nat} {a : Address} (h : t.hitsPrivate core a = true)
    (client : Nat) (kind : AccessKind) : (t.touch core client a kind).shared = t.shared := by
  simp [touch, h]

@[simp] theorem cores_size_touch (t : TwoLevel) (core client : Nat) (a : Address) (kind : AccessKind) :
    (t.touch core client a kind).cores.size = t.cores.size := by
  simp [touch]

@[simp] theorem check_touch (t : TwoLevel) (core client : Nat) (a : Address) (kind : AccessKind) (i j : Nat) :
    (t.touch core client a kind).check i j = t.check i j := by
  simp only [check, cores_size_touch]
  congr 1
  unfold touch
  dsimp only
  split <;> simp

end TwoLevel

inductive Hierarchy where
  | flat (scheme : Scheme)
  | twoLevel (levels : TwoLevel)

/-- The private level of a scenario: a number of cores, each with a cache. -/
structure PrivateLevel where
  cores : Nat
  cache : Geometry
deriving DecidableEq, Repr

namespace Hierarchy

/-- The hierarchy of a scheme and, if there is one, a private level. The faults
of the scheme come first. -/
def build (plan : Plan) (level : Option PrivateLevel) : Except BuildError Hierarchy :=
  match plan.build, level with
  | .error e, _ => .error e
  | .ok scheme, none => .ok (flat scheme)
  | .ok scheme, some p =>
    match Cache.ofGeometry? p.cache with
    | .error m => .error (.misfit m)
    | .ok cache => ((TwoLevel.build p.cores cache scheme).map twoLevel).mapError .misfit

def scheme : Hierarchy → Scheme
  | flat s => s
  | twoLevel t => t.shared

/-- Accepts the clients that are served; on two levels the core is the
client. -/
def check (h : Hierarchy) (client : Nat) : Except OutOfRange Unit :=
  match h with
  | flat s => s.check client
  | twoLevel t => t.check client client

def hits (h : Hierarchy) (client : Nat) (a : Address) : Bool :=
  match h with
  | flat s => s.hits client a
  | twoLevel t => t.hits client client a

def touch (h : Hierarchy) (client : Nat) (a : Address) (kind : AccessKind) : Hierarchy :=
  match h with
  | flat s => flat (s.touch client a kind)
  | twoLevel t => twoLevel (t.touch client client a kind)

def access (h : Hierarchy) (client : Nat) (a : Address) (kind : AccessKind) :
    Except OutOfRange (Bool × Hierarchy) :=
  (h.check client).map fun () => (h.hits client a, h.touch client a kind)

def tally? (h : Hierarchy) (client : Nat) : Except OutOfRange Tally :=
  match h with
  | flat s => s.tally? client
  | twoLevel t => t.tally? client

end Hierarchy

end LastLevel
