import LastLevel.Cache
import LastLevel.Client
/-!
# A cache divided by regions of its sets

All clients share one cache, and the top bits of the set index are a fixed
pattern of the client instead of address bits. A client so reaches one aligned
region of the sets. Since the overwritten address bits no longer show in the
set, the tag is the whole block number. Main statement: `getElem?_tallies_touch`
(an access counts for its own client only).
-/

namespace LastLevel

/-- The top `width` bits of a client's set index. -/
structure FixedBits where
  pattern : Nat
  width : Nat
deriving DecidableEq, Repr

namespace FixedBits

/-- Whether the regions of two patterns meet: one pattern begins with the
other. -/
def overlaps (f g : FixedBits) : Bool :=
  if f.width ≤ g.width then g.pattern >>> (g.width - f.width) == f.pattern
  else f.pattern >>> (f.width - g.width) == g.pattern

/-- Where a client's address goes: the pattern stands in place of the top bits
of the set index. -/
def steer (f : FixedBits) (s : Shape) (a : Address) : Location :=
  let free := s.indexBits - f.width
  { set := (f.pattern <<< free + Bits.field a.toNat s.offsetBits free) % s.sets
    tag := Bits.field a.toNat s.offsetBits (Bits.wordWidth - s.offsetBits) }

end FixedBits

/-- One cache, and for each client its fixed bits and its counts. -/
structure Regions where
  cache : Cache
  fixed : Array FixedBits
  tallies : Array Tally

namespace Regions

def clients (r : Regions) : Nat := r.fixed.size

def check (r : Regions) (client : Nat) : Except OutOfRange Unit := checkClient client r.clients

def locate? (r : Regions) (client : Nat) (a : Address) : Except OutOfRange Location :=
  match r.fixed[client]? with
  | some f => .ok (f.steer r.cache.shape a)
  | none => .error { client, clients := r.clients }

def setsOf? (r : Regions) (client : Nat) : Except OutOfRange Nat :=
  match r.fixed[client]? with
  | some f => .ok (Nat.pow 2 (r.cache.shape.indexBits - f.width))
  | none => .error { client, clients := r.clients }

/-- Width of the tags: the whole block number. -/
def tagBits (r : Regions) : Nat := Bits.wordWidth - r.cache.shape.offsetBits

def hits (r : Regions) (client : Nat) (a : Address) : Bool :=
  match r.fixed[client]? with
  | some f => r.cache.holdsAt (f.steer r.cache.shape a)
  | none => false

def touch (r : Regions) (client : Nat) (a : Address) (kind : AccessKind) : Regions :=
  match r.fixed[client]? with
  | some f =>
    let l := f.steer r.cache.shape a
    let hit := r.cache.holdsAt l
    { r with tallies := r.tallies.modify client (·.record hit), cache := r.cache.touchAt l a kind }
  | none => r

def tally? (r : Regions) (client : Nat) : Except OutOfRange Tally :=
  if client < r.clients then .ok (r.tallies.getD client {}) else .error { client, clients := r.clients }

/-! ## Building -/

/-- The first fault of the patterns of the clients from `client` on. -/
def checkPatterns (indexBits : Nat) : Nat → List FixedBits → Except Misfit Unit
  | _, [] => .ok ()
  | client, f :: rest =>
    if indexBits < f.width then .error (.patternTooLong client f.width indexBits)
    else if Bits.mask f.width < f.pattern then .error (.patternTooWide client f.pattern f.width)
    else checkPatterns indexBits (client + 1) rest

/-- The first pair of clients from `first` on whose regions meet. -/
def checkOverlaps : Nat → List FixedBits → Except Misfit Unit
  | _, [] => .ok ()
  | first, f :: rest =>
    match rest.findIdx? f.overlaps with
    | some i => .error (.overlap first (first + 1 + i))
    | none => checkOverlaps (first + 1) rest

/-- Each client is confined to the sets that its fixed bits leave. -/
def ofFixed? (clients : Nat) (g : Geometry) (fixed : List FixedBits) : Except Misfit Regions :=
  match Cache.ofGeometry? g with
  | .error m => .error m
  | .ok cache =>
    if fixed.length ≠ clients then .error (.patternCount fixed.length clients)
    else match checkPatterns cache.shape.indexBits 0 fixed with
      | .error m => .error m
      | .ok () =>
        (checkOverlaps 0 fixed).map fun () =>
          { cache, fixed := fixed.toArray, tallies := Array.replicate clients {} }

/-! ## Whose accesses are counted -/

/-- An access counts for its own client and for no other. -/
theorem getElem?_tallies_touch (r : Regions) (client : Nat) (a : Address) (kind : AccessKind) (i : Nat)
    (h : client ≠ i) : (r.touch client a kind).tallies[i]? = r.tallies[i]? := by
  unfold touch
  split
  · simp [Array.getElem?_modify, h]
  · rfl

@[simp] theorem fixed_touch (r : Regions) (client : Nat) (a : Address) (kind : AccessKind) :
    (r.touch client a kind).fixed = r.fixed := by
  unfold touch; split <;> rfl

end Regions

end LastLevel
