import LastLevel.Scheme.Banked
import LastLevel.Scheme.Regions
/-!
# Schemes

A scheme is a last-level cache with a way of dividing it between clients. It
answers one question, `hits` (would this access hit?), and makes one step,
`touch` (carry the access out); `access` checks the client and does both. An
undivided cache serves every client and counts for all of them together.
-/

namespace LastLevel

/-- A last-level cache, divided or not. -/
inductive Scheme where
  | plain (cache : Cache)
  | banked (banks : Banked)
  | regions (shared : Regions)

namespace Scheme

/-- Number of clients with counts of their own; an undivided cache has none. -/
def clients? : Scheme → Option Nat
  | plain _ => none
  | banked b => some b.clients
  | regions r => some r.clients

def check (s : Scheme) (client : Nat) : Except OutOfRange Unit :=
  match s.clients? with
  | none => .ok ()
  | some clients => checkClient client clients

def hits (s : Scheme) (client : Nat) (a : Address) : Bool :=
  match s with
  | plain c => c.hits a
  | banked b => b.hits client a
  | regions r => r.hits client a

def touch (s : Scheme) (client : Nat) (a : Address) (kind : AccessKind) : Scheme :=
  match s with
  | plain c => plain (c.touch a kind)
  | banked b => banked (b.touch client a kind)
  | regions r => regions (r.touch client a kind)

/-- Accesses an address on behalf of a client and says whether it hit. A client
that is not served changes nothing. -/
def access (s : Scheme) (client : Nat) (a : Address) (kind : AccessKind) : Except OutOfRange (Bool × Scheme) :=
  (s.check client).map fun () => (s.hits client a, s.touch client a kind)

/-- Counts of a client; those of an undivided cache are the same for all. -/
def tally? (s : Scheme) (client : Nat) : Except OutOfRange Tally :=
  match s with
  | plain c => .ok c.tally
  | banked b => b.tally? client
  | regions r => r.tally? client

@[simp] theorem clients?_touch (s : Scheme) (client : Nat) (a : Address) (kind : AccessKind) :
    (s.touch client a kind).clients? = s.clients? := by
  cases s <;> simp [touch, clients?, Regions.clients]

@[simp] theorem check_touch (s : Scheme) (client : Nat) (a : Address) (kind : AccessKind) (i : Nat) :
    (s.touch client a kind).check i = s.check i := by
  simp [check]

end Scheme

end LastLevel
