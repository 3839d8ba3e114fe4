import LastLevel.Cache
import LastLevel.Client
/-!
# Faults

An access looks things up one after the other: a client's banks, a set, a way, an
entry of a table. Each lookup may find nothing, and `Fault` says which one it
was. An `Attempt` is an access that may so end halfway; what it has changed by
then stays changed. `Attempt.bind_of_ok` and `Attempt.within_of_ok` follow an
attempt that meets no fault.
-/

namespace LastLevel

/-- What an access can stumble over. -/
inductive Fault where
  | client (e : OutOfRange)
  | set (e : SetOutOfRange)
  /-- A way that is missing from the order of use of its set. -/
  | lostWay (way : Nat) (order : List Nat)
  /-- An order of use that names no way to give up. -/
  | noVictim (order : List Nat)
  /-- A selector that no entry of a client's core table covers. -/
  | uncovered (selector client : Nat)
  /-- An index that is not below the number of elements. -/
  | beyond (index size : Nat)
  /-- A remainder by zero. -/
  | zeroDivisor
deriving DecidableEq, Repr

namespace Fault

def message : Fault → String
  | client e => e.message
  | set e => e.message
  | lostWay way order => s!"internal invariant violated: way {way} missing from LRU order {order}"
  | noVictim order => s!"internal invariant violated: LRU order {order} has no valid victim"
  | uncovered selector i => s!"internal invariant violated: selector {selector} beyond lookup table of client {i}"
  | beyond index size => s!"index out of bounds: the len is {size} but the index is {index}"
  | zeroDivisor => "attempt to calculate the remainder with a divisor of zero"

end Fault

/-- A computation on a state that may end in a fault. -/
abbrev Attempt (σ α : Type) := EStateM Fault σ α

/-- The element at an index, which must exist. -/
def lookup {α : Type} (xs : Array α) (i : Nat) : Except Fault α :=
  match xs[i]? with
  | some x => .ok x
  | none => .error (.beyond i xs.size)

namespace Attempt

variable {σ τ α β : Type}

/-- The outcome of an attempt on a part, as one on the whole. -/
def lift (f : σ → τ) : EStateM.Result Fault σ α → EStateM.Result Fault τ α
  | .ok a s => .ok a (f s)
  | .error e s => .error e (f s)

/-- Works on a part of the state, which has to be found first. -/
def within (part : σ → Except Fault τ) (put : τ → σ → σ) (m : Attempt τ α) : Attempt σ α := fun s =>
  match part s with
  | .ok t => lift (put · s) (m t)
  | .error e => .error e s

/-- Goes on only with a client that is served. -/
def require (x : Except OutOfRange Unit) : Attempt σ Unit := fun s =>
  match x with
  | .ok () => .ok () s
  | .error e => .error (.client e) s

/-! ## Attempts that meet no fault -/

theorem bind_of_ok {m : Attempt σ α} {f : α → Attempt σ β} {s t : σ} {a : α} (h : m s = .ok a t) :
    (m >>= f) s = f a t := by
  simp only [bind, EStateM.bind, h]

theorem get_bind {f : σ → Attempt σ β} {s : σ} : (get >>= f) s = f s s := rfl

theorem modify_eq {f : σ → σ} {s : σ} : (modify f : Attempt σ Unit) s = .ok () (f s) := rfl

theorem ofExcept_bind {x : α} {f : α → Attempt σ β} {s : σ} : ((ofExcept (.ok x : Except Fault α)) >>= f) s = f x s :=
  rfl

theorem bind_of_error {m : Attempt σ α} {f : α → Attempt σ β} {s t : σ} {e : Fault} (h : m s = .error e t) :
    (m >>= f) s = .error e t := by
  simp only [bind, EStateM.bind, h]

theorem within_of_ok {p : σ → Except Fault τ} {put : τ → σ → σ} {m : Attempt τ α} {s : σ} {t t' : τ} {a : α}
    (hp : p s = .ok t) (hm : m t = .ok a t') : within p put m s = .ok a (put t' s) := by
  rw [within, hp]
  simp only [hm, lift]

theorem lookup_of_some {xs : Array α} {i : Nat} {x : α} (h : xs[i]? = some x) : lookup xs i = .ok x := by
  rw [lookup, h]

end Attempt

end LastLevel
