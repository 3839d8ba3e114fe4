import LastLevel.Scenario.Basic
import LastLevel.Trace.Record
/-!
# Replaying traces

A replay carries out the records of a trace one after the other on a freshly
built hierarchy. A record whose client is not served is rejected and changes
nothing else. Main statement: `accesses_add_rejected` (every record is counted
once).
-/

namespace LastLevel

/-- How far a replay has come. -/
structure Replay where
  trace : String
  accesses : Nat := 0
  /-- Records whose client is not served. -/
  rejected : Nat := 0
  /-- The highest client of any record, plus one. The sum is a word: after the last
  client of all comes 0. -/
  clientsSeen : Nat := 0
  hierarchy : Hierarchy

namespace Replay

/-- Carries out one record. -/
def step (r : Replay) (x : Record) : Replay :=
  let client := x.client.toNat
  let clientsSeen := max r.clientsSeen (x.client + 1).toNat
  match r.hierarchy.check client with
  | .ok () =>
    { r with
      clientsSeen
      accesses := r.accesses + 1
      hierarchy := r.hierarchy.touch client x.address x.kind }
  | .error _ => { r with clientsSeen, rejected := r.rejected + 1 }

/-- Carries out records in order. -/
def run (r : Replay) (xs : List Record) : Replay := xs.foldl step r

end Replay

/-- Why a scenario is not replayed: it is not built. -/
structure RunError where
  label : String
  cause : BuildError
deriving DecidableEq, Repr

namespace RunError

/-- What went wrong, from the outermost statement to its cause. -/
def causes (e : RunError) : List String := [s!"Unable to build scenario '{e.label}'", e.cause.message]

def message (e : RunError) : String := ": ".intercalate e.causes

end RunError

/-- A scenario with its replays, one per trace. -/
structure Result where
  label : String
  replays : List Replay

namespace Scenario

def replay (s : Scenario) (t : Trace) : Except RunError Replay :=
  match s.build with
  | .error cause => .error { label := s.label, cause }
  | .ok hierarchy => .ok (Replay.run { trace := t.name, hierarchy } t.records)

def result (s : Scenario) (ts : List Trace) : Except RunError Result := do
  return { label := s.label, replays := ← ts.mapM s.replay }

/-- Replays every trace against every scenario; the first scenario that is not
built ends the run. -/
def results (ss : List Scenario) (ts : List Trace) : Except RunError (List Result) := ss.mapM (·.result ts)

end Scenario

/-! ## Every record is counted once -/

namespace Replay

theorem accesses_add_rejected_step (r : Replay) (x : Record) :
    (r.step x).accesses + (r.step x).rejected = r.accesses + r.rejected + 1 := by
  unfold step
  dsimp only
  split <;> simp only <;> omega

theorem accesses_add_rejected (r : Replay) (xs : List Record) :
    (r.run xs).accesses + (r.run xs).rejected = r.accesses + r.rejected + xs.length := by
  induction xs generalizing r with
  | nil => rfl
  | cons x xs ih =>
    rw [run, List.foldl_cons, ← run, ih, accesses_add_rejected_step, List.length_cons]
    omega

end Replay

end LastLevel
