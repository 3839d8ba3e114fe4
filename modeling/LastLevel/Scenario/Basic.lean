import LastLevel.Hierarchy
/-!
# Scenarios

A scenario is what one trace is replayed against: a scheme, perhaps behind a
private level, and the label it has in a report.
-/

namespace LastLevel

/-- A hierarchy to build, and what to call it. -/
structure Scenario where
  label : String
  plan : Plan
  level : Option PrivateLevel := none
deriving DecidableEq, Repr

namespace Scenario

def build (s : Scenario) : Except BuildError Hierarchy := Hierarchy.build s.plan s.level

/-- The same scheme behind a private level. -/
def behind (s : Scenario) (level : PrivateLevel) : Scenario :=
  { s with label := s!"{s.label} + L1 {level.cache.size / 1024}KB", level := some level }

/-- The same scenario, labelled as one of several cache sizes. -/
def sized (s : Scenario) (size : Nat) : Scenario := { s with label := s!"{size / 1024}KB: {s.label}" }

end Scenario

end LastLevel
