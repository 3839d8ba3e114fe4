import LastLevel.Scenario.Reader
/-!
# Experiment files, entry by entry

The readers of experiment files look up the keys they want. Here the entries of a table
are dealt out one after the other instead: whoever has a field for an entry keeps it,
and what is left goes on to the next. The table of a scenario has three takers. The
scenario itself keeps its label and its private level, then the kind of its scheme is
kept, and what is left over must be the fields of that kind. Only the last taker of a
table refuses what it does not know, and nobody takes two entries with one key.
-/

namespace LastLevel.Scenario

open Toml (Value Entries)

/-! ## Dealing entries out -/

/-- The entries that have been kept, and those that have been passed on. -/
structure Dealt where
  kept : Entries := []
  passed : Entries := []

/-- Deals out one more entry. None is kept that has the key of a kept one. -/
def Dealt.add? (keys : List String) (d : Dealt) (e : String × Value) : Option Dealt :=
  if e.1 ∈ keys then
    if e.1 ∈ d.kept.map (·.1) then none else some { d with kept := d.kept ++ [e] }
  else some { d with passed := d.passed ++ [e] }

def deal? (keys : List String) (es : Entries) : Option Dealt := es.foldlM (Dealt.add? keys) {}

/-- Takes a whole table: no entry may be left. -/
def strict? {α : Type} (keys : List String) (f : Entries → Option α) (es : Entries) : Option α := do
  let d ← deal? keys es
  guard d.passed.isEmpty
  f d.kept

/-- A field that may be missing. -/
def optional? {α : Type} (f : Value → Option α) (key : String) (es : Entries) : Option (Option α) :=
  match es.lookup key with
  | none => some none
  | some v => (f v).map some

/-! ## Takers -/

def takeFixedBits? : Value → Option FixedBits
  | .table _ es => es |> strict? ["bits", "n_bits"] fun es => do
    some { pattern := ← field? (natural? wide) "bits" es, width := ← field? (natural? narrow) "n_bits" es }
  -- An array has no keys, so there is nothing to deal out.
  | v => fixedBits? v

def takeLevel? : Value → Option PrivateLevel
  | .table _ es => es |> strict? ["cores", "cache_size", "associativity", "block_size"] fun es => do
    some { cores := ← field? (natural? wide) "cores" es, cache := ← geometryAt? "cache_size" es }
  | v => level? v

/-- The fields of a scheme of the given kind. Only fixed bits have tables inside. -/
def takePlan? (kind : String) (es : Entries) : Option Plan :=
  match kind with
  | "intra_node" => do
    some (.intraNode (← geometryAt? "cache_size" es) (← field? (list? takeFixedBits?) "fixed_bits" es))
  | kind => plan? kind es

def takeScenario? : Value → Option Scenario
  | .table _ es => do
    let own ← deal? ["label", "private"] es
    let tagged ← deal? ["scheme"] own.passed
    let kind ← field? text? "scheme" tagged.kept
    let keys ← planKeys? kind
    let plan ← strict? keys (takePlan? kind) tagged.passed
    some { label := ← field? text? "label" own.kept, plan, level := ← optional? takeLevel? "private" own.kept }
  | _ => none

def takeScenarios? (es : Entries) : Option (List Scenario) := es |> strict? ["scenario"] fun es => do
  some ((← optional? (list? takeScenario?) "scenario" es).getD [])

end LastLevel.Scenario
