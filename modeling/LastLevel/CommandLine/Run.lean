import LastLevel.CommandLine.Options
import LastLevel.Report.Basic
import LastLevel.Scenario.Family
import LastLevel.Scenario.Reader
import LastLevel.Trace.Reader
/-!
# Runs of the program

A run reads traces and then prints their records, replays them against the
scenarios of an experiment file, or replays them against the built-in families.
It is a function of the arguments and of what the files hold; what it prints
before a failure stays printed. A section appears whole or not at all, since all
its scenarios are replayed first.
-/

namespace LastLevel.CommandLine

/-- What a file holds, or why it cannot be read. -/
abbrev Files := String → Except String ByteArray

inductive Ending where
  | done
  /-- The causes, from the outermost statement on. -/
  | failed (causes : List String)
  | misused
  /-- A scenario that cannot even be refused. -/
  | undefined
deriving DecidableEq, Repr

def Ending.code : Ending → Nat
  | done => 0
  | failed _ => 1
  | misused => 2
  | undefined => 101

/-- What is shown for a failure: the outermost statement, then its causes. -/
def describe : List String → String
  | [] => "Error:"
  | [outer] => s!"Error: {outer}"
  | [outer, cause] => s!"Error: {outer}\n\nCaused by:\n    {cause}"
  | outer :: causes =>
    let lines := causes.zipIdx.map fun (cause, i) => s!"\n    {i}: {cause}"
    s!"Error: {outer}\n\nCaused by:" ++ String.join lines

structure Outcome where
  output : String
  ending : Ending
deriving DecidableEq, Repr

/-! ## Traces -/

def fileName (path : String) : String :=
  ((path.splitOn "/").filter fun part => part != "" && part != ".").getLast?.getD path

def loadTrace (files : Files) (path : String) : Except (List String) Trace :=
  match files path with
  | .error e => .error ["Unable to load traces", s!"Unable to open trace file {path}", e]
  | .ok bytes =>
    (Trace.read (fileName path) bytes).mapError fun e =>
      ["Unable to load traces", s!"Failed to parse trace file {path}"] ++ e.causes

def loadScenarios (files : Files) (path : String) : Except (List String) (List Scenario) :=
  let unreadable := s!"Unable to read experiment file {path}"
  match files path with
  | .error e => .error [unreadable, e]
  | .ok bytes =>
    match String.fromUTF8? bytes with
    | none => .error [unreadable, "stream did not contain valid UTF-8"]
    | some text =>
      (Scenario.readDocument text).mapError fun e => [s!"Invalid experiment file {path}", e.message]

/-! ## Built-in sections -/

def builtinCache : Geometry := { size := 1024 * 1024, ways := 16, block := 64 }

/-- The first reason not to run the built-in sections. -/
def checkBuiltin (o : Options) : Except String Unit :=
  if ¬ Bits.IsPow2 o.cores ∨ builtinCache.ways < o.cores then
    .error s!"--cores must be a power of two no larger than {builtinCache.ways}, got {o.cores}"
  else match o.owned.find? fun n => ¬ Bits.IsPow2 n with
    | some n => .error s!"--owned values must be powers of two, got {n}"
    | none => .ok ()

def builtinSections (o : Options) : List (String × List Scenario) :=
  let llc := builtinCache
  let base := Geometry.standard
  let sizes := o.sliceKib.map (· * 1024)
  let schemes := Scenario.schemes llc o.cores
  [("Multiple private cache sizes", Scenario.privateSizes base ([16, 32, 64, 128].map (· * 1024))),
    (s!"LLC partitioning, {o.cores} cores", schemes),
    (s!"Two-level hierarchy, {o.cores} cores", schemes.map (·.behind { cores := o.cores, cache := base })),
    (s!"LLC slice size sweep, {o.cores} cores", Scenario.sizeSweep llc o.cores sizes)] ++
  o.owned.map fun owned =>
    (s!"{owned} slices owned per core, {o.cores} cores", Scenario.ownedSweep llc o.cores owned sizes)

/-! ## Runs -/

/-- How a run ends at a scenario that is not built. -/
def Ending.ofRunError (e : RunError) : Ending :=
  match e.cause with
  | .misfit _ => .failed e.causes
  | .emptyBlock => .undefined

/-- Replays the scenarios of each section and reports them; the first scenario
that is not built ends the run. -/
def runSections (ts : List Trace) : List (String × List Scenario) → Report → Outcome
  | [], report => { output := report.text, ending := .done }
  | (title, scenarios) :: rest, report =>
    match Scenario.results scenarios ts with
    | .error e => { output := report.text, ending := .ofRunError e }
    | .ok results => runSections ts rest (report.add title results)

def Options.run (o : Options) (files : Files) : Outcome :=
  match o.traces.mapM (loadTrace files) with
  | .error causes => { output := "", ending := .failed causes }
  | .ok traces =>
    if o.dump then { output := String.join (traces.map (·.dump)), ending := .done }
    else match o.config with
      | some path =>
        match loadScenarios files path with
        | .error causes => { output := "", ending := .failed causes }
        | .ok scenarios => runSections traces [(path, scenarios)] {}
      | none =>
        match checkBuiltin o with
        | .error cause => { output := "", ending := .failed [cause] }
        | .ok () => runSections traces (builtinSections o) {}

def run (args : List String) (files : Files) : Outcome :=
  match Options.ofArguments? args with
  | none => { output := "", ending := .misused }
  | some o => o.run files

end LastLevel.CommandLine
