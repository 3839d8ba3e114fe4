import LastLevel.Text.Natural
/-!
# Command line options

The options of the program and how arguments give them their values. An option
takes the rest of its own argument, after an equals sign or, for a letter,
directly; otherwise it takes the arguments that follow. Only traces may be
several, and only traces and the two lists may be given more than once. There
are no arguments outside of options.
-/

namespace LastLevel.CommandLine

structure Options where
  traces : List String
  config : Option String
  cores : Nat
  sliceKib : List Nat
  owned : List Nat
  dump : Bool
deriving DecidableEq, Repr

inductive Name where
  | trace
  | config
  | cores
  | sliceKib
  | owned
deriving DecidableEq, Repr

def Name.ofLong? : String → Option Name
  | "trace" => some trace
  | "config" => some config
  | "cores" => some cores
  | "slice-kib" => some sliceKib
  | "owned" => some owned
  | _ => none

def Name.ofLetter? : Char → Option Name
  | 't' => some trace
  | 'c' => some config
  | _ => none

structure Given where
  traces : List String := []
  config : Option String := none
  cores : Option Nat := none
  sliceKib : Option (List Nat) := none
  owned : Option (List Nat) := none
  dump : Bool := false

namespace Given

/-- A path, which must not be empty. -/
def path? (value : String) : Option String := if value.isEmpty then none else some value

/-- Sets what may be set once. -/
def once? (old : Option α) (new : Option α) : Option (Option α) :=
  match old, new with
  | none, some a => some (some a)
  | _, _ => none

def give? (g : Given) (name : Name) (value : String) : Option Given :=
  match name with
  | .trace => do some { g with traces := g.traces ++ [← path? value] }
  | .config => do some { g with config := ← once? g.config (path? value) }
  | .cores => do some { g with cores := ← once? g.cores (Text.natural? value) }
  | .sliceKib => do some { g with sliceKib := some (g.sliceKib.getD [] ++ (← Text.naturals? value)) }
  | .owned => do some { g with owned := some (g.owned.getD [] ++ (← Text.naturals? value)) }

/-- Asks for the records instead of a report. -/
def giveDump? (g : Given) : Option Given := if g.dump then none else some { g with dump := true }

/-- The options, once all values are given. There must be a trace. -/
def options? (g : Given) : Option Options :=
  if g.traces = [] then none
  else some {
    traces := g.traces
    config := g.config
    cores := g.cores.getD 4
    sliceKib := g.sliceKib.getD [512, 1024, 2048]
    owned := g.owned.getD [1, 2, 4, 8]
    dump := g.dump }

end Given

/-- The option that takes the next argument, if it is a value. -/
inductive Waiting where
  | nothing
  /-- The option has no value yet. -/
  | needed (name : Name)
  /-- The option has a value and takes more. -/
  | more (name : Name)
deriving DecidableEq, Repr

inductive Argument where
  | value (s : String)
  | endOfOptions
  | long (name : String) (value : Option String)
  | letter (letter : Char) (value : Option String)
deriving DecidableEq, Repr

def Argument.ofString (s : String) : Argument :=
  match s.toList with
  | ['-', '-'] => .endOfOptions
  | '-' :: '-' :: cs =>
    match cs.dropWhile (· != '=') with
    | '=' :: given => .long (String.ofList (cs.takeWhile (· != '='))) (some (String.ofList given))
    | _ => .long (String.ofList cs) none
  | ['-', c] => .letter c none
  | '-' :: c :: '=' :: given => .letter c (some (String.ofList given))
  | '-' :: c :: given => .letter c (some (String.ofList given))
  | _ => .value s

/-- Starts an option that takes a value. -/
def start? (g : Given) (name : Option Name) (value : Option String) : Option (Waiting × Given) :=
  match name, value with
  | none, _ => none
  | some name, none => some (.needed name, g)
  | some name, some value => (g.give? name value).map (.nothing, ·)

/-- Takes one argument in front of the end of the options. -/
def take? (waiting : Waiting) (g : Given) (a : Argument) : Option (Waiting × Given) :=
  match waiting, a with
  | .needed name, .value s =>
    (g.give? name s).map (if name = .trace then .more name else .nothing, ·)
  | .more name, .value s => (g.give? name s).map (.more name, ·)
  | .nothing, .value _ => none
  | .needed _, _ => none
  | _, .endOfOptions => none
  | _, .long "dump" none => g.giveDump?.map (.nothing, ·)
  | _, .long name value => start? g (Name.ofLong? name) value
  | _, .letter letter value => start? g (Name.ofLetter? letter) value

/-- Takes the arguments in order. After the end of the options nothing may
follow. -/
def takeAll? (waiting : Waiting) (g : Given) : List String → Option Given
  | [] => match waiting with
    | .needed _ => none
    | _ => some g
  | arg :: args =>
    match waiting, Argument.ofString arg, args with
    | .needed _, .endOfOptions, _ => none
    | _, .endOfOptions, [] => some g
    | waiting, a, args => do
      let (waiting, g) ← take? waiting g a
      takeAll? waiting g args

/-- The options that the arguments ask for; `none` if they are misused. -/
def Options.ofArguments? (args : List String) : Option Options := takeAll? .nothing {} args >>= Given.options?

end LastLevel.CommandLine
