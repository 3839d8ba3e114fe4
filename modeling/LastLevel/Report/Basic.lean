import LastLevel.Replay
import LastLevel.Report.Decimal
import LastLevel.Text.Column
/-!
# Reports

A report is a list of numbered sections. A section is a list of rows, which say
what was counted for whom, and only `Row.text` turns a row into a line. Clients
get rows up to the highest one that the trace mentions; the parts of a scheme
get rows for all clients.
-/

namespace LastLevel

inductive Subject where
  | whole
  | client (client : Nat)
  | core (core : Nat)
  | privateCache (core : Nat)
  | slice (client slice : Nat)
  | cluster (cluster client : Nat)
deriving DecidableEq, Repr

/-- The name of a subject; parts of others are indented. -/
def Subject.name : Subject → String
  | whole => "all"
  | client i => s!"client {i}"
  | core i => s!"core {i}"
  | privateCache i => s!"  L1 {i}"
  | slice i k => s!"  c{i} slice {k}"
  | cluster k i => s!"  cluster {k} c{i}"

inductive Row where
  | scenario (label : String)
  | trace (name : String) (accesses rejected : Nat)
  | counts (subject : Subject) (tally : Tally)
  | sharedLevel
  | unserved (client count : Nat)
deriving DecidableEq, Repr

namespace Row

/-- A share as a percentage, in six characters. -/
def percent (share : Float) : String := Text.padLeft 6 (Decimal.write (Decimal.hundredths (share * 100.0)))

/-- The share of misses, `0.0` before the first access. -/
def missRate (t : Tally) : Float := if t.accesses = 0 then 0.0 else 1.0 - t.hitRate

def text : Row → String
  | scenario label => s!"  {label}"
  | trace name accesses rejected =>
    let line := s!"    {Text.padRight 14 name} accesses {accesses}"
    if rejected = 0 then line else s!"{line} rejected {rejected}"
  | counts subject t =>
    let name := Text.padRight 18 subject.name
    let accesses := Text.padLeft 9 (toString t.accesses)
    let hit := percent t.hitRate
    let miss := percent (missRate t)
    s!"      {name} accesses {accesses} hit {hit}% miss {miss}% (misses {t.misses}, hits {t.hits})"
  | sharedLevel => "      shared level:"
  | unserved client count => s!"      c{client} unserved {count}"

end Row

namespace Report

/-- A row for each bank in the same place of every client's holding. -/
def clusterRows (b : Banked) (cluster : Nat) : List Row :=
  b.holdings.toList.zipIdx.filterMap fun (h, client) =>
    (h.bank? cluster).map fun c => .counts (.cluster cluster client) c.tally

/-- Rows for the parts of a scheme in which clients own banks. -/
def bankRows (b : Banked) : List Row :=
  match b.division with
  | .ways _ => []
  | .slices _ _ =>
    b.holdings.toList.zipIdx.flatMap fun (h, client) =>
      h.banks.toList.zipIdx.filterMap fun (c, slice) => c.map fun c => .counts (.slice client slice) c.tally
  | .clusters _ clusterBits => (List.range (Nat.pow 2 clusterBits)).flatMap (clusterRows b)
  | .cells _ clusters _ =>
    (List.range clusters).flatMap (clusterRows b) ++
      b.holdings.toList.zipIdx.filterMap fun (h, client) =>
        if h.unserved = 0 then none else some (.unserved client h.unserved)

/-- Rows for the clients of a scheme below a number. -/
def clientRows (s : Scheme) (clients : Nat) : List Row :=
  (List.range clients).filterMap fun client => (s.tally? client).toOption.map (.counts (.client client))

/-- Rows for a scheme, when the clients below `clientsSeen` were mentioned. -/
def schemeRows (s : Scheme) (clientsSeen : Nat) : List Row :=
  match s with
  | .plain c => [.counts .whole c.tally]
  | .regions r => clientRows s (min r.clients (max clientsSeen 1))
  | .banked b => clientRows s (min b.clients (max clientsSeen 1)) ++ bankRows b

/-- Rows for the cores of a two-level hierarchy. -/
def coreRows (t : TwoLevel) : List Row :=
  t.cores.toList.zipIdx.flatMap fun (c, core) =>
    [.counts (.core core) c.tally, .counts (.privateCache core) c.cache.tally]

/-- Rows for a replay. -/
def replayRows (r : Replay) : List Row :=
  .trace r.trace r.accesses r.rejected ::
    match r.hierarchy with
    | .flat s => schemeRows s r.clientsSeen
    | .twoLevel t => coreRows t ++ .sharedLevel :: schemeRows t.shared r.clientsSeen

/-- Rows for a scenario and its replays. -/
def resultRows (r : Result) : List Row := .scenario r.label :: r.replays.flatMap replayRows

end Report

/-- The sections written so far, and how many they are. -/
structure Report where
  sections : Nat := 0
  text : String := ""
deriving DecidableEq, Repr

namespace Report

/-- Starts the next section. -/
def header (r : Report) (title : String) : Report :=
  { sections := r.sections + 1, text := r.text ++ s!"\n[{r.sections + 1}] {title}\n" }

/-- Writes a whole section. -/
def add (r : Report) (title : String) (results : List Result) : Report :=
  let r := r.header title
  { r with text := r.text ++ String.join ((results.flatMap resultRows).map fun row => row.text ++ "\n") }

end Report

end LastLevel
