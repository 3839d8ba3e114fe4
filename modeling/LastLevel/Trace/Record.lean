import LastLevel.CacheSet
import LastLevel.Text.Hexadecimal
/-!
# Memory traces

A trace is a list of memory accesses, each with the core that made it. A record
is written as one line: the address, the core and the store flag.
`dump_append` says that dumps are written one after the other.
-/

namespace LastLevel

namespace AccessKind

def letter : AccessKind → String
  | read => "R"
  | write => "W"

def flag : AccessKind → Char
  | read => '0'
  | write => '1'

end AccessKind

structure Record where
  address : Address
  client : UInt64
  kind : AccessKind
deriving DecidableEq, Repr

namespace Record

/-- The fields of a record, separated by single blanks. -/
def chars (r : Record) : List Char :=
  Text.Hexadecimal.write r.address.toNat ++ ' ' :: Text.Hexadecimal.write r.client.toNat ++ [' ', r.kind.flag]

/-- The lines of the given records, each with its line end. -/
def dump (rs : List Record) : String := String.ofList (rs.flatMap fun r => r.chars ++ ['\n'])

theorem dump_append (rs ss : List Record) : dump (rs ++ ss) = dump rs ++ dump ss := by
  simp [dump, String.ofList_append]

end Record

structure Trace where
  name : String
  records : List Record
deriving DecidableEq, Repr

def Trace.dump (t : Trace) : String := Record.dump t.records

end LastLevel
