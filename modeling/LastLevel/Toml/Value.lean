/-!
# TOML values

The values of a TOML document. Strings and integers carry their value; the
other scalars are kept as they are written. A table knows how it came to be,
because that decides which later lines may still add to it.
-/

namespace LastLevel.Toml

/-- How a table came to be. -/
inductive Origin where
  /-- Named by a header of its own. -/
  | header
  /-- Named as part of a longer header. -/
  | implied
  /-- Named as part of a dotted key. -/
  | dotted
  /-- Written in braces. -/
  | closed
deriving DecidableEq, Repr

/-- A value of a document. The flag of an array says that headers in double
brackets made it. -/
inductive Value where
  | text (s : String)
  | integer (n : Int)
  | boolean (b : Bool)
  | float (written : String)
  | moment (written : String)
  | array (rows : Bool) (items : List Value)
  | table (origin : Origin) (entries : List (String × Value))
deriving Repr

abbrev Entries := List (String × Value)

end LastLevel.Toml
