import LastLevel.Toml.Number
/-!
# TOML documents

A document is a list of statements, one per line: headers, which say where the
following values go, and values with their keys. `statements?` reads them and
`assemble?` puts the values into one tree of tables, which refuses whatever is
defined twice. Inline tables are assembled in the same way.
-/

namespace LastLevel.Toml

/-! ## Building tables -/

def Entries.alter? (key : String) (f : Option Value → Option Value) : Entries → Option Entries
  | [] => do some [(key, ← f none)]
  | (k, v) :: es =>
    if k = key then do some ((k, ← f (some v)) :: es)
    else (Entries.alter? key f es).map ((k, v) :: ·)

def alterLast? (f : Entries → Option Entries) : List Value → Option (List Value)
  | [.table origin es] => do some [.table origin (← f es)]
  | v :: w :: vs => (alterLast? f (w :: vs)).map (v :: ·)
  | _ => none

/-- Gives a dotted key its value. Only tables that dotted keys made can be added
to in this way. -/
def Entries.assign? (v : Value) : List String → Entries → Option Entries
  | [], _ => none
  | [key], es => es.alter? key fun
    | none => some v
    | some _ => none
  | key :: keys, es => es.alter? key fun
    | none => (Entries.assign? v keys []).map (.table .dotted)
    | some (.table .dotted inner) => (Entries.assign? v keys inner).map (.table .dotted)
    | some _ => none

/-- Goes down a header's path, to the last table of each array of tables on it,
and changes what is there. -/
def Entries.within? (f : Entries → Option Entries) : List String → Entries → Option Entries
  | [], es => f es
  | key :: keys, es => es.alter? key fun
    | none => (Entries.within? f keys []).map (.table .implied)
    | some (.table .closed _) => none
    | some (.table origin inner) => (Entries.within? f keys inner).map (.table origin)
    | some (.array true items) => (alterLast? (Entries.within? f keys) items).map (.array true)
    | some _ => none

def Entries.openTable? (key : String) (es : Entries) : Option Entries :=
  es.alter? key fun
    | none => some (.table .header [])
    | some (.table .implied inner) => some (.table .header inner)
    | some _ => none

def Entries.openRow? (key : String) (es : Entries) : Option Entries :=
  es.alter? key fun
    | none => some (.array true [.table .header []])
    | some (.array true items) => some (.array true (items ++ [.table .header []]))
    | some _ => none

/-! ## Values -/

def skipFiller (comment : Bool) : List Char → List Char
  | '\r' :: '\n' :: cs => skipFiller false cs
  | '\n' :: cs => skipFiller false cs
  | c :: cs =>
    if comment then if isPrintable c then skipFiller true cs else c :: cs
    else if isSpace c then skipFiller false cs
    else if c = '#' then skipFiller true cs
    else c :: cs
  | [] => []

/-- Puts the keys and values of an inline table together. -/
def inline? (pairs : List (List String × Value)) : Option Value :=
  (pairs.foldlM (fun es (keys, v) => Entries.assign? v keys es) []).map (.table .closed)

mutual

/-- Reads a value, in which at most `room` more brackets may be open at once.
The fuel bounds the steps. -/
def value? : Nat → Nat → List Char → Option (Value × List Char)
  | 0, _, _ => none
  | fuel + 1, room + 1, '[' :: cs => items? fuel room [] (skipFiller false cs)
  | fuel + 1, room + 1, '{' :: cs =>
    match skipSpaces cs with
    | '}' :: cs => some (.table .closed [], cs)
    | cs => pairs? fuel room [] cs
  | _, _, cs =>
    match string? cs with
    | some (s, rest) => some (.text s, rest)
    | none => scalarValue? cs

/-- Reads the rest of an array, after the items already read. -/
def items? : Nat → Nat → List Value → List Char → Option (Value × List Char)
  | 0, _, _, _ => none
  | _, _, acc, ']' :: cs => some (.array false acc.reverse, cs)
  | fuel + 1, room, acc, cs => do
    let (v, cs) ← value? fuel room cs
    match skipFiller false cs with
    | ',' :: cs => items? fuel room (v :: acc) (skipFiller false cs)
    | ']' :: cs => some (.array false (v :: acc).reverse, cs)
    | _ => none

/-- Reads the rest of an inline table, after the pairs already read. -/
def pairs? : Nat → Nat → List (List String × Value) → List Char → Option (Value × List Char)
  | 0, _, _, _ => none
  | fuel + 1, room, acc, cs => do
    let (keys, v, cs) ← pair? fuel room cs
    match skipSpaces cs with
    | ',' :: cs => pairs? fuel room ((keys, v) :: acc) cs
    | '}' :: cs => (inline? ((keys, v) :: acc).reverse).map (·, cs)
    | _ => none

def pair? : Nat → Nat → List Char → Option (List String × Value × List Char)
  | 0, _, _ => none
  | fuel + 1, room, cs => do
    let (keys, cs) ← key? maxDepth cs
    let cs ← skipChar? '=' cs
    let (v, cs) ← value? fuel room (skipSpaces cs)
    some (keys, v, cs)

end

/-! ## Statements -/

/-- A line of a document that says something. -/
inductive Statement where
  | table (path : List String)
  | row (path : List String)
  | pair (keys : List String) (v : Value)

def statement? : List Char → Option (Statement × List Char)
  | '[' :: '[' :: cs => do
    let (path, cs) ← key? maxDepth cs
    some (.row path, ← skipChar? ']' (← skipChar? ']' cs))
  | '[' :: cs => do
    let (path, cs) ← key? maxDepth cs
    some (.table path, ← skipChar? ']' cs)
  | cs => do
    let (keys, v, cs) ← pair? (2 * cs.length + 2) maxDepth cs
    some (.pair keys v, cs)

/-- Reads the statements of a text, after those already read. -/
def statementsFrom? : Nat → List Statement → List Char → Option (List Statement)
  | 0, _, _ => none
  | fuel + 1, acc, cs =>
    match skipSpaces cs with
    | [] => some acc.reverse
    | cs =>
      match lineEnd? cs with
      | some rest => statementsFrom? fuel acc rest
      | none => do
        let (s, cs) ← statement? cs
        statementsFrom? fuel (s :: acc) (← lineEnd? cs)

/-- The statements of a text. A byte order mark may stand before it. -/
def statements? (text : String) : Option (List Statement) :=
  match text.toList with
  | '\ufeff' :: cs => statementsFrom? (cs.length + 1) [] cs
  | cs => statementsFrom? (cs.length + 1) [] cs

/-! ## Documents -/

/-- Takes one statement into a document, given the header it stands under. -/
def step? (doc : List String × Entries) : Statement → Option (List String × Entries)
  | .table path => do
    let key ← path.getLast?
    some (path, ← doc.2.within? (Entries.openTable? key) path.dropLast)
  | .row path => do
    let key ← path.getLast?
    some (path, ← doc.2.within? (Entries.openRow? key) path.dropLast)
  | .pair keys v => do some (doc.1, ← doc.2.within? (Entries.assign? v keys) doc.1)

def assemble? (ss : List Statement) : Option Entries := (ss.foldlM step? ([], [])).map (·.2)

def read? (text : String) : Option Entries := statements? text >>= assemble?

end LastLevel.Toml
