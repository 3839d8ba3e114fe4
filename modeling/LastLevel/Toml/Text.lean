import LastLevel.Text.Hexadecimal
import LastLevel.Toml.Value
/-!
# TOML strings and keys

Readers for quoted text and for keys. Each takes characters off the front of a
text and yields what they stand for and the rest of the text, or `none` when the
text does not begin that way. Where a reader takes fuel, it needs no more than
the text has characters.
-/

namespace LastLevel.Toml

/-! ## Characters -/

def isSpace (c : Char) : Bool := c == ' ' || c == '\t'

/-- The characters that comments and quoted strings may hold: all but control
characters, of which only the tabulator is allowed. -/
def isPrintable (c : Char) : Bool := c == '\t' || (' ' ≤ c && c != '\x7f')

def isBareKey (c : Char) : Bool := c.isAlphanum || c == '_' || c == '-'

def skipSpaces (cs : List Char) : List Char := cs.dropWhile isSpace

def newline? : List Char → Option (List Char)
  | '\n' :: cs => some cs
  | '\r' :: '\n' :: cs => some cs
  | _ => none

def skipComment : List Char → List Char
  | '#' :: cs => cs.dropWhile isPrintable
  | cs => cs

/-- Takes off spaces, a comment and the end of the line or of the text. -/
def lineEnd? (cs : List Char) : Option (List Char) :=
  match skipComment (skipSpaces cs) with
  | [] => some []
  | cs => newline? cs

/-! ## Strings -/

/-- The character that a code point in hexadecimal digits stands for. -/
def scalar? (digits : List Char) : Option Char := do
  let ds ← digits.mapM Text.Hexadecimal.digit?
  let n := ds.foldl (fun n d => n * 16 + d) 0
  if n < 0xd800 ∨ (0xdfff < n ∧ n < 0x110000) then some (Char.ofNat n) else none

def escape? : Char → Option Char
  | 'b' => some '\x08'
  | 't' => some '\t'
  | 'n' => some '\n'
  | 'f' => some '\x0c'
  | 'r' => some '\r'
  | '"' => some '"'
  | '\\' => some '\\'
  | _ => none

/-- Takes an escape off the front, whose backslash is gone already. -/
def takeEscape? : List Char → Option (Char × List Char)
  | 'u' :: cs => if (cs.take 4).length = 4 then (scalar? (cs.take 4)).map (·, cs.drop 4) else none
  | 'U' :: cs => if (cs.take 8).length = 8 then (scalar? (cs.take 8)).map (·, cs.drop 8) else none
  | c :: cs => (escape? c).map (·, cs)
  | [] => none

/-- The rest of a string on one line in double quotes. The fuel bounds the
characters read. -/
def basic : Nat → List Char → List Char → Option (String × List Char)
  | 0, _, _ => none
  | _, _, [] => none
  | _, acc, '"' :: cs => some (String.ofList acc.reverse, cs)
  | fuel + 1, acc, '\\' :: cs => do
    let (c, cs) ← takeEscape? cs
    basic fuel (c :: acc) cs
  | fuel + 1, acc, c :: cs => if isPrintable c then basic fuel (c :: acc) cs else none

/-- Ends a string in triple quotes: up to two more quotes still belong to it. -/
def closeTriple (quote : Char) (acc cs : List Char) : String × List Char :=
  let extra := ((cs.take 2).takeWhile (· == quote)).length
  (String.ofList (acc.reverse ++ List.replicate extra quote), cs.drop extra)

def skipFolded : List Char → List Char
  | ' ' :: cs => skipFolded cs
  | '\t' :: cs => skipFolded cs
  | '\n' :: cs => skipFolded cs
  | '\r' :: '\n' :: cs => skipFolded cs
  | cs => cs

/-- The rest of a string in triple double quotes. A backslash at the end of a
line joins it to the next text. -/
def multiBasic : Nat → List Char → List Char → Option (String × List Char)
  | 0, _, _ => none
  | _, _, [] => none
  | _, acc, '"' :: '"' :: '"' :: cs => some (closeTriple '"' acc cs)
  | fuel + 1, acc, '\\' :: cs =>
    if (newline? (skipSpaces cs)).isSome then multiBasic fuel acc (skipFolded cs)
    else do
      let (c, cs) ← takeEscape? cs
      multiBasic fuel (c :: acc) cs
  | fuel + 1, acc, '\r' :: '\n' :: cs => multiBasic fuel ('\n' :: acc) cs
  | fuel + 1, acc, c :: cs => if isPrintable c || c == '\n' then multiBasic fuel (c :: acc) cs else none

/-- The rest of a string on one line in single quotes, which knows no
escapes. -/
def literal (cs : List Char) : Option (String × List Char) :=
  match cs.dropWhile fun c => isPrintable c && c != '\'' with
  | '\'' :: rest => some (String.ofList (cs.takeWhile fun c => isPrintable c && c != '\''), rest)
  | _ => none

def multiLiteral : List Char → List Char → Option (String × List Char)
  | _, [] => none
  | acc, '\'' :: '\'' :: '\'' :: cs => some (closeTriple '\'' acc cs)
  | acc, '\r' :: '\n' :: cs => multiLiteral ('\n' :: acc) cs
  | acc, c :: cs => if isPrintable c || c == '\n' then multiLiteral (c :: acc) cs else none

/-- Reads a string of any kind. A line end right after triple quotes is not
part of it. -/
def string? : List Char → Option (String × List Char)
  | '"' :: '"' :: '"' :: cs => multiBasic (cs.length + 1) [] ((newline? cs).getD cs)
  | '"' :: cs => basic (cs.length + 1) [] cs
  | '\'' :: '\'' :: '\'' :: cs => multiLiteral [] ((newline? cs).getD cs)
  | '\'' :: cs => literal cs
  | _ => none

/-! ## Keys -/

def simpleKey? : List Char → Option (String × List Char)
  | '"' :: cs => basic (cs.length + 1) [] cs
  | '\'' :: cs => literal cs
  | cs =>
    match cs.takeWhile isBareKey with
    | [] => none
    | key => some (String.ofList key, cs.dropWhile isBareKey)

/-- The most parts that a key may have, and the most brackets that may be open
around a value. -/
def maxDepth : Nat := 79

/-- Reads a key of at most the given number of parts, which dots join, with the
spaces around them. -/
def key? : Nat → List Char → Option (List String × List Char)
  | 0, _ => none
  | parts + 1, cs => do
    let (part, cs) ← simpleKey? (skipSpaces cs)
    match skipSpaces cs with
    | '.' :: cs =>
      let (rest, cs) ← key? parts cs
      some (part :: rest, cs)
    | cs => some ([part], cs)

end LastLevel.Toml
