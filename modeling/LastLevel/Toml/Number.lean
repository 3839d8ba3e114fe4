import LastLevel.Bits
import LastLevel.Toml.Text
/-!
# TOML numbers, truth values and dates

Readers for the scalars that are not quoted. Integers are decimal with an
optional sign, or hexadecimal, octal or binary with a mark, and fit in 64 bits
with a sign. Floats and dates are checked and kept as written; a float must not
exceed all doubles.
-/

namespace LastLevel.Toml

/-! ## Digits -/

/-- The digits that go on a number, where a single underscore may stand before
each. -/
def moreDigits (isDigit : Char → Bool) : List Char → Option (List Char × List Char)
  | [] => some ([], [])
  | ['_'] => none
  | '_' :: c :: cs =>
    if isDigit c then (moreDigits isDigit cs).map fun (ds, cs) => (c :: ds, cs) else none
  | c :: cs =>
    if isDigit c then (moreDigits isDigit cs).map fun (ds, cs) => (c :: ds, cs) else some ([], c :: cs)

def digits? (isDigit : Char → Bool) : List Char → Option (List Char × List Char)
  | [] => none
  | c :: cs => if isDigit c then (moreDigits isDigit cs).map fun (ds, cs) => (c :: ds, cs) else none

def ofDigits (base : Nat) (ds : List Char) : Nat :=
  ds.foldl (fun n c => n * base + (Text.Hexadecimal.digit? c).getD 0) 0

/-- Decimal digits that do not begin with a zero, or one zero. -/
def decimal? : List Char → Option (List Char × List Char)
  | '0' :: cs => some (['0'], cs)
  | cs => digits? Char.isDigit cs

/-! ## Integers -/

/-- Reads an integer in another base, whose mark is gone already. -/
def based? (base : Nat) (cs : List Char) : Option (Int × List Char) :=
  (digits? (fun c => (Text.Hexadecimal.digit? c).any (· < base)) cs).map fun (ds, cs) => (ofDigits base ds, cs)

def unbounded? : List Char → Option (Int × List Char)
  | '0' :: 'x' :: cs => based? 16 cs
  | '0' :: 'o' :: cs => based? 8 cs
  | '0' :: 'b' :: cs => based? 2 cs
  | '+' :: cs => (decimal? cs).map fun (ds, cs) => (ofDigits 10 ds, cs)
  | '-' :: cs => (decimal? cs).map fun (ds, cs) => (-(ofDigits 10 ds : Int), cs)
  | cs => (decimal? cs).map fun (ds, cs) => (ofDigits 10 ds, cs)

def integer? (cs : List Char) : Option (Int × List Char) := do
  let (n, rest) ← unbounded? cs
  if -0x8000000000000000 ≤ n ∧ n < 0x8000000000000000 then some (n, rest) else none

/-! ## Floats -/

/-- Takes a sign off the front, and says whether it was a minus. -/
def takeSign : List Char → Bool × List Char
  | '+' :: cs => (false, cs)
  | '-' :: cs => (true, cs)
  | cs => (false, cs)

/-- Reads the exponent of a float, whose mark is gone already. -/
def exponent? (cs : List Char) : Option (Int × List Char) :=
  let (minus, cs) := takeSign cs
  (digits? Char.isDigit cs).map fun (ds, cs) =>
    (if minus then -(ofDigits 10 ds : Int) else ofDigits 10 ds, cs)

/-- Reads an exponent, which is zero if there is none. -/
def optionalExponent? : List Char → Option (Int × List Char)
  | 'e' :: cs => exponent? cs
  | 'E' :: cs => exponent? cs
  | cs => some (0, cs)

/-- Reads a float without sign, as a coefficient and a power of ten. -/
def magnitude? (cs : List Char) : Option (Nat × Int × List Char) := do
  let (whole, cs) ← decimal? cs
  match cs with
  | '.' :: cs =>
    let (fraction, cs) ← digits? Char.isDigit cs
    let (e, cs) ← optionalExponent? cs
    some (ofDigits 10 (whole ++ fraction), e - fraction.length, cs)
  | 'e' :: cs => (exponent? cs).map fun (e, cs) => (ofDigits 10 whole, e, cs)
  | 'E' :: cs => (exponent? cs).map fun (e, cs) => (ofDigits 10 whole, e, cs)
  | _ => none

/-- The least number that is rounded to infinity: the middle between the
largest double and the power of two above it. -/
def doubleBound : Nat := Nat.pow 2 1024 - Nat.pow 2 970

/-- Whether `c * 10 ^ e` is rounded to infinity. The bound lies between
`10 ^ 308` and `10 ^ 309`, and a number of at most `k` bits is below `10 ^ k`. -/
def overflows (c : Nat) : Int → Bool
  | .ofNat e => c != 0 && (308 < e || doubleBound ≤ c * Nat.pow 10 e)
  | .negSucc k => k < c.log2 && doubleBound * Nat.pow 10 (k + 1) ≤ c

/-- Drops a float. One that would count as positive infinity without being
written so is refused. -/
def skipFloat? (cs : List Char) : Option (List Char) :=
  match takeSign cs with
  | (_, 'i' :: 'n' :: 'f' :: cs) => some cs
  | (_, 'n' :: 'a' :: 'n' :: cs) => some cs
  | (minus, cs) => do
    let (c, e, cs) ← magnitude? cs
    if !minus && overflows c e then none else some cs

/-! ## Dates and times -/

/-- Reads a number of exactly `count` digits, within bounds. -/
def fixed? (count low high : Nat) (cs : List Char) : Option (Nat × List Char) :=
  let ds := cs.take count
  let n := ofDigits 10 ds
  if ds.length = count ∧ ds.all Char.isDigit ∧ low ≤ n ∧ n ≤ high then some (n, cs.drop count) else none

def skipChar? (c : Char) : List Char → Option (List Char)
  | d :: cs => if d = c then some cs else none
  | [] => none

def daysIn (year month : Nat) : Nat :=
  if month = 2 then if year % 4 = 0 ∧ (year % 100 ≠ 0 ∨ year % 400 = 0) then 29 else 28
  else if month ∈ [4, 6, 9, 11] then 30 else 31

def skipDate? (cs : List Char) : Option (List Char) := do
  let (year, cs) ← fixed? 4 0 9999 cs
  let (month, cs) ← fixed? 2 1 12 (← skipChar? '-' cs)
  let (_, cs) ← fixed? 2 1 (daysIn year month) (← skipChar? '-' cs)
  some cs

def skipFraction? : List Char → Option (List Char)
  | '.' :: cs => if (cs.takeWhile Char.isDigit).isEmpty then none else some (cs.dropWhile Char.isDigit)
  | cs => some cs

def skipTime? (cs : List Char) : Option (List Char) := do
  let (_, cs) ← fixed? 2 0 23 cs
  let (_, cs) ← fixed? 2 0 59 (← skipChar? ':' cs)
  let (_, cs) ← fixed? 2 0 60 (← skipChar? ':' cs)
  skipFraction? cs

def skipZone? : List Char → Option (List Char)
  | 'Z' :: cs => some cs
  | 'z' :: cs => some cs
  | '+' :: cs => hours cs
  | '-' :: cs => hours cs
  | cs => some cs
where
  hours (cs : List Char) : Option (List Char) := do
    let (_, cs) ← fixed? 2 0 23 cs
    let (_, cs) ← fixed? 2 0 59 (← skipChar? ':' cs)
    some cs

def skipMoment? (cs : List Char) : Option (List Char) :=
  match skipDate? cs with
  | none => skipTime? cs
  | some rest =>
    match rest with
    | c :: time =>
      if c = 'T' ∨ c = 't' ∨ (c = ' ' ∧ (skipTime? time).isSome) then skipTime? time >>= skipZone? else some rest
    | [] => some []

/-! ## Unquoted scalars -/

/-- What has been dropped from the front of a text. -/
def taken (cs rest : List Char) : String := String.ofList (cs.take (cs.length - rest.length))

/-- Reads a scalar without quotes: the longest of a date, a float and an
integer. -/
def scalarValue? (cs : List Char) : Option (Value × List Char) :=
  match cs with
  | 't' :: 'r' :: 'u' :: 'e' :: cs => some (.boolean true, cs)
  | 'f' :: 'a' :: 'l' :: 's' :: 'e' :: cs => some (.boolean false, cs)
  | cs =>
    match skipMoment? cs with
    | some rest => some (.moment (taken cs rest), rest)
    | none =>
      match skipFloat? cs with
      | some rest => some (.float (taken cs rest), rest)
      | none => (integer? cs).map fun (n, rest) => (.integer n, rest)

end LastLevel.Toml
