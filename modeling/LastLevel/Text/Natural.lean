import LastLevel.Bits
/-!
# Decimal words

A count on the command line: an optional plus sign and decimal digits, whose
value fits in 64 bits. Lists of counts are separated by commas. Numbers are
written as digits alone, and read back from them: `ofDecimal?_toString`.
-/

namespace LastLevel.Text

/-- The value of decimal digits, of which there must be at least one. -/
def ofDecimal? (cs : List Char) : Option Nat :=
  if cs ≠ [] ∧ cs.all Char.isDigit then some (cs.foldl (fun n c => n * 10 + (c.toNat - '0'.toNat)) 0) else none

def natural? (s : String) : Option Nat := do
  let n ← match s.toList with
    | '+' :: cs => ofDecimal? cs
    | cs => ofDecimal? cs
  if n < Bits.wordSize then some n else none

def fields (cs : List Char) : List (List Char) :=
  cs.foldr (fun c fs => if c = ',' then [] :: fs else (c :: fs.headD []) :: fs.tail) [[]]

def naturals? (s : String) : Option (List Nat) := (fields s.toList).mapM fun f => natural? (String.ofList f)

/-! ## Reading undoes writing -/

theorem toList_toString (n : Nat) : (toString n).toList = Nat.toDigits 10 n := by
  rw [Nat.toString_eq_repr, Nat.toList_repr]

theorem isDigit_of_mem_toString {n : Nat} {c : Char} (h : c ∈ (toString n).toList) : c.isDigit = true := by
  rw [toList_toString] at h
  exact Nat.isDigit_of_mem_toDigits (by decide) (by decide) h

theorem ofDecimal?_toString (n : Nat) : ofDecimal? (toString n).toList = some n := by
  have hdigits : (toString n).toList.all Char.isDigit = true := List.all_eq_true.2 fun _ => isDigit_of_mem_toString
  have hvalue := Nat.ofDigitChars_toDigits (b := 10) (n := n) (by decide) (by decide)
  rw [toList_toString] at hdigits ⊢
  rw [ofDecimal?, if_pos ⟨Nat.toDigits_ne_nil, hdigits⟩]
  simpa [Nat.ofDigitChars, Nat.mul_comm] using hvalue

/-- The digits of a number end where no digit follows. -/
theorem ofDecimal?_takeWhile (n : Nat) {c : Char} (hc : c.isDigit = false) (cs : List Char) :
    ofDecimal? ((Nat.toDigits 10 n ++ c :: cs).takeWhile Char.isDigit) = some n := by
  rw [← toList_toString, List.takeWhile_append_of_pos fun _ => isDigit_of_mem_toString,
    List.takeWhile_cons_of_neg (by simp [hc]), List.append_nil, ofDecimal?_toString]

end LastLevel.Text
