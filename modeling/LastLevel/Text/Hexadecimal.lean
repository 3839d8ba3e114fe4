import LastLevel.Bits
/-!
# Hexadecimal words

A word is read from an optional mark `0x` or `0X`, an optional plus sign and at
least one digit of either case, and its value must fit in 64 bits. It is
written in lower case, without mark and without leading zeros.
`read_write` says that reading undoes writing.
-/

namespace LastLevel.Text.Hexadecimal

/-- Why a text is no hexadecimal word. -/
inductive Fault where
  | empty
  | invalidDigit
  | tooLarge
deriving DecidableEq, Repr

def Fault.message : Fault → String
  | empty => "cannot parse integer from empty string"
  | invalidDigit => "invalid digit found in string"
  | tooLarge => "number too large to fit in target type"

def digit? (c : Char) : Option Nat :=
  if '0' ≤ c ∧ c ≤ '9' then some (c.toNat - '0'.toNat)
  else if 'a' ≤ c ∧ c ≤ 'f' then some (c.toNat - 'a'.toNat + 10)
  else if 'A' ≤ c ∧ c ≤ 'F' then some (c.toNat - 'A'.toNat + 10)
  else none

/-- Reads digits after a value already read; the first character at fault
decides. -/
def readDigits : Nat → List Char → Except Fault Nat
  | n, [] => .ok n
  | n, c :: cs =>
    match digit? c with
    | none => .error .invalidDigit
    | some d => if Bits.wordSize ≤ n * 16 + d then .error .tooLarge else readDigits (n * 16 + d) cs

def stripMark : List Char → List Char
  | '0' :: 'x' :: cs => cs
  | '0' :: 'X' :: cs => cs
  | cs => cs

def readUnmarked : List Char → Except Fault Nat
  | [] => .error .empty
  | ['+'] => .error .invalidDigit
  | '+' :: cs => readDigits 0 cs
  | cs => readDigits 0 cs

def read (cs : List Char) : Except Fault Nat := readUnmarked (stripMark cs)

def write (n : Nat) : List Char := Nat.toDigits 16 n

/-! ## Reading undoes writing -/

theorem digit?_digitChar {d : Nat} (h : d < 16) : digit? d.digitChar = some d := by
  have hall : ∀ d : Fin 16, digit? (Nat.digitChar d) = some d.val := by decide
  exact hall ⟨d, h⟩

theorem readDigits_append {cs ds : List Char} {m n : Nat} (h : readDigits m cs = .ok n) :
    readDigits m (cs ++ ds) = readDigits n ds := by
  induction cs generalizing m with
  | nil => cases h; rfl
  | cons c cs ih =>
    simp only [readDigits, List.cons_append] at h ⊢
    split at h
    · cases h
    · split at h
      · cases h
      · next d _ hlt => rw [if_neg hlt, ih h]

theorem readDigits_write (n : Nat) (h : n < Bits.wordSize) : readDigits 0 (write n) = .ok n := by
  induction n using Nat.strongRecOn with
  | _ n ih =>
    by_cases hn : n < 16
    · rw [write, Nat.toDigits_of_lt_base hn, readDigits, digit?_digitChar hn]
      simp only [Nat.zero_mul, Nat.zero_add]
      rw [if_neg (by omega), readDigits]
    · have hd := ih (n / 16) (by omega) (by omega)
      rw [write] at hd ⊢
      rw [Nat.toDigits_of_base_le (by decide) (by omega), readDigits_append hd, readDigits,
        digit?_digitChar (by omega)]
      simp only
      rw [if_neg (by omega), readDigits]
      congr 1
      omega

/-- Written words consist of digits. -/
theorem eq_digitChar_of_mem_write {n : Nat} {c : Char} (h : c ∈ write n) : ∃ d < 16, c = d.digitChar := by
  induction n using Nat.strongRecOn with
  | _ n ih =>
    rw [write] at h
    by_cases hn : n < 16
    · rw [Nat.toDigits_of_lt_base hn, List.mem_singleton] at h
      exact ⟨n, hn, h⟩
    · rw [Nat.toDigits_of_base_le (by decide) (by omega), List.mem_append, List.mem_singleton] at h
      rcases h with h | h
      · exact ih (n / 16) (by omega) h
      · exact ⟨n % 16, by omega, h⟩

theorem digit?_of_mem_write {n : Nat} {c : Char} (h : c ∈ write n) : digit? c ≠ none := by
  obtain ⟨d, hd, rfl⟩ := eq_digitChar_of_mem_write h
  simp [digit?_digitChar hd]

theorem write_ne_nil (n : Nat) : write n ≠ [] := by
  rw [write]
  by_cases hn : n < 16
  · simp [Nat.toDigits_of_lt_base hn]
  · simp [Nat.toDigits_of_base_le (show 1 < 16 by decide) (show 16 ≤ n by omega)]

/-- Digits carry neither mark nor sign. -/
theorem read_of_digits {cs : List Char} (hne : cs ≠ []) (h : ∀ c ∈ cs, digit? c ≠ none) :
    read cs = readDigits 0 cs := by
  have hs : stripMark cs = cs := by
    unfold stripMark
    split
    · exact absurd (by decide) (h 'x' (by simp))
    · exact absurd (by decide) (h 'X' (by simp))
    · rfl
  rw [read, hs]
  unfold readUnmarked
  split
  · exact absurd rfl hne
  · exact absurd (by decide) (h '+' (by simp))
  · exact absurd (by decide) (h '+' (by simp))
  · rfl

theorem read_write (n : Nat) (h : n < Bits.wordSize) : read (write n) = .ok n :=
  (read_of_digits (write_ne_nil n) fun _ => digit?_of_mem_write).trans (readDigits_write n h)

end LastLevel.Text.Hexadecimal
