/-!
# Addresses and bit fields

An address is one 64-bit word. Everything a cache reads from it is a field of
consecutive bits, so the operations here speak of natural numbers and powers of
two. A power is written by its name, `Nat.pow`: the sign for it means another
instance where Mathlib is imported.
-/

namespace LastLevel

/-- A physical address: one 64-bit word. -/
abbrev Address := UInt64

namespace Bits

def wordWidth : Nat := 64

def wordSize : Nat := Nat.pow 2 wordWidth

abbrev IsPow2 (n : Nat) : Prop := Nat.pow 2 n.log2 = n

/-- The largest number of `width` bits, where no width passes that of a word. -/
def mask (width : Nat) : Nat := Nat.pow 2 (min width wordWidth) - 1

/-- The bits needed to number `n` things: the least `k` with `n ≤ 2 ^ k`. -/
def indexWidth (n : Nat) : Nat := if n ≤ 1 then 0 else (n - 1).log2 + 1

/-- The length of `n` in bits: the least `k` with `n < 2 ^ k`. -/
def bitLength (n : Nat) : Nat := if n = 0 then 0 else n.log2 + 1

/-- The field of `width` bits of `word` that starts at bit `low`. -/
def field (word low width : Nat) : Nat := (word >>> low) % Nat.pow 2 (min width wordWidth)

/-- Takes the `count` bits above the lowest `low` out of an address and moves
the bits above them down. -/
def squeeze (a : Address) (low count : Nat) : Address :=
  UInt64.ofNat ((a.toNat >>> (low + count)) <<< low + a.toNat % Nat.pow 2 low)

theorem field_lt (word low width : Nat) : field word low width < Nat.pow 2 width :=
  Nat.lt_of_lt_of_le (Nat.mod_lt _ (Nat.two_pow_pos _)) (Nat.pow_le_pow_right (by decide) (Nat.min_le_left _ _))

end Bits

end LastLevel
