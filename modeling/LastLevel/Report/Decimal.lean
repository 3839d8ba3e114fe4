import LastLevel.Bits
/-!
# Two decimal places

A double is an integer times a power of two, so its hundredths are a quotient of
natural numbers, and rounding is exact: to the nearest hundredth, and from the
middle to the even one. `roundDiv_nearest` states the rounding.
-/

namespace LastLevel.Decimal

/-- The quotient of two numbers, rounded to the nearest integer and from the
middle to the even one. -/
def roundDiv (n d : Nat) : Nat :=
  if 2 * (n % d) < d then n / d
  else if d < 2 * (n % d) then n / d + 1
  else n / d + n / d % 2

/-- The size of a finite double as an integer and the power of two that it is
multiplied with. -/
def parts (x : Float) : Nat × Int :=
  let bits : Nat := x.toBits.toNat
  let fraction : Nat := bits % Nat.pow 2 52
  let exponent : Nat := bits / Nat.pow 2 52 % Nat.pow 2 11
  if exponent = 0 then (fraction, -1074) else (fraction + Nat.pow 2 52, (exponent : Int) - 1075)

/-- The hundredths of a double that is finite and not negative, rounded. -/
def hundredths (x : Float) : Nat :=
  let (m, e) := parts x
  roundDiv (m * 100 * Nat.pow 2 e.toNat) (Nat.pow 2 (-e).toNat)

def write (n : Nat) : String := s!"{n / 100}.{n % 100 / 10}{n % 10}"

/-! ## Rounding -/

/-- The rounded quotient is off by half a unit at most. -/
theorem roundDiv_nearest (n : Nat) {d : Nat} (h : 0 < d) :
    2 * (roundDiv n d * d) ≤ 2 * n + d ∧ 2 * n ≤ 2 * (roundDiv n d * d) + d := by
  have hs := Nat.div_add_mod' n d
  have hm := Nat.mod_lt n h
  unfold roundDiv
  split
  · omega
  · split
    · rw [Nat.add_mul, Nat.one_mul]; omega
    · rcases Nat.mod_two_eq_zero_or_one (n / d) with he | he <;> rw [he, Nat.add_mul] <;> omega

/-- From the middle between two integers the even one is taken. -/
theorem roundDiv_middle {n d : Nat} (h : 2 * (n % d) = d) : roundDiv n d % 2 = 0 := by
  unfold roundDiv
  rw [if_neg (by omega), if_neg (by omega)]
  omega

end LastLevel.Decimal
