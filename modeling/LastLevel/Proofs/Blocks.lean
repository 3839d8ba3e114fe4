import LastLevel.Scheme.Regions
import Mathlib.Algebra.Group.Nat.Defs
import Mathlib.Data.List.Basic
/-!
# Block numbers

A cache never looks at an address itself, only at the number of its block. The
fields of an address are here quotients and remainders of that number:
`Shape.locate_eq` for a whole cache, `FixedBits.steer_eq` for a region, and
`blockOf_squeeze` for an address with bits taken out. The powers in the definitions
have their sign again in `Bits.IsPow2.two_pow_log2`, `Shape.sets_eq` and their like.
-/

namespace LastLevel

/-! ## Powers of two -/

namespace Bits

theorem isPow2_two_pow (k : Nat) : IsPow2 (2 ^ k) := by rw [IsPow2, Nat.pow_eq, Nat.log2_two_pow]

theorem isPow2_iff {n : Nat} : IsPow2 n ↔ ∃ k, n = 2 ^ k :=
  ⟨fun h => ⟨n.log2, h.symm⟩, by rintro ⟨k, rfl⟩; exact isPow2_two_pow k⟩

theorem IsPow2.two_pow_log2 {n : Nat} (h : IsPow2 n) : 2 ^ n.log2 = n := h

theorem IsPow2.pos {n : Nat} (h : IsPow2 n) : 0 < n := h ▸ Nat.two_pow_pos _

theorem IsPow2.mul {m n : Nat} (hm : IsPow2 m) (hn : IsPow2 n) : IsPow2 (m * n) := by
  obtain ⟨i, rfl⟩ := isPow2_iff.1 hm
  obtain ⟨j, rfl⟩ := isPow2_iff.1 hn
  rw [← Nat.pow_add]
  exact isPow2_two_pow _

end Bits

/-- A quotient is told apart from others by the number with a known remainder. -/
theorem add_mul_injective {n : Nat} (h : 0 < n) (r : Nat) : Function.Injective fun q => q * n + r := by
  intro p q hpq
  exact Nat.eq_of_mul_eq_mul_right h (Nat.add_right_cancel hpq)

/-! ## Fields of an address -/

namespace Bits

theorem toNat_lt_two_pow (a : Address) : a.toNat < 2 ^ wordWidth := a.toNat_lt

theorem mask_of_le {width : Nat} (h : width ≤ wordWidth) : mask width = 2 ^ width - 1 := by
  rw [mask, Nat.min_eq_left h, Nat.pow_eq]

/-- A field that reaches the top of the word is all that stands above its lowest
bit. -/
theorem field_to_top (a : Address) {low width : Nat} (h : wordWidth ≤ low + width) :
    field a.toNat low width = a.toNat / 2 ^ low := by
  rw [field, Nat.shiftRight_eq_div_pow, Nat.mod_eq_of_lt]
  refine Nat.div_lt_of_lt_mul (Nat.lt_of_lt_of_le (toNat_lt_two_pow a) ?_)
  rw [Nat.pow_eq, ← Nat.pow_add]
  exact Nat.pow_le_pow_right (by decide) (by omega)

/-- A field of an address, however wide, as a quotient and a remainder. -/
theorem field_toNat (a : Address) (low width : Nat) :
    field a.toNat low width = a.toNat / 2 ^ low % 2 ^ width := by
  by_cases h : width ≤ wordWidth
  · rw [field, Nat.min_eq_left h, Nat.shiftRight_eq_div_pow, Nat.pow_eq]
  · rw [field_to_top a (by omega), Nat.mod_eq_of_lt]
    exact Nat.lt_of_le_of_lt (Nat.div_le_self _ _) (Nat.lt_of_lt_of_le (toNat_lt_two_pow a)
      (Nat.pow_le_pow_right (by decide) (by omega)))

/-- Squeezing bits out of an address stays inside the word. -/
theorem toNat_squeeze (a : Address) (low count : Nat) :
    (squeeze a low count).toNat = a.toNat / 2 ^ (low + count) * 2 ^ low + a.toNat % 2 ^ low := by
  have hle : a.toNat / 2 ^ (low + count) * 2 ^ low ≤ a.toNat / 2 ^ low * 2 ^ low := by
    rw [Nat.pow_add, ← Nat.div_div_eq_div_mul]
    exact Nat.mul_le_mul_right _ (Nat.div_le_self _ _)
  have hsplit := Nat.div_add_mod' a.toNat (2 ^ low)
  have hlt := a.toNat_lt
  rw [squeeze, Nat.shiftRight_eq_div_pow, Nat.shiftLeft_eq, Nat.pow_eq, UInt64.toNat_ofNat_of_lt']
  simp only [UInt64.size]
  omega

end Bits

/-! ## The block of an address -/

namespace Shape

theorem sets_eq (s : Shape) : s.sets = 2 ^ s.indexBits := rfl

theorem block_eq (s : Shape) : s.block = 2 ^ s.offsetBits := rfl

/-- The number of the block that an address lies in. -/
def blockOf (s : Shape) (a : Address) : Nat := a.toNat / s.block

theorem sets_pos (s : Shape) : 0 < s.sets := Nat.two_pow_pos _

/-- The low part of the block number is the set, and the rest the tag. -/
theorem locate_eq (s : Shape) (a : Address) :
    s.locate a = { set := s.blockOf a % s.sets, tag := s.blockOf a / s.sets } := by
  rw [locate, Location.split, Bits.field_toNat, Bits.field_to_top a (by rw [tagBits]; omega), Nat.pow_add,
    ← Nat.div_div_eq_div_mul]
  rfl

/-- A location names its block. -/
theorem blockOf_eq (s : Shape) (a : Address) :
    s.blockOf a = (s.locate a).tag * s.sets + (s.locate a).set := by
  rw [locate_eq]
  exact (Nat.div_add_mod' _ _).symm

theorem block_ofCounts {sets ways block : Nat} (h : Bits.IsPow2 block) :
    (ofCounts sets ways block).block = block := h

theorem sets_ofCounts {sets ways block : Nat} (h : Bits.IsPow2 sets) : (ofCounts sets ways block).sets = sets := h

end Shape

/-- Squeezing out the lowest bits of the block number divides it. -/
theorem blockOf_squeeze (a : Address) (low count : Nat) :
    (Bits.squeeze a low count).toNat / 2 ^ low = a.toNat / 2 ^ low / 2 ^ count := by
  rw [Bits.toNat_squeeze, Nat.div_div_eq_div_mul, ← Nat.pow_add, Nat.add_comm,
    Nat.add_mul_div_right _ _ (Nat.two_pow_pos low),
    Nat.div_eq_of_lt (Nat.mod_lt _ (Nat.two_pow_pos low)), Nat.zero_add]

/-- A pattern that fits puts a client into its own aligned region of sets, and
inside it the address chooses. -/
theorem FixedBits.steer_set_eq {f : FixedBits} {s : Shape} (hw : f.width ≤ s.indexBits) (hp : f.pattern < 2 ^ f.width)
    (a : Address) :
    (f.steer s a).set =
      f.pattern * 2 ^ (s.indexBits - f.width) + Bits.field a.toNat s.offsetBits (s.indexBits - f.width) := by
  have hf : Bits.field a.toNat s.offsetBits (s.indexBits - f.width) < 2 ^ (s.indexBits - f.width) :=
    Bits.field_lt _ _ _
  have hsets : s.sets = 2 ^ f.width * 2 ^ (s.indexBits - f.width) := by
    rw [Shape.sets_eq, ← Nat.pow_add, Nat.add_sub_cancel' hw]
  rw [FixedBits.steer]
  simp only [Nat.shiftLeft_eq]
  rw [Nat.mod_eq_of_lt]
  calc f.pattern * 2 ^ (s.indexBits - f.width) + Bits.field a.toNat s.offsetBits (s.indexBits - f.width)
      < (f.pattern + 1) * 2 ^ (s.indexBits - f.width) := by rw [Nat.add_mul, Nat.one_mul]; omega
    _ ≤ s.sets := by rw [hsets]; exact Nat.mul_le_mul_right _ hp

/-- A client's pattern names its region of sets, the low part of the block
number the set inside it, and the whole block number is the tag. -/
theorem FixedBits.steer_eq {f : FixedBits} {s : Shape} (hw : f.width ≤ s.indexBits)
    (hp : f.pattern < 2 ^ f.width) (a : Address) :
    f.steer s a =
      { set := f.pattern * 2 ^ (s.indexBits - f.width) + s.blockOf a % 2 ^ (s.indexBits - f.width)
        tag := s.blockOf a } := by
  have hset := steer_set_eq hw hp a
  rw [Bits.field_toNat] at hset
  have htag : (f.steer s a).tag = s.blockOf a := Bits.field_to_top a (by omega)
  show Location.mk (f.steer s a).set (f.steer s a).tag = _
  rw [hset, htag]
  rfl

end LastLevel
