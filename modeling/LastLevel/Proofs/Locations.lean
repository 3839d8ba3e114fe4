import LastLevel.Proofs.Admission
/-!
# Addresses as locations

Offset, set index and tag lie side by side and fill an address, so a location and an
offset are an address taken apart: `Shape.toNat_eq` puts it together again, and
`Shape.locate_eq_iff` says that what a location forgets is the offset. A word finds its
location by shifts and masks (`Location.extract?_eq`), where no shift reaches the width
of a word. Main statement: `Cache.locations_name_blocks`.
-/

namespace LastLevel

/-! ## Shifts and masks of words -/

namespace Bits

/-- Shifts a word to the right. There is no result from the width of a word on. -/
def shiftRight? (w : UInt64) (places : Nat) : Option UInt64 :=
  if places < wordWidth then some (w >>> UInt64.ofNat places) else none

/-- Shifts a word to the left. There is no result from the width of a word on. -/
def shiftLeft? (w : UInt64) (places : Nat) : Option UInt64 :=
  if places < wordWidth then some (w <<< UInt64.ofNat places) else none

/-- The word in which the `width` lowest bits are set, or all bits if there are no more. -/
def ones? (width : Nat) : Option UInt64 :=
  if wordWidth ≤ width then some (UInt64.ofNat (wordSize - 1)) else (shiftLeft? 1 width).map (· - 1)

/-- A number of places below the width of a word is not reduced before the shift. -/
theorem toNat_ofNat_mod_width {places : Nat} (h : places < wordWidth) :
    (UInt64.ofNat places).toNat % wordWidth = places := by
  have hword : places < 2 ^ 64 := Nat.lt_of_lt_of_le h (by decide)
  rw [UInt64.toNat_ofNat_of_lt' hword, Nat.mod_eq_of_lt h]

theorem shiftRight?_of_lt {places : Nat} (h : places < wordWidth) (w : UInt64) :
    ∃ v, shiftRight? w places = some v ∧ v.toNat = w.toNat >>> places := by
  refine ⟨_, if_pos h, ?_⟩
  have hplaces : (UInt64.ofNat places).toNat % 64 = places := toNat_ofNat_mod_width h
  rw [UInt64.toNat_shiftRight, hplaces]

/-- No width is too large for a mask, and none needs a shift that has no result. -/
theorem ones?_eq (width : Nat) : ∃ v, ones? width = some v ∧ v.toNat = mask width := by
  by_cases h : wordWidth ≤ width
  · refine ⟨_, if_pos h, ?_⟩
    rw [mask, Nat.min_eq_right h]
    decide
  · have hlt : width < wordWidth := Nat.lt_of_not_le h
    have hplaces : (UInt64.ofNat width).toNat % 64 = width := toNat_ofNat_mod_width hlt
    have hpow : 1 <<< width < 2 ^ 64 := by
      rw [Nat.one_shiftLeft]
      exact Nat.pow_lt_pow_right (by decide) hlt
    have hshift : ((1 : UInt64) <<< UInt64.ofNat width).toNat = 2 ^ width := by
      rw [UInt64.toNat_shiftLeft, hplaces, UInt64.toNat_one, Nat.mod_eq_of_lt hpow, Nat.one_shiftLeft]
    have hone : (1 : UInt64) ≤ 1 <<< UInt64.ofNat width := by
      rw [UInt64.le_iff_toNat_le, hshift]
      exact Nat.two_pow_pos width
    refine ⟨_, by rw [ones?, if_neg h, shiftLeft?, if_pos hlt, Option.map_some], ?_⟩
    rw [UInt64.toNat_sub_of_le _ _ hone, hshift, mask_of_le (Nat.le_of_lt hlt)]
    rfl

/-- Shift and mask give the field of a word. -/
theorem toNat_and_mask {w above ones : UInt64} {low width : Nat} (habove : above.toNat = w.toNat >>> low)
    (hones : ones.toNat = mask width) : (above &&& ones).toNat = field w.toNat low width := by
  rw [UInt64.toNat_and, habove, hones, mask, Nat.pow_eq, Nat.and_two_pow_sub_one_eq_mod, field, Nat.pow_eq]

end Bits

/-- The location of an address by shifts and masks. There is none where a shift has no
result. -/
def Location.extract? (a : Address) (offsetBits indexBits tagBits : Nat) : Option Location := do
  let block ← Bits.shiftRight? a offsetBits
  let above ← Bits.shiftRight? a (offsetBits + indexBits)
  let set ← Bits.ones? indexBits
  let tag ← Bits.ones? tagBits
  return { set := (block &&& set).toNat, tag := (above &&& tag).toNat }

/-- As long as there is room for a tag, every shift has a result. -/
theorem Location.extract?_eq {offsetBits indexBits : Nat} (h : offsetBits + indexBits < Bits.wordWidth) (tagBits : Nat)
    (a : Address) :
    extract? a offsetBits indexBits tagBits = some (split a.toNat offsetBits indexBits tagBits) := by
  obtain ⟨block, hblock, hblockNat⟩ := Bits.shiftRight?_of_lt (Nat.lt_of_le_of_lt (Nat.le_add_right _ _) h) a
  obtain ⟨above, habove, haboveNat⟩ := Bits.shiftRight?_of_lt h a
  obtain ⟨set, hset, hsetNat⟩ := Bits.ones?_eq indexBits
  obtain ⟨tag, htag, htagNat⟩ := Bits.ones?_eq tagBits
  rw [extract?, hblock, habove, hset, htag, split, ← Bits.toNat_and_mask hblockNat hsetNat,
    ← Bits.toNat_and_mask haboveNat htagNat]
  rfl

/-! ## Locations and blocks -/

namespace Shape
variable {s : Shape}

/-- An address is put together from its tag, its set index and its offset. -/
theorem toNat_eq (s : Shape) (a : Address) :
    a.toNat = (s.locate a).tag * 2 ^ (s.offsetBits + s.indexBits) + (s.locate a).set * 2 ^ s.offsetBits +
      a.toNat % 2 ^ s.offsetBits := by
  calc a.toNat = s.blockOf a * 2 ^ s.offsetBits + a.toNat % 2 ^ s.offsetBits := (Nat.div_add_mod' _ _).symm
    _ = ((s.locate a).tag * s.sets + (s.locate a).set) * 2 ^ s.offsetBits + a.toNat % 2 ^ s.offsetBits := by
      rw [← blockOf_eq]
    _ = _ := by rw [Nat.add_mul, Nat.mul_assoc, sets_eq, ← Nat.pow_add, Nat.add_comm s.indexBits]

/-- What a location forgets is the offset. -/
theorem locate_eq_iff {a a' : Address} : s.locate a = s.locate a' ↔ s.blockOf a = s.blockOf a' := by
  refine ⟨fun h => ?_, fun h => ?_⟩
  · rw [blockOf_eq, h, ← blockOf_eq]
  · rw [locate_eq, locate_eq, h]

/-- As long as there is room for a tag, any set and any tag are the location of some
address. -/
theorem exists_locate_eq (h : s.offsetBits + s.indexBits ≤ Bits.wordWidth) {l : Location} (hset : l.set < s.sets)
    (htag : l.tag < 2 ^ s.tagBits) : ∃ a, s.locate a = l := by
  have hwidths : s.tagBits + s.indexBits + s.offsetBits = Bits.wordWidth := by rw [tagBits]; omega
  have hblock : l.tag * s.sets + l.set < 2 ^ (s.tagBits + s.indexBits) := by
    calc l.tag * s.sets + l.set < (l.tag + 1) * s.sets := by rw [Nat.add_mul, Nat.one_mul]; omega
      _ ≤ 2 ^ s.tagBits * s.sets := Nat.mul_le_mul_right _ htag
      _ = 2 ^ (s.tagBits + s.indexBits) := (Nat.pow_add _ _ _).symm
  have hword : (l.tag * s.sets + l.set) * s.block < 2 ^ Bits.wordWidth := by
    rw [← hwidths, Nat.pow_add]
    exact Nat.mul_lt_mul_of_pos_right hblock (Nat.two_pow_pos _)
  have hnumber : s.blockOf (UInt64.ofNat ((l.tag * s.sets + l.set) * s.block)) = l.tag * s.sets + l.set := by
    rw [blockOf, UInt64.toNat_ofNat_of_lt' hword]
    exact Nat.mul_div_cancel _ (Nat.two_pow_pos _)
  refine ⟨UInt64.ofNat ((l.tag * s.sets + l.set) * s.block), ?_⟩
  rw [locate_eq, hnumber, Nat.mul_add_mod_of_lt hset, Nat.mul_comm, Nat.mul_add_div s.sets_pos,
    Nat.div_eq_of_lt hset, Nat.add_zero]

end Shape

/-! ## Caches -/

namespace Cache

/-- The widths of a cache that is built, which leave room for a tag. -/
theorem widths_of_built {sets ways block : Nat} {c : Cache}
    (h : ofSets? sets ways block = .ok c ∨ ∃ size < Bits.wordSize, Cache.ofGeometry? { size, ways, block } = .ok c) :
    c.shape.block = block ∧ c.shape.offsetBits + c.shape.indexBits < Bits.wordWidth := by
  rcases h with h | ⟨size, hsize, h⟩
  · obtain ⟨hs, rfl⟩ := ofSets?_eq_ok.1 h
    obtain ⟨hp, hb, hw, -, hsize, -⟩ := Shape.ofSets?_eq_ok.1 hs
    -- All the bytes together are a size in which there are just these sets.
    let g : Geometry := { size := sets * (block * ways), ways, block }
    have hsets : g.sets = sets := Nat.mul_div_cancel _ (Nat.mul_pos hb.pos hw)
    have hlt : g.sets.log2 + g.block.log2 < Bits.wordWidth := Geometry.log2_add_log2_lt hb (hsets ▸ hp) hw hsize
    rw [hsets, Nat.add_comm] at hlt
    exact ⟨Shape.block_ofCounts hb, hlt⟩
  · obtain ⟨hc, rfl⟩ := ofGeometry?_eq_ok.1 h
    obtain ⟨-, ⟨hb, hw, -⟩, -, -, hp⟩ := Geometry.check_eq_ok.1 hc
    have hlt := Geometry.log2_add_log2_lt hb hp hw hsize
    rw [Nat.add_comm] at hlt
    exact ⟨Shape.block_ofCounts hb, hlt⟩

/-- The fields of an address fill a word, and the tag has at least one bit. An
address is put together from its location and its offset, any set and any tag are
the location of some address, and addresses have one location exactly if they lie
in one block. Shifts and masks find the location, and every shift has a result. -/
theorem locations_name_blocks {sets ways block : Nat} {c : Cache}
    (h : ofSets? sets ways block = .ok c ∨ ∃ size < Bits.wordSize, Cache.ofGeometry? { size, ways, block } = .ok c) :
    let b := c.shape.offsetBits
    let s := c.shape.indexBits
    let t := c.shape.tagBits
    (2 ^ b = block ∧ 2 ^ s = c.sets.size) ∧
    (b + s + t = Bits.wordWidth ∧ 1 ≤ t) ∧
    (∀ a, (c.locate a).set < c.sets.size ∧ (c.locate a).tag < 2 ^ t ∧
      a.toNat = (c.locate a).tag * 2 ^ (b + s) + (c.locate a).set * 2 ^ b + a.toNat % 2 ^ b) ∧
    (∀ l : Location, l.set < c.sets.size → l.tag < 2 ^ t → ∃ a, c.locate a = l) ∧
    (∀ a a', c.locate a = c.locate a' ↔ a.toNat / block = a'.toNat / block) ∧
    ∀ a, Location.extract? a b s t = some (c.locate a) := by
  intro b s t
  obtain ⟨hblock, hroom⟩ := widths_of_built h
  have htag : t = Bits.wordWidth - s - b := rfl
  refine ⟨⟨hblock, c.sets_size.symm⟩, ⟨by omega, by omega⟩, fun a => ⟨?_, Bits.field_lt _ _ _, c.shape.toNat_eq a⟩,
    fun l hset hl => ?_, fun a a' => ?_, fun a => Location.extract?_eq hroom t a⟩
  · rw [c.sets_size]
    exact c.shape.locate_set_lt a
  · rw [c.sets_size] at hset
    exact Shape.exists_locate_eq (Nat.le_of_lt hroom) hset hl
  · rw [← hblock]
    exact Shape.locate_eq_iff

/-- A block of half the memory is the largest that a word counts. A cache of one such
block tells addresses apart by their highest bit. -/
theorem locations_name_blocks_of_half_memory :
    ∃ c, ofSets? 1 1 (2 ^ 63) = .ok c ∧ c.shape.offsetBits = 63 ∧ c.shape.indexBits = 0 ∧ c.shape.tagBits = 1 ∧
      (∀ tag < 2, ∃ a, c.locate a = { set := 0, tag }) ∧
      ∀ a a', c.locate a = c.locate a' ↔ a.toNat / 2 ^ 63 = a'.toNat / 2 ^ 63 := by
  have hok : ofSets? 1 1 (2 ^ 63) = .ok (.empty (.ofCounts 1 1 (2 ^ 63))) :=
    ofSets?_eq_ok.2 ⟨Shape.ofSets?_eq_ok.2
      ⟨Bits.isPow2_two_pow 0, Bits.isPow2_two_pow 63, by decide, by decide, by decide, rfl⟩, rfl⟩
  have hset : 0 < (Cache.empty (.ofCounts 1 1 (2 ^ 63))).sets.size := by decide
  obtain ⟨-, -, -, hall, hone, -⟩ := locations_name_blocks (.inl hok)
  exact ⟨_, hok, by decide, by decide, by decide, fun tag htag => hall { set := 0, tag } hset htag, hone⟩

end Cache

end LastLevel
