import LastLevel.Proofs.Regions
import LastLevel.Proofs.Traversal
import Mathlib.Order.Interval.Set.Nat
/-!
# Regions are reached whole

What is confined to a region reaches every set of it: the pattern overwrites the top
bits of the set index (`FixedBits.field_overwrite`), and the other bits take every
value (`FixedBits.range_steer`). Regions that do not meet have together no more sets
than there are (`totalShare_regions_le`). Main statement:
`Regions.patterns_cover_disjoint_regions`.
-/

namespace LastLevel

namespace FixedBits
variable {f : FixedBits} {s : Shape} {indexBits : Nat}

/-- Where no pattern is wider than a word, a mask is what a pattern fits below. -/
theorem fits_iff (h : indexBits ≤ Bits.wordWidth) :
    f.Fits indexBits ↔ f.width ≤ indexBits ∧ f.pattern ≤ Bits.mask f.width := by
  refine ⟨fun hf => ⟨hf.width, ?_⟩, fun hf => fits_of_le_mask hf.1 hf.2⟩
  rw [Bits.mask_of_le (Nat.le_trans hf.width h)]
  exact Nat.le_sub_one_of_lt hf.pattern

/-! ## Overwritten bits -/

/-- The address with the pattern in place of the top bits of its set index. -/
def overwrite (f : FixedBits) (s : Shape) (a : Address) : Address :=
  let low := s.offsetBits + s.indexBits - f.width
  a &&& ~~~ UInt64.ofNat (Bits.mask f.width <<< low) ||| UInt64.ofNat (f.pattern <<< low)

/-- What fits the pattern's width stays inside a word when it is moved to its place. -/
theorem shiftLeft_lt (hw : f.width ≤ s.indexBits) (hs : s.offsetBits + s.indexBits ≤ Bits.wordWidth) {n : Nat}
    (hn : n < 2 ^ f.width) : n <<< (s.offsetBits + s.indexBits - f.width) < UInt64.size := by
  have hsum : f.width + (s.offsetBits + s.indexBits - f.width) = s.offsetBits + s.indexBits := by omega
  rw [Nat.shiftLeft_eq]
  calc n * 2 ^ (s.offsetBits + s.indexBits - f.width)
      < 2 ^ f.width * 2 ^ (s.offsetBits + s.indexBits - f.width) := Nat.mul_lt_mul_of_pos_right hn (Nat.two_pow_pos _)
    _ = 2 ^ (s.offsetBits + s.indexBits) := by rw [← Nat.pow_add, hsum]
    _ ≤ 2 ^ Bits.wordWidth := Nat.pow_le_pow_right (by decide) hs

theorem testBit_overwrite (hf : f.Fits s.indexBits) (hs : s.offsetBits + s.indexBits ≤ Bits.wordWidth)
    (a : Address) {j : Nat} (hj : j < s.indexBits) :
    (f.overwrite s a).toNat.testBit (s.offsetBits + j) =
      if j < s.indexBits - f.width then a.toNat.testBit (s.offsetBits + j)
      else f.pattern.testBit (j - (s.indexBits - f.width)) := by
  have hw := hf.width
  have hmask : Bits.mask f.width = 2 ^ f.width - 1 := Bits.mask_of_le (Nat.le_trans hw (by omega))
  have hwindow := shiftLeft_lt hw hs (Nat.sub_one_lt (Nat.two_pow_pos f.width).ne')
  have hbit : s.offsetBits + j < Bits.wordWidth := Nat.lt_of_lt_of_le (Nat.add_lt_add_left hj _) hs
  have hsize : UInt64.size = 2 ^ Bits.wordWidth := rfl
  rw [overwrite, hmask, UInt64.toNat_or, UInt64.toNat_and, UInt64.toNat_not,
    UInt64.toNat_ofNat_of_lt' (shiftLeft_lt hw hs hf.pattern), UInt64.toNat_ofNat_of_lt' hwindow, Nat.sub_sub,
    Nat.add_comm 1, Nat.testBit_or, Nat.testBit_and, hsize, Nat.testBit_two_pow_sub_succ hwindow,
    Nat.testBit_shiftLeft, Nat.testBit_shiftLeft, Nat.testBit_two_pow_sub_one]
  -- Below the window the bit is the address's, inside it the pattern's.
  by_cases hlow : j < s.indexBits - f.width
  · have hbelow : ¬ s.offsetBits + s.indexBits - f.width ≤ s.offsetBits + j := by omega
    simp [hlow, hbelow, hbit]
  · have hinside : s.offsetBits + s.indexBits - f.width ≤ s.offsetBits + j := by omega
    have hindex : s.offsetBits + j - (s.offsetBits + s.indexBits - f.width) = j - (s.indexBits - f.width) := by omega
    have hlt : j - (s.indexBits - f.width) < f.width := by omega
    simp [hlow, hinside, hindex, hlt]

/-- Steering finds the set that the overwritten address names. -/
theorem field_overwrite (hf : f.Fits s.indexBits) (hs : s.offsetBits + s.indexBits ≤ Bits.wordWidth) (a : Address) :
    Bits.field (f.overwrite s a).toNat s.offsetBits s.indexBits = (f.steer s a).set := by
  rw [steer_eq hf.width hf.pattern, Bits.field_toNat]
  have hpow : a.toNat / 2 ^ s.offsetBits % 2 ^ (s.indexBits - f.width) < 2 ^ (s.indexBits - f.width) :=
    Nat.mod_lt _ (Nat.two_pow_pos _)
  refine Nat.eq_of_testBit_eq fun j => ?_
  rw [Shape.blockOf, Shape.block_eq, Nat.mul_comm, Nat.testBit_two_pow_mul_add _ hpow, Nat.testBit_mod_two_pow,
    Nat.testBit_mod_two_pow, Nat.testBit_div_two_pow, Nat.testBit_div_two_pow, Nat.add_comm j]
  by_cases hj : j < s.indexBits
  · rw [testBit_overwrite hf hs a hj, decide_eq_true hj, Bool.true_and]
    split
    · next hlow => rw [decide_eq_true hlow, Bool.true_and]
    · rfl
  · -- Above the set index there is nothing left of the pattern.
    have hwide : f.pattern < 2 ^ (j - (s.indexBits - f.width)) :=
      Nat.lt_of_lt_of_le hf.pattern (Nat.pow_le_pow_right (by decide) (by have := hf.width; omega))
    rw [decide_eq_false hj, Bool.false_and, if_neg (by omega), Nat.testBit_lt_two_pow hwide]

/-! ## Sets that are reached -/

/-- A region consists of the sets with the numbers that the bits left free have. -/
theorem Fits.region_eq (hf : f.Fits indexBits) :
    f.region indexBits =
      (fun low => f.pattern * 2 ^ (indexBits - f.width) + low) '' Set.Iio (2 ^ (indexBits - f.width)) := by
  ext i
  constructor
  · rintro ⟨-, hi⟩
    exact ⟨i % 2 ^ (indexBits - f.width), Nat.mod_lt _ (Nat.two_pow_pos _), by rw [← hi]; exact Nat.div_add_mod' _ _⟩
  · rintro ⟨low, hlow, rfl⟩
    exact hf.mem_region hlow

theorem finite_region (f : FixedBits) (indexBits : Nat) : (f.region indexBits).Finite :=
  (Set.finite_Iio (2 ^ indexBits)).subset fun _ h => h.1

theorem Fits.ncard_region (hf : f.Fits indexBits) : (f.region indexBits).ncard = 2 ^ (indexBits - f.width) := by
  rw [hf.region_eq, Set.ncard_image_of_injective _ (add_right_injective _), Set.ncard_Iio_nat]

/-- Addresses reach every set of the region, and no other. -/
theorem range_steer (hf : f.Fits s.indexBits) (hs : s.offsetBits + s.indexBits ≤ Bits.wordWidth) :
    Set.range (fun a => (f.steer s a).set) = f.region s.indexBits := by
  refine Set.Subset.antisymm (Set.range_subset_iff.2 (steer_mem_region hf)) ?_
  rw [hf.region_eq]
  rintro _ ⟨low, hlow, rfl⟩
  have hword : low * 2 ^ s.offsetBits < UInt64.size := by
    calc low * 2 ^ s.offsetBits < 2 ^ (s.indexBits - f.width) * 2 ^ s.offsetBits :=
          Nat.mul_lt_mul_of_pos_right hlow (Nat.two_pow_pos _)
      _ = 2 ^ (s.indexBits - f.width + s.offsetBits) := (Nat.pow_add _ _ _).symm
      _ ≤ 2 ^ Bits.wordWidth := Nat.pow_le_pow_right (by decide) (by omega)
  refine ⟨UInt64.ofNat (low * 2 ^ s.offsetBits), ?_⟩
  have hblock : s.blockOf (UInt64.ofNat (low * 2 ^ s.offsetBits)) = low := by
    rw [Shape.blockOf, UInt64.toNat_ofNat_of_lt' hword, Shape.block_eq, Nat.mul_div_cancel _ (Nat.two_pow_pos _)]
  simp only [steer_eq hf.width hf.pattern, hblock, Nat.mod_eq_of_lt hlow]

theorem overlaps_eq_false_iff {g : FixedBits} (hf : f.Fits indexBits) (hg : g.Fits indexBits) :
    f.overlaps g = false ↔ f.region indexBits ∩ g.region indexBits = ∅ := by
  rw [← Bool.not_eq_true, overlaps_iff hf hg, Set.not_nonempty_iff_eq_empty]

end FixedBits

/-! ## All regions together -/

theorem ncard_regions {indexBits : Nat} {fixed : List FixedBits} (hfits : ∀ f ∈ fixed, f.Fits indexBits)
    (hdisjoint : fixed.Pairwise fun f g => f.region indexBits ∩ g.region indexBits = ∅) :
    (⋃ f ∈ fixed, f.region indexBits).ncard = totalShare (fixed.map fun f => 2 ^ (indexBits - f.width)) := by
  have hfinite : ∀ fixed : List FixedBits, (⋃ f ∈ fixed, f.region indexBits).Finite := fun fixed =>
    (Set.finite_Iio (2 ^ indexBits)).subset (Set.iUnion₂_subset fun f _ i hi => hi.1)
  induction fixed with
  | nil => simp [totalShare]
  | cons f fixed ih =>
    rw [List.forall_mem_cons] at hfits
    rw [List.pairwise_cons] at hdisjoint
    have hunion : (⋃ g ∈ f :: fixed, g.region indexBits) = f.region indexBits ∪ ⋃ g ∈ fixed, g.region indexBits := by
      simp [Set.iUnion_or, Set.iUnion_union_distrib]
    have hfirst : Disjoint (f.region indexBits) (⋃ g ∈ fixed, g.region indexBits) :=
      Set.disjoint_iUnion₂_right.2 fun g hg => Set.disjoint_iff_inter_eq_empty.2 (hdisjoint.1 g hg)
    rw [hunion, Set.ncard_union_eq hfirst _ (hfinite fixed), hfits.1.ncard_region, ih hfits.2 hdisjoint.2,
      List.map_cons, totalShare_cons]
    exact f.finite_region indexBits

/-- Regions that do not meet have no more sets together than there are. -/
theorem totalShare_regions_le {indexBits : Nat} {fixed : List FixedBits} (hfits : ∀ f ∈ fixed, f.Fits indexBits)
    (hdisjoint : fixed.Pairwise fun f g => f.region indexBits ∩ g.region indexBits = ∅) :
    totalShare (fixed.map fun f => 2 ^ (indexBits - f.width)) ≤ 2 ^ indexBits := by
  rw [← ncard_regions hfits hdisjoint, ← Set.ncard_Iio_nat (2 ^ indexBits)]
  exact Set.ncard_le_ncard (Set.iUnion₂_subset fun f _ i hi => hi.1) (Set.finite_Iio _)

/-! ## Schemes -/

namespace Regions
variable {clients : Nat} {g : Geometry} {fixed : List FixedBits} {r : Regions} {i : Nat} {f : FixedBits}

theorem bits_le_of_check (hg : g.check = .ok ()) (hsize : g.size < Bits.wordSize) :
    g.block.log2 + g.sets.log2 ≤ Bits.wordWidth := by
  obtain ⟨-, ⟨hb, hw, -⟩, -, -, hs⟩ := Geometry.check_eq_ok.1 hg
  have := Geometry.log2_add_log2_lt hb hs hw hsize
  omega

theorem accepted_iff (hsize : g.size < Bits.wordSize) :
    (∃ r, ofFixed? clients g fixed = .ok r) ↔
      g.check = .ok () ∧ fixed.length = clients ∧ (∀ f ∈ fixed, f.Fits g.sets.log2) ∧
        fixed.Pairwise fun f f' => f.region g.sets.log2 ∩ f'.region g.sets.log2 = ∅ := by
  simp only [ofFixed?_eq_ok, exists_and_left, exists_eq, and_true]
  refine and_congr_right fun hg => and_congr_right fun _ => ?_
  have hbits := bits_le_of_check hg hsize
  simp only [← FixedBits.fits_iff (Nat.le_trans (Nat.le_add_left _ _) hbits)]
  refine and_congr_right fun hfits => List.Pairwise.iff_of_mem fun hf hf' => ?_
  exact FixedBits.overlaps_eq_false_iff (hfits _ hf) (hfits _ hf')

theorem cache_of_ofFixed? (h : ofFixed? clients g fixed = .ok r) :
    r.cache = .empty (.ofCounts g.sets g.ways g.block) := by
  obtain ⟨-, rfl⟩ := ofFixed?_eq_ok.1 h
  rfl

theorem shape_of_ofFixed? (h : ofFixed? clients g fixed = .ok r) : r.cache.shape = .ofCounts g.sets g.ways g.block := by
  rw [cache_of_ofFixed? h, Cache.empty]

theorem fixed_of_ofFixed? (h : ofFixed? clients g fixed = .ok r) : r.fixed = fixed.toArray := by
  obtain ⟨-, rfl⟩ := ofFixed?_eq_ok.1 h
  rfl

theorem locate?_of_ofFixed? (h : ofFixed? clients g fixed = .ok r) (hf : fixed[i]? = some f) (a : Address) :
    r.locate? i a = .ok (f.steer (.ofCounts g.sets g.ways g.block) a) := by
  rw [locate?, fixed_of_ofFixed? h, List.getElem?_toArray, hf, shape_of_ofFixed? h]

theorem setsOf?_of_ofFixed? (h : ofFixed? clients g fixed = .ok r) (hf : fixed[i]? = some f) :
    r.setsOf? i = .ok (2 ^ (g.sets.log2 - f.width)) := by
  rw [setsOf?, fixed_of_ofFixed? h, List.getElem?_toArray, hf, shape_of_ofFixed? h]
  rfl

/-- The sets that a client's addresses reach are its region. -/
theorem reached_eq_region (hsize : g.size < Bits.wordSize) (h : ofFixed? clients g fixed = .ok r)
    (hf : fixed[i]? = some f) : { s | ∃ a l, r.locate? i a = .ok l ∧ l.set = s } = f.region g.sets.log2 := by
  obtain ⟨hg, -, hfits, -⟩ := (accepted_iff hsize).1 ⟨r, h⟩
  simp only [locate?_of_ofFixed? h hf, Except.ok.injEq, exists_eq_left']
  exact FixedBits.range_steer (s := .ofCounts g.sets g.ways g.block) (hfits f (List.mem_of_getElem? hf))
    (bits_le_of_check hg hsize)

/-- Every client has the sets that its pattern leaves. -/
theorem mapM_setsOf? (h : ofFixed? clients g fixed = .ok r) :
    (List.range clients).mapM r.setsOf? = .ok (fixed.map fun f => 2 ^ (g.sets.log2 - f.width)) := by
  obtain ⟨⟨-, hlen, -⟩, -⟩ := ofFixed?_eq_ok.1 h
  refine mapM_eq_ok.2 (List.forall₂_iff_get.2 ⟨by simpa using hlen.symm, fun i hi hi' => ?_⟩)
  rw [List.length_map] at hi'
  simpa using setsOf?_of_ofFixed? h (List.getElem?_eq_getElem hi')

/-- Patterns are accepted exactly if each fits and their regions are disjoint. Then
an access goes to the set that its address names once the pattern overwrites the top
bits of the set index. The sets that a client's addresses reach are its region; all
clients together have no more sets than there are; and a client finds two addresses
in the same place exactly if they lie in the same block. -/
theorem patterns_cover_disjoint_regions (hsize : g.size < Bits.wordSize) :
    ((∃ r, ofFixed? clients g fixed = .ok r) ↔
      g.check = .ok () ∧ fixed.length = clients ∧ (∀ f ∈ fixed, f.Fits g.sets.log2) ∧
        fixed.Pairwise fun f f' => f.region g.sets.log2 ∩ f'.region g.sets.log2 = ∅) ∧
    ∀ r, ofFixed? clients g fixed = .ok r →
      (∀ (i : Nat) (f : FixedBits), fixed[i]? = some f →
        (∀ a, ∃ l, r.locate? i a = .ok l ∧
          l.set = Bits.field (f.overwrite r.cache.shape a).toNat g.block.log2 g.sets.log2) ∧
        { s | ∃ a l, r.locate? i a = .ok l ∧ l.set = s } = f.region g.sets.log2 ∧
        r.setsOf? i = .ok (f.region g.sets.log2).ncard ∧
        ∀ a a', r.locate? i a = r.locate? i a' ↔ a.toNat / g.block = a'.toNat / g.block) ∧
      ∃ ns, (List.range clients).mapM r.setsOf? = .ok ns ∧ totalShare ns ≤ g.sets := by
  refine ⟨accepted_iff hsize, fun r hr => ?_⟩
  obtain ⟨hg, -, hfits, hdisjoint⟩ := (accepted_iff hsize).1 ⟨r, hr⟩
  obtain ⟨-, ⟨hblock, -⟩, -, -, hsets⟩ := Geometry.check_eq_ok.1 hg
  have hbits := bits_le_of_check hg hsize
  refine ⟨fun i f hf => ?_, _, mapM_setsOf? hr, ?_⟩
  · have hfit : f.Fits (Shape.ofCounts g.sets g.ways g.block).indexBits := hfits f (List.mem_of_getElem? hf)
    have hlocate := locate?_of_ofFixed? hr hf
    refine ⟨fun a => ⟨_, hlocate a, ?_⟩, reached_eq_region hsize hr hf, ?_, fun a a' => ?_⟩
    · rw [shape_of_ofFixed? hr]
      exact (FixedBits.field_overwrite hfit hbits a).symm
    · rw [setsOf?_of_ofFixed? hr hf, (hfits f (List.mem_of_getElem? hf)).ncard_region]
    · rw [hlocate, hlocate, FixedBits.steer_eq hfit.width hfit.pattern, FixedBits.steer_eq hfit.width hfit.pattern]
      simp only [Shape.blockOf, Shape.block_ofCounts hblock, Except.ok.injEq, Location.mk.injEq]
      exact ⟨fun h => h.2, fun h => ⟨by rw [h], h⟩⟩
  · exact Nat.le_trans (totalShare_regions_le hfits hdisjoint) (Nat.le_of_eq hsets)

/-- Of four sets one client has the lower half and another the last set; with the
whole cache in place of the lower half they meet in that set. -/
theorem patterns_cover_disjoint_regions_of_two_clients :
    let g : Geometry := ⟨128, 2, 16⟩
    let fixed : List FixedBits := [⟨0, 1⟩, ⟨3, 2⟩]
    g.size < Bits.wordSize ∧ (¬ ∃ r, ofFixed? 2 g [⟨0, 0⟩, ⟨3, 2⟩] = .ok r) ∧
      ∃ r, ofFixed? 2 g fixed = .ok r ∧ fixed[0]? = some ⟨0, 1⟩ ∧
        { s | ∃ a l, r.locate? 0 a = .ok l ∧ l.set = s } = FixedBits.region ⟨0, 1⟩ 2 ∧
        r.setsOf? 0 = .ok (FixedBits.region ⟨0, 1⟩ 2).ncard ∧ r.locate? 0 0x28 = r.locate? 0 0x20 ∧
        ∃ ns, (List.range 2).mapM r.setsOf? = .ok ns ∧ totalShare ns ≤ 4 := by
  intro g fixed
  have hsize : g.size < Bits.wordSize := by decide
  have hlog : g.sets.log2 = 2 := by decide
  obtain ⟨r, hr⟩ : ∃ r, ofFixed? 2 g fixed = .ok r :=
    ⟨_, ofFixed?_eq_ok.2 ⟨⟨Geometry.check_eq_ok.2 (by decide), rfl, by decide, by decide⟩, rfl⟩⟩
  obtain ⟨hmeet, -⟩ := @patterns_cover_disjoint_regions 2 g [⟨0, 0⟩, ⟨3, 2⟩] hsize
  obtain ⟨-, haccepted⟩ := @patterns_cover_disjoint_regions 2 g fixed hsize
  obtain ⟨hclient, ns, hns, hle⟩ := haccepted r hr
  obtain ⟨-, hreached, hcount, hplace⟩ := hclient 0 ⟨0, 1⟩ rfl
  rw [hlog] at hmeet hreached hcount
  refine ⟨hsize, fun h => ?_, r, hr, rfl, hreached, hcount, (hplace 0x28 0x20).2 (by decide), ns, hns,
    hle.trans (by decide)⟩
  obtain ⟨-, -, -, hdisjoint⟩ := hmeet.1 h
  have hwhole : 3 ∈ FixedBits.region ⟨0, 0⟩ 2 := ⟨by decide, by decide⟩
  have hlast : 3 ∈ FixedBits.region ⟨3, 2⟩ 2 := ⟨by decide, by decide⟩
  exact Set.eq_empty_iff_forall_notMem.1 ((List.pairwise_cons.1 hdisjoint).1 _ List.mem_cons_self) 3 ⟨hwhole, hlast⟩

end Regions

end LastLevel
