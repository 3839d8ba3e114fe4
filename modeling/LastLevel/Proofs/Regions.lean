import LastLevel.Proofs.Admission
import Mathlib.Data.Set.Basic
/-!
# Regions that do not meet

A pattern of fixed bits stands for the sets whose index begins with it. Two
patterns meet in some set exactly when one begins with the other, and that is
what `FixedBits.overlaps` tests: `FixedBits.overlaps_iff`. So the clients of
an accepted scheme never reach a common set: `Regions.apart_of_ofFixed?`.
-/

namespace LastLevel

namespace FixedBits

/-- The pattern is no wider than it says, and no wider than a set index. -/
structure Fits (f : FixedBits) (indexBits : Nat) : Prop where
  width : f.width ≤ indexBits
  pattern : f.pattern < 2 ^ f.width

theorem fits_of_le_mask {f : FixedBits} {indexBits : Nat} (hw : f.width ≤ indexBits)
    (hp : f.pattern ≤ Bits.mask f.width) : f.Fits indexBits := by
  have hm : 2 ^ min f.width Bits.wordWidth ≤ 2 ^ f.width :=
    Nat.pow_le_pow_right (by decide) (Nat.min_le_left _ _)
  have hpos := Nat.two_pow_pos (min f.width Bits.wordWidth)
  rw [Bits.mask, Nat.pow_eq] at hp
  exact ⟨hw, by omega⟩

/-- The set indices that begin with the pattern. -/
def region (f : FixedBits) (indexBits : Nat) : Set Nat :=
  { i | i < 2 ^ indexBits ∧ i / 2 ^ (indexBits - f.width) = f.pattern }

/-- The sets of a region are numbered by the index bits that are not fixed. -/
theorem Fits.mem_region {f : FixedBits} {indexBits : Nat} (h : f.Fits indexBits) {low : Nat}
    (hlow : low < 2 ^ (indexBits - f.width)) : f.pattern * 2 ^ (indexBits - f.width) + low ∈ f.region indexBits := by
  refine ⟨?_, ?_⟩
  · calc f.pattern * 2 ^ (indexBits - f.width) + low < (f.pattern + 1) * 2 ^ (indexBits - f.width) := by
          rw [Nat.add_mul, Nat.one_mul]; omega
      _ ≤ 2 ^ f.width * 2 ^ (indexBits - f.width) := Nat.mul_le_mul_right _ h.pattern
      _ = 2 ^ indexBits := by rw [← Nat.pow_add, Nat.add_sub_cancel' h.width]
  · rw [Nat.add_comm, Nat.add_mul_div_right _ _ (Nat.two_pow_pos _), Nat.div_eq_of_lt hlow, Nat.zero_add]

theorem overlaps_comm (f g : FixedBits) : f.overlaps g = g.overlaps f := by
  unfold overlaps
  rcases Nat.lt_trichotomy f.width g.width with h | h | h
  · simp [Nat.le_of_lt h, Nat.not_le_of_lt h]
  · simp [h, Bool.beq_comm]
  · simp [Nat.le_of_lt h, Nat.not_le_of_lt h]

/-- The shorter of two patterns that meet is the beginning of the longer one. -/
theorem overlaps_iff_of_le {f g : FixedBits} {indexBits : Nat} (hg : g.Fits indexBits)
    (hle : f.width ≤ g.width) :
    f.overlaps g = true ↔ (f.region indexBits ∩ g.region indexBits).Nonempty := by
  have hw := hg.width
  -- The longer pattern is the quotient by a smaller power, the shorter one the quotient of that.
  have hsum : indexBits - f.width = indexBits - g.width + (g.width - f.width) := by omega
  have hdiv : ∀ i, i / 2 ^ (indexBits - f.width) = i / 2 ^ (indexBits - g.width) / 2 ^ (g.width - f.width) := by
    intro i
    rw [Nat.div_div_eq_div_mul, ← Nat.pow_add, hsum]
  rw [overlaps, if_pos hle, Nat.shiftRight_eq_div_pow, beq_iff_eq]
  constructor
  · intro h
    obtain ⟨hlt, hi⟩ := hg.mem_region (Nat.two_pow_pos _)
    exact ⟨_, ⟨hlt, by rw [hdiv, hi, h]⟩, hlt, hi⟩
  · rintro ⟨i, ⟨-, hf⟩, -, hgi⟩
    rw [← hgi, ← hdiv, hf]

/-- Two patterns are refused together exactly when they share a set. -/
theorem overlaps_iff {f g : FixedBits} {indexBits : Nat} (hf : f.Fits indexBits) (hg : g.Fits indexBits) :
    f.overlaps g = true ↔ (f.region indexBits ∩ g.region indexBits).Nonempty := by
  rcases Nat.le_total f.width g.width with h | h
  · exact overlaps_iff_of_le hg h
  · rw [overlaps_comm, Set.inter_comm]
    exact overlaps_iff_of_le hf h

/-- Steering stays in the client's region. -/
theorem steer_mem_region {f : FixedBits} {s : Shape} (hf : f.Fits s.indexBits) (a : Address) :
    (f.steer s a).set ∈ f.region s.indexBits := by
  rw [steer_eq hf.width hf.pattern]
  exact hf.mem_region (Nat.mod_lt _ (Nat.two_pow_pos _))

end FixedBits

namespace Regions

/-! ## What is accepted -/

theorem checkPatterns_eq_ok {indexBits client : Nat} {fixed : List FixedBits} :
    checkPatterns indexBits client fixed = .ok () ↔
      ∀ f ∈ fixed, f.width ≤ indexBits ∧ f.pattern ≤ Bits.mask f.width := by
  induction fixed generalizing client with
  | nil => simp [checkPatterns]
  | cons f fixed ih =>
    rw [checkPatterns, List.forall_mem_cons]
    split
    · next h => simp only [reduceCtorEq, false_iff]; omega
    · next h =>
      split
      · next hp => simp only [reduceCtorEq, false_iff]; omega
      · next hp =>
        rw [ih, iff_and_self]
        exact fun _ => ⟨by omega, by omega⟩

theorem checkOverlaps_eq_ok {first : Nat} {fixed : List FixedBits} :
    checkOverlaps first fixed = .ok () ↔ fixed.Pairwise fun f g => f.overlaps g = false := by
  induction fixed generalizing first with
  | nil => simp [checkOverlaps]
  | cons f fixed ih =>
    rw [checkOverlaps, List.pairwise_cons]
    split
    · next i hi =>
      obtain ⟨hlt, hf, -⟩ := List.findIdx?_eq_some_iff_getElem.1 hi
      simp only [reduceCtorEq, false_iff]
      intro h
      rw [h.1 _ (List.getElem_mem hlt)] at hf
      cases hf
    · next hn =>
      rw [ih, iff_and_self]
      exact fun _ => by simpa [List.findIdx?_eq_none_iff] using hn

theorem ofFixed?_eq_ok {clients : Nat} {g : Geometry} {fixed : List FixedBits} {r : Regions} :
    ofFixed? clients g fixed = .ok r ↔
      (g.check = .ok () ∧ fixed.length = clients ∧
        (∀ f ∈ fixed, f.width ≤ g.sets.log2 ∧ f.pattern ≤ Bits.mask f.width) ∧
        fixed.Pairwise fun f g => f.overlaps g = false) ∧
      r = { cache := .empty (.ofCounts g.sets g.ways g.block), fixed := fixed.toArray,
            tallies := Array.replicate clients {} } := by
  unfold ofFixed?
  split
  · next m hm =>
    simp only [reduceCtorEq, false_iff]
    rintro ⟨⟨hc, -⟩, -⟩
    rw [Cache.ofGeometry?_eq_ok.2 ⟨hc, rfl⟩] at hm
    cases hm
  · next c hc =>
    obtain ⟨hg, rfl⟩ := Cache.ofGeometry?_eq_ok.1 hc
    have hbits : (Cache.empty (.ofCounts g.sets g.ways g.block)).shape.indexBits = g.sets.log2 := rfl
    rw [hbits]
    split
    · next hl => simp [hl]
    · next hl =>
      have hl : fixed.length = clients := Decidable.of_not_not hl
      have hp := @checkPatterns_eq_ok g.sets.log2 0 fixed
      have ho := @checkOverlaps_eq_ok 0 fixed
      split
      · next m hm =>
        simp only [reduceCtorEq, false_iff]
        rintro ⟨⟨-, -, hf, -⟩, -⟩
        rw [hp.2 hf] at hm
        cases hm
      · next hm =>
        rw [← hp, ← ho]
        cases checkOverlaps 0 fixed with
        | error m => simp [Except.map]
        | ok u =>
          simp only [Except.map, Except.ok.injEq, hg, hl, true_and, and_true]
          exact ⟨fun e => ⟨hm, e.symm⟩, fun e => e.2.symm⟩

/-- Every pattern fits, and no two clients share a set. -/
structure Apart (r : Regions) : Prop where
  fits : ∀ {i : Nat} {f : FixedBits}, r.fixed[i]? = some f → f.Fits r.cache.shape.indexBits
  disjoint : ∀ {i j : Nat} {f g : FixedBits}, i ≠ j → r.fixed[i]? = some f → r.fixed[j]? = some g →
    ∀ k ∈ f.region r.cache.shape.indexBits, k ∉ g.region r.cache.shape.indexBits

/-- Two clients never reach a common set. -/
theorem Apart.steer_ne {r : Regions} (h : r.Apart) {i j : Nat} {f g : FixedBits} (hij : i ≠ j)
    (hf : r.fixed[i]? = some f) (hg : r.fixed[j]? = some g) (a b : Address) :
    (f.steer r.cache.shape a).set ≠ (g.steer r.cache.shape b).set := by
  intro he
  exact h.disjoint hij hf hg _ (FixedBits.steer_mem_region (h.fits hf) a)
    (he ▸ FixedBits.steer_mem_region (h.fits hg) b)

theorem apart_of_ofFixed? {clients : Nat} {g : Geometry} {fixed : List FixedBits} {r : Regions}
    (h : ofFixed? clients g fixed = .ok r) : r.Apart := by
  obtain ⟨⟨-, -, hfit, hpair⟩, rfl⟩ := ofFixed?_eq_ok.1 h
  have hfits : ∀ f ∈ fixed, f.Fits g.sets.log2 :=
    fun f hm => FixedBits.fits_of_le_mask (hfit f hm).1 (hfit f hm).2
  constructor
  · intro i f hf
    rw [List.getElem?_toArray] at hf
    exact hfits f (List.mem_of_getElem? hf)
  · intro i j f f' hij hf hf' k hk hk'
    rw [List.getElem?_toArray] at hf hf'
    have hmeet : f.overlaps f' = true :=
      (FixedBits.overlaps_iff (hfits f (List.mem_of_getElem? hf)) (hfits f' (List.mem_of_getElem? hf'))).2 ⟨k, hk, hk'⟩
    obtain ⟨hi, rfl⟩ := List.getElem?_eq_some_iff.1 hf
    obtain ⟨hj, rfl⟩ := List.getElem?_eq_some_iff.1 hf'
    -- Each pattern was compared with the later ones only.
    rcases Nat.lt_or_gt_of_ne hij with hlt | hlt
    · rw [List.pairwise_iff_getElem.1 hpair i j hi hj hlt] at hmeet
      cases hmeet
    · rw [FixedBits.overlaps_comm, List.pairwise_iff_getElem.1 hpair j i hj hi hlt] at hmeet
      cases hmeet

end Regions

end LastLevel
