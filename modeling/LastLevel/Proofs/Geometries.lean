import LastLevel.Proofs.Building
import LastLevel.Proofs.Totality
import LastLevel.Proofs.Turns
/-!
# Which caches there are

A cache is described by its size or by its number of sets. A size is accepted if
it, the ways and the block are powers of two and a set fits into it
(`Geometry.exists_cache_iff`). Sets are accepted for any number of ways as long as
a word counts their bytes (`Cache.exists_ofSets?_iff`). Either way the sets make
up the size, and nothing is held or counted yet (`Cache.Vacant`). Main statement:
`Cache.accepted_exactly`.
-/

namespace LastLevel

/-! ## Sizes -/

theorem checkSet_ne_setsNotPow2 (ways block n : Nat) : checkSet ways block ≠ .error (.setsNotPow2 n) := by
  unfold checkSet
  repeat' split
  all_goals simp

namespace Geometry
variable {g : Geometry}

/-- The last check refuses nothing: sets that divide a power of two evenly are a
power of two themselves. -/
theorem check_ne_setsNotPow2 (n : Nat) : g.check ≠ .error (.setsNotPow2 n) := by
  unfold check
  split
  · simp
  · next hsize =>
    split
    · next m hm =>
      rw [← hm]
      exact checkSet_ne_setsNotPow2 _ _ n
    · repeat' split
      · simp
      · simp
      · next hdvd hsets =>
        have hmul : Bits.IsPow2 (g.sets * (g.block * g.ways)) := by
          rw [sets, Nat.div_mul_cancel (Nat.dvd_of_mod_eq_zero (Decidable.of_not_not hdvd))]
          exact Decidable.of_not_not hsize
        exact absurd (Bits.isPow2_mul_iff.1 hmul).1 hsets
      · simp

theorem exists_cache_iff : (∃ c, Cache.ofGeometry? g = .ok c) ↔ g.check = .ok () := by
  simp only [Cache.ofGeometry?_eq_ok, exists_and_left, exists_eq, and_true]

/-- What has a size can also be given by the number of its sets. -/
theorem ofSets?_sets {c : Cache} (hsize : g.size < Bits.wordSize) (h : Cache.ofGeometry? g = .ok c) :
    Cache.ofSets? g.sets g.ways g.block = .ok c := by
  obtain ⟨hc, rfl⟩ := Cache.ofGeometry?_eq_ok.1 h
  obtain ⟨-, ⟨hb, hw, hset⟩, -, -, hp⟩ := check_eq_ok.1 hc
  refine Cache.ofSets?_eq_ok.2 ⟨Shape.ofSets?_eq_ok.2 ⟨hp, hb, hw, hset, ?_, rfl⟩, rfl⟩
  rw [sets_mul_of_check hc]
  exact hsize

end Geometry

namespace Cache

/-! ## Sets -/

theorem exists_ofSets?_iff {sets ways block : Nat} :
    (∃ c, ofSets? sets ways block = .ok c) ↔
      Bits.IsPow2 sets ∧ Bits.IsPow2 block ∧ 1 ≤ ways ∧ sets * ways * block < Bits.wordSize := by
  have hbytes : sets * ways * block = sets * (block * ways) := by rw [Nat.mul_assoc, Nat.mul_comm ways]
  simp only [ofSets?_eq_ok, exists_and_left, exists_eq, and_true, Shape.ofSets?_eq_ok, hbytes]
  constructor
  · rintro ⟨hp, hb, hw, -, hsize⟩
    exact ⟨hp, hb, hw, hsize⟩
  · rintro ⟨hp, hb, hw, hsize⟩
    -- One set is no larger than all of them.
    exact ⟨hp, hb, hw, Nat.lt_of_le_of_lt (Nat.le_mul_of_pos_left _ hp.pos) hsize, hsize⟩

/-! ## New caches -/

/-- A cache of `sets` sets of `ways` blocks, a power of two of them, in which
nothing is held or counted. -/
structure Vacant (c : Cache) (sets ways block : Nat) : Prop where
  sets_size : c.sets.size = sets
  isPow2_sets : Bits.IsPow2 sets
  size_eq : c.shape.size = sets * ways * block
  tally_eq : c.tally = {}
  lines : ∀ s ∈ c.sets, s.lines = List.replicate ways none
  hits : ∀ a, c.hits a = false

theorem hits_empty (shape : Shape) (a : Address) : (empty shape).hits a = false := by
  rw [hits, holdsAt]
  split
  · next s hs =>
    obtain rfl := Array.eq_of_mem_replicate (Array.mem_of_getElem? hs)
    simp [CacheSet.holds, CacheSet.empty, Slot.holds]
  · rfl

theorem IsBuilt.vacant {c : Cache} {sets ways block : Nat} (h : c.IsBuilt sets ways block) :
    c.Vacant sets ways block := by
  obtain ⟨hp, hb, -, rfl⟩ := h.eq_empty
  have hsets : (Shape.ofCounts sets ways block).sets = sets := Shape.sets_ofCounts hp
  have hblock : (Shape.ofCounts sets ways block).block = block := Shape.block_ofCounts hb
  refine ⟨(Cache.sets_size _).trans hsets, hp, ?_, rfl, fun s hs => List.eq_replicate_iff.2 ⟨?_, lines_empty s hs⟩,
    hits_empty _⟩
  · show (Shape.ofCounts sets ways block).size = _
    rw [Shape.size, hsets, hblock]
    rfl
  · obtain rfl := Array.eq_of_mem_replicate hs
    exact CacheSet.length_lines_empty _

/-- A size is accepted exactly if it, the ways and the block are powers of two and
a set fits into it, and sets exactly if they and the block are powers of two, there
are ways and a word counts all the bytes. No product overflows before it is
compared, and the check of the number of sets refuses no size. What is accepted has
just the bytes of its sets and is empty, and what has a size is also what is built
from the number of its sets. -/
theorem accepted_exactly :
    (∀ g : Geometry, g.size < Bits.wordSize →
      (g.check = .ok () ↔
        Bits.IsPow2 g.size ∧ Bits.IsPow2 g.ways ∧ Bits.IsPow2 g.block ∧ g.ways * g.block ≤ g.size) ∧
      (∀ n, g.check ≠ .error (.setsNotPow2 n)) ∧
      ((∃ c, Cache.ofGeometry? g = .ok c) ↔ g.check = .ok ()) ∧
      (g.validate = Building.checked g.check ∧ construct g = Building.checked (Cache.ofGeometry? g)) ∧
      ∀ c, Cache.ofGeometry? g = .ok c →
        c.Vacant g.sets g.ways g.block ∧ g.sets * g.ways * g.block = g.size ∧
          ofSets? g.sets g.ways g.block = .ok c) ∧
    ∀ sets ways block : Nat,
      ((∃ c, ofSets? sets ways block = .ok c) ↔
        Bits.IsPow2 sets ∧ Bits.IsPow2 block ∧ 1 ≤ ways ∧ sets * ways * block < Bits.wordSize) ∧
      constructSets sets ways block = Building.checked (ofSets? sets ways block) ∧
      ∀ c, ofSets? sets ways block = .ok c → c.Vacant sets ways block := by
  refine ⟨fun g hsize => ⟨?_, Geometry.check_ne_setsNotPow2, Geometry.exists_cache_iff,
      ⟨Geometry.validate_eq g, construct_eq hsize⟩, fun c h => ⟨?_, ?_, Geometry.ofSets?_sets hsize h⟩⟩,
    fun sets ways block => ⟨exists_ofSets?_iff, constructSets_eq sets ways block, fun c h => ?_⟩⟩
  · rw [Geometry.check_iff_isPow2 hsize, Nat.mul_comm]
  · exact IsBuilt.vacant (.inr ⟨g.size, h, rfl⟩)
  · rw [Nat.mul_assoc, Nat.mul_comm g.ways, Geometry.sets_mul_of_check (ofGeometry?_eq_ok.1 h).1]
  · exact IsBuilt.vacant (.inl h)

/-- A cache that is given by its size or by its sets, one whose size is no power of
two, and sets whose bytes, counted in one word, would be none at all. -/
theorem accepted_and_refused :
    (∃ c, Cache.ofGeometry? { size := 1024, ways := 2, block := 16 } = .ok c ∧ ofSets? 32 2 16 = .ok c ∧
      c.Vacant 32 2 16) ∧
    (∃ c, ofSets? 4 3 16 = .ok c ∧ c.shape.size = 192) ∧
    Geometry.check { size := 1024, ways := 3, block := 16 } ≠ .ok () ∧
    ((2 ^ 62 * 2 * 2) % Bits.wordSize = 0 ∧ ¬ ∃ c, ofSets? (2 ^ 62) 2 2 = .ok c) := by
  obtain ⟨hsized, hcounted⟩ := accepted_exactly
  obtain ⟨hcheck, -, hcache, -, hbuilt⟩ := hsized { size := 1024, ways := 2, block := 16 } (by decide)
  obtain ⟨c, hc⟩ := hcache.2 (hcheck.2 (by decide))
  obtain ⟨hvacant, -, hsame⟩ := hbuilt c hc
  obtain ⟨hiff, -, hsets⟩ := hcounted 4 3 16
  obtain ⟨d, hd⟩ := hiff.2 (by decide)
  refine ⟨⟨c, hc, hsame, hvacant⟩, ⟨d, hd, (hsets d hd).size_eq⟩, fun h => ?_, by decide, fun h => ?_⟩
  · exact absurd ((hsized _ (by decide)).1.1 h).2.1 (by decide)
  · exact absurd ((hcounted _ _ _).1.1 h).2.2.2 (by decide)

end Cache

end LastLevel
