import LastLevel.Proofs.Capacity
import LastLevel.Proofs.Geometries
/-!
# Ways tile a cache

A cache whose ways are divided falls into parts, one for each client, that all have
the sets of the whole. How many ways a client gets is its own affair: only all ways
together must make a cache, and then each part is one (`Banked.exists_part`), has its
share of the bytes without rounding (`Banked.size_part`), and no byte is left over
(`Banked.bytes_parts`). Main statement: `Banked.way_parts_tile`.
-/

namespace LastLevel

theorem totalShare_map_mul (n : Nat) (shares : List Nat) :
    totalShare (shares.map (n * ·)) = n * totalShare shares := by
  induction shares with
  | nil => rfl
  | cons share shares ih => rw [List.map_cons, totalShare_cons, ih, totalShare_cons, Nat.mul_add]

theorem Holding.bytes_whole (c : Cache) : (whole c).bytes = c.shape.size := by
  simp [bytes, whole, totalShare]

namespace Banked
variable {ways : List Nat} {size block : Nat}

/-- Ways can be divided among clients exactly if each gets some, and they are a power
of two of blocks that fit into the size. -/
theorem exists_ofWays?_iff (hsize : size < Bits.wordSize) :
    (∃ b, ofWays? ways size block = .ok b) ↔
      ways ≠ [] ∧ (∀ w ∈ ways, 1 ≤ w) ∧ Bits.IsPow2 size ∧ Bits.IsPow2 block ∧ Bits.IsPow2 (totalShare ways) ∧
        block * totalShare ways ≤ size := by
  have hparts : (∃ b, ofWays? ways size block = .ok b) ↔ ∃ sets cs, divideWays ways size block = .ok (sets, cs) := by
    simp only [ofWays?_eq_ok]
    constructor
    · rintro ⟨-, sets, cs, h, -⟩
      exact ⟨sets, cs, h⟩
    · rintro ⟨sets, cs, h⟩
      exact ⟨_, sets, cs, h, rfl⟩
  rw [hparts, exists_divideWays_iff hsize, Geometry.check_iff_isPow2 hsize]
  simp only [Nat.one_le_iff_ne_zero]
  tauto

/-- One client's part of the ways is a cache of as many sets as the whole. -/
theorem exists_part {b : Banked} (h : ofWays? ways size block = .ok b) {i w : Nat} (hw : ways[i]? = some w) :
    ∃ c, Cache.ofSets? (size / (block * totalShare ways)) w block = .ok c ∧
      b.holdings[i]? = some (Holding.whole c) := by
  obtain ⟨sets, cs, hd, rfl⟩ := ofWays?_eq_ok.1 h
  obtain ⟨-, rfl, hshapes, rfl⟩ := divideWays_eq_ok.1 hd
  refine ⟨_, Cache.ofSets?_eq_ok.2 ⟨hshapes w (List.mem_of_getElem? hw), rfl⟩, ?_⟩
  simp only [List.getElem?_toArray, List.getElem?_map, hw, Option.map_some]
  rfl

/-- The bytes of all sets. -/
theorem sets_mul {b : Banked} (h : ofWays? ways size block = .ok b) :
    size / (block * totalShare ways) * block * totalShare ways = size := by
  obtain ⟨sets, cs, hd, -⟩ := ofWays?_eq_ok.1 h
  obtain ⟨⟨-, -, hc⟩, -⟩ := divideWays_eq_ok.1 hd
  rw [Nat.mul_assoc]
  exact Geometry.sets_mul_of_check hc

/-- A part of the ways has just its share of the bytes. -/
theorem size_part {b : Banked} (h : ofWays? ways size block = .ok b) {w : Nat} {c : Cache}
    (hc : Cache.ofSets? (size / (block * totalShare ways)) w block = .ok c) :
    c.shape.size * totalShare ways = size * w := by
  obtain ⟨hs, rfl⟩ := Cache.ofSets?_eq_ok.1 hc
  obtain ⟨hp, hb, -⟩ := Shape.ofSets?_eq_ok.1 hs
  have hbytes : (Cache.empty (.ofCounts (size / (block * totalShare ways)) w block)).shape.size =
      size / (block * totalShare ways) * w * block := Shape.size_ofCounts hp hb
  calc _ = size / (block * totalShare ways) * block * totalShare ways * w := by rw [hbytes]; ac_rfl
    _ = size * w := by rw [sets_mul h]

/-- The parts leave nothing of the cache over. -/
theorem bytes_parts {b : Banked} (h : ofWays? ways size block = .ok b) :
    totalShare (b.holdings.toList.map (·.bytes)) = size := by
  obtain ⟨sets, cs, hd, rfl⟩ := ofWays?_eq_ok.1 h
  obtain ⟨-, rfl, hshapes, rfl⟩ := divideWays_eq_ok.1 hd
  have hbytes : ∀ w ∈ ways, (Holding.whole (.empty (.ofCounts (size / (block * totalShare ways)) w block))).bytes =
      size / (block * totalShare ways) * block * w := fun w hw => by
    obtain ⟨hp, hb, -⟩ := Shape.ofSets?_eq_ok.1 (hshapes w hw)
    rw [Holding.bytes_whole, Nat.mul_right_comm]
    exact Shape.size_ofCounts hp hb
  calc _ = totalShare (ways.map (size / (block * totalShare ways) * block * ·)) := by
        simp only [List.map_map]
        exact congrArg totalShare (List.map_congr_left hbytes)
    _ = size := by rw [totalShare_map_mul, sets_mul h]

/-- Any ways can be divided among clients, as long as each client gets some and the
whole is a cache: no part fails that the whole allows, and no word overflows. All
parts then have the sets of the whole, empty, and each has the ways of its client and
exactly the share of the bytes that goes with them. That share is a power of two only
if the ways are, but all shares together are the whole cache. -/
theorem way_parts_tile (hways : totalShare ways < Bits.wordSize) (hsize : size < Bits.wordSize) :
    constructWays ways size block = Building.checked (ofWays? ways size block) ∧
    ((∃ b, ofWays? ways size block = .ok b) ↔
      ways ≠ [] ∧ (∀ w ∈ ways, 1 ≤ w) ∧ Bits.IsPow2 size ∧ Bits.IsPow2 block ∧ Bits.IsPow2 (totalShare ways) ∧
        block * totalShare ways ≤ size) ∧
    ∀ b, ofWays? ways size block = .ok b →
      let sets := size / (block * totalShare ways)
      b.division = .ways sets ∧ b.clients = ways.length ∧
      (∀ i w : Nat, ways[i]? = some w → ∃ c, Cache.constructSets sets w block = .ok c ∧
        b.holdings[i]? = some (Holding.whole c) ∧ c.Vacant sets w block ∧ c.shape.ways = w ∧ c.shape.block = block ∧
        totalShare ways ∣ size * w ∧ c.shape.size = size * w / totalShare ways ∧
        (Bits.IsPow2 c.shape.size ↔ Bits.IsPow2 w)) ∧
      totalShare (b.holdings.toList.map (·.bytes)) = size := by
  refine ⟨constructWays_eq hways size block, exists_ofWays?_iff hsize, fun b h => ?_⟩
  intro sets
  obtain ⟨-, -, -, -, htotal, -⟩ := (exists_ofWays?_iff hsize).1 ⟨b, h⟩
  obtain ⟨hdivision, hclients⟩ : b.division = .ways sets ∧ b.clients = ways.length := by
    obtain ⟨_, cs, hd, rfl⟩ := ofWays?_eq_ok.1 h
    obtain ⟨-, rfl, -, rfl⟩ := divideWays_eq_ok.1 hd
    exact ⟨rfl, by simp [clients]⟩
  refine ⟨hdivision, hclients, fun i w hw => ?_, bytes_parts h⟩
  obtain ⟨c, hc, hholding⟩ := exists_part h hw
  obtain ⟨hs, he⟩ := Cache.ofSets?_eq_ok.1 hc
  obtain ⟨hp, hb, -⟩ := Shape.ofSets?_eq_ok.1 hs
  have hvacant : c.Vacant sets w block := Cache.IsBuilt.vacant (.inl hc)
  have hshare : size * w = c.shape.size * totalShare ways := (size_part h hc).symm
  refine ⟨c, ?_, hholding, hvacant, ?_, ?_, hshare ▸ Nat.dvd_mul_left _ _, ?_, ?_⟩
  · rw [Cache.constructSets_eq, hc, Building.checked_ok]
  · rw [he]
    rfl
  · rw [he]
    exact Shape.block_ofCounts hb
  · rw [hshare, Nat.mul_div_cancel _ htotal.pos]
  · rw [hvacant.size_eq, Bits.isPow2_mul_iff, Bits.isPow2_mul_iff]
    exact ⟨fun hall => hall.1.2, fun hpow => ⟨⟨hp, hpow⟩, hb⟩⟩

/-- Three ways and one way of four sets: the larger part is no power of two of bytes.
With three ways in all there is nothing to divide. -/
theorem way_parts_tile_unevenly :
    (∃ b c d, ofWays? [3, 1] 256 16 = .ok b ∧ b.division = .ways 4 ∧
      b.holdings[0]? = some (Holding.whole c) ∧ c.shape.size = 192 ∧ ¬ Bits.IsPow2 c.shape.size ∧
      b.holdings[1]? = some (Holding.whole d) ∧ d.shape.size = 64) ∧
    ¬ ∃ b, ofWays? [1, 2] 256 16 = .ok b := by
  obtain ⟨-, hiff, hparts⟩ := @way_parts_tile [3, 1] 256 16 (by decide) (by decide)
  obtain ⟨-, hthree, -⟩ := @way_parts_tile [1, 2] 256 16 (by decide) (by decide)
  obtain ⟨b, hb⟩ := hiff.2 (by decide)
  obtain ⟨hsets, -, hpart, -⟩ := hparts b hb
  obtain ⟨c, -, hc, -, -, -, -, hsize, hpow⟩ := hpart 0 3 rfl
  obtain ⟨d, -, hd, -, -, -, -, hsize', -⟩ := hpart 1 1 rfl
  refine ⟨⟨b, c, d, hb, hsets, hc, hsize, fun h => absurd (hpow.1 h) (by decide), hd, hsize'⟩, fun h => ?_⟩
  exact absurd (hthree.1 h).2.2.2.2.1 (by decide)

end Banked

end LastLevel
