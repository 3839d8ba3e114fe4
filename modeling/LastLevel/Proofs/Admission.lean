import LastLevel.Proofs.Blocks
import LastLevel.Scheme.Banked
/-!
# What is built

Which descriptions are accepted, and what is built from them: a shape from its
set count (`Shape.ofSets?_eq_ok`), a geometry (`Geometry.check_eq_ok`), a cache
(`Cache.IsBuilt`), and the banks of a cache whose ways are divided
(`Banked.divideWays_eq_ok`).
-/

namespace LastLevel

/-! ## Results that are mapped -/

theorem map_eq_ok {α β ε : Type} {x : Except ε α} {f : α → β} {b : β} :
    x.map f = .ok b ↔ ∃ a, x = .ok a ∧ f a = b := by
  cases x <;> simp [Except.map]

theorem mapError_map_eq_ok {α β ε ε' : Type} {x : Except ε α} {f : α → β} {g : ε → ε'} {b : β} :
    (x.map f).mapError g = .ok b ↔ ∃ a, x = .ok a ∧ f a = b := by
  cases x <;> simp [Except.map, Except.mapError]

/-! ## Shapes -/

theorem checkSet_eq_ok {ways block : Nat} :
    checkSet ways block = .ok () ↔ Bits.IsPow2 block ∧ 0 < ways ∧ block * ways < Bits.wordSize := by
  unfold checkSet
  split
  · next h => simp [h]
  · next h =>
    split
    · next hw => simp [hw]
    · next hw =>
      split
      · next ho => simp only [reduceCtorEq, false_iff]; omega
      · next ho => simp only [true_iff]; exact ⟨Decidable.of_not_not h, by omega, by omega⟩

theorem Shape.ofSets?_eq_ok {sets ways block : Nat} {s : Shape} :
    Shape.ofSets? sets ways block = .ok s ↔ Bits.IsPow2 sets ∧ Bits.IsPow2 block ∧ 0 < ways ∧
      block * ways < Bits.wordSize ∧ sets * (block * ways) < Bits.wordSize ∧ s = .ofCounts sets ways block := by
  unfold Shape.ofSets?
  split
  · next h => simp [h]
  · next h =>
    have h := Decidable.of_not_not h
    split
    · next m hm =>
      have := mt checkSet_eq_ok.2 (by rw [hm]; simp : checkSet ways block ≠ .ok ())
      simp only [reduceCtorEq, false_iff]
      rintro ⟨-, hb, hw, hl, -⟩
      exact this ⟨hb, hw, hl⟩
    · next hc =>
      obtain ⟨hb, hw, hl⟩ := checkSet_eq_ok.1 hc
      split
      · next ho => simp only [reduceCtorEq, false_iff]; omega
      · next ho =>
        simp only [Except.ok.injEq]
        exact ⟨fun e => ⟨h, hb, hw, hl, by omega, e.symm⟩, fun e => e.2.2.2.2.2.symm⟩

theorem Geometry.check_eq_ok {g : Geometry} :
    g.check = .ok () ↔ Bits.IsPow2 g.size ∧ (Bits.IsPow2 g.block ∧ 0 < g.ways ∧ g.block * g.ways < Bits.wordSize) ∧
      g.block * g.ways ≤ g.size ∧ g.block * g.ways ∣ g.size ∧ Bits.IsPow2 g.sets := by
  rw [← checkSet_eq_ok]
  unfold check
  split
  · next h => simp [h]
  · next h =>
    have h := Decidable.of_not_not h
    split
    · next m hm => simp [hm]
    · next hc =>
      repeat' split
      · next hl => simp only [reduceCtorEq, false_iff]; omega
      · next hd => simp only [reduceCtorEq, false_iff]; exact fun hh => hd (Nat.mod_eq_zero_of_dvd hh.2.2.2.1)
      · next hp => simp [hp]
      · next hl hd hp =>
        simp only [true_iff]
        exact ⟨h, hc, by omega, Nat.dvd_of_mod_eq_zero (Decidable.of_not_not hd), Decidable.of_not_not hp⟩

theorem Geometry.shape?_eq_ok {g : Geometry} {s : Shape} :
    g.shape? = .ok s ↔ g.check = .ok () ∧ s = .ofCounts g.sets g.ways g.block := by
  refine ⟨shape?_eq, ?_⟩
  rintro ⟨hc, rfl⟩
  rw [shape?, hc]

/-- A cache of `n` times the size has `n` times the sets. -/
theorem Geometry.check_mul {n size ways block : Nat} (hn : Bits.IsPow2 n)
    (h : Geometry.check { size, ways, block } = .ok ()) :
    Geometry.check { size := n * size, ways, block } = .ok () ∧
      Geometry.sets { size := n * size, ways, block } = n * Geometry.sets { size, ways, block } := by
  obtain ⟨hsize, hset, hle, hdvd, hsets⟩ := check_eq_ok.1 h
  have hmul : Geometry.sets { size := n * size, ways, block } = n * Geometry.sets { size, ways, block } :=
    Nat.mul_div_assoc n hdvd
  refine ⟨check_eq_ok.2 ⟨hn.mul hsize, hset, ?_, Nat.dvd_mul_left_of_dvd hdvd n, ?_⟩, hmul⟩
  · exact Nat.le_trans hle (Nat.le_mul_of_pos_left _ hn.pos)
  · rw [hmul]
    exact hn.mul hsets

/-- A cache whose bytes a word counts has bits left for its tags. -/
theorem Geometry.log2_add_log2_lt {g : Geometry} (hb : Bits.IsPow2 g.block) (hs : Bits.IsPow2 g.sets) (hw : 0 < g.ways)
    (hsize : g.size < Bits.wordSize) : g.sets.log2 + g.block.log2 < Bits.wordWidth := by
  refine (Nat.pow_lt_pow_iff_right (show 1 < 2 by decide)).1 ?_
  calc 2 ^ (g.sets.log2 + g.block.log2) = g.sets * g.block := by
        rw [Nat.pow_add, hs.two_pow_log2, hb.two_pow_log2]
    _ ≤ g.sets * (g.block * g.ways) := Nat.mul_le_mul_left _ (Nat.le_mul_of_pos_right _ hw)
    _ ≤ g.size := Nat.div_mul_le_self _ _
    _ < 2 ^ Bits.wordWidth := hsize

/-! ## Caches -/

namespace Cache

theorem ofSets?_eq_ok {sets ways block : Nat} {c : Cache} :
    ofSets? sets ways block = .ok c ↔
      Shape.ofSets? sets ways block = .ok (.ofCounts sets ways block) ∧ c = empty (.ofCounts sets ways block) := by
  rw [ofSets?]
  cases h : Shape.ofSets? sets ways block with
  | error m => simp [Except.map]
  | ok s =>
    obtain rfl := Shape.ofSets?_eq h
    simp [Except.map, eq_comm]

theorem ofGeometry?_eq_ok {g : Geometry} {c : Cache} :
    Cache.ofGeometry? g = .ok c ↔ g.check = .ok () ∧ c = empty (.ofCounts g.sets g.ways g.block) := by
  unfold Cache.ofGeometry?
  cases h : g.shape? with
  | error m =>
    refine ⟨fun hh => (by cases hh), fun hh => ?_⟩
    rw [Geometry.shape?_eq_ok.2 ⟨hh.1, rfl⟩] at h
    cases h
  | ok s =>
    obtain ⟨hc, rfl⟩ := Geometry.shape?_eq h
    simp [Except.map, hc, eq_comm]

/-- A cache of `sets` sets of `ways` blocks of `block` bytes, as it is built
from its set count or from its size. -/
def IsBuilt (c : Cache) (sets ways block : Nat) : Prop :=
  ofSets? sets ways block = .ok c ∨
    ∃ size, Cache.ofGeometry? { size, ways, block } = .ok c ∧ sets = Geometry.sets { size, ways, block }

theorem IsBuilt.eq_empty {c : Cache} {sets ways block : Nat} (h : c.IsBuilt sets ways block) :
    Bits.IsPow2 sets ∧ Bits.IsPow2 block ∧ 0 < ways ∧ c = empty (.ofCounts sets ways block) := by
  rcases h with h | ⟨size, h, rfl⟩
  · obtain ⟨hs, rfl⟩ := ofSets?_eq_ok.1 h
    obtain ⟨hp, hb, hw, -⟩ := Shape.ofSets?_eq_ok.1 hs
    exact ⟨hp, hb, hw, rfl⟩
  · obtain ⟨hc, rfl⟩ := ofGeometry?_eq_ok.1 h
    obtain ⟨-, ⟨hb, hw, -⟩, -, -, hp⟩ := Geometry.check_eq_ok.1 hc
    exact ⟨hp, hb, hw, rfl⟩

end Cache

/-! ## Divided ways -/

namespace Banked

theorem wayBanks_eq_ok {sets block : Nat} {ways : List Nat} {cs : List Cache} :
    wayBanks sets block ways = .ok cs ↔
      (∀ w ∈ ways, Shape.ofSets? sets w block = .ok (.ofCounts sets w block)) ∧
        cs = ways.map fun w => .empty (.ofCounts sets w block) := by
  induction ways generalizing cs with
  | nil => simp [wayBanks, eq_comm]
  | cons w ways ih =>
    rw [wayBanks, List.forall_mem_cons]
    split
    · next m hm =>
      simp only [reduceCtorEq, false_iff]
      rintro ⟨⟨hw, -⟩, -⟩
      rw [Cache.ofSets?_eq_ok.2 ⟨hw, rfl⟩] at hm
      cases hm
    · next c hc =>
      obtain ⟨hw, rfl⟩ := Cache.ofSets?_eq_ok.1 hc
      rw [map_eq_ok]
      constructor
      · rintro ⟨cs, hcs, rfl⟩
        obtain ⟨hall, rfl⟩ := ih.1 hcs
        exact ⟨⟨hw, hall⟩, rfl⟩
      · rintro ⟨⟨-, hall⟩, rfl⟩
        exact ⟨_, ih.2 ⟨hall, rfl⟩, rfl⟩

theorem divideWays_eq_ok {ways : List Nat} {size block sets : Nat} {cs : List Cache} :
    divideWays ways size block = .ok (sets, cs) ↔
      (ways ≠ [] ∧ (∀ w ∈ ways, w ≠ 0) ∧ Geometry.check { size, ways := totalShare ways, block } = .ok ()) ∧
        sets = Geometry.sets { size, ways := totalShare ways, block } ∧
        (∀ w ∈ ways, Shape.ofSets? sets w block = .ok (.ofCounts sets w block)) ∧
        cs = ways.map fun w => .empty (.ofCounts sets w block) := by
  unfold divideWays
  split
  · next h => simp [h]
  · next h =>
    split
    · next i hi =>
      obtain ⟨hlt, h0, -⟩ := List.findIdx?_eq_some_iff_getElem.1 hi
      simp only [reduceCtorEq, false_iff]
      rintro ⟨⟨-, hz, -⟩, -⟩
      exact hz _ (List.getElem_mem hlt) (by simpa using h0)
    · next hn =>
      have hz : ∀ w ∈ ways, w ≠ 0 := by simpa [List.findIdx?_eq_none_iff] using hn
      dsimp only
      split
      · next m hm => simp [hm]
      · next hc =>
        rw [map_eq_ok]
        constructor
        · rintro ⟨cs, hcs, he⟩
          cases he
          exact ⟨⟨h, hz, hc⟩, rfl, wayBanks_eq_ok.1 hcs⟩
        · rintro ⟨-, rfl, hcs⟩
          exact ⟨cs, wayBanks_eq_ok.2 hcs, rfl⟩

/-- If a cache can be divided, so can a cache of `n` times its size, and that one
has `n` times the sets. -/
theorem divideWays_mul {n : Nat} (hn : Bits.IsPow2 n) {ways : List Nat} {size block sets : Nat} {cs : List Cache}
    (h : divideWays ways size block = .ok (sets, cs)) (hsize : n * size < Bits.wordSize) :
    divideWays ways (n * size) block =
      .ok (n * sets, ways.map fun w => .empty (.ofCounts (n * sets) w block)) := by
  obtain ⟨⟨hne, hz, hc⟩, rfl, hshapes, -⟩ := divideWays_eq_ok.1 h
  obtain ⟨hc', hsets⟩ := Geometry.check_mul hn hc
  refine divideWays_eq_ok.2 ⟨⟨hne, hz, hc'⟩, hsets.symm, fun w hw => ?_, rfl⟩
  obtain ⟨hp, hb, hpos, hset, -⟩ := Shape.ofSets?_eq_ok.1 (hshapes w hw)
  refine Shape.ofSets?_eq_ok.2 ⟨hn.mul hp, hb, hpos, hset, ?_, rfl⟩
  -- A part of the ways takes no more room than all of them.
  refine Nat.lt_of_le_of_lt ?_ hsize
  rw [Nat.mul_assoc]
  refine Nat.mul_le_mul_left n ?_
  calc Geometry.sets { size, ways := totalShare ways, block } * (block * w)
      ≤ Geometry.sets { size, ways := totalShare ways, block } * (block * totalShare ways) :=
        Nat.mul_le_mul_left _ (Nat.mul_le_mul_left _ (le_totalShare hw))
    _ ≤ size := Nat.div_mul_le_self _ _

end Banked

end LastLevel
