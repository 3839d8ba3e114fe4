import LastLevel.Proofs.Families
import LastLevel.Proofs.Offsets
import Mathlib.Data.Nat.Prime.Basic
/-!
# Which scenarios are built

For each scheme that is divided evenly, and for the families of them: which
sizes and how many cores make a scenario that is built. It comes down to
geometries without fault, and these are the ones made of powers of two whose set
fits into the size (`Geometry.check_iff_isPow2`). Main statements:
`Scenario.builds_schemes_iff`, `Scenario.builds_sizeSweep_iff` and
`Scenario.builds_ownedSweep_iff`.
-/

namespace LastLevel

/-! ## Geometries -/

theorem Bits.isPow2_mul_iff {m n : Nat} : IsPow2 (m * n) ↔ IsPow2 m ∧ IsPow2 n := by
  refine ⟨fun h => ?_, fun h => h.1.mul h.2⟩
  obtain ⟨k, hk⟩ := isPow2_iff.1 h
  have hdvd : ∀ d, d ∣ m * n → IsPow2 d := fun d hd => by
    obtain ⟨i, -, rfl⟩ := (Nat.dvd_prime_pow Nat.prime_two).1 (hk ▸ hd)
    exact isPow2_two_pow i
  exact ⟨hdvd m (Nat.dvd_mul_right m n), hdvd n (Nat.dvd_mul_left n m)⟩

namespace Geometry
variable {g : Geometry}

/-- The sets make up the size. -/
theorem sets_mul_of_check (h : g.check = .ok ()) : g.sets * (g.block * g.ways) = g.size :=
  Nat.div_mul_cancel (check_eq_ok.1 h).2.2.2.1

/-- A geometry has no fault exactly if it is made of powers of two, and a set is
not larger than the whole. -/
theorem check_iff_isPow2 (hsize : g.size < Bits.wordSize) :
    g.check = .ok () ↔
      Bits.IsPow2 g.size ∧ Bits.IsPow2 g.ways ∧ Bits.IsPow2 g.block ∧ g.block * g.ways ≤ g.size := by
  constructor
  · intro h
    obtain ⟨hs, ⟨hb, -, -⟩, hle, -, -⟩ := check_eq_ok.1 h
    have hset : Bits.IsPow2 (g.block * g.ways) := by
      rw [← sets_mul_of_check h, Bits.isPow2_mul_iff] at hs
      exact hs.2
    exact ⟨hs, (Bits.isPow2_mul_iff.1 hset).2, hb, hle⟩
  · rintro ⟨hs, hw, hb, hle⟩
    have hdvd : g.block * g.ways ∣ g.size := (hb.mul hw).dvd hs hle
    have hsets : Bits.IsPow2 (g.sets * (g.block * g.ways)) := by
      rw [sets, Nat.div_mul_cancel hdvd]
      exact hs
    exact check_eq_ok.2 ⟨hs, ⟨hb, hw.pos, Nat.lt_of_le_of_lt hle hsize⟩, hle, hdvd, (Bits.isPow2_mul_iff.1 hsets).1⟩

/-- A cache can be cut into parts of one size as long as each of them has a set. -/
theorem check_div_iff (hsize : g.size < Bits.wordSize) (h : g.check = .ok ()) {parts : Nat} (hp : Bits.IsPow2 parts) :
    Geometry.check { g with size := g.size / parts } = .ok () ↔ parts ≤ g.sets := by
  obtain ⟨hs, hw, hb, hle⟩ := (check_iff_isPow2 hsize).1 h
  have hset : 0 < g.block * g.ways := (hb.mul hw).pos
  have hfit : g.block * g.ways ≤ g.size / parts ↔ parts ≤ g.sets := by
    rw [Nat.le_div_iff_mul_le hp.pos, sets, Nat.le_div_iff_mul_le hset, Nat.mul_comm]
  rw [check_iff_isPow2 (Nat.lt_of_le_of_lt (Nat.div_le_self _ _) hsize), ← hfit]
  refine ⟨fun hc => hc.2.2.2, fun hc => ⟨?_, hw, hb, hc⟩⟩
  have hdvd : parts ∣ g.size := hp.dvd hs (by
    refine Nat.le_of_not_lt fun hlt => ?_
    rw [Nat.div_eq_of_lt hlt] at hc
    omega)
  have hmul : Bits.IsPow2 (g.size / parts * parts) := by rwa [Nat.div_mul_cancel hdvd]
  exact (Bits.isPow2_mul_iff.1 hmul).1

end Geometry

/-! ## Schemes -/

namespace Banked

/-- Ways can be divided if each client gets some, and the whole has no fault: then
no part has. -/
theorem exists_divideWays_iff {ways : List Nat} {size block : Nat} (hsize : size < Bits.wordSize) :
    (∃ sets cs, divideWays ways size block = .ok (sets, cs)) ↔
      ways ≠ [] ∧ (∀ w ∈ ways, w ≠ 0) ∧ Geometry.check { size, ways := totalShare ways, block } = .ok () := by
  constructor
  · rintro ⟨sets, cs, h⟩
    exact (divideWays_eq_ok.1 h).1
  · rintro ⟨hne, hz, hc⟩
    refine ⟨_, _, divideWays_eq_ok.2 ⟨⟨hne, hz, hc⟩, rfl, fun w hw => ?_, rfl⟩⟩
    obtain ⟨-, ⟨hb, -, hset⟩, -, -, hp⟩ := Geometry.check_eq_ok.1 hc
    have hle : block * w ≤ block * totalShare ways := Nat.mul_le_mul_left _ (le_totalShare hw)
    refine Shape.ofSets?_eq_ok.2 ⟨hp, hb, Nat.pos_of_ne_zero (hz w hw), Nat.lt_of_le_of_lt hle hset, ?_, rfl⟩
    calc Geometry.sets { size, ways := totalShare ways, block } * (block * w)
        ≤ Geometry.sets { size, ways := totalShare ways, block } * (block * totalShare ways) :=
          Nat.mul_le_mul_left _ hle
      _ = size := Geometry.sets_mul_of_check hc
      _ < Bits.wordSize := hsize

end Banked

namespace Plan

/-- Some scheme is built. -/
def Builds (p : Plan) : Prop := ∃ s, p.build = .ok s

theorem builds_plain_iff {g : Geometry} : (plain g).Builds ↔ g.check = .ok () := by
  simp [Builds, build, mapError_map_eq_ok, Cache.ofGeometry?_eq_ok]

theorem builds_way_iff {ways : List Nat} {size block : Nat} (hsize : size < Bits.wordSize) :
    (way ways size block).Builds ↔
      ways ≠ [] ∧ (∀ w ∈ ways, w ≠ 0) ∧ Geometry.check { size, ways := totalShare ways, block } = .ok () := by
  rw [← Banked.exists_divideWays_iff hsize]
  simp only [Builds, build, mapError_map_eq_ok, Banked.ofWays?_eq_ok]
  constructor
  · rintro ⟨-, -, ⟨sets, cs, h, -⟩, -⟩
    exact ⟨sets, cs, h⟩
  · rintro ⟨sets, cs, h⟩
    exact ⟨_, _, ⟨sets, cs, h, rfl⟩, rfl⟩

theorem builds_clusterWay_iff {n : Nat} {ways : List Nat} {size block : Nat} (hsize : size < Bits.wordSize) :
    (clusterWay n ways size block).Builds ↔ Bits.IsPow2 n ∧
      ways ≠ [] ∧ (∀ w ∈ ways, w ≠ 0) ∧ Geometry.check { size, ways := totalShare ways, block } = .ok () := by
  rw [← Banked.exists_divideWays_iff hsize]
  simp only [Builds, build, mapError_map_eq_ok, Banked.ofClusters?_eq_ok]
  constructor
  · rintro ⟨-, -, ⟨hn, sets, cs, h, -⟩, -⟩
    exact ⟨hn, sets, cs, h⟩
  · rintro ⟨hn, sets, cs, h⟩
    exact ⟨_, _, ⟨hn, sets, cs, h, rfl⟩, rfl⟩

theorem builds_interNode_iff {slices : List Nat} {g : Geometry} :
    (interNode slices g).Builds ↔ slices ≠ [] ∧ (∀ n ∈ slices, n ≠ 0) ∧ g.check = .ok () := by
  simp [Builds, build, mapError_map_eq_ok, Banked.ofSlices?_eq_ok]

theorem builds_intraNode_iff {g : Geometry} {fixed : List FixedBits} :
    (intraNode g fixed).Builds ↔ g.check = .ok () ∧
      (∀ f ∈ fixed, f.width ≤ g.sets.log2 ∧ f.pattern ≤ Bits.mask f.width) ∧
      fixed.Pairwise fun f g => f.overlaps g = false := by
  simp [Builds, build, mapError_map_eq_ok, Regions.ofFixed?_eq_ok]

theorem builds_interIntra_iff {cells cores : List (List Nat)} {ways block : Nat} :
    (interIntra cells cores ways block).Builds ↔
      Banked.CellsFit cores.length cells ways block (cores.map .ofCounts) ∧ block ≠ 0 := by
  simp [Builds, build, map_eq_ok, Banked.ofCells?_eq_ok]

end Plan

namespace Scenario

/-- Some hierarchy is built. -/
def Builds (s : Scenario) : Prop := ∃ h, s.build = .ok h

theorem builds_iff {s : Scenario} :
    s.Builds ↔ s.plan.Builds ∧ ∀ l, s.level = some l → l.cache.check = .ok () ∧ l.cores ≠ 0 := by
  simp only [Builds, Plan.Builds, build, Hierarchy.build_eq_ok]
  cases hl : s.level with
  | none => simp
  | some l =>
    constructor
    · rintro ⟨h, p, hp, c, t, hc, ht, -⟩
      refine ⟨⟨p, hp⟩, fun l' hl' => ?_⟩
      obtain rfl := Option.some.inj hl'
      refine ⟨(Cache.ofGeometry?_eq_ok.1 hc).1, fun h0 => ?_⟩
      rw [TwoLevel.build, if_pos h0] at ht
      cases ht
    · rintro ⟨⟨p, hp⟩, hlevel⟩
      obtain ⟨hc, hcores⟩ := hlevel l rfl
      exact ⟨_, p, hp, _, _, Cache.ofGeometry?_eq_ok.2 ⟨hc, rfl⟩, by rw [TwoLevel.build, if_neg hcores], rfl⟩

/-- What is not behind a private level is built if its scheme is. -/
theorem builds_iff_plan {s : Scenario} (h : s.level = none) : s.Builds ↔ s.plan.Builds := by
  simp [builds_iff, h]

theorem builds_behind_iff {s : Scenario} (h : s.level = none) (level : PrivateLevel) :
    (s.behind level).Builds ↔ s.Builds ∧ level.cache.check = .ok () ∧ level.cores ≠ 0 := by
  rw [builds_iff_plan h, builds_iff]
  simp only [behind, Option.some.injEq, forall_eq']

theorem builds_sized_iff {s : Scenario} {size : Nat} : (s.sized size).Builds ↔ s.Builds := Iff.rfl

/-! ## One scheme, divided evenly -/

variable {llc : Geometry} {cores : Nat}

/-- The ways of a cache are divided without rest. -/
theorem cores_mul_waysEach (hcores : Bits.IsPow2 cores) (hways : Bits.IsPow2 llc.ways) (hle : cores ≤ llc.ways) :
    cores * waysEach llc cores = llc.ways := by
  rw [waysEach, Nat.max_eq_left (Nat.div_pos hle hcores.pos), Nat.mul_div_cancel' (hcores.dvd hways hle)]

/-- Equal shares of the ways of a cache have no other fault than the cache. -/
theorem shares_iff {size : Nat} (hcores : Bits.IsPow2 cores) (hways : Bits.IsPow2 llc.ways) (hle : cores ≤ llc.ways) :
    let shares := List.replicate cores (waysEach llc cores)
    shares ≠ [] ∧ (∀ w ∈ shares, w ≠ 0) ∧ Geometry.check { size, ways := totalShare shares, block := llc.block } = .ok () ↔
      Geometry.check { llc with size } = .ok () := by
  intro shares
  have hpos : waysEach llc cores ≠ 0 := Nat.ne_of_gt (Nat.lt_of_lt_of_le Nat.zero_lt_one (Nat.le_max_right _ _))
  rw [totalShare_replicate, cores_mul_waysEach hcores hways hle]
  refine ⟨fun h => h.2.2, fun h => ⟨?_, fun w hw => (List.eq_of_mem_replicate hw).symm ▸ hpos, h⟩⟩
  simpa [shares] using hcores.pos.ne'

theorem builds_shared_iff : (shared llc).Builds ↔ llc.check = .ok () :=
  (builds_iff_plan rfl).trans Plan.builds_plain_iff

theorem builds_ways_iff (hsize : llc.size < Bits.wordSize) (hcores : Bits.IsPow2 cores) (hways : Bits.IsPow2 llc.ways)
    (hle : cores ≤ llc.ways) : (ways llc cores).Builds ↔ llc.check = .ok () :=
  calc (ways llc cores).Builds ↔ (ways llc cores).plan.Builds := builds_iff_plan rfl
    _ ↔ _ := Plan.builds_way_iff hsize
    _ ↔ llc.check = .ok () := shares_iff hcores hways hle

theorem builds_clusters_iff {n size : Nat} (hsize : size < Bits.wordSize) (hcores : Bits.IsPow2 cores)
    (hways : Bits.IsPow2 llc.ways) (hle : cores ≤ llc.ways) :
    (clusters llc cores n size).Builds ↔ Bits.IsPow2 n ∧ Geometry.check { llc with size } = .ok () :=
  calc (clusters llc cores n size).Builds ↔ (clusters llc cores n size).plan.Builds := builds_iff_plan rfl
    _ ↔ _ := Plan.builds_clusterWay_iff hsize
    _ ↔ Bits.IsPow2 n ∧ Geometry.check { llc with size } = .ok () := and_congr_right' (shares_iff hcores hways hle)

theorem builds_slices_iff {owned size : Nat} :
    (slices llc cores owned size).Builds ↔
      cores ≠ 0 ∧ owned ≠ 0 ∧ Geometry.check { llc with size } = .ok () := by
  refine ((builds_iff_plan rfl).trans Plan.builds_interNode_iff).trans ?_
  simp only [ne_eq, List.replicate_eq_nil_iff, List.mem_replicate]
  constructor
  · rintro ⟨hcores, howned, hc⟩
    exact ⟨hcores, howned owned ⟨hcores, rfl⟩, hc⟩
  · rintro ⟨hcores, howned, hc⟩
    exact ⟨hcores, fun n hn => hn.2 ▸ howned, hc⟩

/-- The numbers of the cores are patterns of which none meets another. -/
theorem builds_regions_iff (hsize : llc.size < Bits.wordSize) (hcores : Bits.IsPow2 cores) :
    (regions llc cores).Builds ↔ llc.check = .ok () ∧ cores ≤ llc.sets := by
  refine ((builds_iff_plan rfl).trans Plan.builds_intraNode_iff).trans (and_congr_right fun hc => ?_)
  obtain ⟨-, -, -, -, hsets⟩ := Geometry.check_eq_ok.1 hc
  simp only [List.forall_mem_map, List.pairwise_map, List.mem_range, Nat.max_eq_left hcores.pos]
  constructor
  · rintro ⟨hpatterns, -⟩
    calc cores = 2 ^ cores.log2 := hcores.symm
      _ ≤ 2 ^ llc.sets.log2 := Nat.pow_le_pow_right (by decide) (hpatterns 0 hcores.pos).1
      _ = llc.sets := hsets
  · intro hle
    have hwidth : cores.log2 ≤ Bits.wordWidth := by
      refine (Nat.pow_le_pow_iff_right (by decide : 1 < 2)).1 ?_
      calc 2 ^ cores.log2 = cores := hcores
        _ ≤ llc.sets := hle
        _ ≤ llc.size := Nat.div_le_self _ _
        _ ≤ 2 ^ Bits.wordWidth := Nat.le_of_lt hsize
    refine ⟨fun i hi => ⟨hcores.log2_le hsets hle, ?_⟩, ?_⟩
    · rw [Bits.mask, Nat.min_eq_left hwidth, hcores]
      omega
    · refine List.pairwise_lt_range.imp fun {i j} hij => ?_
      simp [FixedBits.overlaps, hij.ne']

theorem builds_cells_iff {n size : Nat} :
    (cells llc cores n size).Builds ↔
      n ≠ 0 ∧ (cores ≠ 0 → size ≠ 0 → Geometry.check { llc with size } = .ok ()) ∧ llc.block ≠ 0 := by
  refine ((builds_iff_plan rfl).trans Plan.builds_interIntra_iff).trans ?_
  rw [List.length_replicate, List.map_replicate]
  constructor
  · rintro ⟨hfit, hblock⟩
    have hn : n ≠ 0 := by simpa using hfit.rows
    refine ⟨hn, fun hcores hsize => ?_, hblock⟩
    obtain ⟨-, hcheck⟩ := hfit.cells _ (List.mem_replicate.2 ⟨hn, rfl⟩)
    exact hcheck size (List.mem_replicate.2 ⟨hcores, rfl⟩) hsize
  · rintro ⟨hn, hcheck, hblock⟩
    refine ⟨⟨by simpa using hn, List.length_replicate, fun row hrow => ?_, ?_⟩, hblock⟩
    · obtain ⟨-, rfl⟩ := List.mem_replicate.1 hrow
      refine ⟨List.length_replicate, fun s hs h0 => ?_⟩
      obtain ⟨hcores, rfl⟩ := List.mem_replicate.1 hs
      exact hcheck hcores h0
    · refine Banked.checkTables_eq_ok.2 fun i t ht => ?_
      obtain rfl := List.eq_of_mem_replicate (List.mem_of_getElem? ht)
      refine (CoreTable.check_ofCounts_iff _ fun j m hj _ => ?_).2 ⟨1, List.mem_replicate.2 ⟨hn, rfl⟩, Nat.one_ne_zero⟩
      simpa using (List.getElem?_eq_some_iff.1 hj).1

/-! ## Families -/

theorem builds_privateSizes_iff {base : Geometry} {sizes : List Nat} :
    (∀ s ∈ privateSizes base sizes, s.Builds) ↔ ∀ size ∈ sizes, Geometry.check { base with size } = .ok () := by
  simp only [privateSizes, List.forall_mem_map]
  exact forall₂_congr fun size _ => (builds_iff_plan rfl).trans Plan.builds_plain_iff

/-- All schemes over one cache are built exactly if the cache has no fault and
each core can get a set in both halves of it. -/
theorem builds_schemes_iff (hsize : llc.size < Bits.wordSize) (hcores : Bits.IsPow2 cores) (hle : cores ≤ llc.ways) :
    (∀ s ∈ schemes llc cores, s.Builds) ↔ llc.check = .ok () ∧ 2 * cores ≤ llc.sets := by
  simp only [schemes, List.forall_mem_cons, List.not_mem_nil, false_implies, implies_true, and_true]
  rw [builds_shared_iff]
  refine and_congr_right fun hc => ?_
  obtain ⟨-, hways, hblock, -⟩ := (Geometry.check_iff_isPow2 hsize).1 hc
  have hparts : ∀ {parts}, Bits.IsPow2 parts → (Geometry.check { llc with size := llc.size / parts } = .ok () ↔
      parts ≤ llc.sets) := fun hp => Geometry.check_div_iff hsize hc hp
  have hhalf : llc.size / 2 < Bits.wordSize := Nat.lt_of_le_of_lt (Nat.div_le_self _ _) hsize
  rw [builds_ways_iff hsize hcores hways hle, builds_slices_iff, builds_regions_iff hsize hcores,
    builds_clusters_iff hhalf hcores hways hle, builds_cells_iff, hparts hcores, hparts Bits.isPow2_two,
    Nat.div_div_eq_div_mul, hparts (Bits.isPow2_two.mul hcores)]
  constructor
  · rintro ⟨-, -, -, ⟨-, htwo⟩, -, hcells, -⟩
    -- Halves of two sets or more hold more bytes than there are cores.
    refine hcells hcores.pos.ne' (Nat.ne_of_gt (Nat.div_pos ?_ (by have := hcores.pos; omega)))
    calc 2 * cores ≤ llc.sets * (llc.block * llc.ways) :=
          Nat.mul_le_mul htwo (Nat.le_trans hle (Nat.le_mul_of_pos_left _ hblock.pos))
      _ = llc.size := Geometry.sets_mul_of_check hc
  · intro hsets
    have hpos := hcores.pos
    exact ⟨hc, ⟨hpos.ne', Nat.one_ne_zero, by omega⟩, ⟨hc, by omega⟩, ⟨Bits.isPow2_two, by omega⟩,
      by decide, fun _ _ => hsets, hblock.pos.ne'⟩

/-- The schemes of the sweep over slice sizes, for one slice. -/
theorem builds_slice_iff (hsize : llc.size < Bits.wordSize) (hcores : Bits.IsPow2 cores) (hways : Bits.IsPow2 llc.ways)
    (hle : cores ≤ llc.ways) (hblock : 2 ≤ llc.block) :
    ((ways llc cores).Builds ∧ (regions llc cores).Builds ∧ (cells llc cores 2 (llc.size / 2 / cores)).Builds) ↔
      llc.check = .ok () ∧ 2 * cores ≤ llc.sets := by
  rw [builds_ways_iff hsize hcores hways hle, builds_regions_iff hsize hcores, builds_cells_iff]
  refine and_congr_right fun hc => ?_
  rw [Nat.div_div_eq_div_mul, Geometry.check_div_iff hsize hc (Bits.isPow2_two.mul hcores)]
  have hpos := hcores.pos
  constructor
  · rintro ⟨-, -, hcells, -⟩
    refine hcells hpos.ne' (Nat.ne_of_gt (Nat.div_pos ?_ (by omega)))
    calc 2 * cores ≤ llc.block * llc.ways := Nat.mul_le_mul hblock hle
      _ ≤ llc.size := (Geometry.check_eq_ok.1 hc).2.2.1
  · intro hsets
    exact ⟨⟨hc, by omega⟩, by decide, fun _ _ => hsets, by omega⟩

/-- The sweep over slice sizes is built exactly if each slice has no fault and
each core can get a set in both halves of it. -/
theorem builds_sizeSweep_iff {sizes : List Nat} (hsizes : ∀ size ∈ sizes, size < Bits.wordSize)
    (hcores : Bits.IsPow2 cores) (hways : Bits.IsPow2 llc.ways) (hle : cores ≤ llc.ways) (hblock : 2 ≤ llc.block) :
    (∀ s ∈ sizeSweep llc cores sizes, s.Builds) ↔
      ∀ size ∈ sizes, Geometry.check { llc with size } = .ok () ∧ 2 * cores ≤ Geometry.sets { llc with size } := by
  simp only [sizeSweep, List.forall_mem_flatMap, List.forall_mem_map, builds_sized_iff, List.forall_mem_cons,
    List.not_mem_nil, false_implies, implies_true, and_true]
  exact forall₂_congr fun size hmem => builds_slice_iff (hsizes size hmem) hcores hways hle hblock

/-- The sweep at a number of owned slices is built exactly if no slice has a fault
and the number is a power of two. -/
theorem builds_ownedSweep_iff {owned : Nat} {sizes : List Nat} (hsizes : ∀ size ∈ sizes, size * cores < Bits.wordSize)
    (hcores : Bits.IsPow2 cores) (hle : cores ≤ llc.ways) :
    (∀ s ∈ ownedSweep llc cores owned sizes, s.Builds) ↔
      ∀ size ∈ sizes, Geometry.check { llc with size } = .ok () ∧ Bits.IsPow2 owned := by
  simp only [ownedSweep, List.forall_mem_flatMap, List.forall_mem_map, builds_sized_iff, List.forall_mem_cons,
    List.not_mem_nil, false_implies, implies_true, and_true]
  refine forall₂_congr fun size hmem => ?_
  have hsize : size < Bits.wordSize := Nat.lt_of_le_of_lt (Nat.le_mul_of_pos_right _ hcores.pos) (hsizes size hmem)
  rw [builds_slices_iff, builds_cells_iff]
  constructor
  · rintro ⟨⟨-, -, hc⟩, hclusters, -⟩
    obtain ⟨-, hways, -⟩ := (Geometry.check_iff_isPow2 (g := { llc with size }) hsize).1 hc
    exact ⟨hc, ((builds_clusters_iff (hsizes size hmem) hcores hways hle).1 hclusters).1⟩
  · rintro ⟨hc, howned⟩
    obtain ⟨-, hways, hblock, -⟩ := (Geometry.check_iff_isPow2 (g := { llc with size }) hsize).1 hc
    refine ⟨⟨hcores.pos.ne', howned.pos.ne', hc⟩, ?_, howned.pos.ne', fun _ _ => hc, hblock.pos.ne'⟩
    refine (builds_clusters_iff (hsizes size hmem) hcores hways hle).2 ⟨howned, ?_⟩
    rw [Nat.mul_comm]
    exact (Geometry.check_mul hcores hc).1

end Scenario

end LastLevel
