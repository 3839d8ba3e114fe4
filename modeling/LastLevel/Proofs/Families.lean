import LastLevel.Proofs.Shares
/-!
# Comparing the members of a family

What the members of a family grant their clients follows from the numbers that
the family puts into their descriptions (`Scenario.grants_of_ways` and its
siblings). Main statements: `Scenario.schemes_alike` (of the schemes over one
cache two pairs are always alike, and cells are never better than slices) and
`Scenario.larger_hits_no_less` (a sweep over sizes is monotone).
-/

namespace LastLevel

/-! ## Sizes -/

theorem Bits.isPow2_two : IsPow2 2 := isPow2_two_pow 1

/-- The halves of a power of two make up all of it. -/
theorem Bits.IsPow2.two_mul_half {n : Nat} (h : IsPow2 n) (hpos : n / 2 ≠ 0) : 2 * (n / 2) = n :=
  Nat.mul_div_cancel' (dvd isPow2_two h (by omega))

theorem Bits.IsPow2.log2_le {m n : Nat} (hm : IsPow2 m) (hn : IsPow2 n) (h : m ≤ n) : m.log2 ≤ n.log2 := by
  refine (Nat.pow_le_pow_iff_right (by decide : 1 < 2)).1 ?_
  calc 2 ^ m.log2 = m := hm
    _ ≤ n := h
    _ = 2 ^ n.log2 := hn.symm

/-- A power of two, and what it leaves of a larger one. -/
theorem Bits.IsPow2.mul_two_pow_sub {m n : Nat} (hm : IsPow2 m) (hn : IsPow2 n) (h : m ≤ n) :
    m * 2 ^ (n.log2 - m.log2) = n := by
  calc m * 2 ^ (n.log2 - m.log2) = 2 ^ m.log2 * 2 ^ (n.log2 - m.log2) := by rw [hm.two_pow_log2]
    _ = 2 ^ n.log2 := by rw [← Nat.pow_add, Nat.add_sub_cancel' (hm.log2_le hn h)]
    _ = n := hn

/-- The sets of a larger cache are a multiple of those of a smaller one. -/
theorem Geometry.sets_dvd {g : Geometry} {size : Nat} (hg : g.check = .ok ()) (hg' : { g with size }.check = .ok ())
    (h : g.size ≤ size) : g.sets ∣ { g with size }.sets := by
  obtain ⟨-, -, -, -, hp⟩ := check_eq_ok.1 hg
  obtain ⟨-, -, -, -, hp'⟩ := check_eq_ok.1 hg'
  exact Bits.IsPow2.dvd hp hp' (Nat.div_le_div_right h)

/-! ## What is built -/

/-- Nothing but a cell is ever missing. -/
theorem Scheme.gapless_of_build {p : Plan} {s : Scheme} (h : p.build = .ok s)
    (hp : ∀ cells cores ways block, p ≠ .interIntra cells cores ways block) : s.Gapless := by
  cases p with
  | plain g => obtain ⟨c, -, rfl⟩ := mapError_map_eq_ok.1 h; trivial
  | intraNode g fixed => obtain ⟨r, -, rfl⟩ := mapError_map_eq_ok.1 h; trivial
  | way ways size block =>
    obtain ⟨b, hb, rfl⟩ := mapError_map_eq_ok.1 h
    obtain ⟨sets, cs, -, rfl⟩ := Banked.ofWays?_eq_ok.1 hb
    exact id
  | interNode slices g =>
    obtain ⟨b, hb, rfl⟩ := mapError_map_eq_ok.1 h
    obtain ⟨-, rfl⟩ := Banked.ofSlices?_eq_ok.1 hb
    exact id
  | clusterWay clusters ways size block =>
    obtain ⟨b, hb, rfl⟩ := mapError_map_eq_ok.1 h
    obtain ⟨-, sets, cs, -, rfl⟩ := Banked.ofClusters?_eq_ok.1 hb
    exact id
  | interIntra cells cores ways block => exact absurd rfl (hp _ _ _ _)

namespace Scenario
variable {llc : Geometry} {cores : Nat} {p q : Scheme}

/-! ### What members grant -/

theorem grants_of_ways (h : (ways llc cores).plan.build = .ok p) :
    let g : Geometry := { llc with ways := totalShare (List.replicate cores (waysEach llc cores)) }
    g.check = .ok () ∧ p.Grants cores llc.block.log2 g.sets (waysEach llc cores) := by
  intro g
  obtain ⟨b, rfl, hg, hw, hb⟩ := interleaved_of_ways h
  obtain ⟨-, -, -, -, hp⟩ := Geometry.check_eq_ok.1 hg
  exact ⟨hg, Nat.lcm_one_left g.sets ▸ hb.grants hp hw⟩

theorem grants_of_slices {size : Nat} (h : (slices llc cores 1 size).plan.build = .ok p) :
    let g : Geometry := { llc with size }
    g.check = .ok () ∧ p.Grants cores llc.block.log2 g.sets llc.ways := by
  intro g
  obtain ⟨b, rfl, hg, hb⟩ := interleaved_of_slices (Nat.one_dvd _) h
  obtain ⟨-, ⟨-, hw, -⟩, -, -, hp⟩ := Geometry.check_eq_ok.1 hg
  exact ⟨hg, Nat.lcm_one_left g.sets ▸ hb.grants hp hw⟩

theorem grants_of_regions (h : (regions llc cores).plan.build = .ok p) :
    llc.check = .ok () ∧
      p.Grants cores llc.block.log2 (2 ^ (llc.sets.log2 - (max cores 1).log2)) llc.ways := by
  obtain ⟨r, hr, rfl⟩ := mapError_map_eq_ok.1 h
  rw [List.length_map, List.length_range] at hr
  refine ⟨(Regions.ofFixed?_eq_ok.1 hr).1.1, Regions.grants hr fun f hf => ?_⟩
  obtain ⟨i, -, rfl⟩ := List.mem_map.1 hf
  rfl

/-- Cells of no bytes grant nothing. -/
theorem grants_of_no_cells {n : Nat} (hn : Bits.IsPow2 n) (h : (cells llc cores n 0).plan.build = .ok p) :
    p.Grants cores llc.block.log2 1 0 := by
  obtain ⟨b, rfl, -, hb⟩ := interleaved_of_cells hn h
  exact hb.grants_nothing

theorem grants_of_cells {n size : Nat} (hn : Bits.IsPow2 n) (hcores : cores ≠ 0) (hsize : size ≠ 0)
    (h : (cells llc cores n size).plan.build = .ok p) :
    let g : Geometry := { llc with size }
    g.check = .ok () ∧ p.Grants cores llc.block.log2 (n.lcm g.sets) llc.ways := by
  intro g
  obtain ⟨b, rfl, hg, hb⟩ := interleaved_of_cells hn h
  have hg := hg hcores hsize
  obtain ⟨-, ⟨-, hw, -⟩, -, -, hp⟩ := Geometry.check_eq_ok.1 hg
  simp only [Banked.cell?, if_neg hsize] at hb
  exact ⟨hg, hb.grants hp hw⟩

/-! ## One cache, divided in different ways -/

/-- Two clusters of half the size are the whole cache. -/
theorem hitsWithin_of_clusters (h : (ways llc cores).plan.build = .ok p)
    (k : (clusters llc cores 2 (llc.size / 2)).plan.build = .ok q) : p.HitsWithin q ∧ q.HitsWithin p := by
  obtain ⟨⟨hpow, -⟩, -⟩ := And.imp_left Geometry.check_eq_ok.1 (grants_of_ways h)
  obtain ⟨u, hu, rfl⟩ := mapError_map_eq_ok.1 h
  obtain ⟨b, hb, rfl⟩ := mapError_map_eq_ok.1 k
  obtain ⟨-, sets, cs, hd, -⟩ := Banked.ofClusters?_eq_ok.1 hb
  obtain ⟨⟨-, -, hhalf⟩, -⟩ := Banked.divideWays_eq_ok.1 hd
  have hdouble : 2 * (llc.size / 2) = llc.size :=
    Bits.IsPow2.two_mul_half hpow (Geometry.check_eq_ok.1 hhalf).1.pos.ne'
  rw [← hdouble] at hu
  exact (Banked.gathered_of_ofWays? hb hu).hitsWithin.symm

/-- A slice for each core is as large as the core's region. -/
theorem hitsWithin_of_regions (hcores : Bits.IsPow2 cores)
    (h : (slices llc cores 1 (llc.size / cores)).plan.build = .ok p)
    (k : (regions llc cores).plan.build = .ok q) : p.HitsWithin q ∧ q.HitsWithin p := by
  obtain ⟨hslice, hp⟩ := grants_of_slices h
  obtain ⟨hwhole, hq⟩ := grants_of_regions k
  obtain ⟨hpow, -, -, -, hsets⟩ := Geometry.check_eq_ok.1 hslice
  obtain ⟨hpow', -⟩ := Geometry.check_eq_ok.1 hwhole
  have hle : cores ≤ llc.size := Nat.le_of_not_lt fun hlt => hpow.pos.ne' (Nat.div_eq_of_lt hlt)
  have hmul : cores * (llc.size / cores) = llc.size := Nat.mul_div_cancel' (Bits.IsPow2.dvd hcores hpow' hle)
  have hregion : 2 ^ (llc.sets.log2 - (max cores 1).log2) = Geometry.sets { llc with size := llc.size / cores } := by
    have hall := (Geometry.check_mul hcores hslice).2
    rw [hmul] at hall
    rw [show llc.sets = _ from hall, Nat.max_eq_left hcores.pos]
    obtain ⟨i, hi⟩ := Bits.isPow2_iff.1 hcores
    obtain ⟨j, hj⟩ := Bits.isPow2_iff.1 hsets
    rw [hj, hi, ← Nat.pow_add, Nat.log2_two_pow, Nat.log2_two_pow, Nat.add_sub_cancel_left]
  rw [hregion] at hq
  exact ⟨hp.hitsWithin hq (Nat.dvd_refl _) (Nat.le_refl _), hq.hitsWithin hp (Nat.dvd_refl _) (Nat.le_refl _)⟩

/-- Two cells are as large as a slice, but the bit that selects between them is
also one of their set index. -/
theorem hitsWithin_of_cells (hcores : 0 < cores) (h : (cells llc cores 2 (llc.size / 2 / cores)).plan.build = .ok p)
    (k : (slices llc cores 1 (llc.size / cores)).plan.build = .ok q) : p.HitsWithin q := by
  obtain ⟨hslice, hq⟩ := grants_of_slices k
  by_cases hzero : llc.size / 2 / cores = 0
  · rw [hzero] at h
    exact (grants_of_no_cells Bits.isPow2_two h).hitsWithin_of_nothing hq.served
  · obtain ⟨hcell, hp⟩ := grants_of_cells Bits.isPow2_two hcores.ne' hzero h
    have hhalf : llc.size / 2 / cores = llc.size / cores / 2 := by
      rw [Nat.div_div_eq_div_mul, Nat.mul_comm, ← Nat.div_div_eq_div_mul]
    have hdouble : 2 * (llc.size / 2 / cores) = llc.size / cores := by
      rw [hhalf] at hzero ⊢
      exact Bits.IsPow2.two_mul_half (Geometry.check_eq_ok.1 hslice).1 hzero
    have hsets := (Geometry.check_mul Bits.isPow2_two hcell).2
    rw [hdouble] at hsets
    refine hp.hitsWithin hq ?_ (Nat.le_refl _)
    rw [hsets]
    exact Nat.lcm_dvd_mul _ _

/-! ### Scenarios -/

/-- The scenario as it is, or behind a private level. -/
def perhapsBehind (level : Option PrivateLevel) (s : Scenario) : Scenario :=
  match level with
  | none => s
  | some l => s.behind l

section Compare
variable {s u : Scenario} (level : Option PrivateLevel)

@[simp] theorem plan_perhapsBehind : (s.perhapsBehind level).plan = s.plan := by
  cases level <;> rfl

theorem level_perhapsBehind (h : s.level = u.level) :
    (s.perhapsBehind level).level = (u.perhapsBehind level).level := by
  cases level with
  | none => exact h
  | some l => rfl

theorem countsAlike_perhapsBehind (hlevel : s.level = u.level)
    (hw : ∀ p q, s.plan.build = .ok p → u.plan.build = .ok q →
      p.HitsWithin q ∧ q.HitsWithin p ∧ p.Gapless ∧ q.Gapless) :
    (s.perhapsBehind level).CountsAlike (u.perhapsBehind level) :=
  countsAlike_of_schemes (level_perhapsBehind level hlevel) (by simpa only [plan_perhapsBehind] using hw)

theorem hitsNoMore_perhapsBehind (hlevel : s.level = u.level)
    (hw : ∀ p q, s.plan.build = .ok p → u.plan.build = .ok q → p.HitsWithin q) :
    (s.perhapsBehind level).HitsNoMore (u.perhapsBehind level) :=
  hitsNoMore_of_schemes (level_perhapsBehind level hlevel) (by simpa only [plan_perhapsBehind] using hw)

end Compare

/-- Of the schemes over one cache, divided between a power of two of cores, divided
ways and clusters of divided ways give the same counts for every trace, and so do
slices and regions; and no client has more hits on cells than on slices. It is
the same behind any private level. -/
theorem schemes_alike (llc : Geometry) {cores : Nat} (hcores : Bits.IsPow2 cores) (level : Option PrivateLevel) :
    let ss := (schemes llc cores).map (perhapsBehind level)
    ∃ ways slices regions clusters cells,
      ss[1]? = some ways ∧ ss[2]? = some slices ∧ ss[3]? = some regions ∧ ss[4]? = some clusters ∧
      ss[5]? = some cells ∧
      ways.CountsAlike clusters ∧ slices.CountsAlike regions ∧ cells.HitsNoMore slices := by
  intro ss
  refine ⟨_, _, _, _, _, rfl, rfl, rfl, rfl, rfl, ?_, ?_, ?_⟩
  · refine countsAlike_perhapsBehind level rfl fun p q hp hq => ?_
    obtain ⟨hpq, hqp⟩ := hitsWithin_of_clusters hp hq
    exact ⟨hpq, hqp, Scheme.gapless_of_build hp nofun, Scheme.gapless_of_build hq nofun⟩
  · refine countsAlike_perhapsBehind level rfl fun p q hp hq => ?_
    obtain ⟨hpq, hqp⟩ := hitsWithin_of_regions hcores hp hq
    exact ⟨hpq, hqp, Scheme.gapless_of_build hp nofun, Scheme.gapless_of_build hq nofun⟩
  · exact hitsNoMore_perhapsBehind level rfl fun p q hp hq => hitsWithin_of_cells hcores.pos hp hq

/-- Two cores with private caches of one block. Of blocks 0, 2 and 4 a slice and a
region keep all, and so do divided ways; but the three are in one set of one
cell. -/
theorem schemes_alike_for_two_cores :
    let ss := (schemes ⟨256, 2, 16⟩ 2).map (perhapsBehind (some ⟨2, ⟨16, 1, 16⟩⟩))
    let t : Trace := ⟨"t",
      [⟨0x00, 0, .read⟩, ⟨0x20, 0, .write⟩, ⟨0x40, 0, .read⟩, ⟨0x00, 0, .read⟩, ⟨0x00, 2, .read⟩]⟩
    Bits.IsPow2 2 ∧ ∃ ways slices regions clusters cells : Scenario,
      ss[1]? = some ways ∧ ss[2]? = some slices ∧ ss[3]? = some regions ∧ ss[4]? = some clusters ∧
      ss[5]? = some cells ∧
      (∃ r q : Replay, ways.replay t = .ok r ∧ clusters.replay t = .ok q ∧ r.rejected = q.rejected ∧
        r.hierarchy.tally? 0 = q.hierarchy.tally? 0) ∧
      (∃ r q : Replay, slices.replay t = .ok r ∧ regions.replay t = .ok q ∧
        r.hierarchy.tally? 0 = .ok { misses := 3, hits := 1 } ∧ q.hierarchy.tally? 0 = .ok { misses := 3, hits := 1 }) ∧
      ∃ (r q : Replay) (m n : Tally), cells.replay t = .ok r ∧ slices.replay t = .ok q ∧
        r.hierarchy.tally? 0 = .ok m ∧ m = { misses := 4, hits := 0 } ∧ q.hierarchy.tally? 0 = .ok n ∧
        m.hits ≤ n.hits := by
  intro ss t
  have hcores : Bits.IsPow2 2 := rfl
  obtain ⟨_, _, _, _, _, h1, h2, h3, h4, h5, hways, hslices, hcells⟩ :=
    schemes_alike ⟨256, 2, 16⟩ hcores (some ⟨2, ⟨16, 1, 16⟩⟩)
  refine ⟨hcores, _, _, _, _, _, h1, h2, h3, h4, h5, ?_, ?_, ?_⟩
  all_goals obtain rfl := Option.some.inj h1
  all_goals obtain rfl := Option.some.inj h2
  all_goals obtain rfl := Option.some.inj h3
  all_goals obtain rfl := Option.some.inj h4
  all_goals obtain rfl := Option.some.inj h5
  · obtain ⟨r, q, hr, hq, -, hrejected, hcounts⟩ := hways _ _ rfl rfl t
    exact ⟨r, q, hr, hq, hrejected, hcounts 0⟩
  · obtain ⟨r, q, hr, hq, -, -, hcounts⟩ := hslices _ _ rfl rfl t
    have htally : (Except.ok r : Except RunError Replay).map (·.hierarchy.tally? 0) =
        .ok (.ok { misses := 3, hits := 1 }) := by rw [← hr]; decide
    exact ⟨r, q, hr, hq, Except.ok.inj htally, hcounts 0 ▸ Except.ok.inj htally⟩
  · obtain ⟨-, r, q, hr, hq, -, -, hcounts⟩ := hcells _ _ rfl rfl t
    have htally : (Except.ok r : Except RunError Replay).map (·.hierarchy.tally? 0) =
        .ok (.ok { misses := 4, hits := 0 }) := by rw [← hr]; decide
    obtain ⟨n, hn, hle⟩ := hcounts 0 _ (Except.ok.inj htally)
    exact ⟨r, q, _, n, hr, hq, Except.ok.inj htally, rfl, hn, hle⟩

/-! ## Several sizes -/

variable {size₁ size₂ : Nat}

theorem hitsWithin_of_larger_ways (hle : size₁ ≤ size₂)
    (h : (ways { llc with size := size₁ } cores).plan.build = .ok p)
    (k : (ways { llc with size := size₂ } cores).plan.build = .ok q) : p.HitsWithin q := by
  obtain ⟨hg, hp⟩ := grants_of_ways h
  obtain ⟨hg', hq⟩ := grants_of_ways k
  exact hp.hitsWithin hq (Geometry.sets_dvd hg hg' hle) (Nat.le_refl _)

theorem hitsWithin_of_larger_regions (hle : size₁ ≤ size₂)
    (h : (regions { llc with size := size₁ } cores).plan.build = .ok p)
    (k : (regions { llc with size := size₂ } cores).plan.build = .ok q) : p.HitsWithin q := by
  obtain ⟨hg, hp⟩ := grants_of_regions h
  obtain ⟨hg', hq⟩ := grants_of_regions k
  obtain ⟨-, -, -, -, hsets⟩ := Geometry.check_eq_ok.1 hg
  obtain ⟨-, -, -, -, hsets'⟩ := Geometry.check_eq_ok.1 hg'
  have hlog := hsets.log2_le hsets' (Nat.div_le_div_right hle)
  exact hp.hitsWithin hq (Nat.pow_dvd_pow 2 (Nat.sub_le_sub_right hlog _)) (Nat.le_refl _)

theorem hitsWithin_of_larger_cells (hcores : 0 < cores) (hle : size₁ ≤ size₂)
    (h : (cells { llc with size := size₁ } cores 2 (size₁ / 2 / cores)).plan.build = .ok p)
    (k : (cells { llc with size := size₂ } cores 2 (size₂ / 2 / cores)).plan.build = .ok q) : p.HitsWithin q := by
  have hcell : size₁ / 2 / cores ≤ size₂ / 2 / cores := Nat.div_le_div_right (Nat.div_le_div_right hle)
  by_cases hzero : size₁ / 2 / cores = 0
  · rw [hzero] at h
    obtain ⟨b, rfl, -, hb⟩ := interleaved_of_cells Bits.isPow2_two k
    exact (grants_of_no_cells Bits.isPow2_two h).hitsWithin_of_nothing (congrArg some hb.size)
  · obtain ⟨hg, hp⟩ := grants_of_cells Bits.isPow2_two hcores.ne' hzero h
    have hzero' : size₂ / 2 / cores ≠ 0 := fun h0 => hzero (Nat.le_zero.1 (h0 ▸ hcell))
    obtain ⟨hg', hq⟩ := grants_of_cells Bits.isPow2_two hcores.ne' hzero' k
    refine hp.hitsWithin hq (Nat.lcm_dvd (Nat.dvd_lcm_left _ _) ?_) (Nat.le_refl _)
    exact (Geometry.sets_dvd hg hg' hcell).trans (Nat.dvd_lcm_right _ _)

theorem hitsWithin_of_larger_plain (hle : size₁ ≤ size₂)
    (h : Plan.build (.plain { llc with size := size₁ }) = .ok p)
    (k : Plan.build (.plain { llc with size := size₂ }) = .ok q) : p.HitsWithin q := by
  obtain ⟨c, hc, rfl⟩ := mapError_map_eq_ok.1 h
  obtain ⟨d, hd, rfl⟩ := mapError_map_eq_ok.1 k
  obtain ⟨hg, rfl⟩ := Cache.ofGeometry?_eq_ok.1 hc
  obtain ⟨hg', rfl⟩ := Cache.ofGeometry?_eq_ok.1 hd
  obtain ⟨-, ⟨-, hw, -⟩, -, -, hsets⟩ := Geometry.check_eq_ok.1 hg
  obtain ⟨-, -, -, -, hsets'⟩ := Geometry.check_eq_ok.1 hg'
  refine Scheme.hitsWithin_plain rfl ?_ hw (Nat.le_refl _)
  rw [Shape.sets_ofCounts hsets, Shape.sets_ofCounts hsets']
  exact Geometry.sets_dvd hg hg' hle

theorem getElem?_sizeSweep {k : Nat} (hk : k < 3) (sizes : List Nat) (m : Nat) :
    (sizeSweep llc cores sizes)[3 * m + k]? = sizes[m]?.bind fun size =>
      ([ways { llc with size } cores, regions { llc with size } cores,
        cells { llc with size } cores 2 (size / 2 / cores)].map (·.sized size))[k]? :=
  getElem?_flatMap (n := 3) (fun _ => rfl) sizes hk m

/-- Of two members of a family that are of the same kind and differ in size, no
client has more hits on the smaller one, and both carry out and refuse the same
records: undivided caches, and in a sweep divided ways, regions and cells. It is
the same behind any private level. -/
theorem larger_hits_no_less (base : Geometry) {cores : Nat} (hcores : 0 < cores) {sizes : List Nat} {m n : Nat}
    (hm : sizes[m]? = some size₁) (hn : sizes[n]? = some size₂) (hle : size₁ ≤ size₂) (level : Option PrivateLevel) :
    let undivided := (privateSizes base sizes).map (perhapsBehind level)
    let sweep := (sizeSweep base cores sizes).map (perhapsBehind level)
    (∃ s u, undivided[m]? = some s ∧ undivided[n]? = some u ∧ s.HitsNoMore u) ∧
    ∀ k < 3, ∃ s u, sweep[3 * m + k]? = some s ∧ sweep[3 * n + k]? = some u ∧ s.HitsNoMore u := by
  intro undivided sweep
  refine ⟨?_, fun k hk => ?_⟩
  · refine ⟨_, _, by rw [List.getElem?_map, privateSizes, List.getElem?_map, hm]; rfl,
      by rw [List.getElem?_map, privateSizes, List.getElem?_map, hn]; rfl, ?_⟩
    exact hitsNoMore_perhapsBehind level rfl fun p q hp hq => hitsWithin_of_larger_plain hle hp hq
  · rw [List.getElem?_map, getElem?_sizeSweep hk, hm, List.getElem?_map, getElem?_sizeSweep hk, hn]
    obtain rfl | rfl | rfl : k = 0 ∨ k = 1 ∨ k = 2 := by omega
    · refine ⟨_, _, rfl, rfl, hitsNoMore_perhapsBehind level rfl fun p q hp hq => ?_⟩
      rw [plan_sized] at hp hq
      exact hitsWithin_of_larger_ways hle hp hq
    · refine ⟨_, _, rfl, rfl, hitsNoMore_perhapsBehind level rfl fun p q hp hq => ?_⟩
      rw [plan_sized] at hp hq
      exact hitsWithin_of_larger_regions hle hp hq
    · refine ⟨_, _, rfl, rfl, hitsNoMore_perhapsBehind level rfl fun p q hp hq => ?_⟩
      rw [plan_sized] at hp hq
      exact hitsWithin_of_larger_cells hcores hle hp hq

/-- Blocks 0 and 4 of a core are in one set of four, but not in one of eight. -/
theorem larger_hits_no_less_for_two_cores :
    let sweep := (sizeSweep ⟨0, 2, 16⟩ 2 [128, 256]).map (perhapsBehind (some ⟨2, ⟨16, 1, 16⟩⟩))
    let t : Trace := ⟨"t", [⟨0x00, 1, .read⟩, ⟨0x40, 1, .write⟩, ⟨0x00, 1, .read⟩, ⟨0x00, 2, .read⟩]⟩
    0 < 2 ∧ [128, 256][0]? = some 128 ∧ [128, 256][1]? = some 256 ∧ 128 ≤ 256 ∧ ∃ s u : Scenario,
      sweep[0]? = some s ∧ sweep[3]? = some u ∧ ∃ (r q : Replay) (m n : Tally), s.replay t = .ok r ∧
        u.replay t = .ok q ∧ r.rejected = q.rejected ∧ r.hierarchy.tally? 1 = .ok m ∧ q.hierarchy.tally? 1 = .ok n ∧
        m.hits ≤ n.hits ∧ m = { misses := 3, hits := 0 } := by
  intro sweep t
  have hcores : 0 < 2 := by decide
  have hm : [128, 256][0]? = some 128 := rfl
  have hn : [128, 256][1]? = some 256 := rfl
  have hle : 128 ≤ 256 := by decide
  obtain ⟨-, hsweep⟩ := larger_hits_no_less ⟨0, 2, 16⟩ hcores hm hn hle (some ⟨2, ⟨16, 1, 16⟩⟩)
  obtain ⟨_, _, hs, hu, hmore⟩ := hsweep 0 (by decide)
  refine ⟨hcores, hm, hn, hle, _, _, hs, hu, ?_⟩
  obtain rfl := Option.some.inj hs
  obtain rfl := Option.some.inj hu
  obtain ⟨-, r, q, hr, hq, -, hrejected, hcounts⟩ := hmore _ _ rfl rfl t
  have htally : (Except.ok r : Except RunError Replay).map (·.hierarchy.tally? 1) =
      .ok (.ok { misses := 3, hits := 0 }) := by rw [← hr]; decide
  obtain ⟨n, hn, hle⟩ := hcounts 1 _ (Except.ok.inj htally)
  exact ⟨r, q, _, n, hr, hq, hrejected, Except.ok.inj htally, hn, hle, rfl⟩

end Scenario

end LastLevel
