import LastLevel.Proofs.Building
import LastLevel.Proofs.Coverage
import LastLevel.Proofs.Recency
import LastLevel.Proofs.Totality
import Mathlib.Algebra.BigOperators.Group.Finset.Basic
/-!
# How many bytes a client gets

What a client has to itself are its banks, or the sets of its region, with all the
bytes in them: `Scheme.bytes?`, and the lines that are there take as many
(`Scheme.HasLines`). Where a scheme is divided evenly the clients get
equal parts of it, and the rounding in the shares loses nothing as long as all
numbers are powers of two (`Scenario.givesEach_of_ways` and its siblings). Main
statements: `Scenario.schemes_share_evenly` for one cache, and
`Scenario.owned_sweep_shares_evenly` for clients that own slices of several sizes.
-/

namespace LastLevel

/-! ## Bytes -/

theorem Shape.size_ofCounts {sets ways block : Nat} (hs : Bits.IsPow2 sets) (hb : Bits.IsPow2 block) :
    (ofCounts sets ways block).size = sets * ways * block := by
  rw [size, sets_ofCounts hs, block_ofCounts hb]
  rfl

/-- What is laid out has all the bytes of its geometry. -/
theorem Geometry.size_ofCounts {g : Geometry} (h : g.check = .ok ()) :
    (Shape.ofCounts g.sets g.ways g.block).size = g.size := by
  obtain ⟨-, ⟨hb, -⟩, -, -, hs⟩ := check_eq_ok.1 h
  rw [Shape.size_ofCounts hs hb, Nat.mul_assoc, Nat.mul_comm g.ways, sets_mul_of_check h]

/-! ## Lines -/

namespace Cache

/-- The lines in some of the sets of a cache. -/
def lineCount (c : Cache) (sets : Finset Nat) : Nat := ∑ i ∈ sets, c.sets[i]?.elim 0 (·.lines.length)

/-- The bytes that all lines of a cache take. -/
def bytesOfLines (c : Cache) : Nat := c.lineCount (Finset.range c.sets.size) * c.shape.block

theorem lineCount_empty {shape : Shape} {sets : Finset Nat} (h : ∀ i ∈ sets, i < shape.sets) :
    (empty shape).lineCount sets = sets.card * shape.ways := by
  refine Finset.sum_const_nat fun i hi => ?_
  rw [empty, Array.getElem?_replicate, if_pos (h i hi), Option.elim_some, CacheSet.length_lines_empty]

theorem bytesOfLines_empty (shape : Shape) : (empty shape).bytesOfLines = shape.size := by
  have hall : (empty shape).lineCount (Finset.range shape.sets) = shape.sets * shape.ways := by
    rw [lineCount_empty fun i hi => Finset.mem_range.1 hi, Finset.card_range]
  rw [bytesOfLines, sets_size]
  exact congrArg (· * shape.block) hall

end Cache

/-! ## Clients -/

/-- The bytes of a client's banks, missing ones apart. -/
def Holding.bytes (h : Holding) : Nat :=
  totalShare (h.banks.toList.filterMap fun c => c.map (·.shape.size))

theorem Holding.total_of_copies (f : Cache → Nat) (n : Nat) (bank : Option Cache) :
    totalShare ((Array.replicate n bank).toList.filterMap fun c => c.map f) = n * bank.elim 0 f := by
  cases bank with
  | none => simp [totalShare]
  | some c => simp [totalShare_replicate]

namespace Scheme

/-- The bytes that a client has to itself; in an undivided cache it has none. -/
def bytes? (s : Scheme) (client : Nat) : Option Nat :=
  match s with
  | plain _ => none
  | banked b => b.holdings[client]?.map (·.bytes)
  | regions r => (r.setsOf? client).toOption.map fun sets => sets * r.cache.shape.ways * r.cache.shape.block

/-- The bytes of all clients together. -/
def bytesOfClients (s : Scheme) : Nat := totalShare ((List.range (s.clients?.getD 0)).filterMap s.bytes?)

/-- So many bytes are taken by the lines that a client has to itself: those of its
banks, or those of the sets that its addresses reach. -/
def HasLines (s : Scheme) (client bytes : Nat) : Prop :=
  match s with
  | plain _ => False
  | banked b => ∃ held, b.holdings[client]? = some held ∧
      totalShare (held.banks.toList.filterMap fun c => c.map (·.bytesOfLines)) = bytes
  | regions r => ∃ sets : Finset Nat, (∀ set, set ∈ sets ↔ ∃ a l, r.locate? client a = .ok l ∧ l.set = set) ∧
      r.cache.lineCount sets * r.cache.shape.block = bytes

/-- There are so many clients, and each has so many bytes, as many as its lines take. -/
structure GivesEach (s : Scheme) (clients bytes : Nat) : Prop where
  served : s.clients? = some clients
  lines : ∀ i < clients, s.HasLines i bytes
  bytes : ∀ i < clients, s.bytes? i = some bytes

theorem GivesEach.bytesOfClients_eq {s : Scheme} {clients bytes : Nat} (h : s.GivesEach clients bytes) :
    s.bytesOfClients = clients * bytes := by
  have hall : (List.range clients).filterMap s.bytes? = List.replicate clients bytes := by
    rw [List.filterMap_congr (g := fun _ => some bytes) fun i hi => h.bytes i (List.mem_range.1 hi)]
    simp
  rw [bytesOfClients, h.served, Option.getD_some, hall, totalShare_replicate]

/-- Clients with copies of one new bank have that bank's bytes in each. -/
theorem givesEach_of_copies (d : Division) (clients n : Nat) (bank : Option Shape) :
    GivesEach
      (.banked
        { division := d
          holdings := (List.replicate clients { banks := Array.replicate n (bank.map .empty) }).toArray })
      clients (n * bank.elim 0 Shape.size) where
  served := by simp [clients?, Banked.clients]
  lines i hi := by
    refine ⟨{ banks := Array.replicate n (bank.map .empty) }, by simp [hi], ?_⟩
    rw [Holding.total_of_copies]
    cases bank with
    | none => rfl
    | some shape => exact congrArg (n * ·) (Cache.bytesOfLines_empty shape)
  bytes i hi := by
    have hbytes : Holding.bytes { banks := Array.replicate n (bank.map .empty) } = n * bank.elim 0 Shape.size := by
      rw [Holding.bytes, Holding.total_of_copies]
      cases bank <;> rfl
    simp [bytes?, hi, hbytes]

end Scheme

/-! ## Schemes divided evenly -/

namespace Scenario
variable {llc : Geometry} {cores n size owned : Nat} {p : Scheme}

/-- Where cores divide the ways of a cache, each gets a cache of its part of the
bytes. -/
theorem divideWays_evenly (hcores : Bits.IsPow2 cores) (hways : Bits.IsPow2 llc.ways) (hle : cores ≤ llc.ways)
    {sets : Nat} {cs : List Cache}
    (h : Banked.divideWays (List.replicate cores (waysEach llc cores)) size llc.block = .ok (sets, cs)) :
    ∃ shape : Shape, cs = List.replicate cores (.empty shape) ∧ shape.size = size / cores := by
  obtain ⟨⟨-, -, hc⟩, rfl, -, rfl⟩ := Banked.divideWays_eq_ok.1 h
  rw [totalShare_replicate, cores_mul_waysEach hcores hways hle] at hc ⊢
  obtain ⟨-, ⟨hb, -⟩, -, -, hs⟩ := Geometry.check_eq_ok.1 hc
  refine ⟨_, List.map_replicate, (Nat.div_eq_of_eq_mul_right hcores.pos ?_).symm⟩
  rw [Shape.size_ofCounts hs hb]
  calc size = Geometry.sets { llc with size } * (llc.block * (cores * waysEach llc cores)) := by
        rw [cores_mul_waysEach hcores hways hle]
        exact (Geometry.sets_mul_of_check hc).symm
    _ = cores * (Geometry.sets { llc with size } * waysEach llc cores * llc.block) := by ac_rfl

theorem givesEach_of_ways (hcores : Bits.IsPow2 cores) (hways : Bits.IsPow2 llc.ways) (hle : cores ≤ llc.ways)
    (h : (ways llc cores).plan.build = .ok p) : p.GivesEach cores (llc.size / cores) := by
  obtain ⟨b, hb, rfl⟩ := mapError_map_eq_ok.1 h
  obtain ⟨sets, cs, hd, rfl⟩ := Banked.ofWays?_eq_ok.1 hb
  obtain ⟨shape, rfl, hbytes⟩ := divideWays_evenly hcores hways hle hd
  rw [List.map_replicate, ← hbytes, ← Nat.one_mul shape.size]
  exact Scheme.givesEach_of_copies _ cores 1 (some shape)

theorem givesEach_of_clusters (hcores : Bits.IsPow2 cores) (hways : Bits.IsPow2 llc.ways) (hle : cores ≤ llc.ways)
    (h : (clusters llc cores n size).plan.build = .ok p) : p.GivesEach cores (n * (size / cores)) := by
  obtain ⟨b, hb, rfl⟩ := mapError_map_eq_ok.1 h
  obtain ⟨-, sets, cs, hd, rfl⟩ := Banked.ofClusters?_eq_ok.1 hb
  obtain ⟨shape, rfl, hbytes⟩ := divideWays_evenly hcores hways hle hd
  rw [List.map_replicate, ← hbytes]
  exact Scheme.givesEach_of_copies _ cores n (some shape)

theorem givesEach_of_slices (h : (slices llc cores owned size).plan.build = .ok p) :
    p.GivesEach cores (owned * size) := by
  obtain ⟨b, hb, rfl⟩ := mapError_map_eq_ok.1 h
  obtain ⟨⟨-, -, -, hc⟩, rfl⟩ := Banked.ofSlices?_eq_ok.1 hb
  have hbytes : (Shape.ofCounts (Geometry.sets { llc with size }) llc.ways llc.block).size = size :=
    Geometry.size_ofCounts hc
  have hcopies := fun d => Scheme.givesEach_of_copies d cores owned
    (some (.ofCounts (Geometry.sets { llc with size }) llc.ways llc.block))
  rw [Option.elim_some, hbytes] at hcopies
  rw [List.map_replicate]
  exact hcopies _

/-- A cell without bytes is left out, and then nothing is missing from the bytes. -/
theorem exists_shape_of_cell {ways block : Nat} (h : size ≠ 0 → Geometry.check { size, ways, block } = .ok ()) :
    ∃ shape : Option Shape, Banked.cell? size ways block = shape.map .empty ∧ shape.elim 0 Shape.size = size := by
  by_cases h0 : size = 0
  · exact ⟨none, by rw [Banked.cell?, if_pos h0, Option.map_none], h0.symm⟩
  · exact ⟨some _, by rw [Banked.cell?, if_neg h0, Option.map_some], Geometry.size_ofCounts (h h0)⟩

theorem givesEach_of_cells (hcores : cores ≠ 0) (h : (cells llc cores n size).plan.build = .ok p) :
    p.GivesEach cores (n * size) := by
  obtain ⟨b, hb, rfl⟩ := map_eq_ok.1 h
  rw [List.length_replicate, List.map_replicate] at hb
  obtain ⟨⟨hfit, -⟩, rfl⟩ := Banked.ofCells?_eq_ok.1 hb
  have hn : n ≠ 0 := by simpa using hfit.rows
  obtain ⟨-, hcheck⟩ := hfit.cells _ (List.mem_replicate.2 ⟨hn, rfl⟩)
  obtain ⟨shape, hcell, hbytes⟩ := exists_shape_of_cell (hcheck size (List.mem_replicate.2 ⟨hcores, rfl⟩))
  rw [Banked.holdings_of_equal_cells, hcell]
  have hcopies := fun d => Scheme.givesEach_of_copies d cores n shape
  rw [hbytes] at hcopies
  exact hcopies _

/-- The pattern of a core leaves it its part of the sets. -/
theorem givesEach_of_regions (hsize : llc.size < Bits.wordSize) (hcores : Bits.IsPow2 cores) (hle : cores ≤ llc.sets)
    (h : (regions llc cores).plan.build = .ok p) : p.GivesEach cores (llc.size / cores) := by
  obtain ⟨r, hr, rfl⟩ := mapError_map_eq_ok.1 h
  rw [List.length_map, List.length_range] at hr
  obtain ⟨hc, -, hfits, -⟩ := (Regions.accepted_iff hsize).1 ⟨r, hr⟩
  obtain ⟨-, ⟨hblock, -⟩, -, -, hsets⟩ := Geometry.check_eq_ok.1 hc
  have hcache : r.cache = .empty (.ofCounts llc.sets llc.ways llc.block) := Regions.cache_of_ofFixed? hr
  have hshare : 2 ^ (llc.sets.log2 - cores.log2) * llc.ways * llc.block = llc.size / cores := by
    refine (Nat.div_eq_of_eq_mul_right hcores.pos ?_).symm
    calc llc.size = cores * 2 ^ (llc.sets.log2 - cores.log2) * (llc.block * llc.ways) := by
          rw [hcores.mul_two_pow_sub hsets hle, Geometry.sets_mul_of_check hc]
      _ = cores * (2 ^ (llc.sets.log2 - cores.log2) * llc.ways * llc.block) := by ac_rfl
  have hpattern : ∀ i < cores,
      ((List.range cores).map fun pattern : Nat => ({ pattern, width := (max cores 1).log2 } : FixedBits))[i]? =
        some { pattern := i, width := cores.log2 } := fun i hi => by simp [hi, Nat.max_eq_left hcores.pos]
  refine ⟨?_, fun i hi => ?_, fun i hi => ?_⟩
  · rw [Scheme.clients?, Regions.clients, Regions.fixed_of_ofFixed? hr]
    simp
  · -- The sets that the client reaches are the region of its pattern.
    have hregion := Regions.reached_eq_region hsize hr (hpattern i hi)
    have hfit := hfits _ (List.mem_of_getElem? (hpattern i hi))
    have hfinite := FixedBits.finite_region { pattern := i, width := cores.log2 } llc.sets.log2
    refine ⟨hfinite.toFinset, fun set => hfinite.mem_toFinset.trans (Set.ext_iff.1 hregion set).symm, ?_⟩
    have hin : ∀ set ∈ hfinite.toFinset, set < (Shape.ofCounts llc.sets llc.ways llc.block).sets :=
      fun set hset => (hfinite.mem_toFinset.1 hset).1
    rw [hcache, Cache.lineCount_empty hin, ← Set.ncard_eq_toFinset_card _ hfinite, hfit.ncard_region, ← hshare]
    exact congrArg (_ * ·) (Shape.block_ofCounts hblock)
  · rw [Scheme.bytes?, Regions.setsOf?_of_ofFixed? hr (hpattern i hi), hcache, ← hshare]
    exact congrArg some (congrArg (_ * ·) (Shape.block_ofCounts hblock))

/-! ## One cache, divided in every way -/

/-- What is not behind a private level is built as its scheme. -/
theorem exists_flat_of_builds {s : Scenario} (hlevel : s.level = none) (h : s.Builds) :
    ∃ p, s.plan.build = .ok p ∧ s.build = .ok (.flat p) := by
  obtain ⟨p, hp⟩ := (builds_iff_plan hlevel).1 h
  exact ⟨p, hp, Hierarchy.build_eq_ok.2 ⟨p, hp, by rw [hlevel]⟩⟩

/-- Half of a power of two, divided between cores, is half a core's share. -/
theorem two_mul_half_share (hsize : Bits.IsPow2 size) (hcores : Bits.IsPow2 cores) (hle : 2 * cores ≤ size) :
    cores * (size / cores) = size ∧ 2 * (size / 2 / cores) = size / cores := by
  obtain ⟨m, rfl⟩ : 2 * cores ∣ size := (Bits.isPow2_two.mul hcores).dvd hsize hle
  have hshare : 2 * cores * m / cores = 2 * m := by
    rw [Nat.mul_comm 2, Nat.mul_assoc, Nat.mul_div_cancel_left _ hcores.pos]
  have hhalf : 2 * cores * m / 2 / cores = m := by
    rw [Nat.div_div_eq_div_mul, Nat.mul_div_cancel_left _ (Nat.mul_pos Nat.two_pos hcores.pos)]
  rw [hshare, hhalf]
  exact ⟨by ac_rfl, rfl⟩

/-- All schemes over one cache are built exactly if the cache has no fault and each
core can get a set in both halves of it. Then every scheme that divides the cache
has the cores for its clients, each client gets an equal part of the bytes, and
nothing is left over. -/
theorem schemes_share_evenly (hsize : llc.size < Bits.wordSize) (hcores : Bits.IsPow2 cores) (hle : cores ≤ llc.ways) :
    ((∀ s ∈ schemes llc cores, s.Builds) ↔ llc.check = .ok () ∧ 2 * cores ≤ llc.sets) ∧
    ((∀ s ∈ schemes llc cores, s.Builds) →
      (∃ c, (shared llc).build = .ok (.flat (.plain c)) ∧ c.shape.size = llc.size ∧ c.bytesOfLines = llc.size) ∧
      ∀ s ∈ (schemes llc cores).tail, ∃ p, s.build = .ok (.flat p) ∧
        p.GivesEach cores (llc.size / cores) ∧ p.bytesOfClients = llc.size) := by
  have hiff := builds_schemes_iff hsize hcores hle
  refine ⟨hiff, fun hbuilds => ?_⟩
  obtain ⟨hc, hsets⟩ := hiff.1 hbuilds
  obtain ⟨hpow, hways, -⟩ := (Geometry.check_iff_isPow2 hsize).1 hc
  obtain ⟨hall, hhalf⟩ := two_mul_half_share hpow hcores (Nat.le_trans hsets (Nat.div_le_self _ _))
  simp only [schemes, List.forall_mem_cons, List.not_mem_nil, false_implies, implies_true, and_true] at hbuilds
  obtain ⟨hshared, hbuilds⟩ := hbuilds
  have hflat : ∀ s : Scenario, s.level = none → s.Builds →
      (∀ p, s.plan.build = .ok p → p.GivesEach cores (llc.size / cores)) →
      ∃ p, s.build = .ok (.flat p) ∧ p.GivesEach cores (llc.size / cores) ∧ p.bytesOfClients = llc.size := by
    intro s hlevel hs hgives
    obtain ⟨p, hp, hb⟩ := exists_flat_of_builds hlevel hs
    exact ⟨p, hb, hgives p hp, by rw [(hgives p hp).bytesOfClients_eq, hall]⟩
  refine ⟨?_, ?_⟩
  · obtain ⟨p, hp, hb⟩ := exists_flat_of_builds rfl hshared
    obtain ⟨c, hcache, rfl⟩ := mapError_map_eq_ok.1 hp
    obtain ⟨-, rfl⟩ := Cache.ofGeometry?_eq_ok.1 hcache
    exact ⟨_, hb, Geometry.size_ofCounts hc, (Cache.bytesOfLines_empty _).trans (Geometry.size_ofCounts hc)⟩
  · obtain ⟨hw, hslices, hregions, hclusters, hcells⟩ := hbuilds
    simp only [schemes, List.tail_cons, List.forall_mem_cons, List.not_mem_nil, false_implies, implies_true, and_true]
    refine ⟨hflat _ rfl hw fun p hp => givesEach_of_ways hcores hways hle hp,
      hflat _ rfl hslices fun p hp => ?_, hflat _ rfl hregions fun p hp => ?_,
      hflat _ rfl hclusters fun p hp => ?_, hflat _ rfl hcells fun p hp => ?_⟩
    · exact Nat.one_mul (llc.size / cores) ▸ givesEach_of_slices hp
    · exact givesEach_of_regions hsize hcores (by omega) hp
    · rw [← hhalf]
      exact givesEach_of_clusters hcores hways hle hp
    · rw [← hhalf]
      exact givesEach_of_cells hcores.pos.ne' hp

/-- Two cores get 64 of 128 bytes from every scheme; four cores would not get a set
in both halves. -/
theorem schemes_share_evenly_between_two_cores :
    let llc : Geometry := ⟨128, 2, 16⟩
    llc.size < Bits.wordSize ∧ Bits.IsPow2 2 ∧ 2 ≤ llc.ways ∧ (∀ s ∈ schemes llc 2, s.Builds) ∧
      (∃ c, (shared llc).build = .ok (.flat (.plain c)) ∧ c.shape.size = 128 ∧ c.bytesOfLines = 128) ∧
      (∀ s ∈ (schemes llc 2).tail, ∃ p, s.build = .ok (.flat p) ∧ p.GivesEach 2 64 ∧ p.bytesOfClients = 128) ∧
      ¬ ∀ s ∈ schemes { llc with ways := 4 } 4, s.Builds := by
  intro llc
  have hsize : llc.size < Bits.wordSize := by decide
  have hcores : Bits.IsPow2 2 := rfl
  have hle : 2 ≤ llc.ways := by decide
  obtain ⟨hbuilds, hshare⟩ := schemes_share_evenly hsize hcores hle
  have hall := hbuilds.2 ⟨Geometry.check_eq_ok.2 (by decide), by decide⟩
  obtain ⟨hshared, hparts⟩ := hshare hall
  have hpart : llc.size / 2 = 64 := by decide
  rw [hpart] at hparts
  obtain ⟨hfour, -⟩ := @schemes_share_evenly { llc with ways := 4 } 4 hsize rfl (by decide)
  exact ⟨hsize, hcores, hle, hall, hshared, hparts, fun h => absurd (hfour.1 h).2 (by decide)⟩

/-! ## A number of slices for each client -/

/-- Slices, clusters and cells of one size are built without overflow if a word of
32 bits counts what a client owns. -/
theorem inWords_of_owned (hways : llc.ways < Bits.wordSize) (hcores : Bits.IsPow2 cores) (hle : cores ≤ llc.ways)
    (howned : owned < 2 ^ 32) (hsize : size < Bits.wordSize) (total : Nat) :
    (slices llc cores owned size).plan.InWords ∧ (clusters llc cores owned total).plan.InWords ∧
      (cells llc cores owned size).plan.InWords := by
  refine ⟨hsize, ?_, fun row hrow s hs => ?_, fun counts hcounts => ?_⟩
  · show totalShare (List.replicate cores (waysEach llc cores)) < Bits.wordSize
    rw [totalShare_replicate, waysEach, Nat.max_eq_left (Nat.div_pos hle hcores.pos)]
    exact Nat.lt_of_le_of_lt (Nat.mul_div_le _ _) hways
  · obtain rfl := List.eq_of_mem_replicate hrow
    obtain rfl := List.eq_of_mem_replicate hs
    exact hsize
  · obtain rfl := List.eq_of_mem_replicate hcounts
    rwa [totalShare_replicate, Nat.mul_one]

/-- The name of a size in a label does not count. -/
theorem build_sized (s : Scenario) (size : Nat) : (s.sized size).build = s.build := rfl

/-- The three scenarios of a sweep over owned slices that have one slice size are all
built exactly if the slice has no fault and the owned ones are a power of two. Then
each of them has the cores for its clients, and each client gets the bytes of the
slices it owns. And no operation that building consists of overflows. -/
theorem owned_sweep_shares_evenly (hways : llc.ways < Bits.wordSize) (hcores : Bits.IsPow2 cores)
    (hle : cores ≤ llc.ways) (howned : owned < 2 ^ 32) {sizes : List Nat} {m : Nat} (hm : sizes[m]? = some size)
    (hsize : size * cores < Bits.wordSize) :
    let sweep := ownedSweep llc cores owned sizes
    ∃ slices clusters cells, sweep[3 * m]? = some slices ∧ sweep[3 * m + 1]? = some clusters ∧
      sweep[3 * m + 2]? = some cells ∧
      ((∀ s ∈ [slices, clusters, cells], s.Builds) ↔
        Geometry.check { llc with size } = .ok () ∧ Bits.IsPow2 owned) ∧
      ((∀ s ∈ [slices, clusters, cells], s.Builds) →
        ∀ s ∈ [slices, clusters, cells], ∃ p, s.build = .ok (.flat p) ∧ p.GivesEach cores (owned * size)) ∧
      ∀ s ∈ [slices, clusters, cells], s.plan.construct = s.plan.build.mapError BuildError.stop := by
  intro sweep
  have hget : ∀ k < 3, sweep[3 * m + k]? = (ownedSweep llc cores owned [size])[k]? := fun k hk => by
    rw [getElem?_ownedSweep hk, hm]
    rfl
  have hword : size < Bits.wordSize := Nat.lt_of_le_of_lt (Nat.le_mul_of_pos_right _ hcores.pos) hsize
  refine ⟨_, _, _, hget 0 (by decide), hget 1 (by decide), hget 2 (by decide), ?_, fun hbuilds => ?_, ?_⟩
  · have hiff : (∀ s ∈ ownedSweep llc cores owned [size], s.Builds) ↔ _ :=
      builds_ownedSweep_iff (by simpa using hsize) hcores hle
    rwa [List.forall_mem_singleton] at hiff
  · simp only [List.forall_mem_cons, List.not_mem_nil, false_implies, implies_true, and_true, builds_sized_iff,
      build_sized] at hbuilds ⊢
    obtain ⟨hslices, hclusters, hcells⟩ := hbuilds
    obtain ⟨-, -, hc⟩ := builds_slices_iff.1 hslices
    obtain ⟨-, hpow, -⟩ := (Geometry.check_iff_isPow2 (g := { llc with size }) hword).1 hc
    obtain ⟨p, hp, hpb⟩ := exists_flat_of_builds rfl hslices
    obtain ⟨q, hq, hqb⟩ := exists_flat_of_builds rfl hclusters
    obtain ⟨r, hr, hrb⟩ := exists_flat_of_builds rfl hcells
    have hgives := givesEach_of_clusters hcores hpow hle hq
    rw [Nat.mul_div_cancel _ hcores.pos] at hgives
    exact ⟨⟨p, hpb, givesEach_of_slices hp⟩, ⟨q, hqb, hgives⟩, ⟨r, hrb, givesEach_of_cells hcores.pos.ne' hr⟩⟩
  · obtain ⟨hslices, hclusters, hcells⟩ := inWords_of_owned hways hcores hle howned hword (size * cores)
    simp only [List.forall_mem_cons, List.not_mem_nil, false_implies, implies_true, and_true, plan_sized]
    exact ⟨Plan.construct_eq hslices, Plan.construct_eq hclusters, Plan.construct_eq hcells⟩

/-- Two cores with two slices of 64 bytes get 128 bytes each in every way; three
slices each cannot be clusters. -/
theorem owned_sweep_shares_evenly_between_two_cores :
    let llc : Geometry := ⟨0, 2, 16⟩
    let sizes : List Nat := [32, 64]
    llc.ways < Bits.wordSize ∧ Bits.IsPow2 2 ∧ 2 ≤ llc.ways ∧ (2 : Nat) < 2 ^ 32 ∧ sizes[1]? = some 64 ∧
      64 * 2 < Bits.wordSize ∧
      (∃ slices clusters cells : Scenario, (ownedSweep llc 2 2 sizes)[3]? = some slices ∧
        (ownedSweep llc 2 2 sizes)[4]? = some clusters ∧ (ownedSweep llc 2 2 sizes)[5]? = some cells ∧
        ∀ s ∈ [slices, clusters, cells], ∃ p, s.build = .ok (.flat p) ∧ p.GivesEach 2 128) ∧
      ∃ slices clusters cells : Scenario, (ownedSweep llc 2 3 sizes)[3]? = some slices ∧
        (ownedSweep llc 2 3 sizes)[4]? = some clusters ∧ (ownedSweep llc 2 3 sizes)[5]? = some cells ∧
        ¬ ∀ s ∈ [slices, clusters, cells], s.Builds := by
  intro llc sizes
  have hways : llc.ways < Bits.wordSize := by decide
  have hcores : Bits.IsPow2 2 := rfl
  have hle : 2 ≤ llc.ways := by decide
  have hm : sizes[1]? = some 64 := rfl
  have hsize : 64 * 2 < Bits.wordSize := by decide
  obtain ⟨a, b, c, ha, hb, hc, hbuilds, hshare, -⟩ :=
    owned_sweep_shares_evenly hways hcores hle (show 2 < 2 ^ 32 by decide) hm hsize
  obtain ⟨d, e, f, hd, he, hf, hthree, -⟩ :=
    owned_sweep_shares_evenly hways hcores hle (show 3 < 2 ^ 32 by decide) hm hsize
  have hall := hbuilds.2 ⟨Geometry.check_eq_ok.2 (by decide), rfl⟩
  exact ⟨hways, hcores, hle, by decide, hm, hsize, ⟨a, b, c, ha, hb, hc, hshare hall⟩, d, e, f, hd, he, hf,
    fun h => absurd (hthree.1 h).2 (by decide)⟩

end Scenario

end LastLevel
