import LastLevel.Proofs.Interleaving
/-!
# The block that routing uses

A scheme splits addresses in many places: each of its caches takes off an offset,
and so does the choice of a bank. `Scheme.RoutesBy` says that all of them take off
the same number of bits. Every scheme is built so (`Scheme.routesBy_of_build`)
with the offset bits of the block in its description, and stays so
(`Scheme.RoutesBy.touch`). The block is a power of two as soon as one cache is
built, since every cache checks it (`Plan.isPow2_block_of_build`); only a grid
without a single cell has none to check it (`Plan.Bare`), and so only there an
empty block is not refused (`Plan.build_eq_emptyBlock`).
-/

namespace LastLevel

/-! ## Where an address is split -/

/-- The choice of a bank takes so many offset bits off an address, if it looks at
the address. -/
def Division.RoutesBy (offsetBits : Nat) : Division → Prop
  | ways _ => True
  | slices o _ => o = offsetBits
  | clusters o _ => o = offsetBits
  | cells o _ _ => o = offsetBits

/-- All splits of addresses in a scheme with banks take off so many offset bits. -/
structure Banked.RoutesBy (offsetBits : Nat) (b : Banked) : Prop where
  division : b.division.RoutesBy offsetBits
  bank : ∀ (i : Nat) (h : Holding), b.holdings[i]? = some h →
    ∀ (j : Nat) (c : Cache), h.bank? j = some c → c.shape.offsetBits = offsetBits

/-- All splits of addresses in a scheme take off so many offset bits. -/
def Scheme.RoutesBy (offsetBits : Nat) : Scheme → Prop
  | plain c => c.shape.offsetBits = offsetBits
  | banked b => b.RoutesBy offsetBits
  | regions r => r.cache.shape.offsetBits = offsetBits

/-- The block size of a description. -/
def Plan.block : Plan → Nat
  | plain g => g.block
  | way _ _ block => block
  | interNode _ g => g.block
  | intraNode g _ => g.block
  | clusterWay _ _ _ block => block
  | interIntra _ _ _ block => block

/-! ## Accesses keep the splits -/

theorem Banked.RoutesBy.touch {offsetBits : Nat} {b : Banked} (hb : b.RoutesBy offsetBits) (client : Nat)
    (a : Address) (kind : AccessKind) : (b.touch client a kind).RoutesBy offsetBits := by
  refine ⟨hb.division, fun i h hi => ?_⟩
  rw [getElem?_touch] at hi
  split at hi
  · next he =>
    subst he
    obtain ⟨h, hh, rfl⟩ := Option.map_eq_some_iff.1 hi
    intro j c hc
    generalize (b.division.route client h.banks.size a).1 = i at hc
    cases hbank : h.bank? i with
    | none =>
      rw [Holding.touch_of_none hbank] at hc
      exact hb.bank client h hh j c hc
    | some d =>
      rw [Holding.bank?_touch hbank] at hc
      split at hc
      · obtain rfl := Option.some.inj hc
        exact hb.bank client h hh i d hbank
      · exact hb.bank client h hh j c hc
  · exact hb.bank i h hi

theorem Scheme.RoutesBy.touch {offsetBits : Nat} {s : Scheme} (h : s.RoutesBy offsetBits) (client : Nat)
    (a : Address) (kind : AccessKind) : (s.touch client a kind).RoutesBy offsetBits := by
  cases s with
  | plain c => exact h
  | banked b => exact Banked.RoutesBy.touch h client a kind
  | regions r =>
    show (r.touch client a kind).cache.shape.offsetBits = offsetBits
    unfold Regions.touch
    split <;> exact h

/-! ## Every scheme is built with one split -/

namespace Banked

/-- Clients that hold copies of caches with one offset width. -/
theorem routesBy_of_copies {offsetBits : Nat} {d : Division} (hd : d.RoutesBy offsetBits) {holdings : List Holding}
    (h : ∀ x ∈ holdings, ∃ n c, x = { banks := Array.replicate n (some c) } ∧ c.shape.offsetBits = offsetBits) :
    RoutesBy offsetBits { division := d, holdings := holdings.toArray } := by
  refine ⟨hd, fun i x hx j c hc => ?_⟩
  rw [List.getElem?_toArray] at hx
  obtain ⟨n, e, rfl, he⟩ := h x (List.mem_of_getElem? hx)
  simp only [Holding.bank?, Array.getElem?_replicate] at hc
  split at hc
  · obtain rfl : e = c := by simpa using hc
    exact he
  · simp at hc

/-- The banks of a cache whose ways are divided have the block of the cache. -/
theorem offsetBits_of_divideWays {ways : List Nat} {size block sets : Nat} {cs : List Cache}
    (h : divideWays ways size block = .ok (sets, cs)) : ∀ c ∈ cs, c.shape.offsetBits = block.log2 := by
  obtain ⟨-, -, -, rfl⟩ := divideWays_eq_ok.1 h
  intro c hc
  obtain ⟨w, -, rfl⟩ := List.mem_map.1 hc
  rfl

theorem routesBy_of_ofWays? {ways : List Nat} {size block : Nat} {b : Banked} (h : ofWays? ways size block = .ok b) :
    b.RoutesBy block.log2 := by
  obtain ⟨sets, cs, hd, rfl⟩ := ofWays?_eq_ok.1 h
  refine routesBy_of_copies ?_ fun x hx => ?_
  · trivial
  · obtain ⟨c, hc, rfl⟩ := List.mem_map.1 hx
    exact ⟨1, c, rfl, offsetBits_of_divideWays hd c hc⟩

theorem routesBy_of_ofClusters? {n : Nat} {ways : List Nat} {size block : Nat} {b : Banked}
    (h : ofClusters? n ways size block = .ok b) : b.RoutesBy block.log2 := by
  obtain ⟨-, sets, cs, hd, rfl⟩ := ofClusters?_eq_ok.1 h
  refine routesBy_of_copies ?_ fun x hx => ?_
  · rfl
  · obtain ⟨c, hc, rfl⟩ := List.mem_map.1 hx
    exact ⟨n, c, rfl, offsetBits_of_divideWays hd c hc⟩

theorem routesBy_of_ofSlices? {clients : Nat} {owned : List Nat} {slice : Geometry} {b : Banked}
    (h : ofSlices? clients owned slice = .ok b) : b.RoutesBy slice.block.log2 := by
  obtain ⟨-, rfl⟩ := ofSlices?_eq_ok.1 h
  refine routesBy_of_copies ?_ fun x hx => ?_
  · rfl
  · obtain ⟨n, -, rfl⟩ := List.mem_map.1 hx
    exact ⟨n, _, rfl, rfl⟩

theorem routesBy_of_ofCells? {clients : Nat} {sizes : List (List Nat)} {ways block : Nat} {tables : List CoreTable}
    {b : Banked} (h : ofCells? clients sizes ways block tables = .ok b) : b.RoutesBy block.log2 := by
  obtain ⟨-, rfl⟩ := ofCells?_eq_ok.1 h
  refine ⟨rfl, fun i x hx j c hc => ?_⟩
  simp only [List.getElem?_toArray, List.getElem?_map, Option.map_eq_some_iff] at hx
  obtain ⟨k, -, rfl⟩ := hx
  simp only [Holding.bank?, List.getElem?_toArray, List.getElem?_map, Option.join_eq_some_iff,
    Option.map_eq_some_iff] at hc
  obtain ⟨row, -, size, -, hcell⟩ := hc
  obtain ⟨-, rfl⟩ := cell?_eq_some_iff.1 hcell
  rfl

end Banked

theorem Scheme.routesBy_of_build {p : Plan} {s : Scheme} (h : p.build = .ok s) : s.RoutesBy p.block.log2 := by
  cases p with
  | plain g =>
    obtain ⟨c, hc, rfl⟩ := mapError_map_eq_ok.1 h
    obtain ⟨-, rfl⟩ := Cache.ofGeometry?_eq_ok.1 hc
    rfl
  | way ways size block =>
    obtain ⟨b, hb, rfl⟩ := mapError_map_eq_ok.1 h
    exact Banked.routesBy_of_ofWays? hb
  | interNode slices g =>
    obtain ⟨b, hb, rfl⟩ := mapError_map_eq_ok.1 h
    exact Banked.routesBy_of_ofSlices? hb
  | intraNode g fixed =>
    obtain ⟨r, hr, rfl⟩ := mapError_map_eq_ok.1 h
    obtain ⟨-, rfl⟩ := Regions.ofFixed?_eq_ok.1 hr
    rfl
  | clusterWay clusters ways size block =>
    obtain ⟨b, hb, rfl⟩ := mapError_map_eq_ok.1 h
    exact Banked.routesBy_of_ofClusters? hb
  | interIntra cells cores ways block =>
    obtain ⟨b, hb, rfl⟩ := map_eq_ok.1 h
    exact Banked.routesBy_of_ofCells? hb

/-! ## The block is checked with the first cache -/

/-- A grid that gives no client any bytes, and has no other fault. -/
def Plan.Bare : Plan → Prop
  | interIntra cells cores _ _ =>
    (cells ≠ [] ∧ ∀ row ∈ cells, row.length = cores.length ∧ ∀ size ∈ row, size = 0) ∧
      Banked.checkTables cells.length 0 (cores.map .ofCounts) = .ok ()
  | _ => False

theorem Plan.isPow2_block_of_build {p : Plan} {s : Scheme} (h : p.build = .ok s) (hp : ¬ p.Bare) :
    Bits.IsPow2 p.block := by
  cases p with
  | plain g =>
    obtain ⟨c, hc, -⟩ := mapError_map_eq_ok.1 h
    exact (Geometry.check_eq_ok.1 (Cache.ofGeometry?_eq_ok.1 hc).1).2.1.1
  | way ways size block =>
    obtain ⟨b, hb, -⟩ := mapError_map_eq_ok.1 h
    obtain ⟨sets, cs, hd, -⟩ := Banked.ofWays?_eq_ok.1 hb
    exact (Geometry.check_eq_ok.1 (Banked.divideWays_eq_ok.1 hd).1.2.2).2.1.1
  | interNode slices g =>
    obtain ⟨b, hb, -⟩ := mapError_map_eq_ok.1 h
    exact (Geometry.check_eq_ok.1 (Banked.ofSlices?_eq_ok.1 hb).1.2.2.2).2.1.1
  | intraNode g fixed =>
    obtain ⟨r, hr, -⟩ := mapError_map_eq_ok.1 h
    exact (Geometry.check_eq_ok.1 (Regions.ofFixed?_eq_ok.1 hr).1.1).2.1.1
  | clusterWay clusters ways size block =>
    obtain ⟨b, hb, -⟩ := mapError_map_eq_ok.1 h
    obtain ⟨-, sets, cs, hd, -⟩ := Banked.ofClusters?_eq_ok.1 hb
    exact (Geometry.check_eq_ok.1 (Banked.divideWays_eq_ok.1 hd).1.2.2).2.1.1
  | interIntra cells cores ways block =>
    obtain ⟨b, hb, -⟩ := map_eq_ok.1 h
    obtain ⟨⟨hfit, -⟩, -⟩ := Banked.ofCells?_eq_ok.1 hb
    -- Some cell has bytes, or else the grid would be bare.
    by_cases hzero : ∀ row ∈ cells, ∀ size ∈ row, size = 0
    · exact absurd ⟨⟨hfit.rows, fun row hrow => ⟨(hfit.cells row hrow).1, hzero row hrow⟩⟩, hfit.tables⟩ hp
    · push Not at hzero
      obtain ⟨row, hrow, size, hsize, hpos⟩ := hzero
      exact (Geometry.check_eq_ok.1 ((hfit.cells row hrow).2 size hsize hpos)).2.1.1

/-- A misfit is not an empty block. -/
theorem mapError_misfit_ne_emptyBlock {α : Type} (x : Except Misfit α) :
    x.mapError BuildError.misfit ≠ .error .emptyBlock := by
  cases x <;> simp [Except.mapError]

/-- A block is empty without being refused exactly if no cell checks it. -/
theorem Plan.build_eq_emptyBlock {p : Plan} : p.build = .error .emptyBlock ↔ p.Bare ∧ p.block = 0 := by
  cases p with
  | interIntra cells cores ways block =>
    have hbuild : (interIntra cells cores ways block).build = .error .emptyBlock ↔
        Banked.ofCells? cores.length cells ways block (cores.map .ofCounts) = .error .emptyBlock := by
      rw [build]
      cases Banked.ofCells? cores.length cells ways block (cores.map .ofCounts) <;> simp [Except.map]
    rw [hbuild, Banked.ofCells?_eq_emptyBlock]
    constructor
    · rintro ⟨hfit, h0⟩
      -- No cell with bytes accepts an empty block.
      have hzero : ∀ row ∈ cells, ∀ size ∈ row, size = 0 := fun row hrow size hsize => by
        by_contra hpos
        have hb := (Geometry.check_eq_ok.1 ((hfit.cells row hrow).2 size hsize hpos)).2.1.1
        exact absurd h0 (Nat.ne_of_gt hb.pos)
      exact ⟨⟨⟨hfit.rows, fun row hrow => ⟨(hfit.cells row hrow).1, hzero row hrow⟩⟩, hfit.tables⟩, h0⟩
    · rintro ⟨⟨⟨hne, hcells⟩, hts⟩, h0⟩
      exact ⟨Banked.fit_of_no_bytes hne (List.length_map _) hcells hts ways block, h0⟩
  | _ => exact ⟨fun h => (mapError_misfit_ne_emptyBlock _ h).elim, fun h => h.1.elim⟩

end LastLevel
