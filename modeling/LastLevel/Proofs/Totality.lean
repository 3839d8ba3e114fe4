import LastLevel.Construction
import LastLevel.Proofs.Offsets
/-!
# Building always comes to an answer

Each operation that building consists of has a result wherever it is reached,
because a check stands on every path to it. So `Plan.construct` is `Plan.build`
(`Plan.construct_eq`) as long as words count the sizes and the sums, with one
exception: the block of a grid without cells is checked nowhere. Whether there is
room for the sets is left out. Main statement: `Plan.constructs_or_refuses`.
-/

namespace LastLevel

/-! ## Operations that have a result -/

namespace Building

variable {α β : Type}

theorem ok_bind (a : α) (f : α → Building β) : ((.ok a : Building α) >>= f) = f a := rfl

theorem error_bind (e : Stop) (f : α → Building β) : ((.error e : Building α) >>= f) = .error e := rfl

theorem checked_ok (a : α) : checked (.ok a) = .ok a := rfl

theorem checked_error (m : Misfit) : (checked (.error m) : Building α) = .error (.refused m) := rfl

theorem demand_of {p : Prop} [Decidable p] (h : p) (m : Misfit) : demand p m = .ok () := if_pos h

theorem demand_of_not {p : Prop} [Decidable p] (h : ¬ p) (m : Misfit) : demand p m = .error (.refused m) := if_neg h

theorem product_of_lt {m n : Nat} (h : m * n < Bits.wordSize) : product m n = .ok (m * n) := if_pos h

theorem difference_of_le {m n : Nat} (h : n ≤ m) : difference m n = .ok (m - n) := if_pos h

theorem quotient_of_pos {m n : Nat} (h : 0 < n) : quotient m n = .ok (m / n) := if_neg (Nat.ne_of_gt h)

theorem remainder_of_pos {m n : Nat} (h : 0 < n) : remainder m n = .ok (m % n) := if_neg (Nat.ne_of_gt h)

theorem logarithm_of_pos {n : Nat} (h : 0 < n) : logarithm n = .ok n.log2 := if_neg (Nat.ne_of_gt h)

theorem shiftRight_of_lt {n places : Nat} (h : places < Bits.wordWidth) : shiftRight n places = .ok (n >>> places) :=
  if_pos h

/-- No sum on the way overflows if the whole does not. -/
theorem sum_of_lt {bound : Nat} {ns : List Nat} (h : totalShare ns < bound) : sum bound ns = .ok (totalShare ns) := by
  have hfrom : ∀ n, n + totalShare ns < bound →
      ns.foldlM (fun n m => if n + m < bound then .ok (n + m) else .error (.undefined .sum)) n =
        (.ok (n + totalShare ns) : Building Nat) := by
    clear h
    induction ns with
    | nil => exact fun n _ => rfl
    | cons m ns ih =>
      intro n h
      rw [totalShare_cons, ← Nat.add_assoc] at h ⊢
      rw [List.foldlM_cons, if_pos (by omega), ok_bind, ih _ h]
  rw [sum, hfrom 0 (by omega), Nat.zero_add]

/-- Constructing elements one after the other, where each is a checked one. -/
theorem mapM_checked {f : α → Building β} {g : α → Except Misfit β} {xs : List α}
    (h : ∀ x ∈ xs, f x = checked (g x)) : xs.mapM f = checked (xs.mapM g) := by
  induction xs with
  | nil => rfl
  | cons x xs ih =>
    obtain ⟨hx, hxs⟩ := List.forall_mem_cons.1 h
    rw [List.mapM_cons, List.mapM_cons, hx, ih hxs]
    cases g x with
    | error m => rfl
    | ok y => cases xs.mapM g <;> rfl

end Building

open Building

/-! ## Caches -/

namespace Geometry

theorem countSets_eq {g : Geometry} (hpos : 0 < g.block * g.ways) (h : g.block * g.ways < Bits.wordSize) :
    g.countSets = .ok g.sets := by
  rw [countSets, product_of_lt h, ok_bind, if_neg (Nat.ne_of_gt hpos), quotient_of_pos hpos]
  rfl

theorem validate_eq (g : Geometry) : g.validate = checked g.check := by
  unfold validate check
  split
  · next h => rw [demand_of_not h, error_bind, checked_error]
  · next h =>
    rw [demand_of (Decidable.of_not_not h), ok_bind]
    split
    · next m hm => rw [hm, checked_error, error_bind]
    · next hc =>
      obtain ⟨hb, hw, hl⟩ := checkSet_eq_ok.1 hc
      have hpos : 0 < g.block * g.ways := Nat.mul_pos hb.pos hw
      rw [hc, checked_ok, ok_bind, product_of_lt hl, ok_bind, remainder_of_pos hpos, countSets_eq hpos hl]
      split
      · next hlarge => rw [demand_of_not (Nat.not_le.2 hlarge), error_bind, checked_error]
      · next hlarge =>
        rw [demand_of (Nat.not_lt.1 hlarge), ok_bind, ok_bind]
        split
        · next hrest => rw [demand_of_not hrest, error_bind, checked_error]
        · next hrest =>
          rw [demand_of (Decidable.of_not_not hrest), ok_bind, ok_bind]
          split
          · next hsets => rw [demand_of_not hsets, checked_error]
          · next hsets => rw [demand_of (Decidable.of_not_not hsets), checked_ok]

end Geometry

namespace Cache

theorem layOut_eq {g : Geometry} (hb : Bits.IsPow2 g.block) (hs : Bits.IsPow2 g.sets) (hw : 0 < g.ways)
    (hset : g.block * g.ways < Bits.wordSize) (hsize : g.size < Bits.wordSize) :
    layOut g = .ok (.empty (.ofCounts g.sets g.ways g.block)) := by
  have hpos : 0 < g.block * g.ways := Nat.mul_pos hb.pos hw
  have hbits := Geometry.log2_add_log2_lt hb hs hw hsize
  rw [layOut, Geometry.countSets_eq hpos hset, ok_bind, logarithm_of_pos hs.pos, ok_bind,
    difference_of_le (by omega), ok_bind, logarithm_of_pos hb.pos, ok_bind, difference_of_le (by omega)]
  rfl

theorem construct_eq {g : Geometry} (h : g.size < Bits.wordSize) : construct g = checked (Cache.ofGeometry? g) := by
  rw [construct, Geometry.validate_eq, Cache.ofGeometry?, Geometry.shape?]
  split
  · next m hm => rw [hm]; rfl
  · next hc =>
    obtain ⟨-, ⟨hb, hw, hset⟩, -, -, hs⟩ := Geometry.check_eq_ok.1 hc
    rw [hc, checked_ok, ok_bind, layOut_eq hb hs hw hset h]
    rfl

/-- Here the check of the whole size stands in the place of a given size. -/
theorem constructSets_eq (sets ways block : Nat) :
    constructSets sets ways block = checked (ofSets? sets ways block) := by
  unfold constructSets ofSets? Shape.ofSets?
  split
  · next hs =>
    rw [demand_of_not hs]
    rfl
  · next hs =>
    have hs := Decidable.of_not_not hs
    rw [demand_of hs, ok_bind]
    split
    · next m hm =>
      rw [hm]
      rfl
    · next hc =>
      obtain ⟨hb, hw, hset⟩ := checkSet_eq_ok.1 hc
      rw [hc, checked_ok, ok_bind, product_of_lt hset, ok_bind]
      split
      · next hlarge =>
        rw [demand_of_not (Nat.not_lt.2 hlarge)]
        rfl
      · next hlarge =>
        let g : Geometry := { size := sets * (block * ways), ways, block }
        have hsets : g.sets = sets := Nat.mul_div_cancel _ (Nat.mul_pos hb.pos hw)
        have hlay : layOut g = _ := layOut_eq hb (by rwa [hsets]) hw hset (Nat.not_le.1 hlarge)
        rw [demand_of (Nat.not_le.1 hlarge), ok_bind, hlay, hsets]
        rfl

end Cache

/-! ## Banks -/

namespace Banked

theorem wayBanks_eq_mapM (sets block : Nat) (ways : List Nat) :
    wayBanks sets block ways = ways.mapM fun w => Cache.ofSets? sets w block := by
  induction ways with
  | nil => rfl
  | cons w ways ih =>
    rw [wayBanks, List.mapM_cons, ih]
    cases Cache.ofSets? sets w block with
    | error m => rfl
    | ok c => cases ways.mapM fun w => Cache.ofSets? sets w block <;> rfl

theorem constructParts_eq {ways : List Nat} (h : totalShare ways < Bits.wordSize) (size block : Nat) :
    constructParts ways size block = checked (divideWays ways size block) := by
  unfold constructParts divideWays
  split
  · next hne =>
    rw [demand_of_not (by simpa using hne)]
    rfl
  · next hne =>
    rw [demand_of hne, ok_bind]
    split
    · next i hi =>
      rw [hi]
      rfl
    · next hi =>
      rw [hi, demandNone, ok_bind, sum_of_lt h, ok_bind]
      dsimp only
      rw [Geometry.validate_eq]
      split
      · next m hm =>
        rw [hm]
        rfl
      · next hc =>
        obtain ⟨-, ⟨hb, hw, hset⟩, -⟩ := Geometry.check_eq_ok.1 hc
        rw [hc, checked_ok, ok_bind, Geometry.countSets_eq (Nat.mul_pos hb.pos hw) hset, ok_bind,
          mapM_checked fun w _ => Cache.constructSets_eq _ w block, wayBanks_eq_mapM]
        cases ways.mapM fun w => Cache.ofSets? _ w block <;> rfl

theorem constructWays_eq {ways : List Nat} (h : totalShare ways < Bits.wordSize) (size block : Nat) :
    constructWays ways size block = checked (ofWays? ways size block) := by
  rw [constructWays, constructParts_eq h, ofWays?]
  cases divideWays ways size block <;> rfl

theorem constructClusters_eq {ways : List Nat} (h : totalShare ways < Bits.wordSize) (clusters size block : Nat) :
    constructClusters clusters ways size block = checked (ofClusters? clusters ways size block) := by
  unfold constructClusters ofClusters?
  split
  · next hn =>
    rw [demand_of_not hn]
    rfl
  · next hn =>
    have hn := Decidable.of_not_not hn
    rw [demand_of hn, ok_bind, constructParts_eq h]
    cases hd : divideWays ways size block with
    | error m => rfl
    | ok p =>
      -- The block was checked with the cache that is divided.
      obtain ⟨⟨-, -, hc⟩, -⟩ := divideWays_eq_ok.1 hd
      have hb : Bits.IsPow2 block := (Geometry.check_eq_ok.1 hc).2.1.1
      rw [checked_ok, ok_bind]
      dsimp only
      rw [logarithm_of_pos hn.pos, ok_bind, logarithm_of_pos hb.pos]
      rfl

theorem constructSlices_eq {slice : Geometry} (h : slice.size < Bits.wordSize) (clients : Nat) (owned : List Nat) :
    constructSlices clients owned slice = checked (ofSlices? clients owned slice) := by
  unfold constructSlices ofSlices?
  split
  · next hl =>
    rw [demand_of_not hl]
    rfl
  · next hl =>
    rw [demand_of (Decidable.of_not_not hl), ok_bind]
    split
    · next h0 =>
      rw [demand_of_not (by simpa using h0)]
      rfl
    · next h0 =>
      rw [demand_of h0, ok_bind]
      split
      · next i hi =>
        rw [hi]
        rfl
      · next hi =>
        rw [hi, demandNone, ok_bind, Cache.construct_eq h]
        cases hc : Cache.ofGeometry? slice with
        | error m => rfl
        | ok c =>
          have hb : Bits.IsPow2 slice.block := (Geometry.check_eq_ok.1 (Cache.ofGeometry?_eq_ok.1 hc).1).2.1.1
          rw [checked_ok, ok_bind, logarithm_of_pos hb.pos]
          rfl

/-! ### Cells -/

theorem constructRow_eq {ways block : Nat} {sizes : List Nat} (h : ∀ size ∈ sizes, size < Bits.wordSize) :
    sizes.mapM (constructCell ways block) = checked (rowCells ways block sizes) := by
  induction sizes with
  | nil => rfl
  | cons size sizes ih =>
    obtain ⟨hsize, hsizes⟩ := List.forall_mem_cons.1 h
    rw [List.mapM_cons, ih hsizes]
    cases size with
    | zero =>
      rw [rowCells]
      cases rowCells ways block sizes <;> rfl
    | succ n =>
      rw [constructCell, if_neg (Nat.succ_ne_zero n), Cache.construct_eq hsize, rowCells]
      · cases Cache.ofGeometry? { size := n + 1, ways, block } with
        | error m => rfl
        | ok c => cases rowCells ways block sizes <;> rfl
      · exact Nat.succ_ne_zero n

theorem constructGrid_eq {clients ways block : Nat} {sizes : List (List Nat)}
    (h : ∀ row ∈ sizes, ∀ size ∈ row, size < Bits.wordSize) (cluster : Nat) :
    constructGrid clients ways block cluster sizes = checked (gridCells clients ways block cluster sizes) := by
  induction sizes generalizing cluster with
  | nil => rfl
  | cons row sizes ih =>
    obtain ⟨hrow, hsizes⟩ := List.forall_mem_cons.1 h
    rw [constructGrid, gridCells]
    split
    · next hl =>
      rw [demand_of_not hl]
      rfl
    · next hl =>
      rw [demand_of (Decidable.of_not_not hl), ok_bind, constructRow_eq hrow, ih hsizes]
      cases rowCells ways block row with
      | error m => rfl
      | ok cells => cases gridCells clients ways block (cluster + 1) sizes <;> rfl

end Banked

/-- A block that no cell checks may be empty, and then it has no offset width. -/
def BuildError.stop : BuildError → Stop
  | misfit cause => .refused cause
  | emptyBlock => .undefined .logarithm

namespace Banked

theorem constructCells_eq {clients ways block : Nat} {sizes : List (List Nat)}
    (h : ∀ row ∈ sizes, ∀ size ∈ row, size < Bits.wordSize) (tables : List CoreTable) :
    constructCells clients sizes ways block tables =
      (ofCells? clients sizes ways block tables).mapError BuildError.stop := by
  unfold constructCells ofCells?
  split
  · next hne =>
    rw [demand_of_not (by simpa using hne)]
    rfl
  · next hne =>
    rw [demand_of hne, ok_bind]
    split
    · next hl =>
      rw [demand_of_not hl]
      rfl
    · next hl =>
      rw [demand_of (Decidable.of_not_not hl), ok_bind, constructGrid_eq h]
      cases gridCells clients ways block 0 sizes with
      | error m => rfl
      | ok grid =>
        rw [checked_ok, ok_bind]
        dsimp only
        cases checkTables grid.length 0 tables with
        | error m => rfl
        | ok u =>
          rw [checked_ok, ok_bind, logarithm]
          dsimp only
          split <;> rfl

end Banked

/-! ## Regions -/

theorem FixedBits.meets_eq {f g : FixedBits} (hf : f.width < Bits.wordWidth) (hg : g.width < Bits.wordWidth) :
    f.meets g = .ok (f.overlaps g) := by
  by_cases hle : f.width ≤ g.width
  · rw [meets, overlaps, if_pos hle, if_pos hle]
    dsimp only
    rw [difference_of_le hle, ok_bind, shiftRight_of_lt (by omega)]
    rfl
  · rw [meets, overlaps, if_neg hle, if_neg hle]
    dsimp only
    rw [difference_of_le (by omega), ok_bind, shiftRight_of_lt (by omega)]
    rfl

namespace Regions

theorem apartFrom_eq {first : Nat} {f : FixedBits} (hf : f.width < Bits.wordWidth) {rest : List FixedBits}
    (hrest : ∀ g ∈ rest, g.width < Bits.wordWidth) (second : Nat) :
    apartFrom first f second rest =
      demandNone ((rest.findIdx? f.overlaps).map (second + ·)) (.overlap first) := by
  induction rest generalizing second with
  | nil => rfl
  | cons g rest ih =>
    obtain ⟨hg, hrest⟩ := List.forall_mem_cons.1 hrest
    rw [apartFrom, FixedBits.meets_eq hf hg, ok_bind, List.findIdx?_cons]
    cases f.overlaps g with
    | true => rfl
    | false =>
      rw [demand_of rfl, ok_bind, ih hrest]
      simp only [Bool.false_eq_true, if_false, Option.map_map, Function.comp_def, Nat.add_right_comm, Nat.add_assoc]

theorem allApart_eq {fixed : List FixedBits} (h : ∀ f ∈ fixed, f.width < Bits.wordWidth) (first : Nat) :
    allApart first fixed = checked (checkOverlaps first fixed) := by
  induction fixed generalizing first with
  | nil => rfl
  | cons f fixed ih =>
    obtain ⟨hf, hrest⟩ := List.forall_mem_cons.1 h
    rw [allApart, checkOverlaps, apartFrom_eq hf hrest, ih hrest]
    cases fixed.findIdx? f.overlaps <;> rfl

theorem construct_eq {g : Geometry} (h : g.size < Bits.wordSize) (clients : Nat) (fixed : List FixedBits) :
    construct clients g fixed = checked (ofFixed? clients g fixed) := by
  unfold construct ofFixed?
  rw [Cache.construct_eq h]
  cases hc : Cache.ofGeometry? g with
  | error m => rfl
  | ok c =>
    obtain ⟨hg, rfl⟩ := Cache.ofGeometry?_eq_ok.1 hc
    obtain ⟨-, ⟨hb, hw, -⟩, -, -, hs⟩ := Geometry.check_eq_ok.1 hg
    have hsets : (Cache.empty (.ofCounts g.sets g.ways g.block)).shape.sets = g.sets := Shape.sets_ofCounts hs
    have hindex : (Cache.empty (.ofCounts g.sets g.ways g.block)).shape.indexBits = g.sets.log2 := rfl
    rw [checked_ok, ok_bind, hsets]
    dsimp only
    rw [hindex]
    split
    · next hl =>
      rw [demand_of_not hl]
      rfl
    · next hl =>
      rw [demand_of (Decidable.of_not_not hl), ok_bind, logarithm_of_pos hs.pos, ok_bind]
      split
      · next m hm =>
        rw [hm]
        rfl
      · next hp =>
        have hbits := Geometry.log2_add_log2_lt hb hs hw h
        -- Shifts stay inside the word, because no pattern is longer than the set index.
        have hwidth : ∀ f ∈ fixed, f.width < Bits.wordWidth := fun f hf => by
          have := (checkPatterns_eq_ok.1 hp f hf).1
          omega
        have hoffset : g.block.log2 ≤ Bits.wordWidth := by omega
        rw [hp, checked_ok, ok_bind, allApart_eq hwidth, logarithm_of_pos hb.pos]
        cases checkOverlaps 0 fixed with
        | error m => rfl
        | ok u =>
          rw [checked_ok, ok_bind, ok_bind, difference_of_le hoffset]
          rfl

end Regions

/-! ## Schemes -/

namespace Plan

/-- The sizes are words, the sums of ways are words, and the sums of core counts
are words of 32 bits. How large the other numbers are does not matter. -/
def InWords : Plan → Prop
  | plain g => g.size < Bits.wordSize
  | way ways _ _ => totalShare ways < Bits.wordSize
  | interNode _ g => g.size < Bits.wordSize
  | intraNode g _ => g.size < Bits.wordSize
  | clusterWay _ ways _ _ => totalShare ways < Bits.wordSize
  | interIntra cells cores _ _ =>
    (∀ row ∈ cells, ∀ size ∈ row, size < Bits.wordSize) ∧ ∀ counts ∈ cores, totalShare counts < 2 ^ 32

theorem mapM_constructTable {cores : List (List Nat)} (h : ∀ counts ∈ cores, totalShare counts < 2 ^ 32) :
    cores.mapM CoreTable.construct = .ok (cores.map .ofCounts) := by
  induction cores with
  | nil => rfl
  | cons counts cores ih =>
    obtain ⟨hcounts, hcores⟩ := List.forall_mem_cons.1 h
    have htotal : sum (Nat.pow 2 32) counts = .ok (totalShare counts) := sum_of_lt hcounts
    rw [List.mapM_cons, CoreTable.construct, htotal, ih hcores]
    rfl

/-- Built operation by operation, a scheme is the same. -/
theorem construct_eq {p : Plan} (h : p.InWords) : p.construct = p.build.mapError BuildError.stop := by
  cases p with
  | plain g =>
    rw [construct, Cache.construct_eq h, build]
    cases Cache.ofGeometry? g <;> rfl
  | way ways size block =>
    rw [construct, Banked.constructWays_eq h, build]
    cases Banked.ofWays? ways size block <;> rfl
  | interNode slices g =>
    rw [construct, Banked.constructSlices_eq h, build]
    cases Banked.ofSlices? slices.length slices g <;> rfl
  | intraNode g fixed =>
    rw [construct, Regions.construct_eq h, build]
    cases Regions.ofFixed? fixed.length g fixed <;> rfl
  | clusterWay clusters ways size block =>
    rw [construct, Banked.constructClusters_eq h, build]
    cases Banked.ofClusters? clusters ways size block <;> rfl
  | interIntra cells cores ways block =>
    rw [construct, mapM_constructTable h.2, ok_bind, Banked.constructCells_eq h.1, build]
    cases Banked.ofCells? cores.length cells ways block (cores.map .ofCounts) <;> rfl

/-- A bare grid is built with any other block. -/
theorem exists_build_of_bare {p : Plan} (h : p.Bare) (hblock : p.block ≠ 0) : ∃ s, p.build = .ok s := by
  cases p with
  | interIntra cells cores ways block =>
    obtain ⟨⟨hne, hcells⟩, hts⟩ := h
    have hfit := Banked.fit_of_no_bytes hne (List.length_map _) hcells hts ways block
    exact ⟨_, map_eq_ok.2 ⟨_, Banked.ofCells?_eq_ok.2 ⟨⟨hfit, hblock⟩, rfl⟩, rfl⟩⟩
  | _ => exact h.elim

/-- Building a description gives a scheme that splits addresses at its block, a
power of two, or refuses the description, exactly if the description is not a
bare grid with another block. No operation is undefined but the logarithm of the
block of a bare grid, where this block is empty; a bare grid with any other
block is built. And what is built operation by operation is what `build` gives.
Room in memory is no operation, and never lacking: this is about the numbers of
a description, not about how many sets a machine can list. -/
theorem constructs_or_refuses {p : Plan} (h : p.InWords) :
    (((∃ s, p.construct = .ok s ∧ s.RoutesBy p.block.log2 ∧ 2 ^ p.block.log2 = p.block) ∨
        ∃ m, p.construct = .error (.refused m)) ↔ (p.Bare → Bits.IsPow2 p.block)) ∧
    (∀ operation, p.construct = .error (.undefined operation) ↔
      operation = .logarithm ∧ p.Bare ∧ p.block = 0) ∧
    (p.Bare → p.block ≠ 0 → ∃ s, p.construct = .ok s ∧ s.RoutesBy p.block.log2) ∧
    p.construct = p.build.mapError BuildError.stop := by
  have heq := construct_eq h
  have hok : ∀ s, p.construct = .ok s ↔ p.build = .ok s := by
    intro s
    rw [heq]
    cases p.build <;> simp [Except.mapError]
  have hundefined : ∀ operation, p.construct = .error (.undefined operation) ↔
      operation = .logarithm ∧ p.Bare ∧ p.block = 0 := by
    intro operation
    rw [heq, ← build_eq_emptyBlock]
    cases hb : p.build with
    | ok s => simp [Except.mapError]
    | error e => cases e <;> simp [Except.mapError, BuildError.stop, eq_comm]
  refine ⟨⟨?_, fun hpow => ?_⟩, hundefined, fun hbare hblock => ?_, heq⟩
  · rintro (⟨s, -, -, hpow⟩ | ⟨m, hm⟩) hbare
    · exact hpow
    · -- A bare grid is not refused.
      by_cases hblock : p.block = 0
      · rw [(hundefined .logarithm).2 ⟨rfl, hbare, hblock⟩] at hm
        cases hm
      · obtain ⟨s, hs⟩ := exists_build_of_bare hbare hblock
        rw [(hok s).2 hs] at hm
        cases hm
  · cases hc : p.construct with
    | ok s =>
      have hs := (hok s).1 hc
      have hblock : Bits.IsPow2 p.block := by
        by_cases hbare : p.Bare
        · exact hpow hbare
        · exact isPow2_block_of_build hs hbare
      exact .inl ⟨s, rfl, Scheme.routesBy_of_build hs, hblock⟩
    | error e =>
      cases e with
      | refused m => exact .inr ⟨m, rfl⟩
      | undefined operation =>
        obtain ⟨-, hbare, hzero⟩ := (hundefined operation).1 hc
        exact absurd hzero (Nat.ne_of_gt (hpow hbare).pos)
  · obtain ⟨s, hs⟩ := exists_build_of_bare hbare hblock
    exact ⟨s, (hok s).2 hs, Scheme.routesBy_of_build hs⟩

/-- A grid of two clusters, in one of which the second client has no bytes. -/
theorem constructs_grid_of_two_clusters :
    let p : Plan := .interIntra [[64, 64], [64, 0]] [[1, 3], [1, 1]] 2 16
    p.InWords ∧ (∃ s, p.construct = .ok s ∧ s.RoutesBy 4 ∧ 2 ^ 4 = p.block) ∧
      ∀ operation, p.construct ≠ .error (.undefined operation) := by
  intro p
  have hwords : p.InWords := ⟨by decide, by decide⟩
  have hnonempty : p.block ≠ 0 := by decide
  have hlog : p.block.log2 = 4 := by decide
  obtain ⟨hiff, hundefined, -, heq⟩ := constructs_or_refuses hwords
  obtain ⟨s, hs⟩ : ∃ s, p.build = .ok s := ⟨_, rfl⟩
  refine ⟨hwords, ?_, fun operation h => hnonempty ((hundefined operation).1 h).2.2⟩
  rcases hiff.2 fun _ => by decide with hok | ⟨m, hm⟩
  · rwa [hlog] at hok
  · rw [hs] at heq
    cases heq.symm.trans hm

/-- The block of a grid with one empty cell is checked nowhere. Without bytes it
has no logarithm; with 48 bytes it is accepted, and addresses are split at 32. -/
theorem constructs_bare_grid :
    let p (block : Nat) : Plan := .interIntra [[0]] [[1]] 1 block
    (∀ block, (p block).InWords) ∧
      (p 0).construct = .error (.undefined .logarithm) ∧ (p 0).build = .error .emptyBlock ∧
      ∃ s, (p 48).construct = .ok s ∧ (p 48).build = .ok s ∧ s.RoutesBy 5 ∧ ¬ Bits.IsPow2 48 := by
  intro p
  have hlog : (p 48).block.log2 = 5 := by decide
  have hroutes : ∀ s, (p 48).build = .ok s → s.RoutesBy 5 := fun s hs => hlog ▸ Scheme.routesBy_of_build hs
  refine ⟨fun block => ⟨by decide, by decide⟩, rfl, rfl, _, rfl, rfl, hroutes _ rfl, by decide⟩

end Plan

end LastLevel
