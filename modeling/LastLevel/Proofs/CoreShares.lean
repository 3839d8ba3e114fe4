import LastLevel.Proofs.Interleaving
import LastLevel.Proofs.Turns
/-!
# Blocks in proportion to cores

A core table cuts the selectors below its total into intervals, one for each entry,
and so as many selectors lead to a cluster as the table has cores there:
`CoreTable.count_cluster?`. The selectors themselves come from a field that has
less than twice as many values as there are selectors, so each selector stands for
one value or for two. Main statement: `Banked.clusters_get_core_shares`.
-/

namespace LastLevel

/-! ## The cores of a table -/

namespace CoreTable

/-- The cores in a cluster, by entries that follow a running total. -/
def coresFrom (cluster : Nat) : Nat → List (Nat × Nat) → Nat
  | _, [] => 0
  | last, (k, upTo) :: rest => (if k = cluster then upTo - last else 0) + coresFrom cluster upTo rest

/-- The cores that a table has in a cluster, over all its entries. -/
def coresIn (t : CoreTable) (cluster : Nat) : Nat := coresFrom cluster 0 t.entries

theorem le_of_checkEntries {client clusters : Nat} {es : List (Nat × Nat)} {last total : Nat}
    (h : checkEntries client clusters last es = .ok total) : last ≤ total := by
  induction es generalizing last with
  | nil =>
    cases h
    exact Nat.le_refl _
  | cons e es ih =>
    obtain ⟨-, hlt, h⟩ := checkEntries_cons_eq_ok.1 h
    exact Nat.le_trans (Nat.le_of_lt hlt) (ih h)

/-- An entry is the first to exceed as many selectors as it adds to the running
total. -/
theorem count_find? {client clusters : Nat} {es : List (Nat × Nat)} {last total : Nat}
    (h : checkEntries client clusters last es = .ok total) (c : Nat) :
    Nat.count (fun v => (es.find? (last + v < ·.2)).map (·.1) = some c) (total - last) = coresFrom c last es := by
  induction es generalizing last with
  | nil => simp [coresFrom]
  | cons e es ih =>
    obtain ⟨k, upTo⟩ := e
    obtain ⟨-, hlt, h⟩ := checkEntries_cons_eq_ok.1 h
    have hle := le_of_checkEntries h
    -- The selectors of this entry, and then those of the entries after it.
    have hsplit : total - last = (upTo - last) + (total - upTo) := by omega
    rw [coresFrom, hsplit, Nat.count_add, ← ih h]
    refine congrArg₂ (· + ·) ?_ (count_congr fun v hv => ?_)
    · have hfirst : ∀ v < upTo - last,
          ((((k, upTo) :: es).find? (last + v < ·.2)).map (·.1) = some c) ↔ k = c := fun v hv => by
        have hv : last + v < upTo := by omega
        simp [hv]
      rw [count_congr (q := fun _ => k = c) hfirst]
      split <;> simp_all
    · have hlater : last + (upTo - last + v) = upTo + v := by omega
      simp [hlater]

/-- As many selectors lead to a cluster as the table has cores there. -/
theorem count_cluster? {t : CoreTable} {client clusters : Nat} (h : t.check client clusters = .ok ()) (c : Nat) :
    Nat.count (fun v => t.cluster? v = some c) t.total = t.coresIn c := by
  have hcount := count_find? (checkEntries_of_check h) c
  simp only [Nat.zero_add, Nat.sub_zero] at hcount
  exact hcount

/-- A cluster has its own count, and no entry if that is zero. -/
theorem coresFrom_entriesFrom_cons (c cluster before n : Nat) (counts : List Nat) :
    coresFrom c before (entriesFrom cluster before (n :: counts)) =
      (if cluster = c then n else 0) + coresFrom c (before + n) (entriesFrom (cluster + 1) (before + n) counts) := by
  cases n with
  | zero => rw [entriesFrom, ite_self, Nat.zero_add, Nat.add_zero]; rfl
  | succ n =>
    rw [entriesFrom, coresFrom, Nat.add_sub_cancel_left]
    exact Nat.succ_ne_zero n

theorem coresFrom_entriesFrom_of_lt {c cluster : Nat} (h : c < cluster) (before : Nat) (counts : List Nat) :
    coresFrom c before (entriesFrom cluster before counts) = 0 := by
  induction counts generalizing cluster before with
  | nil => rfl
  | cons n counts ih => rw [coresFrom_entriesFrom_cons, if_neg (by omega), ih (by omega)]

theorem coresFrom_entriesFrom (j cluster before : Nat) (counts : List Nat) :
    coresFrom (cluster + j) before (entriesFrom cluster before counts) = counts.getD j 0 := by
  induction counts generalizing j cluster before with
  | nil => rfl
  | cons n counts ih =>
    rw [coresFrom_entriesFrom_cons]
    cases j with
    | zero =>
      rw [Nat.add_zero, if_pos rfl, coresFrom_entriesFrom_of_lt (Nat.lt_succ_self _), Nat.add_zero, List.getD_cons_zero]
    | succ j =>
      have hsucc : cluster + (j + 1) = cluster + 1 + j := by omega
      rw [if_neg (by omega), hsucc, ih, Nat.zero_add, List.getD_cons_succ]

theorem coresIn_ofCounts (counts : List Nat) (c : Nat) : (ofCounts counts).coresIn c = counts.getD c 0 := by
  have h := coresFrom_entriesFrom c 0 0 counts
  rwa [Nat.zero_add] at h

/-! ## The selectors of blocks that follow one another -/

theorem total_le_two_pow (t : CoreTable) : t.total ≤ 2 ^ Bits.indexWidth t.total :=
  Bits.indexWidth_le_iff.1 (Nat.le_refl _)

/-- The selection bits have less than twice as many values as there are
selectors. -/
theorem two_pow_lt {t : CoreTable} (h : 0 < t.total) : 2 ^ Bits.indexWidth t.total < 2 * t.total := by
  by_contra hle
  cases hk : Bits.indexWidth t.total with
  | zero =>
    rw [hk, Nat.pow_zero] at hle
    omega
  | succ k =>
    rw [hk, Nat.pow_succ] at hle
    have hk' := Bits.indexWidth_le_iff.2 (by omega : t.total ≤ 2 ^ k)
    omega

variable {t : CoreTable} {offsetBits first : Nat} {addr : Nat → Address}

theorem count_selector (ht : 0 < t.total)
    (h : Consecutive (2 ^ offsetBits) first (2 ^ Bits.indexWidth t.total) addr) (q : Nat → Prop) [DecidablePred q] :
    Nat.count (fun x => q (t.selector (addr x) offsetBits)) (2 ^ Bits.indexWidth t.total) =
      Nat.count q t.total + Nat.count q (2 ^ Bits.indexWidth t.total - t.total) :=
  (h.count_field fun y => q (y % t.total)).trans (count_remainders q t.total_le_two_pow (two_pow_lt ht))

end CoreTable

/-! ## Loads -/

namespace Banked
variable {clients : Nat} {sizes : List (List Nat)} {ways block : Nat} {tables : List CoreTable} {b : Banked}

theorem check_of_ofCells? (h : ofCells? clients sizes ways block tables = .ok b) {i : Nat} {t : CoreTable}
    (ht : tables[i]? = some t) : t.check i sizes.length = .ok () := by
  obtain ⟨⟨hfit, -⟩, -⟩ := ofCells?_eq_ok.1 h
  simpa using checkTables_eq_ok.1 hfit.tables i t ht

theorem holding_of_ofCells? (h : ofCells? clients sizes ways block tables = .ok b) {i : Nat} {t : CoreTable}
    (ht : tables[i]? = some t) : ∃ held, b.holdings[i]? = some held ∧ held.banks.size = sizes.length := by
  obtain ⟨⟨hfit, -⟩, rfl⟩ := ofCells?_eq_ok.1 h
  have hi : i < clients := hfit.tables_length ▸ (List.getElem?_eq_some_iff.1 ht).1
  refine ⟨_, by rw [List.getElem?_toArray, List.getElem?_map, List.getElem?_range hi, Option.map_some], ?_⟩
  rw [List.size_toArray, List.length_map]

theorem route_of_ofCells? (h : ofCells? clients sizes ways block tables = .ok b) {i : Nat} {t : CoreTable}
    (ht : tables[i]? = some t) (banks : Nat) (a : Address) :
    ∃ c < sizes.length, t.cluster? (t.selector a block.log2) = some c ∧ b.division.route i banks a = (c, a) := by
  have htable : tables.toArray[i]? = some t := by rw [List.getElem?_toArray, ht]
  obtain ⟨c, hlt, hc, hcell⟩ := cellOf?_of_check block.log2 htable (check_of_ofCells? h ht) a
  obtain ⟨-, rfl⟩ := ofCells?_eq_ok.1 h
  exact ⟨c, hlt, hc, by rw [Division.route, hcell, Option.getD_some]⟩

theorem bankFor?_of_ofCells? (h : ofCells? clients sizes ways block tables = .ok b) {i : Nat} {t : CoreTable}
    (ht : tables[i]? = some t) {held : Holding} (hheld : b.holdings[i]? = some held) (a : Address) :
    ∃ c < sizes.length, t.cluster? (t.selector a block.log2) = some c ∧ b.bankFor? i a = .ok c ∧
      b.division.route i held.banks.size a = (c, a) := by
  obtain ⟨c, hlt, hc, hroute⟩ := route_of_ofCells? h ht held.banks.size a
  exact ⟨c, hlt, hc, by rw [bankFor?_eq (fresh_of_ofCells? h).sound hheld, hroute], hroute⟩

/-- A cluster serves as many blocks as the selectors that lead to it stand for. -/
theorem load_of_ofCells? (h : ofCells? clients sizes ways block tables = .ok b) {i : Nat} {t : CoreTable}
    (ht : tables[i]? = some t) {first : Nat} {addr : Nat → Address}
    (haddr : Consecutive (2 ^ block.log2) first (2 ^ Bits.indexWidth t.total) addr) (c : Nat) :
    b.load i addr (2 ^ Bits.indexWidth t.total) c = t.coresIn c +
      Nat.count (fun v => t.cluster? v = some c) (2 ^ Bits.indexWidth t.total - t.total) := by
  have hcheck := check_of_ofCells? h ht
  rw [← CoreTable.count_cluster? hcheck, ← CoreTable.count_selector (CoreTable.total_pos_of_check hcheck) haddr, load]
  obtain ⟨held, hheld, -⟩ := holding_of_ofCells? h ht
  refine count_congr fun x _ => ?_
  obtain ⟨d, -, hd, hbank, -⟩ := bankFor?_of_ofCells? h ht hheld (addr x)
  rw [hbank, hd, Except.ok.injEq, Option.some.injEq]

/-- A core table selects a cluster for every address, and to the cell in that cluster
the accesses are routed. Of blocks that follow one another, as many as its selection
bits have values, every selector gets one, and a low one gets two; so a cluster serves
at least as many of them as the client has cores there, at most twice as many, and
exactly as many if the cores are a power of two. A table of core counts has those
cores, and is accepted if there are any. -/
theorem clusters_get_core_shares :
    (∀ clients sizes ways block tables b, ofCells? clients sizes ways block tables = .ok b →
      ((∃ row ∈ sizes, ∃ size ∈ row, size ≠ 0) → 2 ^ block.log2 = block) ∧
      ∀ (i : Nat) (t : CoreTable), tables[i]? = some t →
        let k := Bits.indexWidth t.total
        (∃ held, b.holdings[i]? = some held ∧ held.banks.size = sizes.length ∧
          ∀ a, ∃ c < sizes.length, b.bankFor? i a = .ok c ∧ b.division.route i held.banks.size a = (c, a)) ∧
        ∀ first addr, Consecutive (2 ^ block.log2) first (2 ^ k) addr →
          (∀ v < t.total, Nat.count (fun x => t.selector (addr x) block.log2 = v) (2 ^ k) =
            if v < 2 ^ k - t.total then 2 else 1) ∧
          ∀ c, t.coresIn c ≤ b.load i addr (2 ^ k) c ∧ b.load i addr (2 ^ k) c ≤ 2 * t.coresIn c ∧
            (Bits.IsPow2 t.total → b.load i addr (2 ^ k) c = t.coresIn c)) ∧
    ∀ counts : List Nat,
      (∀ client clusters, (∀ j n : Nat, counts[j]? = some n → n ≠ 0 → j < clusters) →
        ((CoreTable.ofCounts counts).check client clusters = .ok () ↔ ∃ n ∈ counts, n ≠ 0)) ∧
      ∀ c, (CoreTable.ofCounts counts).coresIn c = counts.getD c 0 := by
  refine ⟨fun clients sizes ways block tables b h => ⟨?_, ?_⟩, fun counts => ⟨?_, CoreTable.coresIn_ofCounts counts⟩⟩
  · rintro ⟨row, hrow, size, hsize, h0⟩
    obtain ⟨⟨hfit, -⟩, -⟩ := ofCells?_eq_ok.1 h
    obtain ⟨-, ⟨hblock, -, -⟩, -⟩ := Geometry.check_eq_ok.1 ((hfit.cells row hrow).2 size hsize h0)
    exact hblock
  · intro i t ht k
    have hcheck := check_of_ofCells? h ht
    have hpos := CoreTable.total_pos_of_check hcheck
    have hle : t.total ≤ 2 ^ k := t.total_le_two_pow
    have hlt : 2 ^ k < 2 * t.total := CoreTable.two_pow_lt hpos
    obtain ⟨held, hheld, hsize⟩ := holding_of_ofCells? h ht
    refine ⟨⟨held, hheld, hsize, fun a => ?_⟩, fun first addr haddr => ⟨fun v hv => ?_, fun c => ?_⟩⟩
    · obtain ⟨c, hc, -, hbank⟩ := bankFor?_of_ofCells? h ht hheld a
      exact ⟨c, hc, hbank⟩
    · have hdiv : 2 ^ k / t.total = 1 := Nat.div_eq_of_lt_le (by omega) (by omega)
      have hmod : 2 ^ k % t.total = 2 ^ k - t.total := by
        rw [Nat.mod_eq_sub_mod hle, Nat.mod_eq_of_lt (by omega)]
      refine (haddr.count_field fun y => y % t.total = v).trans ?_
      rw [count_mod hv, hdiv, hmod]
      split <;> rfl
    · rw [load_of_ofCells? h ht haddr c, ← CoreTable.count_cluster? hcheck c]
      refine ⟨Nat.le_add_right _ _, ?_, fun hp => ?_⟩
      · have hmono := Nat.count_monotone (fun v => t.cluster? v = some c) (by omega : 2 ^ k - t.total ≤ t.total)
        rw [Nat.two_mul]
        exact Nat.add_le_add_left hmono _
      · rw [CoreTable.mod_indexWidth hp, Nat.sub_self, Nat.count_zero, Nat.add_zero]
  · intro client clusters hcounts
    exact CoreTable.check_ofCounts_iff client hcounts

/-- One core in cluster 0 and two in cluster 2 are three selectors, and two bits
choose among them: of blocks 5 to 8, which have the fields 1, 2, 3 and 0, cluster
0 serves the last two. -/
theorem clusters_get_core_shares_of_three_cores :
    let sizes := [[64], [0], [64]]
    let t := CoreTable.ofCounts [1, 0, 2]
    let addr : Nat → Address := fun x => UInt64.ofNat (0x50 + 0x10 * x)
    ∃ b, ofCells? 1 sizes 2 16 [t] = .ok b ∧ (∃ row ∈ sizes, ∃ size ∈ row, size ≠ 0) ∧ [t][0]? = some t ∧
      Consecutive (2 ^ 4) 5 (2 ^ 2) addr ∧ ¬ Bits.IsPow2 t.total ∧
      (∃ c < 3, b.bankFor? 0 0x5f = .ok c ∧ b.division.route 0 3 0x5f = (c, 0x5f)) ∧
      Nat.count (fun x => t.selector (addr x) 4 = 0) (2 ^ 2) = 2 ∧
      t.coresIn 2 = 2 ∧ t.coresIn 0 ≤ b.load 0 addr (2 ^ 2) 0 ∧ b.load 0 addr (2 ^ 2) 0 ≤ 2 * t.coresIn 0 ∧
      t.check 0 3 = .ok () := by
  intro sizes t addr
  obtain ⟨hcells, hcounts⟩ := clusters_get_core_shares
  obtain ⟨hcheck, hcores⟩ := hcounts [1, 0, 2]
  have ht : t.check 0 3 = .ok () := (hcheck 0 3 fun j n hj hn => by
    have := (List.getElem?_eq_some_iff.1 hj).1
    simpa using this).2 ⟨1, by decide⟩
  have hfit : CellsFit 1 sizes 2 16 [t] := {
    rows := by decide
    tables_length := rfl
    cells := by
      simp only [Geometry.check_eq_ok]
      decide
    tables := by decide }
  obtain ⟨b, hb⟩ : ∃ b, ofCells? 1 sizes 2 16 [t] = .ok b := ⟨_, ofCells?_eq_ok.2 ⟨⟨hfit, by decide⟩, rfl⟩⟩
  have haddr : Consecutive (2 ^ 4) 5 (2 ^ 2) addr := by
    unfold Consecutive
    decide
  have hblock : Nat.log2 16 = 4 := by decide
  have hwidth : Bits.indexWidth t.total = 2 := by decide
  obtain ⟨-, hclient⟩ := hcells 1 sizes 2 16 [t] b hb
  obtain ⟨⟨held, -, hsize, hreach⟩, hload⟩ := hclient 0 t rfl
  rw [hsize] at hreach
  rw [hblock, hwidth] at hload
  obtain ⟨hselector, hshare⟩ := hload 5 addr haddr
  obtain ⟨hlow, hhigh, -⟩ := hshare 0
  exact ⟨b, hb, by decide, rfl, haddr, by decide, hreach 0x5f, hselector 0 (by decide), hcores 2, hlow, hhigh, ht⟩

end Banked

end LastLevel
