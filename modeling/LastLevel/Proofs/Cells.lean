import LastLevel.Proofs.Admission
/-!
# Which grids are built

A grid of cells is built exactly if every row has a cell for every client, every
cell that has bytes is a cache without fault, and no core table has a fault:
`gridCells_eq_ok`, `checkTables_eq_ok`, and together `ofCells?_eq_ok`. A table
of core counts in clusters that exist has no fault exactly if it counts cores at
all: `CoreTable.check_ofCounts_iff`.
-/

namespace LastLevel

/-! ## Core tables -/

namespace CoreTable

/-- Running totals grow, and end at the sum of the counts. -/
theorem checkEntries_entriesFrom (client : Nat) {clusters cluster : Nat} {counts : List Nat}
    (h : ∀ j n : Nat, counts[j]? = some n → n ≠ 0 → cluster + j < clusters) (before : Nat) :
    checkEntries client clusters before (entriesFrom cluster before counts) = .ok (before + totalShare counts) := by
  induction counts generalizing cluster before with
  | nil => rfl
  | cons n counts ih =>
    have hrest : ∀ j m : Nat, counts[j]? = some m → m ≠ 0 → cluster + 1 + j < clusters := fun j m hj hm => by
      have := h (j + 1) m hj hm
      omega
    cases n with
    | zero =>
      rw [entriesFrom, ih hrest, totalShare_cons, Nat.zero_add]
    | succ n =>
      have hcluster : cluster + 0 < clusters := h 0 (n + 1) rfl (Nat.succ_ne_zero n)
      rw [entriesFrom, checkEntries, if_neg (by omega), if_neg (by omega), ih hrest, totalShare_cons, Nat.add_assoc]
      exact Nat.succ_ne_zero n

theorem entriesFrom_ne_nil {counts : List Nat} (h : totalShare counts ≠ 0) (cluster before : Nat) :
    entriesFrom cluster before counts ≠ [] := by
  induction counts generalizing cluster with
  | nil => exact absurd rfl h
  | cons n counts ih =>
    cases n with
    | zero =>
      rw [totalShare_cons, Nat.zero_add] at h
      exact ih h (cluster + 1)
    | succ n => simp [entriesFrom]

/-- Core counts in clusters that exist make a table without fault exactly if there
are cores. -/
theorem check_ofCounts_iff (client : Nat) {clusters : Nat} {counts : List Nat}
    (h : ∀ j n : Nat, counts[j]? = some n → n ≠ 0 → j < clusters) :
    (ofCounts counts).check client clusters = .ok () ↔ ∃ n ∈ counts, n ≠ 0 := by
  have htotal : (ofCounts counts).total = totalShare counts := rfl
  by_cases hzero : totalShare counts = 0
  · rw [check, if_pos (.inl hzero)]
    have hcounts := totalShare_eq_zero_iff.1 hzero
    simp only [reduceCtorEq, false_iff, not_exists, not_and, Decidable.not_not]
    exact hcounts
  · have hentries : checkEntries client clusters 0 (ofCounts counts).entries = .ok (totalShare counts) := by
      rw [ofCounts, checkEntries_entriesFrom client (by simpa using h), Nat.zero_add]
    rw [check, if_neg (by simpa [ofCounts, hzero] using entriesFrom_ne_nil hzero 0 0), hentries]
    simp only [htotal, ne_eq, not_true_eq_false, if_false, true_iff]
    simpa using mt totalShare_eq_zero_iff.2 hzero

theorem total_pos_of_check {t : CoreTable} {client clusters : Nat} (h : t.check client clusters = .ok ()) :
    0 < t.total := by
  unfold check at h
  split at h
  · cases h
  · next hz => exact Nat.pos_of_ne_zero fun h0 => hz (.inl h0)

end CoreTable

/-! ## Cells -/

namespace Banked

/-- The cell of a client that gets so many bytes in a cluster. -/
def cell? (size ways block : Nat) : Option Cache :=
  if size = 0 then none else some (.empty (.ofCounts (Geometry.sets { size, ways, block }) ways block))

theorem cell?_eq_some_iff {size ways block : Nat} {c : Cache} :
    cell? size ways block = some c ↔
      size ≠ 0 ∧ c = .empty (.ofCounts (Geometry.sets { size, ways, block }) ways block) := by
  unfold cell?
  split <;> simp_all [eq_comm]

theorem rowCells_eq_ok {ways block : Nat} {sizes : List Nat} {row : List (Option Cache)} :
    rowCells ways block sizes = .ok row ↔
      (∀ size ∈ sizes, size ≠ 0 → Geometry.check { size, ways, block } = .ok ()) ∧
        row = sizes.map fun size => cell? size ways block := by
  induction sizes generalizing row with
  | nil => simp [rowCells, eq_comm]
  | cons size sizes ih =>
    rw [List.forall_mem_cons, List.map_cons]
    cases size with
    | zero =>
      rw [rowCells, map_eq_ok]
      simp only [ih, ne_eq, not_true_eq_false, false_implies, true_and]
      constructor
      · rintro ⟨_, ⟨hall, rfl⟩, rfl⟩
        exact ⟨hall, rfl⟩
      · rintro ⟨hall, rfl⟩
        exact ⟨_, ⟨hall, rfl⟩, rfl⟩
    | succ n =>
      simp only [rowCells]
      split
      · next m hm =>
        simp only [reduceCtorEq, false_iff]
        rintro ⟨⟨hc, -⟩, -⟩
        rw [Cache.ofGeometry?_eq_ok.2 ⟨hc (Nat.succ_ne_zero n), rfl⟩] at hm
        cases hm
      · next c hc =>
        obtain ⟨hg, rfl⟩ := Cache.ofGeometry?_eq_ok.1 hc
        rw [map_eq_ok]
        simp only [ih]
        constructor
        · rintro ⟨_, ⟨hall, rfl⟩, rfl⟩
          exact ⟨⟨fun _ => hg, hall⟩, rfl⟩
        · rintro ⟨⟨-, hall⟩, rfl⟩
          exact ⟨_, ⟨hall, rfl⟩, rfl⟩

theorem gridCells_eq_ok {clients ways block cluster : Nat} {sizes : List (List Nat)}
    {grid : List (List (Option Cache))} :
    gridCells clients ways block cluster sizes = .ok grid ↔
      (∀ row ∈ sizes, row.length = clients ∧
        ∀ size ∈ row, size ≠ 0 → Geometry.check { size, ways, block } = .ok ()) ∧
        grid = sizes.map fun row => row.map fun size => cell? size ways block := by
  induction sizes generalizing cluster grid with
  | nil => simp [gridCells, eq_comm]
  | cons sizes rest ih =>
    rw [List.forall_mem_cons, List.map_cons, gridCells]
    split
    · next hl => simp [hl]
    · next hl =>
      split
      · next m hm =>
        simp only [reduceCtorEq, false_iff]
        rintro ⟨⟨⟨-, hc⟩, -⟩, -⟩
        rw [rowCells_eq_ok.2 ⟨hc, rfl⟩] at hm
        cases hm
      · next row hr =>
        obtain ⟨hc, rfl⟩ := rowCells_eq_ok.1 hr
        rw [map_eq_ok]
        simp only [ih]
        constructor
        · rintro ⟨_, ⟨hall, rfl⟩, rfl⟩
          exact ⟨⟨⟨Decidable.of_not_not hl, hc⟩, hall⟩, rfl⟩
        · rintro ⟨⟨-, hall⟩, rfl⟩
          exact ⟨_, ⟨hall, rfl⟩, rfl⟩

theorem check_of_checkTables {clusters client : Nat} {ts : List CoreTable}
    (h : checkTables clusters client ts = .ok ()) {i : Nat} {t : CoreTable} (ht : ts[i]? = some t) :
    t.check (client + i) clusters = .ok () := by
  induction ts generalizing client i with
  | nil => simp at ht
  | cons u ts ih =>
    unfold checkTables at h
    split at h
    · cases h
    · next hu =>
      cases i with
      | zero =>
        obtain rfl : u = t := by simpa using ht
        exact hu
      | succ i =>
        rw [Nat.add_comm i, ← Nat.add_assoc]
        exact ih h (by simpa using ht)

theorem checkTables_eq_ok {clusters client : Nat} {ts : List CoreTable} :
    checkTables clusters client ts = .ok () ↔
      ∀ (i : Nat) (t : CoreTable), ts[i]? = some t → t.check (client + i) clusters = .ok () := by
  refine ⟨fun h i t ht => check_of_checkTables h ht, fun h => ?_⟩
  induction ts generalizing client with
  | nil => rfl
  | cons t ts ih =>
    have hfirst : t.check client clusters = .ok () := h 0 t rfl
    rw [checkTables, hfirst]
    refine ih fun i u hu => ?_
    rw [Nat.add_right_comm, Nat.add_assoc]
    exact h (i + 1) u hu

/-- Nothing in the description of a grid is refused. -/
structure CellsFit (clients : Nat) (sizes : List (List Nat)) (ways block : Nat) (tables : List CoreTable) : Prop where
  rows : sizes ≠ []
  tables_length : tables.length = clients
  cells : ∀ row ∈ sizes, row.length = clients ∧
    ∀ size ∈ row, size ≠ 0 → Geometry.check { size, ways, block } = .ok ()
  tables : checkTables sizes.length 0 tables = .ok ()

variable {clients : Nat} {sizes : List (List Nat)} {ways block : Nat} {tables : List CoreTable}

/-- If nothing is refused, only the block can still be empty. -/
theorem ofCells?_of_fit (h : CellsFit clients sizes ways block tables) :
    ofCells? clients sizes ways block tables =
      if block = 0 then .error .emptyBlock else .ok {
        division := .cells block.log2 sizes.length tables.toArray
        holdings := ((List.range clients).map fun i =>
          { banks := (sizes.map fun row => (row.map fun size => cell? size ways block)[i]?.join).toArray }).toArray
      } := by
  unfold ofCells?
  rw [if_neg h.rows, if_neg (by simpa using h.tables_length), gridCells_eq_ok.2 ⟨h.cells, rfl⟩]
  dsimp only
  rw [List.length_map, h.tables]
  simp only [List.map_map, Function.comp_def]

theorem fit_of_ofCells? (h : ∀ m, ofCells? clients sizes ways block tables ≠ .error (.misfit m)) :
    CellsFit clients sizes ways block tables := by
  unfold ofCells? at h
  split at h
  · exact absurd rfl (h _)
  · next hne =>
    split at h
    · exact absurd rfl (h _)
    · next hlen =>
      split at h
      · exact absurd rfl (h _)
      · next grid hg =>
        obtain ⟨hcells, rfl⟩ := gridCells_eq_ok.1 hg
        split at h
        · exact absurd rfl (h _)
        · next hts =>
          rw [List.length_map] at hts
          exact ⟨hne, Decidable.of_not_not hlen, hcells, hts⟩

theorem ofCells?_eq_ok {b : Banked} :
    ofCells? clients sizes ways block tables = .ok b ↔
      (CellsFit clients sizes ways block tables ∧ block ≠ 0) ∧
      b = {
        division := .cells block.log2 sizes.length tables.toArray
        holdings := ((List.range clients).map fun i =>
          { banks := (sizes.map fun row => (row.map fun size => cell? size ways block)[i]?.join).toArray }).toArray
      } := by
  constructor
  · intro h
    have hfit : CellsFit clients sizes ways block tables := fit_of_ofCells? fun m hm => by rw [h] at hm; cases hm
    rw [ofCells?_of_fit hfit] at h
    split at h
    · cases h
    · next hne =>
      cases h
      exact ⟨⟨hfit, hne⟩, rfl⟩
  · rintro ⟨⟨hfit, hne⟩, rfl⟩
    rw [ofCells?_of_fit hfit, if_neg hne]

theorem ofCells?_eq_emptyBlock :
    ofCells? clients sizes ways block tables = .error .emptyBlock ↔
      CellsFit clients sizes ways block tables ∧ block = 0 := by
  constructor
  · intro h
    have hfit : CellsFit clients sizes ways block tables := fit_of_ofCells? fun m hm => by rw [h] at hm; cases hm
    rw [ofCells?_of_fit hfit] at h
    split at h
    · next h0 => exact ⟨hfit, h0⟩
    · cases h
  · rintro ⟨hfit, h0⟩
    rw [ofCells?_of_fit hfit, if_pos h0]

/-- Cells without bytes fit with any block. -/
theorem fit_of_no_bytes (hrows : sizes ≠ []) (htables : tables.length = clients)
    (hcells : ∀ row ∈ sizes, row.length = clients ∧ ∀ size ∈ row, size = 0)
    (hchecks : checkTables sizes.length 0 tables = .ok ()) (ways block : Nat) :
    CellsFit clients sizes ways block tables :=
  ⟨hrows, htables, fun row hrow => ⟨(hcells row hrow).1, fun size hsize h0 => absurd ((hcells row hrow).2 size hsize) h0⟩,
    hchecks⟩

end Banked

end LastLevel
