import LastLevel.Bits
import LastLevel.Client
import LastLevel.Misfit
/-!
# Cores per cluster

A `CoreTable` spreads one client over clusters in proportion to the cores it
has in each: the running totals of its core counts cut the selectors below the
total into one interval per cluster. `check` finds the first fault of a table;
`find?_of_check` says that a table without fault sends every selector below its
total to one of its clusters.
-/

namespace LastLevel

/-- The clusters of one client, each with the number of the client's cores up
to and including it. -/
structure CoreTable where
  total : Nat
  entries : List (Nat × Nat)
deriving DecidableEq, Repr

namespace CoreTable

/-- The entries for core counts of clusters from `cluster` on, after `before`
cores; a cluster without cores has none. -/
def entriesFrom (cluster before : Nat) : List Nat → List (Nat × Nat)
  | [] => []
  | 0 :: counts => entriesFrom (cluster + 1) before counts
  | count :: counts => (cluster, before + count) :: entriesFrom (cluster + 1) (before + count) counts

def ofCounts (counts : List Nat) : CoreTable :=
  { total := totalShare counts, entries := entriesFrom 0 0 counts }

/-- The first cluster whose running total exceeds the selector. -/
def cluster? (t : CoreTable) (selector : Nat) : Option Nat :=
  (t.entries.find? (selector < ·.2)).map (·.1)

/-- The selector of a block number: as many of its low bits as number the
cores, taken modulo the cores. -/
def selector (t : CoreTable) (a : Address) (offsetBits : Nat) : Nat :=
  Bits.field a.toNat offsetBits (Bits.indexWidth t.total) % t.total

/-- The first fault among entries that follow a running total, and the running
total they end at. -/
def checkEntries (client clusters : Nat) : Nat → List (Nat × Nat) → Except Misfit Nat
  | last, [] => .ok last
  | last, (cluster, upTo) :: rest =>
    if clusters ≤ cluster then .error (.unknownCluster client cluster clusters)
    else if upTo ≤ last then .error (.notIncreasing client)
    else checkEntries client clusters upTo rest

/-- The first fault of the table of a client among `clusters` clusters. -/
def check (t : CoreTable) (client clusters : Nat) : Except Misfit Unit :=
  if t.total = 0 ∨ t.entries = [] then .error (.noCores client)
  else match checkEntries client clusters 0 t.entries with
    | .error m => .error m
    | .ok last => if last ≠ t.total then .error (.coreSum client last t.total) else .ok ()

/-! ## A table without fault serves every selector -/

theorem checkEntries_cons_eq_ok {client clusters last cluster upTo total : Nat} {es : List (Nat × Nat)} :
    checkEntries client clusters last ((cluster, upTo) :: es) = .ok total ↔
      cluster < clusters ∧ last < upTo ∧ checkEntries client clusters upTo es = .ok total := by
  rw [checkEntries]
  split
  · next h => simp only [reduceCtorEq, false_iff]; omega
  · next h =>
    split
    · next hu => simp only [reduceCtorEq, false_iff]; omega
    · next hu => rw [and_iff_right (by omega), and_iff_right (by omega)]

theorem find?_of_checkEntries {client clusters : Nat} {es : List (Nat × Nat)} {last total sel : Nat}
    (h : checkEntries client clusters last es = .ok total) (hl : last ≤ sel) (hs : sel < total) :
    ∃ e ∈ es, es.find? (sel < ·.2) = some e ∧ e.1 < clusters := by
  induction es generalizing last with
  | nil => cases h; omega
  | cons e es ih =>
    obtain ⟨cluster, upTo⟩ := e
    obtain ⟨hc, -, h⟩ := checkEntries_cons_eq_ok.1 h
    by_cases hu : sel < upTo
    · exact ⟨(cluster, upTo), List.mem_cons_self, by simp [hu], hc⟩
    · obtain ⟨e, he, hf, hk⟩ := ih h (by omega)
      exact ⟨e, List.mem_cons_of_mem _ he, by simpa [hu] using hf, hk⟩

/-- The entries of a table without fault end at its total. -/
theorem checkEntries_of_check {t : CoreTable} {client clusters : Nat} (h : t.check client clusters = .ok ()) :
    checkEntries client clusters 0 t.entries = .ok t.total := by
  unfold check at h
  split at h
  · cases h
  · split at h
    · cases h
    · next last hlast =>
      split at h
      · cases h
      · next htotal => rw [hlast, Decidable.of_not_not htotal]

theorem cluster?_of_check {t : CoreTable} {client clusters sel : Nat} (h : t.check client clusters = .ok ())
    (hs : sel < t.total) : ∃ k, t.cluster? sel = some k ∧ k < clusters := by
  obtain ⟨e, -, hf, hk⟩ := find?_of_checkEntries (checkEntries_of_check h) (Nat.zero_le _) hs
  exact ⟨e.1, by rw [cluster?, hf, Option.map_some], hk⟩

end CoreTable

end LastLevel
