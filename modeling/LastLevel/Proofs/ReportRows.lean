import LastLevel.Proofs.Accounts
import LastLevel.Proofs.ReportLines
/-!
# What a report shows

A replay is written as a line of its own and lines that read back as rows
(`Report.text_add`, `Report.read?_details`). The rows for clients show what they came
to up to the highest client that was seen, and the accesses that went unserved are all
shown (`Report.schemeRows_show`); the rows for cores show all cores
(`Report.shown_coreRows`). Main statement: `Scheme.shows_schemeRows` (if the other
clients have no account, the rows of a scheme show all that came to it).
-/

namespace LastLevel

/-! ## Sums -/

theorem totalShare_append (ns ms : List Nat) : totalShare (ns ++ ms) = totalShare ns + totalShare ms := by
  induction ns with
  | nil => exact (Nat.zero_add _).symm
  | cons n ns ih => rw [List.cons_append, totalShare_cons, totalShare_cons, ih, Nat.add_assoc]

theorem totalShare_map_range (f : Nat → Nat) (n : Nat) :
    totalShare ((List.range n).map f) = ∑ i ∈ Finset.range n, f i := by
  induction n with
  | zero => rfl
  | succ n ih =>
    rw [List.range_succ, List.map_append, totalShare_append, ih, Finset.sum_range_succ]
    rfl

theorem Tally.eq_empty_of_accesses {t : Tally} (h : t.accesses = 0) : t = {} := by
  obtain ⟨misses, hits⟩ := t
  obtain ⟨rfl, rfl⟩ := Nat.add_eq_zero_iff.1 h
  rfl

/-! ## What rows show -/

def Subject.client? : Subject → Option Nat
  | client i => some i
  | _ => none

def Subject.core? : Subject → Option Nat
  | core i => some i
  | _ => none

def Subject.privateCache? : Subject → Option Nat
  | privateCache i => some i
  | _ => none

namespace Row

/-- What a row shows for one kind of subjects, with the number of its subject. -/
def shown? (kind : Subject → Option Nat) : Row → Option (Nat × Tally)
  | counts subject tally => (kind subject).map (·, tally)
  | _ => none

def unserved? : Row → Option Nat
  | unserved _ count => some count
  | _ => none

/-- A row for a part of a scheme. -/
def IsPart : Row → Prop
  | counts (.slice _ _) _ => True
  | counts (.cluster _ _) _ => True
  | _ => False

theorem IsPart.shows_nothing {row : Row} (h : row.IsPart) :
    row.shown? Subject.client? = none ∧ row.unserved? = none := by
  unfold IsPart at h
  split at h
  · exact ⟨rfl, rfl⟩
  · exact ⟨rfl, rfl⟩
  · exact h.elim

theorem IsPart.isDetail {row : Row} (h : row.IsPart) : row.IsDetail := by
  unfold IsPart at h
  split at h
  · trivial
  · trivial
  · exact h.elim

end Row

namespace Report

/-- The counts that rows show for one kind of subjects. -/
def shown (kind : Subject → Option Nat) (rows : List Row) : List (Nat × Tally) := rows.filterMap (Row.shown? kind)

/-- The accesses that rows show for one kind of subjects, taken together. -/
def shownAccesses (kind : Subject → Option Nat) (rows : List Row) : Nat :=
  totalShare ((shown kind rows).map fun p => p.2.accesses)

/-- The accesses that rows show as unserved, taken together. -/
def shownUnserved (rows : List Row) : Nat := totalShare (rows.filterMap Row.unserved?)

theorem shown_append (kind : Subject → Option Nat) (rows rows' : List Row) :
    shown kind (rows ++ rows') = shown kind rows ++ shown kind rows' := List.filterMap_append

theorem shownUnserved_append (rows rows' : List Row) :
    shownUnserved (rows ++ rows') = shownUnserved rows + shownUnserved rows' := by
  rw [shownUnserved, List.filterMap_append, totalShare_append]
  rfl

theorem shown_of_parts {rows : List Row} (h : ∀ row ∈ rows, row.IsPart) : shown Subject.client? rows = [] :=
  List.filterMap_eq_nil_iff.2 fun row hrow => (h row hrow).shows_nothing.1

theorem shownUnserved_of_parts {rows : List Row} (h : ∀ row ∈ rows, row.IsPart) : shownUnserved rows = 0 := by
  rw [shownUnserved, List.filterMap_eq_nil_iff.2 fun row hrow => (h row hrow).shows_nothing.2]
  rfl

/-! ### The rows of a scheme -/

/-- The rows for clients some of whose accesses went unserved. -/
def unservedRows (s : Scheme) (clients : Nat) : List Row :=
  (List.range clients).filterMap fun i => if s.unservedOf i = 0 then none else some (.unserved i (s.unservedOf i))

theorem exists_of_mem_unservedRows {s : Scheme} {clients : Nat} {row : Row} (h : row ∈ unservedRows s clients) :
    ∃ i count, row = .unserved i count := by
  obtain ⟨i, -, hi⟩ := List.mem_filterMap.1 h
  split at hi
  · cases hi
  · exact ⟨i, _, (Option.some.inj hi).symm⟩

theorem shown_unservedRows (s : Scheme) (clients : Nat) : shown Subject.client? (unservedRows s clients) = [] := by
  refine List.filterMap_eq_nil_iff.2 fun row hrow => ?_
  obtain ⟨i, count, rfl⟩ := exists_of_mem_unservedRows hrow
  rfl

theorem shownUnserved_unservedRows (s : Scheme) (clients : Nat) :
    shownUnserved (unservedRows s clients) = ∑ i ∈ Finset.range clients, s.unservedOf i := by
  induction clients with
  | zero => rfl
  | succ n ih =>
    have hlast : unservedRows s (n + 1) = unservedRows s n ++
        (if s.unservedOf n = 0 then none else some (Row.unserved n (s.unservedOf n))).toList := by
      rw [unservedRows, List.range_succ, List.filterMap_append, ← unservedRows]
      rfl
    rw [hlast, shownUnserved_append, ih, Finset.sum_range_succ]
    split
    · next h0 => rw [h0]; rfl
    · rfl

theorem unservedRows_eq_nil {s : Scheme} {clients : Nat} (h : ∀ i, s.unservedOf i = 0) : unservedRows s clients = [] :=
  List.filterMap_eq_nil_iff.2 fun i _ => if_pos (h i)

/-- What is said about the elements of a list and their places can be said about the
places. -/
theorem flatMap_zipIdx {α β : Type} {l : List α} {f : α × Nat → List β} {g : Nat → List β}
    (h : ∀ i x, l[i]? = some x → f (x, i) = g i) : l.zipIdx.flatMap f = (List.range l.length).flatMap g := by
  have hplaces : l.zipIdx.map Prod.snd = List.range l.length := by
    rw [List.zipIdx_map_snd, List.range_eq_range']
  rw [← hplaces, List.flatMap_map]
  exact List.flatMap_congr fun p hp => h p.2 p.1 (List.mem_zipIdx_iff_getElem?.1 hp)

theorem isPart_of_mem_clusterRows {b : Banked} {cluster : Nat} {row : Row} (h : row ∈ clusterRows b cluster) :
    row.IsPart := by
  obtain ⟨p, -, hp⟩ := List.mem_filterMap.1 h
  obtain ⟨c, -, rfl⟩ := Option.map_eq_some_iff.1 hp
  trivial

/-- The rows for the parts of a scheme come before those for unserved accesses. -/
theorem bankRows_eq (b : Banked) :
    ∃ parts, (∀ row ∈ parts, row.IsPart) ∧ bankRows b = parts ++ unservedRows (.banked b) b.clients := by
  have hclusters : ∀ n, ∀ row ∈ (List.range n).flatMap (clusterRows b), row.IsPart := by
    intro n row hrow
    obtain ⟨k, -, hk⟩ := List.mem_flatMap.1 hrow
    exact isPart_of_mem_clusterRows hk
  obtain ⟨division, holdings⟩ := b
  cases division with
  | ways sets =>
    refine ⟨[], by simp, ?_⟩
    rw [unservedRows_eq_nil fun i => rfl]
    rfl
  | slices offsetBits selectionBits =>
    refine ⟨bankRows ⟨.slices offsetBits selectionBits, holdings⟩, fun row hrow => ?_, ?_⟩
    · obtain ⟨p, -, hp⟩ := List.mem_flatMap.1 hrow
      obtain ⟨q, -, hq⟩ := List.mem_filterMap.1 hp
      obtain ⟨c, -, rfl⟩ := Option.map_eq_some_iff.1 hq
      trivial
    · rw [unservedRows_eq_nil fun i => rfl, List.append_nil]
  | clusters offsetBits clusterBits =>
    refine ⟨_, hclusters (2 ^ clusterBits), ?_⟩
    rw [unservedRows_eq_nil fun i => rfl, List.append_nil]
    rfl
  | cells offsetBits clusters tables =>
    refine ⟨_, hclusters clusters, congrArg (_ ++ ·) ?_⟩
    rw [unservedRows, List.filterMap_eq_flatMap_toList, List.filterMap_eq_flatMap_toList]
    refine flatMap_zipIdx fun i h hi => ?_
    have hunserved : Scheme.unservedOf (.banked ⟨.cells offsetBits clusters tables, holdings⟩) i = h.unserved := by
      have hh : holdings[i]? = some h := by rw [← hi, Array.getElem?_toList]
      simp [Scheme.unservedOf, Scheme.unserved?, hh]
    rw [hunserved]

/-- Rows for clients show their counts. -/
theorem shown_clientRows {s : Scheme} {n m : Nat} (hn : s.clients? = some n) (hm : m ≤ n) :
    shown Subject.client? (clientRows s m) = (List.range m).map fun i => (i, s.tallyOf i) := by
  have hrows : clientRows s m = (List.range m).map fun i => Row.counts (.client i) (s.tallyOf i) := by
    rw [clientRows, ← List.filterMap_eq_map]
    refine List.filterMap_congr fun i hi => ?_
    rw [Scheme.tally?_eq hn (Nat.lt_of_lt_of_le (List.mem_range.1 hi) hm)]
    rfl
  rw [hrows, shown, List.filterMap_map, ← List.filterMap_eq_map]
  rfl

theorem exists_of_mem_clientRows {s : Scheme} {m : Nat} {row : Row} (h : row ∈ clientRows s m) :
    ∃ i t, row = .counts (.client i) t := by
  obtain ⟨i, -, hi⟩ := List.mem_filterMap.1 h
  obtain ⟨t, -, rfl⟩ := Option.map_eq_some_iff.1 hi
  exact ⟨i, t, rfl⟩

theorem shownUnserved_clientRows (s : Scheme) (m : Nat) : shownUnserved (clientRows s m) = 0 := by
  have hnone : (clientRows s m).filterMap Row.unserved? = [] := by
    refine List.filterMap_eq_nil_iff.2 fun row hrow => ?_
    obtain ⟨i, t, rfl⟩ := exists_of_mem_clientRows hrow
    rfl
  rw [shownUnserved, hnone]
  rfl

/-- The rows of a scheme with clients of its own: one for each client up to the
highest that was seen, and all that went unserved. -/
theorem schemeRows_show {s : Scheme} {n : Nat} (hn : s.clients? = some n) (seen : Nat) :
    shown Subject.client? (schemeRows s seen) =
        (List.range (min n (max seen 1))).map (fun i => (i, s.tallyOf i)) ∧
      shownUnserved (schemeRows s seen) = ∑ i ∈ Finset.range n, s.unservedOf i := by
  have hclients := shown_clientRows hn (Nat.min_le_left n (max seen 1))
  cases s with
  | plain c => cases hn
  | regions r =>
    obtain rfl := Option.some.inj hn
    refine ⟨hclients, (shownUnserved_clientRows _ _).trans ?_⟩
    exact (Finset.sum_eq_zero fun i _ => rfl).symm
  | banked b =>
    obtain rfl := Option.some.inj hn
    obtain ⟨parts, hparts, hrows⟩ := bankRows_eq b
    have hall : schemeRows (.banked b) seen =
        clientRows (.banked b) (min b.clients (max seen 1)) ++ (parts ++ unservedRows (.banked b) b.clients) :=
      congrArg (_ ++ ·) hrows
    rw [hall, shown_append, shown_append, shown_of_parts hparts, shown_unservedRows, hclients, shownUnserved_append,
      shownUnserved_append, shownUnserved_clientRows, shownUnserved_of_parts hparts, shownUnserved_unservedRows]
    exact ⟨List.append_nil _, by omega⟩

end Report

/-- The rows of a scheme show all that came to it. An undivided cache has a single
row. Of clients with counts of their own those up to the highest that was seen have a
row, the others have nothing to show, and what the rows show, served or not, adds
up. -/
structure Scheme.Shows (s : Scheme) (seen : Nat) (rows : List Row) (accesses : Nat) : Prop where
  whole : ∀ c, s = .plain c → rows = [.counts .whole c.tally] ∧ c.tally.accesses = accesses
  clients : ∀ n, s.clients? = some n →
    Report.shown Subject.client? rows = (List.range (min n (max seen 1))).map fun i => (i, s.tallyOf i)
  others : ∀ n, s.clients? = some n → ∀ i < n, min n (max seen 1) ≤ i → s.tally? i = .ok {} ∧ s.unservedOf i = 0
  total : ∀ n, s.clients? = some n → Report.shownAccesses Subject.client? rows + Report.shownUnserved rows = accesses

theorem Scheme.shows_schemeRows {s : Scheme} {seen accesses : Nat}
    (hplain : ∀ c, s = .plain c → c.tally.accesses = accesses)
    (hidle : ∀ n, s.clients? = some n → ∀ i < n, seen ≤ i → s.account i = {})
    (hclients : ∀ n, s.clients? = some n → (Tally.total n s.account).accesses = accesses) :
    s.Shows seen (Report.schemeRows s seen) accesses := by
  have hothers : ∀ n, s.clients? = some n → ∀ i < n, min n (max seen 1) ≤ i →
      s.tallyOf i = {} ∧ s.unservedOf i = 0 := by
    intro n hn i hi hle
    have haccount := hidle n hn i hi (by omega)
    have hmisses : (s.tallyOf i).misses + s.unservedOf i = 0 := congrArg Tally.misses haccount
    have hhits : (s.tallyOf i).hits = 0 := congrArg Tally.hits haccount
    refine ⟨Tally.eq_empty_of_accesses ?_, ?_⟩
    · rw [Tally.accesses]
      omega
    · omega
  refine ⟨fun c hc => ⟨?_, hplain c hc⟩, fun n hn => (Report.schemeRows_show hn seen).1, fun n hn i hi hle => ?_,
    fun n hn => ?_⟩
  · subst hc
    rfl
  · obtain ⟨htally, hunserved⟩ := hothers n hn i hi hle
    exact ⟨by rw [tally?_eq hn hi, htally], hunserved⟩
  · obtain ⟨hshown, hunserved⟩ := Report.schemeRows_show hn seen
    have hsum : ∑ i ∈ Finset.range (min n (max seen 1)), (s.tallyOf i).accesses =
        ∑ i ∈ Finset.range n, (s.tallyOf i).accesses := by
      refine Finset.sum_subset (Finset.range_subset_range.2 (Nat.min_le_left _ _)) fun i hi hout => ?_
      rw [(hothers n hn i (Finset.mem_range.1 hi) (Nat.le_of_not_lt fun hlt => hout (Finset.mem_range.2 hlt))).1]
      rfl
    rw [Report.shownAccesses, hshown, hunserved, List.map_map, totalShare_map_range]
    calc ∑ i ∈ Finset.range (min n (max seen 1)), (s.tallyOf i).accesses + ∑ i ∈ Finset.range n, s.unservedOf i
        = ∑ i ∈ Finset.range n, ((s.tallyOf i).accesses + s.unservedOf i) := by rw [hsum, Finset.sum_add_distrib]
      _ = ∑ i ∈ Finset.range n, (s.account i).accesses :=
        Finset.sum_congr rfl fun i _ => Nat.add_right_comm _ _ _
      _ = accesses := by rw [← Tally.accesses_total, hclients n hn]

/-! ## Rows for cores -/

namespace Report

/-- Each core has two rows, one for it and one for its private cache. -/
theorem coreRows_eq (t : TwoLevel) :
    coreRows t = (List.range t.cores.size).flatMap fun i =>
      [.counts (.core i) (t.tallyOf i), .counts (.privateCache i) (t.privateTally i)] := by
  rw [coreRows, ← Array.length_toList]
  refine flatMap_zipIdx fun i c hc => ?_
  rw [Array.getElem?_toList] at hc
  rw [TwoLevel.tallyOf_eq hc, TwoLevel.privateTally_eq hc]

theorem shown_coreRows (t : TwoLevel) :
    shown Subject.core? (coreRows t) = (List.range t.cores.size).map (fun i => (i, t.tallyOf i)) ∧
      shown Subject.privateCache? (coreRows t) = (List.range t.cores.size).map fun i => (i, t.privateTally i) := by
  rw [coreRows_eq, shown, shown, List.filterMap_flatMap, List.filterMap_flatMap, List.map_eq_flatMap,
    List.map_eq_flatMap]
  exact ⟨rfl, rfl⟩

theorem shownAccesses_coreRows (t : TwoLevel) :
    shownAccesses Subject.core? (coreRows t) = ∑ i ∈ Finset.range t.cores.size, (t.tallyOf i).accesses := by
  rw [shownAccesses, (shown_coreRows t).1, List.map_map, totalShare_map_range]
  rfl

theorem shownMisses_coreRows (t : TwoLevel) :
    totalShare ((shown Subject.privateCache? (coreRows t)).map fun p => p.2.misses) =
      ∑ i ∈ Finset.range t.cores.size, (t.privateTally i).misses := by
  rw [(shown_coreRows t).2, List.map_map, totalShare_map_range]
  rfl

/-! ## The text of a replay -/

/-- The line of a replay. -/
def headline (r : Replay) : String :=
  s!"    {Text.padRight 14 r.trace} accesses {r.accesses}" ++
    (if r.rejected = 0 then "" else s!" rejected {r.rejected}") ++ "\n"

/-- The rows that follow the line of a replay. -/
def detailRows (r : Replay) : List Row :=
  match r.hierarchy with
  | .flat s => schemeRows s r.clientsSeen
  | .twoLevel t => coreRows t ++ .sharedLevel :: schemeRows t.shared r.clientsSeen

/-- The lines that follow the line of a replay. -/
def details (r : Replay) : String := written (detailRows r)

theorem written_replayRows (r : Replay) : written (replayRows r) = headline r ++ details r := by
  have hrows : replayRows r = .trace r.trace r.accesses r.rejected :: detailRows r := rfl
  have hline : (Row.trace r.trace r.accesses r.rejected).text =
      s!"    {Text.padRight 14 r.trace} accesses {r.accesses}" ++
        (if r.rejected = 0 then "" else s!" rejected {r.rejected}") := by
    show (if r.rejected = 0 then _ else _) = _
    split
    · exact String.append_empty.symm
    · simp only [toString, String.append_assoc]
  rw [hrows, written_cons, headline, hline, details]

theorem written_flatMap {α : Type} (xs : List α) (f : α → List Row) :
    written (xs.flatMap f) = String.join (xs.map fun x => written (f x)) := by
  induction xs with
  | nil => rfl
  | cons x xs ih => rw [List.flatMap_cons, written_append, ih, List.map_cons, String.join_cons]

theorem text_add (r : Report) (title : String) (results : List Result) :
    (r.add title results).text = (r.header title).text ++ String.join (results.map fun q =>
      s!"  {q.label}\n" ++ String.join (q.replays.map fun p => headline p ++ details p)) := by
  have hresult : ∀ q : Result, written (resultRows q) =
      s!"  {q.label}\n" ++ String.join (q.replays.map fun p => headline p ++ details p) := by
    intro q
    rw [resultRows, written_cons, written_flatMap]
    simp only [written_replayRows]
    rfl
  have hall : (r.add title results).text = (r.header title).text ++ written (results.flatMap resultRows) := rfl
  rw [hall, written_flatMap]
  simp only [hresult]

/-! ### The lines read back -/

theorem isDetail_of_mem_clientRows {s : Scheme} {m : Nat} {row : Row} (h : row ∈ clientRows s m) : row.IsDetail := by
  obtain ⟨i, t, rfl⟩ := exists_of_mem_clientRows h
  trivial

theorem isDetail_of_mem_bankRows {b : Banked} {row : Row} (h : row ∈ bankRows b) : row.IsDetail := by
  obtain ⟨parts, hparts, hrows⟩ := bankRows_eq b
  rw [hrows] at h
  rcases List.mem_append.1 h with h | h
  · exact (hparts row h).isDetail
  · obtain ⟨i, count, rfl⟩ := exists_of_mem_unservedRows h
    trivial

theorem isDetail_of_mem_schemeRows {s : Scheme} {seen : Nat} {row : Row} (h : row ∈ schemeRows s seen) :
    row.IsDetail := by
  cases s with
  | plain c =>
    obtain rfl := List.mem_singleton.1 h
    trivial
  | regions r => exact isDetail_of_mem_clientRows h
  | banked b =>
    rcases List.mem_append.1 h with h | h
    · exact isDetail_of_mem_clientRows h
    · exact isDetail_of_mem_bankRows h

theorem read?_details (r : Replay) : read? (details r) = some (detailRows r) := by
  refine read?_written fun row hrow => ?_
  rw [detailRows] at hrow
  split at hrow
  · exact isDetail_of_mem_schemeRows hrow
  · next t _ =>
    rcases List.mem_append.1 hrow with hrow | hrow
    · rw [coreRows_eq] at hrow
      obtain ⟨i, -, hi⟩ := List.mem_flatMap.1 hrow
      rcases List.mem_pair.1 hi with rfl | rfl <;> trivial
    · rcases List.mem_cons.1 hrow with rfl | hrow
      · trivial
      · exact isDetail_of_mem_schemeRows hrow

end Report

end LastLevel
