import LastLevel.Proofs.Comparison
import LastLevel.Proofs.ReportRows
/-!
# A report shows every access

A client without a row has no records that are carried out, so it has no account
(`Replay.account_run_eq_empty`), and the accounts of all clients together are what
came to the scheme: the accesses of the replay, or the misses of the private caches
(`Hierarchy.sum_account`). So the rows, which show all accounts, show every access.
The last client of all, after which the clients seen start again at 0, is never served
(`Replay.lt_clientsSeen`).
Main statement: `Scenario.report_hides_no_traffic`.
-/

namespace LastLevel

/-! ## Clients that do nothing -/

namespace Replay

theorem clientsSeen_step (r : Replay) (x : Record) :
    (r.step x).clientsSeen = max r.clientsSeen (x.client + 1).toNat := by
  unfold step
  dsimp only
  split <;> rfl

theorem le_clientsSeen (r : Replay) (xs : List Record) : r.clientsSeen ≤ (r.run xs).clientsSeen := by
  induction xs generalizing r with
  | nil => exact Nat.le_refl _
  | cons x xs ih =>
    refine Nat.le_trans ?_ (ih (r.step x))
    rw [clientsSeen_step]
    exact Nat.le_max_left _ _

/-- No record, carried out or not, is of a client from `clientsSeen` on, save for the
last client of all, whose number plus one is not a word. -/
theorem lt_clientsSeen (r : Replay) {xs : List Record} {x : Record} (hx : x ∈ xs)
    (hword : x.client.toNat + 1 < Bits.wordSize) : x.client.toNat < (r.run xs).clientsSeen := by
  induction xs generalizing r with
  | nil => cases hx
  | cons y xs ih =>
    rcases List.mem_cons.1 hx with rfl | hx
    · have hsucc : (x.client + 1).toNat = x.client.toNat + 1 :=
        (UInt64.toNat_add x.client 1).trans (Nat.mod_eq_of_lt hword)
      calc x.client.toNat < (x.client + 1).toNat := by rw [hsucc]; exact Nat.lt_succ_self _
        _ ≤ (r.step x).clientsSeen := by rw [clientsSeen_step]; exact Nat.le_max_right _ _
        _ ≤ (r.run (x :: xs)).clientsSeen := (r.step x).le_clientsSeen xs
    · exact ih (r.step y) hx

end Replay

namespace Hierarchy

theorem account_touch_of_ne {h : Hierarchy} (hs : h.Sound) {n i j : Nat} (hn : h.scheme.clients? = some n) (hij : j ≠ i)
    (a : Address) (kind : AccessKind) : (h.touch j a kind).scheme.account i = h.scheme.account i := by
  cases h with
  | flat s => exact Scheme.account_touch_of_ne hs hn hij a kind
  | twoLevel t => exact TwoLevel.account_touch_of_ne (TwoLevel.Sound.shared hs) hn hij a kind j

theorem clients?_touch (h : Hierarchy) (j : Nat) (a : Address) (kind : AccessKind) :
    (h.touch j a kind).scheme.clients? = h.scheme.clients? := by
  cases h with
  | flat s => exact Scheme.clients?_touch s j a kind
  | twoLevel t => exact TwoLevel.clients?_touch t j j a kind

/-- The account of a client is kept by a run that carries out none of its records. -/
theorem account_final_of_idle {h : Hierarchy} (hs : h.Sound) {n i : Nat} (hn : h.scheme.clients? = some n)
    {xs : List Record} (hidle : ∀ x ∈ xs, x.client.toNat = i → h.serves i = false) :
    (Run.final step h xs).scheme.account i = h.scheme.account i := by
  induction xs generalizing h with
  | nil => rfl
  | cons x xs ih =>
    obtain ⟨hx, hxs⟩ := List.forall_mem_cons.1 hidle
    rw [Run.final_cons]
    cases hc : h.check x.client.toNat with
    | error e =>
      rw [step_of_error hc]
      exact ih hs hn hxs
    | ok u =>
      have hne : x.client.toNat ≠ i := by
        intro hi
        have hno := hx hi
        rw [← hi, serves_iff.2 hc] at hno
        cases hno
      have hserves : (h.step x).2.serves i = h.serves i := serves_final h [x] i
      rw [step_of_ok hc] at hserves ⊢
      rw [ih (hs.touch _ _ _) ((clients?_touch _ _ _ _).trans hn), account_touch_of_ne hs hn hne]
      intro y hy hi
      rw [hserves]
      exact hxs y hy hi

/-- The records that are carried out, client by client. -/
theorem sum_accepted {h : Hierarchy} {n : Nat} (hn : ∀ i, h.serves i = true → i < n) (xs : List Record) :
    ∑ i ∈ Finset.range n, h.accepted xs i = xs.countP fun x => h.serves x.client.toNat := by
  induction xs with
  | nil => simp [accepted]
  | cons x xs ih =>
    have hcons : ∀ i, h.accepted (x :: xs) i =
        h.accepted xs i + if h.serves x.client.toNat && x.client.toNat == i then 1 else 0 := fun i => List.countP_cons
    rw [List.countP_cons]
    cases hx : h.serves x.client.toNat with
    | false =>
      have hsame : ∀ i, h.accepted (x :: xs) i = h.accepted xs i := fun i => by rw [hcons, hx]; rfl
      simp only [hsame, ih]
      rfl
    | true =>
      rw [sum_range_step (hn _ hx) (d := 1) (f := h.accepted xs), ih]
      · rfl
      · rw [hcons, hx]
        simp
      · intro i hi
        rw [hcons, hx]
        simp [hi]

end Hierarchy

/-! ## What comes to a scheme -/

theorem TwoLevel.privateTally_of_le {t : TwoLevel} {i : Nat} (hi : t.cores.size ≤ i) : t.privateTally i = {} := by
  rw [privateTally, private?, Array.getElem?_eq_none hi]
  rfl

namespace Hierarchy
variable {h : Hierarchy}

theorem scheme_final_clients? (h : Hierarchy) (xs : List Record) :
    (Run.final step h xs).scheme.clients? = h.scheme.clients? := by
  refine Run.final_keeps (I := fun k : Hierarchy => k.scheme.clients? = h.scheme.clients?) ?_ rfl xs
  intro k x hk
  cases hc : k.check x.client.toNat with
  | error e => rwa [step_of_error hc]
  | ok u => rwa [step_of_ok hc, clients?_touch]

/-- A client has no account after a run that carries out none of its records. -/
theorem account_final_eq_empty (hf : h.Fresh) {n i : Nat} (hn : h.scheme.clients? = some n) (hi : i < n)
    {xs : List Record} (hidle : ∀ x ∈ xs, x.client.toNat = i → h.serves i = false) :
    (Run.final step h xs).scheme.account i = {} := by
  have hfresh : h.scheme.Fresh := by
    cases h with
    | flat s => exact hf
    | twoLevel t => exact TwoLevel.Fresh.shared hf
  rw [account_final_of_idle hf.sound hn hidle, Scheme.account_of_fresh hfresh hn hi]

/-- What comes to a shared level on behalf of a client is what its core does not find
privately, also where there is no such core or no such client. -/
theorem accesses_account_eq (hf : h.Fresh) {t : TwoLevel} {xs : List Record} (ht : Run.final step h xs = .twoLevel t)
    {n : Nat} (hn : t.shared.clients? = some n) (i : Nat) :
    (t.shared.account i).accesses = (t.privateTally i).misses := by
  have hb := (balances_final hf xs).2
  have hserves := serves_final h xs i
  rw [ht] at hb hserves
  cases hi : h.serves i with
  | true =>
    rw [hi] at hserves
    obtain ⟨hcore, hshared⟩ := Bool.and_eq_true_iff.1 hserves
    have hin := Scheme.check_eq_ok.1 (Scheme.serves_iff.1 hshared) n hn
    exact (TwoLevel.Balances.client hb n hn i (of_decide_eq_true hcore) hin).accesses.symm
  | false =>
    -- Neither counts anything where no record is carried out.
    have haccount : t.shared.account i = {} := by
      by_cases hin : i < n
      · rw [← show (Run.final step h xs).scheme = t.shared by rw [ht]; rfl] at hn ⊢
        exact account_final_eq_empty hf (by rwa [scheme_final_clients?] at hn) hin fun x _ _ => hi
      · exact Scheme.account_of_le hn (Nat.le_of_not_lt hin)
    have hprivate : t.privateTally i = {} := by
      by_cases hcore : i < t.cores.size
      · have hnone : h.accepted xs i = 0 := by
          refine List.countP_eq_zero.2 fun x _ hx => ?_
          obtain ⟨hserved, he⟩ := Bool.and_eq_true_iff.1 hx
          rw [beq_iff_eq.1 he, hi] at hserved
          cases hserved
        have haccesses := (TwoLevel.Balances.core hb i hcore).1
        rw [hnone] at haccesses
        exact Tally.eq_empty_of_accesses haccesses
      · exact TwoLevel.privateTally_of_le (Nat.le_of_not_lt hcore)
    rw [haccount, hprivate]
    rfl

theorem sum_account (hf : h.Fresh) {t : TwoLevel} {xs : List Record} (ht : Run.final step h xs = .twoLevel t)
    {n : Nat} (hn : t.shared.clients? = some n) :
    (Tally.total n t.shared.account).accesses = ∑ i ∈ Finset.range t.cores.size, (t.privateTally i).misses := by
  -- Both sums are the same up to any number that is large enough.
  have hclients := Finset.eventually_constant_sum (u := fun i => (t.shared.account i).accesses) (N := n)
    (fun i hi => by rw [Scheme.account_of_le hn hi]; rfl) (Nat.le_max_left n t.cores.size)
  have hcores := Finset.eventually_constant_sum (u := fun i => (t.privateTally i).misses) (N := t.cores.size)
    (fun i hi => by rw [TwoLevel.privateTally_of_le hi]) (Nat.le_max_right n t.cores.size)
  rw [Tally.accesses_total, ← hclients, ← hcores]
  exact Finset.sum_congr rfl fun i _ => accesses_account_eq hf ht hn i

end Hierarchy

/-- A client from `clientsSeen` on has no account, when the number of clients is a
word. -/
theorem Replay.account_run_eq_empty (r : Replay) (hf : r.hierarchy.Fresh) {xs : List Record} {n i : Nat}
    (hn : (r.run xs).hierarchy.scheme.clients? = some n) (hword : n < Bits.wordSize) (hi : i < n)
    (hle : (r.run xs).clientsSeen ≤ i) : (r.run xs).hierarchy.scheme.account i = {} := by
  rw [hierarchy_run] at hn ⊢
  rw [Hierarchy.scheme_final_clients?] at hn
  refine Hierarchy.account_final_eq_empty hf hn hi fun x hx he => ?_
  have hseen := r.lt_clientsSeen hx (by omega)
  omega

/-! ## Nothing is hidden -/

namespace Scenario

/-- The text of a section holds, for each replay, a line with its accesses and lines
that read back as rows. If a scenario is built, and its number of clients is a word,
the rows of its replay show every access, whatever clients the trace mentions: on one
level those of the scheme add up to the accesses of the replay. On two levels the rows
of the cores do, the private cache of a core shows as many accesses as the core, and
what the private caches show as misses is what the rows of the shared level add up to. -/
theorem report_hides_no_traffic {s : Scenario} {h : Hierarchy} (hb : s.build = .ok h)
    (hclients : ∀ n, h.scheme.clients? = some n → n < Bits.wordSize) (t : Trace) :
    (∀ (report : Report) (title : String) (results : List Result), (report.add title results).text =
      (report.header title).text ++ String.join (results.map fun q =>
        s!"  {q.label}\n" ++ String.join (q.replays.map fun r => Report.headline r ++ Report.details r))) ∧
    ∃ r rows, s.replay t = .ok r ∧ Report.read? (Report.details r) = some rows ∧
      match r.hierarchy with
      | .flat l => l.Shows r.clientsSeen rows r.accesses
      | .twoLevel l => ∃ cores shared, rows = cores ++ .sharedLevel :: shared ∧
        Report.shown Subject.core? cores = (List.range l.cores.size).map (fun i => (i, l.tallyOf i)) ∧
        Report.shown Subject.privateCache? cores = (List.range l.cores.size).map (fun i => (i, l.privateTally i)) ∧
        Report.shownAccesses Subject.core? cores = r.accesses ∧
        (∀ i < l.cores.size, (l.privateTally i).accesses = (l.tallyOf i).accesses) ∧
        l.shared.Shows r.clientsSeen shared
          (totalShare ((Report.shown Subject.privateCache? cores).map fun p => p.2.misses)) := by
  refine ⟨Report.text_add, ?_⟩
  have hf := Hierarchy.fresh_of_build hb
  let start : Replay := { trace := t.name, hierarchy := h }
  have hreplay : s.replay t = .ok (start.run t.records) := by rw [replay, hb]
  have haccesses := start.accesses_run t.records
  have hrun := start.hierarchy_run t.records
  have hidle : ∀ n, (start.run t.records).hierarchy.scheme.clients? = some n → ∀ i < n,
      (start.run t.records).clientsSeen ≤ i → (start.run t.records).hierarchy.scheme.account i = {} := by
    intro n hn i hi hle
    have hword : n < Bits.wordSize := by
      refine hclients n ?_
      rwa [hrun, Hierarchy.scheme_final_clients?] at hn
    exact start.account_run_eq_empty hf hn hword hi hle
  generalize start.run t.records = r at hreplay haccesses hrun hidle
  refine ⟨r, Report.detailRows r, hreplay, Report.read?_details r, ?_⟩
  have hbalances := (Hierarchy.balances_final hf t.records).2
  rw [Nat.zero_add] at haccesses
  rw [← haccesses, ← hrun] at hbalances
  unfold Report.detailRows
  cases hl : r.hierarchy with
  | flat l =>
    rw [hl] at hbalances hidle
    exact Scheme.shows_schemeRows hbalances.plain hidle hbalances.clients
  | twoLevel l =>
    rw [hl] at hbalances hidle hrun
    obtain ⟨hcores, hprivate⟩ := Report.shown_coreRows l
    have hserves : ∀ i, h.serves i = true → i < l.cores.size := by
      intro i hi
      rw [← Hierarchy.serves_final h t.records, ← hrun] at hi
      exact of_decide_eq_true (Bool.and_eq_true_iff.1 hi).1
    refine ⟨_, _, rfl, hcores, hprivate, ?_, fun i hi => ?_, ?_⟩
    · rw [Report.shownAccesses_coreRows, haccesses, ← Hierarchy.sum_accepted hserves t.records]
      exact Finset.sum_congr rfl fun i hi => (hbalances.core i (Finset.mem_range.1 hi)).2
    · obtain ⟨hp, hc⟩ := hbalances.core i hi
      exact hp.trans hc.symm
    · rw [Report.shownMisses_coreRows]
      refine Scheme.shows_schemeRows (fun c hc => ?_) hidle fun n hn => Hierarchy.sum_account hf hrun.symm hn
      exact (hbalances.plain c hc).accesses.symm

/-- Two cores in front of a cache in which the second client has only one of the two
cells it selects. Of the four accesses of its core the private cache finds one, a cell
serves one, and two go unserved. A third core and the last of all numbers are rejected. -/
theorem report_hides_no_traffic_of_missing_cell :
    let s : Scenario :=
      { label := "", plan := .interIntra [[32, 32], [32, 0]] [[1, 1], [1, 1]] 2 16, level := some ⟨2, ⟨16, 1, 16⟩⟩ }
    let t : Trace := ⟨"t", [⟨0x00, 0, .write⟩, ⟨0x10, 1, .read⟩, ⟨0x10, 1, .read⟩, ⟨0x00, 1, .read⟩, ⟨0x10, 1, .read⟩,
      ⟨0x00, 2, .read⟩, ⟨0x00, 0xffffffffffffffff, .read⟩]⟩
    ∃ h r cores shared, s.build = .ok h ∧ (∀ n, h.scheme.clients? = some n → n < Bits.wordSize) ∧
      s.replay t = .ok r ∧ r.clientsSeen = 3 ∧ r.rejected = 2 ∧
      Report.read? (Report.details r) = some (cores ++ .sharedLevel :: shared) ∧
      Report.shownAccesses Subject.core? cores = 5 ∧
      Report.shown Subject.privateCache? cores = [(0, { misses := 1 }), (1, { misses := 3, hits := 1 })] ∧
      Report.shown Subject.client? shared = [(0, { misses := 1 }), (1, { misses := 1 })] ∧
      Report.shownUnserved shared = 2 := by
  intro s t
  have hb := (rfl : s.build = .ok _)
  have hword : ∀ n, some 2 = some n → n < Bits.wordSize := by
    rintro n ⟨⟩
    decide
  obtain ⟨-, r, rows, hr, hrows, hshown⟩ := report_hides_no_traffic hb hword t
  obtain rfl := Except.ok.inj hr
  obtain ⟨cores, shared, rfl, -, hprivate, haccesses, -, hshared⟩ := hshown
  have hclients : Report.shown Subject.client? shared = [(0, { misses := 1 }), (1, { misses := 1 })] :=
    hshared.clients 2 rfl
  have htotal := hshared.total 2 rfl
  rw [Report.shownAccesses, hclients, hprivate] at htotal
  have hunserved : 2 + Report.shownUnserved shared = 4 := htotal
  exact ⟨_, _, cores, shared, hb, hword, hr, rfl, rfl, hrows, haccesses, hprivate, hclients, by omega⟩

end Scenario
end LastLevel
