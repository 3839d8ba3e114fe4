import LastLevel.CommandLine.Run
import LastLevel.Proofs.Building
import LastLevel.Proofs.Traversal
/-!
# Sections that are printed whole

A run without an experiment file prints its built-in sections in order, and ends
at the first one that is not built. Since a section is printed when all its
scenarios are replayed, and a scenario is replayed exactly if it is built, what is
printed is a list of whole sections: `runSections_append` and `runSections_stop`
say this for any sections, and `builds_sweep_iff` says which one may not be
built. Main statement: `builtin_run_prints_whole_sections`.
-/

namespace LastLevel

/-! ## Scenarios that are replayed -/

namespace Scenario
variable {s : Scenario} {ss : List Scenario} {ts : List Trace}

/-- A scenario with one replay for each trace. -/
structure Replayed (ts : List Trace) (s : Scenario) (r : Result) : Prop where
  label : r.label = s.label
  replays : List.Forall₂ (fun t q => s.replay t = .ok q) ts r.replays

theorem result_eq_ok {r : Result} : s.result ts = .ok r ↔ Replayed ts s r := by
  have hresult : s.result ts = (ts.mapM s.replay).map fun replays => { label := s.label, replays } := by
    rw [result]
    cases ts.mapM s.replay <;> rfl
  rw [hresult, map_eq_ok]
  constructor
  · rintro ⟨qs, hqs, rfl⟩
    exact ⟨rfl, mapM_eq_ok.1 hqs⟩
  · rintro ⟨hlabel, hreplays⟩
    exact ⟨r.replays, mapM_eq_ok.2 hreplays, by rw [← hlabel]⟩

theorem results_eq_ok {rs : List Result} : results ss ts = .ok rs ↔ List.Forall₂ (Replayed ts) ss rs := by
  simp only [results, mapM_eq_ok, result_eq_ok]

theorem replay_eq_error {t : Trace} {e : RunError} :
    s.replay t = .error e ↔ s.build = .error e.cause ∧ e.label = s.label := by
  obtain ⟨label, cause⟩ := e
  rw [replay]
  cases s.build <;> simp [and_comm, eq_comm]

/-- With a trace to replay, all results are there exactly if everything is built. -/
theorem exists_results_iff (hts : ts ≠ []) : (∃ rs, results ss ts = .ok rs) ↔ ∀ s ∈ ss, s.Builds := by
  simp only [results_eq_ok, exists_forall₂_iff]
  refine forall₂_congr fun s _ => ⟨?_, ?_⟩
  · rintro ⟨r, -, hreplays⟩
    obtain ⟨t, ts, rfl⟩ := List.exists_cons_of_ne_nil hts
    obtain ⟨q, -, hq, -⟩ := List.forall₂_cons_left_iff.1 hreplays
    cases hb : s.build with
    | ok h => exact ⟨h, hb⟩
    | error cause =>
      rw [replay, hb] at hq
      cases hq
  · rintro ⟨h, hb⟩
    obtain ⟨qs, hqs⟩ := exists_forall₂_iff.2 fun t (_ : t ∈ ts) => show ∃ q, s.replay t = .ok q by
      rw [replay, hb]
      exact ⟨_, rfl⟩
    exact ⟨⟨s.label, qs⟩, rfl, hqs⟩

/-- What ends a family is a scenario of it that is not built. -/
theorem build_of_results_eq_error {e : RunError} (h : results ss ts = .error e) :
    ∃ s ∈ ss, s.build = .error e.cause := by
  obtain ⟨i, s, hs, hresult, -⟩ := mapM_eq_error.1 h
  refine ⟨s, List.mem_of_getElem? hs, ?_⟩
  have hreplays : ts.mapM s.replay = .error e := by
    rw [result] at hresult
    cases hm : ts.mapM s.replay with
    | ok qs => rw [hm] at hresult; cases hresult
    | error e' => rw [hm] at hresult; exact congrArg Except.error (Except.error.inj hresult)
  obtain ⟨-, t, -, hreplay, -⟩ := mapM_eq_error.1 hreplays
  exact (replay_eq_error.1 hreplay).1

theorem build_ne_emptyBlock (h : s.plan.block ≠ 0) : s.build ≠ .error .emptyBlock := by
  intro hb
  unfold build Hierarchy.build at hb
  split at hb
  · next e he =>
    obtain rfl := Except.error.inj hb
    exact h (Plan.build_eq_emptyBlock.1 he).2
  · cases hb
  · split at hb
    · cases hb
    · exact mapError_misfit_ne_emptyBlock _ hb

end Scenario

/-! ## The text of sections -/

namespace Report

/-- A section as it is printed: number and title, and a line for each row. -/
def sectionText (number : Nat) (title : String) (results : List Result) : String :=
  s!"\n[{number}] {title}\n" ++ String.join ((results.flatMap resultRows).map fun row => row.text ++ "\n")

/-- Sections as they are printed after some others, with consecutive numbers. -/
def sectionsText (before : Nat) : List (String × List Result) → String
  | [] => ""
  | (title, results) :: rest => sectionText (before + 1) title results ++ sectionsText (before + 1) rest

theorem add_eq (r : Report) (title : String) (results : List Result) :
    r.add title results =
      { sections := r.sections + 1, text := r.text ++ sectionText (r.sections + 1) title results } := by
  rw [sectionText, ← String.append_assoc]
  rfl

end Report

namespace CommandLine
variable {ts : List Trace}

/-- A section that is printed whole: its title, and a result for each scenario. -/
structure Printed (ts : List Trace) (planned : String × List Scenario) (printed : String × List Result) : Prop where
  title : printed.1 = planned.1
  results : List.Forall₂ (Scenario.Replayed ts) planned.2 printed.2

/-- Sections that are replayed are printed, and the run goes on. -/
theorem runSections_append {planned : List (String × List Scenario)} {printed : List (String × List Result)}
    (h : List.Forall₂ (Printed ts) planned printed) (rest : List (String × List Scenario)) (report : Report) :
    runSections ts (planned ++ rest) report = runSections ts rest {
      sections := report.sections + printed.length
      text := report.text ++ Report.sectionsText report.sections printed } := by
  induction h generalizing report with
  | nil => rw [Report.sectionsText, String.append_empty]; rfl
  | @cons p q planned printed hpq _ ih =>
    obtain ⟨title, scenarios⟩ := p
    obtain ⟨title', results⟩ := q
    obtain rfl : title' = title := hpq.title
    rw [List.cons_append, runSections, Scenario.results_eq_ok.2 hpq.results]
    dsimp only
    rw [ih, Report.add_eq, Report.sectionsText, List.length_cons, String.append_assoc, Nat.add_right_comm,
      Nat.add_assoc]

/-- Of a section that is not replayed nothing is printed, nor of any after it. -/
theorem runSections_stop {scenarios : List Scenario} {e : RunError} (h : Scenario.results scenarios ts = .error e)
    (title : String) (rest : List (String × List Scenario)) (report : Report) :
    runSections ts ((title, scenarios) :: rest) report = { output := report.text, ending := .ofRunError e } := by
  rw [runSections, h]

theorem exists_printed {planned : List (String × List Scenario)} (hts : ts ≠ [])
    (h : ∀ p ∈ planned, ∀ s ∈ p.2, s.Builds) : ∃ printed, List.Forall₂ (Printed ts) planned printed := by
  refine exists_forall₂_iff.2 fun p hp => ?_
  obtain ⟨rs, hrs⟩ := (Scenario.exists_results_iff hts).2 (h p hp)
  exact ⟨(p.1, rs), rfl, Scenario.results_eq_ok.1 hrs⟩

/-! ## The built-in sections -/

theorem checkBuiltin_eq_ok {o : Options} :
    checkBuiltin o = .ok () ↔ Bits.IsPow2 o.cores ∧ o.cores ≤ 16 ∧ ∀ n ∈ o.owned, Bits.IsPow2 n := by
  rw [checkBuiltin]
  split
  · next h =>
    simp only [reduceCtorEq, false_iff]
    rintro ⟨hcores, hle, -⟩
    rcases h with h | h
    · exact h hcores
    · exact Nat.not_lt.2 hle h
  · next h =>
    rw [not_or, Decidable.not_not, Nat.not_lt] at h
    split
    · next n hn =>
      have hno : ¬ Bits.IsPow2 n := by simpa using List.find?_some hn
      simp only [reduceCtorEq, false_iff]
      exact fun hall => hno (hall.2.2 n (List.mem_of_find?_eq_some hn))
    · next hn =>
      simp only [true_iff]
      refine ⟨h.1, h.2, fun n hmem => Decidable.of_not_not fun hno => ?_⟩
      exact List.find?_eq_none.1 hn n hmem (decide_eq_true hno)

/-- The sections of fixed sizes. -/
def fixedSections (o : Options) : List (String × List Scenario) := (builtinSections o).take 3

/-- The sweep over the given slice sizes. -/
def sweep (o : Options) : List Scenario := Scenario.sizeSweep builtinCache o.cores (o.sliceKib.map (· * 1024))

/-- The sweeps at the given numbers of owned slices. -/
def ownedSections (o : Options) : List (String × List Scenario) := (builtinSections o).drop 4

theorem builtinSections_eq (o : Options) : ∃ title,
    builtinSections o = fixedSections o ++ (title, sweep o) :: ownedSections o :=
  ⟨_, rfl⟩

theorem length_builtinSections (o : Options) : (builtinSections o).length = 4 + o.owned.length := by
  rw [builtinSections, List.length_append, List.length_map]
  rfl

section Admitted
variable {o : Options} (hcores : Bits.IsPow2 o.cores) (hle : o.cores ≤ 16)
include hcores hle

theorem builds_schemes : ∀ s ∈ Scenario.schemes builtinCache o.cores, s.Builds := by
  refine (Scenario.builds_schemes_iff (by decide) hcores hle).2 ⟨by decide, ?_⟩
  calc 2 * o.cores ≤ 2 * 16 := Nat.mul_le_mul_left 2 hle
    _ ≤ builtinCache.sets := by decide

theorem builds_fixedSections : ∀ p ∈ fixedSections o, ∀ s ∈ p.2, s.Builds := by
  have hlevel : ∀ s ∈ Scenario.schemes builtinCache o.cores, s.level = none := by
    simp only [Scenario.schemes, List.forall_mem_cons, List.not_mem_nil, false_implies, implies_true, and_true]
    exact ⟨rfl, rfl, rfl, rfl, rfl, rfl⟩
  have hschemes := builds_schemes hcores hle
  have hstandard : Geometry.standard.check = .ok () := by decide
  intro p hp
  simp only [fixedSections, builtinSections, List.cons_append, List.take_succ_cons, List.take_zero, List.mem_cons,
    List.not_mem_nil, or_false] at hp
  obtain rfl | rfl | rfl := hp
  · exact Scenario.builds_privateSizes_iff.2 (by decide)
  · exact hschemes
  · simp only [List.forall_mem_map]
    exact fun s hs => (Scenario.builds_behind_iff (hlevel s hs) _).2 ⟨hschemes s hs, hstandard, hcores.pos.ne'⟩

end Admitted

/-- A slice of so many kibibytes has one set for each of them. -/
theorem check_slice_iff {kib : Nat} (hsize : kib * 1024 < Bits.wordSize) :
    Geometry.check { builtinCache with size := kib * 1024 } = .ok () ↔ Bits.IsPow2 kib := by
  have hkib : Bits.IsPow2 1024 := by decide
  have hways : Bits.IsPow2 builtinCache.ways := by decide
  have hblock : Bits.IsPow2 builtinCache.block := by decide
  rw [Geometry.check_iff_isPow2 hsize, Bits.isPow2_mul_iff]
  exact ⟨fun h => h.1.1, fun h => ⟨⟨h, hkib⟩, hways, hblock, Nat.le_mul_of_pos_left 1024 h.pos⟩⟩

theorem sets_slice (kib : Nat) : Geometry.sets { builtinCache with size := kib * 1024 } = kib :=
  Nat.mul_div_cancel kib (by decide : 0 < 1024)

/-- Every slice has a power of two of sets, and at least two for each core. -/
abbrev Swept (o : Options) : Prop := ∀ kib ∈ o.sliceKib, Bits.IsPow2 kib ∧ 2 * o.cores ≤ kib

section Sizes
variable {o : Options} (hcores : Bits.IsPow2 o.cores)
  (hsizes : ∀ kib ∈ o.sliceKib, kib * 1024 * o.cores < Bits.wordSize)
include hcores hsizes

theorem slice_lt_wordSize {kib : Nat} (hkib : kib ∈ o.sliceKib) : kib * 1024 < Bits.wordSize :=
  Nat.lt_of_le_of_lt (Nat.le_mul_of_pos_right _ hcores.pos) (hsizes kib hkib)

theorem builds_sweep_iff (hle : o.cores ≤ 16) : (∀ s ∈ sweep o, s.Builds) ↔ Swept o := by
  have hbound : ∀ size ∈ o.sliceKib.map (· * 1024), size < Bits.wordSize :=
    List.forall_mem_map.2 fun kib hkib => slice_lt_wordSize hcores hsizes hkib
  rw [sweep, Scenario.builds_sizeSweep_iff hbound hcores (by decide) hle (by decide), List.forall_mem_map]
  refine forall₂_congr fun kib hkib => ?_
  rw [check_slice_iff (slice_lt_wordSize hcores hsizes hkib), sets_slice]

theorem builds_ownedSections (hle : o.cores ≤ 16) (howned : ∀ n ∈ o.owned, Bits.IsPow2 n)
    (hkib : ∀ kib ∈ o.sliceKib, Bits.IsPow2 kib) : ∀ p ∈ ownedSections o, ∀ s ∈ p.2, s.Builds := by
  have hbound : ∀ size ∈ o.sliceKib.map (· * 1024), size * o.cores < Bits.wordSize := List.forall_mem_map.2 hsizes
  intro p hp
  obtain ⟨n, hn, rfl⟩ := List.mem_map.1 (show p ∈ o.owned.map _ from hp)
  refine (Scenario.builds_ownedSweep_iff hbound hcores hle).2 (List.forall_mem_map.2 fun kib hk => ?_)
  exact ⟨(check_slice_iff (slice_lt_wordSize hcores hsizes hk)).2 (hkib kib hk), howned n hn⟩

end Sizes

theorem block_sizeSweep {llc : Geometry} {cores : Nat} {sizes : List Nat} :
    ∀ s ∈ Scenario.sizeSweep llc cores sizes, s.plan.block = llc.block := by
  simp only [Scenario.sizeSweep, List.forall_mem_flatMap, List.forall_mem_map, List.forall_mem_cons, List.not_mem_nil,
    false_implies, implies_true, and_true]
  exact fun size _ => ⟨rfl, rfl, rfl⟩

/-- Where a sweep ends a run, it is refused. -/
theorem code_of_sweep_eq_error {o : Options} {e : RunError} (h : Scenario.results (sweep o) ts = .error e) :
    (Ending.ofRunError e).code = 1 := by
  obtain ⟨s, hs, hb⟩ := Scenario.build_of_results_eq_error h
  rw [Ending.ofRunError]
  split
  · rfl
  · next hcause =>
    rw [hcause] at hb
    refine absurd hb (Scenario.build_ne_emptyBlock ?_)
    rw [block_sizeSweep s hs]
    decide

/-! ## Runs without an experiment file -/

section Runs
variable {o : Options} (hts : ts ≠ []) (hc : checkBuiltin o = .ok ())
  (hsizes : ∀ kib ∈ o.sliceKib, kib * 1024 * o.cores < Bits.wordSize)
include hts hc hsizes

/-- All sections are printed. -/
theorem runSections_of_swept (h : Swept o) : ∃ printed, List.Forall₂ (Printed ts) (builtinSections o) printed ∧
    runSections ts (builtinSections o) {} = { output := Report.sectionsText 0 printed, ending := .done } := by
  obtain ⟨hcores, hle, howned⟩ := checkBuiltin_eq_ok.1 hc
  obtain ⟨title, hsections⟩ := builtinSections_eq o
  have hbuilds : ∀ p ∈ builtinSections o, ∀ s ∈ p.2, s.Builds := by
    rw [hsections]
    simp only [List.forall_mem_append, List.forall_mem_cons]
    exact ⟨builds_fixedSections hcores hle, (builds_sweep_iff hcores hsizes hle).2 h,
      builds_ownedSections hcores hsizes hle howned fun kib hkib => (h kib hkib).1⟩
  obtain ⟨printed, hprinted⟩ := exists_printed hts hbuilds
  have hrun := runSections_append hprinted [] {}
  rw [List.append_nil] at hrun
  refine ⟨printed, hprinted, hrun.trans ?_⟩
  rw [runSections, String.empty_append]

/-- Nothing is printed from the sweep on. -/
theorem runSections_of_not_swept (h : ¬ Swept o) : ∃ printed, List.Forall₂ (Printed ts) (fixedSections o) printed ∧
    (runSections ts (builtinSections o) {}).output = Report.sectionsText 0 printed ∧
    (runSections ts (builtinSections o) {}).ending.code = 1 := by
  obtain ⟨hcores, hle, -⟩ := checkBuiltin_eq_ok.1 hc
  obtain ⟨title, hsections⟩ := builtinSections_eq o
  obtain ⟨printed, hprinted⟩ := exists_printed hts (builds_fixedSections hcores hle)
  cases hresults : Scenario.results (sweep o) ts with
  | ok rs =>
    have hbuilds := (Scenario.exists_results_iff hts).1 ⟨rs, hresults⟩
    exact absurd ((builds_sweep_iff hcores hsizes hle).1 hbuilds) h
  | error e =>
    have hrun := runSections_append hprinted ((title, sweep o) :: ownedSections o) {}
    rw [← hsections, runSections_stop hresults, String.empty_append] at hrun
    refine ⟨printed, hprinted, ?_, ?_⟩
    · rw [hrun]
    · rw [hrun]
      exact code_of_sweep_eq_error hresults

end Runs

/-- There is always a trace. -/
theorem traces_ne_nil {args : List String} {o : Options} (h : Options.ofArguments? args = some o) : o.traces ≠ [] := by
  obtain ⟨g, -, hg⟩ := Option.bind_eq_some_iff.1 h
  rw [Given.options?] at hg
  split at hg
  · cases hg
  · next hne =>
    obtain rfl := Option.some.inj hg
    exact hne

/-- A run of the built-in sections prints nothing and fails if it is not for a
power of two of cores, up to the ways of the cache, and powers of two of owned
slices. Otherwise it prints whole sections, numbered from one: all of them if
every slice has a power of two of sets, and at least two for each core; and if
not, the first three, whereupon it fails. -/
theorem builtin_run_prints_whole_sections {args : List String} {files : Files} {o : Options}
    (hargs : Options.ofArguments? args = some o) (hload : o.traces.mapM (loadTrace files) = .ok ts)
    (hdump : o.dump = false) (hconfig : o.config = none)
    (hsizes : ∀ kib ∈ o.sliceKib, kib * 1024 * o.cores < Bits.wordSize) :
    let admitted := Bits.IsPow2 o.cores ∧ o.cores ≤ 16 ∧ ∀ n ∈ o.owned, Bits.IsPow2 n
    let outcome := run args files
    (¬ admitted → outcome.output = "" ∧ outcome.ending.code = 1) ∧
    (admitted → ∃ printed, List.Forall₂ (Printed ts) ((builtinSections o).take printed.length) printed ∧
      outcome.output = Report.sectionsText 0 printed ∧
      (Swept o → printed.length = 4 + o.owned.length ∧ outcome.ending.code = 0) ∧
      (¬ Swept o → printed.length = 3 ∧ outcome.ending.code = 1)) := by
  intro admitted outcome
  have hts : ts ≠ [] := by
    rintro rfl
    exact traces_ne_nil hargs (List.forall₂_nil_right_iff.1 (mapM_eq_ok.1 hload))
  cases hc : checkBuiltin o with
  | error cause =>
    have hrun : outcome = { output := "", ending := .failed [cause] } := by
      simp only [outcome, run, hargs, Options.run, hload, hdump, hconfig, Bool.false_eq_true, if_false, hc]
    have hno : ¬ admitted := fun hyes => by
      rw [checkBuiltin_eq_ok.2 hyes] at hc
      cases hc
    refine ⟨fun _ => ?_, fun hyes => absurd hyes hno⟩
    rw [hrun]
    exact ⟨rfl, rfl⟩
  | ok _ =>
    have hrun : outcome = runSections ts (builtinSections o) {} := by
      simp only [outcome, run, hargs, Options.run, hload, hdump, hconfig, Bool.false_eq_true, if_false, hc]
    have hyes : admitted := checkBuiltin_eq_ok.1 hc
    refine ⟨fun hno => absurd hyes hno, fun _ => ?_⟩
    by_cases hswept : Swept o
    · obtain ⟨printed, hprinted, hall⟩ := runSections_of_swept hts hc hsizes hswept
      rw [hrun, hall]
      refine ⟨printed, ?_, rfl, fun _ => ⟨?_, rfl⟩, fun hno => absurd hswept hno⟩
      · rwa [← hprinted.length_eq, List.take_length]
      · rw [← hprinted.length_eq, length_builtinSections]
    · obtain ⟨printed, hprinted, houtput, hcode⟩ := runSections_of_not_swept hts hc hsizes hswept
      have hlength : printed.length = 3 := hprinted.length_eq.symm
      rw [hrun]
      refine ⟨printed, ?_, houtput, fun hyes => absurd hyes hswept, fun _ => ⟨hlength, hcode⟩⟩
      rw [hlength]
      exact hprinted

/-- Two cores need slices of four kibibytes. The sweep over slices of four and of
two is not built, and the three sections before it are printed. -/
theorem builtin_run_prints_three_sections_for_small_slice :
    let args := ["-t", "a", "--cores=2", "--slice-kib=4,2"]
    let files : Files := fun path => if path = "a" then .ok "0 0 0\n40 1 1\n".toUTF8 else .error "missing"
    let o : Options :=
      { traces := ["a"], config := none, cores := 2, sliceKib := [4, 2], owned := [1, 2, 4, 8], dump := false }
    let t : Trace := ⟨fileName "a", [⟨0x00, 0, .read⟩, ⟨0x40, 1, .write⟩]⟩
    Options.ofArguments? args = some o ∧ o.traces.mapM (loadTrace files) = .ok [t] ∧
      (∀ kib ∈ o.sliceKib, kib * 1024 * o.cores < Bits.wordSize) ∧
      ∃ printed, List.Forall₂ (Printed [t]) ((builtinSections o).take 3) printed ∧
        (run args files).output = Report.sectionsText 0 printed ∧ (run args files).ending.code = 1 := by
  intro args files o t
  have hargs : Options.ofArguments? args = some o := by decide
  have hread : Trace.read (fileName "a") "0 0 0\n40 1 1\n".toUTF8 = .ok t := by rfl
  have hload : o.traces.mapM (loadTrace files) = .ok [t] := by
    have hfile : loadTrace files "a" = .ok t := by
      simp only [loadTrace, files, if_true, hread]
      rfl
    simp only [o, List.mapM_cons, List.mapM_nil, hfile]
    rfl
  have hsizes : ∀ kib ∈ o.sliceKib, kib * 1024 * o.cores < Bits.wordSize := by decide
  obtain ⟨printed, hprinted, houtput, -, hstop⟩ :=
    (builtin_run_prints_whole_sections hargs hload rfl rfl hsizes).2 (by decide)
  obtain ⟨hlength, hcode⟩ := hstop (by decide)
  exact ⟨hargs, hload, hsizes, printed, hlength ▸ hprinted, houtput, hcode⟩

end CommandLine

end LastLevel
