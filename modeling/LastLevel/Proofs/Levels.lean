import LastLevel.Proofs.Isolation
/-!
# Two levels run alone

In a two-level hierarchy the private caches decide what the shared level sees,
but nothing flows back. So each private cache is where it would be alone, on the
accepted requests of its core (`alone`), and the shared level is where it would
be alone, on the accepted requests that their private caches did not hold
(`passed`). `TwoLevel.RunsAlone` says so of one state, a step keeps it
(`RunsAlone.step`), and `TwoLevel.levels_run_alone` says so of every run.
-/

namespace LastLevel

namespace TwoLevel

/-! ## Each level alone -/

/-- A private cache on which only the requests of one core are carried out. -/
def alone (cache : Cache) (xs : List Request) (core : Nat) : Cache :=
  Run.final Cache.step cache ((xs.filter fun x => x.core.toNat = core).map Request.record)

/-- The requests that their private caches do not hold, after the requests
`before`. -/
def passed (cache : Cache) (before : List Request) : List Request → List Request
  | [] => []
  | x :: xs =>
    if (alone cache before x.core.toNat).hits x.address then passed cache (before ++ [x]) xs
    else x :: passed cache (before ++ [x]) xs

/-- The shared level on which only the passed requests are carried out. -/
def sharedAlone (cache : Cache) (shared : Scheme) (xs : List Request) : Scheme :=
  Run.final Scheme.step shared ((passed cache [] xs).map Request.record)

/-- The requests of a run that two levels accept. -/
def accepted (t : TwoLevel) (xs : List Request) : List Request :=
  xs.filter fun x => t.check x.core.toNat x.client.toNat = .ok ()

/-- What the accepted requests of a core were answered. -/
def answersTo (core : Nat) (log : List (Request × Except OutOfRange Bool)) : List Bool :=
  log.filterMap fun e => if e.1.core.toNat = core then e.2.toOption else none

/-- The answer of two levels that only ever ran alone: a private hit, or else
the shared level's own answer. -/
def answerAlone (cache : Cache) (shared : Scheme) (before : List Request) (x : Request) : Except OutOfRange Bool :=
  if (alone cache before x.core.toNat).hits x.address then .ok true
  else ((sharedAlone cache shared before).step x.record).1

theorem alone_concat (cache : Cache) (xs : List Request) (x : Request) (core : Nat) :
    alone cache (xs ++ [x]) core =
      if x.core.toNat = core then (alone cache xs core).touch x.address x.kind else alone cache xs core := by
  unfold alone
  split <;> rename_i h
  · simp [List.filter_append, h]
    rfl
  · simp [List.filter_append, h]

theorem passed_concat (cache : Cache) (before xs : List Request) (x : Request) :
    passed cache before (xs ++ [x]) =
      passed cache before xs ++ if (alone cache (before ++ xs) x.core.toNat).hits x.address then [] else [x] := by
  induction xs generalizing before with
  | nil => simp [passed]
  | cons y xs ih =>
    rw [List.cons_append, passed, passed, ih, List.append_assoc, List.singleton_append]
    split <;> rfl

theorem sharedAlone_concat (cache : Cache) (shared : Scheme) (xs : List Request) (x : Request) :
    sharedAlone cache shared (xs ++ [x]) =
      if (alone cache xs x.core.toNat).hits x.address then sharedAlone cache shared xs
      else ((sharedAlone cache shared xs).step x.record).2 := by
  rw [sharedAlone, passed_concat, List.nil_append]
  split <;> simp [sharedAlone]

theorem accepted_concat (t : TwoLevel) (xs : List Request) (x : Request) :
    t.accepted (xs ++ [x]) =
      t.accepted xs ++ if t.check x.core.toNat x.client.toNat = .ok () then [x] else [] := by
  rw [accepted, List.filter_append, ← accepted]
  split <;> rename_i h <;> simp [h]

theorem answersTo_concat (core : Nat) (log : List (Request × Except OutOfRange Bool))
    (e : Request × Except OutOfRange Bool) :
    answersTo core (log ++ [e]) =
      answersTo core log ++ if e.1.core.toNat = core then e.2.toOption.toList else [] := by
  rw [answersTo, List.filterMap_append, ← answersTo]
  congr 1
  obtain ⟨x, answer⟩ := e
  by_cases h : x.core.toNat = core
  · cases answer <;> simp [h, Except.toOption]
  · simp [h]

/-! ## One state -/

/-- After a run that began with copies of `cache` in front of `shared`: both
levels are where they would be alone, and the cores have counted the answers. -/
structure RunsAlone (cache : Cache) (shared : Scheme) (requests : List Request) (answers : Nat → List Bool)
    (t : TwoLevel) : Prop where
  core : ∀ i < t.cores.size, t.cores[i]? = some { cache := alone cache requests i, tally := .ofOutcomes (answers i) }
  shared : t.shared = sharedAlone cache shared requests

namespace RunsAlone
variable {cache : Cache} {shared : Scheme} {requests : List Request} {answers : Nat → List Bool} {t : TwoLevel}

theorem hitsPrivate_eq (h : RunsAlone cache shared requests answers t) {i : Nat} (hi : i < t.cores.size)
    (a : Address) : t.hitsPrivate i a = (alone cache requests i).hits a := by
  rw [hitsPrivate, h.core i hi]

theorem answer (h : RunsAlone cache shared requests answers t) {x : Request}
    (hc : t.check x.core.toNat x.client.toNat = .ok ()) :
    (t.step x).1 = answerAlone cache shared requests x := by
  obtain ⟨hi, hs⟩ := check_eq_ok.1 hc
  rw [step_of_ok hc, hits, h.hitsPrivate_eq hi, answerAlone]
  cases (alone cache requests x.core.toNat).hits x.address with
  | true => rfl
  | false =>
    rw [h.shared] at hs ⊢
    have hs : (sharedAlone cache shared requests).check x.record.client.toNat = .ok () := hs
    rw [Bool.false_or, if_neg (by simp), Scheme.step_of_ok hs]
    rfl

/-- An accepted request moves its private cache, and the shared level if it
passes. -/
theorem step (h : RunsAlone cache shared requests answers t) {x : Request}
    (hc : t.check x.core.toNat x.client.toNat = .ok ()) :
    RunsAlone cache shared (requests ++ [x])
      (fun i => answers i ++ if x.core.toNat = i then [t.hits x.core.toNat x.client.toNat x.address] else [])
      (t.step x).2 := by
  obtain ⟨hi, hs⟩ := check_eq_ok.1 hc
  rw [step_of_ok hc]
  refine ⟨fun i hlt => ?_, ?_⟩
  · rw [cores_size_touch] at hlt
    rw [getElem?_cores_touch, h.core i hlt, alone_concat]
    split
    · next he => simp [Tally.ofOutcomes_append_singleton]
    · simp
  · rw [shared_touch, sharedAlone_concat, h.hitsPrivate_eq hi]
    split
    · exact h.shared
    · rw [h.shared] at hs ⊢
      have hs : (sharedAlone cache shared requests).check x.record.client.toNat = .ok () := hs
      rw [Scheme.step_of_ok hs]
      rfl

end RunsAlone

/-! ## Runs -/

theorem runsAlone_final {n : Nat} {cache : Cache} {shared : Scheme} {t : TwoLevel}
    (h : TwoLevel.build n cache shared = .ok t) (xs : List Request) :
    RunsAlone cache shared (t.accepted xs) (fun i => answersTo i (Run.log step t xs)) (Run.final step t xs) ∧
      (Run.final step t xs).cores.size = n := by
  induction xs using List.reverseRecOn with
  | nil =>
    unfold TwoLevel.build at h
    split at h
    · cases h
    · cases h
      refine ⟨⟨fun i hi => ?_, rfl⟩, Array.size_replicate⟩
      have hi : i < n := by simpa using hi
      simp [hi, alone, accepted, answersTo, Tally.ofOutcomes]
  | append_singleton xs x ih =>
    obtain ⟨ih, hn⟩ := ih
    have hcheck := check_final t xs x.core.toNat x.client.toNat
    rw [Run.final_append, Run.log_append, accepted_concat]
    generalize Run.final step t xs = last at ih hn hcheck
    simp only [Run.final_cons, Run.final_nil, Run.log_cons, Run.log_nil, answersTo_concat, ← hcheck]
    cases hc : last.check x.core.toNat x.client.toNat with
    | error e =>
      -- A refused request is not among the accepted ones, and has no answer to count.
      rw [step_of_error hc]
      simpa [Except.toOption] using ⟨ih, hn⟩
    | ok u =>
      have hstep := ih.step hc
      rw [step_of_ok hc] at hstep ⊢
      exact ⟨hstep, by rw [cores_size_touch, hn]⟩

/-- Cores with copies of one cache in front of any scheme, whatever they are
asked: the private cache of a core is where it would be with the core's accepted
requests alone; the shared level is where it would be with the accepted requests
alone that no private cache held; a request is refused, or answered by its
private cache, or else by the shared level as if alone; and the counts of a core
are the counts of these answers. -/
theorem levels_run_alone {n : Nat} {cache : Cache} {shared : Scheme} {t : TwoLevel}
    (h : TwoLevel.build n cache shared = .ok t) (xs : List Request) :
    let last := Run.final step t xs
    let log := Run.log step t xs
    (∀ i < n, last.private? i = .ok (alone cache (t.accepted xs) i)) ∧
    last.shared = sharedAlone cache shared (t.accepted xs) ∧
    (∀ (k : Nat) x, xs[k]? = some x → log[k]? = some (x,
      match t.check x.core.toNat x.client.toNat with
      | .ok () => answerAlone cache shared (t.accepted (xs.take k)) x
      | .error e => .error e)) ∧
    ∀ i < n, last.tally? i = .ok { misses := (answersTo i log).count false, hits := (answersTo i log).count true } := by
  obtain ⟨hend, hn⟩ := runsAlone_final h xs
  refine ⟨fun i hi => ?_, hend.shared, fun k x hx => ?_, fun i hi => ?_⟩
  · rw [private?, hend.core i (hn ▸ hi)]
  · rw [Run.getElem?_log, hx, Option.map_some, ← check_final t (xs.take k)]
    obtain ⟨hk, -⟩ := runsAlone_final h (xs.take k)
    cases hc : (Run.final step t (xs.take k)).check x.core.toNat x.client.toNat with
    | ok u => rw [hk.answer hc]
    | error e => rw [step_of_error hc]
  · rw [tally?, hend.core i (hn ▸ hi)]
    rfl

/-- Two cores in front of a cache that is divided between two clients: the second
request is a private hit, so the shared level never sees it; the third one finds
the block that the first core fetched for the same client; the last two are
refused. -/
theorem levels_run_alone_divided :
    let cache := Cache.empty (.ofCounts 1 1 16)
    let bank : Holding := { banks := #[some (.empty (.ofCounts 2 1 16))] }
    let shared := Scheme.banked { division := .ways 2, holdings := #[bank, bank] }
    let t : TwoLevel := { cores := #[{ cache }, { cache }], shared }
    let xs : List Request := [⟨0, 1, 0x00, .write⟩, ⟨0, 0, 0x08, .read⟩, ⟨1, 1, 0x00, .read⟩, ⟨1, 0, 0x10, .read⟩,
      ⟨2, 0, 0x00, .read⟩, ⟨1, 2, 0x00, .read⟩]
    TwoLevel.build 2 cache shared = .ok t ∧ t.accepted xs = xs.take 4 ∧
      passed cache [] (xs.take 4) = [⟨0, 1, 0x00, .write⟩, ⟨1, 1, 0x00, .read⟩, ⟨1, 0, 0x10, .read⟩] ∧
      (Run.final step t xs).private? 1 = .ok (alone cache (xs.take 4) 1) ∧
      (Run.final step t xs).shared = sharedAlone cache shared (xs.take 4) ∧
      (Run.final step t xs).tally? 1 = .ok { misses := 1, hits := 1 } := by
  intro cache bank shared t xs
  have hbuild : TwoLevel.build 2 cache shared = .ok t := rfl
  have haccepted : t.accepted xs = xs.take 4 := by decide
  obtain ⟨hprivate, hshared, -, htally⟩ := levels_run_alone hbuild xs
  rw [haccepted] at hprivate hshared
  refine ⟨hbuild, haccepted, by decide, hprivate 1 (by decide), hshared, ?_⟩
  rw [htally 1 (by decide)]
  decide

end TwoLevel

end LastLevel
