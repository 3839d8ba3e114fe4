import LastLevel.Proofs.Conservation
/-!
# Hits within hits

Two schemes are compared access by access: `s.HitsWithin u` says that after the
same accesses `u` hits wherever `s` does, and that both serve the same clients.
A private level in front of both keeps this, since it lets the same accesses
pass (`TwoLevel.HitsWithin.touch`), so it is a statement about hierarchies as
well. Then no client has more hits on the first hierarchy than on the second
(`Hierarchy.HitsWithin.hits_le`), and where each is within the other, all counts
are the same (`Hierarchy.HitsWithin.tally?_eq`). For scenarios that are built
alike this says how their replays compare (`Scenario.HitsNoMore` and
`Scenario.CountsAlike`).
-/

namespace LastLevel

/-! ## Schemes -/

namespace Scheme

/-- After the same accesses, the second scheme hits wherever the first one does. -/
structure HitsWithin (s u : Scheme) : Prop where
  clients : s.clients? = u.clients?
  hits : ∀ (xs : List Record) (x : Record),
    (Run.final step s xs).hits x.client.toNat x.address = true →
      (Run.final step u xs).hits x.client.toNat x.address = true

@[simp] theorem clients?_step (s : Scheme) (x : Record) : (s.step x).2.clients? = s.clients? := by
  cases hc : s.check x.client.toNat with
  | ok v => rw [step_of_ok hc, clients?_touch]
  | error e => rw [step_of_error hc]

namespace HitsWithin
variable {s u v : Scheme}

theorem refl (s : Scheme) : s.HitsWithin s := ⟨rfl, fun _ _ h => h⟩

theorem trans (h : s.HitsWithin u) (h' : u.HitsWithin v) : s.HitsWithin v :=
  ⟨h.clients.trans h'.clients, fun xs x hx => h'.hits xs x (h.hits xs x hx)⟩

theorem check_eq (h : s.HitsWithin u) (client : Nat) : s.check client = u.check client := by
  rw [check, h.clients, check]

theorem step (h : s.HitsWithin u) (x : Record) : (s.step x).2.HitsWithin (u.step x).2 := by
  refine ⟨by rw [clients?_step, clients?_step, h.clients], ?_⟩
  intro xs y hy
  exact h.hits (x :: xs) y hy

theorem touch (h : s.HitsWithin u) {x : Record} (hc : s.check x.client.toNat = .ok ()) :
    (s.touch x.client.toNat x.address x.kind).HitsWithin (u.touch x.client.toNat x.address x.kind) := by
  have hstep := h.step x
  rwa [step_of_ok hc, step_of_ok (h.check_eq _ ▸ hc)] at hstep

end HitsWithin

/-! ### Counts -/

/-- There are counts for exactly the clients that are served. -/
theorem tally?_eq_check (s : Scheme) (client : Nat) :
    s.tally? client = (s.check client).map fun _ => s.tallyOf client := by
  cases hn : s.clients? with
  | none =>
    cases s with
    | plain c => rfl
    | banked b => cases hn
    | regions r => cases hn
  | some n =>
    rw [check, hn]
    by_cases hi : client < n
    · rw [tally?_eq hn hi]
      simp only [checkClient_eq_ok.2 hi]
      rfl
    · simp only [checkClient, if_neg hi]
      cases s with
      | plain c => cases hn
      | banked b =>
        obtain rfl := Option.some.inj hn
        rw [tally?, Banked.tally?, Array.getElem?_eq_none (Nat.le_of_not_lt hi)]
        rfl
      | regions r =>
        obtain rfl := Option.some.inj hn
        rw [tally?, Regions.tally?, if_neg hi]
        rfl

/-- A client that is not served has an empty account. -/
theorem account_of_le {s : Scheme} {n i : Nat} (hn : s.clients? = some n) (hi : n ≤ i) : s.account i = {} := by
  have hno : s.tallyOf i = {} := by
    rw [tallyOf, tally?_eq_check, check, hn]
    simp only [checkClient, if_neg (Nat.not_lt.2 hi)]
    rfl
  have hserved : s.unservedOf i = 0 := by
    cases s with
    | plain c => rfl
    | regions r => rfl
    | banked b =>
      obtain rfl := Option.some.inj hn
      obtain ⟨division, holdings⟩ := b
      have hnone : holdings[i]? = none := Array.getElem?_eq_none hi
      cases division <;> simp [unservedOf, unserved?, hnone]
  rw [account, hno, hserved]

/-- No access goes unserved. -/
def Gapless : Scheme → Prop
  | banked b => ¬ b.division.MayMiss
  | _ => True

/-- Where no access goes unserved, a client's account is its counts. -/
theorem Gapless.account_eq {s : Scheme} (h : s.Gapless) (client : Nat) : s.account client = s.tallyOf client := by
  have hserved : s.unservedOf client = 0 := by
    cases s with
    | plain c => rfl
    | regions r => rfl
    | banked b =>
      obtain ⟨division, holdings⟩ := b
      cases division with
      | cells offsetBits clusters tables => exact absurd trivial h
      | ways sets => rfl
      | slices offsetBits selectionBits => rfl
      | clusters offsetBits clusterBits => rfl
  rw [account, hserved, Nat.add_zero]

theorem Gapless.touch {s : Scheme} (h : s.Gapless) (client : Nat) (a : Address) (kind : AccessKind) :
    (s.touch client a kind).Gapless := by
  cases s with
  | plain c => trivial
  | regions r => trivial
  | banked b => exact h

end Scheme

/-! ## Two levels -/

namespace TwoLevel

/-- The private caches are the same, and the shared level hits within the other
one. -/
structure HitsWithin (t u : TwoLevel) : Prop where
  size : t.cores.size = u.cores.size
  caches : ∀ i : Nat, t.cores[i]?.map (·.cache) = u.cores[i]?.map (·.cache)
  shared : t.shared.HitsWithin u.shared

namespace HitsWithin
variable {t u : TwoLevel}

theorem check_eq (h : t.HitsWithin u) (core client : Nat) : t.check core client = u.check core client := by
  rw [check, check, h.size, h.shared.check_eq]

theorem hitsPrivate_eq (h : t.HitsWithin u) (core : Nat) (a : Address) :
    t.hitsPrivate core a = u.hitsPrivate core a := by
  have hc := h.caches core
  unfold hitsPrivate
  cases ht : t.cores[core]? <;> cases hu : u.cores[core]? <;> simp_all

theorem hits (h : t.HitsWithin u) (core : Nat) (x : Record) (hx : t.hits core x.client.toNat x.address = true) :
    u.hits core x.client.toNat x.address = true := by
  rw [TwoLevel.hits, Bool.or_eq_true] at hx ⊢
  rw [← h.hitsPrivate_eq]
  exact hx.imp_right (h.shared.hits [] x)

/-- The same accesses pass the private caches of both. -/
theorem touch (h : t.HitsWithin u) {core : Nat} {x : Record} (hc : t.check core x.client.toNat = .ok ()) :
    (t.touch core x.client.toNat x.address x.kind).HitsWithin (u.touch core x.client.toNat x.address x.kind) where
  size := by rw [cores_size_touch, cores_size_touch, h.size]
  caches := by
    intro i
    have hi := h.caches i
    rw [getElem?_cores_touch, getElem?_cores_touch]
    split
    · cases ht : t.cores[i]? <;> cases hu : u.cores[i]? <;> simp_all
    · exact hi
  shared := by
    rw [shared_touch, shared_touch, h.hitsPrivate_eq]
    split
    · exact h.shared
    · exact h.shared.touch (check_eq_ok.1 hc).2

end HitsWithin
end TwoLevel

/-! ## Hierarchies -/

namespace Hierarchy

/-- Without a private level a run is one of the scheme. -/
theorem final_flat (s : Scheme) (xs : List Record) :
    Run.final step (flat s) xs = flat (Run.final Scheme.step s xs) := by
  induction xs generalizing s with
  | nil => rfl
  | cons x xs ih =>
    rw [Run.final_cons, Run.final_cons, ← ih]
    cases hc : s.check x.client.toNat with
    | ok u => rw [step_of_ok (show (flat s).check _ = _ from hc), Scheme.step_of_ok hc]; rfl
    | error e => rw [step_of_error (show (flat s).check _ = _ from hc), Scheme.step_of_error hc]

/-- After the same accesses, the second hierarchy hits wherever the first one
does. -/
def HitsWithin : Hierarchy → Hierarchy → Prop
  | flat s, flat u => s.HitsWithin u
  | twoLevel t, twoLevel u => t.HitsWithin u
  | _, _ => False

/-- Whether all clients are counted together. -/
def pooled : Hierarchy → Bool
  | flat (.plain _) => true
  | _ => false

/-- What the accesses of a client, or of all clients where they are counted
together, came to. -/
def account (h : Hierarchy) (client : Nat) : Tally :=
  match h with
  | flat s => s.account client
  | twoLevel t => t.tallyOf client

/-- The counts of a client; there are none where it is not served. -/
def tallyOf (h : Hierarchy) (client : Nat) : Tally :=
  match h with
  | flat s => s.tallyOf client
  | twoLevel t => t.tallyOf client

theorem hits_account (h : Hierarchy) (client : Nat) : (h.account client).hits = (h.tallyOf client).hits := by
  cases h <;> rfl

theorem account_eq_tallyOf {h : Hierarchy} (hg : h.scheme.Gapless) (client : Nat) :
    h.account client = h.tallyOf client := by
  cases h with
  | flat s => exact Scheme.Gapless.account_eq hg client
  | twoLevel t => rfl

theorem gapless_touch {h : Hierarchy} (hg : h.scheme.Gapless) (client : Nat) (a : Address) (kind : AccessKind) :
    (h.touch client a kind).scheme.Gapless := by
  cases h with
  | flat s => exact Scheme.Gapless.touch hg client a kind
  | twoLevel t =>
    show (t.touch client client a kind).shared.Gapless
    rw [TwoLevel.shared_touch]
    split
    · exact hg
    · exact Scheme.Gapless.touch hg client a kind

/-- Whether a client has counts; on two levels a core has them, even one that the
shared level does not serve. -/
def counted (h : Hierarchy) (client : Nat) : Except OutOfRange Unit :=
  match h with
  | flat s => s.check client
  | twoLevel t => checkClient client t.cores.size

theorem tally?_eq_counted (h : Hierarchy) (client : Nat) :
    h.tally? client = (h.counted client).map fun _ => h.tallyOf client := by
  cases h with
  | flat s => exact s.tally?_eq_check client
  | twoLevel t =>
    show t.tally? client = (checkClient client t.cores.size).map fun _ => t.tallyOf client
    by_cases hi : client < t.cores.size
    · rw [TwoLevel.tally?_eq hi, checkClient_eq_ok.2 hi]
      rfl
    · rw [TwoLevel.tally?, Array.getElem?_eq_none (Nat.le_of_not_lt hi), checkClient, if_neg hi]
      rfl

/-- An access is recorded in the account of its client, or in all accounts where
they are one. -/
theorem account_touch {h : Hierarchy} (hs : h.Sound) {j : Nat} (hc : h.check j = .ok ()) (a : Address)
    (kind : AccessKind) (i : Nat) :
    (h.touch j a kind).account i =
      if h.pooled = true ∨ j = i then (h.account i).record (h.hits j a) else h.account i := by
  cases h with
  | twoLevel t =>
    show (t.touch j j a kind).tallyOf i = if _ then (t.tallyOf i).record (t.hits j j a) else t.tallyOf i
    by_cases hij : j = i
    · subst hij
      rw [if_pos (.inr rfl), TwoLevel.tallyOf_touch (TwoLevel.check_eq_ok.1 hc).1]
    · rw [if_neg (by simp [pooled, hij]), TwoLevel.tallyOf_touch_of_ne hij]
  | flat s =>
    show (s.touch j a kind).account i = if _ then (s.account i).record (s.hits j a) else s.account i
    cases hn : s.clients? with
    | none =>
      cases s with
      | plain c => exact Cache.tally_touch c a kind
      | banked b => cases hn
      | regions r => cases hn
    | some n =>
      have hp : (flat s).pooled = false := by
        cases s with
        | plain c => cases hn
        | banked b => rfl
        | regions r => rfl
      by_cases hij : j = i
      · subst hij
        rw [if_pos (.inr rfl), Scheme.account_touch hs hn (Scheme.check_eq_ok.1 hc n hn)]
      · rw [if_neg (by simp [hp, hij]), Scheme.account_touch_of_ne hs hn hij]

theorem Fresh.account_eq {h : Hierarchy} (hf : h.Fresh) (i : Nat) : h.account i = {} := by
  cases h with
  | twoLevel t =>
    show t.tallyOf i = {}
    cases hc : t.cores[i]? with
    | none => simp [TwoLevel.tallyOf, TwoLevel.tally?, hc, Except.toOption]
    | some c => rw [TwoLevel.tallyOf_eq hc, (TwoLevel.Fresh.cores hf i c hc).2]
  | flat s =>
    show s.account i = {}
    cases hn : s.clients? with
    | none =>
      cases s with
      | plain c => exact Cache.Fresh.tally_eq hf
      | banked b => cases hn
      | regions r => cases hn
    | some n =>
      rcases Nat.lt_or_ge i n with hi | hi
      · exact Scheme.account_of_fresh hf hn hi
      · exact Scheme.account_of_le hn hi

namespace HitsWithin
variable {h k : Hierarchy}

theorem check_eq (hw : h.HitsWithin k) (client : Nat) : h.check client = k.check client := by
  cases h <;> cases k
  · exact Scheme.HitsWithin.check_eq hw client
  · exact hw.elim
  · exact hw.elim
  · exact TwoLevel.HitsWithin.check_eq hw client client

theorem hits (hw : h.HitsWithin k) (x : Record) (hx : h.hits x.client.toNat x.address = true) :
    k.hits x.client.toNat x.address = true := by
  cases h <;> cases k
  · exact Scheme.HitsWithin.hits hw [] x hx
  · exact hw.elim
  · exact hw.elim
  · exact TwoLevel.HitsWithin.hits hw _ x hx

theorem touch (hw : h.HitsWithin k) {x : Record} (hc : h.check x.client.toNat = .ok ()) :
    (h.touch x.client.toNat x.address x.kind).HitsWithin (k.touch x.client.toNat x.address x.kind) := by
  cases h <;> cases k
  · exact Scheme.HitsWithin.touch hw hc
  · exact hw.elim
  · exact hw.elim
  · exact TwoLevel.HitsWithin.touch hw hc

theorem pooled_eq (hw : h.HitsWithin k) : h.pooled = k.pooled := by
  cases h <;> cases k
  · next s u =>
    have hclients := Scheme.HitsWithin.clients hw
    cases s <;> cases u <;> first | rfl | cases hclients
  · exact hw.elim
  · exact hw.elim
  · rfl

theorem counted_eq (hw : h.HitsWithin k) (client : Nat) : h.counted client = k.counted client := by
  cases h <;> cases k
  · exact Scheme.HitsWithin.check_eq hw client
  · exact hw.elim
  · exact hw.elim
  · exact congrArg (checkClient client) (TwoLevel.HitsWithin.size hw)

theorem serves_eq (hw : h.HitsWithin k) (client : Nat) : h.serves client = k.serves client := by
  rw [Bool.eq_iff_iff, serves_iff, serves_iff, hw.check_eq]

/-! ### Runs -/

/-- A step that keeps a relation on states that are compared keeps it over a
run: a record is refused by both, or accessed in both. -/
theorem run {R : Hierarchy → Hierarchy → Prop} (hw : h.HitsWithin k) (hR : R h k)
    (htouch : ∀ (h k : Hierarchy) (x : Record), h.HitsWithin k → R h k → h.check x.client.toNat = .ok () →
      R (h.touch x.client.toNat x.address x.kind) (k.touch x.client.toNat x.address x.kind)) (xs : List Record) :
    (Run.final step h xs).HitsWithin (Run.final step k xs) ∧ R (Run.final step h xs) (Run.final step k xs) := by
  induction xs generalizing h k with
  | nil => exact ⟨hw, hR⟩
  | cons x xs ih =>
    have hcheck := hw.check_eq x.client.toNat
    rw [Run.final_cons, Run.final_cons]
    cases hc : h.check x.client.toNat with
    | ok u =>
      rw [step_of_ok hc, step_of_ok (hcheck ▸ hc)]
      exact ih (hw.touch hc) (htouch h k x hw hR hc)
    | error e =>
      rw [step_of_error hc, step_of_error (hcheck ▸ hc)]
      exact ih hw hR

/-- No client ever has more hits on the first hierarchy than on the second. -/
theorem hits_le (hw : h.HitsWithin k) (hf : h.Fresh) (kf : k.Fresh) (xs : List Record) {i : Nat} {t : Tally}
    (ht : (Run.final step h xs).tally? i = .ok t) :
    ∃ u, (Run.final step k xs).tally? i = .ok u ∧ t.hits ≤ u.hits := by
  obtain ⟨hend, -, -, hle⟩ := hw.run
    (R := fun h k => h.Sound ∧ k.Sound ∧ ∀ i, (h.account i).hits ≤ (k.account i).hits)
    ⟨hf.sound, kf.sound, fun i => by rw [hf.account_eq, kf.account_eq]⟩
    (by
      rintro h k x hw ⟨hs, ks, hle⟩ hc
      refine ⟨hs.touch _ _ _, ks.touch _ _ _, fun i => ?_⟩
      have hx := hw.hits x
      have hi := hle i
      rw [account_touch hs hc, account_touch ks (hw.check_eq _ ▸ hc), hw.pooled_eq]
      split
      · rw [Tally.hits_record, Tally.hits_record]
        cases hh : h.hits x.client.toNat x.address with
        | false => exact Nat.le_trans hi (Nat.le_add_right _ _)
        | true => rw [hx hh]; exact Nat.succ_le_succ hi
      · exact hi)
    xs
  rw [tally?_eq_counted] at ht ⊢
  rw [← hend.counted_eq]
  cases hc : (Run.final step h xs).counted i with
  | error e => rw [hc] at ht; cases ht
  | ok v =>
    rw [hc] at ht
    cases ht
    exact ⟨_, rfl, by rw [← hits_account, ← hits_account]; exact hle i⟩

/-- Where each of two hierarchies hits within the other, and no access goes
unserved, all counts are the same. -/
theorem tally?_eq (hw : h.HitsWithin k) (kw : k.HitsWithin h) (hf : h.Fresh) (kf : k.Fresh) (hg : h.scheme.Gapless)
    (kg : k.scheme.Gapless) (xs : List Record) (i : Nat) :
    (Run.final step h xs).tally? i = (Run.final step k xs).tally? i := by
  obtain ⟨hend, -, -, -, hg, kg, haccount⟩ := hw.run
    (R := fun h k => k.HitsWithin h ∧ h.Sound ∧ k.Sound ∧ h.scheme.Gapless ∧ k.scheme.Gapless ∧
      ∀ i, h.account i = k.account i)
    ⟨kw, hf.sound, kf.sound, hg, kg, fun i => by rw [hf.account_eq, kf.account_eq]⟩
    (by
      rintro h k x hw ⟨kw, hs, ks, hg, kg, haccount⟩ hc
      have kc := hw.check_eq _ ▸ hc
      have hx : h.hits x.client.toNat x.address = k.hits x.client.toNat x.address :=
        Bool.eq_iff_iff.2 ⟨hw.hits x, kw.hits x⟩
      refine ⟨kw.touch kc, hs.touch _ _ _, ks.touch _ _ _, gapless_touch hg _ _ _, gapless_touch kg _ _ _, ?_⟩
      intro i
      rw [account_touch hs hc, account_touch ks kc, hw.pooled_eq, haccount, hx])
    xs
  rw [tally?_eq_counted, tally?_eq_counted, hend.counted_eq, ← account_eq_tallyOf hg, ← account_eq_tallyOf kg,
    haccount]

/-- The same records are carried out, and the same refused. -/
theorem log_isOk_eq (hw : h.HitsWithin k) (xs : List Record) :
    (Run.log step h xs).map (·.2.isOk) = (Run.log step k xs).map (·.2.isOk) := by
  induction xs generalizing h k with
  | nil => rfl
  | cons x xs ih =>
    have hcheck := hw.check_eq x.client.toNat
    simp only [Run.log_cons, List.map_cons]
    cases hc : h.check x.client.toNat with
    | ok u =>
      rw [step_of_ok hc, step_of_ok (hcheck ▸ hc), ih (hw.touch hc)]
      rfl
    | error e => rw [step_of_error hc, step_of_error (hcheck ▸ hc), ih hw]

end HitsWithin

/-! ### New hierarchies -/

/-- What is built is the scheme, or all cores with the same private cache in front
of it. -/
theorem build_eq_ok {p : Plan} {level : Option PrivateLevel} {h : Hierarchy} :
    build p level = .ok h ↔ ∃ s, p.build = .ok s ∧
      match level with
      | none => h = flat s
      | some l =>
        ∃ c t, Cache.ofGeometry? l.cache = .ok c ∧ TwoLevel.build l.cores c s = .ok t ∧ h = twoLevel t := by
  unfold build
  cases p.build with
  | error e => simp
  | ok s =>
    cases level with
    | none => simp [eq_comm]
    | some l =>
      cases hc : Cache.ofGeometry? l.cache with
      | error m => simp [hc]
      | ok c => simp [hc, mapError_map_eq_ok, @eq_comm _ h]

theorem scheme_of_build {p : Plan} {level : Option PrivateLevel} {h : Hierarchy} (hb : build p level = .ok h) :
    p.build = .ok h.scheme := by
  obtain ⟨s, hs, hl⟩ := build_eq_ok.1 hb
  cases level with
  | none => rwa [hl]
  | some l =>
    obtain ⟨c, t, -, ht, rfl⟩ := hl
    unfold TwoLevel.build at ht
    split at ht <;> cases ht
    exact hs

/-- With the same private level in front, or with none, hierarchies compare as
their schemes do. -/
theorem hitsWithin_of_build {p q : Plan} {level : Option PrivateLevel} {h k : Hierarchy} (hb : build p level = .ok h)
    (kb : build q level = .ok k) (hw : h.scheme.HitsWithin k.scheme) : h.HitsWithin k := by
  obtain ⟨s, -, hl⟩ := build_eq_ok.1 hb
  obtain ⟨u, -, kl⟩ := build_eq_ok.1 kb
  cases level with
  | none =>
    subst hl kl
    exact hw
  | some l =>
    obtain ⟨c, t, hc, ht, rfl⟩ := hl
    obtain ⟨d, v, hd, hv, rfl⟩ := kl
    obtain rfl : c = d := Except.ok.inj (hc.symm.trans hd)
    unfold TwoLevel.build at ht hv
    split at ht <;> cases ht
    rw [if_neg (by assumption)] at hv
    cases hv
    exact ⟨rfl, fun i => rfl, hw⟩

end Hierarchy

/-! ## Scenarios -/

/-- A replay on a new hierarchy carries out the records of the clients that are
served. -/
theorem Scenario.replay_eq {s : Scenario} {h : Hierarchy} (hb : s.build = .ok h) (t : Trace) :
    ∃ r, s.replay t = .ok r ∧ r.accesses = t.records.countP (fun x => h.serves x.client.toNat) ∧
      r.rejected = t.records.countP (fun x => !h.serves x.client.toNat) ∧
      r.hierarchy = Run.final Hierarchy.step h t.records := by
  refine ⟨_, by rw [replay, hb], ?_, ?_, Replay.hierarchy_run _ _⟩
  · rw [Replay.accesses_run, Nat.zero_add]
  · rw [Replay.rejected_run, Nat.zero_add]

namespace Scenario

/-- Once both scenarios are built, every trace has on both as many accesses, as
many rejected records, and the same counts for every client. -/
def CountsAlike (s u : Scenario) : Prop :=
  ∀ h k, s.build = .ok h → u.build = .ok k → ∀ t : Trace, ∃ r q, s.replay t = .ok r ∧ u.replay t = .ok q ∧
    r.accesses = q.accesses ∧ r.rejected = q.rejected ∧ ∀ i, r.hierarchy.tally? i = q.hierarchy.tally? i

/-- Once both scenarios are built, they carry out and refuse the same records of
every trace, and no client has more hits on the first one than on the second. -/
def HitsNoMore (s u : Scenario) : Prop :=
  ∀ h k, s.build = .ok h → u.build = .ok k → ∀ t : Trace,
    (Run.log Hierarchy.step h t.records).map (·.2.isOk) = (Run.log Hierarchy.step k t.records).map (·.2.isOk) ∧
    ∃ r q, s.replay t = .ok r ∧ u.replay t = .ok q ∧ r.accesses = q.accesses ∧ r.rejected = q.rejected ∧
      ∀ i m, r.hierarchy.tally? i = .ok m → ∃ n, q.hierarchy.tally? i = .ok n ∧ m.hits ≤ n.hits

variable {s u : Scenario}

theorem hitsWithin_of_build {h k : Hierarchy} (hlevel : s.level = u.level) (hb : s.build = .ok h)
    (kb : u.build = .ok k) (hw : h.scheme.HitsWithin k.scheme) : h.HitsWithin k := by
  rw [build, ← hlevel] at kb
  exact Hierarchy.hitsWithin_of_build hb kb hw

theorem hitsNoMore_of_schemes (hlevel : s.level = u.level)
    (hw : ∀ p q, s.plan.build = .ok p → u.plan.build = .ok q → p.HitsWithin q) : s.HitsNoMore u := by
  intro h k hb kb t
  have hk := hitsWithin_of_build hlevel hb kb (hw _ _ (Hierarchy.scheme_of_build hb) (Hierarchy.scheme_of_build kb))
  obtain ⟨r, hr, hra, hrr, hrh⟩ := replay_eq hb t
  obtain ⟨q, hq, hqa, hqr, hqh⟩ := replay_eq kb t
  refine ⟨hk.log_isOk_eq t.records, r, q, hr, hq, ?_, ?_, fun i m hm => ?_⟩
  · simp only [hra, hqa, hk.serves_eq]
  · simp only [hrr, hqr, hk.serves_eq]
  · rw [hrh] at hm
    rw [hqh]
    exact hk.hits_le (Hierarchy.fresh_of_build hb) (Hierarchy.fresh_of_build kb) t.records hm

theorem countsAlike_of_schemes (hlevel : s.level = u.level)
    (hw : ∀ p q, s.plan.build = .ok p → u.plan.build = .ok q →
      p.HitsWithin q ∧ q.HitsWithin p ∧ p.Gapless ∧ q.Gapless) : s.CountsAlike u := by
  intro h k hb kb t
  obtain ⟨hw, kw, hg, kg⟩ := hw _ _ (Hierarchy.scheme_of_build hb) (Hierarchy.scheme_of_build kb)
  have hk := hitsWithin_of_build hlevel hb kb hw
  have kh := hitsWithin_of_build hlevel.symm kb hb kw
  obtain ⟨r, hr, hra, hrr, hrh⟩ := replay_eq hb t
  obtain ⟨q, hq, hqa, hqr, hqh⟩ := replay_eq kb t
  refine ⟨r, q, hr, hq, ?_, ?_, fun i => ?_⟩
  · simp only [hra, hqa, hk.serves_eq]
  · simp only [hrr, hqr, hk.serves_eq]
  · rw [hrh, hqh]
    exact hk.tally?_eq kh (Hierarchy.fresh_of_build hb) (Hierarchy.fresh_of_build kb) hg kg t.records i

end Scenario

end LastLevel
