import LastLevel.Proofs.Accounts
/-!
# Every access is counted

After a replay all counters add up. `Scheme.Balances` and `TwoLevel.Balances` say
how those of one level and of two hang together, an access keeps them balanced,
and so does a run (`Hierarchy.balances_final`). `Scenario.replay_conserves` is the
result for replays.
-/

namespace LastLevel

/-! ## One level -/

namespace Scheme

theorem check_eq_ok {s : Scheme} {client : Nat} : s.check client = .ok () ↔ ∀ n, s.clients? = some n → client < n := by
  unfold check
  cases s.clients? <;> simp [checkClient_eq_ok]

/-- Whether a client's accesses are carried out. -/
def serves (s : Scheme) (client : Nat) : Bool :=
  match s.clients? with
  | none => true
  | some clients => client < clients

theorem serves_iff {s : Scheme} {client : Nat} : s.serves client = true ↔ s.check client = .ok () := by
  unfold serves check
  cases s.clients? <;> simp [checkClient_eq_ok]

/-- The counters of a scheme that has taken `own i` accesses of each client `i`,
and `accesses` in all. -/
structure Balances (s : Scheme) (own : Nat → Nat) (accesses : Nat) : Prop where
  plain : ∀ c, s = .plain c → c.tally.accesses = accesses
  client : ∀ n, s.clients? = some n → ∀ i < n, (s.account i).accesses = own i
  clients : ∀ n, s.clients? = some n → (Tally.total n s.account).accesses = accesses
  /-- The counts of the clients are those of the one cache, taken apart. -/
  regions : ∀ r, s = .regions r → Tally.total r.clients s.tallyOf = r.cache.tally

/-- An access that is served keeps the counters balanced. -/
theorem Balances.touch {s : Scheme} {own : Nat → Nat} {accesses : Nat} (hb : s.Balances own accesses) (hs : s.Sound)
    {client : Nat} (hc : s.check client = .ok ()) (a : Address) (kind : AccessKind) :
    (s.touch client a kind).Balances (fun i => own i + if client = i then 1 else 0) (accesses + 1) := by
  have hserved := check_eq_ok.1 hc
  have hself : ∀ n, s.clients? = some n →
      (s.touch client a kind).account client = (s.account client).record (s.hits client a) :=
    fun n hn => account_touch hs hn (hserved n hn) a kind
  have hother : ∀ n, s.clients? = some n → ∀ i, client ≠ i → (s.touch client a kind).account i = s.account i :=
    fun n hn i hi => account_touch_of_ne hs hn hi a kind
  refine ⟨fun c he => ?_, fun n hn i hi => ?_, fun n hn => ?_, fun r he => ?_⟩
  · cases s with
    | plain c =>
      obtain rfl := Scheme.plain.inj he
      rw [Cache.tally_touch, Tally.accesses_record, hb.plain c rfl]
    | banked b => cases he
    | regions r => cases he
  · rw [clients?_touch] at hn
    split
    · next he => rw [← he, hself n hn, Tally.accesses_record, hb.client n hn client (hserved n hn)]
    · next hne => rw [hother n hn i hne, hb.client n hn i hi, Nat.add_zero]
  · rw [clients?_touch] at hn
    rw [Tally.total_record (hserved n hn) (hself n hn) (hother n hn), Tally.accesses_record, hb.clients n hn]
  · cases s with
    | plain c => cases he
    | banked b => cases he
    | regions q =>
      obtain rfl := Scheme.regions.inj he
      have hlt := hserved q.clients rfl
      rw [Regions.clients, Regions.fixed_touch, Regions.tally_touch hlt, ← hb.regions q rfl]
      exact Tally.total_record hlt (hself _ rfl) (hother _ rfl)

theorem Fresh.balances {s : Scheme} (h : s.Fresh) : s.Balances (fun _ => 0) 0 := by
  refine ⟨fun c hc => ?_, fun n hn i hi => ?_, fun n hn => ?_, fun r hr => ?_⟩
  · subst hc
    rw [Cache.Fresh.tally_eq h]
    rfl
  · rw [account_of_fresh h hn hi]
    rfl
  · rw [Tally.total_eq_empty fun i hi => account_of_fresh h hn hi]
    rfl
  · subst hr
    rw [Regions.Fresh.cache h]
    exact Tally.total_eq_empty fun i hi => account_of_fresh (s := regions r) h rfl hi

end Scheme

/-! ## Two levels -/

namespace TwoLevel

/-- How the counts of private caches, of their cores and of what came to the
shared level hang together. -/
structure Passed (privately core shared : Tally) : Prop where
  accesses : privately.misses = shared.accesses
  misses : core.misses = shared.misses
  hits : core.hits = privately.hits + shared.hits

/-- An access is recorded privately and for its core, and in the shared level if
it is not found before. -/
theorem Passed.record {privately core shared : Tally} (h : Passed privately core shared) (found hit : Bool) :
    Passed (privately.record found) (core.record (found || hit)) (if found then shared else shared.record hit) := by
  obtain ⟨haccesses, hmisses, hhits⟩ := h
  cases found with
  | true => exact ⟨haccesses, hmisses, by simp [Tally.record, hhits, Nat.add_right_comm]⟩
  | false =>
    refine ⟨?_, ?_, ?_⟩
    · rw [if_neg Bool.false_ne_true, Tally.accesses_record, Tally.misses_record, haccesses, if_neg Bool.false_ne_true]
    · rw [if_neg Bool.false_ne_true, Bool.false_or, Tally.misses_record, Tally.misses_record, hmisses]
    · rw [if_neg Bool.false_ne_true, Bool.false_or, Tally.hits_record, Tally.hits_record, Tally.hits_record, hhits,
        if_neg Bool.false_ne_true, Nat.add_zero, Nat.add_assoc]

/-- The counters of two levels that have taken `own i` accesses of each core `i`
on its own behalf. -/
structure Balances (t : TwoLevel) (own : Nat → Nat) : Prop where
  core : ∀ i < t.cores.size, (t.privateTally i).accesses = own i ∧ (t.tallyOf i).accesses = own i
  client : ∀ n, t.shared.clients? = some n → ∀ i < t.cores.size, i < n →
    Passed (t.privateTally i) (t.tallyOf i) (t.shared.account i)
  /-- An undivided shared level counts for all cores together. -/
  plain : ∀ c, t.shared = .plain c →
    Passed (.total t.cores.size t.privateTally) (.total t.cores.size t.tallyOf) c.tally

/-- An access that is served keeps the counters balanced. -/
theorem Balances.touch {t : TwoLevel} {own : Nat → Nat} (hb : t.Balances own) (hs : t.Sound) {i : Nat}
    (hc : t.check i i = .ok ()) (a : Address) (kind : AccessKind) :
    (t.touch i i a kind).Balances (fun j => own j + if i = j then 1 else 0) := by
  obtain ⟨hi, hclient⟩ := check_eq_ok.1 hc
  have hcore := tallyOf_touch hi i a kind
  have hprivate := privateTally_touch hi i a kind
  have hcore' := fun j (hj : i ≠ j) => tallyOf_touch_of_ne (t := t) hj i a kind
  have hprivate' := fun j (hj : i ≠ j) => privateTally_touch_of_ne (t := t) hj i a kind
  refine ⟨fun j hj => ?_, fun n hn j hj hjn => ?_, fun c he => ?_⟩
  · rw [cores_size_touch] at hj
    obtain ⟨hp, ht⟩ := hb.core j hj
    by_cases hij : i = j
    · subst hij
      rw [hprivate, hcore, Tally.accesses_record, Tally.accesses_record, hp, ht, if_pos rfl]
      exact ⟨rfl, rfl⟩
    · rw [hprivate' j hij, hcore' j hij, hp, ht, if_neg hij]
      exact ⟨rfl, rfl⟩
  · rw [cores_size_touch] at hj
    rw [clients?_touch] at hn
    have hpassed := hb.client n hn j hj hjn
    by_cases hij : i = j
    · subst hij
      rw [hprivate, hcore, account_touch hs.shared hn hjn]
      exact hpassed.record _ _
    · rwa [hprivate' j hij, hcore' j hij, account_touch_of_ne hs.shared hn hij]
  · rw [cores_size_touch, Tally.total_record hi hprivate hprivate', Tally.total_record hi hcore hcore']
    obtain ⟨d, hd, htally⟩ := plain_of_touch he
    rw [htally, hits, hd]
    exact (hb.plain d hd).record _ _

theorem Fresh.balances {t : TwoLevel} (h : t.Fresh) : t.Balances fun _ => 0 := by
  have hcores : ∀ i < t.cores.size, t.privateTally i = {} ∧ t.tallyOf i = {} := by
    intro i hi
    have hc := Array.getElem?_eq_getElem hi
    obtain ⟨hcache, htally⟩ := h.cores i _ hc
    exact ⟨by rw [privateTally_eq hc, hcache.tally_eq], by rw [tallyOf_eq hc, htally]⟩
  refine ⟨fun i hi => ?_, fun n hn i hi hin => ?_, fun c hc => ?_⟩
  · rw [(hcores i hi).1, (hcores i hi).2]
    exact ⟨rfl, rfl⟩
  · rw [(hcores i hi).1, (hcores i hi).2, Scheme.account_of_fresh h.shared hn hin]
    exact ⟨rfl, rfl, rfl⟩
  · have hfresh : c.Fresh := by
      have hs := h.shared
      rwa [hc] at hs
    rw [Tally.total_eq_empty fun i hi => (hcores i hi).1, Tally.total_eq_empty fun i hi => (hcores i hi).2,
      hfresh.tally_eq]
    exact ⟨rfl, rfl, rfl⟩

end TwoLevel

/-! ## Hierarchies -/

namespace Hierarchy

/-- Whether a client's accesses are carried out. -/
def serves (h : Hierarchy) (client : Nat) : Bool :=
  match h with
  | flat s => s.serves client
  | twoLevel t => client < t.cores.size && t.shared.serves client

theorem serves_iff {h : Hierarchy} {client : Nat} : h.serves client = true ↔ h.check client = .ok () := by
  cases h with
  | flat s => exact Scheme.serves_iff
  | twoLevel t => simp [serves, check, TwoLevel.check_eq_ok, Scheme.serves_iff]

theorem serves_final (h : Hierarchy) (xs : List Record) (client : Nat) :
    (Run.final step h xs).serves client = h.serves client := by
  rw [Bool.eq_iff_iff, serves_iff, serves_iff, check_final]

/-- How many records of a client are carried out. -/
def accepted (h : Hierarchy) (xs : List Record) (client : Nat) : Nat :=
  xs.countP fun x => h.serves x.client.toNat && x.client.toNat == client

def Balances (h : Hierarchy) (own : Nat → Nat) (accesses : Nat) : Prop :=
  match h with
  | flat s => s.Balances own accesses
  | twoLevel t => t.Balances own

theorem Balances.touch {h : Hierarchy} {own : Nat → Nat} {accesses : Nat} (hb : h.Balances own accesses) (hs : h.Sound)
    {client : Nat} (hc : h.check client = .ok ()) (a : Address) (kind : AccessKind) :
    (h.touch client a kind).Balances (fun i => own i + if client = i then 1 else 0) (accesses + 1) := by
  cases h with
  | flat s => exact Scheme.Balances.touch hb hs hc a kind
  | twoLevel t => exact TwoLevel.Balances.touch hb hs hc a kind

theorem Fresh.balances {h : Hierarchy} (hf : h.Fresh) : h.Balances (fun _ => 0) 0 := by
  cases h with
  | flat s => exact Scheme.Fresh.balances hf
  | twoLevel t => exact TwoLevel.Fresh.balances hf

/-- Counters that start at zero stay balanced with the records carried out. -/
theorem balances_final {h : Hierarchy} (hf : h.Fresh) (xs : List Record) :
    (Run.final step h xs).Sound ∧
      (Run.final step h xs).Balances (h.accepted xs) (xs.countP fun x => h.serves x.client.toNat) := by
  induction xs using List.reverseRecOn with
  | nil => exact ⟨hf.sound, hf.balances⟩
  | append_singleton xs x ih =>
    obtain ⟨hs, hb⟩ := ih
    have hx := serves_final h xs x.client.toNat
    have hown : h.accepted (xs ++ [x]) =
        fun i => h.accepted xs i + if h.serves x.client.toNat && x.client.toNat == i then 1 else 0 := by
      funext i
      rw [accepted, List.countP_append, List.countP_singleton, ← accepted]
    rw [Run.final_append, hown, List.countP_append, List.countP_singleton, ← hx]
    generalize Run.final step h xs = last at hs hb
    rw [Run.final_cons, Run.final_nil]
    cases hc : last.check x.client.toNat with
    | ok u =>
      rw [step_of_ok hc, serves_iff.2 hc]
      simpa using ⟨hs.touch _ _ _, hb.touch hs hc x.address x.kind⟩
    | error e =>
      -- A record that is not served changes nothing.
      have hno : last.serves x.client.toNat = false := by
        rw [Bool.eq_false_iff, ne_eq, serves_iff, hc]
        simp
      rw [step_of_error hc, hno]
      exact ⟨hs, hb⟩

end Hierarchy

/-! ## Replays -/

namespace Replay

theorem accesses_step (r : Replay) (x : Record) :
    (r.step x).accesses = r.accesses + if r.hierarchy.serves x.client.toNat then 1 else 0 := by
  have hserves : r.hierarchy.serves x.client.toNat = true ↔ _ := Hierarchy.serves_iff
  rw [step]
  cases hc : r.hierarchy.check x.client.toNat with
  | ok u => rw [if_pos (hserves.2 hc)]
  | error e => simp [hserves, hc]

theorem accesses_run (r : Replay) (xs : List Record) :
    (r.run xs).accesses = r.accesses + xs.countP fun x => r.hierarchy.serves x.client.toNat := by
  induction xs using List.reverseRecOn with
  | nil => rfl
  | append_singleton xs x ih =>
    have hrun : r.run (xs ++ [x]) = (r.run xs).step x := List.foldl_append
    rw [hrun, accesses_step, ih, hierarchy_run, Hierarchy.serves_final, List.countP_append, List.countP_singleton,
      Nat.add_assoc]

theorem rejected_run (r : Replay) (xs : List Record) :
    (r.run xs).rejected = r.rejected + xs.countP fun x => !r.hierarchy.serves x.client.toNat := by
  have hall := accesses_add_rejected r xs
  have hlength := List.length_eq_countP_add_countP (l := xs) (p := fun x : Record => r.hierarchy.serves x.client.toNat)
  simp only [Bool.not_eq_true, Bool.decide_eq_false] at hlength
  rw [accesses_run] at hall
  omega

end Replay

namespace Scenario

/-- A scenario that is built is replayed to the end of every trace, and no access
is lost or counted twice. On one level the counts of a client are its accepted
records, those of an undivided cache all of them, and those of a cache divided
into regions are its clients' taken together. On two levels a core's counts and
those of its private cache are its accepted records, and the private misses are
what the shared level counts for it, or for all cores where it is undivided. -/
theorem replay_conserves {s : Scenario} {h : Hierarchy} (hb : s.build = .ok h) (t : Trace) :
    ∃ r, s.replay t = .ok r ∧
      r.accesses + r.rejected = t.records.length ∧
      r.rejected = t.records.countP (fun x => !h.serves x.client.toNat) ∧
      match r.hierarchy with
      | .flat l =>
        (∀ c, l = .plain c → r.accesses = c.tally.misses + c.tally.hits) ∧
        (∀ n, l.clients? = some n →
          r.accesses = ∑ i ∈ Finset.range n, ((l.tallyOf i).misses + l.unservedOf i + (l.tallyOf i).hits) ∧
          ∀ i < n, l.tally? i = .ok (l.tallyOf i) ∧
            (l.tallyOf i).misses + l.unservedOf i + (l.tallyOf i).hits = h.accepted t.records i) ∧
        ∀ q, l = .regions q →
          ∑ i ∈ Finset.range q.clients, (l.tallyOf i).misses = q.cache.tally.misses ∧
          ∑ i ∈ Finset.range q.clients, (l.tallyOf i).hits = q.cache.tally.hits
      | .twoLevel l =>
        (∀ i < l.cores.size,
          l.tally? i = .ok (l.tallyOf i) ∧ (l.private? i).map (·.tally) = .ok (l.privateTally i) ∧
          (l.privateTally i).misses + (l.privateTally i).hits = h.accepted t.records i ∧
          (l.tallyOf i).misses + (l.tallyOf i).hits = h.accepted t.records i) ∧
        (∀ n, l.shared.clients? = some n → ∀ i < l.cores.size, i < n →
          l.shared.tally? i = .ok (l.shared.tallyOf i) ∧
          (l.privateTally i).misses =
            (l.shared.tallyOf i).misses + l.shared.unservedOf i + (l.shared.tallyOf i).hits ∧
          (l.tallyOf i).misses = (l.shared.tallyOf i).misses + l.shared.unservedOf i ∧
          (l.tallyOf i).hits = (l.privateTally i).hits + (l.shared.tallyOf i).hits) ∧
        ∀ c, l.shared = .plain c →
          ∑ i ∈ Finset.range l.cores.size, (l.privateTally i).misses = c.tally.misses + c.tally.hits ∧
          ∑ i ∈ Finset.range l.cores.size, (l.tallyOf i).misses = c.tally.misses ∧
          ∑ i ∈ Finset.range l.cores.size, (l.tallyOf i).hits =
            ∑ i ∈ Finset.range l.cores.size, (l.privateTally i).hits + c.tally.hits := by
  have hreplay : s.replay t = .ok (Replay.run { trace := t.name, hierarchy := h } t.records) := by rw [replay, hb]
  refine ⟨_, hreplay, ?_, ?_, ?_⟩
  · rw [Replay.accesses_add_rejected, Nat.zero_add, Nat.zero_add]
  · rw [Replay.rejected_run, Nat.zero_add]
  · have hbalances := (Hierarchy.balances_final (Hierarchy.fresh_of_build hb) t.records).2
    have haccesses := Replay.accesses_run { trace := t.name, hierarchy := h } t.records
    rw [Nat.zero_add] at haccesses
    rw [← haccesses] at hbalances
    rw [Replay.hierarchy_run]
    cases hlast : Run.final Hierarchy.step h t.records with
    | flat l =>
      rw [hlast] at hbalances
      obtain ⟨hplain, hclient, hclients, hregions⟩ := hbalances
      refine ⟨fun c hc => (hplain c hc).symm, fun n hn => ⟨?_, fun i hi => ⟨?_, ?_⟩⟩, fun q hq => ?_⟩
      · exact (hclients n hn).symm.trans (Tally.accesses_total n l.account)
      · exact Scheme.tally?_eq hn hi
      · exact hclient n hn i hi
      · exact ⟨congrArg Tally.misses (hregions q hq), congrArg Tally.hits (hregions q hq)⟩
    | twoLevel l =>
      rw [hlast] at hbalances
      obtain ⟨hcore, hclient, hplain⟩ := hbalances
      refine ⟨fun i hi => ⟨?_, ?_, hcore i hi⟩, fun n hn i hi hin => ⟨?_, ?_⟩, fun c hc => ?_⟩
      · exact TwoLevel.tally?_eq hi
      · exact TwoLevel.private?_eq hi
      · exact Scheme.tally?_eq hn hin
      · obtain ⟨hpassed, hmisses, hhits⟩ := hclient n hn i hi hin
        exact ⟨hpassed, hmisses, hhits⟩
      · obtain ⟨hpassed, hmisses, hhits⟩ := hplain c hc
        exact ⟨hpassed, hmisses, hhits⟩

/-- Two cores in front of a cache in which the second client has only one of the
two cells it selects, and a record of a core that does not exist. -/
theorem replay_conserves_with_missing_cell :
    let s : Scenario :=
      { label := "", plan := .interIntra [[32, 32], [32, 0]] [[1, 1], [1, 1]] 2 16, level := some ⟨2, ⟨16, 1, 16⟩⟩ }
    let t : Trace := ⟨"t", [⟨0x00, 0, .write⟩, ⟨0x10, 1, .read⟩, ⟨0x10, 1, .read⟩, ⟨0x00, 1, .read⟩, ⟨0x10, 1, .read⟩,
      ⟨0x00, 2, .read⟩]⟩
    ∃ h r l, s.build = .ok h ∧ s.replay t = .ok r ∧ r.hierarchy = .twoLevel l ∧
      r.accesses + r.rejected = 6 ∧ r.rejected = 1 ∧
      (l.tallyOf 1).misses + (l.tallyOf 1).hits = 4 ∧
      (l.privateTally 1).misses = (l.shared.tallyOf 1).misses + 2 + (l.shared.tallyOf 1).hits ∧
      (l.tallyOf 1).hits = (l.privateTally 1).hits + (l.shared.tallyOf 1).hits := by
  intro s t
  have hb := (rfl : s.build = .ok _)
  obtain ⟨r, hr, hall, hrejected, hlevels⟩ := replay_conserves hb t
  obtain rfl := Except.ok.inj hr
  obtain ⟨hcore, hshared, -⟩ := hlevels
  obtain ⟨-, -, -, hcounts⟩ := hcore 1 (by decide)
  obtain ⟨-, hpassed, -, hhits⟩ := hshared 2 rfl 1 (by decide) (by decide)
  exact ⟨_, _, _, hb, hr, rfl, hall, hrejected, hcounts, hpassed, hhits⟩

end Scenario

end LastLevel
