import LastLevel.Proofs.Soundness
import LastLevel.Proofs.Steering
/-!
# The only fault is a client that is not served

An access looks up a client, a bank, a set, a way and an entry of a table. On
sound states all lookups but the first succeed, so an attempt comes to the same
as the access it spells out (`Hierarchy.attempt_eq`). It fails only for a client
that is refused, and a client is refused before anything is changed. Main
statement: `faults_exactly_when_refused`.
-/

namespace LastLevel

theorem modify_const {α : Type} {xs : Array α} {i : Nat} {x y : α} {f : α → α} (h : xs[i]? = some x) (hf : f x = y) :
    xs.modify i (fun _ => y) = xs.modify i f := by
  apply Array.ext_getElem?
  intro k
  simp only [Array.getElem?_modify]
  split
  · next hk => subst hk; simp [h, hf]
  · rfl

theorem modify_const_const {α : Type} {xs : Array α} {i : Nat} {x z : α} {f : α → α} (h : xs[i]? = some x)
    (hf : f x = z) (y : α) : (xs.modify i fun _ => y).modify i (fun _ => z) = xs.modify i f := by
  rw [← modify_const h hf]
  apply Array.ext_getElem?
  intro k
  simp only [Array.getElem?_modify]
  split <;> simp [Function.comp_def]

namespace Attempt

variable {σ τ α β : Type}

/-- The outcome of an access that is answered or refused. -/
def outcome (s : σ) : Except OutOfRange (α × σ) → EStateM.Result Fault σ α
  | .ok (a, s') => .ok a s'
  | .error e => .error (.client e) s

/-- What an attempt answers, and the state after it, even where it fails. -/
def settle : EStateM.Result Fault σ α → Except Fault α × σ
  | .ok a s => (.ok a, s)
  | .error f s => (.error f, s)

/-- The state after one attempt for each input. -/
def after (m : β → Attempt σ α) (s : σ) (xs : List β) : σ := Run.final (fun s x => settle (m x s)) s xs

/-- In the state `s`, exactly the faults with `p` end the attempt, and then the
state is still `s`. -/
def FailsExactly (m : Attempt σ α) (s : σ) (p : Fault → Prop) : Prop := ∀ f t, m s = .error f t ↔ p f ∧ t = s

theorem require_of_ok {x : Except OutOfRange Unit} {s : σ} (h : x = .ok ()) : require x s = .ok () s := by
  subst h
  rfl

theorem require_of_error {x : Except OutOfRange Unit} {s : σ} {e : OutOfRange} (h : x = .error e) :
    require x s = .error (.client e) s := by
  subst h
  rfl

theorem lift_outcome (f : σ → τ) (s : σ) (r : Except OutOfRange (α × σ)) :
    lift f (outcome s r) = outcome (f s) (r.map fun p => (p.1, f p.2)) := by
  cases r <;> rfl

/-- An access that is checked first fails for those the check refuses. -/
theorem failsExactly_of_outcome {m : Attempt σ α} {s : σ} {check : Except OutOfRange Unit} {next : Unit → α × σ}
    (h : m s = outcome s (check.map next)) {refused : OutOfRange → Prop}
    (hr : ∀ e, check = .error e ↔ refused e) : m.FailsExactly s fun f => ∃ e, refused e ∧ f = .client e := by
  intro f t
  rw [h]
  simp only [← hr]
  cases check with
  | ok u => simp [Except.map, outcome]
  | error e => simp [Except.map, outcome, eq_comm]

/-- Where attempts come to the same as the steps of a system, so do runs of
them. -/
theorem after_eq_final {ω : Type} {m : β → Attempt σ α} {step : σ → β → ω × σ} {I : σ → Prop}
    (hm : ∀ s x, I s → (settle (m x s)).2 = (step s x).2) (hstep : ∀ s x, I s → I (step s x).2) {s : σ} (h : I s)
    (xs : List β) : after m s xs = Run.final step s xs ∧ I (Run.final step s xs) := by
  induction xs generalizing s with
  | nil => exact ⟨rfl, h⟩
  | cons x xs ih =>
    obtain ⟨he, hi⟩ := ih (hstep s x h)
    refine ⟨?_, hi⟩
    rw [Run.final_cons, ← he, after, Run.final_cons, hm s x h, after]

end Attempt

/-! ## Caches -/

namespace Cache
variable {c : Cache}

/-- Only the index of the set can be wrong. -/
theorem attemptAt_of_le {l : Location} (hl : c.sets.size ≤ l.set) (a : Address) (kind : AccessKind) :
    attemptAt l a kind c = .error (.set { set := l.set, sets := c.sets.size }) c := by
  have hset : c.set? l.set = .error (.set { set := l.set, sets := c.sets.size }) := by
    rw [set?, Array.getElem?_eq_none hl]
  refine Attempt.bind_of_error ?_
  rw [Attempt.within, hset]

theorem attemptAt_of_lt (h : c.Sound) {l : Location} (hl : l.set < c.sets.size) (a : Address) (kind : AccessKind) :
    attemptAt l a kind c = .ok (c.holdsAt l) (c.touchAt l a kind) := by
  have hs : c.sets[l.set]? = some c.sets[l.set] := Array.getElem?_eq_getElem hl
  have hset : c.set? l.set = .ok c.sets[l.set] := by rw [set?, hs]
  have hhit : c.holdsAt l = c.sets[l.set].holds l.tag := by rw [holdsAt, hs]
  have hmoved := CacheSet.attempt_eq h.ways (h.sets _ _ hs) l.tag a kind
  rw [attemptAt, Attempt.bind_of_ok (Attempt.within_of_ok (s := c) hset hmoved), hhit]
  refine congrArg (EStateM.Result.ok _) (eq_of_fields rfl ?_ ?_)
  · exact modify_const (f := (·.touch l.tag a kind)) hs rfl
  · rw [tally_touchAt, hhit]
    rfl

theorem attempt_eq (h : c.Sound) (a : Address) (kind : AccessKind) :
    attempt a kind c = .ok (c.hits a) (c.touch a kind) :=
  attemptAt_of_lt h (by rw [c.sets_size]; exact c.shape.locate_set_lt a) a kind

end Cache

/-! ## Schemes -/

theorem Holding.attempt_eq {h : Holding} (hb : ∀ (i : Nat) (c : Cache), h.bank? i = some c → c.Sound) {i : Nat}
    (hi : i < h.banks.size) (a : Address) (kind : AccessKind) :
    Holding.attempt i a kind h = .ok (h.hits i a) (h.touch i a kind) := by
  have hbank : h.banks[i]? = some h.banks[i] := Array.getElem?_eq_getElem hi
  rw [attempt, Attempt.lookup_of_some hbank]
  cases hc : h.banks[i] with
  | none =>
    have hnone : h.bank? i = none := by rw [bank?, hbank, hc]; rfl
    rw [touch_of_none hnone, hits, hnone]
  | some c =>
    have hsome : h.bank? i = some c := by rw [bank?, hbank, hc]; rfl
    rw [hc] at hbank
    have hmod : (h.banks.modify i fun _ => some (c.touch a kind)) = h.banks.modify i (·.map fun c => c.touch a kind) :=
      modify_const hbank rfl
    rw [touch, hsome, hits_eq hsome]
    simp only [Cache.attempt_eq (hb i c hsome), Attempt.lift, hmod, Option.isSome_some, if_true]

theorem Holding.Sound.serve_eq {d : Division} {client : Nat} {h : Holding} (hs : h.Sound d client) (a : Address)
    (kind : AccessKind) :
    serve d client a kind h =
      .ok (h.hits (d.route client h.banks.size a).1 (d.route client h.banks.size a).2)
        (h.touch (d.route client h.banks.size a).1 (d.route client h.banks.size a).2 kind) := by
  rw [serve, hs.selects a]
  exact attempt_eq hs.bank (hs.inside a) _ kind

theorem Banked.attempt_eq {b : Banked} (h : b.Sound) (client : Nat) (a : Address) (kind : AccessKind) :
    Banked.attempt client a kind b =
      Attempt.outcome b ((b.check client).map fun () => (b.hits client a, b.touch client a kind)) := by
  rw [attempt, Attempt.get_bind]
  cases hc : b.check client with
  | error e => exact Attempt.bind_of_error (Attempt.require_of_error rfl)
  | ok u =>
    have hlt : client < b.holdings.size := checkClient_eq_ok.1 hc
    have hh : b.holdings[client]? = some b.holdings[client] := Array.getElem?_eq_getElem hlt
    generalize b.holdings[client] = x at hh
    let serve (h : Holding) : Holding :=
      h.touch (b.division.route client h.banks.size a).1 (b.division.route client h.banks.size a).2 kind
    rw [Attempt.bind_of_ok (Attempt.require_of_ok rfl),
      Attempt.within_of_ok (s := b) (Attempt.lookup_of_some hh) ((h client x hh).serve_eq a kind),
      modify_const (f := serve) hh rfl, hits, hh]
    rfl

theorem Regions.attempt_eq {r : Regions} (h : r.Sound) (client : Nat) (a : Address) (kind : AccessKind) :
    Regions.attempt client a kind r =
      Attempt.outcome r ((r.check client).map fun () => (r.hits client a, r.touch client a kind)) := by
  rw [attempt, Attempt.get_bind]
  cases hc : r.check client with
  | error e => exact Attempt.bind_of_error (Attempt.require_of_error rfl)
  | ok u =>
    have hlt : client < r.clients := checkClient_eq_ok.1 hc
    have hf : r.fixed[client]? = some r.fixed[client] := Array.getElem?_eq_getElem hlt
    have hkept := hits_eq_misses_kept hlt a kind
    generalize r.fixed[client] = f at hf
    have hset : (f.steer r.cache.shape a).set < r.cache.sets.size := by
      rw [r.cache.sets_size]
      exact (FixedBits.steer_mem_region (h.apart.fits hf) a).1
    have hcache := Cache.attemptAt_of_lt h.cache hset a kind
    -- The cache has moved before the counter is looked up.
    let moved : Regions := { r with cache := r.cache.touchAt (f.steer r.cache.shape a) a kind }
    obtain ⟨t, ht⟩ : ∃ t, moved.tallies[client]? = some t :=
      ⟨_, Array.getElem?_eq_getElem (Nat.lt_of_lt_of_eq hlt h.tallies.symm)⟩
    have hhit : r.hits client a = r.cache.holdsAt (f.steer r.cache.shape a) := by rw [hits, hf]
    rw [touch_of_some hf] at hkept
    rw [Attempt.bind_of_ok (Attempt.require_of_ok rfl), Attempt.lookup_of_some hf, Attempt.ofExcept_bind,
      Attempt.bind_of_ok (Attempt.within_of_ok (s := r) (t := r.cache) rfl hcache), Attempt.get_bind, ← hkept,
      Attempt.bind_of_ok (Attempt.within_of_ok (s := moved) (Attempt.lookup_of_some ht) Attempt.modify_eq),
      modify_const (f := (·.record (r.hits client a))) ht rfl, touch_of_some hf, ← hhit]
    rfl

namespace Scheme

theorem attempt_eq {s : Scheme} (h : s.Sound) (client : Nat) (a : Address) (kind : AccessKind) :
    Scheme.attempt client a kind s = Attempt.outcome s (s.access client a kind) := by
  cases s with
  | plain c => rw [attempt, Cache.attempt_eq h]; rfl
  | banked b =>
    have hcheck : (banked b).check client = b.check client := rfl
    rw [attempt, Banked.attempt_eq h, Attempt.lift_outcome, access, hcheck]
    cases b.check client <;> rfl
  | regions r =>
    have hcheck : (regions r).check client = r.check client := rfl
    rw [attempt, Regions.attempt_eq h, Attempt.lift_outcome, access, hcheck]
    cases r.check client <;> rfl

end Scheme

/-! ## Hierarchies -/

namespace TwoLevel

theorem withinCore_of_ok {α : Type} {t : TwoLevel} {core : Nat} {c c' : Core} {m : Attempt Core α} {x : α}
    (hc : t.cores[core]? = some c) (hm : m c = .ok x c') :
    withinCore core m t = .ok x { t with cores := t.cores.modify core fun _ => c' } :=
  Attempt.within_of_ok (s := t) (Attempt.lookup_of_some hc) hm

theorem attemptShared_eq {t : TwoLevel} {client : Nat} (hs : t.shared.Sound) (hc : t.shared.check client = .ok ())
    (found : Bool) (a : Address) (kind : AccessKind) :
    attemptShared found client a kind t =
      .ok (found || t.shared.hits client a)
        { t with shared := if found then t.shared else t.shared.touch client a kind } := by
  cases found with
  | true => rfl
  | false =>
    have hshared : Scheme.attempt client a kind t.shared =
        .ok (t.shared.hits client a) (t.shared.touch client a kind) := by
      rw [Scheme.attempt_eq hs, Scheme.access, hc]
      rfl
    rw [attemptShared, if_neg Bool.false_ne_true, if_neg Bool.false_ne_true, Bool.false_or]
    exact Attempt.within_of_ok (p := fun t : TwoLevel => .ok t.shared) rfl hshared

theorem attempt_eq {t : TwoLevel} (h : t.Sound) (core client : Nat) (a : Address) (kind : AccessKind) :
    TwoLevel.attempt core client a kind t = Attempt.outcome t (t.access core client a kind) := by
  rw [attempt, Attempt.get_bind, access]
  cases hc : t.check core client with
  | error e => exact Attempt.bind_of_error (Attempt.require_of_error rfl)
  | ok u =>
    obtain ⟨hcore, hclient⟩ := check_eq_ok.1 hc
    have ht : t.cores[core]? = some t.cores[core] := Array.getElem?_eq_getElem hcore
    generalize t.cores[core] = c at ht
    have hfound : t.hitsPrivate core a = c.cache.hits a := by rw [hitsPrivate, ht]
    -- The private cache moves first, whatever comes after it.
    let moved : TwoLevel := { t with cores := t.cores.modify core fun _ => { c with cache := c.cache.touch a kind } }
    have hmoved : withinCore core (Core.attempt a kind) t = .ok (c.cache.hits a) moved :=
      withinCore_of_ok ht
        (Attempt.within_of_ok (s := c) (t := c.cache) rfl (Cache.attempt_eq (h.cores core c ht) a kind))
    let passed : TwoLevel :=
      { moved with shared := if c.cache.hits a then t.shared else t.shared.touch client a kind }
    have hpassed : attemptShared (c.cache.hits a) client a kind moved =
        .ok (c.cache.hits a || t.shared.hits client a) passed :=
      attemptShared_eq (t := moved) h.shared hclient _ a kind
    have hcounted : passed.cores[core]? = some { c with cache := c.cache.touch a kind } := by
      simp [passed, moved, Array.getElem?_modify, ht]
    rw [Attempt.bind_of_ok (Attempt.require_of_ok rfl), Attempt.bind_of_ok hmoved, Attempt.bind_of_ok hpassed,
      Attempt.bind_of_ok (withinCore_of_ok hcounted Attempt.modify_eq), ← hfound]
    refine congrArg (EStateM.Result.ok _) (eq_of_fields ?_ ?_)
    · let counted (c : Core) : Core := { cache := c.cache.touch a kind, tally := c.tally.record (t.hits core client a) }
      exact modify_const_const (f := counted) ht rfl { c with cache := c.cache.touch a kind }
    · rw [shared_touch, hfound]

end TwoLevel

namespace Hierarchy

/-- Every access that is spelled out comes to what `access` says. -/
theorem attempt_eq {h : Hierarchy} (hs : h.Sound) (client : Nat) (a : Address) (kind : AccessKind) :
    Hierarchy.attempt client a kind h = Attempt.outcome h (h.access client a kind) := by
  cases h with
  | flat s =>
    rw [attempt, Scheme.attempt_eq hs, Attempt.lift_outcome, Scheme.access, access, check]
    cases s.check client <;> rfl
  | twoLevel t =>
    rw [attempt, TwoLevel.attempt_eq hs, Attempt.lift_outcome, TwoLevel.access, access, check]
    cases t.check client client <;> rfl

/-- A step keeps a hierarchy sound. -/
theorem Sound.step {h : Hierarchy} (hs : h.Sound) (x : Record) : (h.step x).2.Sound := by
  rcases step_state h x with he | he <;> rw [he]
  · exact hs.touch _ _ _
  · exact hs

end Hierarchy

/-! ## Runs -/

theorem Attempt.settle_outcome {σ α : Type} (s : σ) (r : Except OutOfRange (α × σ)) :
    (Attempt.settle (Attempt.outcome s r)).2 = (LastLevel.settle s r).2 := by
  cases r <;> rfl

namespace Hierarchy

/-- The attempts of any records lead to where the records lead. -/
theorem after_eq_final {h : Hierarchy} (hs : h.Sound) (xs : List Record) :
    Attempt.after (fun x : Record => Hierarchy.attempt x.client.toNat x.address x.kind) h xs = Run.final step h xs ∧
      (Run.final step h xs).Sound := by
  refine Attempt.after_eq_final (I := Sound) (fun h x hs => ?_) (fun h x hs => hs.step x) hs xs
  rw [attempt_eq hs, Attempt.settle_outcome, step]

theorem failsExactly {h : Hierarchy} (hs : h.Sound) (xs : List Record) (client : Nat) (a : Address)
    (kind : AccessKind) :
    (Hierarchy.attempt client a kind).FailsExactly (Run.final step h xs)
      fun f => ∃ e, h.Refuses client e ∧ f = .client e := by
  refine Attempt.failsExactly_of_outcome (attempt_eq (after_eq_final hs xs).2 client a kind) fun e => ?_
  rw [check_final, check_eq_error]

end Hierarchy

namespace TwoLevel

theorem Sound.step {t : TwoLevel} (hs : t.Sound) (x : Request) : (t.step x).2.Sound := by
  cases hc : t.check x.core.toNat x.client.toNat with
  | ok u =>
    rw [step_of_ok hc]
    exact hs.touch _ _ _ _
  | error e =>
    rw [step_of_error hc]
    exact hs

theorem after_eq_final {t : TwoLevel} (hs : t.Sound) (xs : List Request) :
    Attempt.after (fun x : Request => TwoLevel.attempt x.core.toNat x.client.toNat x.address x.kind) t xs =
      Run.final step t xs ∧ (Run.final step t xs).Sound := by
  refine Attempt.after_eq_final (I := Sound) (fun t x hs => ?_) (fun t x hs => hs.step x) hs xs
  rw [attempt_eq hs, Attempt.settle_outcome, step]

theorem failsExactly {t : TwoLevel} (hs : t.Sound) (xs : List Request) (core client : Nat) (a : Address)
    (kind : AccessKind) :
    (TwoLevel.attempt core client a kind).FailsExactly (Run.final step t xs)
      fun f => ∃ e, t.Refuses core client e ∧ f = .client e := by
  refine Attempt.failsExactly_of_outcome (attempt_eq (after_eq_final hs xs).2 core client a kind) fun e => ?_
  rw [check_final, check_eq_error]

end TwoLevel

/-- A location to access that may not exist. -/
structure Probe where
  location : Location
  address : Address
  kind : AccessKind

namespace Cache

/-- An attempt keeps a cache sound, and its sets as many as they are. -/
theorem Sound.attemptAt {c : Cache} (hs : c.Sound) (l : Location) (a : Address) (kind : AccessKind) :
    let next := (Attempt.settle (Cache.attemptAt l a kind c)).2
    next.Sound ∧ next.sets.size = c.sets.size := by
  by_cases hl : l.set < c.sets.size
  · rw [attemptAt_of_lt hs hl]
    exact ⟨hs.touchAt l a kind, Array.size_modify⟩
  · rw [attemptAt_of_le (Nat.le_of_not_lt hl)]
    exact ⟨hs, rfl⟩

theorem after_sound {c : Cache} (hs : c.Sound) (xs : List Probe) :
    let now := Attempt.after (fun x : Probe => Cache.attemptAt x.location x.address x.kind) c xs
    now.Sound ∧ now.sets.size = c.sets.size := by
  refine Run.final_keeps (I := fun d : Cache => d.Sound ∧ d.sets.size = c.sets.size) (fun d x hd => ?_) ⟨hs, rfl⟩ xs
  obtain ⟨hnext, hsize⟩ := hd.1.attemptAt x.location x.address x.kind
  exact ⟨hnext, hsize.trans hd.2⟩

theorem failsExactly {c : Cache} (hs : c.Sound) (l : Location) (a : Address) (kind : AccessKind) :
    (attemptAt l a kind).FailsExactly c
      fun f => c.sets.size ≤ l.set ∧ f = .set { set := l.set, sets := c.sets.size } := by
  intro f t
  by_cases hl : l.set < c.sets.size
  · rw [attemptAt_of_lt hs hl]
    simp only [reduceCtorEq, false_iff]
    omega
  · rw [attemptAt_of_le (Nat.le_of_not_lt hl)]
    simp [Nat.le_of_not_lt hl, eq_comm]

end Cache

/-! ## Replays -/

namespace Replay

/-- A record is carried out or rejected, and nothing else happens to it. -/
theorem attempt_eq {r : Replay} (hs : r.hierarchy.Sound) (label : String) (x : Record) :
    Replay.attempt label r x = .ok (r.step x) := by
  rw [attempt, Hierarchy.attempt_eq hs, Hierarchy.access, step]
  cases r.hierarchy.check x.client.toNat <;> rfl

theorem sound_step {r : Replay} (hs : r.hierarchy.Sound) (x : Record) : (r.step x).hierarchy.Sound := by
  rw [step]
  cases r.hierarchy.check x.client.toNat with
  | ok u => exact hs.touch _ _ _
  | error e => exact hs

theorem foldlM_attempt {r : Replay} (hs : r.hierarchy.Sound) (label : String) (xs : List Record) :
    xs.foldlM (Replay.attempt label) r = .ok (r.run xs) := by
  induction xs generalizing r with
  | nil => rfl
  | cons x xs ih =>
    rw [List.foldlM_cons, attempt_eq hs]
    exact ih (sound_step hs x)

end Replay

/-- A replay that looks everything up comes to its end whenever its scenario is
built. -/
theorem Scenario.attempt_eq (s : Scenario) (t : Trace) : s.attempt t = (s.replay t).mapError .unbuilt := by
  rw [attempt, replay]
  cases hb : s.build with
  | error cause => rfl
  | ok h =>
    have hs := (Hierarchy.fresh_of_build hb).sound
    exact Replay.foldlM_attempt (r := { trace := t.name, hierarchy := h }) hs s.label t.records

/-- Whatever was accessed before: on a hierarchy, an access fails if and only if
its client is refused, then with just that client and its bound, and the
hierarchy stays as it was; otherwise it comes to what `access` says. The same
holds of two levels when core and client are chosen apart. A single cache fails
only for a set that it does not have. So a replay that looks everything up fails
only where its scenario is not built. -/
theorem faults_exactly_when_refused :
    (∀ {p : Plan} {level : Option PrivateLevel} {h : Hierarchy}, Hierarchy.build p level = .ok h →
      ∀ (xs : List Record) (client : Nat) (a : Address) (kind : AccessKind),
        let now := Attempt.after (fun x : Record => Hierarchy.attempt x.client.toNat x.address x.kind) h xs
        (Hierarchy.attempt client a kind).FailsExactly now (fun f => ∃ e, h.Refuses client e ∧ f = .client e) ∧
        Hierarchy.attempt client a kind now = Attempt.outcome now (now.access client a kind)) ∧
    (∀ {p : Plan} {shared : Scheme} {cache : Cache} {sets ways block n : Nat} {t : TwoLevel},
      p.build = .ok shared → cache.IsBuilt sets ways block → TwoLevel.build n cache shared = .ok t →
      ∀ (xs : List Request) (core client : Nat) (a : Address) (kind : AccessKind),
        let now := Attempt.after (fun x : Request => TwoLevel.attempt x.core.toNat x.client.toNat x.address x.kind) t xs
        (TwoLevel.attempt core client a kind).FailsExactly now (fun f => ∃ e, t.Refuses core client e ∧ f = .client e) ∧
        TwoLevel.attempt core client a kind now = Attempt.outcome now (now.access core client a kind)) ∧
    (∀ {c : Cache} {sets ways block : Nat}, c.IsBuilt sets ways block →
      ∀ (xs : List Probe) (l : Location) (a : Address) (kind : AccessKind),
        let now := Attempt.after (fun x : Probe => Cache.attemptAt x.location x.address x.kind) c xs
        (Cache.attemptAt l a kind).FailsExactly now (fun f => sets ≤ l.set ∧ f = .set { set := l.set, sets })) ∧
    ∀ (s : Scenario) (t : Trace), s.attempt t = (s.replay t).mapError .unbuilt ∧
      ((∃ e, s.attempt t = .error e) ↔ ∃ e, s.build = .error e) := by
  refine ⟨?_, ?_, ?_, ?_⟩
  · intro p level h hb xs client a kind
    have hs := (Hierarchy.fresh_of_build hb).sound
    obtain ⟨he, hnow⟩ := Hierarchy.after_eq_final hs xs
    rw [he]
    exact ⟨Hierarchy.failsExactly hs xs client a kind, Hierarchy.attempt_eq hnow client a kind⟩
  · intro p shared cache sets ways block n t hp hc hb xs core client a kind
    have hs := (TwoLevel.fresh_of_build hb hc.fresh (Scheme.fresh_of_build hp)).sound
    obtain ⟨he, hnow⟩ := TwoLevel.after_eq_final hs xs
    rw [he]
    exact ⟨TwoLevel.failsExactly hs xs core client a kind, TwoLevel.attempt_eq hnow core client a kind⟩
  · intro c sets ways block hc xs l a kind
    obtain ⟨hnow, hsize⟩ := Cache.after_sound hc.fresh.sound xs
    have hsets : c.sets.size = sets := by
      obtain ⟨hp, -, -, rfl⟩ := hc.eq_empty
      exact (Cache.empty _).sets_size.trans (Shape.sets_ofCounts hp)
    rw [← hsets, ← hsize]
    exact Cache.failsExactly hnow l a kind
  · intro s t
    refine ⟨s.attempt_eq t, ?_⟩
    rw [s.attempt_eq t, Scenario.replay]
    cases s.build <;> simp [Except.mapError]

/-- Three cores in front of a cache that is divided between two clients: core 3
does not exist, and core 2 exists but is not served. -/
theorem faults_of_three_cores :
    let cache := Cache.empty (.ofCounts 1 1 16)
    let bank : Holding := { banks := #[some cache] }
    let t : TwoLevel :=
      { cores := Array.replicate 3 { cache }, shared := .banked { division := .ways 1, holdings := #[bank, bank] } }
    let s : Scenario := { label := "", plan := .way [1, 1] 32 16, level := some ⟨3, ⟨16, 1, 16⟩⟩ }
    let xs : List Record := [⟨0x00, 0, .write⟩, ⟨0x40, 2, .read⟩, ⟨0x10, 1, .read⟩]
    let now := Attempt.after (fun x : Record => Hierarchy.attempt x.client.toNat x.address x.kind) (.twoLevel t) xs
    s.build = .ok (.twoLevel t) ∧ cache.IsBuilt 1 1 16 ∧
      Hierarchy.attempt 3 0x00 .read now = .error (.client { client := 3, clients := 3 }) now ∧
      Hierarchy.attempt 2 0x00 .read now = .error (.client { client := 2, clients := 2 }) now ∧
      TwoLevel.attempt 2 7 0x00 .read t = .error (.client { client := 7, clients := 2 }) t ∧
      Cache.attemptAt ⟨1, 0⟩ 0x00 .read cache = .error (.set { set := 1, sets := 1 }) cache ∧
      ¬ ∃ e, s.attempt ⟨"t", xs⟩ = .error e := by
  intro cache bank t s xs now
  obtain ⟨hhierarchy, htwo, hcache, hreplay⟩ := faults_exactly_when_refused
  have hb : s.build = .ok (.twoLevel t) := rfl
  have hc : cache.IsBuilt 1 1 16 := .inl rfl
  have hshared : Plan.build (.way [1, 1] 32 16) = .ok t.shared := rfl
  have hr : ∀ core client, core < 3 → 2 ≤ client → t.Refuses core client { client, clients := 2 } :=
    fun core client h h' => .inr ⟨h, 2, rfl, h', rfl⟩
  refine ⟨hb, hc, ?_, ?_, ?_, ?_, ?_⟩
  · exact ((hhierarchy hb xs 3 0x00 .read).1 _ _).2 ⟨⟨_, .inl ⟨by decide, rfl⟩, rfl⟩, rfl⟩
  · exact ((hhierarchy hb xs 2 0x00 .read).1 _ _).2 ⟨⟨_, hr 2 2 (by decide) (by decide), rfl⟩, rfl⟩
  · exact ((htwo (n := 3) hshared hc rfl [] 2 7 0x00 .read).1 _ _).2 ⟨⟨_, hr 2 7 (by decide) (by decide), rfl⟩, rfl⟩
  · exact ((hcache hc [] ⟨1, 0⟩ 0x00 .read) _ _).2 ⟨⟨by decide, rfl⟩, rfl⟩
  · rw [(hreplay s ⟨"t", xs⟩).2, hb]
    rintro ⟨e, he⟩
    cases he

end LastLevel
