import LastLevel.Replay
/-!
# Runs

A system takes inputs one at a time and answers each. `Run.final` is the state
that a run ends in, and `Run.log` is what it was asked and what it answered. A
statement about every run holds for every order in which the clients' accesses
can arrive.

`log_filter_of_simulation` compares a system that many clients use with another
one that only sees the inputs of some of them. `Separated` says that the steps
of different clients commute; then what a client sees is what it would see
alone (`Separated.log_filter`), and the final state only depends on what each
client did (`Separated.final_eq`).
-/

namespace LastLevel

namespace Run

variable {σ τ α ω υ : Type}

/-- The state after some inputs. -/
def final (step : σ → α → ω × σ) (s : σ) (xs : List α) : σ := xs.foldl (fun s x => (step s x).2) s

/-- Each input with the answer it got. -/
def log (step : σ → α → ω × σ) (s : σ) : List α → List (α × ω)
  | [] => []
  | x :: xs => (x, (step s x).1) :: log step (step s x).2 xs

variable {step : σ → α → ω × σ}

@[simp] theorem final_nil (s : σ) : final step s [] = s := rfl

@[simp] theorem final_cons (s : σ) (x : α) (xs : List α) :
    final step s (x :: xs) = final step (step s x).2 xs := rfl

@[simp] theorem final_append (s : σ) (xs ys : List α) :
    final step s (xs ++ ys) = final step (final step s xs) ys := by
  simp only [final, List.foldl_append]

@[simp] theorem log_nil (s : σ) : log step s [] = [] := rfl

@[simp] theorem log_cons (s : σ) (x : α) (xs : List α) :
    log step s (x :: xs) = (x, (step s x).1) :: log step (step s x).2 xs := rfl

theorem log_append (s : σ) (xs ys : List α) :
    log step s (xs ++ ys) = log step s xs ++ log step (final step s xs) ys := by
  induction xs generalizing s with
  | nil => rfl
  | cons x xs ih => simp [ih]

@[simp] theorem length_log (s : σ) (xs : List α) : (log step s xs).length = xs.length := by
  induction xs generalizing s with
  | nil => rfl
  | cons x xs ih => simp [ih]

/-- What an input is answered depends on the inputs before it. -/
theorem getElem?_log (s : σ) (xs : List α) (k : Nat) :
    (log step s xs)[k]? = xs[k]?.map fun x => (x, (step (final step s (xs.take k)) x).1) := by
  induction xs generalizing s k with
  | nil => rfl
  | cons x xs ih =>
    cases k with
    | zero => rfl
    | succ k => simpa using ih _ k

/-- What a step keeps, a run keeps. -/
theorem final_keeps {I : σ → Prop} (hstep : ∀ s x, I s → I (step s x).2) {s : σ} (h : I s) (xs : List α) :
    I (final step s xs) := by
  induction xs generalizing s with
  | nil => exact h
  | cons x xs ih => exact ih (hstep s x h)

/-! ## Two systems side by side -/

/-- One system sees all inputs, the other only those that `p` selects. As long
as the steps on these agree, and the first system's other steps do not show,
the answers to the selected inputs agree. -/
theorem log_filter_of_simulation {f : σ → α → ω × σ} {g : τ → α → υ × τ} (R : σ → τ → Prop) (p : α → Bool)
    (answer : υ → ω)
    (move : ∀ s t x, R s t → p x = true → (f s x).1 = answer (g t x).1 ∧ R (f s x).2 (g t x).2)
    (stay : ∀ s t x, R s t → p x = false → R (f s x).2 t) {s : σ} {t : τ} (h : R s t) (xs : List α) :
    (log f s xs).filter (fun e => p e.1) = (log g t (xs.filter p)).map (fun e => (e.1, answer e.2)) ∧
      R (final f s xs) (final g t (xs.filter p)) := by
  induction xs generalizing s t with
  | nil => exact ⟨rfl, h⟩
  | cons x xs ih =>
    cases hp : p x with
    | true =>
      obtain ⟨ha, hr⟩ := move s t x h hp
      obtain ⟨hl, hf⟩ := ih hr
      exact ⟨by simp [hp, ha, hl], by simpa [hp] using hf⟩
    | false =>
      obtain ⟨hl, hf⟩ := ih (stay s t x h hp)
      exact ⟨by simp [hp, hl], by simpa [hp] using hf⟩

/-- Two systems whose steps agree give the same answers to the same inputs. -/
theorem log_eq_of_simulation {f : σ → α → ω × σ} {g : τ → α → ω × τ} (R : σ → τ → Prop)
    (move : ∀ s t x, R s t → (f s x).1 = (g t x).1 ∧ R (f s x).2 (g t x).2) {s : σ} {t : τ} (h : R s t)
    (xs : List α) : log f s xs = log g t xs ∧ R (final f s xs) (final g t xs) := by
  obtain ⟨hl, hf⟩ := log_filter_of_simulation R (fun _ => true) id (fun s t x h _ => move s t x h)
    (fun _ _ _ _ hp => by cases hp) h xs
  have hall : ∀ {β : Type} (l : List β), l.filter (fun _ => true) = l :=
    fun l => List.filter_eq_self.2 fun _ _ => rfl
  rw [hall] at hl hf
  exact ⟨by simpa [hall] using hl, hf⟩

/-! ## Clients that do not see one another -/

section Separated
variable {κ : Type}

/-- In a state with `I`, the steps of different clients commute, and neither
changes the answer to the other. -/
structure Separated (step : σ → α → ω × σ) (client : α → κ) (I : σ → Prop) : Prop where
  keeps : ∀ s x, I s → I (step s x).2
  answer : ∀ s x y, I s → client x ≠ client y → (step (step s x).2 y).1 = (step s y).1
  commutes : ∀ s x y, I s → client x ≠ client y → (step (step s x).2 y).2 = (step (step s y).2 x).2

namespace Separated
variable {client : α → κ} {I : σ → Prop} (hs : Separated step client I)
include hs

/-- A step does not show in the answers to the other clients. -/
theorem log_step {s : σ} (h : I s) (x : α) {ys : List α} (hy : ∀ y ∈ ys, client x ≠ client y) :
    log step (step s x).2 ys = log step s ys := by
  induction ys generalizing s with
  | nil => rfl
  | cons y ys ih =>
    have hxy := hy y List.mem_cons_self
    rw [log_cons, log_cons, hs.answer s x y h hxy, hs.commutes s x y h hxy,
      ih (hs.keeps s y h) fun z hz => hy z (List.mem_cons_of_mem _ hz)]

/-- A client is answered as if it were alone. -/
theorem log_filter [DecidableEq κ] {s : σ} (h : I s) (xs : List α) (i : κ) :
    (log step s xs).filter (fun e => client e.1 = i) = log step s (xs.filter fun x => client x = i) := by
  induction xs generalizing s with
  | nil => rfl
  | cons x xs ih =>
    have ih := ih (hs.keeps s x h)
    by_cases hx : client x = i
    · simp [hx, ih]
    · have hy : ∀ y ∈ xs.filter fun x => client x = i, client x ≠ client y := by
        intro y hy
        rw [show client y = i by simpa using (List.mem_filter.1 hy).2]
        exact hx
      simp [hx, ih, hs.log_step h x hy]

/-- A step may be taken before the steps of other clients. -/
theorem final_middle {s : σ} (h : I s) (x : α) (xs ys : List α) (hx : ∀ y ∈ xs, client y ≠ client x) :
    final step s (xs ++ x :: ys) = final step (step s x).2 (xs ++ ys) := by
  induction xs generalizing s with
  | nil => rfl
  | cons y xs ih =>
    rw [List.cons_append, final_cons, ih (hs.keeps s y h) fun z hz => hx z (List.mem_cons_of_mem _ hz),
      hs.commutes s y x h (hx y List.mem_cons_self), List.cons_append, final_cons]

/-- Runs in which every client does the same end in the same state. -/
theorem final_eq [DecidableEq κ] {s : σ} (h : I s) {xs ys : List α}
    (he : ∀ i, (xs.filter fun x => client x = i) = ys.filter fun y => client y = i) :
    final step s xs = final step s ys := by
  induction xs generalizing s ys with
  | nil =>
    cases ys with
    | nil => rfl
    | cons y ys => simpa using he (client y)
  | cons x xs ih =>
    have hx := (he (client x)).symm
    rw [List.filter_cons_of_pos (by simp)] at hx
    -- The first step of `x`'s client in the other run is `x` as well.
    obtain ⟨ys₁, ys₂, rfl, hn, -, h2⟩ := List.filter_eq_cons_iff.1 hx
    have hn : ∀ y ∈ ys₁, client y ≠ client x := fun y hy => by simpa using hn y hy
    rw [final_cons, hs.final_middle h x ys₁ ys₂ hn]
    refine ih (hs.keeps s x h) fun i => ?_
    by_cases hi : client x = i
    · subst hi
      have h1 : (ys₁.filter fun y => client y = client x) = [] := by simpa using hn
      rw [List.filter_append, h1, List.nil_append, h2]
    · simpa [hi] using he i

/-- What only a client's own steps change is as if the client were alone. -/
theorem view_final [DecidableEq κ] {β : Type} (view : σ → β) (i : κ)
    (hv : ∀ s x, I s → client x ≠ i → view (step s x).2 = view s) {s : σ} (h : I s) (xs : List α) :
    view (final step s xs) = view (final step s (xs.filter fun x => client x = i)) := by
  induction xs generalizing s with
  | nil => rfl
  | cons x xs ih =>
    have ih := ih (hs.keeps s x h)
    by_cases hx : client x = i
    · simpa [hx] using ih
    · -- The step of the other client can as well be taken last.
      have hlast : final step (step s x).2 (xs.filter fun x => client x = i) =
          (step (final step s (xs.filter fun x => client x = i)) x).2 := by
        have hy : ∀ y ∈ xs.filter fun x => client x = i, client y ≠ client x := by
          intro y hy
          rw [show client y = i by simpa using (List.mem_filter.1 hy).2]
          exact Ne.symm hx
        simpa using (hs.final_middle h x _ [] hy).symm
      simp only [final_cons, List.filter_cons, hx, decide_false, Bool.false_eq_true, if_false]
      rw [ih, hlast, hv _ x (final_keeps hs.keeps h _) hx]

end Separated
end Separated

end Run

/-! ## The systems of this library -/

/-- The answer to an attempt, and the state after it: a refused one changes
nothing. -/
def settle {σ ω ε : Type} (s : σ) : Except ε (ω × σ) → Except ε ω × σ
  | .ok (o, s') => (.ok o, s')
  | .error e => (.error e, s)

/-- A cache accesses the address of a record, whoever the client is. -/
def Cache.step (c : Cache) (x : Record) : Bool × Cache := c.access x.address x.kind

/-- A scheme carries out a record. -/
def Scheme.step (s : Scheme) (x : Record) : Except OutOfRange Bool × Scheme :=
  settle s (s.access x.client.toNat x.address x.kind)

/-- An access that a core makes for a client of the shared level. -/
structure Request where
  core : UInt64
  client : UInt64
  address : Address
  kind : AccessKind
deriving DecidableEq, Repr

/-- A request as the shared level sees it. -/
def Request.record (x : Request) : Record := { address := x.address, client := x.client, kind := x.kind }

/-- Two levels carry out a request. -/
def TwoLevel.step (t : TwoLevel) (x : Request) : Except OutOfRange Bool × TwoLevel :=
  settle t (t.access x.core.toNat x.client.toNat x.address x.kind)

/-- A hierarchy carries out a record. -/
def Hierarchy.step (h : Hierarchy) (x : Record) : Except OutOfRange Bool × Hierarchy :=
  settle h (h.access x.client.toNat x.address x.kind)

theorem Scheme.step_of_ok {s : Scheme} {x : Record} (hc : s.check x.client.toNat = .ok ()) :
    s.step x = (.ok (s.hits x.client.toNat x.address), s.touch x.client.toNat x.address x.kind) := by
  rw [step, access, hc]
  rfl

theorem Scheme.step_of_error {s : Scheme} {x : Record} {e : OutOfRange}
    (hc : s.check x.client.toNat = .error e) : s.step x = (.error e, s) := by
  rw [step, access, hc]
  rfl

theorem TwoLevel.step_of_ok {t : TwoLevel} {x : Request} (hc : t.check x.core.toNat x.client.toNat = .ok ()) :
    t.step x = (.ok (t.hits x.core.toNat x.client.toNat x.address),
      t.touch x.core.toNat x.client.toNat x.address x.kind) := by
  rw [step, access, hc]
  rfl

theorem TwoLevel.step_of_error {t : TwoLevel} {x : Request} {e : OutOfRange}
    (hc : t.check x.core.toNat x.client.toNat = .error e) : t.step x = (.error e, t) := by
  rw [step, access, hc]
  rfl

theorem Hierarchy.step_of_ok {h : Hierarchy} {x : Record} (hc : h.check x.client.toNat = .ok ()) :
    h.step x = (.ok (h.hits x.client.toNat x.address), h.touch x.client.toNat x.address x.kind) := by
  rw [step, access, hc]
  rfl

theorem Hierarchy.step_of_error {h : Hierarchy} {x : Record} {e : OutOfRange}
    (hc : h.check x.client.toNat = .error e) : h.step x = (.error e, h) := by
  rw [step, access, hc]
  rfl

/-- A replay ends in the hierarchy that the run of its records ends in. -/
theorem Replay.hierarchy_run (r : Replay) (xs : List Record) :
    (r.run xs).hierarchy = Run.final Hierarchy.step r.hierarchy xs := by
  induction xs generalizing r with
  | nil => rfl
  | cons x xs ih =>
    have hx : (r.step x).hierarchy = (r.hierarchy.step x).2 := by
      unfold Replay.step Hierarchy.step Hierarchy.access
      dsimp only
      cases r.hierarchy.check x.client.toNat <;> rfl
    rw [Run.final_cons, ← hx, ← ih]
    rfl

end LastLevel
