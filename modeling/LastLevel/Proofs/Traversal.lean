import Mathlib.Data.List.Forall2
/-!
# Traversals that may stop

A traversal that calls a function for each element stops at the first one for
which it fails. So it succeeds exactly when every call does (`mapM_eq_ok`), and
it fails with the error of an element before which every call succeeds
(`mapM_eq_error`). The same holds where a call that fails has no error to give
(`mapM_eq_some`).
-/

namespace LastLevel

variable {α β ε : Type} {f : α → Except ε β}

theorem mapM_cons_of_ok {x : α} {y : β} (h : f x = .ok y) (xs : List α) :
    (x :: xs).mapM f = (xs.mapM f).map (y :: ·) := by
  rw [List.mapM_cons, h]
  cases xs.mapM f <;> rfl

theorem mapM_cons_of_error {x : α} {e : ε} (h : f x = .error e) (xs : List α) : (x :: xs).mapM f = .error e := by
  rw [List.mapM_cons, h]
  rfl

theorem mapM_eq_ok {xs : List α} {ys : List β} :
    xs.mapM f = .ok ys ↔ List.Forall₂ (fun x y => f x = .ok y) xs ys := by
  induction xs generalizing ys with
  | nil => cases ys <;> simp [pure, Except.pure]
  | cons x xs ih =>
    cases hx : f x with
    | error e => simp [mapM_cons_of_error hx, List.forall₂_cons_left_iff, hx]
    | ok y =>
      rw [mapM_cons_of_ok hx, List.forall₂_cons_left_iff]
      cases hxs : xs.mapM f with
      | error e =>
        simp only [Except.map, reduceCtorEq, ← ih, hxs, false_and, and_false, exists_false]
      | ok ys' =>
        simp only [Except.map, ← ih, hx, hxs, Except.ok.injEq]
        exact ⟨fun h => ⟨y, ys', rfl, rfl, h.symm⟩, by rintro ⟨_, _, rfl, rfl, rfl⟩; rfl⟩

theorem mapM_eq_error {xs : List α} {e : ε} :
    xs.mapM f = .error e ↔ ∃ (i : Nat) (x : α), xs[i]? = some x ∧ f x = .error e ∧
      ∀ j < i, ∀ y, xs[j]? = some y → ∃ b, f y = .ok b := by
  induction xs with
  | nil => simp [pure, Except.pure]
  | cons x xs ih =>
    cases hx : f x with
    | error e' =>
      rw [mapM_cons_of_error hx]
      constructor
      · intro h
        cases h
        exact ⟨0, x, rfl, hx, fun j hj => absurd hj (Nat.not_lt_zero j)⟩
      · rintro ⟨i, y, hi, hy, hbefore⟩
        cases i with
        | zero =>
          obtain rfl : x = y := Option.some.inj hi
          rw [Except.error.inj (hx.symm.trans hy)]
        | succ i =>
          obtain ⟨b, hb⟩ := hbefore 0 (Nat.succ_pos i) x rfl
          rw [hx] at hb
          cases hb
    | ok y =>
      have hmap : (xs.mapM f).map (y :: ·) = .error e ↔ xs.mapM f = .error e := by
        cases xs.mapM f <;> simp [Except.map]
      rw [mapM_cons_of_ok hx, hmap, ih]
      constructor
      · rintro ⟨i, z, hi, hz, hbefore⟩
        refine ⟨i + 1, z, hi, hz, fun j hj w hw => ?_⟩
        cases j with
        | zero => exact ⟨y, by rw [← hx, Option.some.inj hw]⟩
        | succ j => exact hbefore j (by omega) w hw
      · rintro ⟨i, z, hi, hz, hbefore⟩
        cases i with
        | zero =>
          rw [← Option.some.inj hi, hx] at hz
          cases hz
        | succ i => exact ⟨i, z, hi, hz, fun j hj w hw => hbefore (j + 1) (by omega) w hw⟩

theorem mapM_eq_some {f : α → Option β} {xs : List α} {ys : List β} :
    xs.mapM f = some ys ↔ List.Forall₂ (fun x y => f x = some y) xs ys := by
  induction xs generalizing ys with
  | nil => cases ys <;> simp
  | cons x xs ih =>
    simp only [List.mapM_cons, Option.bind_eq_bind, Option.bind_eq_some_iff, Option.pure_def, Option.some.injEq, ih,
      List.forall₂_cons_left_iff]
    constructor
    · rintro ⟨y, hy, ys', hys, rfl⟩
      exact ⟨y, ys', hy, hys, rfl⟩
    · rintro ⟨y, ys', hy, hys, rfl⟩
      exact ⟨y, hy, ys', hys, rfl⟩

/-- Traversals are the same whose calls are, one by one. -/
theorem mapM_congr {γ : Type} {f : α → Option γ} {g : β → Option γ} {xs : List α} {ys : List β}
    (h : List.Forall₂ (fun x y => f x = g y) xs ys) : xs.mapM f = ys.mapM g := by
  induction h with
  | nil => rfl
  | cons h _ ih => rw [List.mapM_cons, List.mapM_cons, h, ih]

/-- A relation holds from list to list for some list if it holds for each
element of the first and something. -/
theorem exists_forall₂_iff {R : α → β → Prop} {xs : List α} :
    (∃ ys, List.Forall₂ R xs ys) ↔ ∀ x ∈ xs, ∃ y, R x y := by
  induction xs with
  | nil => simp
  | cons x xs ih =>
    simp only [List.forall₂_cons_left_iff, List.forall_mem_cons, ← ih]
    exact ⟨fun ⟨_, y, ys, h, hs, _⟩ => ⟨⟨y, h⟩, ys, hs⟩, fun ⟨⟨y, h⟩, ys, hs⟩ => ⟨_, y, ys, h, hs, rfl⟩⟩

theorem exists_right_of_forall₂ {R : α → β → Prop} {xs : List α} {ys : List β} (h : List.Forall₂ R xs ys) :
    ∀ x ∈ xs, ∃ y ∈ ys, R x y := by
  induction h with
  | nil => simp
  | cons hr _ ih =>
    refine List.forall_mem_cons.2 ⟨⟨_, List.mem_cons_self, hr⟩, fun x hx => ?_⟩
    obtain ⟨y, hy, hr⟩ := ih x hx
    exact ⟨y, List.mem_cons_of_mem _ hy, hr⟩

theorem exists_left_of_forall₂ {R : α → β → Prop} {xs : List α} {ys : List β} (h : List.Forall₂ R xs ys) :
    ∀ y ∈ ys, ∃ x ∈ xs, R x y :=
  exists_right_of_forall₂ (R := flip R) (List.Forall₂.flip h)

end LastLevel
