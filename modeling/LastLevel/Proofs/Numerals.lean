import LastLevel.Text.Hexadecimal
import Mathlib.Data.List.Forall2
import Mathlib.Data.Nat.Digits.Defs
/-!
# Which texts are hexadecimal words

`Numeral` gives the words as a language: a mark, a plus sign, digits, and a
value that fits. `read` accepts exactly its members, with their values
(`read_eq_ok`), and `Misread` says which check refuses every other text
(`read_eq_error`): digits are checked one after the other, and each is checked
to be a digit before the value is checked to fit.
-/

namespace LastLevel.Text.Hexadecimal

/-- A character that stands for a digit, in either case. -/
def IsDigit (c : Char) (d : Nat) : Prop := d < 16 ∧ (c = d.digitChar ∨ c = d.digitChar.toUpper)

/-- The value of a text of digits, in positional notation. -/
def Denotes (cs : List Char) (n : Nat) : Prop := ∃ ds, List.Forall₂ IsDigit cs ds ∧ n = Nat.ofDigits 16 ds.reverse

/-- The marks a word may begin with. -/
def marks : List (List Char) := ["0x".toList, "0X".toList]

/-- A hexadecimal word of 64 bits: an optional mark, an optional plus sign and
at least one digit. -/
inductive Numeral : List Char → Nat → Prop where
  | intro {mark sign ds : List Char} {n : Nat} :
    mark ∈ [] :: marks → sign ∈ [[], ['+']] → ds ≠ [] → Denotes ds n → n < 2 ^ 64 → Numeral (mark ++ sign ++ ds) n

/-- What is left of a text once its mark is off. -/
inductive Unmarked : List Char → List Char → Prop where
  | mark {m u : List Char} : m ∈ marks → Unmarked (m ++ u) u
  | plain {u : List Char} : (∀ m ∈ marks, ¬ m <+: u) → Unmarked u u

/-- What is left of a text once its plus sign is off. -/
inductive Unsigned : List Char → List Char → Prop where
  | plus {ds : List Char} : Unsigned ('+' :: ds) ds
  | plain {ds : List Char} : ds.head? ≠ some '+' → Unsigned ds ds

/-- Why a character cannot go on with the value read so far. -/
inductive Stuck (n : Nat) (c : Char) : Fault → Prop where
  | invalidDigit : (∀ d, ¬ IsDigit c d) → Stuck n c .invalidDigit
  | tooLarge {d : Nat} : IsDigit c d → 2 ^ 64 ≤ n * 16 + d → Stuck n c .tooLarge

/-- Why a text is no hexadecimal word: nothing follows the mark, or a sign
alone, or the digits up to some character make a value that fits and this
character cannot go on with it. -/
inductive Misread (w : List Char) : Fault → Prop where
  | empty : Unmarked w [] → Misread w .empty
  | sign : Unmarked w ['+'] → Misread w .invalidDigit
  | digits {u pre post : List Char} {c : Char} {n : Nat} {fault : Fault} :
    Unmarked w u → u ≠ ['+'] → Unsigned u (pre ++ c :: post) → Denotes pre n → n < 2 ^ 64 → Stuck n c fault →
    Misread w fault

/-! ## Digits -/

theorem digit?_eq_some_iff {c : Char} {d : Nat} : digit? c = some d ↔ IsDigit c d := by
  constructor
  · intro h
    have hascii : ∀ n : Fin 128, ∀ d ∈ digit? (Char.ofNat n),
        d < 16 ∧ (Char.ofNat n = d.digitChar ∨ Char.ofNat n = d.digitChar.toUpper) := by decide
    have hc : c.toNat < 128 := by
      simp only [digit?, Char.le_def, UInt32.le_iff_toNat_le] at h
      simp only [Char.toNat]
      split at h
      · next hc => exact Nat.lt_of_le_of_lt hc.2 (by decide)
      · split at h
        · next hc => exact Nat.lt_of_le_of_lt hc.2 (by decide)
        · split at h
          · next hc => exact Nat.lt_of_le_of_lt hc.2 (by decide)
          · cases h
    have hd := hascii ⟨c.toNat, hc⟩ d
    rw [Char.ofNat_toNat] at hd
    exact hd h
  · rintro ⟨hd, rfl | rfl⟩
    · exact digit?_digitChar hd
    · have hupper : ∀ d : Fin 16, digit? (Nat.digitChar d).toUpper = some d.val := by decide
      exact hupper ⟨d, hd⟩

theorem digit?_eq_none_iff {c : Char} : digit? c = none ↔ ∀ d, ¬ IsDigit c d := by
  simp only [← digit?_eq_some_iff, Option.eq_none_iff_forall_ne_some, ne_eq]

theorem isDigit_unique {c : Char} {d d' : Nat} (h : IsDigit c d) (h' : IsDigit c d') : d' = d :=
  Option.some.inj ((digit?_eq_some_iff.2 h').symm.trans (digit?_eq_some_iff.2 h))

@[simp] theorem denotes_nil {n : Nat} : Denotes [] n ↔ n = 0 := by
  simp [Denotes, Nat.ofDigits_nil]

/-- The first digit counts as often as there are texts of the others. -/
theorem denotes_cons {c : Char} {cs : List Char} {n : Nat} :
    Denotes (c :: cs) n ↔ ∃ d k, IsDigit c d ∧ Denotes cs k ∧ n = d * 16 ^ cs.length + k := by
  have hvalue : ∀ {d : Nat} {ds : List Nat}, List.Forall₂ IsDigit cs ds →
      Nat.ofDigits 16 (d :: ds).reverse = d * 16 ^ cs.length + Nat.ofDigits 16 ds.reverse := by
    intro d ds h
    rw [List.reverse_cons, Nat.ofDigits_append, Nat.ofDigits_singleton, List.length_reverse, h.length_eq]
    ring
  constructor
  · rintro ⟨ds, h, rfl⟩
    obtain ⟨d, ds, hd, hds, rfl⟩ := List.forall₂_cons_left_iff.1 h
    exact ⟨d, _, hd, ⟨ds, hds, rfl⟩, hvalue hds⟩
  · rintro ⟨d, k, hd, ⟨ds, hds, rfl⟩, rfl⟩
    exact ⟨d :: ds, .cons hd hds, (hvalue hds).symm⟩

theorem isDigit_of_denotes {cs : List Char} {n : Nat} (h : Denotes cs n) : ∀ c ∈ cs, ∃ d, IsDigit c d := by
  induction cs generalizing n with
  | nil => simp
  | cons c cs ih =>
    obtain ⟨d, k, hd, hk, -⟩ := denotes_cons.1 h
    exact List.forall_mem_cons.2 ⟨⟨d, hd⟩, ih hk⟩

/-- The value of a first digit and of those after it, after a value already
read. -/
theorem value_step (m d k len : Nat) : m * 16 ^ (len + 1) + (d * 16 ^ len + k) = (m * 16 + d) * 16 ^ len + k := by
  ring

/-- Once a value is too large, further digits keep it so. -/
theorem large_step {m : Nat} (h : 2 ^ 64 ≤ m) (len k : Nat) : ¬ m * 16 ^ len + k < 2 ^ 64 := by
  have := Nat.le_mul_of_pos_right m (Nat.pow_pos (n := len) (show 0 < 16 by decide))
  omega

theorem readDigits_cons {c : Char} {d : Nat} (h : digit? c = some d) (m : Nat) (cs : List Char) :
    readDigits m (c :: cs) = if 2 ^ 64 ≤ m * 16 + d then .error .tooLarge else readDigits (m * 16 + d) cs := by
  rw [readDigits, h]
  rfl

theorem readDigits_eq_ok {cs : List Char} {m n : Nat} (hm : m < 2 ^ 64) :
    readDigits m cs = .ok n ↔ ∃ k, Denotes cs k ∧ n = m * 16 ^ cs.length + k ∧ n < 2 ^ 64 := by
  induction cs generalizing m with
  | nil =>
    simp only [readDigits, Except.ok.injEq, denotes_nil, List.length_nil, pow_zero, Nat.mul_one, exists_eq_left,
      Nat.add_zero]
    exact ⟨fun h => h ▸ ⟨rfl, hm⟩, fun h => h.1.symm⟩
  | cons c cs ih =>
    simp only [denotes_cons, List.length_cons]
    cases hc : digit? c with
    | none =>
      simp only [readDigits, hc, reduceCtorEq, false_iff]
      rintro ⟨_, ⟨d, k, hd, -⟩, -⟩
      exact digit?_eq_none_iff.1 hc d hd
    | some d =>
      have hd := digit?_eq_some_iff.1 hc
      rw [readDigits_cons hc]
      by_cases hlarge : 2 ^ 64 ≤ m * 16 + d
      · simp only [hlarge, if_true, reduceCtorEq, false_iff]
        rintro ⟨_, ⟨d', k, hd', -, rfl⟩, rfl, hn⟩
        rw [isDigit_unique hd hd', value_step] at hn
        exact large_step hlarge _ _ hn
      · simp only [hlarge, if_false]
        rw [ih (by omega)]
        constructor
        · rintro ⟨k, hk, rfl, hn⟩
          exact ⟨_, ⟨d, k, hd, hk, rfl⟩, (value_step m d k _).symm, hn⟩
        · rintro ⟨_, ⟨d', k, hd', hk, rfl⟩, rfl, hn⟩
          rw [isDigit_unique hd hd', value_step] at hn ⊢
          exact ⟨k, hk, rfl, hn⟩

theorem stuck_iff_of_digit {n d : Nat} {c : Char} {fault : Fault} (hd : IsDigit c d) :
    Stuck n c fault ↔ fault = .tooLarge ∧ 2 ^ 64 ≤ n * 16 + d := by
  constructor
  · intro h
    cases h with
    | invalidDigit hno => exact absurd hd (hno d)
    | tooLarge hd' hlarge => exact ⟨rfl, isDigit_unique hd hd' ▸ hlarge⟩
  · rintro ⟨rfl, hlarge⟩
    exact .tooLarge hd hlarge

theorem stuck_iff_of_no_digit {n : Nat} {c : Char} {fault : Fault} (hno : ∀ d, ¬ IsDigit c d) :
    Stuck n c fault ↔ fault = .invalidDigit := by
  constructor
  · intro h
    cases h with
    | invalidDigit => rfl
    | tooLarge hd => exact absurd hd (hno _)
  · rintro rfl
    exact .invalidDigit hno

/-- Some character of a text cannot go on with the value of those before it, read
after a value already read. -/
def Halts (m : Nat) (cs : List Char) (fault : Fault) : Prop :=
  ∃ pre c post k, cs = pre ++ c :: post ∧ Denotes pre k ∧ m * 16 ^ pre.length + k < 2 ^ 64 ∧
    Stuck (m * 16 ^ pre.length + k) c fault

/-- It is the first character, or one after it and the first one goes on. -/
theorem halts_cons {m : Nat} (hm : m < 2 ^ 64) {c : Char} {cs : List Char} {fault : Fault} :
    Halts m (c :: cs) fault ↔
      Stuck m c fault ∨ ∃ d, IsDigit c d ∧ m * 16 + d < 2 ^ 64 ∧ Halts (m * 16 + d) cs fault := by
  constructor
  · rintro ⟨pre, c', post, k, hcs, hk, hfits, hstuck⟩
    cases pre with
    | nil =>
      cases hcs
      left
      simpa [denotes_nil.1 hk] using hstuck
    | cons _ pre =>
      cases hcs
      obtain ⟨d, k, hd, htail, rfl⟩ := denotes_cons.1 hk
      rw [List.length_cons, value_step] at hfits hstuck
      have hlt : m * 16 + d < 2 ^ 64 := Nat.lt_of_not_le fun hlarge => large_step hlarge _ _ hfits
      exact .inr ⟨d, hd, hlt, pre, c', post, k, rfl, htail, hfits, hstuck⟩
  · rintro (h | ⟨d, hd, -, pre, c', post, k, rfl, hk, hfits, hstuck⟩)
    · exact ⟨[], c, cs, 0, rfl, denotes_nil.2 rfl, by simpa using hm, by simpa using h⟩
    · refine ⟨c :: pre, c', post, _, rfl, denotes_cons.2 ⟨d, k, hd, hk, rfl⟩, ?_, ?_⟩
      all_goals rwa [List.length_cons, value_step]

theorem readDigits_eq_error {cs : List Char} {m : Nat} {fault : Fault} (hm : m < 2 ^ 64) :
    readDigits m cs = .error fault ↔ Halts m cs fault := by
  induction cs generalizing m with
  | nil => simp [readDigits, Halts]
  | cons c cs ih =>
    rw [halts_cons hm]
    cases hc : digit? c with
    | none =>
      have hno := digit?_eq_none_iff.1 hc
      simp [readDigits, hc, stuck_iff_of_no_digit hno, hno, eq_comm]
    | some d =>
      have hd := digit?_eq_some_iff.1 hc
      have honly : (∃ d', IsDigit c d' ∧ m * 16 + d' < 2 ^ 64 ∧ Halts (m * 16 + d') cs fault) ↔
          m * 16 + d < 2 ^ 64 ∧ Halts (m * 16 + d) cs fault := by
        constructor
        · rintro ⟨d', hd', h⟩
          rwa [isDigit_unique hd hd'] at h
        · exact fun h => ⟨d, hd, h⟩
      rw [readDigits_cons hc, stuck_iff_of_digit hd, honly]
      by_cases hlarge : 2 ^ 64 ≤ m * 16 + d
      · simp only [hlarge, Nat.not_lt.2 hlarge, if_true, Except.error.injEq, and_true, false_and, or_false, eq_comm]
      · have hlt := Nat.lt_of_not_le hlarge
        simp only [hlarge, if_false, and_false, false_or, ih hlt, hlt, true_and]

/-! ## Mark and sign -/

theorem unmarked_stripMark (w : List Char) : Unmarked w (stripMark w) := by
  unfold stripMark
  split
  · exact .mark (List.mem_cons_self)
  · exact .mark (List.mem_cons_of_mem _ List.mem_cons_self)
  · next hlower hupper =>
    refine .plain fun m hm ⟨u, hu⟩ => ?_
    simp only [marks, List.mem_cons, List.not_mem_nil, or_false] at hm
    rcases hm with rfl | rfl
    · exact hlower u hu.symm
    · exact hupper u hu.symm

theorem stripMark_eq_iff {w u : List Char} : stripMark w = u ↔ Unmarked w u := by
  constructor
  · rintro rfl
    exact unmarked_stripMark w
  · rintro (hm | hno)
    · next m =>
      simp only [marks, List.mem_cons, List.not_mem_nil, or_false] at hm
      rcases hm with rfl | rfl <;> rfl
    · generalize hs : stripMark w = s
      have h := unmarked_stripMark w
      rw [hs] at h
      cases h with
      | mark hm => exact absurd (List.prefix_append _ _) (hno _ hm)
      | plain => rfl

theorem exists_unsigned (u : List Char) : ∃ ds, Unsigned u ds := by
  by_cases h : u.head? = some '+'
  · obtain ⟨ds, rfl⟩ := List.head?_eq_some_iff.1 h
    exact ⟨ds, .plus⟩
  · exact ⟨u, .plain h⟩

theorem Unmarked.exists_mark {w u : List Char} (h : Unmarked w u) : ∃ mark ∈ [] :: marks, mark ++ u = w := by
  cases h with
  | @mark m _ hm => exact ⟨m, List.mem_cons_of_mem _ hm, rfl⟩
  | plain => exact ⟨[], List.mem_cons_self, rfl⟩

theorem Unsigned.exists_sign {u ds : List Char} (h : Unsigned u ds) : ∃ sign ∈ [[], ['+']], sign ++ ds = u := by
  cases h with
  | plus => exact ⟨['+'], by simp, rfl⟩
  | plain => exact ⟨[], by simp, rfl⟩

section Digits
variable {mark sign ds : List Char} (hdigits : ∀ c ∈ ds, digit? c ≠ none) (hsign : sign = [] ∨ sign = ['+'])
include hdigits hsign

theorem unsigned_of_digits : Unsigned (sign ++ ds) ds := by
  rcases hsign with rfl | rfl
  · exact .plain fun h => hdigits '+' (List.mem_of_mem_head? h) (by decide)
  · exact .plus

theorem ne_sign_of_digits (hne : ds ≠ []) : sign ++ ds ≠ ['+'] := by
  rcases hsign with rfl | rfl
  · rintro rfl
    exact hdigits '+' List.mem_cons_self (by decide)
  · exact fun h => hne (List.cons.inj h).2

/-- The second letter of a mark is no digit, so no mark comes off by mistake. -/
theorem unmarked_of_digits (hmark : mark ∈ [] :: marks) : Unmarked (mark ++ (sign ++ ds)) (sign ++ ds) := by
  rcases List.mem_cons.1 hmark with rfl | hmark
  · refine .plain fun m hm hstart => ?_
    obtain ⟨v, hv⟩ := hstart
    simp only [marks, List.mem_cons, List.not_mem_nil, or_false] at hm
    rcases hsign with rfl | rfl
    · rcases hm with rfl | rfl
      · exact hdigits 'x' (by simp [← show _ = ds from hv]) (by decide)
      · exact hdigits 'X' (by simp [← show _ = ds from hv]) (by decide)
    · rcases hm with rfl | rfl <;> cases hv
  · exact .mark hmark

end Digits

theorem readUnmarked_of_unsigned {u ds : List Char} (h : Unsigned u ds) (hne : u ≠ []) (hsign : u ≠ ['+']) :
    readUnmarked u = readDigits 0 ds := by
  unfold readUnmarked
  split
  · exact absurd rfl hne
  · exact absurd rfl hsign
  · cases h with
    | plus => rfl
    | plain h => exact absurd rfl h
  · next hplus =>
    cases h with
    | plus => exact absurd rfl (hplus ds)
    | plain => rfl

/-! ## Words -/

theorem readDigits_zero_eq_ok {ds : List Char} {n : Nat} :
    readDigits 0 ds = .ok n ↔ Denotes ds n ∧ n < 2 ^ 64 := by
  rw [readDigits_eq_ok (by decide)]
  simp only [Nat.zero_mul, Nat.zero_add]
  exact ⟨by rintro ⟨_, h, rfl, hn⟩; exact ⟨h, hn⟩, fun h => ⟨n, h.1, rfl, h.2⟩⟩

/-- The words that are read, and their values, are the numerals and theirs. -/
theorem read_eq_ok {w : List Char} {n : Nat} : read w = .ok n ↔ Numeral w n := by
  constructor
  · intro h
    obtain ⟨u, hu⟩ : ∃ u, Unmarked w u := ⟨_, unmarked_stripMark w⟩
    rw [read, stripMark_eq_iff.2 hu] at h
    obtain ⟨ds, hds⟩ := exists_unsigned u
    have hne : u ≠ [] := by rintro rfl; cases h
    have hsign : u ≠ ['+'] := by rintro rfl; cases h
    rw [readUnmarked_of_unsigned hds hne hsign, readDigits_zero_eq_ok] at h
    obtain ⟨mark, hmark, rfl⟩ := hu.exists_mark
    obtain ⟨sign, hmem, rfl⟩ := hds.exists_sign
    rw [← List.append_assoc]
    refine .intro hmark hmem ?_ h.1 h.2
    rintro rfl
    simp only [List.mem_cons, List.not_mem_nil, or_false] at hmem
    rcases hmem with rfl | rfl
    · exact hne rfl
    · exact hsign rfl
  · rintro ⟨hmark, hmem, hne, hds, hn⟩
    next mark sign ds =>
    have hdigits : ∀ c ∈ ds, digit? c ≠ none := fun c hc hnone => by
      obtain ⟨d, hd⟩ := isDigit_of_denotes hds c hc
      exact digit?_eq_none_iff.1 hnone d hd
    have hsign : sign = [] ∨ sign = ['+'] := by simpa using hmem
    rw [read, List.append_assoc, stripMark_eq_iff.2 (unmarked_of_digits hdigits hsign hmark),
      readUnmarked_of_unsigned (unsigned_of_digits hdigits hsign) (by simp [hne]) (ne_sign_of_digits hdigits hsign hne)]
    exact readDigits_zero_eq_ok.2 ⟨hds, hn⟩

theorem readDigits_zero_eq_error {ds : List Char} {fault : Fault} :
    readDigits 0 ds = .error fault ↔
      ∃ pre c post n, ds = pre ++ c :: post ∧ Denotes pre n ∧ n < 2 ^ 64 ∧ Stuck n c fault := by
  rw [readDigits_eq_error (by decide)]
  simp only [Halts, Nat.zero_mul, Nat.zero_add]

/-- Every other text is refused, by the check it fails. -/
theorem read_eq_error {w : List Char} {fault : Fault} : read w = .error fault ↔ Misread w fault := by
  constructor
  · intro h
    obtain ⟨u, hu⟩ : ∃ u, Unmarked w u := ⟨_, unmarked_stripMark w⟩
    rw [read, stripMark_eq_iff.2 hu] at h
    by_cases hne : u = []
    · subst hne
      cases h
      exact .empty hu
    by_cases hsign : u = ['+']
    · subst hsign
      cases h
      exact .sign hu
    obtain ⟨ds, hds⟩ := exists_unsigned u
    rw [readUnmarked_of_unsigned hds hne hsign, readDigits_zero_eq_error] at h
    obtain ⟨pre, c, post, n, rfl, hpre, hn, hstuck⟩ := h
    exact .digits hu hsign hds hpre hn hstuck
  · intro h
    cases h with
    | empty hu =>
      rw [read, stripMark_eq_iff.2 hu]
      rfl
    | sign hu =>
      rw [read, stripMark_eq_iff.2 hu]
      rfl
    | @digits u _ _ _ _ _ hu hsign hds hpre hn hstuck =>
      have hne : u ≠ [] := by
        rintro rfl
        generalize hempty : _ ++ _ :: _ = ds at hds
        cases hds
        simp at hempty
      rw [read, stripMark_eq_iff.2 hu, readUnmarked_of_unsigned hds hne hsign]
      exact readDigits_zero_eq_error.2 ⟨_, _, _, _, rfl, hpre, hn, hstuck⟩

end LastLevel.Text.Hexadecimal
