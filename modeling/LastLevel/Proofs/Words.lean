import LastLevel.Text.Blank
import Mathlib.Data.List.DropRight
/-!
# What the words of a text are

`Tokens` says, without cutting anything, how a text is made up of blanks and
words. Every text is made up in exactly one way, and `words` finds it
(`words_eq_iff`). Blanks around a text are no part of any word, so trimming the
text changes none (`words_trim`), and a trimmed text begins as its first word
does (`head?_trim`).
-/

namespace LastLevel.Text

/-- A text that is made up of these words: blanks may stand anywhere between
them, and must stand between two of them. -/
inductive Tokens : List Char → List (List Char) → Prop where
  | done : Tokens [] []
  | blank {b : Char} {cs : List Char} {ws : List (List Char)} :
    isBlank b = true → Tokens cs ws → Tokens (b :: cs) ws
  | word {w cs : List Char} {ws : List (List Char)} :
    w ≠ [] → (∀ c ∈ w, isBlank c = false) → (∀ b ∈ cs.head?, isBlank b = true) →
    Tokens cs ws → Tokens (w ++ cs) (w :: ws)

/-- The text without the blanks at its ends. -/
def trim (cs : List Char) : List Char := (cs.dropWhile isBlank).rdropWhile isBlank

/-! ## Words are found one after the other -/

theorem words_cons_blank {b : Char} (hb : isBlank b = true) (cs : List Char) : words (b :: cs) = words cs := by
  rw [words, chop_cons, hb]
  rfl

theorem words_of_tokens {cs : List Char} {ws : List (List Char)} (h : Tokens cs ws) : words cs = ws := by
  induction h with
  | done => rfl
  | blank hb _ ih => rw [words_cons_blank hb, ih]
  | @word w cs ws hne hw hnext _ ih =>
    cases cs with
    | nil =>
      rw [← ih, List.append_nil]
      exact words_eq_singleton hne hw
    | cons b cs =>
      have hb : isBlank b = true := hnext b rfl
      rw [words_append_blank hne hw hb, ← ih, words_cons_blank hb]

/-- What `chop` takes off the front goes on until a blank or the end, and the
words it returns are those of the rest. -/
theorem tokens_chop (cs : List Char) :
    ∃ rest, cs = (chop cs).1 ++ rest ∧ (∀ b ∈ rest.head?, isBlank b = true) ∧ Tokens rest (chop cs).2 := by
  induction cs with
  | nil => exact ⟨[], rfl, by simp, .done⟩
  | cons c cs ih =>
    obtain ⟨rest, hcs, hnext, hrest⟩ := ih
    rw [chop_cons]
    cases hc : isBlank c with
    | false => exact ⟨rest, congrArg (c :: ·) hcs, hnext, hrest⟩
    | true =>
      refine ⟨c :: cs, rfl, by simpa using hc, .blank hc ?_⟩
      show Tokens cs (consWord (chop cs).1 (chop cs).2)
      unfold consWord
      split
      · next hempty =>
        rw [hempty] at hcs
        exact hcs ▸ hrest
      · next hne =>
        have htokens := Tokens.word hne (chop_spec cs).1 hnext hrest
        rwa [← hcs] at htokens

theorem tokens_words (cs : List Char) : Tokens cs (words cs) := by
  obtain ⟨rest, hcs, hnext, hrest⟩ := tokens_chop cs
  unfold words consWord
  split
  · next hempty =>
    rw [hempty] at hcs
    exact hcs ▸ hrest
  · next hne =>
    have htokens := Tokens.word hne (chop_spec cs).1 hnext hrest
    rwa [← hcs] at htokens

/-- A text is made up of its words, and of no others. -/
theorem words_eq_iff {cs : List Char} {ws : List (List Char)} : words cs = ws ↔ Tokens cs ws :=
  ⟨fun h => h ▸ tokens_words cs, words_of_tokens⟩

/-! ## Blanks at the ends -/

theorem words_dropWhile (cs : List Char) : words (cs.dropWhile isBlank) = words cs := by
  induction cs with
  | nil => rfl
  | cons c cs ih =>
    cases hc : isBlank c with
    | false => rw [List.dropWhile_cons_of_neg (by simp [hc])]
    | true => rw [List.dropWhile_cons_of_pos hc, ih, words_cons_blank hc]

/-- Texts with a blank between them are made up of the words of both. -/
theorem tokens_append_blank {cs ds : List Char} {ws vs : List (List Char)} (h : Tokens cs ws) {b : Char}
    (hb : isBlank b = true) (h' : Tokens ds vs) : Tokens (cs ++ b :: ds) (ws ++ vs) := by
  induction h with
  | done => exact .blank hb h'
  | blank hc _ ih => exact .blank hc ih
  | @word w cs ws hne hw hnext _ ih =>
    rw [List.append_assoc]
    refine .word hne hw ?_ ih
    cases cs with
    | nil => simpa using hb
    | cons c cs => simpa using hnext

theorem words_append_cons_blank (cs : List Char) {b : Char} (hb : isBlank b = true) (ds : List Char) :
    words (cs ++ b :: ds) = words cs ++ words ds :=
  words_of_tokens (tokens_append_blank (tokens_words cs) hb (tokens_words ds))

theorem tokens_concat_blank {cs : List Char} {ws : List (List Char)} (h : Tokens cs ws) {b : Char}
    (hb : isBlank b = true) : Tokens (cs ++ [b]) ws := by
  simpa using tokens_append_blank h hb .done

theorem words_rdropWhile (cs : List Char) : words (cs.rdropWhile isBlank) = words cs := by
  induction cs using List.reverseRecOn with
  | nil => rfl
  | append_singleton cs c ih =>
    cases hc : isBlank c with
    | false => rw [List.rdropWhile_concat_neg _ _ _ (by simp [hc])]
    | true =>
      rw [List.rdropWhile_concat_pos _ _ _ hc, ih]
      exact (words_of_tokens (tokens_concat_blank (tokens_words cs) hc)).symm

theorem words_trim (cs : List Char) : words (trim cs) = words cs := by
  rw [trim, words_rdropWhile, words_dropWhile]

/-- A text that begins with a word begins as this word does, and so does the
trimmed text. -/
theorem head?_trim (cs : List Char) : (trim cs).head? = (words cs).head?.bind List.head? := by
  rw [← words_dropWhile]
  unfold trim
  cases hd : cs.dropWhile isBlank with
  | nil => rfl
  | cons c ds =>
    have hc : isBlank c = false := by
      have := List.head?_dropWhile_not isBlank cs
      simpa [hd] using this
    obtain ⟨t, ht⟩ := List.rdropWhile_prefix (p := isBlank) (l := c :: ds)
    have hne : (c :: ds).rdropWhile isBlank ≠ [] := by
      intro h
      have := List.rdropWhile_eq_nil_iff.1 h c List.mem_cons_self
      simp [hc] at this
    obtain ⟨d, es, he⟩ := List.exists_cons_of_ne_nil hne
    rw [he] at ht ⊢
    obtain rfl : d = c := (List.cons.inj ht).1
    rw [words, chop_cons, hc]
    rfl

end LastLevel.Text
