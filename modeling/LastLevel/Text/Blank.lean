/-!
# Blank characters and words

The blank characters are those with the Unicode property `White_Space`; every
white space character of ASCII is one: `isBlank_of_isWhitespace`. `words` cuts a
text at blanks; its words are never empty and hold no blank: `words_ne_nil` and
`not_isBlank_of_mem_words`. `words_append_blank` takes one word off the front.
-/

namespace LastLevel.Text

/-- The code points with the Unicode property `White_Space`, as ranges with both
ends included. -/
def blankRanges : List (Nat × Nat) :=
  [(0x09, 0x0d), (0x20, 0x20), (0x85, 0x85), (0xa0, 0xa0), (0x1680, 0x1680), (0x2000, 0x200a),
    (0x2028, 0x2029), (0x202f, 0x202f), (0x205f, 0x205f), (0x3000, 0x3000)]

def isBlank (c : Char) : Bool := blankRanges.any fun r => r.1 ≤ c.toNat && c.toNat ≤ r.2

/-- Puts a word in front of others, unless it is empty. -/
def consWord (w : List Char) (ws : List (List Char)) : List (List Char) := if w = [] then ws else w :: ws

/-- The word a text begins with, possibly empty, and the words after it. -/
def chop (cs : List Char) : List Char × List (List Char) :=
  cs.foldr (fun c p => if isBlank c then ([], consWord p.1 p.2) else (c :: p.1, p.2)) ([], [])

/-- The words of a text: its longest parts without blanks. -/
def words (cs : List Char) : List (List Char) := consWord (chop cs).1 (chop cs).2

theorem isBlank_of_isWhitespace {c : Char} (h : c.isWhitespace = true) : isBlank c = true := by
  simp only [Char.isWhitespace, Bool.or_eq_true, decide_eq_true_eq] at h
  rcases h with ((rfl | rfl) | rfl) | rfl <;> decide

/-! ## What words are made of -/

theorem chop_cons (c : Char) (cs : List Char) :
    chop (c :: cs) =
      if isBlank c then ([], consWord (chop cs).1 (chop cs).2) else (c :: (chop cs).1, (chop cs).2) := rfl

/-- Characters that are not blank go on with the word before them. -/
theorem chop_append {w : List Char} (h : ∀ c ∈ w, isBlank c = false) (cs : List Char) :
    chop (w ++ cs) = (w ++ (chop cs).1, (chop cs).2) := by
  induction w with
  | nil => rfl
  | cons c w ih =>
    rw [List.cons_append, chop_cons, h c List.mem_cons_self, ih fun d hd => h d (List.mem_cons_of_mem _ hd)]
    rfl

/-- A blank ends a word. -/
theorem words_append_blank {w : List Char} (hne : w ≠ []) (h : ∀ c ∈ w, isBlank c = false) {b : Char}
    (hb : isBlank b = true) (cs : List Char) : words (w ++ b :: cs) = w :: words cs := by
  rw [words, chop_append h, chop_cons, hb]
  simp [consWord, hne, words]

/-- The end of the text ends a word. -/
theorem words_eq_singleton {w : List Char} (hne : w ≠ []) (h : ∀ c ∈ w, isBlank c = false) :
    words w = [w] := by
  have := chop_append h []
  rw [List.append_nil] at this
  rw [words, this]
  simp [consWord, hne, chop]

theorem mem_consWord {w x : List Char} {ws : List (List Char)} (h : x ∈ consWord w ws) :
    (x = w ∧ w ≠ []) ∨ x ∈ ws := by
  unfold consWord at h
  split at h
  · exact .inr h
  · next hw =>
    rcases List.mem_cons.1 h with rfl | h
    · exact .inl ⟨rfl, hw⟩
    · exact .inr h

theorem chop_spec (cs : List Char) :
    (∀ c ∈ (chop cs).1, isBlank c = false) ∧
      ∀ w ∈ (chop cs).2, w ≠ [] ∧ ∀ c ∈ w, isBlank c = false := by
  induction cs with
  | nil => simp [chop]
  | cons c cs ih =>
    rw [chop_cons]
    split
    · refine ⟨by simp, fun w hw => ?_⟩
      rcases mem_consWord hw with ⟨rfl, hne⟩ | hw
      · exact ⟨hne, ih.1⟩
      · exact ih.2 w hw
    · next hc => exact ⟨by simpa [hc] using ih.1, ih.2⟩

theorem words_ne_nil {cs w : List Char} (h : w ∈ words cs) : w ≠ [] := by
  rcases mem_consWord h with ⟨rfl, hne⟩ | h
  · exact hne
  · exact ((chop_spec cs).2 w h).1

theorem not_isBlank_of_mem_words {cs w : List Char} (h : w ∈ words cs) : ∀ c ∈ w, isBlank c = false := by
  rcases mem_consWord h with ⟨rfl, -⟩ | h
  · exact (chop_spec cs).1
  · exact ((chop_spec cs).2 w h).2

end LastLevel.Text
