import LastLevel.Proofs.Dumps
import LastLevel.Proofs.Numerals
import LastLevel.Proofs.Traversal
import LastLevel.Proofs.Words
import LastLevel.Text.Natural
/-!
# The language of traces

`Lines` cuts a file into its lines, `Says` gives the lines that are accepted and
what they record, and `Fails` the other lines and what refuses them. None of
them reads anything: they compose a line from its characters, the characters
from words and blanks, and numbers from their digits. Reading one line decides
between them (`readLine_eq_ok`, `readLine_eq_error`), and reading stops at the
first line that fails. Its error is told with the number of the line, unless the
line is no text (`message_names_line`). Main statement: `reads_the_language`.
-/

namespace LastLevel.Trace

open Text (isBlank trim words Tokens)
open Text.Hexadecimal (Numeral Misread)

/-- The UTF-8 bytes of a text. -/
def utf8 (cs : List Char) : List UInt8 := cs.flatMap String.utf8EncodeChar

/-- The bytes of a file that has these lines. A line ends at a line feed, and a
carriage return right before the line feed is no part of the line; the bytes
after the last line feed are one more line, unless there are none. -/
inductive Lines : List UInt8 → List (List UInt8) → Prop where
  | done : Lines [] []
  | last {l : List UInt8} : l ≠ [] → 10 ∉ l → Lines l [l]
  | feed {l rest : List UInt8} {ls : List (List UInt8)} :
    10 ∉ l → l.getLast? ≠ some 13 → Lines rest ls → Lines (l ++ 10 :: rest) (l :: ls)
  | returnFeed {l rest : List UInt8} {ls : List (List UInt8)} :
    10 ∉ l → Lines rest ls → Lines (l ++ 13 :: 10 :: rest) (l :: ls)

/-- A store flag and what it stands for. -/
inductive Flag : List Char → AccessKind → Prop where
  | read {w : List Char} : w ∈ ["0".toList, "false".toList] → Flag w .read
  | write {w : List Char} : w ∈ ["1".toList, "true".toList] → Flag w .write

/-- A line that is accepted, and the record on it: nothing, a comment, or an
address, a core number and a flag. -/
inductive Says : List UInt8 → Option Record → Prop where
  | nothing {cs : List Char} : trim cs = [] → Says (utf8 cs) none
  | comment {cs : List Char} : (trim cs).head? = some '#' → Says (utf8 cs) none
  | record {cs address client flag : List Char} {a c : Nat} {kind : AccessKind} :
    Tokens (trim cs) [address, client, flag] → Numeral address a → Numeral client c → Flag flag kind →
    Says (utf8 cs) (some { address := UInt64.ofNat a, client := UInt64.ofNat c, kind })

/-- A line with these words that is no comment. -/
inductive Holds : List UInt8 → List (List Char) → Prop where
  | intro {cs : List Char} {ws : List (List Char)} :
    (trim cs).head? ≠ some '#' → Tokens (trim cs) ws → Holds (utf8 cs) ws

/-- A line that is refused, and its error: the first of the checks, in the order
given here, that the line does not pass. -/
inductive Fails (line : Nat) : List UInt8 → TraceError → Prop where
  | encoding {l : List UInt8} : (∀ cs, l ≠ utf8 cs) → Fails line l .encoding
  | missingClient {l : List UInt8} {address : List Char} :
    Holds l [address] → Fails line l (.missingClient line)
  | missingFlag {l : List UInt8} {address client : List Char} :
    Holds l [address, client] → Fails line l (.missingFlag line)
  | extraWords {l : List UInt8} {ws : List (List Char)} :
    Holds l ws → 3 < ws.length → Fails line l (.extraWords line)
  | address {l : List UInt8} {address client flag : List Char} {fault : Text.Hexadecimal.Fault} :
    Holds l [address, client, flag] → Misread address fault →
    Fails line l (.address line (String.ofList address) fault)
  | client {l : List UInt8} {address client flag : List Char} {a : Nat} {fault : Text.Hexadecimal.Fault} :
    Holds l [address, client, flag] → Numeral address a → Misread client fault →
    Fails line l (.client line (String.ofList client) fault)
  | flag {l : List UInt8} {address client flag : List Char} {a c : Nat} :
    Holds l [address, client, flag] → Numeral address a → Numeral client c → (∀ kind, ¬ Flag flag kind) →
    Fails line l (.flag line (String.ofList flag))

/-! ## Texts and their bytes -/

theorem readLine_utf8 (line : Nat) (cs : List Char) : readLine line (utf8 cs) = readWords line (words cs) := by
  have hbytes : (ByteArray.mk (utf8 cs).toArray) = (String.ofList cs).toUTF8 := by
    rw [String.toUTF8_eq_toByteArray, String.toByteArray_ofList, List.utf8Encode]
    exact ByteArray.ext List.data_toByteArray.symm
  rw [readLine, hbytes, fromUTF8?_toUTF8]
  simp only [String.toList_ofList]

theorem readLine_of_not_utf8 (line : Nat) {l : List UInt8} (h : ∀ cs, l ≠ utf8 cs) :
    readLine line l = .error .encoding := by
  have hinvalid : ¬ ByteArray.IsValidUTF8 ⟨l.toArray⟩ := by
    rintro ⟨cs, hcs⟩
    refine h cs ?_
    have := congrArg (fun b => b.data.toList) hcs
    simpa [utf8, List.utf8Encode, List.data_toByteArray] using this
  rw [readLine, String.fromUTF8?, dif_neg hinvalid]

/-- The bytes of a text end in a carriage return only if the text does. -/
theorem eq_return_of_getLast? {c : Char} (h : (String.utf8EncodeChar c).getLast? = some 13) : c = '\r' := by
  refine Char.toNat_inj.1 ?_
  show c.toNat = 13
  unfold String.utf8EncodeChar at h
  simp only [show c.val.toNat = c.toNat from rfl] at h
  split_ifs at h <;> simp [← UInt8.toNat_inj] at h <;> omega

theorem eq_utf8_concat_return {l : List UInt8} {cs : List Char} (h : l ++ [13] = utf8 cs) :
    ∃ ds, cs = ds ++ ['\r'] ∧ l = utf8 ds := by
  induction cs using List.reverseRecOn with
  | nil => simp [utf8] at h
  | append_singleton ds c _ =>
    have hc : c = '\r' := by
      have hne : (String.utf8EncodeChar c) ≠ [] := by
        unfold String.utf8EncodeChar
        dsimp only
        split_ifs <;> simp
      have := congrArg List.getLast? h
      simp only [utf8, List.flatMap_append, List.flatMap_singleton, List.getLast?_append_of_ne_nil _ hne,
        List.getLast?_concat] at this
      exact eq_return_of_getLast? this.symm
    subst hc
    refine ⟨ds, rfl, ?_⟩
    have hreturn : utf8 (ds ++ ['\r']) = utf8 ds ++ [13] := by simp [utf8, List.flatMap_append]; decide
    exact List.append_cancel_right (h.trans hreturn)

/-- A carriage return at its end does not matter to a line. -/
theorem readLine_concat_return (line : Nat) (l : List UInt8) : readLine line (l ++ [13]) = readLine line l := by
  by_cases h : ∃ cs, l = utf8 cs
  · obtain ⟨cs, rfl⟩ := h
    have hreturn : utf8 cs ++ [13] = utf8 (cs ++ ['\r']) := by simp [utf8, List.flatMap_append]; decide
    have hwords : words (cs ++ ['\r']) = words cs :=
      Text.words_of_tokens (Text.tokens_concat_blank (Text.tokens_words cs) (by decide))
    rw [hreturn, readLine_utf8, readLine_utf8, hwords]
  · have hno : ∀ cs, l ≠ utf8 cs := fun cs hcs => h ⟨cs, hcs⟩
    rw [readLine_of_not_utf8 line hno, readLine_of_not_utf8 line]
    intro cs hcs
    obtain ⟨ds, -, hds⟩ := eq_utf8_concat_return hcs
    exact hno ds hds

/-! ## Files and their lines -/

theorem lines_eq_singleton {l : List UInt8} (h : 10 ∉ l) : lines l = [l] := by
  induction l with
  | nil => rfl
  | cons b l ih =>
    rw [List.mem_cons, not_or] at h
    rw [lines, List.foldr_cons, ← lines, ih h.2, if_neg (Ne.symm h.1)]
    rfl

theorem lines_ne_nil (bytes : List UInt8) : lines bytes ≠ [] := by
  cases bytes with
  | nil => simp [lines]
  | cons b bytes =>
    rw [lines, List.foldr_cons]
    split <;> simp

theorem exists_lines (bytes : List UInt8) : ∃ ls, Lines bytes ls := by
  induction hn : bytes.length using Nat.strongRecOn generalizing bytes with
  | _ n ih =>
    by_cases hfeed : 10 ∈ bytes
    · obtain ⟨l, rest, rfl, hl⟩ := List.eq_append_cons_of_mem hfeed
      obtain ⟨ls, hls⟩ := ih rest.length (by rw [← hn]; simp; omega) rest rfl
      by_cases hreturn : l.getLast? = some 13
      · obtain ⟨l, rfl⟩ := List.getLast?_eq_some_iff.1 hreturn
        rw [List.append_assoc]
        exact ⟨l :: ls, .returnFeed (fun h => hl (List.mem_append_left _ h)) hls⟩
      · exact ⟨l :: ls, .feed hl hreturn hls⟩
    · by_cases hempty : bytes = []
      · exact ⟨[], hempty ▸ .done⟩
      · exact ⟨[bytes], .last hempty hfeed⟩

/-- What stands before a line feed, without a carriage return at its end. -/
def chomp (l : List UInt8) : List UInt8 := if l.getLast? = some 13 then l.dropLast else l

/-- The lines of a file, from what stands between its line feeds. -/
def rows : List (List UInt8) → List (List UInt8)
  | [] => []
  | [l] => if l = [] then [] else [l]
  | l :: l' :: ls => chomp l :: rows (l' :: ls)

theorem rows_cons (l : List UInt8) {ls : List (List UInt8)} (h : ls ≠ []) : rows (l :: ls) = chomp l :: rows ls := by
  obtain ⟨l', ls, rfl⟩ := List.exists_cons_of_ne_nil h
  rfl

theorem lines_append_return {l : List UInt8} (h : 10 ∉ l) (rest : List UInt8) :
    lines (l ++ 13 :: 10 :: rest) = (l ++ [13]) :: lines rest := by
  have hl : 10 ∉ l ++ [13] := by simpa using h
  rw [← lines_append_line hl, List.append_assoc]
  rfl

/-- A file has its lines in one way only. -/
theorem rows_lines {bytes : List UInt8} {ls : List (List UInt8)} (h : Lines bytes ls) : rows (lines bytes) = ls := by
  induction h with
  | done => rfl
  | last hne hl => simp [lines_eq_singleton hl, rows, hne]
  | feed hl hreturn _ ih => rw [lines_append_line hl, rows_cons _ (lines_ne_nil _), ih, chomp, if_neg hreturn]
  | returnFeed hl _ ih =>
    rw [lines_append_return hl, rows_cons _ (lines_ne_nil _), ih]
    simp [chomp]

/-! ## Lines are read as the language says -/

theorem trim_eq_nil_iff {cs : List Char} : trim cs = [] ↔ words cs = [] := by
  constructor
  · intro h
    rw [← Text.words_trim, h]
    rfl
  · intro h
    have hhead := Text.head?_trim cs
    rw [h] at hhead
    exact List.head?_eq_none_iff.1 hhead

theorem tokens_trim_iff {cs : List Char} {ws : List (List Char)} : Tokens (trim cs) ws ↔ words cs = ws := by
  rw [← Text.words_eq_iff, Text.words_trim]

/-- A line is a comment if its first word starts as one. -/
theorem head?_trim_eq_some_iff {cs : List Char} :
    (trim cs).head? = some '#' ↔ ∃ w ws, words cs = ('#' :: w) :: ws := by
  rw [Text.head?_trim]
  cases words cs with
  | nil => simp
  | cons w ws => cases w <;> simp

theorem kind?_eq_some_iff {w : List Char} {kind : AccessKind} : kind? w = some kind ↔ Flag w kind := by
  constructor
  · intro h
    unfold kind? at h
    split_ifs at h with hread hwrite
    · cases h
      exact .read (by simpa using hread)
    · cases h
      exact .write (by simpa using hwrite)
  · intro h
    cases h with
    | read h =>
      simp only [List.mem_cons, List.not_mem_nil, or_false] at h
      rcases h with rfl | rfl <;> decide
    | write h =>
      simp only [List.mem_cons, List.not_mem_nil, or_false] at h
      rcases h with rfl | rfl <;> decide

/-- A number does not begin as a comment does. -/
theorem head?_of_numeral {w : List Char} {n : Nat} (h : Numeral w n) : w.head? ≠ some '#' := by
  intro hhead
  obtain ⟨cs, rfl⟩ := List.head?_eq_some_iff.1 hhead
  have hread : Text.Hexadecimal.read ('#' :: cs) = .error .invalidDigit := rfl
  cases hread.symm.trans (Text.Hexadecimal.read_eq_ok.2 h)

theorem readLine_of_said {l : List UInt8} {x : Option Record} (h : Says l x) (line : Nat) :
    readLine line l = .ok x := by
  cases h with
  | nothing h =>
    rw [readLine_utf8, trim_eq_nil_iff.1 h]
    rfl
  | comment h =>
    obtain ⟨w, ws, hws⟩ := head?_trim_eq_some_iff.1 h
    rw [readLine_utf8, hws]
    simp [readWords]
  | record h ha hc hflag =>
    rw [readLine_utf8, tokens_trim_iff.1 h, readWords_three (head?_of_numeral ha), readRecord,
      Text.Hexadecimal.read_eq_ok.2 ha, Text.Hexadecimal.read_eq_ok.2 hc, kind?_eq_some_iff.2 hflag]
    rfl

theorem readLine_of_holds {l : List UInt8} {ws : List (List Char)} (h : Holds l ws) (line : Nat) :
    readLine line l = readWords line ws ∧ ∀ w rest, ws ≠ ('#' :: w) :: rest := by
  obtain ⟨hhead, htokens⟩ := h
  rw [tokens_trim_iff] at htokens
  subst htokens
  exact ⟨readLine_utf8 line _, fun w rest hws => hhead (head?_trim_eq_some_iff.2 ⟨w, rest, hws⟩)⟩

/-- Three words of a line that is no comment are read as a record. -/
theorem readLine_of_holds_three {l : List UInt8} {address client flag : List Char}
    (h : Holds l [address, client, flag]) (line : Nat) :
    readLine line l = (readRecord line address client flag).map some := by
  obtain ⟨hread, hno⟩ := readLine_of_holds h line
  rw [hread, readWords_three]
  intro hhead
  obtain ⟨cs, rfl⟩ := List.head?_eq_some_iff.1 hhead
  exact hno cs _ rfl

theorem readWords_of_length_ne {ws : List (List Char)} (h : ∀ w rest, ws ≠ ('#' :: w) :: rest) (line : Nat) :
    (ws.length = 1 → readWords line ws = .error (.missingClient line)) ∧
    (ws.length = 2 → readWords line ws = .error (.missingFlag line)) ∧
    (3 < ws.length → readWords line ws = .error (.extraWords line)) := by
  unfold readWords
  split
  · simp
  · exact absurd rfl (h _ _)
  · simp
  · simp
  · simp
  · next hone htwo hthree =>
    refine ⟨fun hlen => ?_, fun hlen => ?_, fun _ => rfl⟩
    · obtain ⟨a, rfl⟩ := List.length_eq_one_iff.1 hlen
      exact absurd rfl (hone a)
    · obtain ⟨a, b, rfl⟩ := List.length_eq_two.1 hlen
      exact absurd rfl (htwo a b)

theorem readLine_of_fails {line : Nat} {l : List UInt8} {e : TraceError} (h : Fails line l e) :
    readLine line l = .error e := by
  cases h with
  | encoding h => exact readLine_of_not_utf8 line h
  | missingClient h =>
    obtain ⟨hread, hno⟩ := readLine_of_holds h line
    rw [hread, (readWords_of_length_ne hno line).1 rfl]
  | missingFlag h =>
    obtain ⟨hread, hno⟩ := readLine_of_holds h line
    rw [hread, (readWords_of_length_ne hno line).2.1 rfl]
  | extraWords h hlength =>
    obtain ⟨hread, hno⟩ := readLine_of_holds h line
    rw [hread, (readWords_of_length_ne hno line).2.2 hlength]
  | address h ha =>
    rw [readLine_of_holds_three h, readRecord, Text.Hexadecimal.read_eq_error.2 ha]
    rfl
  | client h ha hc =>
    rw [readLine_of_holds_three h, readRecord, Text.Hexadecimal.read_eq_ok.2 ha, Text.Hexadecimal.read_eq_error.2 hc]
    rfl
  | flag h ha hc hflag =>
    have hkind : kind? _ = none :=
      Option.eq_none_iff_forall_ne_some.2 fun kind hk => hflag kind (kind?_eq_some_iff.1 hk)
    rw [readLine_of_holds_three h, readRecord, Text.Hexadecimal.read_eq_ok.2 ha, Text.Hexadecimal.read_eq_ok.2 hc,
      hkind]
    rfl

/-- Every line is accepted or refused. -/
theorem says_or_fails (line : Nat) (l : List UInt8) : (∃ x, Says l x) ∨ ∃ e, Fails line l e := by
  by_cases hutf8 : ∃ cs, l = utf8 cs
  · obtain ⟨cs, rfl⟩ := hutf8
    by_cases hcomment : (trim cs).head? = some '#'
    · exact .inl ⟨none, .comment hcomment⟩
    have hholds : ∀ {ws}, words cs = ws → Holds (utf8 cs) ws := fun h => .intro hcomment (tokens_trim_iff.2 h)
    match hws : words cs with
    | [] => exact .inl ⟨none, .nothing (trim_eq_nil_iff.2 hws)⟩
    | [_] => exact .inr ⟨_, .missingClient (hholds hws)⟩
    | [_, _] => exact .inr ⟨_, .missingFlag (hholds hws)⟩
    | [address, client, flag] =>
      cases ha : Text.Hexadecimal.read address with
      | error fault => exact .inr ⟨_, .address (hholds hws) (Text.Hexadecimal.read_eq_error.1 ha)⟩
      | ok a =>
        have ha := Text.Hexadecimal.read_eq_ok.1 ha
        cases hc : Text.Hexadecimal.read client with
        | error fault => exact .inr ⟨_, .client (hholds hws) ha (Text.Hexadecimal.read_eq_error.1 hc)⟩
        | ok c =>
          have hc := Text.Hexadecimal.read_eq_ok.1 hc
          by_cases hflag : ∃ kind, Flag flag kind
          · obtain ⟨kind, hkind⟩ := hflag
            exact .inl ⟨_, .record (tokens_trim_iff.2 hws) ha hc hkind⟩
          · exact .inr ⟨_, .flag (hholds hws) ha hc fun kind hk => hflag ⟨kind, hk⟩⟩
    | _ :: _ :: _ :: _ :: _ => exact .inr ⟨_, .extraWords (hholds hws) (by simp)⟩
  · exact .inr ⟨_, .encoding fun cs hcs => hutf8 ⟨cs, hcs⟩⟩

theorem readLine_eq_ok {line : Nat} {l : List UInt8} {x : Option Record} :
    readLine line l = .ok x ↔ Says l x := by
  refine ⟨fun h => ?_, fun h => readLine_of_said h line⟩
  rcases says_or_fails line l with ⟨y, hy⟩ | ⟨e, he⟩
  · obtain rfl : y = x := Except.ok.inj ((readLine_of_said hy line).symm.trans h)
    exact hy
  · cases (readLine_of_fails he).symm.trans h

theorem readLine_eq_error {line : Nat} {l : List UInt8} {e : TraceError} :
    readLine line l = .error e ↔ Fails line l e := by
  refine ⟨fun h => ?_, readLine_of_fails⟩
  rcases says_or_fails line l with ⟨x, hx⟩ | ⟨e', he⟩
  · cases (readLine_of_said hx line).symm.trans h
  · obtain rfl : e' = e := Except.error.inj ((readLine_of_fails he).symm.trans h)
    exact he

/-! ## Files -/

/-- Reads lines that count from the given number. -/
def readLines (first : Nat) (ls : List (List UInt8)) : Except TraceError (List (Option Record)) :=
  (ls.zipIdx first).mapM fun (l, line) => readLine line l

/-- The records on lines that count from the given number. -/
def recorded (first : Nat) (ls : List (List UInt8)) : Except TraceError (List Record) :=
  (readLines first ls).map (List.filterMap id)

theorem read_eq_recorded (name : String) (bytes : ByteArray) :
    read name bytes = (recorded 1 (lines bytes.data.toList)).map fun records => { name, records } := by
  have hread : read name bytes = readLines 1 (lines bytes.data.toList) >>= fun xs =>
      .ok { name, records := xs.filterMap id } := rfl
  rw [hread, recorded]
  cases readLines 1 (lines bytes.data.toList) <;> rfl

theorem recorded_cons (first : Nat) (l : List UInt8) (ls : List (List UInt8)) :
    recorded first (l :: ls) = readLine first l >>= fun x => (recorded (first + 1) ls).map (x.toList ++ ·) := by
  rw [recorded, readLines, List.zipIdx_cons]
  cases hl : readLine first l with
  | error e =>
    rw [mapM_cons_of_error (by exact hl)]
    rfl
  | ok x =>
    rw [mapM_cons_of_ok (by exact hl), ← readLines]
    show _ = (recorded (first + 1) ls).map (x.toList ++ ·)
    rw [recorded]
    cases readLines (first + 1) ls with
    | error e => rfl
    | ok xs => cases x <;> rfl

/-- What is recorded on the pieces between line feeds is recorded on the lines. -/
theorem recorded_lines {bytes : List UInt8} {ls : List (List UInt8)} (h : Lines bytes ls) (first : Nat) :
    recorded first (lines bytes) = recorded first ls := by
  induction h generalizing first with
  | done =>
    rw [show lines [] = [[]] from rfl, recorded_cons, readLine_nil]
    rfl
  | last _ hl => rw [lines_eq_singleton hl]
  | feed hl _ _ ih => rw [lines_append_line hl, recorded_cons, recorded_cons, ih]
  | returnFeed hl _ ih => rw [lines_append_return hl, recorded_cons, recorded_cons, readLine_concat_return, ih]

theorem readLines_eq_ok {first : Nat} {ls : List (List UInt8)} {xs : List (Option Record)} :
    readLines first ls = .ok xs ↔ List.Forall₂ Says ls xs := by
  simp only [readLines, mapM_eq_ok, readLine_eq_ok]
  rw [← List.forall₂_map_left_iff (f := Prod.fst), List.zipIdx_map_fst]

theorem recorded_eq_ok {first : Nat} {ls : List (List UInt8)} {rs : List Record} :
    recorded first ls = .ok rs ↔ ∃ xs, List.Forall₂ Says ls xs ∧ rs = xs.filterMap id := by
  simp only [← @readLines_eq_ok first, recorded]
  cases readLines first ls with
  | error e => simp [Except.map]
  | ok xs => simp [Except.map, eq_comm]

theorem recorded_eq_error {first : Nat} {ls : List (List UInt8)} {e : TraceError} :
    recorded first ls = .error e ↔ ∃ (i : Nat) (l : List UInt8), ls[i]? = some l ∧ Fails (first + i) l e ∧
      ∀ j < i, ∀ l', ls[j]? = some l' → ∃ x, Says l' x := by
  have hmap : recorded first ls = .error e ↔ readLines first ls = .error e := by
    rw [recorded]
    cases readLines first ls <;> simp [Except.map]
  rw [hmap, readLines, mapM_eq_error]
  simp only [List.getElem?_zipIdx, Option.map_eq_some_iff]
  constructor
  · rintro ⟨i, _, ⟨l, hl, rfl⟩, hfails, hbefore⟩
    refine ⟨i, l, hl, readLine_eq_error.1 hfails, fun j hj l' hl' => ?_⟩
    obtain ⟨x, hx⟩ := hbefore j hj _ ⟨l', hl', rfl⟩
    exact ⟨x, readLine_eq_ok.1 hx⟩
  · rintro ⟨i, l, hl, hfails, hbefore⟩
    refine ⟨i, _, ⟨l, hl, rfl⟩, readLine_eq_error.2 hfails, ?_⟩
    rintro j hj _ ⟨l', hl', rfl⟩
    obtain ⟨x, hx⟩ := hbefore j hj l' hl'
    exact ⟨x, readLine_eq_ok.2 hx⟩

/-- A file has its lines in one way, and is read exactly if each of them is
accepted; its records are then those on its lines, in their order. Otherwise
the first line that fails refuses the file with its error, in which lines count
from one. -/
theorem reads_the_language (name : String) (bytes : ByteArray) :
    ∃ ls : List (List UInt8), (∀ ls', Lines bytes.data.toList ls' ↔ ls' = ls) ∧
      ((∃ t, read name bytes = .ok t) ↔ ∀ l ∈ ls, ∃ x, Says l x) ∧
      (∀ t, read name bytes = .ok t ↔ ∃ xs, List.Forall₂ Says ls xs ∧ t = { name, records := xs.filterMap id }) ∧
      ∀ e, read name bytes = .error e ↔ ∃ (i : Nat) (l : List UInt8), ls[i]? = some l ∧ Fails (i + 1) l e ∧
        ∀ j < i, ∀ l', ls[j]? = some l' → ∃ x, Says l' x := by
  obtain ⟨ls, hls⟩ := exists_lines bytes.data.toList
  have hread : read name bytes = (recorded 1 ls).map fun records => { name, records } := by
    rw [read_eq_recorded, recorded_lines hls]
  have hok : ∀ t, read name bytes = .ok t ↔
      ∃ xs, List.Forall₂ Says ls xs ∧ t = { name, records := xs.filterMap id } := by
    intro t
    have hrecorded : read name bytes = .ok t ↔ ∃ rs, recorded 1 ls = .ok rs ∧ t = { name, records := rs } := by
      rw [hread]
      cases recorded 1 ls <;> simp [Except.map, eq_comm]
    simp only [hrecorded, recorded_eq_ok]
    constructor
    · rintro ⟨_, ⟨xs, hxs, rfl⟩, rfl⟩
      exact ⟨xs, hxs, rfl⟩
    · rintro ⟨xs, hxs, rfl⟩
      exact ⟨_, ⟨xs, hxs, rfl⟩, rfl⟩
  have herror : ∀ e, read name bytes = .error e ↔ recorded 1 ls = .error e := by
    intro e
    rw [hread]
    cases recorded 1 ls <;> simp [Except.map]
  refine ⟨ls, fun ls' => ⟨fun h => ?_, fun h => h ▸ hls⟩, ?_, hok, fun e => ?_⟩
  · rw [← rows_lines h, rows_lines hls]
  · rw [← exists_forall₂_iff]
    constructor
    · rintro ⟨t, ht⟩
      obtain ⟨xs, hxs, -⟩ := (hok t).1 ht
      exact ⟨xs, hxs⟩
    · rintro ⟨xs, hxs⟩
      exact ⟨_, (hok _).2 ⟨xs, hxs, rfl⟩⟩
  · rw [herror, recorded_eq_error]
    simp only [Nat.add_comm 1]

/-! ## Messages -/

/-- The number of the line that a message begins with. -/
def lineIn? (message : String) : Option Nat := do
  let cs ← "Trace line ".toList.isPrefixOf? message.toList
  Text.ofDecimal? (cs.takeWhile Char.isDigit)

/-- A line that fails is told with its number, unless it is no text: the message then
has no number. -/
theorem message_names_line {line : Nat} {l : List UInt8} {e : TraceError} (h : Fails line l e) :
    ((∃ cs, l = utf8 cs) → lineIn? e.message = some line) ∧ ((∀ cs, l ≠ utf8 cs) → lineIn? e.message = none) := by
  have htext : ∀ ws, Holds l ws → ∃ cs, l = utf8 cs := fun _ ⟨_, _⟩ => ⟨_, rfl⟩
  have hstring : ∀ s : String, toString s = s := fun _ => rfl
  cases h with
  | encoding hno => exact ⟨fun ⟨cs, hcs⟩ => absurd hcs (hno cs), fun _ => by decide⟩
  | missingClient hws | missingFlag hws | extraWords hws | address hws | client hws | flag hws =>
    refine ⟨fun _ => ?_, fun hno => ?_⟩
    · simp [lineIn?, TraceError.message, TraceError.causes, hstring, List.isPrefixOf?, Text.ofDecimal?_takeWhile]
    · obtain ⟨cs, hcs⟩ := htext _ hws
      exact absurd hcs (hno cs)

end LastLevel.Trace
