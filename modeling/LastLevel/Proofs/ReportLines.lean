import LastLevel.Proofs.Words
import LastLevel.Report.Basic
import LastLevel.Text.Natural
/-!
# Reading a report

The lines of a report that follow the line of a replay are read back from their
words. A line of counts shows three numbers and two shares of them; it is read only
if the accesses are the misses and the hits, and the shares are passed over.
`Text.Spaced` says what words a line is made up of, which for the lines of a report is
`Row.spaced_text`. Main statement: `Report.read?_written` (the rows come back).
-/

namespace LastLevel

/-! ## Lines and their words -/

namespace Text

/-- The lines of a text, each of which ends in a line feed. -/
def lines (cs : List Char) : List (List Char) := (cs.splitOn '\n').dropLast

/-- A word, or a part of one. -/
def isWord (s : String) : Bool := !s.toList.isEmpty && s.toList.all fun c => !isBlank c

/-- A line that is made up of words, with no blanks but spaces around them. -/
structure Spaced (cs : List Char) (ws : List String) : Prop where
  words_eq : (words cs).map String.ofList = ws
  spaces : ∀ c ∈ cs, isBlank c = true → c = ' '

theorem isWord_iff {s : String} : isWord s = true ↔ s.toList ≠ [] ∧ ∀ c ∈ s.toList, isBlank c = false := by
  simp [isWord]

theorem isWord_append {s t : String} (hs : isWord s = true) (ht : isWord t = true) : isWord (s ++ t) = true := by
  rw [isWord_iff] at *
  rw [String.toList_append]
  exact ⟨by simp [hs.1], fun c hc => (List.mem_append.1 hc).elim (hs.2 c) (ht.2 c)⟩

theorem isBlank_of_isDigit {c : Char} (h : c.isDigit = true) : isBlank c = false := by
  have hrange : 48 ≤ c.toNat ∧ c.toNat ≤ 57 := by
    simp only [Char.isDigit, Bool.and_eq_true, decide_eq_true_eq, UInt32.le_iff_toNat_le] at h
    exact h
  have hout : ∀ r ∈ blankRanges, r.2 < 48 ∨ 57 < r.1 := by decide
  rw [isBlank, List.any_eq_false]
  intro r hr
  rcases hout r hr with h | h <;> simp only [Bool.and_eq_true, decide_eq_true_eq] <;> omega

theorem isWord_toString (n : Nat) : isWord (toString n) = true := by
  refine isWord_iff.2 ⟨?_, fun c hc => isBlank_of_isDigit (isDigit_of_mem_toString hc)⟩
  rw [toList_toString]
  exact Nat.toDigits_ne_nil

namespace Spaced
variable {cs ds : List Char} {ws vs : List String}

theorem not_mem_feed (h : Spaced cs ws) : '\n' ∉ cs := fun hc =>
  absurd (h.spaces '\n' hc (by decide)) (by decide)

theorem word {s : String} (h : isWord s = true) : Spaced s.toList [s] where
  words_eq := by rw [words_eq_singleton (isWord_iff.1 h).1 (isWord_iff.1 h).2, List.map_singleton, String.ofList_toList]
  spaces c hc hb := by rw [(isWord_iff.1 h).2 c hc] at hb; cases hb

theorem replicate (n : Nat) : Spaced (List.replicate n ' ') [] where
  words_eq := by
    induction n with
    | zero => rfl
    | succ n ih => rwa [List.replicate_succ, words_cons_blank (by decide)]
  spaces _ hc _ := List.eq_of_mem_replicate hc

/-- Two lines with a space between them. -/
theorem space (h : Spaced cs ws) (h' : Spaced ds vs) : Spaced (cs ++ ' ' :: ds) (ws ++ vs) where
  words_eq := by rw [words_append_cons_blank cs (by decide), List.map_append, h.words_eq, h'.words_eq]
  spaces c hc hb := by
    rcases List.mem_append.1 hc with hc | hc
    · exact h.spaces c hc hb
    · rcases List.mem_cons.1 hc with rfl | hc
      · rfl
      · exact h'.spaces c hc hb

theorem indent (h : Spaced cs ws) (n : Nat) : Spaced (List.replicate n ' ' ++ cs) ws := by
  induction n with
  | zero => exact h
  | succ n ih => exact (replicate 0).space ih

theorem padLeft {s : String} (h : Spaced s.toList ws) (width : Nat) : Spaced (padLeft width s).toList ws := by
  rw [Text.padLeft, String.toList_append, String.toList_ofList]
  exact h.indent _

theorem padRight {s : String} (h : Spaced s.toList ws) (width : Nat) : Spaced (padRight width s).toList ws := by
  rw [Text.padRight, String.toList_append, String.toList_ofList]
  cases hn : width - s.length with
  | zero => simpa using h
  | succ n =>
    have hline := h.space (replicate n)
    rwa [List.append_nil] at hline

end Spaced

/-- Lines with their line feeds are the lines of the text. -/
theorem lines_flatMap {ls : List (List Char)} (h : ∀ l ∈ ls, '\n' ∉ l) : lines (ls.flatMap (· ++ ['\n'])) = ls := by
  have hsplit : (ls.flatMap (· ++ ['\n'])).splitOn '\n' = ls ++ [[]] := by
    induction ls with
    | nil => rfl
    | cons l ls ih =>
      obtain ⟨hl, hls⟩ := List.forall_mem_cons.1 h
      have hline : l.splitOn '\n' = [l] := List.splitOn_eq_singleton hl
      rw [List.flatMap_cons, List.append_assoc, List.singleton_append, List.splitOn,
        List.splitOnP_append_cons _ _ (by decide), ← List.splitOn, ← List.splitOn, hline, ih hls]
      rfl
  rw [lines, hsplit, List.dropLast_concat]

/-! ## Numbers in words -/

def number? (w : String) : Option Nat := ofDecimal? w.toList

/-- The number after a mark. -/
def numberAfter? (mark : Char) (w : String) : Option Nat :=
  match w.toList with
  | [] => none
  | c :: cs => if c = mark then ofDecimal? cs else none

/-- The number before a mark. -/
def numberBefore? (w : String) (mark : Char) : Option Nat :=
  if w.toList.getLast? = some mark then ofDecimal? w.toList.dropLast else none

theorem number?_toString (n : Nat) : number? (toString n) = some n := ofDecimal?_toString n

theorem numberAfter?_append (mark : Char) (n : Nat) :
    numberAfter? mark (String.singleton mark ++ toString n) = some n := by
  have h := ofDecimal?_toString n
  rw [toList_toString] at h
  simp [numberAfter?, h]

theorem numberBefore?_append (n : Nat) (mark : Char) :
    numberBefore? (toString n ++ String.singleton mark) mark = some n := by
  have h := ofDecimal?_toString n
  rw [toList_toString] at h
  simp [numberBefore?, h]

end Text

open Text

/-! ## Reading rows -/

/-- What a line of counts says after the name. The shares are not looked at. -/
def Tally.read? (ws : List String) : Option Tally :=
  match ws with
  | [w₁, accesses, w₂, _, w₃, _, w₄, misses, w₅, hits] => do
    let accesses ← number? accesses
    let misses ← numberBefore? misses ','
    let hits ← numberBefore? hits ')'
    if [w₁, w₂, w₃, w₄, w₅] = ["accesses", "hit", "miss", "(misses", "hits"] ∧ accesses = misses + hits then
      some { misses, hits }
    else none
  | _ => none

/-- The kinds of subjects that have a number of their own. -/
def Subject.ofKind? (kind : String) : Option (Nat → Subject) :=
  if kind = "client" then some client
  else if kind = "core" then some core
  else if kind = "L1" then some privateCache
  else none

namespace Row

def readCounts? (subject : Subject) (ws : List String) : Option Row := (Tally.read? ws).map (.counts subject)

/-- What a line says that begins with a client. -/
def readPart? (client : Nat) (ws : List String) : Option Row :=
  match ws with
  | w :: n :: ws =>
    if w = "slice" then (number? n).bind fun slice => readCounts? (.slice client slice) ws
    else if w = "unserved" ∧ ws = [] then (number? n).map (.unserved client)
    else none
  | _ => none

def readCluster? (ws : List String) : Option Row :=
  match ws with
  | k :: c :: ws => (number? k).bind fun k => (numberAfter? 'c' c).bind fun client => readCounts? (.cluster k client) ws
  | _ => none

/-- What the words of a line say, if it is one of those that follow the line of a
replay. -/
def read? (ws : List String) : Option Row :=
  match ws with
  | [] => none
  | w :: ws =>
    match numberAfter? 'c' w with
    | some client => readPart? client ws
    | none =>
      if w = "all" then readCounts? .whole ws
      else if w = "cluster" then readCluster? ws
      else if w = "shared" then if ws = ["level:"] then some .sharedLevel else none
      else
        match Subject.ofKind? w, ws with
        | some subject, i :: ws => (number? i).bind fun i => readCounts? (subject i) ws
        | _, _ => none

end Row

/-- The rows that a text says, if each of its lines says one. -/
def Report.read? (text : String) : Option (List Row) :=
  (lines text.toList).mapM fun line => Row.read? ((words line).map String.ofList)

/-! ## What is written -/

/-- The words of a name. -/
def Subject.words : Subject → List String
  | whole => ["all"]
  | client i => ["client", toString i]
  | core i => ["core", toString i]
  | privateCache i => ["L1", toString i]
  | slice i k => ["c" ++ toString i, "slice", toString k]
  | cluster k i => ["cluster", toString k, "c" ++ toString i]

theorem Decimal.isWord_write (n : Nat) : isWord (write n) = true :=
  isWord_append (isWord_append (isWord_append (isWord_toString _) (t := ".") (by decide)) (isWord_toString _))
    (isWord_toString _)

theorem Subject.spaced_name (s : Subject) : Spaced s.name.toList s.words := by
  have hnumber : ∀ n : Nat, Spaced (toString n).toList [toString n] := fun n => .word (isWord_toString n)
  have hclient : ∀ n : Nat, Spaced ("c" ++ toString n).toList ["c" ++ toString n] := fun n =>
    .word (isWord_append (by decide) (isWord_toString n))
  cases s with
  | whole => exact .word (by decide)
  | client i =>
    have h := (Spaced.word (s := "client") (by decide)).space (hnumber i)
    simpa [name, words, toString] using h
  | core i =>
    have h := (Spaced.word (s := "core") (by decide)).space (hnumber i)
    simpa [name, words, toString] using h
  | privateCache i =>
    have h := ((Spaced.word (s := "L1") (by decide)).space (hnumber i)).indent 2
    simpa [name, words, toString] using h
  | slice i k =>
    have h := ((hclient i).space ((Spaced.word (s := "slice") (by decide)).space (hnumber k))).indent 2
    simpa [name, words, toString] using h
  | cluster k i =>
    have h := ((Spaced.word (s := "cluster") (by decide)).space ((hnumber k).space (hclient i))).indent 2
    simpa [name, words, toString] using h

theorem Tally.read?_words (t : Tally) (hit miss : String) :
    read? ["accesses", toString t.accesses, "hit", hit, "miss", miss, "(misses", toString t.misses ++ ",", "hits",
      toString t.hits ++ ")"] = some t := by
  have hmisses : numberBefore? (toString t.misses ++ ",") ',' = some t.misses := numberBefore?_append t.misses ','
  have hhits : numberBefore? (toString t.hits ++ ")") ')' = some t.hits := numberBefore?_append t.hits ')'
  rw [read?, number?_toString, hmisses, hhits]
  exact if_pos ⟨rfl, rfl⟩

namespace Row

/-- A line that follows the line of a replay. -/
def IsDetail : Row → Prop
  | scenario _ => False
  | trace _ _ _ => False
  | _ => True

/-- A share as a percentage, without spaces. -/
def shareWord (share : Float) : String := Decimal.write (Decimal.hundredths (share * 100.0)) ++ "%"

/-- The words of such a line. -/
def words : Row → List String
  | scenario _ => []
  | trace _ _ _ => []
  | counts s t =>
    s.words ++ ["accesses", toString t.accesses, "hit", shareWord t.hitRate, "miss", shareWord (missRate t),
      "(misses", toString t.misses ++ ",", "hits", toString t.hits ++ ")"]
  | sharedLevel => ["shared", "level:"]
  | unserved client count => ["c" ++ toString client, "unserved", toString count]

theorem read?_of_client {w : String} {client : Nat} (h : numberAfter? 'c' w = some client) (ws : List String) :
    read? (w :: ws) = readPart? client ws := by
  simp only [read?, h]

theorem numberAfter?_client (client : Nat) : numberAfter? 'c' ("c" ++ toString client) = some client :=
  numberAfter?_append 'c' client

theorem read?_subject (s : Subject) {ws : List String} {t : Tally} (h : Tally.read? ws = some t) :
    read? (s.words ++ ws) = some (counts s t) := by
  have hcounts : ∀ s, readCounts? s ws = some (counts s t) := fun s => congrArg (Option.map (counts s)) h
  cases s with
  | whole => exact hcounts .whole
  | client i | core i | privateCache i =>
    show (number? (toString i)).bind _ = _
    rw [number?_toString]
    exact hcounts _
  | slice i k =>
    rw [Subject.words, List.cons_append, read?_of_client (numberAfter?_client i)]
    show (number? (toString k)).bind _ = _
    rw [number?_toString]
    exact hcounts _
  | cluster k i =>
    show (number? (toString k)).bind (fun k => (numberAfter? 'c' ("c" ++ toString i)).bind fun client => _) = _
    rw [number?_toString, numberAfter?_client]
    exact hcounts _

theorem read?_words {row : Row} (h : row.IsDetail) : read? row.words = some row := by
  cases row with
  | scenario label => exact h.elim
  | trace name accesses rejected => exact h.elim
  | sharedLevel => rfl
  | unserved client count =>
    rw [words, read?_of_client (numberAfter?_client client)]
    show (number? (toString count)).map _ = _
    rw [number?_toString]
    rfl
  | counts subject t => exact read?_subject subject (t.read?_words _ _)

theorem toList_counts (name accesses hit miss misses hits : String) :
    (s!"      {name} accesses {accesses} hit {hit}% miss {miss}% (misses {misses}, hits {hits})").toList =
      List.replicate 6 ' ' ++ (name.toList ++ ' ' :: ("accesses".toList ++ ' ' :: (accesses.toList ++ ' ' ::
        ("hit".toList ++ ' ' :: ((hit ++ "%").toList ++ ' ' :: ("miss".toList ++ ' ' :: ((miss ++ "%").toList ++ ' ' ::
          ("(misses".toList ++ ' ' :: ((misses ++ ",").toList ++ ' ' :: ("hits".toList ++ ' ' ::
            (hits ++ ")").toList)))))))))) := by
  simp [toString]

theorem spaced_percent (share : Float) : Spaced (percent share ++ "%").toList [shareWord share] := by
  have hword : Spaced (shareWord share).toList [shareWord share] :=
    .word (isWord_append (Decimal.isWord_write _) (by decide))
  rw [percent, Text.padLeft, String.append_assoc, String.toList_append, String.toList_ofList]
  exact hword.indent _

theorem spaced_text {row : Row} (h : row.IsDetail) : Spaced row.text.toList row.words := by
  have hword : ∀ {w : String}, isWord w = true → Spaced w.toList [w] := fun hw => .word hw
  have hmarked : ∀ (n : Nat) {m : String}, isWord m = true → Spaced (toString n ++ m).toList [toString n ++ m] :=
    fun n _ hm => .word (isWord_append (isWord_toString n) hm)
  cases row with
  | scenario label => exact h.elim
  | trace name accesses rejected => exact h.elim
  | sharedLevel =>
    exact ((hword (w := "shared") (by decide)).space (hword (w := "level:") (by decide))).indent 6
  | unserved client count =>
    have hclient : Spaced ("c" ++ toString client).toList ["c" ++ toString client] :=
      .word (isWord_append (by decide) (isWord_toString client))
    have h := (hclient.space ((hword (w := "unserved") (by decide)).space (hword (isWord_toString count)))).indent 6
    show Spaced (s!"      c{client} unserved {count}").toList ["c" ++ toString client, "unserved", toString count]
    simpa [toString] using h
  | counts subject t =>
    have hname := subject.spaced_name.padRight 18
    have haccesses := (hword (isWord_toString t.accesses)).padLeft 9
    have h := (hname.space ((hword (w := "accesses") (by decide)).space (haccesses.space
      ((hword (w := "hit") (by decide)).space ((spaced_percent t.hitRate).space
      ((hword (w := "miss") (by decide)).space ((spaced_percent (missRate t)).space
      ((hword (w := "(misses") (by decide)).space ((hmarked t.misses (m := ",") (by decide)).space
      ((hword (w := "hits") (by decide)).space (hmarked t.hits (m := ")") (by decide)))))))))))).indent 6
    rw [← toList_counts] at h
    exact h

end Row
namespace Report

/-- Rows as they are written, each on a line of its own. -/
def written (rows : List Row) : String := String.join (rows.map fun row => row.text ++ "\n")

theorem written_cons (row : Row) (rows : List Row) : written (row :: rows) = row.text ++ "\n" ++ written rows := by
  rw [written, List.map_cons, String.join_cons]
  rfl

theorem written_append (rows rows' : List Row) : written (rows ++ rows') = written rows ++ written rows' := by
  induction rows with
  | nil => simp [written]
  | cons row rows ih => rw [List.cons_append, written_cons, written_cons, ih, ← String.append_assoc]

theorem toList_written (rows : List Row) :
    (written rows).toList = (rows.map fun row => row.text.toList).flatMap (· ++ ['\n']) := by
  induction rows with
  | nil => rfl
  | cons row rows ih =>
    rw [written_cons, String.toList_append, String.toList_append, ih, List.map_cons, List.flatMap_cons]
    rfl

/-- Lines that follow the line of a replay read back as the rows they were written
for. -/
theorem read?_written {rows : List Row} (h : ∀ row ∈ rows, row.IsDetail) : read? (written rows) = some rows := by
  have hlines : lines (written rows).toList = rows.map fun row => row.text.toList := by
    rw [toList_written]
    refine lines_flatMap fun l hl => ?_
    obtain ⟨row, hrow, rfl⟩ := List.mem_map.1 hl
    exact (Row.spaced_text (h row hrow)).not_mem_feed
  rw [read?, hlines]
  clear hlines
  induction rows with
  | nil => rfl
  | cons row rows ih =>
    obtain ⟨hrow, hrows⟩ := List.forall_mem_cons.1 h
    rw [List.map_cons, List.mapM_cons, (Row.spaced_text hrow).words_eq, Row.read?_words hrow, ih hrows]
    rfl

end Report

end LastLevel
