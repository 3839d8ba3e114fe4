import LastLevel.Text.Blank
import LastLevel.Trace.Record
/-!
# Reading traces

A trace file holds one record per line. Blank lines and lines whose first word
starts with `#` say nothing; every other line has exactly three words: an
address, a core number and a store flag. The first line at fault refuses the
file, and on it the first of these checks that fails: encoding, number of
words, address, core, flag. Lines count from one, and all of them count.

A line may end in a carriage return: it is a blank character, and blanks around
words do not matter. Main statement: `readWords_chars` (a written record reads
back).
-/

namespace LastLevel

inductive TraceError where
  | encoding
  | missingClient (line : Nat)
  | missingFlag (line : Nat)
  | extraWords (line : Nat)
  | address (line : Nat) (word : String) (fault : Text.Hexadecimal.Fault)
  | client (line : Nat) (word : String) (fault : Text.Hexadecimal.Fault)
  | flag (line : Nat) (word : String)
deriving DecidableEq, Repr

namespace TraceError

/-- What went wrong, from the outermost statement to its cause. -/
def causes : TraceError → List String
  | encoding => ["Failed to read line from trace", "stream did not contain valid UTF-8"]
  | missingClient line => [s!"Trace line {line} missing cpu index"]
  | missingFlag line => [s!"Trace line {line} missing store flag"]
  | extraWords line => [s!"Trace line {line} has extra tokens"]
  | address line word fault => [s!"Trace line {line}: invalid address literal '{word}'", fault.message]
  | client line word fault => [s!"Trace line {line}: invalid cpu index '{word}'", fault.message]
  | flag line word => [s!"Trace line {line} has invalid store flag '{word}'"]

def message (e : TraceError) : String := ": ".intercalate e.causes

end TraceError

namespace Trace

/-- The lines of a file: what stands between its line feeds. -/
def lines (bytes : List UInt8) : List (List UInt8) :=
  bytes.foldr (fun b ls => if b = 10 then [] :: ls else (b :: ls.headD []) :: ls.tail) [[]]

def kind? (word : List Char) : Option AccessKind :=
  if word = ['0'] ∨ word = "false".toList then some .read
  else if word = ['1'] ∨ word = "true".toList then some .write
  else none

def readRecord (line : Nat) (address client flag : List Char) : Except TraceError Record :=
  match Text.Hexadecimal.read address with
  | .error fault => .error (.address line (String.ofList address) fault)
  | .ok a =>
    match Text.Hexadecimal.read client with
    | .error fault => .error (.client line (String.ofList client) fault)
    | .ok c =>
      match kind? flag with
      | none => .error (.flag line (String.ofList flag))
      | some kind => .ok { address := UInt64.ofNat a, client := UInt64.ofNat c, kind }

def readWords (line : Nat) (words : List (List Char)) : Except TraceError (Option Record) :=
  match words with
  | [] => .ok none
  | ('#' :: _) :: _ => .ok none
  | [_] => .error (.missingClient line)
  | [_, _] => .error (.missingFlag line)
  | [address, client, flag] => (readRecord line address client flag).map some
  | _ => .error (.extraWords line)

/-- The record on a line of bytes, if it holds one. -/
def readLine (line : Nat) (bytes : List UInt8) : Except TraceError (Option Record) :=
  match String.fromUTF8? ⟨bytes.toArray⟩ with
  | none => .error .encoding
  | some text => readWords line (Text.words text.toList)

def read (name : String) (bytes : ByteArray) : Except TraceError Trace := do
  let records ← ((lines bytes.data.toList).zipIdx 1).mapM fun (bytes, line) => readLine line bytes
  return { name, records := records.filterMap id }

/-! ## A written record reads back -/

theorem not_isBlank_of_mem_write {n : Nat} {c : Char} (h : c ∈ Text.Hexadecimal.write n) :
    Text.isBlank c = false := by
  obtain ⟨d, hd, rfl⟩ := Text.Hexadecimal.eq_digitChar_of_mem_write h
  have hall : ∀ d : Fin 16, Text.isBlank (Nat.digitChar d) = false := by decide
  exact hall ⟨d, hd⟩

/-- The words of a written record are its three fields. -/
theorem words_chars (r : Record) :
    Text.words r.chars =
      [Text.Hexadecimal.write r.address.toNat, Text.Hexadecimal.write r.client.toNat, [r.kind.flag]] := by
  have hflag : Text.isBlank r.kind.flag = false := by cases r.kind <;> decide
  rw [Record.chars, List.append_assoc, List.cons_append,
    Text.words_append_blank (Text.Hexadecimal.write_ne_nil _) (fun _ => not_isBlank_of_mem_write) (by decide),
    Text.words_append_blank (Text.Hexadecimal.write_ne_nil _) (fun _ => not_isBlank_of_mem_write) (by decide),
    Text.words_eq_singleton (by simp) (by simpa using hflag)]

theorem kind?_flag (k : AccessKind) : kind? [k.flag] = some k := by
  cases k <;> decide

theorem readRecord_fields (line : Nat) (r : Record) :
    readRecord line (Text.Hexadecimal.write r.address.toNat) (Text.Hexadecimal.write r.client.toNat) [r.kind.flag] =
      .ok r := by
  simp only [readRecord, Text.Hexadecimal.read_write _ r.address.toNat_lt,
    Text.Hexadecimal.read_write _ r.client.toNat_lt, kind?_flag, UInt64.ofNat_toNat]

/-- Three words make a record, unless the first starts a comment. -/
theorem readWords_three {address : List Char} (h : address.head? ≠ some '#') (line : Nat)
    (client flag : List Char) :
    readWords line [address, client, flag] = (readRecord line address client flag).map some := by
  unfold readWords
  split
  · next h' => cases h'
  · next h' => cases h'; simp at h
  · next h' => cases h'
  · next h' => cases h'
  · next h' => cases h'; rfl
  · next h' => exact absurd rfl (h' _ _ _)

theorem readWords_chars (line : Nat) (r : Record) : readWords line (Text.words r.chars) = .ok (some r) := by
  rw [words_chars, readWords_three, readRecord_fields]
  · rfl
  · intro h
    exact Text.Hexadecimal.digit?_of_mem_write (List.mem_of_mem_head? h) (by decide)

end Trace

end LastLevel
