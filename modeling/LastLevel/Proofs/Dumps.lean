import LastLevel.CommandLine.Run
/-!
# Dumps read back

A dump holds one line for each record, and no byte of such a line is a line
feed, so reading cuts the dump at the ends of its lines (`lines_dump`). Each
line is UTF-8 and reads back as its record (`readLine_bytes`), and what follows
the last line end is blank. Main statement: `read_undoes_dump`.
-/

namespace LastLevel

/-! ## Bytes of a text -/

theorem fromUTF8?_toUTF8 (s : String) : String.fromUTF8? s.toUTF8 = some s := by
  simp only [String.fromUTF8?, String.toUTF8_eq_toByteArray, dif_pos s.isValidUTF8]
  rfl

namespace Record

/-- The bytes of a written record, without the line end. -/
def bytes (r : Record) : List UInt8 := r.chars.flatMap String.utf8EncodeChar

/-- A record is written with hexadecimal digits, blanks and a flag. -/
theorem mem_chars {r : Record} {c : Char} (h : c ∈ r.chars) :
    (∃ d < 16, c = Nat.digitChar d) ∨ c = ' ' ∨ c = r.kind.flag := by
  simp only [chars, List.mem_append, List.mem_cons, List.not_mem_nil, or_false] at h
  rcases h with (ha | rfl | hc) | rfl | rfl
  · exact .inl (Text.Hexadecimal.eq_digitChar_of_mem_write ha)
  · exact .inr (.inl rfl)
  · exact .inl (Text.Hexadecimal.eq_digitChar_of_mem_write hc)
  · exact .inr (.inl rfl)
  · exact .inr (.inr rfl)

/-- No byte of a written record ends a line. -/
theorem not_mem_bytes (r : Record) : 10 ∉ r.bytes := by
  intro h
  obtain ⟨c, hc, h⟩ := List.mem_flatMap.1 h
  have hdigit : ∀ d : Fin 16, 10 ∉ String.utf8EncodeChar (Nat.digitChar d) := by decide
  rcases mem_chars hc with ⟨d, hd, rfl⟩ | rfl | rfl
  · exact hdigit ⟨d, hd⟩ h
  · exact absurd h (by decide)
  · cases hk : r.kind <;> rw [hk] at h <;> exact absurd h (by decide)

theorem toUTF8_dump (rs : List Record) :
    (dump rs).toUTF8.data.toList = rs.flatMap fun r => r.bytes ++ [10] := by
  rw [String.toUTF8_eq_toByteArray, dump, String.toByteArray_ofList, List.utf8Encode]
  simp [List.flatMap_assoc, bytes]
  rfl

end Record

namespace Trace

/-! ## Lines -/

theorem lines_append_line {bs : List UInt8} (h : 10 ∉ bs) (rest : List UInt8) :
    lines (bs ++ 10 :: rest) = bs :: lines rest := by
  induction bs with
  | nil => rfl
  | cons b bs ih =>
    rw [List.mem_cons, not_or] at h
    have hrest : lines (bs ++ 10 :: rest) = bs :: lines rest := ih h.2
    rw [List.cons_append, lines, List.foldr_cons, ← lines, hrest, if_neg (Ne.symm h.1)]
    rfl

/-- Each record has its line, and nothing follows the last line end. -/
theorem lines_dump (rs : List Record) :
    lines (Record.dump rs).toUTF8.data.toList = rs.map Record.bytes ++ [[]] := by
  rw [Record.toUTF8_dump]
  induction rs with
  | nil => rfl
  | cons r rs ih =>
    rw [List.flatMap_cons, List.append_assoc, List.singleton_append, lines_append_line r.not_mem_bytes, ih]
    rfl

theorem readLine_bytes (line : Nat) (r : Record) : readLine line r.bytes = .ok (some r) := by
  have hbytes : (ByteArray.mk r.bytes.toArray) = (String.ofList r.chars).toUTF8 := by
    rw [String.toUTF8_eq_toByteArray, String.toByteArray_ofList, List.utf8Encode]
    exact ByteArray.ext List.data_toByteArray.symm
  rw [readLine, hbytes, fromUTF8?_toUTF8]
  simp only [String.toList_ofList]
  exact readWords_chars line r

theorem readLine_nil (line : Nat) : readLine line [] = .ok none := by
  have hempty : String.fromUTF8? ⟨[].toArray⟩ = some "" := fromUTF8?_toUTF8 ""
  rw [readLine, hempty]
  rfl

/-- Line by line, the records come back, from whatever number the lines count. -/
theorem mapM_readLine (rs : List Record) (first : Nat) :
    ((rs.map Record.bytes ++ [[]]).zipIdx first).mapM (fun (bytes, line) => readLine line bytes) =
      .ok (rs.map some ++ [none]) := by
  induction rs generalizing first with
  | nil =>
    simp only [List.map_nil, List.nil_append, List.zipIdx_cons, List.zipIdx_nil, List.mapM_cons, List.mapM_nil,
      readLine_nil]
    rfl
  | cons r rs ih =>
    simp only [List.map_cons, List.cons_append, List.zipIdx_cons, List.mapM_cons, readLine_bytes, ih]
    rfl

theorem read_dump (name : String) (rs : List Record) :
    read name (Record.dump rs).toUTF8 = .ok { name, records := rs } := by
  have hrecords : (rs.map some ++ [none]).filterMap id = rs := by simp
  rw [read, lines_dump, mapM_readLine]
  exact congrArg (fun records => Except.ok (Trace.mk name records)) hrecords

/-- Dumps written one after the other are the dump of all their records. -/
theorem join_dump (ts : List Trace) : String.join (ts.map dump) = Record.dump (ts.flatMap (·.records)) := by
  induction ts with
  | nil => rfl
  | cons t ts ih =>
    rw [List.map_cons, String.join_cons, ih, List.flatMap_cons, Record.dump_append]
    rfl

/-! ## Reading undoes writing -/

/-- What a dump holds is read back record for record: the dump of any records;
the dumps of several traces one after the other, as a run that dumps its traces
prints them; and so a trace that was read from anything, once dumped, is read
again with the same records and the same dump. -/
theorem read_undoes_dump (name : String) :
    (∀ rs : List Record, read name (Record.dump rs).toUTF8 = .ok { name, records := rs }) ∧
    (∀ ts : List Trace,
      read name (String.join (ts.map dump)).toUTF8 = .ok { name, records := ts.flatMap (·.records) }) ∧
    (∀ (o : CommandLine.Options) (files : CommandLine.Files) (ts : List Trace),
      o.dump = true → o.traces.mapM (CommandLine.loadTrace files) = .ok ts →
      read name (o.run files).output.toUTF8 = .ok { name, records := ts.flatMap (·.records) }) ∧
    ∀ (source : String) (bytes : ByteArray) (t : Trace), read source bytes = .ok t →
      ∃ u, read name t.dump.toUTF8 = .ok u ∧ u.records = t.records ∧ u.dump = t.dump := by
  have hjoin : ∀ ts : List Trace,
      read name (String.join (ts.map dump)).toUTF8 = .ok { name, records := ts.flatMap (·.records) } := by
    intro ts
    rw [join_dump]
    exact read_dump name _
  refine ⟨read_dump name, hjoin, ?_, ?_⟩
  · intro o files ts hdump hload
    have hout : (o.run files).output = String.join (ts.map dump) := by
      rw [CommandLine.Options.run, hload]
      simp only [hdump, if_true]
    rw [hout]
    exact hjoin ts
  · intro source bytes t _
    exact ⟨_, read_dump name t.records, rfl, rfl⟩

/-- A run that dumps two files: numbers may be marked and signed, flags may be
words, and there are a comment, a blank line and a carriage return. -/
theorem read_undoes_dump_of_two_files :
    let files : CommandLine.Files := fun path =>
      if path = "a" then .ok "# start\n 0xFF\t+3 true \r\n\n".toUTF8 else .ok "00 0 false".toUTF8
    let o : CommandLine.Options :=
      { traces := ["a", "b"], config := none, cores := 4, sliceKib := [], owned := [], dump := true }
    let a : Trace := ⟨CommandLine.fileName "a", [⟨0xff, 3, .write⟩]⟩
    let b : Trace := ⟨CommandLine.fileName "b", [⟨0, 0, .read⟩]⟩
    o.dump = true ∧ o.traces.mapM (CommandLine.loadTrace files) = .ok [a, b] ∧
      read "all" (o.run files).output.toUTF8 = .ok ⟨"all", [⟨0xff, 3, .write⟩, ⟨0, 0, .read⟩]⟩ ∧
      ∃ u, read "again" a.dump.toUTF8 = .ok u ∧ u.records = a.records ∧ u.dump = "ff 3 1\n" := by
  intro files o a b
  have ha : read (CommandLine.fileName "a") "# start\n 0xFF\t+3 true \r\n\n".toUTF8 = .ok a := by rfl
  have hb : read (CommandLine.fileName "b") "00 0 false".toUTF8 = .ok b := by rfl
  have hload : o.traces.mapM (CommandLine.loadTrace files) = .ok [a, b] := by
    have hloadA : CommandLine.loadTrace files "a" = .ok a := by
      simp only [CommandLine.loadTrace, files, if_true, ha]
      rfl
    have hloadB : CommandLine.loadTrace files "b" = .ok b := by
      simp only [CommandLine.loadTrace, files, String.reduceEq, if_false, hb]
      rfl
    simp only [o, List.mapM_cons, List.mapM_nil, hloadA, hloadB]
    rfl
  obtain ⟨-, -, hrun, -⟩ := read_undoes_dump "all"
  obtain ⟨-, -, -, hagain⟩ := read_undoes_dump "again"
  obtain ⟨u, hu, hrecords, hdump⟩ := hagain _ _ a ha
  have htext : a.dump = "ff 3 1\n" := by rfl
  exact ⟨rfl, hload, hrun o files [a, b] rfl hload, u, hu, hrecords, hdump.trans htext⟩

end Trace

end LastLevel
