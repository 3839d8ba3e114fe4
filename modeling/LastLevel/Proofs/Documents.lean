import LastLevel.Proofs.Dealing
import LastLevel.Proofs.Reordering
/-!
# Experiment files say what is read

What an experiment file says is in its keys and values alone. A file is read if and only
if each table has exactly the fields it should have (`Lists`), and what is read are the
scenarios with these fields. Main statement: `Scenario.reads_exactly_what_is_said`.
-/

namespace LastLevel.Scenario

open Toml (Value Entries)

variable {text : String} {doc : Entries}

theorem readDocument_eq_ok {ss : List Scenario} (h : Toml.read? text = some doc) :
    readDocument text = .ok ss ↔ ss ≠ [] ∧ scenarios? doc = some ss := by
  rw [readDocument, h, Option.bind_eq_bind, Option.bind_some]
  cases scenarios? doc with
  | none => simp
  | some ss' => cases ss' <;> simp +contextual [eq_comm]

/-- A document is read the same entry by entry, where the parts of the table of a scenario
take what they know and the last of them refuses the rest. With private levels and fixed
bits written as tables, it is accepted exactly if its only key is that of a list of
scenarios, which is not empty, and each scenario has exactly its own fields, with values
of their types, and so have the tables inside it. These scenarios are then the result,
in the order of the file. Another order of the keys, in any table, changes nothing. -/
theorem reads_exactly_what_is_said (h : Toml.read? text = some doc) :
    takeScenarios? doc = scenarios? doc ∧
    (InTables doc → ∀ ss, readDocument text = .ok ss ↔ ss ≠ [] ∧ Lists (documentFields ss) doc) ∧
    ∀ text' doc', Toml.read? text' = some doc' → doc.Alike doc' → readDocument text' = readDocument text := by
  have hdoc : doc.Keyed := Toml.keyed_of_read? h
  refine ⟨takeScenarios?_eq hdoc, fun htables ss => ?_, fun text' doc' h' ha => ?_⟩
  · rw [readDocument_eq_ok h]
    exact and_congr_right (scenarios?_eq_some_iff hdoc htables)
  · simp only [readDocument, h, h', Option.bind_eq_bind, Option.bind_some, scenarios?_alike hdoc ha]

/-- One scenario with a private level and fixed bits, and the same with the keys in another
order, in its own table and in those inside it. -/
theorem reads_what_one_scenario_says :
    let text := "[[scenario]]\n" ++ "label=''\n" ++ "scheme='intra_node'\n" ++
      "private=\x7bcores=1,cache_size=8," ++ "associativity=1,block_size=8\x7d\n" ++ "cache_size=64\n" ++
      "associativity=2\n" ++ "block_size=16\n" ++ "fixed_bits=[\x7bbits=1,n_bits=1\x7d]\n"
    let level : Entries := [("cores", .integer 1), ("cache_size", .integer 8), ("associativity", .integer 1),
      ("block_size", .integer 8)]
    let fixed : Entries := [("bits", .integer 1), ("n_bits", .integer 1)]
    let table : Entries := [("label", .text ""), ("scheme", .text "intra_node"), ("private", .table .closed level),
      ("cache_size", .integer 64), ("associativity", .integer 2), ("block_size", .integer 16),
      ("fixed_bits", .array false [.table .closed fixed])]
    let doc : Entries := [("scenario", .array true [.table .header table])]
    let text' := "[[scenario]]\n" ++ "scheme='intra_node'\n" ++ "label=''\n" ++
      "private=\x7bcache_size=8,cores=1," ++ "associativity=1,block_size=8\x7d\n" ++ "cache_size=64\n" ++
      "associativity=2\n" ++ "block_size=16\n" ++ "fixed_bits=[\x7bn_bits=1,bits=1\x7d]\n"
    let level' : Entries := [("cache_size", .integer 8), ("cores", .integer 1), ("associativity", .integer 1),
      ("block_size", .integer 8)]
    let fixed' : Entries := [("n_bits", .integer 1), ("bits", .integer 1)]
    let table' : Entries := [("scheme", .text "intra_node"), ("label", .text ""), ("private", .table .closed level'),
      ("cache_size", .integer 64), ("associativity", .integer 2), ("block_size", .integer 16),
      ("fixed_bits", .array false [.table .closed fixed'])]
    let doc' : Entries := [("scenario", .array true [.table .header table'])]
    let s : Scenario :=
      { label := "", plan := .intraNode { size := 64, ways := 2, block := 16 } [{ pattern := 1, width := 1 }]
        level := some { cores := 1, cache := { size := 8, ways := 1, block := 8 } } }
    Toml.read? text = some doc ∧ InTables doc ∧ Toml.read? text' = some doc' ∧ doc.Alike doc' ∧
      readDocument text = .ok [s] ∧ readDocument text' = .ok [s] := by
  intro text level fixed table doc text' level' fixed' table' doc' s
  have h : Toml.read? text = some doc := by
    simp only [text, Toml.read?, Toml.statements?, String.toList_append]
    set_option maxRecDepth 4000 in with_unfolding_all rfl
  have h' : Toml.read? text' = some doc' := by
    simp only [text', Toml.read?, Toml.statements?, String.toList_append]
    set_option maxRecDepth 4000 in with_unfolding_all rfl
  have htables : InTables doc := by
    rintro rows vs ⟨⟩ origin es hes
    obtain ⟨rfl, rfl⟩ := Value.table.inj (List.mem_singleton.1 hes)
    refine ⟨?_, ?_⟩
    · rintro rows vs ⟨⟩
    · rintro rows vs ⟨⟩ v hv rows' ws rfl
      cases List.mem_singleton.1 hv
  have halike : doc.Alike doc' := by
    refine ⟨doc, .refl doc, rfl, .cons (.array (.cons ?_ .nil)) .nil⟩
    refine .table (.swap _ _ _) rfl (.cons (.refl _) (.cons (.refl _) (.cons ?_ (.cons (.refl _) (.cons (.refl _)
      (.cons (.refl _) (.cons (.array (.cons ?_ .nil)) .nil)))))))
    · exact .table (.swap _ _ _) rfl (.cons (.refl _) (.cons (.refl _) (.cons (.refl _) (.cons (.refl _) .nil))))
    · exact .table (.swap _ _ _) rfl (.cons (.refl _) (.cons (.refl _) .nil))
  obtain ⟨-, hread, horder⟩ := reads_exactly_what_is_said h
  have hwide : ∀ n, n ≤ 64 → n < wide := fun n hn => Nat.lt_of_le_of_lt hn (by decide)
  have hlevel : Lists (levelFields { cores := 1, cache := { size := 8, ways := 1, block := 8 } }) level :=
    ⟨_, .refl _, by simp [level, levelFields, IsCount, hwide]⟩
  have hfixed : Lists (fixedFields { pattern := 1, width := 1 }) fixed :=
    ⟨_, .refl _, by simp [fixed, fixedFields, IsCount, hwide, narrow]⟩
  have htable : Lists s.fields table :=
    ⟨_, .refl _, by simp [s, table, fields, privateFields, planFields, geometryFields, planKind, IsText, IsCount,
      IsList, IsTable, hwide, hlevel, hfixed]⟩
  have hlists : Lists (documentFields [s]) doc :=
    ⟨_, .refl _, by simp [doc, documentFields, IsList, IsTable, htable]⟩
  have hok : readDocument text = .ok [s] := (hread htables [s]).2 ⟨by simp, hlists⟩
  exact ⟨h, htables, h', halike, hok, (horder text' doc' h' halike).trans hok⟩

end LastLevel.Scenario
