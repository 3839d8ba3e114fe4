import LastLevel.Proofs.Keys
import LastLevel.Proofs.Traversal
import LastLevel.Scenario.Entries
import Mathlib.Data.Option.Basic
/-!
# What a document says

A table says something by its fields: which keys it has, and what the value of each
says. `Lists` is that a table has exactly some fields, in any order, and the fields of
a scenario are `Scenario.fields`. The readers of `Scenario.Reader` look keys up
instead, and refuse a table with another key: on tables that have no key twice this is
the same (`lists_iff`). So each reader reads a value exactly if the value says what is
read: `fixedBits?_eq_some_iff`, `level?_eq_some_iff`, `scenario?_eq_some_iff` and, for
whole documents, `scenarios?_eq_some_iff`.
-/

namespace LastLevel.Scenario

open Toml (Value Entries)

/-! ## Forms of values -/

/-- A key, and what its value says. -/
abbrev Field := String × (Value → Prop)

def IsText (s : String) (v : Value) : Prop := v = .text s

/-- The value is a number below a bound, and not negative. -/
def IsCount (bound n : Nat) (v : Value) : Prop := v = .integer n ∧ n < bound

/-- The value is an array, whose elements say so one by one. -/
def IsList {α : Type} (P : α → Value → Prop) (xs : List α) (v : Value) : Prop :=
  ∃ rows vs, v = .array rows vs ∧ List.Forall₂ P xs vs

/-- The entries are those of the fields, each once, in any order. -/
def Lists (fields : List Field) (es : Entries) : Prop :=
  ∃ fs, es.Perm fs ∧ List.Forall₂ (fun f e => e.1 = f.1 ∧ f.2 e.2) fields fs

def IsTable (fields : List Field) (v : Value) : Prop := ∃ origin es, v = .table origin es ∧ Lists fields es

/-! ## Fields of a scenario -/

def fixedFields (f : FixedBits) : List Field := [("bits", IsCount wide f.pattern), ("n_bits", IsCount narrow f.width)]

def levelFields (l : PrivateLevel) : List Field :=
  [("cores", IsCount wide l.cores), ("cache_size", IsCount wide l.cache.size),
    ("associativity", IsCount wide l.cache.ways), ("block_size", IsCount wide l.cache.block)]

/-- The name of a kind of scheme. -/
def planKind : Plan → String
  | .plain .. => "plain"
  | .way .. => "way"
  | .interNode .. => "inter_node"
  | .intraNode .. => "intra_node"
  | .clusterWay .. => "cluster_way"
  | .interIntra .. => "inter_intra"

/-- The fields of a geometry whose size has the given key. -/
def geometryFields (size : String) (g : Geometry) : List Field :=
  [(size, IsCount wide g.size), ("associativity", IsCount wide g.ways), ("block_size", IsCount wide g.block)]

def planFields : Plan → List Field
  | .plain g => geometryFields "cache_size" g
  | .way ways size block => [("ways", IsList (IsCount wide) ways), ("cache_size", IsCount wide size),
      ("block_size", IsCount wide block)]
  | .interNode slices g => ("slices", IsList (IsCount wide) slices) :: geometryFields "slice_size" g
  | .intraNode g fixed =>
    geometryFields "cache_size" g ++ [("fixed_bits", IsList (fun f => IsTable (fixedFields f)) fixed)]
  | .clusterWay clusters ways size block => [("clusters", IsCount wide clusters), ("ways", IsList (IsCount wide) ways),
      ("cluster_size", IsCount wide size), ("block_size", IsCount wide block)]
  | .interIntra cells cores ways block => [("cells", IsList (IsList (IsCount wide)) cells),
      ("cores", IsList (IsList (IsCount narrow)) cores), ("associativity", IsCount wide ways),
      ("block_size", IsCount wide block)]

/-- The fields that a private level takes in the table of its scenario. -/
def privateFields : Option PrivateLevel → List Field
  | none => []
  | some l => [("private", IsTable (levelFields l))]

def fields (s : Scenario) : List Field :=
  [("label", IsText s.label), ("scheme", IsText (planKind s.plan))] ++ privateFields s.level ++ planFields s.plan

/-- The fields of a document: it only has its scenarios. -/
def documentFields (ss : List Scenario) : List Field := [("scenario", IsList (fun s => IsTable s.fields) ss)]

/-! ## Parts in tables -/

/-- The private level and the fixed bits of a scenario, as far as it has them, are not
written as arrays. -/
structure WrittenAsTables (es : Entries) : Prop where
  level : ∀ rows vs, es.lookup "private" ≠ some (.array rows vs)
  fixed : ∀ rows vs, es.lookup "fixed_bits" = some (.array rows vs) → ∀ v ∈ vs, ∀ rows' ws, v ≠ .array rows' ws

/-- All scenarios of a document that are tables are written so, down to their parts. -/
def InTables (doc : Entries) : Prop :=
  ∀ rows vs, doc.lookup "scenario" = some (.array rows vs) → ∀ origin es, .table origin es ∈ vs → WrittenAsTables es

/-! ## Looking fields up -/

/-- The value that is looked up says what the field says. -/
def Field.FoundIn (f : Field) (es : Entries) : Prop := ∃ v, es.lookup f.1 = some v ∧ f.2 v

theorem onlyKeys_iff {keys : List String} {es : Entries} : onlyKeys keys es = true ↔ ∀ e ∈ es, e.1 ∈ keys := by
  simp [onlyKeys]

theorem keys_eq {fields : List Field} {fs : Entries} (h : List.Forall₂ (fun f e => e.1 = f.1 ∧ f.2 e.2) fields fs) :
    fs.map (·.1) = fields.map (·.1) := by
  induction h with
  | nil => rfl
  | cons he _ ih => rw [List.map_cons, List.map_cons, he.1, ih]

/-- A table without double keys has exactly the fields that can be looked up in it, as
long as no other key is there. -/
theorem lists_iff {fields : List Field} {es : Entries} (hes : es.Keyed) (hfields : (fields.map (·.1)).Nodup) :
    Lists fields es ↔ onlyKeys (fields.map (·.1)) es = true ∧ ∀ f ∈ fields, f.FoundIn es := by
  rw [onlyKeys_iff]
  constructor
  · rintro ⟨fs, hp, hf⟩
    refine ⟨fun e he => ?_, fun f hmem => ?_⟩
    · rw [← keys_eq hf]
      exact List.mem_map_of_mem (hp.mem_iff.1 he)
    · obtain ⟨⟨_, v⟩, he, rfl, hv⟩ := exists_right_of_forall₂ hf f hmem
      exact ⟨v, hes.lookup_eq_some_iff.2 (hp.mem_iff.2 he), hv⟩
  · rintro ⟨hkeys, hfound⟩
    obtain ⟨fs, hall⟩ : ∃ fs, List.Forall₂ (fun f e => e ∈ es ∧ e.1 = f.1 ∧ f.2 e.2) fields fs := by
      refine exists_forall₂_iff.2 fun f hmem => ?_
      obtain ⟨v, hv, hf⟩ := hfound f hmem
      exact ⟨(f.1, v), hes.lookup_eq_some_iff.1 hv, rfl, hf⟩
    have hf : List.Forall₂ (fun f e => e.1 = f.1 ∧ f.2 e.2) fields fs := hall.imp fun _ _ h => h.2
    have hsub : ∀ e ∈ fs, e ∈ es := fun e he =>
      let ⟨_, _, h⟩ := exists_left_of_forall₂ hall e he
      h.1
    have hnodup : fs.Nodup := List.Nodup.of_map _ (keys_eq hf ▸ hfields)
    refine ⟨fs, (List.perm_ext_iff_of_nodup (List.Nodup.of_map _ hes.keys) hnodup).2 fun e => ?_, hf⟩
    refine ⟨fun he => ?_, hsub e⟩
    -- The key of the entry is that of a field, whose entry can only be this one.
    have hmem : e.1 ∈ fs.map (·.1) := keys_eq hf ▸ hkeys e he
    obtain ⟨e', he', hkey⟩ := List.mem_map.1 hmem
    have hv : es.lookup e.1 = some e'.2 := hes.lookup_eq_some_iff.2 (hkey ▸ hsub e' he')
    rw [hes.lookup_eq_some_iff.2 he] at hv
    obtain rfl : e = e' := Prod.ext hkey.symm (Option.some.inj hv)
    exact he'

/-! ## Readers of values -/

theorem text?_eq_some_iff {v : Value} {s : String} : text? v = some s ↔ IsText s v := by
  cases v <;> simp [text?, IsText]

theorem natural?_eq_some_iff {bound n : Nat} {v : Value} : natural? bound v = some n ↔ IsCount bound n v := by
  cases v with
  | integer m =>
    simp only [natural?, Option.ite_none_right_eq_some, Option.some.injEq, IsCount, Value.integer.injEq]
    omega
  | _ => simp [natural?, IsCount]

variable {α : Type} {f : Value → Option α} {P : α → Value → Prop}

theorem isList_array_iff {xs : List α} {rows : Bool} {vs : List Value} :
    IsList P xs (.array rows vs) ↔ List.Forall₂ P xs vs := by
  simp [IsList]

theorem list?_eq_some_iff {v : Value} {xs : List α}
    (h : ∀ rows vs, v = .array rows vs → ∀ w ∈ vs, ∀ x, f w = some x ↔ P x w) :
    list? f v = some xs ↔ IsList P xs v := by
  cases v with
  | array rows vs =>
    rw [isList_array_iff, list?, mapM_eq_some]
    have hvs := h rows vs rfl
    clear h
    induction vs generalizing xs with
    | nil => simp
    | cons w vs ih =>
      obtain ⟨hw, hvs⟩ := List.forall_mem_cons.1 hvs
      simp only [List.forall₂_cons_left_iff, List.forall₂_cons_right_iff, hw, ih hvs]
  | _ => simp [list?, IsList]

theorem field?_eq_some_iff {key : String} {es : Entries} {x : α}
    (h : ∀ v, es.lookup key = some v → (f v = some x ↔ P x v)) :
    field? f key es = some x ↔ Field.FoundIn (key, P x) es := by
  rw [field?, Option.bind_eq_bind, Option.bind_eq_some_iff]
  exact exists_congr fun v => and_congr_right (h v)

theorem count?_eq_some_iff {bound n : Nat} {key : String} {es : Entries} :
    field? (natural? bound) key es = some n ↔ Field.FoundIn (key, IsCount bound n) es :=
  field?_eq_some_iff fun _ _ => natural?_eq_some_iff

theorem isTable_table_iff {fields : List Field} {origin : Toml.Origin} {es : Entries} :
    IsTable fields (.table origin es) ↔ Lists fields es := by
  simp [IsTable]

theorem fixedBits?_eq_some_iff {v : Value} {f : FixedBits} (hv : v.Keyed) (hrow : ∀ rows vs, v ≠ .array rows vs) :
    fixedBits? v = some f ↔ IsTable (fixedFields f) v := by
  cases v with
  | table origin es =>
    rw [isTable_table_iff, lists_iff (Toml.keyed_table_iff.1 hv) (by simp [fixedFields])]
    simp only [fixedBits?, Option.bind_eq_bind, Option.bind_eq_some_iff, Option.guard_eq_some', count?_eq_some_iff,
      fixedFields, List.map_cons, List.map_nil, List.forall_mem_cons, Option.some.injEq]
    constructor
    · rintro ⟨_, hkeys, p, hp, w, hw, rfl⟩
      exact ⟨hkeys, hp, hw, by simp⟩
    · rintro ⟨hkeys, hp, hw, -⟩
      exact ⟨(), hkeys, _, hp, _, hw, rfl⟩
  | array rows vs => exact absurd rfl (hrow rows vs)
  | _ => simp [fixedBits?, IsTable]

theorem level?_eq_some_iff {v : Value} {l : PrivateLevel} (hv : v.Keyed) (hrow : ∀ rows vs, v ≠ .array rows vs) :
    level? v = some l ↔ IsTable (levelFields l) v := by
  cases v with
  | table origin es =>
    rw [isTable_table_iff, lists_iff (Toml.keyed_table_iff.1 hv) (by simp [levelFields])]
    simp only [level?, Option.bind_eq_bind, Option.bind_eq_some_iff, Option.guard_eq_some', count?_eq_some_iff,
      levelFields, List.map_cons, List.map_nil, List.forall_mem_cons, Option.some.injEq]
    constructor
    · rintro ⟨_, hkeys, cores, hc, size, hs, ways, hw, block, hb, rfl⟩
      exact ⟨hkeys, hc, hs, hw, hb, by simp⟩
    · rintro ⟨hkeys, hc, hs, hw, hb, -⟩
      exact ⟨(), hkeys, _, hc, _, hs, _, hw, _, hb, rfl⟩
  | array rows vs => exact absurd rfl (hrow rows vs)
  | _ => simp [level?, IsTable]

/-! ## Schemes -/

theorem geometryAt?_eq_some_iff {size : String} {es : Entries} {g : Geometry} :
    geometryAt? size es = some g ↔ ∀ f ∈ geometryFields size g, f.FoundIn es := by
  simp only [geometryAt?, Option.bind_eq_bind, Option.bind_eq_some_iff, count?_eq_some_iff, geometryFields,
    List.forall_mem_cons, Option.some.injEq]
  constructor
  · rintro ⟨size, hs, ways, hw, block, hb, rfl⟩
    exact ⟨hs, hw, hb, by simp⟩
  · rintro ⟨hs, hw, hb, -⟩
    exact ⟨_, hs, _, hw, _, hb, rfl⟩

theorem planKeys?_planKind (p : Plan) : planKeys? (planKind p) = some ((planFields p).map (·.1)) := by
  cases p <;> rfl

theorem planKind_of_plan? {kind : String} {es : Entries} {p : Plan} (h : plan? kind es = some p) :
    kind = planKind p := by
  unfold plan? at h
  split at h
  · obtain ⟨_, -, rfl⟩ := Option.map_eq_some_iff.1 h
    rfl
  all_goals simp only [Option.bind_eq_bind, Option.bind_eq_some_iff, Option.some.injEq, reduceCtorEq] at h
  · obtain ⟨_, -, _, -, _, -, rfl⟩ := h
    rfl
  · obtain ⟨_, -, _, -, rfl⟩ := h
    rfl
  · obtain ⟨_, -, _, -, rfl⟩ := h
    rfl
  · obtain ⟨_, -, _, -, _, -, _, -, rfl⟩ := h
    rfl
  · obtain ⟨_, -, _, -, _, -, _, -, rfl⟩ := h
    rfl

theorem counts?_eq_some_iff {bound : Nat} {ns : List Nat} {key : String} {es : Entries} :
    field? (list? (natural? bound)) key es = some ns ↔ Field.FoundIn (key, IsList (IsCount bound) ns) es :=
  field?_eq_some_iff fun _ _ => list?_eq_some_iff fun _ _ _ _ _ _ => natural?_eq_some_iff

theorem table?_eq_some_iff {bound : Nat} {rows : List (List Nat)} {key : String} {es : Entries} :
    field? (list? (list? (natural? bound))) key es = some rows ↔
      Field.FoundIn (key, IsList (IsList (IsCount bound)) rows) es :=
  field?_eq_some_iff fun _ _ => list?_eq_some_iff fun _ _ _ _ _ _ =>
    list?_eq_some_iff fun _ _ _ _ _ _ => natural?_eq_some_iff

theorem plan?_planKind_eq_some_iff {es : Entries} {p : Plan} (hes : es.Keyed) (htables : WrittenAsTables es) :
    plan? (planKind p) es = some p ↔ ∀ f ∈ planFields p, f.FoundIn es := by
  cases p with
  | plain g => simp [planKind, plan?, planFields, geometryAt?_eq_some_iff]
  | way ways size block =>
    simp [planKind, plan?, planFields, Option.bind_eq_some_iff, counts?_eq_some_iff, count?_eq_some_iff]
  | interNode slices g =>
    simp [planKind, plan?, planFields, Option.bind_eq_some_iff, counts?_eq_some_iff, geometryAt?_eq_some_iff]
  | intraNode g fixed =>
    have hfixed : field? (list? fixedBits?) "fixed_bits" es = some fixed ↔
        Field.FoundIn ("fixed_bits", IsList (fun f => IsTable (fixedFields f)) fixed) es := by
      refine field?_eq_some_iff fun v hv => list?_eq_some_iff ?_
      rintro rows vs rfl w hw f
      exact fixedBits?_eq_some_iff (Toml.keyed_array_iff.1 (hes.of_lookup hv) w hw) (htables.fixed rows vs hv w hw)
    simp [planKind, plan?, planFields, Option.bind_eq_some_iff, hfixed, geometryAt?_eq_some_iff, or_imp, forall_and]
  | clusterWay clusters ways size block =>
    simp [planKind, plan?, planFields, Option.bind_eq_some_iff, counts?_eq_some_iff, count?_eq_some_iff]
  | interIntra cells cores ways block =>
    simp [planKind, plan?, planFields, Option.bind_eq_some_iff, table?_eq_some_iff, count?_eq_some_iff]

/-! ## Scenarios -/

theorem private_not_mem_planFields (p : Plan) : "private" ∉ (planFields p).map (·.1) := by
  cases p <;> simp [planFields, geometryFields]

theorem nodup_fields (s : Scenario) : (s.fields.map (·.1)).Nodup := by
  obtain ⟨label, plan, level⟩ := s
  cases plan <;> cases level <;> simp [fields, privateFields, planFields, geometryFields]

/-- Without a private level a scenario leaves its key out. -/
theorem onlyKeys_fields_iff {s : Scenario} {es : Entries} :
    onlyKeys (s.fields.map (·.1)) es = true ↔
      onlyKeys (["label", "scheme", "private"] ++ (planFields s.plan).map (·.1)) es = true ∧
        (s.level = none → es.lookup "private" = none) := by
  have hplan := private_not_mem_planFields s.plan
  rw [onlyKeys_iff, onlyKeys_iff, List.lookup_eq_none_iff]
  cases hl : s.level with
  | none =>
    simp only [fields, hl, privateFields, List.map_append, List.map_cons, List.map_nil, List.append_nil,
      List.mem_append, List.mem_cons, List.not_mem_nil, or_false, or_assoc, bne_iff_ne, forall_const, ← forall_and]
    refine forall₂_congr fun e _ => ⟨?_, ?_⟩
    · rintro (h | h | h)
      · simp [h]
      · simp [h]
      · exact ⟨.inr (.inr (.inr h)), fun he => hplan (he ▸ h)⟩
    · rintro ⟨h | h | h | h, hne⟩
      · exact .inl h
      · exact .inr (.inl h)
      · exact absurd h.symm hne
      · exact .inr (.inr h)
  | some l =>
    simp only [fields, hl, privateFields, List.map_append, List.map_cons, List.map_nil, List.mem_append, List.mem_cons,
      List.not_mem_nil, or_false, or_assoc, reduceCtorEq, false_imp_iff, and_true]

theorem optional_level?_eq_some_iff {es : Entries} {level : Option PrivateLevel} (hes : es.Keyed)
    (htables : WrittenAsTables es) :
    optional? level? "private" es = some level ↔
      (level = none → es.lookup "private" = none) ∧ ∀ f ∈ privateFields level, f.FoundIn es := by
  unfold optional?
  cases hv : es.lookup "private" with
  | none => cases level <;> simp [privateFields, Field.FoundIn, hv]
  | some v =>
    have hlevel (l : PrivateLevel) : level? v = some l ↔ IsTable (levelFields l) v :=
      level?_eq_some_iff (hes.of_lookup hv) fun rows vs he => htables.level rows vs (he ▸ hv)
    cases level <;> simp [privateFields, Field.FoundIn, hv, hlevel]

theorem scenario?_table (origin : Toml.Origin) (es : Entries) :
    scenario? (.table origin es) = (do
      let kind ← field? text? "scheme" es
      guard (onlyKeys (["label", "scheme", "private"] ++ (← planKeys? kind)) es)
      let level ← optional? level? "private" es
      some { label := ← field? text? "label" es, plan := ← plan? kind es, level }) := by
  simp only [scenario?, optional?]
  cases es.lookup "private" <;> rfl

theorem scenarios?_eq (doc : Entries) :
    scenarios? doc = (do
      guard (onlyKeys ["scenario"] doc)
      some ((← optional? (list? scenario?) "scenario" doc).getD [])) := by
  unfold scenarios? optional?
  cases doc.lookup "scenario" with
  | none => rfl
  | some v =>
    cases hv : list? scenario? v <;> simp [hv]

/-- A scenario is read from a table exactly if its fields are what the table has. -/
theorem scenario?_eq_some_iff {v : Value} {s : Scenario} (hv : v.Keyed)
    (htables : ∀ origin es, v = .table origin es → WrittenAsTables es) :
    scenario? v = some s ↔ IsTable s.fields v := by
  cases v with
  | table origin es =>
    have hes : Toml.Entries.Keyed es := Toml.keyed_table_iff.1 hv
    have htables := htables origin es rfl
    have htext (key text : String) : field? text? key es = some text ↔ Field.FoundIn (key, IsText text) es :=
      field?_eq_some_iff fun _ _ => text?_eq_some_iff
    rw [isTable_table_iff, lists_iff hes (nodup_fields s), onlyKeys_fields_iff]
    simp only [scenario?_table, Option.bind_eq_bind, Option.bind_eq_some_iff, Option.guard_eq_some', htext,
      Option.some.injEq, optional_level?_eq_some_iff hes htables]
    constructor
    · rintro ⟨kind, hkind, keys, hkeys, _, honly, level, ⟨hnone, hlevel⟩, label, hlabel, plan, hplan, rfl⟩
      obtain rfl := planKind_of_plan? hplan
      obtain rfl := Option.some.inj ((planKeys?_planKind plan).symm.trans hkeys)
      refine ⟨⟨honly, hnone⟩, ?_⟩
      simp only [fields, List.forall_mem_append, List.forall_mem_cons]
      exact ⟨⟨⟨hlabel, hkind, by simp⟩, hlevel⟩, (plan?_planKind_eq_some_iff hes htables).1 hplan⟩
    · rintro ⟨⟨honly, hnone⟩, hfound⟩
      simp only [fields, List.forall_mem_append, List.forall_mem_cons] at hfound
      obtain ⟨⟨⟨hlabel, hkind, -⟩, hlevel⟩, hplan⟩ := hfound
      exact ⟨_, hkind, _, planKeys?_planKind s.plan, (), honly, _, ⟨hnone, hlevel⟩, _, hlabel, _,
        (plan?_planKind_eq_some_iff hes htables).2 hplan, rfl⟩
  | _ => simp [scenario?, IsTable]

/-! ## Documents -/

/-- The scenarios that a document has are read from it, in their order, exactly if it is
a table of scenarios. -/
theorem scenarios?_eq_some_iff {doc : Entries} {ss : List Scenario} (hdoc : doc.Keyed) (htables : InTables doc)
    (hss : ss ≠ []) : scenarios? doc = some ss ↔ Lists (documentFields ss) doc := by
  have hread (v : Value) (hv : doc.lookup "scenario" = some v) :
      list? scenario? v = some ss ↔ IsList (fun s => IsTable s.fields) ss v := by
    refine list?_eq_some_iff ?_
    rintro rows vs rfl w hw s
    refine scenario?_eq_some_iff (Toml.keyed_array_iff.1 (hdoc.of_lookup hv) w hw) ?_
    rintro origin es rfl
    exact htables rows vs hv origin es hw
  rw [lists_iff hdoc (by simp [documentFields]), scenarios?_eq]
  simp only [documentFields, Option.bind_eq_bind, Option.bind_eq_some_iff, Option.guard_eq_some', exists_const,
    List.map_cons, List.map_nil, List.forall_mem_singleton]
  refine and_congr_right fun _ => ?_
  unfold optional? Field.FoundIn
  cases hv : doc.lookup "scenario" with
  | none => simpa using hss.symm
  | some v => simp [← hread v hv]

end LastLevel.Scenario
