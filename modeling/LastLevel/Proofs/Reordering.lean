import LastLevel.Proofs.Forms
/-!
# The order of keys

Two documents are alike if one is the other with the entries of its tables in another
order, on any level (`Value.Alike`). A look-up then finds the same in both, up to order
inside what is found (`lookup_alike`), so a reader respects the order that looks all
keys up and leaves the values to readers that respect it. Main statement:
`Scenario.scenarios?_alike`.
-/

namespace LastLevel

namespace Toml

/-- The values are the same up to the order of keys, and up to how tables and arrays are
written. -/
inductive Value.Alike : Value → Value → Prop where
  | refl (v : Value) : Alike v v
  | array {rows rows' : Bool} {vs ws : List Value} (h : List.Forall₂ Alike vs ws) :
      Alike (.array rows vs) (.array rows' ws)
  | table {origin origin' : Origin} {es fs es' : List (String × Value)} (hperm : es.Perm fs)
      (hkeys : fs.map (·.1) = es'.map (·.1)) (hvalues : List.Forall₂ Alike (fs.map (·.2)) (es'.map (·.2))) :
      Alike (.table origin es) (.table origin' es')

/-- The entries are the same up to their order, and the order of keys inside them. -/
def Entries.Alike (es es' : Entries) : Prop :=
  ∃ fs, es.Perm fs ∧ fs.map (·.1) = es'.map (·.1) ∧ List.Forall₂ Value.Alike (fs.map (·.2)) (es'.map (·.2))

namespace Entries

variable {es es' fs : Entries}

theorem Keyed.perm (h : es.Keyed) (hp : es.Perm fs) : fs.Keyed :=
  ⟨(hp.map (·.1)).nodup_iff.1 h.keys, fun e he => h.values e (hp.mem_iff.2 he)⟩

theorem Keyed.lookup_perm (h : es.Keyed) (hp : es.Perm fs) (key : String) : fs.lookup key = es.lookup key := by
  refine Option.ext fun v => ?_
  rw [(h.perm hp).lookup_eq_some_iff, h.lookup_eq_some_iff, hp.mem_iff]

/-- What is found under a key is the same in both, up to order. -/
theorem lookup_alike (h : es.Keyed) (ha : es.Alike es') (key : String) :
    (es.lookup key = none ∧ es'.lookup key = none) ∨
      ∃ v w, es.lookup key = some v ∧ es'.lookup key = some w ∧ v.Keyed ∧ v.Alike w := by
  obtain ⟨fs, hp, hkeys, hvalues⟩ := ha
  rw [← h.lookup_perm hp]
  replace h : Keyed fs := h.perm hp
  clear hp
  induction fs generalizing es' with
  | nil =>
    obtain rfl := List.map_eq_nil_iff.1 hkeys.symm
    exact .inl ⟨rfl, rfl⟩
  | cons e fs ih =>
    cases es' with
    | nil => cases hkeys
    | cons e' es' =>
      obtain ⟨k, v⟩ := e
      obtain ⟨k', v'⟩ := e'
      simp only [List.map_cons, List.cons.injEq, List.forall₂_cons] at hkeys hvalues
      obtain ⟨rfl, hkeys⟩ := hkeys
      rw [List.lookup_cons, List.lookup_cons]
      by_cases hk : key = k
      · exact .inr ⟨v, v', by simp [hk], by simp [hk], h.values _ List.mem_cons_self, hvalues.1⟩
      · have hfs : Keyed fs := ⟨(List.nodup_cons.1 h.keys).2, fun e he => h.values e (List.mem_cons_of_mem _ he)⟩
        rw [beq_false_of_ne hk]
        exact ih hkeys hvalues.2 hfs

/-- The keys are the same. -/
theorem mem_keys_alike (ha : es.Alike es') (key : String) : key ∈ es.map (·.1) ↔ key ∈ es'.map (·.1) := by
  obtain ⟨fs, hp, hkeys, -⟩ := ha
  rw [(hp.map (·.1)).mem_iff, hkeys]

end Entries

end Toml

namespace Scenario

open Toml (Value Entries)

variable {α : Type} {f : Value → Option α} {es es' : Entries}

/-- The order of keys makes no difference to the reader. -/
def Respects (f : Value → Option α) : Prop := ∀ v w : Value, v.Keyed → v.Alike w → f v = f w

theorem respects_text? : Respects text? := by
  rintro v w - (_ | _ | _) <;> rfl

theorem respects_natural? (bound : Nat) : Respects (natural? bound) := by
  rintro v w - (_ | _ | _) <;> rfl

theorem respects_list? (hf : Respects f) : Respects (list? f) := by
  rintro v w hv (_ | h | _)
  · rfl
  · have hvs := (List.forall₂_and_left _ _).2 ⟨Toml.keyed_array_iff.1 hv, h⟩
    exact mapM_congr (hvs.imp fun v w hvw => hf v w hvw.1 hvw.2)
  · rfl

section Tables
variable (h : es.Keyed) (ha : es.Alike es')
include h ha

theorem field?_alike (hf : Respects f) (key : String) : field? f key es = field? f key es' := by
  unfold field?
  rcases Entries.lookup_alike h ha key with ⟨hv, hw⟩ | ⟨v, w, hv, hw, hkeyed, hvw⟩
  · rw [hv, hw]
  · rw [hv, hw]
    exact hf v w hkeyed hvw

theorem optional?_alike (hf : Respects f) (key : String) : optional? f key es = optional? f key es' := by
  unfold optional?
  rcases Entries.lookup_alike h ha key with ⟨hv, hw⟩ | ⟨v, w, hv, hw, hkeyed, hvw⟩
  · rw [hv, hw]
  · rw [hv, hw]
    exact congrArg (Option.map some) (hf v w hkeyed hvw)

omit h in
theorem onlyKeys_alike (keys : List String) : onlyKeys keys es = onlyKeys keys es' := by
  have hiff (es : Entries) : onlyKeys keys es = true ↔ ∀ key ∈ es.map (·.1), key ∈ keys := by
    rw [onlyKeys_iff, List.forall_mem_map]
  rw [Bool.eq_iff_iff, hiff, hiff]
  exact forall_congr' fun key => imp_congr_left (Entries.mem_keys_alike ha key)

end Tables

theorem respects_fixedBits? : Respects fixedBits? := by
  rintro v w hv (_ | h | ⟨hp, hkeys, hvalues⟩)
  · rfl
  · have hvs := Toml.keyed_array_iff.1 hv
    rcases h with _ | ⟨h1, _ | ⟨h2, _ | _⟩⟩
    · rfl
    · rfl
    · simp only [fixedBits?, respects_natural? _ _ _ (hvs _ (by simp)) h1, respects_natural? _ _ _ (hvs _ (by simp)) h2]
    · rfl
  · have h := Toml.keyed_table_iff.1 hv
    have ha : Entries.Alike _ _ := ⟨_, hp, hkeys, hvalues⟩
    simp only [fixedBits?, onlyKeys_alike ha, field?_alike h ha (respects_natural? _)]

theorem respects_level? : Respects level? := by
  rintro v w hv (_ | h | ⟨hp, hkeys, hvalues⟩)
  · rfl
  · have hvs := Toml.keyed_array_iff.1 hv
    rcases h with _ | ⟨h1, _ | ⟨h2, _ | ⟨h3, _ | ⟨h4, _⟩⟩⟩⟩
    · rfl
    · rfl
    · rfl
    · rfl
    · simp only [level?, respects_natural? _ _ _ (hvs _ (by simp)) h1, respects_natural? _ _ _ (hvs _ (by simp)) h2,
        respects_natural? _ _ _ (hvs _ (by simp)) h3, respects_natural? _ _ _ (hvs _ (by simp)) h4]
  · have h := Toml.keyed_table_iff.1 hv
    have ha : Entries.Alike _ _ := ⟨_, hp, hkeys, hvalues⟩
    simp only [level?, onlyKeys_alike ha, field?_alike h ha (respects_natural? _)]

theorem plan?_alike (kind : String) (h : es.Keyed) (ha : es.Alike es') : plan? kind es = plan? kind es' := by
  have hcount (bound : Nat) (key : String) := field?_alike h ha (respects_natural? bound) key
  have hcounts (bound : Nat) (key : String) := field?_alike h ha (respects_list? (respects_natural? bound)) key
  have htable (bound : Nat) (key : String) :=
    field?_alike h ha (respects_list? (respects_list? (respects_natural? bound))) key
  have hfixed := field?_alike h ha (respects_list? respects_fixedBits?) "fixed_bits"
  unfold plan?
  split <;> simp only [geometryAt?, hcount, hcounts, htable, hfixed]

theorem respects_scenario? : Respects scenario? := by
  rintro v w hv (_ | _ | ⟨hp, hkeys, hvalues⟩)
  · rfl
  · rfl
  · have h := Toml.keyed_table_iff.1 hv
    have ha : Entries.Alike _ _ := ⟨_, hp, hkeys, hvalues⟩
    simp only [scenario?_table, field?_alike h ha respects_text?, onlyKeys_alike ha,
      optional?_alike h ha respects_level?, plan?_alike _ h ha]

/-- The order of the keys in a document, and in the tables inside it, makes no
difference. -/
theorem scenarios?_alike {doc doc' : Entries} (h : doc.Keyed) (ha : doc.Alike doc') :
    scenarios? doc = scenarios? doc' := by
  simp only [scenarios?_eq, onlyKeys_alike ha, optional?_alike h ha (respects_list? respects_scenario?)]

end Scenario

end LastLevel
