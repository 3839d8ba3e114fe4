import LastLevel.Proofs.Forms
/-!
# Dealing entries out and looking them up

The takers of `Scenario.Entries` see each entry of a table once and know nothing of the
takers before and after them. On a document without double keys they nevertheless take
what the readers read, and fail where the readers fail (`Scenario.takeScenarios?_eq`):
what is dealt out is a part of the table (`deal?_eq`), in which the fields of the part
are those of the table (`lookup_filter`), and what no one keeps reaches the fields of
the scheme, which refuse it (`strict?_eq`).
-/

namespace LastLevel.Scenario

open Toml (Value Entries)

variable {α : Type} {es : Entries}

/-! ## Parts of a table -/

/-- The entries with some keys. -/
def among (keys : List String) (es : Entries) : Entries := es.filter fun e => decide (e.1 ∈ keys)

/-- The entries with other keys. -/
def besides (keys : List String) (es : Entries) : Entries := es.filter fun e => decide (e.1 ∉ keys)

theorem lookup_filter {p : String → Bool} {key : String} (h : p key = true) (es : Entries) :
    (es.filter fun e => p e.1).lookup key = es.lookup key := by
  induction es with
  | nil => rfl
  | cons e es ih =>
    obtain ⟨k, v⟩ := e
    by_cases hk : key = k
    · subst hk
      simp [h]
    · cases hp : p k <;> simp [hp, List.lookup_cons, beq_false_of_ne hk, ih]

theorem lookup_among {keys : List String} {key : String} (h : key ∈ keys) :
    (among keys es).lookup key = es.lookup key :=
  lookup_filter (p := fun k => decide (k ∈ keys)) (by simpa using h) es

theorem lookup_besides {keys : List String} {key : String} (h : key ∉ keys) :
    (besides keys es).lookup key = es.lookup key :=
  lookup_filter (p := fun k => decide (k ∉ keys)) (by simpa using h) es

theorem keyed_besides {keys : List String} (h : es.Keyed) : (besides keys es).Keyed :=
  ⟨h.keys.sublist (List.filter_sublist.map _), fun e he => h.values e (List.mem_of_mem_filter he)⟩

/-- The keys that are not known to anyone are those that are left. -/
theorem onlyKeys_besides {taken keys : List String} :
    onlyKeys keys (besides taken es) = onlyKeys (taken ++ keys) es := by
  rw [Bool.eq_iff_iff, onlyKeys_iff, onlyKeys_iff]
  simp only [besides, List.mem_filter, decide_eq_true_eq, and_imp, List.mem_append]
  exact forall₂_congr fun e _ => or_iff_not_imp_left.symm

/-! ## Dealing -/

theorem foldlM_add?_eq {keys : List String} {d : Dealt} (h : (d.kept.map (·.1) ++ es.map (·.1)).Nodup) :
    es.foldlM (Dealt.add? keys) d =
      some { kept := d.kept ++ among keys es, passed := d.passed ++ besides keys es } := by
  induction es generalizing d with
  | nil => simp [among, besides]
  | cons e es ih =>
    rw [List.foldlM_cons, Option.bind_eq_bind, Dealt.add?]
    rw [List.map_cons] at h
    by_cases hk : e.1 ∈ keys
    · have hnew : e.1 ∉ d.kept.map (·.1) := fun hmem => (List.nodup_append.1 h).2.2 _ hmem _ List.mem_cons_self rfl
      rw [if_pos hk, if_neg hnew, Option.bind_some, ih (by simpa using h)]
      simp [among, besides, hk]
    · have hrest := h.sublist ((List.sublist_cons_self e.1 (es.map (·.1))).append_left _)
      rw [if_neg hk, Option.bind_some, ih (d := { d with passed := d.passed ++ [e] }) hrest]
      simp [among, besides, hk]

/-- Without double keys everything is dealt out. -/
theorem deal?_eq {keys : List String} (h : es.Keyed) :
    deal? keys es = some { kept := among keys es, passed := besides keys es } := by
  rw [deal?, foldlM_add?_eq (by simpa using h.keys)]
  rfl

/-- Nothing is left if there are no other keys, and then the whole table is taken. -/
theorem strict?_eq {keys : List String} {f : Entries → Option α} (h : es.Keyed) :
    strict? keys f es = (do
      guard (onlyKeys keys es)
      f es) := by
  have hempty : (besides keys es).isEmpty = onlyKeys keys es := by
    rw [Bool.eq_iff_iff, List.isEmpty_iff, besides, List.filter_eq_nil_iff, onlyKeys_iff]
    simp
  rw [strict?, deal?_eq h]
  simp only [Option.bind_eq_bind, Option.bind_some, hempty]
  by_cases ho : onlyKeys keys es = true
  · rw [among, List.filter_eq_self.2 fun e he => decide_eq_true (onlyKeys_iff.1 ho e he)]
  · simp [ho, guard]

/-! ## Values -/

theorem field?_congr {f g : Value → Option α} {key : String} (h : ∀ v, es.lookup key = some v → f v = g v) :
    field? f key es = field? g key es := by
  unfold field?
  cases hv : es.lookup key with
  | none => rfl
  | some v => exact h v hv

theorem optional?_congr {f g : Value → Option α} {key : String} (h : ∀ v, es.lookup key = some v → f v = g v) :
    optional? f key es = optional? g key es := by
  unfold optional?
  cases hv : es.lookup key with
  | none => rfl
  | some v => exact congrArg (Option.map some) (h v hv)

theorem list?_congr {f g : Value → Option α} {v : Value} (hv : v.Keyed) (h : ∀ w : Value, w.Keyed → f w = g w) :
    list? f v = list? g v := by
  cases v with
  | array rows vs => exact mapM_congr (List.forall₂_same.2 fun w hw => h w (Toml.keyed_array_iff.1 hv w hw))
  | _ => rfl

theorem takeFixedBits?_eq {v : Value} (hv : v.Keyed) : takeFixedBits? v = fixedBits? v := by
  cases v with
  | table origin es =>
    rw [takeFixedBits?, strict?_eq (Toml.keyed_table_iff.1 hv)]
    rfl
  | _ => rfl

theorem takeLevel?_eq {v : Value} (hv : v.Keyed) : takeLevel? v = level? v := by
  cases v with
  | table origin es =>
    rw [takeLevel?, strict?_eq (Toml.keyed_table_iff.1 hv)]
    simp [level?, geometryAt?, Option.bind_assoc]
  | _ => rfl

/-! ## Scenarios -/

theorem takePlan?_eq (kind : String) (hes : es.Keyed) : takePlan? kind es = plan? kind es := by
  unfold takePlan?
  split
  · have hfixed : field? (list? takeFixedBits?) "fixed_bits" es = field? (list? fixedBits?) "fixed_bits" es :=
      field?_congr fun v hv => list?_congr (hes.of_lookup hv) fun _ => takeFixedBits?_eq
    rw [hfixed]
    rfl
  · rfl

theorem not_mem_planKeys {kind : String} {keys : List String} (h : planKeys? kind = some keys) :
    "label" ∉ keys ∧ "scheme" ∉ keys ∧ "private" ∉ keys := by
  unfold planKeys? at h
  split at h
  all_goals cases h
  all_goals decide

/-- A scheme reads no other keys than those of its kind. -/
theorem plan?_congr {kind : String} {keys : List String} (hkeys : planKeys? kind = some keys) {es' : Entries}
    (h : ∀ key ∈ keys, es.lookup key = es'.lookup key) : plan? kind es = plan? kind es' := by
  unfold planKeys? at hkeys
  split at hkeys
  all_goals cases hkeys
  all_goals simp only [List.forall_mem_cons] at h
  all_goals simp [plan?, geometryAt?, field?, h]

/-- The last taker of a scenario's table refuses the keys that none of the takers knows. -/
theorem strict_takePlan?_eq {kind : String} {keys : List String} (hes : es.Keyed) (hkeys : planKeys? kind = some keys) :
    strict? keys (takePlan? kind) (besides ["scheme"] (besides ["label", "private"] es)) = (do
      guard (onlyKeys (["label", "scheme", "private"] ++ keys) es)
      plan? kind es) := by
  have hrest : (besides ["scheme"] (besides ["label", "private"] es)).Keyed :=
    keyed_besides (keyed_besides hes)
  have hsame : ∀ key ∈ keys, (besides ["scheme"] (besides ["label", "private"] es)).lookup key = es.lookup key := by
    obtain ⟨hlabel, hscheme, hprivate⟩ := not_mem_planKeys hkeys
    intro key hkey
    rw [lookup_besides, lookup_besides]
    · rintro h
      simp only [List.mem_cons, List.not_mem_nil, or_false] at h
      rcases h with rfl | rfl
      · exact hlabel hkey
      · exact hprivate hkey
    · rintro h
      obtain rfl := List.mem_singleton.1 h
      exact hscheme hkey
  have honly : onlyKeys keys (besides ["scheme"] (besides ["label", "private"] es)) =
      onlyKeys (["label", "scheme", "private"] ++ keys) es := by
    rw [onlyKeys_besides, onlyKeys_besides, Bool.eq_iff_iff, onlyKeys_iff, onlyKeys_iff]
    simp only [List.cons_append, List.nil_append, List.mem_cons]
    exact forall₂_congr fun _ _ => or_congr_right or_left_comm
  rw [strict?_eq hrest, honly, takePlan?_eq kind hrest, plan?_congr hkeys hsame]

theorem takeScenario?_eq {v : Value} (hv : v.Keyed) : takeScenario? v = scenario? v := by
  cases v with
  | table origin es =>
    have hes : Toml.Entries.Keyed es := Toml.keyed_table_iff.1 hv
    have hkind :
        field? text? "scheme" (among ["scheme"] (besides ["label", "private"] es)) = field? text? "scheme" es := by
      rw [field?, lookup_among (by simp), lookup_besides (by simp), field?]
    have hlabel : field? text? "label" (among ["label", "private"] es) = field? text? "label" es := by
      rw [field?, lookup_among (by simp), field?]
    have hlevel : optional? takeLevel? "private" (among ["label", "private"] es) = optional? level? "private" es := by
      rw [optional?, lookup_among (by simp), ← optional?]
      exact optional?_congr fun v hv => takeLevel?_eq (hes.of_lookup hv)
    rw [scenario?_table, takeScenario?, deal?_eq hes]
    simp only [Option.bind_eq_bind, Option.bind_some, deal?_eq (keyed_besides hes), hkind, hlabel, hlevel]
    cases field? text? "scheme" es with
    | none => rfl
    | some kind =>
      cases hkeys : planKeys? kind with
      | none => simp [hkeys]
      | some keys =>
        -- The parts are decoded in another order, which no one can see.
        simp only [Option.bind_some, hkeys, strict_takePlan?_eq hes hkeys, Option.bind_eq_bind, Option.bind_assoc]
        cases plan? kind es <;> cases field? text? "label" es <;> cases optional? level? "private" es <;> simp
  | _ => rfl

/-- Dealt out entry by entry, a document comes to the same as looked up. -/
theorem takeScenarios?_eq {doc : Entries} (h : doc.Keyed) : takeScenarios? doc = scenarios? doc := by
  have hread : optional? (list? takeScenario?) "scenario" doc = optional? (list? scenario?) "scenario" doc :=
    optional?_congr fun v hv => list?_congr (h.of_lookup hv) fun _ => takeScenario?_eq
  rw [takeScenarios?, strict?_eq h, hread, scenarios?_eq]

end LastLevel.Scenario
