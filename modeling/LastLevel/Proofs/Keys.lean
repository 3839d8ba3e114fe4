import LastLevel.Toml.Reader
import Mathlib.Data.List.Nodup
/-!
# Keys come once

In a document that is read no table has two entries with one key: `Entries.Keyed` holds
of the whole document, and of every table inside it. An entry is only ever added where
its key is not found (`Entries.Keyed.alter?`), be it by a dotted key, a header or an
inline table, and what stands in a value has been read before it. So a look-up is the
one entry with the key (`Entries.Keyed.lookup_eq_some_iff`). Main statement:
`Toml.keyed_of_read?`.
-/

namespace LastLevel.Toml

/-- Inside a value no table has two entries with one key. -/
inductive Value.Keyed : Value → Prop where
  | text (s : String) : Keyed (.text s)
  | integer (n : Int) : Keyed (.integer n)
  | boolean (b : Bool) : Keyed (.boolean b)
  | float (written : String) : Keyed (.float written)
  | moment (written : String) : Keyed (.moment written)
  | array {rows : Bool} {items : List Value} (h : ∀ v ∈ items, Keyed v) : Keyed (.array rows items)
  | table {origin : Origin} {entries : List (String × Value)} (hkeys : (entries.map (·.1)).Nodup)
      (h : ∀ e ∈ entries, Keyed e.2) : Keyed (.table origin entries)

/-- Neither the entries themselves nor a table inside them have two entries with one
key. -/
structure Entries.Keyed (es : Entries) : Prop where
  keys : (es.map (·.1)).Nodup
  values : ∀ e ∈ es, e.2.Keyed

theorem keyed_table_iff {origin : Origin} {es : Entries} : (Value.table origin es).Keyed ↔ es.Keyed := by
  constructor
  · rintro (_ | _ | _ | _ | _ | _ | ⟨hkeys, h⟩)
    exact ⟨hkeys, h⟩
  · exact fun h => .table h.keys h.values

theorem keyed_array_iff {rows : Bool} {items : List Value} : (Value.array rows items).Keyed ↔ ∀ v ∈ items, v.Keyed := by
  constructor
  · rintro (_ | _ | _ | _ | _ | h)
    exact h
  · exact .array

namespace Entries

theorem keyed_nil : Keyed [] := ⟨List.nodup_nil, by simp⟩

/-- The only entry with a key is the one that is found. -/
theorem Keyed.lookup_eq_some_iff {es : Entries} (h : es.Keyed) {key : String} {v : Value} :
    es.lookup key = some v ↔ (key, v) ∈ es := by
  obtain ⟨hkeys, -⟩ := h
  induction es with
  | nil => simp
  | cons e es ih =>
    obtain ⟨k, w⟩ := e
    obtain ⟨hk, hkeys⟩ := List.nodup_cons.1 hkeys
    by_cases he : key = k
    · subst he
      have hnot : (key, v) ∉ es := fun hv => hk (List.mem_map.2 ⟨_, hv, rfl⟩)
      simp [hnot, eq_comm]
    · rw [List.lookup_cons, beq_false_of_ne he, ih hkeys]
      simp [he]

theorem Keyed.of_lookup {es : Entries} (h : es.Keyed) {key : String} {v : Value} (hv : es.lookup key = some v) :
    v.Keyed :=
  h.values _ (h.lookup_eq_some_iff.1 hv)

/-! ## Changing an entry -/

/-- What is changed, or added at the end, is one entry. -/
theorem alter?_eq_some {key : String} {f : Option Value → Option Value} {es es' : Entries}
    (h : es.alter? key f = some es') :
    (∃ before v w after, es = before ++ (key, v) :: after ∧ f (some v) = some w ∧ es' = before ++ (key, w) :: after) ∨
      (∀ e ∈ es, e.1 ≠ key) ∧ ∃ w, f none = some w ∧ es' = es ++ [(key, w)] := by
  induction es generalizing es' with
  | nil =>
    simp only [alter?, Option.bind_eq_bind, Option.bind_eq_some_iff, Option.some.injEq] at h
    obtain ⟨w, hw, rfl⟩ := h
    exact .inr ⟨by simp, w, hw, rfl⟩
  | cons e es ih =>
    obtain ⟨k, v⟩ := e
    rw [alter?] at h
    split at h
    · next he =>
      subst he
      simp only [Option.bind_eq_bind, Option.bind_eq_some_iff, Option.some.injEq] at h
      obtain ⟨w, hw, rfl⟩ := h
      exact .inl ⟨[], v, w, es, rfl, hw, rfl⟩
    · next he =>
      obtain ⟨es', hes, rfl⟩ := Option.map_eq_some_iff.1 h
      rcases ih hes with ⟨before, v', w, after, rfl, hw, rfl⟩ | ⟨hnew, w, hw, rfl⟩
      · exact .inl ⟨(k, v) :: before, v', w, after, rfl, hw, rfl⟩
      · exact .inr ⟨List.forall_mem_cons.2 ⟨he, hnew⟩, w, hw, rfl⟩

/-- An entry that is changed keeps its key, and one that is added has a new one. -/
theorem Keyed.alter? {key : String} {f : Option Value → Option Value} {es es' : Entries} (h : es.Keyed)
    (hnone : ∀ w, f none = some w → w.Keyed) (hsome : ∀ v w, v.Keyed → f (some v) = some w → w.Keyed)
    (hr : es.alter? key f = some es') : es'.Keyed := by
  obtain ⟨hkeys, hvalues⟩ := h
  rcases alter?_eq_some hr with ⟨before, v, w, after, rfl, hw, rfl⟩ | ⟨hnew, w, hw, rfl⟩
  · refine ⟨by simpa using hkeys, fun e he => ?_⟩
    simp only [List.mem_append, List.mem_cons] at he hvalues
    rcases he with he | rfl | he
    · exact hvalues e (.inl he)
    · exact hsome v w (hvalues (key, v) (.inr (.inl rfl))) hw
    · exact hvalues e (.inr (.inr he))
  · refine ⟨?_, fun e he => ?_⟩
    · rw [List.map_append, List.nodup_append]
      refine ⟨hkeys, List.nodup_singleton _, ?_⟩
      rintro k hk _ hk' rfl
      obtain ⟨e, he, rfl⟩ := List.mem_map.1 hk
      exact hnew e he (by simpa using hk')
    · rcases List.mem_append.1 he with he | he
      · exact hvalues e he
      · obtain rfl := List.mem_singleton.1 he
        exact hnone w hw

/-- A dotted key adds its value to tables that it makes or that dotted keys made. -/
theorem Keyed.assign? {v : Value} (hv : v.Keyed) {keys : List String} {es es' : Entries} (h : es.Keyed)
    (hr : es.assign? v keys = some es') : es'.Keyed := by
  induction keys generalizing es es' with
  | nil => simp [Entries.assign?] at hr
  | cons key keys ih =>
    cases keys with
    | nil =>
      rw [Entries.assign?] at hr
      refine h.alter? (fun w hw => ?_) (fun _ w _ hw => by simp at hw) hr
      obtain rfl := Option.some.inj hw
      exact hv
    | cons key' keys =>
      rw [Entries.assign?] at hr
      · have hinner : ∀ (inner : Entries) (w : Value), inner.Keyed →
            (Entries.assign? v (key' :: keys) inner).map (Value.table .dotted) = some w → w.Keyed := by
          intro inner w hi hw
          obtain ⟨es, hes, rfl⟩ := Option.map_eq_some_iff.1 hw
          exact keyed_table_iff.2 (ih hi hes)
        refine h.alter? (fun w hw => hinner [] w keyed_nil hw) (fun w w' hw hw' => ?_) hr
        split at hw'
        · next heq => cases heq
        · next inner heq =>
          obtain rfl := Option.some.inj heq
          exact hinner inner w' (keyed_table_iff.1 hw) hw'
        · cases hw'
      · simp

theorem Keyed.openTable? {key : String} {es es' : Entries} (h : es.Keyed) (hr : es.openTable? key = some es') :
    es'.Keyed := by
  refine h.alter? (fun w hw => ?_) (fun v w hv hw => ?_) hr
  · obtain rfl := Option.some.inj hw
    exact keyed_table_iff.2 keyed_nil
  · split at hw
    · next heq => cases heq
    · next inner heq =>
      obtain rfl := Option.some.inj heq
      obtain rfl := Option.some.inj hw
      exact keyed_table_iff.2 (keyed_table_iff.1 hv)
    · cases hw

theorem Keyed.openRow? {key : String} {es es' : Entries} (h : es.Keyed) (hr : es.openRow? key = some es') :
    es'.Keyed := by
  refine h.alter? (fun w hw => ?_) (fun v w hv hw => ?_) hr
  · obtain rfl := Option.some.inj hw
    exact keyed_array_iff.2 (List.forall_mem_singleton.2 (keyed_table_iff.2 keyed_nil))
  · split at hw
    · next heq => cases heq
    · next items heq =>
      obtain rfl := Option.some.inj heq
      obtain rfl := Option.some.inj hw
      refine keyed_array_iff.2 (List.forall_mem_append.2 ⟨keyed_array_iff.1 hv, ?_⟩)
      exact List.forall_mem_singleton.2 (keyed_table_iff.2 keyed_nil)
    · cases hw

end Entries

/-- A change of the last table of an array. -/
theorem keyed_of_alterLast? {f : Entries → Option Entries}
    (hf : ∀ es es' : Entries, es.Keyed → f es = some es' → es'.Keyed) {items items' : List Value}
    (h : ∀ v ∈ items, v.Keyed) (hr : alterLast? f items = some items') : ∀ v ∈ items', v.Keyed := by
  fun_induction alterLast? f items generalizing items' with
  | case1 origin es =>
    simp only [Option.bind_eq_bind, Option.bind_eq_some_iff, Option.some.injEq] at hr
    obtain ⟨es', hes, rfl⟩ := hr
    have hes' := hf es es' (keyed_table_iff.1 (List.forall_mem_singleton.1 h)) hes
    exact List.forall_mem_singleton.2 (keyed_table_iff.2 hes')
  | case2 v w vs ih =>
    obtain ⟨items', hitems, rfl⟩ := Option.map_eq_some_iff.1 hr
    obtain ⟨hv, hvs⟩ := List.forall_mem_cons.1 h
    exact List.forall_mem_cons.2 ⟨hv, ih hvs hitems⟩
  | case3 => cases hr

/-- A change at the end of a header's path. -/
theorem Entries.Keyed.within? {f : Entries → Option Entries}
    (hf : ∀ es es' : Entries, es.Keyed → f es = some es' → es'.Keyed) {path : List String} {es es' : Entries}
    (h : es.Keyed) (hr : es.within? f path = some es') : es'.Keyed := by
  induction path generalizing es es' with
  | nil => exact hf es es' h hr
  | cons key keys ih =>
    have htable : ∀ (origin : Origin) (inner : Entries) (w : Value), inner.Keyed →
        (Entries.within? f keys inner).map (Value.table origin) = some w → w.Keyed := by
      intro origin inner w hi hw
      obtain ⟨es, hes, rfl⟩ := Option.map_eq_some_iff.1 hw
      exact keyed_table_iff.2 (ih hi hes)
    refine h.alter? (fun w hw => htable .implied [] w keyed_nil hw) (fun v w hv hw => ?_) hr
    split at hw
    · next heq => cases heq
    · cases hw
    · next origin inner _ heq =>
      obtain rfl := Option.some.inj heq
      exact htable origin inner w (keyed_table_iff.1 hv) hw
    · next items heq =>
      obtain rfl := Option.some.inj heq
      obtain ⟨items', hitems, rfl⟩ := Option.map_eq_some_iff.1 hw
      exact keyed_array_iff.2 (keyed_of_alterLast? (fun _ _ hi hr => ih hi hr) (keyed_array_iff.1 hv) hitems)
    · cases hw

/-! ## Reading -/

/-- What a step keeps, a run of steps keeps that comes to an end. -/
theorem foldlM_keeps {α β : Type} {I : β → Prop} {f : β → α → Option β} {xs : List α}
    (hstep : ∀ x ∈ xs, ∀ b b', I b → f b x = some b' → I b') {b b' : β} (h : I b) (hr : xs.foldlM f b = some b') :
    I b' := by
  induction xs generalizing b with
  | nil =>
    obtain rfl := Option.some.inj hr
    exact h
  | cons x xs ih =>
    obtain ⟨hx, hxs⟩ := List.forall_mem_cons.1 hstep
    rw [List.foldlM_cons, Option.bind_eq_bind, Option.bind_eq_some_iff] at hr
    obtain ⟨c, hc, hr⟩ := hr
    exact ih hxs (hx b c h hc) hr

theorem keyed_of_inline? {pairs : List (List String × Value)} (h : ∀ p ∈ pairs, p.2.Keyed) {v : Value}
    (hr : inline? pairs = some v) : v.Keyed := by
  obtain ⟨es, hes, rfl⟩ := Option.map_eq_some_iff.1 hr
  refine keyed_table_iff.2 (foldlM_keeps (I := Entries.Keyed) (fun p hp b b' hb hr => ?_) Entries.keyed_nil hes)
  exact hb.assign? (h p hp) hr

theorem keyed_of_scalarValue? {cs rest : List Char} {v : Value} (h : scalarValue? cs = some (v, rest)) : v.Keyed := by
  unfold scalarValue? at h
  split at h
  · obtain ⟨rfl, -⟩ := Prod.mk.inj (Option.some.inj h)
    exact .boolean true
  · obtain ⟨rfl, -⟩ := Prod.mk.inj (Option.some.inj h)
    exact .boolean false
  · split at h
    · obtain ⟨rfl, -⟩ := Prod.mk.inj (Option.some.inj h)
      exact .moment _
    · split at h
      · obtain ⟨rfl, -⟩ := Prod.mk.inj (Option.some.inj h)
        exact .float _
      · obtain ⟨_, _, hv⟩ := Option.map_eq_some_iff.1 h
        obtain ⟨rfl, -⟩ := Prod.mk.inj hv
        exact .integer _

/-- With so much fuel, all values that are read have tables without double keys. -/
structure ReadsKeyed (fuel : Nat) : Prop where
  value : ∀ room cs v rest, value? fuel room cs = some (v, rest) → v.Keyed
  items : ∀ room acc cs v rest, (∀ w ∈ acc, w.Keyed) → items? fuel room acc cs = some (v, rest) → v.Keyed
  pairs : ∀ room acc cs v rest, (∀ p ∈ acc, p.2.Keyed) → pairs? fuel room acc cs = some (v, rest) → v.Keyed
  pair : ∀ room cs keys v rest, pair? fuel room cs = some (keys, v, rest) → v.Keyed

namespace ReadsKeyed
variable {fuel : Nat} (ih : ReadsKeyed fuel)
include ih

theorem value_succ {room : Nat} {cs rest : List Char} {v : Value} (h : value? (fuel + 1) room cs = some (v, rest)) :
    v.Keyed := by
  unfold value? at h
  split at h
  · cases h
  · next fuel' room' _ heq =>
    obtain rfl := Nat.succ.inj heq
    exact ih.items room' [] _ v rest (by simp) h
  · next fuel' room' _ heq =>
    obtain rfl := Nat.succ.inj heq
    split at h
    · obtain ⟨rfl, -⟩ := Prod.mk.inj (Option.some.inj h)
      exact keyed_table_iff.2 Entries.keyed_nil
    · exact ih.pairs room' [] _ v rest (by simp) h
  · split at h
    · obtain ⟨rfl, -⟩ := Prod.mk.inj (Option.some.inj h)
      exact .text _
    · exact keyed_of_scalarValue? h

theorem items_succ {room : Nat} {acc : List Value} {cs rest : List Char} {v : Value} (hacc : ∀ w ∈ acc, w.Keyed)
    (h : items? (fuel + 1) room acc cs = some (v, rest)) : v.Keyed := by
  unfold items? at h
  split at h
  · cases h
  · obtain ⟨rfl, -⟩ := Prod.mk.inj (Option.some.inj h)
    exact keyed_array_iff.2 fun w hw => hacc w (List.mem_reverse.1 hw)
  · next fuel' heq _ =>
    obtain rfl := Nat.succ.inj heq
    rw [Option.bind_eq_bind, Option.bind_eq_some_iff] at h
    obtain ⟨⟨w, rest'⟩, hw, h⟩ := h
    have hmore := List.forall_mem_cons.2 ⟨ih.value _ _ w rest' hw, hacc⟩
    dsimp only at h
    split at h
    · exact ih.items _ _ _ v rest hmore h
    · obtain ⟨rfl, -⟩ := Prod.mk.inj (Option.some.inj h)
      exact keyed_array_iff.2 fun w hw => hmore w (List.mem_reverse.1 hw)
    · cases h

theorem pairs_succ {room : Nat} {acc : List (List String × Value)} {cs rest : List Char} {v : Value}
    (hacc : ∀ p ∈ acc, p.2.Keyed) (h : pairs? (fuel + 1) room acc cs = some (v, rest)) : v.Keyed := by
  unfold pairs? at h
  rw [Option.bind_eq_bind, Option.bind_eq_some_iff] at h
  obtain ⟨⟨keys, w, rest'⟩, hw, h⟩ := h
  have hmore : ∀ p ∈ (keys, w) :: acc, p.2.Keyed := List.forall_mem_cons.2 ⟨ih.pair _ _ keys w rest' hw, hacc⟩
  dsimp only at h
  split at h
  · exact ih.pairs _ _ _ v rest hmore h
  · obtain ⟨w, hw, he⟩ := Option.map_eq_some_iff.1 h
    obtain ⟨rfl, -⟩ := Prod.mk.inj he
    exact keyed_of_inline? (fun p hp => hmore p (List.mem_reverse.1 hp)) hw
  · cases h

theorem pair_succ {room : Nat} {cs rest : List Char} {keys : List String} {v : Value}
    (h : pair? (fuel + 1) room cs = some (keys, v, rest)) : v.Keyed := by
  simp only [pair?, Option.bind_eq_bind, Option.bind_eq_some_iff, Option.some.injEq, Prod.mk.injEq] at h
  obtain ⟨_, -, _, -, ⟨w, rest'⟩, hw, -, rfl, -⟩ := h
  exact ih.value _ _ w rest' hw

end ReadsKeyed

/-- What stands in brackets was read with less fuel, by the same readers. -/
theorem readsKeyed (fuel : Nat) : ReadsKeyed fuel := by
  induction fuel with
  | zero => constructor <;> simp [value?, items?, pairs?, pair?]
  | succ fuel ih =>
    exact ⟨fun _ _ _ _ => ih.value_succ, fun _ _ _ _ _ => ih.items_succ, fun _ _ _ _ _ => ih.pairs_succ,
      fun _ _ _ _ _ => ih.pair_succ⟩

/-! ## Documents -/

/-- The value in a statement, if it has one, has tables without double keys. -/
def Statement.Keyed : Statement → Prop
  | pair _ v => v.Keyed
  | _ => True

theorem keyed_of_statement? {cs rest : List Char} {s : Statement} (h : statement? cs = some (s, rest)) : s.Keyed := by
  unfold statement? at h
  split at h
  · simp only [Option.bind_eq_bind, Option.bind_eq_some_iff, Option.some.injEq, Prod.mk.injEq] at h
    obtain ⟨_, -, _, -, _, -, rfl, -⟩ := h
    exact trivial
  · simp only [Option.bind_eq_bind, Option.bind_eq_some_iff, Option.some.injEq, Prod.mk.injEq] at h
    obtain ⟨_, -, _, -, rfl, -⟩ := h
    exact trivial
  · simp only [Option.bind_eq_bind, Option.bind_eq_some_iff, Option.some.injEq, Prod.mk.injEq] at h
    obtain ⟨⟨keys, v, rest'⟩, hv, rfl, -⟩ := h
    exact (readsKeyed _).pair _ _ keys v rest' hv

theorem keyed_of_statementsFrom? {fuel : Nat} {acc ss : List Statement} {cs : List Char} (hacc : ∀ s ∈ acc, s.Keyed)
    (h : statementsFrom? fuel acc cs = some ss) : ∀ s ∈ ss, s.Keyed := by
  induction fuel generalizing acc cs with
  | zero => simp [statementsFrom?] at h
  | succ fuel ih =>
    unfold statementsFrom? at h
    split at h
    · obtain rfl := Option.some.inj h
      exact fun s hs => hacc s (List.mem_reverse.1 hs)
    · split at h
      · exact ih hacc h
      · simp only [Option.bind_eq_bind, Option.bind_eq_some_iff] at h
        obtain ⟨⟨s, rest⟩, hs, _, -, h⟩ := h
        exact ih (List.forall_mem_cons.2 ⟨keyed_of_statement? hs, hacc⟩) h

theorem keyed_of_statements? {text : String} {ss : List Statement} (h : statements? text = some ss) :
    ∀ s ∈ ss, s.Keyed := by
  unfold statements? at h
  split at h
  · exact keyed_of_statementsFrom? (by simp) h
  · exact keyed_of_statementsFrom? (by simp) h

/-- One statement adds no key to a table that has it. -/
theorem keyed_of_step? {doc doc' : List String × Entries} {s : Statement} (hs : s.Keyed) (h : doc.2.Keyed)
    (hr : step? doc s = some doc') : doc'.2.Keyed := by
  cases s with
  | table path =>
    simp only [step?, Option.bind_eq_bind, Option.bind_eq_some_iff, Option.some.injEq] at hr
    obtain ⟨key, -, es, hes, rfl⟩ := hr
    exact h.within? (fun _ _ hi hr => hi.openTable? hr) hes
  | row path =>
    simp only [step?, Option.bind_eq_bind, Option.bind_eq_some_iff, Option.some.injEq] at hr
    obtain ⟨key, -, es, hes, rfl⟩ := hr
    exact h.within? (fun _ _ hi hr => hi.openRow? hr) hes
  | pair keys v =>
    simp only [step?, Option.bind_eq_bind, Option.bind_eq_some_iff, Option.some.injEq] at hr
    obtain ⟨es, hes, rfl⟩ := hr
    exact h.within? (fun _ _ hi hr => hi.assign? hs hr) hes

/-- No table of a document has two entries with one key. -/
theorem keyed_of_read? {text : String} {doc : Entries} (h : read? text = some doc) : doc.Keyed := by
  obtain ⟨ss, hss, h⟩ := Option.bind_eq_some_iff.1 h
  obtain ⟨p, hp, rfl⟩ := Option.map_eq_some_iff.1 h
  have hall := keyed_of_statements? hss
  exact foldlM_keeps (I := fun p : List String × Entries => p.2.Keyed)
    (fun s hs _ _ hb => keyed_of_step? (hall s hs) hb) Entries.keyed_nil hp

end LastLevel.Toml
