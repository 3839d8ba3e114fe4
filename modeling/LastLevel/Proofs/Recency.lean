import LastLevel.Cache
import Mathlib.Data.List.Dedup
import Mathlib.Data.List.DropRight
import Mathlib.Data.Option.Basic
/-!
# What a cache holds, read off its history

A set never looks further back than the order in which its tags were last
used. `CacheSet.Recalls` says what it holds after a history in which the tags
`T`, each listed once and the oldest first, were used: as many of the latest of
them as there are ways, in that order, behind the slots that no tag has needed
yet. `CacheSet.Recalls.touch` is the step, and `Cache.Recalls.touchAt` lifts it to the
sets of a cache. Main statement: `Cache.Recalls.holdsAt_iff` (whether an access hits
depends on the locations accessed before, and on nothing else).
-/

namespace LastLevel

/-! ## Last uses -/

section Lists
variable {α : Type} [DecidableEq α]

/-- Using a tag once more makes it the last one. -/
theorem dedup_concat (ts : List α) (t : α) : (ts ++ [t]).dedup = ts.dedup.erase t ++ [t] := by
  induction ts with
  | nil => simp
  | cons a ts ih =>
    -- Of repeated elements the last one counts, so `a` only shows if it does not come again.
    by_cases ha : a ∈ ts
    · rw [List.cons_append, List.dedup_cons_of_mem (List.mem_append_left _ ha), ih, List.dedup_cons_of_mem ha]
    · rw [List.dedup_cons_of_notMem ha]
      by_cases hat : a = t
      · subst hat
        rw [List.cons_append, List.dedup_cons_of_mem (by simp), ih, List.erase_cons_head,
          List.erase_of_not_mem (by simpa using ha)]
      · rw [List.cons_append, List.dedup_cons_of_notMem (by simp [ha, hat]), ih,
          List.erase_cons_tail (by simpa using hat), List.cons_append]

/-- Moving a tag to the end keeps the list free of repetitions. -/
theorem nodup_erase_concat {ts : List α} (h : ts.Nodup) (t : α) : (ts.erase t ++ [t]).Nodup := by
  rw [List.nodup_append]
  refine ⟨h.erase t, by simp, ?_⟩
  rintro x hx y hy rfl
  rw [List.mem_singleton.1 hy] at hx
  exact h.not_mem_erase hx

omit [DecidableEq α] in
theorem rtake_append_length (xs ys : List α) : (xs ++ ys).rtake ys.length = ys := by
  simp [List.rtake]

omit [DecidableEq α] in
theorem rtake_of_length_le {xs : List α} {n : Nat} (h : xs.length ≤ n) : xs.rtake n = xs := by
  simp [List.rtake, Nat.sub_eq_zero_of_le h]

omit [DecidableEq α] in
theorem length_rtake (xs : List α) (n : Nat) : (xs.rtake n).length = min n xs.length := by
  simp only [List.rtake, List.length_drop]
  omega

omit [DecidableEq α] in
/-- A list is what precedes its last elements, and these. -/
theorem exists_append_rtake (xs : List α) (n : Nat) : ∃ ys, xs = ys ++ xs.rtake n :=
  ⟨xs.take (xs.length - n), (List.take_append_drop _ xs).symm⟩

/-- Erasing one of the last elements takes it from among them. -/
theorem rtake_erase_of_mem {xs : List α} (hn : xs.Nodup) {t : α} {n : Nat} (h : t ∈ xs.rtake (n + 1)) :
    (xs.erase t).rtake n = (xs.rtake (n + 1)).erase t := by
  obtain ⟨ys, hys⟩ := exists_append_rtake xs (n + 1)
  have hlen := length_rtake xs (n + 1)
  generalize xs.rtake (n + 1) = zs at *
  subst hys
  have ht : t ∉ ys := fun hy => List.disjoint_of_nodup_append hn hy h
  have hpos := List.length_pos_of_mem h
  rw [List.erase_append_right _ ht]
  rw [List.length_append] at hlen
  -- Either all places are taken, or the whole list is shorter than that.
  by_cases hz : zs.length = n + 1
  · have : (zs.erase t).length = n := by rw [List.length_erase_of_mem h]; omega
    rw [← this, rtake_append_length]
  · have hys : ys = [] := List.length_eq_zero_iff.1 (by omega)
    rw [hys, List.nil_append, rtake_of_length_le]
    rw [List.length_erase_of_mem h]
    omega

/-- Erasing an older element makes room for the first of the last ones. -/
theorem rtake_erase_of_not_mem {xs : List α} {t b : α} {bs : List α}
    (h : xs.rtake (bs.length + 1) = b :: bs) (ht : t ∉ b :: bs) : (xs.erase t).rtake bs.length = bs := by
  obtain ⟨ys, hys⟩ := exists_append_rtake xs (bs.length + 1)
  rw [h] at hys
  -- The last elements stay the same, whether or not an older one goes.
  by_cases hy : t ∈ ys
  · rw [hys, List.erase_append_left _ hy, List.append_cons, rtake_append_length]
  · have hx : t ∉ xs := by rw [hys]; simp only [List.mem_append, not_or]; exact ⟨hy, ht⟩
    rw [List.erase_of_not_mem hx, hys, List.append_cons, rtake_append_length]

end Lists

/-! ## One set -/

/-- The tag of the block in a slot. -/
def Slot.tag? (s : Slot) : Option Nat := s.line.map (·.tag)

theorem Slot.holds_iff {s : Slot} {t : Nat} : s.holds t = true ↔ s.tag? = some t := by
  cases h : s.line <;> simp [Slot.holds, Slot.tag?, h]

@[simp] theorem Slot.tag?_mark (s : Slot) (kind : AccessKind) : (s.mark kind).tag? = s.tag? := by
  cases kind with
  | read => rfl
  | write => cases h : s.line <;> simp [Slot.mark, Slot.tag?, h]

@[simp] theorem Slot.tag?_fill (s : Slot) (t : Nat) (a : Address) : (s.fill t a).tag? = some t := rfl

namespace CacheSet

/-- A hit moves its slot to the end. -/
theorem slots_touch_of_hit {s : CacheSet} {before after : List Slot} {slot : Slot} {t : Nat}
    (hs : s.slots = before ++ slot :: after) (hb : ∀ x ∈ before, x.holds t = false) (ht : slot.holds t = true)
    (a : Address) (kind : AccessKind) : (s.touch t a kind).slots = before ++ after ++ [slot.mark kind] := by
  have hf : s.slots.find? (·.holds t) = some slot := by
    rw [hs, List.find?_append, List.find?_eq_none.2 (by simpa using hb)]
    simp [ht]
  have he : s.slots.eraseP (·.holds t) = before ++ after := by
    rw [hs, List.eraseP_append_right _ (by simpa using hb), List.eraseP_cons_of_pos (by exact ht)]
  simp only [touch, hf, he]

/-- A miss takes the first slot. -/
theorem slots_touch_of_miss {s : CacheSet} {victim : Slot} {rest : List Slot} {t : Nat}
    (hs : s.slots = victim :: rest) (hm : s.holds t = false) (a : Address) (kind : AccessKind) :
    (s.touch t a kind).slots = rest ++ [(victim.fill t a).mark kind] := by
  have hf : s.slots.find? (·.holds t) = none := by
    rw [List.find?_eq_none]
    simpa [holds] using hm
  simp only [touch, hf]
  simp only [hs]

/-- What a set of `ways` ways holds once the tags `T` were used, each listed
once and in the order of their last uses. -/
structure Recalls (ways : Nat) (T : List Nat) (s : CacheSet) : Prop where
  nodup : T.Nodup
  /-- The slots not needed so far come first; then the latest tags. -/
  slots : ∃ held : List Slot, s.slots = (empty ways).slots.drop T.length ++ held ∧
    held.map Slot.tag? = (T.rtake ways).map some

theorem recalls_empty (ways : Nat) : Recalls ways [] (empty ways) :=
  ⟨List.nodup_nil, [], by simp, by simp⟩

/-- A slot that was not needed so far holds nothing. -/
theorem tag?_of_mem_empty {ways n : Nat} {x : Slot} (h : x ∈ (empty ways).slots.drop n) : x.tag? = none := by
  obtain ⟨w, -, rfl⟩ := List.mem_map.1 (List.mem_of_mem_drop h)
  rfl

theorem length_slots_empty (ways : Nat) : (empty ways).slots.length = ways := by
  simp [empty]

theorem length_lines_empty (ways : Nat) : (empty ways).lines.length = ways := by
  rw [lines, List.length_map, List.length_mergeSort, length_slots_empty]

theorem exists_drop_empty {ways n : Nat} (h : n < ways) :
    ∃ victim, (empty ways).slots.drop n = victim :: (empty ways).slots.drop (n + 1) :=
  ⟨_, List.drop_eq_getElem_cons (by rw [length_slots_empty]; exact h)⟩

namespace Recalls
variable {ways : Nat} {T : List Nat} {s : CacheSet}

/-- Exactly the latest tags are held. -/
theorem holds_iff (h : Recalls ways T s) (t : Nat) : s.holds t = true ↔ t ∈ T.rtake ways := by
  obtain ⟨held, hs, hh⟩ := h.slots
  have hspare : ∀ x ∈ (empty ways).slots.drop T.length, x.holds t = false := by
    intro x hx
    rw [← Bool.not_eq_true, Slot.holds_iff, tag?_of_mem_empty hx]
    simp
  calc s.holds t = true ↔ some t ∈ held.map Slot.tag? := by
        rw [holds, hs, List.any_append, List.any_eq_false.2 (by simpa using hspare), Bool.false_or,
          List.any_eq_true, List.mem_map]
        simp only [Slot.holds_iff]
    _ ↔ t ∈ T.rtake ways := by rw [hh, List.mem_map_of_injective (Option.some_injective _)]

/-- A hit on one of the latest tags moves it to the end. -/
theorem touch_of_hit (h : Recalls (ways + 1) T s) {t : Nat} (ht : t ∈ T.rtake (ways + 1)) (a : Address)
    (kind : AccessKind) : Recalls (ways + 1) (T.erase t ++ [t]) (s.touch t a kind) := by
  have hmem : t ∈ T := List.mem_of_mem_drop ht
  obtain ⟨held, hs, hh⟩ := h.slots
  have hn : (T.rtake (ways + 1)).Nodup := h.nodup.sublist (List.drop_sublist _ _)
  have hlatest := rtake_erase_of_mem h.nodup ht
  -- Split the latest tags at `t`, and with them the slots.
  obtain ⟨us, vs, hu⟩ := List.append_of_mem ht
  rw [hu] at hh hn hlatest
  have htu : t ∉ us := fun hm => List.disjoint_of_nodup_append hn hm List.mem_cons_self
  simp only [List.map_append, List.map_cons] at hh
  obtain ⟨before, held', rfl, hb, hc⟩ := List.map_eq_append_iff.1 hh
  obtain ⟨slot, after, rfl, hslot, ha⟩ := List.map_eq_cons_iff.1 hc
  refine ⟨?_, before ++ after ++ [slot.mark kind], ?_, ?_⟩
  · exact nodup_erase_concat h.nodup t
  · have hlen : (T.erase t ++ [t]).length = T.length := by
      have := List.length_pos_of_mem hmem
      rw [List.length_append, List.length_erase_of_mem hmem, List.length_singleton]
      omega
    rw [← List.append_assoc] at hs
    rw [slots_touch_of_hit hs ?_ (Slot.holds_iff.2 hslot) a kind, hlen]
    · simp only [List.append_assoc]
    · -- The slots before it hold other tags, or none.
      intro x hx
      rw [← Bool.not_eq_true, Slot.holds_iff]
      intro hxt
      rcases List.mem_append.1 hx with hx | hx
      · rw [tag?_of_mem_empty hx] at hxt
        cases hxt
      · have : some t ∈ us.map some := by rw [← hb, ← hxt]; exact List.mem_map_of_mem hx
        exact htu ((List.mem_map_of_injective (Option.some_injective _)).1 this)
  · rw [List.rtake_concat_succ, hlatest, List.erase_append_right _ htu, List.erase_cons_head]
    simp only [List.map_append, hb, ha, List.map_cons, List.map_nil, Slot.tag?_mark, hslot]

/-- A miss drops the oldest of the latest tags, if all ways are in use. -/
theorem touch_of_miss (h : Recalls (ways + 1) T s) {t : Nat} (ht : t ∉ T.rtake (ways + 1)) (a : Address)
    (kind : AccessKind) : Recalls (ways + 1) (T.erase t ++ [t]) (s.touch t a kind) := by
  have hm : s.holds t = false := by rw [← Bool.not_eq_true, h.holds_iff]; exact ht
  obtain ⟨held, hs, hh⟩ := h.slots
  refine ⟨nodup_erase_concat h.nodup t, ?_⟩
  by_cases hlt : T.length < ways + 1
  · -- A slot is left that was not needed so far.
    rw [rtake_of_length_le (by omega)] at ht hh
    rw [List.erase_of_not_mem ht]
    obtain ⟨victim, hdrop⟩ := exists_drop_empty hlt
    rw [hdrop, List.cons_append] at hs
    refine ⟨held ++ [(victim.fill t a).mark kind], ?_, ?_⟩
    · rw [slots_touch_of_miss hs hm a kind, List.length_append, List.length_singleton, List.append_assoc]
    · rw [List.rtake_concat_succ, rtake_of_length_le (by omega)]
      simp [hh]
  · -- All ways are in use, and the first of them is given up.
    have hspare : (empty (ways + 1)).slots.drop T.length = [] :=
      List.drop_eq_nil_of_le (by rw [length_slots_empty]; omega)
    rw [hspare, List.nil_append] at hs
    have hlen := length_rtake T (ways + 1)
    cases hr : T.rtake (ways + 1) with
    | nil => rw [hr, List.length_nil] at hlen; omega
    | cons b bs =>
      rw [hr] at hh ht hlen
      obtain rfl : ways = bs.length := by rw [List.length_cons] at hlen; omega
      obtain ⟨victim, rest, rfl, -, hrest⟩ := List.map_eq_cons_iff.1 hh
      refine ⟨rest ++ [(victim.fill t a).mark kind], ?_, ?_⟩
      · rw [slots_touch_of_miss hs hm a kind, List.drop_eq_nil_of_le, List.nil_append]
        rw [length_slots_empty, List.length_append, List.length_singleton]
        have := List.le_length_erase (a := t) (l := T)
        omega
      · rw [List.rtake_concat_succ, rtake_erase_of_not_mem hr ht]
        simp [hrest]

/-- An access makes its tag the last one. -/
theorem touch (hw : 0 < ways) (h : Recalls ways T s) (t : Nat) (a : Address) (kind : AccessKind) :
    Recalls ways (T.erase t ++ [t]) (s.touch t a kind) := by
  obtain ⟨n, rfl⟩ := Nat.exists_eq_add_one.2 hw
  by_cases ht : t ∈ T.rtake (n + 1)
  · exact h.touch_of_hit ht a kind
  · exact h.touch_of_miss ht a kind

end Recalls
end CacheSet

/-! ## A whole cache -/

/-- The tags accessed in a set, each listed once and in the order of their last
uses. -/
def lastUses (ls : List Location) (set : Nat) : List Nat :=
  ((ls.filter fun l => l.set = set).map (·.tag)).dedup

namespace Cache

/-- Every set recalls what was accessed in it, when these locations were. -/
def Recalls (c : Cache) (ls : List Location) : Prop :=
  ∀ (i : Nat) (s : CacheSet), c.sets[i]? = some s → s.Recalls c.shape.ways (lastUses ls i)

theorem recalls_empty (shape : Shape) : (empty shape).Recalls [] := by
  intro i s hs
  obtain ⟨-, rfl⟩ := Array.getElem?_eq_some_iff.1 hs
  simpa [empty, lastUses] using CacheSet.recalls_empty shape.ways

namespace Recalls
variable {c : Cache} {ls : List Location}

theorem touchAt (hw : 0 < c.shape.ways) (h : c.Recalls ls) (l : Location) (a : Address) (kind : AccessKind) :
    (c.touchAt l a kind).Recalls (ls ++ [l]) := by
  intro i s hs
  rw [getElem?_sets_touchAt] at hs
  rw [lastUses, List.filter_append, List.map_append]
  split at hs
  · next hi =>
    subst hi
    obtain ⟨s, hs', rfl⟩ := Option.map_eq_some_iff.1 hs
    simpa [dedup_concat, lastUses] using (h _ s hs').touch hw l.tag a kind
  · next hi => simpa [hi, lastUses] using h i s hs

/-- An access hits exactly when its tag is among the latest ones of its set, as
many as there are ways. -/
theorem holdsAt_iff (h : c.Recalls ls) {l : Location} (hl : l.set < c.shape.sets) :
    c.holdsAt l = true ↔ l.tag ∈ (lastUses ls l.set).rtake c.shape.ways := by
  rw [← c.sets_size] at hl
  have hs := Array.getElem?_eq_getElem hl
  rw [holdsAt, hs]
  exact (h _ _ hs).holds_iff l.tag

end Recalls
end Cache

end LastLevel
