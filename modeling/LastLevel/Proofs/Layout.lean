import LastLevel.Attempt
import LastLevel.Proofs.Recency
import Mathlib.Data.List.Pairwise
/-!
# No access to a set gets stuck

A set is `Sound` when its slots are its ways, each once, and no tag is held
twice. An access keeps this, and it is all that the lookups of an access need:
the way that holds a tag is the one found first, it stands in the order of use,
and the order names a way to give up. Main statement: `CacheSet.attempt_eq` (on a
sound set with ways, the lookups one after the other come to the same as
`touch`).
-/

namespace LastLevel

namespace CacheSet

/-- Where the slot that is used moves to the end, the slots are the same. -/
theorem perm_move_last (x : Slot) (before after : List Slot) : (before ++ x :: after).Perm (before ++ after ++ [x]) :=
  List.perm_middle.trans (List.perm_append_singleton x _).symm

/-- Each way stands in the order of use once, and no tag is held twice. -/
structure Sound (ways : Nat) (s : CacheSet) : Prop where
  order : s.order.Perm (List.range ways)
  tags : (s.slots.filterMap Slot.tag?).Nodup

theorem sound_empty (ways : Nat) : (empty ways).Sound ways := by
  constructor
  · rw [order, empty, List.map_map]
    exact .of_eq (List.map_id _)
  · have hnone : (empty ways).slots.filterMap Slot.tag? = [] := by
      rw [List.filterMap_eq_nil_iff]
      exact fun x hx => tag?_of_mem_empty (n := 0) hx
    rw [hnone]
    exact List.nodup_nil

/-- A set that holds a tag, cut at the first slot with it. -/
theorem exists_slot_of_holds {s : CacheSet} {tag : Nat} (h : s.holds tag = true) :
    ∃ before slot after, s.slots = before ++ slot :: after ∧ (∀ x ∈ before, x.holds tag = false) ∧
      slot.holds tag = true := by
  obtain ⟨slot, hf⟩ := List.find?_isSome.2 (List.any_eq_true.1 h) |> Option.isSome_iff_exists.1
  obtain ⟨hs, before, after, he, hb⟩ := List.find?_eq_some_iff_append.1 hf
  exact ⟨before, slot, after, he, fun x hx => by simpa using hb x hx, hs⟩

namespace Sound
variable {ways : Nat} {s : CacheSet}

theorem exists_victim (h : s.Sound ways) (hw : 0 < ways) : ∃ victim rest, s.slots = victim :: rest := by
  cases hs : s.slots with
  | nil =>
    have hlen : s.slots.length = ways := by simpa [CacheSet.order] using h.order.length_eq
    rw [hs, List.length_nil] at hlen
    omega
  | cons victim rest => exact ⟨victim, rest, rfl⟩

theorem touch (h : s.Sound ways) (tag : Nat) (a : Address) (kind : AccessKind) : (s.touch tag a kind).Sound ways := by
  refine ⟨(order_touch_perm s tag a kind).trans h.order, ?_⟩
  have htags := h.tags
  cases hh : s.holds tag with
  | true =>
    -- The tags stay the same, in another order.
    obtain ⟨before, slot, after, hs, hb, ht⟩ := exists_slot_of_holds hh
    rw [slots_touch_of_hit hs hb ht]
    rw [hs] at htags
    rw [((perm_move_last slot before after).filterMap _).nodup_iff] at htags
    simpa only [List.filterMap_append, List.filterMap_cons, Slot.tag?_mark] using htags
  | false =>
    cases hs : s.slots with
    | nil => simp [CacheSet.touch, hs]
    | cons victim rest =>
      -- The new tag is not among those that stay.
      rw [slots_touch_of_miss hs hh]
      have hnew : tag ∉ rest.filterMap Slot.tag? := by
        rw [List.mem_filterMap]
        rintro ⟨x, hx, ht⟩
        have hm : s.holds tag = true :=
          List.any_eq_true.2 ⟨x, hs ▸ List.mem_cons_of_mem _ hx, Slot.holds_iff.2 ht⟩
        rw [hm] at hh
        cases hh
      rw [hs] at htags
      have hrest : (rest.filterMap Slot.tag?).Nodup := htags.sublist ((List.sublist_cons_self _ _).filterMap _)
      rw [List.filterMap_append, List.filterMap_cons, Slot.tag?_mark, Slot.tag?_fill, List.filterMap_nil,
        List.nodup_append]
      refine ⟨hrest, List.nodup_singleton _, ?_⟩
      rintro t ht u hu rfl
      exact hnew (List.mem_singleton.1 hu ▸ ht)

/-- Only one slot holds a tag. -/
theorem eq_of_holds (h : s.Sound ways) {x y : Slot} (hx : x ∈ s.slots) (hy : y ∈ s.slots) {tag : Nat}
    (hxt : x.holds tag = true) (hyt : y.holds tag = true) : x = y := by
  by_contra hne
  have hp := List.pairwise_filterMap.1 h.tags
  have : Std.Symm fun x y : Slot => ∀ t, x.tag? = some t → ∀ u, y.tag? = some u → t ≠ u :=
    ⟨fun x y hxy t ht u hu => (hxy u hu t ht).symm⟩
  exact hp.forall hx hy hne tag (Slot.holds_iff.1 hxt) tag (Slot.holds_iff.1 hyt) rfl

/-- Only one slot is a way's. -/
theorem nodup_order (h : s.Sound ways) : s.order.Nodup := h.order.nodup_iff.2 List.nodup_range

/-- In the order of the ways, each slot stands at its way. -/
theorem order_mergeSort (h : s.Sound ways) :
    (s.slots.mergeSort fun x y => x.way ≤ y.way).map (·.way) = List.range ways := by
  have hsorted : ((s.slots.mergeSort fun x y => x.way ≤ y.way).map (·.way)).Pairwise (· ≤ ·) := by
    rw [List.pairwise_map]
    refine (List.pairwise_mergeSort (fun x y z => ?_) (fun x y => ?_) s.slots).imp fun {x y} hxy => by simpa using hxy
    · simp only [decide_eq_true_eq]
      omega
    · simp only [Bool.or_eq_true, decide_eq_true_eq]
      omega
  refine List.Perm.eq_of_pairwise (fun x y _ _ => Nat.le_antisymm) hsorted List.pairwise_le_range ?_
  exact ((List.mergeSort_perm _ _).map _).trans h.order

/-- Every way has a slot. -/
theorem exists_slot (h : s.Sound ways) {way : Nat} (hw : way < ways) : ∃ x ∈ s.slots, x.way = way :=
  List.mem_map.1 (h.order.mem_iff.2 (List.mem_range.2 hw))

theorem length_lines (h : s.Sound ways) : s.lines.length = ways := by
  simpa [lines] using congrArg List.length h.order_mergeSort

/-- What a way holds is what its slot holds. -/
theorem getElem?_lines (h : s.Sound ways) {x : Slot} (hx : x ∈ s.slots) : s.lines[x.way]? = some x.line := by
  obtain ⟨i, hi⟩ := List.mem_iff_getElem?.1 ((List.mergeSort_perm s.slots fun x y => x.way ≤ y.way).mem_iff.2 hx)
  have hway := congrArg (fun ways => ways[i]?) h.order_mergeSort
  simp only [List.getElem?_map, hi, Option.map_some] at hway
  obtain ⟨hlt, he⟩ := List.getElem?_eq_some_iff.1 hway.symm
  rw [List.getElem_range] at he
  rw [lines, List.getElem?_map, ← he, hi, Option.map_some]

end Sound
end CacheSet

/-! ## Layouts -/

namespace Layout

/-- The order of use is that of the slots, and each way holds what its slot
holds. -/
structure Shows (w : Layout) (slots : List Slot) : Prop where
  order : w.order = slots.map (·.way)
  nodup : w.order.Nodup
  line : ∀ x ∈ slots, w.lines[x.way]? = some x.line

namespace Shows
variable {w : Layout} {before after : List Slot} {x : Slot}

theorem toSet_eq {slots : List Slot} (h : w.Shows slots) : w.toSet = ⟨slots⟩ := by
  rw [toSet, h.order, List.map_map]
  congr 1
  conv => rhs; rw [← List.map_id slots]
  refine List.map_congr_left fun x hx => ?_
  simp [h.line x hx]

theorem lookup_eq (h : w.Shows (before ++ x :: after)) : lookup w.lines x.way = .ok x.line :=
  Attempt.lookup_of_some (h.line x (by simp))

theorem victim (h : w.Shows (x :: after)) : victim w = .ok x.way w := by
  obtain ⟨hlt, -⟩ := Array.getElem?_eq_some_iff.1 (h.line x List.mem_cons_self)
  rw [Layout.victim, Attempt.get_bind, h.order, List.map_cons]
  simp only [if_pos hlt]
  rfl

theorem position (h : w.Shows (before ++ x :: after)) : position x.way w = .ok before.length w := by
  have hn := h.nodup
  rw [h.order, List.map_append, List.map_cons] at hn
  have hb : x.way ∉ before.map (·.way) := fun hm => List.disjoint_of_nodup_append hn hm List.mem_cons_self
  have hi : w.order.idxOf? x.way = some before.length := by
    rw [h.order, List.map_append, List.map_cons, List.idxOf?_eq_some_iff]
    refine ⟨by simp, by simp, fun j hj he => hb ?_⟩
    rw [List.getElem_append_left (by simpa using hj)] at he
    exact he ▸ List.getElem_mem _
  rw [Layout.position, Attempt.get_bind, hi]
  rfl

/-- What is put into a way shows in its slot. -/
theorem update (h : w.Shows (before ++ x :: after)) (f : Option Line → Option Line) :
    ∃ w', update x.way f w = .ok () w' ∧ w'.Shows (before ++ { x with line := f x.line } :: after) := by
  refine ⟨_, Attempt.within_of_ok h.lookup_eq rfl, ?_, h.nodup, fun y hy => ?_⟩
  · simpa using h.order
  · have hn := h.nodup
    rw [h.order, List.map_append, List.map_cons] at hn
    rw [Array.getElem?_modify]
    rcases List.mem_append.1 hy with hy | hy
    · -- The slots before it have other ways, and so have those after it.
      have hne : x.way ≠ y.way := fun he =>
        List.disjoint_of_nodup_append hn (List.mem_map_of_mem hy) (he ▸ List.mem_cons_self)
      rw [if_neg hne, h.line y (List.mem_append_left _ hy)]
    · rcases List.mem_cons.1 hy with rfl | hy
      · rw [if_pos rfl, h.line x (by simp)]
        rfl
      · have hne : x.way ≠ y.way := fun he =>
          (List.nodup_cons.1 (List.nodup_append.1 hn).2.1).1 (he ▸ List.mem_map_of_mem hy)
        rw [if_neg hne, h.line y (by simp [hy])]

theorem mark (h : w.Shows (before ++ x :: after)) (kind : AccessKind) :
    ∃ w', mark x.way kind w = .ok () w' ∧ w'.Shows (before ++ x.mark kind :: after) := by
  cases kind with
  | read => exact ⟨w, rfl, h⟩
  | write => exact h.update _

theorem bringIn (h : w.Shows (x :: after)) (tag : Nat) (a : Address) :
    ∃ w', bringIn x.way tag a w = .ok () w' ∧ w'.Shows (x.fill tag a :: after) := by
  have hfirst : w.Shows ([] ++ x :: after) := h
  obtain ⟨w₁, h₁, hs₁⟩ := hfirst.update fun _ => none
  obtain ⟨w₂, h₂, hs₂⟩ := hs₁.update fun _ => some { tag, address := a, dirty := false }
  have hevict : evict w = .ok x.way w₁ := by
    rw [evict, Attempt.bind_of_ok h.victim, Attempt.bind_of_ok h₁]
    rfl
  exact ⟨w₂, by rw [Layout.bringIn, Attempt.bind_of_ok hevict]; exact h₂, hs₂⟩

/-- The slot of the way that is used goes to the end. -/
theorem promote (h : w.Shows (before ++ x :: after)) :
    ∃ w', promote before.length w = .ok () w' ∧ w'.Shows (before ++ after ++ [x]) := by
  have horder := h.order
  rw [List.map_append, List.map_cons] at horder
  have hlt : before.length < w.order.length := by simp [horder]
  have hmove : w.order.take before.length ++ (w.order.drop before.length).rotateLeft 1 =
      (before ++ after ++ [x]).map (·.way) := by
    have hlen : before.length = (before.map (·.way)).length := by simp
    rw [horder, hlen, List.take_left, List.drop_left]
    cases after <;> simp [List.rotateLeft]
  refine ⟨{ w with order := (before ++ after ++ [x]).map (·.way) }, ?_, rfl, ?_, fun y hy => h.line y ?_⟩
  · rw [Layout.promote, Attempt.get_bind, if_pos hlt, hmove]
    rfl
  · have hn := h.nodup
    rw [h.order] at hn
    exact ((CacheSet.perm_move_last x before after).map _).nodup_iff.1 hn
  · simp only [List.mem_append, List.mem_cons, List.not_mem_nil, or_false] at hy ⊢
    tauto

/-- An access to a block that is found moves its slot to the end. -/
theorem access_of_find? (h : w.Shows (before ++ x :: after)) {tag : Nat} (hf : w.find? tag = some x.way) (a : Address)
    (kind : AccessKind) :
    ∃ w', access tag a kind w = .ok true w' ∧ w'.Shows (before ++ after ++ [x.mark kind]) := by
  obtain ⟨w₁, h₁, hs₁⟩ := h.mark kind
  obtain ⟨w₂, h₂, hs₂⟩ := hs₁.promote
  have htarget : target tag w = .ok x.way w := by
    rw [target, Attempt.get_bind, hf]
    rfl
  refine ⟨w₂, ?_, hs₂⟩
  rw [access, Attempt.get_bind, Attempt.bind_of_ok htarget, Attempt.bind_of_ok h.position]
  simp only [hf, Option.isSome_some, if_true]
  rw [Attempt.bind_of_ok h₁, Attempt.bind_of_ok h₂]
  rfl

/-- An access to a block that is not found takes the first slot for it. -/
theorem access_of_not_find? (h : w.Shows (x :: after)) {tag : Nat} (hf : w.find? tag = none) (a : Address)
    (kind : AccessKind) :
    ∃ w', access tag a kind w = .ok false w' ∧ w'.Shows (after ++ [(x.fill tag a).mark kind]) := by
  have hfirst : w.Shows ([] ++ x :: after) := h
  obtain ⟨w₁, h₁, hs₁⟩ := h.bringIn tag a
  have hfilled : w₁.Shows ([] ++ x.fill tag a :: after) := hs₁
  obtain ⟨w₂, h₂, hs₂⟩ := hfilled.mark kind
  rw [CacheSet.way_fill] at h₂
  obtain ⟨w₃, h₃, hs₃⟩ := hs₂.promote
  have htarget : target tag w = .ok x.way w := by
    rw [target, Attempt.get_bind, hf]
    exact h.victim
  refine ⟨w₃, ?_, hs₃⟩
  rw [access, Attempt.get_bind, Attempt.bind_of_ok htarget, Attempt.bind_of_ok hfirst.position]
  simp only [hf, Option.isSome_none, Bool.false_eq_true, if_false]
  rw [Attempt.bind_of_ok h₁, Attempt.bind_of_ok h₂, Attempt.bind_of_ok h₃]
  rfl

end Shows
end Layout

/-! ## Sets laid out -/

namespace CacheSet

theorem layout_shows {ways : Nat} {s : CacheSet} (h : s.Sound ways) : s.layout.Shows s.slots where
  order := rfl
  nodup := h.nodup_order
  line x hx := by simpa [layout] using h.getElem?_lines hx

theorem attempt_of_shows {s : CacheSet} {tag : Nat} {a : Address} {kind : AccessKind} {hit : Bool} {w : Layout}
    {slots : List Slot} (hw : Layout.access tag a kind s.layout = .ok hit w) (hs : w.Shows slots) :
    attempt tag a kind s = .ok hit ⟨slots⟩ := by
  rw [← hs.toSet_eq]
  exact Attempt.within_of_ok rfl hw

theorem any_line (x : Slot) (tag : Nat) : (x.line.any fun l => l.tag == tag) = x.holds tag := by
  cases h : x.line <;> simp [Slot.holds, h]

/-- The way found first is that of the slot that holds the tag. -/
theorem find?_layout {ways : Nat} {s : CacheSet} (h : s.Sound ways) {x : Slot} (hx : x ∈ s.slots) {tag : Nat}
    (ht : x.holds tag = true) : s.layout.find? tag = some x.way := by
  obtain ⟨hlt, hline⟩ := List.getElem?_eq_some_iff.1 (h.getElem?_lines hx)
  rw [Layout.find?, layout, List.findIdx?_toArray, List.findIdx?_eq_some_iff_getElem]
  refine ⟨hlt, by rw [hline, any_line, ht], fun i hi ht' => ?_⟩
  -- An earlier way that holds the tag has a slot of its own.
  obtain ⟨y, hy, rfl⟩ := h.exists_slot (Nat.lt_trans hi (h.length_lines ▸ hlt))
  obtain ⟨_, hline'⟩ := List.getElem?_eq_some_iff.1 (h.getElem?_lines hy)
  rw [hline', any_line] at ht'
  rw [h.eq_of_holds hx hy ht ht'] at hi
  exact Nat.lt_irrefl _ hi

theorem find?_layout_eq_none {s : CacheSet} {tag : Nat} (hm : s.holds tag = false) : s.layout.find? tag = none := by
  rw [Layout.find?, layout, List.findIdx?_toArray, List.findIdx?_eq_none_iff]
  intro l hl
  obtain ⟨x, hx, rfl⟩ := List.mem_map.1 hl
  have hnot := List.any_eq_false.1 hm x ((List.mergeSort_perm _ _).mem_iff.1 hx)
  rw [any_line]
  simpa using hnot

/-- The lookups of an access find what they look for, and come to the same as
`touch`. -/
theorem attempt_eq {ways : Nat} {s : CacheSet} (hw : 0 < ways) (h : s.Sound ways) (tag : Nat) (a : Address)
    (kind : AccessKind) : attempt tag a kind s = .ok (s.holds tag) (s.touch tag a kind) := by
  have hshow := layout_shows h
  cases hh : s.holds tag with
  | true =>
    obtain ⟨before, slot, after, hs, hb, ht⟩ := exists_slot_of_holds hh
    have hf := find?_layout h (hs ▸ List.mem_append_right _ List.mem_cons_self) ht
    rw [hs] at hshow
    obtain ⟨w, hw, hshow⟩ := hshow.access_of_find? hf a kind
    rw [← slots_touch_of_hit hs hb ht a kind] at hshow
    exact attempt_of_shows hw hshow
  | false =>
    obtain ⟨victim, rest, hs⟩ := h.exists_victim hw
    rw [hs] at hshow
    obtain ⟨w, hw, hshow⟩ := hshow.access_of_not_find? (find?_layout_eq_none hh) a kind
    rw [← slots_touch_of_miss hs hh a kind] at hshow
    exact attempt_of_shows hw hshow

end CacheSet

end LastLevel
