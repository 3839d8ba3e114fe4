import LastLevel.Proofs.Faults
import Mathlib.Data.List.Perm.Subperm
/-!
# What is in a set

Any sequence of accesses to locations, existing or not, leaves a cache of which
everything can be told from the sequence. The order of use and the tags of a set
only depend on the order in which its tags were last used: `Layout.Retains` says
which ways are still unused, and what the others hold. What is kept besides the
tag, the address and whether the block was written, only depends on the accesses
since the block came in: `Line.ComesFrom`. Main statements:
`Cache.sets_retain_latest_tags` and `Cache.lines_come_from_last_miss`.
-/

namespace LastLevel

/-! ## Lines -/

namespace Line

/-- A write makes the block dirty. -/
def mark (l : Line) : AccessKind → Line
  | .read => l
  | .write => { l with dirty := true }

@[simp] theorem tag_mark (l : Line) (kind : AccessKind) : (l.mark kind).tag = l.tag := by cases kind <;> rfl

@[simp] theorem address_mark (l : Line) (kind : AccessKind) : (l.mark kind).address = l.address := by
  cases kind <;> rfl

theorem dirty_mark (l : Line) (kind : AccessKind) : (l.mark kind).dirty = true ↔ l.dirty = true ∨ kind = .write := by
  cases kind <;> simp [mark]

end Line

theorem Slot.line_mark (x : Slot) (kind : AccessKind) : (x.mark kind).line = x.line.map (·.mark kind) := by
  cases kind with
  | read => exact (Option.map_id' ..).symm
  | write => rfl

theorem Slot.holds_of_line {x : Slot} {l : Line} (h : x.line = some l) : x.holds l.tag = true :=
  Slot.holds_iff.2 (congrArg (Option.map Line.tag) h)

theorem Slot.exists_line_of_holds {x : Slot} {tag : Nat} (h : x.holds tag = true) :
    ∃ l, x.line = some l ∧ l.tag = tag :=
  Option.map_eq_some_iff.1 (Slot.holds_iff.1 h)

/-- What a way holds. -/
def Layout.line? (w : Layout) (way : Nat) : Option Line := w.lines[way]?.join

/-! ## One set -/

/-- There are no more ways to leave out than there are. -/
theorem drop_range_min (ways n : Nat) : (List.range ways).drop (min ways n) = (List.range ways).drop n := by
  rw [List.drop_eq_drop_iff, List.length_range]
  omega

theorem rtake_min_length {α : Type} (xs : List α) (n : Nat) : xs.rtake (min n xs.length) = xs.rtake n := by
  have hlen : xs.length - min n xs.length = xs.length - n := by omega
  rw [List.rtake, hlen, List.rtake]

/-- What a set of `ways` ways looks like once the tags `T` were used, each listed
once and in the order of their last uses. -/
structure Layout.Retains (ways : Nat) (T : List Nat) (w : Layout) : Prop where
  lines : w.lines.size = ways
  order : w.order.Perm (List.range ways)
  /-- The ways are taken in increasing order, and the unused ones come first. -/
  unused : w.order.take (ways - min ways T.length) = (List.range ways).drop (min ways T.length)
  /-- An unused way holds nothing, and every other way holds a block. -/
  invalid : ∀ way < ways, w.line? way = none ↔ min ways T.length ≤ way
  /-- In the order of use, the others hold the latest tags. -/
  latest : (w.order.drop (ways - min ways T.length)).map (fun way => (w.line? way).map (·.tag)) =
    (T.rtake (min ways T.length)).map some
  /-- No tag is held twice. -/
  apart : ∀ (v v' : Nat) (l l' : Line), w.line? v = some l → w.line? v' = some l' → l.tag = l'.tag → v = v'

namespace CacheSet

/-- The slots that are not needed for `n` tags. -/
theorem mem_drop_empty {ways n : Nat} {x : Slot} :
    x ∈ (empty ways).slots.drop n ↔ n ≤ x.way ∧ x.way < ways ∧ x.line = none := by
  obtain ⟨way, line⟩ := x
  simp only [empty, List.range_eq_range', ← List.map_drop, List.drop_range', List.mem_map, List.mem_range'_1,
    Slot.mk.injEq]
  constructor
  · rintro ⟨_, ⟨hn, hw⟩, rfl, rfl⟩
    exact ⟨by omega, by omega, rfl⟩
  · rintro ⟨hn, hw, rfl⟩
    exact ⟨way, ⟨by omega, by omega⟩, rfl, rfl⟩

section Sound
variable {ways : Nat} {s : CacheSet} (h : s.Sound ways)
include h

theorem Sound.line?_way {x : Slot} (hx : x ∈ s.slots) : s.layout.line? x.way = x.line := by
  rw [Layout.line?, (layout_shows h).line x hx]
  rfl

theorem Sound.exists_slot_of_line? {way : Nat} {l : Line} (hl : s.layout.line? way = some l) :
    ∃ x ∈ s.slots, x.way = way ∧ x.line = some l := by
  have hlt : way < ways := by
    rw [Layout.line?, Option.join_eq_some_iff] at hl
    simpa [layout, h.length_lines] using (Array.getElem?_eq_some_iff.1 hl).1
  obtain ⟨x, hx, rfl⟩ := h.exists_slot hlt
  exact ⟨x, hx, rfl, (h.line?_way hx).symm.trans hl⟩

theorem Sound.nodup_slots : s.slots.Nodup := List.Nodup.of_map _ h.nodup_order

/-- After an access, a slot is as before and does not hold what was accessed, or
it held it, or it was filled with it. -/
theorem Sound.mem_slots_touch {tag : Nat} {a : Address} {kind : AccessKind} {y : Slot}
    (hy : y ∈ (s.touch tag a kind).slots) :
    (y.holds tag = false ∧ y ∈ s.slots) ∨
    (s.holds tag = true ∧ ∃ x ∈ s.slots, x.holds tag = true ∧ y = x.mark kind) ∨
    (s.holds tag = false ∧ ∃ x ∈ s.slots, y = (x.fill tag a).mark kind) := by
  cases hh : s.holds tag with
  | true =>
    obtain ⟨before, slot, after, hs, hb, ht⟩ := exists_slot_of_holds hh
    have hslot : slot ∈ s.slots := hs ▸ List.mem_append_right _ List.mem_cons_self
    rw [slots_touch_of_hit hs hb ht, List.mem_append, List.mem_append, List.mem_singleton] at hy
    rcases hy with (hy | hy) | rfl
    · exact .inl ⟨hb y hy, hs ▸ List.mem_append_left _ hy⟩
    · have hmem : y ∈ s.slots := hs ▸ List.mem_append_right _ (List.mem_cons_of_mem _ hy)
      refine .inl ⟨?_, hmem⟩
      by_contra hyt
      -- The tag would be held twice.
      obtain rfl := h.eq_of_holds hslot hmem ht (by simpa using hyt)
      have hn := h.nodup_slots
      rw [hs] at hn
      exact (List.nodup_cons.1 (List.nodup_append.1 hn).2.1).1 hy
    · exact .inr (.inl ⟨rfl, slot, hslot, ht, rfl⟩)
  | false =>
    cases hs : s.slots with
    | nil => simp [CacheSet.touch, hs] at hy
    | cons victim rest =>
      rw [slots_touch_of_miss hs hh, List.mem_append, List.mem_singleton] at hy
      rcases hy with hy | rfl
      · have hmem : y ∈ s.slots := hs ▸ List.mem_cons_of_mem _ hy
        exact .inl ⟨by simpa using List.any_eq_false.1 hh y hmem, hs ▸ hmem⟩
      · exact .inr (.inr ⟨rfl, victim, List.mem_cons_self, rfl⟩)

/-! ### Unused ways and latest tags -/

variable {T : List Nat} (hr : s.Recalls ways T)
include hr

/-- The order of use: first the ways that are not needed so far, then those of
the latest tags. -/
theorem Sound.exists_order : ∃ held : List Slot,
    s.order = (List.range ways).drop (min ways T.length) ++ held.map (·.way) ∧
    held.map (fun x => (s.layout.line? x.way).map (·.tag)) = (T.rtake (min ways T.length)).map some := by
  obtain ⟨held, hs, hh⟩ := hr.slots
  refine ⟨held, ?_, ?_⟩
  · have hempty : (empty ways).slots.map (·.way) = List.range ways := (List.map_map ..).trans (List.map_id _)
    rw [CacheSet.order, hs, List.map_append, List.map_drop, hempty, drop_range_min]
  · rw [rtake_min_length, ← hh]
    refine List.map_congr_left fun x hx => ?_
    rw [h.line?_way (hs ▸ List.mem_append_right _ hx), Slot.tag?]

theorem Sound.line?_eq_none_iff {way : Nat} (hw : way < ways) :
    s.layout.line? way = none ↔ min ways T.length ≤ way := by
  obtain ⟨held, hs, hh⟩ := hr.slots
  obtain ⟨x, hx, rfl⟩ := h.exists_slot hw
  rw [h.line?_way hx]
  constructor
  · -- A slot that holds nothing is not needed so far.
    intro hnone
    rcases List.mem_append.1 (hs ▸ hx) with hspare | hheld
    · exact Nat.le_trans (Nat.min_le_right _ _) (mem_drop_empty.1 hspare).1
    · have htag : x.tag? ∈ (T.rtake ways).map some := hh ▸ List.mem_map_of_mem hheld
      obtain ⟨t, -, ht⟩ := List.mem_map.1 htag
      rw [Slot.tag?, hnone] at ht
      cases ht
  · -- The slot of a way that is not needed so far is still the first one.
    intro hle
    have hunused : T.length ≤ x.way := by omega
    have hspare : (⟨x.way, none⟩ : Slot) ∈ s.slots :=
      hs ▸ List.mem_append_left _ (mem_drop_empty.2 ⟨hunused, hw, rfl⟩)
    rw [List.inj_on_of_nodup_map h.nodup_order hx hspare rfl]

/-- What a sound set that recalls its tags looks like. -/
theorem Sound.retains : s.layout.Retains ways T := by
  obtain ⟨held, ho, hh⟩ := h.exists_order hr
  have hlen : ((List.range ways).drop (min ways T.length)).length = ways - min ways T.length := by simp
  refine ⟨by simp [layout, h.length_lines], h.order, ?_, fun way hw => h.line?_eq_none_iff hr hw, ?_, ?_⟩
  · show s.order.take _ = _
    rw [ho, ← hlen, List.take_left]
  · show (s.order.drop _).map _ = _
    rw [ho, ← hlen, List.drop_left, List.map_map]
    exact hh
  · intro v v' l l' hv hv' htag
    obtain ⟨x, hx, rfl, hl⟩ := h.exists_slot_of_line? hv
    obtain ⟨y, hy, rfl, hl'⟩ := h.exists_slot_of_line? hv'
    rw [h.eq_of_holds hx hy (Slot.holds_of_line hl) (htag ▸ Slot.holds_of_line hl')]

end Sound

end CacheSet

/-! ## Probes of a cache -/

/-- More accesses use more tags. -/
theorem length_lastUses_le {ls ms : List Location} (h : ls ⊆ ms) (set : Nat) :
    (lastUses ls set).length ≤ (lastUses ms set).length := by
  refine (List.Nodup.subperm (List.nodup_dedup _) fun t ht => ?_).length_le
  simp only [lastUses, List.mem_dedup, List.mem_map, List.mem_filter] at ht ⊢
  obtain ⟨l, ⟨hl, hset⟩, rfl⟩ := ht
  exact ⟨l, ⟨h hl, hset⟩, rfl⟩

namespace Cache
variable {c : Cache} {x : Probe}

/-- Accesses a location, whether it exists or not. -/
def probe (c : Cache) (x : Probe) : Except Fault Bool × Cache :=
  Attempt.settle (attemptAt x.location x.address x.kind c)

/-- What a way of a set holds. -/
def line? (c : Cache) (set way : Nat) : Option Line := c.sets[set]?.bind fun s => s.layout.line? way

theorem probe_of_lt (h : c.Sound) (hx : x.location.set < c.sets.size) :
    c.probe x = (.ok (c.holdsAt x.location), c.touchAt x.location x.address x.kind) := by
  rw [probe, attemptAt_of_lt h hx, Attempt.settle]

theorem probe_of_le (hx : c.sets.size ≤ x.location.set) :
    c.probe x = (.error (.set { set := x.location.set, sets := c.sets.size }), c) := by
  rw [probe, attemptAt_of_le hx, Attempt.settle]

/-- A probe changes the set it names and no other. -/
theorem getElem?_sets_probe_of_ne (h : c.Sound) {i : Nat} (hi : x.location.set ≠ i) :
    (c.probe x).2.sets[i]? = c.sets[i]? := by
  rcases Nat.lt_or_ge x.location.set c.sets.size with hx | hx
  · rw [probe_of_lt h hx, getElem?_sets_touchAt, if_neg hi]
  · rw [probe_of_le hx]

theorem shape_probe (h : c.Sound) (x : Probe) : (c.probe x).2.shape = c.shape := by
  rcases Nat.lt_or_ge x.location.set c.sets.size with hx | hx
  · rw [probe_of_lt h hx, shape_touchAt]
  · rw [probe_of_le hx]

/-- A probe of a set that does not exist is not recalled by those that do. -/
theorem Recalls.probe (h : c.Sound) {ls : List Location} (hr : c.Recalls ls) (x : Probe) :
    (c.probe x).2.Recalls (ls ++ [x.location]) := by
  rcases Nat.lt_or_ge x.location.set c.sets.size with hx | hx
  · rw [probe_of_lt h hx]
    exact hr.touchAt h.ways x.location x.address x.kind
  · rw [probe_of_le hx]
    intro i s hs
    have hi : x.location.set ≠ i := by
      rintro rfl
      exact absurd (Array.getElem?_eq_some_iff.1 hs).1 (Nat.not_lt.2 hx)
    simpa [lastUses, hi] using hr i s hs

/-- What can be said of a cache after some probes: it is sound, and recalls the
locations that were probed. -/
theorem final_probe {shape : Shape} (hw : 0 < shape.ways) (xs : List Probe) :
    let now := Run.final Cache.probe (empty shape) xs
    now.shape = shape ∧ now.Sound ∧ now.Recalls (xs.map (·.location)) := by
  induction xs using List.reverseRecOn with
  | nil => exact ⟨rfl, sound_empty hw, recalls_empty shape⟩
  | append_singleton xs x ih =>
    obtain ⟨hshape, hs, hr⟩ := ih
    rw [Run.final_append, List.map_append]
    exact ⟨(shape_probe hs x).trans hshape, (hs.attemptAt x.location x.address x.kind).1, hr.probe hs x⟩

/-- Every set retains what was probed in it. -/
theorem retains_final {shape : Shape} (hw : 0 < shape.ways) (xs : List Probe) {i : Nat} (hi : i < shape.sets) :
    ∃ s, (Run.final Cache.probe (empty shape) xs).sets[i]? = some s ∧
      s.layout.Retains shape.ways (lastUses (xs.map (·.location)) i) := by
  obtain ⟨hshape, hs, hr⟩ := final_probe hw xs
  generalize Run.final Cache.probe (empty shape) xs = now at *
  subst hshape
  have hlt : i < now.sets.size := Nat.lt_of_lt_of_eq hi now.sets_size.symm
  have hset : now.sets[i]? = some now.sets[i] := Array.getElem?_eq_getElem hlt
  exact ⟨_, hset, (hs.sets i _ hset).retains (hr i _ hset)⟩

/-- The ways in use are the first ones, as many as there are tags for. -/
theorem isSome_line?_final {shape : Shape} (hw : 0 < shape.ways) (xs : List Probe) (i way : Nat) :
    ((Run.final Cache.probe (empty shape) xs).line? i way).isSome = true ↔
      i < shape.sets ∧ way < min shape.ways (lastUses (xs.map (·.location)) i).length := by
  rcases Nat.lt_or_ge i shape.sets with hi | hi
  · obtain ⟨s, hs, hkeeps⟩ := retains_final hw xs hi
    rw [line?, hs, Option.bind_some]
    rcases Nat.lt_or_ge way shape.ways with hway | hway
    · rw [← Option.ne_none_iff_isSome, ne_eq, hkeeps.invalid way hway]
      omega
    · have hnone : s.layout.line? way = none := by
        rw [Layout.line?, Array.getElem?_eq_none (hkeeps.lines ▸ hway)]
        rfl
      rw [hnone]
      simp only [Option.isSome_none, Bool.false_eq_true, false_iff]
      omega
  · have hshape := (final_probe hw xs).1
    have hnone : (Run.final Cache.probe (empty shape) xs).sets[i]? = none :=
      Array.getElem?_eq_none (by rw [sets_size, hshape]; exact hi)
    rw [line?, hnone]
    simp only [Option.bind_none, Option.isSome_none, Bool.false_eq_true, false_iff]
    omega

/-- A way that was filled once is in use from then on. -/
theorem isSome_line?_final_of_subset {shape : Shape} (hw : 0 < shape.ways) {xs ys : List Probe} (h : xs ⊆ ys)
    {i way : Nat} (hx : ((Run.final Cache.probe (empty shape) xs).line? i way).isSome = true) :
    ((Run.final Cache.probe (empty shape) ys).line? i way).isSome = true := by
  rw [isSome_line?_final hw] at hx ⊢
  have hle := length_lastUses_le (List.map_subset (·.location) h) i
  omega

/-- Whatever was probed, in sets that exist or not: every set has its ways in use
in increasing order, as many as tags were used in it, and keeps the rest as they
were; in the order of use its tags are the latest ones. A probe of one set leaves
all others alone. -/
theorem sets_retain_latest_tags {sets ways block : Nat} (h : c.IsBuilt sets ways block) (xs : List Probe) :
    let now := Run.final Cache.probe c xs
    (∀ i < sets, ∃ s, now.sets[i]? = some s ∧
      let T := lastUses (xs.map (·.location)) i
      s.layout.Retains ways T ∧
      ∀ way < ways, (∀ k, (Run.final Cache.probe c (xs.take k)).line? i way = none) ↔ min ways T.length ≤ way) ∧
    ∀ (x : Probe) (i : Nat), x.location.set ≠ i → (now.probe x).2.sets[i]? = now.sets[i]? := by
  obtain ⟨hp, -, hw, rfl⟩ := h.eq_empty
  refine ⟨fun i hi => ?_, fun x i hx => getElem?_sets_probe_of_ne (final_probe hw xs).2.1 hx⟩
  obtain ⟨s, hs, hkeeps⟩ := retains_final hw xs (Nat.lt_of_lt_of_eq hi (Shape.sets_ofCounts hp).symm)
  have hkeeps : s.layout.Retains ways (lastUses (xs.map (·.location)) i) := hkeeps
  refine ⟨s, hs, hkeeps, fun way hway => ?_⟩
  rw [← hkeeps.invalid way hway]
  have hnow : (Run.final Cache.probe (empty (.ofCounts sets ways block)) xs).line? i way = s.layout.line? way := by
    rw [line?, hs, Option.bind_some]
  constructor
  · intro hnever
    rw [← hnow, ← hnever xs.length, List.take_length]
  · intro hnone k
    by_contra hsome
    have hlater := isSome_line?_final_of_subset hw (List.take_subset k xs) (Option.ne_none_iff_isSome.1 hsome)
    rw [hnow, hnone] at hlater
    cases hlater

/-- Two sets of three ways: in the second one, tag 5 is used again after tag 7, and
the third way stays empty. -/
theorem second_set_retains_two_tags :
    let c := empty (.ofCounts 2 3 16)
    let xs : List Probe :=
      [⟨⟨1, 5⟩, 0x50, .read⟩, ⟨⟨1, 7⟩, 0x70, .write⟩, ⟨⟨0, 9⟩, 0x90, .read⟩, ⟨⟨2, 5⟩, 0x00, .read⟩, ⟨⟨1, 5⟩, 0x58, .read⟩]
    c.IsBuilt 2 3 16 ∧ ∃ s, (Run.final Cache.probe c xs).sets[1]? = some s ∧ s.layout.order.take 1 = [2] ∧
      s.layout.line? 2 = none ∧
      (s.layout.order.drop 1).map (fun way => (s.layout.line? way).map (·.tag)) = [some 7, some 5] := by
  intro c xs
  have hb : c.IsBuilt 2 3 16 := .inl rfl
  obtain ⟨s, hs, hkeeps, -⟩ := (sets_retain_latest_tags hb xs).1 1 (by decide)
  have hT : lastUses (xs.map (·.location)) 1 = [7, 5] := by decide
  rw [hT] at hkeeps
  exact ⟨hb, s, hs, hkeeps.unused, (hkeeps.invalid 2 (by decide)).2 (by decide), hkeeps.latest⟩

end Cache

/-! ## Where a line comes from -/

namespace Line

/-- A line of a set is what the last miss on its tag brought in: all later probes
of it hit, it has the address of the miss, and it is dirty if one of these wrote
to it, the miss included. -/
def ComesFrom (log : List (Probe × Except Fault Bool)) (set : Nat) (line : Line) : Prop :=
  ∃ before x since, log = before ++ (x, .ok false) :: since ∧ x.location = ⟨set, line.tag⟩ ∧
    (∀ e ∈ since, e.1.location = ⟨set, line.tag⟩ → e.2 = .ok true) ∧ line.address = x.address ∧
    (line.dirty = true ↔ ∃ e ∈ (x, .ok false) :: since, e.1.location = ⟨set, line.tag⟩ ∧ e.1.kind = .write)

variable {log : List (Probe × Except Fault Bool)} {set : Nat} {line : Line}

/-- A miss brings in a line of its own. -/
theorem comesFrom_of_miss (log : List (Probe × Except Fault Bool)) (x : Probe) :
    ComesFrom (log ++ [(x, .ok false)]) x.location.set
      (mark { tag := x.location.tag, address := x.address, dirty := false } x.kind) := by
  refine ⟨log, x, [], rfl, ?_, by simp, by simp, ?_⟩
  · rw [tag_mark]
  · simp [dirty_mark]

/-- A probe of another location does not show in the line. -/
theorem ComesFrom.append_of_ne (h : ComesFrom log set line) {e : Probe × Except Fault Bool}
    (he : e.1.location ≠ ⟨set, line.tag⟩) : ComesFrom (log ++ [e]) set line := by
  obtain ⟨before, x, since, rfl, hx, hhits, haddress, hdirty⟩ := h
  refine ⟨before, x, since ++ [e], by simp, hx, ?_, haddress, ?_⟩
  · intro f hf hl
    rcases List.mem_append.1 hf with hf | hf
    · exact hhits f hf hl
    · exact absurd (List.mem_singleton.1 hf ▸ hl) he
  · rw [hdirty, ← List.cons_append]
    simp only [List.mem_append, List.mem_singleton, or_and_right, exists_or, exists_eq_left, he, false_and, or_false]

/-- A hit keeps the address, and may make the line dirty. -/
theorem ComesFrom.append_of_hit (h : ComesFrom log set line) {x : Probe} (hx : x.location = ⟨set, line.tag⟩) :
    ComesFrom (log ++ [(x, .ok true)]) set (line.mark x.kind) := by
  obtain ⟨before, y, since, rfl, hy, hhits, haddress, hdirty⟩ := h
  refine ⟨before, y, since ++ [(x, .ok true)], by simp, by rw [tag_mark, hy], ?_, by rw [address_mark, haddress], ?_⟩
  · intro f hf hl
    rw [tag_mark] at hl
    rcases List.mem_append.1 hf with hf | hf
    · exact hhits f hf hl
    · rw [List.mem_singleton.1 hf]
  · rw [dirty_mark, hdirty, ← List.cons_append, tag_mark]
    simp only [List.mem_append, List.mem_singleton, or_and_right, exists_or, exists_eq_left, hx, true_and]

end Line

namespace Cache
variable {c : Cache} {x : Probe} {set way : Nat} {line : Line}

theorem Sound.exists_slot_of_line? (h : c.Sound) (hl : c.line? set way = some line) :
    ∃ s, c.sets[set]? = some s ∧ ∃ y ∈ s.slots, y.way = way ∧ y.line = some line := by
  obtain ⟨s, hs, hl⟩ := Option.bind_eq_some_iff.1 hl
  exact ⟨s, hs, (h.sets set s hs).exists_slot_of_line? hl⟩

theorem Sound.line?_way (h : c.Sound) {s : CacheSet} (hs : c.sets[set]? = some s) {y : Slot} (hy : y ∈ s.slots) :
    c.line? set y.way = y.line := by
  rw [line?, hs, Option.bind_some, (h.sets set s hs).line?_way hy]

/-- A line that is there after a probe was there before, and another location was
probed; or it was hit; or the probe missed and brought it in. -/
theorem line?_probe (h : c.Sound) (hl : (c.probe x).2.line? set way = some line) :
    (x.location ≠ ⟨set, line.tag⟩ ∧ c.line? set way = some line) ∨
    (x.location = ⟨set, line.tag⟩ ∧ (c.probe x).1 = .ok true ∧
      ∃ old, c.line? set way = some old ∧ line = old.mark x.kind) ∨
    (x.location = ⟨set, line.tag⟩ ∧ (c.probe x).1 = .ok false ∧
      line = Line.mark { tag := x.location.tag, address := x.address, dirty := false } x.kind) := by
  by_cases hset : x.location.set = set
  · subst hset
    have hx : x.location.set < c.sets.size := by
      by_contra hx
      rw [probe_of_le (Nat.le_of_not_lt hx)] at hl
      obtain ⟨s, hs, -⟩ := h.exists_slot_of_line? hl
      exact hx (Array.getElem?_eq_some_iff.1 hs).1
    rw [probe_of_lt h hx] at hl ⊢
    obtain ⟨s', hs', y, hy, rfl, hyl⟩ := (h.touchAt x.location x.address x.kind).exists_slot_of_line? hl
    rw [getElem?_sets_touchAt, if_pos rfl] at hs'
    obtain ⟨s, hs, rfl⟩ := Option.map_eq_some_iff.1 hs'
    have hhit : c.holdsAt x.location = s.holds x.location.tag := by rw [holdsAt, hs]
    rcases (h.sets _ s hs).mem_slots_touch hy with ⟨hn, hmem⟩ | ⟨hh, z, hz, hzt, rfl⟩ | ⟨hh, z, hz, rfl⟩
    · -- The slot was not used.
      refine .inl ⟨fun he => ?_, (h.line?_way hs hmem).trans hyl⟩
      rw [he, Slot.holds_of_line hyl] at hn
      cases hn
    · -- The slot was hit.
      obtain ⟨old, hold, htag⟩ := Slot.exists_line_of_holds hzt
      rw [Slot.line_mark, hold] at hyl
      obtain rfl : old.mark x.kind = line := Option.some.inj hyl
      refine .inr (.inl ⟨by rw [Line.tag_mark, htag], by rw [hhit, hh], old, ?_, rfl⟩)
      rw [CacheSet.way_mark, h.line?_way hs hz, hold]
    · -- The slot was filled.
      rw [Slot.line_mark] at hyl
      obtain rfl := Option.some.inj hyl
      exact .inr (.inr ⟨by rw [Line.tag_mark], by rw [hhit, hh], rfl⟩)
  · rw [line?, getElem?_sets_probe_of_ne h hset] at hl
    exact .inl ⟨fun he => hset (by rw [he]), hl⟩

/-- After any probes, every line comes from the last miss on its tag. -/
theorem comesFrom_final {shape : Shape} (hw : 0 < shape.ways) (xs : List Probe) :
    ∀ {set way line}, (Run.final Cache.probe (empty shape) xs).line? set way = some line →
      line.ComesFrom (Run.log Cache.probe (empty shape) xs) set := by
  induction xs using List.reverseRecOn with
  | nil =>
    intro set way line hl
    have hsome := (isSome_line?_final hw [] set way).1 (by rw [hl]; rfl)
    simp [lastUses] at hsome
  | append_singleton xs x ih =>
    intro set way line hl
    obtain ⟨-, hs, -⟩ := final_probe hw xs
    rw [Run.final_append] at hl
    rw [Run.log_append]
    show line.ComesFrom (_ ++ [(x, (Cache.probe (Run.final Cache.probe (empty shape) xs) x).1)]) set
    rcases line?_probe hs hl with ⟨hx, hkept⟩ | ⟨hx, ha, old, hold, rfl⟩ | ⟨hx, ha, rfl⟩
    · exact (ih hkept).append_of_ne hx
    · rw [ha]
      rw [Line.tag_mark] at hx
      exact (ih hold).append_of_hit hx
    · rw [ha]
      obtain rfl : x.location.set = set := congrArg Location.set hx
      exact Line.comesFrom_of_miss _ x

/-- Whatever was probed, in sets that exist or not: every line that is there comes
from the last miss on its tag, and a way that holds a line once holds one from
then on. -/
theorem lines_come_from_last_miss {sets ways block : Nat} (h : c.IsBuilt sets ways block) (xs : List Probe) :
    (∀ set way line, (Run.final Cache.probe c xs).line? set way = some line →
      line.ComesFrom (Run.log Cache.probe c xs) set) ∧
    ∀ set way j k, j ≤ k → ((Run.final Cache.probe c (xs.take j)).line? set way).isSome →
      ((Run.final Cache.probe c (xs.take k)).line? set way).isSome := by
  obtain ⟨-, -, hw, rfl⟩ := h.eq_empty
  refine ⟨fun set way line hl => comesFrom_final hw xs hl, fun set way j k hjk hj => ?_⟩
  exact isSome_line?_final_of_subset hw (List.take_subset_take_left xs hjk) hj

/-- In the first set, tag 1 is written, given up and read again from another
address: it is clean then. In the second set it is read first and written later. -/
theorem lines_come_from_last_miss_on_same_tag :
    let c := empty (.ofCounts 2 1 16)
    let xs : List Probe :=
      [⟨⟨0, 1⟩, 0x10, .write⟩, ⟨⟨0, 2⟩, 0x20, .read⟩, ⟨⟨1, 1⟩, 0x30, .read⟩, ⟨⟨0, 1⟩, 0x18, .read⟩, ⟨⟨1, 1⟩, 0x38, .write⟩]
    let clean : Line := { tag := 1, address := 0x18, dirty := false }
    let dirty : Line := { tag := 1, address := 0x30, dirty := true }
    c.IsBuilt 2 1 16 ∧ (Run.final Cache.probe c xs).line? 0 0 = some clean ∧
      clean.ComesFrom (Run.log Cache.probe c xs) 0 ∧ (Run.final Cache.probe c xs).line? 1 0 = some dirty ∧
      dirty.ComesFrom (Run.log Cache.probe c xs) 1 ∧ ((Run.final Cache.probe c (xs.take 2)).line? 0 0).isSome := by
  intro c xs clean dirty
  have hb : c.IsBuilt 2 1 16 := .inl rfl
  have hclean : (Run.final Cache.probe c xs).line? 0 0 = some clean := by decide +kernel
  have hdirty : (Run.final Cache.probe c xs).line? 1 0 = some dirty := by decide +kernel
  have hfilled : ((Run.final Cache.probe c (xs.take 1)).line? 0 0).isSome := by decide +kernel
  obtain ⟨hfrom, hkept⟩ := lines_come_from_last_miss hb xs
  exact ⟨hb, hclean, hfrom 0 0 clean hclean, hdirty, hfrom 1 0 dirty hdirty, hkept 0 0 1 2 (by decide) hfilled⟩

end Cache

end LastLevel
