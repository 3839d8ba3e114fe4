import LastLevel.Proofs.StackDistance
import Mathlib.Data.List.Perm.Subperm
/-!
# A larger cache holds more

Two caches of the same block size see the same addresses, and one of them has at
least as many sets and ways as the other. What the smaller one holds, the larger
one holds too. The sets of the two do not correspond, but the histories do: with
more sets a block has fewer rivals, and with more ways it outlives more of them.
So a block that was reused for the smaller cache was reused for the larger one
(`Reused.mono`), and what a cache holds is what was reused
(`Cache.resident_iff_reused`). Main statement: `Cache.larger_holds_more`.
-/

namespace LastLevel

/-! ## Reuse -/

theorem Bits.IsPow2.dvd {m n : Nat} (hm : IsPow2 m) (hn : IsPow2 n) (h : m ≤ n) : m ∣ n := by
  obtain ⟨i, rfl⟩ := isPow2_iff.1 hm
  obtain ⟨j, rfl⟩ := isPow2_iff.1 hn
  exact Nat.pow_dvd_pow 2 ((Nat.pow_le_pow_iff_right (by decide)).1 h)

/-- More sets leave a block no other rivals than it had. -/
theorem rivals_subset {sets sets' : Nat} (h : sets ∣ sets') (b : Nat) (history : List Nat) :
    rivals sets' b history ⊆ rivals sets b history := by
  intro x hx
  obtain ⟨hm, hx⟩ := List.mem_filter.1 (List.mem_dedup.1 hx)
  have hx : x % sets' = b % sets' := by simpa using hx
  refine List.mem_dedup.2 (List.mem_filter.2 ⟨hm, ?_⟩)
  -- The remainder by the smaller number is that of the remainder by the larger one.
  rw [decide_eq_true_iff, ← Nat.mod_mod_of_dvd x h, hx, Nat.mod_mod_of_dvd b h]

theorem Reused.mono {sets sets' ways ways' b : Nat} {history : List Nat} (hsets : sets ∣ sets')
    (hways : ways ≤ ways') (h : Reused sets ways history b) : Reused sets' ways' history b := by
  obtain ⟨j, hj, hlast, hr⟩ := h
  refine ⟨j, hj, hlast, ?_⟩
  calc (rivals sets' b (history.drop (j + 1))).length
      ≤ (rivals sets b (history.drop (j + 1))).length :=
        (List.Nodup.subperm (List.nodup_dedup _) (rivals_subset hsets b _)).length_le
    _ < ways := hr
    _ ≤ ways' := hways

/-- Shapes of one block size number the blocks alike. -/
theorem Shape.blockOf_congr {shape shape' : Shape} (h : shape'.offsetBits = shape.offsetBits) :
    shape'.blockOf = shape.blockOf := by
  funext a
  rw [blockOf, blockOf, block, block, h]

/-! ## What a cache holds -/

/-- Where fewer outcomes are hits, more of them are misses. -/
theorem count_false_le {small large : List Bool} (hlen : small.length = large.length)
    (h : ∀ k : Nat, small[k]? = some true → large[k]? = some true) : large.count false ≤ small.count false := by
  induction small generalizing large with
  | nil =>
    obtain rfl := List.length_eq_zero_iff.1 hlen.symm
    exact Nat.le_refl _
  | cons a small ih =>
    obtain ⟨b, large, rfl⟩ := List.exists_cons_of_length_eq_add_one hlen.symm
    have ih := ih (by simpa using hlen) fun k hk => by simpa using h (k + 1) (by simpa using hk)
    have hab : a = true → b = true := fun ha => by simpa using h 0 (by simp [ha])
    rw [List.count_cons, List.count_cons]
    cases a <;> cases b <;> simp at hab ⊢ <;> omega

namespace Cache

/-- Some line of the cache holds the block of this number. -/
def Resident (c : Cache) (b : Nat) : Prop :=
  ∃ i s slot line, c.sets[i]? = some s ∧ slot ∈ s.slots ∧ slot.line = some line ∧
    line.tag * c.shape.sets + i = b

theorem resident_iff_holdsAt {c : Cache} {b : Nat} :
    c.Resident b ↔ c.holdsAt { set := b % c.shape.sets, tag := b / c.shape.sets } = true := by
  have hpos := c.shape.sets_pos
  constructor
  · rintro ⟨i, s, slot, line, hs, hm, hl, rfl⟩
    obtain ⟨hi, -⟩ := Array.getElem?_eq_some_iff.1 hs
    rw [c.sets_size] at hi
    have hset : (line.tag * c.shape.sets + i) % c.shape.sets = i := by
      rw [Nat.mul_comm, Nat.mul_add_mod, Nat.mod_eq_of_lt hi]
    have htag : (line.tag * c.shape.sets + i) / c.shape.sets = line.tag := by
      rw [Nat.mul_comm, Nat.mul_add_div hpos, Nat.div_eq_of_lt hi, Nat.add_zero]
    rw [holdsAt, hset, htag, hs]
    exact List.any_eq_true.2 ⟨slot, hm, by simp [Slot.holds, hl]⟩
  · intro h
    have hi : b % c.shape.sets < c.sets.size := by rw [c.sets_size]; exact Nat.mod_lt _ hpos
    have hs := Array.getElem?_eq_getElem hi
    rw [holdsAt, hs] at h
    obtain ⟨slot, hm, ht⟩ := List.any_eq_true.1 h
    obtain ⟨line, hl, htag⟩ := Option.map_eq_some_iff.1 (Slot.holds_iff.1 ht)
    exact ⟨_, _, slot, line, hs, hm, hl, by rw [htag]; exact Nat.div_add_mod' b c.shape.sets⟩

/-- A cache holds the blocks that were reused. -/
theorem resident_iff_reused {shape : Shape} (hw : 0 < shape.ways) (xs : List Record) (b : Nat) :
    (Run.final step (empty shape) xs).Resident b ↔
      Reused shape.sets shape.ways (xs.map fun x => shape.blockOf x.address) b := by
  rw [resident_iff_holdsAt, (recalls_final hw xs).1]
  exact holdsAt_iff_reused hw xs b

/-! ## Two caches -/

section Larger
variable {shape shape' : Shape} (hblock : shape'.offsetBits = shape.offsetBits) (hsets : shape.sets ∣ shape'.sets)
  (hpos : 0 < shape.ways) (hways : shape.ways ≤ shape'.ways)
include hblock

/-- Caches of one block size see the same blocks. -/
theorem map_blockOf_eq {xs ys : List Record} (h : xs.map (·.address) = ys.map (·.address)) :
    (ys.map fun y => shape'.blockOf y.address) = xs.map fun x => shape.blockOf x.address := by
  calc (ys.map fun y => shape'.blockOf y.address) = (ys.map (·.address)).map shape'.blockOf := by
        rw [List.map_map]; rfl
    _ = (xs.map (·.address)).map shape.blockOf := by rw [h, Shape.blockOf_congr hblock]
    _ = xs.map fun x => shape.blockOf x.address := by rw [List.map_map]; rfl

include hsets hpos hways

theorem resident_mono {xs ys : List Record} (h : xs.map (·.address) = ys.map (·.address)) {b : Nat}
    (hb : (Run.final step (empty shape) xs).Resident b) : (Run.final step (empty shape') ys).Resident b := by
  rw [resident_iff_reused hpos] at hb
  rw [resident_iff_reused (Nat.lt_of_lt_of_le hpos hways), map_blockOf_eq hblock h]
  exact hb.mono hsets hways

/-- An access that hits in the smaller cache hits in the larger one. -/
theorem log_mono {xs ys : List Record} (h : xs.map (·.address) = ys.map (·.address)) (k : Nat)
    (hk : ((Run.log step (empty shape) xs).map (·.2))[k]? = some true) :
    ((Run.log step (empty shape') ys).map (·.2))[k]? = some true := by
  rw [List.getElem?_map, Run.getElem?_log, Option.map_map, Option.map_eq_some_iff] at hk ⊢
  obtain ⟨x, hx, hhit⟩ := hk
  -- The other cache sees an access to the same address.
  have ha : (ys.map (·.address))[k]? = some x.address := by rw [← h, List.getElem?_map, hx]; rfl
  rw [List.getElem?_map] at ha
  obtain ⟨y, hy, hyx⟩ := Option.map_eq_some_iff.1 ha
  refine ⟨y, hy, ?_⟩
  have htake : (xs.take k).map (·.address) = (ys.take k).map (·.address) := by
    rw [List.map_take, List.map_take, h]
  show (Run.final step (empty shape') (ys.take k)).hits y.address = true
  rw [hits_iff_reused (Nat.lt_of_lt_of_le hpos hways), map_blockOf_eq hblock htake, hyx, Shape.blockOf, Shape.block_eq,
    hblock]
  exact ((hits_iff_reused hpos _ _).1 hhit).mono hsets hways

theorem misses_le {xs ys : List Record} (h : xs.map (·.address) = ys.map (·.address)) :
    (Run.final step (empty shape') ys).tally.misses ≤ (Run.final step (empty shape) xs).tally.misses := by
  rw [tally_final, tally_final]
  refine count_false_le ?_ (log_mono hblock hsets hpos hways h)
  rw [List.length_map, List.length_map, Run.length_log, Run.length_log]
  simpa using congrArg List.length h

end Larger

/-- Of two new caches of one block size, one with at least the sets and the ways
of the other, that see the same addresses: after every step the larger one holds
every block that the smaller one holds, it hits wherever the smaller one does,
and it never has more misses. -/
theorem larger_holds_more {small large : Cache} {sets sets' ways ways' block : Nat}
    (hs : small.IsBuilt sets ways block) (hl : large.IsBuilt sets' ways' block) (hsets : sets ≤ sets')
    (hways : ways ≤ ways') {xs ys : List Record} (h : xs.map (·.address) = ys.map (·.address)) :
    (∀ k b, (Run.final step small (xs.take k)).Resident b → (Run.final step large (ys.take k)).Resident b) ∧
    (∀ k : Nat, ((Run.log step small xs).map (·.2))[k]? = some true →
      ((Run.log step large ys).map (·.2))[k]? = some true) ∧
    ∀ k, (Run.final step large (ys.take k)).tally.misses ≤ (Run.final step small (xs.take k)).tally.misses := by
  obtain ⟨hp, -, hw, rfl⟩ := hs.eq_empty
  obtain ⟨hp', -, -, rfl⟩ := hl.eq_empty
  have hdvd : (Shape.ofCounts sets ways block).sets ∣ (Shape.ofCounts sets' ways' block).sets := by
    rw [Shape.sets_ofCounts hp, Shape.sets_ofCounts hp']
    exact hp.dvd hp' hsets
  have hblock : (Shape.ofCounts sets' ways' block).offsetBits = (Shape.ofCounts sets ways block).offsetBits := rfl
  have htake : ∀ k, (xs.take k).map (·.address) = (ys.take k).map (·.address) := fun k => by
    rw [List.map_take, List.map_take, h]
  exact ⟨fun k b => resident_mono hblock hdvd hw hways (htake k), log_mono hblock hdvd hw hways h,
    fun k => misses_le hblock hdvd hw hways (htake k)⟩

/-- A second set and a second way keep a block that would have been given up. -/
theorem larger_keeps_block :
    let small := empty (.ofCounts 1 1 16)
    let large := empty (.ofCounts 2 2 16)
    let xs : List Record := [⟨0x00, 0, .read⟩, ⟨0x10, 0, .write⟩, ⟨0x18, 0, .read⟩, ⟨0x04, 1, .read⟩]
    small.IsBuilt 1 1 16 ∧ large.IsBuilt 2 2 16 ∧ 1 ≤ 2 ∧ xs.map (·.address) = xs.map (·.address) ∧
      (Run.final step small xs).Resident 0 ∧ (Run.final step large xs).Resident 0 ∧
      (Run.final step small xs).tally.misses = 3 ∧ (Run.final step large xs).tally.misses ≤ 3 := by
  intro small large xs
  have hs : small.IsBuilt 1 1 16 := .inl rfl
  have hl : large.IsBuilt 2 2 16 := .inl rfl
  have hheld : (Run.final step small xs).Resident 0 := resident_iff_holdsAt.2 (by decide)
  have hmisses : (Run.final step small xs).tally.misses = 3 := by decide
  obtain ⟨hres, -, hle⟩ := larger_holds_more hs hl (by decide) (by decide) (Eq.refl (xs.map (·.address)))
  exact ⟨hs, hl, by decide, rfl, hheld, hres 4 0 hheld, hmisses, hmisses ▸ hle 4⟩

end Cache

end LastLevel
