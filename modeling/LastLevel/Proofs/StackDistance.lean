import LastLevel.Proofs.Admission
import LastLevel.Proofs.Counts
import LastLevel.Proofs.Recency
import Mathlib.Data.List.Basic
/-!
# Hits by reuse distance

A cache hits on a block exactly when the block was accessed before and fewer
rivals than there are ways came in between. A rival is a block that shares
its set. `Reused` says so of the block numbers of a history alone, without
sets, ways or an order of use, and `hits_iff_reused` is the comparison:
whether an access hits can be read off the addresses accessed before it.
-/

namespace LastLevel

/-! ## Reuse in a history -/

/-- The blocks of a history that share the set of `b`, each listed once. -/
def rivals (sets b : Nat) (history : List Nat) : List Nat :=
  (history.filter fun x => x % sets = b % sets).dedup

/-- The block `b` is in the history, and after its last access, the one
numbered `j`, fewer than `ways` blocks of its set were accessed. -/
def Reused (sets ways : Nat) (history : List Nat) (b : Nat) : Prop :=
  ∃ j, history[j]? = some b ∧ (∀ i, j < i → history[i]? ≠ some b) ∧
    (rivals sets b (history.drop (j + 1))).length < ways

theorem reused_iff_split {sets ways b : Nat} {history : List Nat} :
    Reused sets ways history b ↔ ∃ old since, history = old ++ b :: since ∧ b ∉ since ∧
      (rivals sets b since).length < ways := by
  constructor
  · rintro ⟨j, hj, hlast, hr⟩
    obtain ⟨hlt, hb⟩ := List.getElem?_eq_some_iff.1 hj
    refine ⟨history.take j, history.drop (j + 1), ?_, ?_, hr⟩
    · rw [← hb, ← List.drop_eq_getElem_cons hlt, List.take_append_drop]
    · intro hm
      obtain ⟨i, hi⟩ := List.getElem?_of_mem hm
      rw [List.getElem?_drop] at hi
      exact hlast (j + 1 + i) (by omega) hi
  · rintro ⟨old, since, rfl, hn, hr⟩
    refine ⟨old.length, by simp, fun i hi h => hn ?_, by simpa using hr⟩
    obtain ⟨d, rfl⟩ := Nat.exists_eq_add_of_lt hi
    rw [List.getElem?_append_right (by omega), show old.length + d + 1 - old.length = d + 1 by omega,
      List.getElem?_cons_succ] at h
    exact List.mem_of_getElem? h

/-- An element is among the last uses exactly when few others came after its
own last use. -/
theorem mem_rtake_dedup {ts : List Nat} {t ways : Nat} :
    t ∈ ts.dedup.rtake ways ↔
      ∃ old since, ts = old ++ t :: since ∧ t ∉ since ∧ since.dedup.length < ways := by
  -- For a given last use both sides say the same.
  have hsplit : ∀ old since, t ∉ since → (t ∈ (old ++ t :: since).dedup.rtake ways ↔ since.dedup.length < ways) := by
    intro old since hn
    obtain ⟨us, hu⟩ := List.suffix_union_right old (t :: since).dedup
    have hd : (old ++ t :: since).dedup = us ++ t :: since.dedup := by
      rw [List.dedup_append, ← hu, List.dedup_cons_of_notMem hn]
    have hnd : (us ++ t :: since.dedup).Nodup := hd ▸ List.nodup_dedup _
    rw [hd]
    constructor
    · intro hm
      by_contra hlt
      -- With that many later ones, `t` is cut off.
      have hsub : (us ++ t :: since.dedup).rtake ways <:+ since.dedup := by
        refine List.suffix_of_suffix_length_le (List.drop_suffix _ _) ⟨us ++ [t], by simp⟩ ?_
        rw [length_rtake]
        omega
      exact hn (List.mem_dedup.1 (hsub.subset hm))
    · intro hlt
      have hsub : t :: since.dedup <:+ (us ++ t :: since.dedup).rtake ways := by
        refine List.suffix_of_suffix_length_le ⟨us, rfl⟩ (List.drop_suffix _ _) ?_
        rw [length_rtake, List.length_append, List.length_cons]
        omega
      exact hsub.subset List.mem_cons_self
  constructor
  · intro hm
    have ht : t ∈ ts.reverse := List.mem_reverse.2 (List.mem_dedup.1 (List.mem_of_mem_drop hm))
    -- The last use is the first one seen from the end.
    obtain ⟨us, vs, hr, hn⟩ := List.eq_append_cons_of_mem ht
    obtain rfl : ts = vs.reverse ++ t :: us.reverse := by
      rw [← List.reverse_reverse ts, hr]
      simp
    have hn : t ∉ us.reverse := by simpa using hn
    exact ⟨_, _, rfl, hn, (hsplit _ _ hn).1 hm⟩
  · rintro ⟨old, since, rfl, hn, hlt⟩
    exact (hsplit old since hn).2 hlt

/-- Only the rivals of a block matter for its reuse. -/
theorem reused_iff_mem_rtake {sets ways b : Nat} {history : List Nat} :
    Reused sets ways history b ↔ b ∈ (rivals sets b history).rtake ways := by
  rw [reused_iff_split, rivals, mem_rtake_dedup]
  constructor
  · rintro ⟨old, since, rfl, hn, hr⟩
    refine ⟨old.filter fun x => x % sets = b % sets, _, by simp, fun hm => hn (List.mem_filter.1 hm).1, hr⟩
  · rintro ⟨old, since, hf, hn, hr⟩
    obtain ⟨h₁, h₂, rfl, -, h2⟩ := List.filter_eq_append_iff.1 hf
    obtain ⟨h₃, since', rfl, -, hb, rfl⟩ := List.filter_eq_cons_iff.1 h2
    refine ⟨h₁ ++ h₃, since', by simp, fun hm => hn (List.mem_filter.2 ⟨hm, hb⟩), hr⟩

/-! ## Reuse in a cache -/

/-- Within a set, the tags stand for the blocks. -/
theorem map_lastUses {sets : Nat} (hs : 0 < sets) (b : Nat) (history : List Nat) :
    (lastUses (history.map fun x => { set := x % sets, tag := x / sets }) (b % sets)).map
      (fun t => t * sets + b % sets) = rivals sets b history := by
  rw [lastUses, rivals, ← List.dedup_map_of_injective (add_mul_injective hs _), List.filter_map, List.map_map,
    List.map_map]
  congr 1
  conv_rhs => rw [← List.map_id (history.filter _)]
  refine List.map_congr_left fun x hx => ?_
  have hx : x % sets = b % sets := by simpa using (List.mem_filter.1 hx).2
  rw [Function.comp_apply, Function.comp_apply, ← hx]
  exact Nat.div_add_mod' x sets

/-- The latest tags of a set are those of the latest rivals. -/
theorem mem_rtake_lastUses {sets : Nat} (hs : 0 < sets) (ways b : Nat) (history : List Nat) :
    b / sets ∈ (lastUses (history.map fun x => { set := x % sets, tag := x / sets }) (b % sets)).rtake ways ↔
      b ∈ (rivals sets b history).rtake ways := by
  have hb : b / sets * sets + b % sets = b := Nat.div_add_mod' b sets
  rw [← map_lastUses hs, List.rtake, List.rtake, List.length_map, ← List.map_drop,
    ← List.mem_map_of_injective (add_mul_injective hs (b % sets)), hb]

namespace Cache

/-- Every set of a cache recalls the locations of the addresses accessed. -/
theorem recalls_final {shape : Shape} (hw : 0 < shape.ways) (xs : List Record) :
    (Run.final step (empty shape) xs).shape = shape ∧
      (Run.final step (empty shape) xs).Recalls (xs.map fun x => shape.locate x.address) := by
  induction xs using List.reverseRecOn with
  | nil => exact ⟨rfl, recalls_empty shape⟩
  | append_singleton xs x ih =>
    -- The cache before the last access recalls all accesses but this one.
    obtain ⟨hs, hr⟩ := ih
    rw [Run.final_append, List.map_append]
    generalize Run.final step (empty shape) xs = c at hs hr
    subst hs
    exact ⟨rfl, hr.touchAt hw (c.locate x.address) x.address x.kind⟩

/-- Whether a block is held is a matter of the blocks accessed before. -/
theorem holdsAt_iff_reused {shape : Shape} (hw : 0 < shape.ways) (xs : List Record) (b : Nat) :
    (Run.final step (empty shape) xs).holdsAt { set := b % shape.sets, tag := b / shape.sets } = true ↔
      Reused shape.sets shape.ways (xs.map fun x => shape.blockOf x.address) b := by
  obtain ⟨hs, hr⟩ := recalls_final hw xs
  generalize Run.final step (empty shape) xs = c at hs hr
  subst hs
  have hl : (xs.map fun x => c.shape.locate x.address) =
      (xs.map fun x => c.shape.blockOf x.address).map
        fun b => { set := b % c.shape.sets, tag := b / c.shape.sets } := by
    rw [List.map_map]
    exact List.map_congr_left fun x _ => c.shape.locate_eq x.address
  rw [hr.holdsAt_iff (Nat.mod_lt _ c.shape.sets_pos), hl, reused_iff_mem_rtake]
  exact mem_rtake_lastUses c.shape.sets_pos _ _ _

/-- Whether an address would hit is a matter of the addresses accessed before. -/
theorem hits_iff_reused {shape : Shape} (hw : 0 < shape.ways) (xs : List Record) (a : Address) :
    (Run.final step (empty shape) xs).hits a = true ↔
      Reused shape.sets shape.ways (xs.map fun x => shape.blockOf x.address) (shape.blockOf a) := by
  rw [hits, locate, (recalls_final hw xs).1, Shape.locate_eq]
  exact holdsAt_iff_reused hw xs _

/-- A new cache, whatever is accessed: the access numbered `k` hits if and only
if its block was reused, the counters are the numbers of hits and misses, and an
address is held in the end if and only if the next access to it would hit. -/
theorem hits_exactly_on_reuse {c : Cache} {sets ways block : Nat} (h : c.IsBuilt sets ways block)
    (xs : List Record) :
    let blocks := xs.map fun x => x.address.toNat / block
    let outcomes := (Run.log step c xs).map (·.2)
    let last := Run.final step c xs
    (∀ k b, blocks[k]? = some b →
      ∃ hit, outcomes[k]? = some hit ∧ (hit = true ↔ Reused sets ways (blocks.take k) b)) ∧
    last.tally = { misses := outcomes.count false, hits := outcomes.count true } ∧
    ∀ a kind, last.accessAt? (last.locate a) a kind = .ok (last.hits a, last.touch a kind) := by
  obtain ⟨hs, hb, hw, rfl⟩ := h.eq_empty
  refine ⟨?_, tally_final _ xs, fun a kind => accessAt?_locate _ a kind⟩
  intro k b hk
  rw [List.getElem?_map, Option.map_eq_some_iff] at hk
  obtain ⟨x, hx, rfl⟩ := hk
  refine ⟨_, by rw [List.getElem?_map, Run.getElem?_log, hx]; rfl, ?_⟩
  have hr := @hits_iff_reused (.ofCounts sets ways block) hw (xs.take k) x.address
  simp only [Shape.blockOf, Shape.block_ofCounts hb, Shape.sets_ofCounts hs, List.map_take] at hr
  exact hr

/-- In one set of two ways, a block outlives one rival but not two. -/
theorem reuse_in_two_ways :
    let c := empty (.ofCounts 1 2 16)
    let xs : List Record := [⟨0x00, 0, .read⟩, ⟨0x10, 0, .write⟩, ⟨0x08, 3, .read⟩, ⟨0x20, 0, .read⟩, ⟨0x1f, 0, .read⟩]
    c.IsBuilt 1 2 16 ∧ (Run.log step c xs).map (·.2) = [false, false, true, false, false] ∧
      Reused 1 2 [0, 1] 0 ∧ ¬ Reused 1 2 [0, 1, 0, 2] 1 ∧
      (Run.final step c xs).tally = { misses := 4, hits := 1 } := by
  intro c xs
  have hb : c.IsBuilt 1 2 16 := .inl rfl
  have ho : (Run.log step c xs).map (·.2) = [false, false, true, false, false] := by decide
  obtain ⟨hk, ht, -⟩ := hits_exactly_on_reuse hb xs
  obtain ⟨hit, h2, hr⟩ := hk 2 0 (by decide)
  obtain ⟨miss, h4, hn⟩ := hk 4 1 (by decide)
  rw [ho] at h2 h4 ht
  obtain rfl : true = hit := by simpa using h2
  obtain rfl : false = miss := by simpa using h4
  exact ⟨hb, ho, hr.1 rfl, fun h => by simpa using hn.2 h, ht⟩

end Cache

end LastLevel
