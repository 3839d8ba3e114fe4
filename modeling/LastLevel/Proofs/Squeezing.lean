import LastLevel.Proofs.Locations
import LastLevel.Proofs.Soundness
/-!
# Bits taken out of an address

Between the offset and the rest of a block number lie the bits that choose a cluster,
and the cluster sees the address without them. Taken out by shifts and masks, of any
width, they leave each other bit where it belongs (`Bits.testBit_squeeze`,
`Bits.cut?_eq`). Cluster and inner address are the address (`Division.join_split`), and
cluster and inner location are its block: they are the location in a cache of as many
sets as all clusters have together (`Banked.place?_eq_iff`). No access changes where an
address goes (`Banked.place?_run`). Main statement: `Banked.clusters_lose_nothing`.
-/

namespace LastLevel

/-! ## Bits by shifts and masks -/

namespace Bits

/-- The bits of an address that is squeezed are those below the gap and those above it. -/
theorem testBit_squeeze (a : Address) (low count j : Nat) :
    (squeeze a low count).toNat.testBit j = if j < low then a.toNat.testBit j else a.toNat.testBit (j + count) := by
  rw [toNat_squeeze, Nat.mul_comm, Nat.testBit_two_pow_mul_add _ (Nat.mod_lt _ (Nat.two_pow_pos low))]
  split
  · next h => rw [Nat.testBit_mod_two_pow, decide_eq_true h, Bool.true_and]
  · next h => rw [Nat.testBit_div_two_pow, show j - low + (low + count) = j + count by omega]

theorem testBit_eq_false (a : Address) {j : Nat} (h : wordWidth ≤ j) : a.toNat.testBit j = false :=
  Nat.testBit_lt_two_pow (Nat.lt_of_lt_of_le (toNat_lt_two_pow a) (Nat.pow_le_pow_right (by decide) h))

/-- Shifts a word to the right, by so many places that nothing may be left of it. -/
def shiftedRight (w : UInt64) (places : Nat) : UInt64 := (shiftRight? w places).getD 0

/-- Shifts a word to the left, by so many places that nothing may be left of it. -/
def shiftedLeft (w : UInt64) (places : Nat) : UInt64 := (shiftLeft? w places).getD 0

theorem testBit_shiftedRight (w : UInt64) (places j : Nat) :
    (shiftedRight w places).toNat.testBit j = w.toNat.testBit (places + j) := by
  by_cases h : places < wordWidth
  · obtain ⟨v, hv, hvNat⟩ := shiftRight?_of_lt h w
    rw [shiftedRight, hv, Option.getD_some, hvNat, Nat.testBit_shiftRight]
  · rw [shiftedRight, shiftRight?, if_neg h, testBit_eq_false w (by omega)]
    exact Nat.zero_testBit j

theorem testBit_shiftedLeft (w : UInt64) (places j : Nat) :
    (shiftedLeft w places).toNat.testBit j =
      (decide (j < wordWidth) && decide (places ≤ j) && w.toNat.testBit (j - places)) := by
  by_cases h : places < wordWidth
  · have hplaces : (UInt64.ofNat places).toNat % 64 = places := toNat_ofNat_mod_width h
    rw [shiftedLeft, shiftLeft?, if_pos h, Option.getD_some, UInt64.toNat_shiftLeft, hplaces,
      Nat.testBit_mod_two_pow, Nat.testBit_shiftLeft, Bool.and_assoc]
    rfl
  · rw [shiftedLeft, shiftLeft?, if_neg h]
    have hbeyond : ¬ (j < wordWidth ∧ places ≤ j) := by omega
    rw [← Bool.decide_and, decide_eq_false hbeyond, Bool.false_and]
    exact Nat.zero_testBit j

/-- Adds two widths. There is no result from the size of a word of 32 bits on. -/
def sum? (m n : Nat) : Option Nat := if m + n < 2 ^ 32 then some (m + n) else none

/-- Takes the `count` bits above the lowest `low` out of an address by shifts and
masks. There is no result where the two widths have no sum. -/
def cut? (a : Address) (low count : Nat) : Option Address := do
  let ones ← ones? low
  let places ← sum? low count
  return shiftedLeft (shiftedRight a places) low ||| (a &&& ones)

/-- A word that falls back to nothing after a long shift has lost no bit that is asked
for: such bits are none of the address. -/
theorem cut?_eq {low count : Nat} (h : low + count < 2 ^ 32) (a : Address) :
    cut? a low count = some (squeeze a low count) := by
  obtain ⟨ones, hones, honesNat⟩ := ones?_eq low
  rw [cut?, hones, sum?, if_pos h]
  refine congrArg some (UInt64.toNat_inj.1 (Nat.eq_of_testBit_eq fun j => ?_))
  have hkept : (a &&& ones).toNat.testBit j = (decide (j < low) && a.toNat.testBit j) := by
    have hfield : (a &&& ones).toNat = field a.toNat 0 low := toNat_and_mask rfl honesNat
    rw [hfield, field_toNat, Nat.pow_zero, Nat.div_one, Nat.testBit_mod_two_pow]
  rw [UInt64.toNat_or, Nat.testBit_or, testBit_shiftedLeft, testBit_shiftedRight, hkept, testBit_squeeze]
  by_cases hj : j < low
  · rw [decide_eq_true hj, decide_eq_false (Nat.not_le.2 hj), if_pos hj]
    simp
  · have hindex : low + count + (j - low) = j + count := by omega
    rw [decide_eq_false hj, decide_eq_true (Nat.not_lt.1 hj), if_neg hj, hindex]
    by_cases hword : j < wordWidth
    · simp [hword]
    · simp [hword, testBit_eq_false a (show wordWidth ≤ j + count by omega)]

end Bits

/-! ## Cluster and inner address -/

namespace Division

/-- The cluster of an address and the address inside it, by shifts and masks. -/
def split? (offsetBits clusterBits : Nat) (a : Address) : Option (Nat × Address) := do
  let block ← Bits.shiftRight? a offsetBits
  let ones ← Bits.ones? clusterBits
  let inner ← Bits.cut? a offsetBits clusterBits
  return ((block &&& ones).toNat, inner)

theorem split?_eq {offsetBits clusterBits : Nat} (ho : offsetBits < Bits.wordWidth) (hk : clusterBits < Bits.wordWidth)
    (a : Address) :
    split? offsetBits clusterBits a =
      some (clusterOf offsetBits clusterBits a, Bits.squeeze a offsetBits clusterBits) := by
  have hwidths : offsetBits + clusterBits < 2 ^ 32 := by
    have : Bits.wordWidth = 64 := rfl
    omega
  obtain ⟨block, hblock, hblockNat⟩ := Bits.shiftRight?_of_lt ho a
  obtain ⟨ones, hones, honesNat⟩ := Bits.ones?_eq clusterBits
  rw [split?, hblock, hones, Bits.cut?_eq hwidths, clusterOf, ← Bits.toNat_and_mask hblockNat honesNat]
  rfl

/-- Puts a cluster and an address inside it together. -/
def join (offsetBits clusterBits cluster : Nat) (inner : Address) : Address :=
  UInt64.ofNat (((inner.toNat / 2 ^ offsetBits) * 2 ^ clusterBits + cluster) * 2 ^ offsetBits +
    inner.toNat % 2 ^ offsetBits)

/-- Nothing of an address is lost in its cluster and the address inside it. -/
theorem join_split (offsetBits clusterBits : Nat) (a : Address) :
    join offsetBits clusterBits (clusterOf offsetBits clusterBits a) (Bits.squeeze a offsetBits clusterBits) = a := by
  have hinner : (Bits.squeeze a offsetBits clusterBits).toNat % 2 ^ offsetBits = a.toNat % 2 ^ offsetBits := by
    rw [Bits.toNat_squeeze, Nat.mul_add_mod_self_right, Nat.mod_mod]
  rw [join, hinner, blockOf_squeeze, clusterOf, Bits.field_toNat, Nat.div_add_mod', Nat.div_add_mod']
  exact UInt64.ofNat_toNat

end Division

/-! ## Where an address goes -/

namespace Banked

/-- The bank that an address of a client goes to, and its location there. -/
def place? (b : Banked) (client : Nat) (a : Address) : Option (Nat × Location) := do
  let h ← b.holdings[client]?
  let (bank, inner) := b.division.route client h.banks.size a
  let c ← h.bank? bank
  return (bank, c.locate inner)

end Banked

/-- An access leaves each bank its shape. -/
theorem Holding.shape_bank?_touch (h : Holding) (i : Nat) (a : Address) (kind : AccessKind) (j : Nat) :
    ((h.touch i a kind).bank? j).map (·.shape) = (h.bank? j).map (·.shape) := by
  cases hc : h.bank? i with
  | none =>
    rw [touch, hc]
    rfl
  | some c =>
    rw [bank?_touch hc]
    split
    · next he =>
      rw [← he, hc]
      rfl
    · rfl

namespace Banked

theorem place?_eq_shape (b : Banked) (client : Nat) (a : Address) :
    b.place? client a = b.holdings[client]?.bind fun h =>
      ((h.bank? (b.division.route client h.banks.size a).1).map (·.shape)).map fun s =>
        ((b.division.route client h.banks.size a).1, s.locate (b.division.route client h.banks.size a).2) := by
  rw [place?]
  cases b.holdings[client]? with
  | none => rfl
  | some h => cases hc : h.bank? (b.division.route client h.banks.size a).1 <;> simp [hc, Cache.locate]

theorem place?_touch (b : Banked) (client : Nat) (a : Address) (kind : AccessKind) (i : Nat) (a' : Address) :
    (b.touch client a kind).place? i a' = b.place? i a' := by
  have hd : (b.touch client a kind).division = b.division := rfl
  rw [place?_eq_shape, place?_eq_shape, getElem?_touch, hd]
  split
  · next he =>
    subst he
    cases b.holdings[client]? with
    | none => rfl
    | some h => simp only [Option.map_some, Option.bind_some, Holding.size_banks_touch, Holding.shape_bank?_touch]
  · rfl

/-- Whatever the clients do, each address keeps its place. -/
theorem place?_run (b : Banked) (xs : List Record) :
    ∃ b', Run.final Scheme.step (.banked b) xs = .banked b' ∧ ∀ i a, b'.place? i a = b.place? i a := by
  refine Run.final_keeps (I := fun s : Scheme => ∃ b', s = .banked b' ∧ ∀ i a, b'.place? i a = b.place? i a) ?_
    ⟨b, rfl, fun _ _ => rfl⟩ xs
  rintro _ x ⟨b', rfl, hplace⟩
  cases hc : (Scheme.banked b').check x.client.toNat with
  | error e => exact ⟨b', by rw [Scheme.step_of_error hc], hplace⟩
  | ok u =>
    refine ⟨_, by rw [Scheme.step_of_ok hc]; rfl, fun i a => ?_⟩
    rw [place?_touch, hplace]

/-! ## Clusters -/

variable {n : Nat} {ways : List Nat} {size block : Nat} {b : Banked}

/-- In clusters an address goes to its cluster, and there to the place of its inner
address. -/
theorem place?_of_ofClusters? (h : ofClusters? n ways size block = .ok b) {i w : Nat} (hw : ways[i]? = some w)
    (a : Address) :
    b.place? i a = some (Division.clusterOf block.log2 n.log2 a,
      (Shape.ofCounts (Geometry.sets { size, ways := totalShare ways, block }) w block).locate
        (Bits.squeeze a block.log2 n.log2)) := by
  obtain ⟨hn, sets, cs, hd, rfl⟩ := ofClusters?_eq_ok.1 h
  obtain ⟨-, rfl, -, rfl⟩ := divideWays_eq_ok.1 hd
  have hlt : Division.clusterOf block.log2 n.log2 a < n := by
    conv_rhs => rw [← hn.two_pow_log2]
    exact Division.clusterOf_lt _ _ a
  simp [place?, hw, Division.route, Holding.bank?, hlt, Cache.locate, Cache.empty]

/-- Cluster and place in it are told apart exactly as the places in one cache with the
sets of all clusters. -/
theorem place?_eq_iff (h : ofClusters? n ways size block = .ok b) {i w : Nat} (hw : ways[i]? = some w)
    (a a' : Address) : b.place? i a = b.place? i a' ↔ a.toNat / block = a'.toNat / block := by
  obtain ⟨-, sets, cs, hd, -⟩ := ofClusters?_eq_ok.1 h
  obtain ⟨⟨-, -, hc⟩, -⟩ := divideWays_eq_ok.1 hd
  have hb : Bits.IsPow2 block := (Geometry.check_eq_ok.1 hc).2.1.1
  rw [place?_of_ofClusters? h hw, place?_of_ofClusters? h hw]
  generalize hs : Shape.ofCounts (Geometry.sets { size, ways := totalShare ways, block }) w block = s
  have ho : s.offsetBits = block.log2 := by rw [← hs]; rfl
  have hwide : (s.widen n.log2).locate a = (s.widen n.log2).locate a' ↔ a.toNat / block = a'.toNat / block := by
    rw [Shape.locate_eq_iff, ← hs]
    show a.toNat / 2 ^ block.log2 = a'.toNat / 2 ^ block.log2 ↔ _
    rw [hb.two_pow_log2]
  rw [← hwide, Shape.locate_widen, Shape.locate_widen, ho]
  simp only [Option.some.injEq, Prod.mk.injEq, Location.mk.injEq]
  constructor
  · rintro ⟨hcluster, hl⟩
    rw [hcluster, hl]
    exact ⟨rfl, rfl⟩
  · rintro ⟨hset, htag⟩
    obtain ⟨hcluster, hinner⟩ :=
      Holding.Gathered.set_inj (Division.clusterOf_lt _ _ a) (Division.clusterOf_lt _ _ a') hset
    exact ⟨hcluster, congrArg₂ Location.mk hinner htag⟩

/-- As long as offset, cluster and set fit into an address, each set of each cluster is
the place of some address. -/
theorem exists_place?_eq (h : ofClusters? n ways size block = .ok b) {i w : Nat} (hw : ways[i]? = some w)
    (hroom : block.log2 + n.log2 + (Geometry.sets { size, ways := totalShare ways, block }).log2 ≤ Bits.wordWidth)
    {cluster set : Nat} (hcluster : cluster < n) (hset : set < Geometry.sets { size, ways := totalShare ways, block }) :
    ∃ a l, b.place? i a = some (cluster, l) ∧ l.set = set := by
  obtain ⟨hn, sets, cs, hd, -⟩ := ofClusters?_eq_ok.1 h
  obtain ⟨⟨-, -, hc⟩, -⟩ := divideWays_eq_ok.1 hd
  obtain ⟨-, -, -, -, hp⟩ := Geometry.check_eq_ok.1 hc
  let s := Shape.ofCounts (Geometry.sets { size, ways := totalShare ways, block }) w block
  have hsets : s.sets = Geometry.sets { size, ways := totalShare ways, block } := Shape.sets_ofCounts hp
  rw [← hsets] at hset
  rw [← hn.two_pow_log2] at hcluster
  -- The set of the cluster is this one of all sets together.
  have hwide : cluster + 2 ^ n.log2 * set < (s.widen n.log2).sets := by
    rw [Shape.sets_widen]
    calc cluster + 2 ^ n.log2 * set < 2 ^ n.log2 * (set + 1) := by rw [Nat.mul_add, Nat.mul_one]; omega
      _ ≤ 2 ^ n.log2 * s.sets := Nat.mul_le_mul_left _ hset
  have hfits : (s.widen n.log2).offsetBits + (s.widen n.log2).indexBits ≤ Bits.wordWidth := by
    show block.log2 + ((Geometry.sets { size, ways := totalShare ways, block }).log2 + n.log2) ≤ Bits.wordWidth
    omega
  obtain ⟨a, ha⟩ := Shape.exists_locate_eq hfits (l := { set := cluster + 2 ^ n.log2 * set, tag := 0 }) hwide
    (Nat.two_pow_pos _)
  rw [Shape.locate_widen, Location.mk.injEq] at ha
  obtain ⟨hc, hs⟩ := Holding.Gathered.set_inj (Division.clusterOf_lt _ _ a) hcluster ha.1
  exact ⟨a, _, by rw [place?_of_ofClusters? h hw, ← hc]; rfl, hs⟩

/-- Squeezing is the same by shifts and masks, and moves each bit above the gap down by
the width of the gap, whatever the widths are, and also where shifts leave nothing. So
the cluster of an address and the address inside it are the address. Whatever the
clients of a scheme with clusters do, for each of them two addresses go to the same
place in the same cluster exactly if they lie in one block, and as long as there are
address bits for the offset, the cluster and the set, each set of each cluster is in
use. -/
theorem clusters_lose_nothing :
    (∀ (a : Address) (low count : Nat), low + count < 2 ^ 32 →
      Bits.cut? a low count = some (Bits.squeeze a low count) ∧
      ∀ j, (Bits.squeeze a low count).toNat.testBit j =
        if j < low then a.toNat.testBit j else decide (j + count < Bits.wordWidth) && a.toNat.testBit (j + count)) ∧
    ∀ (n : Nat) (ways : List Nat) (size block : Nat) (b : Banked), n < Bits.wordSize →
      ofClusters? n ways size block = .ok b →
      let offsetBits := block.log2
      let clusterBits := n.log2
      let sets := Geometry.sets { size, ways := totalShare ways, block }
      (2 ^ offsetBits = block ∧ 2 ^ clusterBits = n ∧ 2 ^ sets.log2 = sets ∧ b.clients = ways.length) ∧
      (∀ a, Division.split? offsetBits clusterBits a =
          some (Division.clusterOf offsetBits clusterBits a, Bits.squeeze a offsetBits clusterBits) ∧
        Division.join offsetBits clusterBits (Division.clusterOf offsetBits clusterBits a)
          (Bits.squeeze a offsetBits clusterBits) = a) ∧
      ∀ xs : List Record, ∃ b', Run.final Scheme.step (.banked b) xs = .banked b' ∧ ∀ i < ways.length,
        (∀ a, ∃ l, b'.place? i a = some (Division.clusterOf offsetBits clusterBits a, l) ∧
          Division.clusterOf offsetBits clusterBits a < n ∧ l.set < sets) ∧
        (∀ a a', b'.place? i a = b'.place? i a' ↔ a.toNat / block = a'.toNat / block) ∧
        (offsetBits + clusterBits + sets.log2 ≤ Bits.wordWidth →
          ∀ cluster < n, ∀ set < sets, ∃ a l, b'.place? i a = some (cluster, l) ∧ l.set = set) := by
  refine ⟨fun a low count hwidths => ⟨Bits.cut?_eq hwidths a, fun j => ?_⟩, fun n ways size block b hword h => ?_⟩
  · rw [Bits.testBit_squeeze]
    split
    · rfl
    · by_cases hj : j + count < Bits.wordWidth
      · rw [decide_eq_true hj, Bool.true_and]
      · rw [Bits.testBit_eq_false a (Nat.not_lt.1 hj), Bool.and_false]
  intro offsetBits clusterBits sets
  obtain ⟨hn, _, cs, hd, hbanks⟩ := ofClusters?_eq_ok.1 h
  obtain ⟨⟨-, -, hc⟩, -, -, rfl⟩ := divideWays_eq_ok.1 hd
  obtain ⟨-, ⟨hb, hw, hset⟩, -, -, hp⟩ := Geometry.check_eq_ok.1 hc
  have hoffset : offsetBits < Bits.wordWidth := by
    refine (Nat.log2_lt hb.pos.ne').2 (Nat.lt_of_le_of_lt ?_ hset)
    exact Nat.le_mul_of_pos_right _ hw
  have hcluster : clusterBits < Bits.wordWidth := (Nat.log2_lt hn.pos.ne').2 hword
  refine ⟨⟨hb, hn, hp, by simp [hbanks, clients]⟩, fun a => ⟨Division.split?_eq hoffset hcluster a,
    Division.join_split offsetBits clusterBits a⟩, fun xs => ?_⟩
  obtain ⟨b', hb', hplace⟩ := place?_run b xs
  refine ⟨b', hb', fun i hi => ?_⟩
  have hway : ways[i]? = some ways[i] := List.getElem?_eq_getElem hi
  refine ⟨fun a => ⟨_, (hplace i a).trans (place?_of_ofClusters? h hway a), ?_, ?_⟩, fun a a' => ?_, ?_⟩
  · exact (Division.clusterOf_lt offsetBits clusterBits a).trans_eq hn
  · exact (Shape.locate_set_lt _ _).trans_eq (Shape.sets_ofCounts hp)
  · rw [hplace, hplace]
    exact place?_eq_iff h hway a a'
  · intro hroom cluster hcluster set hset
    obtain ⟨a, l, hl, hs⟩ := exists_place?_eq h hway hroom hcluster hset
    exact ⟨a, l, (hplace i a).trans hl, hs⟩

/-- A gap that reaches beyond the word, and two clusters of two sets after a write and a
refused access: block 7 is told apart from block 6. -/
theorem two_clusters_lose_nothing :
    let xs : List Record := [⟨0x75, 1, .write⟩, ⟨0x10, 5, .read⟩]
    (60 + 10 < 2 ^ 32 ∧ ∃ v, Bits.cut? 0xffffffffffffffff 60 10 = some v ∧
      v.toNat.testBit 59 = true ∧ v.toNat.testBit 60 = false) ∧
    2 < Bits.wordSize ∧ ∃ b b', ofClusters? 2 [1, 3] 128 16 = .ok b ∧
      Run.final Scheme.step (.banked b) xs = .banked b' ∧
      Division.join 4 1 1 0x35 = 0x75 ∧ b'.place? 1 0x75 = b'.place? 1 0x7f ∧ b'.place? 1 0x75 ≠ b'.place? 1 0x65 ∧
      ∃ a l, b'.place? 1 a = some (1, l) ∧ l.set = 1 := by
  intro xs
  obtain ⟨hbits, hclusters⟩ := clusters_lose_nothing
  obtain ⟨hcut, hbit⟩ := hbits 0xffffffffffffffff 60 10 (by decide)
  have hd : divideWays [1, 3] 128 16 = .ok (2, [.empty (.ofCounts 2 1 16), .empty (.ofCounts 2 3 16)]) :=
    divideWays_eq_ok.2 ⟨⟨by decide, by decide, Geometry.check_eq_ok.2 (by decide)⟩, by decide,
      fun w hw => Shape.ofSets?_eq_ok.2 (by
        obtain rfl | rfl : w = 1 ∨ w = 3 := by simpa using hw
        all_goals decide), rfl⟩
  obtain ⟨b, hb⟩ : ∃ b, ofClusters? 2 [1, 3] 128 16 = .ok b := ⟨_, ofClusters?_eq_ok.2 ⟨by decide, _, _, hd, rfl⟩⟩
  obtain ⟨-, hsplit, hruns⟩ := hclusters 2 [1, 3] 128 16 b (by decide) hb
  obtain ⟨b', hb', hplaces⟩ := hruns xs
  obtain ⟨-, hsame, hall⟩ := hplaces 1 (by decide)
  refine ⟨⟨by decide, _, hcut, ?_, ?_⟩, by decide, b, b', hb, hb', (hsplit 0x75).2, (hsame _ _).2 (by decide),
    fun he => absurd ((hsame _ _).1 he) (by decide), hall (by decide) 1 (by decide) 1 (by decide)⟩
  · rw [hbit]
    decide
  · rw [hbit]
    decide

end Banked

end LastLevel
