import LastLevel.Proofs.Scattering
import Mathlib.Data.Int.CardIntervalMod
/-!
# Banks take turns

What selects a bank is a field of the lowest bits of the block number. Over blocks
that follow one another, as many as the field has values, it has each value once,
wherever the first block is: `Consecutive.count_field`. So what falls to a bank
can be counted over the values of the field. A bank that no value leads to stays
as it was built (`Banked.Spares.run`). Main statement: `Banked.slices_take_turns`.
-/

namespace LastLevel

/-! ## Counting -/

theorem count_congr {p q : Nat → Prop} [DecidablePred p] [DecidablePred q] {n : Nat} (h : ∀ x < n, p x ↔ q x) :
    Nat.count p n = Nat.count q n :=
  Nat.le_antisymm (Nat.count_mono_left fun x hx => (h x hx).1) (Nat.count_mono_left fun x hx => (h x hx).2)

/-- Among the first `m` numbers every remainder occurs once in each whole round,
and the lower ones once more in the round that is not complete. -/
theorem count_mod {n v : Nat} (hv : v < n) (m : Nat) :
    Nat.count (fun x => x % n = v) m = m / n + if v < m % n then 1 else 0 := by
  have h := Nat.count_modEq_card m (Nat.zero_lt_of_lt hv) v
  rw [Nat.mod_eq_of_lt hv] at h
  rw [← h]
  exact count_congr fun x _ => by rw [Nat.ModEq, Nat.mod_eq_of_lt hv]

/-- Remainders with a property occur in a whole round, and then in what there is
of the next. -/
theorem count_remainders (q : Nat → Prop) [DecidablePred q] {n m : Nat} (hle : n ≤ m) (hlt : m < 2 * n) :
    Nat.count (fun y => q (y % n)) m = Nat.count q n + Nat.count q (m - n) := by
  have hround := Nat.count_add (fun y => q (y % n)) n (m - n)
  rw [Nat.add_sub_cancel' hle] at hround
  rw [hround]
  refine congrArg₂ (· + ·) (count_congr fun y hy => ?_) (count_congr fun y hy => ?_)
  · rw [Nat.mod_eq_of_lt hy]
  · rw [Nat.add_mod_left, Nat.mod_eq_of_lt (by omega)]

/-- A round may begin anywhere: it has every remainder once. -/
theorem count_round (p : Nat → Prop) [DecidablePred p] (first n : Nat) :
    Nat.count (fun x => p ((first + x) % n)) n = Nat.count p n := by
  induction first with
  | zero => exact count_congr fun x hx => by rw [Nat.zero_add, Nat.mod_eq_of_lt hx]
  | succ first ih =>
    -- The round that begins one later loses a remainder in front and gets the same one at the end.
    have hfront := Nat.count_succ' (fun x => p ((first + x) % n)) n
    have hback := Nat.count_succ (fun x => p ((first + x) % n)) n
    simp only [Nat.add_mod_right, Nat.add_zero] at hfront hback
    rw [← ih]
    simp only [Nat.add_right_comm first 1, Nat.add_assoc] at hfront ⊢
    omega

/-- Addresses in `count` blocks that follow one another, `addr x` in block number
`first + x`. -/
def Consecutive (block first count : Nat) (addr : Nat → Address) : Prop :=
  ∀ x < count, (addr x).toNat / block = first + x

theorem Consecutive.count_field {offsetBits first width : Nat} {addr : Nat → Address}
    (h : Consecutive (2 ^ offsetBits) first (2 ^ width) addr) (p : Nat → Prop) [DecidablePred p] :
    Nat.count (fun x => p (Bits.field (addr x).toNat offsetBits width)) (2 ^ width) = Nat.count p (2 ^ width) := by
  rw [← count_round p first]
  exact count_congr fun x hx => by rw [Bits.field_toNat, h x hx]

/-! ## The bank of an address -/

theorem Holding.bank?_touch_of_ne (h : Holding) {i j : Nat} (hij : i ≠ j) (a : Address) (kind : AccessKind) :
    (h.touch i a kind).bank? j = h.bank? j := by
  cases hc : h.bank? i with
  | none =>
    rw [touch_of_none hc]
    rfl
  | some c => rw [bank?_touch hc, if_neg hij]

namespace Banked

/-- The bank of a client that serves an address. -/
def bankFor? (b : Banked) (client : Nat) (a : Address) : Except Fault Nat :=
  match b.holdings[client]? with
  | some h => (b.division.select client h.banks.size a).map (·.1)
  | none => .error (.client { client, clients := b.clients })

theorem bankFor?_eq {b : Banked} (hb : b.Sound) {i : Nat} {h : Holding} (hi : b.holdings[i]? = some h) (a : Address) :
    b.bankFor? i a = .ok (b.division.route i h.banks.size a).1 := by
  rw [bankFor?, hi]
  simp only [(hb i h hi).selects a, Except.map]

/-- How many of the first `count` addresses a bank of a client serves. -/
def load (b : Banked) (client : Nat) (addr : Nat → Address) (count bank : Nat) : Nat :=
  Nat.count (fun x => b.bankFor? client (addr x) = .ok bank) count

/-- No address of client `i` selects its bank `j`, and that bank is `c`. -/
def Spares (b : Banked) (i j : Nat) (c : Cache) : Prop :=
  ∃ h, b.holdings[i]? = some h ∧ h.bank? j = some c ∧ ∀ a, (b.division.route i h.banks.size a).1 ≠ j

namespace Spares
variable {b : Banked} {i j : Nat} {c : Cache}

theorem touch (hs : b.Spares i j c) (client : Nat) (a : Address) (kind : AccessKind) :
    (b.touch client a kind).Spares i j c := by
  obtain ⟨h, hi, hc, hroute⟩ := hs
  by_cases he : client = i
  · subst he
    refine ⟨_, by rw [getElem?_touch, if_pos rfl, hi, Option.map_some], ?_, ?_⟩
    · rw [Holding.bank?_touch_of_ne h (hroute a), hc]
    · rw [Holding.size_banks_touch]
      exact hroute
  · exact ⟨h, by rw [getElem?_touch, if_neg he, hi], hc, hroute⟩

/-- A bank that no address selects stays as it is, whatever the clients do. -/
theorem run (hs : b.Spares i j c) (xs : List Record) :
    ∃ b', Run.final Scheme.step (.banked b) xs = .banked b' ∧ b'.Spares i j c := by
  refine Run.final_keeps (I := fun s : Scheme => ∃ b', s = .banked b' ∧ b'.Spares i j c) ?_ ⟨b, rfl, hs⟩ xs
  rintro _ x ⟨b, rfl, hs⟩
  cases hc : (Scheme.banked b).check x.client.toNat with
  | error e => exact ⟨b, by rw [Scheme.step_of_error hc], hs⟩
  | ok u => exact ⟨_, by rw [Scheme.step_of_ok hc]; rfl, hs.touch x.client.toNat x.address x.kind⟩

theorem bank?_eq (hs : b.Spares i j c) : b.bank? i j = some c := by
  obtain ⟨h, hi, hc, -⟩ := hs
  rw [bank?, hi, Option.bind_some, hc]

end Spares
end Banked

/-- A cache that was never accessed has no valid line. -/
theorem Cache.lines_empty {shape : Shape} : ∀ s ∈ (empty shape).sets, ∀ l ∈ s.lines, l = none := by
  intro s hs l hl
  obtain rfl := Array.eq_of_mem_replicate hs
  obtain ⟨slot, hslot, rfl⟩ := List.mem_map.1 hl
  obtain ⟨way, -, rfl⟩ := List.mem_map.1 (List.mem_mergeSort.1 hslot)
  rfl

/-! ## Slices -/

namespace Banked
variable {clients : Nat} {owned : List Nat} {slice : Geometry} {b : Banked}

theorem holding_of_ofSlices? (h : ofSlices? clients owned slice = .ok b) {i n : Nat} (hn : owned[i]? = some n) :
    ∃ held, b.holdings[i]? = some held ∧ held.banks.size = n := by
  obtain ⟨-, rfl⟩ := ofSlices?_eq_ok.1 h
  exact ⟨_, by rw [List.getElem?_toArray, List.getElem?_map, hn, Option.map_some], Array.size_replicate⟩

theorem route_of_ofSlices? (h : ofSlices? clients owned slice = .ok b) (i n : Nat) (a : Address) :
    b.division.route i n a = (Bits.field a.toNat slice.block.log2 (Bits.bitLength clients) % n, a) := by
  obtain ⟨-, rfl⟩ := ofSlices?_eq_ok.1 h
  rfl

theorem bankFor?_of_ofSlices? (h : ofSlices? clients owned slice = .ok b) {i n : Nat} (hn : owned[i]? = some n)
    (a : Address) :
    b.bankFor? i a = .ok (Bits.field a.toNat slice.block.log2 (Bits.bitLength clients) % n) := by
  obtain ⟨held, hheld, hsize⟩ := holding_of_ofSlices? h hn
  rw [bankFor?_eq (fresh_of_ofSlices? h).sound hheld, hsize, route_of_ofSlices? h]

/-- A slice that the selection bits cannot name stays empty. -/
theorem spares_of_ofSlices? (h : ofSlices? clients owned slice = .ok b) {i n j : Nat} (hn : owned[i]? = some n)
    (hj : j < n) (hbits : 2 ^ Bits.bitLength clients ≤ j) :
    b.Spares i j (.empty (.ofCounts slice.sets slice.ways slice.block)) := by
  obtain ⟨-, rfl⟩ := ofSlices?_eq_ok.1 h
  refine ⟨_, by rw [List.getElem?_toArray, List.getElem?_map, hn, Option.map_some], ?_, fun a => ?_⟩
  · simp [Holding.bank?, hj]
  · have hlt : Bits.field a.toNat slice.block.log2 (Bits.bitLength clients) < 2 ^ Bits.bitLength clients :=
      Bits.field_lt _ _ _
    refine Nat.ne_of_lt (Nat.lt_of_le_of_lt (Nat.mod_le _ _) (Nat.lt_of_lt_of_le hlt hbits))

/-- The selection bits of slices are as few as count the clients. A client's
addresses reach those of its slices that the selection bits can name, and there its
accesses are routed: blocks that follow one another, one for each value of the
selection bits, fall to its slices as the remainders of these values do, so that two
slices that can be reached differ by one block at most. The others stay empty for
ever. -/
theorem slices_take_turns (h : ofSlices? clients owned slice = .ok b) :
    let w := Bits.bitLength clients
    b.division = .slices slice.block.log2 w ∧ IsLeast {k | clients < 2 ^ k} w ∧
      ∀ i n : Nat, owned[i]? = some n →
        (∃ held, b.holdings[i]? = some held ∧ held.banks.size = n ∧
          ∀ a, ∃ j < min n (2 ^ w), b.bankFor? i a = .ok j ∧ b.division.route i held.banks.size a = (j, a)) ∧
        (∀ first addr, Consecutive slice.block first (2 ^ w) addr →
          (∀ j, b.load i addr (2 ^ w) j = Nat.count (fun x => x % n = j) (2 ^ w)) ∧
          ∀ j < min n (2 ^ w), ∀ k < min n (2 ^ w), b.load i addr (2 ^ w) j ≤ b.load i addr (2 ^ w) k + 1) ∧
        ∀ (xs : List Record) (j : Nat), 2 ^ w ≤ j → j < n →
          ∃ b' c, Run.final Scheme.step (.banked b) xs = .banked b' ∧ b'.bank? i j = some c ∧
            c.tally = {} ∧ ∀ s ∈ c.sets, ∀ l ∈ s.lines, l = none := by
  intro w
  obtain ⟨⟨-, -, hz, hc⟩, hb⟩ := ofSlices?_eq_ok.1 h
  obtain ⟨-, ⟨hblock, -, -⟩, -⟩ := Geometry.check_eq_ok.1 hc
  refine ⟨by rw [hb], ⟨Bits.bitLength_le_iff.1 (Nat.le_refl w), fun k hk => Bits.bitLength_le_iff.2 hk⟩, ?_⟩
  intro i n hn
  have hpos : 0 < n := Nat.pos_of_ne_zero (hz n (List.mem_of_getElem? hn))
  have hbank := fun a => bankFor?_of_ofSlices? h hn a
  obtain ⟨held, hheld, hsize⟩ := holding_of_ofSlices? h hn
  refine ⟨⟨held, hheld, hsize, fun a => ⟨_, ?_, hbank a, hsize ▸ route_of_ofSlices? h i held.banks.size a⟩⟩,
    fun first addr haddr => ?_, fun xs j hj hjn => ?_⟩
  · have hlt : Bits.field a.toNat slice.block.log2 w < 2 ^ w := Bits.field_lt _ _ _
    exact Nat.lt_min.2 ⟨Nat.mod_lt _ hpos, Nat.lt_of_le_of_lt (Nat.mod_le _ _) hlt⟩
  · rw [← hblock] at haddr
    have hload : ∀ j, b.load i addr (2 ^ w) j = Nat.count (fun x => x % n = j) (2 ^ w) := fun j => by
      simp only [load, hbank, Except.ok.injEq]
      exact haddr.count_field fun x => x % n = j
    refine ⟨hload, fun j hj k hk => ?_⟩
    simp only [hload, count_mod (Nat.lt_min.1 hj).1, count_mod (Nat.lt_min.1 hk).1]
    split <;> omega
  · obtain ⟨b', hb', hspares⟩ := (spares_of_ofSlices? h hn hjn hj).run xs
    exact ⟨b', _, hb', hspares.bank?_eq, rfl, Cache.lines_empty⟩

/-- A lone client with three slices has one selection bit: of blocks 5 and 6 each
goes to a slice of its own, and the third slice stays empty. -/
theorem slices_take_turns_of_lone_client :
    let slice : Geometry := ⟨64, 2, 16⟩
    let addr : Nat → Address := fun x => UInt64.ofNat (0x50 + 0x10 * x)
    ∃ b, ofSlices? 1 [3] slice = .ok b ∧ [3][0]? = some 3 ∧ Consecutive slice.block 5 (2 ^ 1) addr ∧
      b.division = .slices 4 1 ∧ (∃ j < 2, b.bankFor? 0 0x5f = .ok j ∧ b.division.route 0 3 0x5f = (j, 0x5f)) ∧
      b.load 0 addr (2 ^ 1) 1 = 1 ∧
      ∃ b' c, Run.final Scheme.step (.banked b) [⟨0x50, 0, .read⟩, ⟨0x20, 0, .write⟩] = .banked b' ∧
        b'.bank? 0 2 = some c ∧ c.tally = {} ∧ ∀ s ∈ c.sets, ∀ l ∈ s.lines, l = none := by
  intro slice addr
  obtain ⟨b, hb⟩ : ∃ b, ofSlices? 1 [3] slice = .ok b :=
    ⟨_, ofSlices?_eq_ok.2 ⟨⟨rfl, by decide, by decide, Geometry.check_eq_ok.2 (by decide)⟩, rfl⟩⟩
  have haddr : Consecutive slice.block 5 (2 ^ 1) addr := by
    unfold Consecutive
    decide
  obtain ⟨hdivision, -, hclient⟩ := slices_take_turns hb
  obtain ⟨⟨held, -, hsize, hreach⟩, hload, hspare⟩ := hclient 0 3 rfl
  rw [hsize] at hreach
  refine ⟨b, hb, rfl, haddr, hdivision.trans (congrArg₂ Division.slices (by decide) (by decide)), hreach 0x5f, ?_,
    hspare _ 2 (by decide) (by decide)⟩
  refine ((hload 5 addr haddr).1 1).trans ?_
  decide

end Banked

end LastLevel
