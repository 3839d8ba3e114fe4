import LastLevel.Proofs.Interleaving
/-!
# One cache, scattered over banks

Where the set that an address falls into decides which bank it goes to, each set
is in use in one of a client's banks only. The banks then hold together what one
cache of their shape holds, however many they are: `Holding.Scattered` is this
relation, an access keeps it (`Holding.Scattered.touch`), and a run of all
clients keeps it for each of them (`Banked.Scattered.run`). The low bits of a
block number are such a choice as long as there are sets enough to tell them
apart (`Shape.field_eq_set_mod`). Main statements: `Banked.slices_are_one` and
`Banked.cells_are_one`.
-/

namespace LastLevel

/-! ## Bits of the set -/

namespace Bits

theorem bitLength_le_iff {n k : Nat} : bitLength n ≤ k ↔ n < 2 ^ k := by
  unfold bitLength
  split
  · next h => exact iff_of_true (Nat.zero_le _) (h ▸ Nat.two_pow_pos _)
  · next h => rw [Nat.succ_le_iff, Nat.log2_lt h]

theorem indexWidth_le_iff {n k : Nat} : indexWidth n ≤ k ↔ n ≤ 2 ^ k := by
  have hpos := Nat.two_pow_pos k
  unfold indexWidth
  split
  · next h => simp only [Nat.zero_le, true_iff]; omega
  · next h =>
    rw [Nat.succ_le_iff, Nat.log2_lt (by omega)]
    omega

/-- Powers of two are compared by their exponents. -/
theorem IsPow2.two_pow_le {n k : Nat} (hn : IsPow2 n) : 2 ^ k ≤ n ↔ k ≤ n.log2 := by
  conv_lhs => rw [← hn]
  exact Nat.pow_le_pow_iff_right (by decide)

end Bits

/-- The lowest bits of a block number are those of its set, if the set has as
many. -/
theorem Shape.field_eq_set_mod (s : Shape) (a : Address) {width : Nat} (h : width ≤ s.indexBits) :
    Bits.field a.toNat s.offsetBits width = (s.locate a).set % 2 ^ width := by
  have hdvd : 2 ^ width ∣ s.sets := Nat.pow_dvd_pow 2 h
  rw [Bits.field_toNat, locate_eq, Nat.mod_mod_of_dvd _ hdvd]
  rfl

@[simp] theorem Cache.shape_final (c : Cache) (xs : List Record) : (Run.final Cache.step c xs).shape = c.shape :=
  Run.final_keeps (I := fun d : Cache => d.shape = c.shape) (fun _ _ hd => hd) rfl xs

/-! ## The banks of one client -/

namespace Holding

/-- The banks of a client hold together what one cache `c` of their shape holds:
set `s` of it is set `s` of bank `bank s`. -/
structure Scattered (bank : Nat → Nat) (h : Holding) (c : Cache) : Prop where
  set : ∀ s < c.shape.sets, ∃ d, h.bank? (bank s) = some d ∧ d.shape = c.shape ∧ d.sets[s]? = c.sets[s]?
  tally : h.tally = c.tally
  unserved : h.unserved = 0

/-- In the beginning all banks that are in use are as empty as the cache. -/
theorem Fresh.scattered {d : Division} {client : Nat} {h : Holding} (hf : h.Fresh d client) {bank : Nat → Nat}
    {shape : Shape} (hb : ∀ s < shape.sets, h.bank? (bank s) = some (.empty shape)) :
    h.Scattered bank (.empty shape) where
  set s hs := ⟨_, hb s hs, rfl, rfl⟩
  tally := hf.tally_eq
  unserved := hf.unserved

namespace Scattered
variable {bank : Nat → Nat} {h : Holding} {c : Cache}

/-- The bank that an address goes to. -/
theorem exists_bank (hs : h.Scattered bank c) (a : Address) :
    ∃ d, h.bank? (bank (c.locate a).set) = some d ∧ d.locate a = c.locate a ∧ d.hits a = c.hits a := by
  obtain ⟨d, hd, hshape, hset⟩ := hs.set _ (c.shape.locate_set_lt a)
  have hl : d.locate a = c.locate a := by rw [Cache.locate, hshape, Cache.locate]
  refine ⟨d, hd, hl, ?_⟩
  rw [Cache.hits, hl, Cache.hits, Cache.holdsAt, Cache.locate, hset]
  rfl

theorem hits_eq (hs : h.Scattered bank c) (a : Address) : h.hits (bank (c.locate a).set) a = c.hits a := by
  obtain ⟨d, hd, -, hh⟩ := hs.exists_bank a
  rw [Holding.hits_eq hd, hh]

/-- An access to the bank of an address acts on the banks as it acts on the one
cache. -/
theorem touch (hs : h.Scattered bank c) (a : Address) (kind : AccessKind) :
    (h.touch (bank (c.locate a).set) a kind).Scattered bank (c.touch a kind) := by
  obtain ⟨d, hd, hl, hh⟩ := hs.exists_bank a
  refine ⟨fun s hlt => ?_, ?_, ?_⟩
  · obtain ⟨e, he, hshape, hset⟩ := hs.set s hlt
    rw [bank?_touch hd]
    by_cases hbank : bank (c.locate a).set = bank s
    · -- The bank is the same, and in it the set is touched if it is in the cache.
      rw [← hbank, hd] at he
      obtain rfl := Option.some.inj he
      refine ⟨d.touch a kind, if_pos hbank, hshape, ?_⟩
      rw [Cache.touch, Cache.touch, hl, Cache.getElem?_sets_touchAt, Cache.getElem?_sets_touchAt, hset]
    · -- Another bank is for another set.
      have hne : (c.locate a).set ≠ s := fun heq => hbank (congrArg bank heq)
      refine ⟨e, by rw [if_neg hbank, he], hshape, ?_⟩
      rw [Cache.touch, Cache.getElem?_sets_touchAt, if_neg hne, hset]
  · rw [tally_touch hd, hs.hits_eq a, hs.tally, Cache.tally_touch]
  · rw [unserved_touch_of_some hd, hs.unserved]

end Scattered
end Holding

/-! ## All clients -/

namespace Banked

/-- The banks of client `i` hold together what `c` holds, and its addresses go to
the banks of their sets. -/
def Scattered (bank : Nat → Nat) (i : Nat) (b : Banked) (c : Cache) : Prop :=
  ∃ h, b.holdings[i]? = some h ∧ h.Scattered bank c ∧
    ∀ a, b.division.route i h.banks.size a = (bank (c.shape.locate a).set, a)

namespace Scattered
variable {bank : Nat → Nat} {i : Nat} {b : Banked} {c : Cache}

theorem lt_clients (hs : b.Scattered bank i c) : i < b.clients := by
  obtain ⟨h, hi, -⟩ := hs
  exact (Array.getElem?_eq_some_iff.1 hi).1

theorem hits_eq (hs : b.Scattered bank i c) (a : Address) : b.hits i a = c.hits a := by
  obtain ⟨h, hi, hh, hroute⟩ := hs
  rw [hits, hi]
  simp only [hroute a]
  exact hh.hits_eq a

/-- The client's own accesses act on its banks as on the one cache. -/
theorem touch (hs : b.Scattered bank i c) (a : Address) (kind : AccessKind) :
    (b.touch i a kind).Scattered bank i (c.touch a kind) := by
  obtain ⟨h, hi, hh, hroute⟩ := hs
  refine ⟨_, ?_, hh.touch a kind, ?_⟩
  · rw [getElem?_touch, if_pos rfl, hi, Option.map_some, hroute a]
    rfl
  · rw [Holding.size_banks_touch]
    exact hroute

/-- The accesses of other clients go to other banks. -/
theorem touch_of_ne (hs : b.Scattered bank i c) {j : Nat} (hj : j ≠ i) (a : Address) (kind : AccessKind) :
    (b.touch j a kind).Scattered bank i c := by
  obtain ⟨h, hi, hh⟩ := hs
  exact ⟨h, by rw [getElem?_touch_of_ne hj, hi], hh⟩

theorem tally?_eq (hs : b.Scattered bank i c) : b.tally? i = .ok c.tally := by
  obtain ⟨h, hi, hh, -⟩ := hs
  rw [tally?, hi]
  exact congrArg Except.ok hh.tally

theorem unserved?_eq (hs : b.Scattered bank i c) : (Scheme.banked b).unserved? i = some 0 := by
  obtain ⟨h, hi, hh, -⟩ := hs
  rw [Scheme.unserved?, hi, Option.map_some, hh.unserved]

theorem set?_eq (hs : b.Scattered bank i c) {s : Nat} (hlt : s < c.shape.sets) : b.set? i (bank s) s = c.sets[s]? := by
  obtain ⟨h, hi, hh, -⟩ := hs
  obtain ⟨d, hd, -, hset⟩ := hh.set s hlt
  rw [set?, hi, Option.bind_some, hd, Option.bind_some, hset]

/-- Whatever the clients do, and in whatever order: the client is answered as by
the one cache, and its banks go on holding what that cache holds. -/
theorem run {i : UInt64} (hs : b.Scattered bank i.toNat c) (xs : List Record) :
    let own := xs.filter fun x => x.client = i
    (Run.log Scheme.step (.banked b) xs).filter (fun e => e.1.client = i) =
      (Run.log Cache.step c own).map (fun e => (e.1, .ok e.2)) ∧
    ∃ b', Run.final Scheme.step (.banked b) xs = .banked b' ∧ b'.Scattered bank i.toNat (Run.final Cache.step c own) := by
  refine Run.log_filter_of_simulation (f := Scheme.step) (g := Cache.step)
    (fun s c => ∃ b, s = .banked b ∧ b.Scattered bank i.toNat c) (fun x : Record => x.client = i) Except.ok
    ?_ ?_ ⟨b, rfl, hs⟩ xs
  · -- A step of the client.
    rintro _ c x ⟨b, rfl, hs⟩ hx
    obtain rfl : x.client = i := by simpa using hx
    have hc : (Scheme.banked b).check x.client.toNat = .ok () := checkClient_eq_ok.2 hs.lt_clients
    rw [Scheme.step_of_ok hc]
    exact ⟨congrArg Except.ok (hs.hits_eq x.address), _, rfl, hs.touch x.address x.kind⟩
  · -- A step of another client, carried out or refused.
    rintro _ c x ⟨b, rfl, hs⟩ hx
    have hx : x.client.toNat ≠ i.toNat := fun e => by simp [UInt64.toNat_inj.1 e] at hx
    cases hc : (Scheme.banked b).check x.client.toNat with
    | error e => exact ⟨b, by rw [Scheme.step_of_error hc], hs⟩
    | ok u => exact ⟨_, by rw [Scheme.step_of_ok hc]; rfl, hs.touch_of_ne hx x.address x.kind⟩

end Scattered

/-! ## Slices -/

/-- The slice of an address depends on its set only, if the selection bits are
bits of the set. -/
theorem scattered_of_ofSlices? {clients : Nat} {owned : List Nat} {slice : Geometry} {b : Banked}
    (h : ofSlices? clients owned slice = .ok b) (hbits : 2 ^ Bits.bitLength clients ≤ slice.sets) {i n : Nat}
    (hn : owned[i]? = some n) :
    b.Scattered (· % 2 ^ Bits.bitLength clients % n) i (.empty (.ofCounts slice.sets slice.ways slice.block)) := by
  have hfresh := fresh_of_ofSlices? h
  obtain ⟨⟨-, -, hz, hc⟩, rfl⟩ := ofSlices?_eq_ok.1 h
  obtain ⟨-, -, -, -, hp⟩ := Geometry.check_eq_ok.1 hc
  have hpos : 0 < n := Nat.pos_of_ne_zero (hz n (List.mem_of_getElem? hn))
  refine ⟨{ banks := Array.replicate n (some (.empty (.ofCounts slice.sets slice.ways slice.block))) }, ?_, ?_, ?_⟩
  · simp [hn]
  · refine (hfresh i _ (by simp [hn])).scattered fun s _ => ?_
    simp [Holding.bank?, Nat.mod_lt _ hpos]
  · intro a
    have hwidth : Bits.bitLength clients ≤ (Shape.ofCounts slice.sets slice.ways slice.block).indexBits :=
      hp.two_pow_le.1 hbits
    rw [Division.route, Division.sliceOf, Array.size_replicate]
    exact congrArg (fun selection => (selection % n, a)) (Shape.field_eq_set_mod _ a hwidth)

/-- The sets of a slice outnumber the clients exactly if they can be told apart
by the selection bits. Then the slices of a client are one slice, however many
it owns: whatever the clients do, and in whatever order, it gets the answers and
the counts of a single slice on which only its own accesses are carried out, and
each set of that slice is the set of the same index in one of its slices. -/
theorem slices_are_one {clients : Nat} {owned : List Nat} {slice : Geometry} {b : Banked}
    (h : ofSlices? clients owned slice = .ok b) {i : UInt64} (hi : i.toNat < clients) :
    (clients < slice.sets ↔ 2 ^ Bits.bitLength clients ≤ slice.sets) ∧
    (clients < slice.sets → ∃ n c, owned[i.toNat]? = some n ∧ Cache.ofGeometry? slice = .ok c ∧
      ∀ xs : List Record,
        let own := xs.filter fun x => x.client = i
        let alone := Run.final Cache.step c own
        (Run.log Scheme.step (.banked b) xs).filter (fun e => e.1.client = i) =
          (Run.log Cache.step c own).map (fun e => (e.1, .ok e.2)) ∧
        ∃ b', Run.final Scheme.step (.banked b) xs = .banked b' ∧ b'.tally? i.toNat = .ok alone.tally ∧
          ∀ s < slice.sets, b'.set? i.toNat (s % 2 ^ Bits.bitLength clients % n) s = alone.sets[s]?) := by
  obtain ⟨⟨hlen, -, -, hc⟩, -⟩ := ofSlices?_eq_ok.1 h
  obtain ⟨-, -, -, -, hp⟩ := Geometry.check_eq_ok.1 hc
  have hiff : clients < slice.sets ↔ 2 ^ Bits.bitLength clients ≤ slice.sets := by
    rw [hp.two_pow_le, Bits.bitLength_le_iff, hp.two_pow_log2]
  refine ⟨hiff, fun hsets => ?_⟩
  have hn : owned[i.toNat]? = some owned[i.toNat] := List.getElem?_eq_getElem (hlen ▸ hi)
  have hstart := scattered_of_ofSlices? h (hiff.1 hsets) hn
  refine ⟨_, _, hn, Cache.ofGeometry?_eq_ok.2 ⟨hc, rfl⟩, fun xs => ?_⟩
  obtain ⟨hlog, b', hb', hend⟩ := hstart.run xs
  refine ⟨hlog, b', hb', hend.tally?_eq, fun s hs => hend.set?_eq ?_⟩
  rw [Cache.shape_final]
  exact Nat.lt_of_lt_of_eq hs (Shape.sets_ofCounts hp).symm

/-- Three slices and one, and two clients: blocks 0 and 3 share the first slice of
the client that owns three, and block 4 takes the place of block 0 only. -/
theorem three_slices_are_one :
    let slice : Geometry := ⟨64, 1, 16⟩
    let xs : List Record :=
      [⟨0x00, 0, .write⟩, ⟨0x30, 0, .read⟩, ⟨0x00, 1, .read⟩, ⟨0x40, 0, .read⟩, ⟨0x38, 0, .read⟩, ⟨0x00, 0, .read⟩]
    ∃ b b', ofSlices? 2 [3, 1] slice = .ok b ∧ (0 : UInt64).toNat < 2 ∧ 2 < slice.sets ∧
      (Run.log Scheme.step (.banked b) xs).filter (fun e => e.1.client = 0) =
        [(⟨0x00, 0, .write⟩, .ok false), (⟨0x30, 0, .read⟩, .ok false), (⟨0x40, 0, .read⟩, .ok false),
          (⟨0x38, 0, .read⟩, .ok true), (⟨0x00, 0, .read⟩, .ok false)] ∧
      Run.final Scheme.step (.banked b) xs = .banked b' ∧ b'.tally? 0 = .ok { misses := 4, hits := 1 } ∧
      b'.set? 0 0 3 = some ⟨[⟨0, some { tag := 0, address := 0x30, dirty := false }⟩]⟩ := by
  intro slice xs
  obtain ⟨b, hb⟩ : ∃ b, ofSlices? 2 [3, 1] slice = .ok b :=
    ⟨_, ofSlices?_eq_ok.2 ⟨⟨rfl, by decide, by decide, Geometry.check_eq_ok.2 (by decide)⟩, rfl⟩⟩
  have hi : (0 : UInt64).toNat < 2 := by decide
  have hsets : 2 < slice.sets := by decide
  obtain ⟨n, c, hn, hc, hruns⟩ := (slices_are_one hb hi).2 hsets
  obtain rfl : 3 = n := Option.some.inj hn
  obtain ⟨-, rfl⟩ := Cache.ofGeometry?_eq_ok.1 hc
  obtain ⟨hlog, b', hb', ht, hset⟩ := hruns xs
  refine ⟨b, b', hb, hi, hsets, ?_, hb', ?_, ?_⟩
  · rw [hlog]
    decide
  · refine ht.trans ?_
    decide
  · refine (hset 3 (by decide)).trans ?_
    decide

end Banked

/-! ## Cells -/

namespace CoreTable
variable {t : CoreTable} {client clusters : Nat}

/-- The cluster that a table selects for all addresses of a set. -/
def clusterOfSet? (t : CoreTable) (s : Nat) : Option Nat := t.cluster? (s % 2 ^ Bits.indexWidth t.total % t.total)

theorem cluster?_selector (s : Shape) (a : Address) (h : t.total ≤ s.sets) :
    t.cluster? (t.selector a s.offsetBits) = t.clusterOfSet? (s.locate a).set := by
  rw [selector, Shape.field_eq_set_mod s a (Bits.indexWidth_le_iff.2 h), clusterOfSet?]

/-- A table without fault has an entry for every set. -/
theorem exists_entry_of_check (h : t.check client clusters = .ok ()) (s : Nat) :
    ∃ e ∈ t.entries, t.clusterOfSet? s = some e.1 := by
  obtain ⟨k, hk, -⟩ := cluster?_of_check h (Nat.mod_lt (s % 2 ^ Bits.indexWidth t.total) (total_pos_of_check h))
  obtain ⟨e, he, rfl⟩ := Option.map_eq_some_iff.1 hk
  exact ⟨e, List.mem_of_find?_eq_some he, hk⟩

end CoreTable

namespace Banked
variable {clients : Nat} {sizes : List (List Nat)} {ways block : Nat} {tables : List CoreTable} {b : Banked}
  {t : CoreTable} {size : Nat}

/-- Cells that have sets have bytes, and then no fault. -/
theorem CellsFit.check_of_entries (hfit : CellsFit clients sizes ways block tables) {i : Nat} (ht : tables[i]? = some t)
    (hsame : ∀ e ∈ t.entries, (sizes[e.1]?.bind (·[i]?)) = some size)
    (hsets : t.total ≤ Geometry.sets { size, ways, block }) :
    size ≠ 0 ∧ Geometry.check { size, ways, block } = .ok () := by
  have htable := checkTables_eq_ok.1 hfit.tables i t ht
  have hsize : size ≠ 0 := by
    rintro rfl
    have hpos := CoreTable.total_pos_of_check htable
    rw [Geometry.sets, Nat.zero_div] at hsets
    omega
  obtain ⟨e, he, -⟩ := CoreTable.exists_entry_of_check htable 0
  obtain ⟨row, hrow, hcell⟩ := Option.bind_eq_some_iff.1 (hsame e he)
  exact ⟨hsize, (hfit.cells row (List.mem_of_getElem? hrow)).2 size (List.mem_of_getElem? hcell) hsize⟩

/-- The cell of an address depends on its set only, if there are sets enough to
tell the cores apart. -/
theorem scattered_of_ofCells? (h : ofCells? clients sizes ways block tables = .ok b) {i : Nat}
    (ht : tables[i]? = some t) (hsame : ∀ e ∈ t.entries, (sizes[e.1]?.bind (·[i]?)) = some size)
    (hsets : t.total ≤ Geometry.sets { size, ways, block }) :
    b.Scattered (fun s => (t.clusterOfSet? s).getD sizes.length) i
      (.empty (.ofCounts (Geometry.sets { size, ways, block }) ways block)) := by
  have hfresh := fresh_of_ofCells? h
  obtain ⟨⟨hfit, -⟩, rfl⟩ := ofCells?_eq_ok.1 h
  have htable := checkTables_eq_ok.1 hfit.tables i t ht
  obtain ⟨hsize, hcheck⟩ := hfit.check_of_entries ht hsame hsets
  obtain ⟨-, -, -, -, hp⟩ := Geometry.check_eq_ok.1 hcheck
  have hi : i < clients := hfit.tables_length ▸ (List.getElem?_eq_some_iff.1 ht).1
  refine ⟨{ banks := (sizes.map fun row => (row.map fun size => cell? size ways block)[i]?.join).toArray }, ?_, ?_, ?_⟩
  · simp [hi]
  · refine (hfresh i _ (by simp [hi])).scattered fun s _ => ?_
    obtain ⟨e, he, hk⟩ := CoreTable.exists_entry_of_check htable s
    obtain ⟨row, hrow, hcell⟩ := Option.bind_eq_some_iff.1 (hsame e he)
    simp [hk, Holding.bank?, hrow, hcell, cell?, hsize]
  · intro a
    have hcluster := t.cluster?_selector (.ofCounts (Geometry.sets { size, ways, block }) ways block) a
      (by rw [Shape.sets_ofCounts hp]; exact hsets)
    simp only [Division.route, Division.cellOf?, List.getElem?_toArray, ht, Option.bind_some, List.size_toArray,
      List.length_map]
    exact congrArg (fun k : Option Nat => (k.getD sizes.length, a)) hcluster

/-- Where all cells in the clusters of a client's table are there and of one size,
and have at least as many sets as the client has cores, the cells are one cell,
whatever the table: whatever the clients do, and in whatever order, the client
gets the answers and the counts of a single cell on which only its own accesses
are carried out, all its accesses are served, and each set of that cell is the
set of the same index in the cell of the cluster that the table selects for it.
(A cell that is not there has no bytes, and so no sets.) -/
theorem cells_are_one (h : ofCells? clients sizes ways block tables = .ok b) {i : UInt64}
    (ht : tables[i.toNat]? = some t)
    (hsame : ∀ e ∈ t.entries, (sizes[e.1]?.bind (·[i.toNat]?)) = some size)
    (hsets : t.total ≤ Geometry.sets { size, ways, block }) :
    ∃ c, Cache.ofGeometry? { size, ways, block } = .ok c ∧ ∀ xs : List Record,
      let own := xs.filter fun x => x.client = i
      let alone := Run.final Cache.step c own
      (Run.log Scheme.step (.banked b) xs).filter (fun e => e.1.client = i) =
        (Run.log Cache.step c own).map (fun e => (e.1, .ok e.2)) ∧
      ∃ b', Run.final Scheme.step (.banked b) xs = .banked b' ∧ b'.tally? i.toNat = .ok alone.tally ∧
        (Scheme.banked b').unserved? i.toNat = some 0 ∧
        ∀ s < Geometry.sets { size, ways, block }, ∃ e ∈ t.entries, t.clusterOfSet? s = some e.1 ∧
          b'.set? i.toNat e.1 s = alone.sets[s]? := by
  obtain ⟨⟨hfit, -⟩, -⟩ := ofCells?_eq_ok.1 h
  obtain ⟨-, hcheck⟩ := hfit.check_of_entries ht hsame hsets
  obtain ⟨-, -, -, -, hp⟩ := Geometry.check_eq_ok.1 hcheck
  have hstart := scattered_of_ofCells? h ht hsame hsets
  refine ⟨_, Cache.ofGeometry?_eq_ok.2 ⟨hcheck, rfl⟩, fun xs => ?_⟩
  obtain ⟨hlog, b', hb', hend⟩ := hstart.run xs
  refine ⟨hlog, b', hb', hend.tally?_eq, hend.unserved?_eq, fun s hs => ?_⟩
  obtain ⟨e, he, hk⟩ := CoreTable.exists_entry_of_check (checkTables_eq_ok.1 hfit.tables i.toNat t ht) s
  refine ⟨e, he, hk, ?_⟩
  have hset := hend.set?_eq (s := s) (by
    rw [Cache.shape_final]
    exact Nat.lt_of_lt_of_eq hs (Shape.sets_ofCounts hp).symm)
  rwa [hk] at hset

/-- Two cores in one cluster and one in another: four sets are spread over two
cells of the client, and its cell in a third cluster, which is smaller, does not
count. -/
theorem three_cores_are_one :
    let sizes := [[64, 0], [16, 64], [64, 0]]
    let t : CoreTable := .ofCounts [2, 0, 1]
    let xs : List Record :=
      [⟨0x00, 0, .write⟩, ⟨0x20, 0, .read⟩, ⟨0x00, 1, .read⟩, ⟨0x60, 0, .read⟩, ⟨0x08, 0, .read⟩, ⟨0x20, 0, .read⟩]
    (∀ e ∈ t.entries, (sizes[e.1]?.bind (·[(0 : UInt64).toNat]?)) = some 64) ∧
    t.total ≤ Geometry.sets { size := 64, ways := 1, block := 16 } ∧
    ∃ b b', ofCells? 2 sizes 1 16 [t, .ofCounts [0, 1, 0]] = .ok b ∧
      (Run.log Scheme.step (.banked b) xs).filter (fun e => e.1.client = 0) =
        [(⟨0x00, 0, .write⟩, .ok false), (⟨0x20, 0, .read⟩, .ok false), (⟨0x60, 0, .read⟩, .ok false),
          (⟨0x08, 0, .read⟩, .ok true), (⟨0x20, 0, .read⟩, .ok false)] ∧
      Run.final Scheme.step (.banked b) xs = .banked b' ∧ b'.tally? 0 = .ok { misses := 4, hits := 1 } ∧
      (Scheme.banked b').unserved? 0 = some 0 := by
  intro sizes t xs
  have hsame : ∀ e ∈ t.entries, (sizes[e.1]?.bind (·[(0 : UInt64).toNat]?)) = some 64 := by decide
  have hsets : t.total ≤ Geometry.sets { size := 64, ways := 1, block := 16 } := by decide
  obtain ⟨b, hb⟩ : ∃ b, ofCells? 2 sizes 1 16 [t, .ofCounts [0, 1, 0]] = .ok b := ⟨_, rfl⟩
  obtain ⟨c, hc, hruns⟩ := cells_are_one (i := 0) hb rfl hsame hsets
  obtain ⟨-, rfl⟩ := Cache.ofGeometry?_eq_ok.1 hc
  obtain ⟨hlog, b', hb', ht, hserved, -⟩ := hruns xs
  refine ⟨hsame, hsets, b, b', hb, ?_, hb', ?_, hserved⟩
  · rw [hlog]
    decide
  · refine ht.trans ?_
    decide

end Banked

end LastLevel
