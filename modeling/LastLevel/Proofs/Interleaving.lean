import LastLevel.Proofs.Comparison
import LastLevel.Proofs.Inclusion
import LastLevel.Scenario.Family
/-!
# Interleaved banks

Where all clients get the same, the banks of a client take the blocks in turn:
the block number modulo the number of banks names the bank
(`Banked.Interleaved`), whether the banks are called ways, slices or cells. An
access then reaches one bank of one client (`Interleaved.touch`), so after a run
every bank is as if it had been alone with its share of the accesses
(`Interleaved.final`). Main statement: `Scenario.owned_slices_are_cells`.
-/

namespace LastLevel

/-! ## The banks of one client -/

namespace Holding
variable {n : Nat} (bank : Nat → Option Cache) (unserved : Nat)

theorem bank?_range (j : Nat) :
    bank? { banks := (Array.range n).map bank, unserved } j = if j < n then bank j else none := by
  rw [bank?, Array.getElem?_map, Array.getElem?_range]
  split <;> rfl

/-- An access to a bank, missing or not, changes no other bank. -/
theorem touch_range {j : Nat} (hj : j < n) (a : Address) (kind : AccessKind) : ∃ unserved',
    touch { banks := (Array.range n).map bank, unserved } j a kind =
      { banks := (Array.range n).map fun k => if j = k then (bank k).map fun c => c.touch a kind else bank k,
        unserved := unserved' } := by
  unfold touch
  rw [bank?_range, if_pos hj]
  cases hc : bank j with
  | some c =>
    refine ⟨unserved, ?_⟩
    rw [Option.isSome_some, if_pos rfl, mk.injEq]
    refine ⟨Array.ext_getElem? fun k => ?_, rfl⟩
    rw [Array.getElem?_modify, Array.getElem?_map, Array.getElem?_map, Array.getElem?_range]
    by_cases hk : k < n <;> by_cases hjk : j = k <;> simp [hk, hjk]
  | none =>
    have hsame : (fun k => if j = k then (bank k).map fun c => c.touch a kind else bank k) = bank := by
      funext k
      split
      · next h => rw [← h, hc]; rfl
      · rfl
    exact ⟨unserved + 1, by rw [hsame]; rfl⟩

end Holding

/-! ## All clients -/

/-- The records of a client whose blocks fall to one of `n` banks. -/
def share (offsetBits n client bank : Nat) (xs : List Record) : List Record :=
  xs.filter fun x => x.client.toNat = client ∧ x.address.toNat / 2 ^ offsetBits % n = bank

namespace Banked

/-- A bank of a client. -/
def bank? (b : Banked) (client bank : Nat) : Option Cache := b.holdings[client]?.bind (·.bank? bank)

/-- Each client has the banks `bank client 0` to `bank client (n - 1)`, and a
block goes to the one that its number names modulo `n`. -/
structure Interleaved (clients n offsetBits : Nat) (bank : Nat → Nat → Option Cache) (b : Banked) : Prop where
  pos : 0 < n
  size : b.clients = clients
  route : ∀ i < clients, ∀ a, b.division.route i n a = (a.toNat / 2 ^ offsetBits % n, a)
  holding : ∀ i < clients, ∃ unserved, b.holdings[i]? = some { banks := (Array.range n).map (bank i), unserved }

namespace Interleaved
variable {clients n offsetBits : Nat} {bank : Nat → Nat → Option Cache} {b : Banked}

theorem getElem?_eq_none (h : Interleaved clients n offsetBits bank b) {i : Nat} (hi : clients ≤ i) :
    b.holdings[i]? = none :=
  Array.getElem?_eq_none (Nat.le_trans (Nat.le_of_eq h.size) hi)

theorem bank?_eq (h : Interleaved clients n offsetBits bank b) (i j : Nat) :
    b.bank? i j = if i < clients ∧ j < n then bank i j else none := by
  rcases Nat.lt_or_ge i clients with hi | hi
  · obtain ⟨unserved, hb⟩ := h.holding i hi
    rw [bank?, hb, Option.bind_some, Holding.bank?_range]
    simp only [hi, true_and]
  · rw [bank?, h.getElem?_eq_none hi, if_neg (by omega)]
    rfl

theorem hits_iff (h : Interleaved clients n offsetBits bank b) (i : Nat) (a : Address) :
    b.hits i a = true ↔
      i < clients ∧ ∃ c, bank i (a.toNat / 2 ^ offsetBits % n) = some c ∧ c.hits a = true := by
  rcases Nat.lt_or_ge i clients with hi | hi
  · obtain ⟨unserved, hb⟩ := h.holding i hi
    simp only [hits, hb, Array.size_map, Array.size_range, h.route i hi, Holding.hits, Holding.bank?_range,
      Nat.mod_lt _ h.pos, if_true, hi, true_and]
    cases bank i (a.toNat / 2 ^ offsetBits % n) <;> simp
  · simp only [hits, h.getElem?_eq_none hi, Bool.false_eq_true, false_iff]
    omega

/-- An access changes one bank of one client. -/
theorem touch (h : Interleaved clients n offsetBits bank b) {i : Nat} (hi : i < clients) (a : Address)
    (kind : AccessKind) :
    Interleaved clients n offsetBits
      (fun k j =>
        if i = k ∧ a.toNat / 2 ^ offsetBits % n = j then (bank k j).map fun c => c.touch a kind else bank k j)
      (b.touch i a kind) where
  pos := h.pos
  size := by rw [clients_touch, h.size]
  route := h.route
  holding := by
    intro k hk
    obtain ⟨unserved, hb⟩ := h.holding k hk
    rw [getElem?_touch, hb]
    by_cases hik : i = k
    · subst hik
      have hlt : a.toNat / 2 ^ offsetBits % n < n := Nat.mod_lt _ h.pos
      obtain ⟨unserved', ht⟩ := Holding.touch_range (bank i) unserved hlt a kind
      refine ⟨unserved', ?_⟩
      simp only [if_true, true_and, Option.map_some, Array.size_map, Array.size_range, h.route i hi, ht]
    · refine ⟨unserved, ?_⟩
      simp only [hik, if_false, false_and]

/-- The counts of a client are those of its banks. -/
theorem tally?_eq {offsetBits' : Nat} {b' : Banked} (h : Interleaved clients n offsetBits bank b)
    (h' : Interleaved clients n offsetBits' bank b') (i : Nat) : b.tally? i = b'.tally? i := by
  rw [tally?, tally?, h.size, h'.size]
  rcases Nat.lt_or_ge i clients with hi | hi
  · obtain ⟨unserved, hb⟩ := h.holding i hi
    obtain ⟨unserved', hb'⟩ := h'.holding i hi
    rw [hb, hb']
    rfl
  · rw [h.getElem?_eq_none hi, h'.getElem?_eq_none hi]

theorem congr (h : Interleaved clients n offsetBits bank b) {bank' : Nat → Nat → Option Cache}
    (hbank : ∀ i < clients, bank i = bank' i) : Interleaved clients n offsetBits bank' b where
  pos := h.pos
  size := h.size
  route := h.route
  holding i hi := hbank i hi ▸ h.holding i hi

/-- After a run every bank is as if it had been alone with its share of the
accesses. -/
theorem final (h : Interleaved clients n offsetBits bank b) (xs : List Record) :
    ∃ b', Run.final Scheme.step (.banked b) xs = .banked b' ∧ Interleaved clients n offsetBits
      (fun i j => (bank i j).map fun c => Run.final Cache.step c (share offsetBits n i j xs)) b' := by
  induction xs using List.reverseRecOn with
  | nil => exact ⟨b, rfl, by simpa [share] using h⟩
  | append_singleton xs x ih =>
    obtain ⟨b', hb', h'⟩ := ih
    -- The last record is in one share, and there it comes last.
    have hlast : ∀ i j c, Run.final Cache.step c (share offsetBits n i j (xs ++ [x])) =
        if x.client.toNat = i ∧ x.address.toNat / 2 ^ offsetBits % n = j
        then (Run.final Cache.step c (share offsetBits n i j xs)).touch x.address x.kind
        else Run.final Cache.step c (share offsetBits n i j xs) := by
      intro i j c
      rw [share, List.filter_append, List.filter_singleton, ← share, Run.final_append]
      by_cases hx : x.client.toNat = i ∧ x.address.toNat / 2 ^ offsetBits % n = j
      · rw [decide_eq_true hx, if_pos hx]
        rfl
      · rw [decide_eq_false hx, if_neg hx]
        rfl
    rw [Run.final_append, hb', Run.final_cons, Run.final_nil]
    cases hc : (Scheme.banked b').check x.client.toNat with
    | ok u =>
      rw [Scheme.step_of_ok hc]
      have hi : x.client.toNat < clients := h'.size ▸ checkClient_eq_ok.1 hc
      refine ⟨_, rfl, (h'.touch hi x.address x.kind).congr fun i _ => funext fun j => ?_⟩
      cases bank i j with
      | none => simp
      | some c =>
        simp only [Option.map_some, hlast]
        split <;> rfl
    | error e =>
      rw [Scheme.step_of_error hc]
      have hi : clients ≤ x.client.toNat := h'.size ▸ (checkClient_eq_error.1 hc).1
      refine ⟨b', rfl, h'.congr fun i hlt => funext fun j => ?_⟩
      simp only [hlast, show x.client.toNat ≠ i by omega, false_and, if_false]

end Interleaved

/-! ## Even shares -/

/-- All clients start with copies of one bank, or with none. -/
theorem interleaved_of_copies {d : Division} {clients n offsetBits : Nat} (hn : 0 < n)
    (hroute : ∀ i < clients, ∀ a, d.route i n a = (a.toNat / 2 ^ offsetBits % n, a)) (bank : Option Cache) :
    Interleaved clients n offsetBits (fun _ _ => bank)
      { division := d, holdings := (List.replicate clients { banks := Array.replicate n bank }).toArray } where
  pos := hn
  size := by simp [Banked.clients]
  route := hroute
  holding i hi := by
    refine ⟨0, ?_⟩
    rw [List.getElem?_toArray, List.getElem?_replicate, if_pos hi, Array.map_const', Array.size_range]

theorem interleaved_of_ofWays? {clients ways size block : Nat} {b : Banked}
    (h : ofWays? (List.replicate clients ways) size block = .ok b) :
    let g : Geometry := { size, ways := totalShare (List.replicate clients ways), block }
    g.check = .ok () ∧ 0 < ways ∧
      Interleaved clients 1 block.log2 (fun _ _ => some (.empty (.ofCounts g.sets ways block))) b := by
  intro g
  obtain ⟨sets, cs, hd, rfl⟩ := ofWays?_eq_ok.1 h
  obtain ⟨⟨hne, hz, hc⟩, rfl, -, rfl⟩ := divideWays_eq_ok.1 hd
  have hclients : clients ≠ 0 := fun h0 => hne (by rw [h0]; rfl)
  refine ⟨hc, Nat.pos_of_ne_zero (hz ways (List.mem_replicate.2 ⟨hclients, rfl⟩)), ?_⟩
  rw [List.map_replicate, List.map_replicate]
  exact interleaved_of_copies Nat.one_pos (fun i _ a => by rw [Nat.mod_one]; rfl) _

/-! ### Slices -/

theorem ofSlices?_eq_ok {clients : Nat} {owned : List Nat} {slice : Geometry} {b : Banked} :
    ofSlices? clients owned slice = .ok b ↔
      (owned.length = clients ∧ clients ≠ 0 ∧ (∀ n ∈ owned, n ≠ 0) ∧ slice.check = .ok ()) ∧
      b = {
        division := .slices slice.block.log2 (Bits.bitLength clients)
        holdings := (owned.map fun n =>
          { banks := Array.replicate n (some (.empty (.ofCounts slice.sets slice.ways slice.block))) }).toArray } := by
  unfold ofSlices?
  split
  · next hl => simp [hl]
  · next hl =>
    split
    · next h0 => simp [h0]
    · next h0 =>
      split
      · next i hi =>
        obtain ⟨hlt, hz, -⟩ := List.findIdx?_eq_some_iff_getElem.1 hi
        simp only [reduceCtorEq, false_iff]
        rintro ⟨⟨-, -, hall, -⟩, -⟩
        exact hall _ (List.getElem_mem hlt) (by simpa using hz)
      · next hn =>
        have hz : ∀ n ∈ owned, n ≠ 0 := by simpa [List.findIdx?_eq_none_iff] using hn
        rw [map_eq_ok]
        simp only [Cache.ofGeometry?_eq_ok, Decidable.of_not_not hl, h0, not_false_eq_true, ne_eq, true_and]
        constructor
        · rintro ⟨c, ⟨hc, rfl⟩, rfl⟩
          exact ⟨⟨hz, hc⟩, rfl⟩
        · rintro ⟨⟨-, hc⟩, rfl⟩
          exact ⟨_, ⟨hc, rfl⟩, rfl⟩

/-- Slices whose number divides what the selection bits can tell apart take the
blocks in turn. -/
theorem interleaved_of_ofSlices? {clients owned : Nat} (howned : owned ∣ 2 ^ Bits.bitLength clients)
    {slice : Geometry} {b : Banked} (h : ofSlices? clients (List.replicate clients owned) slice = .ok b) :
    slice.check = .ok () ∧ Interleaved clients owned slice.block.log2
      (fun _ _ => some (.empty (.ofCounts slice.sets slice.ways slice.block))) b := by
  obtain ⟨⟨-, hclients, hz, hc⟩, rfl⟩ := ofSlices?_eq_ok.1 h
  refine ⟨hc, ?_⟩
  have hpos : 0 < owned := Nat.pos_of_ne_zero (hz owned (List.mem_replicate.2 ⟨hclients, rfl⟩))
  rw [List.map_replicate]
  refine interleaved_of_copies hpos (fun i _ a => ?_) _
  rw [Division.route, Division.sliceOf, Bits.field_toNat, Nat.mod_mod_of_dvd _ howned]

end Banked

/-! ### Cells -/

namespace CoreTable

/-- With one core in every cluster, each selector has a cluster of its own. -/
theorem find?_entriesFrom_ones (cluster before : Nat) {n sel : Nat} (h : sel < n) :
    (entriesFrom cluster before (List.replicate n 1)).find? (before + sel < ·.2) =
      some (cluster + sel, before + sel + 1) := by
  induction n generalizing cluster before sel with
  | zero => omega
  | succ n ih =>
    rw [List.replicate_succ]
    show ((cluster, before + 1) :: entriesFrom (cluster + 1) (before + 1) (List.replicate n 1)).find? _ = _
    rw [List.find?_cons]
    cases sel with
    | zero => simp
    | succ sel =>
      have ih := @ih (cluster + 1) (before + 1) sel (by omega)
      rw [Nat.add_right_comm before 1 sel, Nat.add_right_comm cluster 1 sel] at ih
      simp only [show ¬ before + (sel + 1) < before + 1 by omega, decide_false]
      exact ih

theorem total_ones (n : Nat) : (ofCounts (List.replicate n 1)).total = n :=
  (totalShare_replicate n 1).trans (Nat.mul_one n)

/-- As many bits as number a power of two tell all remainders apart. -/
theorem mod_indexWidth {n : Nat} (hn : Bits.IsPow2 n) : 2 ^ Bits.indexWidth n = n := by
  obtain ⟨k, rfl⟩ := Bits.isPow2_iff.1 hn
  cases k with
  | zero => rfl
  | succ k =>
    have hlog : (2 ^ (k + 1) - 1).log2 = k := by
      have hpos := Nat.two_pow_pos k
      refine (Nat.log2_eq_iff (by omega)).2 ⟨by omega, by omega⟩
    have hle : ¬ 2 ^ (k + 1) ≤ 1 := by have := Nat.two_pow_pos k; omega
    rw [Bits.indexWidth, if_neg hle, hlog]

theorem cluster?_ones {n : Nat} (hn : Bits.IsPow2 n) (a : Address) (offsetBits : Nat) :
    let t := ofCounts (List.replicate n 1)
    t.cluster? (t.selector a offsetBits) = some (a.toNat / 2 ^ offsetBits % n) := by
  intro t
  have hselector : t.selector a offsetBits = a.toNat / 2 ^ offsetBits % n := by
    rw [selector, total_ones, Bits.field_toNat, mod_indexWidth hn, Nat.mod_mod]
  have hfind := find?_entriesFrom_ones 0 0 (Nat.mod_lt (a.toNat / 2 ^ offsetBits) hn.pos)
  simp only [Nat.zero_add] at hfind
  rw [hselector]
  show ((entriesFrom 0 0 (List.replicate n 1)).find? _).map _ = _
  rw [hfind]
  rfl

end CoreTable

namespace Banked

/-- Where all cells have one size, all clients have equal banks. -/
theorem holdings_of_equal_cells (clients n size ways block : Nat) :
    (List.range clients).map (fun i : Nat => ({ banks := ((List.replicate n (List.replicate clients size)).map fun row =>
      (row.map fun size => cell? size ways block)[i]?.join).toArray } : Holding)) =
        List.replicate clients { banks := Array.replicate n (cell? size ways block) } := by
  refine List.eq_replicate_iff.2 ⟨by simp, fun x hx => ?_⟩
  obtain ⟨i, hi, rfl⟩ := List.mem_map.1 hx
  simp [List.mem_range.1 hi]

/-- Cells of a client that has one core in every cluster take the blocks in
turn. -/
theorem interleaved_of_ofCells? {clients n size ways block : Nat} (hn : Bits.IsPow2 n) {b : Banked}
    (h : ofCells? clients (List.replicate n (List.replicate clients size)) ways block
      (List.replicate clients (.ofCounts (List.replicate n 1))) = .ok b) :
    (clients ≠ 0 → size ≠ 0 → Geometry.check { size, ways, block } = .ok ()) ∧
      Interleaved clients n block.log2 (fun _ _ => cell? size ways block) b := by
  obtain ⟨⟨hfit, -⟩, rfl⟩ := ofCells?_eq_ok.1 h
  obtain ⟨-, hcells⟩ := hfit.cells _ (List.mem_replicate.2 ⟨hn.pos.ne', rfl⟩)
  refine ⟨fun hclients => hcells size (List.mem_replicate.2 ⟨hclients, rfl⟩), ?_⟩
  rw [holdings_of_equal_cells, List.length_replicate]
  refine interleaved_of_copies hn.pos (fun i hi a => ?_) _
  have htable : (List.replicate clients (CoreTable.ofCounts (List.replicate n 1))).toArray[i]? =
      some (.ofCounts (List.replicate n 1)) := by simp [hi]
  rw [Division.route, Division.cellOf?, htable, Option.bind_some, CoreTable.cluster?_ones hn]
  rfl

end Banked

/-! ## Members of a family -/

namespace Scenario
variable {llc : Geometry} {cores : Nat} {p : Scheme}

theorem interleaved_of_ways (h : (ways llc cores).plan.build = .ok p) :
    let g : Geometry := { llc with ways := totalShare (List.replicate cores (waysEach llc cores)) }
    ∃ b, p = .banked b ∧ g.check = .ok () ∧ 0 < waysEach llc cores ∧ b.Interleaved cores 1 llc.block.log2
      fun _ _ => some (.empty (.ofCounts g.sets (waysEach llc cores) llc.block)) := by
  intro g
  obtain ⟨b, hb, rfl⟩ := mapError_map_eq_ok.1 h
  exact ⟨b, rfl, Banked.interleaved_of_ofWays? hb⟩

theorem interleaved_of_slices {owned size : Nat} (howned : owned ∣ 2 ^ Bits.bitLength cores)
    (h : (slices llc cores owned size).plan.build = .ok p) :
    let g : Geometry := { llc with size }
    ∃ b, p = .banked b ∧ g.check = .ok () ∧ b.Interleaved cores owned llc.block.log2
      fun _ _ => some (.empty (.ofCounts g.sets llc.ways llc.block)) := by
  intro g
  obtain ⟨b, hb, rfl⟩ := mapError_map_eq_ok.1 h
  rw [List.length_replicate] at hb
  exact ⟨b, rfl, Banked.interleaved_of_ofSlices? howned hb⟩

theorem interleaved_of_cells {n size : Nat} (hn : Bits.IsPow2 n) (h : (cells llc cores n size).plan.build = .ok p) :
    ∃ b, p = .banked b ∧ (cores ≠ 0 → size ≠ 0 → Geometry.check { llc with size } = .ok ()) ∧
      b.Interleaved cores n llc.block.log2 fun _ _ => Banked.cell? size llc.ways llc.block := by
  obtain ⟨b, hb, rfl⟩ := map_eq_ok.1 h
  rw [List.length_replicate, List.map_replicate] at hb
  exact ⟨b, rfl, Banked.interleaved_of_ofCells? hn hb⟩

end Scenario

/-! ## Slices and cells of one size -/

theorem getElem?_flatMap {α β : Type} {f : α → List β} {n : Nat} (hf : ∀ a, (f a).length = n) (xs : List α)
    {k : Nat} (hk : k < n) (m : Nat) : (xs.flatMap f)[n * m + k]? = xs[m]?.bind fun a => (f a)[k]? := by
  induction xs generalizing m with
  | nil => simp
  | cons x xs ih =>
    rw [List.flatMap_cons]
    cases m with
    | zero =>
      rw [Nat.mul_zero, Nat.zero_add, List.getElem?_append_left (by rw [hf]; exact hk)]
      rfl
    | succ m =>
      rw [List.getElem?_append_right (by rw [hf, Nat.mul_add]; omega), hf,
        show n * (m + 1) + k - n = n * m + k by rw [Nat.mul_add]; omega, ih, List.getElem?_cons_succ]

namespace Scenario

@[simp] theorem plan_sized (s : Scenario) (size : Nat) : (s.sized size).plan = s.plan := rfl

theorem getElem?_ownedSweep {llc : Geometry} {cores owned k : Nat} (hk : k < 3) (sizes : List Nat) (m : Nat) :
    (ownedSweep llc cores owned sizes)[3 * m + k]? = sizes[m]?.bind fun size =>
      ([slices llc cores owned size, clusters llc cores owned (size * cores), cells llc cores owned size].map
        (·.sized size))[k]? :=
  getElem?_flatMap (n := 3) (fun _ => rfl) sizes hk m

/-- In a sweep over owned slices, where the owned ones are a power of two that the
selection bits can tell apart, slices and cells are the same thing: every trace
has the same accesses, rejected records and counts on both, and slice `j` of a
client ends in the very state of the client's cell in cluster `j`. -/
theorem owned_slices_are_cells {llc : Geometry} {cores owned : Nat} {sizes : List Nat} (howned : Bits.IsPow2 owned)
    (hle : owned ≤ 2 ^ Bits.bitLength cores) {m : Nat} {s u : Scenario}
    (hs : (ownedSweep llc cores owned sizes)[3 * m]? = some s)
    (hu : (ownedSweep llc cores owned sizes)[3 * m + 2]? = some u) {h k : Hierarchy} (hb : s.build = .ok h)
    (kb : u.build = .ok k) (t : Trace) :
    ∃ r q b c, s.replay t = .ok r ∧ u.replay t = .ok q ∧ r.accesses = q.accesses ∧ r.rejected = q.rejected ∧
      (∀ i, r.hierarchy.tally? i = q.hierarchy.tally? i) ∧
      r.hierarchy = .flat (.banked b) ∧ q.hierarchy = .flat (.banked c) ∧
      ∀ i < cores, ∀ j < owned, ∃ e, b.bank? i j = some e ∧ c.bank? i j = some e := by
  rw [show 3 * m = 3 * m + 0 from rfl, getElem?_ownedSweep (by decide)] at hs
  obtain ⟨size, hsize, hs⟩ := Option.bind_eq_some_iff.1 hs
  rw [getElem?_ownedSweep (by decide), hsize] at hu
  obtain rfl : (slices llc cores owned size).sized size = s := Option.some.inj hs
  obtain rfl : (cells llc cores owned size).sized size = u := Option.some.inj hu
  -- Both are built flat, and all banks start as the same empty cache.
  obtain ⟨_, hslices, rfl⟩ := Hierarchy.build_eq_ok.1 hb
  obtain ⟨_, hcells, rfl⟩ := Hierarchy.build_eq_ok.1 kb
  have hdvd : owned ∣ 2 ^ Bits.bitLength cores := howned.dvd (Bits.isPow2_two_pow _) hle
  obtain ⟨b, rfl, hg, hbanks⟩ := interleaved_of_slices hdvd hslices
  obtain ⟨c, rfl, -, hgrid⟩ := interleaved_of_cells howned hcells
  have hpos : size ≠ 0 := (Geometry.check_eq_ok.1 hg).1.pos.ne'
  simp only [Banked.cell?, if_neg hpos] at hgrid
  obtain ⟨r, hr, hra, hrr, hrh⟩ := replay_eq hb t
  obtain ⟨q, hq, hqa, hqr, hqh⟩ := replay_eq kb t
  have hserves : ∀ i, (Hierarchy.flat (.banked b)).serves i = (Hierarchy.flat (.banked c)).serves i := by
    intro i
    show decide (i < b.clients) = decide (i < c.clients)
    rw [hbanks.size, hgrid.size]
  obtain ⟨b', hb', hbanks'⟩ := hbanks.final t.records
  obtain ⟨c', hc', hgrid'⟩ := hgrid.final t.records
  rw [Hierarchy.final_flat, hb'] at hrh
  rw [Hierarchy.final_flat, hc'] at hqh
  refine ⟨r, q, b', c', hr, hq, by simp only [hra, hqa, hserves], by simp only [hrr, hqr, hserves], fun i => ?_, hrh,
    hqh, fun i hi j hj => ?_⟩
  · rw [hrh, hqh]
    exact hbanks'.tally?_eq hgrid' i
  · rw [hbanks'.bank?_eq, hgrid'.bank?_eq, if_pos ⟨hi, hj⟩]
    exact ⟨_, rfl, rfl⟩

/-- Two cores with two slices each: blocks 1 and 3 of the second core share a
slice, and a third core is refused. -/
theorem owned_slices_are_cells_of_two :
    let ss := ownedSweep ⟨0, 1, 16⟩ 2 2 [32, 64]
    let t : Trace := ⟨"t",
      [⟨0x10, 1, .read⟩, ⟨0x30, 1, .write⟩, ⟨0x18, 1, .read⟩, ⟨0x00, 0, .read⟩, ⟨0x00, 2, .read⟩]⟩
    Bits.IsPow2 2 ∧ 2 ≤ 2 ^ Bits.bitLength 2 ∧ ∃ (s u : Scenario) (h k : Hierarchy), ss[3]? = some s ∧
      ss[5]? = some u ∧ s.build = .ok h ∧ u.build = .ok k ∧ ∃ (r q : Replay) (b c : Banked), s.replay t = .ok r ∧
        u.replay t = .ok q ∧ r.rejected = 1 ∧ q.rejected = 1 ∧
        q.hierarchy.tally? 1 = .ok { misses := 2, hits := 1 } ∧
        r.hierarchy = .flat (.banked b) ∧ q.hierarchy = .flat (.banked c) ∧ b.bank? 1 1 = c.bank? 1 1 := by
  intro ss t
  have hpow : Bits.IsPow2 2 := rfl
  have hle : 2 ≤ 2 ^ Bits.bitLength 2 := by decide
  let s := (slices ⟨0, 1, 16⟩ 2 2 64).sized 64
  let u := (cells ⟨0, 1, 16⟩ 2 2 64).sized 64
  have hs : ss[3]? = some s := getElem?_ownedSweep (k := 0) (by decide) [32, 64] 1
  have hu : ss[5]? = some u := getElem?_ownedSweep (k := 2) (by decide) [32, 64] 1
  obtain ⟨h, hb⟩ : ∃ h, s.build = .ok h := ⟨_, rfl⟩
  obtain ⟨k, kb⟩ : ∃ k, u.build = .ok k := ⟨_, rfl⟩
  have hrejected : (s.replay t).map (·.rejected) = .ok 1 := by decide
  have htally : (s.replay t).map (·.hierarchy.tally? 1) = .ok (.ok { misses := 2, hits := 1 }) := by decide
  obtain ⟨r, q, b, c, hr, hq, -, hrq, hrt, hrb, hqc, hbanks⟩ :=
    owned_slices_are_cells (m := 1) hpow hle hs hu hb kb t
  rw [hr] at hrejected htally
  have hrejected : r.rejected = 1 := Except.ok.inj hrejected
  obtain ⟨e, hbe, hce⟩ := hbanks 1 (by decide) 1 (by decide)
  exact ⟨hpow, hle, s, u, h, k, hs, hu, hb, kb, r, q, b, c, hr, hq, hrejected, hrq ▸ hrejected,
    hrt 1 ▸ Except.ok.inj htally, hrb, hqc, hbe.trans hce.symm⟩

end Scenario

end LastLevel
