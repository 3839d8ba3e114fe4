import LastLevel.Proofs.Cells
import LastLevel.Proofs.Clustering
import LastLevel.Proofs.Isolation
import LastLevel.Proofs.Layout
/-!
# What every access can rely on

A cache is `Sound` when it has ways and its sets are sound; a client's holding,
when every address selects one of its banks; a scheme with regions, when the
regions stay apart and every client has a counter. Accesses keep all of this.
What is built is moreover `Fresh`: nothing is held or counted yet
(`Scheme.fresh_of_build`, `Hierarchy.fresh_of_build`).
-/

namespace LastLevel

/-! ## Caches -/

namespace Cache

structure Sound (c : Cache) : Prop where
  ways : 0 < c.shape.ways
  sets : ∀ (i : Nat) (s : CacheSet), c.sets[i]? = some s → s.Sound c.shape.ways

theorem sound_empty {shape : Shape} (h : 0 < shape.ways) : (empty shape).Sound := by
  refine ⟨h, fun i s hs => ?_⟩
  obtain ⟨-, rfl⟩ := Array.getElem?_eq_some_iff.1 hs
  simpa [empty] using CacheSet.sound_empty shape.ways

theorem Sound.touchAt {c : Cache} (h : c.Sound) (l : Location) (a : Address) (kind : AccessKind) :
    (c.touchAt l a kind).Sound := by
  refine ⟨h.ways, fun i s hs => ?_⟩
  rw [getElem?_sets_touchAt] at hs
  split at hs
  · obtain ⟨s, hi, rfl⟩ := Option.map_eq_some_iff.1 hs
    exact (h.sets i s hi).touch l.tag a kind
  · exact h.sets i s hs

theorem Sound.touch {c : Cache} (h : c.Sound) (a : Address) (kind : AccessKind) : (c.touch a kind).Sound :=
  h.touchAt _ a kind

/-- A cache with ways that was never accessed. -/
def Fresh (c : Cache) : Prop := ∃ shape : Shape, 0 < shape.ways ∧ c = empty shape

theorem Fresh.sound {c : Cache} (h : c.Fresh) : c.Sound := by
  obtain ⟨shape, hw, rfl⟩ := h
  exact sound_empty hw

theorem Fresh.tally_eq {c : Cache} (h : c.Fresh) : c.tally = {} := by
  obtain ⟨shape, hw, rfl⟩ := h
  rfl

theorem IsBuilt.fresh {c : Cache} {sets ways block : Nat} (h : c.IsBuilt sets ways block) : c.Fresh := by
  obtain ⟨-, -, hw, rfl⟩ := h.eq_empty
  exact ⟨_, hw, rfl⟩

theorem fresh_of_ofGeometry? {g : Geometry} {c : Cache} (h : Cache.ofGeometry? g = .ok c) : c.Fresh :=
  (show c.IsBuilt g.sets g.ways g.block from .inr ⟨g.size, h, rfl⟩).fresh

end Cache

/-! ## Banks -/

/-- Only a cell may be missing. -/
def Division.MayMiss : Division → Prop
  | cells .. => True
  | _ => False

namespace Holding

@[simp] theorem size_banks_touch (h : Holding) (i : Nat) (a : Address) (kind : AccessKind) :
    (h.touch i a kind).banks.size = h.banks.size := by
  unfold touch
  split <;> simp

theorem touch_of_none {h : Holding} {i : Nat} (hn : h.bank? i = none) (a : Address) (kind : AccessKind) :
    h.touch i a kind = { h with unserved := h.unserved + 1 } := by
  rw [touch, hn]
  rfl

theorem unserved_touch_of_some {h : Holding} {i : Nat} {c : Cache} (hc : h.bank? i = some c) (a : Address)
    (kind : AccessKind) : (h.touch i a kind).unserved = h.unserved := by
  rw [touch, hc]
  rfl

/-- Every address selects one of the banks, and only a cell is missing. -/
structure Sound (d : Division) (client : Nat) (h : Holding) : Prop where
  selects : ∀ a, d.select client h.banks.size a = .ok (d.route client h.banks.size a)
  inside : ∀ a, (d.route client h.banks.size a).1 < h.banks.size
  bank : ∀ (i : Nat) (c : Cache), h.bank? i = some c → c.Sound
  full : d.MayMiss ∨ h.unserved = 0 ∧ ∀ i < h.banks.size, ∃ c, h.bank? i = some c

/-- A holding that was never accessed. -/
structure Fresh (d : Division) (client : Nat) (h : Holding) : Prop where
  sound : h.Sound d client
  unserved : h.unserved = 0
  bank : ∀ (i : Nat) (c : Cache), h.bank? i = some c → c.tally = {}

theorem fresh_replicate {d : Division} {client n : Nat} {c : Cache} (hc : c.Fresh)
    (hs : ∀ a, d.select client n a = .ok (d.route client n a)) (hi : ∀ a, (d.route client n a).1 < n) :
    Fresh d client { banks := Array.replicate n (some c) } := by
  have hsome : ∀ i < n, bank? { banks := Array.replicate n (some c) } i = some c := fun i hi => by simp [bank?, hi]
  have hbank : ∀ i e, bank? { banks := Array.replicate n (some c) } i = some e → e = c := by
    intro i e he
    by_cases hin : i < n
    · rw [hsome i hin] at he
      exact (Option.some.inj he).symm
    · simp [bank?, hin] at he
  refine ⟨⟨by simpa using hs, by simpa using hi, fun i e he => hbank i e he ▸ hc.sound, ?_⟩, rfl, fun i e he => ?_⟩
  · exact .inr ⟨rfl, fun i hi => ⟨c, hsome i (by simpa using hi)⟩⟩
  · rw [hbank i e he, hc.tally_eq]

namespace Sound
variable {d : Division} {client : Nat} {h : Holding}

theorem touch (hs : Sound d client h) (a : Address) (kind : AccessKind) :
    Sound d client (h.touch (d.route client h.banks.size a).1 (d.route client h.banks.size a).2 kind) := by
  have hin := hs.inside a
  generalize (d.route client h.banks.size a).1 = i at hin
  generalize (d.route client h.banks.size a).2 = a'
  refine ⟨?_, ?_, ?_, ?_⟩
  · rw [size_banks_touch]
    exact hs.selects
  · rw [size_banks_touch]
    exact hs.inside
  · intro j e he
    cases hc : h.bank? i with
    | none =>
      rw [touch_of_none hc] at he
      exact hs.bank j e he
    | some c =>
      rw [bank?_touch hc] at he
      split at he
      · exact Option.some.inj he ▸ (hs.bank i c hc).touch a' kind
      · exact hs.bank j e he
  · refine hs.full.imp_right fun ⟨hu, hb⟩ => ?_
    obtain ⟨c, hc⟩ := hb i hin
    refine ⟨by rw [unserved_touch_of_some hc, hu], fun j hj => ?_⟩
    rw [size_banks_touch] at hj
    rw [bank?_touch hc]
    split
    · exact ⟨_, rfl⟩
    · exact hb j hj

end Sound
end Holding

namespace Banked

def Sound (b : Banked) : Prop := ∀ (i : Nat) (h : Holding), b.holdings[i]? = some h → h.Sound b.division i

theorem Sound.touch {b : Banked} (hb : b.Sound) (client : Nat) (a : Address) (kind : AccessKind) :
    (b.touch client a kind).Sound := by
  intro i h hi
  rw [getElem?_touch] at hi
  split at hi
  · next he =>
    subst he
    obtain ⟨h, hh, rfl⟩ := Option.map_eq_some_iff.1 hi
    exact (hb client h hh).touch a kind
  · exact hb i h hi

def Fresh (b : Banked) : Prop := ∀ (i : Nat) (h : Holding), b.holdings[i]? = some h → h.Fresh b.division i

theorem Fresh.sound {b : Banked} (hb : b.Fresh) : b.Sound := fun i h hi => (hb i h hi).sound

/-- Each client starts with copies of one cache, as many as addresses select
among. -/
theorem fresh_of_copies {d : Division} {holdings : List Holding}
    (h : ∀ (i : Nat) (x : Holding), holdings[i]? = some x → ∃ n c, x = { banks := Array.replicate n (some c) } ∧
      c.Fresh ∧ ∀ a, d.select i n a = .ok (d.route i n a) ∧ (d.route i n a).1 < n) :
    Fresh { division := d, holdings := holdings.toArray } := by
  intro i x hx
  rw [List.getElem?_toArray] at hx
  obtain ⟨n, c, rfl, hc, hsel⟩ := h i x hx
  exact Holding.fresh_replicate hc (fun a => (hsel a).1) (fun a => (hsel a).2)

theorem fresh_of_divideWays {ways : List Nat} {size block sets : Nat} {cs : List Cache}
    (h : divideWays ways size block = .ok (sets, cs)) : ∀ c ∈ cs, c.Fresh := by
  obtain ⟨-, -, hs, rfl⟩ := divideWays_eq_ok.1 h
  intro c hc
  obtain ⟨w, hw, rfl⟩ := List.mem_map.1 hc
  obtain ⟨-, -, hpos, -⟩ := Shape.ofSets?_eq_ok.1 (hs w hw)
  exact ⟨_, hpos, rfl⟩

theorem fresh_of_ofWays? {ways : List Nat} {size block : Nat} {b : Banked} (h : ofWays? ways size block = .ok b) :
    b.Fresh := by
  obtain ⟨sets, cs, hd, rfl⟩ := ofWays?_eq_ok.1 h
  refine fresh_of_copies fun i x hx => ?_
  rw [List.getElem?_map, Option.map_eq_some_iff] at hx
  obtain ⟨c, hc, rfl⟩ := hx
  exact ⟨1, c, rfl, fresh_of_divideWays hd c (List.mem_of_getElem? hc), fun a => ⟨rfl, Nat.one_pos⟩⟩

theorem fresh_of_ofClusters? {n : Nat} {ways : List Nat} {size block : Nat} {b : Banked}
    (h : ofClusters? n ways size block = .ok b) : b.Fresh := by
  obtain ⟨hn, sets, cs, hd, rfl⟩ := ofClusters?_eq_ok.1 h
  refine fresh_of_copies fun i x hx => ?_
  rw [List.getElem?_map, Option.map_eq_some_iff] at hx
  obtain ⟨c, hc, rfl⟩ := hx
  refine ⟨n, c, rfl, fresh_of_divideWays hd c (List.mem_of_getElem? hc), fun a => ⟨rfl, ?_⟩⟩
  exact Nat.lt_of_lt_of_eq (Division.clusterOf_lt block.log2 n.log2 a) hn

theorem fresh_of_ofSlices? {clients : Nat} {owned : List Nat} {slice : Geometry} {b : Banked}
    (h : ofSlices? clients owned slice = .ok b) : b.Fresh := by
  unfold ofSlices? at h
  repeat' split at h
  · cases h
  · cases h
  · cases h
  · next hz =>
    obtain ⟨c, hc, rfl⟩ := map_eq_ok.1 h
    refine fresh_of_copies fun i x hx => ?_
    rw [List.getElem?_map, Option.map_eq_some_iff] at hx
    obtain ⟨n, hn, rfl⟩ := hx
    have hpos : n ≠ 0 := by
      have := List.findIdx?_eq_none_iff.1 hz n (List.mem_of_getElem? hn)
      simpa using this
    refine ⟨n, c, rfl, Cache.fresh_of_ofGeometry? hc, fun a => ⟨if_neg hpos, ?_⟩⟩
    exact Nat.mod_lt _ (Nat.pos_of_ne_zero hpos)

/-! ### Cells -/

/-- A core table without fault selects a cluster for every address. -/
theorem cellOf?_of_check (offsetBits : Nat) {clusters client : Nat} {tables : Array CoreTable} {t : CoreTable}
    (ht : tables[client]? = some t) {i : Nat} (hc : t.check i clusters = .ok ()) (a : Address) :
    ∃ k < clusters, t.cluster? (t.selector a offsetBits) = some k ∧
      Division.cellOf? offsetBits tables client a = some k := by
  have hselector := Nat.mod_lt (Bits.field a.toNat offsetBits (Bits.indexWidth t.total))
    (CoreTable.total_pos_of_check hc)
  obtain ⟨k, hk, hlt⟩ := CoreTable.cluster?_of_check hc hselector
  refine ⟨k, hlt, hk, ?_⟩
  rw [Division.cellOf?, ht]
  exact hk

theorem select_cells (offsetBits : Nat) {clusters client : Nat} {tables : Array CoreTable} {t : CoreTable}
    (ht : tables[client]? = some t) {i : Nat} (hc : t.check i clusters = .ok ()) (a : Address) :
    Division.select (.cells offsetBits clusters tables) client clusters a =
        .ok (Division.route (.cells offsetBits clusters tables) client clusters a) ∧
      (Division.route (.cells offsetBits clusters tables) client clusters a).1 < clusters := by
  obtain ⟨k, hlt, hk, hcell⟩ := cellOf?_of_check offsetBits ht hc a
  have hroute : Division.route (.cells offsetBits clusters tables) client clusters a = (k, a) := by
    rw [Division.route, hcell, Option.getD_some]
  rw [hroute]
  refine ⟨?_, hlt⟩
  simp only [Division.select, ht, hk]
  exact if_neg (CoreTable.total_pos_of_check hc).ne'

theorem fresh_of_ofCells? {clients : Nat} {sizes : List (List Nat)} {ways block : Nat} {tables : List CoreTable}
    {b : Banked} (h : ofCells? clients sizes ways block tables = .ok b) : b.Fresh := by
  obtain ⟨⟨hfit, -⟩, rfl⟩ := ofCells?_eq_ok.1 h
  intro i x hx
  simp only [List.getElem?_toArray, List.getElem?_map, Option.map_eq_some_iff] at hx
  obtain ⟨j, hj, rfl⟩ := hx
  obtain ⟨hi, rfl⟩ := List.getElem?_eq_some_iff.1 hj
  rw [List.length_range, ← hfit.tables_length] at hi
  have ht : tables.toArray[i]? = some tables[i] := by simp [hi]
  have hsel := select_cells block.log2 ht (checkTables_eq_ok.1 hfit.tables i _ (List.getElem?_eq_getElem hi))
  have hbank : ∀ (k : Nat) (c : Cache),
      ((sizes.map fun row => (row[i]?.map fun size => cell? size ways block).join).toArray[k]?).join = some c →
        c.Fresh := by
    intro k c hk
    simp only [List.getElem?_toArray, List.getElem?_map, Option.join_eq_some_iff, Option.map_eq_some_iff] at hk
    obtain ⟨row, hrow, size, hsize, hcell⟩ := hk
    obtain ⟨-, hcheck⟩ := hfit.cells row (List.mem_of_getElem? hrow)
    obtain ⟨h0, hc⟩ := cell?_eq_some_iff.1 hcell
    exact Cache.fresh_of_ofGeometry? (Cache.ofGeometry?_eq_ok.2 ⟨hcheck size (List.mem_of_getElem? hsize) h0, hc⟩)
  simp only [List.getElem_range]
  refine ⟨⟨fun a => ?_, fun a => ?_, fun k c hk => (hbank k c hk).sound, .inl trivial⟩, rfl,
    fun k c hk => (hbank k c hk).tally_eq⟩
  · simpa using (hsel a).1
  · simpa using (hsel a).2

end Banked

/-! ## Regions -/

namespace Regions

structure Sound (r : Regions) : Prop where
  cache : r.cache.Sound
  apart : r.Apart
  /-- Every client has a counter. -/
  tallies : r.tallies.size = r.clients

theorem Sound.touch {r : Regions} (h : r.Sound) (client : Nat) (a : Address) (kind : AccessKind) :
    (r.touch client a kind).Sound := by
  cases hf : r.fixed[client]? with
  | none => rwa [touch_of_none hf]
  | some f =>
    refine ⟨?_, apart_touch h.apart client a kind, ?_⟩
    · rw [touch_of_some hf]
      exact h.cache.touchAt _ a kind
    · rw [clients, fixed_touch, touch_of_some hf, Array.size_modify]
      exact h.tallies

structure Fresh (r : Regions) : Prop where
  sound : r.Sound
  cache : r.cache.tally = {}
  tally : ∀ (i : Nat) (t : Tally), r.tallies[i]? = some t → t = {}

theorem fresh_of_ofFixed? {clients : Nat} {g : Geometry} {fixed : List FixedBits} {r : Regions}
    (h : ofFixed? clients g fixed = .ok r) : r.Fresh := by
  have hapart := apart_of_ofFixed? h
  obtain ⟨⟨hg, hlen, -⟩, rfl⟩ := ofFixed?_eq_ok.1 h
  have hcache := Cache.fresh_of_ofGeometry? (Cache.ofGeometry?_eq_ok.2 ⟨hg, rfl⟩)
  refine ⟨⟨hcache.sound, hapart, by simp [Regions.clients, hlen]⟩, hcache.tally_eq, fun i t ht => ?_⟩
  obtain ⟨-, rfl⟩ := Array.getElem?_eq_some_iff.1 ht
  simp

end Regions

/-! ## Who is refused -/

/-- A scheme with clients of its own refuses everyone else. -/
def Scheme.Refuses (s : Scheme) (client : Nat) (e : OutOfRange) : Prop :=
  ∃ clients, s.clients? = some clients ∧ clients ≤ client ∧ e = { client, clients }

/-- Two levels refuse a core that does not exist, and after that a client that
the shared level refuses. -/
def TwoLevel.Refuses (t : TwoLevel) (core client : Nat) (e : OutOfRange) : Prop :=
  t.cores.size ≤ core ∧ e = { client := core, clients := t.cores.size } ∨
    core < t.cores.size ∧ t.shared.Refuses client e

def Hierarchy.Refuses (h : Hierarchy) (client : Nat) (e : OutOfRange) : Prop :=
  match h with
  | flat s => s.Refuses client e
  | twoLevel t => t.Refuses client client e

theorem checkClient_eq_error {client clients : Nat} {e : OutOfRange} :
    checkClient client clients = .error e ↔ clients ≤ client ∧ e = { client, clients } := by
  unfold checkClient
  split
  · simp only [reduceCtorEq, false_iff]
    omega
  · simp only [Except.error.injEq, eq_comm (b := e)]
    exact ⟨fun h => ⟨by omega, h⟩, fun h => h.2⟩

theorem Scheme.check_eq_error {s : Scheme} {client : Nat} {e : OutOfRange} :
    s.check client = .error e ↔ s.Refuses client e := by
  unfold check Refuses
  cases s.clients? <;> simp [checkClient_eq_error]

theorem TwoLevel.check_eq_error {t : TwoLevel} {core client : Nat} {e : OutOfRange} :
    t.check core client = .error e ↔ t.Refuses core client e := by
  rw [check, Refuses, ← Scheme.check_eq_error, ← checkClient_eq_error, ← checkClient_eq_ok]
  cases checkClient core t.cores.size <;> simp

theorem Hierarchy.check_eq_error {h : Hierarchy} {client : Nat} {e : OutOfRange} :
    h.check client = .error e ↔ h.Refuses client e := by
  cases h with
  | flat s => exact Scheme.check_eq_error
  | twoLevel t => exact TwoLevel.check_eq_error

/-! ## Schemes and hierarchies -/

def Scheme.Sound : Scheme → Prop
  | plain c => c.Sound
  | banked b => b.Sound
  | regions r => r.Sound

theorem Scheme.Sound.touch {s : Scheme} (h : s.Sound) (client : Nat) (a : Address) (kind : AccessKind) :
    (s.touch client a kind).Sound := by
  cases s with
  | plain c => exact Cache.Sound.touch h a kind
  | banked b => exact Banked.Sound.touch h client a kind
  | regions r => exact Regions.Sound.touch h client a kind

def Scheme.Fresh : Scheme → Prop
  | plain c => c.Fresh
  | banked b => b.Fresh
  | regions r => r.Fresh

theorem Scheme.Fresh.sound {s : Scheme} (h : s.Fresh) : s.Sound := by
  cases s with
  | plain c => exact Cache.Fresh.sound h
  | banked b => exact Banked.Fresh.sound h
  | regions r => exact Regions.Fresh.sound h

theorem Scheme.fresh_of_build {p : Plan} {s : Scheme} (h : p.build = .ok s) : s.Fresh := by
  cases p with
  | plain g => obtain ⟨c, hc, rfl⟩ := mapError_map_eq_ok.1 h; exact Cache.fresh_of_ofGeometry? hc
  | way ways size block => obtain ⟨b, hb, rfl⟩ := mapError_map_eq_ok.1 h; exact Banked.fresh_of_ofWays? hb
  | interNode slices g => obtain ⟨b, hb, rfl⟩ := mapError_map_eq_ok.1 h; exact Banked.fresh_of_ofSlices? hb
  | intraNode g fixed => obtain ⟨r, hr, rfl⟩ := mapError_map_eq_ok.1 h; exact Regions.fresh_of_ofFixed? hr
  | clusterWay clusters ways size block =>
    obtain ⟨b, hb, rfl⟩ := mapError_map_eq_ok.1 h
    exact Banked.fresh_of_ofClusters? hb
  | interIntra cells cores ways block => obtain ⟨b, hb, rfl⟩ := map_eq_ok.1 h; exact Banked.fresh_of_ofCells? hb

structure TwoLevel.Sound (t : TwoLevel) : Prop where
  cores : ∀ (i : Nat) (c : Core), t.cores[i]? = some c → c.cache.Sound
  shared : t.shared.Sound

theorem TwoLevel.Sound.touch {t : TwoLevel} (h : t.Sound) (core client : Nat) (a : Address) (kind : AccessKind) :
    (t.touch core client a kind).Sound := by
  refine ⟨fun i c hi => ?_, ?_⟩
  · rw [getElem?_cores_touch] at hi
    split at hi
    · obtain ⟨c, hc, rfl⟩ := Option.map_eq_some_iff.1 hi
      exact (h.cores i c hc).touch a kind
    · exact h.cores i c hi
  · rw [shared_touch]
    split
    · exact h.shared
    · exact h.shared.touch client a kind

structure TwoLevel.Fresh (t : TwoLevel) : Prop where
  cores : ∀ (i : Nat) (c : Core), t.cores[i]? = some c → c.cache.Fresh ∧ c.tally = {}
  shared : t.shared.Fresh

theorem TwoLevel.Fresh.sound {t : TwoLevel} (h : t.Fresh) : t.Sound :=
  ⟨fun i c hi => (h.cores i c hi).1.sound, h.shared.sound⟩

theorem TwoLevel.fresh_of_build {n : Nat} {cache : Cache} {shared : Scheme} {t : TwoLevel}
    (h : TwoLevel.build n cache shared = .ok t) (hc : cache.Fresh) (hs : shared.Fresh) : t.Fresh := by
  unfold TwoLevel.build at h
  split at h
  · cases h
  · cases h
    refine ⟨fun i c hi => ?_, hs⟩
    obtain ⟨-, rfl⟩ := Array.getElem?_eq_some_iff.1 hi
    simpa using hc

namespace Hierarchy

def Sound : Hierarchy → Prop
  | flat s => s.Sound
  | twoLevel t => t.Sound

theorem Sound.touch {h : Hierarchy} (hs : h.Sound) (client : Nat) (a : Address) (kind : AccessKind) :
    (h.touch client a kind).Sound := by
  cases h with
  | flat s => exact Scheme.Sound.touch hs client a kind
  | twoLevel t => exact TwoLevel.Sound.touch hs client client a kind

def Fresh : Hierarchy → Prop
  | flat s => s.Fresh
  | twoLevel t => t.Fresh

theorem Fresh.sound {h : Hierarchy} (hf : h.Fresh) : h.Sound := by
  cases h with
  | flat s => exact Scheme.Fresh.sound hf
  | twoLevel t => exact TwoLevel.Fresh.sound hf

theorem fresh_of_build {p : Plan} {level : Option PrivateLevel} {h : Hierarchy} (hb : build p level = .ok h) :
    h.Fresh := by
  unfold build at hb
  split at hb
  · cases hb
  · next s hs => cases hb; exact Scheme.fresh_of_build hs
  · next s l hs =>
    split at hb
    · cases hb
    · next c hc =>
      obtain ⟨t, ht, rfl⟩ := mapError_map_eq_ok.1 hb
      exact TwoLevel.fresh_of_build ht (Cache.fresh_of_ofGeometry? hc) (Scheme.fresh_of_build hs)

end Hierarchy

end LastLevel
