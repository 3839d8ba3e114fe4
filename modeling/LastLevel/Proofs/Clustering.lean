import LastLevel.Proofs.Admission
import LastLevel.Proofs.Counts
import LastLevel.Proofs.Renaming
/-!
# Clusters are one larger cache

With `2 ^ k` clusters, the lowest `k` bits of a block number name a cluster, and
the cluster itself never sees them. A cache of `2 ^ k` times the sets takes the
same bits as the low part of its set index (`Shape.locate_widen`), so set `i` of
cluster `j` is its set `j + 2 ^ k * i`. `Holding.Gathered` is this relation
between a client's clusters and its partition of the larger cache; an access
keeps it (`Gathered.touch`). Main statement: `Banked.clusters_are_one`.
-/

namespace LastLevel

/-! ## Where a block goes -/

theorem Division.clusterOf_lt (offsetBits k : Nat) (a : Address) : clusterOf offsetBits k a < 2 ^ k :=
  Bits.field_lt _ _ _

namespace Shape

/-- The shape with `2 ^ k` times the sets. -/
def widen (s : Shape) (k : Nat) : Shape := { s with indexBits := s.indexBits + k }

theorem sets_widen (s : Shape) (k : Nat) : (s.widen k).sets = 2 ^ k * s.sets := by
  rw [sets_eq, widen, Nat.pow_add, Nat.mul_comm]
  rfl

theorem widen_ofCounts {sets ways block n : Nat} (hn : Bits.IsPow2 n) (hs : Bits.IsPow2 sets) :
    (ofCounts sets ways block).widen n.log2 = ofCounts (n * sets) ways block := by
  obtain ⟨i, rfl⟩ := Bits.isPow2_iff.1 hn
  obtain ⟨j, rfl⟩ := Bits.isPow2_iff.1 hs
  rw [widen, ofCounts, ofCounts, ← Nat.pow_add, Nat.log2_two_pow, Nat.log2_two_pow, Nat.log2_two_pow, Nat.add_comm]

/-- The larger cache finds a block in the set that its cluster and the set
inside the cluster make up, under the tag that the cluster has for it. -/
theorem locate_widen (s : Shape) (k : Nat) (a : Address) :
    (s.widen k).locate a =
      { set := Division.clusterOf s.offsetBits k a + 2 ^ k * (s.locate (Bits.squeeze a s.offsetBits k)).set
        tag := (s.locate (Bits.squeeze a s.offsetBits k)).tag } := by
  have hb : (s.widen k).blockOf a = s.blockOf a := rfl
  have hq : s.blockOf (Bits.squeeze a s.offsetBits k) = s.blockOf a / 2 ^ k := blockOf_squeeze a s.offsetBits k
  have hr : Division.clusterOf s.offsetBits k a = s.blockOf a % 2 ^ k := Bits.field_toNat a s.offsetBits k
  rw [locate_eq, locate_eq, hb, hq, hr, sets_widen, Nat.mod_mul, Nat.div_div_eq_div_mul]

end Shape

/-! ## The banks of one client -/

namespace Holding

/-- An access to a bank changes that bank and no other. -/
theorem bank?_touch {h : Holding} {i : Nat} {c : Cache} (hc : h.bank? i = some c) (a : Address)
    (kind : AccessKind) (j : Nat) :
    (h.touch i a kind).bank? j = if i = j then some (c.touch a kind) else h.bank? j := by
  rw [touch, hc, Option.isSome_some, if_pos rfl, bank?, Array.getElem?_modify]
  split
  · next hij =>
    subst hij
    rw [bank?, Option.join_eq_some_iff] at hc
    rw [hc]
    rfl
  · rfl

theorem hits_eq {h : Holding} {i : Nat} {c : Cache} (hc : h.bank? i = some c) (a : Address) :
    h.hits i a = c.hits a := by
  rw [hits, hc]

/-- The banks of a client, of shape `s` and one for each of `2 ^ k` clusters,
hold together what one large cache holds. -/
structure Gathered (s : Shape) (k : Nat) (h : Holding) (large : Cache) : Prop where
  shape : large.shape = s.widen k
  bank : ∀ j < 2 ^ k, ∃ c, h.bank? j = some c ∧ c.shape = s ∧
    ∀ i < s.sets, Cache.SameSet id id c large i (j + 2 ^ k * i)
  tally : h.tally = large.tally

namespace Gathered
variable {s : Shape} {k : Nat} {h : Holding} {large : Cache}

theorem locate_eq (hg : Gathered s k h large) (a : Address) :
    large.locate a =
      { set := Division.clusterOf s.offsetBits k a + 2 ^ k * (s.locate (Bits.squeeze a s.offsetBits k)).set
        tag := (s.locate (Bits.squeeze a s.offsetBits k)).tag } := by
  rw [Cache.locate, hg.shape, Shape.locate_widen]

theorem hits_eq (hg : Gathered s k h large) (a : Address) :
    h.hits (Division.clusterOf s.offsetBits k a) (Bits.squeeze a s.offsetBits k) = large.hits a := by
  obtain ⟨c, hc, hs, hsame⟩ := hg.bank _ (Division.clusterOf_lt s.offsetBits k a)
  rw [Holding.hits_eq hc, Cache.hits, Cache.hits, Cache.locate, hs, hg.locate_eq a]
  exact (hsame _ (s.locate_set_lt _)).holdsAt Function.injective_id Function.injective_id rfl

/-- Set `i` of cluster `j` is told apart from the sets of all clusters. -/
theorem set_inj {k i i' j j' : Nat} (hj : j < 2 ^ k) (hj' : j' < 2 ^ k) (h : j + 2 ^ k * i = j' + 2 ^ k * i') :
    j = j' ∧ i = i' := by
  have hm := congrArg (· % 2 ^ k) h
  have hd := congrArg (· / 2 ^ k) h
  simp only [Nat.add_mul_mod_self_left, Nat.mod_eq_of_lt hj, Nat.mod_eq_of_lt hj'] at hm
  simp only [Nat.add_mul_div_left _ _ (Nat.two_pow_pos k), Nat.div_eq_of_lt hj, Nat.div_eq_of_lt hj',
    Nat.zero_add] at hd
  exact ⟨hm, hd⟩

/-- An access to the cluster of an address acts on the clusters as the access
acts on the large cache. -/
theorem touch (hg : Gathered s k h large) (a : Address) (kind : AccessKind) :
    Gathered s k (h.touch (Division.clusterOf s.offsetBits k a) (Bits.squeeze a s.offsetBits k) kind)
      (large.touch a kind) := by
  have hlt := Division.clusterOf_lt s.offsetBits k a
  obtain ⟨d, hd, hds, hdsame⟩ := hg.bank _ hlt
  refine ⟨by rw [Cache.shape_touch, hg.shape], ?_, ?_⟩
  · intro j hj
    rw [bank?_touch hd]
    by_cases he : Division.clusterOf s.offsetBits k a = j
    · -- In the cluster of the address: the set it names, and the others.
      subst he
      refine ⟨_, if_pos rfl, by rw [Cache.shape_touch, hds], fun i hi => ?_⟩
      rw [Cache.touch, Cache.locate, hds, Cache.touch, hg.locate_eq a]
      by_cases hset : (s.locate (Bits.squeeze a s.offsetBits k)).set = i
      · subst hset
        exact (hdsame _ hi).touchAt Function.injective_id Function.injective_id rfl _ _ kind
      · exact (hdsame i hi).touchAt_of_ne hset (fun h => hset (set_inj hlt hlt h).2) _ _ kind
    · -- In another cluster nothing is touched, and in the large cache none of its sets.
      obtain ⟨c, hc, hcs, hcsame⟩ := hg.bank j hj
      refine ⟨c, by rw [if_neg he, hc], hcs, fun i hi => ?_⟩
      rw [Cache.touch, hg.locate_eq a]
      exact (hcsame i hi).touchAt_right (fun h => he (set_inj hlt hj h).1) _ kind
  · rw [tally_touch hd, hg.hits_eq a, hg.tally, Cache.tally_touch]

end Gathered

/-- One bank that takes every access. -/
def whole (c : Cache) : Holding := { banks := #[some c] }

theorem hits_whole (c : Cache) (a : Address) : (whole c).hits 0 a = c.hits a := rfl

theorem touch_whole (c : Cache) (a : Address) (kind : AccessKind) :
    (whole c).touch 0 a kind = whole (c.touch a kind) := by
  simp [touch, whole, bank?]

theorem tally_whole (c : Cache) : (whole c).tally = c.tally := by
  simp [tally, whole, Tally.sum, Tally.add]

/-- In the beginning the clusters are as empty as the large cache. -/
theorem gathered_empty (s : Shape) (k : Nat) :
    Gathered s k { banks := Array.replicate (2 ^ k) (some (.empty s)) } (.empty (s.widen k)) where
  shape := rfl
  bank := by
    intro j hj
    refine ⟨.empty s, by simp [bank?, hj], rfl, fun i hi => Cache.sameSet_empty hi ?_ rfl⟩
    rw [Shape.sets_widen]
    calc j + 2 ^ k * i < 2 ^ k + 2 ^ k * i := Nat.add_lt_add_right hj _
      _ = 2 ^ k * (i + 1) := by rw [Nat.mul_add, Nat.mul_one, Nat.add_comm]
      _ ≤ 2 ^ k * s.sets := Nat.mul_le_mul_left _ hi
  tally := by
    have hsum : ∀ n, Tally.sum (List.replicate n {}) = {} := by
      intro n
      induction n with
      | zero => rfl
      | succ n ih => rw [List.replicate_succ, Tally.sum, List.foldr_cons, ← Tally.sum, ih]; rfl
    simp [Holding.tally, Cache.empty, hsum]

end Holding

/-! ## All clients -/

namespace Banked

/-- Client for client, the clusters of one scheme hold together what the
partition in the other scheme holds. -/
structure Gathered (offsetBits indexBits k : Nat) (b u : Banked) : Prop where
  division : b.division = .clusters offsetBits k
  undivided : ∃ sets, u.division = .ways sets
  clients : b.clients = u.clients
  holding : ∀ (i : Nat) (h : Holding), b.holdings[i]? = some h → ∃ ways large,
    u.holdings[i]? = some (.whole large) ∧ h.Gathered { offsetBits, indexBits, ways } k large

namespace Gathered
variable {offsetBits indexBits k : Nat} {b u : Banked}

/-- A client is in both schemes or in neither. -/
theorem cases_client (hg : Gathered offsetBits indexBits k b u) (i : Nat) :
    (b.holdings[i]? = none ∧ u.holdings[i]? = none) ∨ ∃ h ways large, b.holdings[i]? = some h ∧
      u.holdings[i]? = some (.whole large) ∧ h.Gathered { offsetBits, indexBits, ways } k large := by
  cases hb : b.holdings[i]? with
  | none =>
    refine .inl ⟨rfl, Array.getElem?_eq_none ?_⟩
    have hn := Array.getElem?_eq_none_iff.1 hb
    exact Nat.le_trans (Nat.le_of_eq hg.clients.symm) hn
  | some h =>
    obtain ⟨ways, large, hu, hh⟩ := hg.holding i h hb
    exact .inr ⟨h, ways, large, rfl, hu, hh⟩

theorem hits_eq (hg : Gathered offsetBits indexBits k b u) (i : Nat) (a : Address) : b.hits i a = u.hits i a := by
  obtain ⟨sets, hd⟩ := hg.undivided
  rw [hits, hits, hg.division, hd]
  rcases hg.cases_client i with ⟨hb, hu⟩ | ⟨h, ways, large, hb, hu, hh⟩ <;> rw [hb, hu]
  exact (hh.hits_eq a).trans (Holding.hits_whole large a).symm

theorem tally?_eq (hg : Gathered offsetBits indexBits k b u) (i : Nat) : b.tally? i = u.tally? i := by
  rw [tally?, tally?, hg.clients]
  rcases hg.cases_client i with ⟨hb, hu⟩ | ⟨h, ways, large, hb, hu, hh⟩ <;> rw [hb, hu]
  exact congrArg Except.ok (hh.tally.trans (Holding.tally_whole large).symm)

/-- Both schemes stay alike when both carry out an access. -/
theorem touch (hg : Gathered offsetBits indexBits k b u) (i : Nat) (a : Address) (kind : AccessKind) :
    Gathered offsetBits indexBits k (b.touch i a kind) (u.touch i a kind) := by
  obtain ⟨sets, hd⟩ := hg.undivided
  refine ⟨hg.division, ⟨sets, hd⟩, by rw [clients_touch, clients_touch, hg.clients], ?_⟩
  intro j h hj
  rw [getElem?_touch] at hj ⊢
  rcases hg.cases_client j with ⟨hb, -⟩ | ⟨h', ways, large, hb, hu, hh⟩
  · simp [hb] at hj
  · rw [hb] at hj
    rw [hu]
    by_cases hij : i = j
    · rw [if_pos hij] at hj ⊢
      obtain rfl := Option.some.inj hj
      refine ⟨ways, large.touch a kind, ?_, ?_⟩
      · rw [hd]
        exact congrArg some (Holding.touch_whole large a kind)
      · rw [hg.division]
        exact hh.touch a kind
    · rw [if_neg hij] at hj ⊢
      obtain rfl := Option.some.inj hj
      exact ⟨ways, large, rfl, hh⟩

end Gathered

/-! ## New schemes -/

theorem ofWays?_eq_ok {ways : List Nat} {size block : Nat} {u : Banked} :
    ofWays? ways size block = .ok u ↔ ∃ sets cs, divideWays ways size block = .ok (sets, cs) ∧
      u = { division := .ways sets, holdings := (cs.map Holding.whole).toArray } := by
  rw [ofWays?, map_eq_ok, Prod.exists]
  simp only [eq_comm]
  rfl

theorem ofClusters?_eq_ok {n : Nat} {ways : List Nat} {size block : Nat} {b : Banked} :
    ofClusters? n ways size block = .ok b ↔ Bits.IsPow2 n ∧ ∃ sets cs, divideWays ways size block = .ok (sets, cs) ∧
      b = { division := .clusters block.log2 n.log2
            holdings := (cs.map fun c => { banks := Array.replicate n (some c) }).toArray } := by
  unfold ofClusters?
  split
  · next h => simp [h]
  · next h =>
    rw [map_eq_ok, Prod.exists]
    simp only [Decidable.of_not_not h, true_and, eq_comm]

/-- Clusters and a cache as large as all of them begin alike. -/
theorem gathered_of_ofWays? {n : Nat} {ways : List Nat} {size block : Nat} {b u : Banked}
    (h : ofClusters? n ways size block = .ok b) (hu : ofWays? ways (n * size) block = .ok u) :
    Gathered block.log2 (Geometry.sets { size, ways := totalShare ways, block }).log2 n.log2 b u := by
  obtain ⟨hn, sets, cs, hd, rfl⟩ := ofClusters?_eq_ok.1 h
  obtain ⟨sets', cs', hd', rfl⟩ := ofWays?_eq_ok.1 hu
  obtain ⟨⟨-, -, hc⟩, rfl, -, rfl⟩ := divideWays_eq_ok.1 hd
  obtain ⟨-, rfl, -, rfl⟩ := divideWays_eq_ok.1 hd'
  obtain ⟨-, -, -, -, hp⟩ := Geometry.check_eq_ok.1 hc
  refine ⟨rfl, ⟨_, rfl⟩, by simp [clients], ?_⟩
  intro i h hi
  simp only [List.getElem?_toArray, List.getElem?_map, Option.map_eq_some_iff] at hi ⊢
  obtain ⟨c, ⟨w, hw, rfl⟩, rfl⟩ := hi
  refine ⟨w, _, ⟨_, ⟨w, hw, rfl⟩, rfl⟩, ?_⟩
  have hg := Holding.gathered_empty (.ofCounts (Geometry.sets { size, ways := totalShare ways, block }) w block) n.log2
  rwa [Shape.widen_ofCounts hn hp, hn.two_pow_log2, ← (Geometry.check_mul hn hc).2] at hg

/-- Whatever clusters are accepted, so is the large cache, and both begin alike. -/
theorem gathered_of_ofClusters? {n : Nat} {ways : List Nat} {size block : Nat} {b : Banked}
    (h : ofClusters? n ways size block = .ok b) (hsize : n * size < Bits.wordSize) :
    ∃ u, ofWays? ways (n * size) block = .ok u ∧ b.clients = ways.length ∧
      Gathered block.log2 (Geometry.sets { size, ways := totalShare ways, block }).log2 n.log2 b u := by
  obtain ⟨hn, sets, cs, hd, hb⟩ := ofClusters?_eq_ok.1 h
  obtain ⟨-, -, -, rfl⟩ := divideWays_eq_ok.1 hd
  have hu := ofWays?_eq_ok.2 ⟨_, _, divideWays_mul hn hd hsize, rfl⟩
  exact ⟨_, hu, by simp [hb, clients], gathered_of_ofWays? h hu⟩

/-! ## Runs -/

/-- A set of one of a client's banks. -/
def set? (b : Banked) (client bank set : Nat) : Option CacheSet :=
  b.holdings[client]?.bind fun h => (h.bank? bank).bind fun c => c.sets[set]?

theorem Gathered.sets {offsetBits indexBits k : Nat} {b u : Banked} (hg : Gathered offsetBits indexBits k b u)
    {i : Nat} (hi : i < b.clients) {j : Nat} (hj : j < 2 ^ k) {set : Nat} (hset : set < 2 ^ indexBits) :
    ∃ x y, b.set? i j set = some x ∧ u.set? i 0 (j + 2 ^ k * set) = some y ∧ x.rename id = y.rename id := by
  have hb : b.holdings[i]? = some b.holdings[i] := Array.getElem?_eq_getElem hi
  obtain ⟨ways, large, hu, hh⟩ := hg.holding i _ hb
  obtain ⟨c, hc, hs, hsame⟩ := hh.bank j hj
  have hlt : set < c.sets.size := by rw [c.sets_size, hs]; exact hset
  rcases (hsame set hset).both with ⟨hn, -⟩ | ⟨x, y, hx, hy, hxy⟩
  · exact absurd (Array.getElem?_eq_none_iff.1 hn) (Nat.not_le.2 hlt)
  · refine ⟨x, y, ?_, ?_, hxy⟩
    · rw [set?, hb, Option.bind_some, hc, Option.bind_some, hx]
    · rw [set?, hu]
      exact hy

/-- A step of either scheme is refused or answered alike, and keeps them alike. -/
theorem Gathered.step {offsetBits indexBits k : Nat} {b u : Banked} (hg : Gathered offsetBits indexBits k b u)
    (x : Record) :
    (Scheme.step (.banked b) x).1 = (Scheme.step (.banked u) x).1 ∧ ∃ b' u',
      (Scheme.step (.banked b) x).2 = .banked b' ∧ (Scheme.step (.banked u) x).2 = .banked u' ∧
      b'.clients = b.clients ∧ Gathered offsetBits indexBits k b' u' := by
  have hcheck : (Scheme.banked b).check x.client.toNat = (Scheme.banked u).check x.client.toNat :=
    congrArg (checkClient x.client.toNat) hg.clients
  cases hc : (Scheme.banked u).check x.client.toNat with
  | error e =>
    rw [Scheme.step_of_error hc, Scheme.step_of_error (hcheck.trans hc)]
    exact ⟨rfl, b, u, rfl, rfl, rfl, hg⟩
  | ok v =>
    rw [Scheme.step_of_ok hc, Scheme.step_of_ok (hcheck.trans hc)]
    exact ⟨congrArg Except.ok (hg.hits_eq x.client.toNat x.address), _, _, rfl, rfl,
      clients_touch b x.client.toNat x.address x.kind, hg.touch x.client.toNat x.address x.kind⟩

/-- Clusters, with some of the ways of each for every client, are one cache whose
ways are divided alike and that is as large as all clusters together. It can be
built when the clusters can; whatever the clients do, both give the same answers
and the same counts; and set `s` of cluster `c` is set `c + n * s` of the large
cache, up to the addresses that are kept for inspection. -/
theorem clusters_are_one {n : Nat} {ways : List Nat} {size block : Nat} {b : Banked}
    (h : ofClusters? n ways size block = .ok b) (hsize : n * size < Bits.wordSize) :
    ∃ u, ofWays? ways (n * size) block = .ok u ∧ ∀ xs : List Record,
      Run.log Scheme.step (.banked b) xs = Run.log Scheme.step (.banked u) xs ∧
      ∃ b' u', Run.final Scheme.step (.banked b) xs = .banked b' ∧ Run.final Scheme.step (.banked u) xs = .banked u' ∧
        (∀ i, b'.tally? i = u'.tally? i) ∧
        ∀ i < ways.length, ∀ c < n, ∀ s < Geometry.sets { size, ways := totalShare ways, block },
          ∃ x y, b'.set? i c s = some x ∧ u'.set? i 0 (c + n * s) = some y ∧ x.rename id = y.rename id := by
  obtain ⟨u, hu, hclients, hg⟩ := gathered_of_ofClusters? h hsize
  obtain ⟨hn, sets, cs, hd, -⟩ := ofClusters?_eq_ok.1 h
  obtain ⟨⟨-, -, hc⟩, -⟩ := divideWays_eq_ok.1 hd
  obtain ⟨-, -, -, -, hp⟩ := Geometry.check_eq_ok.1 hc
  refine ⟨u, hu, ?_⟩
  intro xs
  obtain ⟨hlog, b', u', hb', hu', hlen, hend⟩ := Run.log_eq_of_simulation (f := Scheme.step) (g := Scheme.step)
    (fun s t => ∃ b' u', s = .banked b' ∧ t = .banked u' ∧ b'.clients = ways.length ∧
      Gathered block.log2 (Geometry.sets { size, ways := totalShare ways, block }).log2 n.log2 b' u')
    (by
      rintro _ _ x ⟨b', u', rfl, rfl, hlen, hg⟩
      obtain ⟨ha, b'', u'', hb, hu, hl, hg'⟩ := hg.step x
      exact ⟨ha, b'', u'', hb, hu, hl.trans hlen, hg'⟩)
    ⟨b, u, rfl, rfl, hclients, hg⟩ xs
  refine ⟨hlog, b', u', hb', hu', hend.tally?_eq, ?_⟩
  intro i hi c hcn s hs
  rw [← hn.two_pow_log2] at hcn ⊢
  exact hend.sets (hlen ▸ hi) hcn (Nat.lt_of_lt_of_eq hs hp.two_pow_log2.symm)

/-- Two clusters of two sets are a cache of four: the third and the first block
are in the same cluster, but not in the same set. -/
theorem two_clusters_are_one :
    let xs : List Record := [⟨0x00, 0, .read⟩, ⟨0x10, 0, .write⟩, ⟨0x20, 0, .read⟩, ⟨0x08, 0, .read⟩, ⟨0x00, 2, .read⟩]
    ∃ b u, ofClusters? 2 [1, 1] 64 16 = .ok b ∧ 2 * 64 < Bits.wordSize ∧ ofWays? [1, 1] (2 * 64) 16 = .ok u ∧
      (Run.log Scheme.step (.banked b) xs).map (·.2) =
        [.ok false, .ok false, .ok false, .ok true, .error { client := 2, clients := 2 }] ∧
      Run.log Scheme.step (.banked b) xs = Run.log Scheme.step (.banked u) xs := by
  intro xs
  have hsize : 2 * 64 < Bits.wordSize := by decide
  have hd : divideWays [1, 1] 64 16 = .ok (2, [.empty (.ofCounts 2 1 16), .empty (.ofCounts 2 1 16)]) :=
    divideWays_eq_ok.2 ⟨⟨by decide, by decide, Geometry.check_eq_ok.2 (by decide)⟩, by decide,
      fun w hw => Shape.ofSets?_eq_ok.2 (by obtain rfl : w = 1 := (by simpa using hw); decide), rfl⟩
  obtain ⟨b, hb⟩ : ∃ b, ofClusters? 2 [1, 1] 64 16 = .ok b := ⟨_, ofClusters?_eq_ok.2 ⟨by decide, _, _, hd, rfl⟩⟩
  obtain ⟨u, hu, hruns⟩ := clusters_are_one hb hsize
  refine ⟨b, u, hb, hsize, hu, ?_, (hruns xs).1⟩
  obtain ⟨-, sets, cs, hd', rfl⟩ := ofClusters?_eq_ok.1 hb
  rw [hd] at hd'
  cases hd'
  decide

end Banked

end LastLevel
