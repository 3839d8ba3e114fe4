import LastLevel.Proofs.Soundness
import Mathlib.Algebra.BigOperators.Group.Finset.Basic
/-!
# Accounts

An access shows in several counters: those of its client, those of its core, and
those of the private and the shared cache. What a client's accesses came to in a
scheme is its `account`, where an access that no cell served is a miss. An access
is recorded once in the account of its client (`Scheme.account_touch`) and in no
other (`Scheme.account_touch_of_ne`); the counts of cores and of their private
caches go the same way.
-/

namespace LastLevel

/-! ## Totals -/

/-- Where one summand changes, the sum changes as much. -/
theorem sum_range_step {n j d : Nat} {f g : Nat → Nat} (hj : j < n) (hself : g j = f j + d)
    (hother : ∀ i, j ≠ i → g i = f i) : ∑ i ∈ Finset.range n, g i = ∑ i ∈ Finset.range n, f i + d := by
  have hmem : j ∈ Finset.range n := Finset.mem_range.2 hj
  have hrest : ∑ i ∈ (Finset.range n).erase j, g i = ∑ i ∈ (Finset.range n).erase j, f i :=
    Finset.sum_congr rfl fun i hi => hother i (Finset.ne_of_mem_erase hi).symm
  rw [← Finset.add_sum_erase _ g hmem, ← Finset.add_sum_erase _ f hmem, hrest, hself]
  omega

namespace Tally

/-- The counts of `n` clients or cores, taken together. -/
def total (n : Nat) (f : Nat → Tally) : Tally :=
  { misses := ∑ i ∈ Finset.range n, (f i).misses, hits := ∑ i ∈ Finset.range n, (f i).hits }

theorem total_record {n j : Nat} {f g : Nat → Tally} {hit : Bool} (hj : j < n) (hself : g j = (f j).record hit)
    (hother : ∀ i, j ≠ i → g i = f i) : total n g = (total n f).record hit := by
  have hmisses := sum_range_step (f := fun i => (f i).misses) (g := fun i => (g i).misses) hj
    (by rw [hself, misses_record]) fun i hi => by rw [hother i hi]
  have hhits := sum_range_step (f := fun i => (f i).hits) (g := fun i => (g i).hits) hj
    (by rw [hself, hits_record]) fun i hi => by rw [hother i hi]
  rw [total, hmisses, hhits]
  cases hit <;> rfl

theorem total_eq_empty {n : Nat} {f : Nat → Tally} (h : ∀ i < n, f i = {}) : total n f = {} := by
  rw [total, Finset.sum_eq_zero fun i hi => by rw [h i (Finset.mem_range.1 hi)],
    Finset.sum_eq_zero fun i hi => by rw [h i (Finset.mem_range.1 hi)]]

theorem accesses_total (n : Nat) (f : Nat → Tally) :
    (total n f).accesses = ∑ i ∈ Finset.range n, (f i).accesses := by
  simp only [accesses, total, Finset.sum_add_distrib]

end Tally

/-! ## Accounts -/

/-- What the accesses of a client came to: those that no bank served are
misses. -/
def Holding.account (h : Holding) : Tally := { misses := h.tally.misses + h.unserved, hits := h.tally.hits }

/-- An access to any bank, missing or not, is recorded once. -/
theorem Holding.account_touch (h : Holding) (i : Nat) (a : Address) (kind : AccessKind) :
    (h.touch i a kind).account = h.account.record (h.hits i a) := by
  cases hc : h.bank? i with
  | none =>
    rw [touch_of_none hc, hits, hc]
    rfl
  | some c =>
    rw [account, tally_touch hc, unserved_touch_of_some hc, account]
    cases h.hits i a <;> simp [Tally.record]
    omega

theorem Holding.Fresh.tally_eq {d : Division} {client : Nat} {h : Holding} (hf : h.Fresh d client) : h.tally = {} := by
  refine Tally.sum_eq_empty fun t ht => ?_
  obtain ⟨o, ho, hot⟩ := List.mem_filterMap.1 ht
  obtain ⟨c, rfl, rfl⟩ := Option.map_eq_some_iff.1 hot
  obtain ⟨k, hk⟩ := List.mem_iff_getElem?.1 ho
  exact hf.bank k c (by rw [bank?, ← Array.getElem?_toList, hk]; rfl)

/-- The one cache of the clients records each access as well. -/
theorem Regions.tally_touch {r : Regions} {client : Nat} (hc : client < r.clients) (a : Address) (kind : AccessKind) :
    (r.touch client a kind).cache.tally = r.cache.tally.record (r.hits client a) := by
  have hf : r.fixed[client]? = some r.fixed[client] := Array.getElem?_eq_getElem hc
  rw [touch_of_some hf, hits, hf]
  rfl

namespace Scheme

/-- The counts of a client; there are none where it is not served. -/
def tallyOf (s : Scheme) (client : Nat) : Tally := (s.tally? client).toOption.getD {}

/-- How many accesses of a client selected a missing cell; nothing but a cell is
ever missing. -/
def unservedOf (s : Scheme) (client : Nat) : Nat :=
  match s with
  | banked { division := .cells .., .. } => (s.unserved? client).getD 0
  | _ => 0

/-- What the accesses of a client came to: those that no cell served are
misses. -/
def account (s : Scheme) (client : Nat) : Tally :=
  { misses := (s.tallyOf client).misses + s.unservedOf client, hits := (s.tallyOf client).hits }

theorem account_banked {b : Banked} (hb : b.Sound) {client : Nat} {h : Holding} (hh : b.holdings[client]? = some h) :
    (banked b).account client = h.account := by
  have htally : (banked b).tallyOf client = h.tally := by
    rw [tallyOf, tally?, Banked.tally?, hh]
    rfl
  have hunserved : (banked b).unservedOf client = h.unserved := by
    have hfull := (hb client h hh).full
    obtain ⟨division, holdings⟩ := b
    cases division with
    | cells offsetBits clusters tables => simp [unservedOf, unserved?, show holdings[client]? = some h from hh]
    | ways sets => exact (hfull.resolve_left id).1.symm
    | slices offsetBits selectionBits => exact (hfull.resolve_left id).1.symm
    | clusters offsetBits clusterBits => exact (hfull.resolve_left id).1.symm
  rw [account, htally, hunserved, Holding.account]

theorem account_regions {r : Regions} {client : Nat} (hc : client < r.clients) {t : Tally}
    (ht : r.tallies[client]? = some t) : (regions r).account client = t := by
  have htally : (regions r).tallyOf client = t := by
    rw [tallyOf, tally?, Regions.tally?, if_pos hc, Array.getD_eq_getD_getElem?, ht]
    rfl
  rw [account, htally]
  rfl

/-- An access of a client with counts of its own is recorded once in its
account. -/
theorem account_touch {s : Scheme} (hs : s.Sound) {n i : Nat} (hn : s.clients? = some n) (hi : i < n) (a : Address)
    (kind : AccessKind) : (s.touch i a kind).account i = (s.account i).record (s.hits i a) := by
  cases s with
  | plain c => cases hn
  | banked b =>
    obtain rfl := Option.some.inj hn
    have hh : b.holdings[i]? = some b.holdings[i] := Array.getElem?_eq_getElem hi
    have hh' := Banked.getElem?_touch b i a kind i
    rw [if_pos rfl, hh, Option.map_some] at hh'
    rw [touch, account_banked (Banked.Sound.touch hs i a kind) hh', account_banked hs hh, Holding.account_touch, hits,
      Banked.hits, hh]
  | regions r =>
    obtain rfl := Option.some.inj hn
    have hf : r.fixed[i]? = some r.fixed[i] := Array.getElem?_eq_getElem hi
    obtain ⟨t, ht⟩ : ∃ t, r.tallies[i]? = some t :=
      ⟨_, Array.getElem?_eq_getElem (Nat.lt_of_lt_of_eq hi (Regions.Sound.tallies hs).symm)⟩
    have hhit : r.hits i a = r.cache.holdsAt (r.fixed[i].steer r.cache.shape a) := by rw [Regions.hits, hf]
    have ht' : (r.touch i a kind).tallies[i]? = some (t.record (r.hits i a)) := by
      rw [Regions.touch_of_some hf, Array.getElem?_modify, if_pos rfl, ht, hhit]
      rfl
    rw [touch, account_regions (by rw [Regions.clients, Regions.fixed_touch]; exact hi) ht', account_regions hi ht]
    rfl

theorem unservedOf_touch_of_ne {s : Scheme} {i j : Nat} (hij : i ≠ j) (a : Address) (kind : AccessKind) :
    (s.touch i a kind).unservedOf j = s.unservedOf j := by
  cases s with
  | plain c => rfl
  | banked b =>
    have hu := unserved?_touch_of_ne (s := banked b) hij a kind
    obtain ⟨division, holdings⟩ := b
    cases division with
    | cells offsetBits clusters tables => exact congrArg (·.getD 0) hu
    | ways sets => rfl
    | slices offsetBits selectionBits => rfl
    | clusters offsetBits clusterBits => rfl
  | regions r => rfl

/-- The accounts of the other clients stay as they are. -/
theorem account_touch_of_ne {s : Scheme} (hs : s.Sound) {n i j : Nat} (hn : s.clients? = some n) (hij : i ≠ j)
    (a : Address) (kind : AccessKind) : (s.touch i a kind).account j = s.account j := by
  have hdivided : s.Divided := by
    cases s with
    | plain c => cases hn
    | banked b => trivial
    | regions r => exact Regions.Sound.apart hs
  rw [account, tallyOf, tally?_touch_of_ne hdivided hij, unservedOf_touch_of_ne hij, account, tallyOf]

theorem tally?_eq {s : Scheme} {n i : Nat} (hn : s.clients? = some n) (hi : i < n) :
    s.tally? i = .ok (s.tallyOf i) := by
  rw [tallyOf]
  cases s with
  | plain c => cases hn
  | banked b =>
    obtain rfl := Option.some.inj hn
    rw [tally?, Banked.tally?, Array.getElem?_eq_getElem hi]
    rfl
  | regions r =>
    obtain rfl := Option.some.inj hn
    rw [tally?, Regions.tally?, if_pos hi]
    rfl

theorem account_of_fresh {s : Scheme} (h : s.Fresh) {n i : Nat} (hn : s.clients? = some n) (hi : i < n) :
    s.account i = {} := by
  cases s with
  | plain c => cases hn
  | banked b =>
    obtain rfl := Option.some.inj hn
    have hh : b.holdings[i]? = some b.holdings[i] := Array.getElem?_eq_getElem hi
    have hfresh := h i _ hh
    rw [account_banked (Banked.Fresh.sound h) hh, Holding.account, hfresh.tally_eq, hfresh.unserved]
  | regions r =>
    obtain rfl := Option.some.inj hn
    have ht := Array.getElem?_eq_getElem (Nat.lt_of_lt_of_eq hi (Regions.Sound.tallies (Regions.Fresh.sound h)).symm)
    rw [account_regions hi ht, Regions.Fresh.tally h i _ ht]

end Scheme

/-! ## Cores and their private caches -/

namespace TwoLevel

/-- The counts of a core; there are none where it does not exist. -/
def tallyOf (t : TwoLevel) (core : Nat) : Tally := (t.tally? core).toOption.getD {}

/-- The counts of the private cache of a core. -/
def privateTally (t : TwoLevel) (core : Nat) : Tally := ((t.private? core).toOption.map (·.tally)).getD {}

section Counts
variable {t : TwoLevel} {i : Nat}

theorem tallyOf_eq {c : Core} (hc : t.cores[i]? = some c) : t.tallyOf i = c.tally := by
  rw [tallyOf, tally?, hc]
  rfl

theorem privateTally_eq {c : Core} (hc : t.cores[i]? = some c) : t.privateTally i = c.cache.tally := by
  rw [privateTally, private?, hc]
  rfl

theorem tally?_eq (hi : i < t.cores.size) : t.tally? i = .ok (t.tallyOf i) := by
  have hc := Array.getElem?_eq_getElem hi
  rw [tallyOf_eq hc, tally?, hc]

theorem private?_eq (hi : i < t.cores.size) : (t.private? i).map (·.tally) = .ok (t.privateTally i) := by
  have hc := Array.getElem?_eq_getElem hi
  rw [privateTally_eq hc, private?, hc]
  rfl

theorem tallyOf_touch (hi : i < t.cores.size) (client : Nat) (a : Address) (kind : AccessKind) :
    (t.touch i client a kind).tallyOf i = (t.tallyOf i).record (t.hits i client a) := by
  have hc := Array.getElem?_eq_getElem hi
  have hc' := getElem?_cores_touch t i client a kind i
  rw [if_pos rfl, hc] at hc'
  rw [tallyOf_eq hc, tallyOf_eq hc']

theorem privateTally_touch (hi : i < t.cores.size) (client : Nat) (a : Address) (kind : AccessKind) :
    (t.touch i client a kind).privateTally i = (t.privateTally i).record (t.hitsPrivate i a) := by
  have hc := Array.getElem?_eq_getElem hi
  have hc' := getElem?_cores_touch t i client a kind i
  rw [if_pos rfl, hc] at hc'
  rw [privateTally_eq hc, privateTally_eq hc', hitsPrivate, hc]
  rfl

theorem tallyOf_touch_of_ne {j : Nat} (hij : i ≠ j) (client : Nat) (a : Address) (kind : AccessKind) :
    (t.touch i client a kind).tallyOf j = t.tallyOf j := by
  have hc := getElem?_cores_touch t i client a kind j
  rw [if_neg hij] at hc
  rw [tallyOf, tallyOf, tally?, tally?, hc]
  cases t.cores[j]? <;> rfl

theorem privateTally_touch_of_ne {j : Nat} (hij : i ≠ j) (client : Nat) (a : Address) (kind : AccessKind) :
    (t.touch i client a kind).privateTally j = t.privateTally j := by
  have hc := getElem?_cores_touch t i client a kind j
  rw [if_neg hij] at hc
  rw [privateTally, privateTally, private?, private?, hc]
  cases t.cores[j]? <;> rfl

@[simp] theorem clients?_touch (t : TwoLevel) (core client : Nat) (a : Address) (kind : AccessKind) :
    (t.touch core client a kind).shared.clients? = t.shared.clients? := by
  rw [shared_touch]
  split
  · rfl
  · exact Scheme.clients?_touch _ _ _ _

/-- What does not pass the private cache does not show in an account. -/
theorem account_touch (hs : t.shared.Sound) {n : Nat} (hn : t.shared.clients? = some n) (hi : i < n) (a : Address)
    (kind : AccessKind) (core : Nat) :
    (t.touch core i a kind).shared.account i =
      if t.hitsPrivate core a then t.shared.account i else (t.shared.account i).record (t.shared.hits i a) := by
  rw [shared_touch]
  split
  · rfl
  · exact Scheme.account_touch hs hn hi a kind

theorem account_touch_of_ne (hs : t.shared.Sound) {n j : Nat} (hn : t.shared.clients? = some n) (hij : i ≠ j)
    (a : Address) (kind : AccessKind) (core : Nat) :
    (t.touch core i a kind).shared.account j = t.shared.account j := by
  rw [shared_touch]
  split
  · rfl
  · exact Scheme.account_touch_of_ne hs hn hij a kind

/-- An undivided shared level records what does not hit privately. -/
theorem plain_of_touch {client : Nat} {a : Address} {kind : AccessKind} {c : Cache}
    (h : (t.touch i client a kind).shared = .plain c) :
    ∃ d, t.shared = .plain d ∧ c.tally = if t.hitsPrivate i a then d.tally else d.tally.record (d.hits a) := by
  rw [shared_touch] at h
  cases hd : t.shared with
  | plain d =>
    refine ⟨d, rfl, ?_⟩
    rw [hd] at h
    split at h
    · next hf => rw [if_pos hf, ← Scheme.plain.inj h]
    · next hf => rw [if_neg hf, ← Scheme.plain.inj h, Cache.tally_touch]
  | banked b => rw [hd] at h; split at h <;> cases h
  | regions r => rw [hd] at h; split at h <;> cases h

end Counts

end TwoLevel

end LastLevel
