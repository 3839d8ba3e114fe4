import LastLevel.Proofs.Runs
import Mathlib.Data.List.Induction
/-!
# Counts of a run

Counters start at zero and only ever record outcomes, so after a run they are
the numbers of its hits and misses: `Cache.tally_final`. The counts of a client's
banks together record each access that one of the banks serves once:
`Holding.tally_touch`.
-/

namespace LastLevel

namespace Tally

theorem record_add (t u : Tally) (hit : Bool) : (t.record hit).add u = (t.add u).record hit := by
  cases hit <;> simp [record, add] <;> omega

theorem add_record (t u : Tally) (hit : Bool) : t.add (u.record hit) = (t.add u).record hit := by
  cases hit <;> simp [record, add] <;> omega

/-- The order in which outcomes are recorded does not matter. -/
theorem record_comm (t : Tally) (h₁ h₂ : Bool) : (t.record h₁).record h₂ = (t.record h₂).record h₁ := by
  cases h₁ <;> cases h₂ <;> rfl

theorem sum_eq_empty {ts : List Tally} (h : ∀ t ∈ ts, t = {}) : sum ts = {} := by
  induction ts with
  | nil => rfl
  | cons t ts ih =>
    obtain ⟨rfl, hts⟩ := List.forall_mem_cons.1 h
    rw [sum, List.foldr_cons, ← sum, ih hts]
    rfl

/-- The counts of some outcomes. -/
def ofOutcomes (os : List Bool) : Tally := { misses := os.count false, hits := os.count true }

theorem ofOutcomes_append_singleton (os : List Bool) (hit : Bool) :
    ofOutcomes (os ++ [hit]) = (ofOutcomes os).record hit := by
  cases hit <;> simp [ofOutcomes, record]

end Tally

/-- The counters of a new cache are the counts of what its accesses returned. -/
theorem Cache.tally_final (shape : Shape) (xs : List Record) :
    (Run.final Cache.step (.empty shape) xs).tally =
      .ofOutcomes ((Run.log Cache.step (.empty shape) xs).map (·.2)) := by
  induction xs using List.reverseRecOn with
  | nil => rfl
  | append_singleton xs x ih =>
    rw [Run.final_append, Run.log_append, List.map_append]
    simp only [Run.final_cons, Run.final_nil, Run.log_cons, Run.log_nil, List.map_cons, List.map_nil]
    rw [Tally.ofOutcomes_append_singleton, ← ih]
    rfl

namespace Holding

/-- Where one counter of many records an outcome, so does their sum. -/
theorem sum_modify {cs : List (Option Cache)} {i : Nat} {c : Cache} {f : Cache → Cache} {hit : Bool}
    (hc : cs[i]? = some (some c)) (hf : (f c).tally = c.tally.record hit) :
    Tally.sum ((cs.modify i (·.map f)).filterMap fun c => c.map (·.tally)) =
      (Tally.sum (cs.filterMap fun c => c.map (·.tally))).record hit := by
  induction cs generalizing i with
  | nil => simp at hc
  | cons d cs ih =>
    -- The counter that changes is the first one, or among the rest.
    cases i with
    | zero =>
      obtain rfl : d = some c := by simpa using hc
      simp [Tally.sum, hf, Tally.record_add]
    | succ i =>
      have ih := ih (by simpa using hc)
      cases d with
      | none => simpa using ih
      | some d =>
        simp only [Tally.sum] at ih
        simp [Tally.sum, ih, Tally.add_record]

/-- An access that a bank serves is recorded once in the counts of all banks. -/
theorem tally_touch {h : Holding} {i : Nat} {c : Cache} (hc : h.bank? i = some c) (a : Address)
    (kind : AccessKind) : (h.touch i a kind).tally = h.tally.record (h.hits i a) := by
  have hi : h.banks.toList[i]? = some (some c) := by
    rw [bank?, Option.join_eq_some_iff] at hc
    simpa using hc
  have hh : h.hits i a = c.hits a := by rw [hits, hc]
  rw [touch, hc, Option.isSome_some, if_pos rfl, tally, Array.toList_modify, hh,
    sum_modify hi (Cache.tally_touch c a kind)]
  rfl

end Holding

end LastLevel
