/-!
# Client numbers

Clients and cores are numbered from zero. `OutOfRange` is the one way in which
an access can be refused. What is given out in shares, one for each number, is
added up by `totalShare`.
-/

namespace LastLevel

/-- A client number that is not below the number of clients. -/
structure OutOfRange where
  client : Nat
  clients : Nat
deriving DecidableEq, Repr

namespace OutOfRange

def message (e : OutOfRange) : String :=
  s!"client id {e.client} out of range ({e.clients} clients configured)"

end OutOfRange

def checkClient (client clients : Nat) : Except OutOfRange Unit :=
  if client < clients then .ok () else .error { client, clients }

/-- All shares together. -/
def totalShare (shares : List Nat) : Nat := shares.foldr (· + ·) 0

theorem le_totalShare {shares : List Nat} {n : Nat} (h : n ∈ shares) : n ≤ totalShare shares := by
  induction h with
  | head => exact Nat.le_add_right _ _
  | tail _ _ ih => exact Nat.le_trans ih (Nat.le_add_left _ _)

theorem totalShare_cons (n : Nat) (shares : List Nat) : totalShare (n :: shares) = n + totalShare shares := rfl

theorem totalShare_replicate (n share : Nat) : totalShare (List.replicate n share) = n * share := by
  induction n with
  | zero => rw [Nat.zero_mul]; rfl
  | succ n ih => rw [List.replicate_succ, totalShare_cons, ih, Nat.succ_mul, Nat.add_comm]

theorem totalShare_eq_zero_iff {shares : List Nat} : totalShare shares = 0 ↔ ∀ n ∈ shares, n = 0 := by
  induction shares with
  | nil => simp [totalShare]
  | cons n shares ih => rw [totalShare_cons, Nat.add_eq_zero_iff, ih, List.forall_mem_cons]

theorem checkClient_eq_ok {client clients : Nat} :
    checkClient client clients = .ok () ↔ client < clients := by
  unfold checkClient
  split <;> simp_all

end LastLevel
