import WageFix.Transition
import Mathlib.Algebra.Order.BigOperators.Group.Finset
import Mathlib.Data.Fintype.BigOperators

-- Accounts with exact balances. The supply is what the accounts hold
-- together, in every ledger that can be built.
structure Ledger (α : Type*) [Fintype α] where
  balance : α → ℕ
  supply : ℕ
  conserved : ∑ a, balance a = supply

namespace Ledger

inductive Entry (α : Type*) where
  | credit (payee : α) (amount : ℕ)
  | debit (payer : α) (amount : ℕ)
  | move (payer payee : α) (amount : ℕ)
  deriving DecidableEq, Repr

variable {α : Type*} [DecidableEq α]

def Entry.inflow (entry : Entry α) (a : α) : ℕ :=
  match entry with
  | .credit payee amount => if payee = a then amount else 0
  | .debit _ _ => 0
  | .move _ payee amount => if payee = a then amount else 0

def Entry.outflow (entry : Entry α) (a : α) : ℕ :=
  match entry with
  | .credit _ _ => 0
  | .debit payer amount => if payer = a then amount else 0
  | .move payer _ amount => if payer = a then amount else 0

def Entry.created : Entry α → ℕ
  | .credit _ amount => amount
  | .debit _ _ | .move _ _ _ => 0

def Entry.destroyed : Entry α → ℕ
  | .debit _ amount => amount
  | .credit _ _ | .move _ _ _ => 0

def Entry.change (entry : Entry α) (a : α) : ℤ := entry.inflow a - entry.outflow a

section Update

variable [Fintype α]

theorem sum_update_add (f : α → ℕ) (a : α) (n : ℕ) :
    ∑ x, Function.update f a n x + f a = ∑ x, f x + n := by
  have hu := Finset.sum_update_of_mem (Finset.mem_univ a) f n
  have hf := Finset.add_sum_erase Finset.univ f (Finset.mem_univ a)
  rw [← Finset.erase_eq] at hu
  omega

theorem sum_update_credit (f : α → ℕ) (a : α) (n : ℕ) :
    ∑ x, Function.update f a (f a + n) x = ∑ x, f x + n := by
  have h := sum_update_add f a (f a + n)
  omega

theorem sum_update_debit (f : α → ℕ) (a : α) (n : ℕ) (hn : n ≤ f a) :
    ∑ x, Function.update f a (f a - n) x + n = ∑ x, f x := by
  have h := sum_update_add f a (f a - n)
  omega

end Update

variable [Fintype α]

-- A move writes the debit before it reads the receiver, so a move from an
-- account to itself changes nothing.
def post (L : Ledger α) : Entry α → Option (Ledger α)
  | .credit payee amount =>
      some {
        balance := Function.update L.balance payee (L.balance payee + amount)
        supply := L.supply + amount
        conserved := by rw [sum_update_credit, L.conserved] }
  | .debit payer amount =>
      if h : amount ≤ L.balance payer then
        some {
          balance := Function.update L.balance payer (L.balance payer - amount)
          supply := L.supply - amount
          conserved := by
            have hs := sum_update_debit L.balance payer amount h
            have hc := L.conserved
            omega }
      else none
  | .move payer payee amount =>
      if h : amount ≤ L.balance payer then
        let debited := Function.update L.balance payer (L.balance payer - amount)
        some {
          balance := Function.update debited payee (debited payee + amount)
          supply := L.supply
          conserved := by
            have hs := sum_update_debit L.balance payer amount h
            rw [sum_update_credit, ← L.conserved]
            exact hs }
      else none

def empty : Ledger α where
  balance _ := 0
  supply := 0
  conserved := by simp

omit [DecidableEq α] in
theorem balance_le_supply (L : Ledger α) (a : α) : L.balance a ≤ L.supply :=
  L.conserved ▸ Finset.single_le_sum_of_canonicallyOrdered (Finset.mem_univ a)

theorem exists_post_debit {L : Ledger α} {payer : α} {amount : ℕ} (h : amount ≤ L.balance payer) :
    ∃ M, L.post (.debit payer amount) = some M :=
  ⟨_, dif_pos h⟩

theorem exists_post_move {L : Ledger α} {payer : α} {amount : ℕ} (h : amount ≤ L.balance payer)
    (payee : α) : ∃ M, L.post (.move payer payee amount) = some M :=
  ⟨_, dif_pos h⟩

theorem post_balance {L M : Ledger α} {entry : Entry α} (h : L.post entry = some M) (a : α) :
    M.balance a + entry.outflow a = L.balance a + entry.inflow a := by
  cases entry with
  | credit payee amount =>
      simp only [post, Option.some.injEq] at h
      subst h
      by_cases ha : payee = a
      · subst ha; simp [Entry.outflow, Entry.inflow]
      · simp [Entry.outflow, Entry.inflow, ha, Function.update_of_ne (Ne.symm ha)]
  | debit payer amount =>
      simp only [post] at h
      split at h
      · rename_i hle
        rw [Option.some.injEq] at h
        subst h
        by_cases ha : payer = a
        · subst ha
          simp only [Entry.outflow, Entry.inflow, ite_true, Function.update_self]
          omega
        · simp [Entry.outflow, Entry.inflow, ha, Function.update_of_ne (Ne.symm ha)]
      · cases h
  | move payer payee amount =>
      simp only [post] at h
      split at h
      · rename_i hle
        rw [Option.some.injEq] at h
        subst h
        simp only [Entry.outflow, Entry.inflow, Function.update_apply]
        split_ifs <;> grind
      · cases h

theorem post_supply {L M : Ledger α} {entry : Entry α} (h : L.post entry = some M) :
    M.supply + entry.destroyed = L.supply + entry.created := by
  cases entry with
  | credit payee amount =>
      simp only [post, Option.some.injEq] at h
      subst h
      rfl
  | debit payer amount =>
      simp only [post] at h
      split at h
      · rename_i hle
        rw [Option.some.injEq] at h
        subst h
        have hs := hle.trans (L.balance_le_supply payer)
        simp only [Entry.destroyed, Entry.created]
        omega
      · cases h
  | move payer payee amount =>
      simp only [post] at h
      split at h
      · rw [Option.some.injEq] at h
        subst h
        rfl
      · cases h

theorem post_change {L M : Ledger α} {entry : Entry α} (h : L.post entry = some M) (a : α) :
    (M.balance a : ℤ) = L.balance a + entry.change a := by
  have hb := post_balance h a
  simp only [Entry.change]
  omega

-- A ledger is determined by its journal: each balance is what came in less
-- what went out.
theorem runAll_balance {L M : Ledger α} {journal : List (Entry α)}
    (h : Transition.runAll post L journal = some M) (a : α) :
    (M.balance a : ℤ) = L.balance a + (journal.map fun entry => entry.change a).sum :=
  Transition.runAll_eq_add_sum (I := fun _ => True) (P := fun _ => True)
    (fun L => (L.balance a : ℤ)) (fun entry => entry.change a) (fun _ _ _ _ _ _ => trivial)
    (fun _ _ _ _ _ hp => post_change hp a) trivial (fun _ _ => trivial) h

end Ledger
