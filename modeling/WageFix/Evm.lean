import Mathlib.Algebra.Order.Ring.Nat
import Mathlib.Algebra.Order.Ring.Int
import Mathlib.Data.Fin.Basic
import Mathlib.Data.Fintype.Basic

namespace WageFix

instance neZero_two_pow_160 : NeZero (2 ^ 160) := ⟨by decide⟩

abbrev Address := Fin (2 ^ 160)

abbrev Uint256 := BitVec 256

def maxUint256 : Uint256 := BitVec.allOnes 256

-- A call is undone with the text of a failed `require`, or with the code of
-- a failed check of the compiler.
inductive Revert where
  | reason (message : String)
  | panic (code : ℕ)
  deriving DecidableEq, Repr

abbrev Outcome := Except Revert

def require (p : Prop) [Decidable p] (message : String) : Outcome Unit :=
  if p then .ok () else .error (.reason message)

-- Addition outside of an `unchecked` block.
def checkedAdd (a b : Uint256) : Outcome Uint256 :=
  if a.toNat + b.toNat < 2 ^ 256 then .ok (a + b) else .error (.panic 0x11)

section Outcome

variable {α β : Type}

theorem bind_eq_ok {x : Outcome α} {f : α → Outcome β} {b : β} :
    (x >>= f) = .ok b ↔ ∃ a, x = .ok a ∧ f a = .ok b := by
  cases x with
  | error e => simp [bind, Except.bind]
  | ok a => simp [bind, Except.bind]

theorem map_eq_ok {x : Outcome α} {f : α → β} {b : β} :
    f <$> x = .ok b ↔ ∃ a, x = .ok a ∧ b = f a := by
  cases x with
  | error e => simp [Functor.map, Except.map]
  | ok a => simp [Functor.map, Except.map, eq_comm]

@[simp] theorem require_eq_ok {p : Prop} [Decidable p] {message : String} {u : Unit} :
    require p message = .ok u ↔ p := by
  unfold require
  split_ifs with h <;> simp [h]

@[simp] theorem checkedAdd_eq_ok {a b c : Uint256} :
    checkedAdd a b = .ok c ↔ a.toNat + b.toNat < 2 ^ 256 ∧ c = a + b := by
  unfold checkedAdd
  split_ifs with h
  · exact ⟨fun hc => ⟨h, (Except.ok.inj hc).symm⟩, fun hc => congrArg Except.ok hc.2.symm⟩
  · exact ⟨fun hc => absurd hc (by simp), fun hc => absurd hc.1 h⟩

@[simp] theorem pure_eq_ok {a b : α} : (pure a : Outcome α) = .ok b ↔ b = a := by
  simp [pure, Except.pure, eq_comm]

end Outcome

theorem toNat_maxUint256 : maxUint256.toNat = 2 ^ 256 - 1 := BitVec.toNat_allOnes

end WageFix
