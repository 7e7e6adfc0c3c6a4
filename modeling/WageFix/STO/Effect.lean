import WageFix.STO

namespace WageFix

namespace State

def moved (s : State) (from_ to_ : Address) (amount : Uint256) : State :=
  let debited := s.setBalance from_ (s.balances from_ - amount)
  (debited.setBalance to_ (debited.balances to_ + amount)).emit (.Transfer from_ to_ amount)

def minted (s : State) (account : Address) (amount : Uint256) : State :=
  ((s.setTotalSupply (s.totalSupply + amount)).setBalance account
    (s.balances account + amount)).emit (.Transfer 0 account amount)

def burned (s : State) (account : Address) (amount : Uint256) : State :=
  ((s.setBalance account (s.balances account - amount)).setTotalSupply
    (s.totalSupply - amount)).emit (.Transfer account 0 amount)

def approved (s : State) (owner spender : Address) (value : Uint256) : State :=
  (s.setAllowance owner spender value).emit (.Approval owner spender value)

def spent (s : State) (owner spender : Address) (amount : Uint256) : State :=
  if s.allowances owner spender = maxUint256 then s
  else s.approved owner spender (s.allowances owner spender - amount)

end State

def Movable (s : State) (from_ to_ : Address) (amount : Uint256) : Prop :=
  from_ ≠ 0 ∧ to_ ≠ 0 ∧ amount ≤ s.balances from_

def Mintable (s : State) (account : Address) (amount : Uint256) : Prop :=
  account ≠ 0 ∧ s.totalSupply.toNat + amount.toNat < 2 ^ 256

def Burnable (s : State) (account : Address) (amount : Uint256) : Prop :=
  account ≠ 0 ∧ amount ≤ s.balances account

def Approvable (owner spender : Address) : Prop := owner ≠ 0 ∧ spender ≠ 0

def Spendable (s : State) (owner spender : Address) (amount : Uint256) : Prop :=
  s.allowances owner spender = maxUint256 ∨
    amount ≤ s.allowances owner spender ∧ Approvable owner spender

section Internal

variable {s t : State}

theorem transfer_eq_ok {from_ to_ : Address} {amount : Uint256} :
    ERC20._transfer from_ to_ amount s = .ok t ↔
      Movable s from_ to_ amount ∧ t = s.moved from_ to_ amount := by
  simp [ERC20._transfer, bind_eq_ok, map_eq_ok, Movable, State.moved, and_assoc]

theorem mint_eq_ok {account : Address} {amount : Uint256} :
    ERC20._mint account amount s = .ok t ↔
      Mintable s account amount ∧ t = s.minted account amount := by
  simp [ERC20._mint, bind_eq_ok, map_eq_ok, Mintable, State.minted, State.setTotalSupply,
    and_assoc]

theorem burn_eq_ok {account : Address} {amount : Uint256} :
    ERC20._burn account amount s = .ok t ↔
      Burnable s account amount ∧ t = s.burned account amount := by
  simp [ERC20._burn, bind_eq_ok, map_eq_ok, Burnable, State.burned, State.setBalance,
    and_assoc]

theorem approve_eq_ok {owner spender : Address} {value : Uint256} :
    ERC20._approve owner spender value s = .ok t ↔
      Approvable owner spender ∧ t = s.approved owner spender value := by
  simp [ERC20._approve, bind_eq_ok, map_eq_ok, Approvable, State.approved, and_assoc]

theorem spendAllowance_eq_ok {owner spender : Address} {amount : Uint256} :
    ERC20._spendAllowance owner spender amount s = .ok t ↔
      Spendable s owner spender amount ∧ t = s.spent owner spender amount := by
  by_cases h : s.allowances owner spender = maxUint256
  · simp [ERC20._spendAllowance, Spendable, State.spent, h]
  · simp [ERC20._spendAllowance, Spendable, State.spent, h, bind_eq_ok, approve_eq_ok, and_assoc]

theorem checkOwner_eq_ok {msgSender : Address} {u : Unit} :
    Ownable._checkOwner msgSender s = .ok u ↔ s.owner = msgSender := require_eq_ok

end Internal

def Accepts (s : State) (m : Msg) : Prop :=
  match m.call with
  | .whitelistInvestor _ => s.owner = m.sender
  | .removeInvestor _ => s.owner = m.sender
  | .issueTokens to_ amount =>
      s.owner = m.sender ∧ s.isWhitelisted to_ = true ∧ Mintable s to_ amount
  | .transfer to_ amount => s.isWhitelisted to_ = true ∧ Movable s m.sender to_ amount
  | .redeemTokens amount => Burnable s m.sender amount
  | .transferFrom from_ to_ amount => Spendable s from_ m.sender amount ∧ Movable s from_ to_ amount
  | .approve spender _ => Approvable m.sender spender
  | .increaseAllowance spender addedValue =>
      (s.allowances m.sender spender).toNat + addedValue.toNat < 2 ^ 256 ∧
        Approvable m.sender spender
  | .decreaseAllowance spender subtractedValue =>
      subtractedValue ≤ s.allowances m.sender spender ∧ Approvable m.sender spender
  | .burn amount => Burnable s m.sender amount
  | .burnFrom account amount => Spendable s account m.sender amount ∧ Burnable s account amount
  | .transferOwnership newOwner => s.owner = m.sender ∧ newOwner ≠ 0
  | .renounceOwnership => s.owner = m.sender

def post (s : State) (m : Msg) : State :=
  match m.call with
  | .whitelistInvestor investor => s.setWhitelisted investor true
  | .removeInvestor investor => s.setWhitelisted investor false
  | .issueTokens to_ amount => s.minted to_ amount
  | .transfer to_ amount => s.moved m.sender to_ amount
  | .redeemTokens amount => s.burned m.sender amount
  | .transferFrom from_ to_ amount => (s.spent from_ m.sender amount).moved from_ to_ amount
  | .approve spender amount => s.approved m.sender spender amount
  | .increaseAllowance spender addedValue =>
      s.approved m.sender spender (s.allowances m.sender spender + addedValue)
  | .decreaseAllowance spender subtractedValue =>
      s.approved m.sender spender (s.allowances m.sender spender - subtractedValue)
  | .burn amount => s.burned m.sender amount
  | .burnFrom account amount => (s.spent account m.sender amount).burned account amount
  | .transferOwnership newOwner => Ownable._transferOwnership newOwner s
  | .renounceOwnership => Ownable._transferOwnership 0 s

@[simp] theorem spent_balances (s : State) (owner spender : Address) (amount : Uint256) :
    (s.spent owner spender amount).balances = s.balances := by
  unfold State.spent
  split_ifs <;> rfl

@[simp] theorem spent_totalSupply (s : State) (owner spender : Address) (amount : Uint256) :
    (s.spent owner spender amount).totalSupply = s.totalSupply := by
  unfold State.spent
  split_ifs <;> rfl

@[simp] theorem spent_owner (s : State) (owner spender : Address) (amount : Uint256) :
    (s.spent owner spender amount).owner = s.owner := by
  unfold State.spent
  split_ifs <;> rfl

@[simp] theorem spent_isWhitelisted (s : State) (owner spender : Address) (amount : Uint256) :
    (s.spent owner spender amount).isWhitelisted = s.isWhitelisted := by
  unfold State.spent
  split_ifs <;> rfl

theorem step_eq_some {s t : State} {m : Msg} :
    step s m = some t ↔ ∃ flag, dispatch m s = .ok (flag, t) := by
  unfold step
  split
  · rename_i flag u h
    simp [h, eq_comm]
  · rename_i e h
    simp [h]

-- The one place where the bodies are unfolded.
theorem step_eq_some_iff {s t : State} {m : Msg} :
    step s m = some t ↔ Accepts s m ∧ t = post s m := by
  rw [step_eq_some]
  rcases m with ⟨sender, call⟩
  cases call <;>
    simp [dispatch, Accepts, post, map_eq_ok, bind_eq_ok, WageFixSTO.whitelistInvestor,
      WageFixSTO.removeInvestor, WageFixSTO.issueTokens, WageFixSTO.transfer,
      WageFixSTO.redeemTokens, ERC20.transfer, ERC20.transferFrom, ERC20.approve,
      ERC20.increaseAllowance, ERC20.decreaseAllowance, ERC20Burnable.burn,
      ERC20Burnable.burnFrom, Ownable.transferOwnership, Ownable.renounceOwnership,
      checkOwner_eq_ok, transfer_eq_ok, mint_eq_ok, burn_eq_ok, approve_eq_ok,
      spendAllowance_eq_ok, Movable, Burnable, and_assoc]

theorem step_of_accepts {s : State} {m : Msg} (h : Accepts s m) : step s m = some (post s m) :=
  step_eq_some_iff.mpr ⟨h, rfl⟩

end WageFix
