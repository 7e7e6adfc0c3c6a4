import WageFix.STO.OpenZeppelin
import WageFix.Transition

namespace WageFix

namespace WageFixSTO

def whitelistInvestor (msgSender investor : Address) (s : State) : Outcome State := do
  Ownable._checkOwner msgSender s
  return s.setWhitelisted investor true

def removeInvestor (msgSender investor : Address) (s : State) : Outcome State := do
  Ownable._checkOwner msgSender s
  return s.setWhitelisted investor false

def issueTokens (msgSender to_ : Address) (amount : Uint256) (s : State) : Outcome State := do
  Ownable._checkOwner msgSender s
  require (s.isWhitelisted to_) "Not KYC-approved"
  ERC20._mint to_ amount s

-- The only inherited entry point that the token overrides.
def transfer (msgSender to_ : Address) (amount : Uint256) (s : State) :
    Outcome (Bool × State) := do
  require (s.isWhitelisted to_) "Recipient not KYC-approved"
  ERC20.transfer msgSender to_ amount s

def redeemTokens (msgSender : Address) (amount : Uint256) (s : State) : Outcome State :=
  ERC20._burn msgSender amount s

def uninitialized : State where
  balances _ := 0
  allowances _ _ := 0
  totalSupply := 0
  owner := 0
  isWhitelisted _ := false
  logs := []

def deploy (msgSender : Address) : Outcome State :=
  ERC20._mint msgSender 0 (Ownable._transferOwnership msgSender uninitialized)

end WageFixSTO

inductive Call where
  | whitelistInvestor (investor : Address)
  | removeInvestor (investor : Address)
  | issueTokens (to_ : Address) (amount : Uint256)
  | transfer (to_ : Address) (amount : Uint256)
  | redeemTokens (amount : Uint256)
  | transferFrom (from_ to_ : Address) (amount : Uint256)
  | approve (spender : Address) (amount : Uint256)
  | increaseAllowance (spender : Address) (addedValue : Uint256)
  | decreaseAllowance (spender : Address) (subtractedValue : Uint256)
  | burn (amount : Uint256)
  | burnFrom (account : Address) (amount : Uint256)
  | transferOwnership (newOwner : Address)
  | renounceOwnership
  deriving DecidableEq, Repr

structure Msg where
  sender : Address
  call : Call
  deriving DecidableEq, Repr

def dispatch (m : Msg) (s : State) : Outcome (Option Bool × State) :=
  match m.call with
  | .whitelistInvestor investor =>
      (none, ·) <$> WageFixSTO.whitelistInvestor m.sender investor s
  | .removeInvestor investor => (none, ·) <$> WageFixSTO.removeInvestor m.sender investor s
  | .issueTokens to_ amount => (none, ·) <$> WageFixSTO.issueTokens m.sender to_ amount s
  | .transfer to_ amount => Prod.map some id <$> WageFixSTO.transfer m.sender to_ amount s
  | .redeemTokens amount => (none, ·) <$> WageFixSTO.redeemTokens m.sender amount s
  | .transferFrom from_ to_ amount =>
      Prod.map some id <$> ERC20.transferFrom m.sender from_ to_ amount s
  | .approve spender amount => Prod.map some id <$> ERC20.approve m.sender spender amount s
  | .increaseAllowance spender addedValue =>
      Prod.map some id <$> ERC20.increaseAllowance m.sender spender addedValue s
  | .decreaseAllowance spender subtractedValue =>
      Prod.map some id <$> ERC20.decreaseAllowance m.sender spender subtractedValue s
  | .burn amount => (none, ·) <$> ERC20Burnable.burn m.sender amount s
  | .burnFrom account amount => (none, ·) <$> ERC20Burnable.burnFrom m.sender account amount s
  | .transferOwnership newOwner => (none, ·) <$> Ownable.transferOwnership m.sender newOwner s
  | .renounceOwnership => (none, ·) <$> Ownable.renounceOwnership m.sender s

-- One transaction: a reverted call is refused and changes nothing.
def step (s : State) (m : Msg) : Option State :=
  match dispatch m s with
  | .ok (_, t) => some t
  | .error _ => none

def Reachable (s : State) : Prop :=
  ∃ deployer s₀ ms, WageFixSTO.deploy deployer = .ok s₀ ∧ Transition.replay step s₀ ms = s

end WageFix
