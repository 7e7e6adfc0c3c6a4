import WageFix.Evm
import Mathlib.Logic.Function.Basic

namespace WageFix

inductive Event where
  | Transfer (from_ to_ : Address) (value : Uint256)
  | Approval (owner spender : Address) (value : Uint256)
  | OwnershipTransferred (previousOwner newOwner : Address)
  deriving DecidableEq, Repr

-- The storage of one deployed token: the slots of ERC20, the one of Ownable,
-- the whitelist of the token itself, and what it has emitted so far, oldest
-- first.
structure State where
  balances : Address → Uint256
  allowances : Address → Address → Uint256
  totalSupply : Uint256
  owner : Address
  isWhitelisted : Address → Bool
  logs : List Event

namespace State

def setBalance (s : State) (account : Address) (value : Uint256) : State :=
  { s with balances := Function.update s.balances account value }

def setAllowance (s : State) (owner spender : Address) (value : Uint256) : State :=
  { s with allowances :=
      Function.update s.allowances owner (Function.update (s.allowances owner) spender value) }

def setTotalSupply (s : State) (value : Uint256) : State := { s with totalSupply := value }

def setOwner (s : State) (owner : Address) : State := { s with owner := owner }

def setWhitelisted (s : State) (investor : Address) (flag : Bool) : State :=
  { s with isWhitelisted := Function.update s.isWhitelisted investor flag }

def emit (s : State) (event : Event) : State := { s with logs := s.logs ++ [event] }

end State

-- The bodies below are those of OpenZeppelin 4.9. The transfer hooks of ERC20
-- are empty in this token and left out.
namespace Ownable

def _checkOwner (msgSender : Address) (s : State) : Outcome Unit :=
  require (s.owner = msgSender) "Ownable: caller is not the owner"

def _transferOwnership (newOwner : Address) (s : State) : State :=
  (s.setOwner newOwner).emit (.OwnershipTransferred s.owner newOwner)

def renounceOwnership (msgSender : Address) (s : State) : Outcome State := do
  _checkOwner msgSender s
  return _transferOwnership 0 s

def transferOwnership (msgSender newOwner : Address) (s : State) : Outcome State := do
  _checkOwner msgSender s
  require (newOwner ≠ 0) "Ownable: new owner is the zero address"
  return _transferOwnership newOwner s

end Ownable

namespace ERC20

def _transfer (from_ to_ : Address) (amount : Uint256) (s : State) : Outcome State := do
  require (from_ ≠ 0) "ERC20: transfer from the zero address"
  require (to_ ≠ 0) "ERC20: transfer to the zero address"
  let fromBalance := s.balances from_
  require (amount ≤ fromBalance) "ERC20: transfer amount exceeds balance"
  -- unchecked: both updates wrap, and the second reads what the first wrote
  let s := s.setBalance from_ (fromBalance - amount)
  let s := s.setBalance to_ (s.balances to_ + amount)
  return s.emit (.Transfer from_ to_ amount)

def _mint (account : Address) (amount : Uint256) (s : State) : Outcome State := do
  require (account ≠ 0) "ERC20: mint to the zero address"
  let s := s.setTotalSupply (← checkedAdd s.totalSupply amount)
  -- unchecked
  let s := s.setBalance account (s.balances account + amount)
  return s.emit (.Transfer 0 account amount)

def _burn (account : Address) (amount : Uint256) (s : State) : Outcome State := do
  require (account ≠ 0) "ERC20: burn from the zero address"
  let accountBalance := s.balances account
  require (amount ≤ accountBalance) "ERC20: burn amount exceeds balance"
  -- unchecked
  let s := s.setBalance account (accountBalance - amount)
  let s := s.setTotalSupply (s.totalSupply - amount)
  return s.emit (.Transfer account 0 amount)

def _approve (owner spender : Address) (amount : Uint256) (s : State) : Outcome State := do
  require (owner ≠ 0) "ERC20: approve from the zero address"
  require (spender ≠ 0) "ERC20: approve to the zero address"
  return (s.setAllowance owner spender amount).emit (.Approval owner spender amount)

-- An allowance of type(uint256).max is unlimited and is not written.
def _spendAllowance (owner spender : Address) (amount : Uint256) (s : State) : Outcome State := do
  let currentAllowance := s.allowances owner spender
  if currentAllowance ≠ maxUint256 then
    require (amount ≤ currentAllowance) "ERC20: insufficient allowance"
    _approve owner spender (currentAllowance - amount) s
  else
    return s

def transfer (msgSender to_ : Address) (amount : Uint256) (s : State) :
    Outcome (Bool × State) := do
  return (true, ← _transfer msgSender to_ amount s)

def approve (msgSender spender : Address) (amount : Uint256) (s : State) :
    Outcome (Bool × State) := do
  return (true, ← _approve msgSender spender amount s)

def transferFrom (msgSender from_ to_ : Address) (amount : Uint256) (s : State) :
    Outcome (Bool × State) := do
  let s ← _spendAllowance from_ msgSender amount s
  return (true, ← _transfer from_ to_ amount s)

def increaseAllowance (msgSender spender : Address) (addedValue : Uint256) (s : State) :
    Outcome (Bool × State) := do
  let allowance ← checkedAdd (s.allowances msgSender spender) addedValue
  return (true, ← _approve msgSender spender allowance s)

def decreaseAllowance (msgSender spender : Address) (subtractedValue : Uint256) (s : State) :
    Outcome (Bool × State) := do
  let currentAllowance := s.allowances msgSender spender
  require (subtractedValue ≤ currentAllowance) "ERC20: decreased allowance below zero"
  return (true, ← _approve msgSender spender (currentAllowance - subtractedValue) s)

end ERC20

namespace ERC20Burnable

def burn (msgSender : Address) (amount : Uint256) (s : State) : Outcome State :=
  ERC20._burn msgSender amount s

def burnFrom (msgSender account : Address) (amount : Uint256) (s : State) : Outcome State := do
  let s ← ERC20._spendAllowance account msgSender amount s
  ERC20._burn account amount s

end ERC20Burnable

end WageFix
