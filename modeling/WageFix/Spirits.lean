import WageFix.Evm
import WageFix.CallTree
import Mathlib.Logic.Function.Basic

namespace WageFix.Spirits

-- The storage of one deployed SpiritsToken: ERC721, ERC721URIStorage and its
-- own two slots. An id without an owner has the zero address there.
structure State where
  owners : Uint256 → Address
  balances : Address → Uint256
  tokenApprovals : Uint256 → Address
  operatorApprovals : Address → Address → Bool
  tokenURIs : Uint256 → String
  nextTokenId : Uint256
  admin : Address

-- The bodies are those of OpenZeppelin 4.9, whose transfer hooks are empty in
-- this token. A callback is what the receiver of a token does with the state
-- when onERC721Received is called on it. It fails when the receiver reverts
-- or does not answer with the expected selector.
namespace ERC721

abbrev _exists (tokenId : Uint256) (s : State) : Prop := s.owners tokenId ≠ 0

def ownerOf (tokenId : Uint256) (s : State) : Outcome Address := do
  require (_exists tokenId s) "ERC721: invalid token ID"
  return s.owners tokenId

abbrev isApprovedForAll (owner operator : Address) (s : State) : Bool :=
  s.operatorApprovals owner operator

def getApproved (tokenId : Uint256) (s : State) : Outcome Address := do
  require (_exists tokenId s) "ERC721: invalid token ID"
  return s.tokenApprovals tokenId

def _isApprovedOrOwner (spender : Address) (tokenId : Uint256) (s : State) : Outcome Bool := do
  let owner ← ownerOf tokenId s
  let approved ← getApproved tokenId s
  return spender = owner ∨ isApprovedForAll owner spender s ∨ approved = spender

def _mint (to_ : Address) (tokenId : Uint256) (s : State) : Outcome State := do
  require (to_ ≠ 0) "ERC721: mint to the zero address"
  require (¬ _exists tokenId s) "ERC721: token already minted"
  -- unchecked
  return { s with
    balances := Function.update s.balances to_ (s.balances to_ + 1)
    owners := Function.update s.owners tokenId to_ }

def _safeMint (to_ : Address) (tokenId : Uint256) (callback : State → Outcome State) (s : State) :
    Outcome State := do
  let s ← _mint to_ tokenId s
  callback s

def _transfer (from_ to_ : Address) (tokenId : Uint256) (s : State) : Outcome State := do
  let owner ← ownerOf tokenId s
  require (owner = from_) "ERC721: transfer from incorrect owner"
  require (to_ ≠ 0) "ERC721: transfer to the zero address"
  -- unchecked: the second update reads what the first wrote
  let debited := Function.update s.balances from_ (s.balances from_ - 1)
  return { s with
    tokenApprovals := Function.update s.tokenApprovals tokenId 0
    balances := Function.update debited to_ (debited to_ + 1)
    owners := Function.update s.owners tokenId to_ }

def transferFrom (msgSender from_ to_ : Address) (tokenId : Uint256) (s : State) :
    Outcome State := do
  let allowed ← _isApprovedOrOwner msgSender tokenId s
  require (allowed = true) "ERC721: caller is not token owner or approved"
  _transfer from_ to_ tokenId s

def safeTransferFrom (msgSender from_ to_ : Address) (tokenId : Uint256)
    (callback : State → Outcome State) (s : State) : Outcome State := do
  let allowed ← _isApprovedOrOwner msgSender tokenId s
  require (allowed = true) "ERC721: caller is not token owner or approved"
  let s ← _transfer from_ to_ tokenId s
  callback s

def approve (msgSender to_ : Address) (tokenId : Uint256) (s : State) : Outcome State := do
  let owner ← ownerOf tokenId s
  require (to_ ≠ owner) "ERC721: approval to current owner"
  require (msgSender = owner ∨ isApprovedForAll owner msgSender s = true)
    "ERC721: approve caller is not token owner or approved for all"
  return { s with tokenApprovals := Function.update s.tokenApprovals tokenId to_ }

def setApprovalForAll (msgSender operator : Address) (approved : Bool) (s : State) :
    Outcome State := do
  require (msgSender ≠ operator) "ERC721: approve to caller"
  let granted := Function.update (s.operatorApprovals msgSender) operator approved
  return { s with operatorApprovals := Function.update s.operatorApprovals msgSender granted }

end ERC721

namespace ERC721URIStorage

def _setTokenURI (tokenId : Uint256) (tokenURI : String) (s : State) : Outcome State := do
  require (ERC721._exists tokenId s) "ERC721URIStorage: URI set of nonexistent token"
  return { s with tokenURIs := Function.update s.tokenURIs tokenId tokenURI }

end ERC721URIStorage

namespace SpiritsToken

def deploy (msgSender : Address) : State where
  owners _ := 0
  balances _ := 0
  tokenApprovals _ := 0
  operatorApprovals _ _ := false
  tokenURIs _ := ""
  nextTokenId := 0
  admin := msgSender

def mint (msgSender to_ : Address) (uri : String) (callback : State → Outcome State)
    (s : State) : Outcome State := do
  require (msgSender = s.admin) "Only admin can mint"
  let s ← ERC721._safeMint to_ s.nextTokenId callback s
  let s ← ERC721URIStorage._setTokenURI s.nextTokenId uri s
  return { s with nextTokenId := ← checkedAdd s.nextTokenId 1 }

end SpiritsToken

inductive Call where
  | mint (to_ : Address) (uri : String)
  | transferFrom (from_ to_ : Address) (tokenId : Uint256)
  | safeTransferFrom (from_ to_ : Address) (tokenId : Uint256)
  | approve (to_ : Address) (tokenId : Uint256)
  | setApprovalForAll (operator : Address) (approved : Bool)
  deriving DecidableEq, Repr

structure Msg where
  sender : Address
  call : Call
  deriving DecidableEq, Repr

def dispatch (m : Msg) (callback : State → Outcome State) (s : State) : Outcome State :=
  match m.call with
  | .mint to_ uri => SpiritsToken.mint m.sender to_ uri callback s
  | .transferFrom from_ to_ tokenId => ERC721.transferFrom m.sender from_ to_ tokenId s
  | .safeTransferFrom from_ to_ tokenId =>
      ERC721.safeTransferFrom m.sender from_ to_ tokenId callback s
  | .approve to_ tokenId => ERC721.approve m.sender to_ tokenId s
  | .setApprovalForAll operator approved =>
      ERC721.setApprovalForAll m.sender operator approved s

def Call.callsBack : Call → Bool
  | .mint _ _ => true
  | .safeTransferFrom _ _ _ => true
  | .transferFrom _ _ _ => false
  | .approve _ _ => false
  | .setApprovalForAll _ _ => false

def beforeCallback (m : Msg) (s : State) : Outcome State :=
  match m.call with
  | .mint to_ _ => do
      require (m.sender = s.admin) "Only admin can mint"
      ERC721._mint to_ s.nextTokenId s
  | .transferFrom from_ to_ tokenId => ERC721.transferFrom m.sender from_ to_ tokenId s
  | .safeTransferFrom from_ to_ tokenId => ERC721.transferFrom m.sender from_ to_ tokenId s
  | .approve to_ tokenId => ERC721.approve m.sender to_ tokenId s
  | .setApprovalForAll operator approved =>
      ERC721.setApprovalForAll m.sender operator approved s

def afterCallback (m : Msg) (s : State) : Outcome State :=
  match m.call with
  | .mint _ uri => do
      let s ← ERC721URIStorage._setTokenURI s.nextTokenId uri s
      return { s with nextTokenId := ← checkedAdd s.nextTokenId 1 }
  | _ => return s

-- Cutting the calls loses nothing: with any callback, a call of the source is
-- its two parts around the callback.
theorem dispatch_eq (m : Msg) (callback : State → Outcome State) (s : State) :
    dispatch m callback s = beforeCallback m s >>= fun t =>
      (if m.call.callsBack then callback t else .ok t) >>= fun u => afterCallback m u := by
  rcases m with ⟨sender, call⟩
  cases call with
  | mint to_ uri =>
      simp [dispatch, beforeCallback, afterCallback, Call.callsBack, SpiritsToken.mint,
        ERC721._safeMint]
  | safeTransferFrom from_ to_ tokenId =>
      simp [dispatch, beforeCallback, afterCallback, Call.callsBack, ERC721.safeTransferFrom,
        ERC721.transferFrom]
  | transferFrom from_ to_ tokenId => exact (bind_pure _).symm
  | approve to_ tokenId => exact (bind_pure _).symm
  | setApprovalForAll operator approved => exact (bind_pure _).symm

def onERC721Received (nested : State → State) (accepts : Bool) (s : State) : Outcome State :=
  if accepts then .ok (nested s)
  else .error (.reason "ERC721: transfer to non ERC721Receiver implementer")

-- A tree of calls, with a failed call undone as a whole and its caller going on.
def run : State → CallTree.Calls Msg → State
  | s, .done => s
  | s, .plain m rest => run ((dispatch m .ok s).toOption.getD s) rest
  | s, .call m nested accepts rest =>
      let callback := onERC721Received (fun t => run t nested) accepts
      run ((dispatch m callback s).toOption.getD s) rest

-- The calls of a tree that came through: those that succeeded, each with those
-- that did so in its callback. Of a failed call nothing is left.
def cameThrough : State → CallTree.Calls Msg → List Msg
  | _, .done => []
  | s, .plain m rest =>
      match dispatch m .ok s with
      | .error _ => cameThrough s rest
      | .ok t => m :: cameThrough t rest
  | s, .call m nested accepts rest =>
      match dispatch m (onERC721Received (fun t => run t nested) accepts) s with
      | .error _ => cameThrough s rest
      | .ok t =>
          match m.call.callsBack, beforeCallback m s with
          | true, .ok u => m :: (cameThrough u nested ++ cameThrough t rest)
          | _, _ => m :: cameThrough t rest

def token : CallTree.Component State Msg where
  enter s m := (beforeCallback m s).toOption
  leave s m := (afterCallback m s).toOption
  callsBack m := m.call.callsBack

end WageFix.Spirits
