import WageFix.STO.Allowance

namespace WageFix

open Transition

-- What a reader of the log keeps besides the balances.
structure Books where
  owner : Address
  allowances : Address → Address → Uint256

def Books.read (b : Books) : Event → Books
  | .Transfer _ _ _ => b
  | .Approval owner spender value =>
      { b with allowances :=
          Function.update b.allowances owner (Function.update (b.allowances owner) spender value) }
  | .OwnershipTransferred _ newOwner => { b with owner := newOwner }

def booksOf (logs : List Event) : Books := logs.foldl Books.read ⟨0, fun _ _ => 0⟩

-- Every event of a change of owner names the owner of that moment.
def Linked : Address → List Event → Prop
  | _, [] => True
  | owner, .OwnershipTransferred previousOwner newOwner :: logs =>
      previousOwner = owner ∧ Linked newOwner logs
  | owner, .Transfer _ _ _ :: logs => Linked owner logs
  | owner, .Approval _ _ _ :: logs => Linked owner logs

structure Booked (s : State) : Prop where
  books : booksOf s.logs = ⟨s.owner, s.allowances⟩
  linked : Linked 0 s.logs

section Books

variable {s t : State} {m : Msg}

theorem linked_append (logs : List Event) (b : Books) (event : Event) :
    Linked b.owner (logs ++ [event]) ↔
      Linked b.owner logs ∧ Linked (logs.foldl Books.read b).owner [event] := by
  induction logs generalizing b with
  | nil => exact (and_iff_right trivial).symm
  | cons head logs ih =>
      cases head with
      | Transfer from_ to_ value => exact ih b
      | Approval owner spender value => exact ih (b.read (.Approval owner spender value))
      | OwnershipTransferred previousOwner newOwner =>
          have hrest := ih (b.read (.OwnershipTransferred previousOwner newOwner))
          exact (and_congr_right fun _ => hrest).trans and_assoc.symm

theorem Booked.emit (h : Booked s) {event : Event} (ht : t.logs = s.logs ++ [event])
    (hbooks : Books.read ⟨s.owner, s.allowances⟩ event = ⟨t.owner, t.allowances⟩)
    (hlinked : Linked s.owner [event]) : Booked t where
  books := by
    rw [ht, booksOf, List.foldl_append]
    show Books.read (booksOf s.logs) event = _
    rw [h.books, hbooks]
  linked := by
    have hlast := linked_append s.logs ⟨0, fun _ _ => 0⟩ event
    rw [ht]
    apply hlast.mpr
    refine ⟨h.linked, ?_⟩
    show Linked (booksOf s.logs).owner [event]
    rw [h.books]
    exact hlinked

theorem Booked.of_slots (h : Booked s) (hlogs : t.logs = s.logs) (ho : t.owner = s.owner)
    (ha : t.allowances = s.allowances) : Booked t where
  books := by rw [hlogs, ho, ha, h.books]
  linked := by rw [hlogs]; exact h.linked

theorem Booked.transferred (h : Booked s) (from_ to_ : Address) (value : Uint256)
    (ht : t.logs = s.logs ++ [.Transfer from_ to_ value]) (ho : t.owner = s.owner)
    (ha : t.allowances = s.allowances) : Booked t :=
  h.emit ht (by rw [ho, ha]; rfl) trivial

theorem Booked.approved (h : Booked s) (owner spender : Address) (value : Uint256) :
    Booked (s.approved owner spender value) :=
  h.emit rfl rfl trivial

theorem Booked.handed (h : Booked s) (newOwner : Address) :
    Booked (Ownable._transferOwnership newOwner s) :=
  h.emit rfl rfl ⟨rfl, trivial⟩

theorem Booked.spent (h : Booked s) (owner spender : Address) (amount : Uint256) :
    Booked (s.spent owner spender amount) := by
  unfold State.spent
  split_ifs
  · exact h
  · exact h.approved owner spender _

theorem Booked.moved (h : Booked s) (from_ to_ : Address) (amount : Uint256) :
    Booked (s.moved from_ to_ amount) :=
  h.transferred from_ to_ amount rfl rfl rfl

theorem Booked.minted (h : Booked s) (account : Address) (amount : Uint256) :
    Booked (s.minted account amount) :=
  h.transferred 0 account amount rfl rfl rfl

theorem Booked.burned (h : Booked s) (account : Address) (amount : Uint256) :
    Booked (s.burned account amount) :=
  h.transferred account 0 amount rfl rfl rfl

theorem Booked.step (h : Booked s) (hstep : step s m = some t) : Booked t := by
  obtain ⟨-, rfl⟩ := step_eq_some_iff.mp hstep
  rcases m with ⟨sender, call⟩
  cases call with
  | whitelistInvestor investor => exact h.of_slots rfl rfl rfl
  | removeInvestor investor => exact h.of_slots rfl rfl rfl
  | issueTokens to_ amount => exact h.minted to_ amount
  | transfer to_ amount => exact h.moved sender to_ amount
  | redeemTokens amount => exact h.burned sender amount
  | transferFrom from_ to_ amount => exact (h.spent from_ sender amount).moved from_ to_ amount
  | approve spender amount => exact h.approved sender spender amount
  | increaseAllowance spender addedValue => exact h.approved sender spender _
  | decreaseAllowance spender subtractedValue => exact h.approved sender spender _
  | burn amount => exact h.burned sender amount
  | burnFrom account amount => exact (h.spent account sender amount).burned account amount
  | transferOwnership newOwner => exact h.handed newOwner
  | renounceOwnership => exact h.handed 0

theorem Reachable.booked (h : Reachable s) : Booked s := by
  obtain ⟨deployer, s₀, ms, hd, rfl⟩ := h
  have hempty : Booked WageFixSTO.uninitialized := ⟨rfl, trivial⟩
  have hdeployed : Booked s₀ := by
    obtain ⟨-, rfl⟩ := deploy_eq_ok.mp hd
    exact (hempty.handed deployer).minted deployer 0
  exact replay_invariant (fun _ _ _ => Booked.step) hdeployed ms

theorem slots_of_journal (hs : Sound s) (ht : Sound t) (h : journal s.logs = journal t.logs) :
    s.balances = t.balances ∧ s.totalSupply = t.totalSupply := by
  obtain ⟨L, hL⟩ := hs
  obtain ⟨M, hM⟩ := ht
  have hreplay := hL.replay
  rw [h] at hreplay
  obtain rfl : L = M := Option.some.inj (hreplay.symm.trans hM.replay)
  constructor
  · funext a
    exact BitVec.eq_of_toNat_eq ((hL.represents.balance a).trans (hM.represents.balance a).symm)
  · exact BitVec.eq_of_toNat_eq (hL.represents.supply.trans hM.represents.supply.symm)

end Books

-- Who only reads the log knows every slot but the whitelist: the owner and
-- the allowances are those last logged, the owners follow each other without a
-- gap, and tokens with the same log agree on all of it.
theorem state_known_from_log {s t : State} (hs : Reachable s) (ht : Reachable t)
    (hlogs : s.logs = t.logs) :
    s.owner = (booksOf t.logs).owner ∧ s.allowances = (booksOf t.logs).allowances ∧
      Linked 0 s.logs ∧ s.balances = t.balances ∧ s.totalSupply = t.totalSupply := by
  have hbooked := hs.booked
  have hslots := slots_of_journal hs.sound ht.sound (congrArg journal hlogs)
  have hbooks := hbooked.books
  rw [hlogs] at hbooks
  exact ⟨by rw [hbooks], by rw [hbooks], hbooked.linked, hslots.1, hslots.2⟩

def listed : State :=
  replay step (deployed 1)
    [⟨1, .whitelistInvestor 2⟩, ⟨1, .issueTokens 2 5⟩, ⟨1, .whitelistInvestor 3⟩, ⟨2, .approve 3 4⟩]

-- Investor 3 is on the whitelist of one of two tokens with the same log.
theorem state_known_from_log_listed :
    granted.allowances 2 3 = (booksOf listed.logs).allowances 2 3 ∧
      granted.isWhitelisted 3 ≠ listed.isWhitelisted 3 := by
  have hknown := state_known_from_log reachable_granted
    (reachable_replay_deployed (by decide) _ : Reachable listed) (by decide +kernel)
  exact ⟨congrFun (congrFun hknown.2.1 2) 3, by decide +kernel⟩

end WageFix
