import WageFix.STO.Ledger

namespace WageFix

def Call.moves : Call → Bool
  | .issueTokens _ _ => true
  | .transfer _ _ => true
  | .redeemTokens _ => true
  | .transferFrom _ _ _ => true
  | .burn _ => true
  | .burnFrom _ _ => true
  | .whitelistInvestor _ => false
  | .removeInvestor _ => false
  | .approve _ _ => false
  | .increaseAllowance _ _ => false
  | .decreaseAllowance _ _ => false
  | .transferOwnership _ => false
  | .renounceOwnership => false

def Msg.spend (m : Msg) (holder spender : Address) : ℕ :=
  match m.call with
  | .transferFrom from_ _ amount =>
      if from_ = holder ∧ m.sender = spender then amount.toNat else 0
  | .burnFrom account amount =>
      if account = holder ∧ m.sender = spender then amount.toNat else 0
  | _ => 0

-- How an allowance answers to a spending: an unlimited one stays, any other
-- falls by what is spent.
def SpentBy (before after : Uint256) (amount : ℕ) : Prop :=
  (before = maxUint256 → after = maxUint256) ∧
    (before ≠ maxUint256 → after.toNat + amount = before.toNat)

section Allowance

variable {s t : State}

theorem spentBy_zero (allowance : Uint256) : SpentBy allowance allowance 0 :=
  ⟨id, fun _ => rfl⟩

theorem SpentBy.le {before after : Uint256} {amount : ℕ} (h : SpentBy before after amount) :
    after ≤ before := by
  by_cases hmax : before = maxUint256
  · rw [h.1 hmax, hmax]
    exact BitVec.le_refl _
  · have := h.2 hmax
    exact BitVec.le_def.mpr (by omega)

theorem SpentBy.ne_max {before after : Uint256} {amount : ℕ} (h : SpentBy before after amount)
    (hne : before ≠ maxUint256) : after ≠ maxUint256 := by
  intro hmax
  have hsum := h.2 hne
  have hlt : before.toNat ≠ 2 ^ 256 - 1 := by
    rw [← toNat_maxUint256]
    exact fun he => hne (BitVec.eq_of_toNat_eq he)
  have := before.isLt
  rw [hmax, toNat_maxUint256] at hsum
  omega

theorem approved_allowances (owner spender : Address) (value : Uint256) {holder p : Address}
    (h : owner ≠ holder ∨ spender ≠ p) :
    (s.approved owner spender value).allowances holder p = s.allowances holder p := by
  change Function.update s.allowances owner (Function.update (s.allowances owner) spender value)
    holder p = _
  by_cases ho : holder = owner
  · subst ho
    have hs : p ≠ spender := fun he => h.elim (fun hne => hne rfl) (fun hne => hne he.symm)
    rw [Function.update_self, Function.update_of_ne hs]
  · rw [Function.update_of_ne ho]

theorem approved_allowances_self (owner spender : Address) (value : Uint256) :
    (s.approved owner spender value).allowances owner spender = value := by
  change Function.update s.allowances owner (Function.update (s.allowances owner) spender value)
    owner spender = _
  rw [Function.update_self, Function.update_self]

theorem spent_allowances {owner spender : Address} {amount : Uint256}
    (h : Spendable s owner spender amount) (holder p : Address) :
    SpentBy (s.allowances holder p) ((s.spent owner spender amount).allowances holder p)
      (if owner = holder ∧ spender = p then amount.toNat else 0) := by
  by_cases hmax : s.allowances owner spender = maxUint256
  · rw [State.spent, if_pos hmax]
    split_ifs with hp
    · obtain ⟨rfl, rfl⟩ := hp
      exact ⟨id, fun hne => absurd hmax hne⟩
    · exact spentBy_zero _
  · rw [State.spent, if_neg hmax]
    split_ifs with hp
    · obtain ⟨rfl, rfl⟩ := hp
      have hle := (h.resolve_left hmax).1
      refine ⟨fun he => absurd he hmax, fun _ => ?_⟩
      rw [approved_allowances_self, BitVec.toNat_sub_of_le hle]
      have : amount.toNat ≤ (s.allowances owner spender).toNat := hle
      omega
    · rw [approved_allowances owner spender _ (not_and_or.mp hp)]
      exact spentBy_zero _

-- A grant changes by spending only, unless the holder is the one who calls.
theorem step_allowance {m : Msg} (h : step s m = some t) {holder : Address}
    (hm : m.call.moves = true ∨ m.sender ≠ holder) (p : Address) :
    SpentBy (s.allowances holder p) (t.allowances holder p) (m.spend holder p) := by
  obtain ⟨ha, rfl⟩ := step_eq_some_iff.mp h
  rcases m with ⟨sender, call⟩
  have other {spender : Address} {value : Uint256} (hne : sender ≠ holder) :
      SpentBy (s.allowances holder p)
        ((s.approved sender spender value).allowances holder p) 0 := by
    rw [approved_allowances sender spender value (.inl hne)]
    exact spentBy_zero _
  cases call with
  | transferFrom from_ to_ amount => exact spent_allowances ha.1 holder p
  | burnFrom account amount => exact spent_allowances ha.1 holder p
  | approve spender amount => exact other (hm.resolve_left Bool.false_ne_true)
  | increaseAllowance spender addedValue => exact other (hm.resolve_left Bool.false_ne_true)
  | decreaseAllowance spender subtractedValue =>
      exact other (hm.resolve_left Bool.false_ne_true)
  | _ => exact spentBy_zero _

end Allowance

-- Investor 2 holds five tokens, and lets 3 spend four of them.
def granted : State :=
  Transition.replay step (deployed 1)
    [⟨1, .whitelistInvestor 2⟩, ⟨1, .issueTokens 2 5⟩, ⟨2, .approve 3 4⟩]

theorem reachable_granted : Reachable granted := reachable_replay_deployed (by decide) _

end WageFix
