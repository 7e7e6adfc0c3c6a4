import WageFix.STO.Ledger
import Mathlib.Tactic.Ring

namespace WageFix

open Transition

def received (a : Address) : Event → ℕ
  | .Transfer _ to_ value => if to_ = a then value.toNat else 0
  | .Approval _ _ _ => 0
  | .OwnershipTransferred _ _ => 0

def sent (a : Address) : Event → ℕ
  | .Transfer from_ _ value => if from_ = a then value.toNat else 0
  | .Approval _ _ _ => 0
  | .OwnershipTransferred _ _ => 0

def issued (s : State) (m : Msg) : ℕ :=
  match m.call with
  | .issueTokens _ amount => if (step s m).isSome then amount.toNat else 0
  | _ => 0

def redeemed (s : State) (m : Msg) : ℕ :=
  match m.call with
  | .redeemTokens amount => if (step s m).isSome then amount.toNat else 0
  | .burn amount => if (step s m).isSome then amount.toNat else 0
  | .burnFrom _ amount => if (step s m).isSome then amount.toNat else 0
  | _ => 0

def loggedBalance (s : State) (a : Address) : ℤ :=
  ((s.logs.map (received a)).sum : ℤ) - (s.logs.map (sent a)).sum

theorem sum_change_journal {a : Address} (ha : a ≠ 0) (logs : List Event) :
    ((journal logs).map fun entry => entry.change a).sum =
      ((logs.map (received a)).sum : ℤ) - (logs.map (sent a)).sum := by
  induction logs with
  | nil => rfl
  | cons event logs ih =>
      have h0 : (0 : Address) ≠ a := Ne.symm ha
      have hhead : ((event.entry.toList).map fun entry => entry.change a).sum =
          (received a event : ℤ) - sent a event := by
        cases event with
        | Approval owner spender value => rfl
        | OwnershipTransferred previousOwner newOwner => rfl
        | Transfer from_ to_ value =>
            simp only [Event.entry, received, sent]
            by_cases hf : from_ = 0
            · subst hf
              simp [Ledger.Entry.change, Ledger.Entry.inflow, Ledger.Entry.outflow, h0]
            · by_cases ht : to_ = 0
              · subst ht
                simp [Ledger.Entry.change, Ledger.Entry.inflow, Ledger.Entry.outflow, hf, h0]
              · simp [Ledger.Entry.change, Ledger.Entry.inflow, Ledger.Entry.outflow, hf, ht]
      have hjournal : journal (event :: logs) = event.entry.toList ++ journal logs := by
        cases h : event.entry <;> simp [journal, h]
      rw [hjournal, List.map_append, List.sum_append, hhead, ih]
      simp only [List.map_cons, List.sum_cons, Nat.cast_add]
      ring

theorem Sound.balance_eq_logged {s : State} (h : Sound s) {a : Address} (ha : a ≠ 0) :
    ((s.balances a).toNat : ℤ) = loggedBalance s a := by
  obtain ⟨L, hL⟩ := h
  have hb := Ledger.runAll_balance hL.replay a
  rw [hL.represents.balance, hb, sum_change_journal ha]
  simp [Ledger.empty, loggedBalance]

theorem Sound.supply_eq_sum {s : State} (h : Sound s) :
    s.totalSupply.toNat = ∑ a, (s.balances a).toNat := by
  obtain ⟨L, hL⟩ := h
  rw [hL.represents.supply, ← L.conserved]
  exact Finset.sum_congr rfl fun a _ => (hL.represents.balance a).symm

theorem Sound.balance_le_supply {s : State} (h : Sound s) (a : Address) :
    (s.balances a).toNat ≤ s.totalSupply.toNat := by
  obtain ⟨L, hL⟩ := h
  rw [hL.represents.balance, hL.represents.supply]
  exact L.balance_le_supply a

theorem Sound.zero_balance {s : State} (h : Sound s) : s.balances 0 = 0 := by
  obtain ⟨L, hL⟩ := h
  exact BitVec.eq_of_toNat_eq ((hL.represents.balance 0).trans hL.zero)

theorem attempt_supply {s : State} (m : Msg) (h : Sound s) :
    (attempt step s m).totalSupply.toNat + redeemed s m = s.totalSupply.toNat + issued s m := by
  cases hstep : step s m with
  | none =>
      rw [attempt_of_none hstep]
      rcases m with ⟨sender, call⟩
      cases call <;> simp [issued, redeemed, hstep]
  | some t =>
      have hsupply := step_supply h hstep
      have hc : m.created = issued s m ∧ m.destroyed = redeemed s m := by
        rcases m with ⟨sender, call⟩
        cases call <;> simp [Msg.created, Msg.destroyed, Msg.entry, issued, redeemed, hstep,
          Ledger.Entry.created, Ledger.Entry.destroyed]
      rw [attempt_of_some hstep]
      omega

theorem supply_add_redeemed {s : State} (h : Sound s) (ms : List Msg) :
    (replay step s ms).totalSupply.toNat + ((trace step s ms).map fun p => redeemed p.1 p.2).sum =
      s.totalSupply.toNat + ((trace step s ms).map fun p => issued p.1 p.2).sum := by
  have hsound : ∀ s m, Sound s → Sound (attempt step s m) :=
    fun s m hs => attempt_invariant (fun _ _ _ => Sound.step) hs m
  have hone : ∀ s m, Sound s → (attempt step s m).totalSupply.toNat + 0 + redeemed s m =
      s.totalSupply.toNat + 0 + issued s m := by
    intro s m hs
    have hsupply := attempt_supply m hs
    omega
  exact replay_balance (fun s => s.totalSupply.toNat) (fun _ => 0) issued redeemed hsound hone h ms

-- The slots of the token are the replay of its log, and no unchecked
-- operation has wrapped.
theorem state_eq_replay_of_log {deployer : Address} {s₀ : State}
    (hd : WageFixSTO.deploy deployer = .ok s₀) (ms : List Msg) :
    (∀ a, a ≠ 0 → (((replay step s₀ ms).balances a).toNat : ℤ) =
      loggedBalance (replay step s₀ ms) a) ∧
    (replay step s₀ ms).totalSupply.toNat =
      ∑ a, ((replay step s₀ ms).balances a).toNat ∧
    ((replay step s₀ ms).totalSupply.toNat : ℤ) =
      ((trace step s₀ ms).map fun p => issued p.1 p.2).sum -
        ((trace step s₀ ms).map fun p => redeemed p.1 p.2).sum ∧
    (∀ a, ((replay step s₀ ms).balances a).toNat ≤ 2 ^ 256 - 1) ∧
    (replay step s₀ ms).totalSupply.toNat ≤ 2 ^ 256 - 1 ∧
    (replay step s₀ ms).balances 0 = 0 := by
  have hs₀ := sound_deploy hd
  have hs : Sound (replay step s₀ ms) := replay_invariant (fun _ _ _ => Sound.step) hs₀ ms
  refine ⟨fun a ha => hs.balance_eq_logged ha, hs.supply_eq_sum, ?_, ?_, ?_, hs.zero_balance⟩
  · have hzero : s₀.totalSupply.toNat = 0 := by
      obtain ⟨-, rfl⟩ := deploy_eq_ok.mp hd
      rfl
    have hsupply := supply_add_redeemed hs₀ ms
    omega
  · intro a
    have := ((replay step s₀ ms).balances a).isLt
    omega
  · have := (replay step s₀ ms).totalSupply.isLt
    omega

theorem state_eq_replay_of_log_issue :
    (((replay step (deployed 1)
        [⟨1, .whitelistInvestor 2⟩, ⟨1, .issueTokens 2 5⟩, ⟨2, .burn 3⟩]).balances 2).toNat : ℤ) =
      loggedBalance (replay step (deployed 1)
        [⟨1, .whitelistInvestor 2⟩, ⟨1, .issueTokens 2 5⟩, ⟨2, .burn 3⟩]) 2 :=
  (state_eq_replay_of_log (deploy_eq_ok.mpr ⟨by decide, rfl⟩) _).1 2 (by decide)

-- An issue is logged as a transfer from the zero address, which holds nothing.
theorem zero_address_not_logged :
    ¬ ∀ (deployer : Address) (s₀ : State) (ms : List Msg) (a : Address),
      WageFixSTO.deploy deployer = .ok s₀ →
        (((replay step s₀ ms).balances a).toNat : ℤ) = loggedBalance (replay step s₀ ms) a := by
  intro h
  have hbad := h 1 (deployed 1) [⟨1, .whitelistInvestor 2⟩, ⟨1, .issueTokens 2 5⟩] 0
    (deploy_eq_ok.mpr ⟨by decide, rfl⟩)
  revert hbad
  decide +kernel

end WageFix
