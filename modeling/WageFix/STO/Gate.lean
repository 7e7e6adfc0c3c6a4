import WageFix.STO.Ledger

namespace WageFix

open Transition

-- Every address that a call credits is whitelisted when the call is made.
def Gated (s : State) (m : Msg) : Prop :=
  ∀ t a, step s m = some t → s.balances a < t.balances a → s.isWhitelisted a = true

-- `transferFrom` is inherited and reaches `_transfer` without the check that
-- `transfer` makes. It leaks when the spender can move a positive amount to
-- another address that is not whitelisted.
def Leaks (s : State) (m : Msg) : Prop :=
  match m.call with
  | .transferFrom from_ to_ amount =>
      s.isWhitelisted to_ = false ∧ from_ ≠ to_ ∧ amount ≠ 0 ∧
        Spendable s from_ m.sender amount ∧ Movable s from_ to_ amount
  | _ => False

section Gate

variable {s t : State}

theorem flow_of_growth {m : Msg} (hs : Sound s) (h : step s m = some t) {a : Address}
    (hlt : s.balances a < t.balances a) : m.outflow a < m.inflow a := by
  have hb := step_balance hs h a
  have hlt' : (s.balances a).toNat < (t.balances a).toNat := hlt
  omega

theorem gated_of_not_leaks {m : Msg} (hs : Sound s) (hleak : ¬ Leaks s m) : Gated s m := by
  intro t a h hlt
  have hflow := flow_of_growth hs h hlt
  have hpayee : ∀ {to_ : Address} {amount out : ℕ}, out < (if to_ = a then amount else 0) →
      to_ = a := by
    intro to_ amount out hout
    by_contra hne
    rw [if_neg hne] at hout
    omega
  obtain ⟨ha, -⟩ := step_eq_some_iff.mp h
  rcases m with ⟨sender, call⟩
  cases call with
  | issueTokens to_ amount =>
      rw [← hpayee hflow]
      exact ha.2.1
  | transfer to_ amount =>
      rw [← hpayee hflow]
      exact ha.1
  | transferFrom from_ to_ amount =>
      obtain rfl := hpayee hflow
      have hfrom : from_ ≠ to_ := by
        intro he
        simp [Msg.inflow, Msg.outflow, Msg.entry, Ledger.Entry.inflow, Ledger.Entry.outflow, he]
          at hflow
      have hamount : amount ≠ 0 := by
        rintro rfl
        simp [Msg.inflow, Msg.entry, Ledger.Entry.inflow] at hflow
      by_contra hw
      exact hleak ⟨Bool.eq_false_iff.mpr hw, hfrom, hamount, ha.1, ha.2⟩
  | _ => simp [Msg.inflow, Msg.entry, Ledger.Entry.inflow] at hflow

theorem not_gated_of_leaks {m : Msg} (hs : Sound s) (hleak : Leaks s m) : ¬ Gated s m := by
  rcases m with ⟨sender, call⟩
  cases call with
  | transferFrom from_ to_ amount =>
      obtain ⟨hw, hne, hamount, hspend, hmove⟩ := hleak
      intro hgate
      have h := step_of_accepts (s := s) (m := ⟨sender, .transferFrom from_ to_ amount⟩)
        ⟨hspend, hmove⟩
      have hb := step_balance hs h to_
      have hpos : amount.toNat ≠ 0 := fun hz => hamount (BitVec.eq_of_toNat_eq hz)
      simp only [Msg.inflow, Msg.outflow, Msg.entry, Ledger.Entry.inflow, Ledger.Entry.outflow,
        Option.map_some, Option.getD_some, hne, if_false, if_true] at hb
      have hyes := hgate _ to_ h (BitVec.lt_def.mpr (by omega))
      rw [hw] at hyes
      cases hyes
  | _ => exact hleak.elim

-- In every run from deployment the steps that keep the gate are those that do
-- not leak.
theorem gated_iff_not_leaks {deployer : Address} {s₀ : State}
    (hd : WageFixSTO.deploy deployer = .ok s₀) (ms : List Msg) :
    ∀ p ∈ trace step s₀ ms, Gated p.1 p.2 ↔ ¬ Leaks p.1 p.2 := by
  intro p hp
  have hs : Sound p.1 := trace_invariant (fun _ _ _ => Sound.step) (sound_deploy hd) hp
  constructor
  · intro hgate hleak
    exact not_gated_of_leaks hs hleak hgate
  · exact gated_of_not_leaks hs

theorem gated_iff_not_leaks_issue :
    Gated (replay step (deployed 1) [⟨1, .whitelistInvestor 2⟩]) ⟨1, .issueTokens 2 5⟩ := by
  have hmem : (replay step (deployed 1) [⟨1, .whitelistInvestor 2⟩], ⟨1, .issueTokens 2 5⟩) ∈
      trace step (deployed 1) [⟨1, .whitelistInvestor 2⟩, ⟨1, .issueTokens 2 5⟩] := by
    simp only [trace_cons, replay_cons, replay_nil, List.mem_cons, true_or, or_true]
  have hno : ¬ Leaks (replay step (deployed 1) [⟨1, .whitelistInvestor 2⟩])
      ⟨1, .issueTokens 2 5⟩ := False.elim
  exact (gated_iff_not_leaks (deploy_eq_ok.mpr ⟨by decide, rfl⟩) _ _ hmem).mpr hno

theorem transferFrom_leaks : ¬ ∀ s m, Reachable s → Gated s m := by
  intro h
  have hgate := h (replay step (deployed 1) [⟨1, .whitelistInvestor 2⟩, ⟨1, .issueTokens 2 5⟩,
    ⟨2, .approve 3 5⟩]) ⟨3, .transferFrom 2 4 5⟩ (reachable_replay_deployed (by decide) _)
  have hbad := hgate _ 4 (step_of_accepts (by
    refine ⟨.inr ⟨?_, ?_, ?_⟩, ?_, ?_, ?_⟩ <;> decide +kernel)) (by decide +kernel)
  revert hbad
  decide +kernel

end Gate

end WageFix
