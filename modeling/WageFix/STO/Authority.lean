import WageFix.STO.Ledger

namespace WageFix

open Transition

section Step

variable {s t : State} {m : Msg}

-- The owner slot has two writers, both behind `onlyOwner`.
theorem owner_of_change (h : step s m = some t) (hne : t.owner ≠ s.owner) :
    m.sender = s.owner := by
  obtain ⟨ha, rfl⟩ := step_eq_some_iff.mp h
  rcases m with ⟨sender, call⟩
  cases call with
  | transferOwnership newOwner => exact ha.1.symm
  | renounceOwnership => exact ha.symm
  | transferFrom from_ to_ amount => exact absurd (spent_owner ..) hne
  | burnFrom account amount => exact absurd (spent_owner ..) hne
  | _ => exact absurd rfl hne

theorem whitelist_of_change (h : step s m = some t) {a : Address}
    (hne : t.isWhitelisted a ≠ s.isWhitelisted a) :
    m.sender = s.owner ∧ (m.call = .whitelistInvestor a ∨ m.call = .removeInvestor a) := by
  obtain ⟨ha, rfl⟩ := step_eq_some_iff.mp h
  rcases m with ⟨sender, call⟩
  have named {investor : Address} {flag : Bool}
      (hne : (s.setWhitelisted investor flag).isWhitelisted a ≠ s.isWhitelisted a) :
      investor = a := by
    by_contra hia
    exact hne (Function.update_of_ne (Ne.symm hia) _ _)
  cases call with
  | whitelistInvestor investor =>
      exact ⟨ha.symm, .inl (congrArg Call.whitelistInvestor (named hne))⟩
  | removeInvestor investor =>
      exact ⟨ha.symm, .inr (congrArg Call.removeInvestor (named hne))⟩
  | transferFrom from_ to_ amount =>
      exact absurd (congrFun (spent_isWhitelisted s from_ sender amount) a) hne
  | burnFrom account amount =>
      exact absurd (congrFun (spent_isWhitelisted s account sender amount) a) hne
  | _ => exact absurd rfl hne

theorem owner_of_issue (hs : Sound s) (h : step s m = some t)
    (hlt : s.totalSupply < t.totalSupply) : m.sender = s.owner := by
  have hsupply := step_supply hs h
  have hlt' : s.totalSupply.toNat < t.totalSupply.toNat := hlt
  obtain ⟨ha, -⟩ := step_eq_some_iff.mp h
  have hcreated : 0 < m.created := by omega
  rcases m with ⟨sender, call⟩
  cases call with
  | issueTokens to_ amount => exact ha.1.symm
  | _ => simp [Msg.created, Msg.entry, Ledger.Entry.created] at hcreated

end Step

def Issuing (s t : State) : Prop :=
  (∃ a, t.isWhitelisted a ≠ s.isWhitelisted a) ∨ s.totalSupply < t.totalSupply ∨
    t.owner ≠ s.owner

theorem issuer_of_issuing {s : State} {m : Msg} (hs : Sound s)
    (hi : Issuing s (attempt step s m)) :
    step s m = some (attempt step s m) ∧ m.sender = s.owner := by
  cases h : step s m with
  | none =>
      rw [attempt_of_none h] at hi
      rcases hi with ⟨a, ha⟩ | hlt | hne
      · exact absurd rfl ha
      · exact absurd hlt (BitVec.lt_irrefl _)
      · exact absurd rfl hne
  | some t =>
      rw [attempt_of_some h] at hi ⊢
      refine ⟨rfl, ?_⟩
      rcases hi with ⟨a, ha⟩ | hlt | hne
      · exact (whitelist_of_change h ha).1
      · exact owner_of_issue hs h hlt
      · exact owner_of_change h hne

-- What holds of every continuation once nobody owns the token.
structure Renounced (s t : State) : Prop where
  sound : Sound t
  owner : t.owner = 0
  whitelist : t.isWhitelisted = s.isWhitelisted
  supply : t.totalSupply ≤ s.totalSupply

theorem Renounced.step {s t u : State} {m : Msg} (h : Renounced s t) (hm : m.sender ≠ 0)
    (hstep : step t m = some u) : Renounced s u := by
  have hno : ¬ Issuing t (attempt WageFix.step t m) := by
    intro hi
    exact hm ((issuer_of_issuing h.sound hi).2.trans h.owner)
  rw [attempt_of_some hstep] at hno
  unfold Issuing at hno
  push Not at hno
  obtain ⟨hwhitelist, hsupply, howner⟩ := hno
  exact ⟨h.sound.step hstep, howner.trans h.owner, (funext hwhitelist).trans h.whitelist,
    BitVec.le_trans (BitVec.not_lt.mp hsupply) h.supply⟩

theorem replay_renounced {s : State} (hs : Sound s) (ho : s.owner = 0) {ms : List Msg}
    (hms : ∀ m ∈ ms, m.sender ≠ 0) : Renounced s (replay step s ms) :=
  replay_invariant_of_mem (fun _ _ _ hm h hstep => h.step hm hstep)
    ⟨hs, ho, rfl, BitVec.le_refl _⟩ hms

-- Whoever issues, whitelists or hands the token on is its owner at that
-- moment, and after a renunciation nobody does.
theorem issuer_authority {deployer : Address} {s₀ : State}
    (hd : WageFixSTO.deploy deployer = .ok s₀) (ms : List Msg) :
    (∀ p ∈ trace step s₀ ms,
      (Issuing p.1 (attempt step p.1 p.2) →
        step p.1 p.2 = some (attempt step p.1 p.2) ∧ p.2.sender = p.1.owner) ∧
      ∀ a, (attempt step p.1 p.2).isWhitelisted a ≠ p.1.isWhitelisted a →
        p.2.call = .whitelistInvestor a ∨ p.2.call = .removeInvestor a) ∧
    ((replay step s₀ ms).owner = 0 → ∀ ms' : List Msg, (∀ m ∈ ms', m.sender ≠ 0) →
      (replay step (replay step s₀ ms) ms').owner = 0 ∧
      (replay step (replay step s₀ ms) ms').isWhitelisted =
        (replay step s₀ ms).isWhitelisted ∧
      (replay step (replay step s₀ ms) ms').totalSupply ≤ (replay step s₀ ms).totalSupply) := by
  have hs₀ := sound_deploy hd
  constructor
  · intro p hp
    have hs : Sound p.1 := trace_invariant (fun _ _ _ => Sound.step) hs₀ hp
    refine ⟨issuer_of_issuing hs, fun a ha => ?_⟩
    have hstep := (issuer_of_issuing hs (.inl ⟨a, ha⟩)).1
    exact (whitelist_of_change hstep ha).2
  · intro ho ms' hms'
    have hs : Sound (replay step s₀ ms) := replay_invariant (fun _ _ _ => Sound.step) hs₀ ms
    have hr := replay_renounced hs ho hms'
    exact ⟨hr.owner, hr.whitelist, hr.supply⟩

theorem issuer_authority_renounced :
    (replay step (replay step (deployed 1) [⟨1, .renounceOwnership⟩])
      [⟨1, .whitelistInvestor 2⟩]).owner = 0 :=
  ((issuer_authority (deploy_eq_ok.mpr ⟨by decide, rfl⟩) [⟨1, .renounceOwnership⟩]).2
    (by decide +kernel) [⟨1, .whitelistInvestor 2⟩] (by decide)).1

end WageFix
