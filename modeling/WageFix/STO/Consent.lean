import WageFix.STO.Allowance

namespace WageFix

open Transition

def lowered (h : Address) (s : State) (m : Msg) : ℕ :=
  (s.balances h).toNat - ((attempt step s m).balances h).toNat

def loweredBy (h p : Address) (s : State) (m : Msg) : ℕ :=
  if m.sender = p then lowered h s m else 0

section Step

variable {s t : State} {m : Msg}

-- A call of somebody else takes from a holder at most what it spends of the
-- allowance.
theorem outflow_le_spend {h : Address} (hm : m.sender ≠ h) : m.outflow h ≤ m.spend h m.sender := by
  rcases m with ⟨sender, call⟩
  cases call with
  | transferFrom from_ to_ amount =>
      simp only [Msg.outflow, Msg.entry, Msg.spend, Ledger.Entry.outflow, Option.map_some,
        Option.getD_some, and_true]
      exact le_refl _
  | burnFrom account amount =>
      simp only [Msg.outflow, Msg.entry, Msg.spend, Ledger.Entry.outflow, Option.map_some,
        Option.getD_some, and_true]
      exact le_refl _
  | transfer to_ amount => simp [Msg.outflow, Msg.entry, Ledger.Entry.outflow, hm]
  | redeemTokens amount => simp [Msg.outflow, Msg.entry, Ledger.Entry.outflow, hm]
  | burn amount => simp [Msg.outflow, Msg.entry, Ledger.Entry.outflow, hm]
  | _ => simp [Msg.outflow, Msg.entry, Ledger.Entry.outflow]

theorem attempt_allowance {h : Address} (hm : m.sender ≠ h) (p : Address) :
    SpentBy (s.allowances h p) ((attempt step s m).allowances h p)
      (if (step s m).isSome then m.spend h p else 0) := by
  cases hstep : step s m with
  | none =>
      rw [attempt_of_none hstep]
      exact spentBy_zero _
  | some t =>
      rw [attempt_of_some hstep]
      exact step_allowance hstep (.inr hm) p

theorem loweredBy_add_allowance_le {h p : Address} (hs : Sound s) (hm : m.sender ≠ h)
    (hp : s.allowances h p ≠ maxUint256) :
    loweredBy h p s m + ((attempt step s m).allowances h p).toNat ≤
      (s.allowances h p).toNat := by
  have hfall := (attempt_allowance (s := s) hm p).2 hp
  unfold loweredBy lowered
  split_ifs with hsender
  · subst hsender
    cases hstep : step s m with
    | none =>
        rw [attempt_of_none hstep]
        omega
    | some t =>
        have hb := step_balance hs hstep h
        have ho := outflow_le_spend hm
        simp only [hstep, Option.isSome_some, if_true] at hfall
        rw [attempt_of_some hstep] at hfall ⊢
        omega
  · omega

end Step

theorem redeem_iff {s : State} (hs : Sound s) {h : Address} (hh : h ≠ 0) (x : Uint256) :
    ((step s ⟨h, .redeemTokens x⟩).isSome ↔ x ≤ s.balances h) ∧
    ∀ t, step s ⟨h, .redeemTokens x⟩ = some t →
      (t.balances h).toNat + x.toNat = (s.balances h).toNat ∧
      t.totalSupply.toNat + x.toNat = s.totalSupply.toNat := by
  constructor
  · constructor
    · intro hsome
      obtain ⟨t, ht⟩ := Option.isSome_iff_exists.mp hsome
      exact (step_eq_some_iff.mp ht).1.2
    · intro hle
      exact Option.isSome_of_eq_some (step_of_accepts (m := ⟨h, .redeemTokens x⟩) ⟨hh, hle⟩)
  · intro t ht
    have hb := step_balance hs ht h
    have hsupply := step_supply hs ht
    simp only [Msg.outflow, Msg.inflow, Msg.created, Msg.destroyed, Msg.entry,
      Ledger.Entry.outflow, Ledger.Entry.inflow, Ledger.Entry.created, Ledger.Entry.destroyed,
      Option.map_some, Option.getD_some, if_true] at hb hsupply
    exact ⟨hb, hsupply⟩

-- Nobody else takes more from a holder than the holder has granted, nobody
-- else raises a grant, and what is left can always be redeemed.
theorem holder_consent {s : State} (hr : Reachable s) {h : Address} (hh : h ≠ 0)
    {ms : List Msg} (hms : ∀ m ∈ ms, m.sender ≠ h) :
    (∀ p, s.allowances h p ≠ maxUint256 →
      ((trace step s ms).map fun q => loweredBy h p q.1 q.2).sum +
        ((replay step s ms).allowances h p).toNat ≤ (s.allowances h p).toNat) ∧
    (∀ q ∈ trace step s ms, ∀ p, (attempt step q.1 q.2).allowances h p ≤ q.1.allowances h p) ∧
    ∀ x, ((step (replay step s ms) ⟨h, .redeemTokens x⟩).isSome ↔
        x ≤ (replay step s ms).balances h) ∧
      ∀ t, step (replay step s ms) ⟨h, .redeemTokens x⟩ = some t →
        (t.balances h).toNat + x.toNat = ((replay step s ms).balances h).toNat ∧
        t.totalSupply.toNat + x.toNat = (replay step s ms).totalSupply.toNat := by
  have hs := hr.sound
  refine ⟨?_, ?_, ?_⟩
  · intro p hp
    exact sum_add_le_budget (P := fun m => m.sender ≠ h)
      (I := fun s => Sound s ∧ s.allowances h p ≠ maxUint256)
      (fun s => (s.allowances h p).toNat) (loweredBy h p)
      (fun s m hm hi => ⟨attempt_invariant (fun _ _ _ => Sound.step) hi.1 m,
        (attempt_allowance hm p).ne_max hi.2⟩)
      (fun s m hm hi => loweredBy_add_allowance_le hi.1 hm hi.2) ⟨hs, hp⟩ hms
  · intro q hq p
    exact (attempt_allowance (hms q.2 (mem_of_mem_trace hq)) p).le
  · intro x
    exact redeem_iff (replay_invariant (fun _ _ _ => Sound.step) hs ms) hh x

-- Spender 3 burns some of what it was granted, investor 2 is taken off the
-- whitelist, nobody owns the token any more, and the rest is still redeemed.
theorem holder_consent_redeem :
    ((trace step granted
        [⟨3, .burnFrom 2 3⟩, ⟨1, .removeInvestor 2⟩, ⟨1, .renounceOwnership⟩]).map
          fun q => loweredBy 2 3 q.1 q.2).sum ≤ 4 ∧
    (step (replay step granted
        [⟨3, .burnFrom 2 3⟩, ⟨1, .removeInvestor 2⟩, ⟨1, .renounceOwnership⟩])
          ⟨2, .redeemTokens 2⟩).isSome := by
  have hothers : ∀ m ∈ ([⟨3, .burnFrom 2 3⟩, ⟨1, .removeInvestor 2⟩, ⟨1, .renounceOwnership⟩] :
      List Msg), m.sender ≠ 2 := by
    decide
  have hconsent := holder_consent reachable_granted (by decide) hothers
  constructor
  · have hgrant : (granted.allowances 2 3).toNat = 4 := by decide +kernel
    have hsum := hconsent.1 3 (by decide +kernel)
    omega
  · exact (hconsent.2.2 2).1.mpr (by decide +kernel)

end WageFix
