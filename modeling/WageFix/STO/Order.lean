import WageFix.STO.Allowance

namespace WageFix

open Transition

section Order

variable {s t t' : State} {ms ms' : List Msg}

theorem step_owner_of_moves {m : Msg} (hm : m.call.moves = true) (h : step s m = some t) :
    t.owner = s.owner ∧ t.isWhitelisted = s.isWhitelisted := by
  obtain ⟨-, rfl⟩ := step_eq_some_iff.mp h
  rcases m with ⟨sender, call⟩
  cases call with
  | issueTokens to_ amount => exact ⟨rfl, rfl⟩
  | transfer to_ amount => exact ⟨rfl, rfl⟩
  | redeemTokens amount => exact ⟨rfl, rfl⟩
  | burn amount => exact ⟨rfl, rfl⟩
  | transferFrom from_ to_ amount => exact ⟨spent_owner .., spent_isWhitelisted ..⟩
  | burnFrom account amount => exact ⟨spent_owner .., spent_isWhitelisted ..⟩
  | _ => cases hm

theorem runAll_balance_perm (hs : Sound s) (hperm : ms.Perm ms')
    (h : runAll step s ms = some t) (h' : runAll step s ms' = some t') :
    t.balances = t'.balances := by
  funext a
  have hcast := runAll_perm_eq (P := fun _ => True) (fun s => ((s.balances a).toNat : ℤ))
    (fun m => (m.inflow a : ℤ) - m.outflow a) (fun _ _ _ _ hs hstep => hs.step hstep)
    (fun s m t _ hs hstep => by have := step_balance hs hstep a; omega)
    hs (fun _ _ => trivial) hperm h h'
  exact BitVec.eq_of_toNat_eq (Int.ofNat_inj.mp hcast)

theorem runAll_supply_perm (hs : Sound s) (hperm : ms.Perm ms')
    (h : runAll step s ms = some t) (h' : runAll step s ms' = some t') :
    t.totalSupply = t'.totalSupply := by
  have hcast := runAll_perm_eq (P := fun _ => True) (fun s => (s.totalSupply.toNat : ℤ))
    (fun m => (m.created : ℤ) - m.destroyed) (fun _ _ _ _ hs hstep => hs.step hstep)
    (fun s m t _ hs hstep => by have := step_supply hs hstep; omega)
    hs (fun _ _ => trivial) hperm h h'
  exact BitVec.eq_of_toNat_eq (Int.ofNat_inj.mp hcast)

-- An unlimited allowance is left alone in both orders. A limited one falls by
-- what is spent of it, and stays limited.
theorem runAll_allowance_perm (hperm : ms.Perm ms') (hms : ∀ m ∈ ms, m.call.moves = true)
    (h : runAll step s ms = some t) (h' : runAll step s ms' = some t') :
    t.allowances = t'.allowances := by
  have hms' : ∀ m ∈ ms', m.call.moves = true := fun m hm => hms m (hperm.mem_iff.mpr hm)
  funext holder p
  by_cases hmax : s.allowances holder p = maxUint256
  · have keep : ∀ s m t, m.call.moves = true → s.allowances holder p = maxUint256 →
        step s m = some t → t.allowances holder p = maxUint256 :=
      fun s m t hm hs hstep => (step_allowance hstep (.inl hm) p).1 hs
    rw [runAll_invariant_of_mem keep hmax hms h, runAll_invariant_of_mem keep hmax hms' h']
  · have hcast := runAll_perm_eq (P := fun m : Msg => m.call.moves = true)
      (I := fun s => s.allowances holder p ≠ maxUint256)
      (fun s => ((s.allowances holder p).toNat : ℤ)) (fun m => -(m.spend holder p : ℤ))
      (fun s m t hm hs hstep => (step_allowance (m := m) hstep (.inl hm) p).ne_max hs)
      (fun s m t hm hs hstep => by
        have := (step_allowance (m := m) hstep (.inl hm) p).2 hs
        omega)
      hmax hms hperm h h'
    exact BitVec.eq_of_toNat_eq (Int.ofNat_inj.mp hcast)

theorem runAll_owner_of_moves (hms : ∀ m ∈ ms, m.call.moves = true)
    (h : runAll step s ms = some t) :
    t.owner = s.owner ∧ t.isWhitelisted = s.isWhitelisted :=
  runAll_invariant_of_mem (I := fun t => t.owner = s.owner ∧ t.isWhitelisted = s.isWhitelisted)
    (fun _ _ _ hm hi hstep =>
      have hk := step_owner_of_moves hm hstep
      ⟨hk.1.trans hi.1, hk.2.trans hi.2⟩)
    ⟨rfl, rfl⟩ hms h

end Order

section Batch

def issueAll (sender : Address) (wages : List (Address × Uint256)) : List Msg :=
  wages.map fun wage => ⟨sender, .issueTokens wage.1 wage.2⟩

def wageSum (wages : List (Address × Uint256)) : ℕ := (wages.map fun wage => wage.2.toNat).sum

theorem issueAll_succeeds {s : State} {wages : List (Address × Uint256)}
    (hwages : ∀ wage ∈ wages, wage.1 ≠ 0 ∧ s.isWhitelisted wage.1 = true)
    (hsum : s.totalSupply.toNat + wageSum wages ≤ 2 ^ 256 - 1) :
    ∃ t, runAll step s (issueAll s.owner wages) = some t := by
  induction wages generalizing s with
  | nil => exact ⟨s, rfl⟩
  | cons wage wages ih =>
      obtain ⟨hne, hw⟩ := hwages wage List.mem_cons_self
      simp only [wageSum, List.map_cons, List.sum_cons] at hsum
      have hmint : Mintable s wage.1 wage.2 := ⟨hne, by omega⟩
      have hstep := step_of_accepts (s := s) (m := ⟨s.owner, .issueTokens wage.1 wage.2⟩)
        ⟨rfl, hw, hmint⟩
      have hsupply : (s.minted wage.1 wage.2).totalSupply.toNat =
          s.totalSupply.toNat + wage.2.toNat := BitVec.toNat_add_of_lt hmint.2
      obtain ⟨t, ht⟩ := ih (s := s.minted wage.1 wage.2)
        (fun w hm => hwages w (List.mem_cons_of_mem _ hm)) (by rw [hsupply]; unfold wageSum; omega)
      exact ⟨t, runAll_cons_eq_some.mpr ⟨_, hstep, ht⟩⟩

end Batch

-- Two orders of the same calls that both go through end in the same slots,
-- and every order of a batch of wages goes through.
theorem order_independence {s : State} (hs : Reachable s) :
    (∀ ms ms' : List Msg, ms.Perm ms' → (∀ m ∈ ms, m.call.moves = true) →
      ∀ t t', runAll step s ms = some t → runAll step s ms' = some t' →
        t.balances = t'.balances ∧ t.allowances = t'.allowances ∧
        t.totalSupply = t'.totalSupply ∧ t.isWhitelisted = t'.isWhitelisted ∧
        t.owner = t'.owner) ∧
    (∀ wages wages' : List (Address × Uint256), wages.Perm wages' →
      (∀ wage ∈ wages, wage.1 ≠ 0 ∧ s.isWhitelisted wage.1 = true) →
      s.totalSupply.toNat + wageSum wages ≤ 2 ^ 256 - 1 →
      ∃ t, runAll step s (issueAll s.owner wages') = some t) := by
  constructor
  · intro ms ms' hperm hms t t' h h'
    have ho := runAll_owner_of_moves hms h
    have ho' := runAll_owner_of_moves (fun m hm => hms m (hperm.mem_iff.mpr hm)) h'
    exact ⟨runAll_balance_perm hs.sound hperm h h', runAll_allowance_perm hperm hms h h',
      runAll_supply_perm hs.sound hperm h h', ho.2.trans ho'.2.symm, ho.1.trans ho'.1.symm⟩
  · intro wages wages' hperm hwages hsum
    apply issueAll_succeeds
    · exact fun wage hm => hwages wage (hperm.mem_iff.mpr hm)
    · rwa [wageSum, ← (hperm.map _).sum_eq]

-- The redemption needs the tokens that are issued in between, in either order.
theorem order_independence_granted :
    (∃ t t', runAll step granted
        [⟨1, .issueTokens 2 7⟩, ⟨3, .transferFrom 2 2 3⟩, ⟨2, .redeemTokens 6⟩] = some t ∧
      runAll step granted
        [⟨3, .transferFrom 2 2 3⟩, ⟨1, .issueTokens 2 7⟩, ⟨2, .redeemTokens 6⟩] = some t' ∧
      t.balances = t'.balances ∧ t.allowances = t'.allowances) ∧
    ∃ t, runAll step granted (issueAll 1 [(2, 7), (2, 5)]) = some t := by
  have hreach := reachable_granted
  constructor
  · obtain ⟨t, ht⟩ := Option.isSome_iff_exists.mp (show (runAll step granted
      [⟨1, .issueTokens 2 7⟩, ⟨3, .transferFrom 2 2 3⟩, ⟨2, .redeemTokens 6⟩]).isSome by
        decide +kernel)
    obtain ⟨t', ht'⟩ := Option.isSome_iff_exists.mp (show (runAll step granted
      [⟨3, .transferFrom 2 2 3⟩, ⟨1, .issueTokens 2 7⟩, ⟨2, .redeemTokens 6⟩]).isSome by
        decide +kernel)
    have hsame := (order_independence hreach).1 _ _ (List.Perm.swap _ _ _) (by decide) t t' ht ht'
    exact ⟨t, t', ht, ht', hsame.1, hsame.2.1⟩
  · have hwages : ∀ wage ∈ ([(2, 5), (2, 7)] : List (Address × Uint256)), wage.1 ≠ 0 ∧
        granted.isWhitelisted wage.1 = true := by
      intro wage hwage
      have hinvestor : wage.1 = 2 := by
        rcases List.mem_pair.mp hwage with rfl | rfl <;> rfl
      rw [hinvestor]
      decide +kernel
    exact (order_independence hreach).2 [(2, 5), (2, 7)] [(2, 7), (2, 5)] (List.Perm.swap _ _ _)
      hwages (by decide +kernel)

end WageFix
