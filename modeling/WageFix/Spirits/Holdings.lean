import WageFix.Spirits.Serial
import WageFix.Registry

namespace WageFix.Spirits

open Transition CallTree Registry

instance finite_uint256 : Finite Uint256 :=
  Finite.of_injective BitVec.toFin fun _ _ => BitVec.toFin_inj.mp

namespace ERC721

def balanceOf (owner : Address) (s : State) : Outcome Uint256 := do
  require (owner ≠ 0) "ERC721: address zero is not a valid owner"
  return s.balances owner

end ERC721

-- The counters are kept by unchecked arithmetic, so for a while they follow
-- the owners only up to multiples of 2^256.
structure Counted (s : State) : Prop where
  balance : ∀ a, a ≠ 0 → s.balances a = BitVec.ofNat 256 (held s.owners a)
  zero : s.balances 0 = 0

section Counted

variable {s t : State} {m : Msg}

theorem counted_deploy (deployer : Address) : Counted (SpiritsToken.deploy deployer) where
  balance a ha := by
    have hnone : {i : Uint256 | (SpiritsToken.deploy deployer).owners i = a} = ∅ := by
      ext i
      simp [SpiritsToken.deploy, Ne.symm ha]
    rw [held, hnone, Set.ncard_empty]
    rfl
  zero := rfl

theorem ofNat_held_credit {owners owners' : Uint256 → Address} {a : Address}
    (h : held owners' a = held owners a + 1) :
    BitVec.ofNat 256 (held owners' a) = BitVec.ofNat 256 (held owners a) + 1 := by
  rw [h, BitVec.ofNat_add]
  rfl

theorem ofNat_held_debit {owners owners' : Uint256 → Address} {a : Address}
    (h : held owners' a + 1 = held owners a) :
    BitVec.ofNat 256 (held owners' a) = BitVec.ofNat 256 (held owners a) - 1 := by
  rw [← h, BitVec.ofNat_add]
  exact (BitVec.add_sub_cancel _ _).symm

theorem Counted.mint (h : Counted s) {to_ : Address} {tokenId : Uint256} (hto : to_ ≠ 0)
    (hfree : s.owners tokenId = 0) :
    Counted { s with
      balances := Function.update s.balances to_ (s.balances to_ + 1)
      owners := Function.update s.owners tokenId to_ } where
  balance a ha := by
    have hheld := held_update s.owners tokenId to_ a
    rw [hfree, if_neg (Ne.symm ha)] at hheld
    show Function.update s.balances to_ (s.balances to_ + 1) a = _
    by_cases hta : to_ = a
    · subst hta
      rw [if_pos rfl] at hheld
      rw [Function.update_self, h.balance _ ha, ← ofNat_held_credit hheld]
    · rw [if_neg hta] at hheld
      rw [Function.update_of_ne (Ne.symm hta), h.balance a ha]
      exact congrArg _ hheld.symm
  zero := by
    show Function.update s.balances to_ (s.balances to_ + 1) 0 = 0
    rw [Function.update_of_ne (Ne.symm hto), h.zero]

-- A token that is sent to its own owner is taken off and put back.
theorem Counted.moved (h : Counted s) {from_ to_ : Address} {tokenId : Uint256}
    (hfrom : s.owners tokenId = from_) (hne : from_ ≠ 0) (hto : to_ ≠ 0) :
    Counted (s.moved from_ to_ tokenId) where
  balance a ha := by
    have hheld := held_update s.owners tokenId to_ a
    rw [hfrom] at hheld
    show Function.update (Function.update s.balances from_ (s.balances from_ - 1)) to_
      (Function.update s.balances from_ (s.balances from_ - 1) to_ + 1) a =
        BitVec.ofNat 256 (held (Function.update s.owners tokenId to_) a)
    by_cases hta : to_ = a
    · subst hta
      rw [Function.update_self, if_pos rfl] at *
      by_cases hft : from_ = to_
      · subst hft
        rw [if_pos rfl] at hheld
        rw [Function.update_self, BitVec.sub_add_cancel, h.balance _ ha, Nat.add_right_cancel hheld]
      · rw [if_neg hft] at hheld
        rw [Function.update_of_ne (Ne.symm hft), h.balance _ ha, ← ofNat_held_credit hheld]
    · rw [if_neg hta] at hheld
      rw [Function.update_of_ne (Ne.symm hta)]
      by_cases hfa : from_ = a
      · subst hfa
        rw [if_pos rfl] at hheld
        rw [Function.update_self, h.balance _ ha, ← ofNat_held_debit hheld]
      · rw [if_neg hfa] at hheld
        rw [Function.update_of_ne (Ne.symm hfa), h.balance a ha]
        exact congrArg _ hheld.symm
  zero := by
    show Function.update (Function.update s.balances from_ (s.balances from_ - 1)) to_
      (Function.update s.balances from_ (s.balances from_ - 1) to_ + 1) 0 = 0
    rw [Function.update_of_ne (Ne.symm hto), Function.update_of_ne (Ne.symm hne), h.zero]

theorem Counted.entered (h : Counted s) (he : Enters s m) : Counted (entered s m) := by
  rcases m with ⟨sender, call⟩
  cases call with
  | mint to_ uri => exact h.mint he.2.1 he.2.2
  | transferFrom from_ to_ tokenId => exact h.moved he.2.1 (he.2.1 ▸ he.1.1) he.2.2
  | safeTransferFrom from_ to_ tokenId => exact h.moved he.2.1 (he.2.1 ▸ he.1.1) he.2.2
  | approve to_ tokenId => exact ⟨h.balance, h.zero⟩
  | setApprovalForAll operator approved => exact ⟨h.balance, h.zero⟩

theorem Counted.atomic (h : Counted s) (ht : token.atomic s m = some t) : Counted t := by
  obtain ⟨he, hafter⟩ := atomic_eq_some.mp ht
  have hentered := h.entered he
  rcases m with ⟨sender, call⟩
  cases call with
  | mint to_ uri =>
      obtain ⟨-, rfl⟩ := afterCallback_mint_eq_ok.mp hafter
      exact ⟨hentered.balance, hentered.zero⟩
  | _ =>
      obtain rfl := (afterCallback_of_not_mint (by simp)).mp hafter
      exact hentered

-- Below the number of ids there is no multiple of 2^256 to hide.
theorem ncard_existing {deployer : Address} {uris : List String} (h : Minted deployer uris s) :
    {tokenId | s.owners tokenId ≠ 0}.ncard = s.nextTokenId.toNat := by
  have hlt := s.nextTokenId.isLt
  have hcard : ((Finset.range s.nextTokenId.toNat : Finset ℕ) : Set ℕ).ncard =
      s.nextTokenId.toNat := by
    rw [Set.ncard_coe_finset, Finset.card_range]
  rw [← hcard]
  refine Set.ncard_congr (fun tokenId _ => tokenId.toNat) ?_ ?_ ?_
  · intro tokenId hid
    have hid := (h.exists_iff tokenId).mp hid
    rw [← h.count] at hid
    exact Finset.mem_coe.mpr (Finset.mem_range.mpr hid)
  · intro i j _ _ hij
    exact BitVec.eq_of_toNat_eq hij
  · intro k hk
    have hk : k < s.nextTokenId.toNat := Finset.mem_range.mp (Finset.mem_coe.mp hk)
    have hnat : (BitVec.ofNat 256 k).toNat = k := by
      rw [BitVec.toNat_ofNat]
      exact Nat.mod_eq_of_lt (by omega)
    refine ⟨BitVec.ofNat 256 k, ?_, hnat⟩
    apply (h.exists_iff _).mpr
    rw [hnat, ← h.count]
    exact hk

theorem Counted.toNat_balance {deployer : Address} {uris : List String} (h : Counted s)
    (hm : Minted deployer uris s) {a : Address} (ha : a ≠ 0) :
    (s.balances a).toNat = held s.owners a := by
  have hle := held_le s.owners ha
  rw [ncard_existing hm] at hle
  have hlt := s.nextTokenId.isLt
  rw [h.balance a ha, BitVec.toNat_ofNat]
  exact Nat.mod_eq_of_lt (by omega)

theorem Counted.sum_balances {deployer : Address} {uris : List String} (h : Counted s)
    (hm : Minted deployer uris s) :
    ∑ a, (s.balances a).toNat = s.nextTokenId.toNat := by
  have hzero : (s.balances 0).toNat = 0 := by rw [h.zero]; rfl
  rw [← Finset.sum_erase_add _ _ (Finset.mem_univ 0), hzero, Nat.add_zero, ← ncard_existing hm,
    ← sum_held]
  apply Finset.sum_congr rfl
  intro a ha
  exact h.toNat_balance hm (Finset.ne_of_mem_erase ha)

end Counted

-- Whatever the receivers do, balanceOf is the number of tokens that an address
-- owns, and the balances add up to the number of tokens there are.
theorem balanceOf_eq_held (deployer : Address) (calls : Calls Msg) :
    let final := run (SpiritsToken.deploy deployer) calls
    (∀ a, a ≠ 0 → ∃ n, ERC721.balanceOf a final = .ok n ∧
      n.toNat = {tokenId | final.owners tokenId = a}.ncard) ∧
    ∑ a, (final.balances a).toNat = final.nextTokenId.toNat := by
  intro final
  have hrun := exec_serial serial (SpiritsToken.deploy deployer) calls
  rw [← run_eq_exec] at hrun
  have hminted := minted_runAll minted_deploy hrun
  have hcounted : Counted final :=
    runAll_invariant_of_mem (P := fun _ => True) (fun _ _ _ _ h ht => h.atomic ht)
      (counted_deploy deployer) (fun _ _ => trivial) hrun
  constructor
  · intro a ha
    refine ⟨final.balances a, ?_, hcounted.toNat_balance hminted ha⟩
    simp [ERC721.balanceOf, require, ha]
  · exact hcounted.sum_balances hminted

end WageFix.Spirits
