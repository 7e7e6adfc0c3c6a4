import WageFix.STO.Effect
import WageFix.Ledger

namespace WageFix

open Transition

-- The zero address stands for issuance as a sender and for redemption as a
-- receiver.
def Event.entry : Event → Option (Ledger.Entry Address)
  | .Transfer from_ to_ value =>
      if from_ = 0 then some (.credit to_ value.toNat)
      else if to_ = 0 then some (.debit from_ value.toNat)
      else some (.move from_ to_ value.toNat)
  | .Approval _ _ _ => none
  | .OwnershipTransferred _ _ => none

def journal (logs : List Event) : List (Ledger.Entry Address) := logs.filterMap Event.entry

def Msg.entry (m : Msg) : Option (Ledger.Entry Address) :=
  match m.call with
  | .issueTokens to_ amount => some (.credit to_ amount.toNat)
  | .transfer to_ amount => some (.move m.sender to_ amount.toNat)
  | .transferFrom from_ to_ amount => some (.move from_ to_ amount.toNat)
  | .redeemTokens amount => some (.debit m.sender amount.toNat)
  | .burn amount => some (.debit m.sender amount.toNat)
  | .burnFrom account amount => some (.debit account amount.toNat)
  | _ => none

def Msg.inflow (m : Msg) (a : Address) : ℕ := (m.entry.map (·.inflow a)).getD 0

def Msg.outflow (m : Msg) (a : Address) : ℕ := (m.entry.map (·.outflow a)).getD 0

def Msg.created (m : Msg) : ℕ := (m.entry.map (·.created)).getD 0

def Msg.destroyed (m : Msg) : ℕ := (m.entry.map (·.destroyed)).getD 0

structure Represents (s : State) (L : Ledger Address) : Prop where
  balance : ∀ a, (s.balances a).toNat = L.balance a
  supply : s.totalSupply.toNat = L.supply

section Represents

variable {s : State} {L : Ledger Address}

-- The unchecked sum of `_mint` cannot wrap: a balance is at most the supply.
theorem Represents.minted (h : Represents s L) {account : Address} {amount : Uint256}
    (hm : Mintable s account amount) :
    ∃ M, L.post (.credit account amount.toNat) = some M ∧
      Represents (s.minted account amount) M := by
  obtain ⟨M, hM⟩ : ∃ M, L.post (.credit account amount.toNat) = some M := ⟨_, rfl⟩
  refine ⟨M, hM, ?_, ?_⟩
  · intro a
    have hb := Ledger.post_balance hM a
    have hle := L.balance_le_supply account
    have hlt := hm.2
    simp only [Ledger.Entry.outflow, Ledger.Entry.inflow, Nat.add_zero] at hb
    change (Function.update s.balances account (s.balances account + amount) a).toNat = _
    by_cases ha : account = a
    · subst ha
      rw [if_pos rfl] at hb
      rw [Function.update_self, BitVec.toNat_add_of_lt, h.balance, hb]
      rw [h.balance, ← h.supply] at *
      omega
    · rw [Function.update_of_ne (Ne.symm ha), h.balance, hb, if_neg ha, Nat.add_zero]
  · have hg := Ledger.post_supply hM
    change (s.totalSupply + amount).toNat = _
    rw [BitVec.toNat_add_of_lt hm.2, h.supply]
    simpa [Ledger.Entry.created, Ledger.Entry.destroyed] using hg.symm

-- The receiver's unchecked sum cannot wrap: it is at most the supply, which
-- the move leaves as it is.
theorem Represents.moved (h : Represents s L) {from_ to_ : Address} {amount : Uint256}
    (hm : Movable s from_ to_ amount) :
    ∃ M, L.post (.move from_ to_ amount.toNat) = some M ∧
      Represents (s.moved from_ to_ amount) M := by
  have hle : amount.toNat ≤ L.balance from_ := h.balance from_ ▸ hm.2.2
  have hcover : amount.toNat ≤ (s.balances from_).toNat := hm.2.2
  obtain ⟨M, hM⟩ := Ledger.exists_post_move hle to_
  have hsupply : M.supply = L.supply := Ledger.post_supply hM
  refine ⟨M, hM, ?_, h.supply.trans hsupply.symm⟩
  intro a
  have hb := Ledger.post_balance hM a
  have hcap := M.balance_le_supply a
  have hlt := s.totalSupply.isLt
  have hsub := BitVec.toNat_sub_of_le hm.2.2
  simp only [Ledger.Entry.outflow, Ledger.Entry.inflow, ← h.balance] at hb
  rw [hsupply, ← h.supply] at hcap
  change (Function.update (Function.update s.balances from_ (s.balances from_ - amount)) to_
    (Function.update s.balances from_ (s.balances from_ - amount) to_ + amount) a).toNat = _
  by_cases ht : to_ = a
  · subst ht
    rw [Function.update_self, if_pos rfl] at *
    by_cases hf : from_ = to_
    · subst hf
      rw [if_pos rfl] at hb
      rw [Function.update_self, BitVec.toNat_add_of_lt (by omega)]
      omega
    · rw [if_neg hf] at hb
      rw [Function.update_of_ne (Ne.symm hf), BitVec.toNat_add_of_lt (by omega)]
      omega
  · rw [Function.update_of_ne (Ne.symm ht)]
    rw [if_neg ht] at hb
    by_cases hf : from_ = a
    · subst hf
      rw [if_pos rfl] at hb
      rw [Function.update_self]
      omega
    · rw [if_neg hf] at hb
      rw [Function.update_of_ne (Ne.symm hf)]
      omega

-- The unchecked difference of the supply cannot wrap: what is burned was a
-- balance.
theorem Represents.burned (h : Represents s L) {account : Address} {amount : Uint256}
    (hb : Burnable s account amount) :
    ∃ M, L.post (.debit account amount.toNat) = some M ∧
      Represents (s.burned account amount) M := by
  have hle : amount.toNat ≤ L.balance account := h.balance account ▸ hb.2
  obtain ⟨M, hM⟩ := Ledger.exists_post_debit hle
  refine ⟨M, hM, ?_, ?_⟩
  · intro a
    have hm := Ledger.post_balance hM a
    have hsub := BitVec.toNat_sub_of_le hb.2
    simp only [Ledger.Entry.outflow, Ledger.Entry.inflow, ← h.balance] at hm
    change (Function.update s.balances account (s.balances account - amount) a).toNat = _
    by_cases ha : account = a
    · subst ha
      rw [if_pos rfl] at hm
      rw [Function.update_self]
      omega
    · rw [if_neg ha] at hm
      rw [Function.update_of_ne (Ne.symm ha)]
      omega
  · have hg := Ledger.post_supply hM
    have hcap := L.balance_le_supply account
    rw [← h.supply] at hcap
    have hsub : amount ≤ s.totalSupply := hle.trans hcap
    change (s.totalSupply - amount).toNat = _
    rw [BitVec.toNat_sub_of_le hsub]
    simp only [Ledger.Entry.created, Ledger.Entry.destroyed, ← h.supply] at hg
    omega

theorem Represents.of_slots (h : Represents s L) {t : State} (hb : t.balances = s.balances)
    (hs : t.totalSupply = s.totalSupply) : Represents t L :=
  ⟨fun a => by rw [hb]; exact h.balance a, by rw [hs]; exact h.supply⟩

theorem Represents.spent (h : Represents s L) (owner spender : Address) (amount : Uint256) :
    Represents (s.spent owner spender amount) L :=
  h.of_slots (spent_balances ..) (spent_totalSupply ..)

-- One accepted call: its entry can be booked, and the booked ledger describes
-- the slots that the call leaves.
theorem Represents.post (h : Represents s L) {m : Msg} (ha : Accepts s m) :
    ∃ M, runAll Ledger.post L m.entry.toList = some M ∧ Represents (post s m) M := by
  have single {entry : Ledger.Entry Address} {t : State}
      (hp : ∃ M, L.post entry = some M ∧ Represents t M) :
      ∃ M, runAll Ledger.post L (some entry).toList = some M ∧ Represents t M := by
    obtain ⟨M, hM, hr⟩ := hp
    exact ⟨M, by simp [runAll_cons, hM], hr⟩
  have idle {t : State} (hb : t.balances = s.balances) (hs : t.totalSupply = s.totalSupply) :
      ∃ M, runAll Ledger.post L (none : Option (Ledger.Entry Address)).toList = some M ∧
        Represents t M := ⟨L, rfl, h.of_slots hb hs⟩
  rcases m with ⟨sender, call⟩
  cases call with
  | whitelistInvestor investor => exact idle rfl rfl
  | removeInvestor investor => exact idle rfl rfl
  | issueTokens to_ amount => exact single (h.minted ha.2.2)
  | transfer to_ amount => exact single (h.moved ha.2)
  | redeemTokens amount => exact single (h.burned ha)
  | transferFrom from_ to_ amount =>
      have hm : Movable (s.spent from_ sender amount) from_ to_ amount := by
        simpa [Movable] using ha.2
      exact single ((h.spent from_ sender amount).moved hm)
  | approve spender amount => exact idle rfl rfl
  | increaseAllowance spender addedValue => exact idle rfl rfl
  | decreaseAllowance spender subtractedValue => exact idle rfl rfl
  | burn amount => exact single (h.burned ha)
  | burnFrom account amount =>
      have hb : Burnable (s.spent account sender amount) account amount := by
        simpa [Burnable] using ha.2
      exact single ((h.spent account sender amount).burned hb)
  | transferOwnership newOwner => exact idle rfl rfl
  | renounceOwnership => exact idle rfl rfl

end Represents

section Journal

theorem journal_emit (s : State) (event : Event) :
    journal (s.emit event).logs = journal s.logs ++ event.entry.toList := by
  simp only [journal, State.emit, List.filterMap_append]
  cases h : event.entry <;> simp [h]

theorem journal_moved (s : State) {from_ to_ : Address} (hf : from_ ≠ 0) (ht : to_ ≠ 0)
    (amount : Uint256) :
    journal (s.moved from_ to_ amount).logs =
      journal s.logs ++ [.move from_ to_ amount.toNat] := by
  rw [State.moved, journal_emit]
  simp only [Event.entry, hf, ht, if_false]
  rfl

theorem journal_minted (s : State) (account : Address) (amount : Uint256) :
    journal (s.minted account amount).logs =
      journal s.logs ++ [.credit account amount.toNat] := by
  rw [State.minted, journal_emit]
  rfl

theorem journal_burned (s : State) {account : Address} (h : account ≠ 0) (amount : Uint256) :
    journal (s.burned account amount).logs =
      journal s.logs ++ [.debit account amount.toNat] := by
  rw [State.burned, journal_emit]
  simp only [Event.entry, h, if_false, if_true]
  rfl

theorem journal_approved (s : State) (owner spender : Address) (value : Uint256) :
    journal (s.approved owner spender value).logs = journal s.logs := by
  rw [State.approved, journal_emit]
  exact List.append_nil _

theorem journal_spent (s : State) (owner spender : Address) (amount : Uint256) :
    journal (s.spent owner spender amount).logs = journal s.logs := by
  unfold State.spent
  split_ifs
  · rfl
  · exact journal_approved ..

theorem journal_transferOwnership (s : State) (newOwner : Address) :
    journal (Ownable._transferOwnership newOwner s).logs = journal s.logs := by
  rw [Ownable._transferOwnership, journal_emit]
  exact List.append_nil _

theorem journal_post {s : State} {m : Msg} (ha : Accepts s m) :
    journal (post s m).logs = journal s.logs ++ m.entry.toList := by
  have idle {t : State} (h : journal t.logs = journal s.logs) :
      journal t.logs = journal s.logs ++ (none : Option (Ledger.Entry Address)).toList := by
    rw [h]; exact (List.append_nil _).symm
  rcases m with ⟨sender, call⟩
  cases call with
  | whitelistInvestor investor => exact idle rfl
  | removeInvestor investor => exact idle rfl
  | issueTokens to_ amount => exact journal_minted s to_ amount
  | transfer to_ amount => exact journal_moved s ha.2.1 ha.2.2.1 amount
  | redeemTokens amount => exact journal_burned s ha.1 amount
  | transferFrom from_ to_ amount =>
      have h := journal_moved (s.spent from_ sender amount) ha.2.1 ha.2.2.1 amount
      rwa [journal_spent] at h
  | approve spender amount => exact idle (journal_approved ..)
  | increaseAllowance spender addedValue => exact idle (journal_approved ..)
  | decreaseAllowance spender subtractedValue => exact idle (journal_approved ..)
  | burn amount => exact journal_burned s ha.1 amount
  | burnFrom account amount =>
      have h := journal_burned (s.spent account sender amount) ha.2.1 amount
      rwa [journal_spent] at h
  | transferOwnership newOwner => exact idle (journal_transferOwnership ..)
  | renounceOwnership => exact idle (journal_transferOwnership ..)

end Journal

-- The ledger that the log replays to describes the slots, and no entry has
-- credited the zero address.
structure Replays (s : State) (L : Ledger Address) : Prop where
  replay : runAll Ledger.post Ledger.empty (journal s.logs) = some L
  represents : Represents s L
  zero : L.balance 0 = 0

def Sound (s : State) : Prop := ∃ L, Replays s L

section Sound

variable {s t : State} {m : Msg}

theorem entry_inflow_zero (ha : Accepts s m) : ∀ entry ∈ m.entry, entry.inflow 0 = 0 := by
  rcases m with ⟨sender, call⟩
  intro entry he
  cases call <;> simp only [Msg.entry, Option.mem_def, Option.some.injEq, reduceCtorEq] at he <;>
    subst he
  case issueTokens to_ amount => simp [Ledger.Entry.inflow, ha.2.2.1]
  case transfer to_ amount => simp [Ledger.Entry.inflow, ha.2.2.1]
  case transferFrom from_ to_ amount => simp [Ledger.Entry.inflow, ha.2.2.1]
  all_goals rfl

-- The simulation: a call of the token is its entry in the ledger.
theorem Replays.step {L : Ledger Address} (h : Replays s L) (hstep : step s m = some t) :
    ∃ M, runAll Ledger.post L m.entry.toList = some M ∧ Replays t M := by
  obtain ⟨ha, rfl⟩ := step_eq_some_iff.mp hstep
  obtain ⟨M, hM, hr⟩ := h.represents.post ha
  refine ⟨M, hM, ?_, hr, ?_⟩
  · rw [journal_post ha, runAll_append, h.replay]
    exact hM
  · have hz := entry_inflow_zero ha
    cases he : m.entry with
    | none =>
        rw [he] at hM
        have hLM : L = M := Option.some.inj hM
        exact hLM ▸ h.zero
    | some entry =>
        rw [he] at hM
        have hp : L.post entry = some M := by simpa [runAll_cons] using hM
        have hb := Ledger.post_balance hp 0
        have hi := hz entry he
        have h0 := h.zero
        omega

theorem Sound.step (h : Sound s) (hstep : step s m = some t) : Sound t := by
  obtain ⟨L, hL⟩ := h
  obtain ⟨M, -, hM⟩ := hL.step hstep
  exact ⟨M, hM⟩

theorem step_balance (h : Sound s) (hstep : step s m = some t) (a : Address) :
    (t.balances a).toNat + m.outflow a = (s.balances a).toNat + m.inflow a := by
  obtain ⟨L, hL⟩ := h
  obtain ⟨M, hM, hMt⟩ := hL.step hstep
  rw [hMt.represents.balance, hL.represents.balance]
  unfold Msg.outflow Msg.inflow
  cases he : m.entry with
  | none =>
      rw [he] at hM
      have hLM : L = M := Option.some.inj hM
      simp [hLM]
  | some entry =>
      rw [he] at hM
      have hp : L.post entry = some M := by simpa [runAll_cons] using hM
      exact Ledger.post_balance hp a

theorem step_supply (h : Sound s) (hstep : step s m = some t) :
    t.totalSupply.toNat + m.destroyed = s.totalSupply.toNat + m.created := by
  obtain ⟨L, hL⟩ := h
  obtain ⟨M, hM, hMt⟩ := hL.step hstep
  rw [hMt.represents.supply, hL.represents.supply]
  unfold Msg.destroyed Msg.created
  cases he : m.entry with
  | none =>
      rw [he] at hM
      have hLM : L = M := Option.some.inj hM
      simp [hLM]
  | some entry =>
      rw [he] at hM
      have hp : L.post entry = some M := by simpa [runAll_cons] using hM
      exact Ledger.post_supply hp

def deployed (deployer : Address) : State :=
  (Ownable._transferOwnership deployer WageFixSTO.uninitialized).minted deployer 0

theorem deploy_eq_ok {deployer : Address} {s₀ : State} :
    WageFixSTO.deploy deployer = .ok s₀ ↔ deployer ≠ 0 ∧ s₀ = deployed deployer := by
  rw [WageFixSTO.deploy, mint_eq_ok]
  have h : (0 : Uint256).toNat + (0 : Uint256).toNat < 2 ^ 256 := by decide
  exact ⟨fun ⟨hm, hs⟩ => ⟨hm.1, hs⟩, fun ⟨hd, hs⟩ => ⟨⟨hd, h⟩, hs⟩⟩

theorem reachable_replay_deployed {deployer : Address} (hd : deployer ≠ 0) (ms : List Msg) :
    Reachable (replay step (deployed deployer) ms) :=
  ⟨deployer, _, ms, deploy_eq_ok.mpr ⟨hd, rfl⟩, rfl⟩

theorem sound_deploy {deployer : Address} {s₀ : State} (h : WageFixSTO.deploy deployer = .ok s₀) :
    Sound s₀ := by
  obtain ⟨hm, rfl⟩ := mint_eq_ok.mp h
  have hr : Represents (Ownable._transferOwnership deployer WageFixSTO.uninitialized)
      Ledger.empty := ⟨fun _ => rfl, rfl⟩
  obtain ⟨M, hM, hrM⟩ := hr.minted hm
  refine ⟨M, ?_, hrM, ?_⟩
  · rw [journal_minted, journal_transferOwnership]
    simpa [journal, WageFixSTO.uninitialized, runAll_cons] using hM
  · have hb := Ledger.post_balance hM 0
    simpa [Ledger.Entry.inflow, Ledger.Entry.outflow, Ledger.empty, hm.1] using hb

theorem Reachable.sound (h : Reachable s) : Sound s := by
  obtain ⟨deployer, s₀, ms, hd, rfl⟩ := h
  exact replay_invariant (fun _ _ _ => Sound.step) (sound_deploy hd) ms

end Sound

end WageFix
