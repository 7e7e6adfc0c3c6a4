import WageFix.Spirits.Serial

namespace WageFix.Spirits

open Transition CallTree

-- Who can move a token: its owner, the operators of the owner, and the one
-- account that is approved for it.
def Trusted (s : State) (tokenId : Uint256) (a : Address) : Prop :=
  a = s.owners tokenId ∨ s.operatorApprovals (s.owners tokenId) a = true ∨
    s.tokenApprovals tokenId = a

instance (s : State) (tokenId : Uint256) (a : Address) : Decidable (Trusted s tokenId a) :=
  inferInstanceAs (Decidable (_ ∨ _))

-- The calls that can write the approval of a token.
def Msg.Names (m : Msg) (tokenId : Uint256) : Prop :=
  match m.call with
  | .transferFrom _ _ id => id = tokenId
  | .safeTransferFrom _ _ id => id = tokenId
  | .approve _ id => id = tokenId
  | .mint _ _ => False
  | .setApprovalForAll _ _ => False

def Granted (s : State) (tokenId : Uint256) (m : Msg) : Prop :=
  m.sender = s.owners tokenId ∨ s.operatorApprovals (s.owners tokenId) m.sender = true

-- What others leave alone: the owner of a token, who is approved for it, and
-- the operators of the owner.
structure Kept (s t : State) (tokenId : Uint256) : Prop where
  owner : t.owners tokenId = s.owners tokenId
  approved : t.tokenApprovals tokenId = s.tokenApprovals tokenId
  operators : t.operatorApprovals (s.owners tokenId) = s.operatorApprovals (s.owners tokenId)

section Steps

variable {s t : State} {m : Msg} {tokenId : Uint256}

-- A second mint of an id that exists is refused.
theorem entered_mint_ne {sender to_ : Address} {uri : String}
    (he : Enters s ⟨sender, .mint to_ uri⟩) (hexists : ERC721._exists tokenId s) :
    tokenId ≠ s.nextTokenId := by
  rintro rfl
  exact hexists he.2.2

theorem moved_of_ne {from_ to_ : Address} {id : Uint256} (hid : tokenId ≠ id) :
    Kept s (s.moved from_ to_ id) tokenId where
  owner := Function.update_of_ne hid _ _
  approved := Function.update_of_ne hid _ _
  operators := rfl

theorem kept_entered (he : Enters s m) (hexists : ERC721._exists tokenId s)
    (hm : ¬ Trusted s tokenId m.sender) : Kept s (entered s m) tokenId := by
  rcases m with ⟨sender, call⟩
  cases call with
  | mint to_ uri =>
      have hid := entered_mint_ne he hexists
      exact ⟨Function.update_of_ne hid _ _, rfl, rfl⟩
  | transferFrom from_ to_ id =>
      apply moved_of_ne
      rintro rfl
      exact hm he.1.2
  | safeTransferFrom from_ to_ id =>
      apply moved_of_ne
      rintro rfl
      exact hm he.1.2
  | approve to_ id =>
      have hid : tokenId ≠ id := by
        rintro rfl
        exact hm (he.2.2.imp_right .inl)
      exact ⟨rfl, Function.update_of_ne hid _ _, rfl⟩
  | setApprovalForAll operator approved =>
      have hsender : s.owners tokenId ≠ sender := fun h => hm (.inl h.symm)
      exact ⟨rfl, rfl, Function.update_of_ne hsender _ _⟩

-- What comes after the callback writes neither owners nor approvals.
theorem atomic_slots (ht : token.atomic s m = some t) :
    Enters s m ∧ t.owners = (entered s m).owners ∧
      t.tokenApprovals = (entered s m).tokenApprovals ∧
      t.operatorApprovals = (entered s m).operatorApprovals := by
  obtain ⟨he, hafter⟩ := atomic_eq_some.mp ht
  refine ⟨he, ?_⟩
  by_cases hm : ∃ to_ uri, m.call = .mint to_ uri
  · obtain ⟨to_, uri, hcall⟩ := hm
    obtain ⟨sender, call⟩ := m
    obtain rfl : call = .mint to_ uri := hcall
    obtain ⟨-, rfl⟩ := afterCallback_mint_eq_ok.mp hafter
    exact ⟨rfl, rfl, rfl⟩
  · obtain rfl := (afterCallback_of_not_mint fun to_ uri hc => hm ⟨to_, uri, hc⟩).mp hafter
    exact ⟨rfl, rfl, rfl⟩

theorem kept_atomic (ht : token.atomic s m = some t) (hexists : ERC721._exists tokenId s)
    (hm : ¬ Trusted s tokenId m.sender) : Kept s t tokenId := by
  obtain ⟨he, howners, happrovals, hoperators⟩ := atomic_slots ht
  have hkept := kept_entered he hexists hm
  refine ⟨?_, ?_, ?_⟩
  · rw [howners, hkept.owner]
  · rw [happrovals, hkept.approved]
  · rw [hoperators, hkept.operators]

theorem Kept.trusted_iff (h : Kept s t tokenId) (a : Address) :
    Trusted t tokenId a ↔ Trusted s tokenId a := by
  unfold Trusted
  rw [h.owner, h.approved, h.operators]

theorem Kept.trans {u : State} (h : Kept s t tokenId) (h' : Kept t u tokenId) :
    Kept s u tokenId where
  owner := h'.owner.trans h.owner
  approved := h'.approved.trans h.approved
  operators := by
    have hoperators := h'.operators
    rw [h.owner] at hoperators
    exact hoperators.trans h.operators

theorem transferFrom_succeeds {a to_ : Address} (hexists : ERC721._exists tokenId s)
    (ha : Trusted s tokenId a) (hto : to_ ≠ 0) :
    ∃ t, dispatch ⟨a, .transferFrom (s.owners tokenId) to_ tokenId⟩ .ok s = .ok t ∧
      t.owners tokenId = to_ := by
  have htransfer : ERC721.transferFrom a (s.owners tokenId) to_ tokenId s =
      .ok (s.moved (s.owners tokenId) to_ tokenId) :=
    transferFrom_eq_ok.mpr ⟨⟨⟨hexists, ha⟩, rfl, hto⟩, rfl⟩
  exact ⟨_, htransfer, Function.update_self ..⟩

theorem approvals_of_not_names (ht : token.atomic s m = some t) (hm : ¬ m.Names tokenId) :
    t.tokenApprovals tokenId = s.tokenApprovals tokenId := by
  obtain ⟨-, -, happrovals, -⟩ := atomic_slots ht
  rw [happrovals]
  rcases m with ⟨sender, call⟩
  cases call with
  | mint to_ uri => rfl
  | transferFrom from_ to_ id => exact Function.update_of_ne (Ne.symm hm) _ _
  | safeTransferFrom from_ to_ id => exact Function.update_of_ne (Ne.symm hm) _ _
  | approve to_ id => exact Function.update_of_ne (Ne.symm hm) _ _
  | setApprovalForAll operator approved => rfl

theorem owners_of_not_names (ht : token.atomic s m = some t) (hm : ¬ m.Names tokenId)
    (hexists : ERC721._exists tokenId s) : t.owners tokenId = s.owners tokenId := by
  obtain ⟨he, howners, -, -⟩ := atomic_slots ht
  rw [howners]
  rcases m with ⟨sender, call⟩
  cases call with
  | mint to_ uri => exact Function.update_of_ne (entered_mint_ne he hexists) _ _
  | transferFrom from_ to_ id => exact Function.update_of_ne (Ne.symm hm) _ _
  | safeTransferFrom from_ to_ id => exact Function.update_of_ne (Ne.symm hm) _ _
  | approve to_ id => rfl
  | setApprovalForAll operator approved => rfl

-- A transfer clears the approval, so the last call that wrote a live one was
-- an approve.
theorem approve_of_names {p : Address} (ht : token.atomic s m = some t) (hm : m.Names tokenId)
    (hp : t.tokenApprovals tokenId = p) (hne : p ≠ 0) :
    m.call = .approve p tokenId ∧ Granted s tokenId m ∧ ERC721._exists tokenId s ∧
      t.owners tokenId = s.owners tokenId := by
  obtain ⟨he, howners, happrovals, -⟩ := atomic_slots ht
  rw [happrovals] at hp
  rcases m with ⟨sender, call⟩
  have cleared {from_ to_ : Address} {id : Uint256} (hid : id = tokenId)
      (hp : (s.moved from_ to_ id).tokenApprovals tokenId = p) : False := by
    subst hid
    exact hne (hp.symm.trans (Function.update_self ..))
  cases call with
  | mint to_ uri => exact absurd hm id
  | transferFrom from_ to_ id => exact (cleared hm hp).elim
  | safeTransferFrom from_ to_ id => exact (cleared hm hp).elim
  | approve to_ id =>
      obtain rfl : id = tokenId := hm
      change Function.update s.tokenApprovals id to_ id = p at hp
      rw [Function.update_self] at hp
      refine ⟨by rw [hp], he.2.2, he.1, ?_⟩
      rw [howners]
      rfl
  | setApprovalForAll operator approved => exact absurd hm id

-- Nothing burns a token or touches its URI again.
theorem permanent_atomic (ht : token.atomic s m = some t) (hexists : ERC721._exists tokenId s) :
    ERC721._exists tokenId t ∧ t.tokenURIs tokenId = s.tokenURIs tokenId := by
  obtain ⟨he, howners, -, -⟩ := atomic_slots ht
  refine ⟨?_, ?_⟩
  · show t.owners tokenId ≠ 0
    rw [howners]
    exact entered_exists he hexists
  · obtain ⟨-, hafter⟩ := atomic_eq_some.mp ht
    by_cases hm : ∃ to_ uri, m.call = .mint to_ uri
    · obtain ⟨to_, uri, hcall⟩ := hm
      obtain ⟨sender, call⟩ := m
      obtain rfl : call = .mint to_ uri := hcall
      obtain ⟨-, rfl⟩ := afterCallback_mint_eq_ok.mp hafter
      exact Function.update_of_ne (entered_mint_ne he hexists) _ _
    · obtain rfl := (afterCallback_of_not_mint fun to_ uri hc => hm ⟨to_, uri, hc⟩).mp hafter
      rw [entered_tokenURIs]

end Steps

theorem runAll_run (s : State) (calls : Calls Msg) :
    runAll token.atomic s (token.exec s calls).2 = some (run s calls) := by
  rw [run_eq_exec]
  exact exec_serial serial s calls

-- In any tree of calls that come from no trusted account, however they are
-- nested, a token stays with its owner, nobody becomes trusted, and those who
-- were can move it afterwards as before.
theorem custody_kept (s : State) (tokenId : Uint256) (hexists : ERC721._exists tokenId s)
    (calls : Calls Msg) (hcalls : ∀ m ∈ calls.preorder, ¬ Trusted s tokenId m.sender) :
    let final := run s calls
    final.owners tokenId = s.owners tokenId ∧
      (∀ a, Trusted final tokenId a ↔ Trusted s tokenId a) ∧
      ∀ a to_, Trusted s tokenId a → to_ ≠ 0 →
        ∃ t, dispatch ⟨a, .transferFrom (s.owners tokenId) to_ tokenId⟩ .ok final = .ok t ∧
          t.owners tokenId = to_ := by
  intro final
  have hsurvivors : ∀ m ∈ (token.exec s calls).2, ¬ Trusted s tokenId m.sender :=
    fun m hm => hcalls m ((exec_sublist token s calls).subset hm)
  have hkept : Kept s final tokenId := by
    apply runAll_invariant_of_mem (I := fun t => Kept s t tokenId) ?_ ⟨rfl, rfl, rfl⟩ hsurvivors
      (runAll_run s calls)
    intro t m u hm hk hu
    have hexists : ERC721._exists tokenId t := by
      show t.owners tokenId ≠ 0
      rwa [hk.owner]
    exact hk.trans (kept_atomic hu hexists (mt (hk.trusted_iff _).mp hm))
  refine ⟨hkept.owner, hkept.trusted_iff, ?_⟩
  intro a to_ ha hto
  have hexists : ERC721._exists tokenId final := by
    show final.owners tokenId ≠ 0
    rwa [hkept.owner]
  have hmove := transferFrom_succeeds hexists ((hkept.trusted_iff a).mpr ha) hto
  rwa [hkept.owner] at hmove

-- The admin has minted token 0 to investor 2.
def cask : State := run (SpiritsToken.deploy 1) (.plain ⟨1, .mint 2 "ipfs://cask"⟩ .done)

-- The receiver of a second token, and the admin itself, go after the first.
theorem custody_kept_cask :
    (run cask (.call ⟨1, .mint 3 "ipfs://other"⟩
      (.plain ⟨3, .transferFrom 2 3 0⟩ (.plain ⟨3, .approve 3 0⟩ .done)) true
      (.plain ⟨1, .safeTransferFrom 2 1 0⟩ .done))).owners 0 = 2 :=
  (custody_kept cask 0 (by decide +kernel) _ (by decide +kernel)).1.trans (by decide +kernel)

-- An approval that is live after a tree of calls was given by one that came
-- through, from the present owner or an operator of the owner, with no
-- transfer and no other approve of the token since. So none outlives a sale.
theorem approval_given (deployer : Address) (calls : Calls Msg) :
    let survivors := (token.exec (SpiritsToken.deploy deployer) calls).2
    let final := run (SpiritsToken.deploy deployer) calls
    ∀ tokenId p, p ≠ 0 → (final.tokenApprovals tokenId = p ↔
      ∃ before m after u, survivors = before ++ m :: after ∧
        runAll atomicStep (SpiritsToken.deploy deployer) before = some u ∧
        m.call = .approve p tokenId ∧ Granted u tokenId m ∧
        u.owners tokenId = final.owners tokenId ∧ ∀ d ∈ after, ¬ d.Names tokenId) := by
  intro survivors final tokenId p hp
  have hrun : runAll token.atomic (SpiritsToken.deploy deployer) survivors = some final :=
    runAll_run _ calls
  have hstep : token.atomic = atomicStep :=
    funext fun s => funext fun m => atomic_eq_atomicStep s m
  constructor
  · intro hlive
    have hkeep : ∀ s m t, ¬ m.Names tokenId → token.atomic s m = some t →
        t.tokenApprovals tokenId = s.tokenApprovals tokenId :=
      fun s m t hm ht => approvals_of_not_names ht hm
    rcases runAll_last_write hkeep hrun with
      ⟨-, hnone⟩ | ⟨before, m, after, u, v, hsplit, hm, hafter, hu, hv, hlast, hsame⟩
    · exact absurd (hlive.symm.trans hnone) hp
    · obtain ⟨hcall, hgranted, hexists, howner⟩ :=
        approve_of_names hv hm (hsame.symm.trans hlive) hp
      -- after the approve the token stays where it is
      have hfinal : final.owners tokenId = u.owners tokenId := by
        apply runAll_invariant_of_mem (I := fun t => t.owners tokenId = u.owners tokenId) ?_
          howner hafter hlast
        intro t d w hd ht hw
        have hexists : ERC721._exists tokenId t := by
          show t.owners tokenId ≠ 0
          rwa [ht]
        exact (owners_of_not_names hw hd hexists).trans ht
      refine ⟨before, m, after, u, hsplit, ?_, hcall, hgranted, hfinal.symm, hafter⟩
      rw [← hstep]
      exact hu
  · rintro ⟨before, m, after, u, hsplit, hu, hcall, -, -, hafter⟩
    rw [← hstep] at hu
    rw [hsplit] at hrun
    obtain ⟨u', hu', hrest⟩ := runAll_append_eq_some.mp hrun
    obtain rfl : u = u' := Option.some.inj (hu.symm.trans hu')
    obtain ⟨v, hv, hlast⟩ := runAll_cons_eq_some.mp hrest
    have happroved : v.tokenApprovals tokenId = p := by
      obtain ⟨-, -, happrovals, -⟩ := atomic_slots hv
      obtain ⟨sender, call⟩ := m
      obtain rfl : call = .approve p tokenId := hcall
      rw [happrovals]
      exact Function.update_self ..
    apply runAll_invariant_of_mem (I := fun t => t.tokenApprovals tokenId = p) ?_ happroved hafter
      hlast
    intro t d w hd ht hw
    exact (approvals_of_not_names hw hd).trans ht

-- From any state, half-way through a mint included, no tree of calls makes a
-- token disappear or changes where its metadata is.
theorem token_permanent (s : State) (calls : Calls Msg) (tokenId : Uint256)
    (hexists : ERC721._exists tokenId s) :
    ERC721._exists tokenId (run s calls) ∧ (run s calls).tokenURIs tokenId = s.tokenURIs tokenId := by
  apply runAll_invariant_of_mem (P := fun _ => True)
    (I := fun t => ERC721._exists tokenId t ∧ t.tokenURIs tokenId = s.tokenURIs tokenId) ?_
    ⟨hexists, rfl⟩ (fun _ _ => trivial) (runAll_run s calls)
  intro t m u _ ht hu
  have hperm := permanent_atomic hu ht.1
  exact ⟨hperm.1, hperm.2.trans ht.2⟩

theorem token_permanent_cask :
    (run cask (.call ⟨1, .mint 1 "ipfs://other"⟩ (.plain ⟨1, .mint 1 "ipfs://twice"⟩ .done) true
      (.plain ⟨2, .transferFrom 2 3 0⟩ .done))).tokenURIs 0 = "ipfs://cask" :=
  (token_permanent cask _ 0 (by decide +kernel)).2.trans (by decide +kernel)

end WageFix.Spirits
