import WageFix.Spirits

namespace WageFix.Spirits

open Transition CallTree

def atomicStep (s : State) (m : Msg) : Option State := (dispatch m .ok s).toOption

section Outcome

variable {α β : Type}

theorem toOption_eq_some {x : Outcome α} {a : α} : x.toOption = some a ↔ x = .ok a := by
  cases x with
  | error e => simp [Except.toOption]
  | ok b => simp [Except.toOption]

theorem exists_of_toOption_eq_none {x : Outcome α} (h : x.toOption = none) :
    ∃ e, x = .error e := by
  cases x with
  | error e => exact ⟨e, rfl⟩
  | ok a => cases h

theorem toOption_bind (x : Outcome α) (f : α → Outcome β) :
    (x >>= f).toOption = x.toOption.bind fun a => (f a).toOption := by
  cases x with
  | error e => rfl
  | ok a => rfl

end Outcome

theorem atomic_eq_atomicStep (s : State) (m : Msg) : token.atomic s m = atomicStep s m := by
  rw [atomicStep, dispatch_eq, toOption_bind, Component.atomic]
  change (beforeCallback m s).toOption.bind _ = _
  cases beforeCallback m s with
  | error e => rfl
  | ok t => cases h : m.call.callsBack <;> rfl

-- A call in a tree is the source's call, run with a callback that does to the
-- state what the receiver in the tree does.
theorem around_eq_dispatch (s : State) (m : Msg) {receiver : State → Option (State × List Msg)}
    {callback : State → Outcome State}
    (hreceiver : ∀ t, (receiver t).map Prod.fst =
      (if m.call.callsBack then callback t else .ok t).toOption) :
    (token.around s m receiver).map Prod.fst = (dispatch m callback s).toOption := by
  rw [dispatch_eq, toOption_bind, Component.around, Option.map_bind]
  change (beforeCallback m s).toOption.bind _ = _
  congr 1
  funext t
  rw [toOption_bind, ← hreceiver t, Function.comp_apply]
  cases receiver t with
  | none => rfl
  | some inner =>
      change ((afterCallback m inner.1).toOption.map _).map Prod.fst = (afterCallback m inner.1).toOption
      rw [Option.map_map]
      exact Option.map_id'

theorem around_plain (s : State) (m : Msg) :
    (token.around s m fun t => some (t, [])).map Prod.fst = (dispatch m .ok s).toOption := by
  apply around_eq_dispatch
  intro t
  cases m.call.callsBack <;> rfl

theorem around_call (s : State) (m : Msg) {nested : Calls Msg} (accepts : Bool)
    (hnested : ∀ t, run t nested = (token.exec t nested).1) :
    (token.around s m fun t => if token.callsBack m then
        if accepts then some (token.exec t nested) else none
      else some (t, [])).map Prod.fst =
      (dispatch m (onERC721Received (fun t => run t nested) accepts) s).toOption := by
  apply around_eq_dispatch
  intro t
  cases hcalls : m.call.callsBack with
  | false => simp [token, hcalls, Except.toOption]
  | true =>
      cases accepts with
      | false => simp [token, hcalls, onERC721Received, Except.toOption]
      | true => simp [token, hcalls, onERC721Received, Except.toOption, hnested]

-- The state that the calls of the source leave is the one that the tree of
-- their cut versions leaves.
theorem run_eq_exec (s : State) (calls : Calls Msg) : run s calls = (token.exec s calls).1 := by
  induction calls generalizing s with
  | done => rfl
  | plain m rest ih => rw [run, Component.exec, follow_fst, around_plain, ih]
  | call m nested accepts rest ihNested ih =>
      rw [run, Component.exec, follow_fst, around_call s m accepts ihNested, ih]

-- The calls that the tree lists are those of the source that came through.
theorem exec_eq_cameThrough (s : State) (calls : Calls Msg) :
    (token.exec s calls).2 = cameThrough s calls := by
  induction calls generalizing s with
  | done => rfl
  | plain m rest ih =>
      have hcall := around_plain s m
      rw [Component.exec, cameThrough]
      cases haround : token.around s m fun t => some (t, []) with
      | none =>
          rw [haround] at hcall
          obtain ⟨e, herror⟩ := exists_of_toOption_eq_none hcall.symm
          rw [herror]
          exact ih s
      | some r =>
          obtain ⟨t, made⟩ := r
          obtain ⟨_, _, _, -, hinner, -, rfl⟩ := around_eq_some.mp haround
          obtain ⟨-, rfl⟩ := Prod.mk.inj (Option.some.inj hinner)
          rw [haround] at hcall
          rw [toOption_eq_some.mp hcall.symm]
          exact congrArg (m :: ·) (ih t)
  | call m nested accepts rest ihNested ih =>
      have hcall := around_call s m accepts fun t => run_eq_exec t nested
      rw [Component.exec, cameThrough]
      cases haround : token.around s m fun t => if token.callsBack m then
          if accepts then some (token.exec t nested) else none
        else some (t, []) with
      | none =>
          rw [haround] at hcall
          obtain ⟨e, herror⟩ := exists_of_toOption_eq_none hcall.symm
          rw [herror]
          exact ih s
      | some r =>
          obtain ⟨t, made⟩ := r
          obtain ⟨u, v, inner, henter, hinner, -, rfl⟩ := around_eq_some.mp haround
          rw [haround] at hcall
          rw [toOption_eq_some.mp hcall.symm, toOption_eq_some.mp henter]
          show m :: (inner ++ (token.exec t rest).2) = _
          have htoken : token.callsBack m = m.call.callsBack := rfl
          rw [htoken] at hinner
          rw [ih]
          cases hcalls : m.call.callsBack with
          | true =>
              rw [hcalls, if_pos rfl] at hinner
              split_ifs at hinner
              have hmade : (token.exec u nested).2 = inner :=
                congrArg Prod.snd (Option.some.inj hinner)
              rw [← hmade, ihNested]
          | false =>
              rw [hcalls, if_neg Bool.false_ne_true] at hinner
              obtain ⟨-, rfl⟩ := Prod.mk.inj (Option.some.inj hinner)
              rfl

def State.moved (s : State) (from_ to_ : Address) (tokenId : Uint256) : State :=
  let debited := Function.update s.balances from_ (s.balances from_ - 1)
  { s with
    tokenApprovals := Function.update s.tokenApprovals tokenId 0
    balances := Function.update debited to_ (debited to_ + 1)
    owners := Function.update s.owners tokenId to_ }

def State.relabel (s : State) (uris : Uint256 → String) (next : Uint256) : State :=
  { s with tokenURIs := uris, nextTokenId := next }

def State.labelled (s : State) (uri : String) : State :=
  s.relabel (Function.update s.tokenURIs s.nextTokenId uri) (s.nextTokenId + 1)

def Transferable (s : State) (msgSender from_ to_ : Address) (tokenId : Uint256) : Prop :=
  (s.owners tokenId ≠ 0 ∧ (msgSender = s.owners tokenId ∨
    s.operatorApprovals (s.owners tokenId) msgSender = true ∨
    s.tokenApprovals tokenId = msgSender)) ∧
  s.owners tokenId = from_ ∧ to_ ≠ 0

def Enters (s : State) (m : Msg) : Prop :=
  match m.call with
  | .mint to_ _ => m.sender = s.admin ∧ to_ ≠ 0 ∧ s.owners s.nextTokenId = 0
  | .transferFrom from_ to_ tokenId => Transferable s m.sender from_ to_ tokenId
  | .safeTransferFrom from_ to_ tokenId => Transferable s m.sender from_ to_ tokenId
  | .approve to_ tokenId =>
      s.owners tokenId ≠ 0 ∧ to_ ≠ s.owners tokenId ∧
        (m.sender = s.owners tokenId ∨ s.operatorApprovals (s.owners tokenId) m.sender = true)
  | .setApprovalForAll operator _ => m.sender ≠ operator

def entered (s : State) (m : Msg) : State :=
  match m.call with
  | .mint to_ _ =>
      { s with
        balances := Function.update s.balances to_ (s.balances to_ + 1)
        owners := Function.update s.owners s.nextTokenId to_ }
  | .transferFrom from_ to_ tokenId => s.moved from_ to_ tokenId
  | .safeTransferFrom from_ to_ tokenId => s.moved from_ to_ tokenId
  | .approve to_ tokenId =>
      { s with tokenApprovals := Function.update s.tokenApprovals tokenId to_ }
  | .setApprovalForAll operator approved =>
      let granted := Function.update (s.operatorApprovals m.sender) operator approved
      { s with operatorApprovals := Function.update s.operatorApprovals m.sender granted }

section Guards

variable {s t : State} {m : Msg}

theorem transferFrom_eq_ok {msgSender from_ to_ : Address} {tokenId : Uint256} :
    ERC721.transferFrom msgSender from_ to_ tokenId s = .ok t ↔
      Transferable s msgSender from_ to_ tokenId ∧ t = s.moved from_ to_ tokenId := by
  simp only [ERC721.transferFrom, ERC721._transfer, ERC721._isApprovedOrOwner, ERC721.ownerOf,
    ERC721.getApproved, ERC721.isApprovedForAll, ERC721._exists, bind_eq_ok, require_eq_ok,
    pure_eq_ok, Transferable, State.moved]
  constructor
  · rintro ⟨_, ⟨_, ⟨_, hexists, rfl⟩, _, ⟨_, -, rfl⟩, rfl⟩, _, hallowed, _, ⟨_, -, rfl⟩, _, hfrom,
      _, hto, rfl⟩
    exact ⟨⟨⟨hexists, of_decide_eq_true hallowed⟩, hfrom, hto⟩, rfl⟩
  · rintro ⟨⟨⟨hexists, hallowed⟩, hfrom, hto⟩, rfl⟩
    exact ⟨_, ⟨_, ⟨(), hexists, rfl⟩, _, ⟨(), hexists, rfl⟩, rfl⟩, (), decide_eq_true hallowed,
      _, ⟨(), hexists, rfl⟩, (), hfrom, (), hto, rfl⟩

theorem beforeCallback_eq_ok : beforeCallback m s = .ok t ↔ Enters s m ∧ t = entered s m := by
  rcases m with ⟨sender, call⟩
  cases call with
  | mint to_ uri =>
      simp [beforeCallback, Enters, entered, ERC721._mint, ERC721._exists, bind_eq_ok, map_eq_ok,
        and_assoc]
  | transferFrom from_ to_ tokenId => exact transferFrom_eq_ok
  | safeTransferFrom from_ to_ tokenId => exact transferFrom_eq_ok
  | approve to_ tokenId =>
      simp [beforeCallback, Enters, entered, ERC721.approve, ERC721.ownerOf, ERC721._exists,
        ERC721.isApprovedForAll, bind_eq_ok, map_eq_ok, and_assoc]
  | setApprovalForAll operator approved =>
      simp [beforeCallback, Enters, entered, ERC721.setApprovalForAll, map_eq_ok]

theorem afterCallback_mint_eq_ok {sender to_ : Address} {uri : String} :
    afterCallback ⟨sender, .mint to_ uri⟩ s = .ok t ↔
      (s.owners s.nextTokenId ≠ 0 ∧ s.nextTokenId.toNat + 1 < 2 ^ 256) ∧ t = s.labelled uri := by
  simp [afterCallback, ERC721URIStorage._setTokenURI, ERC721._exists, bind_eq_ok, map_eq_ok,
    State.labelled, State.relabel, and_assoc]

theorem afterCallback_of_not_mint (hm : ∀ to_ uri, m.call ≠ .mint to_ uri) :
    afterCallback m s = .ok t ↔ t = s := by
  rcases m with ⟨sender, call⟩
  cases call with
  | mint to_ uri => exact absurd rfl (hm to_ uri)
  | transferFrom from_ to_ tokenId => exact pure_eq_ok
  | safeTransferFrom from_ to_ tokenId => exact pure_eq_ok
  | approve to_ tokenId => exact pure_eq_ok
  | setApprovalForAll operator approved => exact pure_eq_ok

theorem atomic_eq_some :
    token.atomic s m = some t ↔ Enters s m ∧ afterCallback m (entered s m) = .ok t := by
  change ((beforeCallback m s).toOption.bind fun u => (afterCallback m u).toOption) = some t ↔ _
  simp only [Option.bind_eq_some_iff, toOption_eq_some, beforeCallback_eq_ok]
  constructor
  · rintro ⟨u, ⟨he, rfl⟩, ht⟩
    exact ⟨he, ht⟩
  · rintro ⟨he, ht⟩
    exact ⟨_, ⟨he, rfl⟩, ht⟩

theorem entered_exists (he : Enters s m) {tokenId : Uint256} (h : ERC721._exists tokenId s) :
    ERC721._exists tokenId (entered s m) := by
  have hupdate : ∀ {id : Uint256} {to_ : Address}, to_ ≠ 0 →
      Function.update s.owners id to_ tokenId ≠ 0 := by
    intro id to_ hto
    by_cases hid : tokenId = id
    · rwa [hid, Function.update_self]
    · rwa [Function.update_of_ne hid]
  rcases m with ⟨sender, call⟩
  cases call with
  | mint to_ uri => exact hupdate he.2.1
  | transferFrom from_ to_ id => exact hupdate he.2.2
  | safeTransferFrom from_ to_ id => exact hupdate he.2.2
  | approve to_ id => exact h
  | setApprovalForAll operator approved => exact h

-- Before its callback no call touches the two slots of mint or the admin.
theorem entered_nextTokenId : (entered s m).nextTokenId = s.nextTokenId := by
  rcases m with ⟨sender, call⟩
  cases call <;> rfl

theorem entered_tokenURIs : (entered s m).tokenURIs = s.tokenURIs := by
  rcases m with ⟨sender, call⟩
  cases call <;> rfl

theorem entered_admin : (entered s m).admin = s.admin := by
  rcases m with ⟨sender, call⟩
  cases call <;> rfl

theorem enters_relabel (hm : ∀ to_ uri, m.call ≠ .mint to_ uri) (uris : Uint256 → String)
    (next : Uint256) : Enters (s.relabel uris next) m ↔ Enters s m := by
  rcases m with ⟨sender, call⟩
  cases call with
  | mint to_ uri => exact absurd rfl (hm to_ uri)
  | transferFrom from_ to_ tokenId => exact Iff.rfl
  | safeTransferFrom from_ to_ tokenId => exact Iff.rfl
  | approve to_ tokenId => exact Iff.rfl
  | setApprovalForAll operator approved => exact Iff.rfl

theorem entered_relabel (hm : ∀ to_ uri, m.call ≠ .mint to_ uri) (uris : Uint256 → String)
    (next : Uint256) :
    entered (s.relabel uris next) m = (entered s m).relabel uris next := by
  rcases m with ⟨sender, call⟩
  cases call with
  | mint to_ uri => exact absurd rfl (hm to_ uri)
  | transferFrom from_ to_ tokenId => rfl
  | safeTransferFrom from_ to_ tokenId => rfl
  | approve to_ tokenId => rfl
  | setApprovalForAll operator approved => rfl

end Guards

-- While the receiver of a mint has control, the id that the mint will label
-- and count exists already.
def Minting (m : Msg) (s : State) : Prop :=
  ∀ to_ uri, m.call = .mint to_ uri → ERC721._exists s.nextTokenId s

section Window

variable {s t : State} {m d : Msg}

-- So no second mint goes through: it would create the same id.
theorem not_mint_of_exists (h : ERC721._exists s.nextTokenId s) (hd : Enters s d)
    (to_ : Address) (uri : String) : d.call ≠ .mint to_ uri := by
  rcases d with ⟨sender, call⟩
  rintro rfl
  exact h hd.2.2

theorem minting_enter (ht : token.enter s m = some t) : Minting m t := by
  obtain ⟨he, rfl⟩ := beforeCallback_eq_ok.mp (toOption_eq_some.mp ht)
  rcases m with ⟨sender, call⟩
  rintro to_ uri rfl
  show Function.update s.owners s.nextTokenId to_ s.nextTokenId ≠ 0
  rw [Function.update_self]
  exact he.2.1

theorem atomic_of_exists (h : ERC721._exists s.nextTokenId s) (hd : token.atomic s d = some t) :
    Enters s d ∧ (∀ to_ uri, d.call ≠ .mint to_ uri) ∧ t = entered s d := by
  obtain ⟨he, ht⟩ := atomic_eq_some.mp hd
  have hmint := not_mint_of_exists h he
  exact ⟨he, hmint, (afterCallback_of_not_mint hmint).mp ht⟩

theorem minting_atomic (h : Minting m s) (hd : token.atomic s d = some t) : Minting m t := by
  intro to_ uri hm
  have hexists := h to_ uri hm
  obtain ⟨he, -, rfl⟩ := atomic_of_exists hexists hd
  rw [entered_nextTokenId]
  exact entered_exists he hexists

theorem minting_leave {v : State} (h : Minting m s) (hd : token.atomic s d = some t)
    (hv : token.leave t m = some v) :
    ∃ u, token.leave s m = some u ∧ token.atomic u d = some v := by
  by_cases hm : ∃ to_ uri, m.call = .mint to_ uri
  · obtain ⟨to_, uri, hcall⟩ := hm
    have hexists := h to_ uri hcall
    obtain ⟨he, hmint, rfl⟩ := atomic_of_exists hexists hd
    obtain ⟨sender, call⟩ := m
    obtain rfl : call = .mint to_ uri := hcall
    obtain ⟨⟨-, hlt⟩, rfl⟩ := afterCallback_mint_eq_ok.mp (toOption_eq_some.mp hv)
    rw [entered_nextTokenId] at hlt
    refine ⟨s.labelled uri, ?_, ?_⟩
    · exact toOption_eq_some.mpr (afterCallback_mint_eq_ok.mpr ⟨⟨hexists, hlt⟩, rfl⟩)
    · have hleave : (entered s d).labelled uri = entered (s.labelled uri) d := by
        rw [State.labelled, State.labelled, entered_nextTokenId, entered_tokenURIs,
          entered_relabel hmint]
      apply atomic_eq_some.mpr
      constructor
      · exact (enters_relabel hmint _ _).mpr he
      · exact (afterCallback_of_not_mint hmint).mpr hleave
  · have hcall : ∀ to_ uri, m.call ≠ .mint to_ uri := fun to_ uri hc => hm ⟨to_, uri, hc⟩
    obtain rfl := (afterCallback_of_not_mint hcall).mp (toOption_eq_some.mp hv)
    exact ⟨s, toOption_eq_some.mpr ((afterCallback_of_not_mint hcall).mpr rfl), hd⟩

end Window

def serial : token.Serial where
  Open := Minting
  opens := minting_enter
  stays := minting_atomic
  shifts := minting_leave

def Msg.uri? (m : Msg) : Option String :=
  match m.call with
  | .mint _ uri => some uri
  | _ => none

-- Ids are handed out from zero on, each with the URI of its own mint.
structure Minted (deployer : Address) (uris : List String) (s : State) : Prop where
  count : s.nextTokenId.toNat = uris.length
  exists_iff : ∀ tokenId, ERC721._exists tokenId s ↔ tokenId.toNat < uris.length
  tokenURI : ∀ tokenId, s.tokenURIs tokenId = (uris[tokenId.toNat]?).getD ""
  admin : s.admin = deployer

section Integrity

variable {s t : State} {m : Msg} {deployer : Address} {uris : List String}

theorem minted_deploy : Minted deployer [] (SpiritsToken.deploy deployer) where
  count := rfl
  exists_iff tokenId := by simp [SpiritsToken.deploy]
  tokenURI tokenId := rfl
  admin := rfl

theorem entered_exists_iff (hm : ∀ to_ uri, m.call ≠ .mint to_ uri) (he : Enters s m)
    (tokenId : Uint256) :
    ERC721._exists tokenId (entered s m) ↔ ERC721._exists tokenId s := by
  refine ⟨fun h => ?_, entered_exists he⟩
  have hupdate : ∀ {id : Uint256} {to_ : Address}, s.owners id ≠ 0 →
      Function.update s.owners id to_ tokenId ≠ 0 → s.owners tokenId ≠ 0 := by
    intro id to_ hid h
    by_cases hn : tokenId = id
    · rwa [hn]
    · rwa [Function.update_of_ne hn] at h
  rcases m with ⟨sender, call⟩
  cases call with
  | mint to_ uri => exact absurd rfl (hm to_ uri)
  | transferFrom from_ to_ id => exact hupdate he.1.1 h
  | safeTransferFrom from_ to_ id => exact hupdate he.1.1 h
  | approve to_ id => exact h
  | setApprovalForAll operator approved => exact h

theorem minted_mint {sender to_ : Address} {uri : String} (hs : Minted deployer uris s)
    (ht : token.atomic s ⟨sender, .mint to_ uri⟩ = some t) :
    Minted deployer (uris ++ [uri]) t := by
  obtain ⟨he, hafter⟩ := atomic_eq_some.mp ht
  obtain ⟨⟨-, hlt⟩, rfl⟩ := afterCallback_mint_eq_ok.mp hafter
  have hlt : s.nextTokenId.toNat + 1 < 2 ^ 256 := hlt
  have hcount := hs.count
  have hnext : ∀ tokenId : Uint256, tokenId = s.nextTokenId ↔ tokenId.toNat = uris.length := by
    intro tokenId
    rw [← hcount]
    exact BitVec.toNat_inj.symm
  refine ⟨?_, fun tokenId => ?_, fun tokenId => ?_, hs.admin⟩
  · show (s.nextTokenId + 1).toNat = (uris ++ [uri]).length
    rw [BitVec.toNat_add, List.length_append, ← hcount]
    exact Nat.mod_eq_of_lt hlt
  · show Function.update s.owners s.nextTokenId to_ tokenId ≠ 0 ↔ _
    rw [List.length_append]
    by_cases hid : tokenId = s.nextTokenId
    · have hlen := (hnext tokenId).mp hid
      rw [hid, Function.update_self, ← hid]
      simp only [List.length_singleton]
      exact ⟨fun _ => by omega, fun _ => he.2.1⟩
    · have hlen := mt (hnext tokenId).mpr hid
      have hex := hs.exists_iff tokenId
      rw [Function.update_of_ne hid]
      simp only [List.length_singleton]
      exact hex.trans ⟨fun h => by omega, fun h => by omega⟩
  · show Function.update s.tokenURIs s.nextTokenId uri tokenId = _
    by_cases hid : tokenId = s.nextTokenId
    · rw [hid, Function.update_self, hcount, List.getElem?_concat_length]
      rfl
    · have hlen := mt (hnext tokenId).mpr hid
      rw [Function.update_of_ne hid, hs.tokenURI tokenId]
      by_cases hlt : tokenId.toNat < uris.length
      · rw [List.getElem?_append_left hlt]
      · rw [List.getElem?_eq_none (by omega), List.getElem?_eq_none]
        rw [List.length_append, List.length_singleton]
        omega

theorem minted_atomic (hs : Minted deployer uris s) (ht : token.atomic s m = some t) :
    Minted deployer (uris ++ m.uri?.toList) t := by
  by_cases hm : ∃ to_ uri, m.call = .mint to_ uri
  · obtain ⟨to_, uri, hcall⟩ := hm
    obtain ⟨sender, call⟩ := m
    obtain rfl : call = .mint to_ uri := hcall
    exact minted_mint hs ht
  · have hcall : ∀ to_ uri, m.call ≠ .mint to_ uri := fun to_ uri hc => hm ⟨to_, uri, hc⟩
    have huri : m.uri? = none := by
      unfold Msg.uri?
      split
      · exact absurd ‹_› (hcall _ _)
      · rfl
    obtain ⟨he, hafter⟩ := atomic_eq_some.mp ht
    obtain rfl := (afterCallback_of_not_mint hcall).mp hafter
    rw [huri, Option.toList_none, List.append_nil]
    refine ⟨?_, fun tokenId => ?_, ?_, ?_⟩
    · rw [entered_nextTokenId, hs.count]
    · rw [entered_exists_iff hcall he, hs.exists_iff]
    · rw [entered_tokenURIs]
      exact hs.tokenURI
    · rw [entered_admin, hs.admin]

theorem minted_runAll {ms : List Msg} (hs : Minted deployer uris s)
    (ht : runAll token.atomic s ms = some t) :
    Minted deployer (uris ++ ms.filterMap Msg.uri?) t := by
  induction ms generalizing s uris with
  | nil =>
      obtain rfl : s = t := Option.some.inj ht
      rwa [List.filterMap_nil, List.append_nil]
  | cons m ms ih =>
      obtain ⟨u, hu, hrun⟩ := runAll_cons_eq_some.mp ht
      have hrest := ih (minted_atomic hs hu) hrun
      rw [List.append_assoc] at hrest
      cases h : m.uri? with
      | none => simpa [List.filterMap_cons, h] using hrest
      | some uri => simpa [List.filterMap_cons, h] using hrest

end Integrity

-- Whatever the receivers do, a tree of calls from deployment ends where the
-- calls that came through end one after the other, each before those nested in
-- it, and every id carries the URI of the mint that made it.
theorem calls_serialise (deployer : Address) (calls : Calls Msg) :
    let survivors := (token.exec (SpiritsToken.deploy deployer) calls).2
    let final := run (SpiritsToken.deploy deployer) calls
    survivors = cameThrough (SpiritsToken.deploy deployer) calls ∧
      runAll atomicStep (SpiritsToken.deploy deployer) survivors = some final ∧
      survivors.Sublist calls.preorder ∧
      Minted deployer (survivors.filterMap Msg.uri?) final := by
  intro survivors final
  have hrun := exec_serial serial (SpiritsToken.deploy deployer) calls
  have hfinal : (token.exec (SpiritsToken.deploy deployer) calls).1 = final :=
    (run_eq_exec _ calls).symm
  have hstep : token.atomic = atomicStep := funext fun s => funext fun m => atomic_eq_atomicStep s m
  rw [hfinal] at hrun
  refine ⟨exec_eq_cameThrough _ calls, ?_, exec_sublist token _ calls, ?_⟩
  · rw [← hstep]
    exact hrun
  · exact minted_runAll minted_deploy hrun

end WageFix.Spirits
