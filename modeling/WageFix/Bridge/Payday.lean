import WageFix.Bridge.Conservation
import WageFix.Listener.Survival
import WageFix.STO.Authority

namespace WageFix.Bridge

open Json Wire Mempool Transition Consumer

def total (issues : List Issue) : ℕ := wageSum (issues.map wage)

-- What the bridges still owe: the transactions that wait, the messages that the
-- consumer has not read, the open call of the listener and what it has not met.
def unread (limits : Python.Limits) (w : World) : List Issue :=
  w.consumer.queue.filterMap (decodePython limits)

def unserved (log : List Value) (l : Listener.World) : List Issue :=
  (l.inflight.bind (issueAt log)).toList ++ (log.drop l.position).filterMap decodeRust

def due (limits : Python.Limits) (log : List Value) (w : World) : List Issue :=
  w.node.payloads ++ (unread limits w ++ unserved log w.listener)

-- A move that nothing goes wrong with: no call fails, nothing crashes, and the
-- node offers no less for a transaction than the consumer does.
def Quiet : Move → Prop
  | .listener .callErr _ _ => False
  | .listener .crash _ _ => False
  | .listener .callOk _ gasPrice => 10 * 10 ^ 9 ≤ gasPrice
  | _ => True

def Payable (s : State) (issues : List Issue) : Prop :=
  ∀ issue ∈ issues, issue.to_ ≠ 0 ∧ s.isWhitelisted issue.to_ = true

-- The token as the wallet needs it for what is still to come.
structure Solvent (s : State) (owed : List Issue) (chain : State) : Prop where
  sound : Sound chain
  owner : chain.owner = s.owner
  whitelist : chain.isWhitelisted = s.isWhitelisted
  payable : Payable s owed
  room : chain.totalSupply.toNat + total owed < 2 ^ 256

section Token

variable {s chain : State} {owed owed' : List Issue} {issue : Issue}

theorem total_append (paid owed : List Issue) : total (paid ++ owed) = total paid + total owed := by
  simp [total, wageSum]

theorem total_perm (h : owed.Perm owed') : total owed = total owed' :=
  ((h.map wage).map _).sum_eq

theorem Solvent.of_perm (h : Solvent s owed chain) (paid : List Issue)
    (hperm : owed.Perm (paid ++ owed')) : Solvent s owed' chain where
  sound := h.sound
  owner := h.owner
  whitelist := h.whitelist
  payable issue hissue := h.payable issue (hperm.mem_iff.mpr (List.mem_append_right _ hissue))
  room := by
    have hroom := h.room
    rw [total_perm hperm, total_append] at hroom
    omega

-- The token accepts what the wallet owes next.
theorem Solvent.pay (h : Solvent s (issue :: owed) chain) :
    ¬ Refused s.owner chain issue ∧ Solvent s owed (execute s.owner chain issue) := by
  obtain ⟨hne, hwhitelisted⟩ := h.payable issue List.mem_cons_self
  have hroom := h.room
  have htotal : total (issue :: owed) = issue.amount.toNat + total owed := rfl
  rw [htotal] at hroom
  have hmint : Mintable chain issue.to_ issue.amount := ⟨hne, by omega⟩
  have hlisted : chain.isWhitelisted issue.to_ = true := by rw [h.whitelist, hwhitelisted]
  have hstep := step_of_accepts (s := chain) (m := ⟨s.owner, .issueTokens issue.to_ issue.amount⟩)
    ⟨h.owner, hlisted, hmint⟩
  have hsupply : (chain.minted issue.to_ issue.amount).totalSupply.toNat =
      chain.totalSupply.toNat + issue.amount.toNat := BitVec.toNat_add_of_lt hmint.2
  refine ⟨by simp [Refused, hstep], ?_⟩
  rw [execute, attempt_of_some hstep]
  refine ⟨h.sound.step hstep, h.owner, h.whitelist, ?_, ?_⟩
  · exact fun other hother => h.payable other (List.mem_cons_of_mem _ hother)
  · show (chain.minted issue.to_ issue.amount).totalSupply.toNat + total owed < 2 ^ 256
    omega

-- Nobody but the wallet can stand in the way.
theorem Solvent.transact (h : Solvent s owed chain) {m : Msg} (hm : m.sender ≠ s.owner) :
    Solvent s owed (attempt WageFix.step chain m) ∧
      ∀ issue, mints issue (attempt WageFix.step chain m) = mints issue chain := by
  cases hstep : WageFix.step chain m with
  | none =>
      rw [attempt_of_none hstep]
      exact ⟨h, fun _ => rfl⟩
  | some t =>
      rw [attempt_of_some hstep]
      have hsender : m.sender ≠ chain.owner := by rwa [h.owner]
      have howner : t.owner = chain.owner := by
        by_contra hne
        exact hsender (owner_of_change hstep hne)
      have hwhitelist : t.isWhitelisted = chain.isWhitelisted := by
        funext a
        by_contra hne
        exact hsender (whitelist_of_change hstep hne).1
      have hsupply : t.totalSupply ≤ chain.totalSupply := by
        apply BitVec.not_lt.mp
        exact fun hlt => hsender (owner_of_issue h.sound hstep hlt)
      have hsupply : t.totalSupply.toNat ≤ chain.totalSupply.toNat := hsupply
      have hroom := h.room
      refine ⟨⟨h.sound.step hstep, howner.trans h.owner, hwhitelist.trans h.whitelist, h.payable,
        by omega⟩, fun issue => ?_⟩
      have hmints : ¬ Msg.Mints m issue := by
        intro hmints
        obtain ⟨ha, -⟩ := step_eq_some_iff.mp hstep
        obtain ⟨sender, call⟩ := m
        obtain rfl : call = .issueTokens issue.to_ issue.amount := hmints
        exact hsender ha.1.symm
      rw [mints_step hstep, if_neg hmints, Nat.add_zero]

end Token

section Pool

variable {s : State} {rest : List Issue} {n m : Node State Issue}

-- A block takes what it holds off what is owed, and mints it.
theorem mineBlock_pays {count : ℕ} (h : n.Consecutive)
    (hsolvent : Solvent s (n.payloads ++ rest) n.chain)
    (hm : n.mineBlock (execute s.owner) count = some m) :
    (∀ tx ∈ m.pending, tx ∈ n.pending) ∧ m.Consecutive ∧
      Solvent s (m.payloads ++ rest) m.chain ∧
      ∀ issue, standing issue m = standing issue n := by
  induction count generalizing n with
  | zero =>
      obtain rfl : n = m := Option.some.inj hm
      exact ⟨fun tx htx => htx, h, hsolvent, fun _ => rfl⟩
  | succ count ih =>
      obtain ⟨k, hk, hrest⟩ := Option.bind_eq_some_iff.mp hm
      obtain ⟨tx, hheld, hk', hconsecutive⟩ := Node.includeNext_eq_some h hk
      have hpool := payloads_perm h hheld
      have howed : (n.payloads ++ rest).Perm
          (tx.payload :: ((n.without n.mined).map (·.payload) ++ rest)) :=
        hpool.append_right rest
      obtain ⟨haccepted, hpaid⟩ := (hsolvent.of_perm [] howed).pay
      have hsolvent : Solvent s (k.payloads ++ rest) k.chain := by
        rw [hk']
        exact hpaid
      obtain ⟨hpending, hlast, hsolvent, hsame⟩ := ih hconsecutive hsolvent hrest
      refine ⟨fun tx htx => ?_, hlast, hsolvent, fun issue => ?_⟩
      · have hmem := hpending tx htx
        rw [hk'] at hmem
        exact (List.mem_filter.mp hmem).1
      · obtain ⟨-, tx', hheld', hone⟩ := standing_includeNext issue h hk
        obtain rfl : tx = tx' := Option.some.inj (hheld.symm.trans hheld')
        rw [if_neg (fun hr => haccepted hr.2), Nat.add_zero] at hone
        exact (hsame issue).trans hone

end Pool

structure OnCourse (limits : Python.Limits) (log : List Value) (s : State) (w : World) : Prop where
  consecutive : w.node.Consecutive
  priced : ∀ tx ∈ w.node.pending, 10 * 10 ^ 9 ≤ tx.gasPrice
  solvent : Solvent s (due limits log w) w.node.chain

-- What the token has minted of an issue and what is still owed of it.
def minting (limits : Python.Limits) (log : List Value) (issue : Issue) (w : World) : ℕ :=
  mints issue w.node.chain + (due limits log w).count issue

section Steps

variable {limits : Python.Limits} {log : List Value} {s : State} {w w' : World}

theorem getElem?_records {offset : ℕ} {payload : Option Listener.Payload}
    (h : (records log)[offset]? = some payload) :
    ∃ message, log[offset]? = some message ∧ payload = some (some message) := by
  rw [records, List.getElem?_map] at h
  obtain ⟨message, hmessage, hpayload⟩ := Option.map_eq_some_iff.mp h
  exact ⟨message, hmessage, hpayload.symm⟩

theorem drop_filterMap {offset : ℕ} {message : Value} (h : log[offset]? = some message) :
    (log.drop offset).filterMap decodeRust =
      (decodeRust message).toList ++ (log.drop (offset + 1)).filterMap decodeRust := by
  obtain ⟨hlt, hget⟩ := List.getElem?_eq_some_iff.mp h
  rw [List.drop_eq_getElem_cons hlt, hget]
  exact Reader.filterMap_cons_toList message _

-- An event moves from the rest of the log into the open call.
theorem unserved_deliver {l l' : Listener.World}
    (h : Listener.deliver (records log) l = some l') : unserved log l' = unserved log l := by
  obtain ⟨payload, running, inflight, hpayload, hidle, rfl, hinflight⟩ :=
    Listener.deliver_eq_some h
  obtain ⟨message, hmessage, rfl⟩ := getElem?_records hpayload
  have hopen : (inflight.bind (issueAt log)).toList = (decodeRust message).toList := by
    have hreacts := Listener.reacts (.message (some (some message)))
    generalize hreact : Listener.react (.message (some (some message))) = reaction at hreacts
    have hnone : decodeRust message = none → inflight = none →
        (inflight.bind (issueAt log)).toList = (decodeRust message).toList := by
      intro hdecode hclosed
      rw [hdecode, hclosed]
      rfl
    rw [hreact] at hinflight
    cases hreacts with
    | leave _ hi => exact hnone hi hinflight
    | panic _ hi => exact hnone hi hinflight
    | pass _ hi => exact hnone hi hinflight
    | call issue _ hi =>
        have hdecode : decodeRust message = some issue := hi
        have hissue : issueAt log l.position = some issue := by
          simp [issueAt, hmessage, hreact]
        rw [hinflight, hdecode, Option.bind_some, hissue]
  show (inflight.bind (issueAt log)).toList ++ (log.drop (l.position + 1)).filterMap decodeRust = _
  rw [hopen, ← drop_filterMap hmessage, unserved, hidle]
  rfl

theorem OnCourse.iterate (h : OnCourse limits log s w) {consumer : Consumer.World}
    (hstep : iterate limits w.consumer = some consumer) :
    OnCourse limits log s { w with consumer } ∧
      (consumer.running = true → w.consumer.running = true ∧
        due limits log { w with consumer } = due limits log w ∧
        consumer.node.chain = w.node.chain) := by
  obtain ⟨hrunning, message, queue, hqueue, hbody⟩ := iterate_eq_some hstep
  have hunread : unread limits w = (decodePython limits message).toList ++
      queue.filterMap (decodePython limits) := by
    rw [unread, hqueue]
    exact Reader.filterMap_cons_toList message queue
  rcases hbody with ⟨node, hnode, rfl⟩ | ⟨-, rfl⟩
  · obtain ⟨other, hother, hsend⟩ := body_eq_some.mp hnode
    rcases Node.send_eq_some h.consecutive hsend with ⟨hfree, rfl⟩ | ⟨old, hheld, hcheaper, -⟩
    · have hnonce : w.node.mined = w.node.nextNonce := (nonce_of_free h.consecutive hfree).symm
      have hdue : due limits log
          { w with consumer := ⟨w.node.enqueue (transaction w.node.mined other), queue, true⟩ } =
            due limits log w := by
        show (w.node.pending ++ [transaction w.node.mined other]).map (·.payload) ++
          (queue.filterMap (decodePython limits) ++ unserved log w.listener) = _
        rw [due, hunread, hother]
        simp [Node.payloads, transaction]
      refine ⟨⟨h.consecutive.enqueue hnonce, ?_, ?_⟩, fun _ => ⟨hrunning, hdue, rfl⟩⟩
      · intro tx htx
        rcases List.mem_append.mp htx with htx | htx
        · exact h.priced tx htx
        · obtain rfl := List.mem_singleton.mp htx
          exact Nat.le_refl _
      · have hsolvent := h.solvent
        rw [← hdue] at hsolvent
        exact hsolvent
    · -- the pool holds nothing that pays less than the consumer
      have hprice := h.priced old (Node.held_eq_some hheld).1
      exact absurd hcheaper (Nat.not_lt.mpr hprice)
  · refine ⟨⟨h.consecutive, h.priced, ?_⟩, fun hstopped => absurd hstopped (by simp)⟩
    apply h.solvent.of_perm (decodePython limits message).toList
    rw [due, hunread, List.append_assoc]
    exact List.perm_append_comm_assoc _ _ _

theorem OnCourse.submit (h : OnCourse limits log s w) {gas gasPrice : ℕ}
    (hprice : 10 * 10 ^ 9 ≤ gasPrice) (hstep : submit log gas gasPrice w = some w') :
    OnCourse limits log s w' ∧ w'.consumer.running = w.consumer.running ∧
      (due limits log w).Perm (due limits log w') ∧ w'.node.chain = w.node.chain := by
  obtain ⟨offset, other, node, hoffset, hother, hsend, rfl⟩ := submit_eq_some hstep
  obtain rfl := Option.some.inj ((Node.send_next h.consecutive rfl).symm.trans hsend)
  generalize hw' : ({ w.withNode (w.node.enqueue ⟨w.node.nextNonce, gas, gasPrice, other⟩) with
    listener := { w.listener with
      inflight := none
      accepted := w.listener.accepted ++ [offset] } } : World) = w'
  have hdue : (due limits log w).Perm (due limits log w') := by
    have hafter : due limits log w' = (w.node.payloads ++ [other]) ++
        (unread limits w ++ (log.drop w.listener.position).filterMap decodeRust) := by
      rw [← hw']
      have hpool : (w.node.enqueue ⟨w.node.nextNonce, gas, gasPrice, other⟩).payloads =
          w.node.payloads ++ [other] := List.map_append
      show (w.node.enqueue _).payloads ++ _ = _
      rw [hpool]
      rfl
    rw [hafter, due, unserved, hoffset, Option.bind_some, hother, List.append_assoc]
    exact (List.perm_append_comm_assoc _ _ _).append_left _
  have hchain : w'.node.chain = w.node.chain := by rw [← hw']; rfl
  refine ⟨⟨?_, ?_, ?_⟩, by rw [← hw']; rfl, hdue, hchain⟩
  · rw [← hw']
    exact h.consecutive.enqueue rfl
  · rw [← hw']
    intro tx htx
    rcases List.mem_append.mp htx with htx | htx
    · exact h.priced tx htx
    · obtain rfl := List.mem_singleton.mp htx
      exact hprice
  · rw [hchain]
    exact h.solvent.of_perm [] hdue

-- One move that nothing goes wrong with pays what it mints, and owes no more
-- and no less for it, unless the consumer stops.
theorem OnCourse.step {move : Move} (h : OnCourse limits log s w) (hquiet : Quiet move)
    (hstep : step limits s.owner log w move = some w') :
    OnCourse limits log s w' ∧ (w'.consumer.running = true → w.consumer.running = true ∧
      ∀ issue, minting limits log issue w' = minting limits log issue w) := by
  rcases step_cases hstep with
    ⟨rfl, consumer, hconsumer, rfl⟩ | ⟨count, node, rfl, hnode, rfl⟩ |
    ⟨gas, gasPrice, rfl, hsubmit⟩ | ⟨other, gas, gasPrice, listener, rfl, hother, hlistener, rfl⟩ |
    ⟨m, rfl, hm, rfl⟩
  · obtain ⟨hcourse, hsame⟩ := h.iterate hconsumer
    refine ⟨hcourse, fun hrunning => ?_⟩
    obtain ⟨hbefore, hdue, hchain⟩ := hsame hrunning
    refine ⟨hbefore, fun issue => ?_⟩
    rw [minting, hdue]
    show mints issue consumer.node.chain + _ = _
    rw [hchain]
    rfl
  · obtain ⟨hpending, hconsecutive, hsolvent, hsame⟩ :=
      mineBlock_pays h.consecutive h.solvent hnode
    refine ⟨⟨hconsecutive, fun tx htx => h.priced tx (hpending tx htx), hsolvent⟩,
      fun hrunning => ⟨hrunning, fun issue => ?_⟩⟩
    have hstanding := hsame issue
    simp only [standing] at hstanding
    show mints issue node.chain +
        (node.payloads ++ (unread limits w ++ unserved log w.listener)).count issue =
      mints issue w.node.chain +
        (w.node.payloads ++ (unread limits w ++ unserved log w.listener)).count issue
    simp only [List.count_append]
    omega
  · obtain ⟨hcourse, hrunning, hdue, hchain⟩ := h.submit hquiet hsubmit
    refine ⟨hcourse, fun hafter => ⟨hrunning.symm.trans hafter, fun issue => ?_⟩⟩
    rw [minting, minting, hchain, hdue.count_eq issue]
  · have hsame : unserved log listener = unserved log w.listener := by
      cases other with
      | deliver => exact unserved_deliver hlistener
      | callOk => exact absurd rfl hother
      | callErr => exact absurd hquiet id
      | autoCommit =>
          obtain rfl := Option.some.inj hlistener
          rfl
      | crash => exact absurd hquiet id
    have hdue : due limits log { w with listener } = due limits log w := by
      show w.node.payloads ++ (unread limits w ++ unserved log listener) = _
      rw [hsame]
      rfl
    refine ⟨⟨h.consecutive, h.priced, ?_⟩, fun hrunning => ⟨hrunning, fun issue => ?_⟩⟩
    · rw [hdue]
      exact h.solvent
    · rw [minting, hdue]
      rfl
  · obtain ⟨hsolvent, hmints⟩ := h.solvent.transact hm
    refine ⟨⟨h.consecutive, h.priced, hsolvent⟩, fun hrunning => ⟨hrunning, fun issue => ?_⟩⟩
    show mints issue (attempt WageFix.step w.node.chain m) + _ = _
    rw [hmints]
    rfl

theorem onCourse_run {moves : List Move} (h : OnCourse limits log s w)
    (hquiet : ∀ move ∈ moves, Quiet move)
    (hrun : runAll (Bridge.step limits s.owner log) w moves = some w') :
    OnCourse limits log s w' ∧ (w'.consumer.running = true →
      ∀ issue, minting limits log issue w' = minting limits log issue w) := by
  apply runAll_invariant_of_mem (I := fun u => OnCourse limits log s u ∧
    (u.consumer.running = true → ∀ issue, minting limits log issue u = minting limits log issue w))
    ?_ ⟨h, fun _ _ => rfl⟩ hquiet hrun
  rintro u move v hmove ⟨hu, hsame⟩ hstep
  obtain ⟨hv, hone⟩ := hu.step hmove hstep
  refine ⟨hv, fun hrunning issue => ?_⟩
  obtain ⟨hbefore, hmint⟩ := hone hrunning
  exact (hmint issue).trans (hsame hbefore issue)

end Steps

-- Nothing is left to be read, called, or put into a block.
structure World.Settled (log : List Value) (w : World) : Prop where
  pool : w.node.pending = []
  queue : w.consumer.queue = []
  running : w.consumer.running = true
  position : log.length ≤ w.listener.position
  idle : w.listener.inflight = none

theorem due_of_settled {limits : Python.Limits} {log : List Value} {w : World}
    (h : w.Settled log) : due limits log w = [] := by
  rw [due, unread, unserved, h.queue, h.idle, List.drop_eq_nil_of_le h.position, Node.payloads,
    h.pool]
  rfl

-- With both bridges at work and nothing going wrong, each pays every wage that
-- it was given, so one that both were given is paid twice, in whatever order
-- reads, calls, blocks and the transactions of others come.
theorem paid_by_each {limits : Python.Limits} {log : List Value} {s : State} (hs : Reachable s)
    {mined read first : ℕ} {moves : List Move} {w : World}
    (hpayable : Payable s ((log.drop read).filterMap (decodePython limits) ++
      (log.drop first).filterMap decodeRust))
    (hroom : s.totalSupply.toNat + total ((log.drop read).filterMap (decodePython limits) ++
      (log.drop first).filterMap decodeRust) < 2 ^ 256)
    (hquiet : ∀ move ∈ moves, Quiet move)
    (hrun : runAll (step limits s.owner log) (start s mined log read first) moves = some w)
    (hend : w.Settled log) (issue : Issue) :
    mints issue w.node.chain = mints issue s +
      ((log.drop read).filterMap (decodePython limits)).count issue +
      ((log.drop first).filterMap decodeRust).count issue := by
  have hstart : OnCourse limits log s (start s mined log read first) :=
    ⟨consecutive_start s mined log read first, fun tx htx => absurd htx List.not_mem_nil,
      hs.sound, rfl, rfl, hpayable, hroom⟩
  have hminting := (onCourse_run hstart hquiet hrun).2 hend.running issue
  rw [minting, due_of_settled hend] at hminting
  have hdue : due limits log (start s mined log read first) =
      (log.drop read).filterMap (decodePython limits) ++ (log.drop first).filterMap decodeRust := rfl
  rw [minting, hdue, List.count_append] at hminting
  rw [Nat.add_assoc]
  exact hminting

def bothAtWork : List Move :=
  [.listener .deliver 0 0, .listener .callOk 90000 (20 * 10 ^ 9), .consumer (.mine 1),
    .consumer .iterate, .transact ⟨2, .transfer 2 1⟩, .consumer (.mine 1), .consumer .iterate,
    .consumer (.mine 1), .listener .deliver 0 0, .listener .callOk 90000 (20 * 10 ^ 9),
    .listener .autoCommit 0 0, .consumer (.mine 1)]

theorem paid_by_each_twoWages :
    ∃ w, runAll (step ⟨1000, 4300⟩ investorState.owner twoWages)
      (start investorState 0 twoWages 0 0) bothAtWork = some w ∧
        mints ⟨2, 5⟩ w.node.chain = 4 := by
  obtain ⟨w, hw⟩ : ∃ w, runAll (step ⟨1000, 4300⟩ investorState.owner twoWages)
      (start investorState 0 twoWages 0 0) bothAtWork = some w :=
    Option.isSome_iff_exists.mp (by decide +kernel)
  have hend : (runAll (step ⟨1000, 4300⟩ investorState.owner twoWages)
      (start investorState 0 twoWages 0 0) bothAtWork).map (fun w =>
        (w.node.pending.length, w.consumer.queue.length, w.consumer.running, w.listener.position,
          w.listener.inflight)) = some (0, 0, true, 2, none) := by
    decide +kernel
  have hsettled : w.Settled twoWages := by
    rw [hw] at hend
    simp only [Option.map_some, Option.some.injEq, Prod.mk.injEq] at hend
    obtain ⟨hpool, hqueue, hrunning, hposition, hidle⟩ := hend
    exact ⟨List.eq_nil_of_length_eq_zero hpool, List.eq_nil_of_length_eq_zero hqueue, hrunning,
      Nat.le_of_eq hposition.symm, hidle⟩
  have hpayable : Payable investorState
      ((twoWages.drop 0).filterMap (decodePython ⟨1000, 4300⟩) ++
        (twoWages.drop 0).filterMap decodeRust) := by
    have hissues : (twoWages.drop 0).filterMap (decodePython ⟨1000, 4300⟩) ++
        (twoWages.drop 0).filterMap decodeRust = List.replicate 4 ⟨2, 5⟩ := by
      decide +kernel
    intro issue hissue
    rw [hissues] at hissue
    rw [List.eq_of_mem_replicate hissue]
    decide +kernel
  have hquiet : ∀ move ∈ bothAtWork, Quiet move := by
    simp [bothAtWork, Quiet]
  have hmints := paid_by_each (reachable_replay_deployed (by decide) _) hpayable
    (by decide +kernel) hquiet hw hsettled ⟨2, 5⟩
  refine ⟨w, hw, hmints.trans ?_⟩
  decide +kernel

end WageFix.Bridge
