import WageFix.Bridge
import WageFix.Consumer.Issuance
import WageFix.Listener.Accounting

namespace WageFix.Bridge

open Json Wire Mempool Transition Consumer

-- How often the token has logged the mint of an issue.
def mints (issue : Issue) (s : State) : ℕ := s.logs.count (.Transfer 0 issue.to_ issue.amount)

def Msg.Mints (m : Msg) (issue : Issue) : Prop := m.call = .issueTokens issue.to_ issue.amount

instance (m : Msg) (issue : Issue) : Decidable (Msg.Mints m issue) :=
  inferInstanceAs (Decidable (_ = _))

section Token

variable {s t : State} {issue other : Issue} {wallet : Address}

theorem mints_emit (s : State) (event : Event) : mints issue (s.emit event) =
    mints issue s + if event = .Transfer 0 issue.to_ issue.amount then 1 else 0 := by
  show (s.logs ++ [event]).count _ = _
  rw [List.count_append, List.count_singleton]
  simp [mints]

theorem mints_spent (owner spender : Address) (amount : Uint256) :
    mints issue (s.spent owner spender amount) = mints issue s := by
  unfold State.spent
  split_ifs
  · rfl
  · rw [State.approved, mints_emit, if_neg (by simp)]
    rfl

-- Only issueTokens logs a transfer from the zero address.
theorem mints_step {m : Msg} (h : WageFix.step s m = some t) :
    mints issue t = mints issue s + if Msg.Mints m issue then 1 else 0 := by
  obtain ⟨ha, rfl⟩ := step_eq_some_iff.mp h
  rcases m with ⟨sender, call⟩
  have moved {from_ to_ : Address} {amount : Uint256} {s : State} (hfrom : from_ ≠ 0) :
      mints issue (s.moved from_ to_ amount) = mints issue s := by
    rw [State.moved, mints_emit, if_neg (by simp [hfrom])]
    rfl
  have burned {account : Address} {amount : Uint256} {s : State} (haccount : account ≠ 0) :
      mints issue (s.burned account amount) = mints issue s := by
    rw [State.burned, mints_emit, if_neg (by simp [haccount])]
    rfl
  cases call with
  | issueTokens to_ amount =>
      show mints issue (s.minted to_ amount) = _
      rw [State.minted, mints_emit]
      simp only [Msg.Mints, Event.Transfer.injEq, Call.issueTokens.injEq, true_and]
      rfl
  | transfer to_ amount => exact moved ha.2.1
  | redeemTokens amount => exact burned ha.1
  | transferFrom from_ to_ amount => exact (moved ha.2.1).trans (mints_spent ..)
  | burn amount => exact burned ha.1
  | burnFrom account amount => exact (burned ha.2.1).trans (mints_spent ..)
  | whitelistInvestor investor => rfl
  | removeInvestor investor => rfl
  | _ => exact (mints_emit _ _).trans (by simp [Msg.Mints]; rfl)

def Refused (wallet : Address) (s : State) (issue : Issue) : Prop :=
  (WageFix.step s ⟨wallet, .issueTokens issue.to_ issue.amount⟩).isNone

instance : Decidable (Refused wallet s issue) := inferInstanceAs (Decidable (_ = _))

theorem mints_execute (issue other : Issue) (wallet : Address) (s : State) :
    mints issue (execute wallet s other) +
    (if other = issue ∧ Refused wallet s other then 1 else 0) =
      mints issue s + if other = issue then 1 else 0 := by
  have hmints : Msg.Mints ⟨wallet, .issueTokens other.to_ other.amount⟩ issue ↔ other = issue := by
    rcases other with ⟨to_, amount⟩
    rcases issue with ⟨to', amount'⟩
    simp [Msg.Mints]
  by_cases hrefused : Refused wallet s other
  · rw [execute, attempt_of_none (Option.isNone_iff_eq_none.mp hrefused)]
    simp [hrefused]
  · obtain ⟨t, ht⟩ := Option.ne_none_iff_exists'.mp (mt Option.isNone_iff_eq_none.mpr hrefused)
    rw [execute, attempt_of_some ht, mints_step ht]
    simp [hrefused, hmints]

end Token

-- Where an issue of the wallet can be: on the chain, or still in the pool.
def standing (issue : Issue) (n : Node State Issue) : ℕ :=
  mints issue n.chain + n.payloads.count issue

-- The transactions of a block that the token refuses.
def refusals (wallet : Address) (issue : Issue) : ℕ → Node State Issue → ℕ
  | 0, _ => 0
  | count + 1, n =>
      match n.held n.mined with
      | none => 0
      | some tx =>
          (if tx.payload = issue ∧ Refused wallet n.chain tx.payload then 1 else 0) +
            ((n.includeNext (execute wallet)).map (refusals wallet issue count)).getD 0

def ousted (issue : Issue) (n : Node State Issue) (nonce : ℕ) : ℕ :=
  ((n.held nonce).map fun old => if old.payload = issue then 1 else 0).getD 0

section Pool

variable (issue : Issue) {wallet : Address} {n m : Node State Issue} {tx : Tx Issue}

theorem payloads_perm (h : n.Consecutive) {nonce : ℕ} (hheld : n.held nonce = some tx) :
    n.payloads.Perm (tx.payload :: (n.without nonce).map (·.payload)) :=
  (h.perm_without hheld).map _

theorem standing_includeNext (h : n.Consecutive) (hm : n.includeNext (execute wallet) = some m) :
    m.Consecutive ∧ ∃ tx, n.held n.mined = some tx ∧
      standing issue m +
          (if tx.payload = issue ∧ Refused wallet n.chain tx.payload then 1 else 0) =
        standing issue n := by
  obtain ⟨tx, hheld, rfl, hconsecutive⟩ := Node.includeNext_eq_some h hm
  refine ⟨hconsecutive, tx, hheld, ?_⟩
  have hpool := (payloads_perm h hheld).count_eq issue
  rw [List.count_cons] at hpool
  have hchain := mints_execute issue tx.payload wallet n.chain
  simp only [standing, beq_iff_eq] at hpool ⊢
  show mints issue (execute wallet n.chain tx.payload) +
    ((n.without n.mined).map (·.payload)).count issue + _ = _
  omega

theorem standing_mineBlock {count : ℕ} (h : n.Consecutive)
    (hm : n.mineBlock (execute wallet) count = some m) :
    m.Consecutive ∧ standing issue m + refusals wallet issue count n = standing issue n := by
  induction count generalizing n with
  | zero =>
      obtain rfl : n = m := Option.some.inj hm
      exact ⟨h, rfl⟩
  | succ count ih =>
      obtain ⟨k, hk, hrest⟩ := Option.bind_eq_some_iff.mp hm
      obtain ⟨hconsecutive, tx, hheld, hone⟩ := standing_includeNext issue h hk
      obtain ⟨hlast, hcount⟩ := ih hconsecutive hrest
      refine ⟨hlast, ?_⟩
      simp only [refusals, hheld, hk, Option.map_some, Option.getD_some]
      omega

-- A consumer's nonce is free only in an empty pool, where it is the next one.
theorem nonce_of_free (h : n.Consecutive) (hfree : n.held n.mined = none) :
    n.nextNonce = n.mined := by
  by_cases hpending : n.pending = []
  · rw [Node.nextNonce, hpending]
    rfl
  · obtain ⟨tx, htx⟩ := Node.held_first h hpending
    exact absurd (hfree.symm.trans htx) (by simp)

theorem standing_enqueue (n : Node State Issue) (tx : Tx Issue) :
    standing issue (n.enqueue tx) = standing issue n + if tx.payload = issue then 1 else 0 := by
  show mints issue n.chain + ((n.pending ++ [tx]).map (·.payload)).count issue = _
  rw [List.map_append, List.count_append, ← Nat.add_assoc]
  simp [standing, Node.payloads, List.count_singleton]

theorem standing_send (h : n.Consecutive)
    (hnonce : tx.nonce = n.nextNonce ∨ tx.nonce = n.mined) (hsend : n.send tx = some m) :
    m.Consecutive ∧ standing issue m + ousted issue n tx.nonce =
      standing issue n + if tx.payload = issue then 1 else 0 := by
  rcases Node.send_eq_some h hsend with ⟨hheld, rfl⟩ | ⟨old, hheld, -, rfl, hconsecutive⟩
  · have hnext : tx.nonce = n.nextNonce := by
      rcases hnonce with hnext | hmined
      · exact hnext
      · rw [hmined] at hheld
        rw [hmined, nonce_of_free h hheld]
    refine ⟨h.enqueue hnext, ?_⟩
    simp only [ousted, hheld, Option.map_none, Option.getD_none]
    exact standing_enqueue issue n tx
  · refine ⟨hconsecutive, ?_⟩
    have hpool := (payloads_perm h hheld).count_eq issue
    rw [List.count_cons] at hpool
    simp only [ousted, hheld, Option.map_some, Option.getD_some, standing, beq_iff_eq] at hpool ⊢
    show mints issue n.chain + ((n.without tx.nonce ++ [tx]).map (·.payload)).count issue + _ = _
    rw [List.map_append, List.count_append]
    simp only [List.map_cons, List.map_nil, List.count_singleton, beq_iff_eq]
    omega

end Pool

-- What a move does to the count of an issue: the consumer sends it, and may
-- take the place of one that waits, a block holds some that the token refuses,
-- another account mints the same.
def sent (limits : Python.Limits) (issue : Issue) (w : World) : Move → ℕ
  | .consumer .iterate =>
      if ∃ message ∈ w.consumer.queue.head?, decodePython limits message = some issue ∧
        (body limits message w.node).isSome then 1 else 0
  | _ => 0

def replaced (limits : Python.Limits) (issue : Issue) (w : World) : Move → ℕ
  | .consumer .iterate =>
      if ∃ message ∈ w.consumer.queue.head?, (body limits message w.node).isSome then
        ousted issue w.node w.node.mined
      else 0
  | _ => 0

def refused (wallet : Address) (issue : Issue) (w : World) : Move → ℕ
  | .consumer (.mine count) => refusals wallet issue count w.node
  | _ => 0

def outside (issue : Issue) (w : World) : Move → ℕ
  | .transact m =>
      if Msg.Mints m issue ∧ (WageFix.step w.node.chain m).isSome then 1 else 0
  | _ => 0

-- The calls of the listener that were accepted.
def accepted (log : List Value) (issue : Issue) (w : World) : ℕ :=
  (w.listener.accepted.filterMap (issueAt log)).count issue

section Steps

variable {limits : Python.Limits} {wallet : Address} {log : List Value} (issue : Issue)
variable {w w' : World}

theorem body_eq_some {message : Value} {n m : Node State Issue} :
    body limits message n = some m ↔
      ∃ other, decodePython limits message = some other ∧
        n.send (transaction n.mined other) = some m :=
  Option.bind_eq_some_iff

theorem standing_iterate (h : w.node.Consecutive) {consumer : Consumer.World}
    (hstep : iterate limits w.consumer = some consumer) :
    consumer.node.Consecutive ∧
      standing issue consumer.node + replaced limits issue w (.consumer .iterate) =
        standing issue w.node + sent limits issue w (.consumer .iterate) := by
  obtain ⟨-, message, queue, hqueue, hbody⟩ := iterate_eq_some hstep
  have hnode : w.consumer.node = w.node := rfl
  rw [hnode] at hbody
  simp only [sent, replaced, hqueue, List.head?_cons, Option.mem_some_iff, exists_eq_left']
  rcases hbody with ⟨node, hnode, rfl⟩ | ⟨hnone, rfl⟩
  · obtain ⟨other, hother, hsend⟩ := body_eq_some.mp hnode
    have hone := standing_send issue h (.inr rfl) hsend
    simp only [hnode, hother, Option.isSome_some, and_true, if_true, Option.some.injEq]
    exact hone
  · simp only [hnone, Option.isSome_none, Bool.false_eq_true, and_false, if_false]
    exact ⟨h, trivial⟩

theorem submit_eq_some {gas gasPrice : ℕ} (h : submit log gas gasPrice w = some w') :
    ∃ offset other node, w.listener.inflight = some offset ∧ issueAt log offset = some other ∧
      w.node.send ⟨w.node.nextNonce, gas, gasPrice, other⟩ = some node ∧
      w' = { w.withNode node with
        listener := { w.listener with
          inflight := none
          accepted := w.listener.accepted ++ [offset] } } := by
  obtain ⟨offset, hoffset, h⟩ := Option.bind_eq_some_iff.mp h
  obtain ⟨other, hother, h⟩ := Option.bind_eq_some_iff.mp h
  obtain ⟨listener, hlistener, h⟩ := Option.bind_eq_some_iff.mp h
  obtain ⟨node, hnode, h⟩ := Option.bind_eq_some_iff.mp h
  obtain ⟨offset', hoffset', rfl⟩ := Option.map_eq_some_iff.mp hlistener
  obtain rfl : offset = offset' := Option.some.inj (hoffset.symm.trans hoffset')
  exact ⟨offset, other, node, hoffset, hother, hnode, (Option.some.inj h).symm⟩

theorem accepted_of_ne {events : List (Option Listener.Payload)} {l l' : Listener.World}
    {move : Listener.Move} (hmove : move ≠ .callOk)
    (h : Listener.step events l move = some l') : l'.accepted = l.accepted := by
  cases move with
  | deliver =>
      obtain ⟨payload, running, inflight, -, -, rfl, -⟩ := Listener.deliver_eq_some h
      rfl
  | callOk => exact absurd rfl hmove
  | callErr =>
      obtain ⟨offset, -, rfl⟩ := Option.map_eq_some_iff.mp h
      rfl
  | autoCommit =>
      obtain rfl := Option.some.inj h
      rfl
  | crash =>
      obtain rfl := Option.some.inj h
      rfl

-- The one place where the moves of the two readers and of the others are told
-- apart.
theorem step_cases {move : Move} (h : step limits wallet log w move = some w') :
    (move = .consumer .iterate ∧ ∃ consumer, iterate limits w.consumer = some consumer ∧
        w' = { w with consumer }) ∨
      (∃ count node, move = .consumer (.mine count) ∧
        w.node.mineBlock (execute wallet) count = some node ∧ w' = w.withNode node) ∨
      (∃ gas gasPrice, move = .listener .callOk gas gasPrice ∧
        submit log gas gasPrice w = some w') ∨
      (∃ other gas gasPrice listener, move = .listener other gas gasPrice ∧ other ≠ .callOk ∧
        Listener.step (records log) w.listener other = some listener ∧ w' = { w with listener }) ∨
      ∃ m, move = .transact m ∧ m.sender ≠ wallet ∧
        w' = w.withNode { w.node with chain := attempt WageFix.step w.node.chain m } := by
  cases move with
  | consumer move =>
      cases move with
      | iterate =>
          obtain ⟨consumer, hconsumer, rfl⟩ := Option.map_eq_some_iff.mp h
          exact .inl ⟨rfl, consumer, hconsumer, rfl⟩
      | mine count =>
          obtain ⟨consumer, hconsumer, rfl⟩ := Option.map_eq_some_iff.mp h
          obtain ⟨node, hnode, rfl⟩ := Option.map_eq_some_iff.mp hconsumer
          exact .inr (.inl ⟨count, node, rfl, hnode, rfl⟩)
  | listener other gas gasPrice =>
      by_cases hother : other = .callOk
      · subst hother
        exact .inr (.inr (.inl ⟨gas, gasPrice, rfl, h⟩))
      · have hstep : (Listener.step (records log) w.listener other).map
            (fun listener => ({ w with listener } : World)) = some w' := by
          cases other with
          | callOk => exact absurd rfl hother
          | _ => exact h
        obtain ⟨listener, hlistener, rfl⟩ := Option.map_eq_some_iff.mp hstep
        exact .inr (.inr (.inr (.inl ⟨other, gas, gasPrice, listener, rfl, hother, hlistener, rfl⟩)))
  | transact m =>
      simp only [step] at h
      split_ifs at h with hsender
      exact .inr (.inr (.inr (.inr ⟨m, rfl, hsender, (Option.some.inj h).symm⟩)))

theorem mints_attempt (s : State) (m : Msg) : mints issue (attempt WageFix.step s m) =
    mints issue s + if Msg.Mints m issue ∧ (WageFix.step s m).isSome then 1 else 0 := by
  cases h : WageFix.step s m with
  | none =>
      rw [attempt_of_none h]
      simp
  | some t =>
      rw [attempt_of_some h, mints_step h]
      simp

theorem conserved_step {move : Move} (h : w.node.Consecutive)
    (hstep : step limits wallet log w move = some w') :
    w'.node.Consecutive ∧ standing issue w'.node + accepted log issue w +
        (refused wallet issue w move + replaced limits issue w move) =
      standing issue w.node + accepted log issue w' +
        (sent limits issue w move + outside issue w move) := by
  rcases step_cases hstep with
    ⟨rfl, consumer, hconsumer, rfl⟩ | ⟨count, node, rfl, hnode, rfl⟩ |
    ⟨gas, gasPrice, rfl, hsubmit⟩ | ⟨other, gas, gasPrice, listener, rfl, hother, hlistener, rfl⟩ |
    ⟨m, rfl, -, rfl⟩
  · obtain ⟨hconsecutive, hone⟩ := standing_iterate issue h hconsumer
    refine ⟨hconsecutive, ?_⟩
    show standing issue consumer.node + accepted log issue w + (0 + _) =
      _ + accepted log issue w + (_ + 0)
    omega
  · obtain ⟨hconsecutive, hone⟩ := standing_mineBlock issue h hnode
    refine ⟨hconsecutive, ?_⟩
    show standing issue node + accepted log issue w + (refusals wallet issue count w.node + 0) =
      standing issue w.node + accepted log issue w + (0 + 0)
    omega
  · obtain ⟨offset, other, node, -, hother, hsend, rfl⟩ := submit_eq_some hsubmit
    obtain rfl := Option.some.inj ((Node.send_next h rfl).symm.trans hsend)
    refine ⟨h.enqueue rfl, ?_⟩
    have haccepted : ((w.listener.accepted ++ [offset]).filterMap (issueAt log)).count issue =
        accepted log issue w + if other = issue then 1 else 0 := by
      rw [List.filterMap_append, List.count_append]
      simp [hother, accepted, List.count_singleton]
    have hqueued : standing issue (w.node.enqueue ⟨w.node.nextNonce, gas, gasPrice, other⟩) =
        standing issue w.node + if other = issue then 1 else 0 := standing_enqueue ..
    show standing issue (w.node.enqueue _) + accepted log issue w + (0 + 0) =
      standing issue w.node + ((w.listener.accepted ++ [offset]).filterMap (issueAt log)).count issue +
        (0 + 0)
    omega
  · refine ⟨h, ?_⟩
    have hsame := accepted_of_ne hother hlistener
    show standing issue w.node + accepted log issue w + (0 + 0) =
      standing issue w.node + (listener.accepted.filterMap (issueAt log)).count issue + (0 + 0)
    rw [hsame]
    rfl
  · refine ⟨h, ?_⟩
    show mints issue (attempt WageFix.step w.node.chain m) + w.node.payloads.count issue +
        accepted log issue w + (0 + 0) =
      standing issue w.node + accepted log issue w + (0 + outside issue w (.transact m))
    rw [mints_attempt]
    simp only [standing, outside]
    omega

end Steps

theorem consecutive_start (s : State) (mined : ℕ) (log : List Value) (read first : ℕ) :
    (start s mined log read first).node.Consecutive := List.Perm.refl _

theorem conserved_run {limits : Python.Limits} {wallet : Address} {log : List Value} {w w' : World}
    {moves : List Move} (h : w.node.Consecutive)
    (hrun : runAll (step limits wallet log) w moves = some w') (issue : Issue) :
    let past := trace (step limits wallet log) w moves
    standing issue w'.node + accepted log issue w +
        ((past.map fun p => refused wallet issue p.1 p.2).sum +
          (past.map fun p => replaced limits issue p.1 p.2).sum) =
      standing issue w.node + accepted log issue w' +
        ((past.map fun p => sent limits issue p.1 p.2).sum +
          (past.map fun p => outside issue p.1 p.2).sum) := by
  have hconsecutive : ∀ w move w', w.node.Consecutive →
      step limits wallet log w move = some w' → w'.node.Consecutive :=
    fun w move w' h hstep => (conserved_step issue h hstep).1
  have hone : ∀ w move w', w.node.Consecutive → step limits wallet log w move = some w' →
      standing issue w'.node + accepted log issue w +
          (refused wallet issue w move + replaced limits issue w move) =
        standing issue w.node + accepted log issue w' +
          (sent limits issue w move + outside issue w move) :=
    fun w move w' h hstep => (conserved_step issue h hstep).2
  have hbalance := runAll_balance (fun w => standing issue w.node) (accepted log issue)
    (fun w move => sent limits issue w move + outside issue w move)
    (fun w move => refused wallet issue w move + replaced limits issue w move)
    hconsecutive hone h hrun
  rw [List.sum_map_add, List.sum_map_add] at hbalance
  exact hbalance

-- Of every issue, over any run of the two bridges: the mints that the token
-- has logged and the transactions that still wait are, with those that a block
-- held in vain and those that another one ousted, exactly the sends of the
-- consumer, the accepted calls of the listener and the mints of others.
theorem issue_conservation (limits : Python.Limits) (wallet : Address) (log : List Value)
    (s : State) (mined read first : ℕ) (moves : List Move) (w : World)
    (hrun : runAll (step limits wallet log) (start s mined log read first) moves = some w)
    (issue : Issue) :
    let past := trace (step limits wallet log) (start s mined log read first) moves
    mints issue w.node.chain + w.node.payloads.count issue +
        (past.map fun p => refused wallet issue p.1 p.2).sum +
        (past.map fun p => replaced limits issue p.1 p.2).sum =
      mints issue s + (w.listener.accepted.filterMap (issueAt log)).count issue +
        (past.map fun p => sent limits issue p.1 p.2).sum +
        (past.map fun p => outside issue p.1 p.2).sum := by
  intro past
  have hconserved := conserved_run (consecutive_start s mined log read first) hrun issue
  have hstart : standing issue (start s mined log read first).node = mints issue s ∧
      accepted log issue (start s mined log read first) = 0 := ⟨rfl, rfl⟩
  dsimp only at hconserved
  rw [hstart.1, hstart.2] at hconserved
  simp only [standing, accepted] at hconserved
  simp only [past]
  omega

-- The consumer's transaction takes the place of one of the listener that the
-- node has sent for less: two calls were accepted, and one wage is minted.
def oustedRun : List Move :=
  [.listener .deliver 0 0, .listener .callOk 90000 1, .consumer .iterate, .consumer (.mine 1)]

theorem issue_conservation_ousted :
    ∃ w, runAll (step ⟨1000, 4300⟩ 1 twoWages) (start investorState 0 twoWages 0 0) oustedRun =
      some w ∧ mints ⟨2, 5⟩ w.node.chain = 1 := by
  obtain ⟨w, hw⟩ : ∃ w, runAll (step ⟨1000, 4300⟩ 1 twoWages)
      (start investorState 0 twoWages 0 0) oustedRun = some w :=
    Option.isSome_iff_exists.mp (by decide +kernel)
  have hend : (runAll (step ⟨1000, 4300⟩ 1 twoWages)
      (start investorState 0 twoWages 0 0) oustedRun).map (fun w =>
        (w.node.pending.length, w.listener.accepted)) = some (0, [0]) := by
    decide +kernel
  rw [hw] at hend
  simp only [Option.map_some, Option.some.injEq, Prod.mk.injEq] at hend
  have hpool : w.node.payloads = [] := List.map_eq_nil_iff.mpr (List.eq_nil_of_length_eq_zero hend.1)
  have hconserved := issue_conservation ⟨1000, 4300⟩ 1 twoWages investorState 0 0 0 oustedRun w hw
    ⟨2, 5⟩
  rw [hend.2, hpool] at hconserved
  have hcounts : mints ⟨2, 5⟩ investorState = 0 ∧
      ([0].filterMap (issueAt twoWages)).count ⟨2, 5⟩ = 1 := by
    decide +kernel
  let past := trace (step ⟨1000, 4300⟩ 1 twoWages) (start investorState 0 twoWages 0 0) oustedRun
  have hlosses : (past.map fun p => refused 1 ⟨2, 5⟩ p.1 p.2).sum = 0 ∧
      (past.map fun p => replaced ⟨1000, 4300⟩ ⟨2, 5⟩ p.1 p.2).sum = 1 := by
    decide +kernel
  have hgains : (past.map fun p => sent ⟨1000, 4300⟩ ⟨2, 5⟩ p.1 p.2).sum = 1 ∧
      (past.map fun p => outside ⟨2, 5⟩ p.1 p.2).sum = 0 := by
    decide +kernel
  refine ⟨w, hw, ?_⟩
  simp only [past] at hlosses hgains
  dsimp only at hconserved
  rw [hlosses.1, hlosses.2, hgains.1, hgains.2, hcounts.1, hcounts.2, List.count_nil] at hconserved
  omega

end WageFix.Bridge
