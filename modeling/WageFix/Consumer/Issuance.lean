import WageFix.Consumer
import WageFix.STO.Order

namespace WageFix.Consumer

open Json Wire Mempool Transition

def wage (issue : Issue) : Address × Uint256 := (issue.to_, issue.amount)

-- What the events of a run are promised to be: each decodes, each user is
-- whitelisted, and the supply has room for all of them.
structure Payroll (limits : Python.Limits) (s : State) (messages : List Value)
    (issues : List Issue) : Prop where
  decoded : messages.mapM (decodePython limits) = some issues
  whitelisted : ∀ issue ∈ issues, s.isWhitelisted issue.to_ = true
  total : s.totalSupply.toNat + wageSum (issues.map wage) ≤ 2 ^ 256 - 1

def Issued (s : State) (issues : List Issue) (t : State) : Prop :=
  runAll WageFix.step s (issueAll s.owner (issues.map wage)) = some t

-- No iteration meets a transaction of the wallet that waits for its block.
def Waited (limits : Python.Limits) (wallet : Address) (w : World) (moves : List Move) : Prop :=
  ∀ p ∈ trace (step limits wallet) w moves, p.2 = .iterate → p.1.node.pending = []

-- Where the events of a run stand: executed in a block, pending, lost with the
-- loop, or not read yet.
structure Serving (limits : Python.Limits) (s : State) (issues executed lost rest : List Issue)
    (w : World) : Prop where
  split : issues = executed ++ w.node.pending.map (·.payload) ++ lost ++ rest
  queue : w.queue.mapM (decodePython limits) = some rest
  chain : w.node.chain = executed.foldl (execute s.owner) s
  pending : w.node.pending = [] ∨ ∃ issue, w.node.pending = [transaction w.node.mined issue]
  running : w.running = true ↔ lost = []

section Steps

variable {limits : Python.Limits} {s : State} {issues executed lost rest : List Issue}
variable {w w' : World}

theorem iterate_eq_some (h : iterate limits w = some w') :
    w.running = true ∧ ∃ message queue, w.queue = message :: queue ∧
      ((∃ node, body limits message w.node = some node ∧ w' = ⟨node, queue, true⟩) ∨
        body limits message w.node = none ∧ w' = ⟨w.node, queue, false⟩) := by
  unfold iterate at h
  split at h
  · rename_i message queue hrunning hqueue
    refine ⟨hrunning, message, queue, hqueue, ?_⟩
    split at h
    · rename_i node hnode
      have hw' := Option.some.inj h
      rw [hrunning] at hw'
      exact Or.inl ⟨node, hnode, hw'.symm⟩
    · rename_i hnone
      exact Or.inr ⟨hnone, (Option.some.inj h).symm⟩
  · exact absurd h (by simp)

theorem serving_start {messages : List Value} {mined : ℕ} (h : Payroll limits s messages issues) :
    Serving limits s issues [] [] issues (start s mined messages) where
  split := rfl
  queue := h.decoded
  chain := rfl
  pending := Or.inl rfl
  running := by simp [start]

theorem Serving.iterate_idle (h : Serving limits s issues executed lost rest w)
    (hidle : w.node.pending = []) (hstep : iterate limits w = some w') :
    ∃ rest, Serving limits s issues executed lost rest w' ∧ w'.running = true := by
  obtain ⟨hrunning, message, queue, hqueue, hbody⟩ := iterate_eq_some hstep
  have hdecoded := h.queue
  rw [hqueue] at hdecoded
  obtain ⟨issue, later, hissue, hlater, rfl⟩ := mapM_cons_eq_some.mp hdecoded
  have hlost := h.running.mp hrunning
  have hsend : body limits message w.node =
      some { w.node with pending := [transaction w.node.mined issue] } := by
    rw [body, hissue]
    exact Node.send_of_idle hidle rfl
  rcases hbody with ⟨node, hnode, rfl⟩ | ⟨hnone, -⟩
  · obtain rfl := Option.some.inj (hsend.symm.trans hnode)
    refine ⟨later, ⟨?_, hlater, h.chain, Or.inr ⟨issue, rfl⟩, by simp [hlost]⟩, rfl⟩
    have hsplit := h.split
    rw [hidle, hlost] at hsplit
    rw [hsplit, hlost]
    simp [transaction]
  · exact absurd (hsend.symm.trans hnone) (by simp)

theorem Serving.iterate_held (h : Serving limits s issues executed lost rest w)
    (hheld : w.node.pending ≠ []) (hstep : iterate limits w = some w') :
    ∃ lost rest, Serving limits s issues executed lost rest w' ∧ w'.running = false := by
  obtain ⟨hrunning, message, queue, hqueue, hbody⟩ := iterate_eq_some hstep
  have hdecoded := h.queue
  rw [hqueue] at hdecoded
  obtain ⟨issue, later, hissue, hlater, rfl⟩ := mapM_cons_eq_some.mp hdecoded
  have hlost := h.running.mp hrunning
  obtain ⟨old, hold⟩ := h.pending.resolve_left hheld
  have hrefused : body limits message w.node = none := by
    rw [body, hissue]
    exact Node.send_of_held hold rfl rfl
  rcases hbody with ⟨node, hnode, -⟩ | ⟨-, rfl⟩
  · exact absurd (hrefused.symm.trans hnode) (by simp)
  · refine ⟨[issue], later, ⟨?_, hlater, h.chain, Or.inr ⟨old, hold⟩, by simp⟩, rfl⟩
    have hsplit := h.split
    rw [hlost] at hsplit
    rw [hsplit]
    simp

theorem Serving.mine {count : ℕ} (h : Serving limits s issues executed lost rest w)
    (hstep : mine s.owner count w = some w') :
    ∃ executed, Serving limits s issues executed lost rest w' ∧ w'.running = w.running := by
  obtain ⟨node, hnode, rfl⟩ := Option.map_eq_some_iff.mp hstep
  rcases h.pending with hidle | ⟨issue, hheld⟩
  · obtain rfl := Node.mineBlock_of_idle hidle hnode
    exact ⟨executed, h, rfl⟩
  · rcases Node.mineBlock_of_single hheld rfl hnode with rfl | rfl
    · exact ⟨executed, h, rfl⟩
    · refine ⟨executed ++ [issue], ⟨?_, h.queue, ?_, Or.inl rfl, h.running⟩, rfl⟩
      · have hsplit := h.split
        rw [hheld] at hsplit
        rw [hsplit]
        simp [transaction]
      · show execute s.owner w.node.chain issue = _
        rw [List.foldl_append, ← h.chain]
        rfl

theorem Serving.step {move : Move} (h : Serving limits s issues executed lost rest w)
    (hstep : step limits s.owner w move = some w') :
    (∃ executed lost rest, Serving limits s issues executed lost rest w') ∧
      (w'.running = true ↔ w.running = true ∧ (move = .iterate → w.node.pending = [])) := by
  cases move with
  | mine count =>
      obtain ⟨executed', h', hrunning⟩ := h.mine hstep
      refine ⟨⟨executed', lost, rest, h'⟩, ?_⟩
      rw [hrunning]
      simp
  | iterate =>
      have hrunning : w.running = true := (iterate_eq_some hstep).1
      by_cases hidle : w.node.pending = []
      · obtain ⟨rest', h', hrunning'⟩ := h.iterate_idle hidle hstep
        exact ⟨⟨executed, lost, rest', h'⟩, by simp [hrunning, hrunning', hidle]⟩
      · obtain ⟨lost', rest', h', hrunning'⟩ := h.iterate_held hidle hstep
        exact ⟨⟨executed, lost', rest', h'⟩, by simp [hrunning', hidle]⟩

theorem serving_run {moves : List Move} (h : Serving limits s issues executed lost rest w)
    (hrun : runAll (Consumer.step limits s.owner) w moves = some w') :
    (∃ executed lost rest, Serving limits s issues executed lost rest w') ∧
      (w'.running = true ↔ w.running = true ∧ Waited limits s.owner w moves) := by
  induction moves generalizing w executed lost rest with
  | nil =>
      obtain rfl : w = w' := Option.some.inj hrun
      exact ⟨⟨_, _, _, h⟩, by simp [Waited]⟩
  | cons move moves ih =>
      obtain ⟨u, hu, hrest⟩ := runAll_cons_eq_some.mp hrun
      obtain ⟨⟨executed', lost', rest', h'⟩, hstep⟩ := h.step hu
      obtain ⟨hserving, htail⟩ := ih h' hrest
      refine ⟨hserving, ?_⟩
      rw [htail, hstep]
      simp only [Waited, trace_cons, attempt_of_some hu, List.forall_mem_cons, and_assoc]

end Steps

section Ledger

variable {s t : State} {issues : List Issue}

theorem foldl_execute (s : State) (wallet : Address) (issues : List Issue) :
    issues.foldl (execute wallet) s = replay WageFix.step s (issueAll wallet (issues.map wage)) := by
  rw [replay, issueAll, List.map_map, List.foldl_map]
  rfl

theorem logs_length_of_issue {sender to_ : Address} {amount : Uint256}
    (h : WageFix.step s ⟨sender, .issueTokens to_ amount⟩ = some t) :
    t.logs.length = s.logs.length + 1 := by
  obtain ⟨-, rfl⟩ := step_eq_some_iff.mp h
  simp [post, State.minted, State.emit, State.setBalance, State.setTotalSupply]

theorem logs_length_foldl_le (s : State) (wallet : Address) (issues : List Issue) :
    (issues.foldl (execute wallet) s).logs.length ≤ s.logs.length + issues.length := by
  induction issues generalizing s with
  | nil => exact Nat.le_refl _
  | cons issue issues ih =>
      have hrest := ih (execute wallet s issue)
      have hfirst : (execute wallet s issue).logs.length ≤ s.logs.length + 1 := by
        cases h : WageFix.step s ⟨wallet, .issueTokens issue.to_ issue.amount⟩ with
        | none =>
            rw [execute, attempt_of_none h]
            omega
        | some t =>
            rw [execute, attempt_of_some h]
            exact Nat.le_of_eq (logs_length_of_issue h)
      simp only [List.foldl_cons, List.length_cons]
      omega

theorem Issued.logs_length (h : Issued s issues t) :
    t.logs.length = s.logs.length + issues.length := by
  unfold Issued at h
  generalize s.owner = wallet at h
  induction issues generalizing s with
  | nil =>
      obtain rfl : s = t := Option.some.inj h
      rfl
  | cons issue issues ih =>
      obtain ⟨u, hu, hrest⟩ := runAll_cons_eq_some.mp h
      have hfirst := logs_length_of_issue hu
      have hlater := ih hrest
      simp only [List.length_cons]
      omega

theorem Issued.ne_zero (h : Issued s issues t) : ∀ issue ∈ issues, issue.to_ ≠ 0 := by
  unfold Issued at h
  generalize s.owner = wallet at h
  induction issues generalizing s with
  | nil => simp
  | cons issue issues ih =>
      obtain ⟨u, hu, hrest⟩ := runAll_cons_eq_some.mp h
      obtain ⟨haccepts, -⟩ := step_eq_some_iff.mp hu
      intro x hx
      rcases List.mem_cons.mp hx with rfl | hx
      · exact haccepts.2.2.1
      · exact ih hrest x hx

end Ledger

-- Whatever the timing, no event is executed twice or before an earlier one.
theorem executed_prefix {limits : Python.Limits} {s : State} {mined : ℕ} {messages : List Value}
    {issues : List Issue} {moves : List Move} {w : World}
    (h : Payroll limits s messages issues)
    (hrun : runAll (step limits s.owner) (start s mined messages) moves = some w) :
    ∃ executed, executed <+: issues ∧ w.node.chain = executed.foldl (execute s.owner) s := by
  obtain ⟨⟨executed, lost, rest, hserving⟩, -⟩ := serving_run (serving_start h) hrun
  refine ⟨executed, ?_, hserving.chain⟩
  rw [hserving.split, List.append_assoc, List.append_assoc]
  exact List.prefix_append ..

-- A run that has nothing left to send or to mine has issued its events exactly
-- where no iteration met a pending transaction, and no event names the zero
-- address.
theorem issued_iff_waited {limits : Python.Limits} {s : State} {mined : ℕ} {messages : List Value}
    {issues : List Issue} {moves : List Move} {w : World}
    (h : Payroll limits s messages issues)
    (hrun : runAll (step limits s.owner) (start s mined messages) moves = some w)
    (hw : w.Complete) :
    Issued s issues w.node.chain ↔
      Waited limits s.owner (start s mined messages) moves ∧ ∀ issue ∈ issues, issue.to_ ≠ 0 := by
  obtain ⟨⟨executed, lost, rest, hserving⟩, hrunning⟩ := serving_run (serving_start h) hrun
  have hwaited : w.running = true ↔ Waited limits s.owner (start s mined messages) moves := by
    simp [hrunning, start]
  have hsplit := hserving.split
  rw [hw.1, List.map_nil, List.append_nil] at hsplit
  constructor
  · intro hissued
    refine ⟨?_, hissued.ne_zero⟩
    -- a lost event would be missing from the log
    have hlength := hissued.logs_length
    have hle := logs_length_foldl_le s s.owner executed
    rw [← hserving.chain] at hle
    have hlengths := congrArg List.length hsplit
    simp only [List.length_append] at hlengths
    apply hwaited.mp
    apply hserving.running.mpr
    apply List.eq_nil_of_length_eq_zero
    omega
  · rintro ⟨hwait, hne⟩
    have hgoing := hwaited.mpr hwait
    have hqueue : w.queue = [] := hw.2.resolve_right (by simp [hgoing])
    have hlost := hserving.running.mp hgoing
    have hrest : rest = [] := by
      have hdecoded := hserving.queue
      rw [hqueue] at hdecoded
      exact (Option.some.inj hdecoded).symm
    rw [hlost, hrest, List.append_nil, List.append_nil] at hsplit
    have hwages : ∀ x ∈ issues.map wage, x.1 ≠ 0 ∧ s.isWhitelisted x.1 = true := by
      intro x hx
      obtain ⟨issue, hissue, rfl⟩ := List.mem_map.mp hx
      exact ⟨hne issue hissue, h.whitelisted issue hissue⟩
    obtain ⟨t, ht⟩ := issueAll_succeeds hwages h.total
    have hchain : w.node.chain = t := by
      rw [hserving.chain, ← hsplit, foldl_execute, replay_of_runAll ht]
    rw [hchain]
    exact ht

def investorState : State := replay WageFix.step (deployed 1) [⟨1, .whitelistInvestor 2⟩]

def twoWages : List Value :=
  [wageMessage "0x0000000000000000000000000000000000000002" (.ofNat 5),
    wageMessage "0x0000000000000000000000000000000000000002" (.ofNat 5)]

theorem payroll_twoWages : Payroll ⟨1000, 4300⟩ investorState twoWages [⟨2, 5⟩, ⟨2, 5⟩] where
  decoded := by decide +kernel
  whitelisted := by decide +kernel
  total := by decide +kernel

theorem issued_iff_waited_twoWages :
    ∃ w, runAll (step ⟨1000, 4300⟩ 1) (start investorState 0 twoWages)
      [.iterate, .mine 1, .iterate, .mine 1] = some w ∧
      Issued investorState [⟨2, 5⟩, ⟨2, 5⟩] w.node.chain := by
  obtain ⟨w, hw⟩ : ∃ w, runAll (step ⟨1000, 4300⟩ 1) (start investorState 0 twoWages)
      [.iterate, .mine 1, .iterate, .mine 1] = some w :=
    Option.isSome_iff_exists.mp (by decide +kernel)
  have hend : (runAll (step ⟨1000, 4300⟩ 1) (start investorState 0 twoWages)
      [.iterate, .mine 1, .iterate, .mine 1]).map (fun w => (w.node.pending.length, w.queue.length)) =
        some (0, 0) := by
    decide +kernel
  have hcomplete : w.Complete := by
    rw [hw] at hend
    obtain ⟨hpending, hqueue⟩ := Prod.mk.inj (Option.some.inj hend)
    exact ⟨List.eq_nil_of_length_eq_zero hpending, Or.inl (List.eq_nil_of_length_eq_zero hqueue)⟩
  have hwaited : Waited ⟨1000, 4300⟩ 1 (start investorState 0 twoWages)
      [.iterate, .mine 1, .iterate, .mine 1] := by
    have hall : ((trace (step ⟨1000, 4300⟩ 1) (start investorState 0 twoWages)
        [.iterate, .mine 1, .iterate, .mine 1]).all
          fun p => p.2 ≠ .iterate ∨ p.1.node.pending.length = 0) = true := by
      decide +kernel
    intro p hp hmove
    have hone := of_decide_eq_true (List.all_eq_true.mp hall p hp)
    exact List.eq_nil_of_length_eq_zero (hone.resolve_left fun h => h hmove)
  have hiff := issued_iff_waited payroll_twoWages hw hcomplete
  exact ⟨w, hw, hiff.mpr ⟨hwaited, by decide +kernel⟩⟩

-- Without a block between the two iterations the second wage is lost: the run
-- is complete, and the investor holds one of the two.
theorem second_wage_lost :
    Payroll ⟨1000, 4300⟩ investorState twoWages [⟨2, 5⟩, ⟨2, 5⟩] ∧
      ∃ w, runAll (step ⟨1000, 4300⟩ 1) (start investorState 0 twoWages)
        [.iterate, .iterate, .mine 1] = some w ∧
        w.Complete ∧ w.node.chain.balances 2 = 5 ∧
        ¬ Issued investorState [⟨2, 5⟩, ⟨2, 5⟩] w.node.chain := by
  refine ⟨payroll_twoWages, ?_⟩
  obtain ⟨w, hw⟩ : ∃ w, runAll (step ⟨1000, 4300⟩ 1) (start investorState 0 twoWages)
      [.iterate, .iterate, .mine 1] = some w :=
    Option.isSome_iff_exists.mp (by decide +kernel)
  have hend : (runAll (step ⟨1000, 4300⟩ 1) (start investorState 0 twoWages)
      [.iterate, .iterate, .mine 1]).map
        (fun w => (w.node.pending.length, w.running, w.node.chain.balances 2)) =
        some (0, false, 5) := by
    decide +kernel
  rw [hw] at hend
  obtain ⟨hpending, hrest⟩ := Prod.mk.inj (Option.some.inj hend)
  obtain ⟨hrunning, hbalance⟩ := Prod.mk.inj hrest
  refine ⟨w, hw, ⟨List.eq_nil_of_length_eq_zero hpending, Or.inr hrunning⟩, hbalance, ?_⟩
  intro hissued
  have hten : (runAll WageFix.step investorState
      (issueAll investorState.owner ([(⟨2, 5⟩ : Issue), ⟨2, 5⟩].map wage))).map
        (fun t => t.balances 2) = some 10 := by
    decide +kernel
  rw [hissued] at hten
  exact absurd (hbalance.symm.trans (Option.some.inj hten)) (by decide)

end WageFix.Consumer
