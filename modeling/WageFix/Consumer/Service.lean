import WageFix.Consumer.Issuance

namespace WageFix.Consumer

open Json Wire Mempool Transition

-- An iteration that ends the loop: a transaction of the wallet still waits for
-- its block, or the message does not decode.
def ends (limits : Python.Limits) (w : World) (move : Move) : Prop :=
  move = .iterate ∧
    (w.node.pending ≠ [] ∨ w.queue.head?.bind (decodePython limits) = none)

-- Where the messages of a run stand, whatever they hold: those served, the one
-- that ended the loop, and the rest of the queue.
structure Served (limits : Python.Limits) (wallet : Address) (s : State) (mined : ℕ)
    (messages served dropped : List Value) (executed : List Issue) (w : World) : Prop where
  split : messages = served ++ dropped ++ w.queue
  stopped : dropped.length = if w.running then 0 else 1
  sent : served.mapM (decodePython limits) = some (executed ++ w.node.payloads)
  chain : w.node.chain = executed.foldl (execute wallet) s
  mined : w.node.mined = mined + executed.length
  pending : w.node.pending = [] ∨ ∃ issue, w.node.pending = [transaction w.node.mined issue]

section Steps

variable {limits : Python.Limits} {wallet : Address} {s : State} {mined : ℕ}
variable {messages served dropped : List Value} {executed : List Issue} {w w' : World}

theorem served_start (limits : Python.Limits) (wallet : Address) (s : State) (mined : ℕ)
    (messages : List Value) :
    Served limits wallet s mined messages [] [] [] (start s mined messages) where
  split := rfl
  stopped := rfl
  sent := rfl
  chain := rfl
  mined := rfl
  pending := Or.inl rfl

-- The body succeeds exactly with a message that decodes and no transaction
-- waiting.
theorem body_eq_some_iff {message : Value} {node node' : Node State Issue}
    (h : node.pending = [] ∨ ∃ issue, node.pending = [transaction node.mined issue]) :
    body limits message node = some node' ↔ node.pending = [] ∧
      ∃ issue, decodePython limits message = some issue ∧
        node' = { node with pending := [transaction node.mined issue] } := by
  have hbody : body limits message node =
      (decodePython limits message).bind fun issue =>
        node.send (transaction node.mined issue) := rfl
  rw [hbody, Option.bind_eq_some_iff]
  rcases h with hidle | ⟨old, hold⟩
  · have hsend : ∀ issue, node.send (transaction node.mined issue) =
        some { node with pending := [transaction node.mined issue] } :=
      fun issue => Node.send_of_idle hidle rfl
    constructor
    · rintro ⟨issue, hissue, hnode⟩
      exact ⟨hidle, issue, hissue, (Option.some.inj ((hsend issue).symm.trans hnode)).symm⟩
    · rintro ⟨-, issue, hissue, rfl⟩
      exact ⟨issue, hissue, hsend issue⟩
  · constructor
    · rintro ⟨issue, -, hnode⟩
      have hrefused : node.send (transaction node.mined issue) = none :=
        Node.send_of_held hold rfl rfl
      exact absurd (hrefused.symm.trans hnode) (by simp)
    · rintro ⟨hidle, -⟩
      exact absurd (hold.symm.trans hidle) (by simp)

theorem Served.iterate (h : Served limits wallet s mined messages served dropped executed w)
    (hstep : iterate limits w = some w') :
    (∃ served dropped, Served limits wallet s mined messages served dropped executed w') ∧
      (w'.running = true ↔ w.running = true ∧ ¬ ends limits w .iterate) := by
  obtain ⟨hrunning, message, queue, hqueue, hbody⟩ := iterate_eq_some hstep
  have hnone : dropped = [] := by
    have hstopped := h.stopped
    rw [hrunning] at hstopped
    exact List.eq_nil_of_length_eq_zero hstopped
  have hsplit := h.split
  rw [hnone, List.append_nil, hqueue] at hsplit
  rcases hbody with ⟨node, hnode, rfl⟩ | ⟨hfailed, rfl⟩
  · obtain ⟨hidle, issue, hissue, rfl⟩ := (body_eq_some_iff h.pending).mp hnode
    have hsent := h.sent
    rw [Node.payloads, hidle] at hsent
    refine ⟨⟨served ++ [message], [], ?_, rfl, ?_, h.chain, h.mined, Or.inr ⟨issue, rfl⟩⟩, ?_⟩
    · rw [hsplit, List.append_nil, List.append_assoc]
      rfl
    · rw [List.mapM_append, hsent]
      simp [hissue, Node.payloads, transaction]
    · simp [ends, hrunning, hidle, hqueue, hissue]
  · refine ⟨⟨served, [message], ?_, rfl, h.sent, h.chain, h.mined, h.pending⟩, ?_⟩
    · rw [hsplit, List.append_assoc]
      rfl
    · have hends : ends limits w .iterate := by
        refine ⟨rfl, ?_⟩
        by_contra hgood
        rw [not_or, not_not, hqueue, List.head?_cons, Option.bind_some] at hgood
        obtain ⟨issue, hissue⟩ := Option.ne_none_iff_exists'.mp hgood.2
        have hnode := (body_eq_some_iff h.pending).mpr ⟨hgood.1, issue, hissue, rfl⟩
        exact absurd (hfailed.symm.trans hnode) (by simp)
      simp [hends]

theorem Served.mine {count : ℕ}
    (h : Served limits wallet s mined messages served dropped executed w)
    (hstep : mine wallet count w = some w') :
    (∃ executed, Served limits wallet s mined messages served dropped executed w') ∧
      w'.running = w.running := by
  obtain ⟨node, hnode, rfl⟩ := Option.map_eq_some_iff.mp hstep
  refine ⟨?_, rfl⟩
  rcases h.pending with hidle | ⟨issue, hheld⟩
  · obtain rfl := Node.mineBlock_of_idle hidle hnode
    exact ⟨executed, h⟩
  · rcases Node.mineBlock_of_single hheld rfl hnode with rfl | rfl
    · exact ⟨executed, h⟩
    · refine ⟨executed ++ [issue], h.split, h.stopped, ?_, ?_, ?_, Or.inl rfl⟩
      · have hsent := h.sent
        rw [Node.payloads, hheld] at hsent
        rw [hsent]
        simp [Node.payloads, transaction]
      · show execute wallet w.node.chain issue = _
        rw [List.foldl_append, ← h.chain]
        rfl
      · show w.node.mined + 1 = _
        rw [h.mined, List.length_append]
        rfl

theorem Served.step {move : Move}
    (h : Served limits wallet s mined messages served dropped executed w)
    (hstep : step limits wallet w move = some w') :
    (∃ served dropped executed,
      Served limits wallet s mined messages served dropped executed w') ∧
      (w'.running = true ↔ w.running = true ∧ ¬ ends limits w move) := by
  cases move with
  | iterate =>
      obtain ⟨⟨served, dropped, hserved⟩, hrunning⟩ := h.iterate hstep
      exact ⟨⟨served, dropped, executed, hserved⟩, hrunning⟩
  | mine count =>
      obtain ⟨⟨executed, hserved⟩, hrunning⟩ := h.mine hstep
      refine ⟨⟨served, dropped, executed, hserved⟩, ?_⟩
      simp [hrunning, ends]

theorem served_run {moves : List Move}
    (h : Served limits wallet s mined messages served dropped executed w)
    (hrun : runAll (Consumer.step limits wallet) w moves = some w') :
    (∃ served dropped executed,
      Served limits wallet s mined messages served dropped executed w') ∧
      (w'.running = true ↔ w.running = true ∧
        ∀ p ∈ trace (Consumer.step limits wallet) w moves, ¬ ends limits p.1 p.2) := by
  induction moves generalizing w served dropped executed with
  | nil =>
      obtain rfl : w = w' := Option.some.inj hrun
      exact ⟨⟨_, _, _, h⟩, by simp⟩
  | cons move moves ih =>
      obtain ⟨u, hu, hrest⟩ := runAll_cons_eq_some.mp hrun
      obtain ⟨⟨served', dropped', executed', h'⟩, hstep⟩ := h.step hu
      obtain ⟨hserved, htail⟩ := ih h' hrest
      refine ⟨hserved, ?_⟩
      rw [htail, hstep]
      simp only [trace_cons, attempt_of_some hu, List.forall_mem_cons, and_assoc]

end Steps

-- Whatever the messages hold, the consumer sends the wages of those before the
-- one that ends its loop, each once and in their order, and at most the last of
-- them still waits for a block. The loop ends exactly at a message that does
-- not decode or meets a waiting transaction, and only that one is passed over.
theorem served_in_order (limits : Python.Limits) (wallet : Address) (s : State) (mined : ℕ)
    (messages : List Value) (moves : List Move) (w : World)
    (hrun : runAll (step limits wallet) (start s mined messages) moves = some w) :
    (∃ served dropped executed, messages = served ++ dropped ++ w.queue ∧
      dropped.length = (if w.running then 0 else 1) ∧
      served.mapM (decodePython limits) = some (executed ++ w.node.payloads) ∧
      w.node.chain = executed.foldl (execute wallet) s ∧
      w.node.mined = mined + executed.length ∧ w.node.pending.length ≤ 1) ∧
    (w.running = false ↔
      ∃ p ∈ trace (step limits wallet) (start s mined messages) moves, ends limits p.1 p.2) := by
  obtain ⟨⟨served, dropped, executed, h⟩, hrunning⟩ :=
    served_run (served_start limits wallet s mined messages) hrun
  constructor
  · refine ⟨served, dropped, executed, h.split, h.stopped, h.sent, h.chain, h.mined, ?_⟩
    rcases h.pending with hidle | ⟨issue, hheld⟩
    · simp [hidle]
    · simp [hheld]
  · have hstart : (start s mined messages).running = true := rfl
    rw [hstart, eq_self_iff_true, true_and] at hrunning
    rw [← Bool.not_eq_true, hrunning]
    simp only [not_forall, not_not, exists_prop]

def wageThenName : List Value :=
  [wageMessage "0x0000000000000000000000000000000000000002" (.ofNat 5),
    wageMessage "alice" (.ofNat 5)]

-- The wage is issued, and the name ends the loop.
theorem served_in_order_name :
    ∃ w, runAll (step ⟨1000, 4300⟩ 1) (start investorState 0 wageThenName)
      [.iterate, .mine 1, .iterate] = some w ∧
      ∃ p ∈ trace (step ⟨1000, 4300⟩ 1) (start investorState 0 wageThenName)
        [.iterate, .mine 1, .iterate], ends ⟨1000, 4300⟩ p.1 p.2 := by
  obtain ⟨w, hw⟩ : ∃ w, runAll (step ⟨1000, 4300⟩ 1) (start investorState 0 wageThenName)
      [.iterate, .mine 1, .iterate] = some w :=
    Option.isSome_iff_exists.mp (by decide +kernel)
  have hend : (runAll (step ⟨1000, 4300⟩ 1) (start investorState 0 wageThenName)
      [.iterate, .mine 1, .iterate]).map (·.running) = some false := by
    decide +kernel
  rw [hw] at hend
  have hserved := served_in_order ⟨1000, 4300⟩ 1 investorState 0 wageThenName
    [.iterate, .mine 1, .iterate] w hw
  exact ⟨w, hw, hserved.2.mp (Option.some.inj hend)⟩

end WageFix.Consumer
