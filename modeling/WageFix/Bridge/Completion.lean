import WageFix.Bridge.Passes
import WageFix.Bridge.Payday
import WageFix.Listener.Loop

namespace WageFix.Bridge

open Json Wire Mempool Transition Consumer

-- Both loops run, and nothing that lies before them would end them.
structure Healthy (limits : Python.Limits) (log : List Value) (w : World) : Prop where
  consumer : w.consumer.running = true
  decodes : ∀ message ∈ w.consumer.queue, decodePython limits message ≠ none
  listener : w.listener.running = true
  events : ∀ message ∈ log.drop w.listener.position,
    ¬ Listener.Item.Stops (.message (some (some message)))

-- All is done, and both loops wait for more.
def World.AtRest (log : List Value) (w : World) : Prop :=
  w.Settled log ∧ w.listener.running = true

-- What holds in every run, whatever happens in it.
structure Coherent (log : List Value) (w : World) : Prop where
  consecutive : w.node.Consecutive
  calling : Listener.Calling (records log) w.listener

-- A message costs the move that reads it, the call, and the block.
def todo (log : List Value) (w : World) : ℕ :=
  w.node.pending.length + 3 * w.consumer.queue.length +
    2 * w.listener.inflight.toList.length + 3 * (log.length - w.listener.position)

section Steps

variable {limits : Python.Limits} {wallet : Address} {log : List Value} {w w' : World}

theorem issueAt_eq_issueOf (log : List Value) (offset : ℕ) :
    issueAt log offset = Listener.issueOf (records log) offset := by
  rw [issueAt, Listener.issueOf, records, List.getElem?_map]
  cases log[offset]? with
  | none => rfl
  | some message =>
      show _ = Listener.Item.issue (.message (some (some message)))
      have hreacts := Listener.reacts (.message (some (some message)))
      rw [Option.bind_some]
      generalize Listener.react (.message (some (some message))) = reaction at hreacts
      cases hreacts with
      | leave _ hi => exact hi.symm
      | panic _ hi => exact hi.symm
      | pass _ hi => exact hi.symm
      | call issue _ hi => exact hi.symm

theorem Coherent.step {move : Move} (h : Coherent log w)
    (hstep : step limits wallet log w move = some w') : Coherent log w' where
  consecutive := (conserved_step ⟨0, 0⟩ h.consecutive hstep).1
  calling := runAll_invariant_of_mem (P := fun _ => True)
    (fun _ _ _ _ hl hone => Listener.calling_step hl hone) h.calling (fun _ _ => trivial)
    (listener_step hstep)

theorem Healthy.back_deliver {l : Listener.World}
    (hl : Listener.deliver (records log) w.listener = some l)
    (h : Healthy limits log { w with listener := l }) : Healthy limits log w := by
  obtain ⟨hrunning, -, payload, hpayload, hcases⟩ := Listener.deliver_cases hl
  obtain ⟨message, hmessage, rfl⟩ := getElem?_records hpayload
  have hposition : l.position = w.listener.position + 1 := by
    rcases hcases with ⟨-, rfl⟩ | ⟨-, rfl⟩ | ⟨-, -, rfl⟩ <;> rfl
  refine ⟨h.consumer, h.decodes, hrunning, ?_⟩
  obtain ⟨hlt, hget⟩ := List.getElem?_eq_some_iff.mp hmessage
  rw [List.drop_eq_getElem_cons hlt, hget]
  refine List.forall_mem_cons.mpr ⟨?_, ?_⟩
  · have hreacts := Listener.reacts (.message (some (some message)))
    rcases hcases with ⟨-, rfl⟩ | ⟨hreact, -⟩ | ⟨issue, hreact, -⟩
    · exact absurd h.listener (by simp)
    · rw [hreact] at hreacts
      cases hreacts with
      | pass hs _ => exact hs
    · rw [hreact] at hreacts
      cases hreacts with
      | call issue hs _ => exact hs
  · have hevents := h.events
    rwa [hposition] at hevents

-- What a quiet move leaves healthy was healthy before it.
theorem Healthy.back {move : Move} (hquiet : Quiet move)
    (hstep : step limits wallet log w move = some w') (h : Healthy limits log w') :
    Healthy limits log w := by
  rcases step_cases hstep with
    ⟨rfl, consumer, hconsumer, rfl⟩ | ⟨count, node, rfl, -, rfl⟩ | ⟨gas, gasPrice, rfl, hsubmit⟩ |
    ⟨other, gas, gasPrice, listener, rfl, hother, hlistener, rfl⟩ | ⟨m, rfl, -, rfl⟩
  · obtain ⟨hrunning, message, queue, hqueue, hbody⟩ := iterate_eq_some hconsumer
    refine ⟨hrunning, ?_, h.listener, h.events⟩
    rw [hqueue]
    rcases hbody with ⟨node, hnode, rfl⟩ | ⟨-, rfl⟩
    · obtain ⟨issue, hissue, -⟩ := body_eq_some.mp hnode
      exact List.forall_mem_cons.mpr ⟨by simp [hissue], h.decodes⟩
    · exact absurd h.consumer (by simp)
  · exact ⟨h.consumer, h.decodes, h.listener, h.events⟩
  · obtain ⟨offset, issue, node, -, -, -, rfl⟩ := submit_eq_some hsubmit
    exact ⟨h.consumer, h.decodes, h.listener, h.events⟩
  · cases other with
    | deliver => exact h.back_deliver hlistener
    | callOk => exact absurd rfl hother
    | callErr => exact absurd hquiet id
    | autoCommit =>
        obtain rfl := Option.some.inj hlistener
        exact ⟨h.consumer, h.decodes, h.listener, h.events⟩
    | crash => exact absurd hquiet id
  · exact ⟨h.consumer, h.decodes, h.listener, h.events⟩

theorem healthy_of_atRest (h : w.AtRest log) : Healthy limits log w where
  consumer := h.1.running
  decodes := by simp [h.1.queue]
  listener := h.2
  events := by simp [List.drop_eq_nil_of_le h.1.position]

theorem Healthy.mine (h : Healthy limits log w) (hc : w.node.Consecutive)
    (hpending : w.node.pending ≠ []) :
    ∃ w', step limits wallet log w (.consumer (.mine 1)) = some w' ∧ Healthy limits log w' ∧
      todo log w' < todo log w := by
  obtain ⟨tx, hheld⟩ := Node.held_first hc hpending
  have hnext : w.node.includeNext (execute wallet) =
      some ⟨execute wallet w.node.chain tx.payload, w.node.mined + 1,
        w.node.without w.node.mined⟩ := by
    rw [Node.includeNext, hheld]
  have hstep : step limits wallet log w (.consumer (.mine 1)) =
      some (w.withNode ⟨execute wallet w.node.chain tx.payload, w.node.mined + 1,
        w.node.without w.node.mined⟩) := by
    show Option.map _ (Option.map _ ((w.node.includeNext (execute wallet)).bind _)) = _
    rw [hnext]
    rfl
  refine ⟨_, hstep, ⟨h.consumer, h.decodes, h.listener, h.events⟩, ?_⟩
  have hlength := (hc.perm_without hheld).length_eq
  rw [List.length_cons] at hlength
  simp only [todo, World.withNode, World.node] at hlength ⊢
  omega

theorem iterate_of_body {consumer : Consumer.World} {message : Value} {queue : List Value}
    {node : Node State Issue} (hrunning : consumer.running = true)
    (hqueue : consumer.queue = message :: queue)
    (hbody : body limits message consumer.node = some node) :
    iterate limits consumer = some ⟨node, queue, true⟩ := by
  obtain ⟨before, messages, running⟩ := consumer
  obtain rfl : running = true := hrunning
  obtain rfl : messages = message :: queue := hqueue
  simp only [iterate, hbody]

theorem Healthy.read (h : Healthy limits log w) (hidle : w.node.pending = [])
    (hqueue : w.consumer.queue ≠ []) :
    ∃ w', step limits wallet log w (.consumer .iterate) = some w' ∧ Healthy limits log w' ∧
      todo log w' < todo log w := by
  obtain ⟨message, queue, hcons⟩ := List.exists_cons_of_ne_nil hqueue
  have hdecodes := h.decodes
  rw [hcons] at hdecodes
  obtain ⟨hfirst, hlater⟩ := List.forall_mem_cons.mp hdecodes
  obtain ⟨issue, hissue⟩ := Option.ne_none_iff_exists'.mp hfirst
  have hbody : body limits message w.node =
      some { w.node with pending := [transaction w.node.mined issue] } := by
    rw [body, hissue]
    exact Node.send_of_idle hidle rfl
  have hstep : step limits wallet log w (.consumer .iterate) =
      some { w with consumer := ⟨{ w.node with pending := [transaction w.node.mined issue] }, queue,
        w.consumer.running⟩ } := by
    show Option.map _ (iterate limits w.consumer) = _
    rw [iterate_of_body h.consumer hcons hbody, h.consumer]
    rfl
  refine ⟨_, hstep, ⟨h.consumer, hlater, h.listener, h.events⟩, ?_⟩
  simp only [todo, World.node, hcons, List.length_cons, List.length_nil] at hidle ⊢
  rw [hidle, List.length_nil]
  omega

theorem Healthy.call (h : Healthy limits log w) (hc : w.node.Consecutive) {offset : ℕ}
    (hinflight : w.listener.inflight = some offset) (hissue : issueAt log offset ≠ none) :
    ∃ w', step limits wallet log w (.listener .callOk 2000000 (10 * 10 ^ 9)) = some w' ∧
      Healthy limits log w' ∧ todo log w' < todo log w := by
  obtain ⟨issue, hissue⟩ := Option.ne_none_iff_exists'.mp hissue
  have htx : Tx.nonce ⟨w.node.nextNonce, 2000000, 10 * 10 ^ 9, issue⟩ = w.node.nextNonce := rfl
  have hsend := Node.send_next hc htx
  have hcall : Listener.callOk w.listener = some { w.listener with
      inflight := none
      accepted := w.listener.accepted ++ [offset] } := by
    rw [Listener.callOk, hinflight]
    rfl
  have hstep : step limits wallet log w (.listener .callOk 2000000 (10 * 10 ^ 9)) =
      some { w.withNode (w.node.enqueue ⟨w.node.nextNonce, 2000000, 10 * 10 ^ 9, issue⟩) with
        listener := { w.listener with
          inflight := none
          accepted := w.listener.accepted ++ [offset] } } := by
    show submit log 2000000 (10 * 10 ^ 9) w = _
    simp only [submit, hinflight, hissue, hcall, hsend, Option.bind_eq_bind, Option.bind_some]
    rfl
  refine ⟨_, hstep, ⟨h.consumer, h.decodes, h.listener, h.events⟩, ?_⟩
  have hlength : (w.node.enqueue ⟨w.node.nextNonce, 2000000, 10 * 10 ^ 9, issue⟩).pending.length =
      w.node.pending.length + 1 := List.length_append
  simp only [todo, World.withNode, World.node, hinflight, Option.toList_some, Option.toList_none,
    List.length_singleton, List.length_nil] at hlength ⊢
  omega

theorem Healthy.deliver (h : Healthy limits log w) (hidle : w.listener.inflight = none)
    (hlt : w.listener.position < log.length) :
    ∃ w', step limits wallet log w (.listener .deliver 0 0) = some w' ∧ Healthy limits log w' ∧
      todo log w' < todo log w := by
  have hrecords : w.listener.position < (records log).length := by rwa [records, List.length_map]
  obtain ⟨l, hl⟩ := Listener.exists_deliver h.listener hidle hrecords
  have hstep :
      step limits wallet log w (.listener .deliver 0 0) = some { w with listener := l } := by
    show Option.map _ (Listener.deliver (records log) w.listener) = _
    rw [hl]
    rfl
  obtain ⟨-, -, payload, hpayload, hcases⟩ := Listener.deliver_cases hl
  obtain ⟨message, hmessage, rfl⟩ := getElem?_records hpayload
  have hevents := h.events
  obtain ⟨hlt, hget⟩ := List.getElem?_eq_some_iff.mp hmessage
  rw [List.drop_eq_getElem_cons hlt, hget] at hevents
  obtain ⟨hgoes, hlater⟩ := List.forall_mem_cons.mp hevents
  have hposition : l.position = w.listener.position + 1 := by
    rcases hcases with ⟨-, rfl⟩ | ⟨-, rfl⟩ | ⟨-, -, rfl⟩ <;> rfl
  have hrunning : l.running = true := by
    rcases hcases with ⟨hreact, -⟩ | ⟨-, rfl⟩ | ⟨-, -, rfl⟩
    · have hreacts := Listener.reacts (.message (some (some message)))
      rw [hreact] at hreacts
      cases hreacts with
      | panic hs _ => exact absurd hs hgoes
    · exact h.listener
    · exact h.listener
  refine ⟨_, hstep, ⟨h.consumer, h.decodes, hrunning, by rwa [hposition]⟩, ?_⟩
  have hopen : l.inflight.toList.length ≤ 1 := by cases l.inflight <;> simp
  have hnode : World.node { w with listener := l } = w.node := rfl
  simp only [todo, hnode, hposition]
  omega

theorem Healthy.progress (h : Healthy limits log w) (hs : Coherent log w) (hrest : ¬ w.AtRest log) :
    ∃ move w', Quiet move ∧ step limits wallet log w move = some w' ∧ Healthy limits log w' ∧
      todo log w' < todo log w := by
  by_cases hpending : w.node.pending = []
  · by_cases hqueue : w.consumer.queue = []
    · cases hinflight : w.listener.inflight with
      | some offset =>
          obtain ⟨-, issue, hissue⟩ := hs.calling offset hinflight
          rw [← issueAt_eq_issueOf] at hissue
          obtain ⟨w', hstep, hw'⟩ := h.call hs.consecutive hinflight (by simp [hissue])
          exact ⟨.listener .callOk 2000000 (10 * 10 ^ 9), w', Nat.le_refl _, hstep, hw'⟩
      | none =>
          by_cases hlt : w.listener.position < log.length
          · obtain ⟨w', hstep, hw'⟩ := h.deliver hinflight hlt
            exact ⟨.listener .deliver 0 0, w', trivial, hstep, hw'⟩
          · have hsettled : w.Settled log :=
              ⟨hpending, hqueue, h.consumer, Nat.le_of_not_lt hlt, hinflight⟩
            exact absurd ⟨hsettled, h.listener⟩ hrest
    · obtain ⟨w', hstep, hw'⟩ := h.read hpending hqueue
      exact ⟨.consumer .iterate, w', trivial, hstep, hw'⟩
  · obtain ⟨w', hstep, hw'⟩ := h.mine hs.consecutive hpending
    exact ⟨.consumer (.mine 1), w', trivial, hstep, hw'⟩

end Steps

-- Wherever a run has led, crashes and failed calls included, the system can
-- come to rest without further mishap exactly if both loops still run and no
-- message that they have not met would end them.
theorem completable_iff_healthy {limits : Python.Limits} {wallet : Address} {log : List Value}
    {s : State} {mined read first : ℕ} {moves : List Move} {w : World}
    (hrun : runAll (step limits wallet log) (start s mined log read first) moves = some w) :
    (∃ more w', (∀ move ∈ more, Quiet move) ∧ runAll (step limits wallet log) w more = some w' ∧
      w'.AtRest log) ↔ Healthy limits log w := by
  constructor
  · rintro ⟨more, w', hquiet, hmore, hrest⟩
    exact runAll_invariant_back (fun _ _ _ hmove hstep h => h.back hmove hstep)
      (healthy_of_atRest hrest) hquiet hmore
  · intro hhealthy
    have hstart : Coherent log (start s mined log read first) :=
      ⟨consecutive_start s mined log read first,
        fun offset h => absurd h (by simp [start, Listener.start])⟩
    have hstep : ∀ u move v, True → Coherent log u → step limits wallet log u move = some v →
        Coherent log v :=
      fun u move v _ hu huv => hu.step huv
    have hsound : Coherent log w := runAll_invariant_of_mem hstep hstart (fun _ _ => trivial) hrun
    exact exists_runAll_of_decreasing (I := fun u => Coherent log u ∧ Healthy limits log u)
      (todo log)
      (fun u hu hrest => by
        obtain ⟨move, v, hquiet, huv, hv, hlt⟩ := hu.2.progress hu.1 hrest
        exact ⟨move, v, hquiet, huv, ⟨hu.1.step huv, hv⟩, hlt⟩)
      ⟨hsound, hhealthy⟩

-- A crash after the block of the first wage: the listener will pay it again.
def crashedRun : List Move :=
  [.listener .deliver 0 0, .listener .callOk 90000 (20 * 10 ^ 9), .consumer (.mine 1),
    .consumer .iterate, .listener .crash 0 0]

theorem completable_iff_healthy_crashed :
    ∃ w, runAll (step ⟨1000, 4300⟩ 1 twoWages) (start investorState 0 twoWages 0 0) crashedRun =
      some w ∧ ∃ more w', (∀ move ∈ more, Quiet move) ∧
        runAll (step ⟨1000, 4300⟩ 1 twoWages) w more = some w' ∧ w'.AtRest twoWages := by
  obtain ⟨w, hw⟩ : ∃ w, runAll (step ⟨1000, 4300⟩ 1 twoWages) (start investorState 0 twoWages 0 0)
      crashedRun = some w :=
    Option.isSome_iff_exists.mp (by decide +kernel)
  have hend : (runAll (step ⟨1000, 4300⟩ 1 twoWages) (start investorState 0 twoWages 0 0)
      crashedRun).map (fun w =>
        (w.consumer.running, w.consumer.queue.all fun message =>
            decodePython ⟨1000, 4300⟩ message ≠ none,
          w.listener.running, (twoWages.drop w.listener.position).all fun message =>
            ¬ Listener.Item.Stops (.message (some (some message))))) =
        some (true, true, true, true) := by
    decide +kernel
  rw [hw] at hend
  simp only [Option.map_some, Option.some.injEq, Prod.mk.injEq, List.all_eq_true,
    decide_eq_true_eq] at hend
  obtain ⟨hconsumer, hdecodes, hlistener, hevents⟩ := hend
  exact ⟨w, hw, (completable_iff_healthy hw).mpr ⟨hconsumer, hdecodes, hlistener, hevents⟩⟩

end WageFix.Bridge
