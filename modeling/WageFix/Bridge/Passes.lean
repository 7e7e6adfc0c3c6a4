import WageFix.Bridge.Conservation
import WageFix.Reader
import WageFix.STO.Authority
import Mathlib.Order.Interval.Finset.Nat

namespace WageFix.Bridge

open Json Wire Mempool Transition Consumer

section Listener

variable {limits : Python.Limits} {wallet : Address} {log : List Value} {w w' : World}

-- The listener's half of a run is a run of the listener alone.
theorem listener_step {move : Move} (h : step limits wallet log w move = some w') :
    runAll (Listener.step (records log)) w.listener move.listening.toList = some w'.listener := by
  rcases step_cases h with
    ⟨rfl, consumer, -, rfl⟩ | ⟨count, node, rfl, -, rfl⟩ | ⟨gas, gasPrice, rfl, hsubmit⟩ |
    ⟨other, gas, gasPrice, listener, rfl, -, hlistener, rfl⟩ | ⟨m, rfl, -, rfl⟩
  · rfl
  · rfl
  · obtain ⟨offset, other, node, hoffset, -, -, rfl⟩ := submit_eq_some hsubmit
    have hcall : Listener.callOk w.listener = some { w.listener with
        inflight := none
        accepted := w.listener.accepted ++ [offset] } := by
      rw [Listener.callOk, hoffset]
      rfl
    exact runAll_cons_eq_some.mpr ⟨_, hcall, rfl⟩
  · exact runAll_cons_eq_some.mpr ⟨listener, hlistener, rfl⟩
  · rfl

theorem listener_run {moves : List Move}
    (h : runAll (step limits wallet log) w moves = some w') :
    runAll (Listener.step (records log)) w.listener (moves.filterMap Move.listening) =
      some w'.listener := by
  induction moves generalizing w with
  | nil =>
      obtain rfl : w = w' := Option.some.inj h
      rfl
  | cons move moves ih =>
      obtain ⟨u, hu, hrest⟩ := runAll_cons_eq_some.mp h
      rw [Reader.filterMap_cons_toList]
      exact runAll_append_eq_some.mpr ⟨u.listener, listener_step hu, ih hrest⟩

-- Nothing before the offset at which the listener began comes up again.
structure Beyond (first : ℕ) (l : Listener.World) : Prop where
  ordered : Listener.Ordered l
  committed : first ≤ l.committed
  inflight : ∀ offset, l.inflight = some offset → first ≤ offset
  accepted : ∀ offset ∈ l.accepted, first ≤ offset

theorem Beyond.step {first : ℕ} {events : List (Option Listener.Payload)} {l l' : Listener.World}
    {move : Listener.Move} (h : Beyond first l) (hstep : Listener.step events l move = some l') :
    Beyond first l' := by
  have hordered := Listener.ordered_step h.ordered hstep
  have hposition : first ≤ l.position :=
    h.committed.trans (h.ordered.committed_le.trans h.ordered.stored_le)
  cases move with
  | deliver =>
      obtain ⟨payload, running, inflight, -, -, rfl, hinflight⟩ := Listener.deliver_eq_some hstep
      refine ⟨hordered, h.committed, fun offset hoffset => ?_, h.accepted⟩
      have hoffset : inflight = some offset := hoffset
      rw [hinflight] at hoffset
      split at hoffset
      · rwa [← Option.some.inj hoffset]
      · exact absurd hoffset (by simp)
  | callOk =>
      obtain ⟨offset, hoffset, rfl⟩ := Option.map_eq_some_iff.mp hstep
      refine ⟨hordered, h.committed, by simp, fun other hother => ?_⟩
      rcases List.mem_append.mp hother with hother | hother
      · exact h.accepted other hother
      · rw [List.mem_singleton.mp hother]
        exact h.inflight offset hoffset
  | callErr =>
      obtain ⟨offset, -, rfl⟩ := Option.map_eq_some_iff.mp hstep
      exact ⟨hordered, h.committed, by simp, h.accepted⟩
  | autoCommit =>
      obtain rfl := Option.some.inj hstep
      exact ⟨hordered, h.committed.trans h.ordered.committed_le, h.inflight, h.accepted⟩
  | crash =>
      obtain rfl := Option.some.inj hstep
      exact ⟨hordered, h.committed, by simp [Listener.crash], h.accepted⟩

theorem issueAt_eq_some {offset : ℕ} {issue : Issue} (h : issueAt log offset = some issue) :
    offset < log.length ∧ Listener.IsEvent (records log) offset := by
  obtain ⟨message, hmessage, h⟩ := Option.bind_eq_some_iff.mp h
  obtain ⟨hlt, -⟩ := List.getElem?_eq_some_iff.mp hmessage
  have hrecord : (records log)[offset]? = some (some (some message)) := by
    rw [records, List.getElem?_map, hmessage]
    rfl
  split at h
  · rename_i other hreact
    exact ⟨hlt, _, other, hrecord, hreact⟩
  · exact absurd h (by simp)

theorem count_filterMap_eq_sum {β : Type} [DecidableEq β] {f : ℕ → Option β} {b : β} {m n : ℕ}
    (hf : ∀ k, f k = some b → k < n) {ks : List ℕ} (hks : ∀ k ∈ ks, m ≤ k) :
    (ks.filterMap f).count b = ∑ k ∈ Finset.Ico m n with f k = some b, ks.count k := by
  induction ks with
  | nil => simp
  | cons j ks ih =>
      have hle : m ≤ j := hks j List.mem_cons_self
      have hrest := ih fun k hk => hks k (List.mem_cons_of_mem j hk)
      have hj : j ∈ (Finset.Ico m n).filter (fun k => f k = some b) ↔ f j = some b := by
        rw [Finset.mem_filter, Finset.mem_Ico]
        exact ⟨fun h => h.2, fun h => ⟨⟨hle, hf j h⟩, h⟩⟩
      simp only [List.count_cons, beq_iff_eq, Finset.sum_add_distrib, Finset.sum_ite_eq, hj,
        ← hrest]
      cases h : f j with
      | none => rw [List.filterMap_cons_none h, if_neg (by simp), Nat.add_zero]
      | some c =>
          rw [List.filterMap_cons_some h, List.count_cons]
          simp

end Listener

section Bounds

variable {limits : Python.Limits} {wallet : Address} {log : List Value} {w w' : World}
variable {moves : List Move}

theorem sent_le_head (limits : Python.Limits) (issue : Issue) {message : Value} {queue : List Value}
    (hqueue : w.consumer.queue = message :: queue) :
    sent limits issue w (.consumer .iterate) + (queue.filterMap (decodePython limits)).count issue ≤
      (w.consumer.queue.filterMap (decodePython limits)).count issue := by
  rw [hqueue, Reader.filterMap_cons_toList, List.count_append]
  apply Nat.add_le_add_right
  simp only [sent, hqueue, List.head?_cons, Option.mem_some_iff, exists_eq_left']
  split_ifs with hsent
  · simp [hsent.1]
  · exact Nat.zero_le _

theorem sent_le_unread (issue : Issue)
    (hrun : runAll (step limits wallet log) w moves = some w') :
    ((trace (step limits wallet log) w moves).map fun p => sent limits issue p.1 p.2).sum ≤
      (w.consumer.queue.filterMap (decodePython limits)).count issue := by
  have hone : ∀ w move w', step limits wallet log w move = some w' →
      sent limits issue w move +
          (w'.consumer.queue.filterMap (decodePython limits)).count issue ≤
        (w.consumer.queue.filterMap (decodePython limits)).count issue := by
    intro w move w' hstep
    rcases step_cases hstep with
      ⟨rfl, consumer, hconsumer, rfl⟩ | ⟨count, node, rfl, -, rfl⟩ | ⟨gas, gasPrice, rfl, hsubmit⟩ |
      ⟨other, gas, gasPrice, listener, rfl, -, -, rfl⟩ | ⟨m, rfl, -, rfl⟩
    · obtain ⟨-, message, queue, hqueue, hbody⟩ := iterate_eq_some hconsumer
      have hread : consumer.queue = queue := by
        rcases hbody with ⟨node, -, rfl⟩ | ⟨-, rfl⟩ <;> rfl
      have hhead := sent_le_head limits issue hqueue
      rw [← hread] at hhead
      exact hhead
    · exact Nat.le_of_eq (Nat.zero_add _)
    · obtain ⟨offset, other, node, -, -, -, rfl⟩ := submit_eq_some hsubmit
      exact Nat.le_of_eq (Nat.zero_add _)
    · exact Nat.le_of_eq (Nat.zero_add _)
    · exact Nat.le_of_eq (Nat.zero_add _)
  have hbudget := runAll_add_le_budget
    (fun w : World => (w.consumer.queue.filterMap (decodePython limits)).count issue)
    (sent limits issue) hone hrun
  omega

theorem owner_execute (wallet : Address) (s : State) (issue : Issue) :
    (execute wallet s issue).owner = s.owner := by
  cases h : WageFix.step s ⟨wallet, .issueTokens issue.to_ issue.amount⟩ with
  | none => rw [execute, attempt_of_none h]
  | some t =>
      rw [execute, attempt_of_some h]
      exact (step_owner_of_moves (by rfl) h).1

theorem owner_mineBlock {count : ℕ} {n m : Node State Issue}
    (h : n.mineBlock (execute wallet) count = some m) : m.chain.owner = n.chain.owner := by
  induction count generalizing n with
  | zero => rw [Option.some.inj h]
  | succ count ih =>
      obtain ⟨k, hk, hrest⟩ := Option.bind_eq_some_iff.mp h
      rw [ih hrest]
      unfold Node.includeNext at hk
      split at hk
      · exact absurd hk (by simp)
      · obtain rfl := Option.some.inj hk
        exact owner_execute ..

-- The wallet keeps the token: it never hands it on, and nobody else can.
theorem owner_step {move : Move} (h : w.node.chain.owner = wallet)
    (hstep : step limits wallet log w move = some w') : w'.node.chain.owner = wallet := by
  rcases step_cases hstep with
    ⟨rfl, consumer, hconsumer, rfl⟩ | ⟨count, node, rfl, hnode, rfl⟩ | ⟨gas, gasPrice, rfl, hsubmit⟩ |
    ⟨other, gas, gasPrice, listener, rfl, -, -, rfl⟩ | ⟨m, rfl, hm, rfl⟩
  · obtain ⟨-, message, queue, -, hbody⟩ := iterate_eq_some hconsumer
    rcases hbody with ⟨node, hnode, rfl⟩ | ⟨-, rfl⟩
    · obtain ⟨other, -, hsend⟩ := body_eq_some.mp hnode
      rw [← h]
      exact congrArg State.owner (Node.send_chain hsend)
    · exact h
  · exact (owner_mineBlock hnode).trans h
  · obtain ⟨offset, other, node, -, -, hsend, rfl⟩ := submit_eq_some hsubmit
    rw [← h]
    exact congrArg State.owner (Node.send_chain hsend)
  · exact h
  · show (attempt WageFix.step w.node.chain m).owner = wallet
    cases hone : WageFix.step w.node.chain m with
    | none => rwa [attempt_of_none hone]
    | some t =>
        rw [attempt_of_some hone]
        by_contra hne
        have hchanged : t.owner ≠ w.node.chain.owner := by rwa [h]
        exact hm ((owner_of_change hone hchanged).trans h)

theorem outside_eq_zero {move : Move} (issue : Issue) (h : w.node.chain.owner = wallet)
    (hstep : step limits wallet log w move = some w') : outside issue w move = 0 := by
  cases move with
  | transact m =>
      apply if_neg
      rintro ⟨hmints, hsome⟩
      obtain ⟨t, ht⟩ := Option.isSome_iff_exists.mp hsome
      obtain ⟨ha, -⟩ := step_eq_some_iff.mp ht
      simp only [step] at hstep
      split_ifs at hstep with hsender
      obtain ⟨sender, call⟩ := m
      obtain rfl : call = .issueTokens issue.to_ issue.amount := hmints
      exact hsender (ha.1.symm.trans h)
  | consumer move => rfl
  | listener move gas gasPrice => rfl

theorem sum_outside (issue : Issue) (h : w.node.chain.owner = wallet)
    (hrun : runAll (step limits wallet log) w moves = some w') :
    ((trace (step limits wallet log) w moves).map fun p => outside issue p.1 p.2).sum = 0 := by
  have howner : ∀ w move w', w.node.chain.owner = wallet →
      step limits wallet log w move = some w' → w'.node.chain.owner = wallet :=
    fun w move w' => owner_step
  apply List.sum_eq_zero
  intro x hx
  obtain ⟨p, hp, rfl⟩ := List.mem_map.mp hx
  obtain ⟨hkept, u, hu⟩ := runAll_trace howner h hrun p hp
  exact outside_eq_zero issue hkept hu

end Bounds

-- However blocks, reads, calls, crashes and the transactions of others fall,
-- no wage is minted more often than the consumer was given it, and the
-- listener, from where it began, went over its event.
theorem mints_le_passes (limits : Python.Limits) (log : List Value) (s : State)
    (mined read first : ℕ) (moves : List Move) (w : World)
    (hrun : runAll (step limits s.owner log) (start s mined log read first) moves = some w)
    (issue : Issue) :
    let past := trace (Listener.step (records log)) (Listener.start first)
      (moves.filterMap Move.listening)
    mints issue w.node.chain ≤ mints issue s +
      ((log.drop read).filterMap (decodePython limits)).count issue +
      ∑ offset ∈ Finset.Ico first log.length with issueAt log offset = some issue,
        ((if offset < w.listener.position then 1 else 0) +
          past.countP fun p => Listener.rewinds offset p.1 p.2) := by
  intro past
  have hconserved := conserved_run (consecutive_start s mined log read first) hrun issue
  have howner : (start s mined log read first).node.chain.owner = s.owner := rfl
  have houtside := sum_outside issue howner hrun
  have hsent := sent_le_unread issue hrun
  have hlistener := listener_run hrun
  have hreplay := replay_of_runAll hlistener
  have hbeyond : Beyond first w.listener :=
    runAll_invariant_of_mem (P := fun _ => True) (fun _ _ _ _ h hstep => h.step hstep)
      ⟨⟨Nat.le_refl _, Nat.le_refl _⟩, Nat.le_refl _, fun _ h => absurd h (by simp [start,
        Listener.start]), fun _ h => absurd h List.not_mem_nil⟩ (fun _ _ => trivial) hlistener
  have haccepted : accepted log issue w ≤
      ∑ offset ∈ Finset.Ico first log.length with issueAt log offset = some issue,
        ((if offset < w.listener.position then 1 else 0) +
          past.countP fun p => Listener.rewinds offset p.1 p.2) := by
    rw [accepted, count_filterMap_eq_sum (fun offset h => (issueAt_eq_some h).1) hbeyond.accepted]
    apply Finset.sum_le_sum
    intro offset hoffset
    obtain ⟨hwithin, hissue⟩ := Finset.mem_filter.mp hoffset
    have hfirst : first ≤ offset := (Finset.mem_Ico.mp hwithin).1
    have hsettled := Listener.settled_replay (issueAt_eq_some hissue).2 hfirst
      (moves.filterMap Move.listening)
    dsimp only at hsettled
    have hstart : (start s mined log read first).listener = Listener.start first := rfl
    rw [← hstart, hreplay] at hsettled
    simp only [Listener.settled, Listener.reached] at hsettled
    show w.listener.accepted.count offset ≤ _
    simp only [past, ← hstart]
    omega
  have hzero : standing issue (start s mined log read first).node = mints issue s ∧
      accepted log issue (start s mined log read first) = 0 := ⟨rfl, rfl⟩
  have hqueue : (start s mined log read first).consumer.queue = log.drop read := rfl
  dsimp only at hconserved
  rw [hzero.1, hzero.2, houtside] at hconserved
  rw [hqueue] at hsent
  have hmints : mints issue w.node.chain ≤ standing issue w.node := Nat.le_add_right _ _
  omega

-- A crash that goes back over the second wage, without the consumer. The first
-- lies before the offset at which the listener began.
def gonebackOver : List Move :=
  [.listener .deliver 0 0, .listener .callOk 90000 1, .listener .crash 0 0,
    .listener .deliver 0 0, .listener .callOk 90000 1, .consumer (.mine 2)]

theorem mints_le_passes_crash :
    ∃ w, runAll (step ⟨1000, 4300⟩ investorState.owner twoWages)
      (start investorState 0 twoWages 2 1) gonebackOver = some w ∧
        mints ⟨2, 5⟩ w.node.chain ≤ 2 := by
  obtain ⟨w, hw⟩ : ∃ w, runAll (step ⟨1000, 4300⟩ investorState.owner twoWages)
      (start investorState 0 twoWages 2 1) gonebackOver = some w :=
    Option.isSome_iff_exists.mp (by decide +kernel)
  have hposition : (runAll (step ⟨1000, 4300⟩ investorState.owner twoWages)
      (start investorState 0 twoWages 2 1) gonebackOver).map (fun w => w.listener.position) =
        some 2 := by
    decide +kernel
  rw [hw] at hposition
  have hposition : w.listener.position = 2 := Option.some.inj hposition
  refine ⟨w, hw, ?_⟩
  have hmints := mints_le_passes ⟨1000, 4300⟩ twoWages investorState 0 2 1 gonebackOver w hw ⟨2, 5⟩
  dsimp only at hmints
  rw [hposition] at hmints
  exact hmints.trans (by decide +kernel)

end WageFix.Bridge
