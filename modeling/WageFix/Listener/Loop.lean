import WageFix.Listener.Accounting
import WageFix.Listener.Survival

namespace WageFix.Listener

open Json Wire Transition

def issueOf (log : List (Option Payload)) (offset : ℕ) : Option Issue :=
  log[offset]?.bind fun payload => (Item.message payload).issue

-- The call that a move brings to its end, with what it comes back with.
def returned (log : List (Option Payload)) (w : World) : Move → Option Attempt
  | .callOk => (w.inflight.bind (issueOf log)).map (⟨·, true⟩)
  | .callErr => (w.inflight.bind (issueOf log)).map (⟨·, false⟩)
  | _ => none

def attempts (log : List (Option Payload)) (past : List (World × Move)) : List Attempt :=
  past.filterMap fun p => returned log p.1 p.2

def World.exit (w : World) : Exit := if w.running then .waiting else .panicked

-- The loop has gone as far as the log takes it.
def World.Spent (log : List (Option Payload)) (w : World) : Prop :=
  w.inflight = none ∧ (w.running = true → log.length ≤ w.position)

def ahead (log : List (Option Payload)) (w : World) : List Item :=
  (log.drop w.position).map .message

-- What the loop still does from a state of the listener, after the calls made.
def resume (outcome : List Attempt → Issue → Bool) (log : List (Option Payload))
    (made : List Attempt) (w : World) : List Attempt × Exit :=
  match w.inflight.bind (issueOf log) with
  | some issue => recvLoop outcome (made ++ [⟨issue, outcome made issue⟩]) (ahead log w)
  | none => if w.running then recvLoop outcome made (ahead log w) else (made, .panicked)

-- A call is open only while the loop runs, and it is that of an event.
def Calling (log : List (Option Payload)) (w : World) : Prop :=
  ∀ offset, w.inflight = some offset → w.running = true ∧ ∃ issue, issueOf log offset = some issue

section Steps

variable {outcome : List Attempt → Issue → Bool} {log : List (Option Payload)}
  {made : List Attempt} {w w' : World}

theorem react_message_ne_leave (payload : Option Payload) : react (.message payload) ≠ .leave := by
  cases payload with
  | none => simp [react]
  | some payload =>
      simp only [react]
      split
      · simp
      · split <;> simp

theorem deliver_cases (h : deliver log w = some w') :
    w.running = true ∧ w.inflight = none ∧ ∃ payload, log[w.position]? = some payload ∧
      ((react (.message payload) = .panic ∧ w' = { w with
          running := false
          position := w.position + 1
          stored := w.position + 1 }) ∨
        (react (.message payload) = .pass ∧ w' = { w with
          position := w.position + 1
          stored := w.position + 1 }) ∨
        ∃ issue, react (.message payload) = .call issue ∧ w' = { w with
          position := w.position + 1
          inflight := some w.position
          stored := w.position + 1 }) := by
  unfold deliver at h
  split at h
  · rename_i payload hrunning hidle hpayload
    refine ⟨hrunning, hidle, payload, hpayload, ?_⟩
    cases hreact : react (.message payload) with
    | leave => exact absurd hreact (react_message_ne_leave payload)
    | pass =>
        rw [hreact] at h
        exact .inr (.inl ⟨rfl, (Option.some.inj h).symm⟩)
    | panic =>
        rw [hreact] at h
        exact .inl ⟨rfl, (Option.some.inj h).symm⟩
    | call issue =>
        rw [hreact] at h
        exact .inr (.inr ⟨issue, rfl, (Option.some.inj h).symm⟩)
  · exact absurd h (by simp)

theorem issue_of_call {item : Item} {issue : Issue} (h : react item = .call issue) :
    item.issue = some issue := by
  have hreacts := reacts item
  rw [h] at hreacts
  cases hreacts with
  | call issue hs hi => exact hi

theorem issueOf_of_call {offset : ℕ} {payload : Option Payload} {issue : Issue}
    (hpayload : log[offset]? = some payload) (h : react (.message payload) = .call issue) :
    issueOf log offset = some issue := by
  rw [issueOf, hpayload, Option.bind_some]
  exact issue_of_call h

theorem calling_step {move : Move} (h : Calling log w) (hstep : step log w move = some w') :
    Calling log w' := by
  cases move with
  | deliver =>
      obtain ⟨hrunning, hidle, payload, hpayload, hcases⟩ := deliver_cases hstep
      intro offset hoffset
      rcases hcases with ⟨-, rfl⟩ | ⟨-, rfl⟩ | ⟨issue, hcall, rfl⟩
      · exact absurd (hidle.symm.trans hoffset) (by simp)
      · exact absurd (hidle.symm.trans hoffset) (by simp)
      · obtain rfl := Option.some.inj hoffset
        exact ⟨hrunning, issue, issueOf_of_call hpayload hcall⟩
  | callOk =>
      obtain ⟨k, -, rfl⟩ := Option.map_eq_some_iff.mp hstep
      intro offset hoffset
      exact absurd hoffset (by simp)
  | callErr =>
      obtain ⟨k, -, rfl⟩ := Option.map_eq_some_iff.mp hstep
      intro offset hoffset
      exact absurd hoffset (by simp)
  | autoCommit =>
      obtain rfl := Option.some.inj hstep
      exact h
  | crash =>
      obtain rfl := Option.some.inj hstep
      intro offset hoffset
      exact absurd hoffset (by simp [crash])

theorem ahead_eq_cons {payload : Option Payload} (h : log[w.position]? = some payload) :
    ahead log w = .message payload :: (log.drop (w.position + 1)).map .message := by
  obtain ⟨hlt, hget⟩ := List.getElem?_eq_some_iff.mp h
  rw [ahead, List.drop_eq_getElem_cons hlt, hget, List.map_cons]

theorem resume_idle (hrunning : w.running = true) (hidle : w.inflight = none) :
    resume outcome log made w = recvLoop outcome made (ahead log w) := by
  rw [resume, hidle, Option.bind_none]
  exact if_pos hrunning

theorem resume_dead (hrunning : w.running = false) (hidle : w.inflight = none) :
    resume outcome log made w = (made, .panicked) := by
  rw [resume, hidle, Option.bind_none]
  exact if_neg (by simp [hrunning])

theorem resume_open {offset : ℕ} {issue : Issue} (hinflight : w.inflight = some offset)
    (hissue : issueOf log offset = some issue) :
    resume outcome log made w =
      recvLoop outcome (made ++ [⟨issue, outcome made issue⟩]) (ahead log w) := by
  rw [resume, hinflight, Option.bind_some, hissue]

theorem resume_deliver (h : deliver log w = some w') :
    resume outcome log made w = resume outcome log made w' := by
  obtain ⟨hrunning, hidle, payload, hpayload, hcases⟩ := deliver_cases h
  have hahead : ahead log w' = (log.drop (w.position + 1)).map .message := by
    rcases hcases with ⟨-, rfl⟩ | ⟨-, rfl⟩ | ⟨-, -, rfl⟩ <;> rfl
  rw [resume_idle hrunning hidle, ahead_eq_cons hpayload, ← hahead]
  rcases hcases with ⟨hreact, hw'⟩ | ⟨hreact, hw'⟩ | ⟨issue, hreact, hw'⟩
  · have hdead : w'.running = false := congrArg World.running hw'
    have hnone : w'.inflight = none := (congrArg World.inflight hw').trans hidle
    rw [resume_dead hdead hnone, recvLoop, hreact]
  · have halive : w'.running = true := (congrArg World.running hw').trans hrunning
    have hnone : w'.inflight = none := (congrArg World.inflight hw').trans hidle
    rw [resume_idle halive hnone, recvLoop, hreact]
  · have hopen : w'.inflight = some w.position := congrArg World.inflight hw'
    rw [resume_open hopen (issueOf_of_call hpayload hreact), recvLoop_call hreact]

theorem resume_return {offset : ℕ} {issue : Issue} {accepted : Bool}
    (hinflight : w.inflight = some offset) (hissue : issueOf log offset = some issue)
    (houtcome : outcome made issue = accepted) (hrunning : w'.running = true)
    (hidle : w'.inflight = none) (hposition : w'.position = w.position) :
    resume outcome log made w = resume outcome log (made ++ [⟨issue, accepted⟩]) w' := by
  rw [resume_open hinflight hissue, resume_idle hrunning hidle, houtcome, ahead, ahead, hposition]

-- A step of the listener is a step of the loop, where the call that it ends
-- comes back as the loop is told.
theorem resume_step {move : Move} (h : Calling log w) (hmove : move ≠ .crash)
    (hstep : step log w move = some w')
    (houtcome : ∀ a ∈ returned log w move, outcome made a.issue = a.accepted) :
    resume outcome log made w = resume outcome log (made ++ (returned log w move).toList) w' := by
  cases move with
  | deliver =>
      simp only [returned, Option.toList_none, List.append_nil]
      exact resume_deliver hstep
  | callOk =>
      obtain ⟨k, hk, rfl⟩ := Option.map_eq_some_iff.mp hstep
      obtain ⟨hrunning, issue, hissue⟩ := h k hk
      simp only [returned, hk, Option.bind_some, hissue, Option.map_some] at houtcome ⊢
      exact resume_return hk hissue (houtcome _ rfl) hrunning rfl rfl
  | callErr =>
      obtain ⟨k, hk, rfl⟩ := Option.map_eq_some_iff.mp hstep
      obtain ⟨hrunning, issue, hissue⟩ := h k hk
      simp only [returned, hk, Option.bind_some, hissue, Option.map_some] at houtcome ⊢
      exact resume_return hk hissue (houtcome _ rfl) hrunning rfl rfl
  | autoCommit =>
      obtain rfl := Option.some.inj hstep
      simp only [returned, Option.toList_none, List.append_nil]
      rfl
  | crash => exact absurd rfl hmove

theorem resume_spent (h : w.Spent log) : resume outcome log made w = (made, w.exit) := by
  cases hrunning : w.running with
  | false => rw [resume_dead hrunning h.1, World.exit, hrunning]; rfl
  | true =>
      have hnone : log.drop w.position = [] := List.drop_eq_nil_of_le (h.2 hrunning)
      rw [resume_idle hrunning h.1, ahead, hnone, World.exit, hrunning]
      rfl

end Steps

section Runs

variable {outcome : List Attempt → Issue → Bool} {log : List (Option Payload)}
  {made : List Attempt} {w w' : World} {moves : List Move}

-- The calls come back as the loop is told.
def Told (outcome : List Attempt → Issue → Bool) : List Attempt → List Attempt → Prop
  | _, [] => True
  | made, a :: later => outcome made a.issue = a.accepted ∧ Told outcome (made ++ [a]) later

theorem told_append {early later : List Attempt} : Told outcome made (early ++ later) ↔
    Told outcome made early ∧ Told outcome (made ++ early) later := by
  induction early generalizing made with
  | nil => simp [Told]
  | cons a early ih => simp [Told, ih, and_assoc]

theorem attempts_cons {move : Move} {moves : List Move} (h : step log w move = some w') :
    attempts log (trace (step log) w (move :: moves)) =
      (returned log w move).toList ++ attempts log (trace (step log) w' moves) := by
  rw [trace_cons, attempt_of_some h, attempts, Reader.filterMap_cons_toList]
  rfl

theorem resume_run (h : Calling log w) (hmoves : ∀ move ∈ moves, move ≠ .crash)
    (hrun : runAll (step log) w moves = some w')
    (htold : Told outcome made (attempts log (trace (step log) w moves))) :
    resume outcome log made w =
      resume outcome log (made ++ attempts log (trace (step log) w moves)) w' := by
  induction moves generalizing w made with
  | nil =>
      obtain rfl : w = w' := Option.some.inj hrun
      simp [attempts]
  | cons move moves ih =>
      obtain ⟨u, hu, hrest⟩ := runAll_cons_eq_some.mp hrun
      rw [attempts_cons hu] at htold ⊢
      obtain ⟨hfirst, hlater⟩ := told_append.mp htold
      have houtcome : ∀ a ∈ returned log w move, outcome made a.issue = a.accepted := by
        intro a ha
        rw [Option.mem_def.mp ha] at hfirst
        exact hfirst.1
      obtain ⟨hmove, hmoves⟩ := List.forall_mem_cons.mp hmoves
      rw [resume_step h hmove hu houtcome, ih (calling_step h hu) hmoves hrest hlater,
        List.append_assoc]

-- Any list of calls and results is one that the loop can be told.
theorem told_of_split {made later all : List Attempt} (h : made ++ later = all) :
    Told (fun done _ => all[done.length]?.any (·.accepted)) made later := by
  induction later generalizing made with
  | nil => trivial
  | cons a later ih =>
      refine ⟨?_, ih (by rw [← h, List.append_assoc, List.singleton_append])⟩
      simp [← h]

-- From here the listener can come to where its loop is spent, as the loop is
-- told.
def Goes (outcome : List Attempt → Issue → Bool) (log : List (Option Payload))
    (made : List Attempt) (w : World) : Prop :=
  ∃ moves w', (∀ move ∈ moves, move ≠ .crash) ∧ runAll (step log) w moves = some w' ∧
    w'.Spent log ∧ Told outcome made (attempts log (trace (step log) w moves))

theorem Goes.cons {move : Move} (h : Goes outcome log (made ++ (returned log w move).toList) w')
    (hmove : move ≠ .crash) (hstep : step log w move = some w')
    (houtcome : ∀ a ∈ returned log w move, outcome made a.issue = a.accepted) :
    Goes outcome log made w := by
  obtain ⟨moves, u, hmoves, hrun, hspent, htold⟩ := h
  refine ⟨move :: moves, u, List.forall_mem_cons.mpr ⟨hmove, hmoves⟩,
    runAll_cons_eq_some.mpr ⟨w', hstep, hrun⟩, hspent, ?_⟩
  rw [attempts_cons hstep]
  refine told_append.mpr ⟨?_, htold⟩
  cases hreturned : returned log w move with
  | none => trivial
  | some a => exact ⟨houtcome a hreturned, trivial⟩

theorem Goes.answered {offset : ℕ} {issue : Issue} (hinflight : w.inflight = some offset)
    (hissue : issueOf log offset = some issue)
    (h : ∀ accepted offsets, Goes outcome log (made ++ [⟨issue, accepted⟩])
      { w with inflight := none, accepted := offsets }) :
    Goes outcome log made w := by
  cases hanswer : outcome made issue with
  | true =>
      have hreturned : returned log w .callOk = some ⟨issue, true⟩ := by
        simp [returned, hinflight, hissue]
      have hstep : step log w .callOk =
          some { w with inflight := none, accepted := w.accepted ++ [offset] } := by
        simp [step, callOk, hinflight]
      refine Goes.cons ?_ (by simp) hstep ?_
      · rw [hreturned]
        exact h true _
      · simp [hreturned, hanswer]
  | false =>
      have hreturned : returned log w .callErr = some ⟨issue, false⟩ := by
        simp [returned, hinflight, hissue]
      have hstep : step log w .callErr = some { w with inflight := none } := by
        simp [step, callErr, hinflight]
      refine Goes.cons ?_ (by simp) hstep ?_
      · rw [hreturned]
        exact h false _
      · simp [hreturned, hanswer]

theorem exists_deliver (hrunning : w.running = true) (hidle : w.inflight = none)
    (hlt : w.position < log.length) : ∃ w', deliver log w = some w' := by
  have hpayload := List.getElem?_eq_getElem hlt
  unfold deliver
  rw [hrunning, hidle, hpayload]
  dsimp only
  split <;> exact ⟨_, rfl⟩

theorem goes_of_idle (hidle : w.inflight = none) : Goes outcome log made w := by
  induction hn : log.length - w.position using Nat.strong_induction_on generalizing w made with
  | _ n ih =>
      by_cases hmore : w.running = true ∧ w.position < log.length
      · obtain ⟨hrunning, hlt⟩ := hmore
        obtain ⟨u, hu⟩ := exists_deliver hrunning hidle hlt
        have hstep : step log w .deliver = some u := hu
        have hcons : Goes outcome log made u → Goes outcome log made w := fun h =>
          Goes.cons (by simpa [returned] using h) (by simp) hstep (by simp [returned])
        apply hcons
        obtain ⟨-, -, payload, hpayload, hcases⟩ := deliver_cases hu
        rcases hcases with ⟨-, rfl⟩ | ⟨-, rfl⟩ | ⟨issue, hreact, rfl⟩
        · exact ⟨[], _, by simp, rfl, ⟨hidle, by simp⟩, trivial⟩
        · exact ih _ (by show log.length - (w.position + 1) < n; omega) hidle rfl
        · refine Goes.answered rfl (issueOf_of_call hpayload hreact) fun accepted offsets => ?_
          exact ih _ (by show log.length - (w.position + 1) < n; omega) rfl rfl
      · refine ⟨[], w, by simp, rfl, ⟨hidle, fun hrunning => ?_⟩, trivial⟩
        exact Nat.le_of_not_lt fun hlt => hmore ⟨hrunning, hlt⟩

end Runs

-- Between two crashes the listener on the partition is the loop on the
-- messages from the committed offset on: both can make the same calls with the
-- same results, and end in the same way.
theorem life_is_loop (log : List (Option Payload)) (w : World) (made : List Attempt)
    (exit : Exit) :
    (∃ outcome, recvLoop outcome [] ((log.drop w.committed).map .message) = (made, exit)) ↔
      ∃ moves w', (∀ move ∈ moves, move ≠ .crash) ∧
        runAll (step log) (crash w) moves = some w' ∧ w'.Spent log ∧
        attempts log (trace (step log) (crash w) moves) = made ∧ w'.exit = exit := by
  have hcalling : Calling log (crash w) := fun offset h => absurd h (by simp [crash])
  have hloop : ∀ outcome, resume outcome log [] (crash w) =
      recvLoop outcome [] ((log.drop w.committed).map .message) :=
    fun outcome => resume_idle rfl rfl
  constructor
  · rintro ⟨outcome, hend⟩
    have hgoes : Goes outcome log [] (crash w) := goes_of_idle rfl
    obtain ⟨moves, w', hmoves, hrun, hspent, htold⟩ := hgoes
    have hresume := resume_run hcalling hmoves hrun htold
    rw [hloop, hend, resume_spent hspent] at hresume
    obtain ⟨hmade, hexit⟩ := Prod.mk.inj hresume
    exact ⟨moves, w', hmoves, hrun, hspent, hmade.symm, hexit.symm⟩
  · rintro ⟨moves, w', hmoves, hrun, hspent, rfl, rfl⟩
    have htold := told_of_split (List.nil_append (attempts log (trace (step log) (crash w) moves)))
    have hresume := resume_run hcalling hmoves hrun htold
    rw [hloop, resume_spent hspent] at hresume
    exact ⟨_, hresume⟩

end WageFix.Listener
