import WageFix.Listener
import WageFix.Transition

namespace WageFix.Listener

open Json Wire Transition

def IsEvent (log : List (Option Payload)) (offset : ℕ) : Prop :=
  ∃ payload issue, log[offset]? = some payload ∧ react (.message payload) = .call issue

-- What can happen to an event besides its call being accepted: the call fails,
-- a crash cuts it off, a crash goes back over it.
def fails (offset : ℕ) (w : World) (move : Move) : Prop :=
  move = .callErr ∧ w.inflight = some offset

def cuts (offset : ℕ) (w : World) (move : Move) : Prop :=
  move = .crash ∧ w.inflight = some offset

def rewinds (offset : ℕ) (w : World) (move : Move) : Prop :=
  move = .crash ∧ w.committed ≤ offset ∧ offset < w.position

instance (offset : ℕ) (w : World) (move : Move) : Decidable (fails offset w move) :=
  inferInstanceAs (Decidable (_ ∧ _))

instance (offset : ℕ) (w : World) (move : Move) : Decidable (cuts offset w move) :=
  inferInstanceAs (Decidable (_ ∧ _))

instance (offset : ℕ) (w : World) (move : Move) : Decidable (rewinds offset w move) :=
  inferInstanceAs (Decidable (_ ∧ _))

structure Ordered (w : World) : Prop where
  committed_le : w.committed ≤ w.stored
  stored_le : w.stored ≤ w.position

-- The deliveries of an event that have left the loop accepted, or are in it.
def settled (offset : ℕ) (w : World) : ℕ :=
  w.accepted.count offset + if w.inflight = some offset then 1 else 0

def reached (offset : ℕ) (w : World) : ℕ := if offset < w.position then 1 else 0

section Steps

variable {log : List (Option Payload)} {w w' : World} {offset : ℕ}

theorem deliver_eq_some (h : deliver log w = some w') :
    ∃ payload running inflight, log[w.position]? = some payload ∧ w.inflight = none ∧
      w' = { w with
        running := running
        position := w.position + 1
        inflight := inflight
        stored := w.position + 1 } ∧
      inflight = match react (.message payload) with
        | .call _ => some w.position
        | _ => none := by
  unfold deliver at h
  split at h
  · rename_i payload hrunning hinflight hpayload
    refine ⟨payload, w'.running, w'.inflight, hpayload, hinflight, ?_⟩
    split at h <;> rename_i hreact <;> obtain rfl := Option.some.inj h <;> simp [hreact, hinflight]
  · exact absurd h (by simp)

theorem ordered_step {move : Move} (h : Ordered w) (hstep : step log w move = some w') :
    Ordered w' := by
  cases move with
  | deliver =>
      obtain ⟨payload, running, inflight, -, -, rfl, -⟩ := deliver_eq_some hstep
      have hcommitted := h.committed_le
      have hstored := h.stored_le
      exact ⟨by show w.committed ≤ w.position + 1; omega, Nat.le_refl _⟩
  | callOk =>
      obtain ⟨o, -, rfl⟩ := Option.map_eq_some_iff.mp hstep
      exact ⟨h.committed_le, h.stored_le⟩
  | callErr =>
      obtain ⟨o, -, rfl⟩ := Option.map_eq_some_iff.mp hstep
      exact ⟨h.committed_le, h.stored_le⟩
  | autoCommit =>
      obtain rfl := Option.some.inj hstep
      exact ⟨Nat.le_refl _, h.stored_le⟩
  | crash =>
      obtain rfl := Option.some.inj hstep
      exact ⟨Nat.le_refl _, Nat.le_refl _⟩

theorem settled_deliver (hevent : IsEvent log offset) (hstep : deliver log w = some w') :
    settled offset w' + reached offset w = settled offset w + reached offset w' := by
  obtain ⟨payload, running, inflight, hpayload, hidle, rfl, hinflight⟩ := deliver_eq_some hstep
  obtain ⟨payload', issue, hpayload', hcall⟩ := hevent
  by_cases hoffset : w.position = offset
  · rw [hoffset, hpayload'] at hpayload
    obtain rfl := Option.some.inj hpayload
    rw [hcall] at hinflight
    simp [settled, reached, hidle, hinflight, hoffset]
  · have hne : inflight ≠ some offset := by
      rw [hinflight]
      split
      · exact fun h => hoffset (Option.some.inj h)
      · simp
    have hreached : offset < w.position + 1 ↔ offset < w.position := by omega
    simp [settled, reached, hidle, hne, hreached]

theorem settled_callOk (offset : ℕ) (hstep : callOk w = some w') :
    settled offset w' = settled offset w ∧ reached offset w' = reached offset w := by
  obtain ⟨o, ho, rfl⟩ := Option.map_eq_some_iff.mp hstep
  by_cases heq : o = offset
  · simp [settled, reached, ho, heq]
  · simp [settled, reached, ho, heq]

theorem settled_callErr (offset : ℕ) (hstep : callErr w = some w') :
    settled offset w' + (if fails offset w .callErr then 1 else 0) = settled offset w ∧
      reached offset w' = reached offset w := by
  obtain ⟨o, ho, rfl⟩ := Option.map_eq_some_iff.mp hstep
  by_cases heq : o = offset
  · simp [settled, reached, fails, ho, heq]
  · simp [settled, reached, fails, ho, heq]

theorem settled_crash (offset : ℕ) (w : World) :
    settled offset (crash w) + (if cuts offset w .crash then 1 else 0) = settled offset w := by
  simp [settled, crash, cuts]

theorem reached_crash (h : Ordered w) (offset : ℕ) :
    reached offset (crash w) + (if rewinds offset w .crash then 1 else 0) = reached offset w := by
  have hle : w.committed ≤ w.position := h.committed_le.trans h.stored_le
  by_cases hcommitted : offset < w.committed
  · have hposition : offset < w.position := by omega
    have hrewinds : ¬ rewinds offset w .crash := fun hr => absurd hr.2.1 (by omega)
    simp [reached, crash, hcommitted, hposition, hrewinds]
  · have hrewinds : rewinds offset w .crash ↔ offset < w.position :=
      ⟨fun hr => hr.2.2, fun hlt => ⟨rfl, by omega, hlt⟩⟩
    simp [reached, crash, hcommitted, hrewinds]

theorem settled_step {move : Move} (hevent : IsEvent log offset) (h : Ordered w)
    (hstep : step log w move = some w') :
    settled offset w' + reached offset w + (if fails offset w move then 1 else 0) +
        (if cuts offset w move then 1 else 0) =
      settled offset w + reached offset w' + (if rewinds offset w move then 1 else 0) := by
  cases move with
  | deliver =>
      have hsettled := settled_deliver hevent hstep
      simp only [fails, cuts, rewinds, reduceCtorEq, false_and, if_false]
      omega
  | callOk =>
      have hsettled := settled_callOk offset hstep
      simp only [fails, cuts, rewinds, reduceCtorEq, false_and, if_false]
      omega
  | callErr =>
      have hsettled := settled_callErr offset hstep
      simp only [cuts, rewinds, reduceCtorEq, false_and, if_false]
      omega
  | autoCommit =>
      obtain rfl := Option.some.inj hstep
      simp only [fails, cuts, rewinds, reduceCtorEq, false_and, if_false]
      rfl
  | crash =>
      obtain rfl := Option.some.inj hstep
      have hsettled := settled_crash offset w
      have hreached := reached_crash h offset
      simp only [fails, reduceCtorEq, false_and, if_false]
      omega

theorem idle_of_refused {move : Move} (offset : ℕ) (hstep : step log w move = none) :
    ¬ fails offset w move ∧ ¬ cuts offset w move ∧ ¬ rewinds offset w move := by
  refine ⟨?_, ?_, ?_⟩
  · rintro ⟨rfl, hinflight⟩
    have hidle : w.inflight = none := Option.map_eq_none_iff.mp hstep
    exact absurd (hidle.symm.trans hinflight) (by simp)
  · rintro ⟨rfl, -⟩
    exact absurd hstep (by simp [step])
  · rintro ⟨rfl, -⟩
    exact absurd hstep (by simp [step])

theorem settled_attempt (hevent : IsEvent log offset) (h : Ordered w) (move : Move) :
    settled offset (attempt (step log) w move) + reached offset w +
        ((if fails offset w move then 1 else 0) + if cuts offset w move then 1 else 0) =
      settled offset w + reached offset (attempt (step log) w move) +
        if rewinds offset w move then 1 else 0 := by
  cases hstep : step log w move with
  | none =>
      obtain ⟨hfails, hcuts, hrewinds⟩ := idle_of_refused offset hstep
      rw [attempt_of_none hstep, if_neg hfails, if_neg hcuts, if_neg hrewinds]
  | some w' =>
      have hone := settled_step hevent h hstep
      rw [attempt_of_some hstep]
      omega

end Steps

section Runs

variable {log : List (Option Payload)} {first offset : ℕ}

theorem ordered_replay (moves : List Move) : Ordered (replay (step log) (start first) moves) :=
  replay_invariant (fun _ _ _ => ordered_step) ⟨Nat.le_refl _, Nat.le_refl _⟩ moves

-- Every time that a run reaches an event, the call is accepted, fails, is cut
-- off or still open, and a run reaches it again after every crash that goes
-- back over it.
theorem settled_replay (hevent : IsEvent log offset) (hfirst : first ≤ offset) (moves : List Move) :
    let past := trace (step log) (start first) moves
    let w := replay (step log) (start first) moves
    settled offset w + past.countP (fun p => fails offset p.1 p.2) +
        past.countP (fun p => cuts offset p.1 p.2) =
      reached offset w + past.countP (fun p => rewinds offset p.1 p.2) := by
  intro past w
  have hordered : ∀ w m, Ordered w → Ordered (attempt (step log) w m) :=
    fun w m h => attempt_invariant (fun _ _ _ => ordered_step) h m
  have hbalance := replay_balance (I := Ordered) (settled offset) (reached offset)
    (fun w m => if rewinds offset w m then 1 else 0)
    (fun w m => (if fails offset w m then 1 else 0) + if cuts offset w m then 1 else 0)
    hordered (fun w m h => settled_attempt hevent h m)
    (s := start first) ⟨Nat.le_refl _, Nat.le_refl _⟩ moves
  have hstart : settled offset (start first) = 0 ∧ reached offset (start first) = 0 := by
    simp [settled, reached, start, Nat.not_lt.mpr hfirst]
  rw [List.sum_map_add, sum_trace_eq_countP, sum_trace_eq_countP, sum_trace_eq_countP, hstart.1,
    hstart.2] at hbalance
  show settled offset w + past.countP _ + past.countP _ = reached offset w + past.countP _
  simp only [past, w]
  omega

end Runs

-- How often the call of an event has been accepted, over any run: once for
-- reaching it and once for every crash that goes back over it, less the calls
-- that failed, that a crash cut off, or that is still open. So an event below
-- the committed offset that met none of these is issued exactly once.
theorem accepted_accounting (log : List (Option Payload)) (first : ℕ) (moves : List Move)
    (offset : ℕ) (hevent : IsEvent log offset) (hfirst : first ≤ offset) :
    let past := trace (step log) (start first) moves
    let w := replay (step log) (start first) moves
    let failed := past.countP fun p => fails offset p.1 p.2
    let cut := past.countP fun p => cuts offset p.1 p.2
    let rewound := past.countP fun p => rewinds offset p.1 p.2
    w.accepted.count offset + (if w.inflight = some offset then 1 else 0) + failed + cut =
        (if offset < w.position then 1 else 0) + rewound ∧
      w.accepted.count offset ≤ 1 + rewound ∧
      (offset < w.committed → failed = 0 → cut = 0 → rewound = 0 → w.inflight ≠ some offset →
        w.accepted.count offset = 1) := by
  intro past w failed cut rewound
  have hsettled : w.accepted.count offset + (if w.inflight = some offset then 1 else 0) + failed + cut =
      (if offset < w.position then 1 else 0) + rewound := settled_replay hevent hfirst moves
  have hordered : Ordered w := ordered_replay moves
  refine ⟨hsettled, ?_, ?_⟩
  · split_ifs at hsettled <;> omega
  · intro hcommitted hfailed hcut hrewound hinflight
    have hposition : offset < w.position :=
      lt_of_lt_of_le hcommitted (hordered.committed_le.trans hordered.stored_le)
    rw [if_neg hinflight, if_pos hposition, hfailed, hcut, hrewound] at hsettled
    omega

def oneWage : List (Option Payload) :=
  [some (some (wageMessage "0x0000000000000000000000000000000000000002" (.ofNat 5)))]

theorem isEvent_oneWage : IsEvent oneWage 0 :=
  ⟨_, ⟨2, 5⟩, rfl, by decide +kernel⟩

theorem accepted_accounting_oneWage :
    (replay (step oneWage) (start 0) [.deliver, .callOk, .autoCommit, .crash]).accepted.count 0 = 1 :=
  (accepted_accounting oneWage 0 [.deliver, .callOk, .autoCommit, .crash] 0 isEvent_oneWage
    (Nat.le_refl 0)).2.2 (by decide +kernel) (by decide +kernel) (by decide +kernel)
    (by decide +kernel) (by decide +kernel)

-- A crash between the call and the commit issues the event twice. One between
-- the commit and the call loses it.
theorem crash_repeats_or_loses :
    (∃ w, runAll (step oneWage) (start 0) [.deliver, .callOk, .crash, .deliver, .callOk] = some w ∧
      w.accepted.count 0 = 2) ∧
    ∃ w, runAll (step oneWage) (start 0) [.deliver, .autoCommit, .crash] = some w ∧
      0 < w.committed ∧ w.accepted.count 0 = 0 := by
  constructor
  · exact ⟨⟨true, 1, none, 1, 0, [0, 0]⟩, by decide +kernel, by decide⟩
  · exact ⟨⟨true, 1, none, 1, 1, []⟩, by decide +kernel, by decide, by decide⟩

end WageFix.Listener
