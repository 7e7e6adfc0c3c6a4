import WageFix.Listener.Accounting

namespace WageFix.Listener

open Json Wire Transition

-- The message at the offset makes the loop panic.
def IsPoison (log : List (Option Payload)) (offset : ℕ) : Prop :=
  ∃ payload, log[offset]? = some payload ∧ react (.message payload) = .panic

def dies (log : List (Option Payload)) (offset : ℕ) (w : World) (move : Move) : Prop :=
  move = .deliver ∧ w.position = offset ∧ (deliver log w).any fun w' => w'.running = false

-- The commit that comes between a death at the offset and the restart.
def buries (offset : ℕ) (w : World) (move : Move) : Prop :=
  move = .autoCommit ∧ w.running = false ∧ w.position = offset + 1 ∧ w.committed ≤ offset

instance (log : List (Option Payload)) (offset : ℕ) (w : World) (move : Move) :
    Decidable (dies log offset w move) :=
  inferInstanceAs (Decidable (_ ∧ _))

instance (offset : ℕ) (w : World) (move : Move) : Decidable (buries offset w move) :=
  inferInstanceAs (Decidable (_ ∧ _))

-- Until the offset is committed the listener does not come past it alive.
structure Held (offset : ℕ) (w : World) : Prop where
  ordered : Ordered w
  stored : w.stored = w.position
  reach : w.committed ≤ offset → w.position ≤ offset + 1
  dead : w.committed ≤ offset → w.position = offset + 1 → w.running = false
  inflight : w.committed ≤ offset → ∀ k, w.inflight = some k → k < offset
  accepted : w.committed ≤ offset → ∀ k ∈ w.accepted, k < offset

section Steps

variable {log : List (Option Payload)} {w w' : World} {offset : ℕ}

theorem running_of_deliver (h : deliver log w = some w') : w.running = true := by
  unfold deliver at h
  split at h
  · assumption
  · exact absurd h (by simp)

theorem deliver_poison (hpoison : IsPoison log offset) (hposition : w.position = offset)
    (h : deliver log w = some w') : w'.running = false ∧ w'.inflight = none := by
  obtain ⟨payload, hpayload, hpanic⟩ := hpoison
  rw [← hposition] at hpayload
  unfold deliver at h
  split at h
  · rename_i other hrunning hidle hother
    obtain rfl := Option.some.inj (hother.symm.trans hpayload)
    rw [hpanic] at h
    obtain rfl := Option.some.inj h
    exact ⟨rfl, hidle⟩
  · exact absurd h (by simp)

theorem Held.deliver (hpoison : IsPoison log offset) (h : Held offset w)
    (hstep : deliver log w = some w') : Held offset w' := by
  have hmove : step log w .deliver = some w' := hstep
  have hordered := ordered_step h.ordered hmove
  have hrunning := running_of_deliver hstep
  have hposition : w.committed ≤ offset → w.position ≤ offset := by
    intro hcommitted
    have hreach := h.reach hcommitted
    have halive : w.position ≠ offset + 1 := fun heq =>
      absurd (hrunning.symm.trans (h.dead hcommitted heq)) (by simp)
    omega
  have hdead : w.position = offset → w'.running = false ∧ w'.inflight = none :=
    fun heq => deliver_poison hpoison heq hstep
  obtain ⟨payload, running, inflight, -, hidle, rfl, hinflight⟩ := deliver_eq_some hstep
  refine ⟨hordered, rfl, fun hcommitted => ?_, fun hcommitted heq => ?_, fun hcommitted k hk => ?_,
    h.accepted⟩
  · exact Nat.succ_le_succ (hposition hcommitted)
  · exact (hdead (Nat.succ.inj heq)).1
  · have hk : inflight = some k := hk
    have hle := hposition hcommitted
    have hne : w.position ≠ offset := fun heq =>
      absurd ((hdead heq).2.symm.trans hk) (by simp)
    rw [hinflight] at hk
    split at hk
    · have hat := Option.some.inj hk
      omega
    · exact absurd hk (by simp)

theorem Held.step {move : Move} (hpoison : IsPoison log offset) (h : Held offset w)
    (hstep : step log w move = some w') : Held offset w' := by
  have hordered := ordered_step h.ordered hstep
  cases move with
  | deliver => exact h.deliver hpoison hstep
  | callOk =>
      obtain ⟨k, hk, rfl⟩ := Option.map_eq_some_iff.mp hstep
      refine ⟨hordered, h.stored, h.reach, h.dead, by simp, fun hcommitted j hj => ?_⟩
      rcases List.mem_append.mp hj with hj | hj
      · exact h.accepted hcommitted j hj
      · rw [List.mem_singleton.mp hj]
        exact h.inflight hcommitted k hk
  | callErr =>
      obtain ⟨k, -, rfl⟩ := Option.map_eq_some_iff.mp hstep
      exact ⟨hordered, h.stored, h.reach, h.dead, by simp, h.accepted⟩
  | autoCommit =>
      obtain rfl := Option.some.inj hstep
      have hback : w.stored ≤ offset → w.committed ≤ offset := h.ordered.committed_le.trans
      exact ⟨hordered, h.stored, fun hc => h.reach (hback hc), fun hc => h.dead (hback hc),
        fun hc => h.inflight (hback hc), fun hc => h.accepted (hback hc)⟩
  | crash =>
      obtain rfl := Option.some.inj hstep
      refine ⟨hordered, rfl, fun hcommitted => ?_, fun hcommitted heq => ?_, by simp [crash],
        h.accepted⟩
      · exact Nat.le_succ_of_le hcommitted
      · have heq : w.committed = offset + 1 := heq
        have hcommitted : w.committed ≤ offset := hcommitted
        omega

theorem committed_of_ne_autoCommit {move : Move} (hmove : move ≠ .autoCommit)
    (hstep : step log w move = some w') : w'.committed = w.committed := by
  cases move with
  | deliver =>
      obtain ⟨payload, running, inflight, -, -, rfl, -⟩ := deliver_eq_some hstep
      rfl
  | callOk =>
      obtain ⟨k, -, rfl⟩ := Option.map_eq_some_iff.mp hstep
      rfl
  | callErr =>
      obtain ⟨k, -, rfl⟩ := Option.map_eq_some_iff.mp hstep
      rfl
  | autoCommit => exact absurd rfl hmove
  | crash =>
      obtain rfl := Option.some.inj hstep
      rfl

theorem committed_attempt (log : List (Option Payload)) (w : World) (move : Move) :
    (attempt (step log) w move).committed =
      if move = .autoCommit then w.stored else w.committed := by
  split_ifs with hmove
  · rw [hmove]
    rfl
  · cases hstep : step log w move with
    | none => rw [attempt_of_none hstep]
    | some w' => rw [attempt_of_some hstep, committed_of_ne_autoCommit hmove hstep]

theorem committed_lasts (h : Ordered w) (move : Move) (hcommitted : offset < w.committed) :
    offset < (attempt (step log) w move).committed := by
  have hle := h.committed_le
  rw [committed_attempt]
  split_ifs <;> omega

-- Nothing but that commit takes the committed offset past the message.
theorem committed_onset_iff (h : Held offset w) (move : Move) :
    ¬ offset < w.committed ∧ offset < (attempt (step log) w move).committed ↔
      buries offset w move := by
  rw [committed_attempt]
  constructor
  · rintro ⟨hbefore, hafter⟩
    have hcommitted : w.committed ≤ offset := Nat.le_of_not_lt hbefore
    split_ifs at hafter with hmove
    · have hreach := h.reach hcommitted
      have hstored := h.stored
      have hposition : w.position = offset + 1 := by omega
      exact ⟨hmove, h.dead hcommitted hposition, hposition, hcommitted⟩
    · exact absurd hafter hbefore
  · rintro ⟨hmove, -, hposition, hcommitted⟩
    have hstored := h.stored
    rw [if_pos hmove]
    omega

theorem reached_deliver (hpoison : IsPoison log offset) (hstep : deliver log w = some w') :
    reached offset w + (if dies log offset w .deliver then 1 else 0) = reached offset w' := by
  have hdies : dies log offset w .deliver ↔ w.position = offset := by
    refine ⟨fun h => h.2.1, fun heq => ⟨rfl, heq, ?_⟩⟩
    simp [hstep, (deliver_poison hpoison heq hstep).1]
  obtain ⟨payload, running, inflight, -, -, rfl, -⟩ := deliver_eq_some hstep
  by_cases heq : w.position = offset
  · simp [reached, hdies, heq]
  · have hreached : offset < w.position + 1 ↔ offset < w.position := by omega
    simp [reached, hdies, heq, hreached]

theorem reached_attempt (hpoison : IsPoison log offset) (h : Ordered w) (move : Move) :
    reached offset w + (if dies log offset w move then 1 else 0) =
      reached offset (attempt (step log) w move) + if rewinds offset w move then 1 else 0 := by
  cases hstep : step log w move with
  | none =>
      have hdies : ¬ dies log offset w move := by
        rintro ⟨rfl, -, hsome⟩
        have hnone : deliver log w = none := hstep
        simp [hnone] at hsome
      rw [attempt_of_none hstep, if_neg hdies, if_neg (idle_of_refused offset hstep).2.2]
  | some w' =>
      rw [attempt_of_some hstep]
      cases move with
      | deliver =>
          have hreached := reached_deliver hpoison hstep
          simp only [rewinds, reduceCtorEq, false_and, if_false]
          omega
      | callOk =>
          have hreached := (settled_callOk offset hstep).2
          simp only [dies, rewinds, reduceCtorEq, false_and, if_false]
          omega
      | callErr =>
          have hreached := (settled_callErr offset hstep).2
          simp only [dies, rewinds, reduceCtorEq, false_and, if_false]
          omega
      | autoCommit =>
          obtain rfl := Option.some.inj hstep
          simp only [dies, rewinds, reduceCtorEq, false_and, if_false]
          rfl
      | crash =>
          obtain rfl := Option.some.inj hstep
          have hreached := reached_crash h offset
          simp only [dies, reduceCtorEq, false_and, if_false]
          omega

end Steps

section Runs

variable {log : List (Option Payload)} {first offset : ℕ}

theorem held_start (hfirst : first ≤ offset) : Held offset (start first) where
  ordered := ⟨Nat.le_refl _, Nat.le_refl _⟩
  stored := rfl
  reach := Nat.le_succ_of_le
  dead := fun hcommitted heq => by
    have heq : first = offset + 1 := heq
    omega
  inflight := by simp [start]
  accepted := by simp [start]

theorem died_replay (hpoison : IsPoison log offset) (hfirst : first ≤ offset) (moves : List Move) :
    let past := trace (step log) (start first) moves
    (past.countP fun p => dies log offset p.1 p.2) =
      reached offset (replay (step log) (start first) moves) +
        past.countP fun p => rewinds offset p.1 p.2 := by
  intro past
  have hordered : ∀ w m, Ordered w → Ordered (attempt (step log) w m) :=
    fun w m h => attempt_invariant (fun _ _ _ => ordered_step) h m
  have hbalance := replay_balance (I := Ordered) (fun _ => 0) (reached offset)
    (fun w m => if rewinds offset w m then 1 else 0)
    (fun w m => if dies log offset w m then 1 else 0)
    hordered (fun w m h => by have hone := reached_attempt hpoison h m; omega)
    (s := start first) ⟨Nat.le_refl _, Nat.le_refl _⟩ moves
  have hstart : reached offset (start first) = 0 := by
    simp [reached, start, Nat.not_lt.mpr hfirst]
  rw [sum_trace_eq_countP, sum_trace_eq_countP, hstart] at hbalance
  simpa using hbalance

end Runs

-- A message that makes the loop panic holds the partition up: the process dies
-- at it when it first comes there and after every restart that goes back over
-- it, and no later event is issued until a commit falls between the death and
-- the restart. Only such a commit takes the group past the message.
theorem poison_held_until_buried (log : List (Option Payload)) (first : ℕ) (moves : List Move)
    (offset : ℕ) (hpoison : IsPoison log offset) (hfirst : first ≤ offset) :
    let past := trace (step log) (start first) moves
    let w := replay (step log) (start first) moves
    let died := past.countP fun p => dies log offset p.1 p.2
    let rewound := past.countP fun p => rewinds offset p.1 p.2
    died = (if offset < w.position then 1 else 0) + rewound ∧
      (offset < w.committed ↔ ∃ p ∈ past, buries offset p.1 p.2) ∧
      (w.committed ≤ offset → w.position ≤ offset + 1 ∧ ∀ k ∈ w.accepted, k < offset) := by
  intro past w died rewound
  have hstep : ∀ w m w', Held offset w → step log w m = some w' → Held offset w' :=
    fun _ _ _ h => h.step hpoison
  have hheld : Held offset w := replay_invariant hstep (held_start hfirst) moves
  refine ⟨died_replay hpoison hfirst moves, ?_, fun hc => ⟨hheld.reach hc, hheld.accepted hc⟩⟩
  have honset := replay_iff_exists_onset (P := fun w => offset < w.committed) hstep
    (fun w m h => committed_lasts h.ordered m) (held_start hfirst) moves
  have hstart : ¬ offset < (start first).committed := Nat.not_lt.mpr hfirst
  rw [honset, or_iff_right hstart]
  constructor
  · rintro ⟨p, hp, hcrossed⟩
    have hheld := trace_invariant hstep (held_start hfirst) hp
    exact ⟨p, hp, (committed_onset_iff hheld p.2).mp hcrossed⟩
  · rintro ⟨p, hp, hburies⟩
    have hheld := trace_invariant hstep (held_start hfirst) hp
    exact ⟨p, hp, (committed_onset_iff hheld p.2).mpr hburies⟩

def poisonedLog : List (Option Payload) :=
  some (some (wageMessage "alice" (.ofNat 5))) :: oneWage

-- Died at twice, and passed over once the second death is committed.
theorem poison_held_until_buried_twice :
    let moves : List Move := [.deliver, .crash, .deliver, .autoCommit, .crash, .deliver, .callOk]
    (trace (step poisonedLog) (start 0) moves).countP (fun p => dies poisonedLog 0 p.1 p.2) = 2 ∧
      ∃ p ∈ trace (step poisonedLog) (start 0) moves, buries 0 p.1 p.2 := by
  intro moves
  have hpoison : IsPoison poisonedLog 0 := ⟨_, rfl, by decide +kernel⟩
  have hheld := poison_held_until_buried poisonedLog 0 moves 0 hpoison (Nat.le_refl 0)
  dsimp only at hheld
  refine ⟨hheld.1.trans (by decide +kernel), hheld.2.1.mp (by decide +kernel)⟩

end WageFix.Listener
