import WageFix.Multipart.Chunks

-- The order in which the parser makes its callbacks.
namespace WageFix.Multipart

open Transducer (run run_taken)

inductive Stage where
  | outside
  | headers
  | name (begun : Bool)
  | value
  | data
  | closed
  deriving DecidableEq, Repr

-- The callbacks that may come at a stage: a part has its headers, each with a name
-- before its value, then its data, and nothing comes after the end.
def Stage.after : Stage → Callback → Option Stage
  | .outside, .partBegin => some .headers
  | .outside, .end_ => some .closed
  | .headers, .headerBegin => some (.name false)
  | .headers, .headersFinished => some .data
  | .name _, .data .headerField _ => some (.name true)
  | .name true, .data .headerValue _ => some .value
  | .name true, .headerEnd => some .headers
  | .value, .data .headerValue _ => some .value
  | .value, .headerEnd => some .headers
  | .data, .data .partData _ => some .data
  | .data, .partEnd => some .outside
  | _, _ => none

def Phase.stage : Phase → Stage
  | .start | .startBoundary _ | .endBoundary => .outside
  | .headerFieldStart | .headerValueAlmostDone | .headersAlmostDone => .headers
  | .headerField first => .name (!first)
  | .headerValueStart => .name true
  | .headerValue => .value
  | .partDataStart | .partData _ => .data
  | .end_ => .closed

variable {boundary : Bytes} {q q' : Phase} {c : UInt8} {out : List Callback}

theorem after_each_partData (bytes : Bytes) :
    Transition.runAll Stage.after .data (each .partData bytes) = some .data := by
  induction bytes with
  | nil => rfl
  | cons b bytes ih => exact ih

theorem restart_stage (m : Held) : Transition.runAll Stage.after .data (restart boundary m c).2 =
    some (restart boundary m c).1.stage := after_each_partData _

theorem readPartData_stage (m : Held) :
    (readPartData boundary m c).1 ≠ .headerField true ∧
      Transition.runAll Stage.after .data (readPartData boundary m c).2 =
        some (readPartData boundary m c).1.stage := by
  unfold readPartData
  cases m with
  | upTo k =>
      dsimp only
      split_ifs
      · exact ⟨by simp, rfl⟩
      · exact ⟨by simp, rfl⟩
      · exact ⟨by simp [restart], restart_stage _⟩
      · exact ⟨by simp, after_each_partData _⟩
  | cr =>
      dsimp only
      split_ifs
      · exact ⟨by simp, rfl⟩
      · exact ⟨by simp [restart], restart_stage _⟩
  | hyphen =>
      dsimp only
      split_ifs
      · exact ⟨by simp, rfl⟩
      · exact ⟨by simp [restart], restart_stage _⟩

theorem readBoundary_stage {k : ℕ} (h : readBoundary boundary k c = .ok (q', out)) :
    q' ≠ .headerField true ∧ Transition.runAll Stage.after .outside out = some q'.stage := by
  unfold readBoundary at h
  split_ifs at h <;> cases h <;> exact ⟨by simp, rfl⟩

theorem readHeaderField_stage {first : Bool} (hcr : c ≠ CR ∨ first = false)
    (h : readHeaderField first c = .ok (q', out)) :
    q' ≠ .headerField true ∧ Transition.runAll Stage.after (.name !first) out = some q'.stage := by
  unfold readHeaderField at h
  split_ifs at h with h₁ h₂ h₃
  · rcases hcr with hcr | hfirst
    · exact absurd h₁.1 hcr
    · exact absurd h₁.2 (by simp [hfirst])
  · cases h
    rw [Bool.eq_false_iff.mpr h₃]
    exact ⟨by simp, rfl⟩
  · cases h
    exact ⟨by simp, rfl⟩

theorem readHeaderValue_stage {s : Stage} (hs : s = .name true ∨ s = .value) :
    (readHeaderValue c).1 ≠ .headerField true ∧
      Transition.runAll Stage.after s (readHeaderValue c).2 = some (readHeaderValue c).1.stage := by
  unfold readHeaderValue
  split_ifs
  · rcases hs with rfl | rfl <;> exact ⟨by simp, rfl⟩
  · rcases hs with rfl | rfl <;> exact ⟨by simp, rfl⟩

-- The reader is at the first byte of a header only within one step.
theorem feed_stage (hq : q ≠ .headerField true) (h : feed boundary q c = .ok (q', out)) :
    q' ≠ .headerField true ∧ Transition.runAll Stage.after q.stage out = some q'.stage := by
  cases q with
  | start =>
      rw [feed] at h
      split_ifs at h
      · cases h
        exact ⟨by simp, rfl⟩
      · exact readBoundary_stage h
  | startBoundary k => exact readBoundary_stage h
  | headerFieldStart =>
      rw [feed] at h
      split_ifs at h with hcr
      · cases h
        exact ⟨by simp, rfl⟩
      · cases hread : readHeaderField true c with
        | error e =>
            rw [hread] at h
            cases h
        | ok r =>
            rw [hread] at h
            cases h
            exact readHeaderField_stage (.inl hcr) hread
  | headerField first =>
      have hfirst : first = false := Bool.eq_false_iff.mpr fun heq => hq (by rw [heq])
      exact readHeaderField_stage (.inr hfirst) h
  | headerValueStart =>
      rw [feed] at h
      split_ifs at h
      · cases h
        exact ⟨by simp, rfl⟩
      · have hstage := readHeaderValue_stage (c := c) (.inl rfl)
        rw [Except.ok.inj h] at hstage
        exact hstage
  | headerValue =>
      have hstage := readHeaderValue_stage (c := c) (.inr rfl)
      rw [Except.ok.inj h] at hstage
      exact hstage
  | headerValueAlmostDone =>
      rw [feed] at h
      split_ifs at h
      cases h
      exact ⟨by simp, rfl⟩
  | headersAlmostDone =>
      rw [feed] at h
      split_ifs at h
      cases h
      exact ⟨by simp, rfl⟩
  | partDataStart =>
      have hstage : (readPartData boundary (.upTo 0) c).1 ≠ .headerField true ∧ _ :=
        readPartData_stage _
      rw [Except.ok.inj h] at hstage
      exact hstage
  | partData m =>
      have hstage : (readPartData boundary m c).1 ≠ .headerField true ∧ _ :=
        readPartData_stage m
      rw [Except.ok.inj h] at hstage
      exact hstage
  | endBoundary =>
      rw [feed] at h
      split_ifs at h
      cases h
      exact ⟨by simp, rfl⟩
  | end_ =>
      cases h
      exact ⟨by simp, rfl⟩

theorem run_stage {bytes : Bytes} (h : run (feed boundary) .start bytes = .ok (q, out)) :
    Transition.runAll Stage.after .outside out = some q.stage := by
  have hstart : Phase.start ≠ .headerField true := by simp
  exact run_taken Phase.stage (I := (· ≠ .headerField true))
    (fun _ _ _ _ hq hfeed => feed_stage hq hfeed) hstart h

-- Whatever a body holds and wherever it is cut, the callbacks come in order, and
-- the end has been called with exactly where the parser is in its last state.
theorem callbacks_in_order (boundary : Bytes) (hcr : CR ∉ boundary) (chunks : List Bytes)
    (p : Parser) (called : List Callback)
    (h : writeAll boundary chunks = .ok (p, called)) :
    ∃ s, Transition.runAll Stage.after .outside (called.flatMap Callback.bytewise) = some s ∧
      (s = .closed ↔ p.state = .end_) := by
  have hagrees := writeAll_agrees hcr chunks
  rw [h] at hagrees
  generalize hrun : run (feed boundary) .start chunks.flatten = r at hagrees
  cases hagrees with
  | ok _ hready =>
      refine ⟨_, run_stage hrun, ?_⟩
      have hshows := hready.shows
      rcases p with ⟨state, index, flags, marks⟩
      cases hshows <;> simp [Phase.stage]

-- A part with one header, cut within its name.
def onePart : List Bytes := [ascii "--b\r\nna", ascii "me: v\r\n\r\nx\r\n--b--"]

theorem callbacks_in_order_onePart :
    ∃ p called s, writeAll (ascii "b") onePart = .ok (p, called) ∧
      Transition.runAll Stage.after .outside (called.flatMap Callback.bytewise) = some s ∧
      (s = .closed ↔ p.state = .end_) := by
  have hcr : CR ∉ ascii "b" := by decide +kernel
  have hrun : run (feed (ascii "b")) .start onePart.flatten = .ok (.end_,
      .partBegin :: .headerBegin :: each .headerField (ascii "name") ++
        each .headerValue (ascii "v") ++ [.headerEnd, .headersFinished] ++
          each .partData (ascii "x") ++ [.partEnd, .end_]) := by
    decide +kernel
  obtain ⟨p, called, hwrite, -⟩ := writeAll_of_run hcr hrun
  obtain ⟨s, htaken, hclosed⟩ := callbacks_in_order (ascii "b") hcr onePart p called hwrite
  exact ⟨p, called, s, hwrite, htaken, hclosed⟩

end WageFix.Multipart
