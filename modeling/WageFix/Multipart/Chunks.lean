import WageFix.Multipart.Headers
import WageFix.Multipart.PartData

-- The parser works on chunks with an index and marks into them, and comes to
-- what reading byte by byte comes to. So it does not matter how a body is cut.
namespace WageFix.Multipart

open Transducer (run run_cons_error)

section Turn

variable {boundary data before : Bytes} {entry : Flags} {slot : Slot} {l l' : Cursor}
  {q q' : Phase} {owed owed' out : List Callback} {c : UInt8} {f : Flags}

theorem body_follows (hcr : CR ∉ boundary) (hrem : Remembers boundary entry before)
    (hc : data[l.i]? = some c) (hmid : Mid boundary data before l q owed) :
    Turn boundary data before entry l q owed c := by
  have hshows := hmid.shows
  rcases l with ⟨⟨state, index, flags, marks⟩, i, called⟩
  cases hshows with
  | start hf => exact turn_start hf hc hmid
  | startBoundary hf hk => exact turn_startBoundary hf hk hc hmid
  | headerFieldStart hf => exact turn_headerFieldStart hf hc hmid
  | headerField hf => exact turn_headerField hrem hf hc hmid
  | headerValueStart hf => exact turn_headerValueStart hf hc hmid
  | headerValue hf => exact turn_headerValue hrem hf hc hmid
  | headerValueAlmostDone hf => exact turn_headerValueAlmostDone hf hc hmid
  | headersAlmostDone hf => exact turn_headersAlmostDone hf hc hmid
  | partDataStart hf => exact turn_partDataStart hf hc hmid
  | upTo hf hk =>
      rcases Nat.eq_zero_or_pos index with rfl | hpos
      · exact turn_search hcr hf hc hmid
      · exact turn_upTo hf hpos hk hc hmid
  | cr hf => exact turn_cr hrem hf hc hmid
  | hyphen hf hl => exact turn_hyphen hrem hf hl hc hmid
  | endBoundary hf => exact turn_endBoundary hf hc hmid
  | end_ hf => exact turn_end hf hc hmid

-- The loop comes to the end of the chunk with the reader, or fails at the byte at
-- which the reader fails.
theorem loop_spec (hcr : CR ∉ boundary) (hrem : Remembers boundary entry before)
    (hmid : Mid boundary data before l q owed) :
    (∃ e j, loop boundary data entry l = .error (e, l.i + j) ∧
      run (feed boundary) q (data.drop l.i) = .error (e, j)) ∨
    ∃ l' q' owed' out, loop boundary data entry l = .ok l' ∧ Mid boundary data before l' q' owed' ∧
      l'.i = data.length ∧ run (feed boundary) q (data.drop l.i) = .ok (q', out) ∧
      l.called.flatMap Callback.bytewise ++ owed ++ out =
        l'.called.flatMap Callback.bytewise ++ owed' := by
  generalize hn : l.left data = n
  induction n using Nat.strong_induction_on generalizing l q owed with
  | _ n ih =>
      cases hc : data[l.i]? with
      | none =>
          have hend : l.i = data.length := Nat.le_antisymm hmid.le (List.getElem?_eq_none_iff.mp hc)
          have hnil : data.drop l.i = [] := List.drop_of_length_le hend.ge
          refine .inr ⟨l, q, owed, [], loop_of_none hc, hmid, hend, ?_, List.append_nil _⟩
          rw [hnil]
          rfl
      | some c =>
          rcases body_follows hcr hrem hc hmid with ⟨e, hbody, hfeed⟩ | ⟨l₁, hbody, hfollows⟩
          · refine .inl ⟨e, 0, loop_of_error hc hbody, ?_⟩
            rw [drop_of_getElem? hc, run_cons_error hfeed]
          · obtain ⟨q₁, owed₁, out₁, hmid₁, hle, hrun, hcalled⟩ := hfollows
            have hless : l₁.left data < n := by
              rw [← hn]
              exact body_left_lt (delimiter_ne_nil boundary) hc hbody
            rw [loop_of_ok hc hbody, hrun]
            rcases ih (l₁.left data) hless hmid₁ rfl with
              ⟨e, j, hloop, hrun₁⟩ | ⟨l', q', owed', out, hloop, hmid', hend, hrun₁, hcalled'⟩
            · refine .inl ⟨e, l₁.i - l.i + j, ?_, ?_⟩
              · rw [hloop, ← Nat.add_assoc, Nat.add_sub_cancel' hle]
              · rw [hrun₁]
                rfl
            · refine .inr ⟨l', q', owed', out₁ ++ out, hloop, hmid', hend, ?_, ?_⟩
              · rw [hrun₁]
                rfl
              · rw [← List.append_assoc, hcalled, hcalled']

theorem flush_of_none (h : l.marks = fun _ => none) : flush boundary data entry l = l := by
  have hmark : ∀ slot, l.marks slot = none := fun slot => congrFun h slot
  simp only [flush, dataCallback_of_none (hmark _)]

theorem flush_of_only {v : ℤ} (h : l.marks = only slot v) :
    flush boundary data entry l =
      { l with
        called := l.called ++ emitted (delimiter boundary) data entry slot v
          (data.length - ↑(if slot = .partData then l.index else 0))
        marks := only slot (-↑(if slot = .partData then l.index else 0)) } := by
  have hother : ∀ (w : ℤ) (l₁ : Cursor), l₁.marks = only slot w → ∀ s, s ≠ slot →
      l₁.marks s = none := by
    intro w l₁ hl₁ s hs
    rw [hl₁]
    exact only_of_ne w hs
  unfold flush
  cases slot with
  | headerField =>
      rw [dataCallback_remaining h]
      generalize hl₁ : Cursor.mk _ _ _ = l₁
      have hmarks : l₁.marks = only .headerField (data.length - data.length) := by rw [← hl₁]
      have hnone := hother _ l₁ hmarks
      dsimp only
      rw [dataCallback_of_none (hnone .headerValue (by decide)),
        dataCallback_of_none (hnone .partData (by decide)), ← hl₁]
      simp
  | headerValue =>
      rw [dataCallback_of_none (hother _ l h .headerField (by decide))]
      dsimp only
      rw [dataCallback_remaining h]
      generalize hl₁ : Cursor.mk _ _ _ = l₁
      have hmarks : l₁.marks = only .headerValue (data.length - data.length) := by rw [← hl₁]
      rw [dataCallback_of_none (hother _ l₁ hmarks .partData (by decide)), ← hl₁]
      simp
  | partData =>
      have hnone := hother _ l h
      rw [dataCallback_of_none (hnone .headerField (by decide))]
      dsimp only
      rw [dataCallback_of_none (hnone .headerValue (by decide)), dataCallback_remaining h]
      simp

theorem Shows.length_held_of_slot {k : ℕ} {state : State} (h : Shows boundary state k f q)
    (hslot : q.slot = some slot) :
    (q.held boundary).length = if slot = .partData then k else 0 := by
  cases h
  case upTo hk hf =>
    obtain rfl := Option.some.inj hslot
    exact Shows.length_held (.upTo hf hk)
  case cr hf =>
    obtain rfl := Option.some.inj hslot
    exact Shows.length_held (.cr hf)
  case hyphen hf hl =>
    obtain rfl := Option.some.inj hslot
    exact Shows.length_held (.hyphen hf hl)
  case headerField hf =>
    obtain rfl := Option.some.inj hslot
    rfl
  case headerValue hf =>
    obtain rfl := Option.some.inj hslot
    rfl
  all_goals cases hslot

end Turn

section Write

variable {boundary data before : Bytes} {entry : Flags}

-- What stands between two chunks: marks as far back as what is held.
structure Ready (boundary : Bytes) (p : Parser) (q : Phase) : Prop where
  shows : Shows boundary p.state p.index p.flags q
  idle : q.slot = none → p.marks = fun _ => none
  marked : ∀ slot, q.slot = some slot → p.marks = only slot (-(q.held boundary).length)

theorem Ready.remembers {p : Parser} {q : Phase} (h : Ready boundary p q) :
    Remembers boundary p.flags (q.held boundary) := by
  have hshows := h.shows
  rcases p with ⟨state, index, flags, marks⟩
  cases hshows
  case upTo hk hf => exact Shows.remembers (.upTo hf hk)
  case cr hf => exact Shows.remembers (.cr hf)
  case hyphen hf hl => exact Shows.remembers (.hyphen hf hl)
  all_goals exact remembers_nil

theorem Ready.mid {p : Parser} {q : Phase} (h : Ready boundary p q) (data : Bytes) :
    Mid boundary data (q.held boundary) ⟨p, 0, []⟩ q [] := by
  refine ⟨h.shows, Nat.zero_le _, ?_⟩
  cases hslot : q.slot with
  | none => exact .idle hslot (h.idle hslot)
  | some slot =>
      have howed : Owed (q.held boundary) (data.take 0) p.marks slot (q.held boundary) [] 0 := by
        refine ⟨?_, .inl rfl, Nat.zero_le _, ?_, .inl rfl⟩
        · rw [h.marked slot hslot]
          congr 1
          omega
        · simp
      exact .owed hslot howed fun _ => rfl

theorem ready_init (boundary : Bytes) : Ready boundary Parser.init .start :=
  ⟨.start rfl, fun _ => rfl, by simp [Phase.slot]⟩

-- At the end of a chunk all that is owed is called with.
theorem flush_ready {l : Cursor} {q : Phase} {owed : List Callback}
    (hrem : Remembers boundary entry before) (hmid : Mid boundary data before l q owed)
    (hend : l.i = data.length) :
    Ready boundary (flush boundary data entry l).toParser q ∧
      (flush boundary data entry l).called.flatMap Callback.bytewise =
        l.called.flatMap Callback.bytewise ++ owed := by
  have hshows := hmid.shows
  cases hslot : q.slot with
  | none =>
      obtain ⟨hnone, rfl⟩ := hmid.pending.of_idle hslot
      rw [flush_of_none hnone]
      exact ⟨⟨hshows, fun _ => hnone, fun slot h => by simp [hslot] at h⟩, (List.append_nil _).symm⟩
  | some slot =>
      obtain ⟨text, m, rfl, howed, -⟩ := hmid.pending.of_owed hslot
      have hheld := hshows.length_held_of_slot hslot
      rw [flush_of_only howed.marks, ← hheld]
      refine ⟨⟨hshows, fun h => by simp [hslot] at h, fun slot' h => ?_⟩, ?_⟩
      · rw [Option.some.inj (h.symm.trans hslot)]
      · exact flatMap_closed hrem hmid.le howed (by rw [hend])

-- One chunk: the parser agrees with the reader.
theorem write_agrees (hcr : CR ∉ boundary) (p : Parser) (q : Phase) (chunk : Bytes)
    (h : Ready boundary p q) :
    Transducer.Agrees (Ready boundary) Callback.bytewise (write boundary p chunk)
      (run (feed boundary) q chunk) := by
  have hrem := h.remembers
  unfold write
  rcases loop_spec hcr hrem (h.mid chunk) with
    ⟨e, j, hloop, hrun⟩ | ⟨l, q', owed, out, hloop, hmid, hend, hrun, hcalled⟩
  · have hrun' : run (feed boundary) q chunk = .error (e, j) := hrun
    rw [hloop, hrun', Nat.zero_add]
    exact .error _
  · have hrun' : run (feed boundary) q chunk = .ok (q', out) := hrun
    have hout : out = l.called.flatMap Callback.bytewise ++ owed := hcalled
    obtain ⟨hready, hflush⟩ := flush_ready hrem hmid hend
    rw [hloop, hrun', hout, ← hflush]
    exact .ok _ hready

theorem writeAll_agrees (hcr : CR ∉ boundary) (chunks : List Bytes) :
    Transducer.Agrees (Ready boundary) Callback.bytewise (writeAll boundary chunks)
      (run (feed boundary) .start chunks.flatten) :=
  Transducer.agrees_of_chunk (write_agrees hcr) chunks (ready_init boundary)

theorem writeAll_of_run (hcr : CR ∉ boundary) {chunks : List Bytes} {q : Phase}
    {out : List Callback} (h : run (feed boundary) .start chunks.flatten = .ok (q, out)) :
    ∃ p called, writeAll boundary chunks = .ok (p, called) ∧
      called.flatMap Callback.bytewise = out := by
  have hagrees := writeAll_agrees hcr chunks
  rw [h] at hagrees
  generalize writeAll boundary chunks = r at hagrees ⊢
  cases hagrees with
  | ok called hready => exact ⟨_, called, rfl, rfl⟩

-- Wherever a body is cut, the parser makes the same callbacks, up to how the data
-- of each is cut, or fails at the same byte of the body with the same error.
theorem cut_immaterial (boundary : Bytes) (hcr : CR ∉ boundary) (chunks chunks' : List Bytes)
    (hcut : chunks.flatten = chunks'.flatten) :
    (writeAll boundary chunks).map (fun r => r.2.flatMap Callback.bytewise) =
      (writeAll boundary chunks').map (fun r => r.2.flatMap Callback.bytewise) :=
  Transducer.feed_eq_of_flatten_eq (write_agrees hcr) (ready_init boundary) hcut

-- A delimiter cut in two, and a line break of the content that is not one.
theorem cut_immaterial_delimiter :
    (writeAll (ascii "b") [ascii "--b\r\n\r\nx\r\ny\r", ascii "\n--", ascii "b--"]).map
        (fun r => r.2.flatMap Callback.bytewise) =
      (writeAll (ascii "b") [ascii "--b\r\n\r\nx\r\ny\r\n--b--"]).map
        (fun r => r.2.flatMap Callback.bytewise) :=
  cut_immaterial (ascii "b") (by decide +kernel) _ _ (by decide +kernel)

end Write

end WageFix.Multipart
