import WageFix.Multipart.Owed

-- The turns of the loop before the first part, in the headers and after the end.
namespace WageFix.Multipart

open Transducer (run run_cons_ok)

section Turn

variable {boundary data before : Bytes} {entry : Flags} {slot : Slot} {l l' : Cursor}
  {q q' : Phase} {owed owed' out : List Callback} {c : UInt8} {k i : ℕ} {f : Flags}
  {marks : Slot → Option ℤ} {called : List Callback}

theorem turn_start (hf : f.partBoundary = false) (hc : data[i]? = some c)
    (hmid : Mid boundary data before ⟨⟨.start, k, f, marks⟩, i, called⟩ .start owed) :
    Turn boundary data before entry ⟨⟨.start, k, f, marks⟩, i, called⟩ .start owed c := by
  have hbody : body (delimiter boundary) data entry c ⟨⟨.start, k, f, marks⟩, i, called⟩ =
      .ok (onStart c ⟨⟨.start, k, f, marks⟩, i, called⟩) := rfl
  unfold onStart at hbody
  by_cases hnewline : c = CR ∨ c = LF
  · have hfeed : feed boundary .start c = .ok (.start, []) := if_pos hnewline
    rw [if_pos hnewline] at hbody
    exact .of_taken hmid hc hfeed hbody (.start hf) rfl rfl rfl rfl (List.append_nil _).symm rfl
  · have hfeed : feed boundary .start c =
        (feed boundary (.startBoundary 0) c).map fun r => (r.1, [] ++ r.2) := by
      rw [map_nil_append, feed, if_neg hnewline, feed]
    rw [if_neg hnewline] at hbody
    obtain ⟨hnone, rfl⟩ := hmid.pending.of_idle rfl
    exact .inr ⟨_, hbody, .of_left hc rfl hfeed (.startBoundary hf (Nat.succ_pos _))
      (.idle rfl hnone) (List.append_nil _)⟩

theorem turn_startBoundary (hf : f.partBoundary = false) (hk : k < (delimiter boundary).length)
    (hc : data[i]? = some c)
    (hmid : Mid boundary data before ⟨⟨.startBoundary, k, f, marks⟩, i, called⟩ (.startBoundary k)
      owed) :
    Turn boundary data before entry ⟨⟨.startBoundary, k, f, marks⟩, i, called⟩ (.startBoundary k)
      owed c := by
  have hbody : body (delimiter boundary) data entry c ⟨⟨.startBoundary, k, f, marks⟩, i, called⟩ =
      onStartBoundary (delimiter boundary) c ⟨⟨.startBoundary, k, f, marks⟩, i, called⟩ := rfl
  have hfeed : feed boundary (.startBoundary k) c = readBoundary boundary k c := rfl
  have hlen : (delimiter boundary).length = boundary.length + 4 := rfl
  unfold onStartBoundary at hbody
  unfold readBoundary at hfeed
  dsimp only at hbody
  by_cases h₂ : k + 2 = (delimiter boundary).length
  · have hk₂ : k = (delimiter boundary).length - 2 := by omega
    rw [if_pos hk₂] at hbody
    rw [if_pos h₂] at hfeed
    by_cases hyphen : c = HYPHEN
    · rw [if_pos hyphen] at hbody hfeed
      have hshows : Shows boundary .endBoundary (k + 1) f .endBoundary := by
        rw [hk₂]
        exact .endBoundary hf
      exact .of_taken hmid hc hfeed hbody hshows rfl rfl rfl rfl (List.append_nil _).symm rfl
    · rw [if_neg hyphen] at hbody hfeed
      by_cases hcr : c = CR
      · rw [if_neg (not_not.mpr hcr)] at hbody
        rw [if_pos hcr] at hfeed
        have hnext : k + 1 < (delimiter boundary).length := by omega
        exact .of_taken hmid hc hfeed hbody (.startBoundary hf hnext) rfl rfl rfl rfl
          (List.append_nil _).symm rfl
      · rw [if_pos hcr] at hbody
        rw [if_neg hcr] at hfeed
        exact .inl ⟨_, hbody, hfeed⟩
  rw [if_neg (show k ≠ (delimiter boundary).length - 2 by omega)] at hbody
  rw [if_neg h₂] at hfeed
  by_cases h₁ : k + 1 = (delimiter boundary).length
  · rw [if_pos (show k = (delimiter boundary).length - 2 + 1 by omega)] at hbody
    rw [if_pos h₁] at hfeed
    by_cases hlf : c = LF
    · rw [if_neg (not_not.mpr hlf)] at hbody
      rw [if_pos hlf] at hfeed
      exact .of_taken hmid hc hfeed hbody (.headerFieldStart hf) rfl rfl rfl rfl rfl rfl
    · rw [if_pos hlf] at hbody
      rw [if_neg hlf] at hfeed
      exact .inl ⟨_, hbody, hfeed⟩
  · rw [if_neg (show k ≠ (delimiter boundary).length - 2 + 1 by omega)] at hbody
    rw [if_neg h₁] at hfeed
    by_cases hmatch : (delimiter boundary)[k + 2]? = some c
    · rw [if_neg (not_not.mpr hmatch)] at hbody
      rw [if_pos hmatch] at hfeed
      have hnext : k + 1 < (delimiter boundary).length := by omega
      exact .of_taken hmid hc hfeed hbody (.startBoundary hf hnext) rfl rfl rfl rfl
        (List.append_nil _).symm rfl
    · rw [if_pos hmatch] at hbody
      rw [if_neg hmatch] at hfeed
      exact .inl ⟨_, hbody, hfeed⟩

theorem turn_headerFieldStart (hf : f.partBoundary = false) (hc : data[i]? = some c)
    (hmid : Mid boundary data before ⟨⟨.headerFieldStart, k, f, marks⟩, i, called⟩
      .headerFieldStart owed) :
    Turn boundary data before entry ⟨⟨.headerFieldStart, k, f, marks⟩, i, called⟩
      .headerFieldStart owed c := by
  have hbody : body (delimiter boundary) data entry c ⟨⟨.headerFieldStart, k, f, marks⟩, i, called⟩ =
      .ok (onHeaderFieldStart c ⟨⟨.headerFieldStart, k, f, marks⟩, i, called⟩) := rfl
  have hshows : Shows boundary .headerField 0 f (.headerField true) := .headerField hf
  obtain ⟨rfl, rfl⟩ := hmid.pending.of_idle rfl
  have howed : Pending boundary before (data.take i) (only .headerField i) (.headerField true) [] :=
    .owed rfl (.fresh .headerField hmid.le) fun _ => rfl
  unfold onHeaderFieldStart at hbody
  dsimp only at hbody
  by_cases hcr : c = CR
  · have hfeed : feed boundary .headerFieldStart c =
        (feed boundary (.headerField true) c).map fun r => (r.1, [] ++ r.2) := by
      rw [map_nil_append, feed, if_pos hcr, feed, readHeaderField, if_pos ⟨hcr, rfl⟩]
    rw [if_neg (not_not.mpr hcr)] at hbody
    exact .inr ⟨_, hbody, .of_left hc rfl hfeed hshows howed (by simp [Cursor.setMark])⟩
  · have hfeed : feed boundary .headerFieldStart c =
        (feed boundary (.headerField true) c).map fun r => (r.1, [.headerBegin] ++ r.2) :=
      if_neg hcr
    rw [if_pos hcr] at hbody
    refine .inr ⟨_, hbody, .of_left hc rfl hfeed hshows howed ?_⟩
    simp [Cursor.call, Cursor.setMark, Callback.bytewise]

theorem turn_headerField (hrem : Remembers boundary entry before) (hf : f.partBoundary = false)
    (hc : data[i]? = some c)
    (hmid : Mid boundary data before ⟨⟨.headerField, k, f, marks⟩, i, called⟩
      (.headerField (k = 0)) owed) :
    Turn boundary data before entry ⟨⟨.headerField, k, f, marks⟩, i, called⟩
      (.headerField (k = 0)) owed c := by
  have hbody : body (delimiter boundary) data entry c ⟨⟨.headerField, k, f, marks⟩, i, called⟩ =
      onHeaderField (delimiter boundary) data entry c ⟨⟨.headerField, k, f, marks⟩, i, called⟩ := rfl
  have hfeed : feed boundary (.headerField (k = 0)) c = readHeaderField (k = 0) c := rfl
  obtain ⟨text, m, rfl, howed, hfirst⟩ := hmid.pending.of_owed rfl
  have hmarks : marks = only .headerField (m - before.length) := howed.marks
  have hlt : i < data.length := (List.getElem?_eq_some_iff.mp hc).1
  unfold onHeaderField at hbody
  unfold readHeaderField at hfeed
  dsimp only at hbody
  by_cases hcr : c = CR ∧ k = 0
  · obtain ⟨rfl, rfl⟩ := hcr
    have htext : text = [] := hfirst rfl
    rw [if_pos ⟨rfl, rfl⟩] at hbody
    rw [if_pos ⟨rfl, rfl⟩] at hfeed
    refine .inr ⟨_, hbody, .of_taken hc rfl hfeed (.headersAlmostDone hf) (.idle rfl ?_) ?_⟩
    · rw [hmarks]
      exact update_only _ _
    · rw [htext]
      simp [Cursor.deleteMark]
  rw [if_neg hcr] at hbody
  have hcr' : ¬ (c = CR ∧ decide (k = 0) = true) := by simpa using hcr
  rw [if_neg hcr'] at hfeed
  by_cases hcolon : c = COLON
  · rw [if_pos hcolon] at hbody hfeed
    by_cases hk : k = 0
    · rw [if_pos (by rw [hk])] at hbody
      rw [if_pos (decide_eq_true hk)] at hfeed
      exact .inl ⟨_, hbody, hfeed⟩
    · rw [if_neg (by omega), dataCallback_of_only hmarks] at hbody
      rw [if_neg (by simpa using hk)] at hfeed
      refine .inr ⟨_, hbody, .of_taken hc rfl hfeed (.headerValueStart hf) (.idle rfl rfl) ?_⟩
      rw [List.append_nil, List.append_nil]
      exact (flatMap_closed hrem hlt.le howed (by simp [Phase.held])).symm
  rw [if_neg hcolon] at hbody hfeed
  by_cases htoken : c ∈ tokenChars
  · rw [if_neg (not_not.mpr htoken)] at hbody
    rw [if_pos htoken] at hfeed
    refine .inr ⟨_, hbody, .of_taken hc rfl hfeed (.headerField hf)
      (.owed rfl (howed.byte hc) (by simp)) ?_⟩
    rw [each_append, List.append_assoc]
  · rw [if_pos htoken] at hbody
    rw [if_neg htoken] at hfeed
    exact .inl ⟨_, hbody, hfeed⟩

theorem turn_headerValueStart (hf : f.partBoundary = false) (hc : data[i]? = some c)
    (hmid : Mid boundary data before ⟨⟨.headerValueStart, k, f, marks⟩, i, called⟩
      .headerValueStart owed) :
    Turn boundary data before entry ⟨⟨.headerValueStart, k, f, marks⟩, i, called⟩
      .headerValueStart owed c := by
  have hbody : body (delimiter boundary) data entry c ⟨⟨.headerValueStart, k, f, marks⟩, i, called⟩ =
      .ok (onHeaderValueStart c ⟨⟨.headerValueStart, k, f, marks⟩, i, called⟩) := rfl
  unfold onHeaderValueStart at hbody
  by_cases hspace : c = SPACE
  · have hfeed : feed boundary .headerValueStart c = .ok (.headerValueStart, []) := if_pos hspace
    rw [if_pos hspace] at hbody
    exact .of_taken hmid hc hfeed hbody (.headerValueStart hf) rfl rfl rfl rfl
      (List.append_nil _).symm rfl
  · have hfeed : feed boundary .headerValueStart c =
        (feed boundary .headerValue c).map fun r => (r.1, [] ++ r.2) := by
      rw [map_nil_append, feed, if_neg hspace, feed]
    rw [if_neg hspace] at hbody
    obtain ⟨rfl, rfl⟩ := hmid.pending.of_idle rfl
    have howed : Pending boundary before (data.take i) (only .headerValue i) .headerValue [] :=
      .owed rfl (.fresh .headerValue hmid.le) fun _ => rfl
    exact .inr ⟨_, hbody, .of_left hc rfl hfeed (.headerValue hf) howed (List.append_nil _)⟩

theorem turn_headerValue (hrem : Remembers boundary entry before) (hf : f.partBoundary = false)
    (hc : data[i]? = some c)
    (hmid : Mid boundary data before ⟨⟨.headerValue, k, f, marks⟩, i, called⟩ .headerValue owed) :
    Turn boundary data before entry ⟨⟨.headerValue, k, f, marks⟩, i, called⟩
      .headerValue owed c := by
  have hbody : body (delimiter boundary) data entry c ⟨⟨.headerValue, k, f, marks⟩, i, called⟩ =
      .ok (onHeaderValue (delimiter boundary) data entry c
        ⟨⟨.headerValue, k, f, marks⟩, i, called⟩) := rfl
  have hfeed : feed boundary .headerValue c = .ok (readHeaderValue c) := rfl
  obtain ⟨text, m, rfl, howed, -⟩ := hmid.pending.of_owed rfl
  have hmarks : marks = only .headerValue (m - before.length) := howed.marks
  have hlt : i < data.length := (List.getElem?_eq_some_iff.mp hc).1
  unfold onHeaderValue at hbody
  unfold readHeaderValue at hfeed
  dsimp only at hbody
  by_cases hcr : c = CR
  · rw [if_pos hcr, dataCallback_of_only hmarks] at hbody
    rw [if_pos hcr] at hfeed
    refine .inr ⟨_, hbody, .of_taken hc rfl hfeed (.headerValueAlmostDone hf) (.idle rfl rfl) ?_⟩
    have hclosed : (called ++ emitted (delimiter boundary) data entry .headerValue
        (m - before.length) i).flatMap Callback.bytewise =
          called.flatMap Callback.bytewise ++ each .headerValue text :=
      flatMap_closed hrem hlt.le howed (by simp [Phase.held])
    show _ = List.flatMap Callback.bytewise (called ++ emitted (delimiter boundary) data entry
      .headerValue (m - before.length) i ++ [.headerEnd]) ++ []
    rw [List.flatMap_append, hclosed]
    exact (List.append_nil _).symm
  · rw [if_neg hcr] at hbody hfeed
    refine .inr ⟨_, hbody, .of_taken hc rfl hfeed (.headerValue hf)
      (.owed rfl (howed.byte hc) (by simp)) ?_⟩
    rw [each_append, List.append_assoc]

theorem turn_headerValueAlmostDone (hf : f.partBoundary = false) (hc : data[i]? = some c)
    (hmid : Mid boundary data before ⟨⟨.headerValueAlmostDone, k, f, marks⟩, i, called⟩
      .headerValueAlmostDone owed) :
    Turn boundary data before entry ⟨⟨.headerValueAlmostDone, k, f, marks⟩, i, called⟩
      .headerValueAlmostDone owed c := by
  by_cases hlf : c = LF
  · exact .of_taken hmid hc (if_pos hlf) (if_neg (not_not.mpr hlf)) (.headerFieldStart hf) rfl rfl
      rfl rfl (List.append_nil _).symm rfl
  · exact .inl ⟨_, if_pos hlf, if_neg hlf⟩

theorem turn_headersAlmostDone (hf : f.partBoundary = false) (hc : data[i]? = some c)
    (hmid : Mid boundary data before ⟨⟨.headersAlmostDone, 0, f, marks⟩, i, called⟩
      .headersAlmostDone owed) :
    Turn boundary data before entry ⟨⟨.headersAlmostDone, 0, f, marks⟩, i, called⟩
      .headersAlmostDone owed c := by
  by_cases hlf : c = LF
  · exact .of_taken hmid hc (if_pos hlf) (if_neg (not_not.mpr hlf)) (.partDataStart hf) rfl rfl
      rfl rfl rfl rfl
  · exact .inl ⟨_, if_pos hlf, if_neg hlf⟩

theorem turn_partDataStart (hf : f.partBoundary = false) (hc : data[i]? = some c)
    (hmid : Mid boundary data before ⟨⟨.partDataStart, 0, f, marks⟩, i, called⟩
      .partDataStart owed) :
    Turn boundary data before entry ⟨⟨.partDataStart, 0, f, marks⟩, i, called⟩
      .partDataStart owed c := by
  have hfeed : feed boundary .partDataStart c =
      (feed boundary (.partData (.upTo 0)) c).map fun r => (r.1, [] ++ r.2) := by
    rw [map_nil_append, feed, feed]
  obtain ⟨rfl, rfl⟩ := hmid.pending.of_idle rfl
  have howed : Pending boundary before (data.take i) (only .partData i) (.partData (.upTo 0)) [] :=
    .owed rfl (.fresh .partData hmid.le) fun _ => rfl
  exact .inr ⟨_, rfl, .of_left hc rfl hfeed (.upTo hf (Nat.zero_le _)) howed (List.append_nil _)⟩

theorem turn_endBoundary (hf : f.partBoundary = false) (hc : data[i]? = some c)
    (hmid : Mid boundary data before
      ⟨⟨.endBoundary, (delimiter boundary).length - 2 + 1, f, marks⟩, i, called⟩ .endBoundary owed) :
    Turn boundary data before entry
      ⟨⟨.endBoundary, (delimiter boundary).length - 2 + 1, f, marks⟩, i, called⟩
      .endBoundary owed c := by
  have hbody : body (delimiter boundary) data entry c
      ⟨⟨.endBoundary, (delimiter boundary).length - 2 + 1, f, marks⟩, i, called⟩ =
      onEndBoundary (delimiter boundary) c
        ⟨⟨.endBoundary, (delimiter boundary).length - 2 + 1, f, marks⟩, i, called⟩ := rfl
  unfold onEndBoundary at hbody
  rw [if_pos rfl] at hbody
  by_cases hyphen : c = HYPHEN
  · rw [if_neg (not_not.mpr hyphen)] at hbody
    exact .of_taken hmid hc (if_pos hyphen) hbody (.end_ hf) rfl rfl rfl rfl rfl rfl
  · rw [if_pos hyphen] at hbody
    exact .inl ⟨_, hbody, if_neg hyphen⟩

-- Nothing is read after the end.
theorem run_end (boundary s : Bytes) : run (feed boundary) .end_ s = .ok (.end_, []) := by
  induction s with
  | nil => rfl
  | cons c s ih =>
      have hfeed : feed boundary .end_ c = .ok (.end_, []) := rfl
      rw [run_cons_ok hfeed, ih]
      rfl

theorem turn_end (hf : f.partBoundary = false) (hc : data[i]? = some c)
    (hmid : Mid boundary data before ⟨⟨.end_, k, f, marks⟩, i, called⟩ .end_ owed) :
    Turn boundary data before entry ⟨⟨.end_, k, f, marks⟩, i, called⟩ .end_ owed c := by
  have hbody : body (delimiter boundary) data entry c ⟨⟨.end_, k, f, marks⟩, i, called⟩ =
      .ok (onEnd data c ⟨⟨.end_, k, f, marks⟩, i, called⟩) := rfl
  have hlt : i < data.length := (List.getElem?_eq_some_iff.mp hc).1
  obtain ⟨hnone, rfl⟩ := hmid.pending.of_idle rfl
  have hgo : ∀ j, i ≤ j → j ≤ data.length → Follows boundary data before
      ⟨⟨.end_, k, f, marks⟩, i, called⟩ .end_ [] ⟨⟨.end_, k, f, marks⟩, j, called⟩ := by
    intro j hij hj
    refine ⟨.end_, [], [], ⟨.end_ hf, hj, .idle rfl hnone⟩, hij, ?_, List.append_nil _⟩
    rw [run_end, run_end]
    rfl
  unfold onEnd at hbody
  dsimp only at hbody
  by_cases hcrlf : c = CR ∧ data[i + 1]? = some LF
  · have hnext : i + 1 < data.length := (List.getElem?_eq_some_iff.mp hcrlf.2).1
    rw [if_pos hcrlf] at hbody
    exact .inr ⟨_, hbody, hgo (i + 2) (by omega) hnext⟩
  · rw [if_neg hcrlf] at hbody
    exact .inr ⟨_, hbody, hgo data.length hlt.le (Nat.le_refl _)⟩

end Turn

end WageFix.Multipart
