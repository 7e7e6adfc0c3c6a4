import WageFix.Multipart.Owed
import WageFix.Multipart.Search

-- The turns of the loop in the data of a part: a search for the delimiter where
-- nothing is held, and otherwise a match that goes on or breaks off.
namespace WageFix.Multipart

open Transducer (run run_append_ok)

section Turn

variable {boundary data before : Bytes} {entry : Flags} {slot : Slot} {l l' : Cursor}
  {q q' : Phase} {owed owed' out : List Callback} {c : UInt8} {k i : ℕ} {f : Flags}
  {marks : Slot → Option ℤ} {called : List Callback}

theorem feed_restart {m : Held} (h : readPartData boundary m c = restart boundary m c) :
    feed boundary (.partData m) c = (feed boundary (.partData (.upTo 0)) c).map fun r =>
      (r.1, each .partData (m.text boundary) ++ r.2) := by
  have hpos : 0 < (delimiter boundary).length := Nat.succ_pos _
  rw [feed_upTo hpos, Matcher.step_zero, feed, h, restart, each_append]
  rfl

-- The byte does not go on with the match.
theorem follows_broken {m : Held} (hc : data[l.i]? = some c)
    (hmid : Mid boundary data before l (.partData m) owed)
    (hrestart : readPartData boundary m c = restart boundary m c)
    (hstate : l'.state = .partData) (hindex : l'.index = 0) (hf : l'.flags.partBoundary = false)
    (hi : l'.i = l.i) (hmarks : l'.marks = l.marks) (hcalled : l'.called = l.called) :
    Follows boundary data before l (.partData m) owed l' := by
  obtain ⟨text, n, rfl, howed, -⟩ := hmid.pending.of_owed rfl
  have hshows : Shows boundary l'.state l'.index l'.flags (.partData (.upTo 0)) := by
    rw [hstate, hindex]
    exact .upTo hf (Nat.zero_le _)
  have howed' : Pending boundary before (data.take l.i) l'.marks (.partData (.upTo 0))
      (each .partData (text ++ m.text boundary)) := by
    rw [hmarks]
    exact .owed rfl howed.release (by simp)
  refine .of_left hc hi (feed_restart hrestart) hshows howed' ?_
  rw [hcalled, each_append, List.append_assoc]

-- The byte goes on with the match.
theorem follows_held {m m' : Held} (hc : data[l.i]? = some c)
    (hmid : Mid boundary data before l (.partData m) owed)
    (hread : readPartData boundary m c = (.partData m', []))
    (htext : m'.text boundary = m.text boundary ++ [c])
    (hshows : Shows boundary l'.state l'.index l'.flags (.partData m'))
    (hi : l'.i = l.i + 1) (hmarks : l'.marks = l.marks) (hcalled : l'.called = l.called) :
    Follows boundary data before l (.partData m) owed l' := by
  obtain ⟨text, n, rfl, howed, -⟩ := hmid.pending.of_owed rfl
  have hlt : l.i < data.length := (List.getElem?_eq_some_iff.mp hc).1
  have howed' : Owed before (data.take (l.i + 1)) l.marks .partData (m'.text boundary) text n := by
    apply howed.advance (Nat.le_succ _) hlt
    · rw [segment_single hc, htext, ← List.append_assoc]
      rfl
    · rcases howed.crosses with hnil | hle
      · exact .inl hnil
      · right
        rw [List.length_take_of_le hlt.le] at hle
        rw [htext, List.length_append]
        exact Nat.succ_le_succ hle
  have hfeed : feed boundary (.partData m) c = .ok (.partData m', []) := by
    rw [feed, hread]
  rw [← hmarks] at howed'
  refine .of_taken hc hi hfeed hshows (.owed rfl howed' (by simp)) ?_
  rw [hcalled, List.append_nil]

-- The text that ends a part is complete.
theorem follows_ended {m : Held} {n : ℕ} {text : Bytes} (hrem : Remembers boundary entry before)
    (hc : data[l.i]? = some c)
    (howed : Owed before (data.take l.i) l.marks .partData (m.text boundary) text n)
    (hread : readPartData boundary m c = (q', out)) (hslot : q'.slot = none)
    (hout : out.flatMap Callback.bytewise = out)
    (hshows : Shows boundary l'.state l'.index l'.flags q')
    (hindex : l.index = (m.text boundary).length)
    (hi : l'.i = l.i + 1) (hmarks : l'.marks = fun _ => none)
    (hcalled : l'.called = l.called ++ emitted (delimiter boundary) data entry .partData
      (n - before.length) (l.i - l.index) ++ out) :
    Follows boundary data before l (.partData m) (each .partData text) l' := by
  have hlt : l.i < data.length := (List.getElem?_eq_some_iff.mp hc).1
  have hfeed : feed boundary (.partData m) c = .ok (q', out) := by
    rw [feed, hread]
  refine .of_taken hc hi hfeed hshows (.idle hslot hmarks) ?_
  rw [hcalled, List.flatMap_append, flatMap_closed hrem hlt.le howed (by rw [hindex]), hout,
    List.append_nil]

theorem turn_upTo (hf : f.partBoundary = false) (hpos : 0 < k)
    (hk : k ≤ (delimiter boundary).length) (hc : data[i]? = some c)
    (hmid : Mid boundary data before ⟨⟨.partData, k, f, marks⟩, i, called⟩ (.partData (.upTo k))
      owed) :
    Turn boundary data before entry ⟨⟨.partData, k, f, marks⟩, i, called⟩ (.partData (.upTo k))
      owed c := by
  have hbody : body (delimiter boundary) data entry c ⟨⟨.partData, k, f, marks⟩, i, called⟩ =
      .ok (onPartData (delimiter boundary) data entry c ⟨⟨.partData, k, f, marks⟩, i, called⟩) := rfl
  unfold onPartData at hbody
  rw [if_neg (show k ≠ 0 by omega)] at hbody
  unfold onMatch at hbody
  dsimp only at hbody
  have hnext : k + 1 ≠ 0 ∨ k = 0 := .inl (Nat.succ_ne_zero k)
  by_cases hlt : k < (delimiter boundary).length
  · rw [if_pos hlt] at hbody
    by_cases hmatch : (delimiter boundary)[k]? = some c
    · rw [if_pos hmatch, reconsider_next hnext] at hbody
      have hread : readPartData boundary (.upTo k) c = (.partData (.upTo (k + 1)), []) := by
        rw [readPartData, if_neg hlt.ne, Matcher.step_of_eq hmatch]
        rfl
      have htext : (Held.upTo (k + 1)).text boundary = (Held.upTo k).text boundary ++ [c] := by
        rw [Held.text, List.take_add_one, hmatch]
        rfl
      exact .inr ⟨_, hbody, follows_held hc hmid hread htext (.upTo hf hlt) rfl rfl rfl⟩
    · rw [if_neg hmatch, reconsider_again hpos] at hbody
      have hread : readPartData boundary (.upTo k) c = restart boundary (.upTo k) c := by
        rw [readPartData, if_neg hlt.ne, Matcher.step_of_ne hmatch]
        rfl
      exact .inr ⟨_, hbody, follows_broken hc hmid hread rfl rfl hf rfl rfl rfl⟩
  obtain rfl : k = (delimiter boundary).length := Nat.le_antisymm hk (Nat.le_of_not_lt hlt)
  rw [if_neg hlt, if_pos rfl] at hbody
  by_cases hcr : c = CR
  · rw [if_pos hcr, reconsider_next hnext] at hbody
    have hread :
        readPartData boundary (.upTo (delimiter boundary).length) c = (.partData .cr, []) := by
      rw [readPartData, if_pos rfl, if_pos hcr]
    have htext : Held.cr.text boundary =
        (Held.upTo (delimiter boundary).length).text boundary ++ [c] := by
      rw [Held.text, Held.text, List.take_length, hcr]
    exact .inr ⟨_, hbody, follows_held hc hmid hread htext (.cr rfl) rfl rfl rfl⟩
  rw [if_neg hcr] at hbody
  by_cases hyphen : c = HYPHEN
  · rw [if_pos hyphen, reconsider_next hnext] at hbody
    have hread : readPartData boundary (.upTo (delimiter boundary).length) c =
        (.partData .hyphen, []) := by
      rw [readPartData, if_pos rfl, if_neg hcr, if_pos hyphen]
    have htext : Held.hyphen.text boundary =
        (Held.upTo (delimiter boundary).length).text boundary ++ [c] := by
      rw [Held.text, Held.text, List.take_length, hyphen]
    exact .inr ⟨_, hbody, follows_held hc hmid hread htext (.hyphen hf rfl) rfl rfl rfl⟩
  · rw [if_neg hyphen, reconsider_again hpos] at hbody
    have hread : readPartData boundary (.upTo (delimiter boundary).length) c =
        restart boundary (.upTo (delimiter boundary).length) c := by
      rw [readPartData, if_pos rfl, if_neg hcr, if_neg hyphen]
    exact .inr ⟨_, hbody, follows_broken hc hmid hread rfl rfl hf rfl rfl rfl⟩

theorem turn_cr (hrem : Remembers boundary entry before) (hf : f.partBoundary = true)
    (hc : data[i]? = some c)
    (hmid : Mid boundary data before
      ⟨⟨.partData, (delimiter boundary).length + 1, f, marks⟩, i, called⟩ (.partData .cr) owed) :
    Turn boundary data before entry
      ⟨⟨.partData, (delimiter boundary).length + 1, f, marks⟩, i, called⟩ (.partData .cr)
      owed c := by
  have hbody : body (delimiter boundary) data entry c
      ⟨⟨.partData, (delimiter boundary).length + 1, f, marks⟩, i, called⟩ =
      .ok (onPartData (delimiter boundary) data entry c
        ⟨⟨.partData, (delimiter boundary).length + 1, f, marks⟩, i, called⟩) := rfl
  unfold onPartData at hbody
  rw [if_neg (Nat.succ_ne_zero _)] at hbody
  unfold onMatch at hbody
  dsimp only at hbody
  rw [if_neg (Nat.not_succ_lt_self), if_neg (Nat.succ_ne_self _), if_pos rfl, if_pos hf] at hbody
  have hindex : (delimiter boundary).length + 1 = (Held.cr.text boundary).length := by
    simp [Held.text]
  by_cases hlf : c = LF
  · obtain ⟨text, n, rfl, howed, -⟩ := hmid.pending.of_owed rfl
    have hmarks : marks = only .partData (n - before.length) := howed.marks
    rw [if_pos hlf, dataCallback_of_only hmarks] at hbody
    have hread : readPartData boundary .cr c = (.headerFieldStart, [.partEnd, .partBegin]) :=
      if_pos hlf
    refine .inr ⟨_, hbody, follows_ended hrem hc howed hread rfl rfl (.headerFieldStart rfl) hindex
      rfl rfl ?_⟩
    simp [Cursor.call]
  · rw [if_neg hlf, reconsider_again (Nat.succ_pos _)] at hbody
    have hread : readPartData boundary .cr c = restart boundary .cr c := if_neg hlf
    exact .inr ⟨_, hbody, follows_broken hc hmid hread rfl rfl rfl rfl rfl rfl⟩

theorem turn_hyphen (hrem : Remembers boundary entry before) (hf : f.partBoundary = false)
    (hl : f.lastBoundary = true) (hc : data[i]? = some c)
    (hmid : Mid boundary data before
      ⟨⟨.partData, (delimiter boundary).length + 1, f, marks⟩, i, called⟩ (.partData .hyphen) owed) :
    Turn boundary data before entry
      ⟨⟨.partData, (delimiter boundary).length + 1, f, marks⟩, i, called⟩ (.partData .hyphen)
      owed c := by
  have hbody : body (delimiter boundary) data entry c
      ⟨⟨.partData, (delimiter boundary).length + 1, f, marks⟩, i, called⟩ =
      .ok (onPartData (delimiter boundary) data entry c
        ⟨⟨.partData, (delimiter boundary).length + 1, f, marks⟩, i, called⟩) := rfl
  have hindex : (delimiter boundary).length + 1 = (Held.hyphen.text boundary).length := by
    simp [Held.text]
  have hf' : ¬ f.partBoundary = true := by
    rw [hf]
    exact Bool.false_ne_true
  unfold onPartData at hbody
  rw [if_neg (Nat.succ_ne_zero _)] at hbody
  unfold onMatch at hbody
  dsimp only at hbody
  rw [if_neg (Nat.not_succ_lt_self), if_neg (Nat.succ_ne_self _), if_pos rfl, if_neg hf',
    if_pos hl] at hbody
  by_cases hyphen : c = HYPHEN
  · obtain ⟨text, n, rfl, howed, -⟩ := hmid.pending.of_owed rfl
    have hmarks : marks = only .partData (n - before.length) := howed.marks
    rw [if_pos hyphen, dataCallback_of_only hmarks, reconsider_next (.inl (Nat.succ_ne_zero _))]
      at hbody
    have hread : readPartData boundary .hyphen c = (.end_, [.partEnd, .end_]) := if_pos hyphen
    refine .inr ⟨_, hbody, follows_ended hrem hc howed hread rfl rfl (.end_ hf) hindex rfl rfl ?_⟩
    simp [Cursor.call]
  · rw [if_neg hyphen, reconsider_again (Nat.succ_pos _)] at hbody
    have hread : readPartData boundary .hyphen c = restart boundary .hyphen c := if_neg hyphen
    exact .inr ⟨_, hbody, follows_broken hc hmid hread rfl rfl hf rfl rfl rfl⟩

-- With nothing matched the turn may pass over many bytes.
theorem turn_search (hcr : CR ∉ boundary) (hf : f.partBoundary = false) (hc : data[i]? = some c)
    (hmid : Mid boundary data before ⟨⟨.partData, 0, f, marks⟩, i, called⟩ (.partData (.upTo 0))
      owed) :
    Turn boundary data before entry ⟨⟨.partData, 0, f, marks⟩, i, called⟩ (.partData (.upTo 0))
      owed c := by
  have hbody : body (delimiter boundary) data entry c ⟨⟨.partData, 0, f, marks⟩, i, called⟩ =
      .ok (onPartData (delimiter boundary) data entry c ⟨⟨.partData, 0, f, marks⟩, i, called⟩) := rfl
  obtain ⟨text, m, rfl, howed, -⟩ := hmid.pending.of_owed rfl
  have hlt : i < data.length := (List.getElem?_eq_some_iff.mp hc).1
  obtain ⟨index, out, hfound⟩ := search_located hcr hlt
  unfold onPartData at hbody
  rw [if_pos rfl] at hbody
  dsimp only at hbody
  generalize search (delimiter boundary) data i = found at hbody hfound
  unfold onMatch at hbody
  rw [if_pos hfound.index_lt, hfound.index_eq, reconsider_next (.inr rfl)] at hbody
  have hindex : index ≤ (delimiter boundary).length := by
    have hle := hfound.index_lt
    rw [← hfound.index_eq]
    split_ifs
    · exact hle
    · exact Nat.zero_le _
  have hij : i ≤ found.2 + 1 := hfound.le.trans (Nat.le_succ _)
  have hj : found.2 + 1 ≤ data.length := hfound.lt
  have hseg : (segment data i (found.2 + 1)).length = found.2 + 1 - i := length_segment hj
  have howed' : Owed before (data.take (found.2 + 1)) marks .partData
      ((delimiter boundary).take index) (text ++ out) m := by
    apply howed.advance hij hj
    · rw [hfound.text, ← List.append_assoc]
      simp [Phase.held, Held.text]
    · right
      have hlen := congrArg List.length hfound.text
      rw [hseg, List.length_append] at hlen
      omega
  refine .inr ⟨_, hbody, .partData (.upTo index), each .partData (text ++ out), each .partData out,
    ⟨.upTo hf hindex, hj, .owed rfl howed' (by simp)⟩, hij, ?_, ?_⟩
  · show run _ _ (data.drop i) = _
    rw [drop_eq_segment hij hj, run_append_ok hfound.read, hseg]
  · rw [each_append, List.append_assoc]

end Turn

end WageFix.Multipart
