import WageFix.Multipart.Automaton

-- Where nothing is matched the parser looks for the whole delimiter in its buffer,
-- and passes over what cannot belong to one. It comes to where reading byte by
-- byte comes.
namespace WageFix.Multipart

open Transducer (run run_cons_ok run_append_ok)

variable {boundary data : Bytes} {i j k : ℕ}

def segment (data : Bytes) (i j : ℕ) : Bytes := (data.take j).drop i

theorem drop_eq_segment (hij : i ≤ j) (hj : j ≤ data.length) :
    data.drop i = segment data i j ++ data.drop j := by
  have hlen : (data.take j).length = j := List.length_take_of_le hj
  have hzero : i - j = 0 := Nat.sub_eq_zero_of_le hij
  calc data.drop i = (data.take j ++ data.drop j).drop i := by rw [List.take_append_drop]
    _ = segment data i j ++ data.drop j := by
      rw [List.drop_append, hlen, hzero, List.drop_zero]
      rfl

theorem segment_append {m : ℕ} (hij : i ≤ j) (hjm : j ≤ m) (hm : m ≤ data.length) :
    segment data i m = segment data i j ++ segment data j m := by
  have hlen : j ≤ (data.take m).length := by
    rw [List.length_take_of_le hm]
    exact hjm
  have htake : segment (data.take m) i j = segment data i j := by
    rw [segment, List.take_take, Nat.min_eq_left hjm, segment]
  rw [segment, drop_eq_segment hij hlen, htake]
  rfl

theorem length_segment (hj : j ≤ data.length) : (segment data i j).length = j - i := by
  rw [segment, List.length_drop, List.length_take_of_le hj]

theorem segment_succ (hij : i ≤ j) (hj : j < data.length) :
    segment data i (j + 1) = segment data i j ++ [data[j]] := by
  have hlen : i ≤ (data.take j).length := by
    rw [List.length_take_of_le hj.le]
    exact hij
  rw [segment, List.take_add_one, List.getElem?_eq_getElem hj, Option.toList_some,
    List.drop_append_of_le_length hlen]
  rfl

theorem segment_single {c : UInt8} (hc : data[i]? = some c) : segment data i (i + 1) = [c] := by
  obtain ⟨hi, hget⟩ := List.getElem?_eq_some_iff.mp hc
  rw [segment_succ (Nat.le_refl i) hi, segment, List.drop_take_self, hget]
  rfl

theorem not_infix_segment {sub : Bytes} (hij : i ≤ j) (hj : j ≤ data.length)
    (h : ∀ k, i ≤ k → k + sub.length ≤ j → ¬ sub <+: data.drop k) :
    ¬ sub <:+: segment data i j := by
  rintro ⟨before, rest, heq⟩
  have hlen := congrArg List.length heq
  simp only [length_segment hj, List.length_append] at hlen
  apply h (i + before.length) (Nat.le_add_right _ _) (by omega)
  have hdrop : data.drop (i + before.length) = sub ++ (rest ++ data.drop j) := by
    rw [← List.drop_drop, drop_eq_segment hij hj, ← heq, List.append_assoc, List.append_assoc,
      List.drop_left]
  rw [hdrop]
  exact List.prefix_append _ _

section Matching

variable {s : Bytes} {c : UInt8}

theorem cr_not_mem (hcr : CR ∉ boundary) : CR ∉ LF :: HYPHEN :: HYPHEN :: boundary := by
  have hdistinct : CR ≠ LF ∧ CR ≠ HYPHEN := by decide
  simp [hcr, hdistinct]

theorem feed_upTo (hk : k < (delimiter boundary).length) :
    feed boundary (.partData (.upTo k)) c =
      .ok (.partData (.upTo (Matcher.step (delimiter boundary) k c).1),
        each .partData (Matcher.step (delimiter boundary) k c).2) := by
  rw [feed, readPartData, if_neg hk.ne]

theorem read_upTo (hk : k < (delimiter boundary).length)
    (hfree : ¬ delimiter boundary <:+: (delimiter boundary).take k ++ s) :
    run (feed boundary) (.partData (.upTo k)) s =
      .ok (.partData (.upTo (Matcher.run (delimiter boundary) k s).1),
        each .partData (Matcher.run (delimiter boundary) k s).2) := by
  induction s generalizing k with
  | nil => rfl
  | cons c s ih =>
      have hstep := Matcher.step_lt (delimiter_ne_nil boundary) (Matcher.free_letter hfree)
      rw [run_cons_ok (feed_upTo hk), ih hstep (Matcher.free_step hfree),
        Matcher.run, each_append]
      rfl

-- The last byte may complete the delimiter.
theorem read_upTo_concat (hfree : ¬ delimiter boundary <:+: s) :
    run (feed boundary) (.partData (.upTo 0)) (s ++ [c]) =
      .ok (.partData (.upTo (Matcher.run (delimiter boundary) 0 (s ++ [c])).1),
        each .partData (Matcher.run (delimiter boundary) 0 (s ++ [c])).2) := by
  have hpos : 0 < (delimiter boundary).length := Nat.succ_pos _
  have hlt := Matcher.run_lt (delimiter_ne_nil boundary) hpos hfree
  rw [run_append_ok (read_upTo hpos hfree), run_cons_ok (feed_upTo hlt), Matcher.run_append,
    each_append]
  simp [Transducer.Result.after, Matcher.run]

theorem read_found (hcr : CR ∉ boundary)
    (hfree : ¬ delimiter boundary <:+: s ++ (delimiter boundary).dropLast) :
    run (feed boundary) (.partData (.upTo 0)) (s ++ delimiter boundary) =
      .ok (.partData (.upTo (delimiter boundary).length), each .partData s) := by
  have hsplit : s ++ delimiter boundary = s ++ (delimiter boundary).dropLast ++
      [(delimiter boundary).getLast (delimiter_ne_nil boundary)] := by
    rw [List.append_assoc, List.dropLast_append_getLast]
  have hrun : Matcher.run (delimiter boundary) 0 (s ++ delimiter boundary) =
      ((delimiter boundary).length, s) := Matcher.run_found (cr_not_mem hcr) s
  rw [hsplit, read_upTo_concat hfree, ← hsplit, hrun]

theorem read_cr (hcr : CR ∉ boundary) (hfree : ¬ delimiter boundary <:+: s) :
    run (feed boundary) (.partData (.upTo 0)) (s ++ [CR]) =
      .ok (.partData (.upTo 1), each .partData s) := by
  have hrun : Matcher.run (delimiter boundary) 0 (s ++ [CR]) = (1, s) :=
    Matcher.run_head (cr_not_mem hcr) s
  rw [read_upTo_concat hfree, hrun]

theorem read_missed (hfree : ¬ delimiter boundary <:+: s)
    (hlast : CR ∉ s.drop (s.length - (delimiter boundary).length)) :
    run (feed boundary) (.partData (.upTo 0)) s = .ok (.partData (.upTo 0), each .partData s) := by
  have hrun : Matcher.run (delimiter boundary) 0 s = (0, s) := Matcher.run_missed hfree hlast
  rw [read_upTo (Nat.succ_pos _) hfree, hrun]

end Matching

theorem segment_eq_take (data : Bytes) (i j : ℕ) :
    segment data i j = (data.drop i).take (j - i) := List.drop_take

-- What is passed over begins no match, and it ends at the last byte or at a CR.
theorem skip_spec (boundary : Bytes) (hi : i < data.length) :
    let j := skip (delimiter boundary) data i
    i ≤ j ∧ j < data.length ∧ CR ∉ segment data i j ∧
      (j + 1 = data.length ∨ data[j]? = some CR) := by
  intro j
  generalize hw : segment data i (data.length - 1) = w
  have hlen : w.length = data.length - 1 - i := by
    rw [← hw, length_segment (Nat.sub_le _ _)]
  have hj : j = i + w.findIdx (· = CR) := by
    rw [← hw]
    rfl
  have hle : w.findIdx (· = CR) ≤ w.length := List.findIdx_le_length
  have hget : ∀ k (hk : k < w.length), data[i + k]? = some w[k] := by
    intro k hk
    have hopt : w[k]? = some w[k] := List.getElem?_eq_getElem hk
    rw [← hopt, ← hw, segment_eq_take, List.getElem?_take_of_lt (by omega), List.getElem?_drop]
  refine ⟨by omega, by omega, ?_, ?_⟩
  · intro hmem
    obtain ⟨k, hk, hcr⟩ := List.getElem_of_mem hmem
    rw [length_segment (by omega)] at hk
    have hkw : k < w.findIdx (· = CR) := by omega
    have hdata : data[i + k]? = some CR := by
      rw [← hcr, ← List.getElem?_eq_getElem, segment_eq_take,
        List.getElem?_take_of_lt (by omega), List.getElem?_drop]
    have heq := Option.some.inj ((hget k (by omega)).symm.trans hdata)
    have hnot := List.not_of_lt_findIdx hkw
    simp [heq] at hnot
  · rcases Nat.lt_or_eq_of_le hle with hlt | heq
    · right
      have hcr := List.findIdx_getElem (w := hlt)
      rw [hj, hget _ hlt]
      simpa using hcr
    · left
      omega

-- Where the search stops, the index it goes on with and the data it has passed over
-- are those of the reader.
structure Located (boundary data : Bytes) (i : ℕ) (found : ℕ × ℕ) (index : ℕ) (out : Bytes) :
    Prop where
  le : i ≤ found.2
  lt : found.2 < data.length
  index_lt : found.1 < (delimiter boundary).length
  index_eq : (if (delimiter boundary)[found.1]? = some (data.getD found.2 0) then found.1 + 1
    else 0) = index
  read : run (feed boundary) (.partData (.upTo 0)) (segment data i (found.2 + 1)) =
    .ok (.partData (.upTo index), each .partData out)
  text : segment data i (found.2 + 1) = out ++ (delimiter boundary).take index

theorem located_of_found (hcr : CR ∉ boundary) {i0 : ℕ}
    (hfind : find (delimiter boundary) data i = some i0) :
    Located boundary data i ((delimiter boundary).length - 1, i0 + (delimiter boundary).length - 1)
      (delimiter boundary).length (segment data i i0) := by
  obtain ⟨hle, ⟨rest, hrest⟩, hfirst⟩ := find_some hfind
  generalize hn : (delimiter boundary).length = n at *
  have hpos : 0 < n := by
    rw [← hn]
    exact Nat.succ_pos _
  have hlen := congrArg List.length hrest
  rw [List.length_append, List.length_drop, hn] at hlen
  have hmatch : ∀ m, m ≤ n → segment data i (i0 + m) =
      segment data i i0 ++ (delimiter boundary).take m := by
    intro m hm
    rw [segment_append hle (Nat.le_add_right _ _) (by omega), segment_eq_take data i0,
      Nat.add_sub_cancel_left, ← hrest, List.take_append_of_le_length (by omega)]
  have hlast : (delimiter boundary)[n - 1]? = some (data.getD (i0 + n - 1) 0) := by
    have hdata : data[i0 + n - 1]? = (delimiter boundary)[n - 1]? := by
      have hindex : i0 + n - 1 = i0 + (n - 1) := by omega
      rw [hindex, ← List.getElem?_drop, ← hrest, List.getElem?_append_left (by omega)]
    rw [List.getD_eq_getElem?_getD, hdata, List.getElem?_eq_getElem (by omega), Option.getD_some]
  have hend : i0 + n - 1 + 1 = i0 + n := by omega
  have hall : segment data i (i0 + n) = segment data i i0 ++ delimiter boundary := by
    rw [hmatch n (Nat.le_refl n), ← hn, List.take_length]
  refine ⟨?_, ?_, ?_, ?_, ?_, ?_⟩
  · show i ≤ i0 + n - 1
    omega
  · show i0 + n - 1 < data.length
    omega
  · show n - 1 < _
    omega
  · rw [if_pos hlast]
    exact Nat.sub_add_cancel hpos
  · show run _ _ (segment data i (i0 + n - 1 + 1)) = _
    have hfree : ¬ delimiter boundary <:+: segment data i i0 ++ (delimiter boundary).dropLast := by
      rw [List.dropLast_eq_take, hn, ← hmatch (n - 1) (Nat.sub_le n 1)]
      apply not_infix_segment (by omega) (by omega)
      exact fun k hk hkn => hfirst k hk (by omega)
    rw [hend, hall, read_found hcr hfree, hn]
  · show segment data i (i0 + n - 1 + 1) = _
    rw [hend, hall, ← hn, List.take_length]

theorem located_of_not_found (hcr : CR ∉ boundary) (hi : i < data.length)
    (hfind : find (delimiter boundary) data i = none) :
    ∃ index out, Located boundary data i
      (0, skip (delimiter boundary) data (max i (data.length - (delimiter boundary).length)))
      index out := by
  have hpos : 0 < (delimiter boundary).length := Nat.succ_pos _
  generalize hstart : max i (data.length - (delimiter boundary).length) = start
  have hi' : i ≤ start ∧ start < data.length := by omega
  obtain ⟨hle, hlt, hpassed, hstop⟩ := skip_spec boundary hi'.2
  generalize skip (delimiter boundary) data start = j at *
  have hfree : ∀ m, i ≤ m → m ≤ data.length → ¬ delimiter boundary <:+: segment data i m := by
    intro m him hm
    apply not_infix_segment him hm
    exact fun k hk _ => find_none (delimiter_ne_nil boundary) hfind hk
  have hhead : (delimiter boundary)[0]? = some CR := rfl
  have hget : data[j]? = some (data.getD j 0) := by
    rw [List.getD_eq_getElem?_getD, List.getElem?_eq_getElem hlt, Option.getD_some]
  by_cases hc : data.getD j 0 = CR
  · have hseg : segment data i (j + 1) = segment data i j ++ [CR] := by
      rw [segment_succ (by omega) hlt, ← Option.some.inj (hget.symm.trans
        (List.getElem?_eq_getElem hlt)), hc]
    refine ⟨1, segment data i j, by show i ≤ j; omega, hlt, hpos, ?_, ?_, hseg⟩
    · rw [hhead, hc, if_pos rfl]
    · show run _ _ (segment data i (j + 1)) = _
      rw [hseg]
      exact read_cr hcr (hfree j (by omega) hlt.le)
  · have hlast : j + 1 = data.length := by
      rcases hstop with hend | heq
      · exact hend
      · exact absurd (Option.some.inj (hget.symm.trans heq)) hc
    refine ⟨0, segment data i (j + 1), by show i ≤ j; omega, hlt, hpos, ?_, ?_, ?_⟩
    · rw [hhead, if_neg fun heq => hc (Option.some.inj heq).symm]
    · apply read_missed (hfree (j + 1) (by omega) hlt)
      have hfrom : i + (j + 1 - i - (delimiter boundary).length) = start := by omega
      have htail : (segment data i (j + 1)).drop ((segment data i (j + 1)).length -
          (delimiter boundary).length) = segment data start j ++ [data[j]] := by
        rw [length_segment hlt, ← segment_succ hle hlt, segment, List.drop_drop, hfrom]
        rfl
      rw [htail, List.mem_append, List.mem_singleton]
      rintro (hmem | heq)
      · exact hpassed hmem
      · exact hc (Option.some.inj (hget.symm.trans (by rw [List.getElem?_eq_getElem hlt, heq])))
    · rw [List.take_zero, List.append_nil]

theorem search_located (hcr : CR ∉ boundary) (hi : i < data.length) :
    ∃ index out, Located boundary data i (search (delimiter boundary) data i) index out := by
  rw [search]
  cases hfind : find (delimiter boundary) data i with
  | some i0 => exact ⟨_, _, located_of_found hcr hfind⟩
  | none => exact located_of_not_found hcr hi hfind

end WageFix.Multipart
