import WageFix.Multipart.Chunks

-- What is read of the data of a part: the content, where no end of a part is in
-- it, and less where one is.
namespace WageFix.Multipart

open Transducer (run run_cons_ok run_append_ok run_cons_eq_ok run_append_eq_ok)

variable {boundary : Bytes}

-- The texts that end a part's data: another part follows, or none.
def nextPart (boundary : Bytes) : Bytes := delimiter boundary ++ [CR, LF]

def lastPart (boundary : Bytes) : Bytes := delimiter boundary ++ [HYPHEN, HYPHEN]

-- No end of a part comes in the content, nor one that begins in it and takes the
-- line break before the delimiter for its own.
def Unbroken (boundary content : Bytes) : Prop :=
  ¬ nextPart boundary <:+: content ++ [CR, LF] ∧ ¬ lastPart boundary <:+: content

instance (boundary content : Bytes) : Decidable (Unbroken boundary content) :=
  inferInstanceAs (Decidable (_ ∧ _))

-- A match that is held is not longer than the delimiter.
def Held.Within (boundary : Bytes) (m : Held) : Prop :=
  ∀ k, m = .upTo k → k ≤ (delimiter boundary).length

section Content

variable {m : Held} {q : Phase} {c : UInt8} {s t : Bytes} {out : List Callback}

-- The byte is data or is held, and what is held has been read and not called with.
def Stays (boundary : Bytes) (m : Held) (c : UInt8) : Prop :=
  ∃ m' bytes, readPartData boundary m c = (.partData m', each .partData bytes) ∧
    bytes ++ m'.text boundary = m.text boundary ++ [c] ∧ m'.Within boundary

theorem stays_of_restart (h : readPartData boundary m c = restart boundary m c) :
    Stays boundary m c := by
  refine ⟨_, _, h, ?_, ?_⟩
  · rw [Held.text, List.append_assoc, Matcher.enter_text]
  · rintro k ⟨⟩
    exact Matcher.enter_le (delimiter_ne_nil boundary) c

theorem readPartData_cases (boundary : Bytes) (m : Held) (c : UInt8) :
    Stays boundary m c ∨
    (m.text boundary ++ [c] = nextPart boundary ∧
      readPartData boundary m c = (.headerFieldStart, [.partEnd, .partBegin])) ∨
    (m.text boundary ++ [c] = lastPart boundary ∧
      readPartData boundary m c = (.end_, [.partEnd, .end_])) := by
  cases m with
  | upTo k =>
      left
      by_cases hk : k = (delimiter boundary).length
      · have htext : (Held.upTo k).text boundary = delimiter boundary := by
          rw [Held.text, hk, List.take_length]
        by_cases hcr : c = CR
        · refine ⟨.cr, [], (if_pos hk).trans (if_pos hcr), ?_, by simp [Held.Within]⟩
          rw [htext, hcr]
          rfl
        by_cases hyphen : c = HYPHEN
        · refine ⟨.hyphen, [], (if_pos hk).trans ((if_neg hcr).trans (if_pos hyphen)), ?_,
            by simp [Held.Within]⟩
          rw [htext, hyphen]
          rfl
        · exact stays_of_restart ((if_pos hk).trans ((if_neg hcr).trans (if_neg hyphen)))
      · refine ⟨_, _, if_neg hk, Matcher.step_text _ k c, ?_⟩
        rintro k' ⟨⟩
        exact Matcher.step_le (delimiter_ne_nil boundary) k c
  | cr =>
      by_cases hlf : c = LF
      · refine .inr (.inl ⟨?_, if_pos hlf⟩)
        rw [hlf, Held.text, List.append_assoc]
        rfl
      · exact .inl (stays_of_restart (if_neg hlf))
  | hyphen =>
      by_cases hyphen : c = HYPHEN
      · refine .inr (.inr ⟨?_, if_pos hyphen⟩)
        rw [hyphen, Held.text, List.append_assoc]
        rfl
      · exact .inl (stays_of_restart (if_neg hyphen))

-- While no end of the part is read, what has been read is data.
theorem run_data (hm : m.Within boundary) (hnext : ¬ nextPart boundary <:+: m.text boundary ++ t)
    (hlast : ¬ lastPart boundary <:+: m.text boundary ++ t) :
    ∃ m' bytes, run (feed boundary) (.partData m) t = .ok (.partData m', each .partData bytes) ∧
      bytes ++ m'.text boundary = m.text boundary ++ t ∧ m'.Within boundary := by
  induction t generalizing m with
  | nil => exact ⟨m, [], rfl, by simp, hm⟩
  | cons c t ih =>
      have hpre : m.text boundary ++ [c] <:+: m.text boundary ++ c :: t :=
        ⟨[], t, by simp⟩
      rcases readPartData_cases boundary m c with ⟨m₁, bytes₁, hread, htext, hm₁⟩ | hexit | hexit
      · have hfeed : feed boundary (.partData m) c = .ok (.partData m₁, each .partData bytes₁) := by
          rw [feed, hread]
        have hmore : m₁.text boundary ++ t <:+: m.text boundary ++ c :: t := by
          refine ⟨bytes₁, [], ?_⟩
          rw [List.append_nil, ← List.append_assoc, htext, List.append_assoc]
          rfl
        obtain ⟨m', bytes, hrun, htext', hm'⟩ :=
          ih hm₁ (fun h => hnext (h.trans hmore)) (fun h => hlast (h.trans hmore))
        refine ⟨m', bytes₁ ++ bytes, ?_, ?_, hm'⟩
        · rw [run_cons_ok hfeed, hrun, each_append]
          rfl
        · rw [List.append_assoc, htext', ← List.append_assoc, htext, List.append_assoc]
          rfl
      · exact absurd (hexit.1 ▸ hpre) hnext
      · exact absurd (hexit.1 ▸ hpre) hlast

-- A part ends only after a text that ends it, which is not data.
theorem run_ends (hm : m.Within boundary)
    (h : run (feed boundary) (.partData m) t = .ok (q, out)) :
    (∃ m' bytes, q = .partData m' ∧ out = each .partData bytes ∧ m'.Within boundary) ∨
    ∃ bytes rest, out = each .partData bytes ++ .partEnd :: rest ∧
      bytes.length + (delimiter boundary).length + 2 ≤ (m.text boundary ++ t).length := by
  induction t generalizing m out with
  | nil =>
      cases h
      exact .inl ⟨m, [], rfl, rfl, hm⟩
  | cons c t ih =>
      obtain ⟨q₁, out₁, out₂, hfeed, hrun, rfl⟩ := run_cons_eq_ok h
      have hread := Except.ok.inj hfeed
      have hends : ∀ ending : Bytes, m.text boundary ++ [c] = delimiter boundary ++ ending →
          ending.length = 2 → ∀ rest, out₁ = .partEnd :: rest →
          ∃ bytes rest, out₁ ++ out₂ = each .partData bytes ++ .partEnd :: rest ∧
            bytes.length + (delimiter boundary).length + 2 ≤ (m.text boundary ++ c :: t).length := by
        rintro ending htext htwo rest rfl
        refine ⟨[], rest ++ out₂, rfl, ?_⟩
        have hlen := congrArg List.length htext
        simp only [List.length_append, List.length_cons, List.length_nil, htwo] at hlen ⊢
        omega
      rcases readPartData_cases boundary m c with ⟨m₁, bytes₁, hr, htext, hm₁⟩ | hexit | hexit
      · obtain ⟨rfl, rfl⟩ := Prod.mk.inj (hread.symm.trans hr)
        have hlen := congrArg List.length htext
        rcases ih hm₁ hrun with ⟨m', bytes, hq, rfl, hm'⟩ | ⟨bytes, rest, rfl, hle⟩
        · exact .inl ⟨m', bytes₁ ++ bytes, hq, (each_append _ _ _).symm, hm'⟩
        · refine .inr ⟨bytes₁ ++ bytes, rest, ?_, ?_⟩
          · rw [each_append, List.append_assoc]
          · simp only [List.length_append, List.length_cons, List.length_nil] at hlen hle ⊢
            omega
      · obtain ⟨-, rfl⟩ := Prod.mk.inj (hread.symm.trans hexit.2)
        exact .inr (hends _ hexit.1 rfl _ rfl)
      · obtain ⟨-, rfl⟩ := Prod.mk.inj (hread.symm.trans hexit.2)
        exact .inr (hends _ hexit.1 rfl _ rfl)

theorem run_drop {k : ℕ} (hk : k ≤ (delimiter boundary).length) :
    run (feed boundary) (.partData (.upTo k)) ((delimiter boundary).drop k) =
      .ok (.partData (.upTo (delimiter boundary).length), []) := by
  generalize hs : (delimiter boundary).drop k = s
  induction s generalizing k with
  | nil =>
      have hle := List.drop_eq_nil_iff.mp hs
      rw [Nat.le_antisymm hk hle]
      rfl
  | cons c s ih =>
      have hc : (delimiter boundary)[k]? = some c := by
        rw [← List.head?_drop, hs, List.head?_cons]
      have hlt : k < (delimiter boundary).length := (List.getElem?_eq_some_iff.mp hc).1
      have htail : (delimiter boundary).drop (k + 1) = s := by
        rw [← List.tail_drop, hs, List.tail_cons]
      have hfeed : feed boundary (.partData (.upTo k)) c = .ok (.partData (.upTo (k + 1)), []) := by
        rw [feed_upTo hlt, Matcher.step_of_eq hc]
        rfl
      rw [run_cons_ok hfeed, ih hlt htail]
      rfl

-- The delimiter is found whatever is held before it, but for another delimiter.
theorem run_delimiter (hcr : CR ∉ boundary) (hm : m.Within boundary)
    (hne : m ≠ .upTo (delimiter boundary).length) :
    run (feed boundary) (.partData m) (delimiter boundary) =
      .ok (.partData (.upTo (delimiter boundary).length), each .partData (m.text boundary)) := by
  have henter : Matcher.enter (delimiter boundary) CR = (1, []) := if_pos rfl
  have hrest : run (feed boundary) (.partData (.upTo 1)) ((delimiter boundary).drop 1) = _ :=
    run_drop (Nat.succ_pos _)
  have hfeed : feed boundary (.partData m) CR =
      .ok (.partData (.upTo 1), each .partData (m.text boundary)) := by
    have hrestart :
        restart boundary m CR = (.partData (.upTo 1), each .partData (m.text boundary)) := by
      rw [restart, henter, List.append_nil]
    cases m with
    | upTo k =>
        have hlt : k < (delimiter boundary).length :=
          Nat.lt_of_le_of_ne (hm k rfl) fun heq => hne (by rw [heq])
        rw [feed_upTo hlt, delimiter, Matcher.step_head (cr_not_mem hcr)]
        rfl
    | cr => rw [← hrestart]; rfl
    | hyphen => rw [← hrestart]; rfl
  show run (feed boundary) (.partData m) (CR :: (delimiter boundary).drop 1) = _
  rw [run_cons_ok hfeed, hrest]
  simp [Transducer.Result.after]

theorem run_ending (ending : Bytes) (h : ending = [CR, LF] ∨ ending = [HYPHEN, HYPHEN])
    (hrun : run (feed boundary) (.partData (.upTo (delimiter boundary).length)) (ending ++ t) =
      .ok (q, out)) : .partEnd ∈ out := by
  have hcr : readPartData boundary (.upTo (delimiter boundary).length) CR = (.partData .cr, []) :=
    (if_pos rfl).trans (if_pos rfl)
  have hyphen : readPartData boundary (.upTo (delimiter boundary).length) HYPHEN =
      (.partData .hyphen, []) := (if_pos rfl).trans ((if_neg (by decide)).trans (if_pos rfl))
  rcases h with rfl | rfl
  · obtain ⟨q₁, out₁, out₂, hfeed, hrest, rfl⟩ := run_cons_eq_ok hrun
    obtain ⟨rfl, rfl⟩ := Prod.mk.inj ((Except.ok.inj hfeed).symm.trans hcr)
    obtain ⟨q₂, out₃, out₄, hfeed', hrest', rfl⟩ := run_cons_eq_ok hrest
    obtain ⟨-, rfl⟩ := Prod.mk.inj (Except.ok.inj hfeed').symm
    simp
  · obtain ⟨q₁, out₁, out₂, hfeed, hrest, rfl⟩ := run_cons_eq_ok hrun
    obtain ⟨rfl, rfl⟩ := Prod.mk.inj ((Except.ok.inj hfeed).symm.trans hyphen)
    obtain ⟨q₂, out₃, out₄, hfeed', hrest', rfl⟩ := run_cons_eq_ok hrest
    obtain ⟨-, rfl⟩ := Prod.mk.inj (Except.ok.inj hfeed').symm
    simp

-- A delimiter and what makes it the end of a part end the part, if nothing before
-- has.
theorem run_terminator (hcr : CR ∉ boundary) (hm : m.Within boundary) (ending : Bytes)
    (h : ending = [CR, LF] ∨ ending = [HYPHEN, HYPHEN])
    (hrun : run (feed boundary) (.partData m) (delimiter boundary ++ (ending ++ t)) =
      .ok (q, out)) :
    .partEnd ∈ out := by
  by_cases hfull : m = .upTo (delimiter boundary).length
  · have hcrlf : delimiter boundary ++ (ending ++ t) =
        [CR, LF] ++ ((delimiter boundary).drop 2 ++ (ending ++ t)) := rfl
    rw [hfull, hcrlf] at hrun
    exact run_ending _ (.inl rfl) hrun
  · obtain ⟨q₁, out₁, out₂, hfirst, hrest, rfl⟩ := run_append_eq_ok hrun
    rw [run_delimiter hcr hm hfull] at hfirst
    obtain ⟨rfl, -⟩ := Prod.mk.inj (Except.ok.inj hfirst)
    exact List.mem_append_right _ (run_ending ending h hrest)

theorem content_read (hcr : CR ∉ boundary) {content : Bytes} (h : Unbroken boundary content) :
    run (feed boundary) (.partData (.upTo 0)) (content ++ delimiter boundary) =
      .ok (.partData (.upTo (delimiter boundary).length), each .partData content) := by
  have hzero : (Held.upTo 0).text boundary = [] := rfl
  have hwithin : (Held.upTo 0).Within boundary := by
    rintro k ⟨⟩
    exact Nat.zero_le _
  have hnext : ¬ nextPart boundary <:+: (Held.upTo 0).text boundary ++ content := by
    intro hin
    exact h.1 (hin.trans (List.prefix_append content _).isInfix)
  obtain ⟨m, bytes, hrun, htext, hm⟩ := run_data hwithin hnext h.2
  rw [hzero, List.nil_append] at htext
  have hne : m ≠ .upTo (delimiter boundary).length := by
    rintro rfl
    apply h.1
    rw [Held.text, List.take_length] at htext
    refine ⟨bytes, [], ?_⟩
    rw [List.append_nil, ← htext, nextPart, List.append_assoc]
  rw [run_append_ok hrun, run_delimiter hcr hm hne]
  show Except.ok (_, each .partData bytes ++ each .partData (m.text boundary)) = _
  rw [← each_append, htext]

-- A content that has an end of the part is not read to its own end.
theorem broken_short (hcr : CR ∉ boundary) {content rest : Bytes} (h : ¬ Unbroken boundary content)
    (hrun : run (feed boundary) (.partData (.upTo 0)) (content ++ delimiter boundary ++ rest) =
      .ok (q, out)) :
    ∃ bytes later, out = each .partData bytes ++ .partEnd :: later ∧
      bytes.length < content.length := by
  have hfour : 4 ≤ (delimiter boundary).length := Nat.le_add_left 4 boundary.length
  -- The text up to the end of the part that comes too early.
  have hearly : ∃ before ending later, (ending = [CR, LF] ∨ ending = [HYPHEN, HYPHEN]) ∧
      content ++ delimiter boundary ++ rest =
        before ++ (delimiter boundary ++ ending) ++ later ∧
      before.length + (delimiter boundary).length ≤ content.length := by
    rcases not_and_or.mp h with hnext | hlast
    · obtain ⟨before, later, heq⟩ := not_not.mp hnext
      have hcrlf : delimiter boundary = [CR, LF] ++ (delimiter boundary).drop 2 := rfl
      refine ⟨before, [CR, LF], later ++ ((delimiter boundary).drop 2 ++ rest), .inl rfl, ?_, ?_⟩
      · calc content ++ delimiter boundary ++ rest
            = (content ++ [CR, LF]) ++ ((delimiter boundary).drop 2 ++ rest) := by
              conv_lhs => rw [hcrlf]
              simp only [List.append_assoc]
          _ = _ := by
              rw [← heq, nextPart]
              simp only [List.append_assoc]
      · have hlen := congrArg List.length heq
        simp only [nextPart, List.length_append, List.length_cons, List.length_nil] at hlen
        omega
    · obtain ⟨before, later, heq⟩ := not_not.mp hlast
      refine ⟨before, [HYPHEN, HYPHEN], later ++ (delimiter boundary ++ rest), .inr rfl, ?_, ?_⟩
      · rw [← heq, lastPart]
        simp only [List.append_assoc]
      · have hlen := congrArg List.length heq
        simp only [lastPart, List.length_append, List.length_cons, List.length_nil] at hlen
        omega
  obtain ⟨before, ending, later, hending, hsplit, hle⟩ := hearly
  have hwithin : (Held.upTo 0).Within boundary := by
    rintro k ⟨⟩
    exact Nat.zero_le _
  have htwo : ending.length = 2 := by rcases hending with rfl | rfl <;> rfl
  rw [hsplit] at hrun
  obtain ⟨q₁, out₁, out₂, hfirst, -, rfl⟩ := run_append_eq_ok hrun
  rcases run_ends hwithin hfirst with ⟨m', bytes, -, hout, -⟩ | ⟨bytes, later', rfl, hlen⟩
  · exfalso
    obtain ⟨q₂, out₃, out₄, hbefore, hrest, rfl⟩ := run_append_eq_ok hfirst
    have hend : Callback.partEnd ∈ out₃ ++ out₄ := by
      rcases run_ends hwithin hbefore with ⟨m₁, bytes₁, rfl, -, hm₁⟩ | ⟨bytes₁, later₁, rfl, -⟩
      · rw [← List.append_nil ending] at hrest
        exact List.mem_append_right _ (run_terminator hcr hm₁ ending hending hrest)
      · simp
    rw [hout] at hend
    simp [each] at hend
  · refine ⟨bytes, later' ++ out₂, by simp, ?_⟩
    simp only [Held.text, List.take_zero, List.nil_append, List.length_append, htwo] at hlen
    omega

end Content

end WageFix.Multipart
