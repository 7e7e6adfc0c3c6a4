import WageFix.Multipart.Content

-- Bodies as clients write them, and what is read of them.
namespace WageFix.Multipart

open Transducer (run run_cons_ok run_append_ok run_append_eq_ok)

variable {boundary : Bytes}

structure Header where
  name : Bytes
  value : Bytes
  name_ne_nil : name ≠ []
  name_token : ∀ c ∈ name, c ∈ tokenChars
  value_line : CR ∉ value
  value_begins : value.head? ≠ some SPACE

structure BodyPart where
  headers : List Header
  content : Bytes

def Header.line (h : Header) : Bytes := h.name ++ [COLON, SPACE] ++ h.value ++ [CR, LF]

-- A part from the line break after one delimiter to the next delimiter.
def BodyPart.text (boundary : Bytes) (p : BodyPart) : Bytes :=
  [CR, LF] ++ p.headers.flatMap Header.line ++ [CR, LF] ++ p.content ++ delimiter boundary

-- The first delimiter has no line break before it.
def encode (boundary : Bytes) (parts : List BodyPart) : Bytes :=
  (delimiter boundary).drop 2 ++ parts.flatMap (BodyPart.text boundary) ++ [HYPHEN, HYPHEN]

def Header.callbacks (h : Header) : List Callback :=
  .headerBegin :: each .headerField h.name ++ each .headerValue h.value ++ [.headerEnd]

def BodyPart.opened (p : BodyPart) : List Callback :=
  .partBegin :: p.headers.flatMap Header.callbacks ++ [.headersFinished]

def BodyPart.callbacks (p : BodyPart) : List Callback :=
  p.opened ++ each .partData p.content ++ [.partEnd]

def bodyCallbacks (parts : List BodyPart) : List Callback :=
  parts.flatMap BodyPart.callbacks ++ [.end_]

section Headers

theorem token_ne {c : UInt8} (hc : c ∈ tokenChars) : c ≠ CR ∧ c ≠ COLON := by
  have hcr : CR ∉ tokenChars := by decide +kernel
  have hcolon : COLON ∉ tokenChars := by decide +kernel
  exact ⟨fun h => hcr (h ▸ hc), fun h => hcolon (h ▸ hc)⟩

theorem readHeaderField_token {c : UInt8} (first : Bool) (hc : c ∈ tokenChars) :
    readHeaderField first c = .ok (.headerField false, each .headerField [c]) := by
  obtain ⟨hcr, hcolon⟩ := token_ne hc
  rw [readHeaderField, if_neg fun h => hcr h.1, if_neg hcolon, if_pos hc]

theorem run_headerField {s : Bytes} (hs : ∀ c ∈ s, c ∈ tokenChars) :
    run (feed boundary) (.headerField false) s = .ok (.headerField false, each .headerField s) := by
  induction s with
  | nil => rfl
  | cons c s ih =>
      have hfeed : feed boundary (.headerField false) c =
          .ok (.headerField false, each .headerField [c]) :=
        readHeaderField_token false (hs c List.mem_cons_self)
      rw [run_cons_ok hfeed, ih fun c' hc' => hs c' (List.mem_cons_of_mem c hc')]
      rfl

theorem run_headerName (h : Header) :
    run (feed boundary) .headerFieldStart h.name =
      .ok (.headerField false, .headerBegin :: each .headerField h.name) := by
  have htoken := h.name_token
  cases hname : h.name with
  | nil => exact absurd hname h.name_ne_nil
  | cons c s =>
      rw [hname] at htoken
      have hc := htoken c List.mem_cons_self
      have hfeed : feed boundary .headerFieldStart c =
          .ok (.headerField false, .headerBegin :: each .headerField [c]) := by
        rw [feed, if_neg (token_ne hc).1, readHeaderField_token true hc]
        rfl
      rw [run_cons_ok hfeed, run_headerField fun c' hc' => htoken c' (List.mem_cons_of_mem c hc')]
      rfl

theorem run_headerValue {s : Bytes} (hs : CR ∉ s) :
    run (feed boundary) .headerValue (s ++ [CR]) =
      .ok (.headerValueAlmostDone, each .headerValue s ++ [.headerEnd]) := by
  induction s with
  | nil => rfl
  | cons c s ih =>
      have hc : c ≠ CR := fun h => hs (h ▸ List.mem_cons_self)
      have hfeed : feed boundary .headerValue c = .ok (.headerValue, each .headerValue [c]) := by
        rw [feed, readHeaderValue, if_neg hc]
      rw [List.cons_append, run_cons_ok hfeed, ih fun h => hs (List.mem_cons_of_mem c h)]
      rfl

theorem run_headerValueStart (h : Header) :
    run (feed boundary) .headerValueStart (h.value ++ [CR]) =
      .ok (.headerValueAlmostDone, each .headerValue h.value ++ [.headerEnd]) := by
  have hline := h.value_line
  have hbegins := h.value_begins
  cases hvalue : h.value with
  | nil => rfl
  | cons c s =>
      rw [hvalue] at hline hbegins
      have hspace : c ≠ SPACE := fun h => hbegins (by rw [h, List.head?_cons])
      have hsame : feed boundary .headerValueStart c = feed boundary .headerValue c :=
        if_neg hspace
      rw [← run_headerValue hline, List.cons_append]
      unfold run
      rw [hsame]

theorem run_line (h : Header) :
    run (feed boundary) .headerFieldStart h.line = .ok (.headerFieldStart, h.callbacks) := by
  have hcolon : run (feed boundary) (.headerField false) [COLON, SPACE] =
      .ok (.headerValueStart, []) := rfl
  have hlf : run (feed boundary) .headerValueAlmostDone [LF] = .ok (.headerFieldStart, []) := rfl
  have hsplit : h.line = h.name ++ ([COLON, SPACE] ++ (h.value ++ [CR] ++ [LF])) := by
    simp [Header.line]
  rw [hsplit, run_append_ok (run_headerName h), run_append_ok hcolon,
    run_append_ok (run_headerValueStart h), hlf]
  simp [Transducer.Result.after, Header.callbacks]

theorem run_lines (headers : List Header) :
    run (feed boundary) .headerFieldStart (headers.flatMap Header.line) =
      .ok (.headerFieldStart, headers.flatMap Header.callbacks) := by
  induction headers with
  | nil => rfl
  | cons h headers ih =>
      rw [List.flatMap_cons, run_append_ok (run_line h), ih]
      rfl

end Headers

-- Between a delimiter and what tells whether another part follows.
inductive Junction (boundary : Bytes) : Phase → List Callback → Prop
  | opening : Junction boundary (.startBoundary ((delimiter boundary).length - 2)) []
  | part : Junction boundary (.partData (.upTo (delimiter boundary).length)) [.partEnd]

section Body

variable {q : Phase} {ended : List Callback}

theorem Junction.next (h : Junction boundary q ended) :
    run (feed boundary) q [CR, LF] = .ok (.headerFieldStart, ended ++ [.partBegin]) := by
  cases h with
  | opening =>
      have hcr : feed boundary (.startBoundary ((delimiter boundary).length - 2)) CR =
          .ok (.startBoundary ((delimiter boundary).length - 2 + 1), []) :=
        (if_pos rfl).trans ((if_neg (by decide)).trans (if_pos rfl))
      have hlf : feed boundary (.startBoundary ((delimiter boundary).length - 2 + 1)) LF =
          .ok (.headerFieldStart, [.partBegin]) :=
        (if_neg (Nat.succ_ne_self _)).trans ((if_pos rfl).trans (if_pos rfl))
      rw [run_cons_ok hcr, run_cons_ok hlf]
      rfl
  | part =>
      have hcr : feed boundary (.partData (.upTo (delimiter boundary).length)) CR =
          .ok (.partData .cr, []) :=
        congrArg Except.ok ((if_pos rfl).trans (if_pos rfl))
      rw [run_cons_ok hcr]
      rfl

theorem Junction.last (h : Junction boundary q ended) :
    run (feed boundary) q [HYPHEN, HYPHEN] = .ok (.end_, ended ++ [.end_]) := by
  cases h with
  | opening =>
      have hyphen : feed boundary (.startBoundary ((delimiter boundary).length - 2)) HYPHEN =
          .ok (.endBoundary, []) :=
        (if_pos rfl).trans (if_pos rfl)
      rw [run_cons_ok hyphen]
      rfl
  | part =>
      have hyphen : feed boundary (.partData (.upTo (delimiter boundary).length)) HYPHEN =
          .ok (.partData .hyphen, []) :=
        congrArg Except.ok ((if_pos rfl).trans ((if_neg (by decide)).trans (if_pos rfl)))
      rw [run_cons_ok hyphen]
      rfl

theorem run_startBoundary {k : ℕ} (hk : k + 2 ≤ (delimiter boundary).length) :
    run (feed boundary) (.startBoundary k) ((delimiter boundary).drop (k + 2)) =
      .ok (.startBoundary ((delimiter boundary).length - 2), []) := by
  generalize hs : (delimiter boundary).drop (k + 2) = s
  induction s generalizing k with
  | nil =>
      have hle := List.drop_eq_nil_iff.mp hs
      have heq : k = (delimiter boundary).length - 2 := by omega
      rw [heq]
      rfl
  | cons c s ih =>
      have hc : (delimiter boundary)[k + 2]? = some c := by
        rw [← List.head?_drop, hs, List.head?_cons]
      have hlt : k + 2 < (delimiter boundary).length := (List.getElem?_eq_some_iff.mp hc).1
      have htail : (delimiter boundary).drop (k + 1 + 2) = s := by
        have htail := congrArg List.tail hs
        rwa [List.tail_drop] at htail
      have hfeed : feed boundary (.startBoundary k) c = .ok (.startBoundary (k + 1), []) :=
        (if_neg (by omega)).trans ((if_neg (by omega)).trans (if_pos hc))
      rw [run_cons_ok hfeed, ih hlt htail]
      rfl

theorem run_opening (boundary : Bytes) : run (feed boundary) .start ((delimiter boundary).drop 2) =
    .ok (.startBoundary ((delimiter boundary).length - 2), []) := by
  have hstart : feed boundary .start HYPHEN = feed boundary (.startBoundary 0) HYPHEN := by
    rw [feed, if_neg (by decide), feed]
  have hrun : run (feed boundary) (.startBoundary 0) ((delimiter boundary).drop (0 + 2)) = _ :=
    run_startBoundary (Nat.le_add_left 2 _)
  rw [← hrun]
  show run _ _ (HYPHEN :: HYPHEN :: boundary) = run _ _ (HYPHEN :: HYPHEN :: boundary)
  unfold run
  rw [hstart]

theorem run_partDataStart {s : Bytes} (hs : s ≠ []) :
    run (feed boundary) .partDataStart s = run (feed boundary) (.partData (.upTo 0)) s := by
  cases s with
  | nil => exact absurd rfl hs
  | cons c s => rfl

theorem run_opened (h : Junction boundary q ended) (p : BodyPart) :
    run (feed boundary) q ([CR, LF] ++ p.headers.flatMap Header.line ++ [CR, LF]) =
      .ok (.partDataStart, ended ++ p.opened) := by
  have hblank : run (feed boundary) .headerFieldStart [CR, LF] =
      .ok (.partDataStart, [.headersFinished]) := rfl
  rw [List.append_assoc, run_append_ok h.next, run_append_ok (run_lines p.headers), hblank]
  simp [Transducer.Result.after, BodyPart.opened]

-- What is left of a body after the first parts.
def remaining (boundary : Bytes) (parts : List BodyPart) (epilogue : Bytes) : Bytes :=
  parts.flatMap (BodyPart.text boundary) ++ ([HYPHEN, HYPHEN] ++ epilogue)

theorem remaining_cons (p : BodyPart) (parts : List BodyPart) (epilogue : Bytes) :
    remaining boundary (p :: parts) epilogue =
      ([CR, LF] ++ p.headers.flatMap Header.line ++ [CR, LF]) ++
        (p.content ++ delimiter boundary ++ remaining boundary parts epilogue) := by
  simp [remaining, BodyPart.text]

theorem content_ne_nil (content rest : Bytes) : content ++ delimiter boundary ++ rest ≠ [] := by
  intro hnil
  have hlen := congrArg List.length hnil
  simp [delimiter] at hlen

theorem run_remaining (hcr : CR ∉ boundary) (h : Junction boundary q ended)
    {parts : List BodyPart} (hparts : ∀ p ∈ parts, Unbroken boundary p.content) (epilogue : Bytes) :
    run (feed boundary) q (remaining boundary parts epilogue) =
      .ok (.end_, ended ++ bodyCallbacks parts) := by
  induction parts generalizing q ended with
  | nil =>
      show run _ _ ([HYPHEN, HYPHEN] ++ epilogue) = _
      rw [run_append_ok h.last, run_end]
      simp [Transducer.Result.after, bodyCallbacks]
  | cons p parts ih =>
      rw [remaining_cons, run_append_ok (run_opened h p), run_partDataStart (content_ne_nil _ _),
        run_append_ok (content_read hcr (hparts p List.mem_cons_self)),
        ih .part fun p' hp' => hparts p' (List.mem_cons_of_mem p hp')]
      simp [Transducer.Result.after, bodyCallbacks, BodyPart.callbacks]

theorem each_partEnd_inj {a b : Bytes} {x y : List Callback}
    (h : each .partData a ++ .partEnd :: x = each .partData b ++ .partEnd :: y) : a = b := by
  induction a generalizing b with
  | nil =>
      cases b with
      | nil => rfl
      | cons c b => simp [each] at h
  | cons c a ih =>
      cases b with
      | nil => simp [each] at h
      | cons c' b =>
          obtain ⟨hhead, htail⟩ := List.cons.inj h
          obtain ⟨rfl⟩ : c = c' := by simpa using hhead
          rw [ih htail]

-- Where the parts are read as they were written, no content had an end of a part.
theorem unbroken_of_run (hcr : CR ∉ boundary) (h : Junction boundary q ended)
    {parts : List BodyPart} {epilogue : Bytes} {q' : Phase}
    (hrun : run (feed boundary) q (remaining boundary parts epilogue) =
      .ok (q', ended ++ bodyCallbacks parts)) : ∀ p ∈ parts, Unbroken boundary p.content := by
  induction parts generalizing q ended with
  | nil => simp
  | cons p parts ih =>
      have hcallbacks : ended ++ bodyCallbacks (p :: parts) =
          (ended ++ p.opened) ++ (each .partData p.content ++ .partEnd :: bodyCallbacks parts) := by
        simp [bodyCallbacks, BodyPart.callbacks]
      rw [remaining_cons, hcallbacks] at hrun
      obtain ⟨q₁, out₁, out₂, hopened, hrest, hout⟩ := run_append_eq_ok hrun
      rw [run_opened h p] at hopened
      obtain ⟨rfl, rfl⟩ := Prod.mk.inj (Except.ok.inj hopened)
      obtain rfl := List.append_cancel_left hout
      rw [run_partDataStart (content_ne_nil _ _)] at hrest
      have hp : Unbroken boundary p.content := by
        by_contra hbroken
        obtain ⟨bytes, later, hshort, hlt⟩ := broken_short hcr hbroken hrest
        have heq := each_partEnd_inj hshort
        rw [heq] at hlt
        exact Nat.lt_irrefl _ hlt
      rw [run_append_ok (content_read hcr hp)] at hrest
      intro p' hp'
      rcases List.mem_cons.mp hp' with rfl | hp'
      · exact hp
      · cases hnext : run (feed boundary) (.partData (.upTo (delimiter boundary).length))
            (remaining boundary parts epilogue) with
        | error e =>
            rw [hnext] at hrest
            cases hrest
        | ok r =>
            rw [hnext] at hrest
            obtain ⟨rfl, hlast⟩ := Prod.mk.inj (Except.ok.inj hrest)
            have hnext' : run (feed boundary) (.partData (.upTo (delimiter boundary).length))
                (remaining boundary parts epilogue) =
                  .ok (r.1, [.partEnd] ++ bodyCallbacks parts) := by
              have hr : r.2 = .partEnd :: bodyCallbacks parts := List.append_cancel_left hlast
              rw [hnext]
              exact congrArg (fun out => Except.ok (r.1, out)) hr
            exact ih .part hnext' p' hp'

end Body

-- However the body of a request is cut, its parts are read as they were written
-- exactly where no content has an end of a part in it.
theorem body_read_iff (boundary : Bytes) (hcr : CR ∉ boundary) (parts : List BodyPart)
    (epilogue : Bytes) (chunks : List Bytes)
    (hcut : chunks.flatten = encode boundary parts ++ epilogue) :
    (writeAll boundary chunks).map (fun r => r.2.flatMap Callback.bytewise) =
        .ok (bodyCallbacks parts) ↔
      ∀ p ∈ parts, Unbroken boundary p.content := by
  have hagrees := writeAll_agrees hcr chunks
  have hbody : encode boundary parts ++ epilogue =
      (delimiter boundary).drop 2 ++ remaining boundary parts epilogue := by
    simp [encode, remaining]
  rw [hagrees.map_eq, hcut, hbody, run_append_ok (run_opening boundary)]
  constructor
  · intro heq
    cases hrun : run (feed boundary) (.startBoundary ((delimiter boundary).length - 2))
        (remaining boundary parts epilogue) with
    | error e =>
        rw [hrun] at heq
        cases heq
    | ok r =>
        rw [hrun] at heq
        have hout : r.2 = bodyCallbacks parts := Except.ok.inj heq
        have hrun' : run (feed boundary) (.startBoundary ((delimiter boundary).length - 2))
            (remaining boundary parts epilogue) = .ok (r.1, [] ++ bodyCallbacks parts) := by
          rw [hrun, ← hout]
          rfl
        exact unbroken_of_run hcr .opening hrun'
  · intro hparts
    rw [run_remaining hcr .opening hparts]
    rfl

def dispositionHeader : Header where
  name := ascii "Content-Disposition"
  value := ascii "form-data; name=\"passport\"; filename=\"passport.jpg\""
  name_ne_nil := by decide +kernel
  name_token := by decide +kernel
  value_line := by decide +kernel
  value_begins := by decide +kernel

-- The content ends with the delimiter, which with the line break of the next one
-- ends the part before its end.
def brokenPart : BodyPart := ⟨[dispositionHeader], ascii "x\r\n--b"⟩

theorem body_read_iff_broken :
    (writeAll (ascii "b") [encode (ascii "b") [brokenPart]]).map
        (fun r => r.2.flatMap Callback.bytewise) ≠ .ok (bodyCallbacks [brokenPart]) := by
  have hcut :
      [encode (ascii "b") [brokenPart]].flatten = encode (ascii "b") [brokenPart] ++ [] := by
    simp
  intro heq
  have hunbroken := (body_read_iff (ascii "b") (by decide +kernel) [brokenPart] []
    [encode (ascii "b") [brokenPart]] hcut).mp heq brokenPart List.mem_cons_self
  exact absurd hunbroken (by decide +kernel)

end WageFix.Multipart
