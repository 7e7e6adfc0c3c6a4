import WageFix.Multipart.Immediate

-- What becomes of a form that is sent as parts.
namespace WageFix.Multipart

open Transition (runAll runAll_cons runAll_append runAll_invariant_of_mem)

def BodyPart.fields (p : BodyPart) : List (Bytes × Bytes) :=
  p.headers.map fun h => (lower h.name, h.value)

-- Of the Content-Disposition headers of a part the last one counts.
def BodyPart.contentDisposition (p : BodyPart) : Option Bytes :=
  Store.lastAt (ascii "content-disposition") p.fields

def BodyPart.name (lib : Library) (p : BodyPart) : Option Text :=
  nameOption lib p.contentDisposition

def BodyPart.rawFilename (lib : Library) (p : BodyPart) : Option Bytes :=
  Multipart.rawFilename lib p.contentDisposition

-- What a part is meant to put in the form. None where Python raises on it.
def BodyPart.value (lib : Library) (p : BodyPart) : Option Entry :=
  match p.rawFilename lib with
  | some rawName => do
      let filename ← userSafeDecode lib rawName
      return .upload ⟨filename, p.content.length, p.fields, p.content⟩
  | none => do
      let value ← userSafeDecode lib p.content
      return .text value

def BodyPart.entry (lib : Library) (p : BodyPart) : Option (Text × Entry) := do
  let name ← p.name lib
  let value ← p.value lib
  return (name, value)

-- Parts that a form takes which has taken some files and fields.
structure Fits (lib : Library) (limits : Limits) (files fields : ℕ) (parts : List BodyPart) :
    Prop where
  files : files + parts.countP (fun p => (p.rawFilename lib).isSome) ≤ limits.maxFiles
  fields : fields + parts.countP (fun p => (p.rawFilename lib).isNone) ≤ limits.maxFields
  size : ∀ p ∈ parts, p.rawFilename lib = none → p.content.length ≤ limits.maxPartSize

instance (lib : Library) (limits : Limits) (files fields : ℕ) (parts : List BodyPart) :
    Decidable (Fits lib limits files fields parts) :=
  decidable_of_iff (_ ∧ _ ∧ _) ⟨fun h => ⟨h.1, h.2.1, h.2.2⟩, fun h => ⟨h.1, h.2, h.3⟩⟩

-- A form between two parts.
structure Idle (limits : Limits) (f : Form) : Prop where
  sound : Sound limits f
  settled : f.filePartsToWrite = []
  name : f.partialHeaderName = []
  value : f.partialHeaderValue = []
  items : ∀ item ∈ f.items, ∀ file, item.2 = .upload file → file < f.files.length
  files : f.currentFiles ≤ limits.maxFiles
  fields : f.currentFields ≤ limits.maxFields

def Header.calls (h : Header) : List Callback :=
  [.headerBegin, .data .headerField h.name, .data .headerValue h.value, .headerEnd]

def BodyPart.calls (p : BodyPart) : List Callback :=
  .partBegin :: p.headers.flatMap Header.calls ++
    [.headersFinished, .data .partData p.content, .partEnd]

section Part

variable {lib : Library} {limits : Limits} {f g : Form} {p : BodyPart}

theorem Header.flatMap_calls (h : Header) : h.calls.flatMap Callback.bytewise = h.callbacks := by
  simp [Header.calls, Header.callbacks, Callback.bytewise]

theorem BodyPart.flatMap_calls (p : BodyPart) :
    p.calls.flatMap Callback.bytewise = p.callbacks := by
  have hheaders : (p.headers.flatMap Header.calls).flatMap Callback.bytewise =
      p.headers.flatMap Header.callbacks := by
    rw [List.flatMap_assoc]
    simp only [Header.flatMap_calls]
  simp [BodyPart.calls, BodyPart.callbacks, BodyPart.opened, Callback.bytewise, hheaders]

theorem Idle.init (limits : Limits) : Idle limits {} :=
  ⟨Sound.init limits, rfl, rfl, rfl, by simp, Nat.zero_le _, Nat.zero_le _⟩

-- The form with some headers of a part read.
def Form.headed (f : Form) (fields : List (Bytes × Bytes)) : Form :=
  { f with part := {
    contentDisposition := Store.lastAt (ascii "content-disposition") fields
    itemHeaders := fields } }

-- The form that has taken a part as a file, and as a field.
def Form.uploaded (f : Form) (p : BodyPart) (name filename : Text) : Form :=
  { f with
    items := f.items ++ [(name, .upload f.files.length)]
    currentFiles := f.currentFiles + 1
    part := { (f.headed p.fields).part with fieldName := name, file := some f.files.length }
    files := f.files ++ [⟨filename, p.content.length, p.fields, p.content⟩] }

def Form.filled (f : Form) (p : BodyPart) (name value : Text) : Form :=
  { f with
    items := f.items ++ [(name, .text value)]
    currentFields := f.currentFields + 1
    part := { (f.headed p.fields).part with fieldName := name, data := p.content } }

theorem runAll_headers (hname : f.partialHeaderName = []) (hvalue : f.partialHeaderValue = [])
    (headers : List Header) (fields : List (Bytes × Bytes)) :
    runAll (handled lib limits) (f.headed fields) (headers.flatMap Header.calls) =
      some (f.headed (fields ++ headers.map fun h => (lower h.name, h.value))) := by
  induction headers generalizing fields with
  | nil => simp
  | cons h headers ih =>
      have hheader : runAll (handled lib limits) (f.headed fields) h.calls =
          some (f.headed (fields ++ [(lower h.name, h.value)])) := by
        simp [Header.calls, runAll, handled, Form.handle, Form.onHeaderField, Form.onHeaderValue,
          Form.onHeaderEnd, Form.headed, Except.toOption, hname, hvalue,
          Store.lastAt_append_singleton]
      rw [List.flatMap_cons, runAll_append, hheader, Option.bind_some, ih, List.append_assoc]
      rfl

theorem runAll_calls (hf : Idle limits f) (p : BodyPart) :
    runAll (handled lib limits) f p.calls = runAll (handled lib limits) (f.headed p.fields)
      [.headersFinished, .data .partData p.content, .partEnd] := by
  have hheaders : runAll (handled lib limits) (f.headed []) (p.headers.flatMap Header.calls) =
      some (f.headed p.fields) :=
    runAll_headers hf.name hf.value p.headers []
  have hbegin : handled lib limits f .partBegin = some (f.headed []) := rfl
  rw [BodyPart.calls, List.cons_append, runAll_cons, hbegin, Option.bind_some, runAll_append,
    hheaders]
  rfl

theorem writeFile_last (files : List UploadFile) (u : UploadFile) (bytes : Bytes) :
    writeFile (files ++ [u]) (files.length, bytes) = files ++ [u.write bytes] := by
  induction files with
  | nil => rfl
  | cons first files ih => exact congrArg (first :: ·) ih

theorem runAll_noName (hf : Idle limits f) (hname : p.name lib = none) :
    runAll (handled lib limits) f p.calls = none := by
  have hrefused : handled lib limits (f.headed p.fields) .headersFinished = none :=
    handled_noName hname
  rw [runAll_calls hf, runAll_cons, hrefused]
  rfl

theorem runAll_file (hf : Idle limits f) {name : Text} {rawName : Bytes}
    (hname : p.name lib = some name) (hfilename : p.rawFilename lib = some rawName) :
    (runAll (handled lib limits) f p.calls).map Form.written =
      if limits.maxFiles < f.currentFiles + 1 then none
      else (userSafeDecode lib rawName).map (f.uploaded p name) := by
  have hfinished : handled lib limits (f.headed p.fields) .headersFinished =
      if limits.maxFiles < f.currentFiles + 1 then none
      else (userSafeDecode lib rawName).map ((f.headed p.fields).withFile name) :=
    handled_file hname hfilename
  rw [runAll_calls hf, runAll_cons, hfinished]
  split_ifs
  · rfl
  · cases userSafeDecode lib rawName with
    | none => rfl
    | some filename =>
        simp [runAll, handled, Form.handle, Form.onPartData, Form.onPartEnd, Form.withFile,
          Form.withItem, Form.headed, Form.uploaded, Form.written, Except.toOption, hf.settled,
          writeFile_last, UploadFile.write]

theorem runAll_field (hf : Idle limits f) {name : Text} (hname : p.name lib = some name)
    (hfilename : p.rawFilename lib = none) :
    (runAll (handled lib limits) f p.calls).map Form.written =
      if limits.maxFields < f.currentFields + 1 ∨ limits.maxPartSize < p.content.length then none
      else (userSafeDecode lib p.content).map (f.filled p name) := by
  have hfinished : handled lib limits (f.headed p.fields) .headersFinished =
      if limits.maxFields < f.currentFields + 1 then none
      else some ((f.headed p.fields).withField name) :=
    handled_field hname hfilename
  rw [runAll_calls hf, runAll_cons, hfinished]
  by_cases hmax : limits.maxFields < f.currentFields + 1
  · rw [if_pos hmax, if_pos (.inl hmax)]
    rfl
  · by_cases hsize : limits.maxPartSize < p.content.length
    · rw [if_neg hmax, if_pos (.inr hsize)]
      simp [runAll, handled, Form.handle, Form.onPartData, Form.withField, Form.headed,
        Except.toOption, hsize]
    · have hdata : handled lib limits ((f.headed p.fields).withField name)
          (.data .partData p.content) =
            some (((f.headed p.fields).withField name).withData p.content) := by
        simp [handled, Form.handle, Form.onPartData, Form.withField, Form.headed, Form.withData,
          Except.toOption, hsize]
      rw [if_neg hmax, if_neg (not_or.mpr ⟨hmax, hsize⟩), Option.bind_some, runAll_cons, hdata,
        Option.bind_some, runAll_cons, handled_partEnd]
      simp only [Form.withField, Form.withData, Form.headed, Option.elim_none, List.nil_append]
      cases userSafeDecode lib p.content with
      | none => rfl
      | some value =>
          simp [runAll, Form.withItem, Form.filled, Form.headed, Form.written, hf.settled]

theorem Idle.uploaded (hf : Idle limits f) (hmax : f.currentFiles + 1 ≤ limits.maxFiles)
    (p : BodyPart) (name filename : Text) : Idle limits (f.uploaded p name filename) := by
  refine ⟨⟨by simp [Form.uploaded], ?_, Nat.zero_le _⟩, hf.settled, hf.name, hf.value, ?_, hmax,
    hf.fields⟩
  · simp [Form.uploaded, hf.settled]
  · refine List.forall_mem_append.mpr ⟨?_, by simp [Form.uploaded]⟩
    intro item hitem file hfile
    have hlt : file < f.files.length := hf.items item hitem file hfile
    simp only [Form.uploaded, List.length_append, List.length_singleton]
    omega

theorem Idle.filled (hf : Idle limits f) (hmax : f.currentFields + 1 ≤ limits.maxFields)
    (hsize : p.content.length ≤ limits.maxPartSize) (name value : Text) :
    Idle limits (f.filled p name value) := by
  refine ⟨⟨by simp [Form.filled, Form.headed], ?_, hsize⟩, hf.settled, hf.name, hf.value, ?_,
    hf.files, hmax⟩
  · simp [Form.filled, hf.settled]
  · exact List.forall_mem_append.mpr ⟨hf.items, by simp⟩

theorem entries_uploaded (hf : Idle limits f) (p : BodyPart) (name filename : Text) :
    (f.uploaded p name filename).entries =
      f.entries ++ [(name, .upload ⟨filename, p.content.length, p.fields, p.content⟩)] := by
  have hkept : f.items.filterMap (fun item =>
      ((f.uploaded p name filename).resolve item.2).map fun entry => (item.1, entry)) =
        f.entries := by
    apply List.filterMap_congr
    intro item hitem
    cases hvalue : item.2 with
    | text value => rfl
    | upload file =>
        have hlt : file < f.files.length := hf.items item hitem file hvalue
        simp only [Form.resolve, Form.uploaded, List.getElem?_append_left hlt]
  rw [Form.entries, Form.uploaded, List.filterMap_append, ← Form.uploaded, hkept]
  simp [Form.resolve, Form.uploaded]

theorem entries_filled (f : Form) (p : BodyPart) (name value : Text) :
    (f.filled p name value).entries = f.entries ++ [(name, .text value)] := by
  rw [Form.entries, Form.filled, List.filterMap_append]
  rfl

theorem runAll_callbacks (hf : Idle limits f) (p : BodyPart) :
    runAll (handledNow lib limits) f p.callbacks =
      (runAll (handled lib limits) f p.calls).map Form.written := by
  rw [runAll_called hf.sound, p.flatMap_calls, Form.written_of_settled hf.settled]

theorem fits_cons_file {files fields : ℕ} {rawName : Bytes}
    (h : p.rawFilename lib = some rawName) (parts : List BodyPart) :
    Fits lib limits files fields (p :: parts) ↔ Fits lib limits (files + 1) fields parts := by
  have hfiles : (p :: parts).countP (fun p => (p.rawFilename lib).isSome) =
      parts.countP (fun p => (p.rawFilename lib).isSome) + 1 :=
    List.countP_cons_of_pos (by simp [h])
  have hfields : (p :: parts).countP (fun p => (p.rawFilename lib).isNone) =
      parts.countP (fun p => (p.rawFilename lib).isNone) :=
    List.countP_cons_of_neg (by simp [h])
  constructor
  · intro hfits
    refine ⟨?_, ?_, fun p' hp' => hfits.size p' (List.mem_cons_of_mem p hp')⟩
    · have hle := hfits.files
      omega
    · have hle := hfits.fields
      omega
  · intro hfits
    refine ⟨?_, ?_, List.forall_mem_cons.mpr ⟨by simp [h], hfits.size⟩⟩
    · have hle := hfits.files
      omega
    · have hle := hfits.fields
      omega

theorem fits_cons_field {files fields : ℕ} (h : p.rawFilename lib = none) (parts : List BodyPart) :
    Fits lib limits files fields (p :: parts) ↔
      p.content.length ≤ limits.maxPartSize ∧ Fits lib limits files (fields + 1) parts := by
  have hfiles : (p :: parts).countP (fun p => (p.rawFilename lib).isSome) =
      parts.countP (fun p => (p.rawFilename lib).isSome) :=
    List.countP_cons_of_neg (by simp [h])
  have hfields : (p :: parts).countP (fun p => (p.rawFilename lib).isNone) =
      parts.countP (fun p => (p.rawFilename lib).isNone) + 1 :=
    List.countP_cons_of_pos (by simp [h])
  constructor
  · intro hfits
    refine ⟨hfits.size p List.mem_cons_self h, ?_, ?_,
      fun p' hp' => hfits.size p' (List.mem_cons_of_mem p hp')⟩
    · have hle := hfits.files
      omega
    · have hle := hfits.fields
      omega
  · rintro ⟨hsize, hfits⟩
    refine ⟨?_, ?_, List.forall_mem_cons.mpr ⟨fun _ => hsize, hfits.size⟩⟩
    · have hle := hfits.files
      omega
    · have hle := hfits.fields
      omega

-- A part is refused, and then all the parts are, or it is the next entry.
theorem part_cases (hf : Idle limits f) (p : BodyPart) :
    (runAll (handledNow lib limits) f p.callbacks = none ∧ (p.entry lib = none ∨
      ∀ parts, ¬ Fits lib limits f.currentFiles f.currentFields (p :: parts))) ∨
    ∃ g e, runAll (handledNow lib limits) f p.callbacks = some g ∧ Idle limits g ∧
      p.entry lib = some e ∧ g.entries = f.entries ++ [e] ∧
        ∀ parts, Fits lib limits f.currentFiles f.currentFields (p :: parts) ↔
          Fits lib limits g.currentFiles g.currentFields parts := by
  rw [runAll_callbacks hf]
  cases hname : p.name lib with
  | none =>
      left
      rw [runAll_noName hf hname]
      exact ⟨rfl, .inl (by simp [BodyPart.entry, hname])⟩
  | some name =>
      cases hfilename : p.rawFilename lib with
      | some rawName =>
          rw [runAll_file hf hname hfilename]
          by_cases hmax : limits.maxFiles < f.currentFiles + 1
          · refine .inl ⟨if_pos hmax, .inr fun parts hfits => ?_⟩
            have hle := ((fits_cons_file hfilename parts).mp hfits).files
            omega
          rw [if_neg hmax]
          cases hdecode : userSafeDecode lib rawName with
          | none =>
              exact .inl ⟨rfl, .inl (by simp [BodyPart.entry, BodyPart.value, hname, hfilename,
                hdecode])⟩
          | some filename =>
              have hentry : p.entry lib = some (name, .upload
                  ⟨filename, p.content.length, p.fields, p.content⟩) := by
                simp [BodyPart.entry, BodyPart.value, hname, hfilename, hdecode]
              exact .inr ⟨_, _, rfl, hf.uploaded (Nat.not_lt.mp hmax) p name filename, hentry,
                entries_uploaded hf p name filename, fits_cons_file hfilename⟩
      | none =>
          rw [runAll_field hf hname hfilename]
          by_cases hmax : limits.maxFields < f.currentFields + 1 ∨
              limits.maxPartSize < p.content.length
          · refine .inl ⟨if_pos hmax, .inr fun parts hfits => ?_⟩
            obtain ⟨hsize, hrest⟩ := (fits_cons_field hfilename parts).mp hfits
            have hle := hrest.fields
            omega
          rw [if_neg hmax]
          obtain ⟨hroom, hsize⟩ := not_or.mp hmax
          rw [Nat.not_lt] at hroom hsize
          cases hdecode : userSafeDecode lib p.content with
          | none =>
              exact .inl ⟨rfl, .inl (by simp [BodyPart.entry, BodyPart.value, hname, hfilename,
                hdecode])⟩
          | some value =>
              have hentry : p.entry lib = some (name, .text value) := by
                simp [BodyPart.entry, BodyPart.value, hname, hfilename, hdecode]
              refine .inr ⟨_, _, rfl, hf.filled hroom hsize name value, hentry,
                entries_filled f p name value, fun parts => ?_⟩
              rw [fits_cons_field hfilename, and_iff_right hsize]
              rfl

theorem entries_of_parts (hf : Idle limits f) (parts : List BodyPart) :
    (runAll (handledNow lib limits) f (parts.flatMap BodyPart.callbacks)).map Form.entries =
      if Fits lib limits f.currentFiles f.currentFields parts then
        (parts.mapM (BodyPart.entry lib)).map (f.entries ++ ·)
      else none := by
  induction parts generalizing f with
  | nil =>
      have hfits : Fits lib limits f.currentFiles f.currentFields [] :=
        ⟨hf.files, hf.fields, by simp⟩
      rw [if_pos hfits]
      simp
  | cons p parts ih =>
      rw [List.flatMap_cons, runAll_append, List.mapM_cons]
      rcases part_cases hf p with ⟨hrun, hrefused⟩ | ⟨g, e, hrun, hg, hentry, hentries, hfits⟩
      · rw [hrun]
        rcases hrefused with hentry | hfits
        · rw [hentry]
          split_ifs <;> rfl
        · rw [if_neg (hfits parts)]
          rfl
      · rw [hrun, Option.bind_some, ih hg, hentry, if_congr (hfits parts) rfl rfl, hentries]
        split_ifs
        · cases parts.mapM (BodyPart.entry lib) with
          | none => rfl
          | some entries => simp
        · rfl

theorem run_encode {boundary : Bytes} (hcr : CR ∉ boundary) {parts : List BodyPart}
    (hparts : ∀ p ∈ parts, Unbroken boundary p.content) (epilogue : Bytes) :
    Transducer.run (feed boundary) .start (encode boundary parts ++ epilogue) =
      .ok (.end_, bodyCallbacks parts) := by
  have hbody : encode boundary parts ++ epilogue =
      (delimiter boundary).drop 2 ++ remaining boundary parts epilogue := by
    simp [encode, remaining]
  rw [hbody, Transducer.run_append_ok (run_opening boundary), run_remaining hcr .opening hparts]
  rfl

theorem written_of_runAll (hf : f.written = f) {called : List Callback}
    (h : runAll (handledNow lib limits) f called = some g) : g.written = g := by
  apply runAll_invariant_of_mem (I := fun f => f.written = f) (P := fun _ => True) ?_ hf
    (fun _ _ => trivial) h
  intro s c t _ _ hstep
  obtain ⟨u, -, rfl⟩ := Option.map_eq_some_iff.mp hstep
  rfl

theorem formOf_bodyCallbacks (parts : List BodyPart) :
    formOf lib limits (bodyCallbacks parts) =
      runAll (handledNow lib limits) {} (parts.flatMap BodyPart.callbacks) := by
  rw [formOf, bodyCallbacks, runAll_append]
  cases hrun : runAll (handledNow lib limits) {} (parts.flatMap BodyPart.callbacks) with
  | none => rfl
  | some f => exact congrArg some (written_of_runAll rfl hrun)

theorem entries_formOf (parts : List BodyPart) :
    (formOf lib limits (bodyCallbacks parts)).map Form.entries =
      if Fits lib limits 0 0 parts then parts.mapM (BodyPart.entry lib) else none := by
  have hid : (([] : List (Text × Entry)) ++ ·) = id := rfl
  rw [formOf_bodyCallbacks, entries_of_parts (Idle.init limits)]
  show (if Fits lib limits 0 0 parts then (parts.mapM (BodyPart.entry lib)).map ([] ++ ·)
    else none) = _
  rw [hid, Option.map_id]
  rfl

end Part

-- A body of parts that have no end of a part in them comes out as the form that
-- was sent, with every file as it was, unless it is beyond the limits, or a part
-- is without a name or makes Python raise.
theorem form_as_sent (lib : Library) (limits : Limits) (boundary : Bytes) (hcr : CR ∉ boundary)
    (parts : List BodyPart) (hparts : ∀ p ∈ parts, Unbroken boundary p.content)
    (epilogue : Bytes) (chunks : List Bytes)
    (hcut : chunks.flatten = encode boundary parts ++ epilogue) :
    (parse lib limits boundary chunks).map Form.entries =
      if Fits lib limits 0 0 parts then parts.mapM (BodyPart.entry lib) else none := by
  rw [parse_eq hcr, hcut, run_encode hcr hparts]
  exact entries_formOf parts

theorem form_as_sent_cut :
    (parse sampleLibrary {} (ascii "b")
        [(encode (ascii "b") [passportPart [1, 13], notePart [65]]).take 70,
          (encode (ascii "b") [passportPart [1, 13], notePart [65]]).drop 70]).map Form.entries =
      some [("passport".toList, .upload ⟨"p.jpg".toList, 2, (passportPart []).fields, [1, 13]⟩),
        ("note".toList, .text "A".toList)] := by
  have hunbroken : ∀ p ∈ [passportPart [1, 13], notePart [65]],
      Unbroken (ascii "b") p.content := by
    decide +kernel
  refine (form_as_sent sampleLibrary {} (ascii "b") (by decide +kernel) _ hunbroken [] _
    (by simp)).trans ?_
  decide +kernel

end WageFix.Multipart
