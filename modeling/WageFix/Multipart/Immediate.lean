import WageFix.Multipart.Form
import WageFix.Multipart.RoundTrip

-- The form comes out as if the callbacks came byte by byte and every file was
-- written at once.
namespace WageFix.Multipart

open Transition (runAll runAll_cons runAll_append runAll_invariant_of_mem)

def handledNow (lib : Library) (limits : Limits) (f : Form) (c : Callback) : Option Form :=
  (handled lib limits f c).map Form.written

-- What a form is of a body that is read byte by byte.
def formOf (lib : Library) (limits : Limits) (callbacks : List Callback) : Option Form :=
  runAll (handledNow lib limits) {} callbacks

structure Sound (limits : Limits) (f : Form) : Prop where
  part : ∀ i, f.part.file = some i → i < f.files.length
  owed : ∀ w ∈ f.filePartsToWrite, w.1 < f.files.length
  data : f.part.data.length ≤ limits.maxPartSize

section Written

variable {lib : Library} {limits : Limits} {f g : Form} {c : Callback}

@[simp]
theorem length_foldl_writeFile (files : List UploadFile) (ws : List (ℕ × Bytes)) :
    (ws.foldl writeFile files).length = files.length := by
  induction ws generalizing files with
  | nil => rfl
  | cons w ws ih => rw [List.foldl_cons, ih, writeFile, List.length_modify]

theorem writeFile_append {files : List UploadFile} {w : ℕ × Bytes} (h : w.1 < files.length)
    (u : UploadFile) : writeFile (files ++ [u]) w = writeFile files w ++ [u] := by
  apply List.ext_getElem?
  intro i
  rw [writeFile, writeFile, List.getElem?_modify]
  by_cases hi : i < files.length
  · rw [List.getElem?_append_left hi, List.getElem?_append_left (by rwa [List.length_modify]),
      List.getElem?_modify]
  · have hne : w.1 ≠ i := by omega
    simp [List.getElem?_append, hi, hne]

-- A file that is opened later takes none of the writes that are owed.
theorem foldl_writeFile_append {files : List UploadFile} {ws : List (ℕ × Bytes)}
    (h : ∀ w ∈ ws, w.1 < files.length) (u : UploadFile) :
    ws.foldl writeFile (files ++ [u]) = ws.foldl writeFile files ++ [u] := by
  induction ws generalizing files with
  | nil => rfl
  | cons w ws ih =>
      rw [List.foldl_cons, List.foldl_cons, writeFile_append (h w List.mem_cons_self)]
      apply ih
      intro w' hw'
      rw [writeFile, List.length_modify]
      exact h w' (List.mem_cons_of_mem w hw')

theorem Form.written_of_settled (h : f.filePartsToWrite = []) : f.written = f := by
  rcases f with ⟨items, files, fields, name, value, part, toWrite, uploads⟩
  obtain rfl : toWrite = [] := h
  rfl

theorem UploadFile.write_write (u : UploadFile) (a b : Bytes) :
    (u.write a).write b = u.write (a ++ b) := by
  simp [UploadFile.write, Nat.add_assoc]

theorem writeFile_writeFile (files : List UploadFile) (i : ℕ) (a b : Bytes) :
    writeFile (writeFile files (i, a)) (i, b) = writeFile files (i, a ++ b) := by
  simp only [writeFile, List.modify_modify_eq]
  congr 1
  funext u
  exact u.write_write a b

theorem writeFile_nil (files : List UploadFile) (i : ℕ) : writeFile files (i, []) = files := by
  have hid : (fun u : UploadFile => u.write []) = id := by
    funext u
    simp [UploadFile.write]
  rw [writeFile, hid, List.modify_id]

theorem Sound.init (limits : Limits) : Sound limits {} :=
  ⟨by simp, by simp, Nat.zero_le _⟩

theorem Sound.written (h : Sound limits f) : Sound limits f.written := by
  refine ⟨?_, by simp [Form.written], h.data⟩
  intro i hi
  simp only [Form.written, length_foldl_writeFile]
  exact h.part i hi

theorem toOption_raising_bind {α : Type} (result : Option α) (k : α → Except Failure Form) :
    (raising result >>= k).toOption = result.bind fun a => (k a).toOption := by
  cases result <;> rfl

theorem nameOption_eq_some {value : Option Bytes} {name : Text} :
    nameOption lib value = some name ↔ ∃ options rawName,
      parseOptionsHeader lib value = some options ∧
      Store.lastAt (ascii "name") options = some rawName ∧
      userSafeDecode lib rawName = some name := by
  simp [nameOption, Option.bind_eq_some_iff]

theorem handled_noName (hname : nameOption lib f.part.contentDisposition = none) :
    handled lib limits f .headersFinished = none := by
  unfold handled
  simp only [Form.handle, Form.onHeadersFinished, toOption_raising_bind]
  cases hoptions : parseOptionsHeader lib f.part.contentDisposition with
  | none => rfl
  | some options =>
      rw [Option.bind_some]
      cases hrawName : Store.lastAt (ascii "name") options with
      | none => rfl
      | some rawName =>
          have hdecode : userSafeDecode lib rawName = none := by
            simpa [nameOption, hoptions, hrawName] using hname
          simp only [toOption_raising_bind, hdecode, Option.bind_none]

theorem handled_file {name : Text} {rawName : Bytes}
    (hname : nameOption lib f.part.contentDisposition = some name)
    (hfilename : rawFilename lib f.part.contentDisposition = some rawName) :
    handled lib limits f .headersFinished =
      if limits.maxFiles < f.currentFiles + 1 then none
      else (userSafeDecode lib rawName).map (f.withFile name) := by
  obtain ⟨options, raw, hoptions, hraw, hdecode⟩ := nameOption_eq_some.mp hname
  have hfile : Store.lastAt (ascii "filename") options = some rawName := by
    simpa [rawFilename, hoptions] using hfilename
  unfold handled
  simp only [Form.handle, Form.onHeadersFinished, toOption_raising_bind, hoptions, hraw, hdecode,
    hfile, Option.bind_some]
  split_ifs
  · rfl
  · rw [toOption_raising_bind]
    cases userSafeDecode lib rawName <;> rfl

theorem handled_field {name : Text}
    (hname : nameOption lib f.part.contentDisposition = some name)
    (hfilename : rawFilename lib f.part.contentDisposition = none) :
    handled lib limits f .headersFinished =
      if limits.maxFields < f.currentFields + 1 then none else some (f.withField name) := by
  obtain ⟨options, raw, hoptions, hraw, hdecode⟩ := nameOption_eq_some.mp hname
  have hfile : Store.lastAt (ascii "filename") options = none := by
    simpa [rawFilename, hoptions] using hfilename
  unfold handled
  simp only [Form.handle, Form.onHeadersFinished, toOption_raising_bind, hoptions, hraw, hdecode,
    hfile, Option.bind_some]
  split_ifs <;> rfl

theorem headersFinished_eq_some (h : handled lib limits f .headersFinished = some g) :
    (∃ name filename, f.currentFiles + 1 ≤ limits.maxFiles ∧ g = f.withFile name filename) ∨
      ∃ name, f.currentFields + 1 ≤ limits.maxFields ∧ g = f.withField name := by
  cases hname : nameOption lib f.part.contentDisposition with
  | none =>
      rw [handled_noName hname] at h
      cases h
  | some name =>
      cases hfilename : rawFilename lib f.part.contentDisposition with
      | some rawName =>
          rw [handled_file hname hfilename] at h
          split_ifs at h with hmax
          obtain ⟨filename, -, rfl⟩ := Option.map_eq_some_iff.mp h
          exact .inl ⟨name, filename, Nat.not_lt.mp hmax, rfl⟩
      | none =>
          rw [handled_field hname hfilename] at h
          split_ifs at h with hmax
          cases h
          exact .inr ⟨name, Nat.not_lt.mp hmax, rfl⟩

-- What a part leaves among the items, where its text can be decoded.
theorem handled_partEnd :
    handled lib limits f .partEnd =
      f.part.file.elim ((userSafeDecode lib f.part.data).map fun value => f.withItem (.text value))
        fun file => some (f.withItem (.upload file)) := by
  unfold handled
  simp only [Form.handle, Form.onPartEnd]
  cases f.part.file with
  | none =>
      simp only [toOption_raising_bind]
      cases userSafeDecode lib f.part.data <;> rfl
  | some file => rfl

theorem onPartData_eq_ok {bytes : Bytes} (h : f.onPartData limits bytes = .ok g) :
    (f.part.file = none ∧ f.part.data.length + bytes.length ≤ limits.maxPartSize ∧
      g = f.withData bytes) ∨
    ∃ file, f.part.file = some file ∧
      g = { f with filePartsToWrite := f.filePartsToWrite ++ [(file, bytes)] } := by
  unfold Form.onPartData at h
  split at h
  · next hfile =>
      split_ifs at h with hmax
      cases h
      exact .inl ⟨hfile, Nat.not_lt.mp hmax, rfl⟩
  · next file hfile =>
      cases h
      exact .inr ⟨file, hfile, rfl⟩

theorem handled_eq_some : handled lib limits f c = some g ↔ f.handle lib limits c = .ok g := by
  unfold handled
  cases f.handle lib limits c with
  | error e => simp [Except.toOption]
  | ok g => simp [Except.toOption]

theorem partEnd_eq_some (h : handled lib limits f .partEnd = some g) :
    (∃ value, f.part.file = none ∧ userSafeDecode lib f.part.data = some value ∧
      g = f.withItem (.text value)) ∨
    ∃ file, f.part.file = some file ∧ g = f.withItem (.upload file) := by
  rw [handled_partEnd] at h
  cases hfile : f.part.file with
  | none =>
      rw [hfile] at h
      obtain ⟨value, hvalue, rfl⟩ := Option.map_eq_some_iff.mp h
      exact .inl ⟨value, rfl, hvalue, rfl⟩
  | some file =>
      rw [hfile] at h
      cases h
      exact .inr ⟨file, rfl, rfl⟩

theorem Sound.step (hf : Sound limits f) (h : handled lib limits f c = some g) :
    Sound limits g := by
  cases c with
  | partBegin =>
      cases h
      exact ⟨by simp [Form.onPartBegin], hf.owed, Nat.zero_le _⟩
  | headerBegin =>
      cases h
      exact hf
  | data slot bytes =>
      cases slot with
      | headerField =>
          cases h
          exact ⟨hf.part, hf.owed, hf.data⟩
      | headerValue =>
          cases h
          exact ⟨hf.part, hf.owed, hf.data⟩
      | partData =>
          rcases onPartData_eq_ok (handled_eq_some.mp h) with
            ⟨hfile, hmax, rfl⟩ | ⟨file, hfile, rfl⟩
          · refine ⟨hf.part, hf.owed, ?_⟩
            simpa [Form.withData] using hmax
          · refine ⟨hf.part, ?_, hf.data⟩
            exact List.forall_mem_append.mpr
              ⟨hf.owed, List.forall_mem_singleton.mpr (hf.part file hfile)⟩
  | headerEnd =>
      cases h
      exact ⟨hf.part, hf.owed, hf.data⟩
  | headersFinished =>
      rcases headersFinished_eq_some h with ⟨name, filename, hmax, rfl⟩ | ⟨name, hmax, rfl⟩
      · refine ⟨by simp [Form.withFile], ?_, hf.data⟩
        intro w hw
        have hlt : w.1 < f.files.length := hf.owed w hw
        simp only [Form.withFile, List.length_append, List.length_singleton]
        omega
      · exact ⟨by simp [Form.withField], hf.owed, hf.data⟩
  | partEnd =>
      rcases partEnd_eq_some h with ⟨value, -, -, rfl⟩ | ⟨file, -, rfl⟩
      · exact ⟨hf.part, hf.owed, hf.data⟩
      · exact ⟨hf.part, hf.owed, hf.data⟩
  | end_ =>
      cases h
      exact hf

-- What a callback does with some data is what it does a byte at a time, where it
-- does the last byte of the data after the others.
theorem runAll_each {slot : Slot} {act : Bytes → Option Form} (hnil : act [] = some g)
    (hsnoc : ∀ bytes b, ((act bytes).bind fun f => handledNow lib limits f (.data slot [b])) =
      act (bytes ++ [b]))
    (bytes : Bytes) : runAll (handledNow lib limits) g (each slot bytes) = act bytes := by
  induction bytes using List.reverseRecOn with
  | nil => exact hnil.symm
  | append_singleton bytes b ih =>
      rw [each_append, runAll_append, ih, ← hsnoc]
      congr 1
      funext f
      exact Option.bind_fun_some _

theorem handledNow_headerField (f : Form) (bytes : Bytes) :
    handledNow lib limits f (.data .headerField bytes) = some (f.onHeaderField bytes).written := rfl

theorem handledNow_headerValue (f : Form) (bytes : Bytes) :
    handledNow lib limits f (.data .headerValue bytes) = some (f.onHeaderValue bytes).written := rfl

theorem handledNow_data_of_none (hfile : f.part.file = none) (bytes : Bytes) :
    handledNow lib limits f (.data .partData bytes) =
      if limits.maxPartSize < f.part.data.length + bytes.length then none
      else some (f.withData bytes).written := by
  unfold handledNow handled
  simp only [Form.handle, Form.onPartData, hfile]
  split_ifs <;> rfl

theorem handledNow_data_of_some {file : ℕ} (hfile : f.part.file = some file) (bytes : Bytes) :
    handledNow lib limits f (.data .partData bytes) =
      some { f.written with files := writeFile f.written.files (file, bytes) } := by
  unfold handledNow handled
  simp [Form.handle, Form.onPartData, hfile, Form.written, Except.toOption]

theorem written_withFile (hf : Sound limits f) (name filename : Text) :
    (f.written.withFile name filename).written = (f.withFile name filename).written := by
  simp [Form.withFile, Form.written, foldl_writeFile_append hf.owed]

theorem runAll_each_partData (hf : Sound limits f) (bytes : Bytes) :
    runAll (handledNow lib limits) f.written (each .partData bytes) =
      handledNow lib limits f (.data .partData bytes) := by
  cases hfile : f.part.file with
  | none =>
      apply runAll_each
      · have hdata : ¬ limits.maxPartSize < f.part.data.length + 0 := Nat.not_lt.mpr hf.data
        rw [handledNow_data_of_none hfile, List.length_nil, if_neg hdata]
        simp [Form.withData]
      · intro bytes b
        have hfile' : (f.withData bytes).written.part.file = none := hfile
        have hdata : (f.withData bytes).written.part.data = f.part.data ++ bytes := rfl
        have hsnoc : ((f.withData bytes).written.withData [b]).written =
            (f.withData (bytes ++ [b])).written := by
          simp [Form.withData, Form.written]
        rw [handledNow_data_of_none hfile, handledNow_data_of_none hfile, List.length_append,
          ← Nat.add_assoc]
        by_cases hmax : limits.maxPartSize < f.part.data.length + bytes.length
        · rw [if_pos hmax, if_pos (Nat.lt_add_right _ hmax)]
          rfl
        · rw [if_neg hmax, Option.bind_some, handledNow_data_of_none hfile', hdata,
            List.length_append, hsnoc]
  | some file =>
      apply runAll_each
      · rw [handledNow_data_of_some hfile, writeFile_nil]
      · intro bytes b
        rw [handledNow_data_of_some hfile, handledNow_data_of_some hfile, Option.bind_some,
          handledNow_data_of_some (f := { f.written with files := _ }) hfile]
        simp [Form.written, writeFile_writeFile]

theorem runAll_bytewise (hf : Sound limits f) (c : Callback) :
    runAll (handledNow lib limits) f.written c.bytewise = handledNow lib limits f c := by
  cases c with
  | partBegin => rfl
  | headerBegin => rfl
  | data slot bytes =>
      cases slot with
      | partData => exact runAll_each_partData hf bytes
      | headerField =>
          apply runAll_each
          · simp [handledNow_headerField, Form.onHeaderField, Form.written]
          · simp [handledNow_headerField, Form.onHeaderField, Form.written]
      | headerValue =>
          apply runAll_each
          · simp [handledNow_headerValue, Form.onHeaderValue, Form.written]
          · simp [handledNow_headerValue, Form.onHeaderValue, Form.written]
  | headerEnd => rfl
  | headersFinished =>
      refine (Option.bind_fun_some _).trans ?_
      unfold handledNow
      cases hname : nameOption lib f.part.contentDisposition with
      | none => rw [handled_noName hname, handled_noName (f := f.written) hname]
      | some name =>
          cases hfilename : rawFilename lib f.part.contentDisposition with
          | none =>
              have hcurrent : f.written.currentFields = f.currentFields := rfl
              rw [handled_field hname hfilename, handled_field (f := f.written) hname hfilename,
                hcurrent]
              split_ifs <;> rfl
          | some rawName =>
              have hcurrent : f.written.currentFiles = f.currentFiles := rfl
              rw [handled_file hname hfilename, handled_file (f := f.written) hname hfilename,
                hcurrent]
              split_ifs
              · rfl
              · rw [Option.map_map, Option.map_map]
                congr 1
                funext filename
                exact written_withFile hf name filename
  | partEnd =>
      have hpart : f.written.part = f.part := rfl
      refine (Option.bind_fun_some _).trans ?_
      unfold handledNow
      rw [handled_partEnd, handled_partEnd, hpart]
      cases f.part.file with
      | none => cases userSafeDecode lib f.part.data <;> rfl
      | some file => rfl
  | end_ => rfl

end Written

section Chunks

variable {lib : Library} {limits : Limits} {boundary : Bytes} {f g : Form}

theorem Sound.run (hf : Sound limits f) {called : List Callback}
    (h : runAll (handled lib limits) f called = some g) : Sound limits g :=
  runAll_invariant_of_mem (P := fun _ => True) (fun _ _ _ _ hs hstep => hs.step hstep)
    hf (fun _ _ => trivial) h

-- A chunk whose writes are owed to its end leaves what writing at once leaves.
theorem runAll_called (hf : Sound limits f) (called : List Callback) :
    (runAll (handled lib limits) f called).map Form.written =
      runAll (handledNow lib limits) f.written (called.flatMap Callback.bytewise) := by
  induction called generalizing f with
  | nil => rfl
  | cons c called ih =>
      rw [List.flatMap_cons, runAll_append, runAll_bytewise hf, runAll_cons, handledNow]
      cases hc : handled lib limits f c with
      | none => rfl
      | some g => exact ih (hf.step hc)

theorem runAll_receive (hf : Sound limits f) (hwritten : f.written = f) (p : Parser)
    (chunks : List Bytes) :
    (runAll (receive lib limits boundary) (p, f) chunks).map Prod.snd =
      (Transducer.feed (write boundary) p chunks).toOption.bind fun r =>
        runAll (handledNow lib limits) f (r.2.flatMap Callback.bytewise) := by
  induction chunks generalizing p f with
  | nil => rfl
  | cons chunk chunks ih =>
      rw [runAll_cons]
      cases hwrite : write boundary p chunk with
      | error e => simp [receive, Transducer.feed, hwrite, Except.toOption]
      | ok r =>
          rcases r with ⟨p', called⟩
          have hreceive : receive lib limits boundary (p, f) chunk =
              (runAll (handled lib limits) f called).map fun g => (p', g.written) := by
            simp [receive, hwrite]
          have hcalled : (runAll (handled lib limits) f called).map Form.written =
              runAll (handledNow lib limits) f.written (called.flatMap Callback.bytewise) :=
            runAll_called hf called
          rw [hwritten] at hcalled
          simp only [Transducer.feed_cons_ok hwrite, Transducer.Result.toOption_after,
            Option.bind_map, Function.comp_def, List.flatMap_append, runAll_append, ← hcalled,
            hreceive]
          cases hrun : runAll (handled lib limits) f called with
          | none => simp
          | some g => exact ih (hf.run hrun).written rfl p'

-- Only what a reader of single bytes would call with counts.
theorem parse_eq (hcr : CR ∉ boundary) (chunks : List Bytes) :
    parse lib limits boundary chunks =
      (Transducer.run (feed boundary) .start chunks.flatten).toOption.bind fun r =>
        formOf lib limits r.2 := by
  have hagrees := writeAll_agrees hcr chunks
  rw [parse, runAll_receive (Sound.init limits) rfl, ← writeAll]
  generalize writeAll boundary chunks = w at hagrees ⊢
  generalize Transducer.run (feed boundary) .start chunks.flatten = r at hagrees
  cases hagrees with
  | error e => rfl
  | ok out h => rfl

-- The form does not depend on how the body is cut, though files are written and
-- sizes are checked a chunk at a time.
theorem form_cut_immaterial (lib : Library) (limits : Limits) (boundary : Bytes)
    (hcr : CR ∉ boundary) (chunks chunks' : List Bytes)
    (hcut : chunks.flatten = chunks'.flatten) :
    parse lib limits boundary chunks = parse lib limits boundary chunks' := by
  rw [parse_eq hcr, parse_eq hcr, hcut]

end Chunks

def disposition (value : String) (hline : CR ∉ ascii value)
    (hbegins : (ascii value).head? ≠ some SPACE) : Header :=
  { dispositionHeader with value := ascii value, value_line := hline, value_begins := hbegins }

def passportPart (content : Bytes) : BodyPart :=
  ⟨[disposition "form-data; name=\"passport\"; filename=\"p.jpg\"" (by decide +kernel)
    (by decide +kernel)], content⟩

def selfiePart (content : Bytes) : BodyPart :=
  ⟨[disposition "form-data; name=\"selfie\"; filename=\"s.jpg\"" (by decide +kernel)
    (by decide +kernel)], content⟩

def notePart (content : Bytes) : BodyPart :=
  ⟨[disposition "form-data; name=\"note\"" (by decide +kernel) (by decide +kernel)], content⟩

-- A file whose data and whose end are cut.
theorem form_cut_immaterial_file :
    parse sampleLibrary {} (ascii "b")
        [(encode (ascii "b") [passportPart [1, 13]]).take 75,
          (encode (ascii "b") [passportPart [1, 13]]).drop 75] =
      parse sampleLibrary {} (ascii "b") [encode (ascii "b") [passportPart [1, 13]]] :=
  form_cut_immaterial sampleLibrary {} (ascii "b") (by decide +kernel) _ _ (by simp)

end WageFix.Multipart
