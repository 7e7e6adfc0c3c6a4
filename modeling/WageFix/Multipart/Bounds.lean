import WageFix.Multipart.Protocol
import WageFix.Multipart.Submission

-- What a form keeps within its limits, whatever the body is.
namespace WageFix.Multipart

open Transition (runAll runAll_cons_eq_some)

def Item.place : Item → Option ℕ
  | .text _ => none
  | .upload file => some file

def Form.places (f : Form) : List ℕ := f.items.filterMap fun item => item.2.place

-- The file and the fields of a part that has begun its data and not ended.
def Form.openFile (s : Stage) (f : Form) : List ℕ := if s = .data then f.part.file.toList else []

def Form.openFields (s : Stage) (f : Form) : ℕ := if s = .data ∧ f.part.file = none then 1 else 0

-- Every file is in the items once, in the order in which they were opened, but
-- that of the part that has not ended.
structure Kept (lib : Library) (limits : Limits) (s : Stage) (f : Form) : Prop where
  settled : f.filePartsToWrite = []
  files : f.currentFiles = f.files.length
  places : f.places ++ f.openFile s = List.range f.files.length
  fields : f.items.countP (fun item => item.2.place.isNone) + f.openFields s = f.currentFields
  maxFiles : f.currentFiles ≤ limits.maxFiles
  maxFields : f.currentFields ≤ limits.maxFields
  data : f.part.data.length ≤ limits.maxPartSize
  decoded : ∀ item ∈ f.items, ∀ value, item.2 = .text value →
    ∃ data : Bytes, data.length ≤ limits.maxPartSize ∧ userSafeDecode lib data = some value
  sizes : ∀ u ∈ f.files, u.size = u.file.length

section Steps

variable {lib : Library} {limits : Limits} {s s' : Stage} {f g : Form} {c : Callback}

theorem Kept.init (lib : Library) (limits : Limits) : Kept lib limits .outside {} :=
  ⟨rfl, rfl, rfl, rfl, Nat.zero_le _, Nat.zero_le _, Nat.zero_le _, by simp, by simp⟩

-- Between the data of one part and that of the next only the headers change.
theorem Kept.between (hf : Kept lib limits s f) (hs : s ≠ .data) (hs' : s' ≠ .data)
    (hg : g = { f with
      partialHeaderName := g.partialHeaderName
      partialHeaderValue := g.partialHeaderValue
      part := g.part })
    (hdata : g.part.data.length ≤ limits.maxPartSize) : Kept lib limits s' g := by
  have hopen : f.openFile s = g.openFile s' := by
    rw [Form.openFile, Form.openFile, if_neg hs, if_neg hs']
  have hfields : f.openFields s = g.openFields s' := by
    rw [Form.openFields, Form.openFields, if_neg fun h => hs h.1, if_neg fun h => hs' h.1]
  have hplaces := hf.places
  have hcount := hf.fields
  rw [hopen] at hplaces
  rw [hfields] at hcount
  rw [hg] at hdata hplaces hcount ⊢
  exact ⟨hf.settled, hf.files, hplaces, hcount, hf.maxFiles, hf.maxFields, hdata, hf.decoded,
    hf.sizes⟩

theorem Kept.withFile (hf : Kept lib limits .headers f)
    (hmax : f.currentFiles + 1 ≤ limits.maxFiles) (name filename : Text) :
    Kept lib limits .data (f.withFile name filename) := by
  refine ⟨hf.settled, ?_, ?_, ?_, hmax, hf.maxFields, hf.data, hf.decoded, ?_⟩
  · simp [Form.withFile, hf.files]
  · have hplaces : f.places = List.range f.files.length := by simpa [Form.openFile] using hf.places
    simp [Form.withFile, Form.openFile, List.range_succ, ← hplaces, Form.places]
  · have hfields := hf.fields
    simpa [Form.withFile, Form.openFields] using hfields
  · exact List.forall_mem_append.mpr ⟨hf.sizes, by simp⟩

theorem Kept.withField (hf : Kept lib limits .headers f)
    (hmax : f.currentFields + 1 ≤ limits.maxFields) (name : Text) :
    Kept lib limits .data (f.withField name) := by
  refine ⟨hf.settled, hf.files, ?_, ?_, hf.maxFiles, hmax, hf.data, hf.decoded, hf.sizes⟩
  · have hplaces := hf.places
    simpa [Form.withField, Form.openFile, Form.places] using hplaces
  · have hfields := hf.fields
    simpa [Form.withField, Form.openFields] using hfields

theorem Kept.withData (hf : Kept lib limits .data f) {bytes : Bytes}
    (hmax : f.part.data.length + bytes.length ≤ limits.maxPartSize) :
    Kept lib limits .data (f.withData bytes) := by
  refine ⟨hf.settled, hf.files, hf.places, hf.fields, hf.maxFiles, hf.maxFields, ?_, hf.decoded,
    hf.sizes⟩
  simpa [Form.withData] using hmax

theorem Kept.wrote (hf : Kept lib limits .data f) (w : ℕ × Bytes) :
    Kept lib limits .data { f with files := writeFile f.files w } := by
  have hlength : (writeFile f.files w).length = f.files.length := List.length_modify ..
  refine ⟨hf.settled, hf.files.trans hlength.symm, ?_, hf.fields, hf.maxFiles, hf.maxFields,
    hf.data, hf.decoded, ?_⟩
  · rw [hlength]
    exact hf.places
  · intro u hu
    obtain ⟨i, hi⟩ := List.mem_iff_getElem?.mp hu
    rw [writeFile, List.getElem?_modify] at hi
    obtain ⟨v, hv, rfl⟩ := Option.map_eq_some_iff.mp hi
    have hsize : v.size = v.file.length := hf.sizes v (List.mem_of_getElem? hv)
    split_ifs
    · simp [UploadFile.write, hsize]
    · exact hsize

theorem Kept.partEnd_text (hf : Kept lib limits .data f) {value : Text}
    (hfile : f.part.file = none) (hvalue : userSafeDecode lib f.part.data = some value) :
    Kept lib limits .outside (f.withItem (.text value)) := by
  have hplaces := hf.places
  have hfields := hf.fields
  refine ⟨hf.settled, hf.files, ?_, ?_, hf.maxFiles, hf.maxFields, hf.data, ?_, hf.sizes⟩
  · simpa [Form.withItem, Form.openFile, hfile, Form.places, Item.place] using hplaces
  · simpa [Form.withItem, Form.openFields, hfile, Item.place] using hfields
  · refine List.forall_mem_append.mpr ⟨hf.decoded, List.forall_mem_singleton.mpr ?_⟩
    intro other heq
    cases heq
    exact ⟨f.part.data, hf.data, hvalue⟩

theorem Kept.partEnd_upload (hf : Kept lib limits .data f) {file : ℕ}
    (hfile : f.part.file = some file) : Kept lib limits .outside (f.withItem (.upload file)) := by
  have hplaces := hf.places
  have hfields := hf.fields
  refine ⟨hf.settled, hf.files, ?_, ?_, hf.maxFiles, hf.maxFields, hf.data, ?_, hf.sizes⟩
  · simpa [Form.withItem, Form.openFile, hfile, Form.places, Item.place] using hplaces
  · simpa [Form.withItem, Form.openFields, hfile, Item.place] using hfields
  · exact List.forall_mem_append.mpr ⟨hf.decoded, by simp⟩

theorem after_cases (h : s.after c = some s') :
    (c = .headersFinished ∧ s = .headers ∧ s' = .data) ∨
    ((∃ bytes, c = .data .partData bytes) ∧ s = .data ∧ s' = .data) ∨
    (c = .partEnd ∧ s = .data ∧ s' = .outside) ∨
    (c ≠ .headersFinished ∧ (∀ bytes, c ≠ .data .partData bytes) ∧ c ≠ .partEnd ∧
      s ≠ .data ∧ s' ≠ .data) := by
  unfold Stage.after at h
  split at h <;> cases h <;> simp

theorem Kept.step (hf : Kept lib limits s f) (hs : s.after c = some s')
    (hc : handledNow lib limits f c = some g) : Kept lib limits s' g := by
  obtain ⟨h, hhandled, rfl⟩ := Option.map_eq_some_iff.mp hc
  rcases after_cases hs with ⟨rfl, rfl, rfl⟩ | ⟨⟨bytes, rfl⟩, rfl, rfl⟩ | ⟨rfl, rfl, rfl⟩ |
    ⟨hfinished, hdata, hend, hbefore, hafter⟩
  · rcases headersFinished_eq_some hhandled with ⟨name, filename, hmax, rfl⟩ | ⟨name, hmax, rfl⟩
    · have hkept := hf.withFile hmax name filename
      rwa [Form.written_of_settled hkept.settled]
    · have hkept := hf.withField hmax name
      rwa [Form.written_of_settled hkept.settled]
  · rcases onPartData_eq_ok (handled_eq_some.mp hhandled) with ⟨-, hmax, rfl⟩ | ⟨file, -, rfl⟩
    · have hkept := hf.withData hmax
      rwa [Form.written_of_settled hkept.settled]
    · have hwritten : ({ f with filePartsToWrite := f.filePartsToWrite ++ [(file, bytes)] } :
          Form).written = { f with files := writeFile f.files (file, bytes) } := by
        simp [Form.written, hf.settled]
      rw [hwritten]
      exact hf.wrote _
  · rcases partEnd_eq_some hhandled with ⟨value, hfile, hvalue, rfl⟩ | ⟨file, hfile, rfl⟩
    · have hkept := hf.partEnd_text hfile hvalue
      rwa [Form.written_of_settled hkept.settled]
    · have hkept := hf.partEnd_upload hfile
      rwa [Form.written_of_settled hkept.settled]
  · have hkept : Kept lib limits s' h := by
      cases c with
      | partBegin =>
          cases hhandled
          exact hf.between hbefore hafter rfl (Nat.zero_le _)
      | headerBegin =>
          cases hhandled
          exact hf.between hbefore hafter rfl hf.data
      | data slot bytes =>
          cases slot with
          | headerField =>
              cases hhandled
              exact hf.between hbefore hafter rfl hf.data
          | headerValue =>
              cases hhandled
              exact hf.between hbefore hafter rfl hf.data
          | partData => exact absurd rfl (hdata bytes)
      | headerEnd =>
          cases hhandled
          exact hf.between hbefore hafter rfl hf.data
      | headersFinished => exact absurd rfl hfinished
      | partEnd => exact absurd rfl hend
      | end_ =>
          cases hhandled
          exact hf.between hbefore hafter rfl hf.data
    rwa [Form.written_of_settled hkept.settled]

theorem Kept.run (hf : Kept lib limits s f) {callbacks : List Callback}
    (hs : runAll Stage.after s callbacks = some s')
    (hc : runAll (handledNow lib limits) f callbacks = some g) : Kept lib limits s' g := by
  induction callbacks generalizing s f with
  | nil =>
      cases hs
      cases hc
      exact hf
  | cons c callbacks ih =>
      obtain ⟨s₁, hs₁, hs⟩ := runAll_cons_eq_some.mp hs
      obtain ⟨f₁, hc₁, hc⟩ := runAll_cons_eq_some.mp hc
      exact ih (hf.step hs₁ hc₁) hs hc

-- A place that is an item's is that of a file, so no item is lost to the entries.
theorem Kept.exists_file (hf : Kept lib limits s f) {item : Text × Item} (hitem : item ∈ f.items)
    {file : ℕ} (hfile : item.2 = .upload file) : ∃ u, f.files[file]? = some u := by
  have hplace : file ∈ f.places := List.mem_filterMap.mpr ⟨item, hitem, by rw [hfile]; rfl⟩
  have hlt : file < f.files.length := by
    rw [← List.mem_range, ← hf.places]
    exact List.mem_append_left _ hplace
  exact ⟨_, List.getElem?_eq_getElem hlt⟩

end Steps

section Entries

variable {lib : Library} {limits : Limits} {s : Stage} {f : Form}

def Entry.isText : Entry → Bool
  | .text _ => true
  | .upload _ => false

theorem Kept.resolve_ne_none (hf : Kept lib limits s f) {item : Text × Item}
    (hitem : item ∈ f.items) : ∃ entry, f.resolve item.2 = some entry ∧
      entry.isText = item.2.place.isNone := by
  cases hvalue : item.2 with
  | text value => exact ⟨.text value, rfl, rfl⟩
  | upload file =>
      obtain ⟨u, hu⟩ := hf.exists_file hitem hvalue
      exact ⟨.upload u, by rw [Form.resolve, hu]; rfl, rfl⟩

theorem Kept.length_entries (hf : Kept lib limits s f) : f.entries.length = f.items.length := by
  rw [Form.entries, List.length_filterMap_eq_countP, List.countP_eq_length]
  intro item hitem
  obtain ⟨entry, hentry, -⟩ := hf.resolve_ne_none hitem
  simp [hentry]

theorem Kept.countP_entries (hf : Kept lib limits s f) :
    f.entries.countP (fun e => e.2.isText) = f.items.countP fun item => item.2.place.isNone := by
  rw [Form.entries, List.countP_filterMap]
  apply List.countP_congr
  intro item hitem
  obtain ⟨entry, hentry, htext⟩ := hf.resolve_ne_none hitem
  simp [hentry, htext]

theorem mem_entries {name : Text} {e : Entry} (h : (name, e) ∈ f.entries) :
    ∃ item ∈ f.items, f.resolve item.2 = some e := by
  obtain ⟨item, hitem, hresolve⟩ := List.mem_filterMap.mp h
  obtain ⟨entry, hentry, heq⟩ := Option.map_eq_some_iff.mp hresolve
  obtain ⟨-, rfl⟩ := Prod.mk.inj heq
  exact ⟨item, hitem, hentry⟩

theorem resolve_eq_text {item : Item} {value : Text} (h : f.resolve item = some (.text value)) :
    item = .text value := by
  cases item with
  | text value' => cases h; rfl
  | upload file =>
      obtain ⟨u, -, hu⟩ := Option.map_eq_some_iff.mp h
      cases hu

theorem Kept.text_entry (hf : Kept lib limits s f) {name value : Text}
    (h : (name, .text value) ∈ f.entries) :
    ∃ data : Bytes, data.length ≤ limits.maxPartSize ∧ userSafeDecode lib data = some value := by
  obtain ⟨item, hitem, hresolve⟩ := mem_entries h
  exact hf.decoded item hitem value (resolve_eq_text hresolve)

end Entries

-- Whatever the body is, a form has each file that was opened at one of its
-- entries, in their order, but for the file of a part whose data has begun and
-- not ended when the callbacks end. It stays within its limits.
theorem limits_kept (lib : Library) (limits : Limits) (boundary : Bytes) (hcr : CR ∉ boundary)
    (chunks : List Bytes) (f : Form) (h : parse lib limits boundary chunks = some f) :
    f.entries.length = f.items.length ∧
      (∃ p called s, writeAll boundary chunks = .ok (p, called) ∧
        runAll Stage.after .outside (called.flatMap Callback.bytewise) = some s ∧
        f.places ++ f.openFile s = List.range f.files.length) ∧
      f.files.length ≤ limits.maxFiles ∧
      f.entries.countP (fun e => e.2.isText) ≤ limits.maxFields ∧
      (∀ name value, (name, .text value) ∈ f.entries →
        ∃ data : Bytes, data.length ≤ limits.maxPartSize ∧
          userSafeDecode lib data = some value) ∧
      ∀ u ∈ f.files, u.size = u.file.length := by
  rw [parse_eq hcr] at h
  cases hrun : Transducer.run (feed boundary) .start chunks.flatten with
  | error e =>
      rw [hrun] at h
      cases h
  | ok r =>
      rcases r with ⟨q, out⟩
      rw [hrun] at h
      have hstage : runAll Stage.after .outside out = some q.stage := run_stage hrun
      have hkept := (Kept.init lib limits).run hstage h
      obtain ⟨p, called, hwrite, hcalled⟩ := writeAll_of_run hcr hrun
      refine ⟨hkept.length_entries, ⟨p, called, q.stage, hwrite, ?_, hkept.places⟩, ?_, ?_,
        fun _ _ => hkept.text_entry, hkept.sizes⟩
      · rw [hcalled]
        exact hstage
      · have hfiles := hkept.files
        have hmax := hkept.maxFiles
        omega
      · have hfields := hkept.fields
        have hmax := hkept.maxFields
        rw [hkept.countP_entries]
        omega

-- A body that ends within its second part, of which the file has been opened.
def cutShort : List Bytes :=
  [(encode (ascii "b") [notePart [65], passportPart [1, 13]]).dropLast.dropLast.dropLast]

theorem limits_kept_cutShort :
    ∃ f, parse sampleLibrary {} (ascii "b") cutShort = some f ∧ f.files.length ≤ 1000 ∧
      (∀ u ∈ f.files, u.size = u.file.length) ∧
      ∃ p called s, writeAll (ascii "b") cutShort = .ok (p, called) ∧
        runAll Stage.after .outside (called.flatMap Callback.bytewise) = some s ∧
        f.places ++ f.openFile s = List.range f.files.length := by
  have hcr : CR ∉ ascii "b" := by decide +kernel
  have hsome : (parse sampleLibrary {} (ascii "b") cutShort).isSome := by
    rw [parse_eq hcr]
    decide +kernel
  obtain ⟨f, hf⟩ := Option.isSome_iff_exists.mp hsome
  obtain ⟨-, hplaces, hfiles, -, -, hsizes⟩ :=
    limits_kept sampleLibrary {} (ascii "b") hcr cutShort f hf
  exact ⟨f, hf, hfiles, hsizes, hplaces⟩

end WageFix.Multipart
