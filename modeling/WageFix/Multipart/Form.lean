import WageFix.Multipart.Options

-- The form that starlette makes of the parser's callbacks.
namespace WageFix.Multipart

-- The ASCII letters only.
def lower (src : Bytes) : Bytes := src.map fun c => if 65 ≤ c ∧ c ≤ 90 then c + 32 else c

structure UploadFile where
  filename : Text
  size : ℕ
  headers : List (Bytes × Bytes)
  file : Bytes
  deriving DecidableEq, Repr

-- MultipartPart. Its file is a place among the files of the form.
structure Part where
  contentDisposition : Option Bytes := none
  fieldName : Text := []
  data : Bytes := []
  file : Option ℕ := none
  itemHeaders : List (Bytes × Bytes) := []
  deriving DecidableEq, Repr

inductive Item where
  | text (value : Text)
  | upload (file : ℕ)
  deriving DecidableEq, Repr

-- The fields of MultiPartParser. What it has to write at the end of a chunk goes
-- to the files of parts, which do not change once their headers are finished.
structure Form where
  items : List (Text × Item) := []
  currentFiles : ℕ := 0
  currentFields : ℕ := 0
  partialHeaderName : Bytes := []
  partialHeaderValue : Bytes := []
  part : Part := {}
  filePartsToWrite : List (ℕ × Bytes) := []
  files : List UploadFile := []
  deriving DecidableEq, Repr

structure Limits where
  maxFiles : ℕ := 1000
  maxFields : ℕ := 1000
  maxPartSize : ℕ := 1024 * 1024

inductive Refusal where
  | partSize (maxPartSize : ℕ)
  | noName
  | tooManyFiles (maxFiles : ℕ)
  | tooManyFields (maxFields : ℕ)
  deriving DecidableEq, Repr

-- The text of a MultiPartException.
def Refusal.message : Refusal → String
  | .partSize maxPartSize =>
      "Part exceeded maximum size of " ++ toString (maxPartSize / 1024) ++ "KB."
  | .noName => "The Content-Disposition header field \"name\" must be provided."
  | .tooManyFiles maxFiles =>
      "Too many files. Maximum number of files is " ++ toString maxFiles ++ "."
  | .tooManyFields maxFields =>
      "Too many fields. Maximum number of fields is " ++ toString maxFields ++ "."

-- Why a handler ends the parse: with a MultiPartException, or with what Python
-- raises in it.
inductive Failure where
  | refused (refusal : Refusal)
  | raised
  deriving DecidableEq, Repr

def raising {α : Type} (result : Option α) : Except Failure α := result.elim (.error .raised) .ok

section Handlers

variable (lib : Library) (limits : Limits) (f : Form)

def Form.onPartBegin : Form := { f with part := {} }

def Form.withData (bytes : Bytes) : Form :=
  { f with part := { f.part with data := f.part.data ++ bytes } }

def Form.onPartData (bytes : Bytes) : Except Failure Form :=
  match f.part.file with
  | none =>
      if limits.maxPartSize < f.part.data.length + bytes.length then
        .error (.refused (.partSize limits.maxPartSize))
      else .ok (f.withData bytes)
  | some file => .ok { f with filePartsToWrite := f.filePartsToWrite ++ [(file, bytes)] }

def Form.withItem (item : Item) : Form :=
  { f with items := f.items ++ [(f.part.fieldName, item)] }

def Form.onPartEnd : Except Failure Form :=
  match f.part.file with
  | none => do
      let value ← raising (userSafeDecode lib f.part.data)
      return f.withItem (.text value)
  | some file => .ok (f.withItem (.upload file))

def Form.onHeaderField (bytes : Bytes) : Form :=
  { f with partialHeaderName := f.partialHeaderName ++ bytes }

def Form.onHeaderValue (bytes : Bytes) : Form :=
  { f with partialHeaderValue := f.partialHeaderValue ++ bytes }

def Form.onHeaderEnd : Form :=
  let field := lower f.partialHeaderName
  { f with
    part := { f.part with
      contentDisposition :=
        if field = ascii "content-disposition" then some f.partialHeaderValue
        else f.part.contentDisposition
      itemHeaders := f.part.itemHeaders ++ [(field, f.partialHeaderValue)] }
    partialHeaderName := []
    partialHeaderValue := [] }

def Form.withFile (name filename : Text) : Form :=
  { f with
    currentFiles := f.currentFiles + 1
    part := { f.part with fieldName := name, file := some f.files.length }
    files := f.files ++ [⟨filename, 0, f.part.itemHeaders, []⟩] }

def Form.withField (name : Text) : Form :=
  { f with
    currentFields := f.currentFields + 1
    part := { f.part with fieldName := name, file := none } }

def Form.onHeadersFinished : Except Failure Form := do
  let options ← raising (parseOptionsHeader lib f.part.contentDisposition)
  match Store.lastAt (ascii "name") options with
  | none => .error (.refused .noName)
  | some name =>
      let name ← raising (userSafeDecode lib name)
      match Store.lastAt (ascii "filename") options with
      | some filename =>
          if limits.maxFiles < f.currentFiles + 1 then
            .error (.refused (.tooManyFiles limits.maxFiles))
          else
            let filename ← raising (userSafeDecode lib filename)
            return f.withFile name filename
      | none =>
          if limits.maxFields < f.currentFields + 1 then
            .error (.refused (.tooManyFields limits.maxFields))
          else return f.withField name

-- The form has no handler for the beginning of a header, and that for the end of
-- the body does nothing.
def Form.handle (callback : Callback) : Except Failure Form :=
  match callback with
  | .partBegin => .ok f.onPartBegin
  | .headerBegin => .ok f
  | .data .headerField bytes => .ok (f.onHeaderField bytes)
  | .data .headerValue bytes => .ok (f.onHeaderValue bytes)
  | .data .partData bytes => f.onPartData limits bytes
  | .headerEnd => .ok f.onHeaderEnd
  | .headersFinished => f.onHeadersFinished lib limits
  | .partEnd => f.onPartEnd lib
  | .end_ => .ok f

end Handlers

def UploadFile.write (u : UploadFile) (data : Bytes) : UploadFile :=
  { u with size := u.size + data.length, file := u.file ++ data }

def writeFile (files : List UploadFile) (w : ℕ × Bytes) : List UploadFile :=
  files.modify w.1 fun u => u.write w.2

def Form.written (f : Form) : Form :=
  { f with files := f.filePartsToWrite.foldl writeFile f.files, filePartsToWrite := [] }

section Parse

variable (lib : Library) (limits : Limits) (boundary : Bytes)

def handled (f : Form) (callback : Callback) : Option Form :=
  (f.handle lib limits callback).toOption

-- One chunk of MultiPartParser.parse. What the parser or a handler raises ends it.
def receive (s : Parser × Form) (chunk : Bytes) : Option (Parser × Form) :=
  match write boundary s.1 chunk with
  | .error _ => none
  | .ok (p, called) =>
      (Transition.runAll (handled lib limits) s.2 called).map fun f => (p, f.written)

def parse (chunks : List Bytes) : Option Form :=
  (Transition.runAll (receive lib limits boundary) (Parser.init, {}) chunks).map Prod.snd

end Parse

inductive Entry where
  | text (value : Text)
  | upload (u : UploadFile)
  deriving DecidableEq, Repr

def Form.resolve (f : Form) : Item → Option Entry
  | .text value => some (.text value)
  | .upload file => f.files[file]?.map .upload

-- What a form has under its names, which is what FormData is made of.
def Form.entries (f : Form) : List (Text × Entry) :=
  f.items.filterMap fun item => (f.resolve item.2).map fun entry => (item.1, entry)

end WageFix.Multipart
