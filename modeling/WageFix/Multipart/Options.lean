import WageFix.Store
import WageFix.Multipart
import Mathlib.Data.List.DropRight

-- The options of a header of a part, and their texts.
namespace WageFix.Multipart

abbrev Text := List Char

-- What bytes.decode does. Where it is called, UnicodeDecodeError and LookupError
-- are caught. What else a codec raises (as that named undefined does) is not.
inductive Decoded where
  | text (value : Text)
  | caught
  | raised
  deriving DecidableEq, Repr

-- What a request takes from Python: the parameters of a header as email.message
-- reads them, where it does not raise, and the codec under the request's charset.
structure Library where
  getParams : Text → Option (List (Text × Text))
  codec : Bytes → Decoded

def latin1 (src : Bytes) : Text := src.map fun c => Char.ofNat c.toNat

-- Python raises at any other character.
def encodeLatin1 (text : Text) : Option Bytes :=
  text.mapM fun c => if c.toNat < 256 then some (UInt8.ofNat c.toNat) else none

-- Of a name that begins like a Windows path, what stands after its last backslash.
def filenameOption (value : Text) : Text :=
  if (value.drop 1).take 2 = [':', '\\'] ∨ value.take 2 = ['\\', '\\'] then
    value.rtakeWhile (· ≠ '\\')
  else value

-- The name is still the latin-1 text of the header, of which é in UTF-8 has two
-- characters: this one does not begin like a path.
example : filenameOption (latin1 [0xC3, 0xA9, 58, 92, 46, 46]) =
    latin1 [0xC3, 0xA9, 58, 92, 46, 46] := by
  decide +kernel

def parseOption (param : Text × Text) : Option (Bytes × Bytes) := do
  let key ← encodeLatin1 param.1
  let value ← encodeLatin1
    (if param.1 = "filename".toList then filenameOption param.2 else param.2)
  return (key, value)

section Library

variable (lib : Library)

-- Of two options with one key, the later counts. None is what Python raises.
def parseOptionsHeader (value : Option Bytes) : Option (List (Bytes × Bytes)) :=
  match value with
  | none => some []
  | some value =>
      if value = [] ∨ ';' ∉ latin1 value then some []
      else
        match lib.getParams (latin1 value) with
        | none => none
        -- the assertion on the parameters
        | some [] => none
        | some (ctype :: params) => do
            let _ ← encodeLatin1 ctype.1
            params.mapM parseOption

def userSafeDecode (src : Bytes) : Option Text :=
  match lib.codec src with
  | .text value => some value
  | .caught => some (latin1 src)
  | .raised => none

-- The name of a part under its Content-Disposition, and its file name before it
-- is decoded.
def nameOption (value : Option Bytes) : Option Text := do
  let options ← parseOptionsHeader lib value
  let name ← Store.lastAt (ascii "name") options
  userSafeDecode lib name

def rawFilename (value : Option Bytes) : Option Bytes := do
  let options ← parseOptionsHeader lib value
  Store.lastAt (ascii "filename") options

end Library

-- The parameters of the values that the examples send.
def sampleParams (value : Text) : Option (List (Text × Text)) :=
  if value = "form-data; name=\"passport\"; filename=\"p.jpg\"".toList then
    some [("form-data".toList, []), ("name".toList, "passport".toList),
      ("filename".toList, "p.jpg".toList)]
  else if value = "form-data; name=\"passport\"; filename=\"../main.py\"".toList then
    some [("form-data".toList, []), ("name".toList, "passport".toList),
      ("filename".toList, "../main.py".toList)]
  else if value = "form-data; name=\"selfie\"; filename=\"s.jpg\"".toList then
    some [("form-data".toList, []), ("name".toList, "selfie".toList),
      ("filename".toList, "s.jpg".toList)]
  else if value = "form-data; name=\"note\"".toList then
    some [("form-data".toList, []), ("name".toList, "note".toList)]
  else none

def sampleLibrary : Library := ⟨sampleParams, fun src => .text (latin1 src)⟩

end WageFix.Multipart
