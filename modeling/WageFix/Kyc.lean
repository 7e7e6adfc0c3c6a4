import WageFix.Multipart.Options
import Mathlib.Data.List.Infix

namespace WageFix.Kyc

abbrev Path := List Char

abbrev Bytes := List UInt8

def uploadDir : Path := "backend/uploads".toList

-- os.path.join on POSIX: an absolute second part discards the first.
def join (a b : Path) : Path :=
  if b.head? = some '/' then b
  else if a = [] ∨ a.getLast? = some '/' then a ++ b
  else a ++ '/' :: b

structure Upload where
  filename : Path
  file : Bytes
  deriving DecidableEq, Repr

structure Request where
  passport : Upload
  selfie : Upload
  deriving DecidableEq, Repr

-- A file as a client sends it: the Content-Disposition of its part, and its content.
structure SentFile where
  contentDisposition : Bytes
  file : Bytes
  deriving DecidableEq, Repr

structure Sent where
  passport : SentFile
  selfie : SentFile
  deriving DecidableEq, Repr

-- What the handler is given for a file that is sent. Where Python raises on the
-- part, or the part is not a file, the handler is not run.
def SentFile.received (lib : Multipart.Library) (sent : SentFile) : Option Upload := do
  let _ ← Multipart.nameOption lib (some sent.contentDisposition)
  let filename ← Multipart.rawFilename lib (some sent.contentDisposition)
  let filename ← Multipart.userSafeDecode lib filename
  return ⟨filename, sent.file⟩

def Sent.received (lib : Multipart.Library) (sent : Sent) : Option Request := do
  let passport ← sent.passport.received lib
  let selfie ← sent.selfie.received lib
  return ⟨passport, selfie⟩

-- How saving one upload goes. A write that fails leaves some of its bytes.
inductive Fault where
  | none
  | opening
  | writing (written : ℕ)
  deriving DecidableEq, Repr

structure Faults where
  passport : Fault
  selfie : Fault
  deriving DecidableEq, Repr

inductive Status where
  | approved
  | rejected
  deriving DecidableEq, Repr

def Request.passportPath (r : Request) : Path := join uploadDir r.passport.filename

def Request.selfiePath (r : Request) : Path := join uploadDir r.selfie.filename

-- The only letters with fail as their lower case are those of ASCII.
def Request.status (r : Request) : Status :=
  if "fail".toList <:+: r.passport.filename.map Char.toLower then .rejected else .approved

-- The path that a call of open opens, if it does.
def openedBy (path : Path) (fault : Fault) : List Path := if fault = .opening then [] else [path]

-- The handler does not come to the selfie where the passport is not saved.
def opened (r : Request) (faults : Faults) : List Path :=
  openedBy r.passportPath faults.passport ++
    if faults.passport = .none then openedBy r.selfiePath faults.selfie else []

section Handler

variable {File : Type} [DecidableEq File]

-- open(path, "wb") empties the file that the system finds under the path, and
-- copyfileobj fills it.
def save (resolve : Path → File) (path : Path) (content : Bytes) (fault : Fault)
    (dir : Store File Bytes) : Bool × Store File Bytes :=
  match fault with
  | .none => (true, dir.put (resolve path, content))
  | .opening => (false, dir)
  | .writing written => (false, dir.put (resolve path, content.take written))

def kycCheck (resolve : Path → File) (r : Request) (faults : Faults) (dir : Store File Bytes) :
    Option Status × Store File Bytes :=
  match save resolve r.passportPath r.passport.file faults.passport dir with
  | (false, dir) => (none, dir)
  | (true, dir) =>
      match save resolve r.selfiePath r.selfie.file faults.selfie dir with
      | (false, dir) => (none, dir)
      | (true, dir) => (some r.status, dir)

def run (resolve : Path → File) (dir : Store File Bytes) (requests : List (Request × Faults)) :
    Store File Bytes :=
  requests.foldl (fun dir r => (kycCheck resolve r.1 r.2 dir).2) dir

end Handler

end WageFix.Kyc
