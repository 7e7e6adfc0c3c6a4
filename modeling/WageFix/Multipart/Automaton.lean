import WageFix.Matcher
import WageFix.Multipart

-- What the parser recognises, a byte at a time and without a buffer: only what
-- may still turn out to be the end of a part is held back.
namespace WageFix.Multipart

inductive Held where
  | upTo (k : ℕ)
  | cr
  | hyphen
  deriving DecidableEq, Repr

def Held.text (boundary : Bytes) : Held → Bytes
  | .upTo k => (delimiter boundary).take k
  | .cr => delimiter boundary ++ [CR]
  | .hyphen => delimiter boundary ++ [HYPHEN]

inductive Phase where
  | start
  | startBoundary (index : ℕ)
  | headerFieldStart
  | headerField (first : Bool)
  | headerValueStart
  | headerValue
  | headerValueAlmostDone
  | headersAlmostDone
  | partDataStart
  | partData (m : Held)
  | endBoundary
  | end_
  deriving DecidableEq, Repr

def each (slot : Slot) (bytes : Bytes) : List Callback := bytes.map fun b => .data slot [b]

-- A callback as it would be made a byte at a time.
def Callback.bytewise : Callback → List Callback
  | .data slot bytes => each slot bytes
  | callback => [callback]

def readBoundary (boundary : Bytes) (index : ℕ) (c : UInt8) :
    Except Fault (Phase × List Callback) :=
  if index + 2 = (delimiter boundary).length then
    if c = HYPHEN then .ok (.endBoundary, [])
    else if c = CR then .ok (.startBoundary (index + 1), [])
    else .error .noCrAtBoundary
  else if index + 1 = (delimiter boundary).length then
    if c = LF then .ok (.headerFieldStart, [.partBegin]) else .error .noLfAtBoundary
  else if (delimiter boundary)[index + 2]? = some c then .ok (.startBoundary (index + 1), [])
  else .error (.boundaryCharacter ((delimiter boundary).getD (index + 2) 0) c (index + 2))

def readHeaderField (first : Bool) (c : UInt8) : Except Fault (Phase × List Callback) :=
  if c = CR ∧ first then .ok (.headersAlmostDone, [])
  else if c = COLON then
    if first then .error .emptyHeader else .ok (.headerValueStart, [])
  else if c ∈ tokenChars then .ok (.headerField false, each .headerField [c])
  else .error (.headerCharacter c)

def readHeaderValue (c : UInt8) : Phase × List Callback :=
  if c = CR then (.headerValueAlmostDone, [.headerEnd])
  else (.headerValue, each .headerValue [c])

-- What was held is data, and the byte may begin the delimiter.
def restart (boundary : Bytes) (m : Held) (c : UInt8) : Phase × List Callback :=
  (.partData (.upTo (Matcher.enter (delimiter boundary) c).1),
    each .partData (m.text boundary ++ (Matcher.enter (delimiter boundary) c).2))

def readPartData (boundary : Bytes) (m : Held) (c : UInt8) : Phase × List Callback :=
  match m with
  | .upTo k =>
      if k = (delimiter boundary).length then
        if c = CR then (.partData .cr, [])
        else if c = HYPHEN then (.partData .hyphen, [])
        else restart boundary m c
      else
        (.partData (.upTo (Matcher.step (delimiter boundary) k c).1),
          each .partData (Matcher.step (delimiter boundary) k c).2)
  | .cr => if c = LF then (.headerFieldStart, [.partEnd, .partBegin]) else restart boundary m c
  | .hyphen => if c = HYPHEN then (.end_, [.partEnd, .end_]) else restart boundary m c

def feed (boundary : Bytes) : Phase → UInt8 → Except Fault (Phase × List Callback)
  | .start, c => if c = CR ∨ c = LF then .ok (.start, []) else readBoundary boundary 0 c
  | .startBoundary index, c => readBoundary boundary index c
  | .headerFieldStart, c =>
      if c = CR then .ok (.headersAlmostDone, [])
      else (readHeaderField true c).map fun r => (r.1, .headerBegin :: r.2)
  | .headerField first, c => readHeaderField first c
  | .headerValueStart, c =>
      if c = SPACE then .ok (.headerValueStart, []) else .ok (readHeaderValue c)
  | .headerValue, c => .ok (readHeaderValue c)
  | .headerValueAlmostDone, c =>
      if c = LF then .ok (.headerFieldStart, []) else .error (.noLfAtHeader c)
  | .headersAlmostDone, c =>
      if c = LF then .ok (.partDataStart, [.headersFinished]) else .error (.noLfAtHeaders c)
  | .partDataStart, c => .ok (readPartData boundary (.upTo 0) c)
  | .partData m, c => .ok (readPartData boundary m c)
  | .endBoundary, c => if c = HYPHEN then .ok (.end_, [.end_]) else .error .noHyphenAtBoundary
  | .end_, _ => .ok (.end_, [])

@[simp]
theorem each_nil (slot : Slot) : each slot [] = [] := rfl

theorem each_append (slot : Slot) (a b : Bytes) : each slot (a ++ b) = each slot a ++ each slot b :=
  List.map_append

end WageFix.Multipart
