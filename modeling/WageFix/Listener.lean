import WageFix.Wire

namespace WageFix.Listener

open Json Wire

-- What serde_json finds in the bytes of a message, none where they are no JSON.
abbrev Payload := Option Value

-- What consumer.recv() yields: an error, or a message that may be empty.
inductive Item where
  | error
  | message (payload : Option Payload)

inductive Reaction where
  | leave
  | pass
  | panic
  | call (issue : Issue)
  deriving DecidableEq, Repr

-- The loop runs while let Ok, passes over what does not decode, and unwraps
-- the address.
def react : Item → Reaction
  | .error => .leave
  | .message none => .pass
  | .message (some payload) =>
      match payload.bind Rust.WageEvent.deserialize with
      | none => .pass
      | some event =>
          match Rust.parseAddress event.user with
          | none => .panic
          | some to_ => .call { to_, amount := event.amount.setWidth 256 }

structure Attempt where
  issue : Issue
  accepted : Bool
  deriving DecidableEq, Repr

-- Where the loop is once it has met every item of a stream: it waits for the
-- next one, main has returned, or its task has panicked.
inductive Exit where
  | waiting
  | returned
  | panicked
  deriving DecidableEq, Repr

-- The loop after some calls. Whatever a call comes back with is printed only.
def recvLoop (outcome : List Attempt → Issue → Bool) (made : List Attempt) :
    List Item → List Attempt × Exit
  | [] => (made, .waiting)
  | item :: items =>
      match react item with
      | .leave => (made, .returned)
      | .pass => recvLoop outcome made items
      | .panic => (made, .panicked)
      | .call issue =>
          match outcome made issue with
          | true => recvLoop outcome (made ++ [⟨issue, true⟩]) items
          | false => recvLoop outcome (made ++ [⟨issue, false⟩]) items

def attempted (outcome : List Attempt → Issue → Bool) (items : List Item) : List Issue :=
  (recvLoop outcome [] items).1.map (·.issue)

-- The listener on one partition. Offsets are positions in the log. The offset
-- that is stored, and committed from time to time, is the one after the last
-- message that was handed to the loop.
structure World where
  running : Bool
  position : ℕ
  inflight : Option ℕ
  stored : ℕ
  committed : ℕ
  accepted : List ℕ
  deriving DecidableEq, Repr

inductive Move where
  | deliver
  | callOk
  | callErr
  | autoCommit
  | crash
  deriving DecidableEq, Repr

def start (offset : ℕ) : World where
  running := true
  position := offset
  inflight := none
  stored := offset
  committed := offset
  accepted := []

-- enable.auto.offset.store: the message counts as processed once it is handed
-- over, whatever becomes of it.
def deliver (log : List (Option Payload)) (w : World) : Option World :=
  match w.running, w.inflight, log[w.position]? with
  | true, none, some payload =>
      let w := { w with position := w.position + 1, stored := w.position + 1 }
      match react (.message payload) with
      | .leave => some { w with running := false }
      | .pass => some w
      | .panic => some { w with running := false }
      | .call _ => some { w with inflight := some (w.position - 1) }
  | _, _, _ => none

def callOk (w : World) : Option World :=
  w.inflight.map fun offset => { w with inflight := none, accepted := w.accepted ++ [offset] }

-- The error is printed, and the loop goes on to the next message.
def callErr (w : World) : Option World := w.inflight.map fun _ => { w with inflight := none }

def autoCommit (w : World) : World := { w with committed := w.stored }

-- The process ends and starts again from what is committed.
def crash (w : World) : World :=
  { w with
    running := true
    position := w.committed
    inflight := none
    stored := w.committed }

def step (log : List (Option Payload)) (w : World) : Move → Option World
  | .deliver => deliver log w
  | .callOk => callOk w
  | .callErr => callErr w
  | .autoCommit => some (autoCommit w)
  | .crash => some (crash w)

end WageFix.Listener
