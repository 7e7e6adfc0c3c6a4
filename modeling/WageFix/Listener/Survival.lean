import WageFix.Listener
import WageFix.Reader

namespace WageFix.Listener

open Json Wire Reader

-- The pair that a well-formed event with a parsable address stands for.
def Item.issue : Item → Option Issue
  | .message (some payload) => payload.bind decodeRust
  | _ => none

-- A receive error, or an event whose user is no address.
def Item.Stops : Item → Prop
  | .error => True
  | .message none => False
  | .message (some payload) =>
      ∃ event ∈ payload.bind Rust.WageEvent.deserialize, Rust.parseAddress event.user = none

instance : DecidablePred Item.Stops
  | .error => inferInstanceAs (Decidable True)
  | .message none => inferInstanceAs (Decidable False)
  | .message (some payload) =>
      inferInstanceAs (Decidable (∃ event ∈ payload.bind Rust.WageEvent.deserialize, _ = none))

-- What the loop does with an item, told by what the item is.
inductive Reacts (item : Item) : Reaction → Prop where
  | leave (hs : item.Stops) (hi : item.issue = none) : Reacts item .leave
  | panic (hs : item.Stops) (hi : item.issue = none) : Reacts item .panic
  | pass (hs : ¬ item.Stops) (hi : item.issue = none) : Reacts item .pass
  | call (issue : Issue) (hs : ¬ item.Stops) (hi : item.issue = some issue) :
      Reacts item (.call issue)

section Loop

variable {outcome : List Attempt → Issue → Bool}

theorem issue_message (payload : Payload) : Item.issue (.message (some payload)) =
    (payload.bind Rust.WageEvent.deserialize).bind fun event =>
      (Rust.parseAddress event.user).bind fun to_ =>
        some { to_, amount := event.amount.setWidth 256 } :=
  (Option.bind_assoc payload _ _).symm

theorem stops_message {payload : Payload} {event : Rust.WageEvent}
    (h : payload.bind Rust.WageEvent.deserialize = some event) :
    Item.Stops (.message (some payload)) ↔ Rust.parseAddress event.user = none := by
  simp [Item.Stops, h]

theorem reacts (item : Item) : Reacts item (react item) := by
  match item with
  | .error => exact .leave trivial rfl
  | .message none => exact .pass id rfl
  | .message (some payload) =>
      have hissue := issue_message payload
      cases hevent : payload.bind Rust.WageEvent.deserialize with
      | none =>
          rw [hevent] at hissue
          have hstops : ¬ Item.Stops (.message (some payload)) := by simp [Item.Stops, hevent]
          simp only [react, hevent]
          exact .pass hstops hissue
      | some event =>
          rw [hevent, Option.bind_some] at hissue
          cases hto : Rust.parseAddress event.user with
          | none =>
              rw [hto] at hissue
              simp only [react, hevent, hto]
              exact .panic ((stops_message hevent).mpr hto) hissue
          | some to_ =>
              have hstops : ¬ Item.Stops (.message (some payload)) := by
                simp [stops_message hevent, hto]
              rw [hto] at hissue
              simp only [react, hevent, hto]
              exact .call _ hstops hissue

theorem issue_of_stops (item : Item) (h : item.Stops) : item.issue = none := by
  have hreacts := reacts item
  generalize react item = reaction at hreacts
  cases hreacts with
  | leave _ hi => exact hi
  | panic _ hi => exact hi
  | pass hs _ => exact absurd h hs
  | call _ hs _ => exact absurd h hs

-- Both arms of the call go on.
theorem recvLoop_call {item : Item} {issue : Issue} (h : react item = .call issue)
    (made : List Attempt) (items : List Item) :
    recvLoop outcome made (item :: items) =
      recvLoop outcome (made ++ [⟨issue, outcome made issue⟩]) items := by
  simp only [recvLoop, h]
  cases outcome made issue with
  | true => rfl
  | false => rfl

-- The calls of a run are those of the items before the first one that stops
-- the loop, whatever they come back with.
theorem recvLoop_issues (made : List Attempt) (items : List Item) :
    (recvLoop outcome made items).1.map (·.issue) =
      made.map (·.issue) ++ emitted Item.Stops Item.issue items := by
  induction items generalizing made with
  | nil => exact (List.append_nil _).symm
  | cons item items ih =>
      have hreacts := reacts item
      generalize hreact : react item = reaction at hreacts
      cases hreacts with
      | leave hs _ =>
          rw [recvLoop, hreact, emitted_cons_of_stops items hs, List.append_nil]
      | panic hs _ =>
          rw [recvLoop, hreact, emitted_cons_of_stops items hs, List.append_nil]
      | pass hs hi =>
          rw [recvLoop, hreact, emitted_cons_of_not_stops items hs, hi]
          exact ih made
      | call issue hs hi =>
          rw [recvLoop_call hreact, ih, emitted_cons_of_not_stops items hs, hi, List.map_append,
            List.append_assoc]
          rfl

theorem attempted_eq_emitted (items : List Item) :
    attempted outcome items = emitted Item.Stops Item.issue items :=
  recvLoop_issues [] items

end Loop

-- The calls are those of all good items exactly where none of these comes
-- after an item that stops the loop. Bad items can be inserted exactly where
-- none of them stops it before a good item that it would have met.
theorem attempted_iff_unblocked (outcome : List Attempt → Issue → Bool) :
    (∀ items, attempted outcome items = items.filterMap Item.issue ↔
      Unblocked Item.Stops Item.issue items) ∧
    ∀ (outcome' : List Attempt → Issue → Bool) (slots : List (Slot Item.issue)),
      attempted outcome (full slots) = attempted outcome' (kept slots) ↔
        Unblocked Item.Stops Item.issue (full (beforeKeptStop Item.Stops slots)) := by
  constructor
  · intro items
    rw [attempted_eq_emitted]
    exact emitted_eq_filterMap_iff issue_of_stops items
  · intro outcome' slots
    rw [attempted_eq_emitted, attempted_eq_emitted]
    exact emitted_full_eq_kept_iff issue_of_stops slots

def wageItem (user : String) : Item := .message (some (some (wageMessage user (.ofNat 5))))

def goodItem : Item := wageItem "0x0000000000000000000000000000000000000002"

-- After a user who is no address, and after a receive error, a good event is
-- not issued any more.
theorem bad_item_ends_loop :
    attempted (fun _ _ => true) [wageItem "alice", goodItem] ≠
        [wageItem "alice", goodItem].filterMap Item.issue ∧
      attempted (fun _ _ => true) [.error, goodItem] ≠
        [.error, goodItem].filterMap Item.issue := by
  constructor
  · decide +kernel
  · decide +kernel

end WageFix.Listener
