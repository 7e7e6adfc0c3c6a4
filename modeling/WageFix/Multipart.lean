import Mathlib.Logic.Function.Basic
import Mathlib.Data.Int.Notation
import WageFix.Transducer

namespace WageFix.Multipart

abbrev Bytes := List UInt8

def CR : UInt8 := 13
def LF : UInt8 := 10
def COLON : UInt8 := 58
def SPACE : UInt8 := 32
def HYPHEN : UInt8 := 45

def ascii (s : String) : Bytes := s.toList.map fun c => UInt8.ofNat c.toNat

-- TOKEN_CHARS_SET
def tokenChars : Bytes :=
  ascii "ABCDEFGHIJKLMNOPQRSTUVWXYZ" ++ ascii "abcdefghijklmnopqrstuvwxyz" ++
    ascii "0123456789" ++ ascii "!#$%&'*+-.^_`|~"

-- MultipartState. No transition of the parser leads to its PART_DATA_END.
inductive State where
  | start
  | startBoundary
  | headerFieldStart
  | headerField
  | headerValueStart
  | headerValue
  | headerValueAlmostDone
  | headersAlmostDone
  | partDataStart
  | partData
  | partDataEnd
  | endBoundary
  | end_
  deriving DecidableEq, Repr

inductive Slot where
  | headerField
  | headerValue
  | partData
  deriving DecidableEq, Repr

-- What the parser calls, and the data that it calls it with.
inductive Callback where
  | partBegin
  | headerBegin
  | data (slot : Slot) (bytes : Bytes)
  | headerEnd
  | headersFinished
  | partEnd
  | end_
  deriving DecidableEq, Repr

inductive Fault where
  | noCrAtBoundary
  | noLfAtBoundary
  | boundaryCharacter (expected got : UInt8) (index : ℕ)
  | emptyHeader
  | headerCharacter (c : UInt8)
  | noLfAtHeader (c : UInt8)
  | noLfAtHeaders (c : UInt8)
  | noHyphenAtBoundary
  | unknownState
  deriving DecidableEq, Repr

-- The text of a MultipartParseError with its offset in the chunk.
def Fault.message (offset : ℕ) : Fault → String
  | .noCrAtBoundary => "Did not find CR at end of boundary (" ++ toString offset ++ ")"
  | .noLfAtBoundary => "Did not find LF at end of boundary (" ++ toString offset ++ ")"
  | .boundaryCharacter expected got index =>
      "Expected boundary character " ++ toString expected ++ ", got " ++ toString got ++
        " at index " ++ toString index
  | .emptyHeader => "Found 0-length header at " ++ toString offset
  | .headerCharacter c =>
      "Found invalid character " ++ toString c ++ " in header at " ++ toString offset
  | .noLfAtHeader c => "Did not find LF character at end of header (found " ++ toString c ++ ")"
  | .noLfAtHeaders c => "Did not find LF at end of headers (found " ++ toString c ++ ")"
  | .noHyphenAtBoundary => "Did not find - at end of boundary (" ++ toString offset ++ ")"
  | .unknownState => "Reached an unknown state 10 at " ++ toString offset

structure Flags where
  partBoundary : Bool
  lastBoundary : Bool
  deriving DecidableEq, Repr

-- What the parser keeps from one call to the next. A mark below 0 stands in the
-- chunks before.
structure Parser where
  state : State
  index : ℕ
  flags : Flags
  marks : Slot → Option ℤ

-- MultipartParser.__init__
def Parser.init : Parser := ⟨.start, 0, ⟨false, false⟩, fun _ => none⟩

def delimiter (boundary : Bytes) : Bytes := CR :: LF :: HYPHEN :: HYPHEN :: boundary

-- The variables of _internal_write, and what it has called so far.
structure Cursor extends Parser where
  i : ℕ
  called : List Callback

namespace Cursor

def call (l : Cursor) (callback : Callback) : Cursor :=
  { l with called := l.called ++ [callback] }

def setMark (l : Cursor) (slot : Slot) : Cursor :=
  { l with marks := Function.update l.marks slot (some l.i) }

def deleteMark (l : Cursor) (slot : Slot) : Cursor :=
  { l with marks := Function.update l.marks slot none }

end Cursor

-- BaseParser.callback with data.
def callback (slot : Slot) (data : Bytes) (start end_ : ℕ) : List Callback :=
  if start = end_ then [] else [.data slot ((data.take end_).drop start)]

-- data.find(sub, start, len(data))
def find (sub data : Bytes) (start : ℕ) : Option ℕ :=
  (List.range' start (data.length + 1 - start)).find? fun j => sub.isPrefixOf (data.drop j)

section Write

variable (delimiter data : Bytes) (entry : Flags)

-- What of a slot stands in the chunks before: a match of the delimiter that has
-- turned out to be data.
def lookbehind (slot : Slot) (n : ℕ) : List Callback :=
  if n ≤ delimiter.length then callback slot delimiter 0 n
  else if entry.partBoundary then callback slot (delimiter ++ [CR, LF]) 0 n
  else if entry.lastBoundary then callback slot (delimiter ++ [HYPHEN, HYPHEN, CR, LF]) 0 n
  else []

def emitted (slot : Slot) (marked end_ : ℤ) : List Callback :=
  if end_ ≤ marked then []
  else if 0 ≤ marked then callback slot data marked.toNat end_.toNat
  else
    lookbehind delimiter entry slot (-marked).toNat ++
      if 0 < end_ then callback slot data 0 end_.toNat else []

def dataCallback (slot : Slot) (end_ : ℤ) (remaining : Bool) (l : Cursor) : Cursor :=
  match l.marks slot with
  | none => l
  | some marked =>
      { l with
        called := l.called ++ emitted delimiter data entry slot marked end_
        marks := Function.update l.marks slot
          (if remaining then some (end_ - data.length) else none) }

def onStart (c : UInt8) (l : Cursor) : Cursor :=
  if c = CR ∨ c = LF then { l with i := l.i + 1 }
  else { l with index := 0, state := .startBoundary }

def onStartBoundary (c : UInt8) (l : Cursor) : Except (Fault × ℕ) Cursor :=
  if l.index = delimiter.length - 2 then
    if c = HYPHEN then .ok { l with state := .endBoundary, index := l.index + 1, i := l.i + 1 }
    else if c ≠ CR then .error (.noCrAtBoundary, l.i)
    else .ok { l with index := l.index + 1, i := l.i + 1 }
  else if l.index = delimiter.length - 2 + 1 then
    if c ≠ LF then .error (.noLfAtBoundary, l.i)
    else .ok { l.call .partBegin with index := 0, state := .headerFieldStart, i := l.i + 1 }
  else if delimiter[l.index + 2]? ≠ some c then
    .error (.boundaryCharacter (delimiter.getD (l.index + 2) 0) c (l.index + 2), l.i)
  else .ok { l with index := l.index + 1, i := l.i + 1 }

def onHeaderFieldStart (c : UInt8) (l : Cursor) : Cursor :=
  let l := { l with index := 0 }.setMark .headerField
  let l := if c ≠ CR then l.call .headerBegin else l
  { l with state := .headerField }

def onHeaderField (c : UInt8) (l : Cursor) : Except (Fault × ℕ) Cursor :=
  if c = CR ∧ l.index = 0 then
    .ok { l.deleteMark .headerField with state := .headersAlmostDone, i := l.i + 1 }
  else
    let l := { l with index := l.index + 1 }
    if c = COLON then
      if l.index = 1 then .error (.emptyHeader, l.i)
      else
        let l := dataCallback delimiter data entry .headerField l.i false l
        .ok { l with state := .headerValueStart, i := l.i + 1 }
    else if c ∉ tokenChars then .error (.headerCharacter c, l.i)
    else .ok { l with i := l.i + 1 }

def onHeaderValueStart (c : UInt8) (l : Cursor) : Cursor :=
  if c = SPACE then { l with i := l.i + 1 }
  else { l.setMark .headerValue with state := .headerValue }

def onHeaderValue (c : UInt8) (l : Cursor) : Cursor :=
  if c = CR then
    let l := dataCallback delimiter data entry .headerValue l.i false l
    { l.call .headerEnd with state := .headerValueAlmostDone, i := l.i + 1 }
  else { l with i := l.i + 1 }

def onHeaderValueAlmostDone (c : UInt8) (l : Cursor) : Except (Fault × ℕ) Cursor :=
  if c ≠ LF then .error (.noLfAtHeader c, l.i)
  else .ok { l with state := .headerFieldStart, i := l.i + 1 }

def onHeadersAlmostDone (c : UInt8) (l : Cursor) : Except (Fault × ℕ) Cursor :=
  if c ≠ LF then .error (.noLfAtHeaders c, l.i)
  else .ok { l.call .headersFinished with state := .partDataStart, i := l.i + 1 }

def onPartDataStart (l : Cursor) : Cursor :=
  { l.setMark .partData with state := .partData }

-- while i < data_length - 1 and data[i] != boundary[0]: i += 1
def skip (i : ℕ) : ℕ :=
  i + ((data.take (data.length - 1)).drop i).findIdx (· = delimiter.headD 0)

-- Where a part's data is read with nothing matched: the index and the position
-- at which the matching goes on.
def search (i : ℕ) : ℕ × ℕ :=
  match find delimiter data i with
  | some i0 => (delimiter.length - 1, i0 + delimiter.length - 1)
  | none => (0, skip delimiter data (max i (data.length - delimiter.length)))

-- The end of the branch: the byte is read once more where a match has broken off.
def reconsider (prev index : ℕ) (l : Cursor) : Cursor :=
  { l with index := index, i := if index = 0 ∧ 0 < prev then l.i else l.i + 1 }

def onMatch (prev : ℕ) (c : UInt8) (l : Cursor) : Cursor :=
  if l.index < delimiter.length then
    reconsider prev (if delimiter[l.index]? = some c then l.index + 1 else 0) l
  else if l.index = delimiter.length then
    if c = CR then
      reconsider prev (l.index + 1) { l with flags := { l.flags with partBoundary := true } }
    else if c = HYPHEN then
      reconsider prev (l.index + 1) { l with flags := { l.flags with lastBoundary := true } }
    else reconsider prev 0 l
  else if l.index = delimiter.length + 1 then
    if l.flags.partBoundary then
      let l := { l with flags := { l.flags with partBoundary := false } }
      if c = LF then
        let l := dataCallback delimiter data entry .partData (l.i - l.index) false l
        { (l.call .partEnd).call .partBegin with
          index := 0, state := .headerFieldStart, i := l.i + 1 }
      else reconsider prev 0 l
    else if l.flags.lastBoundary then
      if c = HYPHEN then
        let l := dataCallback delimiter data entry .partData (l.i - l.index) false l
        reconsider prev l.index { (l.call .partEnd).call .end_ with state := .end_ }
      else reconsider prev 0 l
    else reconsider prev l.index l
  else reconsider prev l.index l

def onPartData (c : UInt8) (l : Cursor) : Cursor :=
  if l.index = 0 then
    let found := search delimiter data l.i
    onMatch delimiter data entry 0 (data.getD found.2 0) { l with index := found.1, i := found.2 }
  else onMatch delimiter data entry l.index c l

def onEndBoundary (c : UInt8) (l : Cursor) : Except (Fault × ℕ) Cursor :=
  if l.index = delimiter.length - 2 + 1 then
    if c ≠ HYPHEN then .error (.noHyphenAtBoundary, l.i)
    else .ok { l.call .end_ with index := l.index + 1, state := .end_, i := l.i + 1 }
  else .ok { l with i := l.i + 1 }

-- What comes after the last boundary is passed over.
def onEnd (c : UInt8) (l : Cursor) : Cursor :=
  if c = CR ∧ data[l.i + 1]? = some LF then { l with i := l.i + 2 }
  else { l with i := data.length }

-- One turn of the loop, at the byte `c`.
def body (c : UInt8) (l : Cursor) : Except (Fault × ℕ) Cursor :=
  match l.state with
  | .start => .ok (onStart c l)
  | .startBoundary => onStartBoundary delimiter c l
  | .headerFieldStart => .ok (onHeaderFieldStart c l)
  | .headerField => onHeaderField delimiter data entry c l
  | .headerValueStart => .ok (onHeaderValueStart c l)
  | .headerValue => .ok (onHeaderValue delimiter data entry c l)
  | .headerValueAlmostDone => onHeaderValueAlmostDone c l
  | .headersAlmostDone => onHeadersAlmostDone c l
  | .partDataStart => .ok (onPartDataStart l)
  | .partData => .ok (onPartData delimiter data entry c l)
  | .partDataEnd => .error (.unknownState, l.i)
  | .endBoundary => onEndBoundary delimiter c l
  | .end_ => .ok (onEnd data c l)

-- How far the loop is from the end: a byte that is read once more is read in a
-- state of a lower rank.
def Cursor.rank (l : Cursor) : ℕ :=
  match l.state with
  | .start | .headerFieldStart | .headerValueStart => 1
  | .partDataStart => 2
  | .partData => if l.index = 0 then 0 else 1
  | _ => 0

def Cursor.left (l : Cursor) : ℕ := 3 * (data.length - l.i) + l.rank

variable {delimiter data entry} {c : UInt8} {l l' : Cursor}

theorem Cursor.rank_le (l : Cursor) : l.rank ≤ 2 := by
  unfold rank
  split <;> first | omega | (split_ifs <;> omega)

theorem Cursor.left_lt_of_advance (hi : l.i < data.length) (hlt : l.i < l'.i) :
    l'.left data < l.left data := by
  have hrank := l'.rank_le
  rw [left, left]
  omega

theorem Cursor.left_lt_of_rank (hi : l'.i = l.i) (hlt : l'.rank < l.rank) :
    l'.left data < l.left data := by
  rw [left, left, hi]
  omega

@[simp]
theorem dataCallback_i (slot : Slot) (end_ : ℤ) (remaining : Bool) (l : Cursor) :
    (dataCallback delimiter data entry slot end_ remaining l).i = l.i := by
  rw [dataCallback]
  cases l.marks slot <;> rfl

@[simp]
theorem dataCallback_index (slot : Slot) (end_ : ℤ) (remaining : Bool) (l : Cursor) :
    (dataCallback delimiter data entry slot end_ remaining l).index = l.index := by
  rw [dataCallback]
  cases l.marks slot <;> rfl

@[simp]
theorem dataCallback_flags (slot : Slot) (end_ : ℤ) (remaining : Bool) (l : Cursor) :
    (dataCallback delimiter data entry slot end_ remaining l).flags = l.flags := by
  rw [dataCallback]
  cases l.marks slot <;> rfl

@[simp]
theorem dataCallback_state (slot : Slot) (end_ : ℤ) (remaining : Bool) (l : Cursor) :
    (dataCallback delimiter data entry slot end_ remaining l).state = l.state := by
  rw [dataCallback]
  cases l.marks slot <;> rfl

theorem find_some {sub : Bytes} {start j : ℕ} (h : find sub data start = some j) :
    start ≤ j ∧ sub <+: data.drop j ∧ ∀ k, start ≤ k → k < j → ¬ sub <+: data.drop k := by
  obtain ⟨hpre, hmem, hfirst⟩ := List.find?_range'_eq_some.mp h
  refine ⟨(List.mem_range'_1.mp hmem).1, List.isPrefixOf_iff_prefix.mp hpre, ?_⟩
  intro k hs hk hfound
  have hnot := hfirst k hs hk
  rw [List.isPrefixOf_iff_prefix.mpr hfound] at hnot
  exact absurd hnot (by decide)

theorem find_none {sub : Bytes} {start k : ℕ} (hsub : sub ≠ [])
    (h : find sub data start = none) (hs : start ≤ k) : ¬ sub <+: data.drop k := by
  intro hpre
  have hk : k < data.length := by
    apply Nat.lt_of_not_le
    intro hge
    rw [List.drop_of_length_le hge, List.prefix_nil] at hpre
    exact hsub hpre
  have hnot := List.find?_range'_eq_none.mp h k hs (by omega)
  rw [List.isPrefixOf_iff_prefix.mpr hpre] at hnot
  exact absurd hnot (by decide)

theorem le_search (hd : delimiter ≠ []) (i : ℕ) : i ≤ (search delimiter data i).2 := by
  have hpos := List.length_pos_iff.mpr hd
  rw [search]
  split
  · next i0 hfind =>
      have hle := (find_some hfind).1
      show i ≤ i0 + delimiter.length - 1
      omega
  · exact Nat.le_trans (Nat.le_max_left _ _) (Nat.le_add_right _ _)

theorem reconsider_next {prev index : ℕ} (h : index ≠ 0 ∨ prev = 0) (l : Cursor) :
    reconsider prev index l = { l with index := index, i := l.i + 1 } := by
  unfold reconsider
  rw [if_neg (by omega)]

theorem reconsider_again {prev : ℕ} (h : 0 < prev) (l : Cursor) :
    reconsider prev 0 l = { l with index := 0 } := by
  unfold reconsider
  rw [if_pos ⟨rfl, h⟩]

-- A turn in the part's data goes on, or has broken off a match.
theorem reconsider_i (prev index : ℕ) (l : Cursor) :
    (reconsider prev index l).i = l.i + 1 ∨
      (reconsider prev index l).i = l.i ∧ index = 0 ∧ 0 < prev := by
  unfold reconsider
  by_cases h : index = 0 ∧ 0 < prev
  · exact .inr ⟨if_pos h, h⟩
  · exact .inl (if_neg h)

theorem onMatch_i (prev : ℕ) (c : UInt8) (l : Cursor) :
    (onMatch delimiter data entry prev c l).i = l.i + 1 ∨
      (onMatch delimiter data entry prev c l).i = l.i ∧
        (onMatch delimiter data entry prev c l).index = 0 ∧
        (onMatch delimiter data entry prev c l).state = l.state ∧ 0 < prev := by
  have hstay : ∀ index l', l'.i = l.i → l'.state = l.state →
      (reconsider prev index l').i = l.i + 1 ∨ (reconsider prev index l').i = l.i ∧
        (reconsider prev index l').index = 0 ∧ (reconsider prev index l').state = l.state ∧
          0 < prev := by
    intro index l' hi hstate
    rcases reconsider_i prev index l' with hnext | ⟨hsame, hzero, hpos⟩
    · exact .inl (by rw [hnext, hi])
    · exact .inr ⟨by rw [hsame, hi], hzero, hstate, hpos⟩
  unfold onMatch
  split_ifs with h₁ h₂ h₃ h₄ h₅ h₆ h₇ h₈ h₉
  all_goals first
    | exact hstay _ _ rfl rfl
    | (left; simp [reconsider, Cursor.call, h₆])

theorem onPartData_left_lt (hd : delimiter ≠ []) (hi : l.i < data.length)
    (hstate : l.state = .partData) :
    (onPartData delimiter data entry c l).left data < l.left data := by
  unfold onPartData
  split_ifs with hindex
  · have hle : l.i ≤ (search delimiter data l.i).2 := le_search hd l.i
    generalize search delimiter data l.i = found at hle
    have hmatch : (onMatch delimiter data entry 0 (data.getD found.2 0)
        { l with index := found.1, i := found.2 }).i = found.2 + 1 ∨ _ := onMatch_i _ _ _
    rcases hmatch with hnext | hsame
    · apply Cursor.left_lt_of_advance hi
      rw [hnext]
      exact Nat.lt_succ_of_le hle
    · exact absurd hsame.2.2.2 (Nat.lt_irrefl 0)
  · have hmatch : (onMatch delimiter data entry l.index c l).i = l.i + 1 ∨ _ := onMatch_i _ _ _
    rcases hmatch with hnext | ⟨hsame, hzero, hkept, -⟩
    · exact Cursor.left_lt_of_advance hi (by omega)
    · apply Cursor.left_lt_of_rank hsame
      simp [Cursor.rank, hkept, hstate, hzero, hindex]

-- Every other state takes the byte, or leaves it to a state of a lower rank.
theorem body_left_lt (hd : delimiter ≠ []) (hc : data[l.i]? = some c)
    (h : body delimiter data entry c l = .ok l') : l'.left data < l.left data := by
  have hi : l.i < data.length := (List.getElem?_eq_some_iff.mp hc).1
  have hadvance : l.i < l'.i → l'.left data < l.left data := Cursor.left_lt_of_advance hi
  have hagain : l'.i = l.i → l'.rank < l.rank → l'.left data < l.left data :=
    Cursor.left_lt_of_rank
  unfold body at h
  cases hstate : l.state
  case partData =>
    simp only [hstate, Except.ok.injEq] at h
    rw [← h]
    exact onPartData_left_lt hd hi hstate
  all_goals
    simp only [hstate, onStart, onStartBoundary, onHeaderFieldStart, onHeaderField,
      onHeaderValueStart, onHeaderValue, onHeaderValueAlmostDone, onHeadersAlmostDone,
      onPartDataStart, onEndBoundary, onEnd] at h
  all_goals (try split_ifs at h) <;> cases h
  case partDataStart =>
    apply hagain rfl
    simp only [Cursor.rank, hstate]
    split_ifs <;> omega
  all_goals first
    | (apply hadvance; simp [Cursor.call]; done)
    | (apply hagain <;> simp [Cursor.call, Cursor.setMark, Cursor.rank, hstate]; done)
    | (apply hadvance; simpa using hi)

end Write

theorem delimiter_ne_nil (boundary : Bytes) : delimiter boundary ≠ [] := List.cons_ne_nil _ _

section Parse

variable (boundary data : Bytes) (entry : Flags)

def loop (l : Cursor) : Except (Fault × ℕ) Cursor :=
  match _hc : data[l.i]? with
  | none => .ok l
  | some c =>
      match _hbody : body (delimiter boundary) data entry c l with
      | .error e => .error e
      | .ok l' => loop l'
termination_by l.left data
decreasing_by exact body_left_lt (delimiter_ne_nil boundary) _hc _hbody

-- What is certain not to belong to a delimiter is called with at the end of each
-- chunk.
def flush (l : Cursor) : Cursor :=
  let l := dataCallback (delimiter boundary) data entry .headerField data.length true l
  let l := dataCallback (delimiter boundary) data entry .headerValue data.length true l
  dataCallback (delimiter boundary) data entry .partData (data.length - l.index) true l

-- MultipartParser.write, with no limit on the size.
def write (p : Parser) (data : Bytes) : Transducer.Result Fault Parser Callback :=
  match loop boundary data p.flags ⟨p, 0, []⟩ with
  | .error e => .error e
  | .ok l => .ok ((flush boundary data p.flags l).toParser, (flush boundary data p.flags l).called)

-- A new parser is given the chunks of a body.
def writeAll (chunks : List Bytes) : Transducer.Result Fault Parser Callback :=
  Transducer.feed (write boundary) Parser.init chunks

end Parse

section Loop

variable {boundary data : Bytes} {entry : Flags} {l l' : Cursor} {c : UInt8} {e : Fault × ℕ}

theorem loop_of_none (hc : data[l.i]? = none) : loop boundary data entry l = .ok l := by
  rw [loop]
  split
  · rfl
  · next c h => exact absurd (hc.symm.trans h) (by simp)

theorem loop_of_error (hc : data[l.i]? = some c)
    (hbody : body (delimiter boundary) data entry c l = .error e) :
    loop boundary data entry l = .error e := by
  rw [loop]
  split
  · next h => exact absurd (hc.symm.trans h) (by simp)
  · next c' h =>
      obtain rfl : c = c' := Option.some.inj (hc.symm.trans h)
      split <;> next h' => simp_all

theorem loop_of_ok (hc : data[l.i]? = some c)
    (hbody : body (delimiter boundary) data entry c l = .ok l') :
    loop boundary data entry l = loop boundary data entry l' := by
  rw [loop]
  split
  · next h => exact absurd (hc.symm.trans h) (by simp)
  · next c' h =>
      obtain rfl : c = c' := Option.some.inj (hc.symm.trans h)
      split <;> next h' => simp_all

end Loop

end WageFix.Multipart
