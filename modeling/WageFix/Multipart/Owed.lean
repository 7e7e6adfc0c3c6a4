import Mathlib.Algebra.Order.Ring.Int
import WageFix.Multipart.Search

-- How the state, the index, the flags and the marks of the loop show where a
-- reader of single bytes is, and what it has called with and the parser has not.
namespace WageFix.Multipart

open Transducer (run run_cons_ok run_cons_error run_append_ok)

def only (slot : Slot) (mark : ℤ) : Slot → Option ℤ :=
  Function.update (fun _ => none) slot (some mark)

-- The slot whose data is being read, and what of it is held back.
def Phase.slot : Phase → Option Slot
  | .headerField _ => some .headerField
  | .headerValue => some .headerValue
  | .partData _ => some .partData
  | _ => none

def Phase.held (boundary : Bytes) : Phase → Bytes
  | .partData m => m.text boundary
  | _ => []

-- How the parser's state, index and flags show a phase.
inductive Shows (boundary : Bytes) : State → ℕ → Flags → Phase → Prop
  | start {k : ℕ} {f : Flags} (hf : f.partBoundary = false) : Shows boundary .start k f .start
  | startBoundary {k : ℕ} {f : Flags} (hf : f.partBoundary = false)
      (hk : k < (delimiter boundary).length) :
      Shows boundary .startBoundary k f (.startBoundary k)
  | headerFieldStart {k : ℕ} {f : Flags} (hf : f.partBoundary = false) :
      Shows boundary .headerFieldStart k f .headerFieldStart
  | headerField {k : ℕ} {f : Flags} (hf : f.partBoundary = false) :
      Shows boundary .headerField k f (.headerField (k = 0))
  | headerValueStart {k : ℕ} {f : Flags} (hf : f.partBoundary = false) :
      Shows boundary .headerValueStart k f .headerValueStart
  | headerValue {k : ℕ} {f : Flags} (hf : f.partBoundary = false) :
      Shows boundary .headerValue k f .headerValue
  | headerValueAlmostDone {k : ℕ} {f : Flags} (hf : f.partBoundary = false) :
      Shows boundary .headerValueAlmostDone k f .headerValueAlmostDone
  | headersAlmostDone {f : Flags} (hf : f.partBoundary = false) :
      Shows boundary .headersAlmostDone 0 f .headersAlmostDone
  | partDataStart {f : Flags} (hf : f.partBoundary = false) :
      Shows boundary .partDataStart 0 f .partDataStart
  | upTo {k : ℕ} {f : Flags} (hf : f.partBoundary = false) (hk : k ≤ (delimiter boundary).length) :
      Shows boundary .partData k f (.partData (.upTo k))
  | cr {f : Flags} (hf : f.partBoundary = true) :
      Shows boundary .partData ((delimiter boundary).length + 1) f (.partData .cr)
  | hyphen {f : Flags} (hf : f.partBoundary = false) (hl : f.lastBoundary = true) :
      Shows boundary .partData ((delimiter boundary).length + 1) f (.partData .hyphen)
  | endBoundary {f : Flags} (hf : f.partBoundary = false) :
      Shows boundary .endBoundary ((delimiter boundary).length - 2 + 1) f .endBoundary
  | end_ {k : ℕ} {f : Flags} (hf : f.partBoundary = false) : Shows boundary .end_ k f .end_

variable {boundary data before : Bytes} {entry : Flags} {slot : Slot}

theorem Shows.length_held {k : ℕ} {f : Flags} {q : Phase}
    (h : Shows boundary .partData k f q) : (q.held boundary).length = k := by
  cases h with
  | upTo hf hk => exact List.length_take_of_le hk
  | cr hf => exact List.length_append
  | hyphen hf hl => exact List.length_append

theorem bytewise_callback (slot : Slot) (data : Bytes) (a b : ℕ) :
    (callback slot data a b).flatMap Callback.bytewise = each slot ((data.take b).drop a) := by
  unfold callback
  split_ifs with h
  · rw [h, List.drop_take_self]
    rfl
  · exact List.append_nil _

-- The chunk before is gone, but what was held of it can be told from the flags.
def Remembers (boundary : Bytes) (entry : Flags) (before : Bytes) : Prop :=
  ∀ slot, (lookbehind (delimiter boundary) entry slot before.length).flatMap Callback.bytewise =
    each slot before

theorem Shows.remembers {k : ℕ} {q : Phase} (h : Shows boundary .partData k entry q) :
    Remembers boundary entry (q.held boundary) := by
  intro slot
  rw [h.length_held]
  unfold lookbehind
  cases h with
  | upTo hf hk =>
      rw [if_pos hk, bytewise_callback]
      rfl
  | cr hf =>
      rw [if_neg (Nat.not_succ_le_self _), if_pos hf, bytewise_callback, List.drop_zero,
        List.take_length_add_append]
      rfl
  | hyphen hf hl =>
      rw [if_neg (Nat.not_succ_le_self _), hf, if_neg Bool.false_ne_true, if_pos hl,
        bytewise_callback, List.drop_zero, List.take_length_add_append]
      rfl

theorem remembers_nil : Remembers boundary entry [] := by
  intro slot
  have hle : ([] : Bytes).length ≤ (delimiter boundary).length := Nat.zero_le _
  unfold lookbehind
  rw [if_pos hle, bytewise_callback]
  rfl

-- The mark of a slot stands at `m` in what was held before the chunk and what has
-- been read of it. From there on it has not been called with: data, then what is
-- held now. Both reach back over the chunk's start only where all of it is held.
structure Owed (before read : Bytes) (marks : Slot → Option ℤ) (slot : Slot) (held text : Bytes)
    (m : ℕ) : Prop where
  marks : marks = only slot (m - before.length)
  edge : m = 0 ∨ before.length ≤ m
  le : m ≤ (before ++ read).length
  covers : (before ++ read).drop m = text ++ held
  crosses : text = [] ∨ held.length ≤ read.length

theorem emitted_owed {i m : ℕ} {marks : Slot → Option ℤ} {held text : Bytes}
    (hrem : Remembers boundary entry before) (hi : i ≤ data.length)
    (h : Owed before (data.take i) marks slot held text m) :
    (emitted (delimiter boundary) data entry slot (m - before.length) (i - held.length)).flatMap
      Callback.bytewise = each slot text := by
  have htake : (data.take i).length = i := List.length_take_of_le hi
  have hcovers := h.covers
  have hlen := congrArg List.length hcovers
  have hedge := h.edge
  have hle := h.le
  have hcrosses := h.crosses
  simp only [List.length_drop, List.length_append, htake] at hlen hle hcrosses
  generalize hb : ((i : ℤ) - held.length).toNat = b
  unfold emitted
  by_cases hnone : (i : ℤ) - held.length ≤ m - before.length
  · rw [if_pos hnone]
    have htext : text = [] := List.eq_nil_of_length_eq_zero (by omega)
    rw [htext]
    rfl
  rw [if_neg hnone]
  by_cases hmark : 0 ≤ (m : ℤ) - before.length
  · have hfrom : ((m : ℤ) - before.length).toNat = m - before.length := by omega
    have hcount : b - (m - before.length) = text.length := by omega
    rw [List.drop_append, List.drop_of_length_le (by omega), List.nil_append] at hcovers
    rw [if_pos hmark, hb, hfrom, bytewise_callback, ← Nat.min_eq_left (show b ≤ i by omega),
      ← List.take_take, List.drop_take, hcovers, hcount, List.take_left]
  · -- Something is called with, so what is held now does not reach back.
    have hm : m = 0 := by omega
    have hheld : held.length ≤ i := by
      rcases hcrosses with htext | hheld
      · rw [htext, List.length_nil] at hlen
        omega
      · exact hheld
    have htext : text = before ++ data.take b := by
      have hcount : text.length = before.length + b := by omega
      rw [hm, List.drop_zero] at hcovers
      have happ := congrArg (List.take text.length) hcovers
      rw [List.take_left, hcount, List.take_length_add_append, List.take_take,
        Nat.min_eq_left (by omega)] at happ
      exact happ.symm
    have hback : (-((m : ℤ) - before.length)).toNat = before.length := by omega
    have hdata : (if 0 < (i : ℤ) - held.length then callback slot data 0 b else []).flatMap
        Callback.bytewise = each slot (data.take b) := by
      split_ifs
      · exact bytewise_callback slot data 0 b
      · have hzero : b = 0 := by omega
        rw [hzero]
        rfl
    rw [if_neg hmark, hback, hb, List.flatMap_append, hrem slot, hdata, htext, each_append]

theorem update_only (slot : Slot) (v : ℤ) :
    Function.update (only slot v) slot none = fun _ => none := by
  rw [only, Function.update_idem]
  exact Function.update_eq_self slot _

theorem only_of_ne {s slot : Slot} (v : ℤ) (h : s ≠ slot) : only slot v s = none :=
  Function.update_of_ne h _ _

theorem dataCallback_of_none {l : Cursor} {end_ : ℤ} {remaining : Bool}
    (h : l.marks slot = none) :
    dataCallback (delimiter boundary) data entry slot end_ remaining l = l := by
  rw [dataCallback, h]

theorem dataCallback_of_only {l : Cursor} {v end_ : ℤ} (h : l.marks = only slot v) :
    dataCallback (delimiter boundary) data entry slot end_ false l =
      { l with
        called := l.called ++ emitted (delimiter boundary) data entry slot v end_
        marks := fun _ => none } := by
  have hmark : l.marks slot = some v := by
    rw [h]
    exact Function.update_self ..
  simp only [dataCallback, hmark, h, update_only, Bool.false_eq_true, if_false]

theorem dataCallback_remaining {l : Cursor} {v end_ : ℤ} (h : l.marks = only slot v) :
    dataCallback (delimiter boundary) data entry slot end_ true l =
      { l with
        called := l.called ++ emitted (delimiter boundary) data entry slot v end_
        marks := only slot (end_ - data.length) } := by
  have hmark : l.marks slot = some v := by
    rw [h]
    exact Function.update_self ..
  simp only [dataCallback, hmark, h, if_true, only, Function.update_idem]

-- More of the chunk is read.
theorem Owed.advance {i j m : ℕ} {marks : Slot → Option ℤ} {held held' text text' : Bytes}
    (h : Owed before (data.take i) marks slot held text m) (hij : i ≤ j) (hj : j ≤ data.length)
    (htext : text' ++ held' = text ++ held ++ segment data i j)
    (hcrosses : text' = [] ∨ held'.length ≤ j) :
    Owed before (data.take j) marks slot held' text' m := by
  have hsplit : data.take j = data.take i ++ segment data i j := by
    have hseg := segment_append (Nat.zero_le i) hij hj
    simpa [segment] using hseg
  refine ⟨h.marks, h.edge, ?_, ?_, ?_⟩
  · rw [hsplit, ← List.append_assoc, List.length_append]
    exact h.le.trans (Nat.le_add_right _ _)
  · rw [hsplit, ← List.append_assoc, List.drop_append_of_le_length h.le, h.covers, htext]
  · rw [List.length_take_of_le hj]
    exact hcrosses

-- What was held is data, so it is owed.
theorem Owed.release {read : Bytes} {m : ℕ} {marks : Slot → Option ℤ} {held text : Bytes}
    (h : Owed before read marks slot held text m) :
    Owed before read marks slot [] (text ++ held) m :=
  ⟨h.marks, h.edge, h.le, by rw [h.covers, List.append_nil], .inr (Nat.zero_le _)⟩

theorem Owed.fresh {i : ℕ} (slot : Slot) (hi : i ≤ data.length) :
    Owed before (data.take i) (only slot i) slot [] [] (before.length + i) := by
  have hlen : (before ++ data.take i).length = before.length + i := by
    rw [List.length_append, List.length_take_of_le hi]
  refine ⟨?_, .inr (Nat.le_add_right _ _), hlen.ge, ?_, .inl rfl⟩
  · congr 1
    omega
  · rw [List.drop_of_length_le hlen.le]
    rfl

-- A header of which no byte has been read has none to call with.
inductive Pending (boundary before read : Bytes) (marks : Slot → Option ℤ) (q : Phase) :
    List Callback → Prop
  | idle (hslot : q.slot = none) (hmarks : marks = fun _ => none) :
      Pending boundary before read marks q []
  | owed {slot : Slot} {text : Bytes} {m : ℕ} (hslot : q.slot = some slot)
      (h : Owed before read marks slot (q.held boundary) text m)
      (hfirst : q = .headerField true → text = []) :
      Pending boundary before read marks q (each slot text)

-- Where the loop stands: the reader's phase, and what the reader has called with
-- and the parser has not.
structure Mid (boundary data before : Bytes) (l : Cursor) (q : Phase) (owed : List Callback) :
    Prop where
  shows : Shows boundary l.state l.index l.flags q
  le : l.i ≤ data.length
  pending : Pending boundary before (data.take l.i) l.marks q owed

-- The loop has gone on to where the rest is read as before.
def Follows (boundary data before : Bytes) (l : Cursor) (q : Phase) (owed : List Callback)
    (l' : Cursor) : Prop :=
  ∃ q' owed' out, Mid boundary data before l' q' owed' ∧ l.i ≤ l'.i ∧
    run (feed boundary) q (data.drop l.i) =
      (run (feed boundary) q' (data.drop l'.i)).after (l'.i - l.i) out ∧
    l.called.flatMap Callback.bytewise ++ owed ++ out =
      l'.called.flatMap Callback.bytewise ++ owed'

theorem drop_of_getElem? {i : ℕ} {c : UInt8} (hc : data[i]? = some c) :
    data.drop i = c :: data.drop (i + 1) := by
  obtain ⟨hi, hget⟩ := List.getElem?_eq_some_iff.mp hc
  rw [List.drop_eq_getElem_cons hi, hget]

section Turn

variable {l l' : Cursor} {q q' : Phase} {owed owed' out : List Callback} {c : UInt8} {i : ℕ}
  {marks : Slot → Option ℤ} {called : List Callback}

-- A turn that takes the byte.
theorem Follows.of_taken (hc : data[l.i]? = some c) (hi : l'.i = l.i + 1)
    (hfeed : feed boundary q c = .ok (q', out))
    (hshows : Shows boundary l'.state l'.index l'.flags q')
    (hpending : Pending boundary before (data.take (l.i + 1)) l'.marks q' owed')
    (hcalled : l.called.flatMap Callback.bytewise ++ owed ++ out =
      l'.called.flatMap Callback.bytewise ++ owed') :
    Follows boundary data before l q owed l' := by
  have hlt : l.i < data.length := (List.getElem?_eq_some_iff.mp hc).1
  refine ⟨q', owed', out, ⟨hshows, ?_, ?_⟩, ?_, ?_, hcalled⟩
  · rw [hi]
    exact hlt
  · rw [hi]
    exact hpending
  · omega
  · rw [drop_of_getElem? hc, run_cons_ok hfeed, hi, Nat.add_sub_cancel_left]

-- A turn that leaves the byte to another state.
theorem Follows.of_left (hc : data[l.i]? = some c) (hi : l'.i = l.i)
    (hfeed : feed boundary q c = (feed boundary q' c).map fun r => (r.1, out ++ r.2))
    (hshows : Shows boundary l'.state l'.index l'.flags q')
    (hpending : Pending boundary before (data.take l.i) l'.marks q' owed')
    (hcalled : l.called.flatMap Callback.bytewise ++ owed ++ out =
      l'.called.flatMap Callback.bytewise ++ owed') :
    Follows boundary data before l q owed l' := by
  have hlt : l.i < data.length := (List.getElem?_eq_some_iff.mp hc).1
  refine ⟨q', owed', out, ⟨hshows, ?_, ?_⟩, ?_, ?_, hcalled⟩
  · rw [hi]
    exact hlt.le
  · rw [hi]
    exact hpending
  · rw [hi]
  · rw [hi, Nat.sub_self, drop_of_getElem? hc]
    cases hnext : feed boundary q' c with
    | error e =>
        have herror : feed boundary q c = .error e := by
          rw [hfeed, hnext]
          rfl
        rw [run_cons_error hnext, run_cons_error herror]
        rfl
    | ok r =>
        rcases r with ⟨q₁, out₁⟩
        have hok : feed boundary q c = .ok (q₁, out ++ out₁) := by
          rw [hfeed, hnext]
          rfl
        rw [run_cons_ok hnext, run_cons_ok hok, Transducer.Result.after_after, Nat.zero_add]

theorem Pending.of_idle {read : Bytes} {marks : Slot → Option ℤ}
    (h : Pending boundary before read marks q owed) (hslot : q.slot = none) :
    marks = (fun _ => none) ∧ owed = [] := by
  cases h with
  | idle _ hmarks => exact ⟨hmarks, rfl⟩
  | owed hslot' _ _ => simp [hslot] at hslot'

theorem Pending.of_owed {read : Bytes} {marks : Slot → Option ℤ}
    (h : Pending boundary before read marks q owed) (hslot : q.slot = some slot) :
    ∃ text m, owed = each slot text ∧ Owed before read marks slot (q.held boundary) text m ∧
      (q = .headerField true → text = []) := by
  cases h with
  | idle hslot' _ => simp [hslot] at hslot'
  | owed hslot' h hfirst =>
      obtain rfl := Option.some.inj (hslot'.symm.trans hslot)
      exact ⟨_, _, rfl, h, hfirst⟩

-- The callback for what is owed of a slot whose data ends here.
theorem flatMap_closed {m : ℕ} {end_ : ℤ} {held text : Bytes}
    (hrem : Remembers boundary entry before) (hi : i ≤ data.length)
    (h : Owed before (data.take i) marks slot held text m) (hend : end_ = i - held.length) :
    (called ++ emitted (delimiter boundary) data entry slot (m - before.length) end_).flatMap
        Callback.bytewise = called.flatMap Callback.bytewise ++ each slot text := by
  rw [List.flatMap_append, hend, emitted_owed hrem hi h]

-- One more byte of a header, of which nothing is held.
theorem Owed.byte {m : ℕ} {text : Bytes} (h : Owed before (data.take i) marks slot [] text m)
    (hc : data[i]? = some c) :
    Owed before (data.take (i + 1)) marks slot [] (text ++ [c]) m := by
  have hlt : i < data.length := (List.getElem?_eq_some_iff.mp hc).1
  apply h.advance (Nat.le_succ i) hlt
  · rw [segment_single hc, List.append_nil, List.append_nil]
  · exact .inr (Nat.zero_le _)

-- A turn of the loop fails as the reader does, or goes on as it does.
def Turn (boundary data before : Bytes) (entry : Flags) (l : Cursor) (q : Phase)
    (owed : List Callback) (c : UInt8) : Prop :=
  (∃ e, body (delimiter boundary) data entry c l = .error (e, l.i) ∧ feed boundary q c = .error e) ∨
    ∃ l', body (delimiter boundary) data entry c l = .ok l' ∧ Follows boundary data before l q owed l'

theorem Turn.of_taken (hmid : Mid boundary data before l q owed) (hc : data[l.i]? = some c)
    (hfeed : feed boundary q c = .ok (q', out))
    (hbody : body (delimiter boundary) data entry c l = .ok l')
    (hshows : Shows boundary l'.state l'.index l'.flags q')
    (hslot : q.slot = none) (hslot' : q'.slot = none) (hi : l'.i = l.i + 1)
    (hmarks : l'.marks = l.marks) (hcalled : l'.called = l.called ++ out)
    (hout : out.flatMap Callback.bytewise = out) : Turn boundary data before entry l q owed c := by
  obtain ⟨hnone, rfl⟩ := hmid.pending.of_idle hslot
  refine .inr ⟨l', hbody, .of_taken hc hi hfeed hshows (.idle hslot' (hmarks.trans hnone)) ?_⟩
  rw [hcalled, List.flatMap_append, hout, List.append_nil, List.append_nil]

theorem map_nil_append (r : Except Fault (Phase × List Callback)) :
    (r.map fun r => (r.1, [] ++ r.2)) = r := by
  cases r <;> rfl

end Turn

end WageFix.Multipart
