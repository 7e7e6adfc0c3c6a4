import Mathlib.Data.List.Basic

-- A loop over the items of a stream. It ends at the first item that stops it,
-- and emits something for some of the others.
namespace Reader

variable {α β : Type*} (stops : α → Prop) [DecidablePred stops] (emit : α → Option β)

def emitted (items : List α) : List β :=
  (items.takeWhile fun item => ¬ stops item).filterMap emit

-- Nothing that would be emitted comes after an item that stops the loop.
def Unblocked (items : List α) : Prop :=
  items.Pairwise fun earlier later => stops earlier → emit later = none

-- One item of a stream into which others have been inserted, none of which
-- emits anything.
structure Slot where
  item : α
  inserted : Bool
  silent : inserted = true → emit item = none

variable {emit}

def full (slots : List (Slot emit)) : List α := slots.map (·.item)

def kept (slots : List (Slot emit)) : List α :=
  (slots.filter fun slot => ¬ slot.inserted).map (·.item)

-- The slots before the first item of the original stream that stops the loop.
def beforeKeptStop (slots : List (Slot emit)) : List (Slot emit) :=
  slots.takeWhile fun slot => slot.inserted ∨ ¬ stops slot.item

variable {stops}

theorem filterMap_cons_toList (item : α) (items : List α) :
    (item :: items).filterMap emit = (emit item).toList ++ items.filterMap emit := by
  cases h : emit item with
  | none => rw [List.filterMap_cons_none h, Option.toList_none, List.nil_append]
  | some b => rw [List.filterMap_cons_some h, Option.toList_some, List.singleton_append]

theorem emitted_cons_of_stops {item : α} (items : List α) (h : stops item) :
    emitted stops emit (item :: items) = [] := by
  simp [emitted, h]

theorem emitted_cons_of_not_stops {item : α} (items : List α) (h : ¬ stops item) :
    emitted stops emit (item :: items) = (emit item).toList ++ emitted stops emit items := by
  rw [emitted, List.takeWhile_cons_of_pos (by simpa using h), filterMap_cons_toList]
  rfl

-- Everything is emitted that could be, exactly where nothing comes too late.
theorem emitted_eq_filterMap_iff (hstops : ∀ item, stops item → emit item = none)
    (items : List α) :
    emitted stops emit items = items.filterMap emit ↔ Unblocked stops emit items := by
  induction items with
  | nil => simp [emitted, Unblocked]
  | cons item items ih =>
      rw [Unblocked, List.pairwise_cons, ← Unblocked, filterMap_cons_toList]
      by_cases h : stops item
      · rw [emitted_cons_of_stops items h, hstops item h, Option.toList_none, List.nil_append,
          eq_comm, List.filterMap_eq_nil_iff]
        constructor
        · intro hnone
          refine ⟨fun later hl _ => hnone later hl, ?_⟩
          exact List.pairwise_of_forall_mem_list fun _ _ later hl _ => hnone later hl
        · exact fun hun later hl => hun.1 later hl h
      · rw [emitted_cons_of_not_stops items h, List.append_cancel_left_eq, ih]
        exact (and_iff_right fun later _ hs => absurd hs h).symm

section Insertion

variable {slot : Slot emit}

theorem kept_cons_of_inserted (slots : List (Slot emit)) (h : slot.inserted = true) :
    kept (slot :: slots) = kept slots := by
  simp [kept, h]

theorem kept_cons_of_not_inserted (slots : List (Slot emit)) (h : ¬ slot.inserted = true) :
    kept (slot :: slots) = slot.item :: kept slots := by
  simp [kept, h]

theorem beforeKeptStop_cons (slots : List (Slot emit))
    (h : slot.inserted = true ∨ ¬ stops slot.item) :
    beforeKeptStop stops (slot :: slots) = slot :: beforeKeptStop stops slots :=
  List.takeWhile_cons_of_pos (decide_eq_true h)

theorem beforeKeptStop_cons_of_stops (slots : List (Slot emit)) (h : ¬ slot.inserted = true)
    (hs : stops slot.item) : beforeKeptStop stops (slot :: slots) = [] :=
  List.takeWhile_cons_of_neg (by simp [h, hs])

theorem emitted_kept (slots : List (Slot emit)) :
    emitted stops emit (kept slots) = (full (beforeKeptStop stops slots)).filterMap emit := by
  induction slots with
  | nil => rfl
  | cons slot slots ih =>
      by_cases hi : slot.inserted = true
      · rw [kept_cons_of_inserted slots hi, beforeKeptStop_cons slots (.inl hi), full,
          List.map_cons, filterMap_cons_toList, slot.silent hi]
        exact ih
      · rw [kept_cons_of_not_inserted slots hi]
        by_cases hs : stops slot.item
        · rw [emitted_cons_of_stops _ hs, beforeKeptStop_cons_of_stops slots hi hs]
          rfl
        · rw [emitted_cons_of_not_stops _ hs, beforeKeptStop_cons slots (.inr hs), full,
            List.map_cons, filterMap_cons_toList, ih]
          rfl

theorem emitted_full (slots : List (Slot emit)) :
    emitted stops emit (full slots) = emitted stops emit (full (beforeKeptStop stops slots)) := by
  induction slots with
  | nil => rfl
  | cons slot slots ih =>
      by_cases hs : stops slot.item
      · have hfull : emitted stops emit (full (slot :: slots)) = [] := emitted_cons_of_stops _ hs
        rw [hfull]
        by_cases hi : slot.inserted = true
        · rw [beforeKeptStop_cons slots (.inl hi)]
          exact (emitted_cons_of_stops _ hs).symm
        · rw [beforeKeptStop_cons_of_stops slots hi hs]
          rfl
      · have hfull : emitted stops emit (full (slot :: slots)) =
            (emit slot.item).toList ++ emitted stops emit (full slots) :=
          emitted_cons_of_not_stops _ hs
        rw [hfull, ih, beforeKeptStop_cons slots (.inr hs)]
        exact (emitted_cons_of_not_stops _ hs).symm

-- Inserting silent items changes nothing exactly where none of them stops the
-- loop before something that the original stream emits.
theorem emitted_full_eq_kept_iff (hstops : ∀ item, stops item → emit item = none)
    (slots : List (Slot emit)) :
    emitted stops emit (full slots) = emitted stops emit (kept slots) ↔
      Unblocked stops emit (full (beforeKeptStop stops slots)) := by
  rw [emitted_full, emitted_kept]
  exact emitted_eq_filterMap_iff hstops _

end Insertion

end Reader
