import Mathlib.Logic.Function.Basic
import Mathlib.Data.List.Induction

-- A store of values under keys, which a write replaces.
abbrev Store (κ β : Type*) := κ → Option β

namespace Store

variable {κ β : Type*} [DecidableEq κ]

def put (s : Store κ β) (w : κ × β) : Store κ β := Function.update s w.1 (some w.2)

def putAll (s : Store κ β) (ws : List (κ × β)) : Store κ β := ws.foldl put s

def lastAt (k : κ) (ws : List (κ × β)) : Option β :=
  ws.foldl (fun last w => if w.1 = k then some w.2 else last) none

section Writes

variable {s : Store κ β} {k : κ} {ws : List (κ × β)}

theorem put_apply (s : Store κ β) (w : κ × β) (k : κ) :
    s.put w k = if w.1 = k then some w.2 else s k := by
  unfold put
  by_cases h : w.1 = k
  · rw [if_pos h, h, Function.update_self]
  · rw [if_neg h, Function.update_of_ne (Ne.symm h)]

theorem putAll_append (s : Store κ β) (ws ws' : List (κ × β)) :
    s.putAll (ws ++ ws') = (s.putAll ws).putAll ws' := List.foldl_append

theorem lastAt_append_singleton (k : κ) (ws : List (κ × β)) (w : κ × β) :
    lastAt k (ws ++ [w]) = if w.1 = k then some w.2 else lastAt k ws := by
  simp only [lastAt, List.foldl_append, List.foldl_cons, List.foldl_nil]

theorem putAll_apply (s : Store κ β) (ws : List (κ × β)) (k : κ) :
    s.putAll ws k = (lastAt k ws).or (s k) := by
  induction ws using List.reverseRecOn with
  | nil => rfl
  | append_singleton ws w ih =>
      rw [putAll_append, lastAt_append_singleton]
      show (s.putAll ws).put w k = _
      rw [put_apply, ih]
      split_ifs <;> rfl

theorem lastAt_of_not_written (h : ∀ w ∈ ws, w.1 ≠ k) : lastAt k ws = none := by
  induction ws using List.reverseRecOn with
  | nil => rfl
  | append_singleton ws w ih =>
      have hw : w.1 ≠ k := h w (List.mem_append_right _ (List.mem_singleton_self w))
      rw [lastAt_append_singleton, if_neg hw]
      exact ih fun w' hw' => h w' (List.mem_append_left _ hw')

theorem putAll_of_not_written (h : ∀ w ∈ ws, w.1 ≠ k) : s.putAll ws k = s k := by
  rw [putAll_apply, lastAt_of_not_written h, Option.none_or]

theorem lastAt_ne_none_of_written {w : κ × β} (hw : w ∈ ws) : lastAt w.1 ws ≠ none := by
  induction ws using List.reverseRecOn with
  | nil => exact absurd hw List.not_mem_nil
  | append_singleton ws last ih =>
      rw [lastAt_append_singleton]
      split_ifs with hlast
      · exact Option.some_ne_none last.2
      · rcases List.mem_append.mp hw with hw | hw
        · exact ih hw
        · exact absurd (congrArg Prod.fst (List.mem_singleton.mp hw).symm) hlast

theorem mem_of_lastAt {b : β} (h : lastAt k ws = some b) : (k, b) ∈ ws := by
  induction ws using List.reverseRecOn with
  | nil => cases h
  | append_singleton ws w ih =>
      rw [lastAt_append_singleton] at h
      split_ifs at h with hw
      · cases h
        rw [← hw]
        exact List.mem_append_right _ (List.mem_singleton_self w)
      · exact List.mem_append_left _ (ih h)

-- Two writes leave a store as it was exactly where it had what stays of them.
theorem put_put_eq_self_iff {w w' : κ × β} :
    (s.put w).put w' = s ↔ (w.1 ≠ w'.1 → s w.1 = some w.2) ∧ s w'.1 = some w'.2 := by
  constructor
  · intro h
    have hleft : ∀ k, ((s.put w).put w') k = s k := congrFun h
    simp only [put_apply] at hleft
    constructor
    · intro hne
      have hfirst := hleft w.1
      rw [if_neg (Ne.symm hne), if_pos rfl] at hfirst
      exact hfirst.symm
    · have hlast := hleft w'.1
      rw [if_pos rfl] at hlast
      exact hlast.symm
  · rintro ⟨hfirst, hlast⟩
    funext k
    rw [put_apply, put_apply]
    split_ifs with hk' hk
    · rw [← hk', hlast]
    · rw [← hk]
      exact (hfirst fun heq => hk' (heq.symm.trans hk)).symm
    · rfl

theorem put_eq_self_iff {w : κ × β} : s.put w = s ↔ s w.1 = some w.2 := by
  rw [put, Function.update_eq_self_iff]
  exact eq_comm

-- No store loses what it has under a key exactly where nothing is written there.
theorem putAll_kept_iff : (∀ s : Store κ β, s.putAll ws k = s k) ↔ ∀ w ∈ ws, w.1 ≠ k := by
  constructor
  · rintro hkept w hw rfl
    have hlast := hkept fun _ => none
    rw [putAll_apply, Option.or_none] at hlast
    exact lastAt_ne_none_of_written hw hlast
  · exact fun h s => putAll_of_not_written h

-- A value stays exactly where every later write to its key repeats it.
theorem putAll_eq_some_iff {b : β} (h : s k = some b) :
    s.putAll ws k = some b ↔ ∀ c, lastAt k ws = some c → c = b := by
  rw [putAll_apply, h]
  cases lastAt k ws with
  | none => simp
  | some c => simp

end Writes

end Store
