import Mathlib.Data.List.Infix

-- A text searched for a pattern one letter at a time, with what has been read
-- of the pattern held back. It suits patterns whose first letter comes only
-- once, where a match that breaks off leaves nothing but a new start.
namespace Matcher

variable {α : Type*} [DecidableEq α]

def enter (pat : List α) (c : α) : ℕ × List α :=
  if pat.head? = some c then (1, []) else (0, [c])

-- With the first `k` letters of the pattern held: how many are held after `c`,
-- and what is let go.
def step (pat : List α) (k : ℕ) (c : α) : ℕ × List α :=
  if pat[k]? = some c then (k + 1, [])
  else ((enter pat c).1, pat.take k ++ (enter pat c).2)

def run (pat : List α) : ℕ → List α → ℕ × List α
  | k, [] => (k, [])
  | k, c :: s =>
      ((run pat (step pat k c).1 s).1, (step pat k c).2 ++ (run pat (step pat k c).1 s).2)

variable {pat : List α} {k : ℕ} {c : α} {s : List α}

theorem enter_text (pat : List α) (c : α) :
    (enter pat c).2 ++ pat.take (enter pat c).1 = [c] := by
  rw [enter]
  split_ifs with h
  · obtain ⟨t, rfl⟩ := List.head?_eq_some_iff.mp h
    rfl
  · rfl

theorem step_of_eq (h : pat[k]? = some c) : step pat k c = (k + 1, []) := if_pos h

theorem step_of_ne (h : pat[k]? ≠ some c) :
    step pat k c = ((enter pat c).1, pat.take k ++ (enter pat c).2) := if_neg h

theorem step_zero (pat : List α) (c : α) : step pat 0 c = enter pat c := by
  rw [step, ← List.head?_eq_getElem?, enter]
  split_ifs <;> rfl

-- What is let go and what is held are what has been read.
theorem step_text (pat : List α) (k : ℕ) (c : α) :
    (step pat k c).2 ++ pat.take (step pat k c).1 = pat.take k ++ [c] := by
  by_cases h : pat[k]? = some c
  · rw [step_of_eq h, List.nil_append, List.take_add_one, h, Option.toList_some]
  · rw [step_of_ne h, List.append_assoc, enter_text]

theorem run_text (pat : List α) (k : ℕ) (s : List α) :
    (run pat k s).2 ++ pat.take (run pat k s).1 = pat.take k ++ s := by
  induction s generalizing k with
  | nil => rw [run, List.nil_append, List.append_nil]
  | cons c s ih =>
      rw [run, List.append_assoc, ih, ← List.append_assoc, step_text, List.append_assoc,
        List.singleton_append]

theorem enter_le (h : pat ≠ []) (c : α) : (enter pat c).1 ≤ pat.length := by
  have hpos := List.length_pos_iff.mpr h
  rw [enter]
  split_ifs
  · exact hpos
  · exact Nat.zero_le _

theorem step_le (h : pat ≠ []) (k : ℕ) (c : α) : (step pat k c).1 ≤ pat.length := by
  by_cases hk : pat[k]? = some c
  · rw [step_of_eq hk]
    exact (List.getElem?_eq_some_iff.mp hk).1
  · rw [step_of_ne hk]
    exact enter_le h c

-- The pattern is held as a whole only where it stands in the text.
theorem step_lt (h : pat ≠ []) (hfree : ¬ pat <:+: pat.take k ++ [c]) :
    (step pat k c).1 < pat.length := by
  rcases Nat.lt_or_eq_of_le (step_le h k c) with hlt | heq
  · exact hlt
  · refine absurd ?_ hfree
    have htext := step_text pat k c
    rw [heq, List.take_length] at htext
    rw [← htext]
    exact (List.suffix_append _ _).isInfix

theorem free_step (hfree : ¬ pat <:+: pat.take k ++ c :: s) :
    ¬ pat <:+: pat.take (step pat k c).1 ++ s := by
  intro hin
  apply hfree
  rw [← List.singleton_append, ← List.append_assoc, ← step_text, List.append_assoc]
  exact hin.trans (List.suffix_append _ _).isInfix

omit [DecidableEq α] in
theorem free_letter (hfree : ¬ pat <:+: pat.take k ++ c :: s) :
    ¬ pat <:+: pat.take k ++ [c] := by
  intro hin
  apply hfree
  rw [← List.singleton_append, ← List.append_assoc]
  exact hin.trans (List.prefix_append _ _).isInfix

theorem run_lt (h : pat ≠ []) (hk : k < pat.length) (hfree : ¬ pat <:+: pat.take k ++ s) :
    (run pat k s).1 < pat.length := by
  induction s generalizing k with
  | nil => exact hk
  | cons c s ih => exact ih (step_lt h (free_letter hfree)) (free_step hfree)

theorem run_append (pat : List α) (k : ℕ) (s s' : List α) :
    run pat k (s ++ s') =
      ((run pat (run pat k s).1 s').1, (run pat k s).2 ++ (run pat (run pat k s).1 s').2) := by
  induction s generalizing k with
  | nil => simp [run]
  | cons c s ih => simp [run, ih]

section Single

variable {h : α} {t : List α}

omit [DecidableEq α] in
theorem getElem?_ne_head (hh : h ∉ t) (hk : 0 < k) : (h :: t)[k]? ≠ some h := by
  intro heq
  rcases k with _ | k
  · exact absurd hk (Nat.lt_irrefl 0)
  · exact hh (List.mem_of_getElem? heq)

-- The first letter of the pattern lets go of whatever is held.
theorem step_head (hh : h ∉ t) (k : ℕ) : step (h :: t) k h = (1, (h :: t).take k) := by
  rcases Nat.eq_zero_or_pos k with rfl | hk
  · exact step_of_eq rfl
  · have henter : enter (h :: t) h = (1, []) := if_pos rfl
    rw [step_of_ne (getElem?_ne_head hh hk), henter, List.append_nil]

theorem run_drop (hk : k ≤ pat.length) : run pat k (pat.drop k) = (pat.length, []) := by
  generalize hs : pat.drop k = s
  induction s generalizing k with
  | nil =>
      have hle := List.drop_eq_nil_iff.mp hs
      rw [run, Nat.le_antisymm hk hle]
  | cons c s ih =>
      have hc : pat[k]? = some c := by
        rw [← List.head?_drop, hs, List.head?_cons]
      have hlt : k < pat.length := (List.getElem?_eq_some_iff.mp hc).1
      have htail : pat.drop (k + 1) = s := by
        rw [← List.tail_drop, hs, List.tail_cons]
      rw [run, step_of_eq hc, ih hlt htail]
      rfl

theorem run_pattern (hh : h ∉ t) (k : ℕ) :
    run (h :: t) k (h :: t) = ((h :: t).length, (h :: t).take k) := by
  have hrest : run (h :: t) 1 t = ((h :: t).length, []) := run_drop (Nat.le_add_left 1 t.length)
  rw [run, step_head hh, hrest, List.append_nil]

theorem run_found (hh : h ∉ t) (s : List α) :
    run (h :: t) 0 (s ++ h :: t) = ((h :: t).length, s) := by
  have htext := run_text (h :: t) 0 s
  rw [List.take_zero, List.nil_append] at htext
  rw [run_append, run_pattern hh, htext]

theorem run_head (hh : h ∉ t) (s : List α) : run (h :: t) 0 (s ++ [h]) = (1, s) := by
  have htext := run_text (h :: t) 0 s
  rw [List.take_zero, List.nil_append] at htext
  rw [run_append, run, step_head hh, run, List.append_nil, htext]

-- Nothing is held at the end of a text that does not have the pattern, and whose
-- last letters, as many as those of the pattern, do not have its first.
theorem run_missed (hfree : ¬ (h :: t) <:+: s) (hlast : h ∉ s.drop (s.length - (h :: t).length)) :
    run (h :: t) 0 s = (0, s) := by
  have htext := run_text (h :: t) 0 s
  have hlt : (run (h :: t) 0 s).1 < (h :: t).length :=
    run_lt (List.cons_ne_nil h t) (Nat.succ_pos _) hfree
  rw [List.take_zero, List.nil_append] at htext
  generalize run (h :: t) 0 s = r at htext hlt
  rcases r with ⟨k, out⟩
  rcases k with _ | k
  · rw [List.take_zero, List.append_nil] at htext
    rw [← htext]
  · -- The held letters begin with the first of the pattern and are fewer than its length.
    refine absurd ?_ hlast
    have hlen : ((h :: t).take (k + 1)).length ≤ (h :: t).length := List.length_take_le' _ _
    rw [← htext, List.length_append, List.drop_append]
    apply List.mem_append_right
    have hdrop :
        out.length + ((h :: t).take (k + 1)).length - (h :: t).length - out.length = 0 := by
      omega
    rw [hdrop, List.drop_zero]
    exact List.mem_cons_self

end Single

end Matcher
