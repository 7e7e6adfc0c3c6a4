import Mathlib.Data.Set.Card
import Mathlib.Algebra.BigOperators.Group.Finset.Basic
import Mathlib.Logic.Function.Basic

-- Things with one owner each, and how many of them an owner has.
namespace Registry

variable {ι α : Type*}

noncomputable def held (owners : ι → α) (a : α) : ℕ := {i | owners i = a}.ncard

variable [Finite ι] [DecidableEq α]

-- Apart from the one thing that changes hands, both sides own the same.
theorem held_eq_add (owners : ι → α) (i : ι) (a : α) :
    held owners a = ({j | owners j = a} \ {i}).ncard + if owners i = a then 1 else 0 := by
  by_cases h : owners i = a
  · have hmem : i ∈ {j | owners j = a} := h
    rw [if_pos h, Set.ncard_sdiff_singleton_add_one hmem]
    rfl
  · have hmem : i ∉ {j | owners j = a} := h
    rw [if_neg h, Set.sdiff_singleton_eq_self hmem]
    rfl

theorem held_update [DecidableEq ι] (owners : ι → α) (i : ι) (b a : α) :
    held (Function.update owners i b) a + (if owners i = a then 1 else 0) =
      held owners a + if b = a then 1 else 0 := by
  have hrest : {j | Function.update owners i b j = a} \ {i} = {j | owners j = a} \ {i} := by
    ext j
    by_cases hj : j = i
    · simp [hj]
    · simp [hj]
  have hafter := held_eq_add (Function.update owners i b) i a
  rw [Function.update_self, hrest] at hafter
  have hbefore := held_eq_add owners i a
  omega

omit [DecidableEq α] in
theorem held_le (owners : ι → α) {a z : α} (ha : a ≠ z) :
    held owners a ≤ {i | owners i ≠ z}.ncard := by
  refine Set.ncard_le_ncard ?_ (Set.toFinite _)
  intro i hi hz
  exact ha (hi.symm.trans hz)

-- Everybody's things together are all that somebody owns.
theorem sum_held [Fintype α] (owners : ι → α) (z : α) :
    ∑ a ∈ Finset.univ.erase z, held owners a = {i | owners i ≠ z}.ncard := by
  have := Fintype.ofFinite ι
  have hfiber : ∀ a, held owners a = (Finset.univ.filter fun i => owners i = a).card := by
    intro a
    rw [held, ← Set.ncard_coe_finset]
    simp
  have hall : {i | owners i ≠ z}.ncard = (Finset.univ.filter fun i => owners i ≠ z).card := by
    rw [← Set.ncard_coe_finset]
    simp
  rw [hall, Finset.card_eq_sum_card_fiberwise (f := owners) (t := Finset.univ.erase z)]
  · apply Finset.sum_congr rfl
    intro a ha
    rw [hfiber, Finset.filter_filter]
    congr 1
    ext i
    have hne := Finset.ne_of_mem_erase ha
    simp only [Finset.mem_filter, Finset.mem_univ, true_and]
    constructor
    · intro hi
      exact ⟨fun hz => hne (hi.symm.trans hz), hi⟩
    · exact fun hi => hi.2
  · intro i hi
    have hne := (Finset.mem_filter.mp hi).2
    exact Finset.mem_coe.mpr (Finset.mem_erase.mpr ⟨hne, Finset.mem_univ _⟩)

end Registry
