import Mathlib.Algebra.Order.Ring.Nat
import Mathlib.Algebra.Order.Ring.Int
import Mathlib.Algebra.BigOperators.Group.List.Basic
import Mathlib.Algebra.Order.BigOperators.Group.List
import Mathlib.Algebra.Order.Group.Int

namespace Transition

variable {σ ℓ : Type*}

-- A step function refuses a label with `none`. A refused label leaves the
-- state as it was.
def attempt (step : σ → ℓ → Option σ) (s : σ) (l : ℓ) : σ := (step s l).getD s

-- A schedule in which refused labels are passed over.
def replay (step : σ → ℓ → Option σ) (s : σ) (ls : List ℓ) : σ := ls.foldl (attempt step) s

def runAll (step : σ → ℓ → Option σ) : σ → List ℓ → Option σ
  | s, [] => some s
  | s, l :: ls => (step s l).bind fun t => runAll step t ls

def trace (step : σ → ℓ → Option σ) : σ → List ℓ → List (σ × ℓ)
  | _, [] => []
  | s, l :: ls => (s, l) :: trace step (attempt step s l) ls

section Replay

variable {step : σ → ℓ → Option σ}

theorem attempt_of_some {s t : σ} {l : ℓ} (h : step s l = some t) : attempt step s l = t := by
  simp [attempt, h]

theorem attempt_of_none {s : σ} {l : ℓ} (h : step s l = none) : attempt step s l = s := by
  simp [attempt, h]

@[simp] theorem replay_nil (s : σ) : replay step s [] = s := rfl

@[simp] theorem replay_cons (s : σ) (l : ℓ) (ls : List ℓ) :
    replay step s (l :: ls) = replay step (attempt step s l) ls := rfl

@[simp] theorem trace_nil (s : σ) : trace step s [] = [] := rfl

@[simp] theorem trace_cons (s : σ) (l : ℓ) (ls : List ℓ) :
    trace step s (l :: ls) = (s, l) :: trace step (attempt step s l) ls := rfl

theorem mem_trace {s : σ} {ls : List ℓ} {p : σ × ℓ} (hp : p ∈ trace step s ls) :
    ∃ before after, ls = before ++ p.2 :: after ∧ p.1 = replay step s before := by
  induction ls generalizing s with
  | nil => simp at hp
  | cons l ls ih =>
      rcases List.mem_cons.mp hp with rfl | hp
      · exact ⟨[], ls, rfl, rfl⟩
      · obtain ⟨before, after, hls, hs⟩ := ih hp
        exact ⟨l :: before, after, by rw [hls, List.cons_append], hs⟩

theorem mem_of_mem_trace {s : σ} {ls : List ℓ} {p : σ × ℓ} (hp : p ∈ trace step s ls) :
    p.2 ∈ ls := by
  obtain ⟨before, after, rfl, -⟩ := mem_trace hp
  simp

end Replay

section Invariant

variable {step : σ → ℓ → Option σ} {I : σ → Prop}

theorem attempt_invariant (hstep : ∀ s l t, I s → step s l = some t → I t)
    {s : σ} (hs : I s) (l : ℓ) : I (attempt step s l) := by
  cases h : step s l with
  | none => rwa [attempt_of_none h]
  | some t => rw [attempt_of_some h]; exact hstep s l t hs h

theorem replay_invariant (hstep : ∀ s l t, I s → step s l = some t → I t)
    {s : σ} (hs : I s) (ls : List ℓ) : I (replay step s ls) := by
  induction ls generalizing s with
  | nil => exact hs
  | cons l ls ih => exact ih (attempt_invariant hstep hs l)

theorem replay_invariant_of_mem {P : ℓ → Prop}
    (hstep : ∀ s l t, P l → I s → step s l = some t → I t)
    {s : σ} (hs : I s) {ls : List ℓ} (hls : ∀ l ∈ ls, P l) : I (replay step s ls) := by
  induction ls generalizing s with
  | nil => exact hs
  | cons l ls ih =>
      have hl : P l := hls l List.mem_cons_self
      apply ih
      · cases h : step s l with
        | none => rwa [attempt_of_none h]
        | some t => rw [attempt_of_some h]; exact hstep s l t hl hs h
      · exact fun l' hl' => hls l' (List.mem_cons_of_mem _ hl')

theorem trace_invariant (hstep : ∀ s l t, I s → step s l = some t → I t)
    {s : σ} (hs : I s) {ls : List ℓ} {p : σ × ℓ} (hp : p ∈ trace step s ls) : I p.1 := by
  obtain ⟨before, after, -, h⟩ := mem_trace hp
  rw [h]
  exact replay_invariant hstep hs before

-- What lasts once it holds has come about at one of the steps.
theorem replay_iff_exists_onset {P : σ → Prop} (hI : ∀ s l t, I s → step s l = some t → I t)
    (hlast : ∀ s l, I s → P s → P (attempt step s l)) {s : σ} (hs : I s) (ls : List ℓ) :
    P (replay step s ls) ↔
      P s ∨ ∃ p ∈ trace step s ls, ¬ P p.1 ∧ P (attempt step p.1 p.2) := by
  induction ls generalizing s with
  | nil => simp
  | cons l ls ih =>
      rw [replay_cons, trace_cons, ih (attempt_invariant hI hs l), List.exists_mem_cons_iff]
      by_cases h : P s
      · simp [h, hlast s l hs h]
      · simp [h]

end Invariant

section RunAll

variable {step : σ → ℓ → Option σ}

@[simp] theorem runAll_nil (s : σ) : runAll step s [] = some s := rfl

theorem runAll_cons (s : σ) (l : ℓ) (ls : List ℓ) :
    runAll step s (l :: ls) = (step s l).bind fun t => runAll step t ls := rfl

theorem runAll_cons_eq_some {s t : σ} {l : ℓ} {ls : List ℓ} :
    runAll step s (l :: ls) = some t ↔ ∃ m, step s l = some m ∧ runAll step m ls = some t := by
  simp [runAll_cons, Option.bind_eq_some_iff]

theorem runAll_append (s : σ) (ls ls' : List ℓ) :
    runAll step s (ls ++ ls') = (runAll step s ls).bind fun t => runAll step t ls' := by
  induction ls generalizing s with
  | nil => rfl
  | cons l ls ih =>
      simp only [List.cons_append, runAll_cons, Option.bind_assoc, ih]

theorem runAll_append_eq_some {s t : σ} {ls ls' : List ℓ} :
    runAll step s (ls ++ ls') = some t ↔
      ∃ m, runAll step s ls = some m ∧ runAll step m ls' = some t := by
  simp [runAll_append, Option.bind_eq_some_iff]

theorem replay_of_runAll {s t : σ} {ls : List ℓ} (h : runAll step s ls = some t) :
    replay step s ls = t := by
  induction ls generalizing s with
  | nil => exact Option.some.inj h
  | cons l ls ih =>
      obtain ⟨m, hm, ht⟩ := runAll_cons_eq_some.mp h
      rw [replay_cons, attempt_of_some hm]
      exact ih ht

theorem runAll_invariant_of_mem {I : σ → Prop} {P : ℓ → Prop}
    (hstep : ∀ s l t, P l → I s → step s l = some t → I t)
    {s t : σ} {ls : List ℓ} (hs : I s) (hls : ∀ l ∈ ls, P l) (h : runAll step s ls = some t) :
    I t := by
  rw [← replay_of_runAll h]
  exact replay_invariant_of_mem hstep hs hls

theorem runAll_trace {I : σ → Prop} (hstep : ∀ s l t, I s → step s l = some t → I t)
    {s t : σ} {ls : List ℓ} (hs : I s) (h : runAll step s ls = some t) :
    ∀ p ∈ trace step s ls, I p.1 ∧ ∃ u, step p.1 p.2 = some u := by
  induction ls generalizing s with
  | nil => simp
  | cons l ls ih =>
      obtain ⟨m, hm, hrest⟩ := runAll_cons_eq_some.mp h
      rw [trace_cons, attempt_of_some hm]
      exact List.forall_mem_cons.mpr ⟨⟨hs, m, hm⟩, ih (hstep s l m hs hm) hrest⟩

-- A part of the state that only some labels write is what the last of them
-- has left there.
theorem runAll_last_write {β : Type*} {Writes : ℓ → Prop} {f : σ → β}
    (hkeep : ∀ s l t, ¬ Writes l → step s l = some t → f t = f s)
    {s t : σ} {ls : List ℓ} (h : runAll step s ls = some t) :
    ((∀ l ∈ ls, ¬ Writes l) ∧ f t = f s) ∨
      ∃ before l after u v, ls = before ++ l :: after ∧ Writes l ∧ (∀ d ∈ after, ¬ Writes d) ∧
        runAll step s before = some u ∧ step u l = some v ∧ runAll step v after = some t ∧
        f t = f v := by
  induction ls generalizing s with
  | nil =>
      have hst : s = t := Option.some.inj h
      exact .inl ⟨by simp, by rw [hst]⟩
  | cons l ls ih =>
      obtain ⟨m, hm, hrest⟩ := runAll_cons_eq_some.mp h
      rcases ih hrest with ⟨hnone, hf⟩ | ⟨before, d, after, u, v, rfl, hd, hafter, hu, hv, ht, hf⟩
      · by_cases hl : Writes l
        · exact .inr ⟨[], l, ls, s, m, rfl, hl, hnone, rfl, hm, hrest, hf⟩
        · refine .inl ⟨?_, hf.trans (hkeep s l m hl hm)⟩
          exact List.forall_mem_cons.mpr ⟨hl, hnone⟩
      · have hbefore : runAll step s (l :: before) = some u :=
          runAll_cons_eq_some.mpr ⟨m, hm, hu⟩
        exact .inr ⟨l :: before, d, after, u, v, rfl, hd, hafter, hbefore, hv, ht, hf⟩

-- Where every state but those aimed at has a step that leaves less to do, some
-- run gets there.
theorem exists_runAll_of_decreasing {I Done : σ → Prop} {P : ℓ → Prop} (todo : σ → ℕ)
    (hstep : ∀ s, I s → ¬ Done s → ∃ l t, P l ∧ step s l = some t ∧ I t ∧ todo t < todo s)
    {s : σ} (hs : I s) :
    ∃ ls t, (∀ l ∈ ls, P l) ∧ runAll step s ls = some t ∧ Done t := by
  induction hn : todo s using Nat.strong_induction_on generalizing s with
  | _ n ih =>
      by_cases hdone : Done s
      · exact ⟨[], s, by simp, rfl, hdone⟩
      · obtain ⟨l, m, hl, hm, hI, hlt⟩ := hstep s hs hdone
        obtain ⟨ls, t, hls, hrun, ht⟩ := ih (todo m) (hn ▸ hlt) hI rfl
        exact ⟨l :: ls, t, List.forall_mem_cons.mpr ⟨hl, hls⟩,
          runAll_cons_eq_some.mpr ⟨m, hm, hrun⟩, ht⟩

-- What held after a run whose steps keep it backwards held before it.
theorem runAll_invariant_back {I : σ → Prop} {P : ℓ → Prop}
    (hstep : ∀ s l t, P l → step s l = some t → I t → I s)
    {s t : σ} {ls : List ℓ} (ht : I t) (hls : ∀ l ∈ ls, P l) (h : runAll step s ls = some t) :
    I s := by
  induction ls generalizing s with
  | nil =>
      obtain rfl : s = t := Option.some.inj h
      exact ht
  | cons l ls ih =>
      obtain ⟨m, hm, hrest⟩ := runAll_cons_eq_some.mp h
      obtain ⟨hl, hls⟩ := List.forall_mem_cons.mp hls
      exact hstep s l m hl hm (ih hls hrest)

end RunAll

section Accounting

variable {step : σ → ℓ → Option σ} {I : σ → Prop} {β : Type*}

theorem replay_balance (f g : σ → ℕ) (gain loss : σ → ℓ → ℕ)
    (hI : ∀ s l, I s → I (attempt step s l))
    (hf : ∀ s l, I s →
      f (attempt step s l) + g s + loss s l = f s + g (attempt step s l) + gain s l)
    {s : σ} (hs : I s) (ls : List ℓ) :
    f (replay step s ls) + g s + ((trace step s ls).map fun p => loss p.1 p.2).sum =
      f s + g (replay step s ls) + ((trace step s ls).map fun p => gain p.1 p.2).sum := by
  induction ls generalizing s with
  | nil => simp
  | cons l ls ih =>
      have hh := hf s l hs
      have ht := ih (hI s l hs)
      simp only [replay_cons, trace_cons, List.map_cons, List.sum_cons]
      omega

theorem runAll_add_le_budget (budget : σ → ℕ) (charge : σ → ℓ → ℕ)
    (hc : ∀ s l t, step s l = some t → charge s l + budget t ≤ budget s)
    {s t : σ} {ls : List ℓ} (h : runAll step s ls = some t) :
    ((trace step s ls).map fun p => charge p.1 p.2).sum + budget t ≤ budget s := by
  induction ls generalizing s with
  | nil =>
      have hst : s = t := Option.some.inj h
      simp [hst]
  | cons l ls ih =>
      obtain ⟨m, hm, hrest⟩ := runAll_cons_eq_some.mp h
      have hh := hc s l m hm
      have ht := ih hrest
      simp only [trace_cons, attempt_of_some hm, List.map_cons, List.sum_cons]
      omega

theorem runAll_balance (f g : σ → ℕ) (gain loss : σ → ℓ → ℕ)
    (hI : ∀ s l t, I s → step s l = some t → I t)
    (hf : ∀ s l t, I s → step s l = some t → f t + g s + loss s l = f s + g t + gain s l)
    {s t : σ} (hs : I s) {ls : List ℓ} (h : runAll step s ls = some t) :
    f t + g s + ((trace step s ls).map fun p => loss p.1 p.2).sum =
      f s + g t + ((trace step s ls).map fun p => gain p.1 p.2).sum := by
  induction ls generalizing s with
  | nil =>
      have hst : s = t := Option.some.inj h
      simp [hst]
  | cons l ls ih =>
      obtain ⟨m, hm, hrest⟩ := runAll_cons_eq_some.mp h
      have hh := hf s l m hs hm
      have ht := ih (hI s l m hs hm) hrest
      simp only [trace_cons, attempt_of_some hm, List.map_cons, List.sum_cons]
      omega

theorem sum_trace_eq_countP {P : σ → ℓ → Prop} [∀ s l, Decidable (P s l)] (past : List (σ × ℓ)) :
    (past.map fun p => if P p.1 p.2 then 1 else 0).sum = past.countP fun p => P p.1 p.2 := by
  induction past with
  | nil => rfl
  | cons p past ih =>
      rw [List.map_cons, List.sum_cons, ih, List.countP_cons]
      by_cases h : P p.1 p.2 <;> simp [h, Nat.add_comm]

-- What the steps cost together is bounded by how far the budget has fallen.
theorem sum_add_le_budget (budget : σ → ℕ) (charge : σ → ℓ → ℕ) {P : ℓ → Prop}
    (hI : ∀ s l, P l → I s → I (attempt step s l))
    (hc : ∀ s l, P l → I s → charge s l + budget (attempt step s l) ≤ budget s)
    {s : σ} (hs : I s) {ls : List ℓ} (hls : ∀ l ∈ ls, P l) :
    ((trace step s ls).map fun p => charge p.1 p.2).sum + budget (replay step s ls) ≤ budget s := by
  induction ls generalizing s with
  | nil => simp
  | cons l ls ih =>
      have hl : P l := hls l List.mem_cons_self
      have hh := hc s l hl hs
      have ht := ih (hI s l hl hs) fun l' hl' => hls l' (List.mem_cons_of_mem _ hl')
      simp only [replay_cons, trace_cons, List.map_cons, List.sum_cons]
      omega

-- Where the change depends on the label alone, a schedule without refusals
-- adds up its labels, so its order does not matter.
theorem runAll_eq_add_sum [AddCommMonoid β] (f : σ → β) (change : ℓ → β) {P : ℓ → Prop}
    (hI : ∀ s l t, P l → I s → step s l = some t → I t)
    (hf : ∀ s l t, P l → I s → step s l = some t → f t = f s + change l)
    {s t : σ} {ls : List ℓ} (hs : I s) (hls : ∀ l ∈ ls, P l) (h : runAll step s ls = some t) :
    f t = f s + (ls.map change).sum := by
  induction ls generalizing s with
  | nil =>
      have ht : s = t := Option.some.inj h
      simp [ht]
  | cons l ls ih =>
      obtain ⟨m, hm, ht⟩ := runAll_cons_eq_some.mp h
      rw [ih (hI s l m (hls l List.mem_cons_self) hs hm)
          (fun l' hl' => hls l' (List.mem_cons_of_mem _ hl')) ht,
        hf s l m (hls l List.mem_cons_self) hs hm, List.map_cons, List.sum_cons, add_assoc]

theorem runAll_perm_eq [AddCommMonoid β] (f : σ → β) (change : ℓ → β) {P : ℓ → Prop}
    (hI : ∀ s l t, P l → I s → step s l = some t → I t)
    (hf : ∀ s l t, P l → I s → step s l = some t → f t = f s + change l)
    {s t t' : σ} {ls ls' : List ℓ} (hs : I s) (hls : ∀ l ∈ ls, P l) (hperm : ls.Perm ls')
    (h : runAll step s ls = some t) (h' : runAll step s ls' = some t') : f t = f t' := by
  rw [runAll_eq_add_sum f change hI hf hs hls h,
    runAll_eq_add_sum f change hI hf hs (fun l hl => hls l (hperm.mem_iff.mpr hl)) h',
    (hperm.map change).sum_eq]

end Accounting

end Transition
