import Mathlib.Data.List.Basic
import WageFix.Transition

-- A reader that takes its input one item at a time. It fails at an item, or goes
-- on and puts something out.
namespace Transducer

variable {σ π α β γ ε : Type*}

-- An error comes with the number of items before the one that it is about.
abbrev Result (ε σ β : Type*) := Except (ε × ℕ) (σ × List β)

-- The result as it is where `n` items that put out `out` come first.
def Result.after (n : ℕ) (out : List β) : Result ε σ β → Result ε σ β
  | .error (e, k) => .error (e, n + k)
  | .ok (q, rest) => .ok (q, out ++ rest)

theorem Result.after_zero (r : Result ε σ β) : r.after 0 [] = r := by
  rcases r with ⟨e, k⟩ | ⟨q, rest⟩
  · simp [Result.after]
  · simp [Result.after]

theorem Result.after_after (m n : ℕ) (out out' : List β) (r : Result ε σ β) :
    (r.after n out').after m out = r.after (m + n) (out ++ out') := by
  rcases r with ⟨e, k⟩ | ⟨q, rest⟩
  · simp [Result.after, Nat.add_assoc]
  · simp [Result.after]

theorem Result.toOption_after (n : ℕ) (out : List β) (r : Result ε σ β) :
    (r.after n out).toOption = r.toOption.map fun x => (x.1, out ++ x.2) := by
  cases r <;> rfl

def run (step : σ → α → Except ε (σ × List β)) : σ → List α → Result ε σ β
  | q, [] => .ok (q, [])
  | q, a :: as =>
      match step q a with
      | .error e => .error (e, 0)
      | .ok (q', out) => (run step q' as).after 1 out

section Run

variable {step : σ → α → Except ε (σ × List β)} {q q' : σ} {as as' : List α} {out : List β}

@[simp]
theorem run_nil : run step q [] = .ok (q, []) := rfl

theorem run_cons_error {a : α} {e : ε} (h : step q a = .error e) :
    run step q (a :: as) = .error (e, 0) := by
  simp [run, h]

theorem run_cons_ok {a : α} (h : step q a = .ok (q', out)) :
    run step q (a :: as) = (run step q' as).after 1 out := by
  simp [run, h]

theorem run_append_ok (h : run step q as = .ok (q', out)) :
    run step q (as ++ as') = (run step q' as').after as.length out := by
  induction as generalizing q out with
  | nil =>
      simp only [run_nil, Except.ok.injEq, Prod.mk.injEq] at h
      rw [← h.1, ← h.2]
      exact (Result.after_zero _).symm
  | cons a as ih =>
      cases hstep : step q a with
      | error e => simp [run_cons_error hstep] at h
      | ok r =>
          rcases r with ⟨q₁, out₁⟩
          rw [run_cons_ok hstep] at h
          rw [List.cons_append, run_cons_ok hstep]
          cases hrun : run step q₁ as with
          | error e => simp [hrun, Result.after] at h
          | ok r =>
              rcases r with ⟨q₂, out₂⟩
              simp only [hrun, Result.after, Except.ok.injEq, Prod.mk.injEq] at h
              rw [ih (hrun.trans (by rw [h.1])), Result.after_after, ← h.2, List.length_cons,
                Nat.add_comm 1]

theorem run_append_error {e : ε × ℕ} (h : run step q as = .error e) :
    run step q (as ++ as') = .error e := by
  induction as generalizing q e with
  | nil => simp at h
  | cons a as ih =>
      cases hstep : step q a with
      | error e₁ =>
          rw [List.cons_append, run_cons_error hstep, ← h, run_cons_error hstep]
      | ok r =>
          rcases r with ⟨q₁, out₁⟩
          rw [run_cons_ok hstep] at h
          rw [List.cons_append, run_cons_ok hstep, ← h]
          cases hrun : run step q₁ as with
          | error e₁ => rw [ih hrun]
          | ok r => simp [hrun, Result.after] at h

theorem run_append_eq_ok (h : run step q (as ++ as') = .ok (q', out)) :
    ∃ q₁ out₁ out₂, run step q as = .ok (q₁, out₁) ∧ run step q₁ as' = .ok (q', out₂) ∧
      out = out₁ ++ out₂ := by
  cases hfirst : run step q as with
  | error e => simp [run_append_error hfirst] at h
  | ok r =>
      rcases r with ⟨q₁, out₁⟩
      rw [run_append_ok hfirst] at h
      cases hrest : run step q₁ as' with
      | error e => simp [hrest, Result.after] at h
      | ok r =>
          rcases r with ⟨q₂, out₂⟩
          simp only [hrest, Result.after, Except.ok.injEq, Prod.mk.injEq] at h
          exact ⟨q₁, out₁, out₂, rfl, hrest.trans (by rw [h.1]), h.2.symm⟩

theorem run_cons_eq_ok {a : α} (h : run step q (a :: as) = .ok (q', out)) :
    ∃ q₁ out₁ out₂, step q a = .ok (q₁, out₁) ∧ run step q₁ as = .ok (q', out₂) ∧
      out = out₁ ++ out₂ := by
  cases hstep : step q a with
  | error e => simp [run_cons_error hstep] at h
  | ok r =>
      rcases r with ⟨q₁, out₁⟩
      rw [run_cons_ok hstep] at h
      cases hrest : run step q₁ as with
      | error e => simp [hrest, Result.after] at h
      | ok r =>
          rcases r with ⟨q₂, out₂⟩
          simp only [hrest, Result.after, Except.ok.injEq, Prod.mk.injEq] at h
          exact ⟨q₁, out₁, out₂, rfl, hrest.trans (by rw [h.1]), h.2.symm⟩

-- Output of which each step's is taken by another machine, at a state that goes
-- with the reader's.
theorem run_taken {τ : Type*} {take : τ → β → Option τ} (at_ : σ → τ) {I : σ → Prop}
    (hstep : ∀ q a q' out, I q → step q a = .ok (q', out) →
      I q' ∧ Transition.runAll take (at_ q) out = some (at_ q'))
    (hI : I q) (h : run step q as = .ok (q', out)) :
    Transition.runAll take (at_ q) out = some (at_ q') := by
  induction as generalizing q out with
  | nil =>
      simp only [run_nil, Except.ok.injEq, Prod.mk.injEq] at h
      rw [← h.1, ← h.2]
      rfl
  | cons a as ih =>
      obtain ⟨q₁, out₁, out₂, ha, hrun, rfl⟩ := run_cons_eq_ok h
      obtain ⟨hI₁, htaken⟩ := hstep q a q₁ out₁ hI ha
      rw [Transition.runAll_append, htaken]
      exact ih hI₁ hrun

end Run

-- A reader that is given its input in chunks.
def feed (write : π → List α → Result ε π γ) : π → List (List α) → Result ε π γ
  | p, [] => .ok (p, [])
  | p, chunk :: chunks =>
      match write p chunk with
      | .error e => .error e
      | .ok (p', out) => (feed write p' chunks).after chunk.length out

theorem feed_cons_ok {write : π → List α → Result ε π γ} {p p' : π} {chunk : List α}
    {out : List γ} (h : write p chunk = .ok (p', out)) (chunks : List (List α)) :
    feed write p (chunk :: chunks) = (feed write p' chunks).after chunk.length out := by
  rw [feed, h]

section Buffered

variable {step : σ → α → Except ε (σ × List β)} {write : π → List α → Result ε π γ}
  {R : π → σ → Prop} {atoms : γ → List β} {p : π} {q : σ}

-- The two fail at the same item with the same error, or both go on, with the
-- same output once that of the first is taken apart.
inductive Agrees (R : π → σ → Prop) (atoms : γ → List β) : Result ε π γ → Result ε σ β → Prop
  | error (e : ε × ℕ) : Agrees R atoms (.error e) (.error e)
  | ok {p : π} {q : σ} (out : List γ) (h : R p q) :
      Agrees R atoms (.ok (p, out)) (.ok (q, out.flatMap atoms))

theorem Agrees.after {r : Result ε π γ} {s : Result ε σ β} (n : ℕ) (out : List γ)
    (h : Agrees R atoms r s) : Agrees R atoms (r.after n out) (s.after n (out.flatMap atoms)) := by
  cases h with
  | error e => exact .error _
  | ok rest h =>
      show Agrees R atoms (.ok (_, out ++ rest))
        (.ok (_, out.flatMap atoms ++ rest.flatMap atoms))
      rw [← List.flatMap_append]
      exact .ok _ h

theorem Agrees.map_eq {r : Result ε π γ} {s : Result ε σ β} (h : Agrees R atoms r s) :
    r.map (fun x => x.2.flatMap atoms) = s.map Prod.snd := by
  cases h <;> rfl

-- A reader that agrees on each chunk with one that reads item by item agrees
-- with it on the whole input, wherever this has been cut.
theorem agrees_of_chunk
    (hwrite : ∀ p q chunk, R p q → Agrees R atoms (write p chunk) (run step q chunk))
    (chunks : List (List α)) (h : R p q) :
    Agrees R atoms (feed write p chunks) (run step q chunks.flatten) := by
  induction chunks generalizing p q with
  | nil => exact .ok [] h
  | cons chunk chunks ih =>
      have hchunk := hwrite p q chunk h
      rw [feed, List.flatten_cons]
      generalize hw : write p chunk = w at hchunk ⊢
      generalize hr : run step q chunk = r at hchunk
      cases hchunk with
      | error e =>
          rw [run_append_error hr]
          exact .error e
      | ok out h' =>
          rw [run_append_ok hr]
          exact (ih h').after chunk.length out

theorem feed_eq_of_flatten_eq
    (hwrite : ∀ p q chunk, R p q → Agrees R atoms (write p chunk) (run step q chunk))
    {chunks chunks' : List (List α)} (h : R p q) (hcut : chunks.flatten = chunks'.flatten) :
    (feed write p chunks).map (fun x => x.2.flatMap atoms) =
      (feed write p chunks').map (fun x => x.2.flatMap atoms) := by
  rw [(agrees_of_chunk hwrite chunks h).map_eq, (agrees_of_chunk hwrite chunks' h).map_eq, hcut]

end Buffered

end Transducer
