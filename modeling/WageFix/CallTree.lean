import WageFix.Transition

namespace CallTree

variable {σ κ : Type*}

-- A sequence of calls to one component. A call made with `call` reaches a
-- receiver that makes the nested calls and then accepts or not, one made with
-- `plain` reaches a receiver that runs no code.
inductive Calls (κ : Type*) where
  | done
  | plain (c : κ) (rest : Calls κ)
  | call (c : κ) (nested : Calls κ) (accepts : Bool) (rest : Calls κ)

def Calls.preorder : Calls κ → List κ
  | .done => []
  | .plain c rest => c :: rest.preorder
  | .call c nested _ rest => c :: (nested.preorder ++ rest.preorder)

-- A component whose calls may hand control to their receiver between what
-- they do before and what they do after.
structure Component (σ κ : Type*) where
  enter : σ → κ → Option σ
  leave : σ → κ → Option σ
  callsBack : κ → Bool

namespace Component

variable (M : Component σ κ)

def atomic (s : σ) (c : κ) : Option σ := (M.enter s c).bind fun t => M.leave t c

-- One call around what its receiver does. The calls that were not undone are
-- listed with the call before those nested in it.
def around (s : σ) (c : κ) (receiver : σ → Option (σ × List κ)) : Option (σ × List κ) :=
  (M.enter s c).bind fun t =>
    (receiver t).bind fun inner =>
      (M.leave inner.1 c).map fun v => (v, c :: inner.2)

-- The calls after one that may have failed. If it has, its caller goes on from
-- the state that it met.
def follow (s : σ) (outcome : Option (σ × List κ)) (rest : σ → σ × List κ) : σ × List κ :=
  match outcome with
  | none => rest s
  | some (t, calls) => ((rest t).1, calls ++ (rest t).2)

def exec : σ → Calls κ → σ × List κ
  | s, .done => (s, [])
  | s, .plain c rest => follow s (M.around s c fun t => some (t, [])) fun t => exec t rest
  | s, .call c nested accepts rest =>
      let receiver := fun t =>
        if M.callsBack c then if accepts then some (exec t nested) else none
        else some (t, [])
      follow s (M.around s c receiver) fun t => exec t rest

-- What a component must satisfy for its calls to be serialisable. `Open c`
-- holds while the receiver of `c` has control, and in that window what is left
-- of `c` can be moved before every call that goes through.
structure Serial where
  Open : κ → σ → Prop
  opens : ∀ {s t c}, M.enter s c = some t → Open c t
  stays : ∀ {s t c d}, Open c s → M.atomic s d = some t → Open c t
  shifts : ∀ {s t v c d}, Open c s → M.atomic s d = some t → M.leave t c = some v →
    ∃ u, M.leave s c = some u ∧ M.atomic u d = some v

end Component

section Serialisation

open Transition

variable {M : Component σ κ}

theorem around_eq_some {s v : σ} {c : κ} {receiver : σ → Option (σ × List κ)} {calls : List κ} :
    M.around s c receiver = some (v, calls) ↔ ∃ t u nested, M.enter s c = some t ∧
      receiver t = some (u, nested) ∧ M.leave u c = some v ∧ calls = c :: nested := by
  constructor
  · intro h
    obtain ⟨t, ht, h⟩ := Option.bind_eq_some_iff.mp h
    obtain ⟨⟨u, nested⟩, hu, h⟩ := Option.bind_eq_some_iff.mp h
    obtain ⟨w, hw, he⟩ := Option.map_eq_some_iff.mp h
    obtain ⟨rfl, rfl⟩ := Prod.mk.inj he
    exact ⟨t, u, nested, ht, hu, hw, rfl⟩
  · rintro ⟨t, u, nested, ht, hu, hw, rfl⟩
    simp [Component.around, ht, hu, hw]

theorem shift_runAll (S : M.Serial) {s u v : σ} {c : κ} {ds : List κ} (ho : S.Open c s)
    (hds : runAll M.atomic s ds = some u) (hv : M.leave u c = some v) :
    ∃ w, M.leave s c = some w ∧ runAll M.atomic w ds = some v := by
  induction ds generalizing s with
  | nil =>
      obtain rfl : s = u := Option.some.inj hds
      exact ⟨v, hv, rfl⟩
  | cons d ds ih =>
      obtain ⟨t, ht, hu⟩ := runAll_cons_eq_some.mp hds
      obtain ⟨x, hx, hrun⟩ := ih (S.stays ho ht) hu
      obtain ⟨w, hw, hwx⟩ := S.shifts ho ht hx
      exact ⟨w, hw, runAll_cons_eq_some.mpr ⟨x, hwx, hrun⟩⟩

theorem around_serial (S : M.Serial) {s v : σ} {c : κ} {receiver : σ → Option (σ × List κ)}
    {calls : List κ} (h : M.around s c receiver = some (v, calls))
    (hreceiver : ∀ t u nested, receiver t = some (u, nested) →
      runAll M.atomic t nested = some u) :
    runAll M.atomic s calls = some v := by
  obtain ⟨t, u, nested, ht, hu, hv, rfl⟩ := around_eq_some.mp h
  obtain ⟨w, hw, hrun⟩ := shift_runAll S (S.opens ht) (hreceiver t u nested hu) hv
  have hatomic : M.atomic s c = some w := by simp [Component.atomic, ht, hw]
  exact runAll_cons_eq_some.mpr ⟨w, hatomic, hrun⟩

theorem follow_fst (s : σ) (outcome : Option (σ × List κ)) (rest : σ → σ × List κ) :
    (Component.follow s outcome rest).1 = (rest ((outcome.map Prod.fst).getD s)).1 := by
  cases outcome <;> rfl

theorem follow_serial {s : σ} {outcome : Option (σ × List κ)} {rest : σ → σ × List κ}
    (hcall : ∀ t calls, outcome = some (t, calls) → runAll M.atomic s calls = some t)
    (hrest : ∀ t, runAll M.atomic t (rest t).2 = some (rest t).1) :
    runAll M.atomic s (Component.follow s outcome rest).2 =
      some (Component.follow s outcome rest).1 := by
  cases outcome with
  | none => exact hrest s
  | some r =>
      have hfirst := hcall r.1 r.2 rfl
      exact runAll_append_eq_some.mpr ⟨r.1, hfirst, hrest r.1⟩

theorem follow_sublist {s : σ} {outcome : Option (σ × List κ)} {rest : σ → σ × List κ} {c : κ}
    {later : List κ} (nested : List κ)
    (hcall : ∀ t calls, outcome = some (t, calls) → ∃ inner, calls = c :: inner ∧
      inner.Sublist nested)
    (hrest : ∀ t, (rest t).2.Sublist later) :
    (Component.follow s outcome rest).2.Sublist (c :: (nested ++ later)) := by
  cases outcome with
  | none => exact ((hrest s).trans (List.sublist_append_right _ _)).cons c
  | some r =>
      obtain ⟨inner, hinner, hsub⟩ := hcall r.1 r.2 rfl
      show (r.2 ++ (rest r.1).2).Sublist _
      rw [hinner]
      exact (hsub.append (hrest r.1)).cons_cons c

-- Every tree of calls ends in the state that its surviving calls reach one
-- after the other, none of which is refused.
theorem exec_serial (S : M.Serial) (s : σ) (calls : Calls κ) :
    runAll M.atomic s (M.exec s calls).2 = some (M.exec s calls).1 := by
  induction calls generalizing s with
  | done => rfl
  | plain c rest ih =>
      refine follow_serial (fun t calls h => around_serial S h fun t u nested hu => ?_) ih
      obtain ⟨rfl, rfl⟩ := Prod.mk.inj (Option.some.inj hu)
      rfl
  | call c nested accepts rest ihNested ih =>
      refine follow_serial (fun t calls h => around_serial S h fun t u inner hu => ?_) ih
      split_ifs at hu
      · have he := Option.some.inj hu
        have hn := ihNested t
        rwa [he] at hn
      · obtain ⟨rfl, rfl⟩ := Prod.mk.inj (Option.some.inj hu)
        rfl

theorem exec_sublist (M : Component σ κ) (s : σ) (calls : Calls κ) :
    (M.exec s calls).2.Sublist calls.preorder := by
  induction calls generalizing s with
  | done => exact List.Sublist.refl _
  | plain c rest ih =>
      refine follow_sublist [] (fun t calls h => ?_) ih
      obtain ⟨t', u, inner, -, hu, -, rfl⟩ := around_eq_some.mp h
      obtain ⟨-, rfl⟩ := Prod.mk.inj (Option.some.inj hu)
      exact ⟨[], rfl, List.Sublist.refl _⟩
  | call c nested accepts rest ihNested ih =>
      refine follow_sublist nested.preorder (fun t calls h => ?_) ih
      obtain ⟨t', u, inner, -, hu, -, rfl⟩ := around_eq_some.mp h
      refine ⟨inner, rfl, ?_⟩
      split_ifs at hu
      · have he : (M.exec t' nested).2 = inner := congrArg Prod.snd (Option.some.inj hu)
        rw [← he]
        exact ihNested t'
      · obtain ⟨-, rfl⟩ := Prod.mk.inj (Option.some.inj hu)
        exact List.nil_sublist _

end Serialisation

end CallTree
