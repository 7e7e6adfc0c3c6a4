import WageFix.Kyc.Evidence
import WageFix.PosixPath

namespace WageFix.Kyc

open PosixPath

-- A name that stays in the upload directory: it goes down from there, or up
-- and down again the way it came.
def Confined (filename : Path) : Prop :=
  ¬ IsAbsolute filename ∧ ∃ name rest, name ≠ dotdot ∧
    ((normpath filename).names = name :: rest ∨
      (normpath filename).names = dotdot :: "uploads".toList :: name :: rest ∨
      (normpath filename).names =
        dotdot :: dotdot :: "backend".toList :: "uploads".toList :: name :: rest)

section Filename

variable {filename : Path}

theorem names_uploadDir :
    (normpath uploadDir).names = ["backend".toList, "uploads".toList] := by
  decide +kernel

theorem join_absolute (dir : Path) (h : IsAbsolute filename) : join dir filename = filename := by
  obtain ⟨rest, rfl⟩ := h
  rfl

theorem join_uploadDir (h : ¬ IsAbsolute filename) :
    join uploadDir filename = uploadDir ++ '/' :: filename := by
  have hhead : filename.head? ≠ some '/' := by
    intro hhead
    obtain ⟨rest, rfl⟩ := List.head?_eq_some_iff.mp hhead
    exact h ⟨rest, rfl⟩
  rw [join, if_neg hhead, if_neg (by decide +kernel)]

theorem inside_join_iff_confined (filename : Path) :
    StrictlyInside (normpath uploadDir) (normpath (join uploadDir filename)) ↔
      Confined filename := by
  by_cases habs : IsAbsolute filename
  · rw [join_absolute _ habs]
    constructor
    · rintro ⟨hslashes, -⟩
      have hdir : (normpath uploadDir).slashes = 0 := by decide +kernel
      rw [hdir] at hslashes
      exact absurd habs (leadingSlashes_eq_zero_iff.mp hslashes)
    · exact fun h => absurd habs h.1
  · rw [join_uploadDir habs, strictlyInside_append_iff (by decide +kernel) (by decide +kernel)
      (by rw [names_uploadDir]; decide +kernel) habs, names_uploadDir]
    constructor
    · rintro ⟨up, name, rest, hup, hname, heq⟩
      refine ⟨habs, name, rest, hname, ?_⟩
      match up, hup with
      | 0, _ => exact Or.inl heq
      | 1, _ => exact Or.inr (Or.inl heq)
      | 2, _ => exact Or.inr (Or.inr heq)
    · rintro ⟨-, name, rest, hname, heq | heq | heq⟩
      · exact ⟨0, name, rest, Nat.zero_le _, hname, heq⟩
      · exact ⟨1, name, rest, Nat.le_succ _, hname, heq⟩
      · exact ⟨2, name, rest, Nat.le_refl _, hname, heq⟩

end Filename

-- What is opened of an upload stays in the directory: the file is not opened, or
-- its name stays there.
def Stays (r : Request) (faults : Faults) : Prop :=
  (faults.passport ≠ .opening → Confined r.passport.filename) ∧
    (faults.passport = .none → faults.selfie ≠ .opening → Confined r.selfie.filename)

theorem forall_openedBy_iff {P : Path → Prop} (path : Path) (fault : Fault) :
    (∀ p ∈ openedBy path fault, P p) ↔ (fault ≠ .opening → P path) := by
  rw [openedBy]
  by_cases hfault : fault = .opening
  · rw [if_pos hfault]
    exact iff_of_true (List.forall_mem_nil _) fun h => absurd hfault h
  · rw [if_neg hfault, List.forall_mem_singleton, forall_prop_of_true hfault]

theorem forall_opened_inside_iff (r : Request) (faults : Faults) :
    (∀ path ∈ opened r faults, StrictlyInside (normpath uploadDir) (normpath path)) ↔
      Stays r faults := by
  rw [opened, List.forall_mem_append, forall_openedBy_iff]
  apply and_congr
  · rw [Request.passportPath, inside_join_iff_confined]
  · by_cases hfault : faults.passport = .none
    · rw [if_pos hfault, forall_openedBy_iff, forall_prop_of_true hfault, Request.selfiePath,
        inside_join_iff_confined]
    · rw [if_neg hfault, forall_prop_of_false hfault]
      exact iff_of_true (List.forall_mem_nil _) trivial

-- What kyc_check opens for writing, for two files as they are sent, lies in the
-- upload directory exactly where the names that reach it stay there.
theorem opened_inside_iff_confined (lib : Multipart.Library) (sent : Sent) (faults : Faults) :
    (∀ r, sent.received lib = some r → ∀ path ∈ opened r faults,
      StrictlyInside (normpath uploadDir) (normpath path)) ↔
      ∀ r, sent.received lib = some r → Stays r faults := by
  apply forall_congr'
  intro r
  apply imp_congr_right
  intro _
  exact forall_opened_inside_iff r faults

def sentMain : Sent :=
  ⟨⟨Multipart.ascii "form-data; name=\"passport\"; filename=\"../main.py\"", [1]⟩,
    ⟨Multipart.ascii "form-data; name=\"selfie\"; filename=\"s.jpg\"", [2]⟩⟩

-- A passport named ../main.py replaces the source of the server.
theorem main_py_opened :
    ∃ r, sentMain.received Multipart.sampleLibrary = some r ∧
      r.passport.filename = "../main.py".toList ∧
      ∃ path ∈ opened r ⟨.none, .none⟩,
        (normpath path).names = ["backend".toList, "main.py".toList] ∧
        ¬ StrictlyInside (normpath uploadDir) (normpath path) := by
  refine ⟨⟨⟨"../main.py".toList, [1]⟩, ⟨"s.jpg".toList, [2]⟩⟩, by decide +kernel, rfl,
    join uploadDir "../main.py".toList, List.mem_cons_self, by decide +kernel, ?_⟩
  rintro ⟨-, name, rest, heq, -⟩
  have hnames : (normpath (join uploadDir "../main.py".toList)).names =
      ["backend".toList, "main.py".toList] := by
    decide +kernel
  rw [hnames, names_uploadDir] at heq
  exact absurd (congrArg List.length heq) (by simp)

end WageFix.Kyc
