import Mathlib.Data.Nat.Notation
import Mathlib.Data.List.Basic
import Mathlib.Data.List.Infix

namespace PosixPath

abbrev Name := List Char

def dotdot : Name := ['.', '.']

-- os.path.normpath: the slashes that a path keeps in front, and its names.
structure Normal where
  slashes : ℕ
  names : List Name
  deriving DecidableEq, Repr

def IsAbsolute (p : List Char) : Prop := ['/'] <+: p

instance (p : List Char) : Decidable (IsAbsolute p) := inferInstanceAs (Decidable (_ <+: _))

-- Exactly two slashes are kept, more count as one.
def leadingSlashes (p : List Char) : ℕ :=
  if ['/', '/'] <+: p ∧ ¬ ['/', '/', '/'] <+: p then 2 else if IsAbsolute p then 1 else 0

-- The names so far, the last one first, with the next part of the path.
def push (slashes : ℕ) (names : List Name) (part : Name) : List Name :=
  if part = [] ∨ part = ['.'] then names
  else if part ≠ dotdot ∨ (slashes = 0 ∧ names = []) ∨ names.head? = some dotdot then part :: names
  else names.tail

def normpath (p : List Char) : Normal where
  slashes := leadingSlashes p
  names := ((p.splitOn '/').foldl (push (leadingSlashes p)) []).reverse

-- A directory is not inside itself, and what leaves it first is not inside it.
def StrictlyInside (dir path : Normal) : Prop :=
  path.slashes = dir.slashes ∧ ∃ name rest, path.names = dir.names ++ name :: rest ∧ name ≠ dotdot

-- What a path does to the place where it starts: it leaves some directories,
-- then enters others. The last one entered comes first.
structure Walk where
  ups : ℕ
  names : List Name
  proper : dotdot ∉ names

namespace Walk

def stay : Walk := ⟨0, [], List.not_mem_nil⟩

def enter (w : Walk) (name : Name) (h : name ≠ dotdot) : Walk :=
  ⟨w.ups, name :: w.names, fun hm => (List.mem_cons.mp hm).elim (fun he => h he.symm) w.proper⟩

def leave : Walk → Walk
  | ⟨ups, [], h⟩ => ⟨ups + 1, [], h⟩
  | ⟨ups, _ :: names, h⟩ => ⟨ups, names, fun hm => h (List.mem_cons_of_mem _ hm)⟩

def step (w : Walk) (part : Name) : Walk :=
  if part = [] ∨ part = ['.'] then w
  else if h : part = dotdot then w.leave
  else w.enter part h

-- Where a walk leads that starts at some names, the last of which comes first.
-- Nothing is left above the root.
def onto (slashes : ℕ) (base : List Name) (w : Walk) : List Name :=
  w.names ++ base.drop w.ups ++
    if slashes = 0 then List.replicate (w.ups - base.length) dotdot else []

end Walk

def walk (p : List Char) : Walk := (p.splitOn '/').foldl Walk.step Walk.stay

section Walk

variable {slashes : ℕ} {base : List Name} {part : Name}

theorem push_of_skip (names : List Name) (h : part = [] ∨ part = ['.']) :
    push slashes names part = names := if_pos h

theorem push_of_proper (names : List Name) (h : ¬ (part = [] ∨ part = ['.']))
    (hp : part ≠ dotdot) : push slashes names part = part :: names := by
  rw [push, if_neg h, if_pos (Or.inl hp)]

theorem push_dotdot_cons {name : Name} (names : List Name) (h : name ≠ dotdot) :
    push slashes (name :: names) dotdot = names := by
  have hskip : ¬ (dotdot = [] ∨ dotdot = ['.']) := by decide
  rw [push, if_neg hskip, if_neg]
  · rfl
  · simp [h]

theorem push_dotdot_replicate (n : ℕ) :
    push 0 (List.replicate n dotdot) dotdot = List.replicate (n + 1) dotdot := by
  have hskip : ¬ (dotdot = [] ∨ dotdot = ['.']) := by decide
  rw [push, if_neg hskip, if_pos, List.replicate_succ]
  cases n with
  | zero => exact Or.inr (Or.inl ⟨rfl, rfl⟩)
  | succ n => exact Or.inr (Or.inr rfl)

theorem push_dotdot_onto (hbase : dotdot ∉ base) (w : Walk) :
    push slashes (w.onto slashes base) dotdot = w.leave.onto slashes base := by
  rcases w with ⟨ups, names, hnames⟩
  cases names with
  | cons name names =>
      have hname : name ≠ dotdot := fun he => hnames (he ▸ List.mem_cons_self)
      exact push_dotdot_cons _ hname
  | nil =>
      simp only [Walk.onto, Walk.leave, List.nil_append]
      by_cases hups : ups < base.length
      · have hname : base[ups] ≠ dotdot := fun he => hbase (he ▸ List.getElem_mem hups)
        rw [List.drop_eq_getElem_cons hups, List.cons_append, push_dotdot_cons _ hname,
          Nat.sub_eq_zero_of_le hups, Nat.sub_eq_zero_of_le (Nat.le_of_lt hups)]
      · have hle : base.length ≤ ups := Nat.le_of_not_lt hups
        rw [List.drop_eq_nil_of_le hle, List.drop_eq_nil_of_le (Nat.le_succ_of_le hle),
          List.nil_append, List.nil_append, Nat.succ_sub hle]
        -- below a relative start another .. is kept, the root has no parent
        by_cases hs : slashes = 0
        · rw [if_pos hs, if_pos hs, hs]
          exact push_dotdot_replicate _
        · rw [if_neg hs, if_neg hs]
          simp [push, hs]

-- One part moves the names of a path as it moves its walk.
theorem push_onto (hbase : dotdot ∉ base) (w : Walk) :
    push slashes (w.onto slashes base) part = (w.step part).onto slashes base := by
  by_cases hskip : part = [] ∨ part = ['.']
  · rw [push_of_skip _ hskip, Walk.step, if_pos hskip]
  · rw [Walk.step, if_neg hskip]
    by_cases hpart : part = dotdot
    · rw [dif_pos hpart, hpart]
      exact push_dotdot_onto hbase w
    · rw [dif_neg hpart, push_of_proper _ hskip hpart]
      rfl

theorem foldl_push_onto (hbase : dotdot ∉ base) (parts : List Name) (w : Walk) :
    parts.foldl (push slashes) (w.onto slashes base) =
      (parts.foldl Walk.step w).onto slashes base := by
  induction parts generalizing w with
  | nil => rfl
  | cons part parts ih => rw [List.foldl_cons, push_onto hbase, ih, List.foldl_cons]

theorem foldl_push_eq (hbase : dotdot ∉ base) (p : List Char) :
    (p.splitOn '/').foldl (push slashes) base = (walk p).onto slashes base := by
  have hstay : Walk.stay.onto slashes base = base := by simp [Walk.onto, Walk.stay]
  have h : (p.splitOn '/').foldl (push slashes) (Walk.stay.onto slashes base) = _ :=
    foldl_push_onto hbase _ Walk.stay
  rwa [hstay] at h

end Walk

section Relative

variable {dir p : List Char}

theorem leadingSlashes_eq_zero_iff : leadingSlashes p = 0 ↔ ¬ IsAbsolute p := by
  have htwo : ['/', '/'] <+: p → IsAbsolute p := fun h => (List.prefix_append ['/'] ['/']).trans h
  unfold leadingSlashes
  split_ifs with h habs
  · simp [htwo h.1]
  · simp [habs]
  · simp [habs]

theorem names_of_relative (hp : ¬ IsAbsolute p) :
    (normpath p).names = List.replicate (walk p).ups dotdot ++ (walk p).names.reverse := by
  rw [normpath, leadingSlashes_eq_zero_iff.mpr hp, foldl_push_eq List.not_mem_nil]
  simp [Walk.onto]

-- A path below a relative directory that does not leave its own start.
theorem names_append (hdir : ¬ IsAbsolute dir) (hne : dir ≠ [])
    (hbelow : dotdot ∉ (normpath dir).names) (p : List Char) :
    (normpath (dir ++ '/' :: p)).slashes = 0 ∧ (normpath (dir ++ '/' :: p)).names =
      List.replicate ((walk p).ups - (normpath dir).names.length) dotdot ++
        ((normpath dir).names.take ((normpath dir).names.length - (walk p).ups) ++
          (walk p).names.reverse) := by
  have happend : ¬ IsAbsolute (dir ++ '/' :: p) := by
    intro h
    cases dir with
    | nil => exact hne rfl
    | cons c dir =>
        obtain ⟨rest, hrest⟩ := h
        obtain ⟨hc, -⟩ := List.cons.inj hrest
        exact hdir ⟨dir, by rw [hc]; rfl⟩
  have hzero := leadingSlashes_eq_zero_iff.mpr happend
  have hdirnames : (dir.splitOn '/').foldl (push 0) [] = (normpath dir).names.reverse := by
    rw [normpath, leadingSlashes_eq_zero_iff.mpr hdir, List.reverse_reverse]
  have hbase : dotdot ∉ (normpath dir).names.reverse := fun h => hbelow (List.mem_reverse.mp h)
  refine ⟨hzero, ?_⟩
  rw [normpath, hzero, List.splitOn_append_cons_self, List.foldl_append, hdirnames,
    foldl_push_eq hbase]
  simp [Walk.onto, List.drop_reverse]

theorem replicate_append_inj {α : Type*} {a : α} {m n : ℕ} {l l' : List α}
    (hl : l.head? ≠ some a) (hl' : l'.head? ≠ some a)
    (h : List.replicate m a ++ l = List.replicate n a ++ l') : m = n ∧ l = l' := by
  induction m generalizing n with
  | zero =>
      cases n with
      | zero => exact ⟨rfl, h⟩
      | succ n => exact absurd (congrArg List.head? h) hl
  | succ m ih =>
      cases n with
      | zero => exact absurd (congrArg List.head? h).symm hl'
      | succ n =>
          obtain ⟨hmn, hll⟩ := ih (List.cons.inj h).2
          exact ⟨congrArg (· + 1) hmn, hll⟩

theorem head?_ne_dotdot {l : List Name} (h : dotdot ∉ l) : l.head? ≠ some dotdot :=
  fun hhead => h (List.mem_of_mem_head? hhead)

-- A relative path stays in a directory exactly where it leaves no more than
-- the directory's own names, enters those again that it left, and goes on.
theorem strictlyInside_append_iff (hdir : ¬ IsAbsolute dir) (hne : dir ≠ [])
    (hbelow : dotdot ∉ (normpath dir).names) (hp : ¬ IsAbsolute p) :
    StrictlyInside (normpath dir) (normpath (dir ++ '/' :: p)) ↔
      ∃ up name rest, up ≤ (normpath dir).names.length ∧ name ≠ dotdot ∧ (normpath p).names =
        List.replicate up dotdot ++
          ((normpath dir).names.drop ((normpath dir).names.length - up) ++ name :: rest) := by
  obtain ⟨hslashes, hnames⟩ := names_append hdir hne hbelow p
  have hdirslashes : (normpath dir).slashes = 0 := leadingSlashes_eq_zero_iff.mpr hdir
  rw [StrictlyInside, hslashes, hdirslashes, hnames, names_of_relative hp]
  set names := (normpath dir).names
  have hhead : ∀ k name rest, name ≠ dotdot →
      (names.drop k ++ name :: rest).head? ≠ some dotdot := by
    intro k name rest hname
    cases hd : names.drop k with
    | nil => simpa using hname
    | cons d ds =>
        have hmem : d ∈ names := List.mem_of_mem_drop (hd ▸ List.mem_cons_self)
        simpa using fun he : d = dotdot => hbelow (he ▸ hmem)
  constructor
  · rintro ⟨-, name, rest, heq, hname⟩
    by_cases hups : (walk p).ups ≤ names.length
    · rw [Nat.sub_eq_zero_of_le hups, List.replicate_zero, List.nil_append] at heq
      have hsplit : names.take (names.length - (walk p).ups) ++ (walk p).names.reverse =
          names.take (names.length - (walk p).ups) ++
            (names.drop (names.length - (walk p).ups) ++ name :: rest) := by
        rw [heq, ← List.append_assoc, List.take_append_drop]
      exact ⟨(walk p).ups, name, rest, hups, hname, by rw [List.append_cancel_left hsplit]⟩
    · obtain ⟨k, hk⟩ : ∃ k, (walk p).ups - names.length = k + 1 :=
        ⟨(walk p).ups - names.length - 1, by omega⟩
      rw [hk] at heq
      exact absurd (congrArg List.head? heq).symm (hhead 0 name rest hname)
  · rintro ⟨up, name, rest, hup, hname, heq⟩
    have hentered : (walk p).names.reverse.head? ≠ some dotdot :=
      head?_ne_dotdot fun h => (walk p).proper (List.mem_reverse.mp h)
    obtain ⟨hups, hwalk⟩ := replicate_append_inj hentered (hhead _ name rest hname) heq
    refine ⟨rfl, name, rest, ?_, hname⟩
    rw [hups, hwalk, Nat.sub_eq_zero_of_le hup, List.replicate_zero, List.nil_append,
      ← List.append_assoc, List.take_append_drop]

end Relative

end PosixPath
