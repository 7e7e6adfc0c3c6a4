import WageFix.Kyc

namespace WageFix.Kyc

section Writes

variable {File : Type}

def saved (resolve : Path → File) (path : Path) (content : Bytes) : Fault → List (File × Bytes)
  | .none => [(resolve path, content)]
  | .opening => []
  | .writing written => [(resolve path, content.take written)]

def writes (resolve : Path → File) (r : Request) (faults : Faults) : List (File × Bytes) :=
  saved resolve r.passportPath r.passport.file faults.passport ++
    if faults.passport = .none then saved resolve r.selfiePath r.selfie.file faults.selfie else []

def allWrites (resolve : Path → File) (requests : List (Request × Faults)) : List (File × Bytes) :=
  requests.flatMap fun r => writes resolve r.1 r.2

theorem saved_fst (resolve : Path → File) (path : Path) (content : Bytes) (fault : Fault) :
    (saved resolve path content fault).map Prod.fst = (openedBy path fault).map resolve := by
  cases fault <;> rfl

-- A file is written exactly where it is opened.
theorem writes_fst (resolve : Path → File) (r : Request) (faults : Faults) :
    (writes resolve r faults).map Prod.fst = (opened r faults).map resolve := by
  rw [writes, opened, List.map_append, List.map_append, saved_fst]
  congr 1
  split_ifs
  · exact saved_fst ..
  · rfl

variable [DecidableEq File] {resolve : Path → File} {dir : Store File Bytes}

theorem kycCheck_eq (r : Request) (faults : Faults) :
    kycCheck resolve r faults dir =
      (if faults.passport = .none ∧ faults.selfie = .none then some r.status else none,
        dir.putAll (writes resolve r faults)) := by
  rcases faults with ⟨passport, selfie⟩
  cases passport with
  | none => cases selfie <;> rfl
  | opening => rfl
  | writing written => rfl

theorem run_eq (requests : List (Request × Faults)) :
    run resolve dir requests = dir.putAll (allWrites resolve requests) := by
  induction requests generalizing dir with
  | nil => rfl
  | cons r requests ih =>
      have hwrites : allWrites resolve (r :: requests) =
          writes resolve r.1 r.2 ++ allWrites resolve requests := rfl
      show run resolve (kycCheck resolve r.1 r.2 dir).2 requests = _
      rw [ih, kycCheck_eq, hwrites, Store.putAll_append]

theorem run_split (earlier later : List (Request × Faults)) (r : Request) (faults : Faults) :
    run resolve dir (earlier ++ (r, faults) :: later) =
      ((run resolve dir earlier).putAll (writes resolve r faults)).putAll
        (allWrites resolve later) := by
  have hwrites : allWrites resolve (earlier ++ (r, faults) :: later) =
      allWrites resolve earlier ++ (writes resolve r faults ++ allWrites resolve later) :=
    List.flatMap_append
  rw [run_eq, run_eq, hwrites, Store.putAll_append, Store.putAll_append]

theorem writes_of_returned {r : Request} {faults : Faults}
    (h : (kycCheck resolve r faults dir).1 ≠ none) :
    writes resolve r faults =
      [(resolve r.passportPath, r.passport.file), (resolve r.selfiePath, r.selfie.file)] := by
  rw [kycCheck_eq] at h
  by_cases hfaults : faults.passport = .none ∧ faults.selfie = .none
  · rw [writes, hfaults.1, hfaults.2]
    rfl
  · exact absurd (if_neg hfaults) h

theorem putAll_of_returned {r : Request} {faults : Faults}
    (h : (kycCheck resolve r faults dir).1 ≠ none)
    (hdistinct : resolve r.passportPath ≠ resolve r.selfiePath) :
    dir.putAll (writes resolve r faults) (resolve r.passportPath) = some r.passport.file ∧
      dir.putAll (writes resolve r faults) (resolve r.selfiePath) = some r.selfie.file := by
  have hput : dir.putAll (writes resolve r faults) =
      (dir.put (resolve r.passportPath, r.passport.file)).put
        (resolve r.selfiePath, r.selfie.file) := by
    rw [writes_of_returned h]
    rfl
  rw [hput]
  constructor
  · rw [Store.put_apply, Store.put_apply, if_neg (Ne.symm hdistinct), if_pos rfl]
  · rw [Store.put_apply, if_pos rfl]

theorem kycCheck_of_not_opened {r : Request} {faults : Faults} {file : File}
    (h : ∀ path ∈ opened r faults, resolve path ≠ file) :
    (kycCheck resolve r faults dir).2 file = dir file := by
  rw [kycCheck_eq]
  apply Store.putAll_of_not_written
  intro w hw
  have hopened : w.1 ∈ (opened r faults).map resolve := by
    rw [← writes_fst]
    exact List.mem_map_of_mem hw
  obtain ⟨path, hpath, heq⟩ := List.mem_map.mp hopened
  rw [← heq]
  exact h path hpath

-- The paths of `opened` are those whose files the handler can change.
theorem mem_opened_iff (r : Request) (faults : Faults) (path : Path) :
    path ∈ opened r faults ↔ ∃ dir, (kycCheck id r faults dir).2 path ≠ dir path := by
  have hpaths : (writes id r faults).map Prod.fst = opened r faults := by
    rw [writes_fst, List.map_id]
  have hkept : (∀ dir : Store Path Bytes, dir.putAll (writes id r faults) path = dir path) ↔
      path ∉ opened r faults := by
    rw [Store.putAll_kept_iff, ← hpaths, List.mem_map]
    constructor
    · rintro hnone ⟨w, hw, heq⟩
      exact hnone w hw heq
    · intro hnone w hw heq
      exact hnone ⟨w, hw, heq⟩
  simp only [kycCheck_eq]
  rw [← not_iff_not, ← hkept]
  push Not
  rfl

end Writes

-- What a failed request must meet to leave it as it was: the same evidence, cut
-- where its own writing failed.
def LeftAsFound {File : Type} (resolve : Path → File) (r : Request) (found : Store File Bytes) :
    Faults → Prop
  | ⟨.opening, _⟩ => True
  | ⟨.writing written, _⟩ =>
      found (resolve r.passportPath) = some (r.passport.file.take written)
  | ⟨.none, .opening⟩ => found (resolve r.passportPath) = some r.passport.file
  | ⟨.none, .writing written⟩ =>
      (resolve r.passportPath ≠ resolve r.selfiePath →
        found (resolve r.passportPath) = some r.passport.file) ∧
      found (resolve r.selfiePath) = some (r.selfie.file.take written)
  -- such a request has not failed
  | ⟨.none, .none⟩ => False

theorem failed_eq_found_iff {File : Type} [DecidableEq File] {resolve : Path → File}
    {found : Store File Bytes} {r : Request} {faults : Faults}
    (h : (kycCheck resolve r faults found).1 = none) :
    (kycCheck resolve r faults found).2 = found ↔ LeftAsFound resolve r found faults := by
  rw [kycCheck_eq] at h ⊢
  rcases faults with ⟨passport, selfie⟩
  cases passport with
  | opening => exact iff_of_true rfl trivial
  | writing written => exact Store.put_eq_self_iff
  | none =>
      cases selfie with
      | opening => exact Store.put_eq_self_iff
      | writing written => exact Store.put_put_eq_self_iff
      | none => exact absurd h (Option.some_ne_none r.status)

-- A request that returned a status has its evidence in its two files at the
-- end exactly where these are two, and whatever a later request wrote there
-- last is the same. A request that failed has left the directory as it found it
-- exactly where what it wrote was there, and has changed only what it opened.
theorem evidence_kept_iff {File : Type} [DecidableEq File] (resolve : Path → File)
    (dir : Store File Bytes) (earlier later : List (Request × Faults)) (r : Request)
    (faults : Faults) :
    let found := run resolve dir earlier
    let final := run resolve dir (earlier ++ (r, faults) :: later)
    let passport := resolve r.passportPath
    let selfie := resolve r.selfiePath
    ((kycCheck resolve r faults found).1 ≠ none →
      ((passport ≠ selfie ∧ final passport = some r.passport.file ∧
          final selfie = some r.selfie.file) ↔
        passport ≠ selfie ∧
          (∀ b, Store.lastAt passport (allWrites resolve later) = some b → b = r.passport.file) ∧
          ∀ b, Store.lastAt selfie (allWrites resolve later) = some b → b = r.selfie.file)) ∧
    ((kycCheck resolve r faults found).1 = none →
      ((kycCheck resolve r faults found).2 = found ↔ LeftAsFound resolve r found faults) ∧
      ∀ file, (∀ path ∈ opened r faults, resolve path ≠ file) →
        (kycCheck resolve r faults found).2 file = found file) := by
  intro found final passport selfie
  have hfinal : final = (found.putAll (writes resolve r faults)).putAll (allWrites resolve later) :=
    run_split earlier later r faults
  constructor
  · intro hreturned
    apply and_congr_right
    intro hdistinct
    obtain ⟨hpassport, hselfie⟩ := putAll_of_returned hreturned hdistinct
    rw [hfinal, Store.putAll_eq_some_iff hpassport, Store.putAll_eq_some_iff hselfie]
  · intro hfailed
    exact ⟨failed_eq_found_iff hfailed, fun file => kycCheck_of_not_opened⟩

def mobile (passport selfie : Bytes) : Request :=
  ⟨⟨"passport.jpg".toList, passport⟩, ⟨"selfie.jpg".toList, selfie⟩⟩

def named : Request × Faults :=
  (⟨⟨"passport-2.jpg".toList, [3]⟩, ⟨"selfie-2.jpg".toList, [4]⟩⟩, ⟨.none, .none⟩)

def applicants : List (Request × Faults) :=
  [(mobile [1] [2], ⟨.none, .none⟩), (mobile [3] [4], ⟨.none, .none⟩)]

def firstPassport : Store Path Bytes := fun path =>
  if path = (mobile [] []).passportPath then some [1] else none

-- A later applicant with other names leaves the evidence as it is, and so does
-- the first one again, who fails at the selfie.
theorem evidence_kept_named :
    run id (fun _ => none) [(mobile [1] [2], ⟨.none, .none⟩), named]
      (mobile [1] [2]).selfiePath = some [2] ∧
    (kycCheck id (mobile [1] [4]) ⟨.none, .opening⟩ firstPassport).2 = firstPassport := by
  have hpassport : Store.lastAt (mobile [1] [2]).passportPath (allWrites id [named]) = none := by
    decide +kernel
  have hselfie : Store.lastAt (mobile [1] [2]).selfiePath (allWrites id [named]) = none := by
    decide +kernel
  have hkept := (evidence_kept_iff id (fun _ => none) [] [named] (mobile [1] [2])
    ⟨.none, .none⟩).1 (by decide +kernel)
  have hfailed := (evidence_kept_iff id firstPassport [] [] (mobile [1] [4])
    ⟨.none, .opening⟩).2 rfl
  constructor
  · exact (hkept.mpr ⟨by decide +kernel, fun b hb => absurd (hpassport.symm.trans hb) (by simp),
      fun b hb => absurd (hselfie.symm.trans hb) (by simp)⟩).2.2
  · exact hfailed.1.mpr rfl

-- The second applicant overwrites the first, and a request that fails at its
-- selfie has replaced the passport before.
theorem mobile_overwrites :
    (¬ ∃ f g, f ≠ g ∧ run id (fun _ => none) applicants f = some [1] ∧
      run id (fun _ => none) applicants g = some [2]) ∧
    (kycCheck id (mobile [3] [4]) ⟨.none, .opening⟩ firstPassport).1 = none ∧
      (kycCheck id (mobile [3] [4]) ⟨.none, .opening⟩ firstPassport).2 ≠ firstPassport := by
  refine ⟨?_, rfl, fun heq => ?_⟩
  · rintro ⟨f, g, -, hf, -⟩
    have hwrites : allWrites id applicants =
        [((mobile [] []).passportPath, [1]), ((mobile [] []).selfiePath, [2]),
          ((mobile [] []).passportPath, [3]), ((mobile [] []).selfiePath, [4])] := rfl
    rw [run_eq, hwrites, Store.putAll_apply] at hf
    simp only [Store.lastAt, List.foldl_cons, List.foldl_nil] at hf
    split_ifs at hf <;> simp at hf
  · have hpassport := congrFun heq (mobile [] []).passportPath
    exact absurd hpassport (by decide +kernel)

end WageFix.Kyc
