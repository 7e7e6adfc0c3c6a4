import WageFix.Kyc.Evidence
import WageFix.Multipart.Submission

-- The requests of the handler as they are sent: bodies of parts, in chunks.
namespace WageFix.Kyc

open Multipart (BodyPart Entry Form Library Limits Text UploadFile Fits Unbroken encode)

-- FastAPI gives a parameter the last value under its name, and wants a file.
def requestOf (entries : List (Text × Entry)) : Option Request :=
  match Store.lastAt "passport".toList entries, Store.lastAt "selfie".toList entries with
  | some (.upload passport), some (.upload selfie) =>
      some ⟨⟨passport.filename, passport.file⟩, ⟨selfie.filename, selfie.file⟩⟩
  | _, _ => none

-- A body that a client has cut into chunks, with what its request takes from Python.
structure Post where
  lib : Library
  boundary : Multipart.Bytes
  parts : List BodyPart
  epilogue : Multipart.Bytes
  chunks : List Multipart.Bytes

-- What the client means by it.
def Post.request (limits : Limits) (p : Post) : Option Request :=
  (if Fits p.lib limits 0 0 p.parts then p.parts.mapM (BodyPart.entry p.lib) else none).bind
    requestOf

section Serve

variable {File : Type} [DecidableEq File] (limits : Limits) (resolve : Path → File)

-- POST /kyc_check. A body that is not such a form is answered with an error.
def post (p : Post) (faults : Faults) (dir : Store File Bytes) : Option Status × Store File Bytes :=
  match (Multipart.parse p.lib limits p.boundary p.chunks).bind fun f => requestOf f.entries with
  | none => (none, dir)
  | some r => kycCheck resolve r faults dir

def serve (dir : Store File Bytes) (posts : List (Post × Faults)) : Store File Bytes :=
  posts.foldl (fun dir p => (post limits resolve p.1 p.2 dir).2) dir

end Serve

section Received

variable {lib : Library} {limits : Limits}

theorem exists_of_mem_mapM {α β : Type} {act : α → Option β} {as : List α} {bs : List β} {b : β}
    (h : as.mapM act = some bs) (hb : b ∈ bs) : ∃ a ∈ as, act a = some b := by
  induction as generalizing bs with
  | nil =>
      cases h
      exact absurd hb List.not_mem_nil
  | cons a as ih =>
      rw [List.mapM_cons] at h
      obtain ⟨first, hfirst, h⟩ := Option.bind_eq_some_iff.mp h
      obtain ⟨rest, hrest, h⟩ := Option.bind_eq_some_iff.mp h
      cases h
      rcases List.mem_cons.mp hb with rfl | hb
      · exact ⟨a, List.mem_cons_self, hfirst⟩
      · obtain ⟨a', ha', hact⟩ := ih hrest hb
        exact ⟨a', List.mem_cons_of_mem a ha', hact⟩

-- A part that puts a file in the form is sent as that file.
theorem received_of_entry {p : BodyPart} {name : Text} {u : UploadFile}
    (h : p.entry lib = some (name, .upload u)) :
    ∃ value, p.contentDisposition = some value ∧
      (SentFile.mk value p.content).received lib = some ⟨u.filename, u.file⟩ := by
  obtain ⟨text, hname, h⟩ := Option.bind_eq_some_iff.mp h
  obtain ⟨entry, hentry, h⟩ := Option.bind_eq_some_iff.mp h
  cases h
  unfold BodyPart.name at hname
  unfold BodyPart.value BodyPart.rawFilename at hentry
  cases hvalue : p.contentDisposition with
  | none =>
      rw [hvalue] at hname
      cases hname
  | some value =>
      rw [hvalue] at hname hentry
      refine ⟨value, rfl, ?_⟩
      cases hraw : Multipart.rawFilename lib (some value) with
      | none =>
          rw [hraw] at hentry
          obtain ⟨decoded, -, hentry⟩ := Option.bind_eq_some_iff.mp hentry
          cases hentry
      | some rawName =>
          rw [hraw] at hentry
          obtain ⟨filename, hfilename, hentry⟩ := Option.bind_eq_some_iff.mp hentry
          cases hentry
          simp [SentFile.received, hname, hraw, hfilename]

theorem requestOf_eq_some {entries : List (Text × Entry)} {r : Request}
    (h : requestOf entries = some r) :
    ∃ passport selfie : UploadFile, ("passport".toList, .upload passport) ∈ entries ∧
      ("selfie".toList, .upload selfie) ∈ entries ∧
      r = ⟨⟨passport.filename, passport.file⟩, ⟨selfie.filename, selfie.file⟩⟩ := by
  unfold requestOf at h
  split at h
  · rename_i passport selfie hpassport hselfie
    cases h
    exact ⟨passport, selfie, Store.mem_of_lastAt hpassport, Store.mem_of_lastAt hselfie, rfl⟩
  · cases h

-- The handler is given what two of the parts are sent as.
theorem Post.exists_sent {p : Post} {r : Request} (h : p.request limits = some r) :
    ∃ sent : Sent, sent.received p.lib = some r ∧
      (∃ part ∈ p.parts, part.contentDisposition = some sent.passport.contentDisposition ∧
        part.content = sent.passport.file) ∧
      ∃ part ∈ p.parts, part.contentDisposition = some sent.selfie.contentDisposition ∧
        part.content = sent.selfie.file := by
  obtain ⟨entries, hentries, hrequest⟩ := Option.bind_eq_some_iff.mp h
  split_ifs at hentries
  obtain ⟨passport, selfie, hpassport, hselfie, rfl⟩ := requestOf_eq_some hrequest
  obtain ⟨part, hpart, hentry⟩ := exists_of_mem_mapM hentries hpassport
  obtain ⟨part', hpart', hentry'⟩ := exists_of_mem_mapM hentries hselfie
  obtain ⟨value, hvalue, hreceived⟩ := received_of_entry hentry
  obtain ⟨value', hvalue', hreceived'⟩ := received_of_entry hentry'
  refine ⟨⟨⟨value, part.content⟩, ⟨value', part'.content⟩⟩, ?_,
    ⟨part, hpart, hvalue, rfl⟩, ⟨part', hpart', hvalue', rfl⟩⟩
  simp [Sent.received, hreceived, hreceived']

end Received

theorem Post.parsed (limits : Limits) (p : Post) (hcr : Multipart.CR ∉ p.boundary)
    (hparts : ∀ part ∈ p.parts, Unbroken p.boundary part.content)
    (hcut : p.chunks.flatten = encode p.boundary p.parts ++ p.epilogue) :
    ((Multipart.parse p.lib limits p.boundary p.chunks).bind fun f => requestOf f.entries) =
      p.request limits := by
  have hentries : (Multipart.parse p.lib limits p.boundary p.chunks).map Form.entries =
      if Fits p.lib limits 0 0 p.parts then p.parts.mapM (BodyPart.entry p.lib) else none := by
    rw [Multipart.parse_eq hcr, hcut, Multipart.run_encode hcr hparts]
    exact Multipart.entries_formOf p.parts
  rw [Post.request, ← hentries, Option.bind_map]
  rfl

-- What a run of bodies leaves in the upload directory is what a run of the
-- requests leaves that they were sent for. Those that ask for no handler change
-- nothing.
theorem served_as_sent {File : Type} [DecidableEq File] (limits : Limits)
    (resolve : Path → File) (dir : Store File Bytes) (posts : List (Post × Faults))
    (hcr : ∀ p ∈ posts, Multipart.CR ∉ p.1.boundary)
    (hparts : ∀ p ∈ posts, ∀ part ∈ p.1.parts, Unbroken p.1.boundary part.content)
    (hcut : ∀ p ∈ posts, p.1.chunks.flatten = encode p.1.boundary p.1.parts ++ p.1.epilogue) :
    serve limits resolve dir posts =
      run resolve dir (posts.filterMap fun p => (p.1.request limits).map fun r => (r, p.2)) := by
  induction posts generalizing dir with
  | nil => rfl
  | cons p posts ih =>
      have hparsed := p.1.parsed limits (hcr p List.mem_cons_self) (hparts p List.mem_cons_self)
        (hcut p List.mem_cons_self)
      have hpost : post limits resolve p.1 p.2 dir =
          (p.1.request limits).elim (none, dir) fun r => kycCheck resolve r p.2 dir := by
        rw [post, hparsed]
        cases p.1.request limits <;> rfl
      have hrest : ∀ dir, serve limits resolve dir posts = _ := fun dir =>
        ih dir (fun q hq => hcr q (List.mem_cons_of_mem p hq))
          (fun q hq => hparts q (List.mem_cons_of_mem p hq))
          fun q hq => hcut q (List.mem_cons_of_mem p hq)
      show serve limits resolve (post limits resolve p.1 p.2 dir).2 posts = _
      rw [hrest, hpost]
      cases hrequest : p.1.request limits with
      | none =>
          rw [List.filterMap_cons_none (by rw [hrequest]; rfl)]
          rfl
      | some r =>
          rw [List.filterMap_cons_some (by rw [hrequest]; rfl)]
          rfl

-- A note between the files, and the whole body in one chunk.
def applicantPost : Post where
  lib := Multipart.sampleLibrary
  boundary := Multipart.ascii "b"
  parts := [Multipart.passportPart [1], Multipart.notePart [65], Multipart.selfiePart [2]]
  epilogue := []
  chunks := [encode (Multipart.ascii "b")
    [Multipart.passportPart [1], Multipart.notePart [65], Multipart.selfiePart [2]]]

-- The same body under a charset whose codec always raises: no handler is run.
def undefinedPost : Post :=
  { applicantPost with lib := { Multipart.sampleLibrary with codec _ := .raised } }

theorem served_as_sent_applicant :
    serve {} id (fun _ => none) [(applicantPost, ⟨.none, .none⟩), (undefinedPost, ⟨.none, .none⟩)] =
      run id (fun _ => none)
        [(⟨⟨"p.jpg".toList, [1]⟩, ⟨"s.jpg".toList, [2]⟩⟩, ⟨.none, .none⟩)] := by
  have hrequest : applicantPost.request {} =
      some ⟨⟨"p.jpg".toList, [1]⟩, ⟨"s.jpg".toList, [2]⟩⟩ := by
    decide +kernel
  have hraised : undefinedPost.request {} = none := by decide +kernel
  have hserved := served_as_sent {} id (fun _ => none)
    [(applicantPost, ⟨.none, .none⟩), (undefinedPost, ⟨.none, .none⟩)] (by decide +kernel)
    (by decide +kernel) (by simp [applicantPost, undefinedPost])
  simpa [hrequest, hraised] using hserved

end WageFix.Kyc
