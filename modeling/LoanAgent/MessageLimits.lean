import LoanAgent.System

/-! The lengths of what a message stores. The schema, the header check and the
columns state their limits apart, and the key that is stored joins the borrower
and the request's key. Proved: every string of an accepted message fits its
column, except that the joined key does so exactly when the borrower leaves room
for the key, and otherwise the commit fails with an error that is not handled. -/

namespace LoanAgent

/-- The strings that `ingest_inbound_message` puts into rows, with the lengths of their columns. -/
def Draft.strings (draft : Draft) : List (ℕ × Text) :=
  (if draft.isNew then [(255, draft.application.externalBorrowerId)] else []) ++
    draft.communication.idempotencyKey.toList.map (Prod.mk 255) ++
    draft.documents.flatMap fun d => (100, d.fileType) ::
      (d.s3Path.toList.map (Prod.mk 1024) ++ d.contentSha256.toList.map (Prod.mk 64))

/-- Every string is no longer than its column. -/
def Draft.Within (draft : Draft) : Prop := ∀ x ∈ draft.strings, x.2.length ≤ x.1

namespace Request

/-- The length of the header, or of the fallback key. -/
def keyLength (r : Request) : ℕ := r.header.elim 37 List.length

end Request

section Lengths
variable {py : Python} {settings : Settings}

theorem length_pathSuffix_le (filename : Text) : (pathSuffix filename).length ≤ filename.length := by
  have hname : (pathName filename).length ≤ filename.length := by
    unfold pathName
    cases hl : ((filename.splitOn '/').filter fun s => s ≠ [] ∧ s ≠ ['.']).getLast? with
    | none => exact Nat.zero_le _
    | some name => exact (mem_splitOn (List.mem_filter.mp (List.mem_of_getLast? hl)).1).2.length_le
  unfold pathSuffix
  dsimp only
  split_ifs with h
  · rw [List.length_cons]
    omega
  · exact Nat.zero_le _

theorem length_storedName_le (u : Uuid) {filename : Text} (h : filename.length ≤ 255) :
    (storedName py u filename).length ≤ 36 + 255 := by
  have hsuffix := length_pathSuffix_le filename
  have hbin : ".bin".toList.length = 4 := rfl
  unfold storedName
  dsimp only
  split_ifs <;> rw [List.length_append, str_length] <;> omega

theorem length_uri_le (a u : Uuid) {filename : Text} (h : filename.length ≤ 255) :
    (persistDocument py settings a u filename).2.length ≤ 1024 := by
  have hname := @length_storedName_le py u _ h
  have hbucket : s3UriPrefix.length = 26 := rfl
  simp only [persistDocument, List.length_append, List.length_cons, str_length, hbucket]
  omega

/-- What a document that is built puts into its row. -/
theorem buildDocument_lengths (hsha : ∀ b, (py.sha256 b).length = 64) {x : AttachmentIn} {a u : Uuid}
    {d : Document} {file : Option (FilePath × Bytes)}
    (h : buildDocument py settings x a u = .ok (d, file)) :
    d.fileType.length ≤ 100 ∧ (∀ s ∈ d.s3Path, s.length ≤ 1024) ∧ ∀ s ∈ d.contentSha256, s.length ≤ 64 := by
  have hupload : "upload.bin".toList.length ≤ 255 := by decide
  unfold buildDocument at h
  split_ifs at h
  split at h
  · split at h
    · cases h
    next payload _ =>
      split_ifs at h
      simp only [Except.ok.injEq, Prod.mk.injEq] at h
      obtain ⟨rfl, -⟩ := h
      refine ⟨x.fileType_length.2, ?_, fun s hs => ?_⟩
      · rintro s ⟨⟩
        refine length_uri_le a u ?_
        cases hname : x.filename with
        | none => exact hupload
        | some name =>
          dsimp only
          split_ifs
          · exact hupload
          · exact x.filename_length name hname
      · rw [← Option.some.inj hs, hsha]
  · split at h
    · cases h
    next url hurl =>
      split_ifs at h
      simp only [Except.ok.injEq, Prod.mk.injEq] at h
      obtain ⟨rfl, -⟩ := h
      exact ⟨x.fileType_length.2, fun s hs => x.url_length s (hurl.trans hs), nofun⟩

theorem mem_buildDocuments {a : Uuid} {ids : ℕ → Uuid} {i : ℕ} {attachments : List AttachmentIn}
    {docs : List Document} (h : (buildDocuments py settings a ids i attachments).1 = .ok docs) {d : Document}
    (hd : d ∈ docs) : ∃ x ∈ attachments, ∃ u file, buildDocument py settings x a u = .ok (d, file) := by
  induction attachments generalizing i docs with
  | nil =>
    cases h
    cases hd
  | cons x rest ih =>
    simp only [buildDocuments] at h
    cases hx : buildDocument py settings x a (ids i) with
    | error e =>
      rw [hx] at h
      cases h
    | ok r =>
      rw [hx] at h
      cases hrest : (buildDocuments py settings a ids (i + 1) rest).1 with
      | error e =>
        simp only [hrest] at h
        cases h
      | ok others =>
        simp only [hrest] at h
        cases h
        rcases List.mem_cons.mp hd with rfl | hd
        · exact ⟨x, List.mem_cons_self, _, _, hx⟩
        · obtain ⟨y, hy, hbuilt⟩ := ih hrest hd
          exact ⟨y, List.mem_cons_of_mem _ hy, hbuilt⟩

theorem length_idempotencyKey (hsha : ∀ b, (py.sha256 b).length = 64) (r : Request) :
    (r.idempotencyKey py).length = r.keyLength := by
  have hauto : "auto-".toList.length = 5 := rfl
  unfold Request.idempotencyKey Request.keyLength
  cases r.header with
  | none =>
    simp only [Option.getD_none, Option.elim_none, fallbackIdempotencyKey, List.length_append, List.length_take,
      hsha, hauto]
    rfl
  | some key => rfl

theorem length_scopedKey (hsha : ∀ b, (py.sha256 b).length = 64) (r : Request) :
    (r.scopedKey py).length = (r.borrower py).length + 1 + r.keyLength := by
  rw [Request.scopedKey, List.length_append, List.length_cons, length_idempotencyKey hsha]
  omega

theorem length_borrower_le (r : Request) : (r.borrower py).length ≤ 255 :=
  (stripBy_slice _ _).length_le.trans r.message.userId_length.2

/-- The documents of a draft are built from the attachments of its message. -/
theorem draftMessage_documents {db : Database} {r : Request} {draws : IntakeDraws} {draft : Draft}
    {files : List (FilePath × Bytes)} (h : draftMessage py settings db r draws = (.ok draft, files)) {d : Document}
    (hd : d ∈ draft.documents) :
    ∃ x ∈ r.message.attachments, ∃ a u file, buildDocument py settings x a u = .ok (d, file) := by
  unfold draftMessage at h
  dsimp only at h
  split_ifs at h
  · cases h
  obtain ⟨⟨docs, written⟩, hb⟩ : ∃ p, buildDocuments py settings
    ((db.latestOpen (r.borrower py)).getD (newApplication draws.application draws.now (r.borrower py))).id
    draws.document 0 r.message.attachments = p := ⟨_, rfl⟩
  rw [hb] at h
  cases docs with
  | error e => cases h
  | ok docs =>
    cases h
    obtain ⟨x, hx, u, file, hbuilt⟩ := mem_buildDocuments (congrArg Prod.fst hb) hd
    exact ⟨x, hx, _, u, file, hbuilt⟩

/-- Every string of a draft fits its column exactly when the scoped key does. -/
theorem within_iff_scopedKey (hsha : ∀ b, (py.sha256 b).length = 64) {db : Database} {r : Request}
    {draws : IntakeDraws} {draft : Draft} {files : List (FilePath × Bytes)}
    (h : draftMessage py settings db r draws = (.ok draft, files)) :
    draft.Within ↔ (r.scopedKey py).length ≤ 255 := by
  have hdrafted := draftMessage_ok h
  simp only [Draft.Within, Draft.strings, hdrafted.key, Option.toList_some, List.map_cons, List.map_nil]
  constructor
  · intro hall
    exact hall (255, r.scopedKey py) (by simp)
  · intro hkey x hx
    simp only [List.mem_append, List.mem_flatMap, List.mem_cons, List.not_mem_nil, or_false, List.mem_map,
      Option.mem_toList] at hx
    rcases hx with (hx | rfl) | ⟨d, hd, rfl | ⟨s, hs, rfl⟩ | ⟨s, hs, rfl⟩⟩
    · split_ifs at hx
      · obtain rfl := List.mem_singleton.mp hx
        rw [hdrafted.borrower]
        exact length_borrower_le r
      · cases hx
    · exact hkey
    all_goals
      obtain ⟨y, -, a, u, file, hbuilt⟩ := draftMessage_documents h hd
      obtain ⟨htype, hpath, hdigest⟩ := buildDocument_lengths hsha hbuilt
    · exact htype
    · exact hpath s hs
    · exact hdigest s hs

/-- An accepted message stores no string that is too long exactly when the
borrower and the key leave room for each other; otherwise its commit fails. -/
theorem draftMessage_within_iff (hsha : ∀ b, (py.sha256 b).length = 64) {db : Database} {r : Request}
    {draws : IntakeDraws} {draft : Draft} {files : List (FilePath × Bytes)}
    (h : draftMessage py settings db r draws = (.ok draft, files)) :
    (draft.Within ↔ (r.borrower py).length + 1 + r.keyLength ≤ 255) ∧
      (¬ draft.Within → ∀ db', commitDraft draft db' = .error .database) := by
  refine ⟨by rw [within_iff_scopedKey hsha h, length_scopedKey hsha], fun hlong db' => ?_⟩
  rw [within_iff_scopedKey hsha h] at hlong
  have hfits : draft.communication.fits = false := by
    simp [Communication.fits, fitsColumn, (draftMessage_ok h).key, hlong]
  rw [commitDraft, hfits, Bool.false_and]
  exact if_pos rfl

end Lengths

/-! ### A long borrower -/

theorem length_longName : 1 ≤ (List.replicate 254 'a').length ∧ (List.replicate 254 'a').length ≤ 255 := by
  rw [List.length_replicate]
  decide

/-- A borrower of 254 characters with a key of two. -/
def longBorrower : Request :=
  textRequest (List.replicate 254 'a') "x".toList "k1".toList [] length_longName length_x length_k1
    length_unattached

/-- The draft of a request into an empty database. -/
theorem draftMessage_isOk {r : Request}
    (h : (draftMessage asciiPython sampleSettings {} r (sampleIntake 1)).1.isOk) :
    ∃ draft files, draftMessage asciiPython sampleSettings {} r (sampleIntake 1) = (.ok draft, files) := by
  obtain ⟨⟨drafted, files⟩, hd⟩ : ∃ p, draftMessage asciiPython sampleSettings {} r (sampleIntake 1) = p :=
    ⟨_, rfl⟩
  rw [hd] at h
  cases drafted with
  | error e => cases h
  | ok draft => exact ⟨draft, files, hd⟩

theorem longBorrower_too_long : ¬ ∀ settings db r draws draft files,
    draftMessage asciiPython settings db r draws = (.ok draft, files) → draft.Within := by
  intro h
  obtain ⟨draft, files, hd⟩ := draftMessage_isOk (r := longBorrower) (by decide +kernel)
  have hkey := (within_iff_scopedKey (fun _ => List.length_replicate) hd).mp (h _ _ _ _ _ _ hd)
  revert hkey
  decide +kernel

theorem draftMessage_within_iff_longBorrower : ∃ draft files,
    draftMessage asciiPython sampleSettings {} longBorrower (sampleIntake 1) = (.ok draft, files) ∧
      (draft.Within ↔ (longBorrower.borrower asciiPython).length + 1 + longBorrower.keyLength ≤ 255) ∧
      (¬ draft.Within → ∀ db', commitDraft draft db' = .error .database) := by
  obtain ⟨draft, files, hd⟩ := draftMessage_isOk (r := longBorrower) (by decide +kernel)
  exact ⟨draft, files, hd, draftMessage_within_iff (fun _ => List.length_replicate) hd⟩

end LoanAgent
