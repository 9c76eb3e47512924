import LoanAgent.Transitions

/-! What a message that is not accepted leaves behind. The whole of
`ingest_inbound_message` is put together from its draft, its commit and its
replay. A rollback undoes the rows; the payloads are written while the session
is still open, and nothing removes them again. Proved: a message that is
refused or replayed leaves the rows as they were, and the files exactly when no
attachment before the first refused one carries a payload. -/

namespace LoanAgent

section Intake
variable (py : Python) (settings : Settings)

/-- How `ingest_inbound_message` ends. -/
inductive IntakeOutcome
  | accepted (ack : WebhookAck)
  | replayed (ack : WebhookAck)
  | raised (e : IntakeError)
  deriving DecidableEq

/-- `ingest_inbound_message`, with the rows and the files behind it. The open
application is looked up in `db`; the commit meets `db'`, where other sessions
may have committed since. -/
def ingestInboundMessage (db db' : Database) (files : List (FilePath × Bytes)) (r : Request)
    (draws : IntakeDraws) : IntakeOutcome × Database × List (FilePath × Bytes) :=
  let (drafted, written) := draftMessage py settings db r draws
  match drafted with
  | .error e => (.raised e, db', files ++ written)
  | .ok draft => match commitDraft draft db' with
    | .ok db'' => (.accepted draft.ack, db'', files ++ written)
    | .error .integrity => match replayAck db' (r.scopedKey py) (r.borrower py) with
      | some ack => (.replayed ack, db', files ++ written)
      | none => (.raised .integrity, db', files ++ written)
    | .error e => (.raised e, db', files ++ written)

/-- The checks of `_build_document`. -/
def AttachmentIn.accepted (x : AttachmentIn) : Bool :=
  x.fileType ∈ allowedFileTypes && match x.contentBase64 with
    | some content => (b64decode content).any (·.length ≤ settings.maxAttachmentBytes)
    | none => x.url.any fun url =>
      !(containsText url "..".toList || containsText (py.lower url) "%2e".toList)

end Intake

variable {py : Python} {settings : Settings}

/-! ### The steps of a request -/

/-- A process that drafts and then commits does what the whole call does. -/
theorem requestStep_ingest {s t : Store} {l : Proc py} {r : Request} {draws : IntakeDraws}
    (h : requestStep settings s r .draft (.draft draws) = some (t, l)) (db' : Database) :
    t.db = s.db ∧ t.files = (ingestInboundMessage py settings s.db db' s.files r draws).2.2 ∧
    ∀ draft, l = .request r (.commit draft) → ∀ (u u' : Store) (l' : Proc py),
      requestStep settings u r (.commit draft) .commitMessage = some (u', l') →
        u'.db = (ingestInboundMessage py settings s.db u.db s.files r draws).2.1 := by
  simp only [requestStep, Option.map_eq_some_iff] at h
  obtain ⟨t₀, hissue, h⟩ := h
  obtain ⟨-, rfl⟩ := issue_some.mp hissue
  obtain ⟨⟨drafted, written⟩, hd⟩ : ∃ p, draftMessage py settings s.db r draws = p := ⟨_, rfl⟩
  unfold ingestInboundMessage
  rw [hd] at h ⊢
  cases drafted with
  | error e =>
    cases h
    exact ⟨rfl, rfl, nofun⟩
  | ok draft =>
    cases h
    refine ⟨rfl, ?_, ?_⟩
    · dsimp only
      split
      · rfl
      · split <;> rfl
      · rfl
    · rintro draft' hl u u' l' hcommit
      cases hl
      simp only [requestStep] at hcommit
      dsimp only
      cases hc : commitDraft draft u.db with
      | ok db'' =>
        rw [hc] at hcommit
        cases hcommit
        rfl
      | error e =>
        rw [hc] at hcommit
        cases e <;> cases hcommit <;> first | rfl | (dsimp only; split <;> rfl)

/-! ### The files of a draft -/

/-- A document is built for an accepted attachment, with a file when it has a payload. -/
theorem accepted_content {x : AttachmentIn} {content : Text} (h : x.contentBase64 = some content) :
    x.accepted py settings = (decide (x.fileType ∈ allowedFileTypes) &&
      (b64decode content).any (·.length ≤ settings.maxAttachmentBytes)) := by
  unfold AttachmentIn.accepted
  rw [h]

theorem accepted_url {x : AttachmentIn} (h : x.contentBase64 = none) :
    x.accepted py settings = (decide (x.fileType ∈ allowedFileTypes) && x.url.any fun url =>
      !(containsText url "..".toList || containsText (py.lower url) "%2e".toList)) := by
  unfold AttachmentIn.accepted
  rw [h]

theorem buildDocument_accepted {x : AttachmentIn} {a u : Uuid} {d : Document}
    {file : Option (FilePath × Bytes)} (h : buildDocument py settings x a u = .ok (d, file)) :
    x.accepted py settings = true ∧ (file = none ↔ x.contentBase64 = none) := by
  unfold buildDocument at h
  split_ifs at h with htype
  split at h
  next content hcontent =>
    split at h
    · cases h
    next payload hdecode =>
      split_ifs at h with hsize
      cases h
      refine ⟨?_, iff_of_false nofun (by rw [hcontent]; nofun)⟩
      rw [accepted_content hcontent, decide_eq_true htype, hdecode]
      simpa using hsize
  next hcontent =>
    split at h
    · cases h
    next url hurl =>
      split_ifs at h with hdots
      cases h
      refine ⟨?_, iff_of_true rfl hcontent⟩
      rw [accepted_url hcontent, decide_eq_true htype, hurl]
      simpa using hdots

theorem buildDocument_refused {x : AttachmentIn} {a u : Uuid} {e : IntakeError}
    (h : buildDocument py settings x a u = .error e) : x.accepted py settings = false := by
  unfold buildDocument at h
  split_ifs at h with htype
  swap
  · unfold AttachmentIn.accepted
    rw [decide_eq_false htype, Bool.false_and]
  split at h
  next content hcontent =>
    rw [accepted_content hcontent]
    split at h
    next hdecode => rw [hdecode, Option.any_none, Bool.and_false]
    next payload hdecode =>
      split_ifs at h with hsize
      rw [hdecode, Option.any_some, decide_eq_false (Nat.not_le_of_lt hsize), Bool.and_false]
  next hcontent =>
    rw [accepted_url hcontent]
    split at h
    next hurl => rw [hurl, Option.any_none, Bool.and_false]
    next url hurl =>
      split_ifs at h with hdots
      rw [hurl, Option.any_some, hdots, Bool.not_true, Bool.and_false]

/-- No file is written exactly when no payload comes before a refused attachment. -/
theorem buildDocuments_files_nil {a : Uuid} (ids : ℕ → Uuid) (i : ℕ) (attachments : List AttachmentIn) :
    (buildDocuments py settings a ids i attachments).2 = [] ↔
      ∀ x ∈ attachments.takeWhile (AttachmentIn.accepted py settings), x.contentBase64 = none := by
  induction attachments generalizing i with
  | nil => simp [buildDocuments]
  | cons x rest ih =>
    cases hbuild : buildDocument py settings x a (ids i) with
    | error e => simp [buildDocuments, hbuild, buildDocument_refused hbuild]
    | ok p =>
      obtain ⟨d, file⟩ := p
      obtain ⟨hx, hfile⟩ := buildDocument_accepted hbuild
      simp only [buildDocuments, hbuild, List.append_eq_nil_iff, Option.toList_eq_nil_iff, hfile, ih,
        List.takeWhile_cons, hx, if_true, List.forall_mem_cons]

/-- Nor is a file written when the row of a new application is refused. -/
theorem draftMessage_files_nil (db : Database) (r : Request) (draws : IntakeDraws) :
    (draftMessage py settings db r draws).2 = [] ↔
      (db.latestOpen (r.borrower py) = none ∧
        (newApplication draws.application draws.now (r.borrower py)).fits = false) ∨
      ∀ x ∈ r.message.attachments.takeWhile (AttachmentIn.accepted py settings),
        x.contentBase64 = none := by
  rw [← buildDocuments_files_nil (a := ((db.latestOpen (r.borrower py)).getD
    (newApplication draws.application draws.now (r.borrower py))).id) draws.document 0]
  cases hopen : db.latestOpen (r.borrower py) with
  | none =>
    simp only [draftMessage, hopen, Option.isNone_none, Bool.true_and, Option.getD_none, true_and]
    cases (newApplication draws.application draws.now (r.borrower py)).fits <;> simp
  | some x => simp [draftMessage, hopen]

/-! ### What is left -/

variable (py settings) in
/-- The rows behind a call are those of the commit, where there was one. -/
theorem ingestInboundMessage_spec (db db' : Database) (files : List (FilePath × Bytes)) (r : Request)
    (draws : IntakeDraws) :
    (ingestInboundMessage py settings db db' files r draws).2.2 =
      files ++ (draftMessage py settings db r draws).2 ∧
    ((∃ ack, (ingestInboundMessage py settings db db' files r draws).1 = .accepted ack) ∨
      (ingestInboundMessage py settings db db' files r draws).2.1 = db') := by
  unfold ingestInboundMessage
  obtain ⟨drafted, written⟩ := draftMessage py settings db r draws
  cases drafted with
  | error e => exact ⟨rfl, .inr rfl⟩
  | ok draft =>
    dsimp only
    split
    · exact ⟨rfl, .inl ⟨_, rfl⟩⟩
    · split <;> exact ⟨rfl, .inr rfl⟩
    · exact ⟨rfl, .inr rfl⟩

/-- A message that raises or is replayed leaves the rows and the files as they
were exactly when it has not come to write a payload. -/
theorem refused_leaves_nothing_iff (settings : Settings) (db db' : Database)
    (files : List (FilePath × Bytes)) (r : Request) (draws : IntakeDraws)
    (h : ∀ ack, (ingestInboundMessage py settings db db' files r draws).1 ≠ .accepted ack) :
    (ingestInboundMessage py settings db db' files r draws).2 = (db', files) ↔
      (db.latestOpen (r.borrower py) = none ∧
        (newApplication draws.application draws.now (r.borrower py)).fits = false) ∨
      ∀ x ∈ r.message.attachments.takeWhile (AttachmentIn.accepted py settings),
        x.contentBase64 = none := by
  obtain ⟨hfiles, hdb⟩ := ingestInboundMessage_spec py settings db db' files r draws
  have hdb := hdb.resolve_left fun ⟨ack, hack⟩ => h ack hack
  rw [Prod.ext_iff, hdb, hfiles, ← draftMessage_files_nil]
  simp

/-! ### Payloads that stay -/

def payloadAttachment : AttachmentIn := plainAttachment "AAAA".toList (by decide)

def htmlAttachment : AttachmentIn :=
  linkedAttachment "text/html".toList "x".toList (by decide) length_x

/-- A payload, and behind it a type that is refused. -/
def htmlRequest : Request :=
  textRequest "alice".toList "x".toList "k".toList [payloadAttachment, htmlAttachment] length_alice length_x
    (by decide) (by decide)

/-- A payload under a key that the database has. -/
def repeatedRequest : Request :=
  textRequest "alice".toList "x".toList "k".toList [payloadAttachment] length_alice length_x (by decide)
    (by decide)

def repeatedDatabase : Database where
  applications := [⟨.ofNat 1, "alice".toList, .pendingDocs, 0⟩]
  communications := [⟨.ofNat 2, .ofNat 1, .sms, .inbound, some "x".toList, 0, some "alice:k".toList⟩]

/-- Refused or replayed, the payload stays. -/
theorem payload_stays :
    (ingestInboundMessage asciiPython sampleSettings {} {} [] htmlRequest (sampleIntake 1)).1 =
      .raised (.unsupportedMediaType "file_type 'text/html' is not accepted.".toList) ∧
    (ingestInboundMessage asciiPython sampleSettings {} {} [] htmlRequest (sampleIntake 1)).2 ≠ ({}, []) ∧
    (ingestInboundMessage asciiPython sampleSettings repeatedDatabase repeatedDatabase [] repeatedRequest
      (sampleIntake 1)).1 = .replayed ⟨.ofNat 1, "pending_docs".toList, .ofNat 2, []⟩ ∧
    (ingestInboundMessage asciiPython sampleSettings repeatedDatabase repeatedDatabase [] repeatedRequest
      (sampleIntake 1)).2 ≠ (repeatedDatabase, []) := by
  decide +kernel

theorem refused_leaves_nothing_iff_html :
    (ingestInboundMessage asciiPython sampleSettings {} {} [] htmlRequest (sampleIntake 1)).2 = ({}, []) ↔
      (Database.latestOpen {} (htmlRequest.borrower asciiPython) = none ∧
        (newApplication (.ofNat 100) 1 (htmlRequest.borrower asciiPython)).fits = false) ∨
      ∀ x ∈ htmlRequest.message.attachments.takeWhile (AttachmentIn.accepted asciiPython sampleSettings),
        x.contentBase64 = none := by
  have hrefused : (ingestInboundMessage asciiPython sampleSettings {} {} [] htmlRequest (sampleIntake 1)).1 =
      .raised (.unsupportedMediaType "file_type 'text/html' is not accepted.".toList) := by decide +kernel
  exact refused_leaves_nothing_iff sampleSettings {} {} [] htmlRequest (sampleIntake 1)
    (fun ack h => by rw [hrefused] at h; cases h)

end LoanAgent
