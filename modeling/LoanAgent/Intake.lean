import LoanAgent.Json
import LoanAgent.ObjectStore

/-! Intake of an inbound message: the request and its validity, the key under
which it is deduplicated, the application it is filed under, its attachments
and the rows it adds. Proved: the scoped key joins the borrower and the
request's key by a colon, which is injective exactly on the pairs that do not
overlap, and the rows of an accepted attachment stay inside the folder of its
application. -/

namespace LoanAgent

/-! ### Requests -/

structure AttachmentIn where
  fileType : Text
  filename : Option Text := none
  contentBase64 : Option Text := none
  url : Option Text := none
  fileType_length : 3 ≤ fileType.length ∧ fileType.length ≤ 100
  filename_length : ∀ s, filename = some s → s.length ≤ 255
  content_length : ∀ s, contentBase64 = some s → s.length ≤ 40000000
  url_length : ∀ s, url = some s → s.length ≤ 1024
  payload_or_url : contentBase64 ≠ none ∨ url ≠ none
  deriving DecidableEq

structure IncomingMessageWebhook where
  userId : Text
  channel : Channel
  text : Option Text := none
  sentAt : Option Datetime := none
  attachments : List AttachmentIn := []
  userId_length : 1 ≤ userId.length ∧ userId.length ≤ 255
  text_length : ∀ s, text = some s → s.length ≤ 20000
  attachments_length : attachments.length ≤ 10
  has_content : text ≠ none ∨ attachments ≠ []
  deriving DecidableEq

/-- A validated request: its message and the `Idempotency-Key` header. -/
structure Request where
  message : IncomingMessageWebhook
  header : Option Text
  header_length : ∀ s, header = some s → s.length ≤ 255
  deriving DecidableEq

/-- What the code answers with, and caches. -/
structure WebhookAck where
  applicationId : Uuid
  applicationStatus : Text
  communicationId : Uuid
  documentIds : List Uuid
  deriving DecidableEq

/-- The reasons why a message is refused. -/
inductive IntakeError
  | unsupportedMediaType (detail : Text)
  | invalidAttachment (detail : Text)
  | payloadTooLarge
  | integrity
  | database
  deriving DecidableEq

/-! ### Keys -/

section Keys
variable (py : Python)

/-- UTF-8, as `str.encode()`. -/
def encodeUtf8 (s : Text) : Bytes := s.flatMap String.utf8EncodeChar

/-- A member of a sorted JSON dump, left out when it is `None`. -/
def optionalMember (key : String) (value : Option Text) : List (Text × Text) :=
  value.toList.map fun v => (key.toList, jsonString true v)

def Channel.value : Channel → Text
  | .sms => "sms".toList
  | .email => "email".toList

/-- The attachment in the payload that is hashed; raw base64 is replaced by its digest. -/
def attachmentPayload (a : AttachmentIn) : Text :=
  jsonObject (optionalMember "content_base64_sha256"
      (a.contentBase64.map fun s => py.sha256 (encodeUtf8 s)) ++
    [("file_type".toList, jsonString true a.fileType)] ++ optionalMember "filename" a.filename ++
    optionalMember "url" a.url)

/-- `_fallback_idempotency_key`. -/
def fallbackIdempotencyKey (message : IncomingMessageWebhook) : Text :=
  let payload := jsonObject
    ([("attachments".toList, '[' :: (join ", ".toList (message.attachments.map (attachmentPayload py)) ++ [']'])),
      ("channel".toList, jsonString true message.channel.value)] ++
    optionalMember "sent_at" (message.sentAt.map py.jsonDatetime) ++ optionalMember "text" message.text ++
    [("user_id".toList, jsonString true message.userId)])
  "auto-".toList ++ (py.sha256 (encodeUtf8 payload)).take 32

namespace Request
variable (r : Request)

/-- `message.user_id.strip()`. -/
def borrower : Text := py.strip r.message.userId

def idempotencyKey : Text := r.header.getD (fallbackIdempotencyKey py r.message)

/-- `f"{user_id}:{idempotency_key}"`, the key in Redis and in the database. -/
def scopedKey : Text := r.borrower py ++ ':' :: r.idempotencyKey py

end Request

end Keys

namespace Request
variable {py : Python}

/-- The borrower of one request extends that of the other by a colon and a text
with which the key of the other begins. -/
def Extends (py : Python) (r r' : Request) : Prop :=
  ∃ w, r.borrower py = r'.borrower py ++ ':' :: w ∧ r'.idempotencyKey py = w ++ ':' :: r.idempotencyKey py

/-- Two pairs of a borrower and a key that their join does not tell apart. -/
def Overlap (py : Python) (r r' : Request) : Prop := Extends py r r' ∨ Extends py r' r

theorem extends_of_split {r r' : Request} {t : Text} (h : r.borrower py = r'.borrower py ++ t)
    (hkey : ':' :: r'.idempotencyKey py = t ++ ':' :: r.idempotencyKey py) :
    (r.borrower py = r'.borrower py ∧ r.idempotencyKey py = r'.idempotencyKey py) ∨ Extends py r r' := by
  cases t with
  | nil => exact .inl ⟨by simpa using h, by simpa using hkey.symm⟩
  | cons c w =>
    obtain ⟨rfl, hw⟩ := List.cons_eq_cons.mp hkey
    exact .inr ⟨w, h, hw⟩

theorem Extends.scopedKey {r r' : Request} (h : Extends py r r') : r.scopedKey py = r'.scopedKey py := by
  obtain ⟨w, hb, hk⟩ := h
  rw [Request.scopedKey, Request.scopedKey, hb, hk, List.append_assoc, List.cons_append]

/-- Two requests have the same scoped key exactly when they agree in both parts or overlap. -/
theorem scopedKey_eq_iff {r r' : Request} : r.scopedKey py = r'.scopedKey py ↔
    (r.borrower py = r'.borrower py ∧ r.idempotencyKey py = r'.idempotencyKey py) ∨ Overlap py r r' := by
  constructor
  · intro h
    rw [Request.scopedKey, Request.scopedKey, List.append_eq_append_iff] at h
    rcases h with ⟨t, hb, hk⟩ | ⟨t, hb, hk⟩
    · exact (extends_of_split hb hk).imp (fun h => ⟨h.1.symm, h.2.symm⟩) .inr
    · exact (extends_of_split hb hk).imp id .inl
  · rintro (⟨hb, hk⟩ | h | h)
    · rw [Request.scopedKey, Request.scopedKey, hb, hk]
    · exact h.scopedKey
    · exact h.scopedKey.symm

end Request

/-! ### Attachments -/

def base64Value (c : Char) : Option ℕ :=
  if 'A' ≤ c ∧ c ≤ 'Z' then some (c.toNat - 'A'.toNat)
  else if 'a' ≤ c ∧ c ≤ 'z' then some (c.toNat - 'a'.toNat + 26)
  else if c.isDigit then some (c.toNat - '0'.toNat + 52)
  else if c = '+' then some 62
  else if c = '/' then some 63
  else none

/-- The first `n` bytes of a group of four digits. -/
def base64Group (n : ℕ) (a b c d : Char) : Option Bytes := do
  let a ← base64Value a
  let b ← base64Value b
  let c ← base64Value c
  let d ← base64Value d
  let v := ((a * 64 + b) * 64 + c) * 64 + d
  pure ([UInt8.ofNat (v / 65536), UInt8.ofNat (v / 256), UInt8.ofNat v].take n)

/-- `base64.b64decode(s, validate=True)`. -/
def b64decode : Text → Option Bytes
  | [] => some []
  | [a, b, '=', '='] => base64Group 1 a b 'A' 'A'
  | [a, b, c, '='] => base64Group 2 a b c 'A'
  | a :: b :: c :: d :: rest => do
    let group ← base64Group 3 a b c d
    -- Behind complete groups any number of pads is accepted.
    if rest.all (· == '=') then pure group
    else
      let others ← b64decode rest
      pure (group ++ others)
  | _ => none

def allowedFileTypes : List Text :=
  ["application/pdf".toList, "text/plain".toList, "image/jpeg".toList, "image/png".toList]

section Documents
variable (py : Python) (settings : Settings)

/-- `_build_document`: the row, and the file that is written for a payload. -/
def buildDocument (attachment : AttachmentIn) (applicationId documentId : Uuid) :
    Except IntakeError (Document × Option (FilePath × Bytes)) :=
  if attachment.fileType ∉ allowedFileTypes then
    .error (.unsupportedMediaType ("file_type '".toList ++ attachment.fileType ++ "' is not accepted.".toList))
  else match attachment.contentBase64 with
    | some content => match b64decode content with
      | none => .error (.invalidAttachment "attachment content_base64 is not valid base64.".toList)
      | some payload =>
        if settings.maxAttachmentBytes < payload.length then .error .payloadTooLarge
        else
          let filename := match attachment.filename with
            | some name => if name = [] then "upload.bin".toList else name
            | none => "upload.bin".toList
          let (path, uri) := persistDocument py settings applicationId documentId filename
          .ok (⟨documentId, applicationId, attachment.fileType, none, some uri, some (py.sha256 payload)⟩,
            some (path, payload))
    | none => match attachment.url with
      | none => .error (.invalidAttachment
          "attachment url is required when content_base64 is absent.".toList)
      | some url =>
        if containsText url "..".toList || containsText (py.lower url) "%2e".toList then
          .error (.invalidAttachment "attachment url must not contain path traversal segments.".toList)
        else .ok (⟨documentId, applicationId, attachment.fileType, none, some url, none⟩, none)

/-- The rows and the files of the attachments up to the first that is refused;
files written before stay. The `i`-th document gets the identifier `ids i`. -/
def buildDocuments (applicationId : Uuid) (ids : ℕ → Uuid) :
    ℕ → List AttachmentIn → Except IntakeError (List Document) × List (FilePath × Bytes)
  | _, [] => (.ok [], [])
  | i, a :: rest => match buildDocument py settings a applicationId (ids i) with
    | .error e => (.error e, [])
    | .ok (d, file) =>
      let (docs, files) := buildDocuments applicationId ids (i + 1) rest
      (docs.map (d :: ·), file.toList ++ files)

end Documents

/-! ### The application and the message -/

/-- `OPEN_STATUSES`. -/
def openStatuses : List ApplicationStatus := [.pendingDocs, .processing, .manualReview]

def Application.isOpen (a : Application) : Bool := a.status ∈ openStatuses

def Database.openApplications (db : Database) (borrower : Text) : List Application :=
  db.applications.filter fun a => a.externalBorrowerId = borrower ∧ a.isOpen

/-- The `SELECT` of `_resolve_open_application`: the latest open application. -/
def Database.latestOpen (db : Database) (borrower : Text) : Option Application :=
  ((db.openApplications borrower).insertionSort fun a b => b.createdAt ≤ a.createdAt).head?

def newApplication (id : Uuid) (now : Time) (borrower : Text) : Application :=
  ⟨id, borrower, .pendingDocs, now⟩

/-- What a request has added to its session when it comes to the commit. -/
structure Draft where
  application : Application
  isNew : Bool
  communication : Communication
  documents : List Document

/-- The identifiers a request draws and the time it reads. -/
structure IntakeDraws where
  application : Uuid
  communication : Uuid
  document : ℕ → Uuid
  now : Time

section Session
variable (py : Python) (settings : Settings)

/-- `ingest_inbound_message` up to the commit, and the files it writes. -/
def draftMessage (db : Database) (r : Request) (draws : IntakeDraws) :
    Except IntakeError Draft × List (FilePath × Bytes) :=
  let borrower := r.borrower py
  let found := db.latestOpen borrower
  let application := found.getD (newApplication draws.application draws.now borrower)
  if found.isNone && !application.fits then (.error .database, [])
  else
    let communication : Communication := {
      id := draws.communication
      applicationId := application.id
      channel := r.message.channel
      direction := .inbound
      content := r.message.text
      timestamp := (r.message.sentAt.map Datetime.instant).getD draws.now
      idempotencyKey := some (r.scopedKey py) }
    let (docs, files) := buildDocuments py settings application.id draws.document 0 r.message.attachments
    (docs.map fun docs => ⟨application, found.isNone, communication, docs⟩, files)

/-- The unique index on `communications.idempotency_key`. -/
def Database.hasKey (db : Database) (key : Option Text) : Bool :=
  key.isSome && db.communications.any fun m => m.idempotencyKey = key

/-- The commit of a draft. -/
def commitDraft (draft : Draft) (db : Database) : Except IntakeError Database :=
  if !(draft.communication.fits && draft.documents.all Document.fits) then .error .database
  else if db.hasKey draft.communication.idempotencyKey then .error .integrity
  else .ok { db with
    applications := if draft.isNew then db.applications ++ [draft.application] else db.applications
    communications := db.communications ++ [draft.communication]
    documents := db.documents ++ draft.documents }

def Draft.ack (draft : Draft) : WebhookAck where
  applicationId := draft.application.id
  applicationStatus := draft.application.status.value
  communicationId := draft.communication.id
  documentIds := draft.documents.map (·.id)

/-- `_replay_by_idempotency_key`: the ack of the stored message, unless it
belongs to another borrower. -/
def replayAck (db : Database) (key borrower : Text) : Option WebhookAck :=
  (db.communications.find? fun m => m.idempotencyKey = some key).bind fun existing =>
    (db.application existing.applicationId).bind fun application =>
      if application.externalBorrowerId ≠ borrower then none
      else some ⟨existing.applicationId, application.status.value, existing.id,
        (db.documentsOf existing.applicationId).map (·.id)⟩

end Session

/-! ### What a draft holds -/

section Drafts
variable {py : Python} {settings : Settings}

/-- A document as intake builds it. -/
structure Built (applicationId documentId : Uuid) (d : Document) : Prop where
  id : d.id = documentId
  applicationId : d.applicationId = applicationId
  rawText : d.rawText = none
  s3Path : ∃ path, d.s3Path = some path ∧ NoTraversal path

/-- A file as intake writes it. -/
def Written (settings : Settings) (applicationId documentId : Uuid) (p : FilePath) : Prop :=
  ∃ suffix, p = settings.folder applicationId ++ [documentId.str ++ suffix]

theorem written_persistDocument (a u : Uuid) (filename : Text) :
    Written settings a u (persistDocument py settings a u filename).1 := by
  obtain ⟨suffix, -, hs⟩ := storedName_eq py u filename
  refine ⟨suffix, ?_⟩
  simp only [← hs, persistDocument, Settings.folder, List.append_assoc, List.cons_append, List.nil_append]

theorem buildDocument_ok {attachment : AttachmentIn} {a u : Uuid} {d : Document}
    {file : Option (FilePath × Bytes)}
    (h : buildDocument py settings attachment a u = .ok (d, file)) :
    Built a u d ∧ ∀ f ∈ file, Written settings a u f.1 := by
  unfold buildDocument at h
  split_ifs at h
  split at h
  · split at h
    · cases h
    next payload _ =>
      split_ifs at h
      simp only [Except.ok.injEq, Prod.mk.injEq] at h
      obtain ⟨rfl, rfl⟩ := h
      refine ⟨⟨rfl, rfl, rfl, _, rfl, noTraversal_persistDocument py settings a u _⟩, fun f hf => ?_⟩
      obtain rfl := Option.some.inj hf
      exact written_persistDocument a u _
  · split at h
    · cases h
    next url _ =>
      split_ifs at h with hdots
      simp only [Except.ok.injEq, Prod.mk.injEq] at h
      obtain ⟨rfl, rfl⟩ := h
      rw [Bool.or_eq_true, not_or] at hdots
      exact ⟨⟨rfl, rfl, rfl, url, rfl, fun hmem => hdots.1 (containsText_iff.mpr (mem_splitOn hmem).2)⟩,
        nofun⟩

/-- The documents of a message and their files, with the identifiers in order. -/
theorem buildDocuments_spec (py : Python) (settings : Settings) {a : Uuid} (ids : ℕ → Uuid) (i : ℕ)
    (attachments : List AttachmentIn) :
    (∀ docs, (buildDocuments py settings a ids i attachments).1 = .ok docs →
      docs.map (·.id) = (List.range' i attachments.length).map ids ∧
        ∀ d ∈ docs, ∃ u, Built a u d) ∧
    ∃ owners, owners.Sublist ((List.range' i attachments.length).map ids) ∧
      List.Forall₂ (fun u f => Written settings a u f.1) owners
        (buildDocuments py settings a ids i attachments).2 := by
  induction attachments generalizing i with
  | nil =>
    refine ⟨?_, [], List.nil_sublist _, .nil⟩
    rintro docs ⟨⟩
    exact ⟨rfl, by simp⟩
  | cons x rest ih =>
    cases hx : buildDocument py settings x a (ids i) with
    | error e =>
      simp only [buildDocuments, hx]
      exact ⟨nofun, [], List.nil_sublist _, .nil⟩
    | ok r =>
      obtain ⟨d, file⟩ := r
      obtain ⟨hdocs, owners, hsub, hall⟩ := ih (i + 1)
      obtain ⟨hbuilt, hfile⟩ := buildDocument_ok hx
      obtain ⟨⟨others, files⟩, hrest⟩ : ∃ p, buildDocuments py settings a ids (i + 1) rest = p := ⟨_, rfl⟩
      simp only [buildDocuments, hx, hrest, List.length_cons, List.range'_succ, List.map_cons] at hdocs hall ⊢
      constructor
      · rintro docs hd
        cases others with
        | error e => cases hd
        | ok others =>
          cases hd
          obtain ⟨hids, hothers⟩ := hdocs others rfl
          refine ⟨by simp [hbuilt.id, hids], ?_⟩
          rintro d' (_ | ⟨_, hd'⟩)
          · exact ⟨_, hbuilt⟩
          · exact hothers d' hd'
      · cases file with
        | none => exact ⟨owners, hsub.cons _, hall⟩
        | some f => exact ⟨ids i :: owners, hsub.cons_cons _, .cons (hfile f rfl) hall⟩

/-- The draft of a request, whatever the database was when it looked for an open application. -/
structure Drafted (py : Python) (r : Request) (draws : IntakeDraws) (db : Database) (draft : Draft) :
    Prop where
  borrower : draft.application.externalBorrowerId = r.borrower py
  isOpen : draft.application.isOpen = true
  found : draft.isNew = false → draft.application ∈ db.applications
  isNew : draft.isNew = true → draft.application.id = draws.application ∧
    db.openApplications (r.borrower py) = []
  key : draft.communication.idempotencyKey = some (r.scopedKey py)
  communication : draft.communication.id = draws.communication ∧
    draft.communication.applicationId = draft.application.id ∧
    draft.communication.direction = .inbound
  documentIds : draft.documents.map (·.id) =
    (List.range r.message.attachments.length).map draws.document
  documents : ∀ d ∈ draft.documents, ∃ u, Built draft.application.id u d

theorem latestOpen_some {db : Database} {borrower : Text} {x : Application}
    (h : db.latestOpen borrower = some x) :
    x ∈ db.applications ∧ x.externalBorrowerId = borrower ∧ x.isOpen = true := by
  have hmem := List.mem_of_mem_head? (Option.mem_def.mpr h)
  rw [List.mem_insertionSort, Database.openApplications, List.mem_filter] at hmem
  simpa using hmem

theorem latestOpen_none {db : Database} {borrower : Text} (h : db.latestOpen borrower = none) :
    db.openApplications borrower = [] := by
  have hperm := List.perm_insertionSort (fun a b : Application => b.createdAt ≤ a.createdAt)
    (db.openApplications borrower)
  rw [List.head?_eq_none_iff.mp h] at hperm
  exact hperm.symm.eq_nil

theorem draftMessage_ok {db : Database} {r : Request} {draws : IntakeDraws} {draft : Draft}
    {files : List (FilePath × Bytes)} (h : draftMessage py settings db r draws = (.ok draft, files)) :
    Drafted py r draws db draft := by
  unfold draftMessage at h
  dsimp only at h
  split_ifs at h
  · cases h
  obtain ⟨⟨docs, written⟩, hb⟩ : ∃ p, buildDocuments py settings
    ((db.latestOpen (r.borrower py)).getD (newApplication draws.application draws.now (r.borrower py))).id
    draws.document 0 r.message.attachments = p := ⟨_, rfl⟩
  obtain ⟨hspec, -⟩ := buildDocuments_spec py settings draws.document 0 r.message.attachments
  rw [hb] at hspec h
  cases docs with
  | error e => cases h
  | ok docs =>
    cases h
    obtain ⟨hids, hdocs⟩ := hspec docs rfl
    rw [← List.range_eq_range'] at hids
    cases hf : db.latestOpen (r.borrower py) with
    | none =>
      exact ⟨rfl, rfl, nofun, fun _ => ⟨rfl, latestOpen_none hf⟩, rfl, ⟨rfl, rfl, rfl⟩, hids, hf ▸ hdocs⟩
    | some x =>
      obtain ⟨hmem, hborrower, hopen⟩ := latestOpen_some hf
      exact ⟨hborrower, hopen, fun _ => hmem, nofun, rfl, ⟨rfl, rfl, rfl⟩, hids, hf ▸ hdocs⟩

/-- The files that a request writes belong to identifiers it has drawn. -/
theorem draftMessage_files {db : Database} {r : Request} {draws : IntakeDraws}
    {drafted : Except IntakeError Draft} {files : List (FilePath × Bytes)}
    (h : draftMessage py settings db r draws = (drafted, files)) :
    ∃ a owners, owners.Sublist ((List.range r.message.attachments.length).map draws.document) ∧
      List.Forall₂ (fun u f => Written settings a u f.1) owners files := by
  unfold draftMessage at h
  dsimp only at h
  split_ifs at h
  · cases h
    exact ⟨draws.application, [], List.nil_sublist _, .nil⟩
  · cases h
    rw [List.range_eq_range']
    exact ⟨_, (buildDocuments_spec py settings draws.document 0 r.message.attachments).2⟩

/-- What the commit of a draft adds, and that its key was not there. -/
theorem commitDraft_ok {draft : Draft} {db db' : Database} (h : commitDraft draft db = .ok db') :
    db.hasKey draft.communication.idempotencyKey = false ∧
      db' = { db with
        applications := if draft.isNew then db.applications ++ [draft.application] else db.applications
        communications := db.communications ++ [draft.communication]
        documents := db.documents ++ draft.documents } := by
  unfold commitDraft at h
  split_ifs at h with h1 h2 hnew
  all_goals
    cases h
    refine ⟨by simpa using h2, ?_⟩
  · rw [if_pos hnew]
  · rw [if_neg hnew]

end Drafts

/-! ### Attachments to evaluate with -/

def plainAttachment (payload : Text) (hpayload : payload.length ≤ 100) : AttachmentIn where
  fileType := "text/plain".toList
  contentBase64 := some payload
  fileType_length := by decide
  filename_length := by simp
  content_length := by rintro s ⟨⟩; omega
  url_length := by simp
  payload_or_url := .inl (by simp)

def linkedAttachment (fileType url : Text) (htype : 3 ≤ fileType.length ∧ fileType.length ≤ 100)
    (hurl : url.length ≤ 100) : AttachmentIn where
  fileType := fileType
  url := some url
  fileType_length := htype
  filename_length := by simp
  content_length := by simp
  url_length := by rintro s ⟨⟩; omega
  payload_or_url := .inr (by simp)

theorem length_pdf : 3 ≤ "application/pdf".toList.length ∧ "application/pdf".toList.length ≤ 100 := by
  decide

end LoanAgent
