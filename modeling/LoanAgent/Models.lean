import LoanAgent.Python

/-! The tables. Rows carry the columns that some modelled function reads or
writes; a database is the list of the committed rows of each table. A column
has a length or a range, a text holds no NUL character, and JSONB holds neither
NaN nor an infinity; `jsonb` is what a stored value reads back as. -/

namespace LoanAgent

/-! ### Identifiers -/

structure Uuid where
  digits : List (Fin 16)
  length_eq : digits.length = 32
  deriving DecidableEq

def hexChar (d : Fin 16) : Char := Nat.digitChar d

def hexValue (c : Char) : Option (Fin 16) := (List.finRange 16).find? fun d => hexChar d == c

namespace Uuid

/-- `str(uuid)`. -/
def str (u : Uuid) : Text :=
  let h := u.digits.map hexChar
  h.take 8 ++ '-' :: ((h.drop 8).take 4 ++ '-' :: ((h.drop 12).take 4 ++
    '-' :: ((h.drop 16).take 4 ++ '-' :: h.drop 20)))

/-- The identifier that a text denotes when it is bound to a `Uuid` column. -/
def ofText (s : Text) : Option Uuid :=
  match (s.filter (· != '-')).mapM hexValue with
  | some ds => if h : ds.length = 32 then some ⟨ds, h⟩ else none
  | none => none

/-- The identifier with the given value, for evaluation. -/
def ofNat (n : ℕ) : Uuid :=
  ⟨(List.range 32).map fun i => Fin.ofNat 16 (n / 16 ^ (31 - i)), by simp⟩

theorem hexValue_hexChar (d : Fin 16) : hexValue (hexChar d) = some d := by
  revert d; decide

theorem hexChar_ne_dash (d : Fin 16) : hexChar d ≠ '-' := by
  revert d; decide

theorem filter_str (u : Uuid) : u.str.filter (· != '-') = u.digits.map hexChar := by
  have hkeep : ∀ l : List (Fin 16), (l.map hexChar).filter (· != '-') = l.map hexChar := by
    intro l
    rw [List.filter_eq_self]
    intro c hc
    obtain ⟨d, -, rfl⟩ := List.mem_map.mp hc
    simpa using hexChar_ne_dash d
  simp only [str, ← List.map_take, ← List.map_drop, List.filter_append, hkeep]
  simp only [List.filter_cons, bne_self_eq_false, Bool.false_eq_true, if_false, List.filter_append,
    hkeep, ← List.map_append]
  congr 1
  have h8 := List.take_append_drop 8 u.digits
  have h12 := List.take_append_drop 4 (u.digits.drop 8)
  have h16 := List.take_append_drop 4 (u.digits.drop 12)
  have h20 := List.take_append_drop 4 (u.digits.drop 16)
  simp only [List.drop_drop, Nat.reduceAdd] at h12 h16 h20
  rw [h20, h16, h12, h8]

theorem ofText_str (u : Uuid) : ofText u.str = some u := by
  have hm : ∀ l : List (Fin 16), (l.map hexChar).mapM hexValue = some l := by
    intro l
    induction l with
    | nil => rfl
    | cons d l ih => simp [hexValue_hexChar, ih]
  simp only [ofText, filter_str, hm]
  rw [dif_pos u.length_eq]

theorem str_injective : Function.Injective str := fun u v h =>
  Option.some.inj (by rw [← ofText_str u, h, ofText_str])

/-- Every character of an identifier is a hexadecimal digit or a hyphen. -/
theorem mem_str {u : Uuid} {c : Char} (h : c ∈ u.str) : c = '-' ∨ ∃ d, hexChar d = c := by
  simp only [str, ← List.map_take, ← List.map_drop, List.mem_append, List.mem_cons, List.mem_map] at h
  rcases h with ⟨d, -, h⟩ | h | ⟨d, -, h⟩ | h | ⟨d, -, h⟩ | h | ⟨d, -, h⟩ | h | ⟨d, -, h⟩
  all_goals first | exact .inl h | exact .inr ⟨d, h⟩

end Uuid

/-! ### Rows -/

inductive ApplicationStatus
  | pendingDocs | processing | manualReview | readyForLos
  deriving DecidableEq

def ApplicationStatus.value : ApplicationStatus → Text
  | .pendingDocs => "pending_docs".toList
  | .processing => "processing".toList
  | .manualReview => "manual_review".toList
  | .readyForLos => "ready_for_los".toList

inductive Channel
  | sms | email
  deriving DecidableEq

inductive Direction
  | inbound | outbound
  deriving DecidableEq

structure Application where
  id : Uuid
  externalBorrowerId : Text
  status : ApplicationStatus
  createdAt : Time
  deriving DecidableEq

structure Document where
  id : Uuid
  applicationId : Uuid
  fileType : Text
  rawText : Option Text
  s3Path : Option Text
  contentSha256 : Option Text
  deriving DecidableEq

/-- The default of `communications.timestamp`: a quoted `'now()'`, which became a
constant when the table was created. -/
def defaultTimestamp : Time := 0

structure Communication where
  id : Uuid
  applicationId : Uuid
  channel : Channel
  direction : Direction
  content : Option Text
  timestamp : Time
  idempotencyKey : Option Text
  deriving DecidableEq

/-- The columns of a fact besides its identifier and its time of insertion. -/
structure FactContent where
  applicationId : Uuid
  key : Text
  value : FactValue
  confidenceScore : Option ℚ
  documentId : Option Uuid
  sourceSnippet : Option Text
  deriving DecidableEq

structure ExtractedFact extends FactContent where
  id : Uuid
  createdAt : Time
  deriving DecidableEq

/-- The values of `AuditLog.action`. -/
inductive AuditAction
  | parseFailed | extractTrace | extractDegraded | reconcileAnomaly | chaseSent | losExport
  deriving DecidableEq

structure AuditLog where
  applicationId : Uuid
  action : AuditAction
  llmPrompt : Option Text := none
  llmResponse : Option Text := none
  latencyMs : Option ℕ := none
  costUsd : Option ℚ := none
  errorCode : Option Text := none
  modelName : Option Text := none
  createdAt : Time
  deriving DecidableEq

structure Database where
  applications : List Application := []
  documents : List Document := []
  communications : List Communication := []
  facts : List ExtractedFact := []
  auditLogs : List AuditLog := []
  deriving DecidableEq

/-! ### What a column holds -/

/-- PostgreSQL keeps no NUL character in a text. -/
def storableText (s : Text) : Bool := '\x00' ∉ s

/-- A text column, of bounded length when `limit` is given. -/
def fitsColumn (limit : Option ℕ) (s : Option Text) : Bool :=
  match s with
  | none => true
  | some s => storableText s && match limit with
    | none => true
    | some n => s.length ≤ n

/-- The value as `Numeric(_, scale)` rounds it, ties away from zero. -/
def roundNumeric (scale : ℕ) (q : ℚ) : ℚ :=
  let n := (⌊|q| * 10 ^ scale + 1 / 2⌋ : ℚ) / 10 ^ scale
  if q < 0 then -n else n

def Application.fits (a : Application) : Bool := fitsColumn (some 255) (some a.externalBorrowerId)

def Document.fits (d : Document) : Bool :=
  fitsColumn (some 100) (some d.fileType) && fitsColumn none d.rawText &&
    fitsColumn (some 1024) d.s3Path && fitsColumn (some 64) d.contentSha256

def Communication.fits (m : Communication) : Bool :=
  fitsColumn none m.content && fitsColumn (some 255) m.idempotencyKey

def AuditLog.fits (row : AuditLog) : Bool :=
  fitsColumn none row.llmPrompt && fitsColumn none row.llmResponse &&
    fitsColumn (some 120) row.errorCode && fitsColumn (some 120) row.modelName &&
    row.latencyMs.all (· < 2 ^ 31) && row.costUsd.all fun c => |roundNumeric 7 c| < 10 ^ 5

/-- What a JSONB value reads back as; `none` when PostgreSQL rejects it. The
`repr` of an integral float from `1e16` on has an exponent and comes back as an
integer. -/
def jsonb (py : Python) : FactValue → Option FactValue
  | .null => some .null
  | .str s => if storableText s then some (.str s) else none
  | .int n => some (.int n)
  | .float (.finite q) =>
    if q.den = 1 ∧ 10 ^ 16 ≤ |q.num| then some (.int (py.reprInt q.num))
    else some (.float (.finite q))
  | .float _ => none

/-! ### Queries -/

namespace Database
variable (db : Database)

def application (id : Uuid) : Option Application := db.applications.find? (·.id = id)

def documentsOf (id : Uuid) : List Document := db.documents.filter (·.applicationId = id)

def factsOf (id : Uuid) : List ExtractedFact := db.facts.filter (·.applicationId = id)

def contentsOf (id : Uuid) : List FactContent := (db.factsOf id).map (·.toFactContent)

/-- Messages of an application in one direction. -/
def messagesOf (id : Uuid) (direction : Direction) : List Communication :=
  db.communications.filter fun m => m.applicationId = id ∧ m.direction = direction

/-- `UPDATE applications SET status = … WHERE id = …`. -/
def setStatus (id : Uuid) (status : ApplicationStatus) : Database :=
  { db with applications := db.applications.map fun a =>
      if a.id = id then { a with status := status } else a }

/-- `UPDATE documents SET raw_text = …` for the documents that are listed. -/
def setRawTexts (texts : List (Uuid × Text)) : Database :=
  { db with documents := db.documents.map fun d =>
      match texts.lookup d.id with
      | some text => { d with rawText := some text }
      | none => d }

def addAudit (rows : List AuditLog) : Database := { db with auditLogs := db.auditLogs ++ rows }

def statusOf (id : Uuid) : Option ApplicationStatus := (db.application id).map (·.status)

variable {db}

theorem application_setStatus (id a : Uuid) (status : ApplicationStatus) :
    (db.setStatus id status).application a =
      (db.application a).map fun x => if x.id = id then { x with status := status } else x := by
  simp only [application, setStatus, List.find?_map]
  congr 2
  funext x
  simp only [Function.comp_apply]
  split_ifs <;> rfl

theorem application_id {a : Uuid} {x : Application} (h : db.application a = some x) : x.id = a := by
  simpa using List.find?_some h

def borrowerOf (db : Database) (id : Uuid) : Option Text :=
  (db.application id).map (·.externalBorrowerId)

theorem borrowerOf_setStatus (id a : Uuid) (status : ApplicationStatus) :
    (db.setStatus id status).borrowerOf a = db.borrowerOf a := by
  simp only [borrowerOf, application_setStatus, Option.map_map]
  congr 1
  funext x
  simp only [Function.comp_apply]
  split_ifs <;> rfl

/-- A status behind an update is the one that was set or the one that was there. -/
theorem statusOf_setStatus_some {a b : Uuid} {status s : ApplicationStatus}
    (h : (db.setStatus a status).statusOf b = some s) : (b = a ∧ s = status) ∨ db.statusOf b = some s := by
  simp only [statusOf, application_setStatus, Option.map_map, Option.map_eq_some_iff] at h
  obtain ⟨x, hx, hs⟩ := h
  simp only [Function.comp_apply] at hs
  split_ifs at hs with hid
  · exact .inl ⟨(application_id hx).symm.trans hid, hs.symm⟩
  · exact .inr (Option.map_eq_some_iff.mpr ⟨x, hx, hs⟩)

theorem statusOf_setStatus {a : Uuid} {s : ApplicationStatus} (h : db.statusOf a = some s)
    (status : ApplicationStatus) : (db.setStatus a status).statusOf a = some status := by
  obtain ⟨x, hx, -⟩ := Option.map_eq_some_iff.mp h
  simp [statusOf, application_setStatus, hx, application_id hx]

end Database

/-! ### The application object of a session -/

/-- The loaded `Application`: its identifier and the status the session knows. -/
structure Session where
  applicationId : Uuid
  status : ApplicationStatus
  deriving DecidableEq

/-- Assigning the status and flushing it: no `UPDATE` is sent when the session
already knows the status. -/
def Session.flushStatus (s : Session) (status : ApplicationStatus) (db : Database) : Database :=
  if s.status = status then db else db.setStatus s.applicationId status

theorem Session.borrowerOf_flushStatus (s : Session) (status : ApplicationStatus) (db : Database)
    (a : Uuid) : (s.flushStatus status db).borrowerOf a = db.borrowerOf a := by
  unfold flushStatus
  split_ifs
  · rfl
  · exact Database.borrowerOf_setStatus _ _ _

/-- A session that knows the stored status stores the new one. -/
theorem Session.statusOf_flushStatus {s : Session} {db : Database}
    (h : db.statusOf s.applicationId = some s.status) (status : ApplicationStatus) :
    (s.flushStatus status db).statusOf s.applicationId = some status := by
  unfold flushStatus
  split_ifs with hs
  · exact hs ▸ h
  · exact Database.statusOf_setStatus h status

end LoanAgent
