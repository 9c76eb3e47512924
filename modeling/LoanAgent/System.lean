import LoanAgent.Library.Interleave
import LoanAgent.Pipeline
import LoanAgent.Intake
import LoanAgent.LosExport

/-! The running service. Webhook requests, pipeline runs and exports share the
database, the cache of acks and the stored files; each goes through its phases
in order, and one step of a process is one statement, one commit or one call to
the outside. A `SELECT` sees what is committed, a commit takes effect at once,
and an exception or a crash sends the process back to `idle` with nothing of
its open transaction left. A row that another transaction has locked only
delays a step, so no order of steps is lost by leaving locks out. Proved: every
enabled step is one of the transitions listed in `Transition`. -/

namespace LoanAgent

open Paging

/-! ### What the processes share -/

/-- What a request is answered. -/
inductive Response
  | ack (ack : WebhookAck)
  | refused (e : IntakeError)
  deriving DecidableEq

/-- The lists from `stored` on are a record of what has happened; nothing reads them. -/
structure Store where
  db : Database := {}
  /-- The latest entry of a key stands first. -/
  redis : List (Text × WebhookAck) := []
  files : List (FilePath × Bytes) := []
  /-- The identifiers drawn so far: `uuid4` never draws one again. -/
  issued : List Uuid := []
  /-- The applications whose runs are still to start. -/
  queue : List Uuid := []
  /-- The message that each request has committed. -/
  stored : List (Request × Uuid) := []
  responses : List (Request × Response) := []
  /-- The fact sets that extractions have committed. -/
  extractions : List (Uuid × List FactContent) := []
  /-- What was handed to `deliver_to_core_banking`. -/
  delivered : List CreditMemo := []

def Store.respond (s : Store) (r : Request) (response : Response) : Store :=
  { s with responses := (r, response) :: s.responses }

/-- New identifiers are drawn. -/
def Store.issue (s : Store) (ids : List Uuid) : Option Store :=
  if ids.Nodup ∧ ∀ u ∈ ids, u ∉ s.issued then some { s with issued := ids ++ s.issued } else none

/-! ### What a process knows -/

inductive RequestPhase
  | lookup
  | draft
  | commit (draft : Draft)
  | replay
  | respond (ack : WebhookAck)

/-- A run between two of its steps, named by the next one. -/
inductive RunPhase (py : Python)
  | mark
  | documents
  | parse (documents : List Document)
  | messages (result : IngestResult)
  | texts (result : IngestResult) (stated : List (Text × Text))
  | ask (sources : List SourceText)
  | degrade (e : LlmError)
  | delete (call : ExtractionCall py) (validated : List (ValidatedEntity py))
  /-- Between the `DELETE`, which has found the listed rows, and the commit. -/
  | insert (call : ExtractionCall py) (validated : List (ValidatedEntity py)) (deleted : List Uuid)
  | compare
  | anomalies (found : List Anomaly)
  | present
  | channel (missing : List Text)
  | sent (missing : List Text) (channel : Channel)
  | announce (missing : List Text) (channel : Channel) (alreadySent : Bool)

inductive ExportPhase
  | facts (application : Application)
  | deliver (memo : CreditMemo)
  | audit (memo : CreditMemo)

inductive Proc (py : Python)
  | idle
  | request (r : Request) (phase : RequestPhase)
  | run (session : Session) (phase : RunPhase py)
  | exporting (phase : ExportPhase)

/-- A step with what it takes from outside: a request, whether Redis answers,
identifiers and times, the files and libraries, the model, the order in which the
database returns rows, the core bank. -/
inductive Action (py : Python)
  | receive (r : Request)
  | lookup (available : Bool)
  | draft (draws : IntakeDraws)
  | commitMessage
  | replay
  | respond (available : Bool)
  | evict (key : Text)
  | crash
  | forget (a : Uuid)
  | startRun (a : Uuid)
  | markProcessing
  | selectDocuments
  | parse (io : Io)
  | selectMessages
  | commitTexts (now : Time)
  | ask (llm : Llm py)
  | commitDegraded (now : Time)
  | deleteFacts
  | commitFacts (ids : ℕ → Uuid) (now : Time)
  | selectFacts
  | commitAnomalies (now : Time)
  | selectPresent
  | selectChannel
  | selectSent
  | commitChase (id : Uuid) (now : Time)
  | requestExport (a : Uuid)
  | selectMemo (query : List ExtractedFact → List ExtractedFact) (stamp : Text)
  | deliver (accepted : Bool)
  | commitExport (now : Time)

/-! ### Steps -/

/-- The identifiers that a request draws. -/
def IntakeDraws.ids (draws : IntakeDraws) (r : Request) : List Uuid :=
  draws.application :: draws.communication :: (List.range r.message.attachments.length).map draws.document

section Steps
variable {py : Python} (settings : Settings)

/-- `incoming_message`. -/
def requestStep (s : Store) (r : Request) : RequestPhase → Action py → Option (Store × Proc py)
  | .lookup, .lookup available =>
    match if available then s.redis.lookup (r.scopedKey py) else none with
    | some ack => some (s.respond r (.ack ack), .idle)
    | none => some (s, .request r .draft)
  | .draft, .draft draws => (s.issue (draws.ids r)).map fun t =>
    let (drafted, files) := draftMessage py settings s.db r draws
    let t := { t with files := t.files ++ files }
    match drafted with
    | .error e => (t.respond r (.refused e), .idle)
    | .ok draft => (t, .request r (.commit draft))
  | .commit draft, .commitMessage => match commitDraft draft s.db with
    | .ok db => some ({ s with db := db, stored := (r, draft.communication.id) :: s.stored },
        .request r (.respond draft.ack))
    | .error .integrity => some (s, .request r .replay)
    | .error e => some (s.respond r (.refused e), .idle)
  | .replay, .replay => match replayAck s.db (r.scopedKey py) (r.borrower py) with
    | some ack => some (s, .request r (.respond ack))
    | none => some (s.respond r (.refused .integrity), .idle)
  | .respond ack, .respond available =>
    some ({ s.respond r (.ack ack) with
      redis := if available then (r.scopedKey py, ack) :: s.redis else s.redis
      queue := s.queue ++ [ack.applicationId] }, .idle)
  | _, _ => none

/-- `run_pipeline` and the four nodes. -/
def runStep (s : Store) (session : Session) : RunPhase py → Action py → Option (Store × Proc py)
  | .mark, .markProcessing =>
    let (marked, db) := markProcessing session s.db
    some ({ s with db := db }, .run marked .documents)
  | .documents, .selectDocuments =>
    some (s, .run session (.parse (s.db.documentsOf session.applicationId)))
  | .parse documents, .parse io =>
    match ingestDocuments (loadDocument py settings io session.applicationId) documents with
    | .error _ => some (s, .idle)
    | .ok result => some (s, .run session (.messages result))
  | .messages result, .selectMessages =>
    some (s, .run session (.texts result (statedMessages (s.db.messagesOf session.applicationId .inbound))))
  | .texts result stated, .commitTexts now =>
    match commitIngest session.applicationId now result s.db with
    | none => some (s, .idle)
    | some db => some ({ s with db := db }, .run session (.ask (sourceTexts result.parsed stated)))
  | .ask sources, .ask llm => match askModel settings llm sources with
    | .error _ => some (s, .idle)
    | .ok .skipped => some (s, .run session .compare)
    | .ok (.degraded e) => some (s, .run session (.degrade e))
    | .ok (.answered call) =>
      some (s, .run session (.delete call (validateEntities call.result.facts sources)))
  | .degrade e, .commitDegraded now => match commitDegraded py session e now s.db with
    | none => some (s, .idle)
    | some db => some ({ s with db := db }, .idle)
  | .delete call validated, .deleteFacts =>
    some (s, .run session (.insert call validated ((s.db.factsOf session.applicationId).map (·.id))))
  | .insert call validated deleted, .commitFacts ids now =>
    (s.issue ((List.range validated.length).map ids)).map fun t =>
      match newFacts session.applicationId ids now validated with
      | .error _ => (t, .idle)
      | .ok facts =>
        match commitFacts deleted facts (extractionAudit session.applicationId call now) s.db with
        | none => (t, .idle)
        | some db => ({ t with
            db := db
            extractions := (session.applicationId, facts.map (·.toFactContent)) :: s.extractions },
            .run session .compare)
  | .compare, .selectFacts => match findAnomalies py (s.db.contentsOf session.applicationId) with
    | .error _ => some (s, .idle)
    | .ok found => some (s, .run session (.anomalies found))
  | .anomalies found, .commitAnomalies now =>
    some ({ s with db := commitAnomalies py session.applicationId now found s.db }, .run session .present)
  | .present, .selectPresent =>
    some (s, .run session (.channel (missingKeys (s.db.contentsOf session.applicationId))))
  | .channel missing, .selectChannel =>
    some (s, .run session (.sent missing (pickChannel (s.db.messagesOf session.applicationId .inbound))))
  | .sent missing channel, .selectSent =>
    some (s, .run session (.announce missing channel
      (chaseAlreadySent (s.db.messagesOf session.applicationId .outbound)
        (buildChaseContent missing channel))))
  | .announce missing channel alreadySent, .commitChase id now => (s.issue [id]).map fun t =>
    ({ t with db := commitChase session id now missing channel alreadySent s.db }, .idle)
  | _, _ => none

/-- `export_to_los` behind the gate. -/
def exportStep (s : Store) : ExportPhase → Action py → Option (Store × Proc py)
  | .facts application, .selectMemo query stamp =>
    let ordered := query (s.db.factsOf application.id)
    if Arrangement ExtractedFact.sortKey (s.db.factsOf application.id) ordered then
      match buildCreditMemo py application (memoFacts ordered) stamp with
      | none => some (s, .idle)
      | some memo => some (s, .exporting (.deliver memo))
    else none
  | .deliver memo, .deliver accepted =>
    some ({ s with delivered := memo :: s.delivered }, if accepted then .exporting (.audit memo) else .idle)
  | .audit memo, .commitExport now =>
    let row := losExportAudit py settings memo now
    some (if row.fits then { s with db := s.db.addAudit [row] } else s, .idle)
  | _, _ => none

/-- One step of a process. A crash ends one process; the runs that wait in the
queue are lost with their server, one `forget` each. `respond` is one step, so that
no crash falls between the entry in Redis, the queued run and the answer. -/
def procStep : Interleave.Step Store (Proc py) (Action py) := fun s l a =>
  match l, a with
  | _, .crash => some (s, .idle)
  | l, .evict key => some ({ s with redis := s.redis.filter (·.1 ≠ key) }, l)
  | l, .forget a => some ({ s with queue := s.queue.erase a }, l)
  | .idle, .receive r => some (s, .request r .lookup)
  | .idle, .startRun a =>
    if a ∈ s.queue then
      let t := { s with queue := s.queue.erase a }
      match s.db.application a with
      | none => some (t, .idle)
      | some application => some (t, .run ⟨a, application.status⟩ .mark)
    else none
  | .idle, .requestExport a => match s.db.application a with
    | none => some (s, .idle)
    | some application =>
      if application.status = .readyForLos then some (s, .exporting (.facts application)) else some (s, .idle)
  | .idle, _ => none
  | .request r phase, a => requestStep settings s r phase a
  | .run session phase, a => runStep settings s session phase a
  | .exporting phase, a => exportStep settings s phase a

end Steps

/-- The service before its first request. -/
def initial (py : Python) : Interleave.Config Store (Proc py) := ⟨{}, fun _ => .idle⟩

/-- A state of the service. -/
abbrev Service (py : Python) := Interleave.Config Store (Proc py)

/-- The states reached by steps that meet a condition. -/
abbrev ServiceReaches (py : Python) (settings : Settings) (ok : Service py → ℕ → Action py → Prop)
    (c : Service py) : Prop := Interleave.Reaches (procStep settings) ok (initial py) c

/-! ### Schedules to evaluate -/

def textRequest (user text key : Text) (attachments : List AttachmentIn)
    (huser : 1 ≤ user.length ∧ user.length ≤ 255) (htext : text.length ≤ 100) (hkey : key.length ≤ 255)
    (hattachments : attachments.length ≤ 10) : Request where
  message := {
    userId := user
    channel := .sms
    text := some text
    sentAt := some ⟨0, none⟩
    attachments := attachments
    userId_length := huser
    text_length := by rintro s ⟨⟩; omega
    attachments_length := hattachments
    has_content := .inl (by simp) }
  header := some key
  header_length := by rintro s ⟨⟩; exact hkey

theorem length_alice : 1 ≤ "alice".toList.length ∧ "alice".toList.length ≤ 255 := by
  decide

theorem length_hello : "hello".toList.length ≤ 100 := by
  decide

theorem length_k1 : "k1".toList.length ≤ 255 := by
  decide

theorem length_k2 : "k2".toList.length ≤ 255 := by
  decide

theorem length_unattached : ([] : List AttachmentIn).length ≤ 10 := by
  decide

def aliceHello (key : Text) (hkey : key.length ≤ 255) : Request :=
  textRequest "alice".toList "x".toList key [] length_alice length_x hkey length_unattached

/-- The `n`-th request draws the identifiers from `100 * n` on. -/
def sampleIntake (n : ℕ) : IntakeDraws :=
  ⟨.ofNat (100 * n), .ofNat (100 * n + 1), fun i => .ofNat (100 * n + 2 + i), n⟩

/-- Process `p` commits the `n`-th request and answers it. -/
def intakeSteps (p : ℕ) (r : Request) (n : ℕ) : List (ℕ × Action asciiPython) :=
  [(p, .receive r), (p, .lookup true), (p, .draft (sampleIntake n)), (p, .commitMessage),
    (p, .respond true)]

/-- Process `p` runs the pipeline up to the `DELETE` of the old facts. -/
def extractSteps (p : ℕ) (a : Uuid) (io : Io) (llm : Llm asciiPython) (now : Time) :
    List (ℕ × Action asciiPython) :=
  [(p, .startRun a), (p, .markProcessing), (p, .selectDocuments), (p, .parse io), (p, .selectMessages),
    (p, .commitTexts now), (p, .ask llm), (p, .deleteFacts)]

/-- The commit of the new facts, whose identifiers begin at `1000 * n`. -/
def factsStep (p n : ℕ) (now : Time) : ℕ × Action asciiPython :=
  (p, .commitFacts (fun i => .ofNat (1000 * n + i)) now)

/-- The two nodes behind the extraction. -/
def finishSteps (p : ℕ) (id : Uuid) (now : Time) : List (ℕ × Action asciiPython) :=
  [(p, .selectFacts), (p, .commitAnomalies now), (p, .selectPresent), (p, .selectChannel),
    (p, .selectSent), (p, .commitChase id now)]

/-- The service behind a schedule whose steps all pass a test. -/
def serviceAfter (test : Service asciiPython → ℕ → Action asciiPython → Bool)
    (schedule : List (ℕ × Action asciiPython)) : Service asciiPython :=
  Interleave.after (procStep sampleSettings) test (initial asciiPython) schedule

end LoanAgent
