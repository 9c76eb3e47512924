import LoanAgent.IngestRoute
import LoanAgent.Reconcile
import LoanAgent.Chase

/-! A whole run of the pipeline on one application with nothing else going on.
Every node reads, computes and commits; an exception undoes what its node has
not committed and ends the run. Proved: what each node changes and what the
result of a run depends on, node by node. -/

namespace LoanAgent

/-- The identifiers and times that a run draws. -/
structure RunDraws where
  factId : ℕ → Uuid
  messageId : Uuid
  ingestAt : Time
  extractAt : Time
  reconcileAt : Time
  chaseAt : Time

/-- The state that leaves the graph. -/
structure GraphState where
  degraded : Bool
  facts : ℕ := 0
  anomalies : List Anomaly := []
  missing : List Text := []
  outcome : Option Text := none
  deriving DecidableEq

inductive RunExit
  | notFound
  | failed (e : RunError)
  | completed (state : GraphState)
  deriving DecidableEq

/-! ### Commits -/

/-- An application in `pending_docs` is set to `processing`. -/
def markProcessing (session : Session) (db : Database) : Session × Database :=
  if session.status = .pendingDocs then
    ({ session with status := .processing }, db.setStatus session.applicationId .processing)
  else (session, db)

/-- The commit behind a typed failure of the model. -/
def commitDegraded (py : Python) (session : Session) (e : LlmError) (now : Time) (db : Database) :
    Option Database :=
  let row := degradedAudit py session.applicationId e now
  if row.fits then some ((session.flushStatus .manualReview db).addAudit [row]) else none

/-- The rows that a `DELETE` found go, the new ones come. -/
def Database.replaceFacts (db : Database) (deleted : List Uuid) (facts : List ExtractedFact) :
    Database :=
  { db with facts := (db.facts.filter fun f => f.id ∉ deleted) ++ facts }

/-- The commit of an extraction. -/
def commitFacts (deleted : List Uuid) (facts : List ExtractedFact) (row : AuditLog) (db : Database) :
    Option Database :=
  if row.fits then some ((db.replaceFacts deleted facts).addAudit [row]) else none

/-- The commit of the anomalies. -/
def commitAnomalies (py : Python) (applicationId : Uuid) (now : Time) (anomalies : List Anomaly)
    (db : Database) : Database := db.addAudit (anomalies.map (anomalyAudit py applicationId now))

/-! ### Nodes -/

section Nodes
variable {py : Python} (settings : Settings) (io : Io) (llm : Llm py) (draws : RunDraws)

variable (py) in
def ingestRoute (a : Uuid) (db : Database) : Except RunError (List SourceText × Database) :=
  match ingestDocuments (loadDocument py settings io a) (db.documentsOf a) with
  | .error e => .error e
  | .ok r => match commitIngest a draws.ingestAt r db with
    | none => .error .database
    | some db' => .ok (sourceTexts r.parsed (statedMessages (db.messagesOf a .inbound)), db')

/-- What `extract_trace` returns: whether it degraded, and the number of new facts. -/
def extractTrace (session : Session) (sources : List SourceText) (db : Database) :
    Except RunError ((Bool × ℕ) × Database) :=
  let a := session.applicationId
  match askModel settings llm sources with
  | .error e => .error e
  | .ok .skipped => .ok ((false, 0), db)
  | .ok (.degraded e) => match commitDegraded py session e draws.extractAt db with
    | none => .error .database
    | some db' => .ok ((true, 0), db')
  | .ok (.answered call) =>
    match newFacts a draws.factId draws.extractAt (validateEntities call.result.facts sources) with
    | .error e => .error e
    | .ok facts =>
      match commitFacts ((db.factsOf a).map (·.id)) facts (extractionAudit a call draws.extractAt) db with
      | none => .error .database
      | some db' => .ok ((false, facts.length), db')

variable (py) in
def reconcile (a : Uuid) (db : Database) : Except RunError (List Anomaly × Database) :=
  match findAnomalies py (db.contentsOf a) with
  | .error e => .error e
  | .ok anomalies => .ok (anomalies, commitAnomalies py a draws.reconcileAt anomalies db)

/-- The node returns the missing keys. -/
def chase (session : Session) (db : Database) : List Text × Database :=
  let a := session.applicationId
  let missing := missingKeys (db.contentsOf a)
  let channel := pickChannel (db.messagesOf a .inbound)
  let sent := chaseAlreadySent (db.messagesOf a .outbound) (buildChaseContent missing channel)
  (missing, commitChase session draws.messageId draws.chaseAt missing channel sent db)

def chaseOutcome (missing : List Text) : Text :=
  if missing = [] then "ready_for_los".toList else "chasing".toList

/-- The graph behind the ingest node. -/
def runGraph (session : Session) (sources : List SourceText) (db : Database) : RunExit × Database :=
  match extractTrace settings llm draws session sources db with
  | .error e => (.failed e, db)
  | .ok ((true, n), db) => (.completed { degraded := true, facts := n }, db)
  | .ok ((false, n), db) => match reconcile py draws session.applicationId db with
    | .error e => (.failed e, db)
    | .ok (anomalies, db) =>
      let (missing, db) := chase draws session db
      (.completed ⟨false, n, anomalies, missing, some (chaseOutcome missing)⟩, db)

def runPipeline (a : Uuid) (db : Database) : RunExit × Database :=
  match db.application a with
  | none => (.notFound, db)
  | some application =>
    let (session, db) := markProcessing ⟨a, application.status⟩ db
    match ingestRoute py settings io draws a db with
    | .error e => (.failed e, db)
    | .ok (sources, db) => runGraph settings llm draws session sources db

end Nodes

/-! ### What the nodes return -/

section Results
variable {py : Python} {settings : Settings} {io : Io} {llm : Llm py} {draws : RunDraws}
  {a : Uuid} {db : Database}

/-- The sources that a run extracts from. -/
def runSources (py : Python) (settings : Settings) (io : Io) (a : Uuid) (db : Database) :
    List SourceText :=
  sourceTexts (ingestResult (loadDocument py settings io a) (db.documentsOf a)).parsed
    (statedMessages (db.messagesOf a .inbound))

theorem ingestRoute_ok {a : Uuid} {db db' : Database} {sources : List SourceText} :
    ingestRoute py settings io draws a db = .ok (sources, db') ↔
      LoadsCaught (loadDocument py settings io a) (db.documentsOf a) ∧
      commitIngest a draws.ingestAt (ingestResult (loadDocument py settings io a) (db.documentsOf a)) db =
        some db' ∧ sources = runSources py settings io a db := by
  unfold ingestRoute runSources
  cases hr : ingestDocuments (loadDocument py settings io a) (db.documentsOf a) with
  | error e =>
    refine ⟨nofun, fun ⟨hl, _, _⟩ => ?_⟩
    have := ingestDocuments_eq_ok.mpr ⟨hl, rfl⟩
    rw [hr] at this
    cases this
  | ok r =>
    obtain ⟨hl, rfl⟩ := ingestDocuments_eq_ok.mp hr
    dsimp only
    cases commitIngest a draws.ingestAt (ingestResult (loadDocument py settings io a) (db.documentsOf a)) db with
    | none => simp
    | some db' => simp [hl, and_comm, eq_comm]

/-- The three ways in which `extract_trace` returns. -/
theorem extractTrace_ok {session : Session} {sources : List SourceText} {db db' : Database}
    {r : Bool × ℕ} : extractTrace settings llm draws session sources db = .ok (r, db') ↔
      (askModel settings llm sources = .ok .skipped ∧ r = (false, 0) ∧ db' = db) ∨
      (∃ e, askModel settings llm sources = .ok (.degraded e) ∧ r = (true, 0) ∧
        commitDegraded py session e draws.extractAt db = some db') ∨
      (∃ call facts, askModel settings llm sources = .ok (.answered call) ∧ r = (false, facts.length) ∧
        newFacts session.applicationId draws.factId draws.extractAt
          (validateEntities call.result.facts sources) = .ok facts ∧
        commitFacts ((db.factsOf session.applicationId).map (·.id)) facts
          (extractionAudit session.applicationId call draws.extractAt) db = some db') := by
  unfold extractTrace
  cases askModel settings llm sources with
  | error e => simp
  | ok answer =>
    cases answer with
    | skipped => simp [eq_comm]
    | degraded e =>
      cases hc : commitDegraded py session e draws.extractAt db with
      | none => simp [hc]
      | some db'' =>
        simp only [hc, Except.ok.injEq, Prod.mk.injEq, ModelAnswer.degraded.injEq]
        constructor
        · rintro ⟨rfl, rfl⟩
          exact .inr (.inl ⟨e, rfl, rfl, hc⟩)
        · rintro (⟨h, -⟩ | ⟨e', rfl, rfl, h⟩ | ⟨_, _, h, -⟩)
          · cases h
          · exact ⟨rfl, Option.some.inj (hc.symm.trans h)⟩
          · cases h
    | answered call =>
      simp only [reduceCtorEq, false_and, Except.ok.injEq, ModelAnswer.answered.injEq, exists_false,
        false_or, exists_eq_left', exists_and_left]
      cases hn : newFacts session.applicationId draws.factId draws.extractAt
          (validateEntities call.result.facts sources) with
      | error e => simp
      | ok facts =>
        cases hc : commitFacts ((db.factsOf session.applicationId).map (·.id)) facts
            (extractionAudit session.applicationId call draws.extractAt) db with
        | none =>
          simp only [hc]
          refine ⟨nofun, ?_⟩
          rintro ⟨facts', -, h, hc'⟩
          cases h
          rw [hc] at hc'
          cases hc'
        | some db'' =>
          simp only [hc, Except.ok.injEq, Prod.mk.injEq]
          constructor
          · rintro ⟨rfl, rfl⟩
            exact ⟨facts, rfl, rfl, hc⟩
          · rintro ⟨facts', rfl, rfl, hc'⟩
            exact ⟨rfl, Option.some.inj (hc.symm.trans hc')⟩

theorem reconcile_ok {a : Uuid} {db db' : Database} {anomalies : List Anomaly} :
    reconcile py draws a db = .ok (anomalies, db') ↔
      findAnomalies py (db.contentsOf a) = .ok anomalies ∧
      db' = commitAnomalies py a draws.reconcileAt anomalies db := by
  unfold reconcile
  cases findAnomalies py (db.contentsOf a) with
  | error e => simp
  | ok found =>
    simp only [Except.ok.injEq, Prod.mk.injEq]
    constructor
    · rintro ⟨rfl, rfl⟩
      exact ⟨rfl, rfl⟩
    · rintro ⟨rfl, rfl⟩
      exact ⟨rfl, rfl⟩

/-- The stages of a run that goes through all four nodes. -/
structure RunStages (py : Python) (settings : Settings) (io : Io) (llm : Llm py) (draws : RunDraws)
    (a : Uuid) (db : Database) where
  session : Session
  marked : Database
  sources : List SourceText
  ingested : Database
  newFacts : ℕ
  extracted : Database
  anomalies : List Anomaly

/-- Every stage follows from the one before. -/
structure RunStages.Valid (s : RunStages py settings io llm draws a db) : Prop where
  marks : ∃ x, db.application a = some x ∧ markProcessing ⟨a, x.status⟩ db = (s.session, s.marked)
  ingests : ingestRoute py settings io draws a s.marked = .ok (s.sources, s.ingested)
  extracts : extractTrace settings llm draws s.session s.sources s.ingested =
    .ok ((false, s.newFacts), s.extracted)
  reconciles : findAnomalies py (s.extracted.contentsOf a) = .ok s.anomalies

/-- The database behind the last stage. -/
def RunStages.final (s : RunStages py settings io llm draws a db) : Database :=
  (chase draws s.session (commitAnomalies py a draws.reconcileAt s.anomalies s.extracted)).2

theorem markProcessing_applicationId (session : Session) (db : Database) :
    (markProcessing session db).1.applicationId = session.applicationId := by
  unfold markProcessing
  split_ifs <;> rfl

/-- A run ends undegraded exactly when it goes through its stages. -/
theorem runPipeline_undegraded {a : Uuid} {db db' : Database} :
    (∃ state, state.degraded = false ∧ runPipeline settings io llm draws a db = (.completed state, db')) ↔
      ∃ s : RunStages py settings io llm draws a db, s.Valid ∧ s.final = db' := by
  constructor
  · rintro ⟨state, hdeg, h⟩
    unfold runPipeline at h
    split at h
    · cases h
    next x hx =>
      have hid := markProcessing_applicationId ⟨a, x.status⟩ db
      obtain ⟨⟨session, marked⟩, hm⟩ : ∃ r, markProcessing ⟨a, x.status⟩ db = r := ⟨_, rfl⟩
      rw [hm] at h hid
      dsimp only at h hid
      split at h
      · cases h
      next sources ingested hi =>
        unfold runGraph at h
        split at h
        · cases h
        · cases h
          cases hdeg
        next n extracted he =>
          rw [hid] at h
          cases hr : reconcile py draws a extracted with
          | error e => rw [hr] at h; cases h
          | ok r =>
            rw [hr] at h
            obtain ⟨anomalies, reconciled⟩ := r
            obtain ⟨hf, rfl⟩ := reconcile_ok.mp hr
            cases h
            exact ⟨⟨session, marked, sources, ingested, n, extracted, anomalies⟩,
              ⟨⟨x, hx, hm⟩, hi, he, hf⟩, rfl⟩
  · rintro ⟨s, ⟨⟨x, hx, hm⟩, hi, he, hf⟩, rfl⟩
    have hid : s.session.applicationId = a := by
      simpa [hm] using markProcessing_applicationId ⟨a, x.status⟩ db
    have hr : reconcile py draws a s.extracted = .ok (s.anomalies, _) := reconcile_ok.mpr ⟨hf, rfl⟩
    simp only [runPipeline, hx, hm, hi, runGraph, he, hid, hr]
    exact ⟨_, rfl, rfl⟩

end Results

/-! ### What the commits leave alone -/

section Commits
variable {py : Python}

@[simp] theorem setStatus_documents (db : Database) (a : Uuid) (s : ApplicationStatus) :
    (db.setStatus a s).documents = db.documents := rfl

@[simp] theorem setStatus_communications (db : Database) (a : Uuid) (s : ApplicationStatus) :
    (db.setStatus a s).communications = db.communications := rfl

@[simp] theorem setStatus_facts (db : Database) (a : Uuid) (s : ApplicationStatus) :
    (db.setStatus a s).facts = db.facts := rfl

@[simp] theorem setStatus_auditLogs (db : Database) (a : Uuid) (s : ApplicationStatus) :
    (db.setStatus a s).auditLogs = db.auditLogs := rfl

/-- Flushing a status touches the applications only. -/
theorem flushStatus_frame (session : Session) (s : ApplicationStatus) (db : Database) :
    (session.flushStatus s db).documents = db.documents ∧
    (session.flushStatus s db).communications = db.communications ∧
    (session.flushStatus s db).facts = db.facts ∧
    (session.flushStatus s db).auditLogs = db.auditLogs := by
  unfold Session.flushStatus
  split_ifs <;> exact ⟨rfl, rfl, rfl, rfl⟩

theorem markProcessing_frame {session session' : Session} {db db' : Database}
    (h : markProcessing session db = (session', db')) :
    db'.documents = db.documents ∧ db'.communications = db.communications ∧ db'.facts = db.facts ∧
      db'.auditLogs = db.auditLogs := by
  unfold markProcessing at h
  split_ifs at h <;> cases h <;> exact ⟨rfl, rfl, rfl, rfl⟩

theorem commitChase_tables (session : Session) (id : Uuid) (now : Time) (missing : List Text)
    (channel : Channel) (sent : Bool) (db : Database) :
    (commitChase session id now missing channel sent db).documents = db.documents ∧
    (commitChase session id now missing channel sent db).facts = db.facts ∧
    (commitChase session id now missing channel sent db).communications =
      db.communications ++ (if sent then [] else
        [chaseMessage session.applicationId id channel (buildChaseContent missing channel)]) := by
  obtain ⟨h1, h2, h3, -⟩ := flushStatus_frame session (chaseStatus missing) db
  unfold commitChase
  dsimp only
  split_ifs
  · exact ⟨h1, h3, by simp [h2]⟩
  · exact ⟨h1, h3, by simp [h2]⟩

theorem commitChase_auditLogs (session : Session) (id : Uuid) (now : Time) (missing : List Text)
    (channel : Channel) (sent : Bool) (db : Database) :
    (commitChase session id now missing channel sent db).auditLogs = db.auditLogs ++ (if sent then [] else
      [chaseSentAudit session.applicationId now (buildChaseContent missing channel)]) := by
  have hflush := (flushStatus_frame session (chaseStatus missing) db).2.2.2
  unfold commitChase
  dsimp only
  split_ifs
  · rw [hflush, List.append_nil]
  · rw [hflush]

theorem commitDegraded_some {session : Session} {e : LlmError} {now : Time} {db db' : Database} :
    commitDegraded py session e now db = some db' ↔
      (degradedAudit py session.applicationId e now).fits = true ∧
      db' = (session.flushStatus .manualReview db).addAudit
        [degradedAudit py session.applicationId e now] := by
  simp only [commitDegraded]
  split_ifs with h <;> simp [h, eq_comm]

theorem commitFacts_some {deleted : List Uuid} {facts : List ExtractedFact} {row : AuditLog}
    {db db' : Database} : commitFacts deleted facts row db = some db' ↔
      row.fits = true ∧ db' = (db.replaceFacts deleted facts).addAudit [row] := by
  simp only [commitFacts]
  split_ifs with h <;> simp [h, eq_comm]

/-- The chase commit sets the status and adds rows. -/
theorem commitChase_statusOf {session : Session} {id : Uuid} {now : Time} {missing : List Text}
    {channel : Channel} {sent : Bool} {db : Database}
    (h : db.statusOf session.applicationId = some session.status) :
    (commitChase session id now missing channel sent db).statusOf session.applicationId =
      some (chaseStatus missing) := by
  have hflush := Session.statusOf_flushStatus h (chaseStatus missing)
  unfold commitChase
  dsimp only
  split_ifs
  · exact hflush
  · exact hflush

/-- After the `DELETE` of all facts of an application it has the new ones. -/
theorem factsOf_replaceFacts {db : Database} {a : Uuid} {deleted : List Uuid} {facts : List ExtractedFact}
    (hall : ∀ f ∈ db.factsOf a, f.id ∈ deleted) (hnew : ∀ f ∈ facts, f.applicationId = a) :
    (db.replaceFacts deleted facts).factsOf a = facts := by
  have hold : ((db.facts.filter fun f => f.id ∉ deleted).filter (·.applicationId = a)) = [] := by
    rw [List.filter_eq_nil_iff]
    intro f hf ha
    obtain ⟨hmem, hkept⟩ := List.mem_filter.mp hf
    have := hall f (List.mem_filter.mpr ⟨hmem, ha⟩)
    simp [this] at hkept
  have hnew : facts.filter (·.applicationId = a) = facts :=
    List.filter_eq_self.mpr fun f hf => by simp [hnew f hf]
  simp only [Database.factsOf, Database.replaceFacts, List.filter_append]
  rw [hold, hnew, List.nil_append]

/-- The facts of another application are not touched. -/
theorem factsOf_replaceOther {db : Database} {a b : Uuid} (hab : b ≠ a) {deleted : List Uuid}
    {facts : List ExtractedFact}
    (hdeleted : ∀ u ∈ deleted, ∀ f ∈ db.facts, f.id = u → f.applicationId = a)
    (hnew : ∀ f ∈ facts, f.applicationId = a) :
    (db.replaceFacts deleted facts).factsOf b = db.factsOf b := by
  have hkept : (db.facts.filter fun f => f.id ∉ deleted).filter (·.applicationId = b) =
      db.facts.filter (·.applicationId = b) := by
    rw [List.filter_filter]
    refine List.filter_congr fun f hf => ?_
    by_cases hb : f.applicationId = b
    · have hnot : f.id ∉ deleted := fun hmem => hab (hb.symm.trans (hdeleted f.id hmem f hf rfl))
      simp [hb, hnot]
    · simp [hb]
  have hnew : facts.filter (·.applicationId = b) = [] :=
    List.filter_eq_nil_iff.mpr fun f hf => by simp [hnew f hf, hab.symm]
  simp only [Database.factsOf, Database.replaceFacts, List.filter_append]
  rw [hkept, hnew, List.append_nil]

end Commits

/-! ### A small world to evaluate runs in -/

def sampleSettings : Settings where
  root := ["data".toList, "s3".toList]

/-- A disk without files and libraries that refuse what they are given. -/
def sampleIo : Io where
  read _ := .error .fileNotFound
  openPdf _ := .error ⟨.fileData, []⟩
  scanPdf _ := .error ⟨.fileData, []⟩
  scanImage _ := .error ⟨.other, []⟩
  tesseract := false
  decodeError _ := []

def sampleDraws : RunDraws :=
  ⟨fun i => .ofNat (1000 + i), .ofNat 2000, 10, 20, 30, 40⟩

/-- A model that always returns the given entities. -/
def answering (result : ExtractionResult asciiPython) : Llm asciiPython where
  attempt _ _ := .completed ⟨some "{}".toList, none, "mock".toList, 1⟩
  validate _ := .ok result

/-- An entity of at most a hundred characters whose value is a string. -/
def sampleEntity (key value quote : Text) (documentId : Option Uuid)
    (hkey : 1 ≤ key.length ∧ key.length ≤ 100) (hquote : quote.length ≤ 100) :
    RawExtractedEntity asciiPython where
  key := key
  value := .str value
  confidenceScore := 1 / 2
  sourceQuote := some quote
  documentId := documentId.map (·.str)
  key_length := hkey
  value_float := by simp
  confidence_range := by norm_num
  quote_length := by rintro s ⟨⟩; omega
  document_length := by
    intro s hs
    obtain ⟨u, -, rfl⟩ := Option.map_eq_some_iff.mp hs
    rw [str_length]
    omega

theorem length_governmentId : 1 ≤ "government_id".toList.length ∧ "government_id".toList.length ≤ 100 := by
  decide

theorem length_monthlyIncome : 1 ≤ "monthly_income".toList.length ∧ "monthly_income".toList.length ≤ 100 := by
  decide

theorem length_address : 1 ≤ "address".toList.length ∧ "address".toList.length ≤ 100 := by
  decide

theorem length_x : "x".toList.length ≤ 100 := by
  decide

/-- One borrower with an application in `pending_docs` and one message. -/
def sampleDatabase (message : Text) : Database where
  applications := [⟨.ofNat 1, "alice".toList, .pendingDocs, 0⟩]
  communications := [⟨.ofNat 2, .ofNat 1, .sms, .inbound, some message, 0, none⟩]

/-- A model that never answers in time. -/
def silent : Llm asciiPython where
  attempt _ _ := .timeout
  validate _ := .error 0

/-- Every required fact, all quoted as `x` from the chat. -/
def requiredFacts : ExtractionResult asciiPython where
  facts := [
    sampleEntity "government_id".toList "x".toList "x".toList none length_governmentId length_x,
    sampleEntity "monthly_income".toList "x".toList "x".toList none length_monthlyIncome length_x,
    sampleEntity "address".toList "x".toList "x".toList none length_address length_x]
  facts_length := by decide

end LoanAgent
