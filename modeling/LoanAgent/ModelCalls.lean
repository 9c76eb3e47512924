import LoanAgent.RunStatus

/-! What a call of the model leaves behind. A typed failure ends the run with
the status `manual_review` and one row of the audit log; an answer is recorded
in the commit that replaces the facts. Proved: a typed failure is taken up
cleanly exactly when its text can be stored, an answered call never degrades,
and an answer is recorded exactly when it passes the schema and everything that
is committed with the record can be stored. -/

namespace LoanAgent

variable {py : Python} {settings : Settings} {io : Io} {llm : Llm py} {draws : RunDraws} {a : Uuid}
  {db ingested : Database} {session : Session} {sources : List SourceText}

/-- The run comes to call the model, with these sources and over this database. -/
structure CallsModel (py : Python) (settings : Settings) (io : Io) (draws : RunDraws) (a : Uuid)
    (db : Database) (session : Session) (sources : List SourceText) (ingested : Database) : Prop where
  starts : ∃ x marked, db.application a = some x ∧ markProcessing ⟨a, x.status⟩ db = (session, marked) ∧
    ingestRoute py settings io draws a marked = .ok (sources, ingested)
  has_sources : sources ≠ []

theorem CallsModel.runPipeline_eq (h : CallsModel py settings io draws a db session sources ingested) :
    runPipeline settings io llm draws a db = runGraph settings llm draws session sources ingested := by
  obtain ⟨⟨x, marked, hx, hmark, hi⟩, -⟩ := h
  simp only [runPipeline, hx, hmark, hi]

theorem CallsModel.applicationId (h : CallsModel py settings io draws a db session sources ingested) :
    session.applicationId = a := by
  obtain ⟨⟨x, marked, hx, hmark, hi⟩, -⟩ := h
  simpa [hmark] using markProcessing_applicationId ⟨a, x.status⟩ db

/-- The first node adds notes of failures to the audit log and knows the status. -/
theorem CallsModel.frame (h : CallsModel py settings io draws a db session sources ingested) :
    ingested.facts = db.facts ∧ ingested.communications = db.communications ∧
      ingested.statusOf a = some session.status ∧
      ∃ rows, ingested.auditLogs = db.auditLogs ++ rows ∧ ∀ row ∈ rows, row.latencyMs = none := by
  obtain ⟨⟨x, marked, hx, hmark, hi⟩, -⟩ := h
  have hst : db.statusOf a = some x.status := by simp [Database.statusOf, hx]
  obtain ⟨st, db', hmark', hmarked, -, -, hcomms, hfacts, haudit⟩ := markProcessing_spec hst
  obtain ⟨rfl, rfl⟩ := Prod.mk.inj (hmark.symm.trans hmark')
  obtain ⟨-, hc, -⟩ := ingestRoute_ok.mp hi
  obtain rfl := commitIngest_some hc
  refine ⟨hfacts, hcomms, hmarked, _, congrArg (· ++ _) haudit, fun row hrow => ?_⟩
  obtain ⟨e, -, rfl⟩ := List.mem_map.mp hrow
  rfl

theorem CallsModel.askModel_eq (h : CallsModel py settings io draws a db session sources ingested) :
    askModel settings llm sources = match extractFacts settings llm sources with
      | .ok call => .ok (.answered call)
      | .error (.typed e) => .ok (.degraded e)
      | .error .untyped => .error .llmResponse := if_neg h.has_sources

/-! ### A typed failure -/

/-- The run has ended under review, with one row more and nothing else: the two
nodes that would set `anomalies` and `outcome` have not run. -/
structure CleanlyDegraded (a : Uuid) (e : LlmError) (db ingested : Database) (r : RunExit × Database) :
    Prop where
  exit : r.1 = .completed { degraded := true }
  status : r.2.statusOf a = some .manualReview
  audit : ∃ row, r.2.auditLogs = ingested.auditLogs ++ [row] ∧ row.applicationId = a ∧
    row.action = .extractDegraded ∧ row.errorCode = some e.code
  facts : r.2.facts = db.facts
  communications : r.2.communications = db.communications

/-- What is kept of the text of the failure has no NUL character. -/
def StorableFailure (py : Python) (e : LlmError) : Prop :=
  '\x00' ∉ (redactPii py e.text).text.take 8000

theorem degradedAudit_fits {e : LlmError} (now : Time) :
    (degradedAudit py a e now).fits = true ↔ StorableFailure py e := by
  have hcode : fitsColumn (some 120) (some e.code) = true := by
    unfold LlmError.code
    cases e.kind <;> decide
  simp only [AuditLog.fits, degradedAudit, hcode, StorableFailure]
  simp [fitsColumn, storableText, LlmError.text]

/-- The run behind a typed failure: its commit goes through, or it ends with nothing committed. -/
theorem runGraph_degraded {e : LlmError} (hask : askModel settings llm sources = .ok (.degraded e)) :
    runGraph settings llm draws session sources ingested =
      match commitDegraded py session e draws.extractAt ingested with
      | some db' => (.completed { degraded := true }, db')
      | none => (.failed .database, ingested) := by
  unfold runGraph extractTrace
  simp only [hask]
  cases commitDegraded py session e draws.extractAt ingested <;> rfl

theorem CallsModel.degraded_iff (h : CallsModel py settings io draws a db session sources ingested)
    {e : LlmError} (he : extractFacts settings llm sources = .error (.typed e)) :
    CleanlyDegraded a e db ingested (runPipeline settings io llm draws a db) ↔ StorableFailure py e := by
  obtain ⟨hfacts, hcomms, hstatus, -⟩ := h.frame
  obtain rfl := h.applicationId
  have hask : askModel settings llm sources = .ok (.degraded e) := by rw [h.askModel_eq, he]
  rw [h.runPipeline_eq, runGraph_degraded hask, ← degradedAudit_fits draws.extractAt]
  cases hc : commitDegraded py session e draws.extractAt ingested with
  | none =>
    refine ⟨fun hclean => ?_, fun hfit => ?_⟩
    · cases hclean.exit
    · rw [commitDegraded_some.mpr ⟨hfit, rfl⟩] at hc
      cases hc
  | some db' =>
    obtain ⟨hfit, rfl⟩ := commitDegraded_some.mp hc
    obtain ⟨-, hcomms', hfacts', haudit⟩ := flushStatus_frame session .manualReview ingested
    refine ⟨fun _ => hfit, fun _ => ⟨rfl, Session.statusOf_flushStatus hstatus _, ?_, ?_, ?_⟩⟩
    · exact ⟨degradedAudit py session.applicationId e draws.extractAt, congrArg (· ++ _) haudit, rfl, rfl, rfl⟩
    · exact hfacts'.trans hfacts
    · exact hcomms'.trans hcomms

/-- A typed failure of the model is taken up cleanly exactly when its text can be
stored, and a call that returns never ends the run degraded. -/
theorem degradation_clean_iff (h : CallsModel py settings io draws a db session sources ingested)
    (llm : Llm py) :
    (∀ e, extractFacts settings llm sources = .error (.typed e) →
      (CleanlyDegraded a e db ingested (runPipeline settings io llm draws a db) ↔ StorableFailure py e)) ∧
    ∀ call, extractFacts settings llm sources = .ok call → ∀ state,
      (runPipeline settings io llm draws a db).1 = .completed state → state.degraded = false := by
  refine ⟨fun e he => h.degraded_iff he, fun call hcall state hexit => ?_⟩
  have hask : askModel settings llm sources = .ok (.answered call) := by rw [h.askModel_eq, hcall]
  rw [h.runPipeline_eq] at hexit
  unfold runGraph at hexit
  split at hexit
  · cases hexit
  next hx =>
    -- A degraded end goes back to a typed failure.
    obtain ⟨-, hr, -⟩ | ⟨e, he, -⟩ | ⟨_, _, -, hr, -⟩ := extractTrace_ok.mp hx
    · cases hr
    · rw [hask] at he
      cases he
    · cases hr
  · split at hexit <;> cases hexit
    rfl

/-- A provider that refuses every request with the given text. -/
def refusing (message : Text) : Llm asciiPython where
  attempt _ _ := .badRequest message
  validate _ := .error 0

/-- The message that the borrower of the sample database has sent. -/
def sampleSources : List SourceText := [⟨"chat:".toList ++ (Uuid.ofNat 2).str, none, "x".toList⟩]

/-- The sample database behind the first node of a run. -/
def sampleIngested : Database := (sampleDatabase "x".toList).setStatus (.ofNat 1) .processing

/-- A run over the sample database calls the model. -/
theorem sample_callsModel : CallsModel asciiPython sampleSettings sampleIo sampleDraws (.ofNat 1)
    (sampleDatabase "x".toList) ⟨.ofNat 1, .processing⟩ sampleSources sampleIngested :=
  ⟨⟨⟨.ofNat 1, "alice".toList, .pendingDocs, 0⟩, sampleIngested, by decide, by decide, by decide +kernel⟩,
    List.cons_ne_nil _ _⟩

theorem nulRefusal_not_degraded : ∃ e,
    CallsModel asciiPython sampleSettings sampleIo sampleDraws (.ofNat 1) (sampleDatabase "x".toList)
      ⟨.ofNat 1, .processing⟩ sampleSources sampleIngested ∧
    extractFacts sampleSettings (refusing ['\x00']) sampleSources = .error (.typed e) ∧
    (runPipeline sampleSettings sampleIo (refusing ['\x00']) sampleDraws (.ofNat 1)
      (sampleDatabase "x".toList)).2.statusOf (.ofNat 1) = some .processing ∧
    ¬ CleanlyDegraded (.ofNat 1) e (sampleDatabase "x".toList) sampleIngested
      (runPipeline sampleSettings sampleIo (refusing ['\x00']) sampleDraws (.ofNat 1)
        (sampleDatabase "x".toList)) := by
  have hstatus : (runPipeline sampleSettings sampleIo (refusing ['\x00']) sampleDraws (.ofNat 1)
      (sampleDatabase "x".toList)).2.statusOf (.ofNat 1) = some .processing := by decide +kernel
  refine ⟨_, sample_callsModel, rfl, hstatus, fun h => ?_⟩
  rw [h.status] at hstatus
  cases hstatus

theorem degradation_clean_iff_silent :
    (∀ e, extractFacts sampleSettings silent sampleSources = .error (.typed e) →
      (CleanlyDegraded (.ofNat 1) e (sampleDatabase "x".toList) sampleIngested
        (runPipeline sampleSettings sampleIo silent sampleDraws (.ofNat 1) (sampleDatabase "x".toList)) ↔
          StorableFailure asciiPython e)) ∧
    ∀ call, extractFacts sampleSettings silent sampleSources = .ok call → ∀ state,
      (runPipeline sampleSettings sampleIo silent sampleDraws (.ofNat 1) (sampleDatabase "x".toList)).1 =
        .completed state → state.degraded = false :=
  degradation_clean_iff sample_callsModel silent

/-! ### The record of an answer -/

/-- The row records the call: the prompt and the response, cut and redacted, the
latency and the name of the model. -/
structure Records (py : Python) (a : Uuid) (prompt : Text) (response : Completion) (row : AuditLog) :
    Prop where
  applicationId : row.applicationId = a
  llmPrompt : row.llmPrompt.getD [] = (redactPii py (prompt.take 8000)).text
  llmResponse : row.llmResponse.getD [] = (redactPii py ((response.content.getD []).take 8000)).text
  latencyMs : row.latencyMs = some response.latencyMs
  modelName : row.modelName = some response.model

/-- One of the rows that the run has added records the call. -/
def CallRecorded (py : Python) (a : Uuid) (prompt : Text) (response : Completion) (db db' : Database) :
    Prop := ∃ row ∈ db'.auditLogs.drop db.auditLogs.length, Records py a prompt response row

/-- The call that an answer becomes when it passes the schema. -/
def answeredCall (prompt : Text) (response : Completion) (result : ExtractionResult py) :
    ExtractionCall py :=
  ⟨result, response.latencyMs, response.cost, response.model, prompt, response.content.getD []⟩

theorem extractFacts_of_complete {response : Completion}
    (h : complete settings llm (buildUserPrompt sources) settings.llmMaxRetries 0 = .ok response) :
    extractFacts settings llm sources = match llm.validate (response.content.getD []) with
      | .error count => .error (.typed ⟨.responseParse,
          "LLM output failed schema validation: ".toList ++ intText count ++ " error(s).".toList⟩)
      | .ok result => .ok (answeredCall (buildUserPrompt sources) response result) := by
  simp only [extractFacts, h]
  rfl

theorem records_extractionAudit (prompt : Text) (response : Completion) (result : ExtractionResult py)
    (now : Time) : Records py a prompt response (extractionAudit a (answeredCall prompt response result) now) :=
  ⟨rfl, redactedExcerpt_getD _, redactedExcerpt_getD _, rfl, rfl⟩

/-- The nodes behind an extraction add to the audit log. -/
theorem runGraph_auditLogs {n : ℕ} {extracted : Database}
    (h : extractTrace settings llm draws session sources db = .ok ((false, n), extracted)) :
    ∃ rows, (runGraph settings llm draws session sources db).2.auditLogs = extracted.auditLogs ++ rows := by
  simp only [runGraph, h]
  cases hr : reconcile py draws session.applicationId extracted with
  | error e => exact ⟨[], by simp⟩
  | ok r =>
    obtain ⟨anomalies, reconciled⟩ := r
    obtain ⟨-, rfl⟩ := reconcile_ok.mp hr
    exact ⟨_, (commitChase_auditLogs _ _ _ _ _ _ _).trans (List.append_assoc _ _ _)⟩

/-- The rows that a run adds whose model answers: the record of the answer is
among them exactly when the facts and the record are committed. -/
theorem CallsModel.recorded_iff (h : CallsModel py settings io draws a db session sources ingested)
    {prompt : Text} {response : Completion} {result : ExtractionResult py}
    (hask : askModel settings llm sources = .ok (.answered (answeredCall prompt response result))) :
    CallRecorded py a prompt response db (runPipeline settings io llm draws a db).2 ↔
      ∃ facts db', newFacts a draws.factId draws.extractAt (validateEntities result.facts sources) = .ok facts ∧
        commitFacts ((ingested.factsOf a).map (·.id)) facts
          (extractionAudit a (answeredCall prompt response result) draws.extractAt) ingested = some db' := by
  obtain ⟨-, -, -, before, hbefore, hnone⟩ := h.frame
  obtain rfl := h.applicationId
  rw [h.runPipeline_eq, CallRecorded]
  constructor
  · rintro ⟨row, hrow, hrec⟩
    by_contra hno
    have hfail : ∀ r db', extractTrace settings llm draws session sources ingested ≠ .ok (r, db') := by
      intro r db' hx
      obtain ⟨hs, -⟩ | ⟨e, hs, -⟩ | ⟨call, facts, hs, -, hn, hc⟩ := extractTrace_ok.mp hx
      all_goals rw [hask] at hs; cases hs
      exact hno ⟨facts, db', hn, hc⟩
    have hkeep : (runGraph settings llm draws session sources ingested).2 = ingested := by
      unfold runGraph
      cases hx : extractTrace settings llm draws session sources ingested with
      | error e => rfl
      | ok r => exact absurd hx (hfail _ _)
    rw [hkeep, hbefore, List.drop_left] at hrow
    have := hrec.latencyMs
    rw [hnone row hrow] at this
    cases this
  · rintro ⟨facts, db', hn, hc⟩
    have hx := extractTrace_ok.mpr (.inr (.inr ⟨_, facts, hask, rfl, hn, hc⟩))
    obtain ⟨behind, hbehind⟩ := runGraph_auditLogs hx
    obtain ⟨-, rfl⟩ := commitFacts_some.mp hc
    refine ⟨_, ?_, records_extractionAudit prompt response result draws.extractAt⟩
    rw [hbehind]
    simp [Database.addAudit, Database.replaceFacts, hbefore]

theorem CallsModel.newFacts_iff (h : CallsModel py settings io draws a db session sources ingested)
    (entities : List (RawExtractedEntity py)) :
    (∃ facts, newFacts a draws.factId draws.extractAt (validateEntities entities sources) = .ok facts) ↔
      ∀ v ∈ validateEntities entities sources, Insertable v := by
  obtain ⟨⟨x, marked, -, -, hi⟩, -⟩ := h
  obtain ⟨-, -, rfl⟩ := ingestRoute_ok.mp hi
  exact newFacts_ok_iff (fun v hv => (validateEntities_validated hv).key_known)
    fun v hv s hs => validated_documentId hv hs

/-- Behind a typed failure the answer is dropped: the row that is added holds the error only. -/
theorem CallsModel.not_recorded (h : CallsModel py settings io draws a db session sources ingested)
    {e : LlmError} (hask : askModel settings llm sources = .ok (.degraded e)) {prompt : Text}
    {response : Completion} :
    ¬ CallRecorded py a prompt response db (runPipeline settings io llm draws a db).2 := by
  rintro ⟨row, hrow, hrec⟩
  obtain ⟨-, -, -, before, hbefore, hnone⟩ := h.frame
  have hlatency : row.latencyMs = none := by
    rw [h.runPipeline_eq, runGraph_degraded hask] at hrow
    cases hc : commitDegraded py session e draws.extractAt ingested with
    | none =>
      simp only [hc, hbefore, List.drop_left] at hrow
      exact hnone row hrow
    | some db' =>
      obtain ⟨-, rfl⟩ := commitDegraded_some.mp hc
      have haudit := (flushStatus_frame session .manualReview ingested).2.2.2
      simp only [hc, Database.addAudit, haudit, hbefore, List.append_assoc, List.drop_left, List.mem_append,
        List.mem_singleton] at hrow
      rcases hrow with hrow | rfl
      · exact hnone row hrow
      · rfl
  rw [hrec.latencyMs] at hlatency
  cases hlatency

/-- A completed call is recorded exactly when its content passes the schema, the
validated entities can be inserted and the columns of the record take it. -/
theorem call_recorded_iff (h : CallsModel py settings io draws a db session sources ingested)
    {response : Completion}
    (hresponse : complete settings llm (buildUserPrompt sources) settings.llmMaxRetries 0 = .ok response) :
    CallRecorded py a (buildUserPrompt sources) response db (runPipeline settings io llm draws a db).2 ↔
      ∃ result, llm.validate (response.content.getD []) = .ok result ∧
        (∀ v ∈ validateEntities result.facts sources, Insertable v) ∧
        (extractionAudit a (answeredCall (buildUserPrompt sources) response result) 0).fits = true := by
  have hask : askModel settings llm sources = _ := h.askModel_eq
  rw [extractFacts_of_complete hresponse] at hask
  cases hv : llm.validate (response.content.getD []) with
  | error count =>
    rw [hv] at hask
    exact ⟨fun hrec => absurd hrec (h.not_recorded hask), fun ⟨result, hr, _⟩ => by cases hr⟩
  | ok result =>
    rw [hv] at hask
    rw [h.recorded_iff hask]
    constructor
    · rintro ⟨facts, db', hn, hc⟩
      exact ⟨result, rfl, (h.newFacts_iff _).mp ⟨facts, hn⟩, (commitFacts_some.mp hc).1⟩
    · rintro ⟨_, ⟨⟩, hinsert, hfits⟩
      obtain ⟨facts, hn⟩ := (h.newFacts_iff _).mpr hinsert
      exact ⟨facts, _, hn, commitFacts_some.mpr ⟨hfits, rfl⟩⟩

/-- The answer of a model that does not keep to the schema. -/
def proseAnswer : Completion := ⟨some "no facts".toList, none, "mock".toList, 1⟩

def garbled : Llm asciiPython where
  attempt _ _ := .completed proseAnswer
  validate _ := .error 1

theorem proseAnswer_not_recorded :
    CallsModel asciiPython sampleSettings sampleIo sampleDraws (.ofNat 1) (sampleDatabase "x".toList)
      ⟨.ofNat 1, .processing⟩ sampleSources sampleIngested ∧
    complete sampleSettings garbled (buildUserPrompt sampleSources) sampleSettings.llmMaxRetries 0 =
      .ok proseAnswer ∧
    ¬ CallRecorded asciiPython (.ofNat 1) (buildUserPrompt sampleSources) proseAnswer
      (sampleDatabase "x".toList) (runPipeline sampleSettings sampleIo garbled sampleDraws (.ofNat 1)
        (sampleDatabase "x".toList)).2 :=
  ⟨sample_callsModel, rfl, sample_callsModel.not_recorded rfl⟩

theorem call_recorded_iff_requiredFacts :
    CallRecorded asciiPython (.ofNat 1) (buildUserPrompt sampleSources)
      ⟨some "{}".toList, none, "mock".toList, 1⟩ (sampleDatabase "x".toList)
      (runPipeline sampleSettings sampleIo (answering requiredFacts) sampleDraws (.ofNat 1)
        (sampleDatabase "x".toList)).2 ↔
      ∃ result, (answering requiredFacts).validate "{}".toList = .ok result ∧
        (∀ v ∈ validateEntities result.facts sampleSources, Insertable v) ∧
        (extractionAudit (.ofNat 1) (answeredCall (buildUserPrompt sampleSources)
          ⟨some "{}".toList, none, "mock".toList, 1⟩ result) 0).fits = true :=
  call_recorded_iff sample_callsModel rfl

end LoanAgent
