import LoanAgent.RunStatus

/-! Runs one after the other. Between two runs on an application anything may
happen but that somebody else writes to its borrower. A run either is quiet, or
reaches its last node, which sets the status and sends at most one message
together with its audit row. Proved: after every run that reaches the last node
no text has been sent twice, the message for what is missing and for the latest
channel has been sent, and the status, the outcome and the list of missing
keys say the same. -/

namespace LoanAgent

variable {py : Python} {settings : Settings} {io : Io} {llm : Llm py} {draws : RunDraws} {a : Uuid}
  {db db' : Database}

/-! ### The latest channel -/

/-- The channel of a latest inbound message, `sms` when there is none. -/
def LatestChannel (inbound : List Communication) (channel : Channel) : Prop :=
  (inbound = [] ∧ channel = .sms) ∨
    ∃ m ∈ inbound, (∀ n ∈ inbound, n.timestamp ≤ m.timestamp) ∧ m.channel = channel

theorem latestChannel_pickChannel (inbound : List Communication) :
    LatestChannel inbound (pickChannel inbound) := by
  have hsorted := List.pairwise_insertionSort (fun m n : Communication => n.timestamp ≤ m.timestamp) inbound
  have hperm := List.perm_insertionSort (fun m n : Communication => n.timestamp ≤ m.timestamp) inbound
  unfold pickChannel
  cases hs : inbound.insertionSort fun m n => n.timestamp ≤ m.timestamp with
  | nil =>
    rw [hs] at hperm
    exact .inl ⟨hperm.symm.eq_nil, rfl⟩
  | cons m rest =>
    rw [hs] at hsorted hperm
    refine .inr ⟨m, hperm.subset List.mem_cons_self, fun n hn => ?_, rfl⟩
    rcases List.mem_cons.mp (hperm.symm.subset hn) with rfl | hn
    · exact le_rfl
    · exact List.rel_of_pairwise_cons hsorted hn

/-! ### What a run writes -/

/-- The rows of the audit log that note a sent message. -/
def Database.chaseRows (db : Database) : List AuditLog := db.auditLogs.filter (·.action = .chaseSent)

/-- No message is sent and none is noted. -/
structure Quiet (db db' : Database) : Prop where
  communications : db'.communications = db.communications
  chaseRows : db'.chaseRows = db.chaseRows

theorem Quiet.refl (db : Database) : Quiet db db := ⟨rfl, rfl⟩

theorem Quiet.trans {db'' : Database} (h : Quiet db db') (h' : Quiet db' db'') : Quiet db db'' :=
  ⟨h'.communications.trans h.communications, h'.chaseRows.trans h.chaseRows⟩

/-- Rows of another kind are quiet. -/
theorem quiet_addAudit {rows : List AuditLog} (hcomms : db'.communications = db.communications)
    (haudit : db'.auditLogs = db.auditLogs ++ rows) (hrows : ∀ row ∈ rows, row.action ≠ .chaseSent) :
    Quiet db db' := by
  refine ⟨hcomms, ?_⟩
  have hnone : rows.filter (·.action = .chaseSent) = [] :=
    List.filter_eq_nil_iff.mpr fun row hrow => by simpa using hrows row hrow
  rw [Database.chaseRows, haudit, List.filter_append, hnone, List.append_nil, Database.chaseRows]

theorem quiet_markProcessing {session session' : Session}
    (h : markProcessing session db = (session', db')) : Quiet db db' := by
  obtain ⟨-, hcomms, -, haudit⟩ := markProcessing_frame h
  exact ⟨hcomms, by rw [Database.chaseRows, haudit, Database.chaseRows]⟩

theorem quiet_ingestRoute {sources : List SourceText}
    (h : ingestRoute py settings io draws a db = .ok (sources, db')) :
    Quiet db db' ∧ db'.applications = db.applications := by
  obtain ⟨-, hc, -⟩ := ingestRoute_ok.mp h
  obtain rfl := commitIngest_some hc
  refine ⟨quiet_addAudit rfl rfl fun row hrow => ?_, rfl⟩
  obtain ⟨e, -, rfl⟩ := List.mem_map.mp hrow
  exact fun h => by cases h

theorem quiet_extractTrace {session : Session} {sources : List SourceText} {r : Bool × ℕ}
    (h : extractTrace settings llm draws session sources db = .ok (r, db')) :
    Quiet db db' ∧ (r.1 = false → db'.applications = db.applications) := by
  obtain ⟨-, rfl, rfl⟩ | ⟨e, -, rfl, hc⟩ | ⟨call, facts, -, rfl, -, hc⟩ := extractTrace_ok.mp h
  · exact ⟨.refl _, fun _ => rfl⟩
  · obtain ⟨-, rfl⟩ := commitDegraded_some.mp hc
    obtain ⟨-, hcomms, -, haudit⟩ := flushStatus_frame session .manualReview db
    refine ⟨quiet_addAudit hcomms
      (congrArg (· ++ [degradedAudit py session.applicationId e draws.extractAt]) haudit) fun row hrow => ?_,
      fun h => by cases h⟩
    rw [List.mem_singleton.mp hrow]
    exact fun h => by cases h
  · obtain ⟨-, rfl⟩ := commitFacts_some.mp hc
    refine ⟨quiet_addAudit rfl rfl fun row hrow => ?_, fun _ => rfl⟩
    rw [List.mem_singleton.mp hrow]
    exact fun h => by cases h

theorem quiet_commitAnomalies (now : Time) (anomalies : List Anomaly) (db : Database) :
    Quiet db (commitAnomalies py a now anomalies db) := by
  refine quiet_addAudit rfl rfl fun row hrow => ?_
  obtain ⟨x, -, rfl⟩ := List.mem_map.mp hrow
  exact fun h => by cases h

/-- How a run reaches its last node: quietly, with a session that knows the status. -/
structure ReachesChase (py : Python) (draws : RunDraws) (a : Uuid) (db : Database) (state : GraphState)
    (db' : Database) : Prop where
  stage : ∃ session reconciled, session.applicationId = a ∧ Quiet db reconciled ∧
    reconciled.statusOf a = some session.status ∧ chase draws session reconciled = (state.missing, db')
  outcome : state.outcome = some (chaseOutcome state.missing)

theorem runGraph_quiet_or_chase {session : Session} {sources : List SourceText} {exit : RunExit}
    (hstatus : db.statusOf session.applicationId = some session.status)
    (h : runGraph settings llm draws session sources db = (exit, db')) :
    (Quiet db db' ∧ ∀ state, exit = .completed state → state.degraded = true) ∨
      ∃ state, exit = .completed state ∧ state.degraded = false ∧
        ReachesChase py draws session.applicationId db state db' := by
  unfold runGraph at h
  cases hx : extractTrace settings llm draws session sources db with
  | error e =>
    rw [hx] at h
    cases h
    exact .inl ⟨.refl _, fun _ h => by cases h⟩
  | ok r =>
    obtain ⟨⟨degraded, n⟩, extracted⟩ := r
    obtain ⟨hquiet, happs⟩ := quiet_extractTrace hx
    rw [hx] at h
    cases degraded with
    | true =>
      cases h
      exact .inl ⟨hquiet, fun _ h => by cases h; rfl⟩
    | false =>
      have hstatus₁ : extracted.statusOf session.applicationId = some session.status := by
        simpa only [Database.statusOf, Database.application, happs rfl] using hstatus
      dsimp only at h
      cases hr : reconcile py draws session.applicationId extracted with
      | error e =>
        rw [hr] at h
        cases h
        exact .inl ⟨hquiet, fun _ h => by cases h⟩
      | ok r =>
        obtain ⟨anomalies, reconciled⟩ := r
        rw [hr] at h
        obtain ⟨-, rfl⟩ := reconcile_ok.mp hr
        cases h
        exact .inr ⟨_, rfl, rfl, ⟨session, _, rfl, hquiet.trans (quiet_commitAnomalies _ _ _), hstatus₁, rfl⟩, rfl⟩

/-- A run is quiet, or it reaches its last node. -/
theorem runPipeline_quiet_or_chase {exit : RunExit}
    (h : runPipeline settings io llm draws a db = (exit, db')) :
    (Quiet db db' ∧ ∀ state, exit = .completed state → state.degraded = true) ∨
      ∃ state, exit = .completed state ∧ state.degraded = false ∧ ReachesChase py draws a db state db' := by
  unfold runPipeline at h
  cases hx : db.application a with
  | none =>
    rw [hx] at h
    cases h
    exact .inl ⟨.refl _, fun _ h => by cases h⟩
  | some x =>
    have hst : db.statusOf a = some x.status := by simp [Database.statusOf, hx]
    obtain ⟨st, marked, hmark, hmarked, -⟩ := markProcessing_spec hst
    have hquiet := quiet_markProcessing hmark
    rw [hx] at h
    simp only [hmark] at h
    cases hi : ingestRoute py settings io draws a marked with
    | error e =>
      rw [hi] at h
      cases h
      exact .inl ⟨hquiet, fun _ h => by cases h⟩
    | ok r =>
      obtain ⟨sources, ingested⟩ := r
      rw [hi] at h
      obtain ⟨hquiet₁, happs⟩ := quiet_ingestRoute hi
      have hstatus : ingested.statusOf (⟨a, st⟩ : Session).applicationId = some (⟨a, st⟩ : Session).status := by
        simpa only [Database.statusOf, Database.application, happs] using hmarked
      rcases runGraph_quiet_or_chase hstatus h with
        ⟨hq, hdeg⟩ | ⟨state, hexit, hdeg, ⟨session, reconciled, hid, hq, hrest⟩, hout⟩
      · exact .inl ⟨hquiet.trans (hquiet₁.trans hq), hdeg⟩
      · exact .inr ⟨state, hexit, hdeg, ⟨session, reconciled, hid, hquiet.trans (hquiet₁.trans hq), hrest⟩, hout⟩

/-! ### The last node -/

/-- What the borrower has been sent. -/
def Database.sentTexts (db : Database) (a : Uuid) : List (Option Text) :=
  (db.messagesOf a .outbound).map (·.content)

/-- Nothing is sent, or one message and one row of the audit log say it. -/
def AtMostOneMessage (a : Uuid) (db db' : Database) : Prop :=
  Quiet db db' ∨ ∃ m row, db'.communications = db.communications ++ [m] ∧
    db'.chaseRows = db.chaseRows ++ [row] ∧ m.applicationId = a ∧ m.direction = .outbound ∧
    row.applicationId = a ∧ row.llmResponse = m.content

/-- The borrower has been told what the rows say, once, and so does the run. -/
structure Chased (a : Uuid) (db : Database) (state : GraphState) : Prop where
  distinct : (db.sentTexts a).Nodup
  told : ∃ channel, LatestChannel (db.messagesOf a .inbound) channel ∧
    some (buildChaseContent (missingKeys (db.contentsOf a)) channel) ∈ db.sentTexts a
  status : db.statusOf a = some (if Complete (db.contentsOf a) then .readyForLos else .pendingDocs)
  missing : state.missing = missingKeys (db.contentsOf a)
  missing_nil : state.missing = [] ↔ db.statusOf a = some .readyForLos
  outcome : state.outcome =
    some (if db.statusOf a = some .readyForLos then "ready_for_los".toList else "chasing".toList)

theorem Quiet.messagesOf (h : Quiet db db') (direction : Direction) :
    db'.messagesOf a direction = db.messagesOf a direction := by
  rw [Database.messagesOf, h.communications, Database.messagesOf]

theorem chaseAlreadySent_iff {content : Text} :
    chaseAlreadySent (db.messagesOf a .outbound) content = true ↔ some content ∈ db.sentTexts a := by
  simp [chaseAlreadySent, Database.sentTexts]

theorem chaseRows_commitChase (session : Session) (id : Uuid) (now : Time) (missing : List Text)
    (channel : Channel) (sent : Bool) (db : Database) :
    (commitChase session id now missing channel sent db).chaseRows = db.chaseRows ++ (if sent then [] else
      [chaseSentAudit session.applicationId now (buildChaseContent missing channel)]) := by
  rw [Database.chaseRows, commitChase_auditLogs, List.filter_append, Database.chaseRows]
  split_ifs <;> rfl

theorem Quiet.atMostOneMessage {base : Database} (h : Quiet base db) (session : Session) (id : Uuid)
    (now : Time) (missing : List Text) (channel : Channel) (sent : Bool) :
    AtMostOneMessage session.applicationId base (commitChase session id now missing channel sent db) := by
  obtain ⟨-, -, hcomms⟩ := commitChase_tables session id now missing channel sent db
  have hrows := chaseRows_commitChase session id now missing channel sent db
  rw [h.communications] at hcomms
  rw [h.chaseRows] at hrows
  split_ifs at hcomms hrows
  · exact .inl ⟨by simpa using hcomms, by simpa using hrows⟩
  · exact .inr ⟨_, _, hcomms, hrows, rfl, rfl, rfl, rfl⟩

theorem ReachesChase.atMostOneMessage {state : GraphState} (h : ReachesChase py draws a db state db') :
    AtMostOneMessage a db db' := by
  obtain ⟨session, reconciled, rfl, hquiet, -, hchase⟩ := h.stage
  obtain rfl := (Prod.mk.inj hchase).2
  exact hquiet.atMostOneMessage _ _ _ _ _ _

theorem messagesOf_commitChase (session : Session) (id : Uuid) (now : Time) (missing : List Text)
    (channel : Channel) (sent : Bool) (db : Database) (direction : Direction) :
    (commitChase session id now missing channel sent db).messagesOf session.applicationId direction =
      db.messagesOf session.applicationId direction ++ (if sent ∨ direction = .inbound then [] else
        [chaseMessage session.applicationId id channel (buildChaseContent missing channel)]) := by
  obtain ⟨-, -, hcomms⟩ := commitChase_tables session id now missing channel sent db
  rw [Database.messagesOf, hcomms, List.filter_append, Database.messagesOf]
  congr 1
  cases sent <;> cases direction <;> simp [chaseMessage]

/-- The texts sent behind the last node: the content is new or there. -/
theorem sentTexts_chase (draws : RunDraws) {session : Session} {content : Text}
    (hcontent : content = buildChaseContent (missingKeys (db.contentsOf session.applicationId))
      (pickChannel (db.messagesOf session.applicationId .inbound))) :
    (chase draws session db).2.sentTexts session.applicationId =
      if some content ∈ db.sentTexts session.applicationId then db.sentTexts session.applicationId
      else db.sentTexts session.applicationId ++ [some content] := by
  have hmessages : (chase draws session db).2.sentTexts session.applicationId =
      db.sentTexts session.applicationId ++ (if chaseAlreadySent
        (db.messagesOf session.applicationId .outbound) content then [] else [some content]) := by
    simp only [chase, Database.sentTexts, messagesOf_commitChase, reduceCtorEq, or_false, List.map_append,
      ← hcontent, apply_ite (List.map Communication.content)]
    rfl
  rw [hmessages]
  by_cases hmem : some content ∈ db.sentTexts session.applicationId
  · rw [if_pos hmem, if_pos (chaseAlreadySent_iff.mpr hmem), List.append_nil]
  · rw [if_neg hmem, if_neg (mt chaseAlreadySent_iff.mp hmem)]

/-- The last node keeps the sent texts distinct. -/
theorem ReachesChase.chased {state : GraphState} (h : ReachesChase py draws a db state db')
    (hnodup : (db.sentTexts a).Nodup) : Chased a db' state := by
  obtain ⟨session, reconciled, rfl, hquiet, hstatus, hchase⟩ := h.stage
  obtain ⟨content, hcontent⟩ : ∃ content, content = buildChaseContent
      (missingKeys (reconciled.contentsOf session.applicationId))
      (pickChannel (reconciled.messagesOf session.applicationId .inbound)) := ⟨_, rfl⟩
  have hsent := sentTexts_chase draws hcontent
  have hout := h.outcome
  obtain ⟨hmissing, rfl⟩ := Prod.mk.inj hchase
  change (chase draws session reconciled).2.sentTexts _ = _ at hsent
  have hcontents : (chase draws session reconciled).2.contentsOf session.applicationId =
      reconciled.contentsOf session.applicationId := by
    simp only [Database.contentsOf, Database.factsOf, chase, (commitChase_tables _ _ _ _ _ _ _).2.1]
  have hinbound : (chase draws session reconciled).2.messagesOf session.applicationId .inbound =
      reconciled.messagesOf session.applicationId .inbound := by
    simp [chase, messagesOf_commitChase]
  have hstatus' : (chase draws session reconciled).2.statusOf session.applicationId =
      some (chaseStatus (missingKeys (reconciled.contentsOf session.applicationId))) :=
    commitChase_statusOf hstatus
  have hready : ∀ missing, chaseStatus missing = .readyForLos ↔ missing = [] := by
    intro missing
    unfold chaseStatus
    split_ifs with h <;> simp [h]
  have hold : (reconciled.sentTexts session.applicationId).Nodup := by
    rwa [Database.sentTexts, hquiet.messagesOf]
  change Chased _ (chase draws session reconciled).2 state
  constructor
  · rw [hsent]
    split_ifs with hmem
    · exact hold
    · rw [← List.concat_eq_append]
      exact hold.concat hmem
  · refine ⟨pickChannel (reconciled.messagesOf session.applicationId .inbound), ?_, ?_⟩
    · rw [hinbound]
      exact latestChannel_pickChannel _
    · rw [hcontents, hsent, ← hcontent]
      split_ifs with hmem
      · exact hmem
      · exact List.mem_append_right _ List.mem_cons_self
  · rw [hstatus', hcontents, chaseStatus]
    simp only [missingKeys_eq_nil]
  · rw [hcontents, ← hmissing]
  · rw [← hmissing, hstatus', Option.some.injEq, hready]
  · rw [hout, ← hmissing, hstatus', chaseOutcome]
    simp only [Option.some.injEq, hready]

/-! ### Every sequence of runs -/

/-- The databases that runs on an application lead to from one in which its
borrower has been sent nothing. Between two runs anything may happen that
leaves the sent messages alone. -/
inductive RunHistory (py : Python) (a : Uuid) : Database → Prop
  | start {db : Database} (h : db.messagesOf a .outbound = []) : RunHistory py a db
  | between {db db' : Database} (h : RunHistory py a db)
      (hsent : db'.messagesOf a .outbound = db.messagesOf a .outbound) : RunHistory py a db'
  | run {db : Database} (settings : Settings) (io : Io) (llm : Llm py) (draws : RunDraws)
      (h : RunHistory py a db) : RunHistory py a (runPipeline settings io llm draws a db).2

theorem RunHistory.nodup (h : RunHistory py a db) : (db.sentTexts a).Nodup := by
  induction h with
  | start h => simp [Database.sentTexts, h]
  | between _ hsent ih => rwa [Database.sentTexts, hsent]
  | run settings io llm draws _ ih =>
    rcases runPipeline_quiet_or_chase (Prod.mk.eta (p := runPipeline settings io llm draws a _)).symm with
      ⟨hquiet, -⟩ | ⟨state, -, -, hchase⟩
    · rwa [Database.sentTexts, hquiet.messagesOf]
    · exact (hchase.chased ih).distinct

/-- Over every sequence of runs, each sends at most one message, and noted so;
and behind a run that reaches its last node the messages, the status and what
the run returns are in step. -/
theorem chase_never_repeats (h : RunHistory py a db) (settings : Settings) (io : Io) (llm : Llm py)
    (draws : RunDraws) :
    AtMostOneMessage a db (runPipeline settings io llm draws a db).2 ∧
    ∀ state, (runPipeline settings io llm draws a db).1 = .completed state → state.degraded = false →
      Chased a (runPipeline settings io llm draws a db).2 state := by
  rcases runPipeline_quiet_or_chase (Prod.mk.eta (p := runPipeline settings io llm draws a db)).symm with
    ⟨hquiet, hdeg⟩ | ⟨state, hexit, -, hchase⟩
  · refine ⟨.inl hquiet, fun state hexit hno => ?_⟩
    rw [hdeg state hexit] at hno
    cases hno
  · refine ⟨hchase.atMostOneMessage, fun state' hexit' _ => ?_⟩
    obtain rfl := RunExit.completed.inj (hexit.symm.trans hexit')
    exact hchase.chased h.nodup

/-- A model that finds no fact. -/
def noFacts : ExtractionResult asciiPython where
  facts := []
  facts_length := by decide

/-- The sample database behind a run in which the model finds every required fact. -/
def completedDatabase : Database :=
  (runPipeline sampleSettings sampleIo (answering requiredFacts) sampleDraws (.ofNat 1)
    (sampleDatabase "x".toList)).2

theorem chase_never_repeats_factsLost :
    ((runPipeline sampleSettings sampleIo (answering noFacts) sampleDraws (.ofNat 1)
      completedDatabase).2.sentTexts (.ofNat 1)).length = 2 ∧
    AtMostOneMessage (.ofNat 1) completedDatabase (runPipeline sampleSettings sampleIo (answering noFacts)
      sampleDraws (.ofNat 1) completedDatabase).2 ∧
    ∀ state, (runPipeline sampleSettings sampleIo (answering noFacts) sampleDraws (.ofNat 1)
      completedDatabase).1 = .completed state → state.degraded = false →
        Chased (.ofNat 1) (runPipeline sampleSettings sampleIo (answering noFacts) sampleDraws (.ofNat 1)
          completedDatabase).2 state :=
  ⟨by decide +kernel, chase_never_repeats (.run _ _ _ _ (.start (by decide))) _ _ _ _⟩

end LoanAgent
