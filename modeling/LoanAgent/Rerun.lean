import LoanAgent.AuditTrail
import LoanAgent.RunRows
import LoanAgent.RunStatus

/-! A second run of the pipeline with nothing new. It finds the same texts, asks
the same question and gets the same facts, finds the same keys missing and
keeps its message to itself, but it appends the anomalies once more. Proved: a
rerun always keeps the status, the facts and the messages, and the report is
kept and tells the anomalies of the current facts exactly when the log had no
anomaly at all. -/

namespace LoanAgent

variable {py : Python} {settings : Settings} {io : Io} {llm : Llm py} {draws : RunDraws}
  {a : Uuid} {db : Database}

/-- The anomaly rows of an application in the order of the log. -/
def Database.anomalyLog (db : Database) (a : Uuid) : List AuditLog :=
  db.auditLogs.filter fun row => row.applicationId = a ∧ row.action = .reconcileAnomaly

theorem length_anomalyRows (db : Database) (a : Uuid) :
    (db.anomalyRows a).length = (db.anomalyLog a).length := List.length_insertionSort _ _

theorem anomalyLog_addAudit {rows : List AuditLog} (h : ∀ r ∈ rows, r.action ≠ .reconcileAnomaly) :
    (db.addAudit rows).anomalyLog a = db.anomalyLog a := by
  have hnil : rows.filter (fun row => row.applicationId = a ∧ row.action = .reconcileAnomaly) = [] := by
    rw [List.filter_eq_nil_iff]
    intro r hr
    simp [h r hr]
  simp only [Database.anomalyLog, Database.addAudit, List.filter_append, hnil, List.append_nil]

/-- With one time for all rows, the order of the rows shows in their contents. -/
theorem orderFacts_contents {facts : List ExtractedFact} {now : Time}
    (h : ∀ f ∈ facts, f.createdAt = now) :
    (orderFacts facts).map (·.toFactContent) =
      (facts.map (·.toFactContent)).insertionSort fun c d => c.key < d.key ∨ c.key = d.key :=
  List.map_insertionSort _ _ _ _ fun f hf g hg => by simp [h f hf, h g hg]

/-! ### What each node keeps -/

theorem commitIngest_frame {r : IngestResult} {now : Time} {db' : Database}
    (h : commitIngest a now r db = some db') :
    db'.applications = db.applications ∧ db'.communications = db.communications ∧
      db'.facts = db.facts ∧ ∀ b, db'.anomalyLog b = db.anomalyLog b := by
  rw [commitIngest_some h]
  refine ⟨rfl, rfl, rfl, fun b => ?_⟩
  rw [anomalyLog_addAudit]
  · rfl
  · intro row hrow
    obtain ⟨e, -, rfl⟩ := List.mem_map.mp hrow
    simp [parseFailedAudit]

theorem extractTrace_frame {session : Session} {sources : List SourceText} {n : ℕ} {db' : Database}
    (h : extractTrace settings llm draws session sources db = .ok ((false, n), db')) :
    db'.applications = db.applications ∧ db'.documents = db.documents ∧
      db'.communications = db.communications ∧ ∀ b, db'.anomalyLog b = db.anomalyLog b := by
  obtain ⟨-, -, rfl⟩ | ⟨_, -, hr, -⟩ | ⟨call, facts, -, -, -, hc⟩ := extractTrace_ok.mp h
  · exact ⟨rfl, rfl, rfl, fun _ => rfl⟩
  · cases hr
  · obtain ⟨-, rfl⟩ := commitFacts_some.mp hc
    exact ⟨rfl, rfl, rfl, fun b => anomalyLog_addAudit (by simp [extractionAudit])⟩

theorem anomalyLog_commitAnomalies (now : Time) (anomalies : List Anomaly) :
    (commitAnomalies py a now anomalies db).anomalyLog a =
      db.anomalyLog a ++ anomalies.map (anomalyAudit py a now) := by
  have hall : (anomalies.map (anomalyAudit py a now)).filter (fun row =>
      row.applicationId = a ∧ row.action = .reconcileAnomaly) = anomalies.map (anomalyAudit py a now) := by
    rw [List.filter_eq_self]
    intro row hrow
    obtain ⟨x, -, rfl⟩ := List.mem_map.mp hrow
    simp [anomalyAudit]
  simp only [commitAnomalies, Database.anomalyLog, Database.addAudit, List.filter_append, hall]

/-- The rows behind the commit of the last node. -/
theorem commitChase_frame (session : Session) (id : Uuid) (now : Time) (missing : List Text)
    (channel : Channel) (sent : Bool) (db : Database) :
    (commitChase session id now missing channel sent db).documents = db.documents ∧
    (commitChase session id now missing channel sent db).facts = db.facts ∧
    (commitChase session id now missing channel sent db).communications =
      db.communications ++ (if sent then [] else
        [chaseMessage session.applicationId id channel (buildChaseContent missing channel)]) ∧
    ∀ b, (commitChase session id now missing channel sent db).anomalyLog b = db.anomalyLog b := by
  obtain ⟨h1, h2, h3⟩ := commitChase_tables session id now missing channel sent db
  refine ⟨h1, h2, h3, fun b => ?_⟩
  have h4 := (flushStatus_frame session (chaseStatus missing) db).2.2.2
  unfold commitChase
  dsimp only
  split_ifs
  · simp only [Database.anomalyLog, h4]
  · have hadd : (db.addAudit [chaseSentAudit session.applicationId now
        (buildChaseContent missing channel)]).anomalyLog b = db.anomalyLog b :=
      anomalyLog_addAudit (by simp [chaseSentAudit])
    rw [← hadd]
    simp only [Database.anomalyLog, Database.addAudit, h4]

/-! ### What a whole run keeps -/

/-- The message of the last node of a run. -/
def RunStages.content (s : RunStages py settings io llm draws a db) : Text :=
  buildChaseContent (missingKeys (s.extracted.contentsOf a)) (pickChannel (db.messagesOf a .inbound))

section Stages
variable {s : RunStages py settings io llm draws a db}

theorem RunStages.Valid.applicationId (h : s.Valid) : s.session.applicationId = a := by
  obtain ⟨x, -, hm⟩ := h.marks
  simpa [hm] using markProcessing_applicationId ⟨a, x.status⟩ db

theorem RunStages.Valid.messages_kept (h : s.Valid) :
    s.extracted.communications = db.communications := by
  obtain ⟨x, -, hm⟩ := h.marks
  rw [(extractTrace_frame h.extracts).2.2.1, (commitIngest_frame (ingestRoute_ok.mp h.ingests).2.1).2.1,
    (markProcessing_frame hm).2.1]

/-- The last commit in terms of the messages before the run. -/
theorem RunStages.Valid.final_eq (h : s.Valid) : s.final =
    commitChase s.session draws.messageId draws.chaseAt (missingKeys (s.extracted.contentsOf a))
      (pickChannel (db.messagesOf a .inbound)) (chaseAlreadySent (db.messagesOf a .outbound) s.content)
      (commitAnomalies py a draws.reconcileAt s.anomalies s.extracted) := by
  have hmsgs : ∀ dir, (commitAnomalies py a draws.reconcileAt s.anomalies s.extracted).messagesOf a dir =
      db.messagesOf a dir := fun dir => by
    simp only [Database.messagesOf, commitAnomalies, Database.addAudit, h.messages_kept]
  unfold RunStages.final chase
  dsimp only
  rw [h.applicationId, hmsgs, hmsgs]
  rfl

theorem RunStages.Valid.statusOf (h : s.Valid) :
    s.final.statusOf a = some (chaseStatus (missingKeys (s.extracted.contentsOf a))) := by
  obtain ⟨x, hx, hm⟩ := h.marks
  have hst : db.statusOf a = some x.status := by simp [Database.statusOf, hx]
  obtain ⟨st', db', hmark, hst', -⟩ := markProcessing_spec hst
  rw [hm] at hmark
  obtain ⟨h1, h2⟩ := Prod.mk.inj hmark
  have hingest := (commitIngest_frame (ingestRoute_ok.mp h.ingests).2.1).1
  have hextract := (extractTrace_frame h.extracts).1
  have hstatus : (commitAnomalies py a draws.reconcileAt s.anomalies s.extracted).statusOf
      s.session.applicationId = some s.session.status := by
    simp only [h1]
    rw [← hst', ← h2]
    simp only [Database.statusOf, Database.application, commitAnomalies, Database.addAudit, hextract, hingest]
  rw [h.final_eq]
  exact (congrArg _ h.applicationId.symm).trans (commitChase_statusOf hstatus)

theorem RunStages.Valid.borrowerOf (h : s.Valid) : s.final.borrowerOf a = db.borrowerOf a := by
  obtain ⟨x, -, hm⟩ := h.marks
  have hmark : s.marked.borrowerOf a = db.borrowerOf a := by
    rw [show s.marked = (markProcessing ⟨a, x.status⟩ db).2 from (congrArg Prod.snd hm).symm]
    unfold markProcessing
    split_ifs
    · exact Database.borrowerOf_setStatus _ _ _
    · rfl
  have hchase : ∀ (session : Session) id now missing channel sent (db : Database),
      (commitChase session id now missing channel sent db).borrowerOf a = db.borrowerOf a := by
    intro session id now missing channel sent db
    unfold commitChase
    dsimp only
    split_ifs <;> exact Session.borrowerOf_flushStatus _ _ _ _
  rw [h.final_eq, hchase, ← hmark]
  simp only [Database.borrowerOf, Database.application, commitAnomalies, Database.addAudit,
    (extractTrace_frame h.extracts).1, (commitIngest_frame (ingestRoute_ok.mp h.ingests).2.1).1]

/-- The documents have the texts that the run loaded for them. -/
theorem RunStages.Valid.documents (h : s.Valid) (hk : (db.documents.map (·.id)).Nodup) :
    s.final.documents = db.documents.map fun d =>
      if d.applicationId = a then d.withText (loadDocument py settings io a) else d := by
  obtain ⟨x, -, hm⟩ := h.marks
  have hmark := (markProcessing_frame hm).1
  obtain ⟨-, hc, -⟩ := ingestRoute_ok.mp h.ingests
  have hdocs : s.marked.documentsOf a = db.documentsOf a := by simp only [Database.documentsOf, hmark]
  have hingest := documents_setRawTexts (loadDocument py settings io a) (hmark.symm ▸ hk) a
  rw [hmark] at hingest
  rw [h.final_eq, (commitChase_frame _ _ _ _ _ _ _).1]
  change s.extracted.documents = _
  rw [(extractTrace_frame h.extracts).2.1, commitIngest_some hc]
  exact hingest

theorem RunStages.Valid.facts (h : s.Valid) : s.final.facts = s.extracted.facts := by
  rw [h.final_eq, (commitChase_frame _ _ _ _ _ _ _).2.1]
  rfl

/-- A run adds its message unless it was sent before. -/
theorem RunStages.Valid.communications (h : s.Valid) : s.final.communications = db.communications ++
    if chaseAlreadySent (db.messagesOf a .outbound) s.content then []
    else [chaseMessage a draws.messageId (pickChannel (db.messagesOf a .inbound)) s.content] := by
  rw [h.final_eq, (commitChase_frame _ _ _ _ _ _ _).2.2.1, h.applicationId]
  change s.extracted.communications ++ _ = _
  rw [h.messages_kept]
  rfl

theorem RunStages.Valid.anomalyLog (h : s.Valid) : s.final.anomalyLog a =
    db.anomalyLog a ++ s.anomalies.map (anomalyAudit py a draws.reconcileAt) := by
  obtain ⟨x, -, hm⟩ := h.marks
  have hmark : s.marked.anomalyLog a = db.anomalyLog a := by
    simp only [Database.anomalyLog, (markProcessing_frame hm).2.2.2]
  rw [h.final_eq, (commitChase_frame _ _ _ _ _ _ _).2.2.2, anomalyLog_commitAnomalies,
    (extractTrace_frame h.extracts).2.2.2, (commitIngest_frame (ingestRoute_ok.mp h.ingests).2.1).2.2.2, hmark]

theorem RunStages.Valid.inbound (h : s.Valid) :
    s.final.messagesOf a .inbound = db.messagesOf a .inbound := by
  simp only [Database.messagesOf, h.communications, List.filter_append]
  split_ifs <;> simp [chaseMessage]

theorem RunStages.Valid.sources (h : s.Valid) : s.sources = runSources py settings io a db := by
  obtain ⟨x, -, hm⟩ := h.marks
  obtain ⟨hdocs, hmsgs, -⟩ := markProcessing_frame hm
  rw [(ingestRoute_ok.mp h.ingests).2.2]
  simp only [runSources, Database.documentsOf, Database.messagesOf, hdocs, hmsgs]

/-- Behind a run its message is among those sent. -/
theorem RunStages.Valid.sent (h : s.Valid) :
    chaseAlreadySent (s.final.messagesOf a .outbound) s.content = true := by
  have hc := h.communications
  by_cases hs : chaseAlreadySent (db.messagesOf a .outbound) s.content
  · rw [if_pos hs, List.append_nil] at hc
    simpa only [Database.messagesOf, hc] using hs
  · rw [if_neg hs] at hc
    simp [Database.messagesOf, hc, chaseAlreadySent, chaseMessage]

theorem RunStages.Valid.documentsOf (h : s.Valid) (hk : (db.documents.map (·.id)).Nodup) :
    s.final.documentsOf a =
      (db.documentsOf a).map (Document.withText (loadDocument py settings io a)) := by
  obtain ⟨x, -, hm⟩ := h.marks
  have hmark := (markProcessing_frame hm).1
  have hdocs : s.marked.documentsOf a = db.documentsOf a := by simp only [Database.documentsOf, hmark]
  have hingest := documentsOf_ingest (hmark.symm ▸ hk) (ingestRoute_ok.mp h.ingests).2.1
  rw [← hdocs, ← hingest]
  simp only [Database.documentsOf]
  rw [h.final_eq, (commitChase_frame _ _ _ _ _ _ _).1]
  change s.extracted.documents.filter _ = _
  rw [(extractTrace_frame h.extracts).2.1]

/-- A second run extracts from the same sources. -/
theorem RunStages.Valid.runSources_final (h : s.Valid) (hk : (db.documents.map (·.id)).Nodup) :
    runSources py settings io a s.final = s.sources := by
  rw [h.sources]
  simp only [runSources, h.inbound, h.documentsOf hk, ingestResult, List.filterMap_map]
  congr 2
  funext d
  simp only [Function.comp_apply, withText_id,
    parsedText_withText (loadDocument_withText py settings io a (loadDocument py settings io a))]

/-! ### The second run -/

/-- The contents of the facts behind an extraction, and their order by key, do
not depend on the identifiers and the time that the run drew. -/
theorem extractTrace_again {session session' : Session} {sources : List SourceText} {n : ℕ}
    {db db' base : Database} (draws' : RunDraws) (hid : session.applicationId = a)
    (hid' : session'.applicationId = a)
    (h : extractTrace settings llm draws session sources db = .ok ((false, n), db'))
    (hbase : base.facts = db'.facts) :
    ∃ base', extractTrace settings llm draws' session' sources base = .ok ((false, n), base') ∧
      base'.contentsOf a = db'.contentsOf a ∧
      (orderFacts (base'.factsOf a)).map (·.toFactContent) =
        (orderFacts (db'.factsOf a)).map (·.toFactContent) := by
  obtain ⟨hask, hr, rfl⟩ | ⟨_, -, hr, -⟩ | ⟨call, facts, hask, hr, hn, hc⟩ := extractTrace_ok.mp h
  · cases hr
    have hfacts : base.factsOf a = db'.factsOf a := by simp only [Database.factsOf, hbase]
    exact ⟨base, extractTrace_ok.mpr (.inl ⟨hask, rfl, rfl⟩), by simp only [Database.contentsOf, hfacts],
      by rw [hfacts]⟩
  · cases hr
  · cases hr
    rw [hid] at hn hc
    obtain ⟨hrow, rfl⟩ := commitFacts_some.mp hc
    obtain ⟨facts', hn', hmap⟩ := newFacts_contents draws'.factId draws'.extractAt hn
    have hc' : commitFacts ((base.factsOf a).map (·.id)) facts' (extractionAudit a call draws'.extractAt)
        base = some _ := commitFacts_some.mpr ⟨hrow, rfl⟩
    have hfacts : ((db.replaceFacts ((db.factsOf a).map (·.id)) facts).addAudit
        [extractionAudit a call draws.extractAt]).factsOf a = facts :=
      factsOf_replaceFacts (fun _ hf => List.mem_map_of_mem hf) fun f hf => (mem_newFacts hn hf).1
    have hfacts' : ((base.replaceFacts ((base.factsOf a).map (·.id)) facts').addAudit
        [extractionAudit a call draws'.extractAt]).factsOf a = facts' :=
      factsOf_replaceFacts (fun _ hf => List.mem_map_of_mem hf) fun f hf => (mem_newFacts hn' hf).1
    have hlen : facts'.length = facts.length := by simpa using congrArg List.length hmap
    have hstep : extractTrace settings llm draws' session' sources base = .ok ((false, facts.length),
        (base.replaceFacts ((base.factsOf a).map (·.id)) facts').addAudit
          [extractionAudit a call draws'.extractAt]) := by
      refine extractTrace_ok.mpr (.inr (.inr ⟨call, facts', hask, by rw [hlen], ?_, ?_⟩))
      · rw [hid']; exact hn'
      · rw [hid']; exact hc'
    refine ⟨_, hstep, ?_, ?_⟩
    · simp only [Database.contentsOf, hfacts, hfacts', hmap]
    · rw [hfacts, hfacts', orderFacts_contents (createdAt_newFacts hn),
        orderFacts_contents (createdAt_newFacts hn'), hmap]

/-- Behind a run that went through, another one goes through as well, with the
same sources, the same facts and the same anomalies. -/
theorem RunStages.Valid.again (h : s.Valid) (hk : (db.documents.map (·.id)).Nodup) (draws' : RunDraws) :
    ∃ t : RunStages py settings io llm draws' a s.final, t.Valid ∧ t.anomalies = s.anomalies ∧
      t.extracted.contentsOf a = s.extracted.contentsOf a ∧
      (orderFacts (t.extracted.factsOf a)).map (·.toFactContent) =
        (orderFacts (s.extracted.factsOf a)).map (·.toFactContent) := by
  set load := loadDocument py settings io a with hload
  have hreload := loadDocument_withText py settings io a load
  obtain ⟨x, hx, hst⟩ := Option.map_eq_some_iff.mp h.statusOf
  obtain ⟨⟨session, marked⟩, hm⟩ : ∃ r, markProcessing ⟨a, x.status⟩ s.final = r := ⟨_, rfl⟩
  have hid : session.applicationId = a := by
    simpa [hm] using markProcessing_applicationId ⟨a, x.status⟩ s.final
  obtain ⟨hmdocs, hmmsgs, hmfacts, -⟩ := markProcessing_frame hm
  have hdocs : marked.documentsOf a = (db.documentsOf a).map (Document.withText load) := by
    rw [← h.documentsOf hk]
    simp only [Database.documentsOf, hmdocs]
  -- The first node goes through: what failed fails again in the same way.
  obtain ⟨y, -, hm₁⟩ := h.marks
  have hdocs₁ : s.marked.documentsOf a = db.documentsOf a := by
    simp only [Database.documentsOf, (markProcessing_frame hm₁).1]
  obtain ⟨hcaught, hc, -⟩ := ingestRoute_ok.mp h.ingests
  rw [hdocs₁] at hcaught hc
  obtain ⟨htexts, hfailures⟩ := commitIngest_isSome.mp ⟨_, hc⟩
  have hcaught' : LoadsCaught load (marked.documentsOf a) := by
    rw [hdocs]
    intro d hd e he
    obtain ⟨d₀, hd₀, rfl⟩ := List.mem_map.mp hd
    rw [loadError_withText hreload] at he
    exact hcaught d₀ hd₀ e he
  obtain ⟨ingested, hc'⟩ : ∃ ingested, commitIngest a draws'.ingestAt
      (ingestResult load (marked.documentsOf a)) marked = some ingested := by
    refine commitIngest_isSome.mpr ⟨fun d hd text ht => ?_, fun d hd e he => ?_⟩
    all_goals
      rw [hdocs] at hd
      obtain ⟨d₀, hd₀, rfl⟩ := List.mem_map.mp hd
    · exact htexts d₀ hd₀ text (loadedText_withText hreload ht)
    · rw [caughtError, loadError_withText hreload] at he
      exact hfailures d₀ hd₀ e he
  have hsources : runSources py settings io a marked = s.sources := by
    rw [← h.runSources_final hk]
    simp only [runSources, Database.documentsOf, Database.messagesOf, hmdocs, hmmsgs]
  have hingest : ingestRoute py settings io draws' a marked = .ok (s.sources, ingested) :=
    ingestRoute_ok.mpr ⟨hcaught', hc', hsources.symm⟩
  have hfacts : ingested.facts = s.extracted.facts := by
    rw [(commitIngest_frame hc').2.2.1, hmfacts, h.facts]
  obtain ⟨extracted, he, hcontents, horder⟩ :=
    extractTrace_again draws' h.applicationId hid h.extracts hfacts
  exact ⟨⟨session, marked, s.sources, ingested, s.newFacts, extracted, s.anomalies⟩,
    ⟨⟨x, hx, hm⟩, hingest, he, by rw [hcontents]; exact h.reconciles⟩, rfl, hcontents, horder⟩

end Stages

/-! ### The reports -/

/-- What a rerun that takes the database from `db₁` to `db₂` has to keep, and
what the report has to tell before it. -/
structure RerunIdempotent (py : Python) (a : Uuid) (limit offset : ℤ) (db₁ db₂ : Database) : Prop where
  report : ∃ r₁ r₂, getAuditTrail py db₁ a limit offset = .ok r₁ ∧
    getAuditTrail py db₂ a limit offset = .ok r₂ ∧ r₁.Same r₂
  outbound : db₂.messagesOf a .outbound = db₁.messagesOf a .outbound
  current : ∃ r₁ found, getAuditTrail py db₁ a limit offset = .ok r₁ ∧
    findAnomalies py (db₁.contentsOf a) = .ok found ∧
    (r₁.anomalies.map (·.toAnomalyContent)).Perm (found.map Anomaly.content)

/-- Texts written back do not show in the provenance of a fact. -/
theorem provenance_withText {load : Document → Except LoadFailure Text} {db' : Database}
    (h : db'.documents = db.documents.map fun d => if d.applicationId = a then d.withText load else d)
    (c : FactContent) : provenance db' c = provenance db c := by
  have hfind : ∀ id, (db'.documents.find? (·.id = id)).map (fun d => (d.s3Path, d.fileType)) =
      (db.documents.find? (·.id = id)).map fun d => (d.s3Path, d.fileType) := by
    intro id
    rw [h, List.find?_map, Option.map_map]
    congr 1
    · funext d
      simp only [Function.comp_apply]
      split_ifs
      · rw [(withText_s3Path load d).1, (withText_s3Path load d).2]
      · rfl
    · congr 1
      funext d
      simp only [Function.comp_apply]
      split_ifs <;> simp
  have hpath : ∀ x : Option Document, x.bind (·.s3Path) =
      (x.map fun d => (d.s3Path, d.fileType)).bind (·.1) ∧
      x.map (·.fileType) = (x.map fun d => (d.s3Path, d.fileType)).map (·.2) := by
    intro x
    cases x <;> simp
  cases hid : c.documentId with
  | none => simp [provenance, hid]
  | some id =>
    simp only [provenance, hid, Option.bind_some, hpath, hfind]

section Main
variable (py settings io llm) in
/-- A rerun keeps the status, the page of the facts and the messages. -/
theorem rerun_keeps (draws' : RunDraws) {s : RunStages py settings io llm draws a db} (h : s.Valid)
    (hk : (db.documents.map (·.id)).Nodup) (limit offset : ℤ) :
    ∃ t : RunStages py settings io llm draws' a s.final, t.Valid ∧
      (runPipeline settings io llm draws' a s.final).2 = t.final ∧ t.anomalies = s.anomalies ∧
      t.final.statusOf a = s.final.statusOf a ∧
      factsPage t.final a limit offset = factsPage s.final a limit offset ∧
      t.final.messagesOf a .outbound = s.final.messagesOf a .outbound := by
  obtain ⟨t, ht, hanomalies, hcontents, horder⟩ := h.again hk draws'
  obtain ⟨state, -, hrun⟩ := runPipeline_undegraded.mpr ⟨t, ht, rfl⟩
  have hk' : (s.final.documents.map (·.id)).Nodup := by
    rw [h.documents hk, List.map_map]
    convert hk using 2
    funext d
    simp only [Function.comp_apply]
    split_ifs <;> simp
  have hsent : chaseAlreadySent (s.final.messagesOf a .outbound) t.content = true := by
    have : t.content = s.content := by simp only [RunStages.content, hcontents, h.inbound]
    rw [this]
    exact h.sent
  refine ⟨t, ht, by rw [hrun], hanomalies, by rw [ht.statusOf, h.statusOf, hcontents], ?_, ?_⟩
  · have hpage : ∀ db : Database, factsPage db a limit offset = ((((orderFacts (db.factsOf a)).map
        (·.toFactContent)).drop offset.toNat).take limit.toNat).map (provenance db) := by
      intro db
      rw [← List.map_drop, ← List.map_take, List.map_map]
      rfl
    have hfacts : (orderFacts (t.final.factsOf a)).map (·.toFactContent) =
        (orderFacts (s.final.factsOf a)).map (·.toFactContent) := by
      simpa only [Database.factsOf, ht.facts, h.facts] using horder
    rw [hpage, hpage, hfacts]
    exact List.map_congr_left fun c _ => provenance_withText (ht.documents hk') c
  · have hc := ht.communications
    rw [if_pos hsent, List.append_nil] at hc
    simp only [Database.messagesOf, hc]

/-- A rerun is idempotent, and the report tells the current anomalies, exactly
when the first of the two runs leaves no anomaly in the log. -/
theorem rerun_idempotent_iff (settings : Settings) (io : Io) (llm : Llm py) (draws draws' : RunDraws)
    {a : Uuid} {db db₁ : Database} {state : GraphState} {limit offset : ℤ}
    (hk : (db.documents.map (·.id)).Nodup)
    (hrun : runPipeline settings io llm draws a db = (.completed state, db₁))
    (hdegraded : state.degraded = false) (hlimit : 1 ≤ limit ∧ limit ≤ 500) (hoffset : 0 ≤ offset) :
    RerunIdempotent py a limit offset db₁ (runPipeline settings io llm draws' a db₁).2 ↔
      db₁.anomalyRows a = [] := by
  obtain ⟨s, h, rfl⟩ := runPipeline_undegraded.mp ⟨state, hdegraded, hrun⟩
  obtain ⟨t, ht, hrerun, hanomalies, hstatus, hpage, houtbound⟩ :=
    rerun_keeps py settings io llm draws' h hk limit offset
  rw [hrerun]
  have hcontents : s.final.contentsOf a = s.extracted.contentsOf a := by
    simp only [Database.contentsOf, Database.factsOf, h.facts]
  have hlog : (t.final.anomalyRows a).length = (s.final.anomalyRows a).length + s.anomalies.length := by
    simp [length_anomalyRows, ht.anomalyLog, hanomalies]
  have hlog₁ : (s.final.anomalyRows a).length = (db.anomalyLog a).length + s.anomalies.length := by
    simp [length_anomalyRows, h.anomalyLog]
  constructor
  · rintro ⟨⟨r₁, r₂, h₁, h₂, hsame⟩, -, ⟨r, found, hr, hfound, hperm⟩⟩
    rw [h₁] at hr
    cases hr
    have hlen₁ := length_anomalyItems ((getAuditTrail_ok hlimit hoffset).mp h₁).2.2.2.2
    have hlen₂ := length_anomalyItems ((getAuditTrail_ok hlimit hoffset).mp h₂).2.2.2.2
    have hequal := hsame.anomalies.length_eq
    have hcurrent := hperm.length_eq
    rw [hcontents, h.reconciles] at hfound
    cases hfound
    simp only [List.length_map] at hequal hcurrent
    -- The rerun adds the current anomalies to the log, and the report tells all of the log.
    exact List.length_eq_zero_iff.mp (by omega)
  · intro hnil
    have hnone : s.anomalies = [] := List.length_eq_zero_iff.mp (by rw [hnil] at hlog₁; simp at hlog₁; omega)
    have hnil' : t.final.anomalyRows a = [] :=
      List.length_eq_zero_iff.mp (by rw [hlog, hnil, hnone]; rfl)
    obtain ⟨x, hx, -⟩ := Option.map_eq_some_iff.mp h.statusOf
    have hb : s.final.borrowerOf a = some x.externalBorrowerId := by simp [Database.borrowerOf, hx]
    have hst : s.final.statusOf a = some x.status := by simp [Database.statusOf, hx]
    let r : AuditTrailResponse :=
      ⟨a, x.externalBorrowerId, x.status.value, factsPage s.final a limit offset, []⟩
    have h₁ : getAuditTrail py s.final a limit offset = .ok r :=
      (getAuditTrail_ok hlimit hoffset).mpr ⟨rfl, hb, by rw [hst]; rfl, rfl, by rw [hnil]; rfl⟩
    have h₂ : getAuditTrail py t.final a limit offset = .ok r :=
      (getAuditTrail_ok hlimit hoffset).mpr ⟨rfl, by rw [ht.borrowerOf, hb],
        by rw [hstatus, hst]; rfl, hpage.symm, by rw [hnil']; rfl⟩
    refine ⟨⟨r, r, h₁, h₂, rfl, rfl, rfl, .refl _, .refl _⟩, houtbound, r, [], h₁, ?_, .refl _⟩
    rw [hcontents, h.reconciles, hnone]

end Main

/-! ### A stated and a documented income -/

def RunExit.isUndegraded : RunExit → Bool
  | .completed state => !state.degraded
  | _ => false

theorem undegraded_completed {r : RunExit × Database} (h : r.1.isUndegraded = true) :
    ∃ state db', state.degraded = false ∧ r = (.completed state, db') := by
  obtain ⟨exit, db'⟩ := r
  cases exit with
  | completed state => exact ⟨state, db', by simpa [RunExit.isUndegraded] using h, rfl⟩
  | notFound => cases h
  | failed e => cases h

/-- The borrower states an income of 6000 and has sent a payslip over 5000. -/
def payslipDatabase : Database :=
  { sampleDatabase "I earn 6000".toList with
    documents := [⟨.ofNat 3, .ofNat 1, "text/plain".toList, some "income 5000".toList, none, none⟩] }

def twoIncomes : ExtractionResult asciiPython where
  facts := [
    sampleEntity "monthly_income".toList "6000".toList "6000".toList none length_monthlyIncome (by decide),
    sampleEntity "monthly_income".toList "5000".toList "5000".toList (some (.ofNat 3)) length_monthlyIncome
      (by decide)]
  facts_length := by decide

/-- The database behind one run and behind a second one. -/
def afterOneRun : Database :=
  (runPipeline sampleSettings sampleIo (answering twoIncomes) sampleDraws (.ofNat 1) payslipDatabase).2

def afterTwoRuns : Database :=
  (runPipeline sampleSettings sampleIo (answering twoIncomes) sampleDraws (.ofNat 1) afterOneRun).2

/-- The number of anomalies in the report. -/
def reportedAnomalies (db : Database) : Option ℕ :=
  (getAuditTrail asciiPython db (.ofNat 1) 100 0).toOption.map fun r => r.anomalies.length

theorem reportedAnomalies_of {db : Database} {r : AuditTrailResponse}
    (h : getAuditTrail asciiPython db (.ofNat 1) 100 0 = .ok r) :
    reportedAnomalies db = some r.anomalies.length := by
  rw [reportedAnomalies, h]
  rfl

theorem twoIncomes_reports :
    ((runPipeline sampleSettings sampleIo (answering twoIncomes) sampleDraws (.ofNat 1)
      payslipDatabase).1.isUndegraded = true ∧ reportedAnomalies afterOneRun = some 1) ∧
    reportedAnomalies afterTwoRuns = some 2 := by
  decide +kernel

theorem twoIncomes_rerun_repeats_anomaly :
    (runPipeline sampleSettings sampleIo (answering twoIncomes) sampleDraws (.ofNat 1)
      payslipDatabase).1.isUndegraded = true ∧
    reportedAnomalies afterOneRun = some 1 ∧ reportedAnomalies afterTwoRuns = some 2 ∧
    ¬ RerunIdempotent asciiPython (.ofNat 1) 100 0 afterOneRun afterTwoRuns := by
  obtain ⟨⟨hfirst, hone⟩, htwo⟩ := twoIncomes_reports
  refine ⟨hfirst, hone, htwo, ?_⟩
  rintro ⟨⟨r₁, r₂, h₁, h₂, hsame⟩, -, -⟩
  have hequal := hsame.anomalies.length_eq
  rw [List.length_map, List.length_map] at hequal
  have hn₁ := Option.some.inj ((reportedAnomalies_of h₁).symm.trans hone)
  have hn₂ := Option.some.inj ((reportedAnomalies_of h₂).symm.trans htwo)
  omega

theorem rerun_idempotent_iff_twoIncomes :
    ∃ state db₁, runPipeline sampleSettings sampleIo (answering twoIncomes) sampleDraws (.ofNat 1)
      payslipDatabase = (.completed state, db₁) ∧
      (RerunIdempotent asciiPython (.ofNat 1) 100 0 db₁ (runPipeline sampleSettings sampleIo
        (answering twoIncomes) sampleDraws (.ofNat 1) db₁).2 ↔ db₁.anomalyRows (.ofNat 1) = []) := by
  obtain ⟨state, db₁, hd, hrun⟩ := undegraded_completed twoIncomes_reports.1.1
  exact ⟨state, db₁, hrun, rerun_idempotent_iff sampleSettings sampleIo (answering twoIncomes) sampleDraws
    sampleDraws (by decide) hrun hd (by decide) (by decide)⟩

end LoanAgent
