import LoanAgent.Traceability

/-! The rows of one application at a time. A node asks for the rows of its own
application only, reads files below the folder of that application only, and
adds rows of that application only; it updates or deletes what it has found.
Proved: a run on one application leaves the rows of every other one unchanged,
and on two reachable states that agree on the rows and on the stored files of
the application it ends the same way, with the same rows up to the identifiers
and times that it draws. -/

namespace LoanAgent

variable {py : Python} {settings : Settings} {io : Io} {llm : Llm py} {draws : RunDraws}
  {a b : Uuid} {db : Database}

/-- The rows of an application. -/
def Database.restrict (db : Database) (a : Uuid) : Database where
  applications := db.applications.filter (·.id = a)
  documents := db.documentsOf a
  communications := db.communications.filter (·.applicationId = a)
  facts := db.factsOf a
  auditLogs := db.auditLogs.filter (·.applicationId = a)

/-! ### Queries and commits on the rows of one application -/

section Restrict

@[simp] theorem application_restrict : (db.restrict a).application a = db.application a := by
  simp only [Database.application, Database.restrict, List.find?_filter]
  congr 1
  funext x
  by_cases hx : x.id = a <;> simp [hx]

@[simp] theorem documentsOf_restrict : (db.restrict a).documentsOf a = db.documentsOf a := by
  simp [Database.documentsOf, Database.restrict]

@[simp] theorem factsOf_restrict : (db.restrict a).factsOf a = db.factsOf a := by
  simp [Database.factsOf, Database.restrict]

@[simp] theorem contentsOf_restrict : (db.restrict a).contentsOf a = db.contentsOf a := by
  simp only [Database.contentsOf, factsOf_restrict]

@[simp] theorem messagesOf_restrict (direction : Direction) :
    (db.restrict a).messagesOf a direction = db.messagesOf a direction := by
  simp only [Database.messagesOf, Database.restrict, List.filter_filter]
  refine List.filter_congr fun m _ => ?_
  by_cases hm : m.applicationId = a <;> simp [hm]

/-- An update that keeps what is selected by. -/
theorem filter_map_keeping {α : Type*} {f : α → α} {p : α → Bool} (h : ∀ x, p (f x) = p x) (l : List α) :
    (l.map f).filter p = (l.filter p).map f := by
  rw [List.filter_map, show p ∘ f = p from funext h]

theorem restrict_setStatus (s : ApplicationStatus) :
    (db.setStatus a s).restrict b = (db.restrict b).setStatus a s := by
  simp only [Database.restrict, Database.setStatus, Database.documentsOf, Database.factsOf]
  rw [filter_map_keeping fun x => by split_ifs <;> rfl]

theorem restrict_flushStatus (session : Session) (s : ApplicationStatus) :
    (session.flushStatus s db).restrict b = session.flushStatus s (db.restrict b) := by
  unfold Session.flushStatus
  split_ifs
  · rfl
  · exact restrict_setStatus s

theorem restrict_addAudit (rows : List AuditLog) : (db.addAudit rows).restrict b =
    (db.restrict b).addAudit (rows.filter (·.applicationId = b)) := by
  simp [Database.restrict, Database.addAudit, Database.documentsOf, Database.factsOf]

theorem restrict_setRawTexts (texts : List (Uuid × Text)) :
    (db.setRawTexts texts).restrict b = (db.restrict b).setRawTexts texts := by
  simp only [Database.restrict, Database.setRawTexts, Database.documentsOf, Database.factsOf]
  rw [filter_map_keeping fun d => by split <;> rfl]

theorem restrict_replaceFacts (deleted : List Uuid) (facts : List ExtractedFact) :
    (db.replaceFacts deleted facts).restrict b =
      (db.restrict b).replaceFacts deleted (facts.filter (·.applicationId = b)) := by
  simp only [Database.restrict, Database.replaceFacts, Database.documentsOf, Database.factsOf,
    List.filter_append, List.filter_filter, Bool.and_comm]

end Restrict

/-! ### A run sees the rows of its application only -/

section Own

theorem addAudit_own {rows : List AuditLog} (h : ∀ r ∈ rows, r.applicationId = a) :
    (db.addAudit rows).restrict a = (db.restrict a).addAudit rows := by
  rw [restrict_addAudit, List.filter_eq_self.mpr fun r hr => by simp [h r hr]]

theorem markProcessing_restrict (session : Session) : markProcessing session (db.restrict b) =
    ((markProcessing session db).1, (markProcessing session db).2.restrict b) := by
  unfold markProcessing
  split_ifs
  · rw [restrict_setStatus]
  · rfl

theorem commitIngest_restrict (now : Time) (r : IngestResult) :
    commitIngest a now r (db.restrict a) = (commitIngest a now r db).map (·.restrict a) := by
  have hrows : ∀ row ∈ r.failures.map (parseFailedAudit a now), row.applicationId = a := by
    intro row hrow
    obtain ⟨e, -, rfl⟩ := List.mem_map.mp hrow
    rfl
  simp only [commitIngest]
  split_ifs
  · rw [Option.map_some, addAudit_own hrows, restrict_setRawTexts]
  · rfl

theorem ingestRoute_restrict : ingestRoute py settings io draws a (db.restrict a) =
    (ingestRoute py settings io draws a db).map fun r => (r.1, r.2.restrict a) := by
  unfold ingestRoute
  rw [documentsOf_restrict, messagesOf_restrict]
  cases ingestDocuments (loadDocument py settings io a) (db.documentsOf a) with
  | error e => rfl
  | ok r =>
    simp only [commitIngest_restrict]
    cases commitIngest a draws.ingestAt r db <;> rfl

theorem commitDegraded_restrict (session : Session) (e : LlmError) (now : Time) :
    commitDegraded py session e now (db.restrict session.applicationId) =
      (commitDegraded py session e now db).map (·.restrict session.applicationId) := by
  simp only [commitDegraded]
  split_ifs
  · rw [Option.map_some, addAudit_own (by simp [degradedAudit]), restrict_flushStatus]
  · rfl

theorem commitFacts_restrict {facts : List ExtractedFact} {row : AuditLog} (deleted : List Uuid)
    (hfacts : ∀ f ∈ facts, f.applicationId = a) (hrow : row.applicationId = a) :
    commitFacts deleted facts row (db.restrict a) = (commitFacts deleted facts row db).map (·.restrict a) := by
  simp only [commitFacts]
  split_ifs
  · rw [Option.map_some, addAudit_own (by simpa using hrow), restrict_replaceFacts,
      List.filter_eq_self.mpr fun f hf => by simp [hfacts f hf]]
  · rfl

theorem extractTrace_restrict (session : Session) (sources : List SourceText) :
    extractTrace settings llm draws session sources (db.restrict session.applicationId) =
      (extractTrace settings llm draws session sources db).map
        fun r => (r.1, r.2.restrict session.applicationId) := by
  simp only [extractTrace, factsOf_restrict, commitDegraded_restrict]
  cases askModel settings llm sources with
  | error e => rfl
  | ok answer =>
    cases answer with
    | skipped => rfl
    | degraded e => cases hc : commitDegraded py session e draws.extractAt db <;> simp [hc, Except.map]
    | answered call =>
      dsimp only
      cases hn : newFacts session.applicationId draws.factId draws.extractAt
          (validateEntities call.result.facts sources) with
      | error e => rfl
      | ok facts =>
        dsimp only
        rw [commitFacts_restrict _ (fun f hf => (mem_newFacts hn hf).1) rfl]
        cases commitFacts ((db.factsOf session.applicationId).map (·.id)) facts
          (extractionAudit session.applicationId call draws.extractAt) db <;> rfl

theorem commitAnomalies_restrict (now : Time) (anomalies : List Anomaly) :
    commitAnomalies py a now anomalies (db.restrict a) = (commitAnomalies py a now anomalies db).restrict a := by
  refine (addAudit_own fun row hrow => ?_).symm
  obtain ⟨x, -, rfl⟩ := List.mem_map.mp hrow
  rfl

theorem reconcile_restrict : reconcile py draws a (db.restrict a) =
    (reconcile py draws a db).map fun r => (r.1, r.2.restrict a) := by
  unfold reconcile
  rw [contentsOf_restrict]
  cases findAnomalies py (db.contentsOf a) with
  | error e => rfl
  | ok anomalies => simp only [Except.map, commitAnomalies_restrict]

theorem commitChase_restrict (session : Session) (id : Uuid) (now : Time) (missing : List Text)
    (channel : Channel) (sent : Bool) :
    commitChase session id now missing channel sent (db.restrict session.applicationId) =
      (commitChase session id now missing channel sent db).restrict session.applicationId := by
  simp only [commitChase, ← restrict_flushStatus]
  split_ifs
  · rfl
  · simp [Database.restrict, Database.documentsOf, Database.factsOf, chaseMessage, chaseSentAudit]

theorem chase_restrict (session : Session) : chase draws session (db.restrict session.applicationId) =
    ((chase draws session db).1, (chase draws session db).2.restrict session.applicationId) := by
  simp only [chase, contentsOf_restrict, messagesOf_restrict, commitChase_restrict]

theorem runGraph_restrict (settings : Settings) (llm : Llm py) (draws : RunDraws) (session : Session)
    (sources : List SourceText) (db : Database) :
    runGraph settings llm draws session sources (db.restrict session.applicationId) =
      ((runGraph settings llm draws session sources db).1,
        (runGraph settings llm draws session sources db).2.restrict session.applicationId) := by
  simp only [runGraph, extractTrace_restrict]
  cases extractTrace settings llm draws session sources db with
  | error e => rfl
  | ok r =>
    obtain ⟨⟨degraded, n⟩, db'⟩ := r
    cases degraded with
    | true => rfl
    | false =>
      simp only [Except.map, reconcile_restrict]
      cases reconcile py draws session.applicationId db' with
      | error e => rfl
      | ok r => simp only [chase_restrict]

/-- A run on the rows of its application alone is the same run. -/
theorem runPipeline_restrict : runPipeline settings io llm draws a (db.restrict a) =
    ((runPipeline settings io llm draws a db).1, (runPipeline settings io llm draws a db).2.restrict a) := by
  simp only [runPipeline, application_restrict]
  cases db.application a with
  | none => rfl
  | some x =>
    have hid : (markProcessing ⟨a, x.status⟩ db).1.applicationId = a :=
      markProcessing_applicationId ⟨a, x.status⟩ db
    simp only [markProcessing_restrict, ingestRoute_restrict]
    cases ingestRoute py settings io draws a (markProcessing ⟨a, x.status⟩ db).2 with
    | error e => rfl
    | ok r =>
      have hgraph := runGraph_restrict settings llm draws (markProcessing ⟨a, x.status⟩ db).1 r.1 r.2
      rw [hid] at hgraph
      exact hgraph

end Own

/-! ### The rows of the other applications -/

section Others
variable (hab : b ≠ a)
include hab

theorem addAudit_other {rows : List AuditLog} (h : ∀ r ∈ rows, r.applicationId = a) :
    (db.addAudit rows).restrict b = db.restrict b := by
  rw [restrict_addAudit, List.filter_eq_nil_iff.mpr fun r hr => by simp [h r hr, hab.symm]]
  simp [Database.addAudit]

theorem setStatus_other (s : ApplicationStatus) : (db.setStatus a s).restrict b = db.restrict b := by
  rw [restrict_setStatus]
  have hkeep : ((db.restrict b).applications.map fun x => if x.id = a then { x with status := s } else x) =
      (db.restrict b).applications := by
    refine (List.map_congr_left fun x hx => ?_).trans (List.map_id _)
    have hb : x.id = b := by simpa using (List.mem_filter.mp hx).2
    rw [if_neg (hb ▸ hab), id_eq]
  simp only [Database.setStatus, hkeep]

theorem commitIngest_other (hk : (db.documents.map (·.id)).Nodup) {now : Time} {db' : Database}
    (h : commitIngest a now (ingestResult (loadDocument py settings io a) (db.documentsOf a)) db = some db') :
    db'.restrict b = db.restrict b := by
  have hrows : ∀ row ∈ (ingestResult (loadDocument py settings io a) (db.documentsOf a)).failures.map
      (parseFailedAudit a now), row.applicationId = a := by
    intro row hrow
    obtain ⟨e, -, rfl⟩ := List.mem_map.mp hrow
    rfl
  have hdocs := documents_setRawTexts (loadDocument py settings io a) hk a
  rw [commitIngest_some h, addAudit_other hab hrows]
  have hkeep : (db.setRawTexts
      (ingestResult (loadDocument py settings io a) (db.documentsOf a)).rawTexts).documentsOf b =
      db.documentsOf b := by
    rw [Database.documentsOf, hdocs, filter_map_keeping fun d => by split_ifs <;> simp]
    refine (List.map_congr_left fun d hd => ?_).trans (List.map_id _)
    have hb : d.applicationId = b := by simpa using (List.mem_filter.mp hd).2
    rw [if_neg (hb ▸ hab), id_eq]
  simp only [Database.restrict, hkeep]
  rfl

theorem flushStatus_other (db : Database) {session : Session} (hid : session.applicationId = a)
    (s : ApplicationStatus) :
    (session.flushStatus s db).restrict b = db.restrict b := by
  unfold Session.flushStatus
  split_ifs
  · rfl
  · rw [hid, setStatus_other hab]

theorem extractTrace_other (hk : (db.facts.map (·.id)).Nodup) {session : Session}
    (hid : session.applicationId = a) {sources : List SourceText} {r : Bool × ℕ} {db' : Database}
    (h : extractTrace settings llm draws session sources db = .ok (r, db')) :
    db'.restrict b = db.restrict b := by
  obtain ⟨-, -, rfl⟩ | ⟨e, -, -, hc⟩ | ⟨call, facts, -, -, hn, hc⟩ := extractTrace_ok.mp h
  · rfl
  · obtain ⟨-, rfl⟩ := commitDegraded_some.mp hc
    rw [addAudit_other hab (by simp [degradedAudit, hid]), flushStatus_other hab db hid]
  · obtain ⟨-, rfl⟩ := commitFacts_some.mp hc
    rw [hid] at hn ⊢
    rw [addAudit_other hab (by simp [extractionAudit])]
    have hdeleted : ∀ u ∈ (db.factsOf a).map (·.id), ∀ f ∈ db.facts, f.id = u → f.applicationId = a := by
      rintro u hu f hf rfl
      obtain ⟨f', hf', hfid⟩ := List.mem_map.mp hu
      obtain ⟨hmem, hfa⟩ := List.mem_filter.mp hf'
      rw [← List.inj_on_of_nodup_map hk hmem hf hfid]
      simpa using hfa
    have hkeep := factsOf_replaceOther hab hdeleted fun f hf => (mem_newFacts hn hf).1
    simp only [Database.restrict, hkeep]
    rfl

theorem commitChase_other {session : Session} (hid : session.applicationId = a) (id : Uuid) (now : Time)
    (missing : List Text) (channel : Channel) (sent : Bool) :
    (commitChase session id now missing channel sent db).restrict b = db.restrict b := by
  have hflush := flushStatus_other hab db hid (chaseStatus missing)
  simp only [commitChase]
  split_ifs
  · exact hflush
  · rw [← hflush]
    simp [Database.restrict, Database.documentsOf, Database.factsOf, chaseMessage, chaseSentAudit, hid, hab.symm]

/-- A run leaves the rows of every other application unchanged. -/
theorem runPipeline_other (hk : KeysUnique db) :
    (runPipeline settings io llm draws a db).2.restrict b = db.restrict b := by
  unfold runPipeline
  split
  · rfl
  next x hx =>
    obtain ⟨⟨session, marked⟩, hm⟩ : ∃ r, markProcessing ⟨a, x.status⟩ db = r := ⟨_, rfl⟩
    have hid : session.applicationId = a := by
      simpa [hm] using markProcessing_applicationId ⟨a, x.status⟩ db
    obtain ⟨hdocs, -, hfacts, -⟩ := markProcessing_frame hm
    have hmark : marked.restrict b = db.restrict b := by
      rw [show marked = (markProcessing ⟨a, x.status⟩ db).2 from (congrArg Prod.snd hm).symm]
      unfold markProcessing
      split_ifs
      · exact setStatus_other hab .processing
      · rfl
    rw [hm]
    dsimp only
    split
    · exact hmark
    next sources ingested hi =>
      obtain ⟨-, hc, -⟩ := ingestRoute_ok.mp hi
      have hingest := (commitIngest_other hab (hdocs ▸ hk.documents) hc).trans hmark
      have hfacts' : ingested.facts = db.facts := by rw [commitIngest_some hc, ← hfacts]; rfl
      unfold runGraph
      split
      · exact hingest
      next n extracted he =>
        exact (extractTrace_other hab (hfacts' ▸ hk.facts) hid he).trans hingest
      next n extracted he =>
        have hextract := (extractTrace_other hab (hfacts' ▸ hk.facts) hid he).trans hingest
        split
        · exact hextract
        next anomalies reconciled hr =>
          obtain ⟨-, rfl⟩ := reconcile_ok.mp hr
          refine (commitChase_other hab hid _ _ _ _ _).trans ((addAudit_other (hid.symm ▸ hab) ?_).trans hextract)
          intro row hrow
          obtain ⟨y, -, rfl⟩ := List.mem_map.mp hrow
          rfl

end Others

/-! ### Other identifiers and times -/

/-- The message is the same, or the one that the run adds, with what the other run draws. -/
def SameMessage (draws draws' : RunDraws) (m m' : Communication) : Prop :=
  m' = m ∨ m.id = draws.messageId ∧ m' = { m with id := draws'.messageId }

def SameFact (draws draws' : RunDraws) (f f' : ExtractedFact) : Prop :=
  f' = f ∨ ∃ i, f.id = draws.factId i ∧ f.createdAt = draws.extractAt ∧
    f' = { f with id := draws'.factId i, createdAt := draws'.extractAt }

/-- The times of the commits of a run. -/
def RunDraws.times (draws : RunDraws) : List Time :=
  [draws.ingestAt, draws.extractAt, draws.reconcileAt, draws.chaseAt]

def SameAudit (draws draws' : RunDraws) (row row' : AuditLog) : Prop :=
  row' = row ∨ ∃ t ∈ draws.times.zip draws'.times, row.createdAt = t.1 ∧ row' = { row with createdAt := t.2 }

/-- The same rows up to what two runs have drawn. -/
structure SameUpTo (draws draws' : RunDraws) (db db' : Database) : Prop where
  applications : db'.applications = db.applications
  documents : db'.documents = db.documents
  communications : List.Forall₂ (SameMessage draws draws') db.communications db'.communications
  facts : List.Forall₂ (SameFact draws draws') db.facts db'.facts
  auditLogs : List.Forall₂ (SameAudit draws draws') db.auditLogs db'.auditLogs

/-- Nothing is sent before the last node. -/
structure SameUnsent (draws draws' : RunDraws) (db db' : Database) : Prop extends
    SameUpTo draws draws' db db' where
  messages : db'.communications = db.communications

section Redraw
variable {draws' : RunDraws} {db' : Database}

theorem SameUnsent.refl (draws draws' : RunDraws) (db : Database) : SameUnsent draws draws' db db where
  applications := rfl
  documents := rfl
  communications := List.forall₂_same.mpr fun _ _ => .inl rfl
  facts := List.forall₂_same.mpr fun _ _ => .inl rfl
  auditLogs := List.forall₂_same.mpr fun _ _ => .inl rfl
  messages := rfl

/-- Rows that are built with a time. -/
theorem sameAudit_map {α : Type*} {row : Time → α → AuditLog} {t t' : Time}
    (hrow : ∀ t t' x, (row t x).createdAt = t ∧ row t' x = { row t x with createdAt := t' })
    (ht : (t, t') ∈ draws.times.zip draws'.times) (xs : List α) :
    List.Forall₂ (SameAudit draws draws') (xs.map (row t)) (xs.map (row t')) := by
  rw [List.forall₂_map_left_iff, List.forall₂_map_right_iff]
  exact List.forall₂_same.mpr fun x _ => .inr ⟨(t, t'), ht, hrow t t' x⟩

theorem SameUnsent.addAudit (h : SameUnsent draws draws' db db') {rows rows' : List AuditLog}
    (hrows : List.Forall₂ (SameAudit draws draws') rows rows') :
    SameUnsent draws draws' (db.addAudit rows) (db'.addAudit rows') :=
  { h with auditLogs := List.rel_append h.auditLogs hrows }

theorem SameUnsent.contentsOf (h : SameUnsent draws draws' db db') (a : Uuid) :
    db'.contentsOf a = db.contentsOf a := by
  have hfacts := h.facts
  simp only [Database.contentsOf, Database.factsOf]
  generalize db.facts = facts, db'.facts = facts' at hfacts
  induction hfacts with
  | nil => rfl
  | @cons f f' _ _ hf _ ih =>
    have hcontent : f'.toFactContent = f.toFactContent := by
      rcases hf with rfl | ⟨i, -, -, rfl⟩ <;> rfl
    simp only [List.filter_cons, hcontent]
    split_ifs
    · simp only [List.map_cons, hcontent, ih]
    · exact ih

theorem SameUpTo.flushStatus (h : SameUpTo draws draws' db db') (session : Session) (s : ApplicationStatus) :
    SameUpTo draws draws' (session.flushStatus s db) (session.flushStatus s db') := by
  unfold Session.flushStatus
  split_ifs
  · exact h
  · exact { h with applications := by simp only [Database.setStatus, h.applications] }

theorem ingestRoute_redraw (py : Python) (settings : Settings) (io : Io) (draws draws' : RunDraws)
    (a : Uuid) (db : Database) :
    (∀ e, ingestRoute py settings io draws a db = .error e →
      ingestRoute py settings io draws' a db = .error e) ∧
    ∀ sources d, ingestRoute py settings io draws a db = .ok (sources, d) →
      ∃ d', ingestRoute py settings io draws' a db = .ok (sources, d') ∧ SameUnsent draws draws' d d' ∧
        d'.facts = d.facts := by
  have hfits : ∀ r : IngestResult, (r.failures.map (parseFailedAudit a draws'.ingestAt)).all AuditLog.fits =
      (r.failures.map (parseFailedAudit a draws.ingestAt)).all AuditLog.fits := fun r => by
    simp only [List.all_map]
    rfl
  unfold ingestRoute
  cases ingestDocuments (loadDocument py settings io a) (db.documentsOf a) with
  | error e => exact ⟨fun _ h => h, fun _ _ h => by cases h⟩
  | ok r =>
    simp only [commitIngest, hfits]
    split_ifs
    · refine ⟨fun _ h => (by cases h), ?_⟩
      rintro sources d ⟨⟩
      refine ⟨_, rfl, (SameUnsent.refl draws draws' (db.setRawTexts r.rawTexts)).addAudit ?_, rfl⟩
      exact sameAudit_map (fun _ _ _ => ⟨rfl, rfl⟩) (by simp [RunDraws.times]) _
    · exact ⟨fun _ h => h, fun _ _ h => by cases h⟩

theorem SameUnsent.flushStatus (h : SameUnsent draws draws' db db') (session : Session)
    (s : ApplicationStatus) :
    SameUnsent draws draws' (session.flushStatus s db) (session.flushStatus s db') where
  toSameUpTo := h.toSameUpTo.flushStatus session s
  messages := by rw [(flushStatus_frame session s db').2.1, (flushStatus_frame session s db).2.1, h.messages]

theorem sameFact_newFacts {validated : List (ValidatedEntity py)} {facts : List ExtractedFact}
    (h : newFacts a draws.factId draws.extractAt validated = .ok facts) :
    List.Forall₂ (SameFact draws draws') facts
      (facts.mapIdx fun i f => { f with id := draws'.factId i, createdAt := draws'.extractAt }) := by
  have hids := newFacts_ids h
  have hlen : facts.length = validated.length := by simpa using congrArg List.length hids
  refine List.forall₂_iff_get.mpr ⟨by simp, fun i hi hi' => .inr ⟨i, ?_, ?_, by simp⟩⟩
  · have hi'' := List.getElem_of_eq hids (i := i) (by simpa using hi)
    simpa using hi''
  · exact createdAt_newFacts h _ (List.get_mem _ _)

theorem extractTrace_redraw (settings : Settings) (llm : Llm py) (h : SameUnsent draws draws' db db')
    (hfacts : db'.facts = db.facts)
    (session : Session) (sources : List SourceText) :
    (∀ e, extractTrace settings llm draws session sources db = .error e →
      extractTrace settings llm draws' session sources db' = .error e) ∧
    ∀ r d, extractTrace settings llm draws session sources db = .ok (r, d) →
      ∃ d', extractTrace settings llm draws' session sources db' = .ok (r, d') ∧
        SameUnsent draws draws' d d' := by
  have hone : ∀ row row' : AuditLog, row.createdAt = draws.extractAt →
      row' = { row with createdAt := draws'.extractAt } →
      List.Forall₂ (SameAudit draws draws') [row] [row'] := fun _ _ hrow hrow' =>
    .cons (.inr ⟨(draws.extractAt, draws'.extractAt), by simp [RunDraws.times], hrow, hrow'⟩) .nil
  unfold extractTrace
  cases askModel settings llm sources with
  | error e => exact ⟨fun _ he => he, fun _ _ he => by cases he⟩
  | ok answer =>
    cases answer with
    | skipped => exact ⟨fun _ he => (by cases he), by rintro r d ⟨⟩; exact ⟨db', rfl, h⟩⟩
    | degraded e =>
      have hfits : (degradedAudit py session.applicationId e draws'.extractAt).fits =
          (degradedAudit py session.applicationId e draws.extractAt).fits := rfl
      simp only [commitDegraded, hfits]
      split_ifs
      · refine ⟨fun _ he => (by cases he), ?_⟩
        rintro r d ⟨⟩
        exact ⟨_, rfl, (h.flushStatus session .manualReview).addAudit (hone _ _ rfl rfl)⟩
      · exact ⟨fun _ he => he, fun _ _ he => by cases he⟩
    | answered call =>
      have hfits : (extractionAudit session.applicationId call draws'.extractAt).fits =
          (extractionAudit session.applicationId call draws.extractAt).fits := rfl
      simp only [newFacts_redraw draws.factId draws'.factId draws.extractAt draws'.extractAt, commitFacts, hfits]
      cases hn : newFacts session.applicationId draws.factId draws.extractAt
          (validateEntities call.result.facts sources) with
      | error e => exact ⟨fun _ he => he, fun _ _ he => by cases he⟩
      | ok facts =>
        simp only [Except.map]
        split_ifs
        · refine ⟨fun _ he => (by cases he), ?_⟩
          rintro r d ⟨⟩
          have hrow := hone (extractionAudit session.applicationId call draws.extractAt)
            (extractionAudit session.applicationId call draws'.extractAt) rfl rfl
          refine ⟨_, by rw [List.length_mapIdx], SameUnsent.addAudit ?_ hrow⟩
          have hdeleted : db'.factsOf session.applicationId = db.factsOf session.applicationId := by
            simp only [Database.factsOf, hfacts]
          refine { h with facts := ?_ }
          simp only [Database.replaceFacts, hdeleted, hfacts]
          exact List.rel_append (List.forall₂_same.mpr fun _ _ => .inl rfl) (sameFact_newFacts hn)
        · exact ⟨fun _ he => he, fun _ _ he => by cases he⟩

/-- The rest of a run behind its extraction. -/
theorem chase_redraw (h : SameUnsent draws draws' db db') (session : Session) :
    (chase draws' session db').1 = (chase draws session db).1 ∧
      SameUpTo draws draws' (chase draws session db).2 (chase draws' session db').2 := by
  have hmessages : ∀ dir, db'.messagesOf session.applicationId dir = db.messagesOf session.applicationId dir :=
    fun dir => by simp only [Database.messagesOf, h.messages]
  simp only [chase, h.contentsOf, hmessages, true_and]
  have hflush := h.toSameUpTo.flushStatus session
    (chaseStatus (missingKeys (db.contentsOf session.applicationId)))
  simp only [commitChase]
  split_ifs
  · exact hflush
  · exact { hflush with
      communications := List.rel_append hflush.communications (.cons (.inr ⟨rfl, rfl⟩) .nil)
      auditLogs := List.rel_append hflush.auditLogs
        (.cons (.inr ⟨(draws.chaseAt, draws'.chaseAt), by simp [RunDraws.times], rfl, rfl⟩) .nil) }

theorem runGraph_redraw (settings : Settings) (llm : Llm py) (h : SameUnsent draws draws' db db')
    (hfacts : db'.facts = db.facts)
    (session : Session) (sources : List SourceText) :
    (runGraph settings llm draws' session sources db').1 = (runGraph settings llm draws session sources db).1 ∧
      SameUpTo draws draws' (runGraph settings llm draws session sources db).2
        (runGraph settings llm draws' session sources db').2 := by
  obtain ⟨herror, hok⟩ := extractTrace_redraw settings llm h hfacts session sources
  unfold runGraph
  cases he : extractTrace settings llm draws session sources db with
  | error e =>
    rw [herror e he]
    exact ⟨rfl, h.toSameUpTo⟩
  | ok r =>
    obtain ⟨⟨degraded, n⟩, d⟩ := r
    obtain ⟨d', he', hd⟩ := hok _ _ he
    rw [he']
    cases degraded with
    | true => exact ⟨rfl, hd.toSameUpTo⟩
    | false =>
      simp only [reconcile, hd.contentsOf]
      cases findAnomalies py (d.contentsOf session.applicationId) with
      | error e => exact ⟨rfl, hd.toSameUpTo⟩
      | ok anomalies =>
        have hrows : List.Forall₂ (SameAudit draws draws')
            (anomalies.map (anomalyAudit py session.applicationId draws.reconcileAt))
            (anomalies.map (anomalyAudit py session.applicationId draws'.reconcileAt)) :=
          sameAudit_map (fun _ _ _ => ⟨rfl, rfl⟩) (by simp [RunDraws.times]) anomalies
        obtain ⟨hmissing, hfinal⟩ := chase_redraw (hd.addAudit hrows) session
        refine ⟨?_, hfinal⟩
        simp only [commitAnomalies, hmissing]

/-- What a run draws shows in the rows that it adds only. -/
theorem runPipeline_redraw (settings : Settings) (io : Io) (llm : Llm py) (draws draws' : RunDraws)
    (a : Uuid) (db : Database) :
    (runPipeline settings io llm draws' a db).1 = (runPipeline settings io llm draws a db).1 ∧
      SameUpTo draws draws' (runPipeline settings io llm draws a db).2
        (runPipeline settings io llm draws' a db).2 := by
  unfold runPipeline
  cases db.application a with
  | none => exact ⟨rfl, (SameUnsent.refl draws draws' db).toSameUpTo⟩
  | some x =>
    dsimp only
    generalize markProcessing ⟨a, x.status⟩ db = started
    obtain ⟨session, marked⟩ := started
    obtain ⟨herror, hok⟩ := ingestRoute_redraw py settings io draws draws' a marked
    dsimp only
    cases hi : ingestRoute py settings io draws a marked with
    | error e =>
      rw [herror e hi]
      exact ⟨rfl, (SameUnsent.refl draws draws' marked).toSameUpTo⟩
    | ok r =>
      obtain ⟨d', hi', hd, hfacts⟩ := hok _ _ hi
      rw [hi']
      exact runGraph_redraw settings llm hd hfacts session r.1

end Redraw

/-! ### Files of one folder -/

/-- The same files are stored below the folder. -/
def SameBelow (folder : FilePath) (files files' : List (FilePath × Bytes)) : Prop :=
  ∀ f, folder <+: f.1 → (f ∈ files ↔ f ∈ files')

/-- Stored files lie right in the folders of applications, each under its own path. -/
structure StoredFlat (settings : Settings) (files : List (FilePath × Bytes)) : Prop where
  folder : ∀ f ∈ files, ∃ a name, f.1 = settings.folder a ++ [name]
  unique : ∀ p b b', (p, b) ∈ files → (p, b') ∈ files → b = b'

/-- A disk reads a path, given the stored files. Without symbolic links a path in
the folder of an application reads what is stored there. -/
def NoLinks (settings : Settings) (disk : List (FilePath × Bytes) → FilePath → Except OsError Bytes) : Prop :=
  ∀ a files files', StoredFlat settings files → StoredFlat settings files' →
    SameBelow (settings.folder a) files files' →
    ∀ p, settings.folder a <+: p → disk files p = disk files' p

/-- The libraries on top of a disk with the given files. -/
def Io.over (lib : Io) (disk : List (FilePath × Bytes) → FilePath → Except OsError Bytes)
    (files : List (FilePath × Bytes)) : Io := { lib with read := disk files }

section Files
variable {disk : List (FilePath × Bytes) → FilePath → Except OsError Bytes}
  {files files' : List (FilePath × Bytes)}

theorem FilesOwned.storedFlat {s : Store} (h : FilesOwned settings s) : StoredFlat settings s.files :=
  ⟨fun _ => h.folder, fun _ _ _ => h.unique⟩

/-- A document whose path does not climb is read from the folder of its application. -/
theorem loadDocument_below (hdisk : NoLinks settings disk) (hfiles : StoredFlat settings files)
    (hfiles' : StoredFlat settings files') (hsame : SameBelow (settings.folder a) files files') (lib : Io)
    {d : Document} (hpath : ∃ path, d.s3Path = some path ∧ NoTraversal path) :
    loadDocument py settings (lib.over disk files) a d = loadDocument py settings (lib.over disk files') a d := by
  obtain ⟨path, hd, hfree⟩ := hpath
  have hread : readLocalPayload settings (lib.over disk files) a d.s3Path =
      readLocalPayload settings (lib.over disk files') a d.s3Path := by
    simp only [readLocalPayload, hd]
    cases hp : localDocumentPath settings a (some path) with
    | none => rfl
    | some p =>
      simp only [Io.over]
      rw [hdisk a files files' hfiles hfiles' hsame p (localDocumentPath_inside hfree hp)]
  simp only [loadDocument, hread]
  rfl

/-- A run depends on the disk through its documents only. -/
theorem runPipeline_congr {io io' : Io}
    (h : ∀ d ∈ db.documentsOf a, loadDocument py settings io a d = loadDocument py settings io' a d) :
    runPipeline settings io llm draws a db = runPipeline settings io' llm draws a db := by
  unfold runPipeline
  cases db.application a with
  | none => rfl
  | some x =>
    have hdocs : (markProcessing ⟨a, x.status⟩ db).2.documents = db.documents :=
      (markProcessing_frame (Prod.mk.eta (p := markProcessing ⟨a, x.status⟩ db)).symm).1
    have hingest : ingestRoute py settings io draws a (markProcessing ⟨a, x.status⟩ db).2 =
        ingestRoute py settings io' draws a (markProcessing ⟨a, x.status⟩ db).2 := by
      unfold ingestRoute
      rw [ingestDocuments_congr fun d hd _ => h d (by simpa only [Database.documentsOf, hdocs] using hd)]
    simp only [hingest]

/-- The disk that holds the stored files, their folders and nothing else. -/
def storedDisk (files : List (FilePath × Bytes)) (p : FilePath) : Except OsError Bytes :=
  match files.lookup p with
  | some b => .ok b
  | none =>
    if files.any fun f => p.isPrefixOf f.1 then .error .isADirectory
    else if files.any fun f => f.1.isPrefixOf p then .error .notADirectory
    else .error .fileNotFound

theorem noLinks_storedDisk (settings : Settings) : NoLinks settings storedDisk := by
  intro a files files' hfiles hfiles' hsame p hp
  -- Whatever decides about the path lies in the folder.
  have hlookup : ∀ {files : List (FilePath × Bytes)} {b}, StoredFlat settings files →
      (files.lookup p = some b ↔ (p, b) ∈ files) := by
    intro files b hflat
    constructor
    · intro h
      obtain ⟨l, l', hsplit, -⟩ := List.lookup_eq_some_iff.mp h
      simp [hsplit]
    · intro h
      cases hl : files.lookup p with
      | none =>
        have := List.lookup_eq_none_iff.mp hl _ h
        simp at this
      | some b' =>
        obtain ⟨l, l', hsplit, -⟩ := List.lookup_eq_some_iff.mp hl
        rw [hflat.unique p b b' h (by simp [hsplit])]
  have hany : ∀ {q : FilePath × Bytes → Bool}, (∀ f, (f ∈ files ∨ f ∈ files') → q f = true →
      settings.folder a <+: f.1) → files.any q = files'.any q := by
    intro q hq
    rw [Bool.eq_iff_iff, List.any_eq_true, List.any_eq_true]
    exact ⟨fun ⟨f, hf, hqf⟩ => ⟨f, (hsame f (hq f (.inl hf) hqf)).mp hf, hqf⟩,
      fun ⟨f, hf, hqf⟩ => ⟨f, (hsame f (hq f (.inr hf) hqf)).mpr hf, hqf⟩⟩
  have habove := hany (q := fun f => p.isPrefixOf f.1) fun f _ hf =>
    hp.trans (List.isPrefixOf_iff_prefix.mp hf)
  have hbelow := hany (q := fun f => f.1.isPrefixOf p) fun f hf hfp => by
    obtain ⟨b, name, hfb⟩ := hf.elim (hfiles.folder f) (hfiles'.folder f)
    refine List.prefix_of_prefix_length_le hp (List.isPrefixOf_iff_prefix.mp hfp) ?_
    simp [hfb, Settings.folder]
  have heq : files.lookup p = files'.lookup p := Option.ext fun b => by
    rw [hlookup hfiles, hlookup hfiles', hsame (p, b) hp]
  simp only [storedDisk, heq, habove, hbelow]

end Files

/-! ### Two runs -/

/-- A run on one application leaves the rows of the others unchanged, and depends
on the rows and the stored files of its own only. -/
theorem pipeline_isolated {disk : List (FilePath × Bytes) → FilePath → Except OsError Bytes}
    (hdisk : NoLinks settings disk) {c c' : Service py} (hc : ServiceReaches py settings Interleave.anyStep c)
    (hc' : ServiceReaches py settings Interleave.anyStep c') (lib : Io) (llm : Llm py)
    (draws draws' : RunDraws) (a : Uuid) :
    (∀ b, b ≠ a →
      (runPipeline settings (lib.over disk c.shared.files) llm draws a c.shared.db).2.restrict b =
        c.shared.db.restrict b) ∧
    (c.shared.db.restrict a = c'.shared.db.restrict a →
      SameBelow (settings.folder a) c.shared.files c'.shared.files →
      (runPipeline settings (lib.over disk c'.shared.files) llm draws' a c'.shared.db).1 =
        (runPipeline settings (lib.over disk c.shared.files) llm draws a c.shared.db).1 ∧
      SameUpTo draws draws'
        ((runPipeline settings (lib.over disk c.shared.files) llm draws a c.shared.db).2.restrict a)
        ((runPipeline settings (lib.over disk c'.shared.files) llm draws' a c'.shared.db).2.restrict a)) := by
  refine ⟨fun b hb => runPipeline_other hb (keysUnique_of_reaches hc), fun hrows hfiles => ?_⟩
  set io := lib.over disk c.shared.files
  set io' := lib.over disk c'.shared.files
  set base := c.shared.db.restrict a with hbase
  have hchecked := pathsChecked_of_reaches hc
  have hload : ∀ d ∈ base.documentsOf a, loadDocument py settings io' a d = loadDocument py settings io a d := by
    intro d hd
    rw [hbase, documentsOf_restrict] at hd
    exact (loadDocument_below hdisk (filesOwned_of_reaches hc).storedFlat (filesOwned_of_reaches hc').storedFlat
      hfiles lib (hchecked d (List.mem_filter.mp hd).1)).symm
  have hrun : runPipeline settings io llm draws a base =
      ((runPipeline settings io llm draws a c.shared.db).1,
        (runPipeline settings io llm draws a c.shared.db).2.restrict a) := runPipeline_restrict
  have hrun' : runPipeline settings io llm draws' a base =
      ((runPipeline settings io' llm draws' a c'.shared.db).1,
        (runPipeline settings io' llm draws' a c'.shared.db).2.restrict a) := by
    rw [← runPipeline_congr hload, hrows]
    exact runPipeline_restrict
  obtain ⟨hexit, hsame⟩ := runPipeline_redraw settings io llm draws draws' a base
  rw [hrun, hrun'] at hexit hsame
  exact ⟨hexit, hsame⟩

/-! ### Alice with and without Bob -/

def bobMessage : Request :=
  textRequest "bob".toList "hello".toList "k1".toList [] (by decide) length_hello length_k1 length_unattached

/-- The service behind a schedule. -/
def servedAfter (schedule : List (ℕ × Action asciiPython)) : Service asciiPython :=
  serviceAfter (fun _ _ _ => true) schedule

def aliceOnly : Service asciiPython := servedAfter (intakeSteps 0 payslipMessage 1)

def bobFirst : Service asciiPython :=
  servedAfter (intakeSteps 1 bobMessage 2 ++ intakeSteps 0 payslipMessage 1)

/-- The run on the application of the payslip. -/
def payslipOutcome (draws : RunDraws) (c : Service asciiPython) : RunExit × Database :=
  runPipeline sampleSettings (sampleIo.over storedDisk c.shared.files) (answering payslipIncome) draws
    (.ofNat 100) c.shared.db

def laterDraws : RunDraws :=
  ⟨fun i => .ofNat (5000 + i), .ofNat 6000, 50, 60, 70, 80⟩

theorem pipeline_isolated_bobFirst :
    ((payslipOutcome sampleDraws bobFirst).2.factsOf (.ofNat 100)).length = 1 ∧
    (∀ b, b ≠ .ofNat 100 → (payslipOutcome sampleDraws bobFirst).2.restrict b = bobFirst.shared.db.restrict b) ∧
    (payslipOutcome laterDraws aliceOnly).1 = (payslipOutcome sampleDraws bobFirst).1 ∧
    SameUpTo sampleDraws laterDraws ((payslipOutcome sampleDraws bobFirst).2.restrict (.ofNat 100))
      ((payslipOutcome laterDraws aliceOnly).2.restrict (.ofNat 100)) := by
  have hreach : ∀ schedule, ServiceReaches asciiPython sampleSettings Interleave.anyStep (servedAfter schedule) :=
    fun schedule => Interleave.after_reaches fun _ _ _ _ => trivial
  have hshared : bobFirst.shared.db.restrict (.ofNat 100) = aliceOnly.shared.db.restrict (.ofNat 100) ∧
      bobFirst.shared.files = aliceOnly.shared.files := by decide +kernel
  obtain ⟨hothers, hsame⟩ := pipeline_isolated (noLinks_storedDisk sampleSettings) (hreach _) (hreach _) sampleIo
    (answering payslipIncome) sampleDraws laterDraws (.ofNat 100)
  exact ⟨by decide +kernel, hothers, hsame hshared.1 fun f _ => hshared.2 ▸ Iff.rfl⟩

end LoanAgent
