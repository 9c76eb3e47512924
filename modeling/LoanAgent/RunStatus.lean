import LoanAgent.Pipeline

/-! Where a run leaves the status of its application. A run that starts from
`pending_docs` commits `processing` before the graph, and only two commits
overwrite it: that of a typed failure of the model, and that of the last node.
Proved: an application is left in `processing` exactly when it was not yet
under review or ready and something on the way could not be read, converted or
stored. -/

namespace LoanAgent

variable {py : Python} {settings : Settings} {io : Io} {llm : Llm py} {draws : RunDraws}

/-! ### What a run needs to come to its end -/

/-- Every document loads or fails in a way that is caught, and the database
takes the texts and the notes of the failures. -/
structure DocumentsClean (load : Document → Except LoadFailure Text) (docs : List Document) : Prop where
  caught : LoadsCaught load docs
  texts : ∀ d ∈ docs, ∀ text, loadedText load d = some text → storableText text = true
  failures : ∀ d ∈ docs, ∀ e, caughtError load d = some e → storableText e.detail = true

/-- The answer of the model can be taken up: without sources the stored numbers
convert, a typed failure can be noted, the validated entities of an answer can
be inserted and its record can be noted. -/
def AnswerClean (a : Uuid) (facts : List FactContent) (sources : List SourceText) :
    Except RunError (ModelAnswer py) → Prop
  | .ok .skipped => NumbersConvert py facts
  | .ok (.degraded e) => (degradedAudit py a e 0).fits = true
  | .ok (.answered call) => (∀ v ∈ validateEntities call.result.facts sources, Insertable v) ∧
      (extractionAudit a call 0).fits = true
  | .error _ => False

/-- Nothing on the way of a run over this database raises. -/
structure RunClean (settings : Settings) (io : Io) (llm : Llm py) (a : Uuid) (db : Database) : Prop where
  documents : DocumentsClean (loadDocument py settings io a) (db.documentsOf a)
  answer : AnswerClean a (db.contentsOf a) (runSources py settings io a db)
    (askModel settings llm (runSources py settings io a db))

theorem ingestRoute_ok_iff {a : Uuid} {db : Database} :
    (∃ r, ingestRoute py settings io draws a db = .ok r) ↔
      DocumentsClean (loadDocument py settings io a) (db.documentsOf a) := by
  constructor
  · rintro ⟨⟨sources, db'⟩, h⟩
    obtain ⟨hl, hc, -⟩ := ingestRoute_ok.mp h
    obtain ⟨ht, hf⟩ := commitIngest_isSome.mp ⟨db', hc⟩
    exact ⟨hl, ht, hf⟩
  · rintro ⟨hl, ht, hf⟩
    obtain ⟨db', hc⟩ := commitIngest_isSome.mpr ⟨ht, hf⟩
    exact ⟨_, ingestRoute_ok.mpr ⟨hl, hc, rfl⟩⟩

/-! ### New facts never overflow -/

theorem not_overflows_jsonb {key : Text} {v value stored : FactValue}
    (hv : ∀ q, v = .float (.finite q) → py.round q = .finite q)
    (hc : coerceValue py key v = .ok value) (hj : jsonb py value = some stored) :
    ¬ Overflows py stored := by
  rintro ⟨n, rfl, hn⟩
  cases value with
  | int m => exact coerceValue_ne_int hc
  | null => cases hj
  | str s =>
    simp only [jsonb] at hj
    split_ifs at hj
    cases hj
  | float x =>
    cases x with
    | inf negative => cases hj
    | nan => cases hj
    | finite q =>
      simp only [jsonb] at hj
      split_ifs at hj with hq
      swap
      · cases hj
      cases hj
      have hround := round_coerceValue hv hc
      have hint : q = (q.num : ℚ) := (Rat.coe_int_num_of_den_eq_one hq.1).symm
      rw [hint] at hround
      simp [Python.floatOfInt, py.round_reprInt q.num hround] at hn

/-- A fact whose value was converted and stored. -/
def FactContent.Persisted (py : Python) (f : FactContent) : Prop :=
  ∃ v value, (∀ q, v = .float (.finite q) → py.round q = .finite q) ∧ coerceValue py f.key v = .ok value ∧
    jsonb py value = some f.value

/-- Extractions store such facts only. -/
theorem newFacts_persisted {a : Uuid} {ids : ℕ → Uuid} {now : Time} {validated : List (ValidatedEntity py)}
    {facts : List ExtractedFact} (h : newFacts a ids now validated = .ok facts) {f : ExtractedFact}
    (hf : f ∈ facts) : f.toFactContent.Persisted py := by
  obtain ⟨-, v, -, hkey, -, ⟨value, hvalue, hstored⟩, -⟩ := mem_newFacts h hf
  exact ⟨v.entity.value, value, v.entity.value_float, hkey ▸ hvalue, hstored⟩

theorem persisted_convert {facts : List FactContent} (h : ∀ f ∈ facts, f.Persisted py) :
    NumbersConvert py facts := by
  have hno : ∀ f ∈ facts, ¬ Overflows py f.value := by
    intro f hf
    obtain ⟨v, value, hv, hvalue, hstored⟩ := h f hf
    exact not_overflows_jsonb hv hvalue hstored
  exact ⟨fun f hf _ => hno f hf, fun f hf g hg _ _ _ => ⟨hno f hf, hno g hg⟩⟩

theorem newFacts_convert {a : Uuid} {ids : ℕ → Uuid} {now : Time}
    {validated : List (ValidatedEntity py)} {facts : List ExtractedFact}
    (h : newFacts a ids now validated = .ok facts) :
    NumbersConvert py (facts.map (·.toFactContent)) :=
  persisted_convert (List.forall_mem_map.mpr fun _ hf => newFacts_persisted h hf)

/-- The document identifiers of validated entities are those of documents. -/
theorem validated_documentId {a : Uuid} {db : Database} {entities : List (RawExtractedEntity py)}
    {v : ValidatedEntity py} (hv : v ∈ validateEntities entities (runSources py settings io a db))
    {s : Text} (hs : v.documentId = some s) : ∃ u, s = Uuid.str u := by
  obtain ⟨_, q, -, -, hsource⟩ := validateEntities_validated hv
  rw [hs] at hsource
  obtain ⟨text, hlookup, -⟩ := hsource
  obtain ⟨d, -, hid, -⟩ := mem_parsed (lookup_docTexts hlookup)
  exact ⟨d.id, hid⟩

/-! ### How the graph ends -/

/-- The facts behind the commit of an extraction are the new ones. -/
theorem contentsOf_commitFacts {a : Uuid} {facts : List ExtractedFact} {row : AuditLog}
    {db db' : Database} (ha : ∀ f ∈ facts, f.applicationId = a)
    (h : commitFacts ((db.factsOf a).map (·.id)) facts row db = some db') :
    db'.contentsOf a = facts.map (·.toFactContent) := by
  obtain ⟨-, rfl⟩ := commitFacts_some.mp h
  exact congrArg (List.map _) (factsOf_replaceFacts (fun _ hf => List.mem_map_of_mem hf) ha)

theorem runGraph_completed_iff (settings : Settings) (io : Io) (llm : Llm py) (draws : RunDraws)
    (a : Uuid) (st : ApplicationStatus) {base db : Database} (hfacts : db.facts = base.facts) :
    (∃ state, (runGraph settings llm draws ⟨a, st⟩ (runSources py settings io a base) db).1 =
        .completed state) ↔
      AnswerClean a (base.contentsOf a) (runSources py settings io a base)
        (askModel settings llm (runSources py settings io a base)) := by
  set sources := runSources py settings io a base with hsources
  have hcontents : db.contentsOf a = base.contentsOf a := by
    simp only [Database.contentsOf, Database.factsOf, hfacts]
  -- Behind a successful extraction only reconciliation can fail.
  have hrest : ∀ n db', extractTrace settings llm draws ⟨a, st⟩ sources db = .ok ((false, n), db') →
      ((∃ state, (runGraph settings llm draws ⟨a, st⟩ sources db).1 = .completed state) ↔
        NumbersConvert py (db'.contentsOf a)) := by
    intro n db' h
    simp only [runGraph, h]
    rw [← findAnomalies_ok_iff, reconcile]
    cases findAnomalies py (db'.contentsOf a) <;> simp
  cases hask : askModel settings llm sources with
  | error e => simp [runGraph, extractTrace, hask, AnswerClean]
  | ok answer =>
    cases answer with
    | skipped =>
      rw [hrest 0 db (extractTrace_ok.mpr (.inl ⟨hask, rfl, rfl⟩)), hcontents]
      rfl
    | degraded e =>
      have hfit : (degradedAudit py a e 0).fits = (degradedAudit py a e draws.extractAt).fits := rfl
      simp only [runGraph, extractTrace, hask, commitDegraded, AnswerClean, hfit]
      split_ifs with h <;> simp [h]
    | answered call =>
      have hfit : (extractionAudit a call 0).fits = (extractionAudit a call draws.extractAt).fits := rfl
      have hnew : (∃ facts, newFacts a draws.factId draws.extractAt
          (validateEntities call.result.facts sources) = .ok facts) ↔
          ∀ v ∈ validateEntities call.result.facts sources, Insertable v :=
        newFacts_ok_iff (fun v hv => (validateEntities_validated hv).key_known)
          fun v hv s hs => validated_documentId hv hs
      simp only [AnswerClean, ← hnew, hfit]
      constructor
      · rintro ⟨state, h⟩
        simp only [runGraph] at h
        split at h
        · cases h
        next hx =>
          obtain ⟨h', -⟩ | ⟨_, h', -⟩ | ⟨call', facts, h', -, hn, hc⟩ := extractTrace_ok.mp hx
          all_goals rw [hask] at h'; cases h'
          exact ⟨⟨facts, hn⟩, (commitFacts_some.mp hc).1⟩
        next hx =>
          obtain ⟨h', -⟩ | ⟨_, h', -⟩ | ⟨call', facts, h', -, hn, hc⟩ := extractTrace_ok.mp hx
          all_goals rw [hask] at h'; cases h'
          exact ⟨⟨facts, hn⟩, (commitFacts_some.mp hc).1⟩
      · rintro ⟨⟨facts, hn⟩, hrow⟩
        have hc : commitFacts ((db.factsOf a).map (·.id)) facts
            (extractionAudit a call draws.extractAt) db = some _ := commitFacts_some.mpr ⟨hrow, rfl⟩
        rw [hrest _ _ (extractTrace_ok.mpr (.inr (.inr ⟨call, facts, hask, rfl, hn, hc⟩))),
          contentsOf_commitFacts (fun f hf => (mem_newFacts hn hf).1) hc]
        exact newFacts_convert hn

/-- The status behind the graph: untouched by a failure, and not `processing` otherwise. -/
theorem statusOf_runGraph (settings : Settings) (llm : Llm py) (draws : RunDraws) (session : Session)
    (sources : List SourceText) {db : Database}
    (h : db.statusOf session.applicationId = some session.status) :
    match (runGraph settings llm draws session sources db).1 with
    | .completed _ => ∃ s, s ≠ .processing ∧
        (runGraph settings llm draws session sources db).2.statusOf session.applicationId = some s
    | _ => (runGraph settings llm draws session sources db).2.statusOf session.applicationId =
        some session.status := by
  unfold runGraph
  cases hx : extractTrace settings llm draws session sources db with
  | error e => exact h
  | ok r =>
    obtain ⟨⟨degraded, n⟩, db₁⟩ := r
    have hstatus : degraded = false → db₁.statusOf session.applicationId = some session.status := by
      rintro rfl
      obtain ⟨-, -, rfl⟩ | ⟨_, -, hr, -⟩ | ⟨call, facts, -, -, -, hc⟩ := extractTrace_ok.mp hx
      · exact h
      · cases hr
      · obtain ⟨-, rfl⟩ := commitFacts_some.mp hc
        exact h
    cases degraded with
    | true =>
      obtain ⟨-, hr, -⟩ | ⟨e, -, -, hc⟩ | ⟨_, _, -, hr, -⟩ := extractTrace_ok.mp hx
      · cases hr
      · obtain ⟨-, rfl⟩ := commitDegraded_some.mp hc
        exact ⟨.manualReview, by simp, Session.statusOf_flushStatus h _⟩
      · cases hr
    | false =>
      have h₁ := hstatus rfl
      dsimp only
      cases hr : reconcile py draws session.applicationId db₁ with
      | error e => exact h₁
      | ok r =>
        obtain ⟨anomalies, db₂⟩ := r
        obtain ⟨-, rfl⟩ := reconcile_ok.mp hr
        exact ⟨_, chaseStatus_ne_processing _, commitChase_statusOf h₁⟩

/-! ### How a run ends -/

theorem markProcessing_spec {a : Uuid} {st : ApplicationStatus} {db : Database}
    (h : db.statusOf a = some st) :
    ∃ st' db', markProcessing ⟨a, st⟩ db = (⟨a, st'⟩, db') ∧ db'.statusOf a = some st' ∧
      (st' = .processing ↔ st ≠ .manualReview ∧ st ≠ .readyForLos) ∧
      db'.documents = db.documents ∧ db'.communications = db.communications ∧ db'.facts = db.facts ∧
      db'.auditLogs = db.auditLogs := by
  unfold markProcessing
  split_ifs with hs
  · have hs : st = .pendingDocs := hs
    exact ⟨.processing, _, rfl, Database.statusOf_setStatus h _, by simp [hs], rfl, rfl, rfl, rfl⟩
  · exact ⟨st, db, rfl, h, by cases st <;> simp_all, rfl, rfl, rfl, rfl⟩

/-- A run leaves its application out of `processing` exactly when it found it
under review or ready, or when nothing on the way raised. -/
theorem runPipeline_leaves_processing (settings : Settings) (io : Io) (llm : Llm py)
    (draws : RunDraws) {a : Uuid} {db : Database} {st : ApplicationStatus}
    (h : db.statusOf a = some st) :
    (∃ s, s ≠ .processing ∧ (runPipeline settings io llm draws a db).2.statusOf a = some s) ↔
      st = .manualReview ∨ st = .readyForLos ∨ RunClean settings io llm a db := by
  obtain ⟨x, hx, hst⟩ := Option.map_eq_some_iff.mp h
  obtain ⟨st', db₁, hmark, hst', hproc, hdocs, hmsgs, hfacts, -⟩ := markProcessing_spec h
  have hload : db₁.documentsOf a = db.documentsOf a := by simp only [Database.documentsOf, hdocs]
  have hmessages : db₁.messagesOf a .inbound = db.messagesOf a .inbound := by
    simp only [Database.messagesOf, hmsgs]
  have hsources : runSources py settings io a db₁ = runSources py settings io a db := by
    simp only [runSources, hload, hmessages]
  -- The status that a run which raises leaves behind.
  have hleft : (∃ s, s ≠ .processing ∧ st' = s) ↔ st = .manualReview ∨ st = .readyForLos := by
    rw [exists_eq_right', ne_eq, hproc]
    tauto
  simp only [runPipeline, hx, hst, hmark]
  cases hi : ingestRoute py settings io draws a db₁ with
  | error e =>
    have hno : ¬ RunClean settings io llm a db := fun hc => by
      obtain ⟨r, hr⟩ : ∃ r, ingestRoute py settings io draws a db₁ = .ok r :=
        ingestRoute_ok_iff.mpr (hload ▸ hc.documents)
      rw [hi] at hr
      cases hr
    simp only [hst', Option.some.injEq, hleft, hno, or_false]
  | ok r =>
    obtain ⟨sources, db₂⟩ := r
    obtain ⟨hl, hc, hs⟩ := ingestRoute_ok.mp hi
    have hdb₂ := commitIngest_some hc
    have hclean := ingestRoute_ok_iff.mp ⟨_, hi⟩
    have hstatus : db₂.statusOf a = some st' := by
      rw [hdb₂]
      exact hst'
    have hfacts₂ : db₂.facts = db.facts := by
      rw [hdb₂]
      exact hfacts
    rw [hs, hsources]
    have hend := statusOf_runGraph settings llm draws ⟨a, st'⟩ (runSources py settings io a db) hstatus
    have hiff := runGraph_completed_iff settings io llm draws a st' hfacts₂
    have hanswer : RunClean settings io llm a db ↔ AnswerClean a (db.contentsOf a)
        (runSources py settings io a db) (askModel settings llm (runSources py settings io a db)) :=
      ⟨fun h => h.answer, fun h => ⟨hload ▸ hclean, h⟩⟩
    rw [hanswer, ← hiff]
    dsimp only
    cases hexit : (runGraph settings llm draws ⟨a, st'⟩ (runSources py settings io a db) db₂).1 with
    | completed state =>
      rw [hexit] at hend
      simpa using hend
    | notFound =>
      rw [hexit] at hend
      simp only [hend, Option.some.injEq, reduceCtorEq, exists_false, or_false, hleft]
    | failed e =>
      rw [hexit] at hend
      simp only [hend, Option.some.injEq, reduceCtorEq, exists_false, or_false, hleft]

/-- The borrower states an income of `nan`, which the column of the value refuses. -/
def nanIncome : ExtractionResult asciiPython where
  facts := [sampleEntity "monthly_income".toList "nan".toList "nan".toList none length_monthlyIncome (by decide)]
  facts_length := by decide

theorem nanIncome_left_in_processing :
    (sampleDatabase "my income is nan".toList).statusOf (.ofNat 1) = some .pendingDocs ∧
    (runPipeline sampleSettings sampleIo (answering nanIncome) sampleDraws (.ofNat 1)
      (sampleDatabase "my income is nan".toList)).2.statusOf (.ofNat 1) = some .processing := by
  decide +kernel

theorem runPipeline_leaves_processing_nanIncome :
    (∃ s, s ≠ .processing ∧ (runPipeline sampleSettings sampleIo (answering nanIncome) sampleDraws
      (.ofNat 1) (sampleDatabase "my income is nan".toList)).2.statusOf (.ofNat 1) = some s) ↔
      ApplicationStatus.pendingDocs = .manualReview ∨ ApplicationStatus.pendingDocs = .readyForLos ∨
        RunClean sampleSettings sampleIo (answering nanIncome) (.ofNat 1)
          (sampleDatabase "my income is nan".toList) :=
  runPipeline_leaves_processing sampleSettings sampleIo (answering nanIncome) sampleDraws
    (by decide +kernel)

end LoanAgent
