import LoanAgent.RunRows
import LoanAgent.System

/-! A run that nothing interrupts. Its process takes one statement, one commit
or one call at a time, and the run of the pipeline as a whole is what these
steps amount to. Proved: whatever its environment answers, a process whose run
is due and whose identifiers are new finishes alone, with the database that the
whole run leaves. -/

namespace LoanAgent

variable {py : Python} {settings : Settings}

/-- The identifiers that a run may draw are new and different. -/
structure RunDraws.Fresh (draws : RunDraws) (issued : List Uuid) : Prop where
  injective : Function.Injective draws.factId
  facts : ∀ i, draws.factId i ∉ issued
  message : draws.messageId ∉ issued
  apart : ∀ i, draws.factId i ≠ draws.messageId

section Steps
variable (settings) (io : Io) (llm : Llm py) (draws : RunDraws)

/-- The next action of a run in an environment. -/
def RunPhase.action : RunPhase py → Action py
  | .mark => .markProcessing
  | .documents => .selectDocuments
  | .parse _ => .parse io
  | .messages _ => .selectMessages
  | .texts _ _ => .commitTexts draws.ingestAt
  | .ask _ => .ask llm
  | .degrade _ => .commitDegraded draws.extractAt
  | .delete _ _ => .deleteFacts
  | .insert _ _ _ => .commitFacts draws.factId draws.extractAt
  | .compare => .selectFacts
  | .anomalies _ => .commitAnomalies draws.reconcileAt
  | .present => .selectPresent
  | .channel _ => .selectChannel
  | .sent _ _ => .selectSent
  | .announce _ _ _ => .commitChase draws.messageId draws.chaseAt

/-- The next action of a process that runs the pipeline on an application. -/
def runAction (a : Uuid) : Proc py → Action py
  | .run _ phase => phase.action io llm draws
  | _ => .startRun a

/-- The steps of such a process alone. -/
def RunsTo (a : Uuid) (x y : Store × Proc py) : Prop :=
  Relation.ReflTransGen (Interleave.Solo (procStep settings) (runAction io llm draws a)) x y

end Steps

section Alone
variable (settings : Settings) (io : Io) (llm : Llm py) {draws : RunDraws} (a : Uuid) {s : Store}
  (session : Session)

/-- One step of the run, then the rest. -/
theorem RunsTo.step {settings : Settings} {io : Io} {llm : Llm py} {a : Uuid} {session : Session}
    {phase : RunPhase py} {x : Store × Proc py} (r : Store × Proc py)
    (hs : runStep settings s session phase (phase.action io llm draws) = some r)
    (h : RunsTo settings io llm draws a r x) :
    RunsTo settings io llm draws a (s, .run session phase) x :=
  .head (by cases phase <;> exact hs) h

theorem Store.issue_fresh {ids : List Uuid} (hnodup : ids.Nodup) (hnew : ∀ u ∈ ids, u ∉ s.issued) :
    s.issue ids = some { s with issued := ids ++ s.issued } := if_pos ⟨hnodup, hnew⟩

theorem RunDraws.Fresh.issue (h : draws.Fresh s.issued) (n : ℕ) :
    s.issue ((List.range n).map draws.factId) =
      some { s with issued := (List.range n).map draws.factId ++ s.issued } := by
  refine Store.issue_fresh ((List.nodup_map_iff h.injective).mpr List.nodup_range) fun u hu => ?_
  obtain ⟨i, -, rfl⟩ := List.mem_map.mp hu
  exact h.facts i

theorem chase_alone (hmessage : draws.messageId ∉ s.issued) :
    ∃ t, RunsTo settings io llm draws a (s, .run session .present) (t, .idle) ∧
      t.db = (chase draws session s.db).2 := by
  have hissue := Store.issue_fresh (s := s) (List.nodup_singleton draws.messageId) (by simpa using hmessage)
  refine ⟨{ s with
    db := (chase draws session s.db).2
    issued := [draws.messageId] ++ s.issued },
    .step _ rfl (.step _ rfl (.step _ rfl (.step _ ?_ .refl))), rfl⟩
  simp only [runStep, RunPhase.action, hissue]
  rfl

/-- The two nodes behind the extraction. -/
theorem reconcile_alone (hmessage : draws.messageId ∉ s.issued) :
    ∃ t, RunsTo settings io llm draws a (s, .run session .compare) (t, .idle) ∧
      t.db = match reconcile py draws session.applicationId s.db with
        | .error _ => s.db
        | .ok (_, db) => (chase draws session db).2 := by
  unfold reconcile
  cases hf : findAnomalies py (s.db.contentsOf session.applicationId) with
  | error e => exact ⟨s, .step (s, .idle) (by simp only [runStep, RunPhase.action, hf]) .refl, rfl⟩
  | ok found =>
    obtain ⟨t, ht, hdb⟩ := chase_alone settings io llm a session
      (s := { s with db := commitAnomalies py session.applicationId draws.reconcileAt found s.db }) hmessage
    exact ⟨t, .step (s, .run session (.anomalies found)) (by simp only [runStep, RunPhase.action, hf])
      (.step _ rfl ht), hdb⟩

/-- The commit of the new facts, and what follows. -/
theorem insert_alone (hdraws : draws.Fresh s.issued) (call : ExtractionCall py)
    (validated : List (ValidatedEntity py)) (deleted : List Uuid) :
    ∃ t, RunsTo settings io llm draws a (s, .run session (.insert call validated deleted)) (t, .idle) ∧
      t.db = match newFacts session.applicationId draws.factId draws.extractAt validated with
        | .error _ => s.db
        | .ok facts => match commitFacts deleted facts
            (extractionAudit session.applicationId call draws.extractAt) s.db with
          | none => s.db
          | some db => match reconcile py draws session.applicationId db with
            | .error _ => db
            | .ok (_, db) => (chase draws session db).2 := by
  set issued := (List.range validated.length).map draws.factId ++ s.issued with hissued
  have hissue := hdraws.issue validated.length
  have hmessage : draws.messageId ∉ issued := by simp [hissued, hdraws.message, hdraws.apart]
  cases hn : newFacts session.applicationId draws.factId draws.extractAt validated with
  | error e =>
    refine ⟨_, .step ({ s with issued := issued }, .idle) ?_ .refl, rfl⟩
    simp only [runStep, RunPhase.action, hissue, Option.map_some, hn, hissued]
  | ok facts =>
    dsimp only
    cases hc : commitFacts deleted facts
        (extractionAudit session.applicationId call draws.extractAt) s.db with
    | none =>
      refine ⟨_, .step ({ s with issued := issued }, .idle) ?_ .refl, rfl⟩
      simp only [runStep, RunPhase.action, hissue, Option.map_some, hn, hc, hissued]
    | some db =>
      obtain ⟨t, ht, hdb⟩ := reconcile_alone settings io llm a session (s := { s with
          issued := issued
          db := db
          extractions := (session.applicationId, facts.map (·.toFactContent)) :: s.extractions }) hmessage
      refine ⟨t, .step _ ?_ ht, hdb⟩
      simp only [runStep, RunPhase.action, hissue, Option.map_some, hn, hc, hissued]

/-- The graph behind the ingest node. -/
theorem graph_alone (hdraws : draws.Fresh s.issued) (sources : List SourceText) :
    ∃ t, RunsTo settings io llm draws a (s, .run session (.ask sources)) (t, .idle) ∧
      t.db = (runGraph settings llm draws session sources s.db).2 := by
  unfold runGraph extractTrace
  cases ha : askModel settings llm sources with
  | error e => exact ⟨s, .step (s, .idle) (by simp only [runStep, RunPhase.action, ha]) .refl, rfl⟩
  | ok answer =>
    cases answer with
    | skipped =>
      obtain ⟨t, ht, hdb⟩ := reconcile_alone settings io llm a session hdraws.message
      refine ⟨t, .step _ (by simp only [runStep, RunPhase.action, ha]) ht, hdb.trans ?_⟩
      dsimp only
      cases reconcile py draws session.applicationId s.db <;> rfl
    | degraded e =>
      have hask : runStep settings s session (.ask sources) (.ask llm) = some (s, .run session (.degrade e)) := by
        simp only [runStep, ha]
      dsimp only
      cases hc : commitDegraded py session e draws.extractAt s.db with
      | none =>
        exact ⟨s, .step _ hask (.step (s, .idle) (by simp only [runStep, RunPhase.action, hc]) .refl), rfl⟩
      | some db =>
        exact ⟨{ s with db := db },
          .step _ hask (.step _ (by simp only [runStep, RunPhase.action, hc]) .refl), rfl⟩
    | answered call =>
      obtain ⟨t, ht, hdb⟩ := insert_alone settings io llm a session hdraws call
        (validateEntities call.result.facts sources) ((s.db.factsOf session.applicationId).map (·.id))
      have hask : runStep settings s session (.ask sources) (.ask llm) =
          some (s, .run session (.delete call (validateEntities call.result.facts sources))) := by
        simp only [runStep, ha]
      refine ⟨t, .step _ hask (.step _ rfl ht), hdb.trans ?_⟩
      dsimp only
      cases newFacts session.applicationId draws.factId draws.extractAt
          (validateEntities call.result.facts sources) with
      | error e => rfl
      | ok facts =>
        dsimp only
        cases commitFacts ((s.db.factsOf session.applicationId).map (·.id)) facts
            (extractionAudit session.applicationId call draws.extractAt) s.db with
        | none => rfl
        | some db =>
          dsimp only
          cases reconcile py draws session.applicationId db <;> rfl

/-- A process whose run is due and whose identifiers are new finishes alone, with
the database that the run as a whole leaves. -/
theorem runPipeline_alone (ha : a ∈ s.queue) (hdraws : draws.Fresh s.issued) :
    ∃ t, RunsTo settings io llm draws a (s, .idle) (t, .idle) ∧
      t.db = (runPipeline settings io llm draws a s.db).2 := by
  set waiting : Store := { s with queue := s.queue.erase a } with hwaiting
  unfold runPipeline
  cases hx : s.db.application a with
  | none =>
    have hstart : procStep settings s .idle (.startRun a : Action py) = some (waiting, .idle) := by
      simp only [procStep, ha, if_true, hx, hwaiting]
    exact ⟨waiting, .single hstart, rfl⟩
  | some x =>
    have hstart : procStep settings s .idle (.startRun a : Action py) =
        some (waiting, .run ⟨a, x.status⟩ .mark) := by
      simp only [procStep, ha, if_true, hx, hwaiting]
    have hid : (markProcessing ⟨a, x.status⟩ s.db).1.applicationId = a :=
      markProcessing_applicationId ⟨a, x.status⟩ s.db
    dsimp only
    generalize hm : markProcessing ⟨a, x.status⟩ s.db = started at hid ⊢
    obtain ⟨session, marked⟩ := started
    have hmark : runStep settings waiting ⟨a, x.status⟩ .mark (.markProcessing : Action py) =
        some ({ waiting with db := marked }, .run session .documents) := by
      simp only [runStep, hwaiting, hm]
    obtain rfl : session.applicationId = a := hid
    dsimp only
    have hbegin : ∀ {t : Store}, RunsTo settings io llm draws session.applicationId
        ({ waiting with db := marked }, .run session .documents) (t, .idle) →
        RunsTo settings io llm draws session.applicationId (s, .idle) (t, .idle) :=
      fun ht => .head hstart (RunsTo.step _ hmark ht)
    -- The steps up to the end of the first node.
    unfold ingestRoute
    cases hr : ingestDocuments (loadDocument py settings io session.applicationId)
        (marked.documentsOf session.applicationId) with
    | error e =>
      refine ⟨{ waiting with db := marked }, hbegin (.step _ rfl (.step _ ?_ .refl)), rfl⟩
      simp only [runStep, RunPhase.action, hr]
    | ok result =>
      have hparse : runStep settings { waiting with db := marked } session
          (.parse (marked.documentsOf session.applicationId)) (.parse io : Action py) =
            some ({ waiting with db := marked }, .run session (.messages result)) := by
        simp only [runStep, hr]
      dsimp only
      cases hc : commitIngest session.applicationId draws.ingestAt result marked with
      | none =>
        refine ⟨{ waiting with db := marked },
          hbegin (.step _ rfl (.step _ hparse (.step _ rfl (.step _ ?_ .refl)))), rfl⟩
        simp only [runStep, RunPhase.action, hc]
      | some db =>
        obtain ⟨t, ht, hdb⟩ := graph_alone settings io llm session.applicationId session
          (s := { waiting with db := db }) hdraws
          (sourceTexts result.parsed (statedMessages (marked.messagesOf session.applicationId .inbound)))
        refine ⟨t, hbegin (.step _ rfl (.step _ hparse (.step _ rfl (.step _ ?_ ht)))), hdb⟩
        simp only [runStep, RunPhase.action, hc]

/-- The database that a run leaves behind is one that the service reaches. -/
theorem runPipeline_reached {c : Service py} {p : ℕ} (hc : ServiceReaches py settings Interleave.anyStep c)
    (hidle : c.procs p = .idle) (ha : a ∈ c.shared.queue) (hdraws : draws.Fresh c.shared.issued) :
    ∃ c', ServiceReaches py settings Interleave.anyStep c' ∧ c'.procs p = .idle ∧
      c'.shared.db = (runPipeline settings io llm draws a c.shared.db).2 := by
  obtain ⟨t, ht, hdb⟩ := runPipeline_alone settings io llm a ha hdraws
  rw [← hidle] at ht
  exact ⟨_, hc.solo (fun _ => trivial) ht, by simp [hidle], hdb⟩

end Alone

end LoanAgent
