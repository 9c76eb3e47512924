import LoanAgent.System

/-! The steps of the service one by one, each with what it has read and what it
makes of the store. Proved: every enabled step is one of them. From the list
follows, table by table, which steps write a table and how. -/

namespace LoanAgent

open Paging

variable {py : Python}

/-- The store behind the draft of a message, with the identifiers drawn and the files written. -/
def Store.drafted (s : Store) (ids : List Uuid) (files : List (FilePath × Bytes)) : Store :=
  { s with issued := ids ++ s.issued, files := s.files ++ files }

/-- New identifiers: no two are equal and none was drawn before. -/
def Store.Fresh (s : Store) (ids : List Uuid) : Prop := ids.Nodup ∧ ∀ u ∈ ids, u ∉ s.issued

/-- The steps of a process. -/
inductive Transition (settings : Settings) (s : Store) :
    Proc py → Action py → Store → Proc py → Prop
  | stop (l : Proc py) (a : Action py) : Transition settings s l a s .idle
  | evict (l : Proc py) (key : Text) : Transition settings s l (.evict key)
      { s with redis := s.redis.filter (·.1 ≠ key) } l
  | forgotten (l : Proc py) (a : Uuid) : Transition settings s l (.forget a)
      { s with queue := s.queue.erase a } l
  | receive (r : Request) : Transition settings s .idle (.receive r) s (.request r .lookup)
  | cached {r : Request} {ack : WebhookAck} (h : s.redis.lookup (r.scopedKey py) = some ack) :
      Transition settings s (.request r .lookup) (.lookup true) (s.respond r (.ack ack)) .idle
  | missed (r : Request) (available : Bool) :
      Transition settings s (.request r .lookup) (.lookup available) s (.request r .draft)
  | undrafted {r : Request} {draws : IntakeDraws} {e : IntakeError} {files : List (FilePath × Bytes)}
      (hfresh : s.Fresh (draws.ids r)) (h : draftMessage py settings s.db r draws = (.error e, files)) :
      Transition settings s (.request r .draft) (.draft draws)
        ((s.drafted (draws.ids r) files).respond r (.refused e)) .idle
  | drafted {r : Request} {draws : IntakeDraws} {draft : Draft} {files : List (FilePath × Bytes)}
      (hfresh : s.Fresh (draws.ids r)) (h : draftMessage py settings s.db r draws = (.ok draft, files)) :
      Transition settings s (.request r .draft) (.draft draws) (s.drafted (draws.ids r) files)
        (.request r (.commit draft))
  | committed {r : Request} {draft : Draft} {db : Database} (h : commitDraft draft s.db = .ok db) :
      Transition settings s (.request r (.commit draft)) .commitMessage
        { s with db := db, stored := (r, draft.communication.id) :: s.stored }
        (.request r (.respond draft.ack))
  | conflicting {r : Request} {draft : Draft} (h : commitDraft draft s.db = .error .integrity) :
      Transition settings s (.request r (.commit draft)) .commitMessage s (.request r .replay)
  | uncommitted {r : Request} {draft : Draft} {e : IntakeError} (h : commitDraft draft s.db = .error e)
      (he : e ≠ .integrity) :
      Transition settings s (.request r (.commit draft)) .commitMessage (s.respond r (.refused e)) .idle
  | replayed {r : Request} {ack : WebhookAck}
      (h : replayAck s.db (r.scopedKey py) (r.borrower py) = some ack) :
      Transition settings s (.request r .replay) .replay s (.request r (.respond ack))
  | disowned {r : Request} (h : replayAck s.db (r.scopedKey py) (r.borrower py) = none) :
      Transition settings s (.request r .replay) .replay (s.respond r (.refused .integrity)) .idle
  | answered (r : Request) (ack : WebhookAck) (available : Bool) :
      Transition settings s (.request r (.respond ack)) (.respond available)
        { s.respond r (.ack ack) with
          redis := if available then (r.scopedKey py, ack) :: s.redis else s.redis
          queue := s.queue ++ [ack.applicationId] } .idle
  | vanished (a : Uuid) : Transition settings s .idle (.startRun a)
      { s with queue := s.queue.erase a } .idle
  | started {a : Uuid} {x : Application} (h : s.db.application a = some x) :
      Transition settings s .idle (.startRun a) { s with queue := s.queue.erase a }
        (.run ⟨a, x.status⟩ .mark)
  | marked (σ : Session) : Transition settings s (.run σ .mark) .markProcessing
      { s with db := (markProcessing σ s.db).2 } (.run (markProcessing σ s.db).1 .documents)
  | documents (σ : Session) : Transition settings s (.run σ .documents) .selectDocuments s
      (.run σ (.parse (s.db.documentsOf σ.applicationId)))
  | parsed {σ : Session} {docs : List Document} {io : Io} {result : IngestResult}
      (h : ingestDocuments (loadDocument py settings io σ.applicationId) docs = .ok result) :
      Transition settings s (.run σ (.parse docs)) (.parse io) s (.run σ (.messages result))
  | messages (σ : Session) (result : IngestResult) :
      Transition settings s (.run σ (.messages result)) .selectMessages s
        (.run σ (.texts result (statedMessages (s.db.messagesOf σ.applicationId .inbound))))
  | ingested {σ : Session} {result : IngestResult} {stated : List (Text × Text)} {now : Time}
      {db : Database} (h : commitIngest σ.applicationId now result s.db = some db) :
      Transition settings s (.run σ (.texts result stated)) (.commitTexts now) { s with db := db }
        (.run σ (.ask (sourceTexts result.parsed stated)))
  | skipped {σ : Session} {sources : List SourceText} {llm : Llm py}
      (h : askModel settings llm sources = .ok .skipped) :
      Transition settings s (.run σ (.ask sources)) (.ask llm) s (.run σ .compare)
  | failed {σ : Session} {sources : List SourceText} {llm : Llm py} {e : LlmError}
      (h : askModel settings llm sources = .ok (.degraded e)) :
      Transition settings s (.run σ (.ask sources)) (.ask llm) s (.run σ (.degrade e))
  | asked {σ : Session} {sources : List SourceText} {llm : Llm py} {call : ExtractionCall py}
      (h : askModel settings llm sources = .ok (.answered call)) :
      Transition settings s (.run σ (.ask sources)) (.ask llm) s
        (.run σ (.delete call (validateEntities call.result.facts sources)))
  | degraded {σ : Session} {e : LlmError} {now : Time} {db : Database}
      (h : commitDegraded py σ e now s.db = some db) :
      Transition settings s (.run σ (.degrade e)) (.commitDegraded now) { s with db := db } .idle
  | deleted (σ : Session) (call : ExtractionCall py) (validated : List (ValidatedEntity py)) :
      Transition settings s (.run σ (.delete call validated)) .deleteFacts s
        (.run σ (.insert call validated ((s.db.factsOf σ.applicationId).map (·.id))))
  | unwritten {σ : Session} {call : ExtractionCall py} {validated : List (ValidatedEntity py)}
      {deleted ids : List Uuid} {draws : ℕ → Uuid} {now : Time} (hfresh : s.Fresh ids) :
      Transition settings s (.run σ (.insert call validated deleted)) (.commitFacts draws now)
        { s with issued := ids ++ s.issued } .idle
  | extracted {σ : Session} {call : ExtractionCall py} {validated : List (ValidatedEntity py)}
      {deleted : List Uuid} {ids : ℕ → Uuid} {now : Time} {facts : List ExtractedFact} {db : Database}
      (hfresh : s.Fresh ((List.range validated.length).map ids))
      (hfacts : newFacts σ.applicationId ids now validated = .ok facts)
      (h : commitFacts deleted facts (extractionAudit σ.applicationId call now) s.db = some db) :
      Transition settings s (.run σ (.insert call validated deleted)) (.commitFacts ids now)
        { s with
          db := db
          issued := (List.range validated.length).map ids ++ s.issued
          extractions := (σ.applicationId, facts.map (·.toFactContent)) :: s.extractions }
        (.run σ .compare)
  | compared {σ : Session} {found : List Anomaly}
      (h : findAnomalies py (s.db.contentsOf σ.applicationId) = .ok found) :
      Transition settings s (.run σ .compare) .selectFacts s (.run σ (.anomalies found))
  | reconciled (σ : Session) (found : List Anomaly) (now : Time) :
      Transition settings s (.run σ (.anomalies found)) (.commitAnomalies now)
        { s with db := commitAnomalies py σ.applicationId now found s.db } (.run σ .present)
  | present (σ : Session) : Transition settings s (.run σ .present) .selectPresent s
      (.run σ (.channel (missingKeys (s.db.contentsOf σ.applicationId))))
  | channel (σ : Session) (missing : List Text) :
      Transition settings s (.run σ (.channel missing)) .selectChannel s
        (.run σ (.sent missing (pickChannel (s.db.messagesOf σ.applicationId .inbound))))
  | sent (σ : Session) (missing : List Text) (channel : Channel) :
      Transition settings s (.run σ (.sent missing channel)) .selectSent s
        (.run σ (.announce missing channel (chaseAlreadySent
          (s.db.messagesOf σ.applicationId .outbound) (buildChaseContent missing channel))))
  | chased {σ : Session} {missing : List Text} {channel : Channel} {alreadySent : Bool} {id : Uuid}
      {now : Time} (hfresh : s.Fresh [id]) :
      Transition settings s (.run σ (.announce missing channel alreadySent)) (.commitChase id now)
        { s with
          db := commitChase σ id now missing channel alreadySent s.db
          issued := id :: s.issued } .idle
  | gated {a : Uuid} {x : Application} (h : s.db.application a = some x) (hready : x.status = .readyForLos) :
      Transition settings s .idle (.requestExport a) s (.exporting (.facts x))
  | memo {x : Application} {query : List ExtractedFact → List ExtractedFact} {stamp : Text} {memo : CreditMemo}
      (horder : Arrangement ExtractedFact.sortKey (s.db.factsOf x.id) (query (s.db.factsOf x.id)))
      (h : buildCreditMemo py x (memoFacts (query (s.db.factsOf x.id))) stamp = some memo) :
      Transition settings s (.exporting (.facts x)) (.selectMemo query stamp) s (.exporting (.deliver memo))
  | delivered (memo : CreditMemo) (accepted : Bool) (l : Proc py)
      (hl : l = .idle ∨ l = .exporting (.audit memo)) :
      Transition settings s (.exporting (.deliver memo)) (.deliver accepted)
        { s with delivered := memo :: s.delivered } l
  | exported (memo : CreditMemo) (now : Time) :
      Transition settings s (.exporting (.audit memo)) (.commitExport now)
        { s with db := s.db.addAudit [losExportAudit py settings memo now] } .idle

theorem issue_some {s t : Store} {ids : List Uuid} :
    s.issue ids = some t ↔ s.Fresh ids ∧ t = { s with issued := ids ++ s.issued } := by
  unfold Store.issue Store.Fresh
  split_ifs with h
  · exact ⟨fun ht => ⟨h, (Option.some.inj ht).symm⟩, fun ht => congrArg some ht.2.symm⟩
  · exact ⟨nofun, fun ht => absurd ht.1 h⟩

variable {settings : Settings} {s s' : Store} {l l' : Proc py} {a : Action py}

theorem requestStep_transition {r : Request} {phase : RequestPhase}
    (h : requestStep settings s r phase a = some (s', l')) :
    Transition settings s (.request r phase) a s' l' := by
  unfold requestStep at h
  split at h
  next available =>
    split at h
    next ack hack =>
      split_ifs at hack with hav
      cases h
      subst hav
      exact .cached hack
    · cases h
      exact .missed r available
  next draws =>
    obtain ⟨t, ht, h⟩ := Option.map_eq_some_iff.mp h
    obtain ⟨hfresh, rfl⟩ := issue_some.mp ht
    obtain ⟨⟨drafted, files⟩, hd⟩ : ∃ p, draftMessage py settings s.db r draws = p := ⟨_, rfl⟩
    rw [hd] at h
    dsimp only at h
    split at h
    · cases h
      exact .undrafted hfresh hd
    · cases h
      exact .drafted hfresh hd
  next draft =>
    split at h
    next hc => cases h; exact .committed hc
    next hc => cases h; exact .conflicting hc
    next e he hc => cases h; exact .uncommitted hc he
  · split at h
    next hr => cases h; exact .replayed hr
    next hr => cases h; exact .disowned hr
  next ack available =>
    cases h
    exact .answered r ack available
  · cases h

theorem runStep_transition {σ : Session} {phase : RunPhase py}
    (h : runStep settings s σ phase a = some (s', l')) :
    Transition settings s (.run σ phase) a s' l' := by
  unfold runStep at h
  split at h
  · cases h; exact .marked σ
  · cases h; exact .documents σ
  · split at h
    · cases h; exact .stop _ _
    next hp => cases h; exact .parsed hp
  · cases h; exact .messages σ _
  · split at h
    · cases h; exact .stop _ _
    next hc => cases h; exact .ingested hc
  · split at h
    · cases h; exact .stop _ _
    next hm => cases h; exact .skipped hm
    next hm => cases h; exact .failed hm
    next hm => cases h; exact .asked hm
  · split at h
    · cases h; exact .stop _ _
    next hc => cases h; exact .degraded hc
  · cases h; exact .deleted σ _ _
  next call validated deleted ids now =>
    obtain ⟨t, ht, h⟩ := Option.map_eq_some_iff.mp h
    obtain ⟨hfresh, rfl⟩ := issue_some.mp ht
    dsimp only at h
    split at h
    · cases h; exact .unwritten hfresh
    next facts hfacts =>
      split at h
      · cases h; exact .unwritten hfresh
      next hc => cases h; exact .extracted hfresh hfacts hc
  · split at h
    · cases h; exact .stop _ _
    next hf => cases h; exact .compared hf
  · cases h; exact .reconciled σ _ _
  · cases h; exact .present σ
  · cases h; exact .channel σ _
  · cases h; exact .sent σ _ _
  · obtain ⟨t, ht, h⟩ := Option.map_eq_some_iff.mp h
    obtain ⟨hfresh, rfl⟩ := issue_some.mp ht
    cases h
    exact .chased hfresh
  · cases h

theorem exportStep_transition {phase : ExportPhase}
    (h : exportStep settings s phase a = some (s', l')) :
    Transition settings s (.exporting phase) a s' l' := by
  unfold exportStep at h
  split at h
  · dsimp only at h
    split_ifs at h with horder
    split at h
    · cases h; exact .stop _ _
    next hm => cases h; exact .memo horder hm
  next memo accepted =>
    cases h
    refine .delivered memo accepted _ ?_
    cases accepted
    · exact .inl rfl
    · exact .inr rfl
  next memo now =>
    cases h
    split_ifs
    · exact .exported memo now
    · exact .stop _ _
  · cases h

/-- Every enabled step is a transition. -/
theorem procStep_transition (h : procStep settings s l a = some (s', l')) :
    Transition settings s l a s' l' := by
  unfold procStep at h
  split at h
  · cases h; exact .stop _ _
  · cases h; exact .evict _ _
  · cases h; exact .forgotten _ _
  · cases h; exact .receive _
  · split_ifs at h
    dsimp only at h
    split at h
    · cases h; exact .vanished _
    next hx => cases h; exact .started hx
  · split at h
    · cases h; exact .stop _ _
    next hx =>
      split_ifs at h with hready
      · cases h; exact .gated hx hready
      · cases h; exact .stop _ _
  · cases h
  · exact requestStep_transition h
  · exact runStep_transition h
  · exact exportStep_transition h

/-! ### Commits -/

/-- The steps that write to the database. -/
inductive Commit (settings : Settings) (db : Database) : Proc py → Action py → Database → Prop
  | message {r : Request} {draft : Draft} {db' : Database} (h : commitDraft draft db = .ok db') :
      Commit settings db (.request r (.commit draft)) .commitMessage db'
  | processing (σ : Session) :
      Commit settings db (.run σ .mark) .markProcessing (markProcessing σ db).2
  | texts {σ : Session} {result : IngestResult} {stated : List (Text × Text)} {now : Time}
      {db' : Database} (h : commitIngest σ.applicationId now result db = some db') :
      Commit settings db (.run σ (.texts result stated)) (.commitTexts now) db'
  | degraded {σ : Session} {e : LlmError} {now : Time} {db' : Database}
      (h : commitDegraded py σ e now db = some db') :
      Commit settings db (.run σ (.degrade e)) (.commitDegraded now) db'
  | facts {σ : Session} {call : ExtractionCall py} {validated : List (ValidatedEntity py)}
      {deleted : List Uuid} {ids : ℕ → Uuid} {now : Time} {facts : List ExtractedFact} {db' : Database}
      (hfacts : newFacts σ.applicationId ids now validated = .ok facts)
      (h : commitFacts deleted facts (extractionAudit σ.applicationId call now) db = some db') :
      Commit settings db (.run σ (.insert call validated deleted)) (.commitFacts ids now) db'
  | anomalies (σ : Session) (found : List Anomaly) (now : Time) :
      Commit settings db (.run σ (.anomalies found)) (.commitAnomalies now)
        (commitAnomalies py σ.applicationId now found db)
  | chase (σ : Session) (missing : List Text) (channel : Channel) (alreadySent : Bool) (id : Uuid)
      (now : Time) : Commit settings db (.run σ (.announce missing channel alreadySent))
        (.commitChase id now) (commitChase σ id now missing channel alreadySent db)
  | exported (memo : CreditMemo) (now : Time) : Commit settings db (.exporting (.audit memo))
      (.commitExport now) (db.addAudit [losExportAudit py settings memo now])

/-- A step writes nothing to the database unless it is a commit. -/
theorem Transition.commit (h : Transition settings s l a s' l') :
    s'.db = s.db ∨ Commit settings s.db l a s'.db := by
  cases h with
  | committed h => exact .inr (.message h)
  | marked σ => exact .inr (.processing σ)
  | ingested h => exact .inr (.texts h)
  | degraded h => exact .inr (.degraded h)
  | extracted _ hfacts h => exact .inr (.facts hfacts h)
  | reconciled σ found now => exact .inr (.anomalies σ found now)
  | chased _ => exact .inr (.chase _ _ _ _ _ _)
  | exported memo now => exact .inr (.exported memo now)
  | _ => exact .inl rfl

/-! ### Who writes which table -/

variable {db db' : Database}

/-- Intake adds documents, and the first node of a run writes their texts. -/
theorem Commit.documents (h : Commit settings db l a db') : db'.documents = db.documents ∨
    (∃ r draft, l = .request r (.commit draft) ∧ db'.documents = db.documents ++ draft.documents) ∨
    ∃ σ result stated, l = .run σ (.texts result stated) ∧
      db'.documents = (db.setRawTexts result.rawTexts).documents := by
  cases h with
  | message h =>
    obtain ⟨-, rfl⟩ := commitDraft_ok h
    exact .inr (.inl ⟨_, _, rfl, rfl⟩)
  | processing σ => exact .inl (markProcessing_frame rfl).1
  | texts h =>
    obtain rfl := commitIngest_some h
    exact .inr (.inr ⟨_, _, _, rfl, rfl⟩)
  | degraded h =>
    obtain ⟨-, rfl⟩ := commitDegraded_some.mp h
    exact .inl (flushStatus_frame _ _ db).1
  | facts _ h =>
    obtain ⟨-, rfl⟩ := commitFacts_some.mp h
    exact .inl rfl
  | anomalies => exact .inl rfl
  | chase => exact .inl (commitChase_tables _ _ _ _ _ _ db).1
  | exported => exact .inl rfl

/-- Intake and the last node of a run add messages. -/
theorem Commit.communications (h : Commit settings db l a db') :
    db'.communications = db.communications ∨
    (∃ r draft, l = .request r (.commit draft) ∧ commitDraft draft db = .ok db' ∧
      db'.communications = db.communications ++ [draft.communication]) ∨
    ∃ σ id channel content,
      db'.communications = db.communications ++ [chaseMessage σ id channel content] := by
  cases h with
  | message h =>
    obtain ⟨-, hdb⟩ := commitDraft_ok h
    exact .inr (.inl ⟨_, _, rfl, h, by rw [hdb]⟩)
  | processing σ => exact .inl (markProcessing_frame rfl).2.1
  | texts h =>
    obtain rfl := commitIngest_some h
    exact .inl rfl
  | degraded h =>
    obtain ⟨-, rfl⟩ := commitDegraded_some.mp h
    exact .inl (flushStatus_frame _ _ db).2.1
  | facts _ h =>
    obtain ⟨-, rfl⟩ := commitFacts_some.mp h
    exact .inl rfl
  | anomalies => exact .inl rfl
  | chase σ missing channel alreadySent id now =>
    have htable := (commitChase_tables σ id now missing channel alreadySent db).2.2
    cases alreadySent with
    | true => exact .inl (by simpa using htable)
    | false => exact .inr (.inr ⟨_, _, _, _, htable⟩)
  | exported => exact .inl rfl

/-- Only the commit of an extraction touches the facts. -/
theorem Transition.facts (h : Transition settings s l a s' l') :
    (s'.db.facts = s.db.facts ∧ s'.extractions = s.extractions) ∨
    ∃ σ call validated deleted ids now facts,
      l = .run σ (.insert call validated deleted) ∧ a = .commitFacts ids now ∧
      s.Fresh ((List.range validated.length).map ids) ∧
      newFacts σ.applicationId ids now validated = .ok facts ∧
      s'.db = (s.db.replaceFacts deleted facts).addAudit
        [extractionAudit σ.applicationId call now] ∧
      s'.extractions = (σ.applicationId, facts.map (·.toFactContent)) :: s.extractions := by
  cases h with
  | committed h =>
    obtain ⟨-, rfl⟩ := commitDraft_ok h
    exact .inl ⟨rfl, rfl⟩
  | marked σ => exact .inl ⟨(markProcessing_frame rfl).2.2.1, rfl⟩
  | ingested h =>
    obtain rfl := commitIngest_some h
    exact .inl ⟨rfl, rfl⟩
  | degraded h =>
    obtain ⟨-, rfl⟩ := commitDegraded_some.mp h
    exact .inl ⟨(flushStatus_frame _ _ s.db).2.2.1, rfl⟩
  | extracted hfresh hfacts h =>
    exact .inr ⟨_, _, _, _, _, _, _, rfl, rfl, hfresh, hfacts, (commitFacts_some.mp h).2, rfl⟩
  | chased => exact .inl ⟨(commitChase_tables _ _ _ _ _ _ s.db).2.1, rfl⟩
  | _ => exact .inl ⟨rfl, rfl⟩

/-- Identifiers drawn stay drawn. -/
theorem Transition.issued_mono (h : Transition settings s l a s' l') : ∀ u ∈ s.issued, u ∈ s'.issued := by
  cases h with
  | undrafted | drafted | unwritten | extracted => exact fun u hu => List.mem_append_right _ hu
  | chased => exact fun u hu => List.mem_cons_of_mem _ hu
  | _ => exact fun _ hu => hu

/-- Messages stay. -/
theorem Transition.communications_mono (h : Transition settings s l a s' l') :
    ∀ m ∈ s.db.communications, m ∈ s'.db.communications := by
  rcases h.commit with hdb | hcommit
  · rw [hdb]
    exact fun m hm => hm
  · rcases hcommit.communications with h | ⟨r, draft, -, -, h⟩ | ⟨σ, id, channel, content, h⟩
    all_goals
      rw [h]
      intro m hm
      simp [hm]

/-- The applications change by a new one or by a status. -/
theorem Commit.applications (h : Commit settings db l a db') : db'.applications = db.applications ∨
    (∃ r draft, l = .request r (.commit draft) ∧ a = .commitMessage ∧ draft.isNew = true ∧
      db'.applications = db.applications ++ [draft.application]) ∨
    ∃ σ phase status, l = .run σ phase ∧ σ.status ≠ status ∧
      (status = .processing ∧ σ.status = .pendingDocs ∧ phase = .mark ∧ a = .markProcessing ∨
        (status = .manualReview ∧ (∃ e, phase = .degrade e) ∧ ∃ now, a = .commitDegraded now) ∨
        ∃ missing channel alreadySent id now, status = chaseStatus missing ∧
          phase = .announce missing channel alreadySent ∧ a = .commitChase id now) ∧
      db'.applications = (db.setStatus σ.applicationId status).applications := by
  have hflush : ∀ (σ : Session) (status : ApplicationStatus),
      (σ.flushStatus status db).applications = db.applications ∨
        σ.status ≠ status ∧ (σ.flushStatus status db).applications =
          (db.setStatus σ.applicationId status).applications := by
    intro σ status
    unfold Session.flushStatus
    split_ifs with h
    · exact .inl rfl
    · exact .inr ⟨h, rfl⟩
  cases h with
  | message h =>
    obtain ⟨-, rfl⟩ := commitDraft_ok h
    split_ifs with hnew
    · exact .inr (.inl ⟨_, _, rfl, rfl, hnew, rfl⟩)
    · exact .inl rfl
  | processing σ =>
    unfold markProcessing
    split_ifs with hp
    · exact .inr (.inr ⟨σ, _, .processing, rfl, by simp [hp], .inl ⟨rfl, hp, rfl, rfl⟩, rfl⟩)
    · exact .inl rfl
  | texts h =>
    obtain rfl := commitIngest_some h
    exact .inl rfl
  | @degraded σ e now _ h =>
    obtain ⟨-, rfl⟩ := commitDegraded_some.mp h
    exact (hflush σ .manualReview).imp (fun h => h) fun ⟨hne, h⟩ =>
      .inr ⟨σ, _, .manualReview, rfl, hne, .inr (.inl ⟨rfl, ⟨e, rfl⟩, now, rfl⟩), h⟩
  | facts _ h =>
    obtain ⟨-, rfl⟩ := commitFacts_some.mp h
    exact .inl rfl
  | anomalies => exact .inl rfl
  | chase σ missing channel alreadySent id now =>
    have hcases := hflush σ (chaseStatus missing)
    have happs : (commitChase σ id now missing channel alreadySent db).applications =
        (σ.flushStatus (chaseStatus missing) db).applications := by
      unfold commitChase
      dsimp only
      split_ifs <;> rfl
    rw [happs]
    exact hcases.imp (fun h => h) fun ⟨hne, h⟩ =>
      .inr ⟨σ, _, _, rfl, hne, .inr (.inr ⟨_, _, _, _, _, rfl, rfl, rfl⟩), h⟩
  | exported => exact .inl rfl

end LoanAgent
