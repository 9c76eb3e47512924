import LoanAgent.Library.Ledger
import LoanAgent.FactSets
import LoanAgent.History

/-! What the audit log and a status stand for. Runs of one application overlap,
stop anywhere and know a status that others have overwritten; an export may be
delivered and then crash. Proved: in every reachable state the `chase.sent` rows
are the messages that were sent, one by one, and the `extract.trace` rows the calls
of the model from which the fact sets were committed; every `los.export` row has a delivery of its own; an
application in `manual_review` has its `extract.degraded` row, one that is
`ready_for_los` was told so, and each was opened by a message of its borrower. -/

namespace LoanAgent

variable {py : Python} {settings : Settings} {s s' : Store} {l l' : Proc py} {a : Action py}
  {c : Service py} {db db' : Database}

/-! ### The rows of one kind -/

def Database.rowsOf (db : Database) (action : AuditAction) : List AuditLog :=
  db.auditLogs.filter (·.action = action)

theorem rowsOf_append {action : AuditAction} {rows : List AuditLog}
    (h : db'.auditLogs = db.auditLogs ++ rows) :
    db'.rowsOf action = db.rowsOf action ++ rows.filter (·.action = action) := by
  rw [Database.rowsOf, h, List.filter_append]
  rfl

theorem rowsOf_other {action : AuditAction} {rows : List AuditLog} (h : db'.auditLogs = db.auditLogs ++ rows)
    (hrows : ∀ row ∈ rows, row.action ≠ action) : db'.rowsOf action = db.rowsOf action := by
  have hnone : rows.filter (·.action = action) = [] :=
    List.filter_eq_nil_iff.mpr fun row hrow => by simpa using hrows row hrow
  rw [rowsOf_append h, hnone, List.append_nil]

/-- The kind of rows that the next step of a process may write. -/
def Proc.noting : Proc py → Option AuditAction
  | .run _ (.texts _ _) => some .parseFailed
  | .run _ (.degrade _) => some .extractDegraded
  | .run _ (.insert _ _ _) => some .extractTrace
  | .run _ (.anomalies _) => some .reconcileAnomaly
  | .run _ (.announce _ _ _) => some .chaseSent
  | .exporting (.audit _) => some .losExport
  | _ => none

theorem Commit.rows (h : Commit settings db l a db') :
    ∃ rows, db'.auditLogs = db.auditLogs ++ rows ∧ ∀ row ∈ rows, l.noting = some row.action := by
  have hnone : db'.auditLogs = db.auditLogs →
      ∃ rows, db'.auditLogs = db.auditLogs ++ rows ∧ ∀ row ∈ rows, l.noting = some row.action :=
    fun h => ⟨[], by rw [h, List.append_nil], nofun⟩
  cases h with
  | message h =>
    obtain ⟨-, rfl⟩ := commitDraft_ok h
    exact hnone rfl
  | processing σ => exact hnone (markProcessing_frame rfl).2.2.2
  | texts h =>
    obtain rfl := commitIngest_some h
    exact ⟨_, rfl, List.forall_mem_map.mpr fun _ _ => rfl⟩
  | @degraded σ e now _ h =>
    obtain ⟨-, rfl⟩ := commitDegraded_some.mp h
    exact ⟨_, by rw [Database.addAudit, (flushStatus_frame σ .manualReview db).2.2.2],
      List.forall_mem_singleton.mpr rfl⟩
  | facts _ h =>
    obtain ⟨-, rfl⟩ := commitFacts_some.mp h
    exact ⟨_, rfl, List.forall_mem_singleton.mpr rfl⟩
  | anomalies σ found now => exact ⟨_, rfl, List.forall_mem_map.mpr fun _ _ => rfl⟩
  | chase σ missing channel alreadySent id now =>
    have hrows := commitChase_auditLogs σ id now missing channel alreadySent db
    cases alreadySent with
    | true => exact hnone (by simpa using hrows)
    | false => exact ⟨_, hrows, List.forall_mem_singleton.mpr rfl⟩
  | exported memo now => exact ⟨_, rfl, List.forall_mem_singleton.mpr rfl⟩

/-- A process that is not about to write rows of a kind leaves these as they are. -/
theorem Transition.rowsOf (h : Transition settings s l a s' l') {action : AuditAction}
    (hl : l.noting ≠ some action) : s'.db.rowsOf action = s.db.rowsOf action := by
  rcases h.commit with hdb | hcommit
  · rw [hdb]
  · obtain ⟨rows, hlogs, hrows⟩ := hcommit.rows
    exact rowsOf_other hlogs fun row hrow heq => hl (heq ▸ hrows row hrow)

/-! ### Messages and fact sets -/

/-- The messages that went out, as far as an audit row knows them. -/
def Database.outbound (db : Database) : List (Uuid × Option Text) :=
  (db.communications.filter (·.direction = .outbound)).map fun m => (m.applicationId, m.content)

def Database.sentRows (db : Database) : List (Uuid × Option Text) :=
  (db.rowsOf .chaseSent).map fun row => (row.applicationId, row.llmResponse)

/-- The row records the call of the model from which the fact set was made. -/
structure Traces (py : Python) (row : AuditLog) (e : Uuid × List FactContent) : Prop where
  call : ∃ (call : ExtractionCall py) (validated : List (ValidatedEntity py)) (ids : ℕ → Uuid) (now : Time)
    (facts : List ExtractedFact), call.Validates validated ∧ row = extractionAudit e.1 call now ∧
      newFacts e.1 ids now validated = .ok facts ∧ e.2 = facts.map (·.toFactContent)

/-- The audit log against the messages and the fact sets. -/
structure Booked (py : Python) (s : Store) : Prop where
  sent : s.db.sentRows = s.db.outbound
  dated : ∀ m ∈ s.db.communications, m.direction = .outbound → m.timestamp = defaultTimestamp
  traced : List.Forall₂ (Traces py) (s.db.rowsOf .extractTrace) s.extractions.reverse

theorem Transition.sentRows (h : Transition settings s l a s' l') (hjust : l.Justified)
    (hs : s.db.sentRows = s.db.outbound) : s'.db.sentRows = s'.db.outbound := by
  have hquiet : l.noting ≠ some .chaseSent → s'.db.communications = s.db.communications →
      s'.db.sentRows = s'.db.outbound := fun hl hm => by
    rw [Database.sentRows, h.rowsOf hl, Database.outbound, hm]
    exact hs
  cases h with
  | @committed r draft _ h =>
    obtain ⟨draws, db₀, hdraft⟩ := hjust
    obtain ⟨-, rfl⟩ := commitDraft_ok h
    have hin : List.filter (fun m : Communication => m.direction = .outbound) [draft.communication] = [] := by
      simp [hdraft.communication.2.2]
    simp only [Database.outbound, List.filter_append, hin, List.append_nil]
    exact hs
  | marked σ => exact hquiet nofun (markProcessing_frame (rfl : markProcessing σ s.db = (_, _))).2.1
  | ingested h =>
    obtain rfl := commitIngest_some h
    exact hquiet nofun rfl
  | @degraded σ e now _ h =>
    obtain ⟨-, rfl⟩ := commitDegraded_some.mp h
    exact hquiet nofun (flushStatus_frame σ .manualReview s.db).2.1
  | extracted _ _ h =>
    obtain ⟨-, rfl⟩ := commitFacts_some.mp h
    exact hquiet nofun rfl
  | reconciled => exact hquiet nofun rfl
  | @chased σ missing channel alreadySent id now _ =>
    obtain ⟨-, -, hm⟩ := commitChase_tables σ id now missing channel alreadySent s.db
    have hr := commitChase_auditLogs σ id now missing channel alreadySent s.db
    cases alreadySent with
    | true =>
      simp only [if_true, List.append_nil] at hm hr
      simp only [Database.sentRows, Database.rowsOf, hr, Database.outbound, hm]
      exact hs
    | false =>
      simp only [Bool.false_eq_true, if_false] at hm hr
      simp only [Database.sentRows, rowsOf_append hr, Database.outbound, hm, List.filter_append, List.map_append]
      exact congrArg₂ (· ++ ·) hs rfl
  | exported => exact hquiet nofun rfl
  | _ => exact hs

/-- A message that goes out has the default time. -/
theorem Transition.dated (h : Transition settings s l a s' l') (hjust : l.Justified)
    (hs : ∀ m ∈ s.db.communications, m.direction = .outbound → m.timestamp = defaultTimestamp) :
    ∀ m ∈ s'.db.communications, m.direction = .outbound → m.timestamp = defaultTimestamp := by
  rcases h.commit with hdb | hcommit
  · exact hdb ▸ hs
  rcases hcommit.communications with hsame | ⟨r, draft, rfl, -, hadd⟩ | ⟨_, _, _, _, hadd⟩
  · exact hsame ▸ hs
  · obtain ⟨draws, db₀, hdraft⟩ := hjust
    rw [hadd]
    refine List.forall_mem_append.mpr ⟨hs, List.forall_mem_singleton.mpr fun hout => ?_⟩
    rw [hdraft.communication.2.2] at hout
    cases hout
  · rw [hadd]
    exact List.forall_mem_append.mpr ⟨hs, List.forall_mem_singleton.mpr fun _ => rfl⟩

theorem Transition.tracedRows (h : Transition settings s l a s' l') (hextr : l.Extracts s)
    (hs : List.Forall₂ (Traces py) (s.db.rowsOf .extractTrace) s.extractions.reverse) :
    List.Forall₂ (Traces py) (s'.db.rowsOf .extractTrace) s'.extractions.reverse := by
  have hquiet : l.noting ≠ some .extractTrace → s'.extractions = s.extractions →
      List.Forall₂ (Traces py) (s'.db.rowsOf .extractTrace) s'.extractions.reverse := fun hl he => by
    rw [h.rowsOf hl, he]
    exact hs
  cases h with
  | @extracted σ call validated deleted ids now facts _ _ hnew h =>
    obtain ⟨-, rfl⟩ := commitFacts_some.mp h
    rw [rowsOf_append rfl, List.reverse_cons]
    exact List.rel_append hs
      (.cons ⟨call, validated, ids, now, facts, hextr.1, rfl, hnew, rfl⟩ .nil)
  | committed | marked | ingested | degraded | reconciled | chased | exported => exact hquiet nofun rfl
  | _ => exact hs

/-- The audit log records every message that was sent and the call behind every fact
set that was committed, in their order, and no other. -/
theorem audit_log_booked (h : ServiceReaches py settings Interleave.anyStep c) : Booked py c.shared := by
  refine ((h.assuming (I := fun c => ∀ p, (c.procs p).Justified) fun h => justified_of_reaches h).assuming
    (I := fun c => ∀ p, (c.procs p).Extracts c.shared) fun h => extracts_of_reaches h).invariant
    (I := fun c => Booked py c.shared) ⟨rfl, fun _ hm => absurd hm List.not_mem_nil, .nil⟩ ?_
  rintro c p a s' l' ⟨hsent, hdated, htraced⟩ ⟨⟨-, hjust⟩, hextr⟩ hs
  have htrans := procStep_transition hs
  exact ⟨htrans.sentRows (hjust p) hsent, htrans.dated (hjust p) hdated, htrans.tracedRows (hextr p) htraced⟩

theorem audit_log_booked_helloRun : behindHelloRun.shared.db.outbound.length = 1 ∧
    behindHelloRun.shared.extractions.length = 1 ∧ Booked asciiPython behindHelloRun.shared :=
  ⟨by decide +kernel, by decide +kernel,
    audit_log_booked behindHelloRun_reached⟩

/-! ### Deliveries -/

section Deliveries
variable (py settings)

/-- What the audit row of an export says. -/
def CreditMemo.note (memo : CreditMemo) : Uuid × Option Text :=
  (memo.applicationId, (losExportAudit py settings memo 0).llmResponse)

def Store.exportRows (s : Store) : Multiset (Uuid × Option Text) :=
  (s.db.rowsOf .losExport).map fun row => (row.applicationId, row.llmResponse)

def Store.deliveries (s : Store) : Multiset (Uuid × Option Text) := s.delivered.map (·.note py settings)

/-- The row that a delivered export is about to write. -/
def Proc.unbooked : Proc py → Multiset (Uuid × Option Text)
  | .exporting (.audit memo) => {memo.note py settings}
  | _ => 0

end Deliveries

/-- A step books an export that was delivered before, or delivers one, or neither. -/
theorem Transition.exportRows (h : Transition settings s l a s' l') :
    s'.exportRows + l'.unbooked py settings + s.deliveries py settings ≤
      s.exportRows + l.unbooked py settings + s'.deliveries py settings := by
  have hquiet : l.noting ≠ some .losExport → l'.unbooked py settings = 0 → s'.delivered = s.delivered →
      s'.exportRows + l'.unbooked py settings + s.deliveries py settings ≤
        s.exportRows + l.unbooked py settings + s'.deliveries py settings := fun hl h0 hd => by
    have hrows : s'.exportRows = s.exportRows := by rw [Store.exportRows, h.rowsOf hl]; rfl
    have hdel : s'.deliveries py settings = s.deliveries py settings := by rw [Store.deliveries, hd]; rfl
    rw [hrows, h0, hdel, add_zero]
    gcongr
    exact Multiset.le_add_right _ _
  cases h with
  | stop l a =>
    change s.exportRows + 0 + _ ≤ _
    gcongr
    exact Multiset.zero_le _
  | evict | forgotten => exact le_rfl
  | delivered memo accepted _ hl =>
    have hdel : Store.deliveries py settings { s with delivered := memo :: s.delivered } =
        {memo.note py settings} + s.deliveries py settings := rfl
    have hw : l'.unbooked py settings ≤ {memo.note py settings} := by
      rcases hl with rfl | rfl
      · exact Multiset.zero_le _
      · exact le_rfl
    rw [hdel, ← add_assoc]
    change s.exportRows + _ + _ ≤ s.exportRows + 0 + _ + _
    rw [add_zero]
    gcongr
  | exported memo now =>
    have hrows : Store.exportRows { s with db := s.db.addAudit [losExportAudit py settings memo now] } =
        s.exportRows + {memo.note py settings} := by
      rw [Store.exportRows, rowsOf_append rfl, List.map_append, ← Multiset.coe_add]
      rfl
    rw [hrows]
    change _ + 0 + _ ≤ _
    rw [add_zero]
    exact le_rfl
  | _ => exact hquiet nofun rfl rfl

/-- Every row, and every row still to be written by any of the processes, has a
delivery of its own. -/
def ExportsDelivered (py : Python) (settings : Settings) (c : Service py) : Prop :=
  ∀ P : Finset ℕ, c.shared.exportRows + Interleave.held (Proc.unbooked py settings) c.procs P ≤
    c.shared.deliveries py settings

/-- No export is noted that was not delivered, and none is noted twice. -/
theorem exports_delivered (h : ServiceReaches py settings Interleave.anyStep c) :
    ExportsDelivered py settings c := by
  intro P
  refine h.ledger Store.exportRows (Store.deliveries py settings) (fun P => ?_)
    (fun c p a s l _ hs => (procStep_transition hs).exportRows) P
  have hzero : Interleave.held (Proc.unbooked py settings) (initial py).procs P = 0 :=
    Interleave.held_eq_zero (fun _ => rfl) P
  rw [hzero]
  exact le_rfl

/-- The application is exported twice, and one of the deliveries is not noted yet. -/
def twiceExported : Service asciiPython :=
  Interleave.after (procStep sampleSettings) (fun _ _ _ => true) behindHelloRun
    [(2, .requestExport (.ofNat 100)), (3, .requestExport (.ofNat 100)), (2, .selectMemo orderFacts "t".toList),
      (3, .selectMemo orderFacts "u".toList), (2, .deliver true), (3, .deliver true), (2, .commitExport 30)]

theorem twiceExported_reached : ServiceReaches asciiPython sampleSettings Interleave.anyStep twiceExported :=
  Interleave.Reaches.trans behindHelloRun_reached (Interleave.after_reaches fun _ _ _ _ => trivial)

theorem exports_delivered_twiceExported :
    (twiceExported.shared.db.rowsOf .losExport).length = 1 ∧ twiceExported.shared.delivered.length = 2 ∧
    ExportsDelivered asciiPython sampleSettings twiceExported :=
  ⟨by decide +kernel, by decide +kernel, exports_delivered twiceExported_reached⟩

/-! ### What a status stands for -/

/-- The message of a run that found nothing missing. -/
def completionText : Text := buildChaseContent [] .sms

/-- What is on record for the status of an application, and for its existence. -/
structure Application.Backed (db : Database) (x : Application) : Prop where
  opened : ∃ m ∈ db.communications, m.applicationId = x.id ∧ m.direction = .inbound
  manual : x.status = .manualReview → ∃ row ∈ db.auditLogs, row.applicationId = x.id ∧ row.action = .extractDegraded
  ready : x.status = .readyForLos → ∃ m ∈ db.communications, m.applicationId = x.id ∧
    m.direction = .outbound ∧ m.content = some completionText

/-- The message with this content was sent for the application. -/
def Database.WasSent (db : Database) (b : Uuid) (content : Text) : Prop :=
  ∃ m ∈ db.communications, m.applicationId = b ∧ m.direction = .outbound ∧ m.content = some content

/-- What a process that is about to set a status relies on. -/
def Proc.Told (db : Database) : Proc py → Prop
  | .request _ (.commit draft) => draft.isNew = true → draft.application.status = .pendingDocs
  | .run σ (.announce missing channel true) => db.WasSent σ.applicationId (buildChaseContent missing channel)
  | _ => True

theorem Database.WasSent.mono (h : db.Extends db') {b : Uuid} {content : Text} :
    db.WasSent b content → db'.WasSent b content :=
  fun ⟨m, hm, hrest⟩ => ⟨m, h.communications.subset hm, hrest⟩

theorem Application.Backed.mono (h : db.Extends db') {x : Application} (hx : x.Backed db) : x.Backed db' :=
  ⟨hx.opened.imp fun _ hm => ⟨h.communications.subset hm.1, hm.2⟩,
    fun hs => (hx.manual hs).imp fun _ hr => ⟨h.auditLogs.subset hr.1, hr.2⟩,
    fun hs => Database.WasSent.mono h (hx.ready hs)⟩

theorem buildChaseContent_nil (channel : Channel) : buildChaseContent [] channel = completionText := rfl

theorem Proc.Told.mono (h : db.Extends db') (hl : l.Told db) : l.Told db' := by
  unfold Proc.Told at hl ⊢
  split at hl
  · exact hl
  · exact Database.WasSent.mono h hl
  · trivial

theorem status_draftMessage {r : Request} {draws : IntakeDraws} {draft : Draft} {files : List (FilePath × Bytes)}
    (h : draftMessage py settings db r draws = (.ok draft, files)) (hnew : draft.isNew = true) :
    draft.application.status = .pendingDocs := by
  unfold draftMessage at h
  dsimp only at h
  split_ifs at h
  · cases h
  obtain ⟨⟨docs, written⟩, hb⟩ : ∃ p, buildDocuments py settings
    ((db.latestOpen (r.borrower py)).getD (newApplication draws.application draws.now (r.borrower py))).id
    draws.document 0 r.message.attachments = p := ⟨_, rfl⟩
  rw [hb] at h
  cases docs with
  | error e => cases h
  | ok docs =>
    cases h
    rw [Option.isNone_iff_eq_none.mp hnew]
    rfl

theorem Transition.told (h : Transition settings s l a s' l') (hl : l.Told s.db) : l'.Told s'.db := by
  cases h with
  | evict | forgotten => exact hl
  | drafted _ h => exact status_draftMessage h
  | sent σ missing channel =>
    have htold : ∀ b, (b = true → s.db.WasSent σ.applicationId (buildChaseContent missing channel)) →
        (Proc.run σ (.announce missing channel b) : Proc py).Told s.db := by
      rintro (_ | _) hb
      · trivial
      · exact hb rfl
    refine htold _ fun hsent => ?_
    obtain ⟨m, hm, hcontent⟩ := List.any_eq_true.mp hsent
    obtain ⟨hmem, hm⟩ := List.mem_filter.mp hm
    simp only [decide_eq_true_eq] at hm hcontent
    exact ⟨m, hmem, hm.1, hm.2, hcontent⟩
  | delivered _ _ _ h => rcases h with rfl | rfl <;> trivial
  | _ => trivial

/-- The applications behind a flush. -/
theorem mem_flushStatus {σ : Session} {status : ApplicationStatus} {y : Application}
    (hy : y ∈ (σ.flushStatus status db).applications) :
    y ∈ db.applications ∨ ∃ x ∈ db.applications, x.id = σ.applicationId ∧ y = { x with status := status } := by
  unfold Session.flushStatus at hy
  split_ifs at hy
  · exact .inl hy
  · obtain ⟨x, hx, rfl⟩ := List.mem_map.mp hy
    split_ifs with hid
    · exact .inr ⟨x, hx, hid, rfl⟩
    · exact .inl hx

/-- Another status of an application that is on record leaves its opening on record. -/
theorem Application.Backed.status {x : Application} (hx : x.Backed db) {status : ApplicationStatus}
    (hmanual : status = .manualReview →
      ∃ row ∈ db.auditLogs, row.applicationId = x.id ∧ row.action = .extractDegraded)
    (hready : status = .readyForLos → db.WasSent x.id completionText) :
    Application.Backed db { x with status := status } := ⟨hx.opened, hmanual, hready⟩

theorem Commit.backed (h : Commit settings db l a db') (hjust : l.Justified) (hl : l.Told db)
    (hdb : ∀ x ∈ db.applications, x.Backed db) : ∀ y ∈ db'.applications, y.Backed db' := by
  have hext := h.extends
  have hkeep : ∀ x ∈ db.applications, x.Backed db' := fun x hx => (hdb x hx).mono hext
  cases h with
  | @message r draft _ h =>
    obtain ⟨draws, db₀, hdraft⟩ := hjust
    obtain ⟨-, rfl⟩ := commitDraft_ok h
    intro y hy
    dsimp only at hy
    split_ifs at hy with hnew
    · rcases List.mem_append.mp hy with hy | hy
      · exact hkeep y hy
      · obtain rfl := List.mem_singleton.mp hy
        refine ⟨⟨_, List.mem_append_right _ List.mem_cons_self, hdraft.communication.2⟩, ?_, ?_⟩ <;>
        · rw [hl hnew]
          nofun
    · exact hkeep y hy
  | processing σ =>
    intro y hy
    unfold markProcessing at hy
    split_ifs at hy
    · obtain ⟨x, hx, rfl⟩ := List.mem_map.mp hy
      split_ifs
      · exact (hkeep x hx).status nofun nofun
      · exact hkeep x hx
    · exact hkeep y hy
  | texts h =>
    obtain rfl := commitIngest_some h
    exact hkeep
  | @degraded σ e now _ h =>
    obtain ⟨-, rfl⟩ := commitDegraded_some.mp h
    intro y hy
    rcases mem_flushStatus hy with hy | ⟨x, hx, hid, rfl⟩
    · exact hkeep y hy
    · exact (hkeep x hx).status (fun _ => ⟨_, List.mem_append_right _ List.mem_cons_self, hid.symm, rfl⟩) nofun
  | facts _ h =>
    obtain ⟨-, rfl⟩ := commitFacts_some.mp h
    exact hkeep
  | anomalies => exact hkeep
  | chase σ missing channel alreadySent id now =>
    have happs : (commitChase σ id now missing channel alreadySent db).applications =
        (σ.flushStatus (chaseStatus missing) db).applications := by
      unfold commitChase
      dsimp only
      split_ifs <;> rfl
    have hsent : (commitChase σ id now missing channel alreadySent db).WasSent σ.applicationId
        (buildChaseContent missing channel) := by
      cases alreadySent with
      | true => exact Database.WasSent.mono hext hl
      | false =>
        have hm := (commitChase_tables σ id now missing channel false db).2.2
        refine ⟨chaseMessage σ.applicationId id channel (buildChaseContent missing channel), ?_, rfl, rfl, rfl⟩
        rw [hm]
        exact List.mem_append_right _ List.mem_cons_self
    intro y hy
    rw [happs] at hy
    rcases mem_flushStatus hy with hy | ⟨x, hx, hid, rfl⟩
    · exact hkeep y hy
    · refine (hkeep x hx).status (fun hs => ?_) fun hs => ?_
      · unfold chaseStatus at hs
        split_ifs at hs
      · have hnil : missing = [] := by
          unfold chaseStatus at hs
          split_ifs at hs with hmissing
          exact hmissing
        rw [hid, ← buildChaseContent_nil channel, ← hnil]
        exact hsent
  | exported => exact hkeep

/-- No application is without the message that opened it, none waits for a review
without a failed call on record, and none is ready unless its borrower was told. -/
theorem statuses_backed (h : ServiceReaches py settings Interleave.anyStep c) :
    ∀ x ∈ c.shared.db.applications, x.Backed c.shared.db := by
  refine ((h.assuming (I := fun c => ∀ p, (c.procs p).Justified) fun h => justified_of_reaches h).assertions
    (I := fun s => ∀ x ∈ s.db.applications, x.Backed s.db) (J := fun s l => l.Told s.db)
    (R := fun s s' => s.db.Extends s'.db) nofun (fun _ => trivial) ?_ fun _ _ _ hR hl => hl.mono hR).1
  rintro c p a s' l' ⟨-, hjust⟩ hs hl hstep
  have htrans := procStep_transition hstep
  refine ⟨?_, htrans.told hl, htrans.extends.db⟩
  rcases htrans.commit with hdb | hcommit
  · exact hdb ▸ hs
  · exact hcommit.backed (hjust p) hl hs

theorem statuses_backed_helloRun : behindHelloRun.shared.db.applications.map (·.status) = [.readyForLos] ∧
    ∀ x ∈ behindHelloRun.shared.db.applications, x.Backed behindHelloRun.shared.db :=
  ⟨by decide +kernel, statuses_backed behindHelloRun_reached⟩

end LoanAgent
