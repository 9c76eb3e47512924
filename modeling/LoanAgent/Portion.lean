import LoanAgent.Integrity
import LoanAgent.Isolation

/-! The rows of some applications, those of one borrower for instance. Proved: on
this portion of the tables every query about one of the applications finds what it
finds on all of them, intake finds the same open application and the same earlier
message, and a commit of a row that belongs there has the same outcome and adds the
same rows; a commit for another application leaves the portion as it is. -/

namespace LoanAgent

variable {py : Python} {settings : Settings} {own : Uuid → Bool} {db db' : Database} {a : Uuid}
  {borrower : Text}

/-- The rows of some applications. -/
def Database.keeping (own : Uuid → Bool) (db : Database) : Database where
  applications := db.applications.filter fun x => own x.id
  documents := db.documents.filter fun d => own d.applicationId
  communications := db.communications.filter fun m => own m.applicationId
  facts := db.facts.filter fun f => own f.applicationId
  auditLogs := db.auditLogs.filter fun row => own row.applicationId

/-- The applications of a borrower. -/
def Database.owns (db : Database) (borrower : Text) (a : Uuid) : Bool := db.borrowerOf a = some borrower

/-- Just the applications of a borrower are kept. -/
def Splits (borrower : Text) (own : Uuid → Bool) (db : Database) : Prop :=
  ∀ x ∈ db.applications, own x.id = decide (x.externalBorrowerId = borrower)

theorem Splits.own_eq (h : Splits borrower own db) {other : Text} (hb : db.HasBorrower a other) :
    own a = decide (other = borrower) := by
  obtain ⟨x, hx, rfl, rfl⟩ := hb
  exact h x hx

theorem splits_owns (hk : (db.applications.map (·.id)).Nodup) (borrower : Text) :
    Splits borrower (db.owns borrower) db := by
  intro x hx
  have hfound : db.application x.id = some x := by
    cases hf : db.application x.id with
    | none => exact absurd (List.find?_eq_none.mp hf x hx) (by simp)
    | some y =>
      have hy := List.mem_of_find?_eq_some hf
      rw [List.inj_on_of_nodup_map hk hy hx (Database.application_id hf)]
  simp [Database.owns, Database.borrowerOf, hfound]

/-- Who has an application shows in what the tables become. -/
theorem Database.Extends.splits (h : db.Extends db') (hs : Splits borrower own db') : Splits borrower own db := by
  intro x hx
  obtain ⟨y, hy, status, heq⟩ := h.applications.mem hx
  simpa only [heq] using hs y hy

/-! ### Queries -/

section Queries

theorem find?_filter_of {α : Type*} {p q : α → Bool} {l : List α}
    (h : ∀ x ∈ l, q x = true → p x = true) :
    (l.filter p).find? q = l.find? q := by
  rw [List.find?_filter]
  exact List.find?_congr fun x hx => by
    cases hq : q x with
    | false => rw [decide_eq_false (by simp)]
    | true => simp [h x hx hq]

theorem filter_filter_of {α : Type*} {p q : α → Bool} {l : List α}
    (h : ∀ x ∈ l, q x = true → p x = true) :
    (l.filter p).filter q = l.filter q := by
  rw [List.filter_filter]
  exact List.filter_congr fun x hx => by
    cases hq : q x with
    | false => rfl
    | true => simp [h x hx hq]

variable (ha : own a = true)
include ha

theorem application_keeping : (db.keeping own).application a = db.application a :=
  find?_filter_of fun x _ hx => by
    obtain rfl : x.id = a := by simpa using hx
    exact ha

theorem documentsOf_keeping : (db.keeping own).documentsOf a = db.documentsOf a :=
  filter_filter_of fun d _ hd => by
    obtain rfl : d.applicationId = a := by simpa using hd
    exact ha

theorem factsOf_keeping : (db.keeping own).factsOf a = db.factsOf a :=
  filter_filter_of fun f _ hf => by
    obtain rfl : f.applicationId = a := by simpa using hf
    exact ha

theorem contentsOf_keeping : (db.keeping own).contentsOf a = db.contentsOf a := by
  simp only [Database.contentsOf, factsOf_keeping ha]

theorem messagesOf_keeping (direction : Direction) :
    (db.keeping own).messagesOf a direction = db.messagesOf a direction :=
  filter_filter_of fun m _ hm => by
    obtain ⟨rfl, -⟩ : m.applicationId = a ∧ m.direction = direction := by simpa using hm
    exact ha

end Queries

/-! ### Commits that belong there -/

theorem keeping_setStatus (status : ApplicationStatus) :
    (db.setStatus a status).keeping own = (db.keeping own).setStatus a status := by
  simp only [Database.keeping, Database.setStatus]
  rw [filter_map_keeping fun x => by split_ifs <;> rfl]

theorem keeping_flushStatus (σ : Session) (status : ApplicationStatus) :
    (σ.flushStatus status db).keeping own = σ.flushStatus status (db.keeping own) := by
  unfold Session.flushStatus
  split_ifs
  · rfl
  · exact keeping_setStatus status

theorem keeping_setRawTexts (texts : List (Uuid × Text)) :
    (db.setRawTexts texts).keeping own = (db.keeping own).setRawTexts texts := by
  simp only [Database.keeping, Database.setRawTexts]
  rw [filter_map_keeping fun d => by split <;> rfl]

theorem keeping_addAudit (rows : List AuditLog) : (db.addAudit rows).keeping own =
    (db.keeping own).addAudit (rows.filter fun row => own row.applicationId) := by
  simp only [Database.keeping, Database.addAudit, List.filter_append]

theorem keeping_replaceFacts (deleted : List Uuid) (facts : List ExtractedFact) :
    (db.replaceFacts deleted facts).keeping own =
      (db.keeping own).replaceFacts deleted (facts.filter fun f => own f.applicationId) := by
  simp only [Database.keeping, Database.replaceFacts, List.filter_append, List.filter_filter, Bool.and_comm]

theorem markProcessing_keeping (σ : Session) : markProcessing σ (db.keeping own) =
    ((markProcessing σ db).1, (markProcessing σ db).2.keeping own) := by
  unfold markProcessing
  split_ifs
  · rw [keeping_setStatus]
  · rfl

/-- Rows of one application, which is kept. -/
theorem keeping_addOwn {rows : List AuditLog} (ha : own a = true) (h : ∀ row ∈ rows, row.applicationId = a) :
    (db.addAudit rows).keeping own = (db.keeping own).addAudit rows := by
  rw [keeping_addAudit, List.filter_eq_self.mpr fun row hrow => by rw [h row hrow, ha]]

theorem failures_applicationId {now : Time} {r : IngestResult} {row : AuditLog}
    (h : row ∈ r.failures.map (parseFailedAudit a now)) : row.applicationId = a := by
  obtain ⟨e, -, rfl⟩ := List.mem_map.mp h
  rfl

theorem anomalies_applicationId {now : Time} {found : List Anomaly} {row : AuditLog}
    (h : row ∈ found.map (anomalyAudit py a now)) : row.applicationId = a := by
  obtain ⟨x, -, rfl⟩ := List.mem_map.mp h
  rfl

section Own
variable (ha : own a = true)
include ha

theorem commitIngest_keeping (now : Time) (r : IngestResult) :
    commitIngest a now r (db.keeping own) = (commitIngest a now r db).map (·.keeping own) := by
  simp only [commitIngest]
  split_ifs
  · rw [Option.map_some, keeping_addOwn ha fun _ => failures_applicationId, keeping_setRawTexts]
  · rfl

theorem commitDegraded_keeping {σ : Session} (hσ : σ.applicationId = a) (e : LlmError) (now : Time) :
    commitDegraded py σ e now (db.keeping own) = (commitDegraded py σ e now db).map (·.keeping own) := by
  simp only [commitDegraded]
  split_ifs
  · rw [Option.map_some, keeping_addOwn ha (by simp [degradedAudit, hσ]), keeping_flushStatus]
  · rfl

theorem commitFacts_keeping {facts : List ExtractedFact} {row : AuditLog} (deleted : List Uuid)
    (hfacts : ∀ f ∈ facts, f.applicationId = a) (hrow : row.applicationId = a) :
    commitFacts deleted facts row (db.keeping own) = (commitFacts deleted facts row db).map (·.keeping own) := by
  simp only [commitFacts]
  split_ifs
  · rw [Option.map_some, keeping_addOwn ha (by simpa using hrow), keeping_replaceFacts,
      List.filter_eq_self.mpr fun f hf => by rw [hfacts f hf, ha]]
  · rfl

theorem commitAnomalies_keeping (now : Time) (found : List Anomaly) :
    commitAnomalies py a now found (db.keeping own) = (commitAnomalies py a now found db).keeping own :=
  (keeping_addOwn ha fun _ => anomalies_applicationId).symm

theorem commitChase_keeping {σ : Session} (hσ : σ.applicationId = a) (id : Uuid) (now : Time)
    (missing : List Text) (channel : Channel) (sent : Bool) :
    commitChase σ id now missing channel sent (db.keeping own) =
      (commitChase σ id now missing channel sent db).keeping own := by
  simp only [commitChase, ← keeping_flushStatus]
  split_ifs
  · rfl
  · simp [Database.keeping, chaseMessage, chaseSentAudit, hσ, ha]

end Own

/-! ### Intake -/

theorem latestOpen_keeping (h : Splits borrower own db) :
    (db.keeping own).latestOpen borrower = db.latestOpen borrower := by
  have hopen : (db.keeping own).openApplications borrower = db.openApplications borrower :=
    filter_filter_of fun x hx hb => by
      obtain ⟨rfl, -⟩ : x.externalBorrowerId = borrower ∧ x.isOpen = true := by simpa using hb
      simpa using h x hx
  simp only [Database.latestOpen, hopen]

/-- Intake drafts the same message. -/
theorem draftMessage_keeping {r : Request} (h : Splits (r.borrower py) own db) (draws : IntakeDraws) :
    draftMessage py settings (db.keeping own) r draws = draftMessage py settings db r draws := by
  simp only [draftMessage, latestOpen_keeping h]

/-- The messages under some keys are those of the applications that are kept. -/
def KeysSplit (ours : Text → Bool) (own : Uuid → Bool) (db : Database) : Prop :=
  ∀ m ∈ db.communications, ∀ key, m.idempotencyKey = some key → ours key = own m.applicationId

section Keys
variable {ours : Text → Bool} (hsplit : KeysSplit ours own db) {key : Text} (hkey : ours key = true)
include hsplit hkey

theorem hasKey_keeping : (db.keeping own).hasKey (some key) = db.hasKey (some key) := by
  simp only [Database.hasKey, Option.isSome_some, Bool.true_and, Database.keeping]
  rw [Bool.eq_iff_iff, List.any_eq_true, List.any_eq_true]
  constructor
  · rintro ⟨m, hm, hk⟩
    exact ⟨m, (List.mem_filter.mp hm).1, hk⟩
  · rintro ⟨m, hm, hk⟩
    exact ⟨m, List.mem_filter.mpr ⟨hm, (hsplit m hm key (by simpa using hk)).symm.trans hkey⟩, hk⟩

/-- The replay finds the same message, or none. -/
theorem replayAck_keeping (borrower : Text) :
    replayAck (db.keeping own) key borrower = replayAck db key borrower := by
  have hfind : ((db.keeping own).communications.find? fun m => m.idempotencyKey = some key) =
      db.communications.find? fun m => m.idempotencyKey = some key :=
    find?_filter_of fun m hm hk => (hsplit m hm key (by simpa using hk)).symm.trans hkey
  simp only [replayAck, hfind]
  cases hf : db.communications.find? fun m => m.idempotencyKey = some key with
  | none => rfl
  | some m =>
    have hm : own m.applicationId = true :=
      (hsplit m (List.mem_of_find?_eq_some hf) key (by simpa using List.find?_some hf)).symm.trans hkey
    simp only [Option.bind_some, application_keeping hm, documentsOf_keeping hm]

variable {draft : Draft} (hdraft : draft.communication.idempotencyKey = some key)
include hdraft

theorem commitDraft_error_keeping {e : IntakeError} (h : commitDraft draft db = .error e) :
    commitDraft draft (db.keeping own) = .error e := by
  unfold commitDraft at h ⊢
  rw [hdraft, hasKey_keeping hsplit hkey, ← hdraft]
  split_ifs at h ⊢ <;> exact h

theorem commitDraft_ok_keeping (ha : own draft.application.id = true)
    (hmessage : draft.communication.applicationId = draft.application.id)
    (hdocs : ∀ d ∈ draft.documents, d.applicationId = draft.application.id)
    (h : commitDraft draft db = .ok db') :
    commitDraft draft (db.keeping own) = .ok (db'.keeping own) := by
  have hkept : draft.documents.filter (fun d => own d.applicationId) = draft.documents :=
    List.filter_eq_self.mpr fun d hd => by rw [hdocs d hd, ha]
  unfold commitDraft at h ⊢
  rw [hdraft, hasKey_keeping hsplit hkey, ← hdraft]
  split_ifs at h ⊢ <;> cases h <;>
    simp [Database.keeping, ha, hmessage, hkept]

end Keys

/-! ### Commits for another application -/

section Others
variable (ha : own a = false)
include ha

theorem keeping_addOther {rows : List AuditLog} (h : ∀ row ∈ rows, row.applicationId = a) :
    (db.addAudit rows).keeping own = db.keeping own := by
  rw [keeping_addAudit,
    List.filter_eq_nil_iff.mpr fun row hrow => by rw [h row hrow, ha]; exact Bool.false_ne_true]
  simp only [Database.addAudit, List.append_nil]

theorem keeping_setStatus_other (status : ApplicationStatus) :
    (db.setStatus a status).keeping own = db.keeping own := by
  rw [keeping_setStatus]
  have hkeep : ((db.keeping own).applications.map fun x => if x.id = a then { x with status := status } else x) =
      (db.keeping own).applications := by
    refine (List.map_congr_left fun x hx => ?_).trans (List.map_id _)
    have hx : own x.id = true := (List.mem_filter.mp hx).2
    rw [if_neg fun he => by rw [he, ha] at hx; exact Bool.false_ne_true hx, id_eq]
  simp only [Database.setStatus, hkeep]

theorem keeping_flushStatus_other {σ : Session} (hσ : σ.applicationId = a) (status : ApplicationStatus) :
    (σ.flushStatus status db).keeping own = db.keeping own := by
  unfold Session.flushStatus
  split_ifs
  · rfl
  · exact keeping_setStatus_other (hσ ▸ ha) status

theorem keeping_setRawTexts_other (hk : (db.documents.map (·.id)).Nodup) {texts : List (Uuid × Text)}
    (htexts : ∀ t ∈ texts, db.HasDocument a t.1) : (db.setRawTexts texts).keeping own = db.keeping own := by
  rw [keeping_setRawTexts]
  have hkeep : ∀ d ∈ (db.keeping own).documents, texts.lookup d.id = none := by
    intro d hd
    obtain ⟨hmem, hd⟩ := List.mem_filter.mp hd
    rw [List.lookup_eq_none_iff]
    intro t ht
    obtain ⟨e, he, hid, hea⟩ := htexts t ht
    refine bne_iff_ne.mpr fun heq => ?_
    rw [List.inj_on_of_nodup_map hk hmem he (heq.trans hid.symm), hea, ha] at hd
    exact Bool.false_ne_true hd
  have hsame : ((db.keeping own).setRawTexts texts).documents = (db.keeping own).documents :=
    (List.map_congr_left fun d hd => by rw [hkeep d hd]; rfl).trans (List.map_id _)
  exact congrArg (fun docs => { db.keeping own with documents := docs }) hsame

theorem keeping_replaceFacts_other {deleted : List Uuid} {facts : List ExtractedFact}
    (hdeleted : ∀ u ∈ deleted, ∀ f ∈ db.facts, f.id = u → f.applicationId = a)
    (hfacts : ∀ f ∈ facts, f.applicationId = a) :
    (db.replaceFacts deleted facts).keeping own = db.keeping own := by
  have hnew : facts.filter (fun f => own f.applicationId) = [] :=
    List.filter_eq_nil_iff.mpr fun f hf => by rw [hfacts f hf, ha]; exact Bool.false_ne_true
  have hkept : (db.facts.filter fun f => own f.applicationId).filter (fun f => f.id ∉ deleted) =
      db.facts.filter fun f => own f.applicationId := by
    refine List.filter_eq_self.mpr fun f hf => decide_eq_true fun hmem => ?_
    obtain ⟨hf, hown⟩ := List.mem_filter.mp hf
    rw [hdeleted f.id hmem f hf rfl, ha] at hown
    exact Bool.false_ne_true hown
  rw [keeping_replaceFacts, hnew]
  simp only [Database.replaceFacts, Database.keeping, hkept, List.append_nil]

theorem commitChase_other_keeping {σ : Session} (hσ : σ.applicationId = a) (id : Uuid) (now : Time)
    (missing : List Text) (channel : Channel) (sent : Bool) :
    (commitChase σ id now missing channel sent db).keeping own = db.keeping own := by
  have hflush : (σ.flushStatus (chaseStatus missing) db).keeping own = db.keeping own :=
    keeping_flushStatus_other ha hσ _
  simp only [commitChase]
  split_ifs
  · exact hflush
  · rw [← hflush]
    simp [Database.keeping, chaseMessage, chaseSentAudit, hσ, ha]

end Others

theorem commitDraft_other_keeping {draft : Draft} (ha : own draft.application.id = false)
    (hmessage : draft.communication.applicationId = draft.application.id)
    (hdocs : ∀ d ∈ draft.documents, d.applicationId = draft.application.id)
    (h : commitDraft draft db = .ok db') :
    db'.keeping own = db.keeping own := by
  obtain ⟨-, rfl⟩ := commitDraft_ok h
  have hnone : draft.documents.filter (fun d => own d.applicationId) = [] :=
    List.filter_eq_nil_iff.mpr fun d hd => by rw [hdocs d hd, ha]; exact Bool.false_ne_true
  split_ifs <;> simp [Database.keeping, ha, hmessage, hnone]

end LoanAgent
