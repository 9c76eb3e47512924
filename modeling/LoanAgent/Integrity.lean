import LoanAgent.History
import LoanAgent.Traceability

/-! The constraints of the schema. A step commits without looking whether the rows
that its own refer to are still there, and a run may hold what it has read for as
long as other runs and requests take. The model leaves foreign keys and the check
constraint out of the commits, so they have to follow. Proved: in every reachable
state every row belongs to an application that is there, a fact that names a
document names one of its own application, no fact is without its source, and
every fact has a known key and a score between 0 and 1. -/

namespace LoanAgent

variable {py : Python} {settings : Settings} {s s' : Store} {l l' : Proc py} {a : Action py}
  {c : Service py} {db db' : Database}

/-! ### Rows that others refer to -/

def Database.HasApplication (db : Database) (b : Uuid) : Prop := ∃ x ∈ db.applications, x.id = b

def Database.HasDocument (db : Database) (b id : Uuid) : Prop :=
  ∃ d ∈ db.documents, d.id = id ∧ d.applicationId = b

/-- The application is there and is the borrower's. -/
def Database.HasBorrower (db : Database) (a : Uuid) (borrower : Text) : Prop :=
  ∃ x ∈ db.applications, x.id = a ∧ x.externalBorrowerId = borrower

theorem Database.Extends.hasApplication (h : db.Extends db') {b : Uuid} (hb : db.HasApplication b) :
    db'.HasApplication b := by
  obtain ⟨x, hx, rfl⟩ := hb
  obtain ⟨y, hy, status, rfl⟩ := h.applications.mem hx
  exact ⟨_, hy, rfl⟩

theorem Database.Extends.hasDocument (h : db.Extends db') {b id : Uuid} (hd : db.HasDocument b id) :
    db'.HasDocument b id := by
  obtain ⟨d, hd, rfl, rfl⟩ := hd
  obtain ⟨e, he, text, rfl, -⟩ := h.documents.mem hd
  exact ⟨_, he, rfl, rfl⟩

theorem Database.Extends.hasBorrower (h : db.Extends db') {b : Uuid} {borrower : Text}
    (hb : db.HasBorrower b borrower) : db'.HasBorrower b borrower := by
  obtain ⟨x, hx, rfl, rfl⟩ := hb
  obtain ⟨y, hy, status, rfl⟩ := h.applications.mem hx
  exact ⟨_, hy, rfl, rfl⟩

theorem hasApplication_of_application {b : Uuid} {x : Application} (h : db.application b = some x) :
    db.HasApplication b := ⟨x, List.mem_of_find?_eq_some h, Database.application_id h⟩

/-! ### A new fact -/

/-- What the schema and the extraction ask of a fact besides its references. -/
structure ExtractedFact.WellFormed (f : ExtractedFact) : Prop where
  key : f.key ∈ knownFactKeys
  source : ∃ snippet, f.sourceSnippet = some snippet ∧ snippet ≠ [] ∧ snippet.length ≤ 2000
  score : ∃ q, f.confidenceScore = some q ∧ 0 ≤ q ∧ q ≤ 1

theorem roundNumeric_range {q : ℚ} (h : 0 ≤ q ∧ q ≤ 1) : 0 ≤ roundNumeric 4 q ∧ roundNumeric 4 q ≤ 1 := by
  obtain ⟨h0, h1⟩ := h
  have hlow : (0 : ℤ) ≤ ⌊|q| * 10 ^ 4 + 1 / 2⌋ := Int.floor_nonneg.mpr (by positivity)
  have hhigh : ⌊|q| * 10 ^ 4 + 1 / 2⌋ ≤ (10000 : ℤ) := by
    rw [abs_of_nonneg h0, Int.floor_le_iff]
    push_cast
    linarith
  have hlow' : (0 : ℚ) ≤ ⌊|q| * 10 ^ 4 + 1 / 2⌋ := by exact_mod_cast hlow
  have hhigh' : (⌊|q| * 10 ^ 4 + 1 / 2⌋ : ℚ) ≤ 10000 := by exact_mod_cast hhigh
  simp only [roundNumeric, if_neg (not_lt.mpr h0)]
  constructor
  · positivity
  · rw [div_le_one (by norm_num)]
    linarith

/-- A new row has the score of a validated entity, rounded. -/
theorem score_newFacts {b : Uuid} {ids : ℕ → Uuid} {now : Time} {validated : List (ValidatedEntity py)}
    {facts : List ExtractedFact} (h : newFacts b ids now validated = .ok facts) {f : ExtractedFact}
    (hf : f ∈ facts) : ∃ v ∈ validated, f.confidenceScore = some (roundNumeric 4 v.entity.confidenceScore) := by
  unfold newFacts at h
  split at h
  · cases h
  next drafts hdrafts =>
    obtain ⟨draft, hdraft, j, hj⟩ := mem_insertFacts h hf
    obtain ⟨v, hv, hvd⟩ := mem_draftFacts hdrafts hdraft
    refine ⟨v, hv, ?_⟩
    unfold draftFact at hvd
    split at hvd
    · cases hvd
    · cases hvd
      unfold insertFact at hj
      split at hj
      · split_ifs at hj
        cases hj
        rfl
      · cases hj

/-- What a run knows of an entity that it is about to write. -/
structure ValidatedEntity.Sourced (db : Database) (b : Uuid) (v : ValidatedEntity py) : Prop where
  key : v.entity.key ∈ knownFactKeys
  quote : ∃ quote, v.entity.sourceQuote = some quote ∧ quote ≠ []
  document : ∀ id, v.documentId = some id → ∃ u : Uuid, u.str = id ∧ db.HasDocument b u

theorem ValidatedEntity.Sourced.mono (h : db.Extends db') {b : Uuid} {v : ValidatedEntity py}
    (hv : v.Sourced db b) : v.Sourced db' b :=
  ⟨hv.key, hv.quote, fun id hid => (hv.document id hid).imp fun _ hu => ⟨hu.1, h.hasDocument hu.2⟩⟩

theorem wellFormed_newFacts {b : Uuid} {ids : ℕ → Uuid} {now : Time} {validated : List (ValidatedEntity py)}
    {facts : List ExtractedFact} (hv : ∀ v ∈ validated, v.Sourced db b)
    (h : newFacts b ids now validated = .ok facts) {f : ExtractedFact} (hf : f ∈ facts) :
    f.WellFormed ∧ f.applicationId = b ∧ ∀ id, f.documentId = some id → db.HasDocument b id := by
  obtain ⟨hb, v, hmem, hkey, hsnippet, -, hid⟩ := mem_newFacts h hf
  obtain ⟨w, -, hscore⟩ := score_newFacts h hf
  obtain ⟨hknown, ⟨quote, hquote, hne⟩, hdoc⟩ := hv v hmem
  refine ⟨⟨hkey ▸ hknown, ⟨quote, hsnippet.trans hquote, hne, v.entity.quote_length quote hquote⟩,
    _, hscore, roundNumeric_range w.entity.confidence_range⟩, hb, fun id hfid => ?_⟩
  rcases hid with ⟨-, hnone⟩ | ⟨text, u, hvid, hu, hfid'⟩
  · rw [hnone] at hfid
    cases hfid
  · obtain ⟨u', rfl, hhas⟩ := hdoc text hvid
    rw [Uuid.ofText_str, Option.some.injEq] at hu
    rw [hfid', ← hu, Option.some.injEq] at hfid
    exact hfid ▸ hhas

/-! ### What a process knows -/

/-- What a process relies on between its steps. -/
def Proc.Refers (db : Database) : Proc py → Prop
  | .request _ (.commit draft) => draft.isNew = false → db.HasApplication draft.application.id
  | .run σ (.parse docs) => db.HasApplication σ.applicationId ∧
      ∀ d ∈ docs, db.HasDocument σ.applicationId d.id
  | .run σ (.messages r) | .run σ (.texts r _) => db.HasApplication σ.applicationId ∧
      ∀ e ∈ r.parsed, ∃ u : Uuid, u.str = e.1 ∧ db.HasDocument σ.applicationId u
  | .run σ (.ask sources) => db.HasApplication σ.applicationId ∧
      ∀ source ∈ sources, ∀ id, source.documentId = some id →
        ∃ u : Uuid, u.str = id ∧ db.HasDocument σ.applicationId u
  | .run σ (.delete _ validated) | .run σ (.insert _ validated _) =>
    db.HasApplication σ.applicationId ∧ ∀ v ∈ validated, v.Sourced db σ.applicationId
  | .run σ _ => db.HasApplication σ.applicationId
  | .exporting (.facts x) => db.HasApplication x.id
  | .exporting (.deliver memo) | .exporting (.audit memo) => db.HasApplication memo.applicationId
  | _ => True

theorem Proc.Refers.application {σ : Session} {phase : RunPhase py}
    (h : Proc.Refers db (.run σ phase)) : db.HasApplication σ.applicationId := by
  cases phase <;> first | exact h | exact h.1

theorem Proc.Refers.mono (h : db.Extends db') (hl : l.Refers db) : l.Refers db' := by
  unfold Proc.Refers at hl ⊢
  split at hl
  · exact fun hnew => h.hasApplication (hl hnew)
  · exact ⟨h.hasApplication hl.1, fun d hd => h.hasDocument (hl.2 d hd)⟩
  · exact ⟨h.hasApplication hl.1, fun e he => (hl.2 e he).imp fun _ hu => ⟨hu.1, h.hasDocument hu.2⟩⟩
  · exact ⟨h.hasApplication hl.1, fun e he => (hl.2 e he).imp fun _ hu => ⟨hu.1, h.hasDocument hu.2⟩⟩
  · exact ⟨h.hasApplication hl.1, fun source hs id hid =>
      (hl.2 source hs id hid).imp fun _ hu => ⟨hu.1, h.hasDocument hu.2⟩⟩
  · exact ⟨h.hasApplication hl.1, fun v hv => (hl.2 v hv).mono h⟩
  · exact ⟨h.hasApplication hl.1, fun v hv => (hl.2 v hv).mono h⟩
  · exact h.hasApplication hl
  · exact h.hasApplication hl
  · exact h.hasApplication hl
  · exact h.hasApplication hl
  · trivial

/-- An entity that passes the validation names a document that a source was read from. -/
theorem sourced_of_validated {b : Uuid} {sources : List SourceText}
    (hsources : ∀ source ∈ sources, ∀ id, source.documentId = some id →
      ∃ u : Uuid, u.str = id ∧ db.HasDocument b u) {v : ValidatedEntity py} (hv : Validated sources v) :
    v.Sourced db b := by
  obtain ⟨hkey, quote, hquote, hne, hsource⟩ := hv
  refine ⟨hkey, ⟨quote, hquote, hne⟩, fun id hid => ?_⟩
  simp only [hid] at hsource
  obtain ⟨text, hlookup, -⟩ := hsource
  obtain ⟨l₁, l₂, hsplit, -⟩ := List.lookup_eq_some_iff.mp hlookup
  have hmem : (id, text) ∈ docTexts sources := by simp [hsplit]
  obtain ⟨source, hs, hsome⟩ := List.mem_filterMap.mp (List.mem_reverse.mp hmem)
  split at hsome
  next id' hid' =>
    split_ifs at hsome
    obtain ⟨rfl, -⟩ := Prod.mk.inj (Option.some.inj hsome)
    exact hsources source hs _ hid'
  · cases hsome

/-! ### One step -/

theorem Transition.refers (h : Transition settings s l a s' l') (hjust : l.Justified)
    (hl : l.Refers s.db) : l'.Refers s'.db := by
  have hext := h.extends.db
  cases h with
  | evict | forgotten => exact hl
  | drafted _ h => exact fun hnew => ⟨_, (draftMessage_ok h).found hnew, rfl⟩
  | @started b x hx => exact hasApplication_of_application hx
  | marked σ =>
    change Database.HasApplication _ _
    rw [markProcessing_applicationId]
    exact hext.hasApplication hl
  | documents σ =>
    refine ⟨hl, fun d hd => ?_⟩
    obtain ⟨hmem, hb⟩ := List.mem_filter.mp hd
    exact ⟨d, hmem, rfl, by simpa using hb⟩
  | @parsed σ docs io result h =>
    obtain ⟨-, rfl⟩ := ingestDocuments_eq_ok.mp h
    refine ⟨hl.1, fun e he => ?_⟩
    obtain ⟨d, hd, hid, -⟩ := mem_parsed he
    exact ⟨d.id, hid.symm, hl.2 d hd⟩
  | messages σ result => exact hl
  | @ingested σ result stated now db h =>
    refine ⟨hext.hasApplication hl.1, fun source hsource id hid => ?_⟩
    rcases List.mem_append.mp hsource with hmem | hmem
    · obtain ⟨e, he, rfl⟩ := List.mem_map.mp hmem
      obtain rfl := Option.some.inj hid
      exact (hl.2 e he).imp fun _ hu => ⟨hu.1, hext.hasDocument hu.2⟩
    · obtain ⟨e, -, rfl⟩ := List.mem_map.mp hmem
      cases hid
  | skipped => exact hl.1
  | failed => exact hl.1
  | asked => exact ⟨hl.1, fun v hv => sourced_of_validated hl.2 (validateEntities_validated hv)⟩
  | deleted => exact hl
  | extracted => exact hext.hasApplication hl.1
  | compared => exact hl
  | reconciled => exact hext.hasApplication hl
  | present => exact hl
  | channel => exact hl
  | sent => exact hl
  | @gated b x hx =>
    have hb := Database.application_id hx
    subst hb
    exact hasApplication_of_application hx
  | memo _ h =>
    change Database.HasApplication _ _
    rw [buildCreditMemo_applicationId h]
    exact hl
  | delivered memo _ _ h =>
    rcases h with rfl | rfl
    · trivial
    · exact hl
  | _ => trivial

/-- The foreign keys and the check constraint of the schema. -/
structure Consistent (db : Database) : Prop where
  documents : ∀ d ∈ db.documents, db.HasApplication d.applicationId
  communications : ∀ m ∈ db.communications, db.HasApplication m.applicationId
  auditLogs : ∀ row ∈ db.auditLogs, db.HasApplication row.applicationId
  facts : ∀ f ∈ db.facts, db.HasApplication f.applicationId
  origins : ∀ f ∈ db.facts, ∀ id, f.documentId = some id → db.HasDocument f.applicationId id
  wellFormed : ∀ f ∈ db.facts, f.WellFormed

/-- Rows that were there refer to what is still there, so that only the new ones count. -/
theorem Consistent.extend (h : Consistent db) (hext : db.Extends db')
    (hdocs : ∀ d ∈ db'.documents, db'.HasApplication d.applicationId)
    (hmsgs : ∀ m ∈ db'.communications, m ∈ db.communications ∨ db'.HasApplication m.applicationId)
    (hrows : ∀ row ∈ db'.auditLogs, row ∈ db.auditLogs ∨ db'.HasApplication row.applicationId)
    (hfacts : ∀ f ∈ db'.facts, f ∈ db.facts ∨ f.WellFormed ∧ db'.HasApplication f.applicationId ∧
      ∀ id, f.documentId = some id → db'.HasDocument f.applicationId id) : Consistent db' where
  documents := hdocs
  communications m hm := (hmsgs m hm).elim (fun hm => hext.hasApplication (h.communications m hm)) fun h => h
  auditLogs row hrow := (hrows row hrow).elim (fun hr => hext.hasApplication (h.auditLogs row hr)) fun h => h
  facts f hf := (hfacts f hf).elim (fun hf => hext.hasApplication (h.facts f hf)) fun h => h.2.1
  origins f hf id hid := (hfacts f hf).elim (fun hf => hext.hasDocument (h.origins f hf id hid))
    fun h => h.2.2 id hid
  wellFormed f hf := (hfacts f hf).elim (h.wellFormed f) fun h => h.1

theorem hasApplication_commitDraft {draft : Draft} (h : commitDraft draft db = .ok db')
    (hfound : draft.isNew = false → db.HasApplication draft.application.id) :
    db'.HasApplication draft.application.id := by
  obtain ⟨-, rfl⟩ := commitDraft_ok h
  cases hnew : draft.isNew with
  | false => exact hfound hnew
  | true => exact ⟨draft.application, List.mem_append_right _ List.mem_cons_self, rfl⟩

theorem Commit.consistent (h : Commit settings db l a db') (hdb : Consistent db) (hjust : l.Justified)
    (hl : l.Refers db) : Consistent db' := by
  have hext := h.extends
  have hold : ∀ d ∈ db.documents, db'.HasApplication d.applicationId :=
    fun d hd => hext.hasApplication (hdb.documents d hd)
  -- Audit rows of the application of the run or the memo.
  have hnote : ∀ {b : Uuid} {rows : List AuditLog}, db.HasApplication b → (∀ row ∈ rows, row.applicationId = b) →
      ∀ row ∈ db.auditLogs ++ rows, row ∈ db.auditLogs ∨ db'.HasApplication row.applicationId := by
    intro b rows hb hrows row hrow
    exact (List.mem_append.mp hrow).imp_right fun hr => hext.hasApplication (hrows row hr ▸ hb)
  cases h with
  | @message r draft _ h =>
    obtain ⟨draws, db₀, hdraft⟩ := hjust
    have happ := hasApplication_commitDraft h hl
    obtain ⟨-, rfl⟩ := commitDraft_ok h
    refine hdb.extend hext (fun d hd => ?_) (fun m hm => ?_) (fun row hrow => .inl hrow) fun f hf => .inl hf
    · rcases List.mem_append.mp hd with hd | hd
      · exact hold d hd
      · obtain ⟨u, hbuilt⟩ := hdraft.documents d hd
        exact hbuilt.applicationId ▸ happ
    · refine (List.mem_append.mp hm).imp_right fun hm => ?_
      rw [List.mem_singleton.mp hm, hdraft.communication.2.1]
      exact happ
  | processing σ =>
    obtain ⟨hd, hm, hf, hr⟩ := markProcessing_frame (rfl : markProcessing σ db = (_, _))
    exact hdb.extend hext (fun d h => hold d (hd ▸ h)) (fun m h => .inl (hm ▸ h)) (fun row h => .inl (hr ▸ h))
      fun f h => .inl (hf ▸ h)
  | @texts σ result stated now _ h =>
    obtain rfl := commitIngest_some h
    refine hdb.extend hext (fun d hd => ?_) (fun m hm => .inl hm) (hnote hl.1 ?_) fun f hf => .inl hf
    · obtain ⟨d₀, hd₀, rfl⟩ := List.mem_map.mp hd
      split <;> exact hold d₀ hd₀
    · exact List.forall_mem_map.mpr fun _ _ => rfl
  | @degraded σ e now _ h =>
    obtain ⟨-, rfl⟩ := commitDegraded_some.mp h
    obtain ⟨hd, hm, hf, hr⟩ := flushStatus_frame σ .manualReview db
    refine hdb.extend hext (fun d h => hold d (hd ▸ h)) (fun m h => .inl (hm ▸ h)) ?_ fun f h => .inl (hf ▸ h)
    rw [Database.addAudit, hr]
    exact hnote hl (List.forall_mem_singleton.mpr rfl)
  | @facts σ call validated deleted ids now facts _ hfacts h =>
    obtain ⟨-, rfl⟩ := commitFacts_some.mp h
    refine hdb.extend hext hold (fun m hm => .inl hm) (hnote hl.1 (List.forall_mem_singleton.mpr rfl))
      fun f hf => ?_
    rcases List.mem_append.mp hf with hf | hf
    · exact .inl (List.mem_filter.mp hf).1
    · obtain ⟨hwell, hb, hdoc⟩ := wellFormed_newFacts hl.2 hfacts hf
      exact .inr ⟨hwell, hext.hasApplication (hb ▸ hl.1), fun id hid => hext.hasDocument (hb ▸ hdoc id hid)⟩
  | anomalies σ found now =>
    exact hdb.extend hext hold (fun m hm => .inl hm) (hnote hl (List.forall_mem_map.mpr fun _ _ => rfl))
      fun f hf => .inl hf
  | chase σ missing channel alreadySent id now =>
    obtain ⟨hd, hf, hm⟩ := commitChase_tables σ id now missing channel alreadySent db
    have hr := commitChase_auditLogs σ id now missing channel alreadySent db
    refine hdb.extend hext (fun d h => hold d (hd ▸ h)) (fun m hmem => ?_) ?_ fun f h => .inl (hf ▸ h)
    · rw [hm] at hmem
      refine (List.mem_append.mp hmem).imp_right fun hmem => hext.hasApplication ?_
      split_ifs at hmem
      · cases hmem
      · exact List.mem_singleton.mp hmem ▸ hl
    · rw [hr]
      refine hnote hl fun row hrow => ?_
      split_ifs at hrow
      · cases hrow
      · exact List.mem_singleton.mp hrow ▸ rfl
  | exported memo now =>
    exact hdb.extend hext hold (fun m hm => .inl hm) (hnote hl (List.forall_mem_singleton.mpr rfl))
      fun f hf => .inl hf

/-! ### Every run -/

/-- The rows are consistent, and every process relies on rows that are there. -/
theorem consistent_of_reaches (h : ServiceReaches py settings Interleave.anyStep c) :
    Consistent c.shared.db ∧ ∀ p, (c.procs p).Refers c.shared.db := by
  have h0 : Consistent (initial py).shared.db := ⟨nofun, nofun, nofun, nofun, nofun, nofun⟩
  refine (h.assuming (I := fun c => ∀ p, (c.procs p).Justified) fun h => justified_of_reaches h).assertions
    (I := fun s => Consistent s.db) (J := fun s l => l.Refers s.db) (R := fun s s' => s.db.Extends s'.db)
    h0 (fun _ => trivial) ?_ fun _ _ _ hR hl => hl.mono hR
  rintro c p a s' l' ⟨-, hjust⟩ hs hl hstep
  have htrans := procStep_transition hstep
  refine ⟨?_, htrans.refers (hjust p) hl, htrans.extends.db⟩
  rcases htrans.commit with hdb | hcommit
  · exact hdb ▸ hs
  · exact hcommit.consistent hs (hjust p) hl

/-- No foreign key dangles and no fact is without its source, in any reachable state. -/
theorem no_reference_dangles (h : ServiceReaches py settings Interleave.anyStep c) : Consistent c.shared.db :=
  (consistent_of_reaches h).1

theorem no_reference_dangles_payslip :
    (serviceAfter payslipStored payslipRun).shared.db.facts.length = 1 ∧
    (serviceAfter payslipStored payslipRun).shared.db.documents.length = 1 ∧
    Consistent (serviceAfter payslipStored payslipRun).shared.db :=
  ⟨by decide +kernel, by decide +kernel,
    no_reference_dangles (Interleave.after_reaches fun _ _ _ _ => trivial)⟩

end LoanAgent
