import LoanAgent.FailureNotes
import LoanAgent.RedactionCut
import LoanAgent.Transitions

/-! PII in the audit log. Six commits write to it. The records of an extraction,
of an export and of a sent message never show any: the first two are redacted
last, the third is made of fixed texts. The other three may: a parse failure is
noted with what the exception quotes as it is, an anomaly with the values that
differ, and the text of a failed call is cut after it was redacted. Proved: the
cut brings PII exactly where it falls inside a word right behind what looks like
an identifier, and the whole log is free of PII in every run in which it falls
elsewhere and no path, library message or differing value shows any. -/

namespace LoanAgent

variable {py : Python} {settings : Settings} {s s' : Store} {l l' : Proc py} {a : Action py}
  {c : Service py}

/-- The prompt and the response of a row have no match of any pattern. -/
def AuditLog.Clean (py : Python) (row : AuditLog) : Prop :=
  (∀ t, row.llmPrompt = some t → hasPii py t = false) ∧ ∀ t, row.llmResponse = some t → hasPii py t = false

/-! ### What may show PII -/

/-- A stated and a documented fact of one key differ, and their values, the
document's identifier or the variance shows PII. -/
def differsWithPii (py : Python) (f g : FactContent) : Bool :=
  match f.documentId, g.documentId, reading py f, reading py g with
  | none, some id, .ok s, .ok d => g.key = f.key && match compare py f.key s d id with
    | .ok (some x) => (x.pieces py).any (hasPii py)
    | _ => false
  | _, _, _, _ => false

/-- The cut after 8000 characters falls inside a word, and the characters in front
of it end with what a pattern asks for between its boundaries. -/
def cutsIdentifier (py : Python) (text : Text) : Bool :=
  Rx.headWord py.isWord (text.take 8000).reverse && Rx.headWord py.isWord (text.drop 8000) &&
    (redactionPatterns py).any fun r => Rx.endsIn py.isWord r.1 [] (text.take 8000)

/-- In a text without PII no other cut brings any. -/
theorem hasPii_take {text : Text} (h : hasPii py text = false) :
    hasPii py (text.take 8000) = cutsIdentifier py text := by
  have hbarrier := barrier_bracket py
  have hrule : ∀ r ∈ redactionPatterns py, Rx.occurs py.isWord r.1 [] (text.take 8000) =
      (Rx.headWord py.isWord (text.take 8000).reverse && Rx.headWord py.isWord (text.drop 8000) &&
        Rx.endsIn py.isWord r.1 [] (text.take 8000)) := by
    intro r hr
    have hwhole : Rx.occurs py.isWord r.1 [] (text.take 8000 ++ text.drop 8000) = false := by
      rw [List.take_append_drop]
      exact Bool.eq_false_iff.mpr (List.any_eq_false.mp h r hr)
    have := Rx.occurs_cut (framed_patterns hr) (avoids_patterns hbarrier hr) hwhole
    rwa [List.append_nil] at this
  rw [Bool.eq_iff_iff, cutsIdentifier]
  simp only [hasPii, List.any_eq_true, Bool.and_eq_true]
  constructor
  · rintro ⟨r, hr, hoccurs⟩
    rw [hrule r hr, Bool.and_eq_true, Bool.and_eq_true] at hoccurs
    exact ⟨hoccurs.1, r, hr, hoccurs.2⟩
  · rintro ⟨hcut, r, hr, hends⟩
    exact ⟨r, hr, by rw [hrule r hr, hcut.1, hcut.2, hends]; rfl⟩

/-- The step brings no PII to a text that is stored without redaction: the paths
and the messages that the caught exceptions quote, the facts that are compared,
the cut in the redacted text of a failed call. -/
def bringsNoPii (settings : Settings) (c : Service py) (p : ℕ) (a : Action py) : Bool :=
  match c.procs p, a with
  | .run σ (.parse docs), .parse io => docs.all fun d =>
    d.storedText.isSome || d.cleanQuotes py settings io σ.applicationId
  | .run _ (.degrade e), .commitDegraded _ => !cutsIdentifier py (redactPii py e.text).text
  | .run σ .compare, .selectFacts => (c.shared.db.contentsOf σ.applicationId).all fun f =>
    (c.shared.db.contentsOf σ.applicationId).all fun g => !differsWithPii py f g
  | _, _ => true

/-! ### One step -/

/-- What a run is about to note shows no PII. -/
def Proc.NotesClean : Proc py → Prop
  | .run _ (.messages result) | .run _ (.texts result _) => ∀ e ∈ result.failures, hasPii py e.detail = false
  | .run _ (.degrade _) => True
  | .run _ (.anomalies found) => ∀ x ∈ found, (x.pieces py).any (hasPii py) = false
  | .run _ (.channel missing) | .run _ (.sent missing _) | .run _ (.announce missing _ _) =>
    ∃ facts, missing = missingKeys facts
  | _ => True

theorem Transition.notesClean {p : ℕ} (h : Transition settings c.shared (c.procs p) a s' l')
    (hok : bringsNoPii settings c p a = true) (hl : (c.procs p).NotesClean) : l'.NotesClean := by
  generalize hlp : c.procs p = l at h hl
  cases h with
  | evict | forgotten => exact hl
  | @parsed σ docs io result h =>
    obtain ⟨-, rfl⟩ := ingestDocuments_eq_ok.mp h
    simp only [bringsNoPii, hlp, List.all_eq_true] at hok
    intro e he
    obtain ⟨d, hd, hcaught⟩ := List.mem_filterMap.mp he
    have hquotes := hok d hd
    rw [(caughtError_eq_some.mp hcaught).1, Option.isSome_none, Bool.false_or] at hquotes
    exact hasPii_detail hquotes hcaught
  | messages σ result => exact hl
  | @compared σ found h =>
    simp only [bringsNoPii, hlp, List.all_eq_true, Bool.not_eq_true'] at hok
    intro x hx
    obtain ⟨f, hf, g, hg, s, d, id, hkey, hfd, hgd, hfr, hgr, hc⟩ := mem_findAnomalies h hx
    have := hok f hf g hg
    simpa only [differsWithPii, hfd, hgd, hfr, hgr, hc, hkey, decide_true, Bool.true_and] using this
  | present σ => exact ⟨_, rfl⟩
  | channel σ missing => exact hl
  | sent σ missing channel => exact hl
  | delivered _ _ _ h => rcases h with rfl | rfl <;> trivial
  | _ => trivial

/-- The rows that a commit adds to the audit log. -/
theorem Commit.auditLogs {p : ℕ} {db' : Database} (h : Commit settings c.shared.db (c.procs p) a db')
    (hs : settings.logSecretsRedaction = true) (hok : bringsNoPii settings c p a = true)
    (hl : (c.procs p).NotesClean) :
    ∃ rows, db'.auditLogs = c.shared.db.auditLogs ++ rows ∧ ∀ row ∈ rows, row.Clean py := by
  have hnone : ∀ {db : Database}, db.auditLogs = c.shared.db.auditLogs →
      ∃ rows, db.auditLogs = c.shared.db.auditLogs ++ rows ∧ ∀ row ∈ rows, AuditLog.Clean py row :=
    fun h => ⟨[], by simp [h], nofun⟩
  generalize hlp : c.procs p = l at h hl
  cases h with
  | message h =>
    obtain ⟨-, rfl⟩ := commitDraft_ok h
    exact hnone rfl
  | processing σ => exact hnone (markProcessing_frame rfl).2.2.2
  | @texts σ result stated now _ h =>
    obtain rfl := commitIngest_some h
    refine ⟨_, rfl, fun row hrow => ?_⟩
    obtain ⟨e, he, rfl⟩ := List.mem_map.mp hrow
    exact ⟨nofun, fun t ht => Option.some.inj ht ▸ hl e he⟩
  | @degraded σ e now _ h =>
    obtain ⟨-, rfl⟩ := commitDegraded_some.mp h
    refine ⟨[degradedAudit py σ.applicationId e now], ?_, fun row hrow => ?_⟩
    · simp only [Database.addAudit, (flushStatus_frame σ .manualReview c.shared.db).2.2.2]
    · obtain rfl := List.mem_singleton.mp hrow
      simp only [bringsNoPii, hlp, Bool.not_eq_true'] at hok
      have hcut := (hasPii_take (hasPii_redactPii py e.text)).trans hok
      exact ⟨nofun, fun t ht => Option.some.inj ht ▸ hcut⟩
  | @facts σ call validated deleted ids now facts _ _ h =>
    obtain ⟨-, rfl⟩ := commitFacts_some.mp h
    refine ⟨[extractionAudit σ.applicationId call now], rfl, fun row hrow => ?_⟩
    obtain rfl := List.mem_singleton.mp hrow
    exact ⟨fun t ht => hasPii_extractionAudit _ _ _ (.inl ht), fun t ht => hasPii_extractionAudit _ _ _ (.inr ht)⟩
  | anomalies σ found now =>
    refine ⟨_, rfl, fun row hrow => ?_⟩
    obtain ⟨x, hx, rfl⟩ := List.mem_map.mp hrow
    exact ⟨nofun, fun t ht => Option.some.inj ht ▸ (hasPii_anomalyText py x).trans (hl x hx)⟩
  | chase σ missing channel alreadySent id now =>
    have hflush := (flushStatus_frame σ (chaseStatus missing) c.shared.db).2.2.2
    obtain ⟨facts, rfl⟩ := hl
    unfold commitChase
    dsimp only
    split_ifs
    · exact hnone hflush
    · refine ⟨[chaseSentAudit σ.applicationId now (buildChaseContent (missingKeys facts) channel)], ?_, ?_⟩
      · rw [hflush]
      · intro row hrow
        obtain rfl := List.mem_singleton.mp hrow
        exact ⟨nofun, fun t ht => Option.some.inj ht ▸ hasPii_buildChaseContent py facts channel⟩
  | exported memo now =>
    refine ⟨[losExportAudit py settings memo now], rfl, fun row hrow => ?_⟩
    obtain rfl := List.mem_singleton.mp hrow
    exact ⟨nofun, fun t ht => hasPii_losExportAudit py hs memo now ht⟩

/-! ### Every run -/

/-- With redaction on, the audit log has no PII in a run that brings none to the
texts that are stored without redaction. -/
theorem audit_log_free_of_pii (hs : settings.logSecretsRedaction = true)
    (h : ServiceReaches py settings (fun c p a => bringsNoPii settings c p a = true) c) :
    ∀ row ∈ c.shared.db.auditLogs, row.Clean py := by
  refine (h.invariant (I := fun c => (∀ row ∈ c.shared.db.auditLogs, row.Clean py) ∧
    ∀ p, (c.procs p).NotesClean) ⟨nofun, fun _ => trivial⟩ ?_).1
  rintro c p a s' l' ⟨hlog, hnotes⟩ hok hstep
  have htrans := procStep_transition hstep
  refine ⟨?_, fun q => ?_⟩
  · rcases htrans.commit with hdb | hcommit
    · simpa only [hdb] using hlog
    · obtain ⟨rows, hrows, hclean⟩ := hcommit.auditLogs hs hok (hnotes p)
      intro row hrow
      rw [hrows] at hrow
      exact (List.mem_append.mp hrow).elim (hlog row) (hclean row)
  · by_cases hq : q = p
    · subst hq
      simpa using htrans.notesClean hok (hnotes q)
    · simpa [Function.update_of_ne hq] using hnotes q

/-! ### Two social security numbers -/

/-- The borrower states one number and sends a text with another. -/
def ssnMessage : Request :=
  textRequest "alice".toList "my ssn is 123-45-6789".toList "k1".toList
    [plainAttachment "SUQgOTg3LTY1LTQzMjE=".toList (by decide)] length_alice (by decide) length_k1 (by decide)

/-- A disk on which every file holds `ID 987-65-4321`. -/
def ssnDisk : Io := { sampleIo with read := fun _ => .ok "ID 987-65-4321".toUTF8.toList }

def twoIds : ExtractionResult asciiPython where
  facts := [
    sampleEntity "government_id".toList "123-45-6789".toList "123-45-6789".toList none length_governmentId
      (by decide),
    sampleEntity "government_id".toList "987-65-4321".toList "987-65-4321".toList (some (.ofNat 102))
      length_governmentId (by decide)]
  facts_length := by decide

def differingIds : List (ℕ × Action asciiPython) :=
  intakeSteps 0 ssnMessage 1 ++ extractSteps 0 (.ofNat 100) ssnDisk (answering twoIds) 10 ++
    [factsStep 0 1 10, (0, .selectFacts), (0, .commitAnomalies 11)]

theorem differingIds_in_audit_log :
    sampleSettings.logSecretsRedaction = true ∧
    (∃ row ∈ (serviceAfter (fun _ _ _ => true) differingIds).shared.db.auditLogs,
      row.action = .reconcileAnomaly ∧ row.llmResponse.any (containsText · "123-45-6789".toList) ∧
        row.llmResponse.any (hasPii asciiPython)) ∧
    ServiceReaches asciiPython sampleSettings Interleave.anyStep
      (serviceAfter (fun _ _ _ => true) differingIds) :=
  ⟨rfl, by decide +kernel, Interleave.after_reaches fun _ _ _ _ => trivial⟩

/-- A message without numbers and a whole run. -/
def plainRun : List (ℕ × Action asciiPython) :=
  intakeSteps 0 (aliceHello "k1".toList length_k1) 1 ++
    extractSteps 0 (.ofNat 100) sampleIo (answering requiredFacts) 10 ++ [factsStep 0 1 10] ++
    finishSteps 0 (.ofNat 1900) 11

theorem audit_log_free_of_pii_plainRun :
    (serviceAfter (bringsNoPii sampleSettings) plainRun).shared.db.auditLogs.length = 2 ∧
    ∀ row ∈ (serviceAfter (bringsNoPii sampleSettings) plainRun).shared.db.auditLogs,
      row.Clean asciiPython :=
  ⟨by decide +kernel, audit_log_free_of_pii rfl (Interleave.after_reaches fun _ _ _ h => h)⟩

end LoanAgent
