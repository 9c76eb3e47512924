import LoanAgent.FactSets

/-! The gate of the export. An application is exported when its status is
`ready_for_los`, which the last node of a run sets by the facts it has read; the
facts are replaced by an earlier commit of a run, which leaves the status as it
is, and the export reads them after the status, in an order in which rows of one
key and time stand anyhow. Proved: every memo that is delivered has all required
facts, as long as an extraction that commits into a ready application, or into one
whose export has passed the gate, brings all of them, and the commit that makes an
application ready still finds them. -/

namespace LoanAgent

open Paging

variable {py : Python} {settings : Settings} {s s' : Store} {l l' : Proc py} {a : Action py}
  {c : Service py}

/-- A memo of these facts is complete, or there is none: a fact with a document
makes the export raise. -/
def MemoOk (facts : List FactContent) : Prop :=
  (∀ f ∈ facts, f.documentId = none) → Complete facts

instance (facts : List FactContent) : Decidable (MemoOk facts) :=
  inferInstanceAs (Decidable ((∀ f ∈ facts, f.documentId = none) → Complete facts))

/-- In whatever order the query returns these rows, the memo is complete or there is none. -/
def MemosOk (rows : List ExtractedFact) : Prop :=
  ∀ ordered, Arrangement ExtractedFact.sortKey rows ordered → MemoOk (memoFacts ordered)

/-- The application counts as ready: by its status, or for an export that has read it. -/
def Exportable (c : Service py) (a : Uuid) : Prop :=
  c.shared.db.statusOf a = some .readyForLos ∨ ∃ q x, c.procs q = .exporting (.facts x) ∧ x.id = a

/-- An extraction leaves a ready application with facts for a complete memo, and
a run finds such facts when it makes an application ready. -/
def keepsComplete (c : Service py) (p : ℕ) (a : Action py) : Prop :=
  match c.procs p, a with
  | .run σ (.insert _ validated deleted), .commitFacts ids now =>
    Exportable c σ.applicationId → ∀ facts, newFacts σ.applicationId ids now validated = .ok facts →
      MemosOk ((c.shared.db.replaceFacts deleted facts).factsOf σ.applicationId)
  | .run σ (.announce missing _ _), .commitChase _ _ =>
    missing = [] → σ.status ≠ .readyForLos → MemosOk (c.shared.db.factsOf σ.applicationId)
  | _, _ => True

theorem MemoOk.perm {facts facts' : List FactContent} (h : facts.Perm facts') : MemoOk facts ↔ MemoOk facts' := by
  have hvalue : ∀ k, hasValue facts k = hasValue facts' k := fun k =>
    Bool.eq_iff_iff.mpr (by simp only [hasValue, List.any_eq_true, h.mem_iff])
  simp only [MemoOk, Complete, h.mem_iff, hvalue]

/-- Of no more than fifty facts the order does not matter. -/
theorem memosOk_of_fits {rows : List ExtractedFact} (hcount : rows.length ≤ 50) :
    MemosOk rows ↔ MemoOk (rows.map (·.toFactContent)) := by
  have hall : ∀ ordered, Arrangement ExtractedFact.sortKey rows ordered →
      (memoFacts ordered).Perm (rows.map (·.toFactContent)) := fun ordered h => by
    rw [memoFacts, List.take_of_length_le (h.perm.length_eq.trans_le hcount)]
    exact h.perm.map _
  exact ⟨fun h => (MemoOk.perm (hall _ (arrangement_orderFacts rows))).mp (h _ (arrangement_orderFacts rows)),
    fun h ordered ho => (MemoOk.perm (hall ordered ho)).mpr h⟩

theorem complete_of_memoOk {x : Application} {facts : List FactContent} {stamp : Text} {memo : CreditMemo}
    (hfacts : MemoOk facts) (h : buildCreditMemo py x facts stamp = some memo) : memo.complete := by
  rw [complete_buildCreditMemo h]
  refine hfacts fun f hf => ?_
  unfold buildCreditMemo at h
  split_ifs at h with hdoc
  simp only [List.any_eq_true, not_exists, not_and, Option.not_isSome_iff_eq_none] at hdoc
  exact hdoc f hf

/-! ### One step -/

/-- What an export relies on in its phases. -/
def Proc.ExportOk (db : Database) : Proc py → Prop
  | .exporting (.facts x) => MemosOk (db.factsOf x.id)
  | .exporting (.deliver memo) => memo.complete
  | _ => True

/-- The facts of an application that counts as ready make a complete memo behind the step. -/
theorem Transition.exportable_facts {p : ℕ} (h : Transition settings c.shared (c.procs p) a s' l')
    (hok : keepsComplete c p a) (hextr : (c.procs p).Extracts c.shared) {b : Uuid}
    (hb : Exportable c b) (hfacts : MemosOk (c.shared.db.factsOf b)) : MemosOk (s'.db.factsOf b) := by
  rcases h.facts with ⟨hsame, -⟩ | ⟨σ, call, validated, deleted, ids, now, facts, hl, ha, -, hnew, hdb, -⟩
  · have hkeep : s'.db.factsOf b = c.shared.db.factsOf b := by simp only [Database.factsOf, hsame]
    rwa [hkeep]
  · rw [hl] at hextr
    simp only [keepsComplete, hl, ha] at hok
    rw [hdb]
    by_cases hσ : b = σ.applicationId
    · subst hσ
      exact hok hb facts hnew
    · have hkeep : (c.shared.db.replaceFacts deleted facts).factsOf b = c.shared.db.factsOf b :=
        factsOf_replaceOther hσ (fun u hu => (hextr.2 u hu).2) fun f hf => (mem_newFacts hnew hf).1
      change MemosOk ((c.shared.db.replaceFacts deleted facts).factsOf b)
      rwa [hkeep]

/-- An application that the step makes ready has facts for a complete memo. -/
theorem Transition.ready_facts {p : ℕ} (h : Transition settings c.shared (c.procs p) a s' l')
    (hok : keepsComplete c p a) (hjust : (c.procs p).Justified) {b : Uuid}
    (hb : s'.db.statusOf b = some .readyForLos) :
    c.shared.db.statusOf b = some .readyForLos ∨ MemosOk (s'.db.factsOf b) := by
  have happ : ∀ {db : Database}, s'.db.applications = db.applications → s'.db.statusOf b = db.statusOf b :=
    fun h => by simp only [Database.statusOf, Database.application, h]
  rcases h.commit with hdb | hcommit
  · exact .inl (hdb ▸ hb)
  rcases hcommit.applications with hsame | ⟨r, draft, hl, ha, hnew, hadd⟩ |
    ⟨σ, phase, status, hl, hne, hstatus, hset⟩
  · exact .inl ((happ hsame).symm.trans hb)
  · rw [hl] at hjust
    obtain ⟨draws, db₀, hdraft⟩ := hjust
    simp only [Database.statusOf, Database.application, hadd, List.find?_append] at hb ⊢
    cases hf : c.shared.db.applications.find? (·.id = b) with
    | some x =>
      rw [hf] at hb
      exact .inl hb
    | none =>
      rw [hf, Option.none_or] at hb
      obtain ⟨x, hx, hready⟩ := Option.map_eq_some_iff.mp hb
      obtain rfl := List.mem_singleton.mp (List.mem_of_find?_eq_some hx)
      have hopen := hdraft.isOpen
      rw [Application.isOpen, hready] at hopen
      exact absurd hopen (by decide)
  · rw [happ hset] at hb
    refine (Database.statusOf_setStatus_some hb).symm.imp id ?_
    rintro ⟨rfl, rfl⟩
    rcases hstatus with ⟨hr, -⟩ | ⟨hr, -⟩ | ⟨missing, channel, sent, id, now, hr, rfl, ha⟩
    · cases hr
    · cases hr
    -- The last node leaves the facts as they are.
    have hmissing : missing = [] := by
      by_contra hm
      rw [chaseStatus, if_neg hm] at hr
      cases hr
    simp only [keepsComplete, hl, ha] at hok
    rcases h.facts with ⟨hsame, -⟩ | ⟨_, _, _, _, _, _, _, hl', -⟩
    · have hkeep : s'.db.factsOf σ.applicationId = c.shared.db.factsOf σ.applicationId := by
        simp only [Database.factsOf, hsame]
      rw [hkeep]
      exact hok hmissing hne
    · rw [hl] at hl'
      cases hl'

/-- How a process comes to a phase of an export. -/
theorem Transition.exports (h : Transition settings s l a s' l') :
    (s'.delivered = s.delivered ∧
      ((∀ phase, l' ≠ .exporting phase) ∨ l' = l ∧ s'.db = s.db ∨
        (∃ x, l' = .exporting (.facts x) ∧ s.db.application x.id = some x ∧ x.status = .readyForLos ∧
          s'.db = s.db) ∨
        ∃ x ordered stamp memo, l = .exporting (.facts x) ∧ l' = .exporting (.deliver memo) ∧
          Arrangement ExtractedFact.sortKey (s.db.factsOf x.id) ordered ∧
          buildCreditMemo py x (memoFacts ordered) stamp = some memo)) ∨
    ∃ memo, l = .exporting (.deliver memo) ∧ s'.delivered = memo :: s.delivered ∧
      (l' = .idle ∨ l' = .exporting (.audit memo)) := by
  cases h with
  | evict | forgotten => exact .inl ⟨rfl, .inr (.inl ⟨rfl, rfl⟩)⟩
  | gated h hready =>
    exact .inl ⟨rfl, .inr (.inr (.inl ⟨_, rfl, (Database.application_id h).symm ▸ h, hready, rfl⟩))⟩
  | memo horder h => exact .inl ⟨rfl, .inr (.inr (.inr ⟨_, _, _, _, rfl, rfl, horder, h⟩))⟩
  | delivered memo _ _ hl => exact .inr ⟨memo, rfl, rfl, hl⟩
  | _ => exact .inl ⟨rfl, .inl nofun⟩

/-! ### Every run -/

/-- What the gate relies on. -/
structure GateOk (c : Service py) : Prop where
  ready : ∀ b, c.shared.db.statusOf b = some .readyForLos → MemosOk (c.shared.db.factsOf b)
  exports : ∀ q, (c.procs q).ExportOk c.shared.db
  delivered : ∀ memo ∈ c.shared.delivered, memo.complete

theorem GateOk.exportable (h : GateOk c) {b : Uuid} (hb : Exportable c b) :
    MemosOk (c.shared.db.factsOf b) := by
  rcases hb with hb | ⟨q, x, hq, rfl⟩
  · exact h.ready b hb
  · simpa only [Proc.ExportOk, hq] using h.exports q

theorem GateOk.step {p : ℕ} (hc : GateOk c) (h : Transition settings c.shared (c.procs p) a s' l')
    (hok : keepsComplete c p a) (hjust : (c.procs p).Justified) (hextr : (c.procs p).Extracts c.shared) :
    GateOk ⟨s', Function.update c.procs p l'⟩ := by
  have hkeep : ∀ {b}, Exportable c b → MemosOk (s'.db.factsOf b) := fun hb =>
    h.exportable_facts hok hextr hb (hc.exportable hb)
  have hother : ∀ q, (c.procs q).ExportOk s'.db := by
    intro q
    have hq := hc.exports q
    unfold Proc.ExportOk at hq ⊢
    split
    next x heq => exact hkeep (.inr ⟨q, x, heq, rfl⟩)
    next memo heq => simpa only [heq] using hq
    · trivial
  have hown : l'.ExportOk s'.db ∧ ∀ memo ∈ s'.delivered, memo.complete := by
    rcases h.exports with ⟨hdel, hl⟩ | ⟨memo, hl, hdel, hl'⟩
    · refine ⟨?_, hdel ▸ hc.delivered⟩
      rcases hl with hnone | ⟨rfl, -⟩ | ⟨x, rfl, hx, hready, -⟩ |
        ⟨x, ordered, stamp, memo, hl, rfl, horder, hmemo⟩
      · cases l' with
        | exporting phase => exact absurd rfl (hnone phase)
        | _ => trivial
      · exact hother p
      · exact hkeep (.inl (Option.map_eq_some_iff.mpr ⟨x, hx, hready⟩))
      · exact complete_of_memoOk (hc.exportable (.inr ⟨p, x, hl, rfl⟩) ordered horder) hmemo
    · have hmemo : memo.complete := by simpa only [hl, Proc.ExportOk] using hc.exports p
      refine ⟨by rcases hl' with rfl | rfl <;> trivial, fun m hm => ?_⟩
      rw [hdel] at hm
      exact (List.mem_cons.mp hm).elim (fun he => he ▸ hmemo) (hc.delivered m)
  refine ⟨fun b hb => ?_, fun q => ?_, hown.2⟩
  · exact (h.ready_facts hok hjust hb).elim (fun hb => hkeep (.inl hb)) id
  · by_cases hq : q = p
    · subst hq
      simpa using hown.1
    · simpa [Function.update_of_ne hq] using hother q

/-- Every delivered memo is complete in a run that keeps the facts of ready
applications complete. -/
theorem delivered_memos_complete (h : ServiceReaches py settings keepsComplete c) :
    ∀ memo ∈ c.shared.delivered, memo.complete := by
  have h0 : GateOk (initial py) := ⟨fun _ => nofun, fun _ => trivial, nofun⟩
  refine (((h.assuming (I := fun c => ∀ p, (c.procs p).Justified) fun h => justified_of_reaches h).assuming
    (I := fun c => ∀ p, (c.procs p).Extracts c.shared) fun h => extracts_of_reaches h).invariant h0 ?_).delivered
  rintro c p a s' l' hc ⟨⟨hok, hjust⟩, hextr⟩ hs
  exact hc.step (procStep_transition hs) hok (hjust p) (hextr p)

/-! ### An incomplete memo -/

/-- What a run finds in a message that states the address only. -/
def addressOnly : ExtractionResult asciiPython where
  facts := [sampleEntity "address".toList "x".toList "x".toList none length_address length_x]
  facts_length := by decide

/-- Two messages queue two runs. The first makes the application ready; the
second, whose model finds the address only, has committed its facts when the
export comes. -/
def exportAmidRun : List (ℕ × Action asciiPython) :=
  intakeSteps 0 (aliceHello "k1".toList length_k1) 1 ++
    intakeSteps 0 (aliceHello "k2".toList length_k2) 2 ++
    extractSteps 0 (.ofNat 100) sampleIo (answering requiredFacts) 10 ++ [factsStep 0 1 10] ++
    finishSteps 0 (.ofNat 1900) 11 ++
    extractSteps 0 (.ofNat 100) sampleIo (answering addressOnly) 12 ++ [factsStep 0 2 12] ++
    [(1, .requestExport (.ofNat 100)), (1, .selectMemo orderFacts []), (1, .deliver true)]

theorem exportAmidRun_incomplete :
    ((serviceAfter (fun _ _ _ => true) exportAmidRun).shared.delivered.map fun memo =>
      decide memo.complete) = [false] ∧
    ServiceReaches asciiPython sampleSettings Interleave.anyStep
      (serviceAfter (fun _ _ _ => true) exportAmidRun) :=
  ⟨by decide +kernel, Interleave.after_reaches fun _ _ _ _ => trivial⟩

/-- The rows are few and make a complete memo. -/
def rowsSuffice (rows : List ExtractedFact) : Bool :=
  rows.length ≤ 50 ∧ MemoOk (rows.map (·.toFactContent))

theorem memosOk_of_rowsSuffice {rows : List ExtractedFact} (h : rowsSuffice rows = true) : MemosOk rows :=
  (memosOk_of_fits (of_decide_eq_true h).1).mpr (of_decide_eq_true h).2

/-- A test for `keepsComplete` that does not ask whether the application counts as ready. -/
def factsSuffice (c : Service py) (p : ℕ) (a : Action py) : Bool :=
  match c.procs p, a with
  | .run σ (.insert _ validated deleted), .commitFacts ids now =>
    match newFacts σ.applicationId ids now validated with
    | .ok facts => rowsSuffice ((c.shared.db.replaceFacts deleted facts).factsOf σ.applicationId)
    | .error _ => true
  | .run σ (.announce missing _ _), .commitChase _ _ =>
    missing ≠ [] || rowsSuffice (c.shared.db.factsOf σ.applicationId)
  | _, _ => true

theorem keepsComplete_of_factsSuffice {p : ℕ} (h : factsSuffice c p a = true) : keepsComplete c p a := by
  unfold factsSuffice at h
  unfold keepsComplete
  split at h
  · intro _ facts hnew
    rw [hnew] at h
    exact memosOk_of_rowsSuffice h
  · intro hm _
    exact memosOk_of_rowsSuffice (by simpa [hm] using h)
  · trivial

/-- One message, one run and the export behind it. -/
def exportAfterRun : List (ℕ × Action asciiPython) :=
  intakeSteps 0 (aliceHello "k1".toList length_k1) 1 ++
    extractSteps 0 (.ofNat 100) sampleIo (answering requiredFacts) 10 ++ [factsStep 0 1 10] ++
    finishSteps 0 (.ofNat 1900) 11 ++
    [(1, .requestExport (.ofNat 100)), (1, .selectMemo orderFacts []), (1, .deliver true)]

theorem delivered_memos_complete_afterRun :
    (serviceAfter factsSuffice exportAfterRun).shared.delivered.length = 1 ∧
    ∀ memo ∈ (serviceAfter factsSuffice exportAfterRun).shared.delivered, memo.complete :=
  ⟨by decide +kernel, delivered_memos_complete
    (Interleave.after_reaches fun _ _ _ h => keepsComplete_of_factsSuffice h)⟩

end LoanAgent
