import LoanAgent.Reachability

/-! The open applications of a borrower. Intake looks for one and files a message
under it or under a new one, in two steps that nothing holds together; and a run
may set an application back to an open status after it was closed and another
was opened. Proved: as long as every step that opens an application finds no
open one of its borrower, no borrower ever has two; both kinds of steps occur
without it. -/

namespace LoanAgent

variable {py : Python} {settings : Settings} {c : Service py}

/-- An update to an open status of this application leaves its borrower with one. -/
def reopensAlone (db : Database) (a : Uuid) : Bool :=
  match db.application a with
  | none => true
  | some x => x.isOpen || (db.openApplications x.externalBorrowerId).isEmpty

/-- If the step opens an application, its borrower has no other open one: the
commit of a new application, and the updates to `processing`, `manual_review` and
`pending_docs`. -/
def opensAlone (c : Service py) (p : ℕ) (a : Action py) : Bool :=
  match c.procs p, a with
  | .request r (.commit draft), .commitMessage =>
    !draft.isNew || (c.shared.db.openApplications (r.borrower py)).isEmpty
  | .run σ .mark, .markProcessing => σ.status ≠ .pendingDocs || reopensAlone c.shared.db σ.applicationId
  | .run σ (.degrade _), .commitDegraded _ =>
    σ.status = .manualReview || reopensAlone c.shared.db σ.applicationId
  | .run σ (.announce missing _ _), .commitChase _ _ =>
    missing = [] || σ.status = .pendingDocs || reopensAlone c.shared.db σ.applicationId
  | _, _ => true

/-- At most one open application for each borrower. -/
def OneOpen (db : Database) : Prop := ∀ borrower, (db.openApplications borrower).length ≤ 1

/-- A status is set in one row, where identifiers are unique. -/
theorem setStatus_split {db : Database} (hk : (db.applications.map (·.id)).Nodup) (a : Uuid)
    (status : ApplicationStatus) :
    (db.setStatus a status).applications = db.applications ∨
    ∃ before x after, db.applications = before ++ x :: after ∧ db.application a = some x ∧
      (db.setStatus a status).applications = before ++ { x with status := status } :: after := by
  by_cases ha : ∃ x ∈ db.applications, x.id = a
  · obtain ⟨x, hx, rfl⟩ := ha
    obtain ⟨before, after, hsplit⟩ := List.append_of_mem hx
    rw [hsplit, List.map_append, List.map_cons, List.nodup_append, List.nodup_cons] at hk
    obtain ⟨-, ⟨hafter, -⟩, hbefore⟩ := hk
    have hb : ∀ y ∈ before, y.id ≠ x.id := fun y hy =>
      hbefore y.id (List.mem_map_of_mem hy) x.id List.mem_cons_self
    have ha : ∀ y ∈ after, y.id ≠ x.id := fun y hy he => hafter (List.mem_map.mpr ⟨y, hy, he⟩)
    refine .inr ⟨before, x, after, hsplit, ?_, ?_⟩
    · rw [Database.application, hsplit, List.find?_append, List.find?_eq_none.mpr fun y hy => by simpa using hb y hy]
      simp
    · simp only [Database.setStatus, hsplit, List.map_append, List.map_cons, if_true]
      rw [List.map_congr_left fun y hy => if_neg (hb y hy), List.map_congr_left fun y hy => if_neg (ha y hy)]
      simp
  · refine .inl ?_
    simp only [Database.setStatus]
    conv_rhs => rw [← List.map_id db.applications]
    exact List.map_congr_left fun x hx => if_neg fun he => ha ⟨x, hx, he⟩

/-- Setting a status keeps the bound, if it does not open a second application. -/
theorem OneOpen.setStatus {db : Database} (h : OneOpen db) (hk : (db.applications.map (·.id)).Nodup)
    (a : Uuid) (status : ApplicationStatus)
    (hfree : status ∈ openStatuses → reopensAlone db a = true) : OneOpen (db.setStatus a status) := by
  intro borrower
  rcases setStatus_split hk a status with hsame | ⟨before, x, after, hsplit, hx, hset⟩
  · simpa only [Database.openApplications, hsame] using h borrower
  · have hb := h borrower
    simp only [Database.openApplications, hset, hsplit, List.filter_append, List.filter_cons] at hb ⊢
    split_ifs at hb ⊢ with h1 h2 h2 <;> try (simp only [List.length_append, List.length_cons] at hb ⊢; omega)
    -- The row was closed and is open now: its borrower had no open one.
    simp only [decide_eq_true_eq] at h1 h2
    have hnone := hfree (by simpa [Application.isOpen] using h1.2)
    have hclosed : x.isOpen = false := by simpa [h1.1] using h2
    simp only [reopensAlone, hx, hclosed, Bool.false_or, List.isEmpty_iff, Database.openApplications,
      h1.1, hsplit, List.filter_append, List.filter_cons, List.append_eq_nil_iff] at hnone
    obtain ⟨hbefore, hafter⟩ := hnone
    rw [if_neg (by simp)] at hafter
    rw [hbefore, hafter]
    exact le_rfl

theorem OneOpen.congr {db db' : Database} (h : OneOpen db) (happs : db'.applications = db.applications) :
    OneOpen db' := by
  intro borrower
  simpa only [Database.openApplications, happs] using h borrower

/-- One step. -/
theorem Commit.oneOpen {p : ℕ} {a : Action py} {db' : Database}
    (h : Commit settings c.shared.db (c.procs p) a db') (hjust : (c.procs p).Justified)
    (hk : (c.shared.db.applications.map (·.id)).Nodup) (hok : opensAlone c p a = true)
    (hs : OneOpen c.shared.db) : OneOpen db' := by
  rcases h.applications with happs | ⟨r, draft, hl, ha, hnew, happs⟩ | ⟨σ, phase, status, hl, hne, hstatus, happs⟩
  · exact hs.congr happs
  · rw [hl] at hjust
    obtain ⟨draws, db₀, hdraft⟩ := hjust
    simp only [opensAlone, hl, ha, hnew, Bool.not_true, Bool.false_or, List.isEmpty_iff] at hok
    intro borrower
    have hb := hs borrower
    simp only [Database.openApplications, happs, List.filter_append, List.length_append] at hb ⊢
    by_cases hborrower : r.borrower py = borrower
    · subst hborrower
      rw [Database.openApplications] at hok
      rw [hok]
      simpa using List.length_filter_le _ [draft.application]
    · rw [List.filter_cons_of_neg (by simp [hdraft.borrower, hborrower])]
      simpa using hb
  · refine OneOpen.congr (hs.setStatus hk σ.applicationId status fun hopen => ?_) happs
    rcases hstatus with ⟨rfl, hp, rfl, rfl⟩ | ⟨rfl, ⟨e, rfl⟩, ⟨now, rfl⟩⟩ |
      ⟨missing, channel, sent, id, now, rfl, rfl, rfl⟩
    · simpa [opensAlone, hl, hp] using hok
    · simpa [opensAlone, hl, hne] using hok
    · have hmissing : missing ≠ [] := by
        rintro rfl
        exact absurd hopen (by decide)
      rw [chaseStatus, if_neg hmissing] at hne
      simpa [opensAlone, hl, hmissing, hne] using hok

/-- No borrower has two open applications in a run whose steps open one only
where there is none. -/
theorem one_open_application (h : ServiceReaches py settings (fun c p a => opensAlone c p a = true) c) :
    OneOpen c.shared.db := by
  refine ((h.assuming (I := fun c => ∀ p, (c.procs p).Justified) fun h => justified_of_reaches h).assuming
    (I := fun c => KeysUnique c.shared.db) fun h => ?_).invariant (I := fun c => OneOpen c.shared.db)
    (fun _ => Nat.zero_le _) ?_
  · exact keysUnique_of_reaches (h.mono fun _ _ _ h => h.1)
  · rintro c p a s' l' hc ⟨⟨hok, hjust⟩, hk⟩ hs
    rcases (procStep_transition hs).commit with hdb | hcommit
    · simpa only [hdb] using hc
    · exact hcommit.oneOpen (hjust p) hk.applications hok hc

/-! ### Two open applications -/

/-- Two first messages of a borrower, both looked up before either is committed. -/
def racingMessages : List (ℕ × Action asciiPython) :=
  [(0, .receive (aliceHello "k1".toList length_k1)), (0, .lookup true), (0, .draft (sampleIntake 1)),
    (1, .receive (aliceHello "k2".toList length_k2)), (1, .lookup true), (1, .draft (sampleIntake 2)),
    (0, .commitMessage), (1, .commitMessage)]

/-- Two messages queue two runs; the first closes the application, the next
message opens another one, and the second run, whose model times out, puts the
first back under review. -/
def reopenedApplication : List (ℕ × Action asciiPython) :=
  intakeSteps 0 (aliceHello "k1".toList length_k1) 1 ++
    intakeSteps 0 (aliceHello "k2".toList length_k2) 2 ++
    extractSteps 0 (.ofNat 100) sampleIo (answering requiredFacts) 10 ++ [factsStep 0 1 10] ++
    finishSteps 0 (.ofNat 1900) 11 ++
    intakeSteps 0 (aliceHello "k3".toList (by decide)) 3 ++
    [(0, .startRun (.ofNat 100)), (0, .markProcessing), (0, .selectDocuments), (0, .parse sampleIo),
      (0, .selectMessages), (0, .commitTexts 12), (0, .ask silent), (0, .commitDegraded 13)]

theorem alice_has_two_open_applications :
    ((serviceAfter (fun _ _ _ => true) racingMessages).shared.db.openApplications "alice".toList).length = 2 ∧
    ((serviceAfter (fun _ _ _ => true) reopenedApplication).shared.db.openApplications
      "alice".toList).length = 2 ∧
    ServiceReaches asciiPython sampleSettings Interleave.anyStep
      (serviceAfter (fun _ _ _ => true) racingMessages) ∧
    ServiceReaches asciiPython sampleSettings Interleave.anyStep
      (serviceAfter (fun _ _ _ => true) reopenedApplication) :=
  ⟨by decide +kernel, by decide +kernel, Interleave.after_reaches fun _ _ _ _ => trivial,
    Interleave.after_reaches fun _ _ _ _ => trivial⟩

/-- One message after the other, with a run between them. -/
def patientMessages : List (ℕ × Action asciiPython) :=
  intakeSteps 0 (aliceHello "k1".toList length_k1) 1 ++
    extractSteps 0 (.ofNat 100) sampleIo (answering requiredFacts) 10 ++ [factsStep 0 1 10] ++
    finishSteps 0 (.ofNat 1900) 11 ++ intakeSteps 0 (aliceHello "k2".toList length_k2) 2

theorem one_open_application_patient :
    (serviceAfter opensAlone patientMessages).shared.db.applications.length = 2 ∧
    OneOpen (serviceAfter opensAlone patientMessages).shared.db :=
  ⟨by decide +kernel, one_open_application (Interleave.after_reaches fun _ _ _ h => h)⟩

end LoanAgent
