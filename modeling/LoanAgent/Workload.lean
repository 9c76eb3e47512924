import LoanAgent.Integrity
import LoanAgent.Library.Ledger
import LoanAgent.RetryLoop

/-! How much the service does for what it is asked. A webhook request that is not
answered from the cache starts a run, and a run goes through its nodes once; no
step of a run queues another. Proved: for any order of the steps, the steps, the
calls of the model with all their retries, the messages to borrowers and the
deliveries are bounded by the requests; and in a schedule that is worked off
without a crash between a commit and its answer and without the loss of a queued
run, every message that was committed has been followed by the start of a run
that finds it. -/

namespace LoanAgent

variable {py : Python} {settings : Settings} {s s' : Store} {l l' : Proc py} {a : Action py}
  {c d : Service py}

/-! ### Work and what it is done for -/

/-- Steps, model calls, messages to borrowers and deliveries to the core bank. -/
abbrev Tally := ℕ × ℕ × ℕ × ℕ

section Work
variable (settings : Settings)

/-- How often `extract_facts` calls the provider. -/
def modelCalls (llm : Llm py) (sources : List SourceText) : ℕ :=
  if sources = [] then 0
  else (retryCalls py settings (llm.attempt (buildUserPrompt sources))).events.count .call

/-- The calls of the provider in one step. -/
def Proc.calls (llm : Llm py) : Proc py → ℕ
  | .run _ (.ask sources) => modelCalls settings llm sources
  | _ => 0

/-- The messages that a step writes to the borrower. -/
def Proc.chases : Proc py → ℕ
  | .run _ (.announce _ _ alreadySent) => if alreadySent then 0 else 1
  | _ => 0

/-- What a step does in the state of its process. -/
def Action.work (l : Proc py) : Action py → Tally
  | .receive _ | .requestExport _ | .evict _ | .forget _ | .crash => 0
  | .ask llm => (1, l.calls settings llm, 0, 0)
  | .commitChase _ _ => (1, 0, l.chases, 0)
  | .deliver _ => (1, 0, 0, 1)
  | _ => (1, 0, 0, 0)

/-- A request may take 20 steps, an answer stand for one message and for one call and
its retries, and an export take three steps and one delivery. -/
def Action.allowance : Action py → Tally
  | .receive _ => (20, 0, 0, 0)
  | .respond _ => (0, settings.llmMaxRetries + 1, 1, 0)
  | .requestExport _ => (3, 0, 0, 1)
  | _ => 0

/-- What a process may still do before it is idle again. -/
def Proc.pending : Proc py → Tally
  | .idle => 0
  | .request _ .lookup => (20, 0, 0, 0)
  | .request _ .draft => (19, 0, 0, 0)
  | .request _ (.commit _) => (18, 0, 0, 0)
  | .request _ .replay => (17, 0, 0, 0)
  | .request _ (.respond _) => (16, 0, 0, 0)
  | .run _ .mark => (14, settings.llmMaxRetries + 1, 1, 0)
  | .run _ .documents => (13, settings.llmMaxRetries + 1, 1, 0)
  | .run _ (.parse _) => (12, settings.llmMaxRetries + 1, 1, 0)
  | .run _ (.messages _) => (11, settings.llmMaxRetries + 1, 1, 0)
  | .run _ (.texts _ _) => (10, settings.llmMaxRetries + 1, 1, 0)
  | .run _ (.ask _) => (9, settings.llmMaxRetries + 1, 1, 0)
  | .run _ (.degrade _) => (1, 0, 0, 0)
  | .run _ (.delete _ _) => (8, 0, 1, 0)
  | .run _ (.insert _ _ _) => (7, 0, 1, 0)
  | .run _ .compare => (6, 0, 1, 0)
  | .run _ (.anomalies _) => (5, 0, 1, 0)
  | .run _ .present => (4, 0, 1, 0)
  | .run _ (.channel _) => (3, 0, 1, 0)
  | .run _ (.sent _ _) => (2, 0, 1, 0)
  | .run _ (.announce _ _ _) => (1, 0, 1, 0)
  | .exporting (.facts _) => (3, 0, 0, 1)
  | .exporting (.deliver _) => (2, 0, 0, 1)
  | .exporting (.audit _) => (1, 0, 0, 0)

/-- What a run may do from its start on. -/
def runWork : Tally := (15, settings.llmMaxRetries + 1, 1, 0)

def Store.pending (s : Store) : Tally := s.queue.length • runWork settings

end Work

@[simp] theorem Proc.pending_idle : (.idle : Proc py).pending settings = 0 := rfl

theorem modelCalls_le (llm : Llm py) (sources : List SourceText) :
    modelCalls settings llm sources ≤ settings.llmMaxRetries + 1 := by
  unfold modelCalls
  split_ifs
  · exact Nat.zero_le _
  · exact (count_call_retryLoop ..).trans_eq List.length_range

theorem Store.pending_of_queue (h : s'.queue = s.queue) : s'.pending settings = s.pending settings := by
  rw [Store.pending, h, Store.pending]

theorem pending_push {b : Uuid} (h : s'.queue = s.queue ++ [b]) :
    s'.pending settings = s.pending settings + runWork settings := by
  rw [Store.pending, Store.pending, h, List.length_append, List.length_singleton, succ_nsmul]

theorem pending_erase {b : Uuid} (hb : b ∈ s.queue) (h : s'.queue = s.queue.erase b) :
    s.pending settings = s'.pending settings + runWork settings := by
  rw [Store.pending, Store.pending, h, ← List.length_erase_add_one hb, succ_nsmul]

/-- What a step does and leaves to do was left to do before or is allowed for it. -/
def Accounted (settings : Settings) (s : Store) (l : Proc py) (a : Action py) (s' : Store) (l' : Proc py) : Prop :=
  a.work settings l + (s'.pending settings + l'.pending settings) ≤
    s.pending settings + l.pending settings + a.allowance settings

/-- The account of a step that leaves the queue alone. -/
theorem account_of_queue (hq : s'.queue = s.queue)
    (h : a.work settings l + l'.pending settings ≤ l.pending settings + a.allowance settings) :
    Accounted settings s l a s' l' := by
  rw [Accounted, Store.pending_of_queue hq, add_left_comm, add_assoc]
  gcongr

/-- A run is lost from the queue. -/
theorem account_forget (l : Proc py) (b : Uuid) :
    Accounted settings s l (.forget b) { s with queue := s.queue.erase b } l := by
  by_cases hb : b ∈ s.queue
  · have hpending : s.pending settings =
        Store.pending settings { s with queue := s.queue.erase b } + runWork settings :=
      pending_erase hb rfl
    have hwork : (Action.forget b).work settings l = 0 := rfl
    have hallowed : (Action.forget b : Action py).allowance settings = 0 := rfl
    rw [Accounted, hpending, hwork, hallowed, zero_add, add_zero]
    gcongr
    exact le_add_of_nonneg_right zero_le
  · exact account_of_queue (List.erase_of_not_mem hb) (by simp [Action.work, Action.allowance])

theorem queue_issue {t : Store} {ids : List Uuid} (h : s.issue ids = some t) : t.queue = s.queue := by
  obtain ⟨-, rfl⟩ := issue_some.mp h
  rfl

theorem requestStep_account {r : Request} {phase : RequestPhase}
    (h : requestStep settings s r phase a = some (s', l')) : Accounted settings s (.request r phase) a s' l' := by
  unfold requestStep at h
  split at h
  · split at h <;> cases h <;> exact account_of_queue rfl (by simp [Action.work, Action.allowance, Proc.pending])
  · obtain ⟨t, ht, h⟩ := Option.map_eq_some_iff.mp h
    have hq : t.queue = s.queue := queue_issue ht
    dsimp only at h
    split at h <;> cases h <;> exact account_of_queue hq (by simp [Action.work, Action.allowance, Proc.pending])
  · split at h <;> cases h <;> exact account_of_queue rfl (by simp [Action.work, Action.allowance, Proc.pending])
  · split at h <;> cases h <;> exact account_of_queue rfl (by simp [Action.work, Action.allowance, Proc.pending])
  next ack available =>
    have hone : (Action.respond available : Action py).work settings (.request r (.respond ack)) +
        (runWork settings + 0) ≤ (.request r (.respond ack) : Proc py).pending settings +
          (Action.respond available : Action py).allowance settings := by
      simp [Action.work, Action.allowance, Proc.pending, runWork]
    cases h
    rw [Accounted, pending_push (s := s) rfl, add_assoc (s.pending settings), add_left_comm,
      add_assoc (s.pending settings)]
    exact add_le_add_right hone _
  · cases h

theorem runStep_account {σ : Session} {phase : RunPhase py}
    (h : runStep settings s σ phase a = some (s', l')) : Accounted settings s (.run σ phase) a s' l' := by
  unfold runStep at h
  split at h
  case h_6 sources llm =>
    have hcalls := @modelCalls_le _ settings llm sources
    split at h <;> cases h <;>
      exact account_of_queue rfl (by simp [Action.work, Action.allowance, Proc.pending, Proc.calls, hcalls])
  case h_9 =>
    obtain ⟨t, ht, h⟩ := Option.map_eq_some_iff.mp h
    have hq := queue_issue ht
    split at h
    · cases h
      exact account_of_queue hq (by simp [Action.work, Action.allowance, Proc.pending])
    · split at h <;> cases h <;> exact account_of_queue hq (by simp [Action.work, Action.allowance, Proc.pending])
  case h_15 missing channel alreadySent id now =>
    obtain ⟨t, ht, h⟩ := Option.map_eq_some_iff.mp h
    have hq : t.queue = s.queue := queue_issue ht
    cases h
    exact account_of_queue hq
      (by cases alreadySent <;> simp [Action.work, Action.allowance, Proc.pending, Proc.chases])
  all_goals try split at h
  all_goals cases h
  all_goals exact account_of_queue rfl (by simp [Action.work, Action.allowance, Proc.pending])

theorem exportStep_account {phase : ExportPhase} (h : exportStep settings s phase a = some (s', l')) :
    Accounted settings s (.exporting phase) a s' l' := by
  unfold exportStep at h
  split at h
  · dsimp only at h
    split_ifs at h
    split at h <;> cases h <;> exact account_of_queue rfl (by simp [Action.work, Action.allowance, Proc.pending])
  · cases h
    split_ifs <;> exact account_of_queue rfl (by simp [Action.work, Action.allowance, Proc.pending])
  · cases h
    refine account_of_queue ?_ (by simp [Action.work, Action.allowance, Proc.pending])
    split_ifs <;> rfl
  · cases h

theorem procStep_account (h : procStep settings s l a = some (s', l')) : Accounted settings s l a s' l' := by
  unfold procStep at h
  split at h
  · cases h
    exact account_of_queue rfl (by simp [Action.work, Action.allowance])
  · cases h
    exact account_of_queue rfl (by simp [Action.work, Action.allowance])
  · cases h
    exact account_forget _ _
  · cases h
    exact account_of_queue rfl (by simp [Action.work, Action.allowance, Proc.pending])
  next b =>
    split_ifs at h with hmem
    have hpending : s.pending settings =
        Store.pending settings { s with queue := s.queue.erase b } + runWork settings := pending_erase hmem rfl
    have hone : ∀ l : Proc py, l.pending settings ≤ (14, settings.llmMaxRetries + 1, 1, 0) →
        Accounted settings s .idle (.startRun b) { s with queue := s.queue.erase b } l := fun l hl => by
      have hrun : (Action.startRun b).work settings (.idle : Proc py) + l.pending settings ≤ runWork settings :=
        calc (Action.startRun b).work settings (.idle : Proc py) + l.pending settings
            ≤ (1, 0, 0, 0) + (14, settings.llmMaxRetries + 1, 1, 0) := add_le_add_right hl _
          _ = runWork settings := by simp [runWork]
      rw [Accounted, hpending, add_left_comm, add_assoc, add_assoc]
      exact add_le_add_right (hrun.trans (le_add_of_nonneg_right zero_le)) _
    dsimp only at h
    split at h <;> cases h
    · exact hone _ (by simp)
    · exact hone _ le_rfl
  · split at h
    · cases h
      exact account_of_queue rfl (by simp [Action.work, Action.allowance])
    · split_ifs at h <;> cases h <;>
        exact account_of_queue rfl (by simp [Action.work, Action.allowance, Proc.pending])
  · cases h
  · exact requestStep_account h
  · exact runStep_account h
  · exact exportStep_account h

/-- What the steps of a schedule do. -/
def workDone (settings : Settings) (schedule : List (ℕ × Action py)) : Tally :=
  Interleave.spent (procStep settings) (fun l a => a.work settings l) (initial py) schedule

/-- Whatever the order of the steps, what is done is covered by what was asked for. -/
theorem work_bounded {test : Service py → ℕ → Action py → Bool} {schedule : List (ℕ × Action py)}
    (h : Interleave.execute (procStep settings) test (initial py) schedule = some c) :
    workDone settings schedule ≤ (schedule.map fun e => e.2.allowance settings).sum := by
  have haccount := Interleave.execute_account (Store.pending settings) (Proc.pending settings)
    (fun l a => a.work settings l) (Action.allowance settings)
    (fun _ _ _ _ _ => procStep_account) (P := (schedule.map (·.1)).toFinset)
    (fun e he => List.mem_toFinset.mpr (List.mem_map_of_mem he)) h
  have hidle : Interleave.held (Proc.pending settings) (initial py).procs (schedule.map (·.1)).toFinset = 0 :=
    Interleave.held_eq_zero (fun _ => rfl) _
  have hqueue : (initial py).shared.pending settings = 0 := zero_nsmul _
  rw [hidle, hqueue, zero_add, zero_add] at haccount
  exact (le_add_of_nonneg_right zero_le).trans haccount

/-! ### No message is forgotten -/

/-- Some process is about to answer a request with the application. -/
def Service.Answering (c : Service py) (b : Uuid) : Prop :=
  ∃ p r ack, c.procs p = .request r (.respond ack) ∧ ack.applicationId = b

/-- A run that finds the message is still to come. -/
structure Service.Owes (c : Service py) (m : Communication) : Prop where
  stored : m ∈ c.shared.db.communications
  coming : m.applicationId ∈ c.shared.queue ∨ c.Answering m.applicationId

/-- The queue loses the application of a run that starts, or of one that is lost. -/
theorem mem_queue {b : Uuid} (h : procStep settings s l a = some (s', l')) (ha : a ≠ .startRun b)
    (hforget : ∀ u, a ≠ .forget u) (hb : b ∈ s.queue) : b ∈ s'.queue := by
  have htrans := procStep_transition h
  cases htrans with
  | answered => exact List.mem_append_left _ hb
  | vanished | started => exact (List.mem_erase_of_ne fun hb => ha (congrArg _ hb.symm)).mpr hb
  | forgotten _ u => exact absurd rfl (hforget u)
  | _ => exact hb

/-- A process that is about to answer queues the run unless it crashes. -/
theorem queued_of_answering {r : Request} {ack : WebhookAck}
    (h : procStep settings s (.request r (.respond ack)) a = some (s', l')) (ha : a ≠ .crash) :
    l' = .request r (.respond ack) ∨ ack.applicationId ∈ s'.queue := by
  cases a with
  | crash => exact absurd rfl ha
  | evict | forget =>
    cases h
    exact .inl rfl
  | respond available =>
    cases h
    exact .inr (List.mem_append_right _ List.mem_cons_self)
  | _ => cases h

theorem Service.Owes.step {m : Communication} {p : ℕ} (hc : c.Owes m)
    (hcrash : ∀ r ack, c.procs p = .request r (.respond ack) → a ≠ .crash) (hforget : ∀ u, a ≠ .forget u)
    (ha : a ≠ .startRun m.applicationId) (hs : Interleave.next (procStep settings) c p a = some d) :
    d.Owes m := by
  obtain ⟨s, l, hstep, rfl⟩ := Interleave.next_eq_some hs
  refine ⟨(procStep_transition hstep).extends.db.communications.subset hc.stored, ?_⟩
  rcases hc.coming with hq | ⟨q, r, ack, hq, hb⟩
  · exact .inl (mem_queue hstep ha hforget hq)
  by_cases hqp : q = p
  · subst hqp
    rw [hq] at hstep
    rcases queued_of_answering hstep (hcrash r ack hq) with rfl | hmem
    · exact .inr ⟨q, r, ack, Function.update_self .., hb⟩
    · exact .inl (hb ▸ hmem)
  · exact .inr ⟨q, r, ack, (Function.update_of_ne hqp ..).trans hq, hb⟩

/-! ### From the commit on -/

/-- The row under this identifier is the message of the request. -/
def Communication.Carries (m : Communication) (r : Request) (id : Uuid) : Prop :=
  m.id = id ∧ m.direction = .inbound ∧ m.content = r.message.text

/-- A draft holds the text of its request. -/
def Proc.Worded : Proc py → Prop
  | .request r (.commit draft) => draft.communication.content = r.message.text
  | _ => True

theorem content_draftMessage {r : Request} {db : Database} {draws : IntakeDraws} {draft : Draft}
    {files : List (FilePath × Bytes)} (h : draftMessage py settings db r draws = (.ok draft, files)) :
    draft.communication.content = r.message.text := by
  unfold draftMessage at h
  dsimp only at h
  split_ifs at h
  · cases h
  · obtain ⟨⟨docs, written⟩, hb⟩ : ∃ p, buildDocuments py settings
      ((db.latestOpen (r.borrower py)).getD (newApplication draws.application draws.now (r.borrower py))).id
      draws.document 0 r.message.attachments = p := ⟨_, rfl⟩
    rw [hb] at h
    cases docs with
    | error e => cases h
    | ok docs =>
      cases h
      rfl

theorem Transition.worded (h : Transition settings s l a s' l') (hl : l.Worded) : l'.Worded := by
  cases h with
  | evict | forgotten => exact hl
  | drafted _ h => exact content_draftMessage h
  | delivered _ _ _ h => rcases h with rfl | rfl <;> trivial
  | _ => trivial

theorem worded_of_reaches {ok : Service py → ℕ → Action py → Prop} (h : ServiceReaches py settings ok c) (p : ℕ) :
    (c.procs p).Worded :=
  (h.assertions (I := fun _ => True) (J := fun _ l => l.Worded) (R := fun _ _ => True) trivial
    (fun _ => trivial) (fun _ _ _ _ _ _ _ hl hs => ⟨trivial, (procStep_transition hs).worded hl, trivial⟩)
    fun _ _ _ _ hl => hl).2 p

/-- The commit of a message leaves its run owed. -/
theorem owes_of_stored {p : ℕ} {r : Request} {id : Uuid} (hc : ∀ p, (c.procs p).Justified)
    (hw : ∀ p, (c.procs p).Worded) (hbefore : (r, id) ∉ c.shared.stored) (hbehind : (r, id) ∈ d.shared.stored)
    (hs : Interleave.next (procStep settings) c p a = some d) : ∃ m, m.Carries r id ∧ d.Owes m := by
  obtain ⟨s, l, hstep, rfl⟩ := Interleave.next_eq_some hs
  obtain ⟨l₀, hl₀⟩ : ∃ l, c.procs p = l := ⟨_, rfl⟩
  have hjust := hc p
  have hword := hw p
  rw [hl₀] at hstep hjust hword
  have htrans := procStep_transition hstep
  cases htrans with
  | @committed r' draft _ h =>
    obtain ⟨draws, db, hdraft⟩ := hjust
    obtain ⟨-, rfl⟩ := commitDraft_ok h
    rcases List.mem_cons.mp hbehind with heq | hmem
    · cases heq
      refine ⟨draft.communication, ⟨rfl, hdraft.communication.2.2, hword⟩,
        List.mem_append_right _ List.mem_cons_self, .inr ⟨p, r, draft.ack, Function.update_self .., ?_⟩⟩
      exact hdraft.communication.2.1.symm
    · exact absurd hmem hbefore
  | _ => exact absurd hbehind hbefore

/-- Where a run may start and its application is there, it does. -/
theorem startRun_some {b : Uuid} (h : procStep settings s l (.startRun b) = some (s', l'))
    (hb : s.db.HasApplication b) : ∃ status, l' = .run ⟨b, status⟩ .mark := by
  cases l with
  | idle =>
    simp only [procStep] at h
    split_ifs at h
    split at h
    next hnone =>
      obtain ⟨x, hx, rfl⟩ := hb
      simpa using List.find?_eq_none.mp hnone x hx
    next x hx =>
      cases h
      exact ⟨_, rfl⟩
  | request r phase => cases phase <;> cases h
  | run σ phase => cases phase <;> cases h
  | exporting phase => cases phase <;> cases h

/-- No request ends between its commit and its answer. -/
def KeepsAnswers (test : Service py → ℕ → Action py → Bool) : Prop :=
  ∀ c p r ack, c.procs p = .request r (.respond ack) → test c p .crash = false

/-- No server stops with runs in its queue. -/
def KeepsQueue (test : Service py → ℕ → Action py → Bool) : Prop :=
  ∀ c p u, test c p (.forget u) = false

/-- Once every request is answered and every queued run has started, each message
that was committed was there when a run of its application started. -/
theorem no_message_forgotten {test : Service py → ℕ → Action py → Bool} (htest : KeepsAnswers test)
    (hkeeps : KeepsQueue test)
    {schedule : List (ℕ × Action py)}
    (h : Interleave.execute (procStep settings) test (initial py) schedule = some c)
    (hqueue : c.shared.queue = []) (hanswered : ∀ b, ¬ c.Answering b) {r : Request} {id : Uuid}
    (hstored : (r, id) ∈ c.shared.stored) :
    ∃ m before p behind d status, m.Carries r id ∧
      schedule = before ++ (p, .startRun m.applicationId) :: behind ∧
      Interleave.execute (procStep settings) test (initial py) before = some d ∧
      m ∈ d.shared.db.communications ∧
      ∃ e, Interleave.next (procStep settings) d p (.startRun m.applicationId) = some e ∧
        e.procs p = .run ⟨m.applicationId, status⟩ .mark := by
  have hreach : ∀ {before : List (ℕ × Action py)} {d : Service py},
      Interleave.execute (procStep settings) test (initial py) before = some d →
      ServiceReaches py settings Interleave.anyStep d := fun hd =>
    Interleave.execute_reaches (fun _ _ _ _ => trivial) .start hd
  obtain ⟨before, p, a, rest, d, d', rfl, hd, hnot, hallowed₀, hnext, hin, hrest⟩ :=
    Interleave.execute_first (I := fun c : Service py => (r, id) ∉ c.shared.stored)
      List.not_mem_nil h (not_not_intro hstored)
  obtain ⟨m, hm, howes⟩ := owes_of_stored (justified_of_reaches (hreach hd)) (worded_of_reaches (hreach hd)) hnot
    (not_not.mp hin) hnext
  have hend : ¬ c.Owes m := by
    rintro ⟨-, hq | hr⟩
    · rw [hqueue] at hq
      cases hq
    · exact hanswered _ hr
  obtain ⟨between, q, b, behind, e, e', rfl, he, howed, hallowed, hstart, hdone, -⟩ :=
    Interleave.execute_first (I := fun c : Service py => c.Owes m) howes hrest hend
  have hbetween : Interleave.execute (procStep settings) test (initial py)
      (before ++ (p, a) :: between) = some e := by
    refine Interleave.execute_append hd ?_
    simp only [Interleave.execute, hallowed₀, if_true, hnext, Option.bind_some, he]
  have hb : b = .startRun m.applicationId := by
    by_contra hb
    refine hdone (howed.step (fun r ack hq hcrash => ?_) (fun u hu => ?_) hb hstart)
    · rw [hcrash, htest _ _ r ack hq] at hallowed
      cases hallowed
    · rw [hu, hkeeps] at hallowed
      cases hallowed
  subst hb
  obtain ⟨s, l, hstep, rfl⟩ := Interleave.next_eq_some hstart
  obtain ⟨status, rfl⟩ := startRun_some hstep
    ((consistent_of_reaches (hreach hbetween)).1.communications m howed.stored)
  exact ⟨m, _, q, behind, e, status, hm, by simp, hbetween, howed.stored, _, hstart,
    Function.update_self ..⟩

/-- A schedule in which no process crashes and no queued run is lost. -/
def uncrashed : Service asciiPython → ℕ → Action asciiPython → Bool
  | _, _, .crash => false
  | _, _, .forget _ => false
  | _, _, _ => true

def helloSchedule : List (ℕ × Action asciiPython) :=
  intakeSteps 0 (aliceHello "k1".toList length_k1) 1 ++ helloRun

def helloServed : Service asciiPython :=
  Interleave.after (procStep sampleSettings) uncrashed (initial asciiPython) helloSchedule

theorem execute_helloSchedule : Interleave.execute (procStep sampleSettings) uncrashed (initial asciiPython)
    helloSchedule = some helloServed := by
  obtain ⟨c, hc⟩ := Option.isSome_iff_exists.mp (by decide +kernel :
    (Interleave.execute (procStep sampleSettings) uncrashed (initial asciiPython) helloSchedule).isSome = true)
  rw [helloServed, Interleave.after, hc, Option.getD_some]

theorem pending_helloServed (p : ℕ) : (helloServed.procs p).pending sampleSettings = 0 := by
  by_cases hp : ∀ e ∈ helloSchedule, e.1 ≠ p
  · rw [Interleave.execute_others execute_helloSchedule hp]
    rfl
  · have hactive : ∀ e ∈ helloSchedule, (helloServed.procs e.1).pending sampleSettings = 0 := by decide +kernel
    push Not at hp
    obtain ⟨e, he, rfl⟩ := hp
    exact hactive e he

theorem answering_helloServed (b : Uuid) : ¬ helloServed.Answering b := by
  rintro ⟨p, r, ack, hp, -⟩
  have hidle := pending_helloServed p
  rw [hp] at hidle
  cases hidle

theorem no_message_forgotten_helloServed :
    ∃ m before p behind d status, m.Carries (aliceHello "k1".toList length_k1) (.ofNat 101) ∧
      helloSchedule = before ++ (p, .startRun m.applicationId) :: behind ∧
      Interleave.execute (procStep sampleSettings) uncrashed (initial asciiPython) before = some d ∧
      m ∈ d.shared.db.communications ∧
      ∃ e, Interleave.next (procStep sampleSettings) d p (.startRun m.applicationId) = some e ∧
        e.procs p = .run ⟨m.applicationId, status⟩ .mark :=
  no_message_forgotten (fun _ _ _ _ _ => rfl) (fun _ _ _ => rfl) execute_helloSchedule
    (by decide +kernel) answering_helloServed
    (by decide +kernel)

theorem work_bounded_helloServed :
    workDone sampleSettings helloSchedule = (19, 1, 1, 0) ∧
    workDone sampleSettings helloSchedule ≤ (helloSchedule.map fun e => e.2.allowance sampleSettings).sum :=
  ⟨by decide +kernel, work_bounded execute_helloSchedule⟩

end LoanAgent
