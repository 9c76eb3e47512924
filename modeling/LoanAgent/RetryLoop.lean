import LoanAgent.Extraction

/-! The retry loop around the call of the model, with what it does between its
calls. Each call takes the next outcome of the provider; a loop that falls off
its range meets the assertion behind it. Proved: after `k` rate limits the loop
has called `min k n + 1` times with one bounded sleep between two calls, it ends
as the first other outcome dictates or, when `k` exceeds the retries, with the
rate-limit error, and the assertion holds. -/

namespace LoanAgent

inductive LoopEvent
  | call
  | sleep (seconds : ℕ)
  deriving DecidableEq

/-- How the loop is left: by `break` with a response, which may lack the fields
that are read, by an exception, or over the end of its range. -/
inductive LoopEnd
  | response (r : Option Completion)
  | raised (e : LlmError)
  | assertionFailed

/-- How the `try` statement of one attempt ends. -/
inductive AttemptEnd
  | leave (e : LoopEnd)
  | again (seconds : ℕ)

structure LoopRun where
  events : List LoopEvent
  ending : LoopEnd

section Loop
variable (py : Python) (settings : Settings)

def tryAttempt (attempt : ℕ) : Attempt → AttemptEnd
  | .completed response => .leave (.response (some response))
  | .unreadable => .leave (.response none)
  | .rateLimit =>
    if settings.llmMaxRetries ≤ attempt then
      .leave (.raised ⟨.rateLimit, "LLM rate limit persisted after ".toList ++
        intText (attempt + 1) ++ " attempts.".toList⟩)
    else .again (min (2 ^ attempt) 8)
  | .timeout => .leave (.raised ⟨.timeout, "LLM call exceeded ".toList ++
      py.strOf (.float settings.llmTimeoutSeconds) ++ "s.".toList⟩)
  | .authentication => .leave (.raised ⟨.configuration,
      "LLM provider rejected the configured credentials.".toList⟩)
  | .badRequest message => .leave (.raised ⟨.configuration,
      "LLM rejected the request as malformed: ".toList ++ message⟩)
  | .connection => .leave (.raised ⟨.provider, "Could not reach the LLM provider.".toList⟩)
  | .other message => .leave (.raised ⟨.provider, "LLM provider error: ".toList ++ message⟩)

/-- The rounds of the `for` statement, with the outcomes of the calls to come. -/
def retryLoop : List ℕ → (ℕ → Attempt) → LoopRun
  | [], _ => ⟨[], .assertionFailed⟩
  | attempt :: rest, outcomes => match tryAttempt py settings attempt (outcomes 0) with
    | .leave e => ⟨[.call], e⟩
    | .again seconds =>
      let run := retryLoop rest fun i => outcomes (i + 1)
      ⟨.call :: .sleep seconds :: run.events, run.ending⟩

def retryCalls (outcomes : ℕ → Attempt) : LoopRun :=
  retryLoop py settings (List.range (settings.llmMaxRetries + 1)) outcomes

end Loop

/-- Each round calls once at most. -/
theorem count_call_retryLoop (py : Python) (settings : Settings) (rounds : List ℕ) (outcomes : ℕ → Attempt) :
    (retryLoop py settings rounds outcomes).events.count .call ≤ rounds.length := by
  induction rounds generalizing outcomes with
  | nil => exact Nat.le_refl 0
  | cons attempt rest ih =>
    simp only [retryLoop]
    split
    · simp
    · simpa using ih fun i => outcomes (i + 1)

/-! ### What the outcomes ask for -/

/-- The rate limits before the first other outcome. -/
noncomputable def rateLimits (outcomes : ℕ → Attempt) : ℕ∞ :=
  ⨅ i ∈ {i | outcomes i ≠ .rateLimit}, (i : ℕ∞)

/-- The end that an outcome other than a rate limit dictates. -/
inductive Dictates : Attempt → LoopEnd → Prop
  | completed (response : Completion) : Dictates (.completed response) (.response (some response))
  | unreadable : Dictates .unreadable (.response none)
  | timeout (detail : Text) : Dictates .timeout (.raised ⟨.timeout, detail⟩)
  | authentication (detail : Text) : Dictates .authentication (.raised ⟨.configuration, detail⟩)
  | badRequest (message detail : Text) : Dictates (.badRequest message) (.raised ⟨.configuration, detail⟩)
  | connection (detail : Text) : Dictates .connection (.raised ⟨.provider, detail⟩)
  | other (message detail : Text) : Dictates (.other message) (.raised ⟨.provider, detail⟩)

theorem not_dictates_rateLimit (outcome : Attempt) (detail : Text) :
    ¬ Dictates outcome (.raised ⟨.rateLimit, detail⟩) := nofun

theorem not_dictates_assertionFailed (outcome : Attempt) : ¬ Dictates outcome .assertionFailed := nofun

/-- A call, the sleep behind it, and so on for `retries` rounds, then the last call. -/
def pacedCalls (retries : ℕ) : List LoopEvent :=
  (List.range retries).flatMap (fun i => [.call, .sleep (min (2 ^ i) 8)]) ++ [.call]

theorem natCast_lt_rateLimits {outcomes : ℕ → Attempt} {n : ℕ} :
    (n : ℕ∞) < rateLimits outcomes ↔ ∀ i ≤ n, outcomes i = .rateLimit := by
  rw [rateLimits, ← ENat.add_one_le_iff (ENat.natCast_ne_top n)]
  simp only [le_iInf_iff, Set.mem_ofPred_eq, ← Nat.cast_add_one, Nat.cast_le]
  constructor
  · intro h i hi
    by_contra hother
    have := h i hother
    omega
  · intro h i hother
    by_contra hi
    exact hother (h i (by omega))

/-- Either the retries are used up, or the first other outcome comes within them. -/
theorem rateLimits_cases (outcomes : ℕ → Attempt) (n : ℕ) :
    (n : ℕ∞) < rateLimits outcomes ∨ ∃ j ≤ n, rateLimits outcomes = j ∧
      (∀ i < j, outcomes i = .rateLimit) ∧ outcomes j ≠ .rateLimit := by
  by_cases hn : (n : ℕ∞) < rateLimits outcomes
  · exact .inl hn
  obtain ⟨j, hj⟩ := ENat.ne_top_iff_exists.mp (ne_top_of_le_ne_top (ENat.natCast_ne_top n) (not_lt.mp hn))
  rw [← hj, Nat.cast_lt, not_lt] at hn
  have hbefore : ∀ i < j, outcomes i = .rateLimit := fun i hi =>
    natCast_lt_rateLimits.mp (hj ▸ Nat.cast_lt.mpr hi) i le_rfl
  refine .inr ⟨j, hn, hj.symm, hbefore, fun hlimit => ?_⟩
  have hlt : (j : ℕ∞) < rateLimits outcomes := natCast_lt_rateLimits.mpr fun i hi =>
    (Nat.lt_or_eq_of_le hi).elim (hbefore i) fun h => h ▸ hlimit
  exact absurd hj (ne_of_lt hlt)

/-! ### Runs -/

section Run
variable {py : Python} {settings : Settings} {outcomes : ℕ → Attempt}

theorem tryAttempt_rateLimit_again {attempt : ℕ} (h : attempt < settings.llmMaxRetries) :
    tryAttempt py settings attempt .rateLimit = .again (min (2 ^ attempt) 8) :=
  if_neg (not_le.mpr h)

/-- An outcome other than a rate limit leaves the loop as it dictates. -/
theorem tryAttempt_dictates {outcome : Attempt} (h : outcome ≠ .rateLimit) (attempt : ℕ) :
    ∃ e, tryAttempt py settings attempt outcome = .leave e ∧ Dictates outcome e := by
  cases outcome with
  | completed response => exact ⟨_, rfl, .completed response⟩
  | unreadable => exact ⟨_, rfl, .unreadable⟩
  | rateLimit => exact absurd rfl h
  | timeout => exact ⟨_, rfl, .timeout _⟩
  | authentication => exact ⟨_, rfl, .authentication _⟩
  | badRequest message => exact ⟨_, rfl, .badRequest message _⟩
  | connection => exact ⟨_, rfl, .connection _⟩
  | other message => exact ⟨_, rfl, .other message _⟩

/-- Rounds that meet a rate limit below the boundary call and sleep. -/
theorem retryLoop_rateLimits (rest : List ℕ) {m a : ℕ} (ha : a + m ≤ settings.llmMaxRetries)
    (h : ∀ i < m, outcomes i = .rateLimit) :
    retryLoop py settings (List.range' a m ++ rest) outcomes =
      let run := retryLoop py settings rest fun i => outcomes (m + i)
      ⟨(List.range' a m).flatMap (fun i => [.call, .sleep (min (2 ^ i) 8)]) ++ run.events, run.ending⟩ := by
  induction m generalizing a outcomes with
  | zero => simp only [List.range'_zero, List.nil_append, List.flatMap_nil, Nat.zero_add]
  | succ m ih =>
    have hround : tryAttempt py settings a (outcomes 0) = .again (min (2 ^ a) 8) := by
      rw [h 0 m.succ_pos]
      exact tryAttempt_rateLimit_again (by omega)
    have hrest := @ih (fun i => outcomes (i + 1)) (a + 1) (by omega)
      fun i hi => h (i + 1) (by omega)
    simp only [List.range'_succ, List.cons_append, retryLoop, hround, hrest, List.flatMap_cons,
      List.nil_append, Nat.add_right_comm m 1]

/-- The first outcome that leaves the loop decides the whole run. -/
theorem retryCalls_leave {j : ℕ} {e : LoopEnd} (hj : j ≤ settings.llmMaxRetries)
    (hbefore : ∀ i < j, outcomes i = .rateLimit)
    (hleave : tryAttempt py settings j (outcomes j) = .leave e) :
    retryCalls py settings outcomes = ⟨pacedCalls j, e⟩ := by
  have hrange : List.range (settings.llmMaxRetries + 1) =
      List.range' 0 j ++ j :: List.range' (j + 1) (settings.llmMaxRetries - j) := by
    rw [← List.range'_succ, List.range_eq_range', ← Nat.sub_add_comm hj]
    simpa only [Nat.zero_add, Nat.add_sub_cancel' (Nat.le_succ_of_le hj)] using
      (List.range'_append_1 (s := 0) (m := j) (n := settings.llmMaxRetries + 1 - j)).symm
  rw [retryCalls, hrange, retryLoop_rateLimits _ (by omega) hbefore]
  simp only [retryLoop, Nat.add_zero, hleave, pacedCalls, List.range_eq_range']

theorem count_call_pacedCalls (retries : ℕ) : (pacedCalls retries).count .call = retries + 1 := by
  rw [pacedCalls, List.count_append, List.count_flatMap]
  simp [Function.comp_def]

theorem sleep_pacedCalls {retries s : ℕ} (h : .sleep s ∈ pacedCalls retries) : s ≤ 8 := by
  simp only [pacedCalls, List.mem_append, List.mem_flatMap, List.mem_cons, List.not_mem_nil, or_false,
    reduceCtorEq, false_or, LoopEvent.sleep.injEq] at h
  obtain ⟨i, -, rfl⟩ := h
  exact min_le_right _ _

/-- The loop calls `min k n + 1` times, with one sleep of at most eight seconds
between two calls, raises the rate-limit error exactly when `k` exceeds `n`, ends
otherwise as the first other outcome dictates, and never fails the assertion. -/
theorem retryCalls_spec (py : Python) (settings : Settings) (outcomes : ℕ → Attempt) :
    (((retryCalls py settings outcomes).events.count .call : ℕ) : ℕ∞) =
        min (rateLimits outcomes) settings.llmMaxRetries + 1 ∧
      ((∃ detail, (retryCalls py settings outcomes).ending = .raised ⟨.rateLimit, detail⟩) ↔
        settings.llmMaxRetries < rateLimits outcomes) ∧
      (∀ k : ℕ, rateLimits outcomes = k → k ≤ settings.llmMaxRetries →
        Dictates (outcomes k) (retryCalls py settings outcomes).ending) ∧
      (∃ retries, (retryCalls py settings outcomes).events = pacedCalls retries) ∧
      (∀ s, .sleep s ∈ (retryCalls py settings outcomes).events → s ≤ 8) ∧
      (retryCalls py settings outcomes).ending ≠ .assertionFailed := by
  rcases rateLimits_cases outcomes settings.llmMaxRetries with hlt | ⟨j, hj, hk, hbefore, hother⟩
  · -- The boundary attempt meets a rate limit as well and raises.
    have hlimits := natCast_lt_rateLimits.mp hlt
    have hrun := @retryCalls_leave py settings outcomes _ _ le_rfl (fun i hi => hlimits i hi.le)
      (by rw [hlimits _ le_rfl]; exact if_pos le_rfl)
    rw [hrun]
    refine ⟨?_, ⟨fun _ => hlt, fun _ => ⟨_, rfl⟩⟩, fun k hk hkn => ?_, ⟨_, rfl⟩, fun s hs => sleep_pacedCalls hs,
      nofun⟩
    · rw [count_call_pacedCalls, min_eq_right hlt.le, Nat.cast_add_one]
    · rw [hk, Nat.cast_lt] at hlt
      omega
  · obtain ⟨e, he, hdictates⟩ := @tryAttempt_dictates py settings _ hother j
    rw [retryCalls_leave hj hbefore he, hk]
    have hnot : ¬ (settings.llmMaxRetries : ℕ∞) < j := by
      rw [Nat.cast_lt]
      omega
    refine ⟨?_, ⟨?_, fun h => absurd h hnot⟩, fun k hk' _ => ?_, ⟨_, rfl⟩, fun s hs => sleep_pacedCalls hs, ?_⟩
    · rw [count_call_pacedCalls, min_eq_left (not_lt.mp hnot), Nat.cast_add_one]
    · rintro ⟨detail, rfl⟩
      exact absurd hdictates (not_dictates_rateLimit _ _)
    · rw [← Nat.cast_inj.mp hk']
      exact hdictates
    · rintro rfl
      exact not_dictates_assertionFailed _ hdictates

end Run

/-! ### The answer that is used -/

/-- The outcome of the loop for the statements behind it. -/
def LoopEnd.result : LoopEnd → Except CallFailure Completion
  | .response (some r) => .ok r
  | .raised e => .error (.typed e)
  | _ => .error .untyped

theorem complete_eq_retryLoop {py : Python} {settings : Settings} {llm : Llm py} {prompt : Text}
    {retries attempt : ℕ} (h : attempt + retries = settings.llmMaxRetries) :
    complete settings llm prompt retries attempt =
      (retryLoop py settings (List.range' attempt (retries + 1))
        fun i => llm.attempt prompt (attempt + i)).ending.result := by
  induction retries generalizing attempt with
  | zero =>
    simp only [complete, retryLoop, List.range'_succ, Nat.add_zero]
    cases llm.attempt prompt attempt with
    | rateLimit => simp only [tryAttempt, ← h, Nat.add_zero, le_refl, if_true, LoopEnd.result]
    | _ => rfl
  | succ retries ih =>
    have hrest := @ih (attempt + 1) (by omega)
    simp only [complete, retryLoop, List.range'_succ, Nat.add_zero] at hrest ⊢
    cases llm.attempt prompt attempt with
    | rateLimit =>
      simp only [tryAttempt_rateLimit_again (show attempt < settings.llmMaxRetries by omega)]
      simpa only [Nat.add_assoc, Nat.add_comm 1] using hrest
    | _ => rfl

/-- What `extract_facts` goes on with is the end of the loop on the outcomes of its prompt. -/
theorem complete_eq_retryCalls {py : Python} (settings : Settings) (llm : Llm py) (prompt : Text) :
    complete settings llm prompt settings.llmMaxRetries 0 =
      (retryCalls py settings (llm.attempt prompt)).ending.result := by
  rw [complete_eq_retryLoop (Nat.zero_add _), retryCalls, List.range_eq_range']
  simp only [Nat.zero_add]

end LoanAgent
