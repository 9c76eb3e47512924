import LoanAgent.ExactlyOnce
import LoanAgent.JsonTrees
import LoanAgent.Library.Registry
import LoanAgent.Library.Simulation

/-! The cache of acks as Redis holds it: JSON texts under prefixed keys, beside the
keys of other clients. The service that reads and writes these texts answers a
repeated request with the content of the text, and any text may be gone at any time.
Proved: it refines the service with a table of acks, of which every lookup in Redis
gives the JSON of the entry; and both refine a registry that gives each scoped key
one message in one step, so every body that is sent for a key names this message. -/

namespace LoanAgent

/-! ### Texts in Redis -/

/-- `_IDEMP_PREFIX` and a key. -/
def redisKey (key : Text) : Text := "idem:".toList ++ key

/-- `model_dump()`, with identifiers written by `_json_default`; the body of the answer, too. -/
def WebhookAck.json (ack : WebhookAck) : Json :=
  .obj [("application_id".toList, .str ack.applicationId.str),
    ("application_status".toList, .str ack.applicationStatus),
    ("communication_id".toList, .str ack.communicationId.str),
    ("document_ids".toList, .arr (ack.documentIds.map fun u => .str u.str))]

section Cache
variable (py : Python)

/-- `get_idempotency_response`; without texts Redis does not answer. -/
def getIdempotencyResponse (texts : Option (List (Text × Text))) (key : Text) : Option Json :=
  match texts.bind (·.lookup (redisKey key)) with
  | none => none
  | some cached =>
    if cached = [] then none
    else match loads py cached with
      | some .null => none
      | payload => payload

/-- `check_idempotency`. -/
def checkIdempotency (texts : Option (List (Text × Text))) (key : Text) : Bool × Option Json :=
  match getIdempotencyResponse py texts key with
  | some cached => (true, some cached)
  | none => (false, none)

/-- `store_idempotency_response`: a failure is logged and nothing else. -/
def storeIdempotencyResponse (available : Bool) (key : Text) (payload : Json) (texts : List (Text × Text)) :
    List (Text × Text) :=
  if available then (redisKey key, dumps py payload) :: texts else texts

end Cache

/-! ### The service over these texts -/

/-- The store keeps neither acks nor their answers; the bodies, the latest first, are a record. -/
structure CachedStore where
  store : Store := {}
  texts : List (Text × Text) := []
  bodies : List (Request × Json) := []

/-- A step of the service, or another client of Redis that sets or drops a key of its own. -/
inductive CachedAction (py : Python)
  | service (a : Action py)
  | other (key : Text) (text : Option Text)

/-- One step: `incoming_message` looks into the texts and adds to them. -/
def cachedStep {py : Python} (settings : Settings) : Interleave.Step CachedStore (Proc py) (CachedAction py) :=
  fun s l a => match l, a with
  | l, .other key text =>
    if "idem:".toList <+: key then none
    else some ({ s with texts := (text.map (key, ·)).toList ++ s.texts.filter (·.1 ≠ key) }, l)
  | l, .service (.evict key) => some ({ s with texts := s.texts.filter (·.1 ≠ redisKey key) }, l)
  | .request r .lookup, .service (.lookup available) =>
    match checkIdempotency py (if available then some s.texts else none) (r.scopedKey py) with
    | (true, some cached) => some ({ s with bodies := (r, cached) :: s.bodies }, .idle)
    | _ => some (s, .request r .draft)
  | .request r (.respond ack), .service (.respond available) =>
    some ({
      store := { s.store with queue := s.store.queue ++ [ack.applicationId] }
      texts := storeIdempotencyResponse py available (r.scopedKey py) ack.json s.texts
      bodies := (r, ack.json) :: s.bodies }, .idle)
  | l, .service a => (procStep settings s.store l a).map fun next => ({ s with store := next.1 }, next.2)

def cachedInitial (py : Python) : Interleave.Config CachedStore (Proc py) := ⟨{}, fun _ => .idle⟩

variable {py : Python} {settings : Settings}

/-! ### What a lookup reads -/

theorem properItems_ids (ids : List Uuid) : ProperItems py (ids.map fun u => .str u.str) := by
  induction ids with
  | nil => trivial
  | cons u ids ih => exact ⟨trivial, ih⟩

theorem ackFields_nodup : ["application_id".toList, "application_status".toList, "communication_id".toList,
    "document_ids".toList].Nodup := by decide

theorem WebhookAck.json_proper (ack : WebhookAck) : ack.json.Proper py :=
  ⟨ackFields_nodup, trivial, trivial, trivial, properItems_ids _, trivial⟩

theorem redisKey_injective {key key' : Text} (h : redisKey key = redisKey key') : key = key' :=
  List.append_cancel_left h

theorem dumps_json_ne_nil (ack : WebhookAck) : dumps py ack.json ≠ [] := by
  have hproper : ack.json.Proper py := ack.json_proper
  obtain ⟨c, t, h, -⟩ := opens_dumps hproper
  rw [h]
  nofun

theorem getIdempotencyResponse_eq {texts : List (Text × Text)} {key : Text} {ack : Option WebhookAck}
    (h : texts.lookup (redisKey key) = ack.map fun ack => dumps py ack.json) :
    getIdempotencyResponse py (some texts) key = ack.map WebhookAck.json := by
  unfold getIdempotencyResponse
  rw [Option.bind_some, h]
  cases ack with
  | none => rfl
  | some ack =>
    dsimp only [Option.map_some]
    rw [if_neg (dumps_json_ne_nil ack), loads_dumps ack.json_proper]
    rfl

theorem lookup_filter_ne {α β : Type*} [BEq α] [LawfulBEq α] [DecidableEq α] (k k' : α) (d : List (α × β)) :
    (d.filter (·.1 ≠ k')).lookup k = if k = k' then none else d.lookup k := by
  induction d with
  | nil => simp
  | cons e d ih =>
    by_cases he : e.1 = k'
    · rw [List.filter_cons_of_neg (by simpa using he), ih]
      split_ifs with hk
      · rfl
      · rw [List.lookup_cons, beq_false_of_ne (he ▸ hk)]
    · rw [List.filter_cons_of_pos (by simpa using he), List.lookup_cons, List.lookup_cons, ih]
      by_cases hk : k = e.1
      · simp [hk, he]
      · rw [beq_false_of_ne hk]

/-! ### Both services take the same steps -/

/-- The store with other acks and answers. -/
def Store.withReplies (s : Store) (redis : List (Text × WebhookAck)) (responses : List (Request × Response)) :
    Store := { s with redis := redis, responses := responses }

section Replies
variable (redis : List (Text × WebhookAck)) (responses : List (Request × Response))

theorem issue_withReplies (s : Store) (ids : List Uuid) :
    (s.withReplies redis responses).issue ids = (s.issue ids).map fun t => t.withReplies redis responses := by
  by_cases h : ids.Nodup ∧ ∀ u ∈ ids, u ∉ s.issued
  · rw [Store.issue, Store.issue, if_pos h]
    exact if_pos h
  · rw [Store.issue, Store.issue, if_neg h]
    exact if_neg h

/-- A run reads neither the acks nor the answers. -/
theorem runStep_withReplies (s : Store) (σ : Session) (φ : RunPhase py) (a : Action py) :
    runStep settings (s.withReplies redis responses) σ φ a =
      (runStep settings s σ φ a).map fun next => (next.1.withReplies redis responses, next.2) := by
  cases φ with
  | mark | documents | messages result | delete call validated | anomalies found | present | channel missing
  | sent missing channel => cases a <;> rfl
  | parse documents => cases a with
    | parse io =>
      simp only [runStep]
      cases ingestDocuments (loadDocument py settings io σ.applicationId) documents <;> rfl
    | _ => rfl
  | texts result stated => cases a with
    | commitTexts now =>
      simp only [runStep, Store.withReplies]
      cases commitIngest σ.applicationId now result s.db <;> rfl
    | _ => rfl
  | ask sources => cases a with
    | ask llm =>
      simp only [runStep]
      rcases askModel settings llm sources with _ | _ | _ | _ <;> rfl
    | _ => rfl
  | degrade e => cases a with
    | commitDegraded now =>
      simp only [runStep, Store.withReplies]
      cases commitDegraded py σ e now s.db <;> rfl
    | _ => rfl
  | insert call validated deleted => cases a with
    | commitFacts ids now =>
      simp only [runStep, issue_withReplies, Option.map_map]
      refine congrArg (Option.map · _) (funext fun t => ?_)
      dsimp only [Function.comp]
      cases newFacts σ.applicationId ids now validated with
      | error e => rfl
      | ok facts =>
        simp only [Store.withReplies]
        cases commitFacts deleted facts (extractionAudit σ.applicationId call now) s.db <;> rfl
    | _ => rfl
  | compare => cases a with
    | selectFacts =>
      simp only [runStep, Store.withReplies]
      cases findAnomalies py (s.db.contentsOf σ.applicationId) <;> rfl
    | _ => rfl
  | announce missing channel alreadySent => cases a with
    | commitChase id now =>
      simp only [runStep, issue_withReplies, Option.map_map]
      rfl
    | _ => rfl

theorem exportStep_withReplies (s : Store) (φ : ExportPhase) (a : Action py) :
    exportStep settings (s.withReplies redis responses) φ a =
      (exportStep settings s φ a).map fun next => (next.1.withReplies redis responses, next.2) := by
  cases φ with
  | facts application => cases a with
    | selectMemo query stamp =>
      by_cases horder : Paging.Arrangement ExtractedFact.sortKey (s.db.factsOf application.id)
          (query (s.db.factsOf application.id))
      · simp only [exportStep, Store.withReplies, horder, if_true]
        cases buildCreditMemo py application (memoFacts (query (s.db.factsOf application.id))) stamp <;> rfl
      · simp only [exportStep, Store.withReplies, horder, if_false, Option.map_none]
    | _ => rfl
  | deliver memo => cases a <;> rfl
  | audit memo => cases a with
    | commitExport now =>
      simp only [exportStep]
      split_ifs <;> rfl
    | _ => rfl

/-- A step that makes and reads no ack, and answers with refusals only. -/
def Refuses (s s' : Store) (l' : Proc py) (step : Store → Option (Store × Proc py)) : Prop :=
  ∃ refusals : List (Request × Response), (∀ e ∈ refusals, ∃ error, e.2 = .refused error) ∧
    s'.responses = refusals ++ s.responses ∧
    ∀ redis responses, step (s.withReplies redis responses) =
      some (s'.withReplies redis (refusals ++ responses), l')

variable {s s' : Store} {l' : Proc py}

theorem refuses_of_map {step : Store → Option (Store × Proc py)}
    (hstep : ∀ redis responses, step (s.withReplies redis responses) =
      (step s).map fun next => (next.1.withReplies redis responses, next.2))
    (h : step s = some (s', l')) : Refuses s s' l' step := by
  have hsame := hstep s.redis s.responses
  rw [show s.withReplies s.redis s.responses = s from rfl, h] at hsame
  have hs' : s' = s'.withReplies s.redis s.responses := congrArg Prod.fst (Option.some.inj hsame)
  refine ⟨[], nofun, ?_, fun redis responses => ?_⟩
  · rw [hs']
    rfl
  · rw [hstep, h]
    rfl

theorem Refuses.silent {step : Store → Option (Store × Proc py)} (hs : s'.responses = s.responses)
    (h : ∀ redis responses, step (s.withReplies redis responses) = some (s'.withReplies redis responses, l')) :
    Refuses s s' l' step := ⟨[], nofun, hs, h⟩

theorem Refuses.once {step : Store → Option (Store × Proc py)} {r : Request} {error : IntakeError}
    (h : ∀ redis responses, step (s.withReplies redis responses) =
      some ((s'.withReplies redis responses).respond r (.refused error), l'))
    (hs : s'.responses = (r, .refused error) :: s.responses) : Refuses s s' l' step :=
  ⟨[(r, .refused error)], fun e he => ⟨error, by rw [List.mem_singleton.mp he]⟩, hs, h⟩

theorem requestStep_refuses {r : Request} {φ : RequestPhase} {a : Action py} (hlookup : φ ≠ .lookup)
    (hrespond : ∀ ack, φ ≠ .respond ack) (h : requestStep settings s r φ a = some (s', l')) :
    Refuses s s' l' fun s => requestStep settings s r φ a := by
  cases φ with
  | lookup => exact absurd rfl hlookup
  | respond ack => exact absurd rfl (hrespond ack)
  | draft => cases a with
    | draft draws =>
      simp only [requestStep, Option.map_eq_some_iff] at h
      obtain ⟨t, hissue, h⟩ := h
      have hresponses : t.responses = s.responses := by
        unfold Store.issue at hissue
        split_ifs at hissue
        cases hissue
        rfl
      cases hdraft : draftMessage py settings s.db r draws with
      | mk drafted files =>
        rw [hdraft] at h
        cases drafted with
        | error e =>
          cases h
          refine .once (fun redis responses => ?_) (congrArg ((r, Response.refused e) :: ·) hresponses)
          simp only [requestStep, issue_withReplies, hissue, Option.map_some]
          rw [show (s.withReplies redis responses).db = s.db from rfl, hdraft]
          rfl
        | ok draft =>
          cases h
          refine .silent hresponses fun redis responses => ?_
          simp only [requestStep, issue_withReplies, hissue, Option.map_some]
          rw [show (s.withReplies redis responses).db = s.db from rfl, hdraft]
          rfl
    | _ => cases h
  | commit draft => cases a with
    | commitMessage =>
      simp only [requestStep] at h
      cases hc : commitDraft draft s.db with
      | ok db =>
        rw [hc] at h
        cases h
        refine .silent rfl fun redis responses => ?_
        simp only [requestStep, Store.withReplies, hc]
      | error e =>
        rw [hc] at h
        by_cases he : e = .integrity
        · subst he
          cases h
          refine .silent rfl fun redis responses => ?_
          simp only [requestStep, Store.withReplies, hc]
        · have hrefused : some (s.respond r (.refused e), Proc.idle) = some (s', l') := by
            cases e with
            | integrity => exact absurd rfl he
            | _ => exact h
          cases hrefused
          refine .once (fun redis responses => ?_) rfl
          simp only [requestStep, Store.withReplies, hc]
          cases e with
          | integrity => exact absurd rfl he
          | _ => rfl
    | _ => cases h
  | replay => cases a with
    | replay =>
      simp only [requestStep] at h
      cases hr : replayAck s.db (r.scopedKey py) (r.borrower py) with
      | some ack =>
        rw [hr] at h
        cases h
        refine .silent rfl fun redis responses => ?_
        simp only [requestStep, Store.withReplies, hr]
      | none =>
        rw [hr] at h
        cases h
        refine .once (fun redis responses => ?_) rfl
        simp only [requestStep, Store.withReplies, hr]
        rfl
    | _ => cases h

/-- Every other step of the service makes and reads no ack. -/
theorem procStep_refuses {l : Proc py} {a : Action py} (hevict : ∀ key, a ≠ .evict key)
    (hlookup : ∀ r available, l = .request r .lookup → a ≠ .lookup available)
    (hrespond : ∀ r ack available, l = .request r (.respond ack) → a ≠ .respond available)
    (h : procStep settings s l a = some (s', l')) : Refuses s s' l' fun s => procStep settings s l a := by
  by_cases hcrash : a = .crash
  · subst hcrash
    have hproc : ∀ s, procStep settings s l .crash = some (s, .idle) := fun s => by cases l <;> rfl
    refine refuses_of_map (fun redis responses => ?_) h
    rw [hproc, hproc]
    rfl
  by_cases hforget : ∃ b, a = .forget b
  · obtain ⟨b, rfl⟩ := hforget
    have hproc : ∀ s, procStep settings s l (.forget b) =
      some ({ s with queue := s.queue.erase b }, l) := fun s => by
      cases l <;> rfl
    refine refuses_of_map (fun redis responses => ?_) h
    rw [hproc, hproc]
    rfl
  cases l with
  | idle => cases a with
    | receive r => exact refuses_of_map (fun _ _ => rfl) h
    | startRun a =>
      refine refuses_of_map (fun redis responses => ?_) h
      by_cases ha : a ∈ s.queue
      · cases hx : s.db.application a <;> simp [procStep, Store.withReplies, ha, hx]
      · simp [procStep, Store.withReplies, ha]
    | requestExport a =>
      refine refuses_of_map (fun redis responses => ?_) h
      simp only [procStep, Store.withReplies]
      cases s.db.application a with
      | none => rfl
      | some application => by_cases hready : application.status = .readyForLos <;> simp [hready]
    | crash => exact absurd rfl hcrash
    | evict key => exact absurd rfl (hevict key)
    | forget b => exact absurd ⟨b, rfl⟩ hforget
    | _ => cases h
  | request r φ =>
    have hproc : ∀ s, procStep settings s (.request r φ) a = requestStep settings s r φ a := fun s => by
      cases a with
      | crash => exact absurd rfl hcrash
      | evict key => exact absurd rfl (hevict key)
      | forget b => exact absurd ⟨b, rfl⟩ hforget
      | _ => rfl
    rw [hproc] at h
    rw [show (fun s => procStep settings s (.request r φ) a) = fun s => requestStep settings s r φ a from
      funext hproc]
    cases φ with
    | lookup => cases a with
      | lookup available => exact absurd rfl (hlookup r available rfl)
      | _ => cases h
    | respond ack => cases a with
      | respond available => exact absurd rfl (hrespond r ack available rfl)
      | _ => cases h
    | draft | replay | commit draft => exact requestStep_refuses nofun nofun h
  | run σ φ =>
    have hproc : ∀ s, procStep settings s (.run σ φ) a = runStep settings s σ φ a := fun s => by
      cases a with
      | crash => exact absurd rfl hcrash
      | evict key => exact absurd rfl (hevict key)
      | forget b => exact absurd ⟨b, rfl⟩ hforget
      | _ => rfl
    rw [hproc] at h
    rw [show (fun s => procStep settings s (.run σ φ) a) = fun s => runStep settings s σ φ a from funext hproc]
    exact refuses_of_map (fun redis responses => runStep_withReplies redis responses s σ φ a) h
  | exporting φ =>
    have hproc : ∀ s, procStep settings s (.exporting φ) a = exportStep settings s φ a := fun s => by
      cases a with
      | crash => exact absurd rfl hcrash
      | evict key => exact absurd rfl (hevict key)
      | forget b => exact absurd ⟨b, rfl⟩ hforget
      | _ => rfl
    rw [hproc] at h
    rw [show (fun s => procStep settings s (.exporting φ) a) = fun s => exportStep settings s φ a from
      funext hproc]
    exact refuses_of_map (fun redis responses => exportStep_withReplies redis responses s φ a) h

end Replies

/-! ### The refinement -/

def Response.body : Response → Option Json
  | .ack given => some given.json
  | .refused _ => none

/-- The texts and the bodies stand for the acks and the answers of the other store;
all else is the same. -/
structure Caches (py : Python) (s : CachedStore) (t : Store) : Prop where
  same : t = s.store.withReplies t.redis t.responses
  refused : s.store.responses = t.responses.filter fun e => e.2.body.isNone
  bodies : s.bodies = t.responses.filterMap fun e => e.2.body.map fun body => (e.1, body)
  texts : ∀ key, s.texts.lookup (redisKey key) = (t.redis.lookup key).map fun ack => dumps py ack.json

variable {s s' : CachedStore} {t : Store} {l l' : Proc py}

theorem Caches.lookup (hs : Caches py s t) (key : Text) :
    getIdempotencyResponse py (some s.texts) key = (t.redis.lookup key).map WebhookAck.json :=
  getIdempotencyResponse_eq (hs.texts key)

theorem Caches.check (hs : Caches py s t) (available : Bool) (key : Text) :
    checkIdempotency py (if available then some s.texts else none) key =
      match if available then t.redis.lookup key else none with
      | some ack => (true, some ack.json)
      | none => (false, none) := by
  cases available with
  | false => rfl
  | true =>
    unfold checkIdempotency
    rw [if_pos rfl, hs.lookup]
    cases t.redis.lookup key <;> rfl

/-- Other clients' keys are not looked up. -/
theorem Caches.other (hs : Caches py s t) {key : Text} (hkey : ¬ "idem:".toList <+: key) (text : Option Text) :
    Caches py { s with texts := (text.map (key, ·)).toList ++ s.texts.filter (·.1 ≠ key) } t := by
  refine ⟨hs.same, hs.refused, hs.bodies, fun k => ?_⟩
  have hne : redisKey k ≠ key := fun h => hkey ⟨k, h⟩
  have hrest : (s.texts.filter (·.1 ≠ key)).lookup (redisKey k) = s.texts.lookup (redisKey k) := by
    rw [lookup_filter_ne, if_neg hne]
  cases text with
  | none => exact hrest.trans (hs.texts k)
  | some text =>
    refine Eq.trans ?_ (hrest.trans (hs.texts k))
    rw [Option.map_some, Option.toList_some, List.singleton_append, List.lookup_cons, beq_false_of_ne hne]

theorem Caches.evict (hs : Caches py s t) (key : Text) :
    Caches py { s with texts := s.texts.filter (·.1 ≠ redisKey key) }
      { t with redis := t.redis.filter (·.1 ≠ key) } := by
  refine ⟨?_, hs.refused, hs.bodies, fun k => ?_⟩
  · exact congrArg (fun t : Store => { t with redis := t.redis.filter (·.1 ≠ key) }) hs.same
  · rw [lookup_filter_ne, lookup_filter_ne]
    by_cases hk : k = key
    · rw [if_pos hk, if_pos (congrArg redisKey hk), Option.map_none]
    · rw [if_neg hk, if_neg fun h => hk (redisKey_injective h), hs.texts k]

theorem Caches.store (hs : Caches py s t) (available : Bool) (key : Text) (ack : WebhookAck) :
    Caches py { s with texts := storeIdempotencyResponse py available key ack.json s.texts }
      { t with redis := if available then (key, ack) :: t.redis else t.redis } := by
  cases available with
  | false => exact hs
  | true =>
    refine ⟨congrArg (fun t : Store => { t with redis := (key, ack) :: t.redis }) hs.same, hs.refused, hs.bodies,
      fun k => ?_⟩
    simp only [storeIdempotencyResponse, if_true, List.lookup_cons]
    by_cases hk : k = key
    · rw [hk, beq_self_eq_true, beq_self_eq_true]
      rfl
    · rw [beq_false_of_ne hk, beq_false_of_ne fun h => hk (redisKey_injective h)]
      exact hs.texts k

theorem Caches.send (hs : Caches py s t) (r : Request) (ack : WebhookAck) :
    Caches py { s with bodies := (r, ack.json) :: s.bodies } (t.respond r (.ack ack)) :=
  ⟨congrArg (fun t : Store => t.respond r (.ack ack)) hs.same, hs.refused,
    congrArg ((r, ack.json) :: ·) hs.bodies, hs.texts⟩

theorem Caches.enqueue (hs : Caches py s t) (a : Uuid) :
    Caches py { s with store := { s.store with queue := s.store.queue ++ [a] } }
      { t with queue := t.queue ++ [a] } :=
  ⟨congrArg (fun t : Store => { t with queue := t.queue ++ [a] }) hs.same, hs.refused, hs.bodies, hs.texts⟩

/-- A step over the texts is a step over the acks, or one of another client. -/
theorem cachedStep_simulates {a : CachedAction py} (h : cachedStep settings s l a = some (s', l'))
    (hs : Caches py s t) :
    ∃ t', Relation.ReflTransGen (Interleave.Does (procStep settings)) (t, l) (t', l') ∧ Caches py s' t' := by
  unfold cachedStep at h
  split at h
  next key text =>
    split_ifs at h with hkey
    cases h
    exact ⟨t, .refl, hs.other hkey text⟩
  next key =>
    cases h
    have hstep : procStep settings t l (.evict key) = some ({ t with redis := t.redis.filter (·.1 ≠ key) }, l) := by
      cases l <;> rfl
    exact ⟨_, Interleave.Does.once _ hstep, hs.evict key⟩
  next r available =>
    rw [hs.check] at h
    cases hfound : if available then t.redis.lookup (r.scopedKey py) else none with
    | some ack =>
      rw [hfound] at h
      cases h
      have hstep : procStep settings t (.request r .lookup) (.lookup available : Action py) =
          some (t.respond r (.ack ack), .idle) := by
        simp only [procStep, requestStep, hfound]
      exact ⟨_, Interleave.Does.once _ hstep, hs.send r ack⟩
    | none =>
      rw [hfound] at h
      cases h
      have hstep : procStep settings t (.request r .lookup) (.lookup available : Action py) =
          some (t, .request r .draft) := by
        simp only [procStep, requestStep, hfound]
      exact ⟨t, Interleave.Does.once _ hstep, hs⟩
  next r ack available =>
    cases h
    exact ⟨_, Interleave.Does.once (.respond available) rfl,
      ((hs.store available _ ack).send r ack).enqueue ack.applicationId⟩
  next l a hevict hlookup hrespond =>
    obtain ⟨⟨store, next⟩, hstep, heq⟩ := Option.map_eq_some_iff.mp h
    cases heq
    obtain ⟨refusals, hrefusals, hresponses, hall⟩ := procStep_refuses hevict
      (fun r available hl ha => hlookup r available hl ha)
      (fun r ack available hl ha => hrespond r ack available hl ha)
      hstep
    have ht := hall t.redis t.responses
    rw [← hs.same] at ht
    refine ⟨_, Interleave.Does.once _ ht, rfl, ?_, ?_, hs.texts⟩
    · have hkept : refusals.filter (fun e => e.2.body.isNone) = refusals := List.filter_eq_self.mpr fun e he => by
        obtain ⟨error, herror⟩ := hrefusals e he
        rw [herror]
        rfl
      exact hresponses.trans ((congrArg₂ (· ++ ·) hkept.symm hs.refused).trans (List.filter_append ..).symm)
    · have hnone : (refusals.filterMap fun e => e.2.body.map fun body => (e.1, body)) = [] :=
        List.filterMap_eq_nil_iff.mpr fun e he => by
          obtain ⟨error, herror⟩ := hrefusals e he
          rw [herror]
          rfl
      exact hs.bodies.trans ((congrArg (· ++ _) hnone.symm).trans (List.filterMap_append ..).symm)

variable {ok : Interleave.Config CachedStore (Proc py) → ℕ → CachedAction py → Prop}
  {c : Interleave.Config CachedStore (Proc py)}

theorem service_of_reaches (h : Interleave.Reaches (cachedStep settings) ok (cachedInitial py) c) :
    ∃ d : Service py, ServiceReaches py settings Interleave.anyStep d ∧ Caches py c.shared d.shared ∧
      d.procs = c.procs := by
  have h0 : Caches py (cachedInitial py).shared (initial py).shared := ⟨rfl, rfl, rfl, fun _ => rfl⟩
  have hfollowed : ∃ d : Service py, ServiceReaches py settings Interleave.anyStep d ∧
      Caches py c.shared d.shared ∧ ∀ p, d.procs p = c.procs p :=
    h.simulates (R := Caches py) (Q := fun l m => m = l) h0 (fun _ => rfl) fun _ _ hR hQ hstep => by
      subst hQ
      obtain ⟨t', hsteps, ht'⟩ := cachedStep_simulates hstep hR
      exact ⟨t', _, hsteps, ht', rfl⟩
  obtain ⟨d, hd, hshared, hprocs⟩ := hfollowed
  exact ⟨d, hd, hshared, funext hprocs⟩

/-! ### One message for each key -/

/-- The application and the message that are filed under a scoped key. -/
def Database.registered (db : Database) (key : Text) : Option (Uuid × Uuid) :=
  (db.communications.find? fun m => m.idempotencyKey = some key).map fun m => (m.applicationId, m.id)

/-- The registry of messages and the answers given from it. -/
def Store.registry (py : Python) (s : Store) : Registry.State Text (Uuid × Uuid) where
  entries := s.db.registered
  answers := s.responses.filterMap fun e => match e.2 with
    | .ack ack => some (e.1.scopedKey py, ack.applicationId, ack.communicationId)
    | .refused _ => none

def Proc.client : Proc py → Registry.Client Text (Uuid × Uuid)
  | .request r (.respond ack) => .knowing (r.scopedKey py) (ack.applicationId, ack.communicationId)
  | .request r _ => .asking (r.scopedKey py)
  | _ => .idle

section Registered
variable {db db' : Database} {m : Communication} {key : Text} {ack : WebhookAck}

theorem registered_none (h : ∀ m ∈ db.communications, m.idempotencyKey ≠ some key) : db.registered key = none := by
  rw [Database.registered, List.find?_eq_none.mpr fun m hm => by simpa using h m hm]
  rfl

theorem registered_append (hdb : db'.communications = db.communications ++ [m]) (hm : m.idempotencyKey ≠ some key) :
    db'.registered key = db.registered key := by
  rw [Database.registered, hdb, List.find?_append, Database.registered]
  simp [hm]

/-- What an ack names is what is registered. -/
theorem Names.registered (hone : OneMessage db) (h : Names db key ack) :
    db.registered key = some (ack.applicationId, ack.communicationId) := by
  obtain ⟨m, hm, hkey, hid, happ⟩ := h
  cases hfind : db.communications.find? fun m => m.idempotencyKey = some key with
  | none => exact absurd hkey (by simpa using List.find?_eq_none.mp hfind m hm)
  | some m' =>
    have hnames : Names db key ⟨m'.applicationId, [], m'.id, []⟩ :=
      ⟨m', List.mem_of_find?_eq_some hfind, by simpa using List.find?_some hfind, rfl, rfl⟩
    obtain ⟨hid', happ'⟩ := hnames.agree hone ⟨m, hm, hkey, hid, happ⟩
    rw [Database.registered, hfind, Option.map_some]
    exact congrArg some (Prod.ext happ' hid')

/-- A commit registers its message. -/
theorem registered_commit {r : Request} {draws : IntakeDraws} {before : Database} {draft : Draft}
    (hdraft : Drafted py r draws before draft) (h : commitDraft draft db = .ok db') :
    db.registered (r.scopedKey py) = none ∧
      db'.registered = Function.update db.registered (r.scopedKey py)
        (some (draft.application.id, draft.communication.id)) := by
  obtain ⟨hfree, hdb⟩ := commitDraft_ok h
  have hnone : ∀ m ∈ db.communications, m.idempotencyKey ≠ some (r.scopedKey py) := by
    rw [Database.hasKey, hdraft.key] at hfree
    simpa using hfree
  refine ⟨registered_none hnone, funext fun key => ?_⟩
  have hcommunications : db'.communications = db.communications ++ [draft.communication] := by rw [hdb]
  by_cases hkey : key = r.scopedKey py
  · subst hkey
    rw [Function.update_self, Database.registered, hcommunications, List.find?_append,
      List.find?_eq_none.mpr fun m hm => by simpa using hnone m hm]
    simp [hdraft.key, hdraft.communication.2.1]
  · rw [Function.update_of_ne hkey]
    refine registered_append hcommunications ?_
    rw [hdraft.key]
    exact fun h => hkey (Option.some.inj h).symm

end Registered

/-- A step of the service is made of steps of a client of the registry. -/
theorem Transition.registers {s s' : Store} {l l' : Proc py} {a : Action py} (h : Transition settings s l a s' l')
    (hjust : l.Justified) (hacks : AcksOk py s) :
    Relation.ReflTransGen (Interleave.Does Registry.step) (s.registry py, l.client) (s'.registry py, l'.client) := by
  have hstill : l.client = .idle → s'.db.registered = s.db.registered := by
    intro hidle
    rcases h.commit with hdb | hcommit
    · rw [hdb]
    rcases hcommit.communications with hdb | ⟨r, draft, hrequest, -⟩ | ⟨σ, id, channel, content, hdb⟩
    · funext key
      rw [Database.registered, hdb, Database.registered]
    · rw [hrequest] at hidle
      cases hidle
    · exact funext fun key => registered_append hdb nofun
  have hrefl : s'.db.registered = s.db.registered → s'.responses = s.responses → l'.client = l.client →
      Relation.ReflTransGen (Interleave.Does Registry.step) (s.registry py, l.client)
        (s'.registry py, l'.client) := by
    intro hdb hresponses hclient
    rw [Store.registry, Store.registry, hdb, hresponses, hclient]
  cases h with
  | receive r => exact Interleave.Does.once (.ask (r.scopedKey py)) rfl
  | @cached r ack hack =>
    obtain ⟨l₁, l₂, hsplit, -⟩ := List.lookup_eq_some_iff.mp hack
    have hnames : Names s.db (r.scopedKey py) ack := hacks.cached (r.scopedKey py, ack) (by simp [hsplit])
    exact Interleave.Does.twice .find .answer (Registry.step_find (hnames.registered hacks.one)) rfl
  | stop | undrafted | uncommitted | disowned => exact Interleave.Does.once .leave (Registry.step_leave _ _)
  | @committed r draft db hcommit =>
    obtain ⟨draws, before, hdraft⟩ := hjust
    obtain ⟨hnone, hdb⟩ := registered_commit hdraft hcommit
    refine Interleave.Does.once (.make (draft.application.id, draft.communication.id))
      ((Registry.step_make hnone _).trans ?_)
    rw [Store.registry, Store.registry, hdb]
    rfl
  | replayed hreplay =>
    exact Interleave.Does.once .find (Registry.step_find ((names_replayAck hreplay).registered hacks.one))
  | answered r ack available => exact Interleave.Does.once .answer rfl
  | evict | forgotten | missed | drafted | conflicting => exact .refl
  | delivered memo accepted l hl => rcases hl with rfl | rfl <;> exact .refl
  | _ => exact hrefl (hstill rfl) rfl rfl

theorem registry_of_reaches {ok : Service py → ℕ → Action py → Prop} {d : Service py}
    (h : ServiceReaches py settings ok d) : Interleave.Reaches Registry.step Interleave.anyStep
      (Registry.initial Text (Uuid × Uuid)) ⟨d.shared.registry py, fun p => (d.procs p).client⟩ :=
  h.refines (Store.registry py) Proc.client fun hr _ hstep =>
    (procStep_transition hstep).registers (justified_of_reaches hr _) (acksOk_of_reaches hr)

/-- The service over texts in Redis refines the service over acks, and every lookup
in the texts gives the ack that is cached there. -/
theorem ack_cache_refines (h : Interleave.Reaches (cachedStep settings) Interleave.anyStep (cachedInitial py) c) :
    ∃ d : Service py, ServiceReaches py settings Interleave.anyStep d ∧ Caches py c.shared d.shared ∧
      d.procs = c.procs ∧ ∀ (available : Bool) (key : Text),
        checkIdempotency py (if available then some c.shared.texts else none) key =
          match if available then d.shared.redis.lookup key else none with
          | some ack => (true, some ack.json)
          | none => (false, none) := by
  obtain ⟨d, hd, hcaches, hprocs⟩ := service_of_reaches h
  exact ⟨d, hd, hcaches, hprocs, hcaches.check⟩

/-- The service over texts behind a schedule of its own steps and of other clients'. -/
def cachedAfter (schedule : List (ℕ × CachedAction asciiPython)) :
    Interleave.Config CachedStore (Proc asciiPython) :=
  Interleave.after (cachedStep sampleSettings) (fun _ _ _ => true) (cachedInitial asciiPython) schedule

/-- A message that is answered, sent again beside a client that counts requests, and sent
once more when its text is gone. -/
def cachedRun : List (ℕ × CachedAction asciiPython) :=
  let r := textRequest "alice".toList "hello".toList "k1".toList [] length_alice length_hello length_k1
    length_unattached
  (intakeSteps 0 r 1).map (fun e => (e.1, .service e.2)) ++
    [(0, .other "LIMITER/alice".toList (some "1".toList)), (1, .service (.receive r)),
      (1, .service (.lookup true)), (2, .service (.evict "alice:k1".toList)), (2, .service (.receive r)),
      (2, .service (.lookup true)), (2, .service (.draft (sampleIntake 2))), (2, .service .commitMessage),
      (2, .service .replay), (2, .service (.respond true))]

theorem cachedRun_reached : Interleave.Reaches (cachedStep sampleSettings) Interleave.anyStep
    (cachedInitial asciiPython) (cachedAfter cachedRun) := Interleave.after_reaches fun _ _ _ _ => trivial

theorem ack_cache_refines_cachedRun : (cachedAfter cachedRun).shared.texts.length = 2 ∧
    ∃ d : Service asciiPython, ServiceReaches asciiPython sampleSettings Interleave.anyStep d ∧
      Caches asciiPython (cachedAfter cachedRun).shared d.shared ∧ d.procs = (cachedAfter cachedRun).procs ∧
      ∀ (available : Bool) (key : Text),
        checkIdempotency asciiPython (if available then some (cachedAfter cachedRun).shared.texts else none) key =
          match if available then d.shared.redis.lookup key else none with
          | some ack => (true, some ack.json)
          | none => (false, none) :=
  ⟨by decide +kernel, ack_cache_refines cachedRun_reached⟩

/-- What the bodies were taken from. -/
structure Registered (py : Python) (s : CachedStore) (registry : Registry.State Text (Uuid × Uuid)) : Prop where
  entries : registry.entries = s.store.db.registered
  answers : List.Forall₂ (fun b a => a.1 = b.1.scopedKey py ∧
    ∃ ack : WebhookAck, b.2 = ack.json ∧ a.2 = (ack.applicationId, ack.communicationId)) s.bodies registry.answers

/-- Two bodies for one key name one application and one message. -/
def BodiesAgree (py : Python) (bodies : List (Request × Json)) : Prop :=
  ∀ b ∈ bodies, ∀ b' ∈ bodies, b.1.scopedKey py = b'.1.scopedKey py →
    ∃ ack ack' : WebhookAck, b.2 = ack.json ∧ b'.2 = ack'.json ∧
      ack.applicationId = ack'.applicationId ∧ ack.communicationId = ack'.communicationId

theorem Caches.registered (hs : Caches py s t) : Registered py s (t.registry py) := by
  refine ⟨by rw [hs.same]; rfl, ?_⟩
  rw [hs.bodies, Store.registry]
  dsimp only
  induction t.responses with
  | nil => exact .nil
  | cons e responses ih =>
    obtain ⟨r, ack | error⟩ := e
    · exact .cons ⟨rfl, ack, rfl, rfl⟩ ih
    · exact ih

theorem mem_forall₂ {α β : Type*} {R : α → β → Prop} {as : List α} {bs : List β} (h : List.Forall₂ R as bs)
    {a : α} (ha : a ∈ as) : ∃ b ∈ bs, R a b := by
  induction h with
  | nil => cases ha
  | cons hab _ ih =>
    rcases List.mem_cons.mp ha with rfl | ha
    · exact ⟨_, List.mem_cons_self, hab⟩
    · obtain ⟨b, hb, hr⟩ := ih ha
      exact ⟨b, List.mem_cons_of_mem _ hb, hr⟩

/-- The service over texts in Redis refines the registry of messages. -/
theorem bodies_from_registry
    (h : Interleave.Reaches (cachedStep settings) Interleave.anyStep (cachedInitial py) c) :
    (∃ e, Interleave.Reaches Registry.step Interleave.anyStep (Registry.initial Text (Uuid × Uuid)) e ∧
      Registered py c.shared e.shared) ∧ BodiesAgree py c.shared.bodies := by
  obtain ⟨d, hd, hcaches, -⟩ := service_of_reaches h
  have hregistry := registry_of_reaches hd
  have hregistered := hcaches.registered
  refine ⟨⟨_, hregistry, hregistered⟩, fun b hb b' hb' hkey => ?_⟩
  obtain ⟨⟨k, e⟩, ha, hk, ack, hack, he⟩ := mem_forall₂ hregistered.answers hb
  obtain ⟨⟨k', e'⟩, ha', hk', ack', hack', he'⟩ := mem_forall₂ hregistered.answers hb'
  obtain rfl : k = k' := hk.trans (hkey.trans hk'.symm)
  obtain rfl : e = e' := Registry.answers_agree hregistry ha ha'
  have hagree := he.symm.trans he'
  exact ⟨ack, ack', hack, hack', congrArg Prod.fst hagree, congrArg Prod.snd hagree⟩

theorem bodies_from_registry_cachedRun : (cachedAfter cachedRun).shared.bodies.length = 3 ∧
    (cachedAfter cachedRun).shared.store.db.communications.length = 1 ∧
    (∃ e, Interleave.Reaches Registry.step Interleave.anyStep (Registry.initial Text (Uuid × Uuid)) e ∧
      Registered asciiPython (cachedAfter cachedRun).shared e.shared) ∧
    BodiesAgree asciiPython (cachedAfter cachedRun).shared.bodies :=
  ⟨by decide +kernel, by decide +kernel, bodies_from_registry cachedRun_reached⟩

end LoanAgent
