import LoanAgent.Reachability

/-! Intake happens once for each scoped key. A request is answered from the cache,
from its own commit or from the row that another request committed before it;
the cache may lose or refuse entries at any time. Proved: in every reachable
state a scoped key has at most one message, every ack that is cached or was sent
names it, and two acks for one key agree. -/

namespace LoanAgent

variable {py : Python} {settings : Settings} {s s' : Store} {l l' : Proc py} {a : Action py}
  {c : Service py}

/-- At most one message carries a key. -/
def OneMessage (db : Database) : Prop :=
  ∀ key, (db.communications.filter fun m => m.idempotencyKey = some key).length ≤ 1

/-- The ack names a committed message with the key. -/
def Names (db : Database) (key : Text) (ack : WebhookAck) : Prop :=
  ∃ m ∈ db.communications, m.idempotencyKey = some key ∧ m.id = ack.communicationId ∧
    m.applicationId = ack.applicationId

theorem Names.mono {db db' : Database} (h : ∀ m ∈ db.communications, m ∈ db'.communications)
    {key : Text} {ack : WebhookAck} : Names db key ack → Names db' key ack := fun ⟨m, hm, hnames⟩ =>
  ⟨m, h m hm, hnames⟩

/-- The messages with one key are one message. -/
theorem OneMessage.unique {db : Database} (h : OneMessage db) {key : Text} {m m' : Communication}
    (hm : m ∈ db.communications) (hk : m.idempotencyKey = some key) (hm' : m' ∈ db.communications)
    (hk' : m'.idempotencyKey = some key) : m = m' := by
  have hmem : ∀ x ∈ db.communications, x.idempotencyKey = some key →
      x ∈ db.communications.filter fun m => m.idempotencyKey = some key := by
    intro x hx hkey
    simp [hx, hkey]
  obtain ⟨x, hx⟩ := List.length_eq_one_iff.mp
    (Nat.le_antisymm (h key) (List.length_pos_of_mem (hmem m hm hk)))
  have hm := hx ▸ hmem m hm hk
  have hm' := hx ▸ hmem m' hm' hk'
  exact (List.mem_singleton.mp hm).trans (List.mem_singleton.mp hm').symm

/-- Two acks for one key agree. -/
theorem Names.agree {db : Database} (h : OneMessage db) {key : Text} {ack ack' : WebhookAck}
    (h1 : Names db key ack) (h2 : Names db key ack') :
    ack.communicationId = ack'.communicationId ∧ ack.applicationId = ack'.applicationId := by
  obtain ⟨m, hm, hk, hid, happ⟩ := h1
  obtain ⟨m', hm', hk', hid', happ'⟩ := h2
  rw [← hid, ← hid', ← happ, ← happ', h.unique hm hk hm' hk']
  exact ⟨rfl, rfl⟩

/-! ### One step -/

theorem Transition.oneMessage (h : Transition settings s l a s' l') (hs : OneMessage s.db) :
    OneMessage s'.db := by
  rcases h.commit with hdb | hcommit
  · rwa [hdb]
  intro key
  rcases hcommit.communications with h | ⟨r, draft, -, hc, h⟩ | ⟨σ, id, channel, content, h⟩
  · rw [h]
    exact hs key
  · rw [h, List.filter_append, List.length_append]
    by_cases hkey : draft.communication.idempotencyKey = some key
    · have hlast := List.length_filter_le (fun m : Communication => m.idempotencyKey = some key)
        [draft.communication]
      have hnone : (s.db.communications.filter fun m => m.idempotencyKey = some key) = [] := by
        have hfree := (commitDraft_ok hc).1
        simp only [Database.hasKey, hkey, Option.isSome_some, Bool.true_and, List.any_eq_false,
          decide_eq_true_eq] at hfree
        simpa [List.filter_eq_nil_iff] using hfree
      rw [hnone]
      simpa using hlast
    · simpa [hkey] using hs key
  · rw [h]
    simpa [chaseMessage] using hs key

/-- What the cache and the responses hold. -/
structure AcksOk (py : Python) (s : Store) : Prop where
  one : OneMessage s.db
  cached : ∀ e ∈ s.redis, Names s.db e.1 e.2
  sent : ∀ r ack, (r, .ack ack) ∈ s.responses → Names s.db (r.scopedKey py) ack

/-- A request that is about to answer has an ack that names a committed message. -/
def Proc.Answers (db : Database) : Proc py → Prop
  | .request r (.respond ack) => Names db (r.scopedKey py) ack
  | _ => True

/-- A replayed ack names the message that it was found under. -/
theorem names_replayAck {db : Database} {key borrower : Text} {ack : WebhookAck}
    (h : replayAck db key borrower = some ack) : Names db key ack := by
  simp only [replayAck, Option.bind_eq_some_iff] at h
  obtain ⟨m, hm, x, -, hack⟩ := h
  split_ifs at hack
  cases hack
  exact ⟨m, List.mem_of_find?_eq_some hm, by simpa using List.find?_some hm, rfl, rfl⟩

theorem Transition.acks (h : Transition settings s l a s' l') (hjust : l.Justified)
    (hs : AcksOk py s) (hl : l.Answers s.db) : AcksOk py s' ∧ l'.Answers s'.db := by
  have hmono : ∀ {key ack}, Names s.db key ack → Names s'.db key ack := .mono h.communications_mono
  have hone := h.oneMessage hs.one
  have hcached := fun e he => hmono (hs.cached e he)
  have hsent := fun r ack hr => hmono (hs.sent r ack hr)
  cases h with
  | evict => exact ⟨⟨hone, fun e he => hcached e (List.mem_filter.mp he).1, hsent⟩, hl⟩
  | forgotten => exact ⟨⟨hone, hcached, hsent⟩, hl⟩
  | @cached r ack hack =>
    have hnames : Names s.db (r.scopedKey py) ack := by
      obtain ⟨l₁, l₂, hsplit, -⟩ := List.lookup_eq_some_iff.mp hack
      exact hs.cached (r.scopedKey py, ack) (by simp [hsplit])
    refine ⟨⟨hone, hcached, fun r' ack' hr => ?_⟩, trivial⟩
    rcases List.mem_cons.mp hr with heq | hr
    · cases heq
      exact hnames
    · exact hsent r' ack' hr
  | @undrafted r draws e files | @uncommitted r draft e | @disowned r =>
    refine ⟨⟨hone, hcached, fun r' ack' hr => ?_⟩, trivial⟩
    rcases List.mem_cons.mp hr with heq | hr
    · cases heq
    · exact hsent r' ack' hr
  | @committed r draft db hc =>
    obtain ⟨draws, db₀, hdraft⟩ := hjust
    refine ⟨⟨hone, hcached, hsent⟩, draft.communication, ?_, hdraft.key, rfl, hdraft.communication.2.1⟩
    rw [(commitDraft_ok hc).2]
    simp
  | replayed hr => exact ⟨⟨hone, hcached, hsent⟩, names_replayAck hr⟩
  | answered r ack available =>
    refine ⟨⟨hone, fun e he => ?_, fun r' ack' hr => ?_⟩, trivial⟩
    · dsimp only at he
      split_ifs at he
      · rcases List.mem_cons.mp he with rfl | he
        · exact hl
        · exact hcached e he
      · exact hcached e he
    · rcases List.mem_cons.mp hr with heq | hr
      · cases heq
        exact hl
      · exact hsent r' ack' hr
  | delivered _ _ _ h => rcases h with rfl | rfl <;> exact ⟨⟨hone, hcached, hsent⟩, trivial⟩
  | _ => exact ⟨⟨hone, hcached, hsent⟩, trivial⟩

/-! ### Every run -/

theorem acksOk_of_reaches {ok : Service py → ℕ → Action py → Prop} (h : ServiceReaches py settings ok c) :
    AcksOk py c.shared := by
  have h0 : AcksOk py (initial py).shared := ⟨fun _ => Nat.zero_le _, nofun, nofun⟩
  refine ((h.assuming (I := fun c => ∀ p, (c.procs p).Justified) fun h => justified_of_reaches h).assertions
    (I := AcksOk py) (J := fun s l => l.Answers s.db)
    (R := fun s s' => ∀ m ∈ s.db.communications, m ∈ s'.db.communications)
    h0 (fun _ => trivial) ?_ ?_).1
  · rintro c p a s' l' ⟨-, hjust⟩ hs hl hstep
    have htrans := procStep_transition hstep
    obtain ⟨hs', hl'⟩ := htrans.acks (hjust p) hs hl
    exact ⟨hs', hl', htrans.communications_mono⟩
  · rintro s s' (_ | ⟨r, _ | _ | _ | _ | ack⟩ | _ | _) hR hl
    all_goals first | exact trivial | exact Names.mono hR hl

/-- What exactly-once intake promises of a state. -/
structure ExactlyOnce (py : Python) (s : Store) : Prop extends AcksOk py s where
  agree : ∀ r r' ack ack', (r, .ack ack) ∈ s.responses → (r', .ack ack') ∈ s.responses →
    r.scopedKey py = r'.scopedKey py →
    ack.communicationId = ack'.communicationId ∧ ack.applicationId = ack'.applicationId

/-- Exactly-once intake, under any interleaving and any loss of the cache. -/
theorem intake_exactly_once (h : ServiceReaches py settings Interleave.anyStep c) :
    ExactlyOnce py c.shared := by
  obtain ⟨hone, hcached, hsent⟩ := acksOk_of_reaches h
  refine ⟨⟨hone, hcached, hsent⟩, fun r r' ack ack' hr hr' hkey => ?_⟩
  exact (hsent r ack hr).agree hone (hkey ▸ hsent r' ack' hr')

/-- A message whose cached ack is lost before it is sent again. -/
def lostAck : List (ℕ × Action asciiPython) :=
  let r := textRequest "alice".toList "hello".toList "k1".toList [] length_alice length_hello length_k1
    length_unattached
  intakeSteps 0 r 1 ++ [(1, .evict "alice:k1".toList), (1, .receive r), (1, .lookup true),
    (1, .draft (sampleIntake 2)), (1, .commitMessage), (1, .replay), (1, .respond false)]

theorem intake_exactly_once_lostAck :
    (serviceAfter (fun _ _ _ => true) lostAck).shared.responses.length = 2 ∧
    (serviceAfter (fun _ _ _ => true) lostAck).shared.db.communications.length = 1 ∧
    ExactlyOnce asciiPython (serviceAfter (fun _ _ _ => true) lostAck).shared :=
  ⟨by decide +kernel, by decide +kernel, intake_exactly_once
    (Interleave.after_reaches fun _ _ _ _ => trivial)⟩

end LoanAgent
