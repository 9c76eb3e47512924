import LoanAgent.ExactlyOnce

/-! Requests of different borrowers. Both the cache and the database look a
request up by its scoped key, the borrower and the request's own key joined by
a colon, which either may hold; only the replay from the database compares the
borrowers as well, and then refuses the request. Proved: two requests of
different borrowers stay out of each other's way in every run exactly when the
one's pair of borrower and key does not overlap the other's. -/

namespace LoanAgent

variable {py : Python} {settings : Settings} {s s' : Store} {l l' : Proc py} {a : Action py}
  {c : Service py}

/-- A request was answered with the ack of the message that another has stored. -/
def AnsweredWith (s : Store) (r r' : Request) : Prop :=
  ∃ ack, (r, .ack ack) ∈ s.responses ∧ (r', ack.communicationId) ∈ s.stored

/-- A request was refused by the unique index on account of the message that
another has stored. -/
def RefusedFor (py : Python) (s : Store) (r r' : Request) : Prop :=
  (r, .refused .integrity) ∈ s.responses ∧
    ∃ m ∈ s.db.communications, m.idempotencyKey = some (r.scopedKey py) ∧ (r', m.id) ∈ s.stored

instance (py : Python) (s : Store) (r r' : Request) : Decidable (RefusedFor py s r r') :=
  inferInstanceAs (Decidable ((r, Response.refused .integrity) ∈ s.responses ∧
    ∃ m ∈ s.db.communications, m.idempotencyKey = some (r.scopedKey py) ∧ (r', m.id) ∈ s.stored))

/-- What a request has stored is a message under its scoped key. -/
def StoredOk (py : Python) (s : Store) : Prop :=
  ∀ r id, (r, id) ∈ s.stored →
    ∃ m ∈ s.db.communications, m.id = id ∧ m.idempotencyKey = some (r.scopedKey py)

theorem Transition.stored (h : Transition settings s l a s' l') (hjust : l.Justified)
    (hs : StoredOk py s) : StoredOk py s' := by
  have hkeep : ∀ r id, (r, id) ∈ s.stored →
      ∃ m ∈ s'.db.communications, m.id = id ∧ m.idempotencyKey = some (r.scopedKey py) := by
    intro r id hr
    obtain ⟨m, hm, hnames⟩ := hs r id hr
    exact ⟨m, h.communications_mono m hm, hnames⟩
  cases h with
  | @committed r draft db hc =>
    intro r' id hr
    rcases List.mem_cons.mp hr with heq | hr
    · cases heq
      obtain ⟨draws, db₀, hdraft⟩ := hjust
      refine ⟨draft.communication, ?_, rfl, hdraft.key⟩
      rw [(commitDraft_ok hc).2]
      simp
    · exact hkeep r' id hr
  | _ => exact hkeep

theorem storedOk_of_reaches {ok : Service py → ℕ → Action py → Prop} (h : ServiceReaches py settings ok c) :
    StoredOk py c.shared := by
  refine (h.assuming (I := fun c => ∀ p, (c.procs p).Justified) fun h => justified_of_reaches h).invariant
    (I := fun c => StoredOk py c.shared) (fun _ _ hr => absurd hr List.not_mem_nil) ?_
  rintro c p a s' l' hc ⟨-, hjust⟩ hs
  exact (procStep_transition hs).stored (hjust p) hc

/-- The message that a request has stored carries no other scoped key. -/
theorem stored_key {ok : Service py → ℕ → Action py → Prop} (h : ServiceReaches py settings ok c)
    {r' : Request} {m : Communication} (hm : m ∈ c.shared.db.communications)
    (hr : (r', m.id) ∈ c.shared.stored) : m.idempotencyKey = some (r'.scopedKey py) := by
  obtain ⟨m', hm', hid, hkey⟩ := storedOk_of_reaches h r' m.id hr
  rw [List.inj_on_of_nodup_map (keysUnique_of_reaches h).communications hm hm' hid.symm]
  exact hkey

/-- Requests with different scoped keys never meet. -/
theorem keys_apart {ok : Service py → ℕ → Action py → Prop} (h : ServiceReaches py settings ok c)
    {r r' : Request} (hkey : r.scopedKey py ≠ r'.scopedKey py) :
    ¬ AnsweredWith c.shared r r' ∧ ¬ RefusedFor py c.shared r r' := by
  constructor
  · rintro ⟨ack, hack, hr⟩
    obtain ⟨m, hm, hk, hid, -⟩ := (acksOk_of_reaches h).sent r ack hack
    rw [← hid] at hr
    exact hkey (Option.some.inj (hk.symm.trans (stored_key h hm hr)))
  · rintro ⟨-, m, hm, hk, hr⟩
    exact hkey (Option.some.inj (hk.symm.trans (stored_key h hm hr)))

/-- Two requests of different borrowers have different scoped keys and never meet
in any run exactly when they do not overlap. -/
theorem borrowers_isolated_iff (settings : Settings) {r r' : Request}
    (hborrower : r.borrower py ≠ r'.borrower py) :
    (r.scopedKey py ≠ r'.scopedKey py ∧
      ∀ c, ServiceReaches py settings Interleave.anyStep c →
        (¬ AnsweredWith c.shared r r' ∧ ¬ RefusedFor py c.shared r r') ∧
        (¬ AnsweredWith c.shared r' r ∧ ¬ RefusedFor py c.shared r' r)) ↔
      ¬ Request.Overlap py r r' := by
  constructor
  · rintro ⟨hkey, -⟩ hover
    exact hkey (Request.scopedKey_eq_iff.mpr (.inr hover))
  · intro hover
    have hkey : r.scopedKey py ≠ r'.scopedKey py := fun heq =>
      (Request.scopedKey_eq_iff.mp heq).elim (fun h => hborrower h.1) hover
    exact ⟨hkey, fun c hc => ⟨keys_apart hc hkey, keys_apart hc hkey.symm⟩⟩

/-! ### Two borrowers that meet -/

def colonKey : Request :=
  textRequest "a".toList "hello".toList "b:c".toList [] (by decide) length_hello (by decide) length_unattached

def colonUser : Request :=
  textRequest "a:b".toList "hello".toList "c".toList [] (by decide) length_hello (by decide) length_unattached

/-- The second borrower finds the ack of the first in the cache. -/
def sharedAck : List (ℕ × Action asciiPython) :=
  intakeSteps 0 colonKey 1 ++ [(1, .receive colonUser), (1, .lookup true)]

/-- Without the cache the second borrower runs into the unique index. -/
def sharedIndex : List (ℕ × Action asciiPython) :=
  intakeSteps 0 colonKey 1 ++ [(1, .receive colonUser), (1, .lookup false),
    (1, .draft (sampleIntake 2)), (1, .commitMessage), (1, .replay)]

theorem colonUser_meets_colonKey :
    colonUser.borrower asciiPython ≠ colonKey.borrower asciiPython ∧
    colonUser.scopedKey asciiPython = colonKey.scopedKey asciiPython ∧
    AnsweredWith (serviceAfter (fun _ _ _ => true) sharedAck).shared colonUser colonKey ∧
    RefusedFor asciiPython (serviceAfter (fun _ _ _ => true) sharedIndex).shared colonUser colonKey ∧
    ServiceReaches asciiPython sampleSettings Interleave.anyStep (serviceAfter (fun _ _ _ => true) sharedAck) ∧
    ServiceReaches asciiPython sampleSettings Interleave.anyStep
      (serviceAfter (fun _ _ _ => true) sharedIndex) :=
  ⟨by decide +kernel, by decide +kernel,
    ⟨⟨.ofNat 100, "pending_docs".toList, .ofNat 101, []⟩, by decide +kernel⟩, by decide +kernel,
    Interleave.after_reaches fun _ _ _ _ => trivial, Interleave.after_reaches fun _ _ _ _ => trivial⟩

theorem borrowers_isolated_iff_colon :
    (colonUser.scopedKey asciiPython ≠ colonKey.scopedKey asciiPython ∧
      ∀ c, ServiceReaches asciiPython sampleSettings Interleave.anyStep c →
        (¬ AnsweredWith c.shared colonUser colonKey ∧ ¬ RefusedFor asciiPython c.shared colonUser colonKey) ∧
        (¬ AnsweredWith c.shared colonKey colonUser ∧ ¬ RefusedFor asciiPython c.shared colonKey colonUser)) ↔
      ¬ Request.Overlap asciiPython colonUser colonKey :=
  borrowers_isolated_iff sampleSettings (by decide +kernel)

end LoanAgent
