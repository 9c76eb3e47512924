import LoanAgent.Library.Interleave

/-! A registry that gives every key one entry. A client asks for a key; it comes to
know the entry, by making it where there is none or by finding it, and answers with
what it knows, or leaves at any time. Making an entry is one step. Proved: in every
state an answer is the entry of its key, entries are never lost or replaced, and so
all answers to one key are the same, in whatever order the clients work. -/

namespace Registry

variable {K E : Type*}

/-- The entries; the answers, the latest first, are a record of what has happened. -/
structure State (K E : Type*) where
  entries : K → Option E
  answers : List (K × E)

/-- What a client is about. -/
inductive Client (K E : Type*)
  | idle
  | asking (k : K)
  | knowing (k : K) (e : E)

inductive Event (K E : Type*)
  | ask (k : K)
  | make (e : E)
  | find
  | answer
  | leave

/-- One step of a client. -/
def step [DecidableEq K] : Interleave.Step (State K E) (Client K E) (Event K E) := fun s client event =>
  match client, event with
  | .idle, .ask k => some (s, .asking k)
  | .asking k, .make e => match s.entries k with
    | none => some ({ s with entries := Function.update s.entries k (some e) }, .knowing k e)
    | some _ => none
  | .asking k, .find => (s.entries k).map fun e => (s, .knowing k e)
  | .knowing k e, .answer => some ({ s with answers := (k, e) :: s.answers }, .idle)
  | _, .leave => some (s, .idle)
  | _, _ => none

/-- No entry yet, and every client idle. -/
def initial (K E : Type*) : Interleave.Config (State K E) (Client K E) := ⟨⟨fun _ => none, []⟩, fun _ => .idle⟩

/-- The client knows an entry of the registry. -/
def Client.Knows (s : State K E) : Client K E → Prop
  | .knowing k e => s.entries k = some e
  | _ => True

/-- The entries of the first are entries of the second. -/
def State.Extends (s s' : State K E) : Prop := ∀ k e, s.entries k = some e → s'.entries k = some e

/-- Every answer is the entry of its key. -/
def State.Answered (s : State K E) : Prop := ∀ a ∈ s.answers, s.entries a.1 = some a.2

theorem Client.Knows.mono {s s' : State K E} (h : s.Extends s') :
    ∀ {client : Client K E}, client.Knows s → client.Knows s'
  | .idle, _ | .asking _, _ => trivial
  | .knowing k e, hk => h k e hk

variable [DecidableEq K] {s s' : State K E} {client client' : Client K E} {event : Event K E}

theorem step_make {k : K} (h : s.entries k = none) (e : E) : step s (.asking k) (.make e) =
    some ({ s with entries := Function.update s.entries k (some e) }, .knowing k e) := by
  simp only [step, h]

theorem step_find {k : K} {e : E} (h : s.entries k = some e) :
    step s (.asking k) .find = some (s, .knowing k e) := by
  simp only [step, h, Option.map_some]

theorem step_leave (s : State K E) (client : Client K E) : step s client .leave = some (s, .idle) := by
  cases client <;> rfl

theorem step_extends (h : step s client event = some (s', client')) : s.Extends s' := by
  unfold step at h
  split at h
  case h_2 k e =>
    split at h
    · next hnone =>
      cases h
      intro k' e' hk
      have hne : k' ≠ k := by
        rintro rfl
        rw [hnone] at hk
        cases hk
      exact (Function.update_of_ne hne ..).trans hk
    · cases h
  case h_3 =>
    obtain ⟨e, -, he⟩ := Option.map_eq_some_iff.mp h
    cases he
    exact fun _ _ => id
  all_goals
    cases h
    try exact fun _ _ => id

theorem step_answered (h : step s client event = some (s', client')) (hs : s.Answered) (hc : client.Knows s) :
    s'.Answered ∧ client'.Knows s' := by
  have hextends := step_extends h
  have hold : ∀ a ∈ s.answers, s'.entries a.1 = some a.2 := fun a ha => hextends _ _ (hs a ha)
  unfold step at h
  split at h
  case h_2 k e =>
    split at h
    · cases h
      exact ⟨hold, Function.update_self ..⟩
    · cases h
  case h_3 k =>
    obtain ⟨e, he, heq⟩ := Option.map_eq_some_iff.mp h
    cases heq
    exact ⟨hold, he⟩
  case h_4 k e =>
    cases h
    exact ⟨List.forall_mem_cons.mpr ⟨hc, hold⟩, trivial⟩
  all_goals
    cases h
    try exact ⟨hold, trivial⟩

variable {ok : Interleave.Config (State K E) (Client K E) → ℕ → Event K E → Prop}
  {c : Interleave.Config (State K E) (Client K E)}

theorem answered_of_reaches (h : Interleave.Reaches step ok (initial K E) c) : c.shared.Answered := by
  refine (h.assertions (I := State.Answered) (J := fun s client => client.Knows s) (R := State.Extends)
    (fun _ ha => absurd ha List.not_mem_nil) (fun _ => trivial) ?_ fun s s' client hR hk => hk.mono hR).1
  intro c p event s client _ hs hc hstep
  obtain ⟨hs', hc'⟩ := step_answered hstep hs hc
  exact ⟨hs', hc', step_extends hstep⟩

/-- All answers to one key are the same. -/
theorem answers_agree (h : Interleave.Reaches step ok (initial K E) c) {k : K} {e e' : E}
    (ha : (k, e) ∈ c.shared.answers) (ha' : (k, e') ∈ c.shared.answers) : e = e' :=
  Option.some.inj ((answered_of_reaches h _ ha).symm.trans (answered_of_reaches h _ ha'))

end Registry
