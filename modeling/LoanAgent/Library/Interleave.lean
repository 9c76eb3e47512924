import Mathlib.Logic.Function.Basic
import Mathlib.Logic.Relation
import Mathlib.Data.Nat.Notation
import Mathlib.Tactic.SplitIfs

/-! Processes that share a state and take their steps in any order. A process
is a partial function on the shared state and its own local state; a
configuration holds the shared state and the local state of every process, and
a run is any sequence of enabled steps. Proved: the invariant rule for runs
whose steps all meet a side condition, its rely-guarantee form (a local
assertion of every process that the steps of the others leave true), and that
an executed schedule, and the steps of one process alone, are such runs. -/

namespace Interleave

variable {S L A : Type*}

/-- One step of a process with local state `L` on the shared state `S`. -/
abbrev Step (S L A : Type*) := S → L → A → Option (S × L)

/-- The shared state and the local state of every process. -/
structure Config (S L : Type*) where
  shared : S
  procs : ℕ → L

/-- Process `p` takes the step labelled `a`. -/
def next (step : Step S L A) (c : Config S L) (p : ℕ) (a : A) : Option (Config S L) :=
  (step c.shared (c.procs p) a).map fun r => ⟨r.1, Function.update c.procs p r.2⟩

theorem next_eq_some {step : Step S L A} {c c' : Config S L} {p : ℕ} {a : A}
    (h : next step c p a = some c') :
    ∃ s l, step c.shared (c.procs p) a = some (s, l) ∧ c' = ⟨s, Function.update c.procs p l⟩ := by
  simp only [next, Option.map_eq_some_iff] at h
  obtain ⟨⟨s, l⟩, hs, rfl⟩ := h
  exact ⟨s, l, hs, rfl⟩

/-- The configurations reached from `init` by steps that all meet `ok`, a
condition on the configuration before the step and on its label. -/
inductive Reaches (step : Step S L A) (ok : Config S L → ℕ → A → Prop) (init : Config S L) :
    Config S L → Prop
  | start : Reaches step ok init init
  | step {c c' : Config S L} {p : ℕ} {a : A} (hr : Reaches step ok init c) (hok : ok c p a)
      (hs : next step c p a = some c') : Reaches step ok init c'

/-- No side condition on the steps. -/
abbrev anyStep : Config S L → ℕ → A → Prop := fun _ _ _ => True

section Invariants
variable {step : Step S L A} {ok : Config S L → ℕ → A → Prop} {init : Config S L}

theorem Reaches.mono {ok' : Config S L → ℕ → A → Prop} (hle : ∀ c p a, ok c p a → ok' c p a)
    {c : Config S L} (h : Reaches step ok init c) : Reaches step ok' init c := by
  induction h with
  | start => exact .start
  | step _ hok hs ih => exact ih.step (hle _ _ _ hok) hs

/-- A run can be continued. -/
theorem Reaches.trans {c c' : Config S L} (h : Reaches step ok init c) (h' : Reaches step ok c c') :
    Reaches step ok init c' := by
  induction h' with
  | start => exact h
  | step _ hok hs ih => exact ih.step hok hs

/-- An invariant that is already known may be assumed where a step is taken. -/
theorem Reaches.assuming {I : Config S L → Prop} (hI : ∀ {c}, Reaches step ok init c → I c)
    {c : Config S L} (h : Reaches step ok init c) :
    Reaches step (fun c p a => ok c p a ∧ I c) init c := by
  induction h with
  | start => exact .start
  | step hr hok hs ih => exact ih.step ⟨hok, hI hr⟩ hs

/-- What holds at the start and survives every step of a run holds throughout. -/
theorem Reaches.invariant {I : Config S L → Prop} (h0 : I init)
    (hstep : ∀ c p a s l, I c → ok c p a → step c.shared (c.procs p) a = some (s, l) →
      I ⟨s, Function.update c.procs p l⟩)
    {c : Config S L} (h : Reaches step ok init c) : I c := by
  induction h with
  | start => exact h0
  | step _ hok hs ih =>
    obtain ⟨s, l, hl, rfl⟩ := next_eq_some hs
    exact hstep _ _ _ s l ih hok hl

/-- Rely-guarantee: every step keeps the invariant `I` of the shared state,
establishes the assertion `J` of its own process and stays within `R`, under
which the assertions of the other processes are stable. -/
theorem Reaches.assertions {I : S → Prop} {J : S → L → Prop} {R : S → S → Prop}
    (hI : I init.shared) (hJ : ∀ p, J init.shared (init.procs p))
    (hstep : ∀ c p a s l, ok c p a → I c.shared → J c.shared (c.procs p) →
      step c.shared (c.procs p) a = some (s, l) → I s ∧ J s l ∧ R c.shared s)
    (hstable : ∀ s s' m, R s s' → J s m → J s' m)
    {c : Config S L} (h : Reaches step ok init c) : I c.shared ∧ ∀ p, J c.shared (c.procs p) := by
  refine h.invariant (I := fun c => I c.shared ∧ ∀ p, J c.shared (c.procs p)) ⟨hI, hJ⟩ ?_
  rintro c p a s l ⟨hc, hp⟩ hok hs
  obtain ⟨h1, h2, h3⟩ := hstep c p a s l hok hc (hp p) hs
  refine ⟨h1, fun q => ?_⟩
  by_cases hq : q = p
  · subst hq; simpa using h2
  · simpa [Function.update_of_ne hq] using hstable _ _ _ h3 (hp q)

end Invariants

/-- A step of a process that chooses its action by its own state. -/
def Solo (step : Step S L A) (choose : L → A) (x y : S × L) : Prop := step x.1 x.2 (choose x.2) = some y

/-- The others wait where they are. -/
theorem Reaches.solo {step : Step S L A} {ok : Config S L → ℕ → A → Prop} {init c : Config S L}
    {choose : L → A} {p : ℕ} (hr : Reaches step ok init c) (hok : ∀ c : Config S L, ok c p (choose (c.procs p)))
    {x : S × L} (h : Relation.ReflTransGen (Solo step choose) (c.shared, c.procs p) x) :
    Reaches step ok init ⟨x.1, Function.update c.procs p x.2⟩ := by
  induction h with
  | refl => simpa using hr
  | @tail y z _ hs ih =>
    refine ih.step (p := p) (a := choose y.2) (by simpa using hok ⟨y.1, Function.update c.procs p y.2⟩) ?_
    simp only [Solo] at hs
    simp [next, hs]

/-- Execute a schedule, refusing the steps that fail the test. -/
def execute (step : Step S L A) (test : Config S L → ℕ → A → Bool) (c : Config S L) :
    List (ℕ × A) → Option (Config S L)
  | [] => some c
  | (p, a) :: rest =>
    if test c p a then (next step c p a).bind fun c' => execute step test c' rest else none

/-- An executed schedule is a run whose steps meet the condition, where the test
decides it for the steps of the schedule. -/
theorem execute_reaches {step : Step S L A} {test : Config S L → ℕ → A → Bool}
    {ok : Config S L → ℕ → A → Prop} {init : Config S L} {schedule : List (ℕ × A)}
    (htest : ∀ c, ∀ e ∈ schedule, test c e.1 e.2 = true → ok c e.1 e.2) {c c' : Config S L}
    (h0 : Reaches step ok init c) (h : execute step test c schedule = some c') :
    Reaches step ok init c' := by
  induction schedule generalizing c with
  | nil =>
    simp only [execute, Option.some.injEq] at h
    exact h ▸ h0
  | cons e rest ih =>
    obtain ⟨p, a⟩ := e
    simp only [execute] at h
    split_ifs at h with ht
    rw [Option.bind_eq_some_iff] at h
    obtain ⟨d, hd, hrest⟩ := h
    exact ih (fun c e he => htest c e (List.mem_cons_of_mem _ he))
      (h0.step (htest c (p, a) List.mem_cons_self ht) hd) hrest

/-- The configuration behind a schedule, if all its steps are enabled. -/
def after (step : Step S L A) (test : Config S L → ℕ → A → Bool) (init : Config S L)
    (schedule : List (ℕ × A)) : Config S L := (execute step test init schedule).getD init

theorem after_reaches {step : Step S L A} {test : Config S L → ℕ → A → Bool}
    {ok : Config S L → ℕ → A → Prop} {init : Config S L} {schedule : List (ℕ × A)}
    (htest : ∀ c, ∀ e ∈ schedule, test c e.1 e.2 = true → ok c e.1 e.2) :
    Reaches step ok init (after step test init schedule) := by
  unfold after
  cases h : execute step test init schedule with
  | none => exact .start
  | some c => exact execute_reaches htest .start h

theorem next_after {step : Step S L A} {c : Config S L} {p : ℕ} {a : A}
    (h : (next step c p a).isSome = true) :
    next step c p a = some (after step (fun _ _ _ => true) c [(p, a)]) := by
  obtain ⟨c', hc⟩ := Option.isSome_iff_exists.mp h
  simp [after, execute, hc]

end Interleave
