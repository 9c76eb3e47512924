import LoanAgent.Library.Interleave

/-! Simulations between two systems of processes that share a state. A step of the
first system is matched by any number of steps of the second: none where the first
only moves inside or where the second has no part in it, several where it does at
once what the second does in turn. Proved: a run of the first is followed by a run
of the second that stays related to it; where the relation is a function, the second
is in the image of the first; what holds of a state only if it holds of the state
before it may be assumed along a run that ends in it. -/

namespace Interleave

variable {S L A S' L' A' : Type*} {step : Step S L A} {step' : Step S' L' A'}

section Relations
variable {ok : Config S L → ℕ → A → Prop} {ok' : Config S' L' → ℕ → A' → Prop} {init c : Config S L}
  {init' : Config S' L'}

/-- Every step is matched by a run of the second system that keeps the two related. -/
theorem Reaches.follows {R : Config S L → Config S' L' → Prop} (h0 : R init init')
    (hstep : ∀ {c c' : Config S L} {p a d}, Reaches step ok init c → ok c p a → R c d →
      next step c p a = some c' → ∃ d', Reaches step' ok' d d' ∧ R c' d')
    (h : Reaches step ok init c) : ∃ d, Reaches step' ok' init' d ∧ R c d := by
  induction h with
  | start => exact ⟨init', .start, h0⟩
  | step hr hok hs ih =>
    obtain ⟨d, hd, hR⟩ := ih
    obtain ⟨d', hd', hR'⟩ := hstep hr hok hR hs
    exact ⟨d', hd.trans hd', hR'⟩

/-- What is known of the end of a run, and goes back from each state to the one before,
may be assumed of every state on the way. -/
theorem Reaches.foreseeing {I : Config S L → Prop}
    (hback : ∀ {c c' : Config S L} {p a}, next step c p a = some c' → I c' → I c)
    (h : Reaches step ok init c) (hc : I c) :
    Reaches step (fun c p a => ok c p a ∧ ∀ c', next step c p a = some c' → I c') init c := by
  induction h with
  | start => exact .start
  | step _ hok hs ih =>
    refine (ih (hback hs hc)).step ⟨hok, fun d hd => ?_⟩ hs
    obtain rfl := Option.some.inj (hs.symm.trans hd)
    exact hc

end Relations

/-! ### Process by process -/

/-- One step of a process, whatever its label. -/
def Does (step : Step S L A) (x y : S × L) : Prop := ∃ a, step x.1 x.2 a = some y

theorem Does.once {x y : S × L} (a : A) (h : step x.1 x.2 a = some y) :
    Relation.ReflTransGen (Does step) x y := .single ⟨a, h⟩

theorem Does.twice {x y z : S × L} (a b : A) (h : step x.1 x.2 a = some y) (h' : step y.1 y.2 b = some z) :
    Relation.ReflTransGen (Does step) x z := (Does.once a h).tail ⟨b, h'⟩

/-- The steps of one process in a row; the others wait. -/
theorem Reaches.does {init c : Config S L} {p : ℕ} (hr : Reaches step anyStep init c) {x : S × L}
    (h : Relation.ReflTransGen (Does step) (c.shared, c.procs p) x) :
    Reaches step anyStep init ⟨x.1, Function.update c.procs p x.2⟩ := by
  induction h with
  | refl => simpa using hr
  | @tail y z _ hs ih =>
    obtain ⟨a, ha⟩ := hs
    refine ih.step (p := p) (a := a) trivial ?_
    simp [next, ha]

variable {ok : Config S L → ℕ → A → Prop} {init c : Config S L} {init' : Config S' L'}

/-- Every step is matched by steps of the second system that keep the shared states
and the local states related. -/
theorem Reaches.simulates {R : S → S' → Prop} {Q : L → L' → Prop} (hR : R init.shared init'.shared)
    (hQ : ∀ p, Q (init.procs p) (init'.procs p))
    (hstep : ∀ {c : Config S L} {p a s l t m}, Reaches step ok init c → ok c p a → R c.shared t →
      Q (c.procs p) m → step c.shared (c.procs p) a = some (s, l) →
      ∃ t' m', Relation.ReflTransGen (Does step') (t, m) (t', m') ∧ R s t' ∧ Q l m')
    (h : Reaches step ok init c) :
    ∃ d, Reaches step' anyStep init' d ∧ R c.shared d.shared ∧ ∀ p, Q (c.procs p) (d.procs p) := by
  refine h.follows (R := fun c d => R c.shared d.shared ∧ ∀ p, Q (c.procs p) (d.procs p)) ⟨hR, hQ⟩ ?_
  rintro c c' p a d hr hok ⟨hshared, hprocs⟩ hs
  obtain ⟨s, l, hl, rfl⟩ := next_eq_some hs
  obtain ⟨t, m, hdoes, ht, hm⟩ := hstep hr hok hshared (hprocs p) hl
  refine ⟨_, Reaches.start.does hdoes, ht, fun q => ?_⟩
  by_cases hq : q = p
  · subst hq
    simpa using hm
  · simpa [Function.update_of_ne hq] using hprocs q

/-- A refinement mapping: what the first system comes to stands for what the second
comes to. -/
theorem Reaches.refines (f : S → S') (g : L → L')
    (hstep : ∀ {c : Config S L} {p a s l}, Reaches step ok init c → ok c p a →
      step c.shared (c.procs p) a = some (s, l) →
      Relation.ReflTransGen (Does step') (f c.shared, g (c.procs p)) (f s, g l))
    (h : Reaches step ok init c) :
    Reaches step' anyStep ⟨f init.shared, g ∘ init.procs⟩ ⟨f c.shared, g ∘ c.procs⟩ := by
  have hfollowed : ∃ d, Reaches step' anyStep ⟨f init.shared, g ∘ init.procs⟩ d ∧ f c.shared = d.shared ∧
      ∀ p, g (c.procs p) = d.procs p :=
    h.simulates (R := fun s t => f s = t) (Q := fun l m => g l = m) rfl (fun _ => rfl)
      fun hr hok hs hl h => ⟨_, _, hs ▸ hl ▸ hstep hr hok h, rfl, rfl⟩
  obtain ⟨⟨t, m⟩, hd, hshared, hprocs⟩ := hfollowed
  obtain rfl : f _ = t := hshared
  obtain rfl : g ∘ _ = m := funext hprocs
  exact hd

end Interleave
