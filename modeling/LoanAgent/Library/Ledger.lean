import LoanAgent.Library.Interleave
import Mathlib.Algebra.BigOperators.Group.Finset.Basic
import Mathlib.Algebra.BigOperators.Group.List.Basic
import Mathlib.Algebra.Order.BigOperators.Group.Finset
import Mathlib.Tactic.Abel
import Mathlib.Tactic.GCongr

/-! Accounts of processes that share a state. Every process holds an amount, and
so does the shared state; a step may move what is held, and what it spends or
brings in besides is put to its account. Only finitely many processes are summed
up at a time, whichever they are. Proved: what is spent along a schedule is
covered by what was held and what came in; two accounts of the shared state that
every step keeps in order, counting what its process holds, are in order in every
state; and an assertion that holds no more was ended by one step of the schedule. -/

namespace Interleave

open scoped BigOperators

variable {S L A M : Type*}

/-! ### What the processes hold -/

section Held
variable [AddCommMonoid M]

/-- The sum of what the processes in `P` hold. -/
def held (w : L → M) (procs : ℕ → L) (P : Finset ℕ) : M := ∑ p ∈ P, w (procs p)

theorem held_update {w : L → M} {procs : ℕ → L} {P : Finset ℕ} {p : ℕ} (hp : p ∈ P) (l : L) :
    held w (Function.update procs p l) P + w (procs p) = held w procs P + w l := by
  have hrest : ∑ q ∈ P.erase p, w (Function.update procs p l q) = ∑ q ∈ P.erase p, w (procs q) :=
    Finset.sum_congr rfl fun q hq => by rw [Function.update_of_ne (Finset.ne_of_mem_erase hq)]
  rw [held, held, ← Finset.add_sum_erase _ _ hp, ← Finset.add_sum_erase _ _ hp, hrest,
    Function.update_self]
  abel

theorem held_mono [PartialOrder M] [IsOrderedAddMonoid M] [CanonicallyOrderedAdd M] (w : L → M)
    (procs : ℕ → L) {P Q : Finset ℕ} (h : P ⊆ Q) : held w procs P ≤ held w procs Q :=
  Finset.sum_le_sum_of_subset h

theorem held_eq_zero {w : L → M} {procs : ℕ → L} (h : ∀ p, w (procs p) = 0) (P : Finset ℕ) :
    held w procs P = 0 := Finset.sum_eq_zero fun p _ => h p

end Held

variable {step : Step S L A}

/-! ### Along a schedule -/

/-- What the steps of a schedule cost, each in the state of its process. -/
def spent [AddCommMonoid M] (step : Step S L A) (cost : L → A → M) : Config S L → List (ℕ × A) → M
  | _, [] => 0
  | c, (p, a) :: rest => cost (c.procs p) a + (next step c p a).elim 0 fun d => spent step cost d rest

section Account
variable [AddCommMonoid M] [PartialOrder M] [IsOrderedCancelAddMonoid M]

/-- What is spent along a schedule, together with what is held behind it, is at
most what was held before and what came in. -/
theorem execute_account {test : Config S L → ℕ → A → Bool} (v : S → M) (w : L → M) (cost : L → A → M) (gain : A → M)
    (hstep : ∀ s l a s' l', step s l a = some (s', l') → cost l a + (v s' + w l') ≤ v s + w l + gain a)
    {P : Finset ℕ} {schedule : List (ℕ × A)} (hP : ∀ e ∈ schedule, e.1 ∈ P) {c c' : Config S L}
    (h : execute step test c schedule = some c') :
    spent step cost c schedule + (v c'.shared + held w c'.procs P) ≤
      v c.shared + held w c.procs P + (schedule.map fun e => gain e.2).sum := by
  induction schedule generalizing c with
  | nil =>
    obtain rfl := Option.some.inj h
    simp [spent]
  | cons e rest ih =>
    obtain ⟨p, a⟩ := e
    obtain ⟨hp, hrest⟩ := List.forall_mem_cons.mp hP
    simp only [execute] at h
    split_ifs at h
    obtain ⟨d, hd, h⟩ := Option.bind_eq_some_iff.mp h
    obtain ⟨s, l, hl, rfl⟩ := next_eq_some hd
    have hone := hstep _ _ _ _ _ hl
    have hmove : held w (Function.update c.procs p l) P + w (c.procs p) = held w c.procs P + w l :=
      held_update hp l
    have htail := ih hrest h
    simp only [spent, hd, Option.elim_some, List.map_cons, List.sum_cons]
    refine le_of_add_le_add_right (a := w (c.procs p)) ?_
    calc cost (c.procs p) a + spent step cost _ rest + (v c'.shared + held w c'.procs P) + w (c.procs p)
        = spent step cost _ rest + (v c'.shared + held w c'.procs P) +
          (cost (c.procs p) a + w (c.procs p)) := by abel
      _ ≤ v s + held w (Function.update c.procs p l) P + (rest.map fun e => gain e.2).sum +
          (cost (c.procs p) a + w (c.procs p)) := by gcongr
      _ = v s + (held w (Function.update c.procs p l) P + w (c.procs p)) +
          (rest.map fun e => gain e.2).sum + cost (c.procs p) a := by abel
      _ = held w c.procs P + (rest.map fun e => gain e.2).sum + (cost (c.procs p) a + (v s + w l)) := by
        rw [hmove]; abel
      _ ≤ held w c.procs P + (rest.map fun e => gain e.2).sum +
          (v c.shared + w (c.procs p) + gain a) := by gcongr
      _ = v c.shared + held w c.procs P + (gain a + (rest.map fun e => gain e.2).sum) +
          w (c.procs p) := by abel

/-! ### In every state -/

/-- Two accounts of the shared state: `debit` never exceeds `credit`, even with
what the processes hold, when no step makes it exceed by what it changes. -/
theorem Reaches.ledger [CanonicallyOrderedAdd M] {ok : Config S L → ℕ → A → Prop} {init c : Config S L} {w : L → M}
    (debit credit : S → M) (h0 : ∀ P, debit init.shared + held w init.procs P ≤ credit init.shared)
    (hstep : ∀ c p a s l, ok c p a → step c.shared (c.procs p) a = some (s, l) →
      debit s + w l + credit c.shared ≤ debit c.shared + w (c.procs p) + credit s)
    (h : Reaches step ok init c) (P : Finset ℕ) : debit c.shared + held w c.procs P ≤ credit c.shared := by
  refine h.invariant (I := fun c => ∀ P, debit c.shared + held w c.procs P ≤ credit c.shared) h0 ?_ P
  intro c p a s l hc hok hl P
  have hone := hstep c p a s l hok hl
  have hmove : held w (Function.update c.procs p l) (insert p P) + w (c.procs p) =
      held w c.procs (insert p P) + w l := held_update (Finset.mem_insert_self p P) l
  have hall := hc (insert p P)
  calc debit s + held w (Function.update c.procs p l) P
      ≤ debit s + held w (Function.update c.procs p l) (insert p P) := by
        gcongr
        exact held_mono w _ (Finset.subset_insert p P)
    _ ≤ credit s := ?_
  refine le_of_add_le_add_right (a := w (c.procs p) + credit c.shared) ?_
  calc debit s + held w (Function.update c.procs p l) (insert p P) + (w (c.procs p) + credit c.shared)
      = debit s + (held w (Function.update c.procs p l) (insert p P) + w (c.procs p)) +
        credit c.shared := by abel
    _ = held w c.procs (insert p P) + (debit s + w l + credit c.shared) := by rw [hmove]; abel
    _ ≤ held w c.procs (insert p P) + (debit c.shared + w (c.procs p) + credit s) := by gcongr
    _ = debit c.shared + held w c.procs (insert p P) + (w (c.procs p) + credit s) := by abel
    _ ≤ credit c.shared + (w (c.procs p) + credit s) := by gcongr
    _ = credit s + (w (c.procs p) + credit c.shared) := by abel

end Account

/-! ### The step that ends an assertion -/

/-- Where an assertion held and holds no more, one step of the schedule ended it. -/
theorem execute_first {test : Config S L → ℕ → A → Bool} {I : Config S L → Prop}
    {schedule : List (ℕ × A)} {c c' : Config S L} (h0 : I c)
    (h : execute step test c schedule = some c') (hend : ¬ I c') :
    ∃ before p a behind d d', schedule = before ++ (p, a) :: behind ∧ execute step test c before = some d ∧
      I d ∧ test d p a = true ∧ next step d p a = some d' ∧ ¬ I d' ∧
      execute step test d' behind = some c' := by
  induction schedule generalizing c with
  | nil =>
    obtain rfl := Option.some.inj h
    exact absurd h0 hend
  | cons e rest ih =>
    obtain ⟨p, a⟩ := e
    simp only [execute] at h
    split_ifs at h with ht
    obtain ⟨d, hd, h⟩ := Option.bind_eq_some_iff.mp h
    by_cases hI : I d
    · obtain ⟨before, q, b, behind, d', d'', rfl, hbefore, hrest⟩ := ih hI h
      refine ⟨(p, a) :: before, q, b, behind, d', d'', rfl, ?_, hrest⟩
      simp only [execute, ht, if_true, hd, Option.bind_some, hbefore]
    · exact ⟨[], p, a, rest, c, d, rfl, rfl, h0, ht, hd, hI, h⟩

theorem execute_append {test : Config S L → ℕ → A → Bool} {before behind : List (ℕ × A)} {c d c' : Config S L}
    (h : execute step test c before = some d) (h' : execute step test d behind = some c') :
    execute step test c (before ++ behind) = some c' := by
  induction before generalizing c with
  | nil =>
    obtain rfl := Option.some.inj h
    exact h'
  | cons e rest ih =>
    obtain ⟨p, a⟩ := e
    simp only [execute] at h
    split_ifs at h with ht
    obtain ⟨b, hb, h⟩ := Option.bind_eq_some_iff.mp h
    simp only [List.cons_append, execute, ht, if_true, hb, Option.bind_some, ih h]

/-- A process that takes no step stays where it is. -/
theorem execute_others {test : Config S L → ℕ → A → Bool} {schedule : List (ℕ × A)} {c c' : Config S L}
    (h : execute step test c schedule = some c') {p : ℕ} (hp : ∀ e ∈ schedule, e.1 ≠ p) :
    c'.procs p = c.procs p := by
  induction schedule generalizing c with
  | nil =>
    obtain rfl := Option.some.inj h
    rfl
  | cons e rest ih =>
    obtain ⟨q, a⟩ := e
    obtain ⟨hq, hrest⟩ := List.forall_mem_cons.mp hp
    simp only [execute] at h
    split_ifs at h
    obtain ⟨d, hd, h⟩ := Option.bind_eq_some_iff.mp h
    obtain ⟨s, l, hl, rfl⟩ := next_eq_some hd
    exact (ih h hrest).trans (Function.update_of_ne (Ne.symm hq) ..)

end Interleave
