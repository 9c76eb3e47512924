import Mathlib.Data.List.Perm.Basic
import Mathlib.Tactic.SplitIfs

/-! Joining two lists of keyed values by key. The specification is the nested
loop over both lists; the grouped join visits each key of a set once and pairs
the values that both lists have for it. Proved: both yield the same pairs, as
often, in whatever order the keys are visited. -/

namespace Grouping

variable {κ α β γ : Type*} [DecidableEq κ]

/-- The values of a key. -/
def valuesAt (k : κ) (l : List (κ × α)) : List α := (l.filter (·.1 = k)).map (·.2)

/-- The pairs of values of one key, by a nested loop. -/
def nestedJoin (l : List (κ × α)) (r : List (κ × β)) : List (κ × α × β) :=
  l.flatMap fun x => (valuesAt x.1 r).map fun b => (x.1, x.2, b)

/-- The pairs of values of the given keys, key by key. -/
def groupedJoin (keys : List κ) (l : List (κ × α)) (r : List (κ × β)) : List (κ × α × β) :=
  keys.flatMap fun k => (valuesAt k l).flatMap fun a => (valuesAt k r).map fun b => (k, a, b)

theorem valuesAt_cons (k : κ) (x : κ × α) (l : List (κ × α)) :
    valuesAt k (x :: l) = (if x.1 = k then [x.2] else []) ++ valuesAt k l := by
  unfold valuesAt
  by_cases h : x.1 = k <;> simp [h]

theorem valuesAt_eq_nil {k : κ} {l : List (κ × α)} (h : k ∉ l.map (·.1)) : valuesAt k l = [] := by
  have hnone : l.filter (·.1 = k) = [] := by
    refine List.filter_eq_nil_iff.mpr fun x hx => ?_
    rw [decide_eq_true_eq]
    rintro rfl
    exact h (List.mem_map_of_mem hx)
  rw [valuesAt, hnone, List.map_nil]

/-- What one key of a list without repetition gets more can be taken in front. -/
theorem flatMap_extra_perm {k : κ} {keys : List κ} (hnodup : keys.Nodup) (hk : k ∈ keys) (extra : List γ)
    (f : κ → List γ) : (keys.flatMap fun j => (if k = j then extra else []) ++ f j).Perm
      (extra ++ keys.flatMap f) := by
  induction keys with
  | nil => cases hk
  | cons j keys ih =>
    obtain ⟨hj, hnodup⟩ := List.nodup_cons.mp hnodup
    simp only [List.flatMap_cons]
    by_cases h : k = j
    · subst h
      have hrest : (keys.flatMap fun i => (if k = i then extra else []) ++ f i) = keys.flatMap f := by
        refine List.flatMap_congr fun i hi => ?_
        have hne : k ≠ i := by
          rintro rfl
          exact hj hi
        rw [if_neg hne, List.nil_append]
      rw [if_pos rfl, hrest, List.append_assoc]
    · rw [if_neg h, List.nil_append]
      have hk' : k ∈ keys := (List.mem_cons.mp hk).resolve_left h
      refine ((ih hnodup hk').append_left (f j)).trans ?_
      simp only [← List.append_assoc]
      exact List.perm_append_comm.append_right _

/-- The grouped join is the nested loop, when no key with values on both sides is
left out and none is visited twice. -/
theorem groupedJoin_perm {keys : List κ} (hnodup : keys.Nodup) {l : List (κ × α)} {r : List (κ × β)}
    (hkeys : ∀ k ∈ l.map (·.1), k ∈ r.map (·.1) → k ∈ keys) :
    (groupedJoin keys l r).Perm (nestedJoin l r) := by
  induction l with
  | nil => simp [groupedJoin, nestedJoin, valuesAt]
  | cons x l ih =>
    have ih := ih fun k hk => hkeys k (List.mem_cons_of_mem _ hk)
    rw [nestedJoin, List.flatMap_cons, ← nestedJoin]
    refine List.Perm.trans ?_ (ih.append_left _)
    have hsplit : groupedJoin keys (x :: l) r = keys.flatMap fun k =>
        (if x.1 = k then (valuesAt x.1 r).map fun b => (x.1, x.2, b) else []) ++
          (valuesAt k l).flatMap fun a => (valuesAt k r).map fun b => (k, a, b) := by
      refine List.flatMap_congr fun k _ => ?_
      rw [valuesAt_cons, List.flatMap_append]
      split_ifs with h
      · subst h
        rw [List.flatMap_singleton]
      · rfl
    by_cases hr : x.1 ∈ r.map (·.1)
    · rw [hsplit]
      exact flatMap_extra_perm hnodup (hkeys _ List.mem_cons_self hr) _ _
    · have hnil := valuesAt_eq_nil hr
      rw [hsplit, hnil, List.map_nil, List.nil_append]
      simp only [ite_self, List.nil_append]
      exact List.Perm.refl _

end Grouping
