import Mathlib.Data.List.Basic
import Mathlib.Algebra.BigOperators.Group.List.Basic
import Mathlib.Algebra.GroupWithZero.Nat
import Mathlib.Data.Nat.Notation
import Mathlib.Tactic.SplitIfs

/-! How often a pattern stands in a text. Proved: texts that stand in a text one
behind another have no more places of the pattern together than the whole, a
character that the pattern lacks separates, and a text that breaks off inside a
place of the pattern has lost that place; a word stands in texts joined by a
separator that shares no character with it exactly when it stands in one of them. -/

namespace Places

variable {α : Type*}

/-! ### Texts in a text -/

/-- The texts stand in a text one behind another. -/
def InOrder : List (List α) → List α → Prop
  | [], _ => True
  | t :: texts, s => ∃ before after, s = before ++ t ++ after ∧ InOrder texts after

theorem InOrder.append_left {texts : List (List α)} {s : List α} (h : InOrder texts s) (before : List α) :
    InOrder texts (before ++ s) := by
  cases texts with
  | nil => trivial
  | cons t texts =>
    obtain ⟨first, after, rfl, hrest⟩ := h
    exact ⟨before ++ first, after, by simp, hrest⟩

theorem InOrder.cons {texts : List (List α)} {s : List α} (t : List α) (h : InOrder texts s) :
    InOrder (t :: texts) (t ++ s) := ⟨[], s, rfl, h⟩

/-! ### Places of a pattern -/

section Count
variable [DecidableEq α] {pat : List α}

/-- The number of places at which a pattern begins. -/
def places (pat : List α) : List α → ℕ
  | [] => 0
  | c :: s => (if pat.isPrefixOf (c :: s) then 1 else 0) + places pat s

theorem isPrefixOf_append {s t : List α} (h : pat.isPrefixOf s = true) : pat.isPrefixOf (s ++ t) = true :=
  List.isPrefixOf_iff_prefix.mpr ((List.isPrefixOf_iff_prefix.mp h).trans (List.prefix_append _ _))

variable (pat) in
theorem places_append_le (s t : List α) : places pat s + places pat t ≤ places pat (s ++ t) := by
  induction s with
  | nil => simp [places]
  | cons c s ih =>
    rw [List.cons_append, places, places]
    have hhead : (if pat.isPrefixOf (c :: s) then 1 else 0) ≤ if pat.isPrefixOf (c :: (s ++ t)) then 1 else 0 := by
      split_ifs with h h'
      · exact Nat.le_refl _
      · exact absurd (isPrefixOf_append h) h'
      · exact Nat.zero_le _
      · exact Nat.le_refl _
    omega

theorem places_prefix {s t : List α} (h : s <+: t) : places pat s ≤ places pat t := by
  obtain ⟨u, rfl⟩ := h
  have := places_append_le pat s u
  omega

theorem InOrder.sum_places_le {texts : List (List α)} {s : List α} (h : InOrder texts s) :
    (texts.map (places pat)).sum ≤ places pat s := by
  induction texts generalizing s with
  | nil => exact Nat.zero_le _
  | cons t texts ih =>
    obtain ⟨before, after, rfl, hrest⟩ := h
    have hfirst := places_append_le pat (before ++ t) after
    have hbefore := places_append_le pat before t
    have := ih hrest
    rw [List.map_cons, List.sum_cons]
    omega

/-- A text without the pattern's first character has no place. -/
theorem places_eq_zero {c : α} {p s : List α} (h : c ∉ s) : places (c :: p) s = 0 := by
  induction s with
  | nil => rfl
  | cons d s ih =>
    have hne : ¬ (c :: p).isPrefixOf (d :: s) = true := by
      rw [List.isPrefixOf_iff_prefix]
      rintro ⟨r, hr⟩
      exact h ((List.cons.inj hr).1 ▸ List.mem_cons_self)
    rw [places, if_neg hne, ih fun hc => h (List.mem_cons_of_mem _ hc)]

/-- A character that the pattern lacks separates. -/
theorem places_append_cons {c : α} (hne : pat ≠ []) (hc : c ∉ pat) (s t : List α) :
    places pat (s ++ c :: t) = places pat s + places pat t := by
  induction s with
  | nil =>
    have hhead : ¬ pat.isPrefixOf (c :: t) = true := by
      rw [List.isPrefixOf_iff_prefix]
      obtain ⟨d, p, rfl⟩ := List.exists_cons_of_ne_nil hne
      rintro ⟨r, hr⟩
      exact hc ((List.cons.inj hr).1 ▸ List.mem_cons_self)
    have hnil : places pat [] = 0 := rfl
    rw [List.nil_append, hnil, places, if_neg hhead]
  | cons d s ih =>
    have hhead : pat.isPrefixOf (d :: s ++ c :: t) = true ↔ pat.isPrefixOf (d :: s) = true := by
      refine ⟨fun h => ?_, isPrefixOf_append⟩
      rw [List.isPrefixOf_iff_prefix] at h ⊢
      rcases List.prefix_or_prefix_of_prefix h (List.prefix_append _ _) with h' | ⟨u, rfl⟩
      · exact h'
      · have hu := (List.prefix_append_right_inj _).mp h
        cases u with
        | nil => exact List.append_nil _ ▸ List.prefix_rfl
        | cons e u =>
          obtain ⟨r, hr⟩ := hu
          exact absurd ((List.cons.inj hr).1 ▸ List.mem_append_right _ List.mem_cons_self) hc
    rw [List.cons_append, places, places, ih, ← List.cons_append]
    simp only [hhead]
    omega

theorem places_short {s : List α} (h : s.length < pat.length) : places pat s = 0 := by
  induction s with
  | nil => rfl
  | cons c s ih =>
    have hhead : ¬ pat.isPrefixOf (c :: s) = true := fun hp =>
      absurd (List.isPrefixOf_iff_prefix.mp hp).length_le (by omega)
    rw [List.length_cons] at h
    rw [places, if_neg hhead, ih (by omega)]

/-- A text that breaks off inside a place has lost it. -/
theorem places_append_lt {q : List α} (hq : q.length < pat.length) (hbegins : q <+: pat) (s : List α) :
    places pat (s ++ q) < places pat (s ++ pat) := by
  induction s with
  | nil =>
    rw [List.nil_append, places_short hq, List.nil_append]
    cases pat with
    | nil => exact absurd hq (Nat.not_lt_zero _)
    | cons c p =>
      rw [places, if_pos (List.isPrefixOf_iff_prefix.mpr List.prefix_rfl)]
      omega
  | cons c s ih =>
    rw [List.cons_append, List.cons_append, places, places]
    have hhead : pat.isPrefixOf (c :: (s ++ q)) = true → pat.isPrefixOf (c :: (s ++ pat)) = true := by
      rw [List.isPrefixOf_iff_prefix, List.isPrefixOf_iff_prefix]
      exact fun h => h.trans ((List.prefix_append_right_inj (c :: s)).mpr hbegins)
    split_ifs with h h'
    · omega
    · exact absurd (hhead h) h'
    · omega
    · omega

end Count

/-! ### Words over a separator -/

section Separators
variable {v : List α}

/-- A word without the character `c` does not reach over it. -/
theorem infix_barrier {c : α} (hc : c ∉ v) (a b : List α) : v <:+: a ++ c :: b ↔ v <:+: a ∨ v <:+: b := by
  have hbegin : ∀ w, c ∉ w → w <+: c :: b → w = [] := by
    intro w hw hbegins
    cases w with
    | nil => rfl
    | cons d w => exact absurd ((List.cons_prefix_cons.mp hbegins).1 ▸ List.mem_cons_self) hw
  constructor
  · intro h
    rcases List.infix_append_iff.mp h with h | h | ⟨u, w, rfl, hu, hw⟩
    · exact .inl h
    · rcases List.infix_cons_iff.mp h with h | h
      · exact .inr (hbegin v hc h ▸ List.nil_infix)
      · exact .inr h
    · rw [hbegin w (fun h => hc (List.mem_append_right u h)) hw, List.append_nil]
      exact .inl hu.isInfix
  · rintro (h | h)
    · exact List.infix_append_of_infix_left h
    · exact List.infix_append_of_infix_right (List.infix_cons h)

/-- Nor over a text without its characters. -/
theorem infix_separator {sep : List α} (hne : sep ≠ []) (hsep : ∀ c ∈ sep, c ∉ v) (a b : List α) :
    v <:+: a ++ sep ++ b ↔ v <:+: a ∨ v <:+: b := by
  induction sep generalizing a with
  | nil => exact absurd rfl hne
  | cons c sep ih =>
    obtain ⟨hc, hrest⟩ := List.forall_mem_cons.mp hsep
    rw [List.append_assoc, List.cons_append, infix_barrier hc]
    cases sep with
    | nil => rfl
    | cons d sep =>
      have hempty : v <:+: [] → v <:+: a := fun h => List.infix_nil.mp h ▸ List.nil_infix
      have htail := ih (List.cons_ne_nil d sep) hrest []
      rw [List.nil_append] at htail
      rw [htail]
      tauto

/-- Between words that a text without its characters parts, it stands in one of them. -/
theorem infix_intercalate {sep : List α} (hne : sep ≠ []) (hsep : ∀ c ∈ sep, c ∉ v) (hv : v ≠ [])
    (words : List (List α)) : v <:+: sep.intercalate words ↔ ∃ w ∈ words, v <:+: w := by
  induction words with
  | nil => simp [List.intercalate, hv]
  | cons w words ih =>
    cases words with
    | nil => simp [List.intercalate_singleton]
    | cons w' words =>
      rw [List.intercalate_cons_cons, infix_separator hne hsep, ih]
      exact (List.exists_mem_cons_iff _ _ _).symm

theorem infix_intercalate_of_mem {sep w : List α} {words : List (List α)} (h : w ∈ words) :
    w <:+: sep.intercalate words := by
  induction words with
  | nil => cases h
  | cons w' words ih =>
    cases words with
    | nil =>
      obtain rfl := List.mem_singleton.mp h
      simp only [List.intercalate_singleton, List.infix_refl]
    | cons w'' words =>
      rw [List.intercalate_cons_cons]
      rcases List.mem_cons.mp h with rfl | h
      · exact (List.prefix_append_of_prefix (List.prefix_append _ _)).isInfix
      · exact List.infix_append_of_infix_right (ih h)

/-- Between words that a marker in brackets parts, a word without the brackets
stands in one of them or in the marker. -/
theorem infix_intercalate_marker {c d : α} {marker : List α} (hc : c ∉ v) (hd : d ∉ v) (hv : v ≠ [])
    (words : List (List α)) : v <:+: (c :: (marker ++ [d])).intercalate words ↔
      (∃ w ∈ words, v <:+: w) ∨ 1 < words.length ∧ v <:+: marker := by
  induction words with
  | nil => simp [List.intercalate, hv]
  | cons w words ih =>
    cases words with
    | nil => simp [List.intercalate_singleton]
    | cons w' words =>
      have hsplit : (c :: (marker ++ [d])).intercalate (w :: w' :: words) =
          w ++ c :: (marker ++ d :: (c :: (marker ++ [d])).intercalate (w' :: words)) := by
        rw [List.intercalate_cons_cons]
        simp
      rw [hsplit, infix_barrier hc, infix_barrier hd, ih]
      simp only [List.mem_cons, exists_eq_or_imp, List.length_cons]
      by_cases hm : v <:+: marker <;> simp [hm]

end Separators

end Places
