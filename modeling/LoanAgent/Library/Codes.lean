import Mathlib.Data.Set.Basic
import Mathlib.Data.List.Basic

/-! Sets of words of which none goes on as another. A text that begins with a
word of such a set shows which one. Proved: concatenation, union by the first
letter and bracketed sequences keep the property, and two words or the words of
a sequence are read off their text. -/

namespace Codes

variable {α : Type*} {V W : Set (List α)}

/-- In front of two texts that are equal stands the same word. -/
def PrefixFree (V : Set (List α)) : Prop :=
  ∀ v ∈ V, ∀ w ∈ V, ∀ s t, v ++ s = w ++ t → v = w ∧ s = t

/-- The words begin with a letter of a class. -/
def Begins (P : α → Prop) (V : Set (List α)) : Prop := ∀ v ∈ V, ∃ c s, v = c :: s ∧ P c

/-- The words of the first set in front of those of the second. -/
def concat (V W : Set (List α)) : Set (List α) := {x | ∃ v ∈ V, ∃ w ∈ W, x = v ++ w}

/-- Words between an opening and a closing letter, with separators. -/
def bracketed (opening closing : α) (sep : List α) (l : List (List α)) : List α :=
  opening :: (sep.intercalate l ++ [closing])

def sequences (opening closing : α) (sep : List α) (V : Set (List α)) : Set (List α) :=
  {x | ∃ l, (∀ v ∈ l, v ∈ V) ∧ x = bracketed opening closing sep l}

/-- A map that is injective between the members of two lists tells the lists apart. -/
theorem eq_of_map_eq {β : Type*} {f : α → β} {l l' : List α} (hf : ∀ x ∈ l, ∀ y ∈ l', f x = f y → x = y)
    (h : l.map f = l'.map f) : l = l' := by
  induction l generalizing l' with
  | nil => exact (List.map_eq_nil_iff.mp h.symm).symm
  | cons x l ih =>
    cases l' with
    | nil => cases h
    | cons y l' =>
      obtain ⟨hx, hl⟩ := List.cons.inj h
      rw [hf x List.mem_cons_self y List.mem_cons_self hx,
        ih (fun x hx y hy => hf x (List.mem_cons_of_mem _ hx) y (List.mem_cons_of_mem _ hy)) hl]

theorem prefixFree_singleton (v : List α) : PrefixFree {v} := by
  rintro _ rfl _ rfl s t h
  exact ⟨rfl, List.append_cancel_left h⟩

/-- Two words of two sets behind one another are read apart. -/
theorem PrefixFree.split (hV : PrefixFree V) (hW : PrefixFree W) {v v' w w' s t : List α} (hv : v ∈ V)
    (hv' : v' ∈ V) (hw : w ∈ W) (hw' : w' ∈ W) (h : v ++ w ++ s = v' ++ w' ++ t) : v = v' ∧ w = w' ∧ s = t := by
  rw [List.append_assoc, List.append_assoc] at h
  obtain ⟨rfl, hrest⟩ := hV v hv v' hv' _ _ h
  obtain ⟨rfl, hst⟩ := hW w hw w' hw' _ _ hrest
  exact ⟨rfl, rfl, hst⟩

theorem PrefixFree.concat (hV : PrefixFree V) (hW : PrefixFree W) : PrefixFree (concat V W) := by
  rintro _ ⟨v, hv, w, hw, rfl⟩ _ ⟨v', hv', w', hw', rfl⟩ s t h
  obtain ⟨rfl, rfl, rfl⟩ := hV.split hW hv hv' hw hw' h
  exact ⟨rfl, rfl⟩

/-- Words of two sets with different first letters. -/
theorem PrefixFree.union (hV : PrefixFree V) (hW : PrefixFree W) {P : α → Prop} (hVP : Begins P V)
    (hWP : Begins (¬ P ·) W) : PrefixFree (V ∪ W) := by
  have hdiffer : ∀ v ∈ V, ∀ w ∈ W, ∀ s t, v ++ s ≠ w ++ t := by
    intro v hv w hw s t h
    obtain ⟨c, v', rfl, hc⟩ := hVP v hv
    obtain ⟨d, w', rfl, hd⟩ := hWP w hw
    rw [List.cons_append, List.cons_append, List.cons.injEq] at h
    exact hd (h.1 ▸ hc)
  rintro v (hv | hv) w (hw | hw) s t h
  · exact hV v hv w hw s t h
  · exact absurd h (hdiffer v hv w hw s t)
  · exact absurd h.symm (hdiffer w hw v hv t s)
  · exact hW v hv w hw s t h

theorem intercalate_cons (sep v : List α) (rest : List (List α)) :
    sep.intercalate (v :: rest) = v ++ rest.flatMap (sep ++ ·) := by
  induction rest generalizing v with
  | nil => rw [List.intercalate_singleton, List.flatMap_nil, List.append_nil]
  | cons w rest ih => rw [List.intercalate_cons_cons, ih, List.flatMap_cons, List.append_assoc, List.append_assoc]

/-- The words behind separators are read off the text in front of the closing letter. -/
theorem PrefixFree.flatMap_inj (hV : PrefixFree V) {closing c : α} {sep : List α} (hsep : c ≠ closing)
    {l l' : List (List α)} (hl : ∀ v ∈ l, v ∈ V) (hl' : ∀ v ∈ l', v ∈ V) {s t : List α}
    (h : l.flatMap (c :: sep ++ ·) ++ closing :: s = l'.flatMap (c :: sep ++ ·) ++ closing :: t) :
    l = l' ∧ s = t := by
  induction l generalizing l' with
  | nil =>
    cases l' with
    | nil => exact ⟨rfl, (List.cons.inj h).2⟩
    | cons v' l' => exact absurd (List.cons.inj h).1.symm hsep
  | cons v l ih =>
    cases l' with
    | nil => exact absurd (List.cons.inj h).1 hsep
    | cons v' l' =>
      simp only [List.flatMap_cons, List.append_assoc] at h
      obtain ⟨rfl, hrest⟩ := hV v (hl v List.mem_cons_self) v' (hl' v' List.mem_cons_self) _ _
        (List.append_cancel_left h)
      obtain ⟨heq, hst⟩ := ih (fun w hw => hl w (List.mem_cons_of_mem _ hw))
        (fun w hw => hl' w (List.mem_cons_of_mem _ hw)) hrest
      exact ⟨congrArg (v :: ·) heq, hst⟩

/-- The words of a sequence are read off its text. -/
theorem PrefixFree.bracketed_inj (hV : PrefixFree V) {opening closing c : α} {sep : List α} (hsep : c ≠ closing)
    (hbegins : Begins (· ≠ closing) V) {l l' : List (List α)} (hl : ∀ v ∈ l, v ∈ V) (hl' : ∀ v ∈ l', v ∈ V)
    {s t : List α} (h : bracketed opening closing (c :: sep) l ++ s = bracketed opening closing (c :: sep) l' ++ t) :
    l = l' ∧ s = t := by
  simp only [bracketed, List.cons_append, List.append_assoc, List.nil_append, List.cons.injEq, true_and] at h
  have hempty : ∀ v rest, v ∈ V → ∀ s t, closing :: s ≠ (c :: sep).intercalate (v :: rest) ++ t := by
    intro v rest hv s t heq
    obtain ⟨d, v', rfl, hd⟩ := hbegins v hv
    rw [intercalate_cons] at heq
    exact hd (List.cons.inj heq).1.symm
  cases l with
  | nil =>
    cases l' with
    | nil => exact ⟨rfl, (List.cons.inj h).2⟩
    | cons v' l' => exact absurd h (hempty v' l' (hl' v' List.mem_cons_self) _ _)
  | cons v l =>
    cases l' with
    | nil => exact absurd h.symm (hempty v l (hl v List.mem_cons_self) _ _)
    | cons v' l' =>
      rw [intercalate_cons, intercalate_cons, List.append_assoc, List.append_assoc] at h
      obtain ⟨rfl, hrest⟩ := hV v (hl v List.mem_cons_self) v' (hl' v' List.mem_cons_self) _ _ h
      obtain ⟨heq, hst⟩ := hV.flatMap_inj hsep (fun w hw => hl w (List.mem_cons_of_mem _ hw))
        (fun w hw => hl' w (List.mem_cons_of_mem _ hw)) hrest
      exact ⟨congrArg (v :: ·) heq, hst⟩

theorem PrefixFree.sequences (hV : PrefixFree V) (opening : α) {closing c : α} (sep : List α) (hsep : c ≠ closing)
    (hbegins : Begins (· ≠ closing) V) : PrefixFree (sequences opening closing (c :: sep) V) := by
  rintro _ ⟨l, hl, rfl⟩ _ ⟨l', hl', rfl⟩ s t h
  obtain ⟨rfl, rfl⟩ := hV.bracketed_inj hsep hbegins hl hl' h
  exact ⟨rfl, rfl⟩

end Codes
