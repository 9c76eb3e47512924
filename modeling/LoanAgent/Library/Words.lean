import LoanAgent.Library.Rx
import Mathlib.Data.List.Infix

/-! The words of a text and the text with its gaps collapsed. A word is a
maximal run of elements of a class; collapsing puts one separator in the place
of every maximal run of other elements. Proved: texts that do not meet inside a
word have the words of both, collapsing keeps the words and the ends of a text,
the collapsed slice of a text is a slice of the collapsed text, and substituting
the separator for a repeated character class is collapsing. -/

namespace Words

variable {α : Type*} (p : α → Bool) (sep : α)

/-- Whether the text begins inside a word. -/
def starts (l : List α) : Bool := l.head?.any p

/-- Whether the text ends inside a word. -/
def finishes (l : List α) : Bool := l.getLast?.any p

/-- The maximal runs of elements of the class. -/
def words : List α → List (List α)
  | [] => []
  | c :: l =>
    if p c then if starts p l then (words l).modifyHead (c :: ·) else [c] :: words l
    else words l

/-- The text with every gap replaced by the separator; a gap that goes on from
before the text is left out. -/
def collapse : Bool → List α → List α
  | _, [] => []
  | gap, c :: l =>
    if p c then c :: collapse false l
    else if gap then collapse true l else sep :: collapse true l

/-- Whether a gap goes on behind the text. -/
def gapAfter (gap : Bool) (l : List α) : Bool := l.foldl (fun _ c => !p c) gap

variable {p sep}

@[simp] theorem starts_cons (c : α) (l : List α) : starts p (c :: l) = p c := rfl

@[simp] theorem starts_nil : starts p [] = false := rfl

theorem finishes_cons {l : List α} (hl : l ≠ []) (c : α) : finishes p (c :: l) = finishes p l := by
  obtain ⟨d, l, rfl⟩ := List.exists_cons_of_ne_nil hl
  simp only [finishes, List.getLast?_cons_cons]

theorem finishes_concat (l : List α) (c : α) : finishes p (l ++ [c]) = p c := by
  simp only [finishes, List.getLast?_append, List.getLast?_singleton, Option.some_or, Option.any_some]

theorem starts_of_all {l : List α} (h : ∀ c ∈ l, p c = false) : starts p l = false := by
  cases l with
  | nil => rfl
  | cons c l => exact h c List.mem_cons_self

theorem finishes_of_all {l : List α} (h : ∀ c ∈ l, p c = false) : finishes p l = false := by
  rcases List.eq_nil_or_concat l with rfl | ⟨l, c, rfl⟩
  · rfl
  · rw [List.concat_eq_append, finishes_concat]
    exact h c (by simp)

/-! ### Words -/

theorem words_skip {c : α} (hc : p c = false) (l : List α) : words p (c :: l) = words p l := by
  simp [words, hc]

theorem words_join {c : α} (hc : p c = true) {l : List α} (hl : starts p l = true) :
    words p (c :: l) = (words p l).modifyHead (c :: ·) := by
  simp [words, hc, hl]

theorem words_new {c : α} (hc : p c = true) {l : List α} (hl : starts p l = false) :
    words p (c :: l) = [c] :: words p l := by
  simp [words, hc, hl]

theorem words_ne_nil {l : List α} (h : starts p l = true) : words p l ≠ [] := by
  induction l with
  | nil => cases h
  | cons c l ih =>
    have hc : p c = true := h
    cases hl : starts p l with
    | false =>
      rw [words_new hc hl]
      exact List.cons_ne_nil _ _
    | true =>
      rw [words_join hc hl, Ne, List.modifyHead_eq_nil_iff]
      exact ih hl

/-- The words hold the elements of the class, in order. -/
theorem flatten_words (l : List α) : (words p l).flatten = l.filter p := by
  induction l with
  | nil => rfl
  | cons c l ih =>
    cases hc : p c with
    | false => rw [words_skip hc, ih, List.filter_cons_of_neg (by simp [hc])]
    | true =>
      rw [List.filter_cons_of_pos hc, ← ih]
      cases hl : starts p l with
      | false =>
        rw [words_new hc hl]
        rfl
      | true =>
        obtain ⟨w, ws, hw⟩ := List.exists_cons_of_ne_nil (words_ne_nil hl)
        rw [words_join hc hl, hw]
        rfl

theorem words_eq_nil {l : List α} : words p l = [] ↔ ∀ c ∈ l, p c = false := by
  constructor
  · intro h c hc
    have hfilter : l.filter p = [] := by rw [← flatten_words, h, List.flatten_nil]
    simpa using List.filter_eq_nil_iff.mp hfilter c hc
  · intro h
    induction l with
    | nil => rfl
    | cons c l ih =>
      rw [words_skip (h c List.mem_cons_self)]
      exact ih fun d hd => h d (List.mem_cons_of_mem c hd)

/-- The words of two texts that do not meet inside a word. -/
theorem words_append {a b : List α} (h : finishes p a = false ∨ starts p b = false) :
    words p (a ++ b) = words p a ++ words p b := by
  induction a with
  | nil => rfl
  | cons c a ih =>
    cases hc : p c with
    | false =>
      rw [List.cons_append, words_skip hc, words_skip hc]
      cases a with
      | nil => rfl
      | cons d a => exact ih (by rwa [finishes_cons (List.cons_ne_nil d a)] at h)
    | true =>
      cases a with
      | nil =>
        have hb : starts p b = false := h.resolve_left (by simp [finishes, hc])
        rw [List.singleton_append, words_new hc hb, words_new hc starts_nil]
        rfl
      | cons d a =>
        have hrest := ih (by rwa [finishes_cons (List.cons_ne_nil d a)] at h)
        cases hd : p d with
        | false =>
          rw [List.cons_append, words_new hc (l := d :: a ++ b) hd, words_new hc (l := d :: a) hd,
            hrest, List.cons_append]
        | true =>
          obtain ⟨w, ws, hw⟩ := List.exists_cons_of_ne_nil (words_ne_nil (l := d :: a) hd)
          rw [List.cons_append, words_join hc (l := d :: a ++ b) hd, words_join hc (l := d :: a) hd,
            hrest, hw]
          rfl

/-- An element of the class in front of a word makes it longer and no new word. -/
theorem length_words_cons {c : α} (hc : p c = true) {l : List α} (hl : starts p l = true) :
    (words p (c :: l)).length = (words p l).length := by
  rw [words_join hc hl, List.length_modifyHead]

theorem length_words_concat {c : α} (hc : p c = true) {l : List α} (hl : finishes p l = true) :
    (words p (l ++ [c])).length = (words p l).length := by
  induction l with
  | nil => cases hl
  | cons d l ih =>
    cases l with
    | nil =>
      have hd : p d = true := hl
      rw [List.singleton_append, words_join hd (l := [c]) hc, List.length_modifyHead,
        words_new hc starts_nil, words_new hd starts_nil]
      rfl
    | cons e l =>
      rw [finishes_cons (List.cons_ne_nil e l)] at hl
      have hrest := ih hl
      cases hd : p d with
      | false => rw [List.cons_append, words_skip hd, words_skip hd, hrest]
      | true =>
        cases he : p e with
        | false =>
          rw [List.cons_append, words_new hd (l := e :: l ++ [c]) he, words_new hd (l := e :: l) he,
            List.length_cons, List.length_cons, hrest]
        | true =>
          rw [List.cons_append, words_join hd (l := e :: l ++ [c]) he, words_join hd (l := e :: l) he,
            List.length_modifyHead, List.length_modifyHead, hrest]

theorem not_block_cons {c : α} (hc : p c = true) {l : List α} (hl : starts p l = true) :
    ¬ words p l <:+: words p (c :: l) := by
  intro h
  have heq := congrArg List.flatten (h.eq_of_length (length_words_cons hc hl).symm)
  rw [flatten_words, flatten_words, List.filter_cons_of_pos hc] at heq
  simpa using congrArg List.length heq

theorem not_block_concat {c : α} (hc : p c = true) {l : List α} (hl : finishes p l = true) :
    ¬ words p l <:+: words p (l ++ [c]) := by
  intro h
  have heq := congrArg List.flatten (h.eq_of_length (length_words_concat hc hl).symm)
  rw [flatten_words, flatten_words, List.filter_append, List.filter_singleton, hc] at heq
  simpa using congrArg List.length heq

/-! ### Collapsed texts -/

section Collapse
variable (hsep : p sep = false)

theorem collapse_word {c : α} (hc : p c = true) (gap : Bool) (l : List α) :
    collapse p sep gap (c :: l) = c :: collapse p sep false l := by
  simp [collapse, hc]

theorem collapse_gap {c : α} (hc : p c = false) (l : List α) :
    collapse p sep true (c :: l) = collapse p sep true l := by
  simp [collapse, hc]

theorem collapse_sep {c : α} (hc : p c = false) (l : List α) :
    collapse p sep false (c :: l) = sep :: collapse p sep true l := by
  simp [collapse, hc]

include hsep in
theorem starts_collapse (l : List α) : starts p (collapse p sep false l) = starts p l := by
  cases l with
  | nil => rfl
  | cons c l =>
    cases hc : p c with
    | false => rw [collapse_sep hc, starts_cons, starts_cons, hsep, hc]
    | true => rw [collapse_word hc, starts_cons, starts_cons]

include hsep in
/-- Collapsing keeps the words. -/
theorem words_collapse (gap : Bool) (l : List α) : words p (collapse p sep gap l) = words p l := by
  induction l generalizing gap with
  | nil => cases gap <;> rfl
  | cons c l ih =>
    cases hc : p c with
    | false =>
      cases gap with
      | false => rw [collapse_sep hc, words_skip hsep, words_skip hc, ih]
      | true => rw [collapse_gap hc, words_skip hc, ih]
    | true =>
      have hstart := starts_collapse hsep l
      rw [collapse_word hc]
      cases hl : starts p l with
      | false => rw [words_new hc (hstart.trans hl), words_new hc hl, ih]
      | true => rw [words_join hc (hstart.trans hl), words_join hc hl, ih]

theorem collapse_append (gap : Bool) (a b : List α) :
    collapse p sep gap (a ++ b) = collapse p sep gap a ++ collapse p sep (gapAfter p gap a) b := by
  induction a generalizing gap with
  | nil => cases gap <;> rfl
  | cons c a ih =>
    have hgap : gapAfter p gap (c :: a) = gapAfter p (!p c) a := rfl
    rw [List.cons_append, hgap]
    cases hc : p c with
    | false => cases gap <;> simp [collapse, hc, ih]
    | true => simp [collapse, hc, ih]

variable (sep) in
/-- A gap that goes on has left its separator at the end. -/
theorem collapse_of_gapAfter {gap : Bool} {l : List α} (h : gapAfter p gap l = true) :
    (gap = true ∧ collapse p sep gap l = []) ∨ ∃ x, collapse p sep gap l = x ++ [sep] := by
  induction l generalizing gap with
  | nil => exact .inl ⟨h, by cases gap <;> rfl⟩
  | cons c l ih =>
    rw [gapAfter, List.foldl_cons] at h
    cases hc : p c with
    | false =>
      rw [hc] at h
      have hrest := ih h
      cases gap with
      | false =>
        rw [collapse_sep hc]
        rcases hrest with ⟨-, hnil⟩ | ⟨x, hx⟩
        · exact .inr ⟨[], congrArg (sep :: ·) hnil⟩
        · exact .inr ⟨sep :: x, congrArg (sep :: ·) hx⟩
      | true =>
        rw [collapse_gap hc]
        exact hrest
    | true =>
      rw [hc] at h
      rw [collapse_word hc]
      rcases ih h with ⟨hfalse, -⟩ | ⟨x, hx⟩
      · cases hfalse
      · exact .inr ⟨c :: x, congrArg (c :: ·) hx⟩

variable (p sep) in
/-- Inside a gap at most the first separator is missing. -/
theorem collapse_false_eq (l : List α) : collapse p sep false l = collapse p sep true l ∨
    collapse p sep false l = sep :: collapse p sep true l := by
  cases l with
  | nil => exact .inl rfl
  | cons c l =>
    cases hc : p c with
    | false => exact .inr (by rw [collapse_sep hc, collapse_gap hc])
    | true => exact .inl (by rw [collapse_word hc, collapse_word hc])

theorem collapse_suffix (a b : List α) :
    collapse p sep false b <:+ collapse p sep false (a ++ b) := by
  rw [collapse_append]
  cases hgap : gapAfter p false a with
  | false => exact List.suffix_append _ _
  | true =>
    rcases collapse_of_gapAfter sep hgap with ⟨hfalse, -⟩ | ⟨x, hx⟩
    · cases hfalse
    · rw [hx]
      rcases collapse_false_eq p sep b with hb | hb
      · rw [hb]
        exact List.suffix_append _ _
      · rw [hb, List.append_assoc]
        exact List.suffix_append _ _

/-- The collapsed slice of a text is a slice of the collapsed text. -/
theorem collapse_slice {l m : List α} (h : m <:+: l) :
    collapse p sep false m <:+: collapse p sep false l := by
  obtain ⟨a, b, rfl⟩ := h
  rw [collapse_append]
  exact (collapse_suffix a m).isInfix.trans (List.prefix_append _ _).isInfix

variable (sep) in
/-- A run of elements outside the class collapses to one separator, or to none
inside a gap. -/
theorem collapse_run {r : List α} (hne : r ≠ []) (hr : ∀ c ∈ r, p c = false) (gap : Bool) (l : List α) :
    collapse p sep gap (r ++ l) = (if gap then [] else [sep]) ++ collapse p sep true l := by
  induction r generalizing gap with
  | nil => exact absurd rfl hne
  | cons c r ih =>
    have hc := hr c List.mem_cons_self
    have hrest : collapse p sep true (r ++ l) = collapse p sep true l := by
      cases r with
      | nil => rfl
      | cons d r => exact ih (List.cons_ne_nil d r) (fun e he => hr e (List.mem_cons_of_mem c he)) true
    rw [List.cons_append]
    cases gap with
    | false =>
      rw [collapse_sep hc, hrest]
      rfl
    | true =>
      rw [collapse_gap hc, hrest]
      rfl

theorem collapse_dropWhile (l : List α) :
    collapse p sep true l = collapse p sep false (l.dropWhile fun c => !p c) := by
  induction l with
  | nil => rfl
  | cons c l ih =>
    cases hc : p c with
    | false => rw [collapse_gap hc, ih, List.dropWhile_cons_of_pos (by simp [hc])]
    | true => rw [collapse_word hc, List.dropWhile_cons_of_neg (by simp [hc]), collapse_word hc]

include hsep in
theorem finishes_collapse (l : List α) : finishes p (collapse p sep false l) = finishes p l := by
  rcases List.eq_nil_or_concat l with rfl | ⟨l, c, hl⟩
  · rfl
  · rw [hl, List.concat_eq_append, finishes_concat, collapse_append]
    cases hc : p c with
    | true => rw [collapse_word hc, collapse, finishes_concat, hc]
    | false =>
      cases hgap : gapAfter p false l with
      | false => rw [collapse_sep hc, collapse, finishes_concat, hsep]
      | true =>
        rcases collapse_of_gapAfter sep hgap with ⟨hfalse, -⟩ | ⟨x, hx⟩
        · cases hfalse
        · rw [hx, collapse_gap hc, collapse, List.append_nil, finishes_concat, hsep]

include hsep in
theorem sep_mem_collapse {l : List α} : sep ∈ collapse p sep false l ↔ ∃ c ∈ l, p c = false := by
  induction l with
  | nil => simp [collapse]
  | cons c l ih =>
    cases hc : p c with
    | false => simp [collapse_sep hc, hc]
    | true =>
      have hne : sep ≠ c := fun h => by rw [h, hc] at hsep; cases hsep
      simp [collapse_word hc, hc, hne, ih]

variable (sep) in
/-- A collapsed text is its words with the separator between them, with at most
one in front and one behind. -/
theorem collapse_eq_intercalate (gap : Bool) {l : List α} (hl : words p l ≠ []) :
    ∃ pre post, (∀ c ∈ pre, c = sep) ∧ (∀ c ∈ post, c = sep) ∧
      ((gap || starts p l) = true → pre = []) ∧ ((gap || starts p l) = false → pre = [sep]) ∧
      collapse p sep gap l = pre ++ [sep].intercalate (words p l) ++ post := by
  induction l generalizing gap with
  | nil => exact absurd rfl hl
  | cons c l ih =>
    cases hc : p c with
    | false =>
      rw [words_skip hc] at hl ⊢
      obtain ⟨pre, post, -, hpost, hnone, -, heq⟩ := ih true hl
      rw [hnone (Bool.true_or _), List.nil_append] at heq
      cases gap with
      | false =>
        refine ⟨[sep], post, by simp, hpost, by simp [hc], by simp, ?_⟩
        rw [collapse_sep hc, heq]
        rfl
      | true =>
        refine ⟨[], post, by simp, hpost, by simp, by simp, ?_⟩
        rw [collapse_gap hc, heq]
        rfl
    | true =>
      rw [collapse_word hc]
      suffices h : ∃ post, (∀ c ∈ post, c = sep) ∧
          c :: collapse p sep false l = [sep].intercalate (words p (c :: l)) ++ post by
        obtain ⟨post, hpost, heq⟩ := h
        exact ⟨[], post, by simp, hpost, by simp, by simp [hc], heq⟩
      by_cases hrest : words p l = []
      · have hall := words_eq_nil.mp hrest
        have hstart : starts p l = false := starts_of_all hall
        rw [words_new hc hstart, hrest, List.intercalate_singleton]
        cases l with
        | nil => exact ⟨[], by simp, rfl⟩
        | cons d l =>
          refine ⟨[sep], by simp, ?_⟩
          have hrun := collapse_run sep (List.cons_ne_nil d l) hall false []
          rw [List.append_nil] at hrun
          rw [hrun]
          rfl
      · obtain ⟨pre, post, -, hpost, hnone, hone, heq⟩ := ih false hrest
        refine ⟨post, hpost, ?_⟩
        cases hstart : starts p l with
        | true =>
          obtain ⟨w, ws, hw⟩ := List.exists_cons_of_ne_nil hrest
          rw [heq, hnone (by rw [hstart]; rfl), words_join hc hstart, hw, List.modifyHead_cons,
            List.intercalate_cons_cons_left]
          rfl
        | false =>
          rw [heq, hone (by rw [hstart]; rfl), words_new hc hstart,
            List.intercalate_cons_of_ne_nil hrest]
          simp

end Collapse

/-! ### Blocks of words -/

theorem intercalate_append {s : List α} {us ws : List (List α)} (hu : us ≠ []) (hw : ws ≠ []) :
    s.intercalate (us ++ ws) = s.intercalate us ++ s ++ s.intercalate ws := by
  induction us with
  | nil => exact absurd rfl hu
  | cons u us ih =>
    cases us with
    | nil => simp [List.intercalate_cons_of_ne_nil hw]
    | cons v us =>
      have hrest := ih (List.cons_ne_nil v us)
      rw [List.cons_append, List.intercalate_cons_of_ne_nil (by simp), hrest,
        List.intercalate_cons_of_ne_nil (List.cons_ne_nil v us)]
      simp

/-- The text `m` stands in the text `l` without cutting a word. -/
def Free (p : α → Bool) (m l : List α) : Prop :=
  ∃ a b, l = a ++ m ++ b ∧ (finishes p a = false ∨ starts p m = false) ∧
    (finishes p m = false ∨ starts p b = false)

/-- The words of a text that stands free are a block of the words around it. -/
theorem Free.block {m l : List α} (h : Free p m l) : words p m <:+: words p l := by
  obtain ⟨a, b, rfl, hleft, hright⟩ := h
  by_cases hm : m = []
  · rw [hm]
    exact List.nil_infix
  have hends : finishes p (a ++ m) = finishes p m := by
    rw [finishes, List.getLast?_append_of_ne_nil a hm, finishes]
  rw [words_append (by rwa [hends]), words_append hleft]
  exact ⟨words p a, words p b, rfl⟩

/-- The words of a text are a block of the words of another exactly when they
stand free in it, where both are collapsed. -/
theorem block_iff (hsep : p sep = false) {m l : List α} (hm : words p m ≠ []) :
    words p m <:+: words p l ↔
      Free p ([sep].intercalate (words p m)) (collapse p sep false l) := by
  have hall : ∀ {x : List α}, (∀ c ∈ x, c = sep) → ∀ c ∈ x, p c = false :=
    fun h c hc => by rw [h c hc, hsep]
  constructor
  · rintro ⟨us, vs, hl⟩
    have hne : words p l ≠ [] := by simp [← hl, hm]
    obtain ⟨pre, post, hpre, hpost, -, -, heq⟩ := collapse_eq_intercalate sep false hne
    have hleft : ∃ a, finishes p a = false ∧
        pre ++ [sep].intercalate (us ++ words p m) = a ++ [sep].intercalate (words p m) := by
      by_cases hus : us = []
      · exact ⟨pre, finishes_of_all (hall hpre), by rw [hus]; rfl⟩
      · refine ⟨pre ++ [sep].intercalate us ++ [sep], by rw [finishes_concat, hsep], ?_⟩
        rw [intercalate_append hus hm]
        simp
    have hright : ∃ b, starts p b = false ∧
        [sep].intercalate (us ++ words p m ++ vs) ++ post = [sep].intercalate (us ++ words p m) ++ b := by
      by_cases hvs : vs = []
      · exact ⟨post, starts_of_all (hall hpost), by rw [hvs, List.append_nil]⟩
      · refine ⟨sep :: [sep].intercalate vs ++ post, hsep, ?_⟩
        rw [intercalate_append (by simp [hm]) hvs]
        simp
    obtain ⟨a, ha, hleft⟩ := hleft
    obtain ⟨b, hb, hright⟩ := hright
    refine ⟨a, b, ?_, .inl ha, .inr hb⟩
    rw [heq, ← hl, List.append_assoc, hright, ← List.append_assoc, hleft]
  · intro h
    obtain ⟨pre, post, hpre, hpost, -, -, heq⟩ := collapse_eq_intercalate sep false hm
    have hwords : words p ([sep].intercalate (words p m)) = words p m := by
      have hparts := congrArg (words p) heq
      rwa [words_collapse hsep, words_append (.inr (starts_of_all (hall hpost))),
        words_append (.inl (finishes_of_all (hall hpre))), words_eq_nil.mpr (hall hpre),
        words_eq_nil.mpr (hall hpost), List.append_nil, List.nil_append, eq_comm] at hparts
    rw [← hwords, ← words_collapse hsep false l]
    exact h.block

end Words

namespace Rx

/-! ### Substituting for the gaps -/

variable {word p : Char → Bool}

theorem ends_char_cons (b : List Char) (c : Char) (l : List Char) :
    ends word (.char p) ⟨b, c :: l⟩ = if p c then [⟨c :: b, l⟩] else [] := rfl

variable (word p) in
/-- A greedy repetition of a class prefers to end behind the whole run. -/
theorem head_moreEnds_char (n : ℕ) (b l : List Char) (hn : l.length ≤ n) :
    ∃ y ys, moreEnds (ends word (.char p)) n ⟨b, l⟩ = y :: ys ∧ y.after = l.dropWhile p := by
  induction n generalizing b l with
  | zero =>
    have hnil : l = [] := List.length_eq_zero_iff.mp (by omega)
    exact ⟨⟨b, l⟩, [], rfl, by rw [hnil]; rfl⟩
  | succ n ih =>
    cases l with
    | nil => exact ⟨⟨b, []⟩, [], rfl, rfl⟩
    | cons c l =>
      rw [moreEnds, ends_char_cons]
      cases hc : p c with
      | false => exact ⟨⟨b, c :: l⟩, [], rfl, by rw [List.dropWhile_cons_of_neg (by simp [hc])]⟩
      | true =>
        obtain ⟨y, ys, hy, hafter⟩ := ih (c :: b) l (by simpa using hn)
        refine ⟨y, ys ++ [⟨b, c :: l⟩], ?_, by rw [hafter, List.dropWhile_cons_of_pos hc]⟩
        simp [hy]

/-- The same behind the rounds that are required, when the run is long enough for them. -/
theorem head_repEnds_char (extra lo : ℕ) (b l : List Char) (hn : l.length ≤ extra)
    (hlo : lo ≤ (l.takeWhile p).length) :
    ∃ y ys, repEnds (ends word (.char p)) extra lo ⟨b, l⟩ = y :: ys ∧ y.after = l.dropWhile p := by
  induction lo generalizing b l with
  | zero => exact head_moreEnds_char word p extra b l hn
  | succ lo ih =>
    cases l with
    | nil => simp at hlo
    | cons c l =>
      cases hc : p c with
      | false => simp [hc] at hlo
      | true =>
        simp only [List.takeWhile_cons, hc, if_true, List.length_cons] at hlo hn
        obtain ⟨y, ys, hy, hafter⟩ := ih (c :: b) l (by omega) (by omega)
        exact ⟨y, ys, by simp [repEnds, ends_char_cons, hc, hy], by rw [hafter, List.dropWhile_cons_of_pos hc]⟩

theorem scan_gaps {gap : Char → Bool} (sep : Char) (n : ℕ) (z : Pos) (hn : z.after.length ≤ n) :
    (scan word (.plus (.char gap)) n z).flatMap (Piece.render [sep]) =
      Words.collapse (fun c => !gap c) sep false z.after := by
  induction n generalizing z with
  | zero =>
    have hnil : z.after = [] := List.length_eq_zero_iff.mp (by omega)
    rw [hnil]
    rfl
  | succ n ih =>
    obtain ⟨b, l⟩ := z
    cases l with
    | nil => rfl
    | cons c l =>
      simp only [List.length_cons] at hn
      cases hc : gap c with
      | false =>
        have hends : ends word (.plus (.char gap)) ⟨b, c :: l⟩ = [] := by
          simp [Pat.plus, ends, repEnds, hc]
        have hrest := ih ⟨c :: b, l⟩ (by simp only; omega)
        rw [Words.collapse_word (by simp [hc])]
        simp only [scan, hends, List.flatMap_cons, hrest]
        rfl
      | true =>
        obtain ⟨y, ys, hy, hafter⟩ := head_moreEnds_char word gap (l.length + 1) (c :: b) l
          (by omega)
        have hends : ends word (.plus (.char gap)) ⟨b, c :: l⟩ = y :: ys := by
          simpa [Pat.plus, ends, repEnds, hc] using hy
        have hrest := ih y (by
          rw [hafter]
          have := (List.dropWhile_suffix gap (l := l)).length_le
          omega)
        rw [Words.collapse_sep (by simp [hc]), Words.collapse_dropWhile]
        simp only [scan, hends, List.flatMap_cons, hrest, hafter, Bool.not_not]
        rfl

/-- Substituting a separator for the runs of a class collapses its gaps. -/
theorem subn_gaps (gap : Char → Bool) (sep : Char) (text : List Char) :
    (subn word (.plus (.char gap)) [sep] text).1 = Words.collapse (fun c => !gap c) sep false text :=
  scan_gaps sep text.length ⟨[], text⟩ (Nat.le_refl _)

end Rx
