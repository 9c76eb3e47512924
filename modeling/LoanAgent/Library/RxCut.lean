import LoanAgent.Library.RxMatch

/-! Substitution in a text that is cut off. Each character carries a mark, so
that it is seen which characters of a text the substitutions leave. Proved: when
every expression finds the same in the first part of a text as in the whole,
the substitutions make of the first part the beginning of what they make of the
whole; so they do where the first part ends in front of a character that no
expression accepts, and such a character splits the text in two; and in a text
without a match a cut makes one only inside a word. -/

namespace Rx

/-! ### A text cut into its matches and the characters between them -/

section Cut
variable {word : Char → Bool} {o : Char} {r q : Pat}

/-- The pieces of the text `l` that follows `b`. -/
inductive Cut (word : Char → Bool) (r : Pat) : List Char → List Char → List Piece → Prop
  | nil {b : List Char} : Cut word r b [] []
  | keep {b l : List Char} {c : Char} {ps : List Piece} (hc : matchAt word r ⟨b, c :: l⟩ = none)
      (h : Cut word r (c :: b) l ps) : Cut word r b (c :: l) (.keep c :: ps)
  | hit {b l m : List Char} {ps : List Piece} (hm : matchAt word r ⟨b, m ++ l⟩ = some m)
      (h : Cut word r (m.reverse ++ b) l ps) : Cut word r b (m ++ l) (.hit m :: ps)

theorem take_length_sub (m l : List Char) : (m ++ l).take ((m ++ l).length - l.length) = m := by
  simp

section Scan
variable (hlt : ∀ z y, y ∈ ends word r z → y.after.length < z.after.length)
include hlt

theorem cut_scan (n : ℕ) (b l : List Char) (hn : l.length ≤ n) :
    Cut word r b l (scan word r n ⟨b, l⟩) := by
  induction n generalizing b l with
  | zero =>
    have : l = [] := List.length_eq_zero_iff.mp (by omega)
    exact this ▸ .nil
  | succ n ih =>
    cases l with
    | nil => exact .nil
    | cons c l =>
      simp only [List.length_cons] at hn
      cases he : matchAt word r ⟨b, c :: l⟩ with
      | none =>
        simp only [scan, matchAt_eq_none.mp he]
        exact .keep he (ih _ _ (by omega))
      | some m =>
        obtain ⟨rest, ys, hrest, hys⟩ := matchAt_some he
        have hlen := hlt ⟨b, c :: l⟩ _ (by rw [hys]; exact List.mem_cons_self)
        have htake : (c :: l).take ((c :: l).length - rest.length) = m := by
          rw [hrest, take_length_sub]
        simp only [scan, hys, htake]
        simp only [List.length_cons] at hlen
        rw [hrest] at he ⊢
        exact .hit he (ih _ _ (by omega))

theorem matchAt_ne_nil {z : Pos} {m : List Char} (h : matchAt word r z = some m) : m ≠ [] := by
  obtain ⟨rest, ys, hrest, hys⟩ := matchAt_some h
  have hlen := hlt z ⟨m.reverse ++ z.before, rest⟩ (hys ▸ List.mem_cons_self)
  rintro rfl
  simp [hrest] at hlen

theorem Cut.scan_eq {b l : List Char} {ps : List Piece} (h : Cut word r b l ps) (n : ℕ) (hn : l.length ≤ n) :
    scan word r n ⟨b, l⟩ = ps := by
  induction h generalizing n with
  | nil => cases n <;> rfl
  | keep hc _ ih =>
    obtain ⟨n, rfl⟩ := Nat.exists_eq_succ_of_ne_zero (n := n) (by rintro rfl; simp at hn)
    simp only [List.length_cons] at hn
    simp only [scan, matchAt_eq_none.mp hc, ih n (by omega)]
  | @hit b l m ps hm _ ih =>
    obtain ⟨c, m, rfl⟩ := List.exists_cons_of_ne_nil (matchAt_ne_nil hlt hm)
    obtain ⟨n, rfl⟩ := Nat.exists_eq_succ_of_ne_zero (n := n) (by rintro rfl; simp at hn)
    obtain ⟨rest, ys, hrest, hys⟩ := matchAt_some hm
    obtain rfl := List.append_cancel_left hrest
    simp only [List.length_append, List.length_cons] at hn
    have htake := take_length_sub (c :: m) l
    simp only [List.cons_append] at hys htake ⊢
    simp only [scan, hys, htake, ih n (by omega)]

end Scan

/-- The text of the pieces. -/
def rendered (token : List Char) (ps : List Piece) : List Char := ps.flatMap (Piece.render token)

/-- The matches that begin in `l`, which follows `b`, are the same when `x` follows `l`. -/
def Unmoved (word : Char → Bool) (r : Pat) (x : List Char) : List Char → List Char → Prop
  | _, [] => True
  | b, c :: l => matchAt word r ⟨b, c :: l ++ x⟩ = matchAt word r ⟨b, c :: l⟩ ∧ Unmoved word r x (c :: b) l

theorem Unmoved.drop {x b l : List Char} (m : List Char) (h : Unmoved word r x b (m ++ l)) :
    Unmoved word r x (m.reverse ++ b) l := by
  induction m generalizing b with
  | nil => exact h
  | cons c m ih =>
    rw [List.reverse_cons, List.append_assoc]
    exact ih h.2

theorem Unmoved.matchAt {x b l : List Char} (h : Unmoved word r x b l) (hne : l ≠ []) :
    matchAt word r ⟨b, l ++ x⟩ = matchAt word r ⟨b, l⟩ := by
  obtain ⟨c, l, rfl⟩ := List.exists_cons_of_ne_nil hne
  exact h.1

/-- The pieces of a text whose matches do not change are pieces of the longer text. -/
theorem Cut.append (hlt : ∀ z y, y ∈ ends word r z → y.after.length < z.after.length) {x b l : List Char}
    {ps qs : List Piece} (h : Cut word r b l ps) (hx : Cut word r (l.reverse ++ b) x qs)
    (hr : Unmoved word r x b l) : Cut word r b (l ++ x) (ps ++ qs) := by
  induction h with
  | nil => exact hx
  | keep hc _ ih =>
    rw [List.reverse_cons, List.append_assoc] at hx
    exact .keep (hr.1.trans hc) (ih hx hr.2)
  | @hit b l m ps hm _ ih =>
    have hne : m ++ l ≠ [] := by simp [matchAt_ne_nil hlt hm]
    have hm' := (hr.matchAt hne).trans hm
    rw [List.reverse_append, List.append_assoc] at hx
    rw [List.append_assoc] at hm' ⊢
    exact .hit hm' (ih hx (hr.drop m))

theorem unmoved_blocked {x l b token : List Char} (hb : Blocked word q token)
    (h : Unmoved word q x (token.reverse ++ b) l) : Unmoved word q x b (token ++ l) := by
  have key : ∀ pre suf, token = pre ++ suf → Unmoved word q x (pre.reverse ++ b) (suf ++ l) := by
    intro pre suf
    induction suf generalizing pre with
    | nil =>
      rintro rfl
      simpa using h
    | cons c suf ih =>
      intro ht
      have hnone := fun t => matchAt_eq_none.mpr (hb pre (c :: suf) ht (by simp) (pre.reverse ++ b) t)
      have hrest := ih (pre ++ [c]) (by simp [ht])
      simp only [List.reverse_append, List.reverse_singleton, List.cons_append, List.nil_append] at hrest
      refine ⟨?_, hrest⟩
      have hall := hnone (l ++ x)
      rw [← List.append_assoc] at hall
      exact hall.trans (hnone l).symm
  exact key [] token rfl

/-- Up to its first match the text of the pieces is the text, and no word ends
in front of a match. -/
theorem Cut.shape (hr : Guarded word o r) (mid : List Char) {b l : List Char} {ps : List Piece}
    (h : Cut word r b l ps) :
    rendered (o :: mid) ps = l ∨ ∃ pre rest t, l = pre ++ rest ∧ rendered (o :: mid) ps = pre ++ o :: t ∧
      headWord word (pre.reverse ++ b) = false := by
  induction h with
  | nil => exact .inl rfl
  | @keep b l c ps _ _ ih =>
    rcases ih with ih | ⟨pre, rest, t, hl, ht, hpre⟩
    · exact .inl (congrArg (c :: ·) ih)
    · refine .inr ⟨c :: pre, rest, t, congrArg (c :: ·) hl, congrArg (c :: ·) ht, ?_⟩
      rwa [List.reverse_cons, List.append_assoc]
  | @hit b l m ps hm _ _ =>
    have hstart := hr.starts _ _ (matchAt_mem hm)
    exact .inr ⟨[], m ++ l, mid ++ rendered (o :: mid) ps, rfl, rfl, hstart.1⟩

section Pass
variable (hw : word o = false) (hqf : Framed q) (hr : Guarded word o r) (hq : Guarded word o q)
  {b b' l x : List Char} {ps qs : List Piece}
include hw hqf hr hq

/-- Where a character is kept, the other expression finds behind the pass what it found before. -/
theorem matchAt_rendered (mid : List Char) {c : Char} (h : Cut word r (c :: b) l ps)
    (hx : Cut word r (l.reverse ++ c :: b) x qs)
    (hsame : matchAt word q ⟨b, c :: l ++ x⟩ = matchAt word q ⟨b, c :: l⟩) :
    matchAt word q ⟨b, c :: rendered (o :: mid) ps ++ rendered (o :: mid) qs⟩ =
      matchAt word q ⟨b, c :: rendered (o :: mid) ps⟩ := by
  have hbarrier := matchAt_barrier hw hqf hq.avoids b
  rcases h.shape hr mid with hps | ⟨pre, rest, t, -, hps, -⟩
  · rcases hx.shape hr mid with hqs | ⟨pre, rest, t, rfl, hqs, hpre⟩
    · rw [hps, hqs]
      exact hsame
    · -- The first match behind the end is not part of a word that goes over the end.
      have hfirst := hbarrier (c :: l ++ pre) t
      rw [List.append_assoc] at hfirst
      rw [hps, hqs, hfirst]
      cases pre with
      | nil => rw [List.append_nil]
      | cons d pre =>
        have hpre : headWord word ((c :: l ++ d :: pre).reverse ++ b) = false := by
          rw [← hpre]
          simp
        refine (matchAt_flank hqf hq.avoids (x := rest) (by simp) hpre fun m hm => ?_).trans ?_
        · rw [List.append_assoc, hsame] at hm
          obtain ⟨rest', ys, hm, -⟩ := matchAt_some hm
          have := congrArg List.length hm
          simp only [List.length_append, List.length_cons] at this ⊢
          omega
        · rw [List.append_assoc]
          exact hsame
  · have hlong := hbarrier (c :: pre) (t ++ rendered (o :: mid) qs)
    have hshort := hbarrier (c :: pre) t
    rw [hps]
    simp only [List.cons_append, List.append_assoc] at hlong hshort ⊢
    rw [hlong, hshort]

/-- The pass of one rule leaves the matches of every rule as unmoved as they were. -/
theorem Cut.unmoved {mid : List Char} (hlast : headWord word (o :: mid).reverse = false)
    (hblock : Blocked word q (o :: mid))
    (h : Cut word r b l ps) (hx : Cut word r (l.reverse ++ b) x qs) (hsame : Unmoved word q x b l)
    (hctx : headWord word b' = headWord word b ∨ headWord word l = false) :
    Unmoved word q (rendered (o :: mid) qs) b' (rendered (o :: mid) ps) := by
  induction h generalizing b' with
  | nil => trivial
  | @keep b l c ps _ h ih =>
    rw [List.reverse_cons, List.append_assoc] at hx
    refine ⟨?_, ih hx hsame.2 (.inl rfl)⟩
    have hkept := matchAt_rendered hw hqf hr hq mid h hx hsame.1
    rcases hctx with hctx | hctx
    · have hcongr := matchAt_congr hqf hctx
      exact (hcongr _).trans (hkept.trans (hcongr _).symm)
    · have hnone : ∀ t, matchAt word q ⟨b', c :: t⟩ = none := fun t =>
        matchAt_eq_none.mpr (hq.ends_nil (z := ⟨b', c :: t⟩) hctx)
      exact (hnone _).trans (hnone _).symm
  | @hit b l m ps hm h ih =>
    have hstop := hr.stops _ _ (matchAt_mem hm)
    rw [List.reverse_append, List.append_assoc] at hx
    refine unmoved_blocked hblock (ih hx (hsame.drop m) ?_)
    have htoken : headWord word ((o :: mid).reverse ++ b') = false :=
      (headWord_append word (by simp) b').trans hlast
    simp only [Pos.isBoundary, bne_iff_ne, ne_eq] at hstop
    simp only [Piece.render, htoken]
    cases hb : headWord word (m.reverse ++ b) with
    | false => exact .inl rfl
    | true =>
      rw [hb] at hstop
      exact .inr (by simpa using hstop)

end Pass

/-- A text cut off in front of a character that the expression avoids. -/
theorem unmoved_barrier (hw : word o = false) (hqf : Framed q) (ho : q.avoids o = true) (b l t : List Char) :
    Unmoved word q (o :: t) b l := by
  induction l generalizing b with
  | nil => trivial
  | cons c l ih => exact ⟨matchAt_barrier hw hqf ho b (c :: l) t, ih (c :: b)⟩

theorem Cut.congr (hrf : Framed r) {b b' l : List Char} {ps : List Piece} (h : Cut word r b l ps)
    (hb : headWord word b' = headWord word b) : Cut word r b' l ps := by
  induction h generalizing b' with
  | nil => exact .nil
  | keep hc _ ih => exact .keep ((matchAt_congr hrf hb _).trans hc) (ih rfl)
  | hit hm _ ih => exact .hit ((matchAt_congr hrf hb _).trans hm) (ih (headWord_append_congr _ hb))

end Cut

/-! ### Which characters are left -/

section Traced
variable {α : Type*} {word : Char → Bool} {o : Char} {r : Pat} {token : List Char}
  {b l : List Char} {ps qs : List Piece}

/-- The text of the pieces, where a character that is kept has its mark and a token has none. -/
def retrace (token : List Char) : List Piece → List (Char × Option α) → List (Char × Option α)
  | [], _ => []
  | .keep _ :: ps, text => text.take 1 ++ retrace token ps (text.drop 1)
  | .hit m :: ps, text => token.map (·, none) ++ retrace token ps (text.drop m.length)

/-- The pieces into which `subn` cuts the text `l` that follows `b`. -/
def pieces (word : Char → Bool) (r : Pat) (b l : List Char) : List Piece := scan word r l.length ⟨b, l⟩

/-- `subn` on a marked text. -/
def subnTraced (word : Char → Bool) (r : Pat) (token : List Char) (text : List (Char × Option α)) :
    List (Char × Option α) :=
  retrace token (pieces word r [] (text.map Prod.fst)) text

/-- `substAll` on a marked text. -/
def substAllTraced (word : Char → Bool) (rules : List (Pat × List Char)) (text : List (Char × Option α)) :
    List (Char × Option α) :=
  rules.foldl (fun acc rule => subnTraced word rule.1 rule.2 acc) text

theorem drop_of_map_fst {m l : List Char} {text : List (Char × Option α)} (h : text.map Prod.fst = m ++ l) :
    (text.drop m.length).map Prod.fst = l := by
  rw [List.map_drop, h, List.drop_left]

theorem Cut.retrace_fst (h : Cut word r b l ps) {text : List (Char × Option α)} (ht : text.map Prod.fst = l) :
    (retrace token ps text).map Prod.fst = rendered token ps := by
  induction h generalizing text with
  | nil => rfl
  | keep _ _ ih => cases text with
    | nil => cases ht
    | cons x text =>
      obtain ⟨hx, hl⟩ := List.cons.inj ht
      exact congrArg₂ (· :: ·) hx (ih hl)
  | @hit b l m ps _ _ ih =>
    have hl := drop_of_map_fst ht
    simp only [retrace, List.map_append, ih hl, List.map_map]
    exact congrArg (· ++ rendered token ps) (List.map_id token)

theorem Cut.retrace_append (h : Cut word r b l ps) {text more : List (Char × Option α)}
    (ht : text.map Prod.fst = l) :
    retrace token (ps ++ qs) (text ++ more) = retrace token ps text ++ retrace token qs more := by
  induction h generalizing text with
  | nil =>
    obtain rfl := List.map_eq_nil_iff.mp ht
    rfl
  | keep _ _ ih => cases text with
    | nil => cases ht
    | cons x text => exact congrArg (x :: ·) (ih (List.cons.inj ht).2)
  | @hit b l m ps _ _ ih =>
    have hl := drop_of_map_fst ht
    have hlen := congrArg List.length ht
    simp only [List.length_map, List.length_append] at hlen
    simp only [List.cons_append, retrace, List.append_assoc]
    rw [List.drop_append_of_le_length (by omega), ih hl]

theorem mem_retrace {x : Char × Option α} (ps : List Piece) (text : List (Char × Option α))
    (h : x ∈ retrace token ps text) : x ∈ text ∨ x.2 = none := by
  induction ps generalizing text with
  | nil => simp [retrace] at h
  | cons p ps ih => cases p with
    | keep c =>
      rcases List.mem_append.mp h with h | h
      · exact .inl (List.mem_of_mem_take h)
      · exact (ih _ h).imp_left List.mem_of_mem_drop
    | hit m =>
      rcases List.mem_append.mp h with h | h
      · obtain ⟨c, -, rfl⟩ := List.mem_map.mp h
        exact .inr rfl
      · exact (ih _ h).imp_left List.mem_of_mem_drop

/-- The substitutions leave characters of the text and add characters without a mark. -/
theorem mem_substAllTraced {rules : List (Pat × List Char)} {x : Char × Option α} {text : List (Char × Option α)}
    (h : x ∈ substAllTraced word rules text) : x ∈ text ∨ x.2 = none := by
  induction rules generalizing text with
  | nil => exact .inl h
  | cons rule rules ih => exact (ih h).elim (mem_retrace _ _) .inr

theorem retrace_keep (text : List (Char × Option α)) :
    retrace token ((text.map Prod.fst).map .keep) text = text := by
  induction text with
  | nil => rfl
  | cons x text ih => exact congrArg (x :: ·) ih

/-- Rules of which none has a match leave every character. -/
theorem substAllTraced_of_occurs {rules : List (Pat × List Char)} {text : List (Char × Option α)}
    (h : ∀ r ∈ rules, occurs word r.1 [] (text.map Prod.fst) = false) : substAllTraced word rules text = text := by
  induction rules with
  | nil => rfl
  | cons rule rules ih =>
    have hscan : pieces word rule.1 [] (text.map Prod.fst) = (text.map Prod.fst).map .keep :=
      scan_of_occurs _ ⟨[], text.map Prod.fst⟩ (Nat.le_refl _) (h rule List.mem_cons_self)
    have hrule : subnTraced word rule.1 rule.2 text = text := by
      rw [subnTraced, hscan, retrace_keep]
    have hrest := ih fun r hr => h r (List.mem_cons_of_mem rule hr)
    rw [← hrule] at hrest
    exact hrest.trans hrule

section Rules
variable {rules : List (Pat × List Char)} (h : SoundRules word o rules)
include h

theorem SoundRules.cut {rule : Pat × List Char} (hr : rule ∈ rules) (b l : List Char) :
    Cut word rule.1 b l (pieces word rule.1 b l) :=
  cut_scan (h.consumes rule hr) _ _ _ (Nat.le_refl _)

theorem SoundRules.pieces_eq {rule : Pat × List Char} (hr : rule ∈ rules) {b l : List Char} {ps : List Piece}
    (hps : Cut word rule.1 b l ps) : pieces word rule.1 b l = ps :=
  hps.scan_eq (h.consumes rule hr) _ (Nat.le_refl _)

/-- The traced text is the substituted one. -/
theorem SoundRules.substAllTraced_fst (text : List (Char × Option α)) :
    (substAllTraced word rules text).map Prod.fst = (substAll word rules (text.map Prod.fst)).1 := by
  have key : ∀ todo ⊆ rules, ∀ (text : List (Char × Option α)) (n : ℕ),
      (substAllTraced word todo text).map Prod.fst = (todo.foldl (fun acc rule =>
        ((subn word rule.1 rule.2 acc.1).1, acc.2 + (subn word rule.1 rule.2 acc.1).2))
          (text.map Prod.fst, n)).1 := by
    intro todo
    induction todo with
    | nil => exact fun _ _ _ => rfl
    | cons rule todo ih =>
      intro hsub text n
      have hcut := h.cut (hsub List.mem_cons_self) [] (text.map Prod.fst)
      have hfst : (subnTraced word rule.1 rule.2 text).map Prod.fst =
          (subn word rule.1 rule.2 (text.map Prod.fst)).1 := hcut.retrace_fst rfl
      have hrest := ih (List.subset_of_cons_subset hsub) (subnTraced word rule.1 rule.2 text)
      rw [hfst] at hrest
      exact hrest _
  exact key rules (List.Subset.refl _) text 0

theorem SoundRules.subnTraced_append {rule : Pat × List Char} (hr : rule ∈ rules)
    (text more : List (Char × Option α)) (hun : Unmoved word rule.1 (more.map Prod.fst) [] (text.map Prod.fst)) :
    subnTraced word rule.1 rule.2 (text ++ more) = subnTraced word rule.1 rule.2 text ++
      retrace rule.2 (pieces word rule.1 (text.map Prod.fst).reverse (more.map Prod.fst)) more := by
  have htext := h.cut hr [] (text.map Prod.fst)
  have hmore := h.cut hr ((text.map Prod.fst).reverse ++ []) (more.map Prod.fst)
  have hall := htext.append (h.consumes rule hr) hmore hun
  rw [List.append_nil] at hall
  rw [subnTraced, List.map_append, h.pieces_eq hr hall, htext.retrace_append rfl]
  rfl

variable (hf : ∀ r ∈ rules, Framed r.1)
include hf

/-- The pass of one rule over the whole begins with its pass over the first part,
and the matches of all rules stay where they are. -/
theorem SoundRules.unmoved_step {rule : Pat × List Char} (hr : rule ∈ rules) {text more : List (Char × Option α)}
    (hun : ∀ q ∈ rules, Unmoved word q.1 (more.map Prod.fst) [] (text.map Prod.fst)) :
    ∃ more', subnTraced word rule.1 rule.2 (text ++ more) = subnTraced word rule.1 rule.2 text ++ more' ∧
      ∀ q ∈ rules, Unmoved word q.1 (more'.map Prod.fst) []
        ((subnTraced word rule.1 rule.2 text).map Prod.fst) := by
  have htext := h.cut hr [] (text.map Prod.fst)
  have hmore := h.cut hr (text.map Prod.fst).reverse (more.map Prod.fst)
  obtain ⟨mid, hmid⟩ := List.head?_eq_some_iff.mp (h.opens rule hr)
  refine ⟨_, h.subnTraced_append hr text more (hun rule hr), fun q hq => ?_⟩
  have hclose := h.closes rule hr
  have hblock := h.blocked rule hr q hq
  have hpass : (subnTraced word rule.1 rule.2 text).map Prod.fst = _ := htext.retrace_fst rfl
  rw [hpass, hmore.retrace_fst rfl, hmid]
  rw [hmid] at hclose hblock
  exact htext.unmoved h.barrier (hf q hq) (h.guarded rule hr) (h.guarded q hq) hclose hblock
    (by rwa [List.append_nil]) (hun q hq) (.inl rfl)

/-- When every rule finds the same in the first part as in the whole, the rules
make of the first part the beginning of what they make of the whole. -/
theorem SoundRules.substAllTraced_append {text more : List (Char × Option α)}
    (hun : ∀ q ∈ rules, Unmoved word q.1 (more.map Prod.fst) [] (text.map Prod.fst)) :
    substAllTraced word rules text <+: substAllTraced word rules (text ++ more) := by
  have key : ∀ todo ⊆ rules, ∀ text more : List (Char × Option α),
      (∀ q ∈ rules, Unmoved word q.1 (more.map Prod.fst) [] (text.map Prod.fst)) →
      substAllTraced word todo text <+: substAllTraced word todo (text ++ more) := by
    intro todo
    induction todo with
    | nil => exact fun _ text more _ => List.prefix_append text more
    | cons rule todo ih =>
      intro hsub text more hun
      obtain ⟨more', hpass, hun'⟩ := h.unmoved_step hf (hsub List.mem_cons_self) hun
      have hrest := ih (List.subset_of_cons_subset hsub) _ more' hun'
      rw [← hpass] at hrest
      exact hrest
  exact key rules (List.Subset.refl _) text more hun

/-- A character that no expression accepts splits the text in two. -/
theorem SoundRules.substAllTraced_barrier {c : Char} (hc : word c = false)
    (havoid : ∀ r ∈ rules, r.1.avoids c = true) (i : Option α) (text more : List (Char × Option α)) :
    substAllTraced word rules (text ++ (c, i) :: more) =
      substAllTraced word rules text ++ (c, i) :: substAllTraced word rules more := by
  have key : ∀ todo ⊆ rules, ∀ text more : List (Char × Option α),
      substAllTraced word todo (text ++ (c, i) :: more) =
        substAllTraced word todo text ++ (c, i) :: substAllTraced word todo more := by
    intro todo
    induction todo with
    | nil => exact fun _ _ _ => rfl
    | cons rule todo ih =>
      intro hsub text more
      have hr := hsub List.mem_cons_self
      have hstep : subnTraced word rule.1 rule.2 (text ++ (c, i) :: more) =
          subnTraced word rule.1 rule.2 text ++ (c, i) :: subnTraced word rule.1 rule.2 more := by
        have hun := unmoved_barrier hc (hf rule hr) (havoid rule hr) [] (text.map Prod.fst) (more.map Prod.fst)
        have hrest := (h.cut hr [] (more.map Prod.fst)).congr (hf rule hr)
          (show headWord word (c :: (text.map Prod.fst).reverse) = headWord word [] from hc)
        have hnone : matchAt word rule.1 ⟨(text.map Prod.fst).reverse, c :: more.map Prod.fst⟩ = none :=
          matchAt_eq_none.mpr ((h.guarded rule hr).ends_nil hc)
        rw [h.subnTraced_append hr text ((c, i) :: more) hun]
        refine congrArg _ ?_
        rw [List.map_cons, h.pieces_eq hr (.keep hnone hrest)]
        rfl
      have hfold := ih (List.subset_of_cons_subset hsub) (subnTraced word rule.1 rule.2 text)
        (subnTraced word rule.1 rule.2 more)
      rw [← hstep] at hfold
      exact hfold
  exact key rules (List.Subset.refl _) text more

end Rules

end Traced

/-! ### A match that only a cut makes -/

section Brought
variable {word : Char → Bool} {o : Char} {r : Pat}

theorem chain_zero (f : List Char → List ℕ) (l : List Char) : chain f (fun _ => [0]) l = f l :=
  List.flatMap_singleton' _

/-- The boundaries around an expression do not change the lengths of its matches. -/
theorem lengths_framed (a : Pat) (rest : List Pat) (l : List Char) :
    lengths (framed a rest) l = lengths (.cat a rest) l := by
  have hinner : ∀ a l, lengths (.cat a (rest ++ [.boundary])) l = lengths (.cat a rest) l := by
    induction rest with
    | nil => exact fun a l => chain_zero (lengths a) l
    | cons b rest ih =>
      intro a l
      have hrest : lengths (.cat b (rest ++ [.boundary])) = lengths (.cat b rest) := funext (ih b)
      simp only [List.cons_append, Pat.cat, lengths, hrest]
  have hfront : lengths (framed a rest) l = lengths (.cat a (rest ++ [.boundary])) l := by
    simp [framed, Pat.cat, lengths, chain]
  exact hfront.trans (hinner a l)

/-- Some stretch at the end of the text `l`, which follows `b`, begins at a word
boundary and is what the expression asks for between its boundaries. -/
def endsIn (word : Char → Bool) (r : Pat) : List Char → List Char → Bool
  | b, [] => Pos.isBoundary word ⟨b, []⟩ && (lengths r []).contains 0
  | b, c :: l => (Pos.isBoundary word ⟨b, c :: l⟩ && (lengths r (c :: l)).contains (c :: l).length) ||
    endsIn word r (c :: b) l

theorem mem_ends_framed {a : Pat} {rest : List Pat} (ha : (Pat.cat a rest).plain = true) {z y : Pos} :
    y ∈ ends word (framed a rest) z ↔ z.isBoundary word = true ∧
      ∃ k ∈ lengths (.cat a rest) z.after, y = z.forward k ∧ (z.forward k).isBoundary word = true := by
  rw [ends_framed, List.mem_ite_nil_right, List.mem_filter, ends_forward word ha, List.mem_map]
  refine and_congr_right fun _ => ⟨?_, ?_⟩
  · rintro ⟨⟨k, hk, rfl⟩, hstop⟩
    exact ⟨k, hk, rfl, hstop⟩
  · rintro ⟨k, hk, rfl, hstop⟩
    exact ⟨⟨k, hk, rfl⟩, hstop⟩

/-- Where the whole text has no match, the part before the cut has one only
that ends at the cut, in the middle of a word. -/
theorem ends_cut (hr : Framed r) (ho : r.avoids o = true) {b l x : List Char}
    (h : ends word r ⟨b, l ++ x⟩ = []) :
    (!(ends word r ⟨b, l⟩).isEmpty) = (headWord word (l.reverse ++ b) && headWord word x &&
      (Pos.isBoundary word ⟨b, l⟩ && (lengths r l).contains l.length)) := by
  obtain ⟨a, rest, rfl, ha⟩ := hr
  rw [avoids_framed] at ho
  have hnone : ∀ k ≤ l.length, k ∈ lengths (.cat a rest) l → Pos.isBoundary word ⟨b, l ++ x⟩ = true →
      (Pos.forward ⟨b, l ++ x⟩ k).isBoundary word = false := by
    intro k hk hmem hstart
    refine Bool.eq_false_iff.mpr fun hstop => ?_
    rw [(sees_lengths ho).part l x] at hmem
    have := (mem_ends_framed ha).mpr ⟨hstart, k, (List.mem_filter.mp hmem).1, rfl, hstop⟩
    rw [h] at this
    cases this
  have hend : (Pos.forward ⟨b, l⟩ l.length).isBoundary word = headWord word (l.reverse ++ b) := by
    simp [Pos.isBoundary, Pos.forward, headWord]
  have hover : (Pos.forward ⟨b, l ++ x⟩ l.length).isBoundary word =
      (headWord word (l.reverse ++ b) != headWord word x) := by
    simp [Pos.isBoundary, Pos.forward]
  rw [Bool.eq_iff_iff, lengths_framed]
  simp only [Bool.and_eq_true, Bool.not_eq_true', List.isEmpty_eq_false_iff_exists_mem, List.contains_iff_mem]
  constructor
  · rintro ⟨y, hy⟩
    obtain ⟨hstart, k, hk, -, hstop⟩ := (mem_ends_framed ha).mp hy
    have hle : k ≤ l.length := by
      rw [(sees_lengths ho).part l []] at hk
      exact of_decide_eq_true (List.mem_filter.mp hk).2
    rcases Nat.lt_or_eq_of_le hle with hlt | rfl
    · -- The boundaries of a match that ends before the cut are boundaries of the whole text.
      have hstart' : Pos.isBoundary word ⟨b, l ++ x⟩ = true :=
        (isBoundary_forward_append (k := 0) (by omega)).symm.trans hstart
      have hwhole := hnone k hle hk hstart'
      rw [← isBoundary_forward_append hlt, hstop] at hwhole
      cases hwhole
    · rw [hend] at hstop
      refine ⟨⟨hstop, ?_⟩, hstart, hk⟩
      by_contra hx
      rw [Bool.not_eq_true] at hx
      have hstart' : Pos.isBoundary word ⟨b, l ++ x⟩ = true := by
        cases l with
        | nil =>
          have : headWord word ([] : List Char) = false := rfl
          simpa only [Pos.isBoundary, List.nil_append, hx, this] using hstart
        | cons c l => exact hstart
      have hwhole := hnone _ hle hk hstart'
      rw [hover, hstop, hx] at hwhole
      cases hwhole
  · rintro ⟨⟨hlast, -⟩, hstart, hmem⟩
    exact ⟨_, (mem_ends_framed ha).mpr ⟨hstart, _, hmem, rfl, hend.trans hlast⟩⟩

/-- In a text without a match a cut makes one exactly when it falls inside a
word and the expression, boundaries apart, is met right in front of it. -/
theorem occurs_cut (hr : Framed r) (ho : r.avoids o = true) {b l x : List Char}
    (h : occurs word r b (l ++ x) = false) :
    occurs word r b l = (headWord word (l.reverse ++ b) && headWord word x && endsIn word r b l) := by
  have hplace : ∀ t {b}, occurs word r b t = false → ends word r ⟨b, t⟩ = [] := by
    intro t b h
    have h : occurs word r b ([] ++ t) = false := h
    exact ends_of_occurs h
  induction l generalizing b with
  | nil =>
    have hhere : ends word r ⟨b, [] ++ x⟩ = [] := hplace _ h
    exact ends_cut hr ho hhere
  | cons c l ih =>
    have hhere : ends word r ⟨b, c :: l ++ x⟩ = [] := hplace _ h
    have hrest : occurs word r (c :: b) (l ++ x) = false := by
      simp only [List.cons_append, occurs, Bool.or_eq_false_iff] at h
      exact h.2
    rw [occurs, endsIn, ih hrest, ends_cut hr ho hhere, List.reverse_cons, List.append_assoc,
      List.singleton_append, ← Bool.and_or_distrib_left]

end Brought

end Rx
