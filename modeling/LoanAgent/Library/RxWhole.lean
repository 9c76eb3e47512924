import LoanAgent.Library.RxGroup

/-! Words that a substitution leaves whole. A match that starts in front of a word
stops there or goes on into it, and a word that no match touches is still there
when the text around it has changed. Proved: where no text of the expression
begins in front of a word and ends in it, and none lies in it, a substitution
writes the word with the treated texts on both sides; a suffix of a treated text
that has no closing bracket of the marker is a suffix of the text itself, so that
the same holds of the expressions of later substitutions. -/

namespace Rx

theorem Grouped.suffix_of_not_mem {q : Char} {w x y : List Char} (h : w <:+ x ++ q :: y) (hq : q ∉ w) : w <:+ y := by
  rw [← List.reverse_prefix] at h ⊢
  refine prefix_of_not_mem (q := q) (y := x.reverse) ?_ (by simpa using hq)
  simpa using h

/-! ### Treated texts -/

/-- What becomes of a text: a character stays, or goes with a match that begins with what is kept. -/
inductive Treats : List Fate → List Char → Prop
  | done : Treats [] []
  | stay {fates : List Fate} {text : List Char} (c : Char) (h : Treats fates text) :
      Treats (.stay c :: fates) (c :: text)
  | gone {fates : List Fate} {text kept whole : List Char} (hkept : kept <+: whole) (h : Treats fates text) :
      Treats (.gone kept :: fates) (whole ++ text)

namespace Treats
variable {fates : List Fate} {text : List Char}

theorem stays (w : List Char) : Treats (w.map .stay) w := by
  induction w with
  | nil => exact .done
  | cons c w ih => exact .stay c ih

theorem append {more : List Fate} {rest : List Char} (h : Treats fates text) (h' : Treats more rest) :
    Treats (fates ++ more) (text ++ rest) := by
  induction h with
  | done => exact h'
  | stay c _ ih => exact .stay c ih
  | gone hkept _ ih => exact List.append_assoc _ _ rest ▸ .gone hkept ih

/-- What stays are slices of the text. -/
theorem slices (h : Treats fates text) :
    ∃ s more, stretches fates = s :: more ∧ s <+: text ∧ ∀ t ∈ more, t <:+: text := by
  induction h with
  | done => exact ⟨[], [], rfl, List.nil_prefix, by simp⟩
  | stay c _ ih =>
    obtain ⟨s, more, hs, hbegins, hmore⟩ := ih
    exact ⟨c :: s, more, by simp only [stretches, hs], List.cons_prefix_cons.mpr ⟨rfl, hbegins⟩,
      fun t ht => List.infix_cons (hmore t ht)⟩
  | @gone _ _ kept whole hkept _ ih =>
    obtain ⟨s, more, hs, hbegins, hmore⟩ := ih
    exact ⟨kept, s :: more, by simp only [stretches, hs], List.prefix_append_of_prefix hkept,
      List.forall_mem_cons.mpr ⟨List.infix_append_of_infix_right hbegins.isInfix,
        fun t ht => List.infix_append_of_infix_right (hmore t ht)⟩⟩

theorem slice (h : Treats fates text) {s : List Char} (hs : s ∈ stretches fates) : s <:+: text := by
  obtain ⟨t, more, heq, hbegins, hmore⟩ := h.slices
  rw [heq] at hs
  rcases List.mem_cons.mp hs with rfl | hs
  · exact hbegins.isInfix
  · exact hmore s hs

/-- Without the end of the marker in it, a treated text is the text. -/
theorem eq_of_not_mem {marker : List Char} {q : Char} (hq : q ∈ marker) (h : Treats fates text)
    (hnot : q ∉ fates.flatMap (Fate.render marker)) : fates.flatMap (Fate.render marker) = text := by
  induction h with
  | done => rfl
  | stay c _ ih =>
    rw [List.flatMap_cons, List.mem_append, not_or] at hnot
    rw [List.flatMap_cons, ih hnot.2]
    rfl
  | gone _ _ _ => exact absurd (List.mem_append_left _ (List.mem_append_right _ hq)) hnot

/-- A suffix of a treated text that lacks the end of the marker is one of the text. -/
theorem suffix {opening : List Char} {q : Char} (h : Treats fates text) {s : List Char}
    (hs : s <:+ fates.flatMap (Fate.render (opening ++ [q]))) (hq : q ∉ s) : s <:+ text := by
  induction h with
  | done => exact hs
  | stay c h ih =>
    rw [List.flatMap_cons] at hs
    rcases List.suffix_cons_iff.mp hs with heq | hs
    · have hnot : q ∉ _ := fun hmem => hq (heq ▸ List.mem_cons_of_mem c hmem)
      rw [h.eq_of_not_mem (List.mem_append_right _ List.mem_cons_self) hnot] at heq
      exact heq ▸ List.suffix_rfl
    · exact List.suffix_cons_iff.mpr (.inr (ih hs))
  | @gone fates _ kept whole _ _ ih =>
    rw [List.flatMap_cons, Fate.render, ← List.append_assoc, List.append_assoc, List.singleton_append] at hs
    exact List.suffix_append_of_suffix (ih (Grouped.suffix_of_not_mem hs hq))

end Treats

/-! ### Texts of an expression around a word -/

namespace Grouped
variable {g : Grouped} {a w l : List Char}

/-- The texts of the whole expression. -/
def Spells (g : Grouped) (m : List Char) : Prop :=
  ∃ u k v, m = u ++ k ++ v ∧ g.front.Spells u ∧ g.group.Spells k ∧ g.back.Spells v

theorem spells_of_found {z : Pos} {m : Match} (hm : m ∈ g.found z) :
    g.Spells m.whole ∧ z.after = m.whole ++ m.stop.after := by
  obtain ⟨rfl, u, k, v, h⟩ := sound_of_found hm
  exact ⟨⟨u, k, v, h.whole, h.front, h.group, h.back⟩, h.rest⟩

/-- A text of the expression begins in `a` and ends in `w`. -/
def Crosses (g : Grouped) (a w : List Char) : Prop :=
  ∃ s p, s ≠ [] ∧ p ≠ [] ∧ s <:+ a ∧ p <+: w ∧ g.Spells (s ++ p)

/-- A match that starts in front of a word stops there unless it crosses into the word. -/
theorem stops_of_not_crosses (h : ¬ g.Crosses a w) {u : List Char} {c : Char} {x b : List Char}
    (ha : a = u ++ c :: x)
    {m : Match} (hm : m ∈ g.found ⟨b, c :: (x ++ w)⟩) : ∃ x', m.stop.after = x' ++ w := by
  obtain ⟨hspelled, hrest⟩ := spells_of_found hm
  have hsuffix : c :: x <:+ a := ha ▸ List.suffix_append u _
  rcases List.append_eq_append_iff.mp (show (c :: x) ++ w = m.whole ++ m.stop.after from hrest) with
    ⟨p, hwhole, hw⟩ | ⟨x', -, hstop⟩
  · by_cases hp : p = []
    · subst hp
      exact ⟨[], hw.symm⟩
    · exact absurd ⟨c :: x, p, List.cons_ne_nil _ _, hp, hsuffix, ⟨_, hw.symm⟩, hwhole ▸ hspelled⟩ h
  · exact ⟨x', hstop⟩

/-- No text of the expression begins in front of the word and ends in it, and none lies in it. -/
structure Clear (g : Grouped) (a w : List Char) : Prop where
  crosses : ¬ g.Crosses a w
  lies : ∀ m, m <:+: w → ¬ g.Spells m

/-- What has been treated in front of the word has no more texts that go on into it. -/
theorem Clear.treated {fates : List Fate} {opening : List Char} {q : Char} (h : g.Clear a w) (ht : Treats fates a)
    (hq : ∀ m, g.Spells m → q ∉ m) : g.Clear (fates.flatMap (Fate.render (opening ++ [q]))) w := by
  refine ⟨?_, h.lies⟩
  rintro ⟨s, p, hs, hp, hsuffix, hprefix, hspelled⟩
  exact h.crosses ⟨s, p, hs, hp, ht.suffix hsuffix fun hmem => hq _ hspelled (List.mem_append_left p hmem), hprefix,
    hspelled⟩

/-! ### Around the word -/

/-- Where no match starts in the word, and a match that starts in front of it stops
there or keeps no more than `k` and stops right behind the word, the word stays
whole or nothing is kept from the end of `k` to the end of the word. -/
theorem fates_around (hg : g.Leading) (hne : ¬ g.Spells []) {P : Prop} {k : List Char}
    (hinside : ∀ u c rest, w = u ++ c :: rest → ∀ b l, g.found ⟨b, c :: rest ++ l⟩ = []) (n : ℕ) (a b : List Char)
    (hn : (a ++ (w ++ l)).length ≤ n)
    (hfront : ∀ u c x, a = u ++ c :: x → ∀ b m, m ∈ g.found ⟨b, c :: (x ++ (w ++ l))⟩ →
      (∃ x', m.stop.after = x' ++ (w ++ l)) ∨ P ∧ m.kept <+: c :: x ++ k ∧ m.stop.after = l) :
    (∃ fates behind, g.fates n ⟨b, a ++ (w ++ l)⟩ = fates ++ (w.map .stay ++ behind) ∧ Treats fates a ∧
        ∀ t ∈ stretches behind, t <:+: l) ∨
      P ∧ ∃ s more, stretches (g.fates n ⟨b, a ++ (w ++ l)⟩) = s :: more ∧ s <+: a ++ k ∧
        ∀ t ∈ more, t <:+: a ++ k ∨ t <:+: l := by
  induction n generalizing a b with
  | zero =>
    obtain ⟨rfl, rfl, rfl⟩ : a = [] ∧ w = [] ∧ l = [] := by simpa using hn
    exact .inl ⟨[], [], rfl, .done, by simp [stretches]⟩
  | succ n ih =>
    cases a with
    | nil =>
      have hword := fates_unmatched (n + 1 - w.length) b w l fun u c rest heq => hinside u c rest heq _ l
      rw [List.nil_append, List.length_append] at hn
      rw [Nat.add_sub_cancel' (by omega)] at hword
      obtain ⟨s, more, hs, hbegins, hmore⟩ := slices_of_fates hg (n + 1 - w.length) ⟨w.reverse ++ b, l⟩
      exact .inl ⟨[], _, hword, .done, hs ▸ List.forall_mem_cons.mpr ⟨hbegins.isInfix, hmore⟩⟩
    | cons c a =>
      rw [List.cons_append] at hn ⊢
      have hlen : (a ++ (w ++ l)).length ≤ n := by simpa using hn
      have hlater : ∀ x y, a = x ++ y → ∀ u d z, y = u ++ d :: z → ∀ b m, m ∈ g.found ⟨b, d :: (z ++ (w ++ l))⟩ →
          (∃ x', m.stop.after = x' ++ (w ++ l)) ∨ P ∧ m.kept <+: d :: z ++ k ∧ m.stop.after = l := by
        rintro x y rfl u d z rfl
        exact hfront (c :: (x ++ u)) d z (by simp)
      cases hm : (g.found ⟨b, c :: (a ++ (w ++ l))⟩).head? with
      | none =>
        rcases ih a (c :: b) hlen (hlater [] a rfl) with
          ⟨F, behind, hfates, ht, hbehind⟩ | ⟨hP, s, more, hs, hbegins, hmore⟩
        · exact .inl ⟨.stay c :: F, behind, by simp only [fates, hm, hfates, List.cons_append], .stay c ht, hbehind⟩
        · exact .inr ⟨hP, c :: s, more, by simp only [fates, hm, stretches, hs],
            List.cons_prefix_cons.mpr ⟨rfl, hbegins⟩, fun t ht => (hmore t ht).imp_left List.infix_cons⟩
      | some m =>
        have hmem := List.mem_of_mem_head? hm
        obtain ⟨hstart, u, kept, v, hsound⟩ := sound_of_found hmem
        have hkept : m.kept <+: m.whole := by
          rw [hsound.kept, hsound.whole, hg u hsound.front, List.nil_append]
          exact List.prefix_append kept v
        have hrest : c :: (a ++ (w ++ l)) = m.whole ++ m.stop.after := (spells_of_found hmem).2
        rcases hfront [] c a rfl b m hmem with ⟨x, hx⟩ | ⟨hP, hkeeps, hstop⟩
        · have hsplit : c :: a = m.whole ++ x := by
            rw [hx, ← List.cons_append, ← List.append_assoc m.whole] at hrest
            exact List.append_cancel_right hrest
          obtain ⟨y, hy⟩ : ∃ y, m.whole = c :: y := by
            cases hwhole : m.whole with
            | nil => exact absurd (hwhole ▸ (spells_of_found hmem).1) hne
            | cons d y => exact ⟨y, by rw [hwhole, List.cons_append, List.cons.injEq] at hsplit; rw [hsplit.1]⟩
          have ha : a = y ++ x := by
            rw [hy, List.cons_append, List.cons.injEq] at hsplit
            exact hsplit.2
          have hplace : (⟨m.stop.before, x ++ (w ++ l)⟩ : Pos) = m.stop := by rw [← hx]
          have hshort : (x ++ (w ++ l)).length ≤ n := by
            rw [ha, List.append_assoc, List.length_append] at hlen
            omega
          have hrec := ih x m.stop.before hshort (hlater y x ha)
          rw [hplace] at hrec
          rcases hrec with ⟨F, behind, hfates, ht, hbehind⟩ | ⟨hP, s, more, hs, hbegins, hmore⟩
          · exact .inl ⟨.gone m.kept :: F, behind, by simp only [fates, hm, hfates, List.cons_append],
              hsplit ▸ .gone hkept ht, hbehind⟩
          · have hslice : ∀ t, t <:+: x ++ k → t <:+: c :: a ++ k := fun t ht => by
              rw [hsplit, List.append_assoc]
              exact List.infix_append_of_infix_right ht
            refine .inr ⟨hP, m.kept, s :: more, by simp only [fates, hm, stretches, hs], ?_, ?_⟩
            · rw [hsplit, List.append_assoc]
              exact List.prefix_append_of_prefix hkept
            · exact List.forall_mem_cons.mpr
                ⟨.inl (hslice s hbegins.isInfix), fun t ht => (hmore t ht).imp_left (hslice t)⟩
        · obtain ⟨s, more, hs, hbegins, hmore⟩ := slices_of_fates hg n m.stop
          rw [hstop] at hbegins hmore
          exact .inr ⟨hP, m.kept, s :: more, by simp only [fates, hm, stretches, hs], hkeeps,
            List.forall_mem_cons.mpr ⟨.inr hbegins.isInfix, fun t ht => .inr (hmore t ht)⟩⟩

/-- A word that no text of the expression touches stays whole in a substitution,
between the treated text in front of it and what has become of the text behind it. -/
theorem Clear.subst {q : Char} (h : g.Clear a (w ++ [q])) (hg : g.Leading) (hne : ¬ g.Spells [])
    (hq : ∀ m, g.Spells m → q ∉ m) (marker l : List Char) :
    ∃ front behind, g.subst marker (a ++ (w ++ [q] ++ l)) =
        front.flatMap (Fate.render marker) ++ (w ++ [q] ++ behind.flatMap (Fate.render marker)) ∧
      Treats front a ∧ ∀ t ∈ stretches behind, t <:+: l := by
  have hinside : ∀ u c rest, w ++ [q] = u ++ c :: rest → ∀ b l, g.found ⟨b, c :: rest ++ l⟩ = [] := by
    refine fun u c rest heq b l => List.eq_nil_iff_forall_not_mem.mpr fun m hm => ?_
    obtain ⟨hspelled, hrest⟩ := spells_of_found hm
    obtain ⟨x, hx⟩ : ∃ x, c :: rest = x ++ [q] := by
      have hsuffix : c :: rest <:+ w ++ [q] := ⟨u, heq.symm⟩
      rcases List.suffix_concat_iff.mp hsuffix with h | ⟨x, hx, -⟩
      · exact absurd h (List.cons_ne_nil _ _)
      · exact ⟨x, hx⟩
    have hbegins : m.whole <+: x ++ q :: l := ⟨m.stop.after, by rw [← hrest, hx]; simp⟩
    have hword : c :: rest <:+: w ++ [q] := (List.suffix_append u _).isInfix.trans (heq ▸ List.infix_refl _)
    exact h.lies _ ((prefix_of_not_mem hbegins (hq _ hspelled)).isInfix.trans
      ((hx ▸ (List.prefix_append x [q]).isInfix).trans hword)) hspelled
  have hfront : ∀ u c x, a = u ++ c :: x → ∀ b m, m ∈ g.found ⟨b, c :: (x ++ (w ++ [q] ++ l))⟩ →
      (∃ x', m.stop.after = x' ++ (w ++ [q] ++ l)) ∨ False ∧ m.kept <+: c :: x ++ [] ∧ m.stop.after = l := by
    refine fun u c x ha b m hm => .inl (stops_of_not_crosses ?_ ha hm)
    rintro ⟨s, p, hs, hp, hsuffix, hprefix, hspelled⟩
    refine h.crosses ⟨s, p, hs, hp, hsuffix, ?_, hspelled⟩
    have hprefix' : p <+: w ++ q :: l := by simpa using hprefix
    exact List.prefix_append_of_prefix
      (prefix_of_not_mem hprefix' fun hmem => hq _ hspelled (List.mem_append_right s hmem))
  rcases fates_around hg hne hinside _ a [] (Nat.le_refl _) hfront with
    ⟨front, behind, hfates, ht, hbehind⟩ | ⟨hF, -⟩
  · refine ⟨front, behind, ?_, ht, hbehind⟩
    have hstays : ((w ++ [q]).map Fate.stay).flatMap (Fate.render marker) = w ++ [q] := by
      rw [List.flatMap_map]
      exact List.flatMap_singleton' _
    rw [Grouped.subst, hfates, List.flatMap_append, List.flatMap_append, hstays]
  · exact hF.elim

end Grouped

end Rx
