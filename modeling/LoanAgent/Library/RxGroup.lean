import LoanAgent.Library.Words

/-! Expressions with one group, searched in a text and substituted in it. An
expression is read as the texts it spells, and its matches as steps over such
texts. A substitution keeps the group of every match and puts a marker behind
it, so that a text falls into kept stretches with the marker in between. Proved:
what a search finds is a slice of the text that is spelled as the expression
says; a substitution writes the kept stretches with the marker in between; what
stands behind the group of a match goes when earlier matches stop in front of it
or reach as far; and a bracketed word stays when no match has the bracket and
every match has a character that the word has not. -/

namespace Rx

/-! ### What an expression spells -/

/-- The text `m` leads from one place to the other. -/
def Pos.Over (m : List Char) (z y : Pos) : Prop := z.after = m ++ y.after ∧ y.before = m.reverse ++ z.before

theorem Pos.Over.refl (z : Pos) : Pos.Over [] z z := ⟨rfl, rfl⟩

theorem Pos.Over.trans {m k : List Char} {z x y : Pos} (h : Pos.Over m z x) (h' : Pos.Over k x y) :
    Pos.Over (m ++ k) z y :=
  ⟨by rw [h.1, h'.1, List.append_assoc], by rw [h'.2, h.2, List.reverse_append, List.append_assoc]⟩

/-- The text from a place to a later one. -/
def Pos.upTo (z y : Pos) : List Char := z.after.take (z.after.length - y.after.length)

theorem Pos.Over.upTo {m : List Char} {z y : Pos} (h : Pos.Over m z y) : z.upTo y = m := by
  simp [Pos.upTo, h.1]

/-- The texts that an expression describes, whatever stands around them. -/
def Pat.Spells : Pat → List Char → Prop
  | .char p, m => ∃ c, p c = true ∧ m = [c]
  | .boundary, m => m = []
  | .seq a b, m => ∃ u v, m = u ++ v ∧ a.Spells u ∧ b.Spells v
  | .alt a b, m => a.Spells m ∨ b.Spells m
  | .rep lo hi a, m => ∃ parts : List (List Char), m = parts.flatten ∧ (∀ u ∈ parts, a.Spells u) ∧
      lo ≤ parts.length ∧ ∀ h, hi = some h → parts.length ≤ max lo h

section Spelled
variable {word : Char → Bool}

theorem over_moreEnds {f : Pos → List Pos} {S : List Char → Prop}
    (hf : ∀ z y, y ∈ f z → ∃ m, S m ∧ Pos.Over m z y) (n : ℕ) {z y : Pos} (hy : y ∈ moreEnds f n z) :
    ∃ parts : List (List Char), (∀ u ∈ parts, S u) ∧ parts.length ≤ n ∧ Pos.Over parts.flatten z y := by
  induction n generalizing z with
  | zero =>
    simp only [moreEnds, List.mem_singleton] at hy
    exact ⟨[], by simp, Nat.le_refl _, hy ▸ .refl z⟩
  | succ n ih =>
    simp only [moreEnds, List.mem_append, List.mem_flatMap, List.mem_singleton] at hy
    rcases hy with ⟨x, hx, hy⟩ | rfl
    · obtain ⟨m, hm, hover⟩ := hf z x hx
      obtain ⟨parts, hparts, hlen, hover'⟩ := ih hy
      exact ⟨m :: parts, List.forall_mem_cons.mpr ⟨hm, hparts⟩, Nat.succ_le_succ hlen, hover.trans hover'⟩
    · exact ⟨[], by simp, Nat.zero_le _, .refl y⟩

theorem over_repEnds {f : Pos → List Pos} {S : List Char → Prop}
    (hf : ∀ z y, y ∈ f z → ∃ m, S m ∧ Pos.Over m z y) (extra lo : ℕ) {z y : Pos}
    (hy : y ∈ repEnds f extra lo z) :
    ∃ parts : List (List Char), (∀ u ∈ parts, S u) ∧ lo ≤ parts.length ∧ parts.length ≤ lo + extra ∧
      Pos.Over parts.flatten z y := by
  induction lo generalizing z with
  | zero =>
    obtain ⟨parts, hparts, hlen, hover⟩ := over_moreEnds hf extra hy
    exact ⟨parts, hparts, Nat.zero_le _, by omega, hover⟩
  | succ lo ih =>
    simp only [repEnds, List.mem_flatMap] at hy
    obtain ⟨x, hx, hy⟩ := hy
    obtain ⟨m, hm, hover⟩ := hf z x hx
    obtain ⟨parts, hparts, hlo, hhi, hover'⟩ := ih hy
    refine ⟨m :: parts, List.forall_mem_cons.mpr ⟨hm, hparts⟩, ?_, ?_, hover.trans hover'⟩ <;>
      rw [List.length_cons] <;> omega

/-- A match leads over a text that the expression spells. -/
theorem spells_of_ends (a : Pat) {z y : Pos} (hy : y ∈ ends word a z) : ∃ m, a.Spells m ∧ Pos.Over m z y := by
  induction a generalizing z y with
  | char p =>
    obtain ⟨b, l⟩ := z
    cases l with
    | nil => simp [ends] at hy
    | cons c l =>
      simp only [ends, List.mem_ite_nil_right, List.mem_singleton] at hy
      exact ⟨[c], ⟨c, hy.1, rfl⟩, by simp [hy.2, Pos.Over]⟩
  | boundary =>
    simp only [ends, List.mem_ite_nil_right, List.mem_singleton] at hy
    exact ⟨[], rfl, hy.2 ▸ .refl z⟩
  | seq a b iha ihb =>
    simp only [ends, List.mem_flatMap] at hy
    obtain ⟨x, hx, hy⟩ := hy
    obtain ⟨m, hm, hover⟩ := iha hx
    obtain ⟨k, hk, hover'⟩ := ihb hy
    exact ⟨m ++ k, ⟨m, k, rfl, hm, hk⟩, hover.trans hover'⟩
  | alt a b iha ihb =>
    simp only [ends, List.mem_append] at hy
    rcases hy with hy | hy
    · obtain ⟨m, hm, hover⟩ := iha hy
      exact ⟨m, .inl hm, hover⟩
    · obtain ⟨m, hm, hover⟩ := ihb hy
      exact ⟨m, .inr hm, hover⟩
  | rep lo hi a iha =>
    simp only [ends] at hy
    obtain ⟨parts, hparts, hlo, hhi, hover⟩ := over_repEnds (fun _ _ => iha) _ lo hy
    refine ⟨parts.flatten, ⟨parts, rfl, hparts, hlo, ?_⟩, hover⟩
    rintro h rfl
    dsimp only at hhi
    omega

theorem length_flatten_one {parts : List (List Char)} (h : ∀ u ∈ parts, u.length = 1) :
    parts.flatten.length = parts.length := by
  induction parts with
  | nil => rfl
  | cons u parts ih =>
    obtain ⟨hu, hparts⟩ := List.forall_mem_cons.mp h
    rw [List.flatten_cons, List.length_append, List.length_cons, hu, ih hparts, Nat.add_comm]

/-- A repeated class spells the texts over the class that are long enough. -/
theorem spells_run {p : Char → Bool} {lo : ℕ} {hi : Option ℕ} {m : List Char}
    (h : (Pat.rep lo hi (.char p)).Spells m) : lo ≤ m.length ∧ ∀ c ∈ m, p c = true := by
  obtain ⟨parts, rfl, hparts, hlen, -⟩ := h
  refine ⟨?_, fun c hc => ?_⟩
  · rwa [length_flatten_one fun u hu => by obtain ⟨c, -, rfl⟩ := hparts u hu; rfl]
  · obtain ⟨u, hu, hc⟩ := List.mem_flatten.mp hc
    obtain ⟨d, hd, rfl⟩ := hparts u hu
    rwa [List.mem_singleton.mp hc]

theorem spells_opt {a : Pat} {m : List Char} (h : (Pat.opt a).Spells m) : m = [] ∨ a.Spells m := by
  obtain ⟨parts, rfl, hparts, -, hlen⟩ := h
  cases parts with
  | nil => exact .inl rfl
  | cons u parts =>
    have hnil : parts = [] := List.length_eq_zero_iff.mp (by simpa using hlen 1 rfl)
    subst hnil
    exact .inr (by simpa using hparts u List.mem_cons_self)

/-- Each expression of a sequence spells a slice of what the sequence spells. -/
theorem spells_cat {a : Pat} {rest : List Pat} {m : List Char} (h : (Pat.cat a rest).Spells m) {b : Pat}
    (hb : b ∈ a :: rest) : ∃ u, b.Spells u ∧ u <:+: m := by
  induction rest generalizing a m with
  | nil => exact ⟨m, List.mem_singleton.mp hb ▸ h, List.infix_refl m⟩
  | cons c rest ih =>
    obtain ⟨u, v, rfl, hu, hv⟩ := h
    rcases List.mem_cons.mp hb with rfl | hb
    · exact ⟨u, hu, List.infix_append_left⟩
    · obtain ⟨w, hw, hslice⟩ := ih hv hb
      exact ⟨w, hw, List.infix_append_of_infix_right hslice⟩

/-- The characters of a text one after the other, each in a class of its own. -/
def spelling (letter : Char → Char → Bool) : List Char → Pat
  | [] => .rep 0 (some 0) .boundary
  | c :: rest => .cat (.char (letter c)) (rest.map fun c => .char (letter c))

/-- A letter in any case: long `s` counts as `s`, dotted and dotless `i` as `i`,
and the sign for kelvin as `k`. -/
def anyCase (c x : Char) : Bool :=
  x.toLower == c || (c == 's' && x == 'ſ') || (c == 'i' && (x == 'İ' || x == 'ı')) || (c == 'k' && x == '\u212a')

theorem spells_spelling {letter : Char → Char → Bool} {s m : List Char} (h : (spelling letter s).Spells m)
    {c : Char} (hc : c ∈ s) : ∃ x ∈ m, letter c x = true := by
  cases s with
  | nil => cases hc
  | cons d rest =>
    have hmem : Pat.char (letter c) ∈ Pat.char (letter d) :: rest.map fun c => .char (letter c) := by
      rcases List.mem_cons.mp hc with rfl | hc
      · exact List.mem_cons_self
      · exact List.mem_cons_of_mem _ (List.mem_map_of_mem hc)
    obtain ⟨u, ⟨x, hx, rfl⟩, hslice⟩ := spells_cat h hmem
    exact ⟨x, hslice.subset List.mem_cons_self, hx⟩

/-- An exact text spells itself only. -/
theorem spells_exact {s m : List Char} (h : (spelling (· == ·) s).Spells m) : m = s := by
  cases s with
  | nil =>
    obtain ⟨parts, rfl, -, -, hlen⟩ := h
    rw [List.length_eq_zero_iff.mp (Nat.le_zero.mp (hlen 0 rfl))]
    rfl
  | cons c rest =>
    induction rest generalizing c m with
    | nil =>
      obtain ⟨d, hd, rfl⟩ := h
      rw [beq_iff_eq.mp hd]
    | cons d rest ih =>
      obtain ⟨u, w, rfl, ⟨x, hx, rfl⟩, hw⟩ := h
      rw [ih d hw, beq_iff_eq.mp hx]
      rfl

/-- No class of the expression has the character `q`. -/
def Pat.lacks (q : Char) : Pat → Bool
  | .char p => !p q
  | .boundary => true
  | .seq a b => a.lacks q && b.lacks q
  | .alt a b => a.lacks q && b.lacks q
  | .rep _ _ a => a.lacks q

theorem not_mem_of_lacks {q : Char} {a : Pat} (ha : a.lacks q = true) {m : List Char} (hm : a.Spells m) :
    q ∉ m := by
  induction a generalizing m with
  | char p =>
    obtain ⟨c, hc, rfl⟩ := hm
    rw [List.mem_singleton]
    rintro rfl
    simp [Pat.lacks, hc] at ha
  | boundary => simp [show m = [] from hm]
  | seq a b iha ihb =>
    obtain ⟨u, v, rfl, hu, hv⟩ := hm
    simp only [Pat.lacks, Bool.and_eq_true] at ha
    exact fun hmem => (List.mem_append.mp hmem).elim (iha ha.1 hu) (ihb ha.2 hv)
  | alt a b iha ihb =>
    simp only [Pat.lacks, Bool.and_eq_true] at ha
    exact hm.elim (iha ha.1) (ihb ha.2)
  | rep lo hi a iha =>
    obtain ⟨parts, rfl, hparts, -⟩ := hm
    intro hmem
    obtain ⟨u, hu, hmem⟩ := List.mem_flatten.mp hmem
    exact iha ha (hparts u hu) hmem

end Spelled

/-! ### Preferred ends -/

section Preferred
variable {word : Char → Bool}

theorem head_flatMap {α β : Type*} {f : α → List β} {l : List α} {x : α} {y : β} (hl : l.head? = some x)
    (hx : (f x).head? = some y) : (l.flatMap f).head? = some y := by
  obtain ⟨more, rfl⟩ := List.head?_eq_some_iff.mp hl
  rw [List.flatMap_cons, List.head?_append, hx]
  rfl

theorem head_char {p : Char → Bool} {c : Char} (hc : p c = true) (b rest : List Char) :
    (ends word (.char p) ⟨b, c :: rest⟩).head? = some ⟨c :: b, rest⟩ := by
  rw [ends_char_cons, if_pos hc]
  rfl

/-- A run of a class is taken whole where what follows is not in the class. -/
theorem head_run {p : Char → Bool} {lo : ℕ} {run rest : List Char} (hrun : ∀ c ∈ run, p c = true)
    (hrest : ∀ c ∈ rest.head?, p c = false) (hlo : lo ≤ run.length) (b : List Char) :
    (ends word (.rep lo none (.char p)) ⟨b, run ++ rest⟩).head? = some ⟨run.reverse ++ b, rest⟩ := by
  have htake : lo ≤ ((run ++ rest).takeWhile p).length := by
    rw [List.takeWhile_append_of_pos hrun, List.length_append]
    exact Nat.le_add_right_of_le hlo
  have hstop : rest.dropWhile p = rest := by
    cases rest with
    | nil => rfl
    | cons c rest => exact List.dropWhile_cons_of_neg (by simp [hrest c rfl])
  obtain ⟨y, ys, hy, hafter⟩ := @head_repEnds_char word p (run ++ rest).length lo b _ (Nat.le_refl _) htake
  rw [List.dropWhile_append_of_pos hrun, hstop] at hafter
  have hends : ends word (.rep lo none (.char p)) ⟨b, run ++ rest⟩ = y :: ys := hy
  obtain ⟨m, -, hover⟩ := spells_of_ends (.rep lo none (.char p)) (hends ▸ List.mem_cons_self :
    y ∈ ends word (.rep lo none (.char p)) ⟨b, run ++ rest⟩)
  have hm : m = run := List.append_cancel_right (hover.1.symm.trans (by rw [hafter]))
  rw [hends, List.head?_cons, ← hm, ← hafter, ← hover.2]

theorem head_spelling {letter : Char → Char → Bool} (hself : ∀ c, letter c c = true) (s b rest : List Char) :
    (ends word (spelling letter s) ⟨b, s ++ rest⟩).head? = some ⟨s.reverse ++ b, rest⟩ := by
  cases s with
  | nil => rfl
  | cons c s =>
    rw [List.reverse_cons, List.append_assoc]
    induction s generalizing c b with
    | nil => exact head_char (hself c) b rest
    | cons d s ih =>
      rw [List.reverse_cons, List.append_assoc]
      exact head_flatMap (head_char (hself c) b (d :: s ++ rest)) (ih (c :: b) d)

end Preferred

/-! ### Expressions with one group -/

/-- A part of an expression: the places where its matches end, preferred ones
first, and the texts that they lead over. -/
structure Part where
  ends : Pos → List Pos
  Spells : List Char → Prop
  spelled : ∀ z y, y ∈ ends z → ∃ m, Spells m ∧ Pos.Over m z y

namespace Part

def ofPat (word : Char → Bool) (a : Pat) : Part where
  ends := Rx.ends word a
  Spells := a.Spells
  spelled _ _ := spells_of_ends a

/-- The empty text. -/
def empty : Part where
  ends z := [z]
  Spells m := m = []
  spelled z _ hy := ⟨[], rfl, List.mem_singleton.mp hy ▸ .refl z⟩

/-- `$`: the end of the text or of its last line. -/
def atEnd : Part where
  ends z := if z.after = [] ∨ z.after = ['\n'] then [z] else []
  Spells m := m = []
  spelled z _ hy := ⟨[], rfl, List.mem_singleton.mp (List.mem_ite_nil_right.mp hy).2 ▸ .refl z⟩

def seq (f g : Part) : Part where
  ends z := (f.ends z).flatMap g.ends
  Spells m := ∃ u v, m = u ++ v ∧ f.Spells u ∧ g.Spells v
  spelled z y hy := by
    obtain ⟨x, hx, hy⟩ := List.mem_flatMap.mp hy
    obtain ⟨u, hu, hover⟩ := f.spelled z x hx
    obtain ⟨v, hv, hover'⟩ := g.spelled x y hy
    exact ⟨u ++ v, ⟨u, v, rfl, hu, hv⟩, hover.trans hover'⟩

def alt (f g : Part) : Part where
  ends z := f.ends z ++ g.ends z
  Spells m := f.Spells m ∨ g.Spells m
  spelled z y hy := by
    rcases List.mem_append.mp hy with hy | hy
    · obtain ⟨m, hm, hover⟩ := f.spelled z y hy
      exact ⟨m, .inl hm, hover⟩
    · obtain ⟨m, hm, hover⟩ := g.spelled z y hy
      exact ⟨m, .inr hm, hover⟩

/-- At most `n` rounds of `f`, the fewest preferred. -/
def fewEnds (f : Pos → List Pos) : ℕ → Pos → List Pos
  | 0, z => [z]
  | n + 1, z => z :: (f z).flatMap (fewEnds f n)

theorem over_fewEnds (f : Part) (n : ℕ) {z y : Pos} (hy : y ∈ fewEnds f.ends n z) :
    ∃ parts : List (List Char), (∀ u ∈ parts, f.Spells u) ∧ Pos.Over parts.flatten z y := by
  induction n generalizing z with
  | zero => exact ⟨[], by simp, List.mem_singleton.mp hy ▸ .refl z⟩
  | succ n ih =>
    rcases List.mem_cons.mp hy with rfl | hy
    · exact ⟨[], by simp, .refl y⟩
    · obtain ⟨x, hx, hy⟩ := List.mem_flatMap.mp hy
      obtain ⟨m, hm, hover⟩ := f.spelled z x hx
      obtain ⟨parts, hparts, hover'⟩ := ih hy
      exact ⟨m :: parts, List.forall_mem_cons.mpr ⟨hm, hparts⟩, hover.trans hover'⟩

/-- `f{0,hi}?`, without an upper bound when `hi = none`. -/
def few (hi : Option ℕ) (f : Part) : Part where
  ends z := fewEnds f.ends (hi.getD z.after.length) z
  Spells m := ∃ parts : List (List Char), m = parts.flatten ∧ ∀ u ∈ parts, f.Spells u
  spelled z y hy := by
    obtain ⟨parts, hparts, hover⟩ := over_fewEnds f _ hy
    exact ⟨parts.flatten, ⟨parts, rfl, hparts⟩, hover⟩

end Part

/-- An expression with one group and what stands in front of it and behind it. -/
structure Grouped where
  front : Part
  group : Part
  back : Part

/-- A match, by the places where it starts, where its group opens and closes, and where it stops. -/
structure Match where
  start : Pos
  opened : Pos
  closed : Pos
  stop : Pos

/-- `match.group(0)`. -/
def Match.whole (m : Match) : List Char := m.start.upTo m.stop

/-- `match.group(1)`. -/
def Match.kept (m : Match) : List Char := m.opened.upTo m.closed

namespace Grouped
variable (g : Grouped)

/-- The matches that start at a place, in order of preference. -/
def found (z : Pos) : List Match :=
  (g.front.ends z).flatMap fun o => (g.group.ends o).flatMap fun c =>
    (g.back.ends c).map fun s => ⟨z, o, c, s⟩

/-- The preferred one of the leftmost matches from a place on. -/
def search : List Char → List Char → Option Match
  | b, [] => (g.found ⟨b, []⟩).head?
  | b, c :: rest => (g.found ⟨b, c :: rest⟩).head?.or (search (c :: b) rest)

/-- The match is made of texts that the three parts spell. -/
structure Sound (m : Match) (u k v : List Char) : Prop where
  front : g.front.Spells u
  group : g.group.Spells k
  back : g.back.Spells v
  whole : m.whole = u ++ k ++ v
  kept : m.kept = k
  leads : Pos.Over (u ++ k ++ v) m.start m.stop

variable {g}

theorem head_found {z o c s : Pos} (ho : (g.front.ends z).head? = some o) (hc : (g.group.ends o).head? = some c)
    (hs : (g.back.ends c).head? = some s) : (g.found z).head? = some ⟨z, o, c, s⟩ :=
  head_flatMap ho (head_flatMap hc (by rw [List.head?_map, hs]; rfl))

theorem sound_of_found {z : Pos} {m : Match} (hm : m ∈ g.found z) : m.start = z ∧ ∃ u k v, g.Sound m u k v := by
  simp only [found, List.mem_flatMap, List.mem_map] at hm
  obtain ⟨o, ho, c, hc, s, hs, rfl⟩ := hm
  obtain ⟨u, hu, hzo⟩ := g.front.spelled z o ho
  obtain ⟨k, hk, hoc⟩ := g.group.spelled o c hc
  obtain ⟨v, hv, hcs⟩ := g.back.spelled c s hs
  have hover := (hzo.trans hoc).trans hcs
  exact ⟨rfl, u, k, v, hu, hk, hv, hover.upTo, hoc.upTo, hover⟩

theorem Sound.rest {m : Match} {u k v : List Char} (h : g.Sound m u k v) :
    m.start.after = m.whole ++ m.stop.after := by
  rw [h.whole]
  exact h.leads.1

theorem Sound.begins {m : Match} {u k v : List Char} (h : g.Sound m u k v) : m.whole <+: m.start.after := by
  rw [h.rest]
  exact List.prefix_append _ _

/-- What a search finds is a slice of the text, spelled by the expression. -/
theorem sound_of_search {b l : List Char} {m : Match} (hm : g.search b l = some m) :
    m.whole <:+: l ∧ ∃ u k v, g.Sound m u k v := by
  have hfound : ∀ {z}, (g.found z).head? = some m → m.whole <:+: z.after ∧ ∃ u k v, g.Sound m u k v := by
    intro z hm
    obtain ⟨rfl, u, k, v, h⟩ := sound_of_found (List.mem_of_mem_head? hm)
    exact ⟨h.begins.isInfix, u, k, v, h⟩
  induction l generalizing b with
  | nil => exact hfound hm
  | cons c l ih =>
    rcases Option.or_eq_some_iff.mp hm with hm | ⟨-, hm⟩
    · exact hfound hm
    · exact (ih hm).imp_left List.infix_cons

end Grouped

/-! ### Substitution -/

/-- A character that stays, or a match that is replaced, with the text of its group. -/
inductive Fate
  | stay (c : Char)
  | gone (kept : List Char)

def Fate.render (marker : List Char) : Fate → List Char
  | .stay c => [c]
  | .gone kept => kept ++ marker

/-- The stretches that stay; each but the last ends with the group of the match behind it. -/
def stretches : List Fate → List (List Char)
  | [] => [[]]
  | .stay c :: rest => match stretches rest with
    | [] => [[c]]
    | s :: more => (c :: s) :: more
  | .gone kept :: rest => kept :: stretches rest

theorem stretches_ne_nil (fates : List Fate) : stretches fates ≠ [] := by
  cases fates with
  | nil => exact List.cons_ne_nil _ _
  | cons fate rest =>
    cases fate with
    | stay c =>
      simp only [stretches]
      split <;> exact List.cons_ne_nil _ _
    | gone kept => exact List.cons_ne_nil _ _

theorem render_fates (marker : List Char) (fates : List Fate) :
    fates.flatMap (Fate.render marker) = marker.intercalate (stretches fates) := by
  induction fates with
  | nil => rfl
  | cons fate rest ih =>
    obtain ⟨s, more, hs⟩ := List.exists_cons_of_ne_nil (stretches_ne_nil rest)
    rw [List.flatMap_cons, ih]
    cases fate with
    | stay c =>
      simp only [stretches, hs, Fate.render]
      rw [List.intercalate_cons_cons_left]
      rfl
    | gone kept =>
      simp only [stretches, Fate.render]
      rw [List.intercalate_cons_of_ne_nil (stretches_ne_nil rest), List.append_assoc]

theorem stretches_stay (w : List Char) {fates : List Fate} {s : List Char} {more : List (List Char)}
    (h : stretches fates = s :: more) : stretches (w.map .stay ++ fates) = (w ++ s) :: more := by
  induction w with
  | nil => exact h
  | cons c w ih => simp only [List.map_cons, List.cons_append, stretches, ih]

namespace Grouped
variable (g : Grouped)

/-- The text cut up by its non-overlapping leftmost matches, for an expression
that consumes at least one character. -/
def fates : ℕ → Pos → List Fate
  | 0, _ => []
  | n + 1, z => match z.after with
    | [] => []
    | c :: rest => match (g.found z).head? with
      | some m => .gone m.kept :: fates n m.stop
      | none => .stay c :: fates n ⟨c :: z.before, rest⟩

/-- The stretches of a text that a substitution keeps. -/
def kept (text : List Char) : List (List Char) := stretches (g.fates text.length ⟨[], text⟩)

/-- `re.sub` where every match is replaced by its group and a marker. -/
def subst (marker text : List Char) : List Char :=
  (g.fates text.length ⟨[], text⟩).flatMap (Fate.render marker)

theorem subst_eq (marker text : List Char) : g.subst marker text = marker.intercalate (g.kept text) :=
  render_fates marker _

variable {g}

/-- Nothing stands in front of the group. -/
def Leading (g : Grouped) : Prop := ∀ u, g.front.Spells u → u = []

theorem slices_of_fates (hg : g.Leading) (n : ℕ) (z : Pos) : ∃ s more, stretches (g.fates n z) = s :: more ∧
    s <+: z.after ∧ ∀ t ∈ more, t <:+: z.after := by
  induction n generalizing z with
  | zero => exact ⟨[], [], rfl, List.nil_prefix, by simp⟩
  | succ n ih =>
    cases hz : z.after with
    | nil => exact ⟨[], [], by simp [fates, hz, stretches], List.nil_prefix, by simp⟩
    | cons c rest =>
      cases hm : (g.found z).head? with
      | some m =>
        obtain ⟨rfl, u, k, v, h⟩ := sound_of_found (List.mem_of_mem_head? hm)
        obtain ⟨s, more, hs, hbegins, hmore⟩ := ih m.stop
        have hafter : c :: rest = k ++ (v ++ m.stop.after) := by
          rw [← hz, h.leads.1, hg u h.front, List.nil_append, List.append_assoc]
        have hstop : m.stop.after <:+: c :: rest := by
          rw [hafter, ← List.append_assoc]
          exact (List.suffix_append _ _).isInfix
        refine ⟨m.kept, s :: more, by simp only [fates, hz, hm, stretches, hs], ?_, ?_⟩
        · rw [h.kept, hafter]
          exact List.prefix_append _ _
        · exact List.forall_mem_cons.mpr ⟨hbegins.isInfix.trans hstop, fun t ht => (hmore t ht).trans hstop⟩
      | none =>
        obtain ⟨s, more, hs, hbegins, hmore⟩ := ih ⟨c :: z.before, rest⟩
        exact ⟨c :: s, more, by simp only [fates, hz, hm, stretches, hs], List.cons_prefix_cons.mpr ⟨rfl, hbegins⟩,
          fun t ht => List.infix_cons (hmore t ht)⟩

/-- What is kept are slices of the text. -/
theorem slice_of_kept (hg : g.Leading) {text s : List Char} (hs : s ∈ g.kept text) : s <:+: text := by
  obtain ⟨t, more, heq, hbegins, hmore⟩ := slices_of_fates hg text.length ⟨[], text⟩
  rw [kept, heq] at hs
  rcases List.mem_cons.mp hs with rfl | hs
  · exact hbegins.isInfix
  · exact hmore s hs

/-- A text in which nothing is replaced stays as it is. -/
theorem fates_of_single (n : ℕ) (z : Pos) (hn : z.after.length ≤ n) (h : (stretches (g.fates n z)).length ≤ 1) :
    g.fates n z = z.after.map .stay := by
  induction n generalizing z with
  | zero =>
    rw [List.length_eq_zero_iff.mp (Nat.le_zero.mp hn)]
    rfl
  | succ n ih =>
    cases hz : z.after with
    | nil => simp [fates, hz]
    | cons c rest =>
      cases hm : (g.found z).head? with
      | some m =>
        have hpos := List.length_pos_iff.mpr (stretches_ne_nil (g.fates n m.stop))
        simp only [fates, hz, hm, stretches, List.length_cons] at h
        omega
      | none =>
        obtain ⟨s, more, hs⟩ := List.exists_cons_of_ne_nil (stretches_ne_nil (g.fates n ⟨c :: z.before, rest⟩))
        simp only [fates, hz, hm, stretches, hs, List.length_cons] at h ⊢
        rw [hz, List.length_cons] at hn
        rw [ih ⟨c :: z.before, rest⟩ (Nat.le_of_succ_le_succ hn) (by rw [hs]; exact h)]
        rfl

theorem kept_of_single {text : List Char} (h : (g.kept text).length ≤ 1) : g.kept text = [text] := by
  have hfates := fates_of_single text.length ⟨[], text⟩ (Nat.le_refl _) h
  have hstay := stretches_stay text (show stretches [] = [] :: [] from rfl)
  rw [List.append_nil, List.append_nil] at hstay
  rw [kept, hfates, hstay]

/-- Where no match starts in the first part of a text, it stays. -/
theorem fates_unmatched (n : ℕ) (b w l : List Char)
    (h : ∀ u c rest, w = u ++ c :: rest → g.found ⟨u.reverse ++ b, c :: rest ++ l⟩ = []) :
    g.fates (w.length + n) ⟨b, w ++ l⟩ = w.map .stay ++ g.fates n ⟨w.reverse ++ b, l⟩ := by
  induction w generalizing b with
  | nil => simp
  | cons c w ih =>
    have hhead : g.found ⟨b, c :: (w ++ l)⟩ = [] := h [] c w rfl
    have hrest := ih (c :: b) fun u d rest heq => by
      have := h (c :: u) d rest (by rw [heq, List.cons_append])
      rwa [List.reverse_cons, List.append_assoc] at this
    rw [List.length_cons, Nat.add_right_comm]
    simp only [List.cons_append, fates, hhead, List.head?_nil, hrest, List.map_cons, List.reverse_cons,
      List.append_assoc, List.nil_append]

/-- Where a match stands behind `a` and a match that starts in `a` stops in `a`, or
keeps no more than the first one and stops no earlier, all that is kept lies
before the close of the first one's group or behind its stop. -/
theorem stretches_caught (hg : g.Leading) {text : List Char} (hne : text ≠ []) {m : Match} (n : ℕ)
    (a b : List Char) (hm : (g.found ⟨a.reverse ++ b, text⟩).head? = some m)
    (hfront : ∀ u c w, a = u ++ c :: w → ∀ m', (g.found ⟨u.reverse ++ b, c :: (w ++ text)⟩).head? = some m' →
      (∃ w', m'.stop.after = w' ++ text) ∨ m'.kept <+: c :: w ++ m.kept ∧ m'.stop.after <:+: m.stop.after) :
    ∃ s more, stretches (g.fates n ⟨b, a ++ text⟩) = s :: more ∧ s <+: a ++ m.kept ∧
      ∀ t ∈ more, t <:+: a ++ m.kept ∨ t <:+: m.stop.after := by
  induction n generalizing a b with
  | zero => exact ⟨[], [], rfl, List.nil_prefix, by simp⟩
  | succ n ih =>
    cases a with
    | nil =>
      obtain ⟨c, rest, rfl⟩ := List.exists_cons_of_ne_nil hne
      obtain ⟨s, more, hs, hbegins, hmore⟩ := slices_of_fates hg n m.stop
      rw [List.reverse_nil, List.nil_append] at hm
      refine ⟨m.kept, s :: more, by simp only [List.nil_append, fates, hm, stretches, hs], List.prefix_rfl, ?_⟩
      exact List.forall_mem_cons.mpr ⟨.inr hbegins.isInfix, fun t ht => .inr (hmore t ht)⟩
    | cons c a =>
      cases hm' : (g.found ⟨b, c :: (a ++ text)⟩).head? with
      | none =>
        rw [List.reverse_cons, List.append_assoc] at hm
        obtain ⟨s, more, hs, hbegins, hmore⟩ := ih a (c :: b) hm fun u d w heq m' h =>
          hfront (c :: u) d w (by rw [heq, List.cons_append]) m' (by
            rwa [List.reverse_cons, List.append_assoc])
        refine ⟨c :: s, more, by simp only [List.cons_append, fates, hm', stretches, hs],
          List.cons_prefix_cons.mpr ⟨rfl, hbegins⟩, fun t ht => (hmore t ht).imp_left List.infix_cons⟩
      | some m' =>
        obtain ⟨hstart, u, k, v, hsound⟩ := sound_of_found (List.mem_of_mem_head? hm')
        have hrest : c :: (a ++ text) = m'.whole ++ m'.stop.after := by
          have := hsound.rest
          rwa [hstart] at this
        rcases hfront [] c a rfl m' hm' with ⟨w, hw⟩ | ⟨hkept, hstop⟩
        · have hsplit : c :: a = m'.whole ++ w := by
            rw [hw, ← List.cons_append, ← List.append_assoc] at hrest
            exact List.append_cancel_right hrest
          have hbefore : m'.stop.before = m'.whole.reverse ++ b := by
            have := hsound.leads.2
            rwa [← hsound.whole, hstart] at this
          have hkept : m'.kept <+: m'.whole := by
            rw [hsound.kept, hsound.whole, hg u hsound.front, List.nil_append]
            exact List.prefix_append k v
          have hplace : (⟨m'.stop.before, w ++ text⟩ : Pos) = m'.stop := by rw [← hw]
          obtain ⟨s, more, hs, hbegins, hmore⟩ := ih w m'.stop.before
            (by rwa [hbefore, ← List.append_assoc, ← List.reverse_append, ← hsplit])
            fun u' d w' heq m'' h => hfront (m'.whole ++ u') d w' (by rw [hsplit, heq, List.append_assoc]) m'' (by
              rwa [List.reverse_append, List.append_assoc, ← hbefore])
          rw [hplace] at hs
          have hslice : ∀ t, t <:+: w ++ m.kept → t <:+: c :: a ++ m.kept := fun t ht => by
            rw [hsplit, List.append_assoc]
            exact List.infix_append_of_infix_right ht
          refine ⟨m'.kept, s :: more, by simp only [List.cons_append, fates, hm', stretches, hs], ?_, ?_⟩
          · rw [hsplit, List.append_assoc]
            exact List.prefix_append_of_prefix hkept
          · exact List.forall_mem_cons.mpr ⟨.inl (hslice s hbegins.isInfix),
              fun t ht => (hmore t ht).imp_left (hslice t)⟩
        · obtain ⟨s, more, hs, hbegins, hmore⟩ := slices_of_fates hg n m'.stop
          refine ⟨m'.kept, s :: more, by simp only [List.cons_append, fates, hm', stretches, hs], hkept, ?_⟩
          exact List.forall_mem_cons.mpr ⟨.inr (hbegins.isInfix.trans hstop),
            fun t ht => .inr ((hmore t ht).trans hstop)⟩

/-- What is kept of a text leaves out what stands between the close of the group
of such a match and its stop. -/
theorem kept_caught (hg : g.Leading) {a text : List Char} {m : Match} (hne : text ≠ [])
    (hm : (g.found ⟨a.reverse, text⟩).head? = some m)
    (hfront : ∀ u c w, a = u ++ c :: w → ∀ m', (g.found ⟨u.reverse, c :: (w ++ text)⟩).head? = some m' →
      (∃ w', m'.stop.after = w' ++ text) ∨ m'.kept <+: c :: w ++ m.kept ∧ m'.stop.after <:+: m.stop.after) :
    ∀ s ∈ g.kept (a ++ text), s <:+: a ++ m.kept ∨ s <:+: m.stop.after := by
  obtain ⟨s, more, hs, hbegins, hmore⟩ := stretches_caught hg hne (a ++ text).length a []
    (by rwa [List.append_nil]) fun u c w heq m' h => hfront u c w heq m' (by rwa [List.append_nil] at h)
  rw [kept, hs]
  exact List.forall_mem_cons.mpr ⟨.inl hbegins.isInfix, hmore⟩

/-- A text is kept whole when every match has a word that it lacks. -/
theorem kept_of_absent {w : List Char} (hg : ∀ z, ∀ m ∈ g.found z, w <:+: m.whole) {text : List Char}
    (hw : ¬ w <:+: text) : g.kept text = [text] := by
  have hnone : ∀ u d rest, text = u ++ d :: rest → g.found ⟨u.reverse ++ [], d :: rest ++ []⟩ = [] := by
    rintro u d rest rfl
    refine List.eq_nil_iff_forall_not_mem.mpr fun m hm => hw ?_
    obtain ⟨hstart, _, _, _, h⟩ := sound_of_found hm
    have hslice := (hg _ m hm).trans h.begins.isInfix
    simp only [hstart, List.append_nil] at hslice
    exact List.infix_append_of_infix_right hslice
  have hfates := fates_unmatched 0 [] text [] hnone
  rw [Nat.add_zero, List.append_nil] at hfates
  rw [kept, hfates, stretches_stay text (show stretches (g.fates 0 _) = [] :: [] from rfl), List.append_nil]

theorem prefix_of_not_mem {q : Char} {w x y : List Char} (h : w <+: x ++ q :: y) (hq : q ∉ w) : w <+: x := by
  induction x generalizing w with
  | nil =>
    cases w with
    | nil => exact List.nil_prefix
    | cons d w => exact absurd ((List.cons_prefix_cons.mp h).1 ▸ List.mem_cons_self) hq
  | cons c x ih =>
    cases w with
    | nil => exact List.nil_prefix
    | cons d w =>
      obtain ⟨rfl, hrest⟩ := List.cons_prefix_cons.mp h
      exact List.cons_prefix_cons.mpr ⟨rfl, ih hrest fun hmem => hq (List.mem_cons_of_mem _ hmem)⟩

/-- No match starts in the word, and none that starts in front of it reaches into it. -/
structure Avoids (g : Grouped) (w : List Char) : Prop where
  inside : ∀ u c rest, w = u ++ c :: rest → ∀ b l, g.found ⟨b, c :: rest ++ l⟩ = []
  before : ∀ z, ∀ m ∈ g.found z, m.whole ≠ [] ∧ ∀ a l, m.whole <+: a ++ (w ++ l) → m.whole <+: a

theorem Avoids.stays {w : List Char} (hg : g.Avoids w) (n : ℕ) (a b l : List Char)
    (hn : (a ++ (w ++ l)).length ≤ n) : ∃ s ∈ stretches (g.fates n ⟨b, a ++ (w ++ l)⟩), w <:+: s := by
  induction n generalizing a b with
  | zero =>
    have hnil : a ++ (w ++ l) = [] := List.length_eq_zero_iff.mp (Nat.le_zero.mp hn)
    simp only [List.append_eq_nil_iff] at hnil
    exact ⟨[], List.mem_singleton_self _, List.infix_nil.mpr hnil.2.1⟩
  | succ n ih =>
    cases a with
    | nil =>
      have hword := fates_unmatched (n + 1 - w.length) b w l fun u c rest heq => hg.inside u c rest heq _ l
      rw [List.nil_append, List.length_append] at hn
      rw [Nat.add_sub_cancel' (by omega)] at hword
      obtain ⟨s, more, hs⟩ := List.exists_cons_of_ne_nil (stretches_ne_nil
        (g.fates (n + 1 - w.length) ⟨w.reverse ++ b, l⟩))
      rw [List.nil_append, hword, stretches_stay _ hs]
      exact ⟨_, List.mem_cons_self, (List.prefix_append _ s).isInfix⟩
    | cons c a =>
      rw [List.cons_append] at hn ⊢
      cases hm : (g.found ⟨b, c :: (a ++ (w ++ l))⟩).head? with
      | some m =>
        obtain ⟨hstart, _, _, _, hsound⟩ := sound_of_found (List.mem_of_mem_head? hm)
        obtain ⟨hne, hbefore⟩ := hg.before _ m (List.mem_of_mem_head? hm)
        have hrest : c :: (a ++ (w ++ l)) = m.whole ++ m.stop.after := by
          have := hsound.rest
          rwa [hstart] at this
        obtain ⟨a', ha'⟩ := hbefore (c :: a) l ⟨m.stop.after, hrest.symm⟩
        have hstop : m.stop.after = a' ++ (w ++ l) := by
          refine List.append_cancel_left (hrest.symm.trans ?_)
          rw [← List.append_assoc m.whole, ha', List.cons_append]
        have hlen : (a' ++ (w ++ l)).length ≤ n := by
          have hpos := List.length_pos_iff.mpr hne
          have htotal := congrArg List.length hrest
          rw [hstop, List.length_append] at htotal
          simp only [List.length_cons] at hn htotal
          omega
        obtain ⟨s, hs, hslice⟩ := ih a' m.stop.before hlen
        rw [← hstop] at hs
        simp only [fates, hm, stretches]
        exact ⟨s, List.mem_cons_of_mem _ hs, hslice⟩
      | none =>
        obtain ⟨s, hs, hslice⟩ := ih a (c :: b) (by simpa using hn)
        obtain ⟨t, more, ht⟩ := List.exists_cons_of_ne_nil
          (stretches_ne_nil (g.fates n ⟨c :: b, a ++ (w ++ l)⟩))
        rw [ht] at hs
        simp only [fates, hm, stretches, ht]
        rcases List.mem_cons.mp hs with rfl | hs
        · exact ⟨c :: s, List.mem_cons_self, List.infix_cons hslice⟩
        · exact ⟨s, List.mem_cons_of_mem _ hs, hslice⟩

/-- A word that no match touches stays in one stretch. -/
theorem Avoids.kept {w text : List Char} (hg : g.Avoids w) (h : w <:+: text) : ∃ s ∈ g.kept text, w <:+: s := by
  obtain ⟨a, l, rfl⟩ := h
  rw [List.append_assoc]
  exact hg.stays _ a [] l (Nat.le_refl _)

/-- A bracketed word is avoided when no match has the bracket `q` and each has a
character that the word lacks. -/
theorem avoids_bracketed {q : Char} {v : List Char}
    (hg : ∀ z, ∀ m ∈ g.found z, q ∉ m.whole ∧ ∃ c ∈ m.whole, c ∉ v) : g.Avoids (q :: (v ++ [q])) where
  inside u c rest h b l := by
    refine List.eq_nil_iff_forall_not_mem.mpr fun m hm => ?_
    obtain ⟨hstart, _, _, _, hsound⟩ := sound_of_found hm
    obtain ⟨hq, d, hd, hdv⟩ := hg _ m hm
    have hrest : ∃ x, c :: rest = x ++ [q] ∧ ∀ e ∈ x, e = q ∨ e ∈ v := by
      rcases List.append_eq_append_iff.mp (show q :: v ++ [q] = u ++ c :: rest from h) with
        ⟨w, -, hw⟩ | ⟨w, hw, hcut⟩
      · obtain ⟨-, hw⟩ | ⟨-, hw⟩ := List.append_eq_singleton_iff.mp hw.symm
        · exact ⟨[], hw, by simp⟩
        · exact absurd hw (List.cons_ne_nil _ _)
      · exact ⟨w, hcut, fun e he => List.mem_cons.mp (hw ▸ List.mem_append_right u he)⟩
    obtain ⟨x, hx, hchars⟩ := hrest
    have hbegins : m.whole <+: x ++ q :: l := by
      have := hsound.begins
      rwa [hstart, hx, List.append_assoc] at this
    have hmem := (prefix_of_not_mem hbegins hq).subset hd
    exact (hchars d hmem).elim (fun heq => hq (heq ▸ hd)) hdv
  before z m hm := by
    obtain ⟨hq, d, hd, -⟩ := hg z m hm
    refine ⟨List.ne_nil_of_mem hd, fun a l h => prefix_of_not_mem (y := v ++ [q] ++ l) ?_ hq⟩
    simpa using h

end Grouped

end Rx
