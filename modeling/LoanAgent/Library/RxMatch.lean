import LoanAgent.Library.Rx

/-! What an expression between two word boundaries finds at a place of a text.
Without boundaries inside, its matches have lengths that depend on the text
ahead only, and the first of them that ends at a boundary is found. Proved: to
the left only the wordness of one character is seen, a character that the
expression does not accept ends what is seen as the end of the text does, and a
text that does not end in a word has the earlier matches of a longer one. -/

namespace Rx

/-! ### The lengths of the matches of an expression without boundaries -/

/-- The lengths that `f` finds, each followed by one that `g` finds behind it. -/
def chain (f g : List Char → List ℕ) (l : List Char) : List ℕ :=
  (f l).flatMap fun k => (g (l.drop k)).map (k + ·)

def moreLengths (f : List Char → List ℕ) : ℕ → List Char → List ℕ
  | 0, _ => [0]
  | n + 1, l => chain f (moreLengths f n) l ++ [0]

def repLengths (f : List Char → List ℕ) (extra : ℕ) : ℕ → List Char → List ℕ
  | 0, l => moreLengths f extra l
  | lo + 1, l => chain f (repLengths f extra lo) l

/-- The lengths of the matches at the beginning of a text, preferred ones first,
where boundaries are not looked at. -/
def lengths : Pat → List Char → List ℕ
  | .char _, [] => []
  | .char p, c :: _ => if p c then [1] else []
  | .boundary, _ => [0]
  | .seq a b, l => chain (lengths a) (lengths b) l
  | .alt a b, l => lengths a l ++ lengths b l
  | .rep lo hi a, l => repLengths (lengths a) (hi.getD 0 - lo) lo l

/-- No boundary occurs and every repetition is bounded. -/
def Pat.plain : Pat → Bool
  | .char _ => true
  | .boundary => false
  | .seq a b => a.plain && b.plain
  | .alt a b => a.plain && b.plain
  | .rep _ hi a => hi.isSome && a.plain

/-- The place `k` characters further on. -/
def Pos.forward (z : Pos) (k : ℕ) : Pos := ⟨(z.after.take k).reverse ++ z.before, z.after.drop k⟩

@[simp] theorem Pos.forward_zero (z : Pos) : z.forward 0 = z := rfl

theorem Pos.forward_forward (z : Pos) (k j : ℕ) : (z.forward k).forward j = z.forward (k + j) := by
  simp only [Pos.forward, List.take_add, List.reverse_append, List.append_assoc, List.drop_drop]

/-- A filter as the rounds that keep one element or none. -/
theorem flatMap_ite {α β : Type*} (p : α → Bool) (g : α → List β) (l : List α) :
    (l.flatMap fun a => if p a then g a else []) = (l.filter p).flatMap g := by
  induction l with
  | nil => rfl
  | cons a l ih =>
    rw [List.flatMap_cons, ih]
    cases hp : p a <;> simp [hp]

section Lengths
variable {f g : List Char → List ℕ} {f' g' : Pos → List Pos}

theorem chain_forward (hf : ∀ z, f' z = (f z.after).map z.forward) (hg : ∀ z, g' z = (g z.after).map z.forward)
    (z : Pos) : (f' z).flatMap g' = (chain f g z.after).map z.forward := by
  simp only [chain, hf, List.flatMap_map, List.map_flatMap, List.map_map]
  refine List.flatMap_congr fun k _ => ?_
  rw [hg]
  exact List.map_congr_left fun j _ => z.forward_forward k j

theorem moreEnds_forward (hf : ∀ z, f' z = (f z.after).map z.forward) (n : ℕ) (z : Pos) :
    moreEnds f' n z = (moreLengths f n z.after).map z.forward := by
  induction n generalizing z with
  | zero => rfl
  | succ n ih => simp only [moreEnds, moreLengths, chain_forward hf ih z, List.map_append,
      List.map_singleton, Pos.forward_zero]

theorem repEnds_forward (hf : ∀ z, f' z = (f z.after).map z.forward) (extra lo : ℕ) (z : Pos) :
    repEnds f' extra lo z = (repLengths f extra lo z.after).map z.forward := by
  induction lo generalizing z with
  | zero => exact moreEnds_forward hf extra z
  | succ lo ih => exact chain_forward hf ih z

/-- An expression without boundaries only sees the text ahead of it. -/
theorem ends_forward (word : Char → Bool) {a : Pat} (ha : a.plain = true) (z : Pos) :
    ends word a z = (lengths a z.after).map z.forward := by
  induction a generalizing z with
  | char p =>
    obtain ⟨b, l⟩ := z
    cases l with
    | nil => rfl
    | cons c l =>
      simp only [ends, lengths]
      split <;> rfl
  | boundary => cases ha
  | seq a b iha ihb =>
    simp only [Pat.plain, Bool.and_eq_true] at ha
    exact chain_forward (iha ha.1) (ihb ha.2) z
  | alt a b iha ihb =>
    simp only [Pat.plain, Bool.and_eq_true] at ha
    simp only [ends, lengths, iha ha.1, ihb ha.2, List.map_append]
  | rep lo hi a iha =>
    simp only [Pat.plain, Bool.and_eq_true] at ha
    obtain ⟨hi, rfl⟩ := Option.isSome_iff_exists.mp ha.1
    exact repEnds_forward (iha ha.2) (hi - lo) lo z

/-- What `f` finds in the first part of a text is what it finds in the whole and
lies in the first part; and it finds nothing that goes over the character `o`. -/
structure Sees (o : Char) (f : List Char → List ℕ) : Prop where
  part : ∀ l x, f l = (f (l ++ x)).filter (· ≤ l.length)
  stops : ∀ l t, ∀ k ∈ f (l ++ o :: t), k ≤ l.length

variable {o : Char}

theorem sees_zero : Sees o fun _ => [0] :=
  ⟨fun _ _ => rfl, fun _ _ _ hk => by simp [List.mem_singleton.mp hk]⟩

theorem Sees.append (hf : Sees o f) (hg : Sees o g) : Sees o fun l => f l ++ g l where
  part l x := by rw [List.filter_append, ← hf.part, ← hg.part]
  stops l t k hk := (List.mem_append.mp hk).elim (hf.stops l t k) (hg.stops l t k)

theorem Sees.chain (hf : Sees o f) (hg : Sees o g) : Sees o (chain f g) where
  part l x := by
    simp only [Rx.chain, List.filter_flatMap, List.filter_map]
    rw [hf.part l x, ← flatMap_ite]
    refine List.flatMap_congr fun k _ => ?_
    split_ifs with hk
    · have hk : k ≤ l.length := of_decide_eq_true hk
      rw [List.drop_append_of_le_length hk, hg.part (l.drop k) x]
      refine congrArg _ (List.filter_congr fun j _ => ?_)
      simp only [List.length_drop, Function.comp_apply, decide_eq_decide]
      omega
    · have hk : ¬ k ≤ l.length := fun h => hk (decide_eq_true h)
      rw [List.filter_eq_nil_iff.mpr fun j _ => ?_, List.map_nil]
      simp only [Function.comp_apply, decide_eq_true_eq]
      omega
  stops l t k hk := by
    simp only [Rx.chain, List.mem_flatMap, List.mem_map] at hk
    obtain ⟨i, hi, j, hj, rfl⟩ := hk
    have hi := hf.stops l t i hi
    rw [List.drop_append_of_le_length hi] at hj
    have hj := hg.stops _ t j hj
    rw [List.length_drop] at hj
    omega

theorem Sees.more (hf : Sees o f) (n : ℕ) : Sees o (moreLengths f n) := by
  induction n with
  | zero => exact sees_zero
  | succ n ih => exact (hf.chain ih).append sees_zero

theorem Sees.rep (hf : Sees o f) (extra lo : ℕ) : Sees o (repLengths f extra lo) := by
  induction lo with
  | zero => exact hf.more extra
  | succ lo ih => exact hf.chain ih

theorem sees_lengths {a : Pat} (ha : a.avoids o = true) : Sees o (lengths a) := by
  induction a with
  | char p =>
    simp only [Pat.avoids, Bool.not_eq_true'] at ha
    refine ⟨fun l x => ?_, fun l t k hk => ?_⟩
    · cases l with
      | nil => cases x with
        | nil => rfl
        | cons c x =>
          simp only [List.nil_append, lengths]
          split <;> rfl
      | cons c l =>
        simp only [List.cons_append, lengths]
        split
        · simp
        · rfl
    · cases l with
      | nil => simp [lengths, ha] at hk
      | cons c l =>
        simp only [List.cons_append, lengths, List.mem_ite_nil_right, List.mem_singleton] at hk
        simp [hk.2]
  | boundary => exact sees_zero
  | seq a b iha ihb =>
    simp only [Pat.avoids, Bool.and_eq_true] at ha
    exact (iha ha.1).chain (ihb ha.2)
  | alt a b iha ihb =>
    simp only [Pat.avoids, Bool.and_eq_true] at ha
    exact (iha ha.1).append (ihb ha.2)
  | rep lo hi a iha =>
    simp only [Pat.avoids, Bool.and_eq_true] at ha
    exact (iha ha.2).rep _ lo

end Lengths

/-! ### What is found at a place -/

section Found
variable {word : Char → Bool} {o : Char}

/-- The preferred match that begins at the place. -/
def matchAt (word : Char → Bool) (r : Pat) (z : Pos) : Option (List Char) :=
  (ends word r z).head?.map fun y => z.after.take (z.after.length - y.after.length)

theorem matchAt_eq_none {r : Pat} {z : Pos} : matchAt word r z = none ↔ ends word r z = [] := by
  simp [matchAt]

theorem matchAt_some {r : Pat} {b l m : List Char} (h : matchAt word r ⟨b, l⟩ = some m) :
    ∃ rest ys, l = m ++ rest ∧ ends word r ⟨b, l⟩ = ⟨m.reverse ++ b, rest⟩ :: ys := by
  obtain ⟨y, hy, hm⟩ := Option.map_eq_some_iff.mp h
  obtain ⟨ys, hys⟩ := List.head?_eq_some_iff.mp hy
  obtain ⟨k, hk, hb⟩ := advance r (show y ∈ ends word r ⟨b, l⟩ by simp [hys])
  have hkm : k = m := by
    rw [← hm, hk]
    simp
  subst hkm
  exact ⟨y.after, ys, hk, by rw [hys, ← hb]⟩

theorem matchAt_mem {r : Pat} {b l m : List Char} (h : matchAt word r ⟨b, m ++ l⟩ = some m) :
    ⟨m.reverse ++ b, l⟩ ∈ ends word r ⟨b, m ++ l⟩ := by
  obtain ⟨rest, ys, hrest, hys⟩ := matchAt_some h
  obtain rfl := List.append_cancel_left hrest
  rw [hys]
  exact List.mem_cons_self

/-- The expression of `a` and `rest` one after the other between two boundaries. -/
def framed (a : Pat) (rest : List Pat) : Pat := .cat .boundary (a :: (rest ++ [.boundary]))

/-- An expression between two boundaries that has none inside. -/
def Framed (r : Pat) : Prop := ∃ a rest, r = framed a rest ∧ (Pat.cat a rest).plain = true

theorem avoids_framed (a : Pat) (rest : List Pat) : (framed a rest).avoids o = (Pat.cat a rest).avoids o := by
  induction rest generalizing a with
  | nil => simp [framed, Pat.cat, Pat.avoids]
  | cons b rest ih =>
    have := ih b
    simp only [framed, Pat.cat, Pat.avoids, List.cons_append, Bool.true_and] at this ⊢
    rw [this]

theorem ends_cat_concat (a : Pat) (rest : List Pat) (b : Pat) (z : Pos) :
    ends word (.cat a (rest ++ [b])) z = (ends word (.cat a rest) z).flatMap (ends word b) := by
  induction rest generalizing a z with
  | nil => rfl
  | cons c rest ih =>
    simp only [List.cons_append, Pat.cat, ends, List.flatMap_assoc]
    exact List.flatMap_congr fun y _ => ih c y

/-- The length of the preferred match of `a` from the place to a boundary. -/
def stopAt (word : Char → Bool) (a : Pat) (z : Pos) : Option ℕ :=
  (lengths a z.after).find? fun k => (z.forward k).isBoundary word

theorem stopAt_isBoundary {a : Pat} {z : Pos} {k : ℕ} (h : stopAt word a z = some k) :
    (z.forward k).isBoundary word = true :=
  List.find?_some (p := fun k => (z.forward k).isBoundary word) h

/-- The matches of an expression between two boundaries. -/
theorem ends_framed (a : Pat) (rest : List Pat) (z : Pos) :
    ends word (framed a rest) z =
      if z.isBoundary word then (ends word (.cat a rest) z).filter (Pos.isBoundary word) else [] := by
  have hinner : ends word (.cat a (rest ++ [.boundary])) z =
      (ends word (.cat a rest) z).filter (Pos.isBoundary word) := by
    rw [ends_cat_concat]
    exact (flatMap_ite _ _ _).trans (List.flatMap_singleton' _)
  simp only [framed, Pat.cat, ends]
  split_ifs
  · rw [List.flatMap_singleton]
    exact hinner
  · rfl

theorem matchAt_framed {a : Pat} {rest : List Pat} (ha : (Pat.cat a rest).plain = true) (z : Pos) :
    matchAt word (framed a rest) z =
      if z.isBoundary word then (stopAt word (.cat a rest) z).map z.after.take else none := by
  rw [matchAt, ends_framed]
  split_ifs
  · rw [List.head?_filter, ends_forward word ha, List.find?_map, Option.map_map]
    refine Option.map_congr fun k _ => ?_
    simp only [Function.comp_apply, Pos.forward, List.length_drop, List.take_eq_take_iff]
    omega
  · rfl

theorem headWord_append_congr {b b' : List Char} (m : List Char) (h : headWord word b' = headWord word b) :
    headWord word (m ++ b') = headWord word (m ++ b) := by
  cases m with
  | nil => exact h
  | cons c m => rfl

/-- To the left only the wordness of the nearest character is seen. -/
theorem matchAt_congr {r : Pat} (hr : Framed r) {b b' : List Char}
    (hb : headWord word b' = headWord word b) (l : List Char) :
    matchAt word r ⟨b', l⟩ = matchAt word r ⟨b, l⟩ := by
  obtain ⟨a, rest, rfl, ha⟩ := hr
  have hforward : ∀ k, (Pos.forward ⟨b', l⟩ k).isBoundary word = (Pos.forward ⟨b, l⟩ k).isBoundary word :=
    fun k => by simp only [Pos.isBoundary, Pos.forward, headWord_append_congr _ hb]
  have hstart : Pos.isBoundary word ⟨b', l⟩ = Pos.isBoundary word ⟨b, l⟩ := hforward 0
  simp only [matchAt_framed ha, stopAt, hstart, hforward]

/-- A search with a stricter condition finds the same when what was found meets it. -/
theorem find?_stricter {α : Type*} {p q : α → Bool} {l : List α} (hpq : ∀ a, q a = true → p a = true)
    (hfound : ∀ a, l.find? p = some a → q a = true) : l.find? q = l.find? p := by
  induction l with
  | nil => rfl
  | cons a l ih =>
    cases hp : p a with
    | true =>
      have hq : q a = true := hfound a (List.find?_cons_of_pos hp)
      rw [List.find?_cons_of_pos hp, List.find?_cons_of_pos hq]
    | false =>
      have hp : ¬ p a = true := by simp [hp]
      rw [List.find?_cons_of_neg hp] at hfound ⊢
      rw [List.find?_cons_of_neg fun hq => hp (hpq a hq), ih hfound]

/-- The first part of a text has the match of the whole, when its boundaries are
boundaries of the whole and the match ends at one of them. -/
theorem stopAt_part {a : Pat} (ho : a.avoids o = true) {b l x : List Char}
    (hpart : ∀ k ≤ l.length, (Pos.forward ⟨b, l⟩ k).isBoundary word = true →
      (Pos.forward ⟨b, l ++ x⟩ k).isBoundary word = true)
    (hfound : ∀ k, stopAt word a ⟨b, l ++ x⟩ = some k →
      k ≤ l.length ∧ (Pos.forward ⟨b, l⟩ k).isBoundary word = true) :
    stopAt word a ⟨b, l⟩ = stopAt word a ⟨b, l ++ x⟩ := by
  have hfilter : stopAt word a ⟨b, l⟩ = (lengths a (l ++ x)).find? fun k =>
      decide (k ≤ l.length ∧ (Pos.forward ⟨b, l⟩ k).isBoundary word = true) := by
    simp only [stopAt, (sees_lengths ho).part l x, List.find?_filter, decide_eq_true_eq]
  rw [hfilter]
  refine find?_stricter (fun k hk => ?_) fun k hk => decide_eq_true (hfound k hk)
  obtain ⟨hle, hk⟩ := of_decide_eq_true hk
  exact hpart k hle hk

theorem headWord_append_barrier (ho : word o = false) (l t : List Char) :
    headWord word (l ++ o :: t) = headWord word l := by
  cases l with
  | nil => exact ho
  | cons c l => rfl

/-- A character that the expression avoids ends what is seen, as the end of the text does. -/
theorem matchAt_barrier (hw : word o = false) {r : Pat} (hr : Framed r) (ho : r.avoids o = true)
    (b l t : List Char) : matchAt word r ⟨b, l ++ o :: t⟩ = matchAt word r ⟨b, l⟩ := by
  obtain ⟨a, rest, rfl, ha⟩ := hr
  rw [avoids_framed] at ho
  have hforward : ∀ k ≤ l.length,
      (Pos.forward ⟨b, l ++ o :: t⟩ k).isBoundary word = (Pos.forward ⟨b, l⟩ k).isBoundary word := by
    intro k hk
    simp only [Pos.isBoundary, Pos.forward, List.take_append_of_le_length hk,
      List.drop_append_of_le_length hk, headWord_append_barrier hw]
  have hle : ∀ k, stopAt word (.cat a rest) ⟨b, l ++ o :: t⟩ = some k → k ≤ l.length := fun k hk =>
    (sees_lengths ho).stops l t k (List.mem_of_find?_eq_some hk)
  have hstart : Pos.isBoundary word ⟨b, l ++ o :: t⟩ = Pos.isBoundary word ⟨b, l⟩ :=
    hforward 0 (Nat.zero_le _)
  have hstop : stopAt word (.cat a rest) ⟨b, l⟩ = stopAt word (.cat a rest) ⟨b, l ++ o :: t⟩ :=
    stopAt_part ho (fun k hk hb => by rwa [hforward k hk]) fun k hk =>
      ⟨hle k hk, by rw [← hforward k (hle k hk)]; exact stopAt_isBoundary hk⟩
  rw [matchAt_framed ha, matchAt_framed ha, hstart, hstop]
  split_ifs
  · exact Option.map_congr fun k hk => List.take_append_of_le_length (hle k hk)
  · rfl

/-- In front of its end the first part of a text has the boundaries of the whole. -/
theorem isBoundary_forward_append {b l x : List Char} {k : ℕ} (hk : k < l.length) :
    (Pos.forward ⟨b, l⟩ k).isBoundary word = (Pos.forward ⟨b, l ++ x⟩ k).isBoundary word := by
  have hdrop : headWord word (l.drop k ++ x) = headWord word (l.drop k) :=
    headWord_append word (by simpa using hk) x
  simp only [Pos.isBoundary, Pos.forward, List.take_append_of_le_length (Nat.le_of_lt hk),
    List.drop_append_of_le_length (Nat.le_of_lt hk), hdrop]

/-- When the first part of a text does not end in a word, a match that ends
before its end is found in the first part too. -/
theorem matchAt_flank {r : Pat} (hr : Framed r) (ho : r.avoids o = true) {b l x : List Char}
    (hne : l ≠ []) (hl : headWord word (l.reverse ++ b) = false)
    (hm : ∀ m, matchAt word r ⟨b, l ++ x⟩ = some m → m.length < l.length) :
    matchAt word r ⟨b, l⟩ = matchAt word r ⟨b, l ++ x⟩ := by
  obtain ⟨a, rest, rfl, ha⟩ := hr
  rw [avoids_framed] at ho
  have hforward : ∀ k < l.length,
      (Pos.forward ⟨b, l⟩ k).isBoundary word = (Pos.forward ⟨b, l ++ x⟩ k).isBoundary word :=
    fun k hk => isBoundary_forward_append hk
  have hlast : (Pos.forward ⟨b, l⟩ l.length).isBoundary word = false := by
    simp only [Pos.isBoundary, Pos.forward, List.take_length, List.drop_length, hl]
    rfl
  have hstart : Pos.isBoundary word ⟨b, l⟩ = Pos.isBoundary word ⟨b, l ++ x⟩ :=
    hforward 0 (List.length_pos_iff.mpr hne)
  rw [matchAt_framed ha] at hm ⊢
  rw [matchAt_framed ha, hstart]
  split_ifs with hz
  · rw [if_pos hz] at hm
    have hlt : ∀ k, stopAt word (.cat a rest) ⟨b, l ++ x⟩ = some k → k < l.length := by
      intro k hk
      have := hm ((l ++ x).take k) (by rw [hk]; rfl)
      simp only [List.length_take, List.length_append] at this
      omega
    have hstop : stopAt word (.cat a rest) ⟨b, l⟩ = stopAt word (.cat a rest) ⟨b, l ++ x⟩ := by
      refine stopAt_part ho (fun k hk hb => ?_) fun k hk => ?_
      · rcases Nat.lt_or_eq_of_le hk with hk | rfl
        · rwa [← hforward k hk]
        · rw [hlast] at hb
          cases hb
      · exact ⟨Nat.le_of_lt (hlt k hk), by rw [hforward k (hlt k hk)]; exact stopAt_isBoundary hk⟩
    rw [hstop]
    exact Option.map_congr fun k hk => (List.take_append_of_le_length (Nat.le_of_lt (hlt k hk))).symm
  · rfl

end Found

end Rx
