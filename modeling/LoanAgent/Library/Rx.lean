import Mathlib.Data.List.Basic
import Mathlib.Data.Nat.Notation
import Mathlib.Tactic.SplitIfs
import Mathlib.Tactic.Tauto

/-! Backtracking regular expressions over a text, as a list of characters. A
place in the text keeps what lies before it, because a word boundary looks both
ways. An expression maps a place to the places where its matches end, preferred
ones first; substitution takes the leftmost preferred match and goes on behind
it. Proved: matches only see the wordness of the character in front of them,
a character that no class of an expression accepts splits the search for it in
two, substituting tokens that the expressions cannot enter leaves no match of
any of them, substituting where there is no match changes nothing, and a match
only depends on the classes of the characters that the text has, so that it does
not change when characters are replaced by others of their classes. -/

namespace Rx

/-- A place in a text: the characters before it, nearest first, and those after it. -/
structure Pos where
  before : List Char
  after : List Char
  deriving DecidableEq

/-- Expressions. A repetition is greedy and has no upper bound when `hi = none`. -/
inductive Pat
  | char (p : Char → Bool)
  | boundary
  | seq (a b : Pat)
  | alt (a b : Pat)
  | rep (lo : ℕ) (hi : Option ℕ) (a : Pat)

namespace Pat

def opt (a : Pat) : Pat := rep 0 (some 1) a

def times (n : ℕ) (a : Pat) : Pat := rep n (some n) a

def plus (a : Pat) : Pat := rep 1 none a

/-- The sequence of the given expressions, which are at least one. -/
def cat : Pat → List Pat → Pat
  | a, [] => a
  | a, b :: rest => seq a (cat b rest)

end Pat

section Matching
variable (word : Char → Bool)

/-- Whether the nearest character is a word character; the end of the text is not. -/
def headWord : List Char → Bool
  | [] => false
  | c :: _ => word c

theorem headWord_append {m : List Char} (hm : m ≠ []) (l : List Char) :
    headWord word (m ++ l) = headWord word m := by
  obtain ⟨c, m, rfl⟩ := List.exists_cons_of_ne_nil hm
  rfl

theorem headWord_eq (l : List Char) : headWord word l = l.head?.any word := by
  cases l <;> rfl

def Pos.isBoundary (z : Pos) : Bool := headWord word z.before != headWord word z.after

/-- At most `n` further rounds of `f`, the most rounds preferred. -/
def moreEnds (f : Pos → List Pos) : ℕ → Pos → List Pos
  | 0, z => [z]
  | n + 1, z => (f z).flatMap (moreEnds f n) ++ [z]

/-- `lo` rounds of `f` and at most `extra` further ones. -/
def repEnds (f : Pos → List Pos) (extra : ℕ) : ℕ → Pos → List Pos
  | 0, z => moreEnds f extra z
  | lo + 1, z => (f z).flatMap (repEnds f extra lo)

/-- The places where a match that starts at `z` ends, in order of preference. -/
def ends : Pat → Pos → List Pos
  | .char p, z => match z.after with
    | [] => []
    | c :: rest => if p c then [⟨c :: z.before, rest⟩] else []
  | .boundary, z => if z.isBoundary word then [z] else []
  | .seq a b, z => (ends a z).flatMap (ends b)
  | .alt a b, z => ends a z ++ ends b z
  | .rep lo hi a, z =>
    repEnds (ends a) (match hi with | some h => h - lo | none => z.after.length) lo z

/-- Whether some match starts here or further on. -/
def occurs (r : Pat) : List Char → List Char → Bool
  | b, [] => !(ends word r ⟨b, []⟩).isEmpty
  | b, c :: rest => !(ends word r ⟨b, c :: rest⟩).isEmpty || occurs r (c :: b) rest

/-- Whether the whole of the text is a match. -/
def fullmatch (r : Pat) (text : List Char) : Bool :=
  (ends word r ⟨[], text⟩).any fun y => y.after.isEmpty

inductive Piece
  | keep (c : Char)
  | hit (m : List Char)

/-- The text cut into its non-overlapping leftmost matches and the characters
between them, for an expression that consumes at least one character. -/
def scan (r : Pat) : ℕ → Pos → List Piece
  | 0, _ => []
  | n + 1, z => match z.after with
    | [] => []
    | c :: rest => match ends word r z with
      | y :: _ => .hit (z.after.take (z.after.length - y.after.length)) :: scan r n y
      | [] => .keep c :: scan r n ⟨c :: z.before, rest⟩

def Piece.render (token : List Char) : Piece → List Char
  | .keep c => [c]
  | .hit _ => token

def Piece.isHit : Piece → Bool
  | .keep _ => false
  | .hit _ => true

/-- The text with every match replaced, and the number of replacements. -/
def subn (r : Pat) (token text : List Char) : List Char × ℕ :=
  let pieces := scan word r text.length ⟨[], text⟩
  (pieces.flatMap (Piece.render token), pieces.countP Piece.isHit)

end Matching

variable {word : Char → Bool} {o : Char}

/-! ### What a match can see -/

/-- No character class accepts `o` and every repetition is bounded. -/
def Pat.avoids (o : Char) : Pat → Bool
  | .char p => !p o
  | .boundary => true
  | .seq a b => a.avoids o && b.avoids o
  | .alt a b => a.avoids o && b.avoids o
  | .rep _ hi a => hi.isSome && a.avoids o

/-- The text `l` begins like `r` up to a point where it ends or goes on with
`o`, and where it has a word boundary only if `r` has one. -/
inductive Tail (word : Char → Bool) (o : Char) : Bool → List Char → List Char → Prop
  | stop {b : Bool} {l r : List Char} (hb : b = true → headWord word r = false)
      (hl : l = [] ∨ l.head? = some o) : Tail word o b l r
  | cons {b : Bool} {c : Char} {l r : List Char} (h : Tail word o (word c) l r) :
      Tail word o b (c :: l) (c :: r)

/-- What an expression that avoids `o` finds at `z'` it also finds at `z`. -/
structure Sim (word : Char → Bool) (o : Char) (z' z : Pos) : Prop where
  left : headWord word z'.before = headWord word z.before
  right : Tail word o (headWord word z.before) z'.after z.after

theorem Sim.isBoundary (ho : word o = false) {z' z : Pos} (h : Sim word o z' z)
    (hb : z'.isBoundary word = true) : z.isBoundary word = true := by
  obtain ⟨b', l⟩ := z'
  obtain ⟨b, r⟩ := z
  obtain ⟨hleft, hright⟩ := h
  simp only [Pos.isBoundary, bne_iff_ne, ne_eq] at *
  cases hright with
  | stop hs hl =>
    have hl' : headWord word l = false := by
      rcases hl with rfl | hl
      · rfl
      · obtain ⟨t, rfl⟩ := List.head?_eq_some_iff.mp hl
        exact ho
    rw [hl', Bool.not_eq_false, hleft] at hb
    rw [hb, hs hb]
    decide
  | cons _ =>
    rw [hleft] at hb
    exact hb

theorem Sim.moreEnds {f : Pos → List Pos}
    (hf : ∀ z' z y', Sim word o z' z → y' ∈ f z' → ∃ y ∈ f z, Sim word o y' y)
    (n : ℕ) {z' z y' : Pos} (h : Sim word o z' z) (hy : y' ∈ moreEnds f n z') :
    ∃ y ∈ moreEnds f n z, Sim word o y' y := by
  induction n generalizing z' z with
  | zero =>
    simp only [Rx.moreEnds, List.mem_singleton] at hy
    exact ⟨z, by simp [Rx.moreEnds], hy ▸ h⟩
  | succ n ih =>
    simp only [Rx.moreEnds, List.mem_append, List.mem_flatMap, List.mem_singleton] at hy ⊢
    rcases hy with ⟨x', hx', hy⟩ | rfl
    · obtain ⟨x, hx, hs⟩ := hf _ _ _ h hx'
      obtain ⟨y, hy, hs'⟩ := ih hs hy
      exact ⟨y, .inl ⟨x, hx, hy⟩, hs'⟩
    · exact ⟨z, .inr rfl, h⟩

theorem Sim.repEnds {f : Pos → List Pos}
    (hf : ∀ z' z y', Sim word o z' z → y' ∈ f z' → ∃ y ∈ f z, Sim word o y' y)
    (extra lo : ℕ) {z' z y' : Pos} (h : Sim word o z' z) (hy : y' ∈ repEnds f extra lo z') :
    ∃ y ∈ repEnds f extra lo z, Sim word o y' y := by
  induction lo generalizing z' z with
  | zero => exact h.moreEnds hf extra hy
  | succ lo ih =>
    simp only [Rx.repEnds, List.mem_flatMap] at hy ⊢
    obtain ⟨x', hx', hy⟩ := hy
    obtain ⟨x, hx, hs⟩ := hf _ _ _ h hx'
    obtain ⟨y, hy, hs'⟩ := ih hs hy
    exact ⟨y, ⟨x, hx, hy⟩, hs'⟩

theorem Sim.ends (ho : word o = false) (r : Pat) (hr : r.avoids o = true) {z' z y' : Pos}
    (h : Sim word o z' z) (hy : y' ∈ ends word r z') : ∃ y ∈ ends word r z, Sim word o y' y := by
  induction r generalizing z' z y' with
  | char p =>
    obtain ⟨b', l⟩ := z'
    obtain ⟨b, r⟩ := z
    obtain ⟨hleft, hright⟩ := h
    cases l with
    | nil => simp [Rx.ends] at hy
    | cons c l =>
      simp only [Rx.ends, List.mem_ite_nil_right, List.mem_singleton] at hy
      obtain ⟨hp, rfl⟩ := hy
      cases hright with
      | stop _ hl =>
        have hc : c = o := by simpa using hl
        simp only [Pat.avoids, Bool.not_eq_true'] at hr
        rw [hc, hr] at hp
        cases hp
      | @cons _ _ _ r h => exact ⟨⟨c :: b, r⟩, by simp [Rx.ends, hp], ⟨rfl, h⟩⟩
  | boundary =>
    simp only [Rx.ends, List.mem_ite_nil_right, List.mem_singleton] at hy ⊢
    obtain ⟨hb, rfl⟩ := hy
    exact ⟨z, ⟨h.isBoundary ho hb, rfl⟩, h⟩
  | seq a b iha ihb =>
    simp only [Pat.avoids, Bool.and_eq_true] at hr
    simp only [Rx.ends, List.mem_flatMap] at hy ⊢
    obtain ⟨x', hx', hy⟩ := hy
    obtain ⟨x, hx, hs⟩ := iha hr.1 h hx'
    obtain ⟨y, hy, hs'⟩ := ihb hr.2 hs hy
    exact ⟨y, ⟨x, hx, hy⟩, hs'⟩
  | alt a b iha ihb =>
    simp only [Pat.avoids, Bool.and_eq_true] at hr
    simp only [Rx.ends, List.mem_append] at hy ⊢
    rcases hy with hy | hy
    · obtain ⟨y, hy, hs⟩ := iha hr.1 h hy
      exact ⟨y, .inl hy, hs⟩
    · obtain ⟨y, hy, hs⟩ := ihb hr.2 h hy
      exact ⟨y, .inr hy, hs⟩
  | rep lo hi a iha =>
    simp only [Pat.avoids, Bool.and_eq_true] at hr
    obtain ⟨hi, rfl⟩ := Option.isSome_iff_exists.mp hr.1
    exact h.repEnds (fun _ _ _ hs hy => iha hr.2 hs hy) _ lo hy

theorem Tail.refl (word : Char → Bool) (o : Char) (b : Bool) (l : List Char) :
    Tail word o b l l := by
  induction l generalizing b with
  | nil => exact .stop (fun _ => rfl) (.inl rfl)
  | cons c l ih => exact .cons (ih _)

/-- To the left a match only sees the wordness of the nearest character. -/
theorem ends_isEmpty_congr (ho : word o = false) {r : Pat} (hr : r.avoids o = true)
    {b b' l : List Char} (hb : headWord word b' = headWord word b) :
    (ends word r ⟨b', l⟩).isEmpty = (ends word r ⟨b, l⟩).isEmpty := by
  have key : ∀ {b b' : List Char}, headWord word b' = headWord word b →
      (ends word r ⟨b, l⟩).isEmpty → (ends word r ⟨b', l⟩).isEmpty := by
    intro b b' hb he
    rw [List.isEmpty_iff] at he ⊢
    refine List.eq_nil_iff_forall_not_mem.mpr fun y' hy' => ?_
    have hs : Sim word o ⟨b', l⟩ ⟨b, l⟩ := ⟨hb, Tail.refl word o _ l⟩
    obtain ⟨y, hy, -⟩ := hs.ends ho r hr hy'
    simp [he] at hy
  exact Bool.eq_iff_iff.mpr ⟨key hb.symm, key hb⟩

theorem occurs_congr (ho : word o = false) {r : Pat} (hr : r.avoids o = true)
    {b b' : List Char} (l : List Char) (hb : headWord word b' = headWord word b) :
    occurs word r b' l = occurs word r b l := by
  induction l generalizing b b' with
  | nil => simp only [occurs, ends_isEmpty_congr ho hr hb]
  | cons c l ih =>
    have hrest : occurs word r (c :: b') l = occurs word r (c :: b) l := ih rfl
    simp only [occurs, ends_isEmpty_congr ho hr hb, hrest]

/-- Every match starts at the beginning of a word, ends at a word boundary and
consumes something, and the expression avoids the character `o`. -/
structure Guarded (word : Char → Bool) (o : Char) (r : Pat) : Prop where
  avoids : r.avoids o = true
  starts : ∀ z y, y ∈ ends word r z → headWord word z.before = false ∧ headWord word z.after = true
  stops : ∀ z y, y ∈ ends word r z → y.isBoundary word = true

theorem Guarded.ends_nil {r : Pat} (hr : Guarded word o r) {z : Pos}
    (hz : headWord word z.after = false) : ends word r z = [] := by
  refine List.eq_nil_iff_forall_not_mem.mpr fun y hy => ?_
  have := (hr.starts z y hy).2
  rw [hz] at this
  cases this

/-- Every match begins with a word character and so consumes something. -/
def Opens (word : Char → Bool) (r : Pat) : Prop :=
  ∀ z y, y ∈ ends word r z → headWord word z.after = true ∧ y.after.length < z.after.length

/-- Every match ends at a word boundary. -/
def Closes (word : Char → Bool) (r : Pat) : Prop :=
  ∀ z y, y ∈ ends word r z → y.isBoundary word = true

theorem closes_boundary : Closes word .boundary := by
  intro z y hy
  simp only [ends, List.mem_ite_nil_right, List.mem_singleton] at hy
  exact hy.2 ▸ hy.1

theorem Closes.seq {a b : Pat} (hb : Closes word b) : Closes word (.seq a b) := by
  intro z y hy
  simp only [ends, List.mem_flatMap] at hy
  obtain ⟨x, -, hy⟩ := hy
  exact hb _ _ hy

theorem opens_char {p : Char → Bool} (hp : ∀ c, p c = true → word c = true) :
    Opens word (.char p) := by
  rintro ⟨b, l⟩ y hy
  cases l with
  | nil => simp [ends] at hy
  | cons c l =>
    simp only [ends, List.mem_ite_nil_right, List.mem_singleton] at hy
    exact ⟨hp c hy.1, by simp [hy.2]⟩

/-! ### Matches move forward -/

/-- `y` lies ahead of `z`, with some text between them. -/
def Pos.Ahead (z y : Pos) : Prop := ∃ m, z.after = m ++ y.after ∧ y.before = m.reverse ++ z.before

theorem Pos.Ahead.refl (z : Pos) : z.Ahead z := ⟨[], rfl, rfl⟩

theorem Pos.Ahead.trans {z x y : Pos} (h : z.Ahead x) (h' : x.Ahead y) : z.Ahead y := by
  obtain ⟨m, hm, hm'⟩ := h
  obtain ⟨k, hk, hk'⟩ := h'
  exact ⟨m ++ k, by simp [hm, hk], by simp [hm', hk']⟩

theorem advance_more {f : Pos → List Pos} (hf : ∀ z y, y ∈ f z → z.Ahead y) (n : ℕ) {z y : Pos}
    (hy : y ∈ moreEnds f n z) : z.Ahead y := by
  induction n generalizing z with
  | zero =>
    simp only [moreEnds, List.mem_singleton] at hy
    exact hy ▸ .refl z
  | succ n ih =>
    simp only [moreEnds, List.mem_append, List.mem_flatMap, List.mem_singleton] at hy
    rcases hy with ⟨x, hx, hy⟩ | rfl
    · exact (hf _ _ hx).trans (ih hy)
    · exact .refl y

theorem advance_rep {f : Pos → List Pos} (hf : ∀ z y, y ∈ f z → z.Ahead y) (extra lo : ℕ) {z y : Pos}
    (hy : y ∈ repEnds f extra lo z) : z.Ahead y := by
  induction lo generalizing z with
  | zero => exact advance_more hf extra hy
  | succ lo ih =>
    simp only [repEnds, List.mem_flatMap] at hy
    obtain ⟨x, hx, hy⟩ := hy
    exact (hf _ _ hx).trans (ih hy)

/-- A match moves forward over the text it consumes. -/
theorem advance (r : Pat) {z y : Pos} (hy : y ∈ ends word r z) : z.Ahead y := by
  induction r generalizing z y with
  | char p =>
    obtain ⟨b, l⟩ := z
    cases l with
    | nil => simp [ends] at hy
    | cons c l =>
      simp only [ends, List.mem_ite_nil_right, List.mem_singleton] at hy
      exact ⟨[c], by simp [hy.2]⟩
  | boundary =>
    simp only [ends, List.mem_ite_nil_right, List.mem_singleton] at hy
    exact hy.2 ▸ .refl z
  | seq a b iha ihb =>
    simp only [ends, List.mem_flatMap] at hy
    obtain ⟨x, hx, hy⟩ := hy
    exact (iha hx).trans (ihb hy)
  | alt a b iha ihb =>
    simp only [ends, List.mem_append] at hy
    exact hy.elim iha ihb
  | rep lo hi a iha =>
    simp only [ends] at hy
    exact advance_rep (fun _ _ => iha) _ lo hy

theorem Pos.Ahead.length_le {z y : Pos} (h : z.Ahead y) : y.after.length ≤ z.after.length := by
  obtain ⟨m, hm, -⟩ := h
  simp [hm]

theorem Opens.seq {a b : Pat} (ha : Opens word a) : Opens word (.seq a b) := by
  intro z y hy
  simp only [ends, List.mem_flatMap] at hy
  obtain ⟨x, hx, hy⟩ := hy
  have := (advance b hy).length_le
  exact ⟨(ha z x hx).1, by have := (ha z x hx).2; omega⟩

theorem Opens.rep {a : Pat} (ha : Opens word a) (lo : ℕ) (hi : Option ℕ) :
    Opens word (.rep (lo + 1) hi a) := by
  intro z y hy
  simp only [ends, repEnds, List.mem_flatMap] at hy
  obtain ⟨x, hx, hy⟩ := hy
  have := (advance_rep (fun _ _ => advance a) _ lo hy).length_le
  exact ⟨(ha z x hx).1, by have := (ha z x hx).2; omega⟩

/-- An expression in word boundaries whose matches begin with a word character. -/
theorem guarded_boundary {r : Pat} (ho : r.avoids o = true) (hopen : Opens word r)
    (hclose : Closes word r) : Guarded word o (.seq .boundary r) where
  avoids := by simpa [Pat.avoids] using ho
  starts z y hy := by
    simp only [ends, List.mem_flatMap, List.mem_ite_nil_right, List.mem_singleton] at hy
    obtain ⟨x, ⟨hb, rfl⟩, hy⟩ := hy
    have hw := (hopen _ _ hy).1
    simp only [Pos.isBoundary, hw, bne_iff_ne, ne_eq, Bool.not_eq_true] at hb
    exact ⟨hb, hw⟩
  stops := hclose.seq

theorem consumes_boundary {r : Pat} (hopen : Opens word r) (z y : Pos)
    (hy : y ∈ ends word (.seq .boundary r) z) : y.after.length < z.after.length := by
  simp only [ends, List.mem_flatMap, List.mem_ite_nil_right, List.mem_singleton] at hy
  obtain ⟨x, ⟨-, rfl⟩, hy⟩ := hy
  exact (hopen _ _ hy).2

/-! ### Splitting a search -/

theorem tail_append_barrier (ho : word o = false) (b : Bool) (l r : List Char) :
    Tail word o b (l ++ o :: r) l ∧ Tail word o b l (l ++ o :: r) := by
  induction l generalizing b with
  | nil => exact ⟨.stop (fun _ => rfl) (.inr rfl), .stop (fun _ => ho) (.inl rfl)⟩
  | cons c l ih => exact ⟨.cons (ih _).1, .cons (ih _).2⟩

/-- A character that the expression avoids splits the search in two. -/
theorem occurs_append_barrier (ho : word o = false) {r : Pat} (hr : Guarded word o r)
    (b l l' : List Char) :
    occurs word r b (l ++ o :: l') = (occurs word r b l || occurs word r [] l') := by
  have hends : ∀ b l, (ends word r ⟨b, l ++ o :: l'⟩).isEmpty = (ends word r ⟨b, l⟩).isEmpty := by
    intro b l
    obtain ⟨h1, h2⟩ := tail_append_barrier ho (headWord word b) l l'
    rw [Bool.eq_iff_iff, List.isEmpty_iff, List.isEmpty_iff]
    constructor <;> intro he <;> refine List.eq_nil_iff_forall_not_mem.mpr fun y hy => ?_
    · have hs : Sim word o ⟨b, l⟩ ⟨b, l ++ o :: l'⟩ := ⟨rfl, h2⟩
      obtain ⟨x, hx, -⟩ := hs.ends ho r hr.avoids hy
      simp [he] at hx
    · have hs : Sim word o ⟨b, l ++ o :: l'⟩ ⟨b, l⟩ := ⟨rfl, h1⟩
      obtain ⟨x, hx, -⟩ := hs.ends ho r hr.avoids hy
      simp [he] at hx
  induction l generalizing b with
  | nil =>
    have h0 : ends word r ⟨b, []⟩ = [] := hr.ends_nil rfl
    have h1 : ends word r ⟨b, o :: l'⟩ = [] := hr.ends_nil ho
    simp [occurs, h0, h1, occurs_congr ho hr.avoids l' (show headWord word (o :: b) = headWord word [] from ho)]
  | cons c l ih =>
    have := hends b (c :: l)
    simp only [List.cons_append] at this
    simp only [List.cons_append, occurs, this, ih, Bool.or_assoc]

/-- A character outside the words in front of a text adds no match. -/
theorem occurs_cons_nonword (ho : word o = false) {r : Pat} (hr : Guarded word o r) {c : Char}
    (hc : word c = false) (b l : List Char) : occurs word r b (c :: l) = occurs word r [] l := by
  have h0 : ends word r ⟨b, c :: l⟩ = [] := hr.ends_nil hc
  simp [occurs, h0, occurs_congr ho hr.avoids l (show headWord word (c :: b) = headWord word [] from hc)]

/-! ### Substitution leaves no match -/

theorem occurs_forward {r : Pat} {b m l : List Char} (h : occurs word r b (m ++ l) = false) :
    occurs word r (m.reverse ++ b) l = false := by
  induction m generalizing b with
  | nil => exact h
  | cons c m ih =>
    simp only [List.cons_append, occurs, Bool.or_eq_false_iff] at h
    simpa using ih h.2

/-- No match of `q` starts inside the token. -/
def Blocked (word : Char → Bool) (q : Pat) (token : List Char) : Prop :=
  ∀ pre suf, token = pre ++ suf → suf ≠ [] → ∀ b l, ends word q ⟨b, suf ++ l⟩ = []

theorem occurs_blocked {q : Pat} {token : List Char} (h : Blocked word q token) (b l : List Char) :
    occurs word q b (token ++ l) = occurs word q (token.reverse ++ b) l := by
  have key : ∀ pre suf, token = pre ++ suf →
      occurs word q (pre.reverse ++ b) (suf ++ l) = occurs word q (token.reverse ++ b) l := by
    intro pre suf
    induction suf generalizing pre with
    | nil => rintro rfl; simp
    | cons c suf ih =>
      intro ht
      have he := h pre (c :: suf) ht (by simp) (pre.reverse ++ b) l
      have hi := ih (pre ++ [c]) (by simp [ht])
      simp only [List.reverse_append, List.reverse_singleton, List.cons_append,
        List.nil_append] at hi he
      simp only [List.cons_append, occurs, he, List.isEmpty_nil, Bool.not_true, Bool.false_or, hi]
  simpa using key [] token rfl

/-- No match of `q` starts at a character that the scan for `r` keeps. -/
def KeptFree (word : Char → Bool) (r q : Pat) : ℕ → Pos → Prop
  | 0, _ => True
  | n + 1, z => match z.after with
    | [] => True
    | c :: rest => match ends word r z with
      | y :: _ => KeptFree word r q n y
      | [] => ends word q z = [] ∧ KeptFree word r q n ⟨c :: z.before, rest⟩

theorem keptFree_self (r : Pat) (n : ℕ) (z : Pos) : KeptFree word r r n z := by
  induction n generalizing z with
  | zero => trivial
  | succ n ih =>
    simp only [KeptFree]
    split
    · trivial
    · split
      · exact ih _
      · exact ⟨‹_›, ih _⟩

theorem keptFree_of_occurs {r q : Pat} (n : ℕ) (z : Pos)
    (h : occurs word q z.before z.after = false) : KeptFree word r q n z := by
  induction n generalizing z with
  | zero => trivial
  | succ n ih =>
    obtain ⟨b, l⟩ := z
    cases l with
    | nil => trivial
    | cons c l =>
      simp only [KeptFree]
      split
      next y _ he =>
        obtain ⟨m, hm, hb⟩ := advance r (show y ∈ ends word r ⟨b, c :: l⟩ by simp [he])
        simp only at hm h
        rw [hm] at h
        exact ih y (hb ▸ occurs_forward h)
      next =>
        simp only [occurs, Bool.or_eq_false_iff, Bool.not_eq_false', List.isEmpty_iff] at h
        exact ⟨h.1, ih _ h.2⟩

section Sub
variable {r q : Pat} {mid : List Char}

theorem tail_scan (hr : Guarded word o r) (n : ℕ) (z : Pos) (hn : z.after.length ≤ n) :
    Tail word o (headWord word z.before) ((scan word r n z).flatMap (Piece.render (o :: mid))) z.after := by
  induction n generalizing z with
  | zero =>
    have : z.after = [] := List.length_eq_zero_iff.mp (by omega)
    rw [this]
    exact .stop (fun _ => rfl) (.inl rfl)
  | succ n ih =>
    obtain ⟨b, l⟩ := z
    cases l with
    | nil => exact .stop (fun _ => rfl) (.inl rfl)
    | cons c l =>
      simp only [scan]
      split
      next y _ he =>
        -- A match starts a word, so there is no boundary in front of the token.
        have hs := hr.starts ⟨b, c :: l⟩ y (by simp [he])
        refine .stop (fun hb => ?_) (.inr rfl)
        simp only [hs.1, Bool.false_eq_true] at hb
      next =>
        simp only [List.length_cons] at hn
        exact .cons (ih ⟨c :: b, l⟩ (by simp only; omega))

/-- Behind a match the context is new: a token instead of the match's last
character. Either both are outside a word, or what follows is. -/
theorem occurs_scan (ho : word o = false) (hr : Guarded word o r) (hq : Guarded word o q)
    (hlt : ∀ z y, y ∈ ends word r z → y.after.length < z.after.length)
    (hlast : headWord word (o :: mid).reverse = false) (hblock : Blocked word q (o :: mid))
    (n : ℕ) (z : Pos) (hn : z.after.length ≤ n) (b' : List Char)
    (hctx : headWord word b' = headWord word z.before ∨ headWord word z.after = false)
    (hfree : KeptFree word r q n z) :
    occurs word q b' ((scan word r n z).flatMap (Piece.render (o :: mid))) = false := by
  induction n generalizing z b' with
  | zero => simp [scan, occurs, hq.ends_nil (z := ⟨b', []⟩) rfl]
  | succ n ih =>
    obtain ⟨b, l⟩ := z
    cases l with
    | nil => simp [scan, occurs, hq.ends_nil (z := ⟨b', []⟩) rfl]
    | cons c l =>
      have ht : Tail word o _ ((scan word r (n + 1) ⟨b, c :: l⟩).flatMap (Piece.render (o :: mid))) _ :=
        tail_scan hr (n + 1) ⟨b, c :: l⟩ hn
      simp only [KeptFree] at hfree
      simp only [scan, List.length_cons] at hn hctx ht ⊢
      split at ht
      next y _ he =>
        have hy : y ∈ ends word r ⟨b, c :: l⟩ := by simp [he]
        have hlen := hlt _ _ hy
        have hstop := hr.stops _ _ hy
        simp only [List.length_cons] at hlen
        simp only [he] at hfree ⊢
        simp only [List.flatMap_cons, Piece.render]
        rw [occurs_blocked hblock]
        refine ih y (by omega) _ ?_ hfree
        have htok : headWord word ((o :: mid).reverse ++ b') = false :=
          (headWord_append word (by simp) b').trans hlast
        rw [htok]
        simp only [Pos.isBoundary, bne_iff_ne, ne_eq] at hstop
        cases hb : headWord word y.before with
        | false => exact .inl rfl
        | true => rw [hb] at hstop; exact .inr (by simpa using hstop)
      next he =>
        simp only [he] at hfree ⊢
        simp only [List.flatMap_cons, Piece.render, List.singleton_append, occurs,
          Bool.or_eq_false_iff, Bool.not_eq_false', List.isEmpty_iff] at ht ⊢
        refine ⟨?_, ih ⟨c :: b, l⟩ (by simp only; omega) _ (.inl rfl) hfree.2⟩
        rcases hctx with hctx | hctx
        · refine List.eq_nil_iff_forall_not_mem.mpr fun y' hy' => ?_
          have hs : Sim word o ⟨b', c :: (scan word r n ⟨c :: b, l⟩).flatMap (Piece.render (o :: mid))⟩
              ⟨b, c :: l⟩ := ⟨hctx, ht⟩
          obtain ⟨y, hy, -⟩ := hs.ends ho q hq.avoids hy'
          simp [hfree.1] at hy
        · exact hq.ends_nil hctx

/-- Substituting a token for the matches of `r` leaves no match of `r`, and none
of an expression that had no match before. -/
theorem occurs_subn (ho : word o = false) (hr : Guarded word o r) (hq : Guarded word o q)
    (hlt : ∀ z y, y ∈ ends word r z → y.after.length < z.after.length)
    (hlast : headWord word (o :: mid).reverse = false) (hblock : Blocked word q (o :: mid))
    (text : List Char) (h : q = r ∨ occurs word q [] text = false) :
    occurs word q [] (subn word r (o :: mid) text).1 = false := by
  refine occurs_scan ho hr hq hlt hlast hblock _ ⟨[], text⟩ (Nat.le_refl _) []
    (.inl rfl) ?_
  rcases h with rfl | h
  · exact keptFree_self _ _ _
  · exact keptFree_of_occurs _ _ h

end Sub

/-! ### Substituting several expressions in turn -/

/-- The rules applied one after the other, each to the result of the one before. -/
def substAll (word : Char → Bool) (rules : List (Pat × List Char)) (text : List Char) :
    List Char × ℕ :=
  rules.foldl (fun acc rule =>
    let result := subn word rule.1 rule.2 acc.1
    (result.1, acc.2 + result.2)) (text, 0)

/-- Every expression is guarded, no match is empty, and every token begins with
the barrier, ends outside a word and is closed to every expression. -/
structure SoundRules (word : Char → Bool) (o : Char) (rules : List (Pat × List Char)) : Prop where
  barrier : word o = false
  guarded : ∀ r ∈ rules, Guarded word o r.1
  consumes : ∀ r ∈ rules, ∀ z y, y ∈ ends word r.1 z → y.after.length < z.after.length
  opens : ∀ r ∈ rules, r.2.head? = some o
  closes : ∀ r ∈ rules, headWord word r.2.reverse = false
  blocked : ∀ r ∈ rules, ∀ q ∈ rules, Blocked word q.1 r.2

theorem SoundRules.occurs_step {rules : List (Pat × List Char)} (h : SoundRules word o rules)
    {rule q : Pat × List Char} (hr : rule ∈ rules) (hq : q ∈ rules) (text : List Char)
    (hfree : q = rule ∨ occurs word q.1 [] text = false) :
    occurs word q.1 [] (subn word rule.1 rule.2 text).1 = false := by
  obtain ⟨mid, hmid⟩ := List.head?_eq_some_iff.mp (h.opens rule hr)
  have hclose := h.closes rule hr
  have hblock := h.blocked rule hr q hq
  rw [hmid] at hclose hblock ⊢
  exact occurs_subn h.barrier (h.guarded _ hr) (h.guarded _ hq) (h.consumes _ hr) hclose hblock text
    (hfree.imp_left fun e => by rw [e])

/-- After all rules have been applied no expression of them has a match. -/
theorem SoundRules.occurs_substAll {rules : List (Pat × List Char)} (h : SoundRules word o rules)
    (text : List Char) {q : Pat × List Char} (hq : q ∈ rules) :
    occurs word q.1 [] (substAll word rules text).1 = false := by
  -- Induction on the rules still to apply; those applied before stay without a match.
  have key : ∀ (todo : List (Pat × List Char)) (acc : List Char × ℕ), todo ⊆ rules →
      (q ∈ todo ∨ occurs word q.1 [] acc.1 = false) →
      occurs word q.1 [] (todo.foldl (fun acc rule =>
        ((subn word rule.1 rule.2 acc.1).1, acc.2 + (subn word rule.1 rule.2 acc.1).2)) acc).1
          = false := by
    intro todo
    induction todo with
    | nil => exact fun acc _ hfree => hfree.resolve_left (by simp)
    | cons rule todo ih =>
      intro acc hsub hfree
      have hrule : rule ∈ rules := hsub List.mem_cons_self
      refine ih _ (List.subset_of_cons_subset hsub) ?_
      rcases hfree with hmem | hfree
      · rcases List.mem_cons.mp hmem with rfl | hmem
        · exact .inr (h.occurs_step hrule hq _ (.inl rfl))
        · exact .inl hmem
      · exact .inr (h.occurs_step hrule hq _ (.inr hfree))
  exact key rules (text, 0) (List.Subset.refl _) (.inl hq)

/-! ### Substitution where nothing matches -/

/-- Where a search finds nothing no match starts at any place. -/
theorem ends_of_occurs {r : Pat} {b pre post : List Char}
    (h : occurs word r b (pre ++ post) = false) : ends word r ⟨pre.reverse ++ b, post⟩ = [] := by
  have hpost := occurs_forward h
  cases post with
  | nil => simpa [occurs] using hpost
  | cons c post =>
    simp only [occurs, Bool.or_eq_false_iff, Bool.not_eq_false', List.isEmpty_iff] at hpost
    exact hpost.1

theorem scan_of_occurs {r : Pat} (n : ℕ) (z : Pos) (hn : z.after.length ≤ n)
    (h : occurs word r z.before z.after = false) : scan word r n z = z.after.map .keep := by
  induction n generalizing z with
  | zero =>
    have hnil : z.after = [] := List.length_eq_zero_iff.mp (by omega)
    rw [hnil]
    rfl
  | succ n ih =>
    obtain ⟨b, l⟩ := z
    cases l with
    | nil => rfl
    | cons c l =>
      simp only [occurs, Bool.or_eq_false_iff, Bool.not_eq_false', List.isEmpty_iff] at h
      simp only [List.length_cons] at hn
      have hrest := ih ⟨c :: b, l⟩ (by simp only; omega) h.2
      simp only [scan, h.1, hrest, List.map_cons]

theorem subn_of_occurs {r : Pat} {text : List Char} (token : List Char)
    (h : occurs word r [] text = false) : subn word r token text = (text, 0) := by
  have hscan := scan_of_occurs text.length ⟨[], text⟩ (Nat.le_refl _) h
  have hkeep : (text.map Piece.keep).flatMap (Piece.render token) = text := by
    rw [List.flatMap_map]
    exact List.flatMap_singleton' text
  have hcount : (text.map Piece.keep).countP Piece.isHit = 0 := by
    rw [List.countP_map, List.countP_eq_zero]
    exact fun _ _ => Bool.false_ne_true
  simp only [subn, hscan, hkeep, hcount]

/-- Rules of which none has a match leave the text as it is. -/
theorem substAll_of_occurs {rules : List (Pat × List Char)} {text : List Char}
    (h : ∀ r ∈ rules, occurs word r.1 [] text = false) : substAll word rules text = (text, 0) := by
  unfold substAll
  induction rules with
  | nil => rfl
  | cons rule rules ih =>
    have hrule := subn_of_occurs rule.2 (h rule List.mem_cons_self)
    rw [List.foldl_cons, hrule]
    exact ih fun r hr => h r (List.mem_cons_of_mem rule hr)

/-! ### Classes matter on the characters of the text only -/

/-- Every class cut down to the characters of `S`. -/
def Pat.restrict (S : Char → Bool) : Pat → Pat
  | .char p => .char fun c => S c && p c
  | .boundary => .boundary
  | .seq a b => .seq (a.restrict S) (b.restrict S)
  | .alt a b => .alt (a.restrict S) (b.restrict S)
  | .rep lo hi a => .rep lo hi (a.restrict S)

section Restrict
variable {S : Char → Bool}

def Pos.within (S : Char → Bool) (z : Pos) : Prop := ∀ c ∈ z.before ++ z.after, S c = true

theorem Pos.within.advance {z y : Pos} (h : z.within S) (ha : z.Ahead y) : y.within S := by
  obtain ⟨m, hm, hb⟩ := ha
  intro c hc
  refine h c ?_
  simp only [hb, List.mem_append, List.mem_reverse] at hc
  simp only [hm, List.mem_append]
  tauto

theorem headWord_restrict {l : List Char} (h : ∀ c ∈ l, S c = true) :
    headWord (fun c => S c && word c) l = headWord word l := by
  cases l with
  | nil => rfl
  | cons c l => simp [headWord, h c List.mem_cons_self]

theorem isBoundary_restrict {z : Pos} (h : z.within S) :
    z.isBoundary (fun c => S c && word c) = z.isBoundary word := by
  have hb : ∀ c ∈ z.before, S c = true := fun c hc => h c (List.mem_append_left _ hc)
  have ha : ∀ c ∈ z.after, S c = true := fun c hc => h c (List.mem_append_right _ hc)
  simp only [Pos.isBoundary, headWord_restrict hb, headWord_restrict ha]

theorem moreEnds_within {f g : Pos → List Pos} (hfg : ∀ z, z.within S → f z = g z)
    (hg : ∀ z y, y ∈ g z → z.Ahead y) (n : ℕ) {z : Pos} (hz : z.within S) :
    moreEnds f n z = moreEnds g n z := by
  induction n generalizing z with
  | zero => rfl
  | succ n ih =>
    simp only [moreEnds, hfg z hz]
    rw [List.flatMap_congr fun y hy => ih (hz.advance (hg z y hy))]

theorem repEnds_within {f g : Pos → List Pos} (hfg : ∀ z, z.within S → f z = g z)
    (hg : ∀ z y, y ∈ g z → z.Ahead y) (extra lo : ℕ) {z : Pos} (hz : z.within S) :
    repEnds f extra lo z = repEnds g extra lo z := by
  induction lo generalizing z with
  | zero => exact moreEnds_within hfg hg extra hz
  | succ lo ih =>
    simp only [repEnds, hfg z hz]
    rw [List.flatMap_congr fun y hy => ih (hz.advance (hg z y hy))]

theorem ends_restrict (r : Pat) {z : Pos} (hz : z.within S) :
    ends (fun c => S c && word c) (r.restrict S) z = ends word r z := by
  induction r generalizing z with
  | char p =>
    obtain ⟨b, l⟩ := z
    cases l with
    | nil => rfl
    | cons c l => simp [ends, Pat.restrict, hz c (by simp)]
  | boundary => simp only [ends, Pat.restrict, isBoundary_restrict hz]
  | seq a b iha ihb =>
    simp only [ends, Pat.restrict, iha hz]
    exact List.flatMap_congr fun y hy => ihb (hz.advance (advance a hy))
  | alt a b iha ihb => simp only [ends, Pat.restrict, iha hz, ihb hz]
  | rep lo hi a iha =>
    simp only [ends, Pat.restrict]
    exact repEnds_within (fun _ h => iha h) (fun _ _ => advance a) _ lo hz

/-- A search does not change when the classes are cut down to a set of
characters that has all characters of the text. -/
theorem occurs_restrict (r : Pat) (b l : List Char) (h : ∀ c ∈ b ++ l, S c = true) :
    occurs (fun c => S c && word c) (r.restrict S) b l = occurs word r b l := by
  induction l generalizing b with
  | nil => simp only [occurs, ends_restrict r (z := ⟨b, []⟩) h]
  | cons c l ih =>
    have hrest : ∀ d ∈ (c :: b) ++ l, S d = true := fun d hd => h d (by
      simp only [List.cons_append, List.mem_cons, List.mem_append] at hd ⊢; tauto)
    simp only [occurs, ends_restrict r (z := ⟨b, c :: l⟩) h, ih _ hrest]

end Restrict

/-- No class of the expression tells a character from the one that `f` puts in its place. -/
def Pat.blindTo (f : Char → Char) : Pat → Prop
  | .char p => ∀ c, p (f c) = p c
  | .boundary => True
  | .seq a b => a.blindTo f ∧ b.blindTo f
  | .alt a b => a.blindTo f ∧ b.blindTo f
  | .rep _ _ a => a.blindTo f

section Renamed
variable {f : Char → Char} (hf : ∀ c, word (f c) = word c)

/-- The same place of the text in which `f` replaces every character. -/
def Pos.map (f : Char → Char) (z : Pos) : Pos := ⟨z.before.map f, z.after.map f⟩

theorem moreEnds_map {g : Pos → List Pos} (hg : ∀ z, g (z.map f) = (g z).map (Pos.map f)) (n : ℕ) (z : Pos) :
    moreEnds g n (z.map f) = (moreEnds g n z).map (Pos.map f) := by
  induction n generalizing z with
  | zero => rfl
  | succ n ih =>
    simp only [moreEnds, hg, List.map_append, List.map_flatMap, List.flatMap_map, ih, List.map_singleton]

theorem repEnds_map {g : Pos → List Pos} (hg : ∀ z, g (z.map f) = (g z).map (Pos.map f)) (extra lo : ℕ)
    (z : Pos) : repEnds g extra lo (z.map f) = (repEnds g extra lo z).map (Pos.map f) := by
  induction lo generalizing z with
  | zero => exact moreEnds_map hg extra z
  | succ lo ih => simp only [repEnds, hg, List.map_flatMap, List.flatMap_map, ih]

include hf

theorem headWord_map (l : List Char) : headWord word (l.map f) = headWord word l := by
  cases l with
  | nil => rfl
  | cons c l => exact hf c

theorem ends_map {r : Pat} (hr : r.blindTo f) (z : Pos) :
    ends word r (z.map f) = (ends word r z).map (Pos.map f) := by
  induction r generalizing z with
  | char p =>
    obtain ⟨b, l⟩ := z
    cases l with
    | nil => rfl
    | cons c l =>
      have hc : p (f c) = p c := hr c
      simp only [Pos.map, ends, List.map_cons, hc]
      split <;> rfl
  | boundary =>
    have hz : (z.map f).isBoundary word = z.isBoundary word := by
      simp only [Pos.isBoundary, Pos.map, headWord_map hf]
    simp only [ends, hz]
    split <;> rfl
  | seq a b iha ihb => simp only [ends, iha hr.1, List.flatMap_map, List.map_flatMap, ihb hr.2]
  | alt a b iha ihb => simp only [ends, iha hr.1, ihb hr.2, List.map_append]
  | rep lo hi a iha =>
    have hlen : (z.map f).after.length = z.after.length := List.length_map f
    simp only [ends, hlen]
    exact repEnds_map (iha hr) _ lo z

/-- A search does not change when characters are replaced by others of their classes. -/
theorem occurs_map {r : Pat} (hr : r.blindTo f) (b l : List Char) :
    occurs word r (b.map f) (l.map f) = occurs word r b l := by
  have hends : ∀ b l, (ends word r ⟨b.map f, l.map f⟩).isEmpty = (ends word r ⟨b, l⟩).isEmpty := by
    intro b l
    have := ends_map hf hr ⟨b, l⟩
    rw [Pos.map] at this
    rw [this, List.isEmpty_map]
  induction l generalizing b with
  | nil => exact congrArg (!·) (hends b [])
  | cons c l ih =>
    have hrest := ih (c :: b)
    have hhere := hends b (c :: l)
    simp only [List.map_cons] at hrest hhere ⊢
    rw [occurs, occurs, hhere, hrest]

end Renamed

end Rx
