import Mathlib

/-! What the code takes from Python itself. A `str` is the list of its code
points. A float is the rational it denotes or one of the special values, and
float arithmetic is exact arithmetic followed by the rounding of the platform.
The Unicode tables, the rounding, `repr` of a float, the order in which a set
is visited and SHA-256 are fields of `Python`, with the documented facts that
the proofs use; the string operations and `float(str)` are defined over them. -/

namespace LoanAgent

abbrev Text := List Char

instance Text.lawfulBEq : LawfulBEq Text := inferInstance

abbrev Bytes := List UInt8

/-- Microseconds, counted from the creation of the tables. -/
abbrev Time := ℤ

/-- A `datetime`: what the clock reads, and its offset from UTC in minutes unless it is naive. -/
structure Datetime where
  clock : Time
  offset : Option ℤ
  deriving DecidableEq

/-- The instant; a naive time counts as UTC. -/
def Datetime.instant (d : Datetime) : Time := d.clock - d.offset.getD 0 * 60000000

/-- `d == d'`: no naive time equals one with an offset. -/
def Datetime.equals (d d' : Datetime) : Bool := d.offset.isSome = d'.offset.isSome ∧ d.instant = d'.instant

/-- A float; a finite one stands as the rational it denotes (there is one zero). -/
inductive PyFloat
  | finite (q : ℚ)
  | inf (negative : Bool)
  | nan
  deriving DecidableEq

/-- A value as the extraction schema admits it and JSON stores it. -/
inductive FactValue
  | null
  | str (s : Text)
  | float (x : PyFloat)
  | int (n : ℤ)
  deriving DecidableEq

def asciiWord (c : Char) : Bool := c.isAlphanum || c == '_'

def asciiSpace (c : Char) : Bool :=
  c == ' ' || (9 ≤ c.toNat && c.toNat ≤ 13) || (28 ≤ c.toNat && c.toNat ≤ 31)

/-- White space of the C locale. -/
def cSpace (c : Char) : Bool := c == ' ' || (9 ≤ c.toNat && c.toNat ≤ 13)

def asciiDigit (c : Char) : Option (Fin 10) :=
  if c.isDigit then some (Fin.ofNat 10 (c.toNat - '0'.toNat)) else none

/-- The platform: Unicode character classes (`\w`, `str.isspace`, decimal
digits), `str.lower`, binary64 rounding, `repr` of a float and the integer that
the `repr` of a large integral float denotes, the visiting order of a set of
strings, `sha256(..).hexdigest()` and the ISO 8601 texts of the times in a log
record and in a JSON dump. -/
structure Python where
  isWord : Char → Bool
  isSpace : Char → Bool
  digit : Char → Option (Fin 10)
  lower : Text → Text
  round : ℚ → PyFloat
  repr : PyFloat → Text
  reprInt : ℤ → ℤ
  setOrder : List Text → List Text
  sha256 : Bytes → Text
  isoformat : Time → Text
  jsonDatetime : Datetime → Text
  word_ascii : ∀ c : Char, c.toNat < 128 → isWord c = asciiWord c
  space_ascii : ∀ c : Char, c.toNat < 128 → isSpace c = asciiSpace c
  digit_ascii : ∀ c : Char, c.toNat < 128 → digit c = asciiDigit c
  word_of_digit : ∀ c, (digit c).isSome → isWord c = true
  not_word_of_space : ∀ c, isSpace c = true → isWord c = false
  bullet_not_word : isWord '•' = false
  bullet_not_space : isSpace '•' = false
  round_round : ∀ q r, round q = .finite r → round r = .finite r
  round_reprInt : ∀ n : ℤ, round n = .finite n → round (reprInt n) = .finite n
  setOrder_perm : ∀ l, (setOrder l).Perm l

/-- `strip` with a given class of characters. -/
def stripBy (p : Char → Bool) (s : Text) : Text :=
  ((s.dropWhile p).reverse.dropWhile p).reverse

theorem stripBy_slice (p : Char → Bool) (s : Text) : stripBy p s <:+: s := by
  have hback : stripBy p s <+: s.dropWhile p := by
    have hsuffix := List.dropWhile_suffix p (l := (s.dropWhile p).reverse)
    rwa [← List.reverse_prefix, List.reverse_reverse] at hsuffix
  exact hback.isInfix.trans (List.dropWhile_suffix p).isInfix

/-- `sep.join(parts)`. -/
def join (sep : Text) : List Text → Text
  | [] => []
  | [s] => s
  | s :: rest => s ++ sep ++ join sep rest

theorem join_eq_intercalate (sep : Text) (l : List Text) : join sep l = sep.intercalate l := by
  induction l with
  | nil => rfl
  | cons s l ih =>
    cases l with
    | nil => rw [join, List.intercalate_singleton]
    | cons s' l =>
      rw [List.intercalate_cons_cons, ← ih]
      rfl

theorem mem_join {c : Char} {sep : Text} {parts : List Text} (h : c ∈ join sep parts) :
    c ∈ sep ∨ ∃ s ∈ parts, c ∈ s := by
  induction parts with
  | nil => cases h
  | cons s rest ih =>
    cases rest with
    | nil => exact .inr ⟨s, List.mem_cons_self, h⟩
    | cons t rest =>
      simp only [join, List.mem_append] at h ih
      rcases h with (h | h) | h
      · exact .inr ⟨s, List.mem_cons_self, h⟩
      · exact .inl h
      · rcases ih h with h | ⟨u, hu, h⟩
        · exact .inl h
        · exact .inr ⟨u, List.mem_cons_of_mem _ hu, h⟩

theorem length_le_join {sep : Text} {l : List Text} (h : ∀ s ∈ l, s ≠ []) : l.length ≤ (join sep l).length := by
  induction l with
  | nil => exact le_rfl
  | cons s l ih =>
    have hs : 1 ≤ s.length := List.length_pos_of_ne_nil (h s List.mem_cons_self)
    have hl := ih fun s hs => h s (List.mem_cons_of_mem _ hs)
    cases l with
    | nil => exact hs
    | cons s' l =>
      have hjoin : join sep (s :: s' :: l) = s ++ sep ++ join sep (s' :: l) := rfl
      rw [hjoin, List.length_append, List.length_append, List.length_cons]
      omega

/-- `needle in haystack`. -/
def containsText (haystack needle : Text) : Bool :=
  needle.isPrefixOf haystack || match haystack with
    | [] => false
    | _ :: rest => containsText rest needle

theorem containsText_iff {haystack needle : Text} : containsText haystack needle = true ↔ needle <:+: haystack := by
  induction haystack with
  | nil => simp [containsText]
  | cons c rest ih => rw [containsText, List.infix_cons_iff, Bool.or_eq_true, ih, List.isPrefixOf_iff_prefix]

def startsWith (s pre : Text) : Bool := pre.isPrefixOf s

def endsWith (s suffix : Text) : Bool := suffix.isSuffixOf s

/-- `str` of an integer. -/
def intText (n : ℤ) : Text :=
  if n < 0 then '-' :: Nat.toDigits 10 n.natAbs else Nat.toDigits 10 n.natAbs

/-! ### Dictionaries -/

/-- `d[k] = v` on a dictionary in insertion order. -/
def dictSet {α β : Type*} [DecidableEq α] (k : α) (v : β) : List (α × β) → List (α × β)
  | [] => [(k, v)]
  | (k', v') :: rest => if k' = k then (k, v) :: rest else (k', v') :: dictSet k v rest

/-- `d.setdefault(k, []).append(v)`. -/
def dictAppend {α β : Type*} [DecidableEq α] (k : α) (v : β) : List (α × List β) → List (α × List β)
  | [] => [(k, [v])]
  | (k', vs) :: rest => if k' = k then (k', vs ++ [v]) :: rest else (k', vs) :: dictAppend k v rest

/-- `d.get(k, [])`. -/
def dictValues {α β : Type*} [DecidableEq α] (d : List (α × List β)) (k : α) : List β :=
  (d.lookup k).getD []

theorem mem_dictValues_append {α β : Type*} [DecidableEq α] {d : List (α × List β)} {k k' : α}
    {v w : β} : w ∈ dictValues (dictAppend k v d) k' ↔ w ∈ dictValues d k' ∨ k' = k ∧ w = v := by
  induction d with
  | nil =>
    by_cases hk : k' = k
    · subst hk; simp [dictValues, dictAppend]
    · simp [dictValues, dictAppend, List.lookup, hk, beq_eq_false_iff_ne.mpr hk]
  | cons x d ih =>
    obtain ⟨k₀, vs⟩ := x
    simp only [dictValues, dictAppend] at ih ⊢
    split_ifs with hx
    · subst hx
      by_cases hk : k' = k₀
      · subst hk; simp
      · simp [List.lookup, hk, beq_eq_false_iff_ne.mpr hk]
    · by_cases hk : k' = k₀
      · subst hk; simp [hx]
      · simp only [List.lookup, beq_eq_false_iff_ne.mpr hk]
        exact ih

theorem mem_keys_of_mem_dictValues {α β : Type*} [DecidableEq α] {d : List (α × List β)} {k : α}
    {v : β} (h : v ∈ dictValues d k) : k ∈ d.map (·.1) := by
  unfold dictValues at h
  cases hl : d.lookup k with
  | none => simp [hl] at h
  | some vs =>
    obtain ⟨l, l', hd, -⟩ := List.lookup_eq_some_iff.mp hl
    simp [hd]

/-! ### Numbers -/

namespace PyFloat

def isNan : PyFloat → Bool
  | .nan => true
  | _ => false

def isFinite : PyFloat → Bool
  | .finite _ => true
  | _ => false

def abs : PyFloat → PyFloat
  | .finite q => .finite |q|
  | .inf _ => .inf false
  | .nan => .nan

/-- `a > b`; false when either is not a number. -/
def gt : PyFloat → PyFloat → Bool
  | .finite p, .finite q => decide (q < p)
  | .finite _, .inf n => n
  | .inf n, .finite _ => !n
  | .inf n, .inf m => !n && m
  | _, _ => false

/-- `max(a, b)`: the first argument unless the second is greater. -/
def max (a b : PyFloat) : PyFloat := if b.gt a then b else a

end PyFloat

/-- The decimal rounding of `q` at `10 ^ (-places)`, ties to even. -/
def roundHalfEven (places : ℕ) (q : ℚ) : ℚ :=
  let scaled := q * 10 ^ places
  let below := ⌊scaled⌋
  let rest := scaled - below
  let n := if rest < 1 / 2 then below else if 1 / 2 < rest then below + 1
    else if below % 2 = 0 then below else below + 1
  (n : ℚ) / 10 ^ places

def digitsValue (s : Text) : ℕ := s.foldl (fun n c => 10 * n + (c.toNat - '0'.toNat)) 0

/-- The exponent part of a decimal literal, which may be absent. -/
def parseExponent : Text → Option ℤ
  | [] => some 0
  | e :: rest =>
    if e = 'e' ∨ e = 'E' then
      match rest with
      | '-' :: ds => if ds ≠ [] ∧ ds.all Char.isDigit then some (-(digitsValue ds : ℤ)) else none
      | '+' :: ds => if ds ≠ [] ∧ ds.all Char.isDigit then some (digitsValue ds) else none
      | ds => if ds ≠ [] ∧ ds.all Char.isDigit then some (digitsValue ds) else none
    else none

/-- An unsigned decimal literal with optional fraction and exponent. -/
def parseDecimal (s : Text) : Option ℚ :=
  let whole := s.takeWhile Char.isDigit
  let rest := s.dropWhile Char.isDigit
  let (fraction, rest) := match rest with
    | '.' :: r => (r.takeWhile Char.isDigit, r.dropWhile Char.isDigit)
    | r => ([], r)
  if whole = [] ∧ fraction = [] then none
  else (parseExponent rest).map fun e =>
    (digitsValue (whole ++ fraction) : ℚ) * 10 ^ (e - (fraction.length : ℤ))

/-- Underscores are dropped; each must stand between two digits. -/
def dropUnderscores (prev : Char) : Text → Option Text
  | [] => if prev = '_' then none else some []
  | c :: rest =>
    if c = '_' then if prev.isDigit then dropUnderscores c rest else none
    else if prev = '_' ∧ !c.isDigit then none
    else (dropUnderscores c rest).map (c :: ·)

namespace Python
variable (py : Python)

/-- `s.strip()`. -/
def strip (s : Text) : Text := stripBy py.isSpace s

/-- `float(n)` of an integer; `none` stands for `OverflowError`. -/
def floatOfInt (n : ℤ) : Option PyFloat :=
  match py.round n with
  | .finite q => some (.finite q)
  | _ => none

/-- A character of a numeral: blanks and decimal digits of other scripts become ASCII. -/
def numeralChar (c : Char) : Char :=
  if c.toNat < 127 then c
  else if py.isSpace c then ' '
  else match py.digit c with
    | some d => Char.ofNat ('0'.toNat + d)
    | none => c

/-- A numeral as `float` and `int` read it, without the white space of C around it. -/
def numeral (s : Text) : Text := stripBy cSpace (s.map py.numeralChar)

/-- `float(s)` of a string; `none` stands for `ValueError`. -/
def floatOfText (s : Text) : Option PyFloat :=
  let (negative, body) := match py.numeral s with
    | '-' :: r => (true, r)
    | '+' :: r => (false, r)
    | r => (false, r)
  let word := body.map Char.toLower
  if word = "inf".toList ∨ word = "infinity".toList then some (.inf negative)
  else if word = "nan".toList then some .nan
  else (dropUnderscores ' ' body).bind fun digits => (parseDecimal digits).map fun q =>
    match py.round (if negative then -q else q) with
    | .finite q => .finite q
    | _ => .inf negative

def sub : PyFloat → PyFloat → PyFloat
  | .finite p, .finite q => py.round (p - q)
  | .nan, _ => .nan
  | _, .nan => .nan
  | .inf n, .finite _ => .inf n
  | .finite _, .inf n => .inf !n
  | .inf n, .inf m => if n = m then .nan else .inf n

/-- Division by a positive float, as in `_compare`. -/
def divPos : PyFloat → PyFloat → PyFloat
  | .finite p, .finite q => py.round (p / q)
  | .finite _, .inf _ => .finite 0
  | .inf n, .finite _ => .inf n
  | _, _ => .nan

/-- `round(100 * x, 2)`. -/
def percent : PyFloat → PyFloat
  | .finite q => match py.round (100 * q) with
    | .finite q => py.round (roundHalfEven 2 q)
    | x => x
  | x => x

/-- `str` of a value that JSON stores. -/
def strOf : FactValue → Text
  | .null => "None".toList
  | .str s => s
  | .float x => py.repr x
  | .int n => intText n

end Python

/-! ### A platform to evaluate on -/

/-- At most `n` decimals of a fraction. -/
def fractionDigits : ℕ → ℚ → Text
  | 0, _ => []
  | n + 1, q => if q = 0 then [] else
    Nat.toDigits 10 ⌊q * 10⌋.toNat ++ fractionDigits n (q * 10 - ⌊q * 10⌋)

def asciiRepr : PyFloat → Text
  | .finite q =>
    (if q < 0 then "-".toList else []) ++ Nat.toDigits 10 ⌊|q|⌋.toNat ++ ".".toList ++
      (match fractionDigits 17 (|q| - ⌊|q|⌋) with | [] => "0".toList | ds => ds)
  | .inf negative => if negative then "-inf".toList else "inf".toList
  | .nan => "nan".toList

theorem isDigit_of_mem_toDigits {n : ℕ} {c : Char} (h : c ∈ Nat.toDigits 10 n) : c.isDigit = true :=
  Nat.isDigit_of_mem_toDigits (by decide) (by decide) h

theorem mem_intText {n : ℤ} {c : Char} (h : c ∈ intText n) : c = '-' ∨ c.isDigit = true := by
  unfold intText at h
  split_ifs at h
  · exact (List.mem_cons.mp h).imp_right isDigit_of_mem_toDigits
  · exact .inr (isDigit_of_mem_toDigits h)

/-- A platform that agrees with CPython on ASCII text and on numbers that
binary64 holds exactly. -/
def asciiPython : Python where
  isWord := asciiWord
  isSpace := asciiSpace
  digit := asciiDigit
  lower s := s.map Char.toLower
  round q := if |q| < 2 ^ 1024 then .finite q else .inf (decide (q < 0))
  repr := asciiRepr
  reprInt n := n
  setOrder l := l
  sha256 _ := List.replicate 64 '0'
  isoformat := intText
  jsonDatetime d := intText d.clock ++ d.offset.elim [] fun minutes => 'Z' :: intText minutes
  word_ascii _ _ := rfl
  space_ascii _ _ := rfl
  digit_ascii _ _ := rfl
  word_of_digit c h := by
    unfold asciiDigit at h
    split_ifs at h with hd
    · simp [asciiWord, Char.isAlphanum, hd]
    · simp at h
  not_word_of_space c h := by
    simp only [asciiSpace, Bool.or_eq_true, beq_iff_eq, Bool.and_eq_true, decide_eq_true_eq] at h
    rcases h with (rfl | h) | h
    · decide
    all_goals
      have hc : c.toNat = c.val.toNat := rfl
      simp only [asciiWord, Char.isAlphanum, Char.isAlpha, Char.isUpper, Char.isLower, Char.isDigit,
        Bool.or_eq_false_iff, Bool.and_eq_false_iff, decide_eq_false_iff_not, beq_eq_false_iff_ne,
        ne_eq, UInt32.le_iff_toNat_le, ge_iff_le, not_and]
      have hA : 'A'.val.toNat = 65 := rfl
      have ha : 'a'.val.toNat = 97 := rfl
      have h0 : '0'.val.toNat = 48 := rfl
      refine ⟨⟨⟨by omega, by omega⟩, by omega⟩, ?_⟩
      rintro rfl
      revert h
      decide
  bullet_not_word := by decide
  bullet_not_space := by decide
  round_round q r h := by
    split_ifs at h with hq
    cases h
    simp [hq]
  round_reprInt _ h := h
  setOrder_perm _ := List.Perm.refl _

end LoanAgent
