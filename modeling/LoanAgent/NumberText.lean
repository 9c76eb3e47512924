import LoanAgent.Reconcile

/-! Numbers as texts. `float(str)` ignores case, and a text that it accepts is
made of ASCII characters, blanks and decimal digits, so lower-casing such a text
is lower-casing its ASCII letters. Proved: of two texts that are equal after
trimming and lower-casing, and that both read as numbers, the numbers are equal;
the decimal text of an integer reads as that integer; and digits with a fraction
always read as a number. -/

namespace LoanAgent

/-- Documented behaviour of CPython on the fields of `Python`: the case mapping
of characters without special casing, the sign of a rounded number, and that
the text of a float is not that of `None`. -/
structure CPython (py : Python) : Prop where
  lower_plain : ∀ s : Text, (∀ c ∈ s, c.toNat < 128 ∨ py.isSpace c ∨ (py.digit c).isSome) →
    py.lower s = s.map Char.toLower
  round_zero : py.round 0 = .finite 0
  round_nonneg : ∀ q, 0 ≤ q → (∃ r, 0 ≤ r ∧ py.round q = .finite r) ∨ py.round q = .inf false
  repr_ne_none : ∀ x, py.lower (py.strip (py.repr x)) ≠ py.lower (py.strip "None".toList)

/-! ### Letters -/

theorem toLower_of_not_upper {c : Char} (h : c.isUpper = false) : c.toLower = c := by
  unfold Char.toLower
  simp only [Char.isUpper, decide_eq_false_iff_not] at h
  rw [dif_neg]
  tauto

theorem toLower_toNat {c : Char} (h : c.isUpper = true) :
    65 ≤ c.toNat ∧ c.toNat ≤ 90 ∧ c.toLower.toNat = c.toNat + 32 := by
  simp only [Char.isUpper, decide_eq_true_eq, ge_iff_le, UInt32.le_iff_toNat_le] at h
  have hc : c.toNat = c.val.toNat := rfl
  have hA : 'A'.val.toNat = 65 := rfl
  have hZ : 'Z'.val.toNat = 90 := rfl
  refine ⟨by omega, by omega, ?_⟩
  have hle : 'A'.val ≤ c.val ∧ c.val ≤ 'Z'.val := by
    simp only [UInt32.le_iff_toNat_le]
    exact h
  unfold Char.toLower
  rw [dif_pos (by simpa [ge_iff_le] using hle)]
  have hadd : (c.val + ('a'.val - 'A'.val)).toNat = c.val.toNat + 32 := by
    rw [UInt32.toNat_add]
    have h32 : ('a'.val - 'A'.val).toNat = 32 := rfl
    omega
  exact hadd

/-- Lower-casing changes no character that is not an upper-case letter, and
makes of such a letter a character that is neither. -/
theorem toLower_eq_iff {c d : Char} (hd : d.toNat < 97 ∨ 122 < d.toNat) (hd' : d.isUpper = false) :
    c.toLower = d ↔ c = d := by
  cases hc : c.isUpper with
  | false => rw [toLower_of_not_upper hc]
  | true =>
    obtain ⟨h1, h2, h3⟩ := toLower_toNat hc
    refine iff_of_false (fun h => ?_) fun h => ?_
    · rw [h] at h3
      omega
    · rw [h, hd'] at hc
      cases hc

theorem isDigit_toLower (c : Char) : c.toLower.isDigit = c.isDigit := by
  cases hc : c.isUpper with
  | false => rw [toLower_of_not_upper hc]
  | true =>
    obtain ⟨h1, h2, h3⟩ := toLower_toNat hc
    have h9 : '9'.toNat = 57 := rfl
    rw [Bool.eq_iff_iff, Char.isDigit_iff_toNat, Char.isDigit_iff_toNat]
    omega

theorem not_upper_of_digit {c : Char} (h : c.isDigit = true) : c.isUpper = false := by
  cases hc : c.isUpper with
  | false => rfl
  | true =>
    obtain ⟨h1, -, -⟩ := toLower_toNat hc
    have h9 : '9'.toNat = 57 := rfl
    have := Char.isDigit_iff_toNat.mp h
    omega

theorem map_toLower_of_digits {s : Text} (h : ∀ c ∈ s, c.isDigit = true) : s.map Char.toLower = s :=
  (List.map_congr_left fun c hc => toLower_of_not_upper (not_upper_of_digit (h c hc))).trans (List.map_id s)

/-! ### `float(str)` piece by piece -/

section Pieces
variable (py : Python)

/-- A numeral behind its sign. -/
def readUnsigned (negative : Bool) (body : Text) : Option PyFloat :=
  let word := body.map Char.toLower
  if word = "inf".toList ∨ word = "infinity".toList then some (.inf negative)
  else if word = "nan".toList then some .nan
  else (dropUnderscores ' ' body).bind fun digits => (parseDecimal digits).map fun q =>
    match py.round (if negative then -q else q) with
    | .finite q => .finite q
    | _ => .inf negative

/-- The sign of a numeral and what stands behind it. -/
def signOf : Text → Bool × Text
  | '-' :: r => (true, r)
  | '+' :: r => (false, r)
  | r => (false, r)

def readNumeral (s : Text) : Option PyFloat := readUnsigned py (signOf s).1 (signOf s).2

theorem floatOfText_eq (s : Text) : py.floatOfText s = readNumeral py (py.numeral s) := rfl

end Pieces

/-! ### Case does not matter -/

section Case
variable {py : Python}

theorem numeralChar_ascii {c : Char} (h : c.toNat < 127) : py.numeralChar c = c := if_pos h

theorem numeralChar_eq_self {c : Char} (hspace : py.isSpace c = false) (hdigit : py.digit c = none) :
    py.numeralChar c = c := by
  simp [Python.numeralChar, hspace, hdigit]

theorem numeralChar_toLower (c : Char) : py.numeralChar c.toLower = (py.numeralChar c).toLower := by
  have hdigits : ∀ d : Fin 10, Char.ofNat ('0'.toNat + d) = (Char.ofNat ('0'.toNat + d)).toLower := by
    decide
  cases hc : c.isUpper with
  | false =>
    rw [toLower_of_not_upper hc]
    unfold Python.numeralChar
    split_ifs
    · exact (toLower_of_not_upper hc).symm
    · rfl
    · split
      · exact hdigits _
      · exact (toLower_of_not_upper hc).symm
  | true =>
    obtain ⟨h1, h2, h3⟩ := toLower_toNat hc
    rw [numeralChar_ascii (by omega), numeralChar_ascii (by omega)]

theorem map_numeralChar_toLower (s : Text) :
    (s.map Char.toLower).map py.numeralChar = (s.map py.numeralChar).map Char.toLower := by
  simp only [List.map_map]
  exact List.map_congr_left fun c _ => numeralChar_toLower c

theorem stripBy_map {p : Char → Bool} {f : Char → Char} (h : ∀ c, p (f c) = p c) (s : Text) :
    stripBy p (s.map f) = (stripBy p s).map f := by
  have hdrop : ∀ s : Text, (s.map f).dropWhile p = (s.dropWhile p).map f := by
    intro s
    rw [List.dropWhile_map]
    congr 2
    exact funext h
  simp only [stripBy, hdrop, ← List.map_reverse]

theorem cSpace_iff {c : Char} : cSpace c = true ↔ c.toNat = 32 ∨ 9 ≤ c.toNat ∧ c.toNat ≤ 13 := by
  have hblank : c = ' ' ↔ c.toNat = 32 :=
    ⟨fun h => by rw [h]; rfl, fun h => Char.ext (UInt32.toNat_inj.mp h)⟩
  simp [cSpace, hblank]

theorem cSpace_toLower (c : Char) : cSpace c.toLower = cSpace c := by
  cases hc : c.isUpper with
  | false => rw [toLower_of_not_upper hc]
  | true =>
    obtain ⟨h1, h2, h3⟩ := toLower_toNat hc
    rw [Bool.eq_iff_iff, cSpace_iff, cSpace_iff]
    omega

theorem numeral_toLower (s : Text) : py.numeral (s.map Char.toLower) = (py.numeral s).map Char.toLower := by
  unfold Python.numeral
  rw [map_numeralChar_toLower, stripBy_map cSpace_toLower]

theorem dropUnderscores_toLower (prev : Char) (s : Text) :
    dropUnderscores prev.toLower (s.map Char.toLower) =
      (dropUnderscores prev s).map (List.map Char.toLower) := by
  have hunder : ∀ c : Char, c.toLower = '_' ↔ c = '_' := fun c => toLower_eq_iff (by decide) (by decide)
  induction s generalizing prev with
  | nil => simp only [List.map_nil, dropUnderscores, hunder]; split_ifs <;> rfl
  | cons c s ih =>
    simp only [List.map_cons, dropUnderscores, hunder, isDigit_toLower, ih]
    split_ifs
    · rfl
    · rfl
    · rfl
    · cases dropUnderscores c s <;> rfl

theorem takeWhile_digits (s : Text) : (s.map Char.toLower).takeWhile Char.isDigit = s.takeWhile Char.isDigit := by
  rw [List.takeWhile_map]
  have hp : Char.isDigit ∘ Char.toLower = Char.isDigit := funext isDigit_toLower
  rw [hp]
  exact map_toLower_of_digits (List.all_eq_true.mp List.all_takeWhile)

theorem dropWhile_digits (s : Text) :
    (s.map Char.toLower).dropWhile Char.isDigit = (s.dropWhile Char.isDigit).map Char.toLower := by
  rw [List.dropWhile_map]
  have hp : Char.isDigit ∘ Char.toLower = Char.isDigit := funext isDigit_toLower
  rw [hp]

theorem all_digits_toLower (s : Text) : (s.map Char.toLower).all Char.isDigit = s.all Char.isDigit := by
  rw [List.all_map]
  congr 1
  exact funext isDigit_toLower

theorem digits_toLower {s : Text} (h : s.all Char.isDigit = true) : s.map Char.toLower = s :=
  map_toLower_of_digits (List.all_eq_true.mp h)

theorem signOf_toLower (s : Text) :
    signOf (s.map Char.toLower) = ((signOf s).1, (signOf s).2.map Char.toLower) := by
  have hminus : ∀ c : Char, c.toLower = '-' ↔ c = '-' := fun c => toLower_eq_iff (by decide) (by decide)
  have hplus : ∀ c : Char, c.toLower = '+' ↔ c = '+' := fun c => toLower_eq_iff (by decide) (by decide)
  have hother : ∀ (c : Char) (r : Text), c ≠ '-' → c ≠ '+' → signOf (c :: r) = (false, c :: r) := by
    intro c r h1 h2
    unfold signOf
    split
    next h => exact absurd (List.cons.inj h).1 h1
    next h => exact absurd (List.cons.inj h).1 h2
    next => rfl
  cases s with
  | nil => rfl
  | cons c r =>
    by_cases h1 : c = '-'
    · subst h1; rfl
    by_cases h2 : c = '+'
    · subst h2; rfl
    rw [List.map_cons, hother _ _ (mt (hminus c).mp h1) (mt (hplus c).mp h2), hother c r h1 h2]
    rfl

theorem exponent_toLower (c : Char) : (c.toLower = 'e' ∨ c.toLower = 'E') ↔ (c = 'e' ∨ c = 'E') := by
  cases hc : c.isUpper with
  | false => rw [toLower_of_not_upper hc]
  | true =>
    obtain ⟨h1, h2, h3⟩ := toLower_toNat hc
    have heq : ∀ d e : Char, d = e ↔ d.toNat = e.toNat := fun d e =>
      ⟨fun h => by rw [h], fun h => Char.ext (UInt32.toNat_inj.mp h)⟩
    have he : 'e'.toNat = 101 := rfl
    have hE : 'E'.toNat = 69 := rfl
    simp only [heq]
    omega

theorem parseExponent_cons (e : Char) (rest : Text) :
    parseExponent (e :: rest) = if e = 'e' ∨ e = 'E' then
      if (signOf rest).2 ≠ [] ∧ (signOf rest).2.all Char.isDigit then
        some (if (signOf rest).1 then -(digitsValue (signOf rest).2 : ℤ) else digitsValue (signOf rest).2)
      else none else none := by
  by_cases he : e = 'e' ∨ e = 'E'
  · simp only [parseExponent, if_pos he]
    split
    · rfl
    · rfl
    next ds h1 h2 =>
      have hs : signOf rest = (false, rest) := by
        unfold signOf
        split
        · exact absurd rfl (h1 _)
        · exact absurd rfl (h2 _)
        · rfl
      rw [hs]
      rfl
  · simp only [parseExponent, if_neg he]

theorem parseExponent_toLower (s : Text) : parseExponent (s.map Char.toLower) = parseExponent s := by
  cases s with
  | nil => rfl
  | cons e rest =>
    rw [List.map_cons, parseExponent_cons, parseExponent_cons]
    simp only [exponent_toLower, signOf_toLower, all_digits_toLower, ne_eq, List.map_eq_nil_iff]
    by_cases hds : (signOf rest).2.all Char.isDigit = true
    · rw [digits_toLower hds]
    · simp only [hds, Bool.false_eq_true, and_false, if_false]

/-- The digits behind the point, and what follows them. -/
def fractionOf (s : Text) : Text × Text :=
  match s with
  | '.' :: r => (r.takeWhile Char.isDigit, r.dropWhile Char.isDigit)
  | r => ([], r)

theorem parseDecimal_eq (s : Text) : parseDecimal s =
    if s.takeWhile Char.isDigit = [] ∧ (fractionOf (s.dropWhile Char.isDigit)).1 = [] then none
    else (parseExponent (fractionOf (s.dropWhile Char.isDigit)).2).map fun e =>
      (digitsValue (s.takeWhile Char.isDigit ++ (fractionOf (s.dropWhile Char.isDigit)).1) : ℚ) *
        10 ^ (e - ((fractionOf (s.dropWhile Char.isDigit)).1.length : ℤ)) := rfl

theorem fractionOf_toLower (s : Text) :
    fractionOf (s.map Char.toLower) = ((fractionOf s).1, (fractionOf s).2.map Char.toLower) := by
  have hother : ∀ (c : Char) (r : Text), c ≠ '.' → fractionOf (c :: r) = ([], c :: r) := by
    intro c r h
    unfold fractionOf
    split
    next h' => exact absurd (List.cons.inj h').1 h
    next => rfl
  cases s with
  | nil => rfl
  | cons c r =>
    by_cases h : c = '.'
    · subst h
      have hdot : ('.' :: r).map Char.toLower = '.' :: r.map Char.toLower := rfl
      rw [hdot]
      simp only [fractionOf, takeWhile_digits, dropWhile_digits]
    · have h' : c.toLower ≠ '.' := mt (toLower_eq_iff (by decide) (by decide)).mp h
      rw [List.map_cons, hother _ _ h', hother c r h]
      rfl

theorem parseDecimal_toLower (s : Text) : parseDecimal (s.map Char.toLower) = parseDecimal s := by
  simp only [parseDecimal_eq, takeWhile_digits, dropWhile_digits, fractionOf_toLower, parseExponent_toLower]

theorem readNumeral_toLower (s : Text) :
    readNumeral py (s.map Char.toLower) = readNumeral py s := by
  have hlower : ∀ c : Char, c.toLower.toLower = c.toLower := by
    intro c
    cases hc : c.isUpper with
    | false => rw [toLower_of_not_upper hc, toLower_of_not_upper hc]
    | true =>
      refine toLower_of_not_upper ?_
      cases hl : c.toLower.isUpper with
      | false => rfl
      | true =>
        have h1 := toLower_toNat hc
        have h2 := toLower_toNat hl
        omega
  have hword : ∀ s : Text, (s.map Char.toLower).map Char.toLower = s.map Char.toLower := by
    intro s
    rw [List.map_map]
    exact List.map_congr_left fun c _ => hlower c
  have hblank : (' ' : Char).toLower = ' ' := rfl
  simp only [readNumeral, signOf_toLower, readUnsigned, hword]
  have hdrop := dropUnderscores_toLower ' ' (signOf s).2
  rw [hblank] at hdrop
  rw [hdrop]
  cases dropUnderscores ' ' (signOf s).2 with
  | none => rfl
  | some digits => simp only [Option.map_some, Option.bind_some, parseDecimal_toLower]

/-- The case of its letters does not matter to a number. -/
theorem floatOfText_toLower (s : Text) : py.floatOfText (s.map Char.toLower) = py.floatOfText s := by
  rw [floatOfText_eq, floatOfText_eq, numeral_toLower, readNumeral_toLower]

/-! ### Which texts are numbers -/

theorem mem_dropWhile {p : Char → Bool} {c : Char} {s : Text} (h : c ∈ s) (hp : p c = false) :
    c ∈ s.dropWhile p := by
  rw [← List.takeWhile_append_dropWhile (p := p) (l := s), List.mem_append] at h
  refine h.resolve_left fun h => ?_
  rw [List.all_eq_true.mp List.all_takeWhile c h] at hp
  cases hp

theorem mem_stripBy {p : Char → Bool} {c : Char} {s : Text} (h : c ∈ s) (hp : p c = false) :
    c ∈ stripBy p s :=
  List.mem_reverse.mpr (mem_dropWhile (List.mem_reverse.mpr (mem_dropWhile h hp)) hp)

theorem isDigit_ascii {c : Char} (h : c.isDigit = true) : c.toNat < 128 := by
  have h9 : '9'.toNat = 57 := rfl
  have := Char.isDigit_iff_toNat.mp h
  omega

theorem mem_signOf {c : Char} {s : Text} (h : c ∈ s) (hc : 128 ≤ c.toNat) : c ∈ (signOf s).2 := by
  unfold signOf
  split
  all_goals
    simp only [List.mem_cons] at h ⊢
    try
      refine h.resolve_left ?_
      rintro rfl
      revert hc
      decide
  exact h

theorem ascii_of_parseExponent {s : Text} {n : ℤ} (h : parseExponent s = some n) {c : Char} (hc : c ∈ s) :
    c.toNat < 128 := by
  cases s with
  | nil => cases hc
  | cons e rest =>
    rw [parseExponent_cons] at h
    split_ifs at h with he hds
    all_goals
      rcases List.mem_cons.mp hc with rfl | hc
      · rcases he with rfl | rfl <;> decide
      · by_contra hlarge
        exact hlarge (isDigit_ascii (List.all_eq_true.mp hds.2 c (mem_signOf hc (by omega))))

theorem ascii_of_parseDecimal {s : Text} {q : ℚ} (h : parseDecimal s = some q) {c : Char} (hc : c ∈ s) :
    c.toNat < 128 := by
  rw [parseDecimal_eq] at h
  split_ifs at h
  obtain ⟨n, hn, -⟩ := Option.map_eq_some_iff.mp h
  rw [← List.takeWhile_append_dropWhile (p := Char.isDigit) (l := s), List.mem_append] at hc
  have hdigit : ∀ t : Text, c ∈ t.takeWhile Char.isDigit → c.toNat < 128 := fun t ht =>
    isDigit_ascii (List.all_eq_true.mp List.all_takeWhile c ht)
  rcases hc with hc | hc
  · exact hdigit s hc
  · generalize s.dropWhile Char.isDigit = t at hn hc
    unfold fractionOf at hn
    split at hn
    next r =>
      rcases List.mem_cons.mp hc with rfl | hc
      · decide
      · rw [← List.takeWhile_append_dropWhile (p := Char.isDigit) (l := r), List.mem_append] at hc
        exact hc.elim (hdigit r) (ascii_of_parseExponent hn)
    · exact ascii_of_parseExponent hn hc

theorem mem_dropUnderscores {prev c : Char} {s t : Text} (h : dropUnderscores prev s = some t)
    (hc : c ∈ s) (hne : c ≠ '_') : c ∈ t := by
  induction s generalizing prev t with
  | nil => cases hc
  | cons d s ih =>
    simp only [dropUnderscores] at h
    split_ifs at h with hd
    · rcases List.mem_cons.mp hc with rfl | hc
      · exact absurd hd hne
      · exact ih h hc
    · obtain ⟨u, hu, rfl⟩ := Option.map_eq_some_iff.mp h
      rcases List.mem_cons.mp hc with rfl | hc
      · exact List.mem_cons_self
      · exact List.mem_cons_of_mem _ (ih hu hc)

theorem ascii_of_readUnsigned {negative : Bool} {s : Text} {x : PyFloat}
    (h : readUnsigned py negative s = some x) {c : Char} (hc : c ∈ s) : c.toNat < 128 := by
  have hword : ∀ w : Text, w.all (fun d => decide (d.toNat < 128)) = true →
      s.map Char.toLower = w → c.toNat < 128 := by
    intro w hw heq
    have hmem : c.toLower ∈ w := heq ▸ List.mem_map_of_mem hc
    have hlt := of_decide_eq_true (List.all_eq_true.mp hw _ hmem)
    cases hup : c.isUpper with
    | false => rwa [toLower_of_not_upper hup] at hlt
    | true => exact (toLower_toNat hup).2.1.trans_lt (by decide)
  by_cases h1 : s.map Char.toLower = "inf".toList ∨ s.map Char.toLower = "infinity".toList
  · exact h1.elim (hword _ (by decide)) (hword _ (by decide))
  by_cases h2 : s.map Char.toLower = "nan".toList
  · exact hword _ (by decide) h2
  simp only [readUnsigned, if_neg h1, if_neg h2] at h
  obtain ⟨digits, hd, h⟩ := Option.bind_eq_some_iff.mp h
  obtain ⟨q, hq, -⟩ := Option.map_eq_some_iff.mp h
  by_cases hu : c = '_'
  · subst hu
    decide
  · exact ascii_of_parseDecimal hq (mem_dropUnderscores hd hc hu)

/-- A number is written in ASCII characters, blanks and decimal digits. -/
theorem plain_of_floatOfText {s : Text} {x : PyFloat} (h : py.floatOfText s = some x) :
    ∀ c ∈ s, c.toNat < 128 ∨ py.isSpace c ∨ (py.digit c).isSome := by
  intro c hc
  by_contra hno
  simp only [not_or, Bool.not_eq_true, Option.isSome_eq_false_iff, Option.isNone_iff_eq_none] at hno
  obtain ⟨hlarge, hspace, hdigit⟩ := hno
  have hsame : py.numeralChar c = c := numeralChar_eq_self hspace hdigit
  have hblank : cSpace c = false := Bool.eq_false_iff.mpr fun h => by
    have := cSpace_iff.mp h
    omega
  rw [floatOfText_eq] at h
  refine hlarge (ascii_of_readUnsigned h (mem_signOf (mem_stripBy ?_ hblank) (by omega)))
  exact List.mem_map.mpr ⟨c, hc, hsame⟩

/-- The text that is compared. -/
def comparedText (py : Python) (v : FactValue) : Text := py.lower (py.strip (py.strOf v))

/-- A text that reads as a number is lowered letter by letter. -/
theorem lower_of_number (hpy : CPython py) {s : Text} {x : PyFloat}
    (h : py.floatOfText (plainNumber py s) = some x) :
    py.lower (py.strip s) = (py.strip s).map Char.toLower := by
  refine hpy.lower_plain _ fun c hc => ?_
  by_cases hcomma : c = ','
  · exact .inl (by rw [hcomma]; decide)
  by_cases hdollar : c = '$'
  · exact .inl (by rw [hdollar]; decide)
  refine plain_of_floatOfText h c (mem_dropWhile (List.mem_filter.mpr ⟨hc, ?_⟩) ?_)
  · simpa using hcomma
  · simpa using hdollar

/-- Nor does the case matter before commas and dollar signs are taken out. -/
theorem floatOfText_plain_toLower (u : Text) :
    py.floatOfText (((u.map Char.toLower).filter (· ≠ ',')).dropWhile (· = '$')) =
      py.floatOfText ((u.filter (· ≠ ',')).dropWhile (· = '$')) := by
  have hcomma : ∀ c : Char, c.toLower = ',' ↔ c = ',' := fun c => toLower_eq_iff (by decide) (by decide)
  have hdollar : ∀ c : Char, c.toLower = '$' ↔ c = '$' := fun c => toLower_eq_iff (by decide) (by decide)
  have hfilter : (u.map Char.toLower).filter (· ≠ ',') = (u.filter (· ≠ ',')).map Char.toLower := by
    rw [List.filter_map]
    congr 1
    exact List.filter_congr fun c _ => by simp [hcomma]
  have hdrop : ∀ v : Text, (v.map Char.toLower).dropWhile (· = '$') =
      (v.dropWhile (· = '$')).map Char.toLower := by
    intro v
    rw [List.dropWhile_map]
    congr 2
    funext c
    simp [hdollar]
  rw [hfilter, hdrop, floatOfText_toLower]

/-- Two texts that are the same up to blanks around them and case, and that both
read as numbers, read as the same number. -/
theorem number_of_text (hpy : CPython py) {s t : Text} {x y : PyFloat}
    (hs : py.floatOfText (plainNumber py s) = some x) (ht : py.floatOfText (plainNumber py t) = some y)
    (h : py.lower (py.strip s) = py.lower (py.strip t)) : x = y := by
  rw [lower_of_number hpy hs, lower_of_number hpy ht] at h
  have hx : py.floatOfText _ = _ := floatOfText_plain_toLower (py.strip s)
  rw [h, floatOfText_plain_toLower] at hx
  exact Option.some.inj (hs.symm.trans (hx.symm.trans ht))

/-! ### Integers as texts -/

variable (py) in
/-- A character of an integer is neither blank nor one that is filtered out. -/
theorem plain_digit {c : Char} (h : c = '-' ∨ c.isDigit = true) :
    py.isSpace c = false ∧ c ≠ ' ' ∧ c ≠ ',' ∧ c ≠ '$' := by
  rcases h with rfl | hc
  · exact ⟨by rw [py.space_ascii '-' (by decide)]; rfl, by decide, by decide, by decide⟩
  · have hrange := Char.isDigit_iff_toNat.mp hc
    have h0 : '0'.toNat = 48 := rfl
    have hne : ∀ d : Char, d.toNat < 48 → c ≠ d := by
      rintro d hd rfl
      omega
    refine ⟨?_, hne _ (by decide), hne _ (by decide), hne _ (by decide)⟩
    rw [py.space_ascii c (isDigit_ascii hc)]
    simp only [asciiSpace, Bool.or_eq_false_iff, beq_eq_false_iff_ne, ne_eq]
    exact ⟨⟨hne _ (by decide), by simp; omega⟩, by simp; omega⟩

theorem numeralChar_digit {c : Char} (h : c = '-' ∨ c.isDigit = true) : py.numeralChar c = c := by
  refine numeralChar_ascii ?_
  rcases h with rfl | hc
  · decide
  · have h9 : '9'.toNat = 57 := rfl
    have := Char.isDigit_iff_toNat.mp hc
    omega

theorem cSpace_digit {c : Char} (h : c = '-' ∨ c.isDigit = true) : cSpace c = false := by
  rw [Bool.eq_false_iff, ne_eq, cSpace_iff]
  rcases h with rfl | hc
  · decide
  · have h0 : '0'.toNat = 48 := rfl
    have := Char.isDigit_iff_toNat.mp hc
    omega

theorem dropWhile_of_none {p : Char → Bool} {s : Text} (h : ∀ c ∈ s, p c = false) : s.dropWhile p = s := by
  cases s with
  | nil => rfl
  | cons c s => simp [h c List.mem_cons_self]

theorem stripBy_of_none {p : Char → Bool} {s : Text} (h : ∀ c ∈ s, p c = false) : stripBy p s = s := by
  unfold stripBy
  rw [dropWhile_of_none h, dropWhile_of_none fun c hc => h c (List.mem_reverse.mp hc), List.reverse_reverse]

theorem dropUnderscores_plain {prev : Char} {s : Text} (hprev : prev ≠ '_') (h : '_' ∉ s) :
    dropUnderscores prev s = some s := by
  induction s generalizing prev with
  | nil => simp [dropUnderscores, hprev]
  | cons c s ih =>
    obtain ⟨hc, hs⟩ := List.ne_and_not_mem_of_not_mem_cons h
    simp [dropUnderscores, hc.symm, hprev, ih hc.symm hs]

theorem dropUnderscores_digits {prev : Char} {s : Text} (hprev : prev ≠ '_')
    (h : ∀ c ∈ s, c.isDigit = true) : dropUnderscores prev s = some s :=
  dropUnderscores_plain hprev fun hmem => absurd (h '_' hmem) (by decide)

theorem parseDecimal_toDigits (n : ℕ) : parseDecimal (Nat.toDigits 10 n) = some (n : ℚ) := by
  have hdigits : ∀ c ∈ Nat.toDigits 10 n, c.isDigit = true := fun c hc => isDigit_of_mem_toDigits hc
  have htake : (Nat.toDigits 10 n).takeWhile Char.isDigit = Nat.toDigits 10 n :=
    List.takeWhile_eq_self_iff.mpr hdigits
  have hdrop : (Nat.toDigits 10 n).dropWhile Char.isDigit = [] := List.dropWhile_eq_nil_iff.mpr hdigits
  have hvalue : digitsValue (Nat.toDigits 10 n) = n := Nat.ofDigitChars_ten_toDigits
  rw [parseDecimal_eq, htake, hdrop, if_neg fun h => Nat.toDigits_ne_nil h.1]
  simp [fractionOf, parseExponent, hvalue]

theorem readUnsigned_toDigits (negative : Bool) (n : ℕ) : readUnsigned py negative (Nat.toDigits 10 n) =
    some (match py.round (if negative then -(n : ℚ) else n) with
      | .finite q => .finite q
      | _ => .inf negative) := by
  have hdigits : ∀ c ∈ Nat.toDigits 10 n, c.isDigit = true := fun c hc => isDigit_of_mem_toDigits hc
  have hword : ∀ w : Text, w.any Char.isDigit = false → (Nat.toDigits 10 n).map Char.toLower ≠ w := by
    rintro w hw rfl
    rw [map_toLower_of_digits hdigits] at hw
    obtain ⟨c, hc⟩ := List.exists_mem_of_ne_nil _ (Nat.toDigits_ne_nil (n := n) (b := 10))
    exact List.any_eq_false.mp hw c hc (hdigits c hc)
  unfold readUnsigned
  dsimp only
  rw [if_neg (not_or.mpr ⟨hword _ (by decide), hword _ (by decide)⟩), if_neg (hword _ (by decide)),
    dropUnderscores_digits (by decide) hdigits, Option.bind_some, parseDecimal_toDigits, Option.map_some]

theorem plainNumber_intText (n : ℤ) : plainNumber py (intText n) = intText n := by
  have hplain := fun c hc => plain_digit py (mem_intText (n := n) (c := c) hc)
  unfold plainNumber Python.strip
  rw [stripBy_of_none fun c hc => (hplain c hc).1, List.filter_eq_self.mpr fun c hc => by
    simpa using (hplain c hc).2.2.1, dropWhile_of_none fun c hc => by simpa using (hplain c hc).2.2.2]

theorem numeral_intText (n : ℤ) : py.numeral (intText n) = intText n := by
  have hmap : (intText n).map py.numeralChar = intText n :=
    (List.map_congr_left fun _ hc => numeralChar_digit (mem_intText hc)).trans (List.map_id _)
  unfold Python.numeral
  rw [hmap, stripBy_of_none fun c hc => cSpace_digit (mem_intText hc)]

/-- The text of an integer that fits a float reads as that float. -/
theorem floatOfText_intText {n : ℤ} {x : PyFloat} (h : py.floatOfInt n = some x) :
    py.floatOfText (plainNumber py (intText n)) = some x := by
  rw [plainNumber_intText, floatOfText_eq, numeral_intText]
  have hfloat : py.round n = x ∧ ∃ q, x = .finite q := by
    unfold Python.floatOfInt at h
    split at h
    next q hq =>
      cases h
      exact ⟨hq, q, rfl⟩
    · cases h
  obtain ⟨hround, q, rfl⟩ := hfloat
  unfold readNumeral
  by_cases hn : n < 0
  · have htext : intText n = '-' :: Nat.toDigits 10 n.natAbs := if_pos hn
    have hcast : -((n.natAbs : ℕ) : ℚ) = n := by
      rw [Nat.cast_natAbs, abs_of_neg hn]
      simp
    rw [htext]
    simp only [signOf, readUnsigned_toDigits, if_true, hcast, hround]
  · have htext : intText n = Nat.toDigits 10 n.natAbs := if_neg hn
    have hcast : ((n.natAbs : ℕ) : ℚ) = n := by
      rw [Nat.cast_natAbs, abs_of_nonneg (by omega)]
    have hsign : signOf (Nat.toDigits 10 n.natAbs) = (false, Nat.toDigits 10 n.natAbs) := by
      unfold signOf
      split
      next h => exact absurd (isDigit_of_mem_toDigits (h ▸ List.mem_cons_self)) (by decide)
      next h => exact absurd (isDigit_of_mem_toDigits (h ▸ List.mem_cons_self)) (by decide)
      next => rfl
    rw [htext, hsign]
    simp only [readUnsigned_toDigits, Bool.false_eq_true, if_false, hcast, hround]

/-! ### Decimals as texts -/

/-- Digits, a point with digits behind it, or both; or nothing at all. -/
structure DecimalParts (digit : Char → Bool) (d f : Text) : Prop where
  whole : ∀ c ∈ d, digit c = true
  fraction : f = [] ∨ ∃ ds, f = '.' :: ds ∧ ds ≠ [] ∧ ∀ c ∈ ds, digit c = true

theorem DecimalParts.chars {digit : Char → Bool} {d f : Text} (h : DecimalParts digit d f) :
    ∀ c ∈ d ++ f, digit c = true ∨ c = '.' := by
  refine List.forall_mem_append.mpr ⟨fun c hc => .inl (h.whole c hc), ?_⟩
  rcases h.fraction with rfl | ⟨ds, rfl, -, hds⟩
  · simp
  · exact List.forall_mem_cons.mpr ⟨.inr rfl, fun c hc => .inl (hds c hc)⟩

theorem DecimalParts.parseDecimal_isSome {d f : Text} (h : DecimalParts Char.isDigit d f)
    (hne : d ++ f ≠ []) : (parseDecimal (d ++ f)).isSome = true := by
  have hhead : f.takeWhile Char.isDigit = [] ∧ f.dropWhile Char.isDigit = f := by
    rcases h.fraction with rfl | ⟨ds, rfl, -⟩ <;> exact ⟨rfl, rfl⟩
  have htake : (d ++ f).takeWhile Char.isDigit = d := by
    rw [List.takeWhile_append_of_pos h.whole, hhead.1, List.append_nil]
  have hdrop : (d ++ f).dropWhile Char.isDigit = f := by
    rw [List.dropWhile_append_of_pos h.whole, hhead.2]
  have hfraction : (d = [] → (fractionOf f).1 ≠ []) ∧ (fractionOf f).2 = [] := by
    rcases h.fraction with rfl | ⟨ds, rfl, hds, hall⟩
    · exact ⟨fun h => absurd h (by simpa using hne), rfl⟩
    · have h1 : (fractionOf ('.' :: ds)).1 = ds := List.takeWhile_eq_self_iff.mpr hall
      have h2 : (fractionOf ('.' :: ds)).2 = [] := List.dropWhile_eq_nil_iff.mpr hall
      exact ⟨fun _ => by rwa [h1], h2⟩
  rw [parseDecimal_eq, htake, hdrop, if_neg fun h => hfraction.1 h.1 h.2, hfraction.2]
  rfl

theorem DecimalParts.readNumeral_isSome {d f : Text} (h : DecimalParts Char.isDigit d f)
    (hne : d ++ f ≠ []) : (readNumeral py (d ++ f)).isSome = true := by
  have hnot : ∀ c : Char, c.isDigit = false → c ≠ '.' → c ∉ d ++ f := fun c hc hdot hmem =>
    (h.chars c hmem).elim (fun hd => by rw [hc] at hd; cases hd) hdot
  have hsign : signOf (d ++ f) = (false, d ++ f) := by
    unfold signOf
    split
    next heq => exact absurd (heq ▸ List.mem_cons_self) (hnot '-' rfl (by decide))
    next heq => exact absurd (heq ▸ List.mem_cons_self) (hnot '+' rfl (by decide))
    next => rfl
  have hlower : (d ++ f).map Char.toLower = d ++ f := by
    refine (List.map_congr_left fun c hc => toLower_of_not_upper ?_).trans (List.map_id _)
    rcases h.chars c hc with hd | rfl
    · exact not_upper_of_digit hd
    · rfl
  have hword : ∀ w : Text, 'n' ∈ w → d ++ f ≠ w := by
    rintro w hw rfl
    exact hnot 'n' rfl (by decide) hw
  obtain ⟨q, hq⟩ := Option.isSome_iff_exists.mp (h.parseDecimal_isSome hne)
  unfold readNumeral readUnsigned
  rw [hsign]
  dsimp only
  rw [hlower, if_neg (not_or.mpr ⟨hword _ (by decide), hword _ (by decide)⟩), if_neg (hword _ (by decide)),
    dropUnderscores_plain (by decide) (hnot '_' rfl (by decide)), Option.bind_some, hq]
  rfl

/-- `float(str)` reads digits of any script. -/
theorem DecimalParts.floatOfText_isSome {d f : Text} (h : DecimalParts (fun c => (py.digit c).isSome) d f)
    (hne : d ++ f ≠ []) : (py.floatOfText (d ++ f)).isSome = true := by
  have hascii : ∀ n : Fin 10, (Char.ofNat ('0'.toNat + n)).isDigit = true := by decide
  have hdot : py.numeralChar '.' = '.' := numeralChar_ascii (by decide)
  have hdigit : ∀ c, (py.digit c).isSome = true → (py.numeralChar c).isDigit = true := by
    intro c hc
    obtain ⟨n, hn⟩ := Option.isSome_iff_exists.mp hc
    unfold Python.numeralChar
    split_ifs with hsmall hspace
    · rw [py.digit_ascii c (by omega), asciiDigit] at hc
      by_contra hno
      rw [if_neg hno] at hc
      cases hc
    · have hw := py.word_of_digit c hc
      rw [py.not_word_of_space c hspace] at hw
      cases hw
    · rw [hn]
      exact hascii n
  have hall : ∀ s : Text, (∀ c ∈ s, (py.digit c).isSome = true) → ∀ c ∈ s.map py.numeralChar, c.isDigit = true :=
    fun s hs => List.forall_mem_map.mpr fun c hc => hdigit c (hs c hc)
  have hparts : DecimalParts Char.isDigit (d.map py.numeralChar) (f.map py.numeralChar) := by
    refine ⟨hall d h.whole, ?_⟩
    rcases h.fraction with rfl | ⟨ds, rfl, hds, hf⟩
    · exact .inl rfl
    · exact .inr ⟨ds.map py.numeralChar, by rw [List.map_cons, hdot], by simpa using hds, hall ds hf⟩
  have hblank : ∀ c ∈ d.map py.numeralChar ++ f.map py.numeralChar, cSpace c = false := by
    intro c hc
    rcases hparts.chars c hc with hc | rfl
    · exact cSpace_digit (.inr hc)
    · decide
  rw [floatOfText_eq, Python.numeral, List.map_append, stripBy_of_none hblank]
  exact hparts.readNumeral_isSome (by simpa using hne)

end Case

/-! ### The platform for evaluation -/

theorem asciiPython_cpython : CPython asciiPython where
  lower_plain _ _ := rfl
  round_zero := by simp [asciiPython]
  round_nonneg q hq := by
    by_cases h : |q| < 2 ^ 1024
    · exact .inl ⟨q, hq, if_pos h⟩
    · refine .inr ((if_neg h).trans ?_)
      rw [decide_eq_false (not_lt.mpr hq)]
  repr_ne_none x := by
    cases x with
    | inf negative => cases negative <;> decide
    | nan => decide
    | finite q =>
      intro h
      have hdot : '.' ∈ asciiRepr (.finite q) := by simp [asciiRepr]
      have hmem : '.' ∈ (asciiPython.strip (asciiRepr (.finite q))).map Char.toLower :=
        List.mem_map.mpr ⟨'.', mem_stripBy hdot (by decide), rfl⟩
      have hnone : '.' ∉ asciiPython.lower (asciiPython.strip "None".toList) := by decide
      exact hnone (h ▸ hmem)

end LoanAgent
