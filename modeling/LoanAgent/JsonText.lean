import LoanAgent.Json

/-! A stored value as JSON text and back. Proved: the text of a string and of an
integer reads as what it was written for, the text of an object as the dictionary
of its members, a string text that is cut reads as nothing, because reading goes on
alike however a text that is read to its end is continued, and no text of a value
has a carriage return. -/

namespace LoanAgent

variable {py : Python}

/-- The JSON of a stored value. -/
def jsonOf : FactValue → Json
  | .null => .null
  | .str s => .str s
  | v => .number v

/-! ### Strings -/

theorem hex4_append {s r : Text} {n : ℕ} (h : hex4 s = some (n, r)) (x : Text) :
    hex4 (s ++ x) = some (n, r ++ x) := by
  unfold hex4 at h
  split at h
  next a b c d rest =>
    simp only [Option.bind_eq_bind, Option.bind_eq_some_iff, Option.pure_def, Option.some.injEq,
      Prod.mk.injEq] at h
    obtain ⟨a', ha, b', hb, c', hc, d', hd, rfl, rfl⟩ := h
    simp [hex4, ha, hb, hc, hd]
  · cases h

theorem unicodeChar_append {s r : Text} {c : Char} (h : unicodeChar s = some (c, r)) (x : Text) :
    unicodeChar (s ++ x) = some (c, r ++ x) := by
  simp only [unicodeChar, Option.bind_eq_some_iff] at h
  obtain ⟨⟨n, rest⟩, hn, h⟩ := h
  dsimp only at h
  rw [unicodeChar, hex4_append hn, Option.bind_some]
  dsimp only
  split_ifs at h ⊢
  · split at h
    next low =>
      simp only [Option.bind_eq_some_iff] at h
      obtain ⟨⟨m, rest⟩, hm, h⟩ := h
      dsimp only at h
      split_ifs at h with hlow
      obtain ⟨rfl, rfl⟩ := Prod.mk.inj (Option.some.inj h)
      simp only [List.cons_append, hex4_append hm, Option.bind_some, if_pos hlow]
    · cases h
  · obtain ⟨rfl, rfl⟩ := Prod.mk.inj (Option.some.inj h)
    rfl

theorem escapedChar_append {s r : Text} {c : Char} (h : escapedChar s = some (c, r)) (x : Text) :
    escapedChar (s ++ x) = some (c, r ++ x) := by
  unfold escapedChar at h
  split at h
  · exact unicodeChar_append h x
  · cases h; rfl
  · cases h; rfl
  · cases h; rfl
  · cases h; rfl
  · cases h; rfl
  · cases h; rfl
  · cases h; rfl
  · cases h; rfl
  · cases h

/-- A string that is read to its end is read alike however the text goes on. -/
theorem scanString_append {fuel : ℕ} {s t r : Text} (h : scanString fuel s = some (t, r)) (x : Text)
    {more : ℕ} (hmore : fuel ≤ more) : scanString more (s ++ x) = some (t, r ++ x) := by
  induction fuel generalizing s t more with
  | zero => cases h
  | succ fuel ih =>
    obtain ⟨more, rfl⟩ := Nat.exists_eq_succ_of_ne_zero (by omega : more ≠ 0)
    cases s with
    | nil => cases h
    | cons c s =>
      rw [scanString] at h
      rw [List.cons_append, scanString]
      split_ifs at h ⊢
      · cases h
        rfl
      · simp only [Option.bind_eq_some_iff, Option.map_eq_some_iff] at h
        obtain ⟨⟨d, rest⟩, hd, ⟨⟨t', r'⟩, ht, heq⟩⟩ := h
        cases heq
        have hrest : scanString more (rest ++ x) = some (t', r' ++ x) := ih ht (by omega)
        simp only [escapedChar_append hd, Option.bind_some, hrest, Option.map_some]
      · simp only [Option.map_eq_some_iff] at h
        obtain ⟨⟨t', r'⟩, ht, heq⟩ := h
        cases heq
        rw [ih ht (by omega)]
        rfl

theorem scanValue_quote (fuel : ℕ) (rest : Text) : scanValue py (fuel + 1) ('"' :: rest) =
    (scanString (rest.length + 1) rest).map fun r => (.str r.1, r.2) := by
  rw [scanValue]

theorem length_le_escape (ensureAscii : Bool) (s : Text) :
    s.length ≤ (s.flatMap (escapeChar ensureAscii)).length := by
  have hchar : ∀ c, 1 ≤ (escapeChar ensureAscii c).length := by
    intro c
    unfold escapeChar
    split_ifs <;> simp [unicodeEscape]
  calc s.length = (s.map fun c => (escapeChar ensureAscii c).length).length := List.length_map _ |>.symm
    _ ≤ (s.map fun c => (escapeChar ensureAscii c).length).sum :=
      List.length_le_sum_of_one_le _ (List.forall_mem_map.mpr fun c _ => hchar c)
    _ = (s.flatMap (escapeChar ensureAscii)).length := List.length_flatMap.symm

theorem scanString_text (ensureAscii : Bool) (s : Text) :
    scanString ((s.flatMap (escapeChar ensureAscii) ++ ['"']).length + 1)
      (s.flatMap (escapeChar ensureAscii) ++ ['"']) = some (s, []) := by
  have := length_le_escape ensureAscii s
  refine scanString_jsonString ensureAscii s _ [] ?_
  rw [List.length_append]
  omega

theorem loads_jsonString (ensureAscii : Bool) (s : Text) : loads py (jsonString ensureAscii s) = some (.str s) := by
  have hskip : skipSpace (jsonString ensureAscii s) = jsonString ensureAscii s := rfl
  rw [loads, hskip, jsonString, scanValue_quote, scanString_text]
  rfl

/-- A string that is cut before its closing quote is not read. -/
theorem loads_cut {ensureAscii : Bool} {s : Text} {n : ℕ} (hn : n < (jsonString ensureAscii s).length) :
    loads py ((jsonString ensureAscii s).take n) = none := by
  cases n with
  | zero => rfl
  | succ n =>
    obtain ⟨body, hbody⟩ : ∃ body, s.flatMap (escapeChar ensureAscii) ++ ['"'] = body := ⟨_, rfl⟩
    rw [jsonString, hbody, List.length_cons] at hn
    have hnone : scanString ((body.take n).length + 1) (body.take n) = none := by
      rw [Option.eq_none_iff_forall_ne_some]
      rintro ⟨t, r⟩ h
      have hwhole : scanString (body.length + 1) (body.take n ++ body.drop n) = some (t, r ++ body.drop n) :=
        scanString_append h _ (by simp)
      have htext := scanString_text ensureAscii s
      rw [hbody] at htext
      rw [List.take_append_drop, htext] at hwhole
      obtain ⟨-, hrest⟩ := Prod.mk.inj (Option.some.inj hwhole)
      have hdrop := (List.append_eq_nil_iff.mp hrest.symm).2
      rw [List.drop_eq_nil_iff] at hdrop
      omega
    have hskip : skipSpace ('"' :: body.take n) = '"' :: body.take n := rfl
    rw [jsonString, hbody, List.take_succ_cons, loads, hskip, scanValue_quote, hnone]
    rfl

/-! ### Integers -/

theorem toDigits_head {n : ℕ} {s : Text} (h : Nat.toDigits 10 n = '0' :: s) : n = 0 := by
  induction n using Nat.strong_induction_on generalizing s with
  | _ n ih =>
    by_cases hn : n < 10
    · rw [Nat.toDigits_of_lt_base hn] at h
      have key : ∀ d : Fin 10, Nat.digitChar d = '0' → (d : ℕ) = 0 := by decide
      exact key ⟨n, hn⟩ (List.cons.inj h).1
    · rw [Nat.toDigits_of_base_le (by decide) (by omega)] at h
      obtain ⟨c, t, ht⟩ := List.exists_cons_of_ne_nil (Nat.toDigits_ne_nil (n := n / 10) (b := 10))
      rw [ht, List.cons_append] at h
      rw [(List.cons.inj h).1] at ht
      have := ih (n / 10) (by omega) ht
      omega

/-- No number goes on with this text. -/
def EndsNumber (rest : Text) : Prop :=
  ∀ c t, rest = c :: t → c.isDigit = false ∧ c ≠ '.' ∧ c ≠ 'e' ∧ c ≠ 'E'

theorem takeWhile_toDigits (k : ℕ) {rest : Text} (h : EndsNumber rest) :
    (Nat.toDigits 10 k ++ rest).takeWhile Char.isDigit = Nat.toDigits 10 k := by
  rw [List.takeWhile_append_of_pos fun c hc => isDigit_of_mem_toDigits hc]
  cases rest with
  | nil => rw [List.takeWhile_nil, List.append_nil]
  | cons c t => rw [List.takeWhile_cons_of_neg (by simp [(h c t rfl).1]), List.append_nil]

theorem toDigits_append_head {k : ℕ} {rest s : Text} (h : Nat.toDigits 10 k ++ rest = '0' :: s) : k = 0 := by
  obtain ⟨c, t, ht⟩ := List.exists_cons_of_ne_nil (Nat.toDigits_ne_nil (n := k) (b := 10))
  rw [ht, List.cons_append] at h
  rw [(List.cons.inj h).1] at ht
  exact toDigits_head ht

/-- A decimal text is read whole, as an integer. -/
theorem scanNumber_intText (n : ℤ) {rest : Text} (h : EndsNumber rest) :
    scanNumber py (intText n ++ rest) = some (.int n, rest) := by
  have hvalue : ∀ k : ℕ, digitsValue (Nat.toDigits 10 k) = k := fun k => Nat.ofDigitChars_ten_toDigits
  have htake := fun k => takeWhile_toDigits k h
  unfold scanNumber
  by_cases hn : n < 0
  · have htext : intText n ++ rest = '-' :: (Nat.toDigits 10 n.natAbs ++ rest) := by
      rw [intText, if_pos hn, List.cons_append]
    rw [htext]
    dsimp only
    split
    next s hs =>
      have := toDigits_append_head hs
      omega
    · cases rest with
      | nil =>
        simp only [List.append_nil] at htake
        simp [htake, hvalue, abs_of_neg hn, Nat.toDigits_ne_nil]
      | cons c t =>
        obtain ⟨-, hdot, he, hE⟩ := h c t rfl
        simp [htake, hvalue, abs_of_neg hn, Nat.toDigits_ne_nil, hdot, he, hE]
  · have htext : intText n ++ rest = Nat.toDigits 10 n.natAbs ++ rest := by rw [intText, if_neg hn]
    have hcast : ((n.natAbs : ℕ) : ℤ) = n := by omega
    rw [htext]
    split
    rename_i hsign
    split at hsign
    next r hr =>
      have hmem : '-' ∈ Nat.toDigits 10 n.natAbs := by
        obtain ⟨d, s, hd⟩ := List.exists_cons_of_ne_nil (Nat.toDigits_ne_nil (n := n.natAbs) (b := 10))
        rw [hd, List.cons_append] at hr
        rw [hd, (List.cons.inj hr).1]
        exact List.mem_cons_self
      exact absurd (isDigit_of_mem_toDigits hmem) (by decide)
    cases hsign
    split
    next s hs =>
      have hzero : n = 0 := by
        have := toDigits_append_head hs
        omega
      subst hzero
      cases rest with
      | nil => rfl
      | cons c t =>
        obtain ⟨-, hdot, he, hE⟩ := h c t rfl
        simp [hdot, he, hE, digitsValue]
    · cases rest with
      | nil =>
        simp only [List.append_nil] at htake
        simp [htake, hvalue, hcast, Nat.toDigits_ne_nil]
      | cons c t =>
        obtain ⟨-, hdot, he, hE⟩ := h c t rfl
        simp [htake, hvalue, hcast, Nat.toDigits_ne_nil, hdot, he, hE]

theorem scanNumber_head {s rest : Text} {v : FactValue} (h : scanNumber py s = some (v, rest)) :
    ∃ c t, s = c :: t ∧ (c = '-' ∨ c.isDigit = true) := by
  cases s with
  | nil => cases h
  | cons c t =>
    refine ⟨c, t, rfl, ?_⟩
    by_contra hc
    push Not at hc
    obtain ⟨hdash, hdigit⟩ := hc
    have hzero : c ≠ '0' := by
      rintro rfl
      exact hdigit (by decide)
    simp [scanNumber, hdash, hzero, hdigit] at h

/-- What begins like a number is neither a string, an array, an object nor a word. -/
theorem scanValue_number {s rest : Text} {v : FactValue} (h : scanNumber py s = some (v, rest)) (fuel : ℕ) :
    scanValue py (fuel + 1) (skipSpace s) = some (.number v, rest) := by
  obtain ⟨c, t, rfl, hc⟩ := scanNumber_head h
  have hne : ∀ d : Char, d ≠ '-' → d.isDigit = false → c ≠ d := by
    rintro d hdash hdigit rfl
    rcases hc with hc | hc
    · exact hdash hc
    · rw [hdigit] at hc
      cases hc
  have hskip : skipSpace (c :: t) = c :: t := by
    refine List.dropWhile_cons_of_neg ?_
    simp [hne ' ' (by decide) (by decide), hne '\t' (by decide) (by decide), hne '\n' (by decide) (by decide),
      hne '\r' (by decide) (by decide)]
  have hword : ∀ d w, d ≠ '-' → d.isDigit = false → ¬ startsWith (c :: t) (d :: w) = true := by
    intro d w hdash hdigit h
    rw [startsWith, List.isPrefixOf_iff_prefix] at h
    obtain ⟨r, hr⟩ := h
    exact hne d hdash hdigit (List.cons.inj hr).1.symm
  have hatom : scanAtom py (c :: t) = some (.number v, rest) := by
    have hnull : ¬ startsWith (c :: t) "null".toList = true := hword 'n' _ (by decide) (by decide)
    have htrue : ¬ startsWith (c :: t) "true".toList = true := hword 't' _ (by decide) (by decide)
    have hfalse : ¬ startsWith (c :: t) "false".toList = true := hword 'f' _ (by decide) (by decide)
    unfold scanAtom
    dsimp only
    rw [if_neg hnull, if_neg htrue, if_neg hfalse, h]
    rfl
  rw [hskip, scanValue]
  · exact hatom
  · rintro rest h
    exact hne '"' (by decide) (by decide) (List.cons.inj h).1
  · rintro rest h
    exact hne '[' (by decide) (by decide) (List.cons.inj h).1
  · rintro rest h
    exact hne '\x7b' (by decide) (by decide) (List.cons.inj h).1

theorem endsNumber_nil : EndsNumber [] := by
  intro c t h
  cases h

/-- The text of an integer reads as this integer. -/
theorem loads_intText (n : ℤ) : loads py (intText n) = some (.number (.int n)) := by
  have hnumber : scanNumber py (intText n ++ []) = _ := scanNumber_intText n endsNumber_nil
  rw [List.append_nil] at hnumber
  rw [loads, scanValue_number hnumber]
  rfl

/-! ### The members of an object -/

/-- A text reads as a value in front of a comma and of a closing brace. -/
def Scans (py : Python) (text : Text) (v : Json) : Prop :=
  ∀ fuel c rest, c = ',' ∨ c = '}' →
    scanValue py (fuel + 1) (skipSpace (text ++ c :: rest)) = some (v, c :: rest)

theorem endsNumber_delimiter {c : Char} (h : c = ',' ∨ c = '}') (rest : Text) : EndsNumber (c :: rest) := by
  rintro d t ⟨⟩
  rcases h with rfl | rfl <;> decide

theorem scans_jsonString (s : Text) : Scans py (jsonString true s) (.str s) := by
  intro fuel c rest _
  have hlength := length_le_escape true s
  have htext : jsonString true s ++ c :: rest =
      '"' :: (s.flatMap (escapeChar true) ++ '"' :: c :: rest) := by simp [jsonString]
  have hskip : skipSpace ('"' :: (s.flatMap (escapeChar true) ++ '"' :: c :: rest)) =
      '"' :: (s.flatMap (escapeChar true) ++ '"' :: c :: rest) := rfl
  rw [htext, hskip, scanValue_quote, scanString_jsonString true s _ _ (by rw [List.length_append]; omega)]
  rfl

theorem scans_null : Scans py "null".toList .null := fun _ _ _ _ => rfl

theorem scans_intText (n : ℤ) : Scans py (intText n) (.number (.int n)) := fun fuel _ rest h =>
  scanValue_number (scanNumber_intText n (endsNumber_delimiter h rest)) fuel

/-- A decimal text with a point reads as the float of this text. -/
theorem scans_decimal {whole fraction : Text} {x : PyFloat} (hwhole : whole ≠ []) (hzero : whole.head? ≠ some '0')
    (hdigits : ∀ c ∈ whole, c.isDigit = true) (hfraction : fraction ≠ [])
    (hdigits' : ∀ c ∈ fraction, c.isDigit = true) (h : py.floatOfText (whole ++ '.' :: fraction) = some x) :
    Scans py (whole ++ '.' :: fraction) (.number (.float x)) := by
  intro fuel c rest hc
  refine scanValue_number ?_ fuel
  obtain ⟨hdigit, -, he, hE⟩ := endsNumber_delimiter hc rest c rest rfl
  obtain ⟨d, w, rfl⟩ := List.exists_cons_of_ne_nil hwhole
  obtain ⟨e, f, rfl⟩ := List.exists_cons_of_ne_nil hfraction
  have hd : d ≠ '-' := by
    rintro rfl
    exact absurd (hdigits _ List.mem_cons_self) (by decide)
  have hd0 : d ≠ '0' := by
    rintro rfl
    exact hzero rfl
  have htake : (d :: (w ++ '.' :: e :: (f ++ c :: rest))).takeWhile Char.isDigit = d :: w := by
    rw [← List.cons_append, List.takeWhile_append_of_pos hdigits]
    simp
  have htake' : (e :: (f ++ c :: rest)).takeWhile Char.isDigit = e :: f := by
    rw [← List.cons_append, List.takeWhile_append_of_pos hdigits']
    simp [hdigit]
  simp only [List.cons_append, List.append_assoc] at h ⊢
  unfold scanNumber
  simp [hd, hd0, htake, htake', he, hE, h]

theorem scans_nan : Scans py "NaN".toList (.number (.float .nan)) := fun _ _ _ _ => rfl

theorem scans_infinity : Scans py "Infinity".toList (.number (.float (.inf false))) := fun _ _ _ _ => rfl

theorem scans_negInfinity : Scans py "-Infinity".toList (.number (.float (.inf true))) := fun _ _ _ _ => rfl

/-- An encoded value reads as this value, when the `repr` of a finite float does. -/
theorem scans_jsonValue {v : FactValue}
    (hrepr : ∀ q, v = .float (.finite q) → Scans py (py.repr (.finite q)) (.number v)) :
    Scans py (jsonValue py true v) (jsonOf v) := by
  cases v with
  | null => exact scans_null
  | str s => exact scans_jsonString s
  | int n => exact scans_intText n
  | float x =>
    cases x with
    | finite q => exact hrepr q rfl
    | inf negative =>
      cases negative
      · exact scans_infinity
      · exact scans_negInfinity
    | nan => exact scans_nan

/-- What follows the value of a member. -/
def afterMember (py : Python) (fuel : ℕ) (members : List (Text × Json)) :
    Text → Option (List (Text × Json) × Text)
  | ',' :: rest => scanMembers py fuel members (skipSpace rest)
  | '}' :: rest => some (members, rest)
  | _ => none

theorem scanMembers_member {text : Text} {v : Json} (h : Scans py text v) (fuel : ℕ) (k : Text)
    (acc : List (Text × Json)) {c : Char} (hc : c = ',' ∨ c = '}') (after : Text) :
    scanMembers py (fuel + 2) acc (jsonString true k ++ ':' :: ' ' :: (text ++ c :: after)) =
      afterMember py (fuel + 1) (dictSet k v acc) (c :: after) := by
  have hlength := length_le_escape true k
  have htext : jsonString true k ++ ':' :: ' ' :: (text ++ c :: after) =
      '"' :: (k.flatMap (escapeChar true) ++ '"' :: ':' :: ' ' :: (text ++ c :: after)) := by
    simp [jsonString]
  have hkey := scanString_jsonString true k
    ((k.flatMap (escapeChar true) ++ '"' :: ':' :: ' ' :: (text ++ c :: after)).length + 1)
    (':' :: ' ' :: (text ++ c :: after)) (by rw [List.length_append]; omega)
  have hcolon : skipSpace (':' :: ' ' :: (text ++ c :: after)) = ':' :: ' ' :: (text ++ c :: after) := rfl
  have hblank : skipSpace (' ' :: (text ++ c :: after)) = skipSpace (text ++ c :: after) := rfl
  have hdelimiter : skipSpace (c :: after) = c :: after := by rcases hc with rfl | rfl <;> rfl
  rw [htext, scanMembers]
  simp only [hkey, Option.bind_some, hcolon, hblank, h fuel c after hc, hdelimiter]
  rcases hc with rfl | rfl <;> rfl

/-- A member whose value has this text. -/
def memberText (m : Text × Text × Json) : Text := jsonString true m.1 ++ ':' :: ' ' :: m.2.1

/-- The members behind one another are read into a dictionary. -/
theorem scanMembers_join {members : List (Text × Text × Json)} (hne : members ≠ [])
    (hscan : ∀ m ∈ members, Scans py m.2.1 m.2.2) (acc : List (Text × Json)) {fuel : ℕ}
    (hfuel : members.length < fuel) (rest : Text) :
    scanMembers py fuel acc (join ", ".toList (members.map memberText) ++ '}' :: rest) =
      some (members.foldl (fun d m => dictSet m.1 m.2.2 d) acc, rest) := by
  induction members generalizing acc fuel with
  | nil => exact absurd rfl hne
  | cons m members ih =>
    obtain ⟨fuel, rfl⟩ : ∃ n, fuel = n + 2 := ⟨fuel - 2, by rw [List.length_cons] at hfuel; omega⟩
    have hm := hscan m List.mem_cons_self
    cases members with
    | nil =>
      rw [List.map_singleton, join, memberText, List.append_assoc, List.cons_append, List.cons_append,
        scanMembers_member hm fuel _ _ (.inr rfl)]
      rfl
    | cons m' members =>
      have hlater := ih (by simp) (fun x hx => hscan x (List.mem_cons_of_mem _ hx)) (dictSet m.1 m.2.2 acc)
        (show (m' :: members).length < fuel + 1 by simp only [List.length_cons] at hfuel ⊢; omega)
      obtain ⟨more, hmore⟩ : ∃ more,
          join ", ".toList ((m' :: members).map memberText) ++ '}' :: rest = '"' :: more := by
        cases members <;> exact ⟨_, rfl⟩
      have htext : join ", ".toList ((m :: m' :: members).map memberText) ++ '}' :: rest =
          jsonString true m.1 ++ ':' :: ' ' :: (m.2.1 ++ ',' :: ' ' :: '"' :: more) := by
        rw [← hmore]
        simp [join, memberText]
      have hskip : skipSpace (' ' :: '"' :: more) = '"' :: more := rfl
      rw [htext, scanMembers_member hm fuel _ _ (.inl rfl), afterMember, hskip, ← hmore, hlater]
      rfl

/-- The text of an object reads as the dictionary of its members. -/
theorem loads_jsonObject {members : List (Text × Text × Json)} (hne : members ≠ [])
    (hscan : ∀ m ∈ members, Scans py m.2.1 m.2.2) :
    loads py (jsonObject (members.map fun m => (m.1, m.2.1))) =
      some (.obj (members.foldl (fun d m => dictSet m.1 m.2.2 d) [])) := by
  have hlength : members.length ≤ (join ", ".toList (members.map memberText)).length := by
    have hne : ∀ s ∈ members.map memberText, s ≠ [] :=
      List.forall_mem_map.mpr fun m _ => List.cons_ne_nil _ _
    simpa only [List.length_map] using length_le_join hne
  obtain ⟨more, hmore⟩ : ∃ more, join ", ".toList (members.map memberText) ++ ['}'] = '"' :: more := by
    cases members with
    | nil => exact absurd rfl hne
    | cons m members => cases members <;> exact ⟨_, rfl⟩
  have hmembers : ∀ fuel, members.length < fuel → _ := fun fuel hfuel => scanMembers_join hne hscan [] hfuel []
  have hobject : jsonObject (members.map fun m => (m.1, m.2.1)) =
      '{' :: (join ", ".toList (members.map memberText) ++ ['}']) := by
    rw [jsonObject, List.map_map]
    rfl
  have hvalue : ∀ fuel, scanValue py (fuel + 1) ('{' :: '"' :: more) =
      (scanMembers py fuel [] ('"' :: more)).map fun r => (.obj r.1, r.2) := by
    intro fuel
    rw [scanValue]
    rfl
  have hskip : skipSpace ('{' :: '"' :: more) = '{' :: '"' :: more := rfl
  have henough : members.length < ('{' :: (join ", ".toList (members.map memberText) ++ ['}'])).length := by
    rw [List.length_cons, List.length_append]
    omega
  rw [hobject, hmore, loads, hskip, hvalue, ← hmore, hmembers _ henough]
  rfl

/-! ### No carriage return -/

theorem cr_not_mem_jsonString (ensureAscii : Bool) (s : Text) : '\r' ∉ jsonString ensureAscii s := by
  have hdigit : ∀ n, '\r' ≠ Nat.digitChar (n % 16) := by
    have key : ∀ d : Fin 16, '\r' ≠ Nat.digitChar d := by decide
    exact fun n => key ⟨n % 16, Nat.mod_lt _ (by decide)⟩
  have hu : ∀ n, '\r' ∉ unicodeEscape n := by
    intro n
    simp only [unicodeEscape, List.mem_cons, List.not_mem_nil, or_false, not_or]
    exact ⟨by decide, by decide, hdigit _, hdigit _, hdigit _, hdigit _⟩
  have hchar : ∀ c, '\r' ∉ escapeChar ensureAscii c := by
    intro c
    unfold escapeChar
    split_ifs with h1 h2 h3 h4 h5 h6 h7 h8
    iterate 7 decide
    · rw [List.mem_singleton]
      exact Ne.symm h4
    · exact hu _
    · simp [hu]
  simp only [jsonString, List.mem_cons, List.mem_append, List.mem_flatMap, List.not_mem_nil, or_false, not_or,
    not_exists, not_and]
  exact ⟨by decide, fun c _ => hchar c, by decide⟩

theorem cr_not_mem_intText (n : ℤ) : '\r' ∉ intText n := fun h =>
  absurd (mem_intText h) (by decide)

end LoanAgent
