import LoanAgent.Python

/-! JSON as `json.dumps` writes it and `json.loads` reads it. Text is written
with every character outside printable ASCII escaped, or as it is. Proved: a
quoted string is read back as the text it was written for. -/

namespace LoanAgent

/-! ### Writing -/

/-- `\uXXXX`. -/
def unicodeEscape (n : ℕ) : Text :=
  ['\\', 'u', Nat.digitChar (n / 4096 % 16), Nat.digitChar (n / 256 % 16),
    Nat.digitChar (n / 16 % 16), Nat.digitChar (n % 16)]

/-- The escape of one character; beyond the basic plane it is a surrogate pair. -/
def escapeChar (ensureAscii : Bool) (c : Char) : Text :=
  if c = '"' then ['\\', '"']
  else if c = '\\' then ['\\', '\\']
  else if c = '\n' then ['\\', 'n']
  else if c = '\r' then ['\\', 'r']
  else if c = '\t' then ['\\', 't']
  else if c = '\x08' then ['\\', 'b']
  else if c = '\x0c' then ['\\', 'f']
  else if 32 ≤ c.toNat ∧ (c.toNat < 127 ∨ !ensureAscii) then [c]
  else if c.toNat < 65536 then unicodeEscape c.toNat
  else unicodeEscape (55296 + (c.toNat - 65536) / 1024) ++
    unicodeEscape (56320 + (c.toNat - 65536) % 1024)

def jsonString (ensureAscii : Bool) (s : Text) : Text :=
  '"' :: (s.flatMap (escapeChar ensureAscii) ++ ['"'])

def jsonValue (py : Python) (ensureAscii : Bool) : FactValue → Text
  | .null => "null".toList
  | .str s => jsonString ensureAscii s
  | .int n => intText n
  | .float .nan => "NaN".toList
  | .float (.inf negative) => if negative then "-Infinity".toList else "Infinity".toList
  | .float (.finite q) => py.repr (.finite q)

/-- A dictionary, given the encoded values. -/
def jsonObject (members : List (Text × Text)) : Text :=
  '{' :: (join ", ".toList (members.map fun m => jsonString true m.1 ++ ':' :: ' ' :: m.2) ++ ['}'])

/-! ### Reading -/

inductive Json
  | null
  | bool (b : Bool)
  | number (v : FactValue)
  | str (s : Text)
  | arr (items : List Json)
  | obj (members : List (Text × Json))

def skipSpace (s : Text) : Text := s.dropWhile fun c => c = ' ' ∨ c = '\t' ∨ c = '\n' ∨ c = '\r'

def hexDigitValue (c : Char) : Option ℕ :=
  if c.isDigit then some (c.toNat - '0'.toNat)
  else if 'a' ≤ c ∧ c ≤ 'f' then some (c.toNat - 'a'.toNat + 10)
  else if 'A' ≤ c ∧ c ≤ 'F' then some (c.toNat - 'A'.toNat + 10)
  else none

/-- The four digits of a `\uXXXX` escape and the rest. -/
def hex4 : Text → Option (ℕ × Text)
  | a :: b :: c :: d :: rest => do
    let a ← hexDigitValue a
    let b ← hexDigitValue b
    let c ← hexDigitValue c
    let d ← hexDigitValue d
    pure (((a * 16 + b) * 16 + c) * 16 + d, rest)
  | _ => none

/-- The character of a `\u` escape. A lone surrogate is refused: no text has one. -/
def unicodeChar (s : Text) : Option (Char × Text) :=
  (hex4 s).bind fun (n, rest) =>
    if 55296 ≤ n ∧ n < 56320 then
      match rest with
      | '\\' :: 'u' :: low => (hex4 low).bind fun (m, rest) =>
        if 56320 ≤ m ∧ m < 57344 then
          some (Char.ofNat (65536 + (n - 55296) * 1024 + (m - 56320)), rest)
        else none
      | _ => none
    else if 56320 ≤ n ∧ n < 57344 then none
    else some (Char.ofNat n, rest)

/-- The character of the escape behind a backslash. -/
def escapedChar : Text → Option (Char × Text)
  | 'u' :: rest => unicodeChar rest
  | 'n' :: rest => some ('\n', rest)
  | 'r' :: rest => some ('\r', rest)
  | 't' :: rest => some ('\t', rest)
  | 'b' :: rest => some ('\x08', rest)
  | 'f' :: rest => some ('\x0c', rest)
  | '"' :: rest => some ('"', rest)
  | '\\' :: rest => some ('\\', rest)
  | '/' :: rest => some ('/', rest)
  | _ => none

/-- A string behind its opening quote, and what follows the closing one. -/
def scanString : ℕ → Text → Option (Text × Text)
  | 0, _ => none
  | _ + 1, [] => none
  | fuel + 1, c :: rest =>
    if c = '"' then some ([], rest)
    else if c = '\\' then
      (escapedChar rest).bind fun (c, rest) => (scanString fuel rest).map fun r => (c :: r.1, r.2)
    else if c.toNat < 32 then none
    else (scanString fuel rest).map fun r => (c :: r.1, r.2)

/-- `-?(?:0|[1-9]\d*)(\.\d+)?([eE][-+]?\d+)?`. -/
def scanNumber (py : Python) (s : Text) : Option (FactValue × Text) :=
  let (sign, r) := match s with
    | '-' :: r => (['-'], r)
    | r => ([], r)
  let whole := match r with
    | '0' :: _ => ['0']
    | r => r.takeWhile Char.isDigit
  let r := r.drop whole.length
  let fraction := match r with
    | '.' :: t => match t.takeWhile Char.isDigit with
      | [] => []
      | ds => '.' :: ds
    | _ => []
  let r := r.drop fraction.length
  let exponent := match r with
    | e :: t =>
      if e = 'e' ∨ e = 'E' then
        let mark := t.take 1 |>.filter fun c => c = '+' ∨ c = '-'
        match (t.drop mark.length).takeWhile Char.isDigit with
        | [] => []
        | ds => e :: (mark ++ ds)
      else []
    | [] => []
  let rest := r.drop exponent.length
  if whole = [] then none
  else if fraction = [] ∧ exponent = [] then
    some (.int (if sign = [] then digitsValue whole else -(digitsValue whole : ℤ)), rest)
  else (py.floatOfText (sign ++ whole ++ fraction ++ exponent)).map fun x => (.float x, rest)

/-- A word such as `null`, a number, or one of the words for a float that is not finite. -/
def scanAtom (py : Python) (s : Text) : Option (Json × Text) :=
  let word (w : String) (v : Json) : Option (Json × Text) :=
    if startsWith s w.toList then some (v, s.drop w.length) else none
  word "null" .null <|> word "true" (.bool true) <|> word "false" (.bool false) <|>
    (scanNumber py s).map (fun r => (.number r.1, r.2)) <|> word "NaN" (.number (.float .nan)) <|>
    word "Infinity" (.number (.float (.inf false))) <|>
    word "-Infinity" (.number (.float (.inf true)))

mutual

/-- A value and the rest; every call consumes fuel. -/
def scanValue (py : Python) : ℕ → Text → Option (Json × Text)
  | 0, _ => none
  | fuel + 1, s => match s with
    | '"' :: rest => (scanString (rest.length + 1) rest).map fun r => (.str r.1, r.2)
    | '[' :: rest => match skipSpace rest with
      | ']' :: rest => some (.arr [], rest)
      | rest => (scanItems py fuel rest).map fun r => (.arr r.1, r.2)
    | '{' :: rest => match skipSpace rest with
      | '}' :: rest => some (.obj [], rest)
      | rest => (scanMembers py fuel [] rest).map fun r => (.obj r.1, r.2)
    | s => scanAtom py s

/-- The items of an array up to its closing bracket. -/
def scanItems (py : Python) : ℕ → Text → Option (List Json × Text)
  | 0, _ => none
  | fuel + 1, s => (scanValue py fuel s).bind fun (v, rest) => match skipSpace rest with
    | ',' :: rest => (scanItems py fuel (skipSpace rest)).map fun r => (v :: r.1, r.2)
    | ']' :: rest => some ([v], rest)
    | _ => none

/-- The members of an object up to its closing brace; a later key replaces an earlier one. -/
def scanMembers (py : Python) :
    ℕ → List (Text × Json) → Text → Option (List (Text × Json) × Text)
  | 0, _, _ => none
  | fuel + 1, members, s => match s with
    | '"' :: rest => (scanString (rest.length + 1) rest).bind fun (k, rest) =>
      match skipSpace rest with
      | ':' :: rest => (scanValue py fuel (skipSpace rest)).bind fun (v, rest) =>
        match skipSpace rest with
        | ',' :: rest => scanMembers py fuel (dictSet k v members) (skipSpace rest)
        | '}' :: rest => some (dictSet k v members, rest)
        | _ => none
      | _ => none
    | _ => none

end

/-- `json.loads`; `none` stands for `JSONDecodeError`. -/
def loads (py : Python) (s : Text) : Option Json :=
  match scanValue py (s.length + 1) (skipSpace s) with
  | some (v, rest) => if skipSpace rest = [] then some v else none
  | none => none

/-! ### Strings survive -/

theorem hexDigitValue_digitChar {d : ℕ} (h : d < 16) : hexDigitValue (Nat.digitChar d) = some d := by
  have key : ∀ d : Fin 16, hexDigitValue (Nat.digitChar d) = some d.val := by decide
  exact key ⟨d, h⟩

theorem hex4_unicodeEscape {n : ℕ} (h : n < 65536) (rest : Text) :
    hex4 ((unicodeEscape n ++ rest).drop 2) = some (n, rest) := by
  have hsum : ((n / 4096 % 16 * 16 + n / 256 % 16) * 16 + n / 16 % 16) * 16 + n % 16 = n := by omega
  simp [unicodeEscape, hex4, hexDigitValue_digitChar, Nat.mod_lt, hsum]

theorem char_range (c : Char) : c.toNat < 55296 ∨ 57343 < c.toNat ∧ c.toNat < 1114112 := c.valid

theorem unicodeChar_basic {c : Char} (h : c.toNat < 65536) (rest : Text) :
    unicodeChar ((unicodeEscape c.toNat ++ rest).drop 2) = some (c, rest) := by
  have hr := char_range c
  rw [unicodeChar, hex4_unicodeEscape h]
  simp only [Option.bind_some]
  rw [if_neg (by omega), if_neg (by omega), Char.ofNat_toNat]

theorem unicodeChar_surrogates {n m : ℕ} (hn : 55296 ≤ n ∧ n < 56320) (hm : 56320 ≤ m ∧ m < 57344)
    (rest : Text) : unicodeChar ((unicodeEscape n ++ (unicodeEscape m ++ rest)).drop 2) =
      some (Char.ofNat (65536 + (n - 55296) * 1024 + (m - 56320)), rest) := by
  have hlow := hex4_unicodeEscape (n := m) (by omega) rest
  have hdrop : unicodeEscape m ++ rest = '\\' :: 'u' :: (unicodeEscape m ++ rest).drop 2 := rfl
  rw [unicodeChar, hex4_unicodeEscape (by omega), hdrop]
  simp only [Option.bind_some]
  rw [if_pos hn, hlow]
  simp only [Option.bind_some]
  rw [if_pos hm]

theorem unicodeChar_pair {c : Char} (h : 65536 ≤ c.toNat) (rest : Text) :
    unicodeChar ((unicodeEscape (55296 + (c.toNat - 65536) / 1024) ++
      (unicodeEscape (56320 + (c.toNat - 65536) % 1024) ++ rest)).drop 2) = some (c, rest) := by
  have hr := char_range c
  obtain ⟨k, hk⟩ := Nat.exists_eq_add_of_le h
  generalize hn : 55296 + (c.toNat - 65536) / 1024 = n
  generalize hm : 56320 + (c.toNat - 65536) % 1024 = m
  have hsum : 65536 + (n - 55296) * 1024 + (m - 56320) = c.toNat := by omega
  rw [unicodeChar_surrogates (by omega) (by omega), hsum, Char.ofNat_toNat]

/-- The escape of a character is read back as this character. -/
theorem scanString_escapeChar (ensureAscii : Bool) (c : Char) (fuel : ℕ) (rest : Text) :
    scanString (fuel + 1) (escapeChar ensureAscii c ++ rest) =
      (scanString fuel rest).map fun r => (c :: r.1, r.2) := by
  unfold escapeChar
  split_ifs with h1 h2 h3 h4 h5 h6 h7 h8 h9
  iterate 7 subst_vars; simp [scanString, escapedChar]
  · have hctl : ¬ c.toNat < 32 := by omega
    simp [scanString, h1, h2, hctl]
  · have hu : unicodeEscape c.toNat ++ rest = '\\' :: 'u' :: (unicodeEscape c.toNat ++ rest).drop 2 := rfl
    rw [hu]
    simp only [scanString, escapedChar, unicodeChar_basic h9, Option.bind_some]
    simp
  · have hp := unicodeChar_pair (c := c) (by omega) rest
    have hu : ∀ n m, (unicodeEscape n ++ unicodeEscape m) ++ rest =
        '\\' :: 'u' :: (unicodeEscape n ++ (unicodeEscape m ++ rest)).drop 2 := fun n m => rfl
    rw [hu]
    simp only [scanString, escapedChar, hp, Option.bind_some]
    simp

/-- A quoted string is read back as the text it was written for. -/
theorem scanString_jsonString (ensureAscii : Bool) (s : Text) (fuel : ℕ) (rest : Text)
    (h : s.length < fuel) :
    scanString fuel (s.flatMap (escapeChar ensureAscii) ++ '"' :: rest) = some (s, rest) := by
  induction s generalizing fuel with
  | nil =>
    obtain ⟨fuel, rfl⟩ := Nat.exists_eq_succ_of_ne_zero (Nat.ne_of_gt h)
    simp [scanString]
  | cons c s ih =>
    simp only [List.length_cons] at h
    obtain ⟨fuel, rfl⟩ := Nat.exists_eq_succ_of_ne_zero (by omega : fuel ≠ 0)
    rw [List.flatMap_cons, List.append_assoc, scanString_escapeChar, ih fuel (by omega)]
    rfl

end LoanAgent
