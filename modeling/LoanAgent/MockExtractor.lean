import LoanAgent.Grounding
import LoanAgent.Json
import LoanAgent.Library.Places
import LoanAgent.Library.RxGroup

/-! The extractor that stands in for the model. Patterns pick one slice of each
kind from every text; the amount of an income is read as a number, and an entity
has to pass the schema. Proved: what a pattern finds has a known key and quotes
the text, only an amount of commas is not a number, and the extractor meets its
contract with the validator exactly when a trigger word occurs or no find is such
an amount, too long, one too many, or changed by the lower-casing of a sigma. -/

namespace LoanAgent

/-! ### Patterns -/

section Patterns
variable (py : Python)

def isDecimal (c : Char) : Bool := (py.digit c).isSome

/-- `[\d,]+(?:\.\d{1,2})?`. -/
def amountPat : Rx.Pat :=
  .seq (.plus (.char fun c => isDecimal py c || c == ','))
    (.opt (.seq (.char (· == '.')) (.rep 1 (some 2) (.char (isDecimal py)))))

/-- `_MOCK_INCOME_PATTERNS`. -/
def mockIncomePatterns : List Rx.Grouped :=
  let pat := Rx.Part.ofPat py.isWord
  [{ front := .seq (pat (Rx.spelling Rx.anyCase "monthly".toList))
       (.seq (.few (some 40) (pat (.char fun c => !(c == '$' || c == '\n')))) (pat (.char (· == '$'))))
     group := pat (amountPat py)
     back := .empty },
   { front := pat (.char (· == '$'))
     group := pat (amountPat py)
     back := pat (.seq (.rep 0 none (.char py.isSpace)) (.alt (Rx.spelling Rx.anyCase "per month".toList)
       (.alt (Rx.spelling Rx.anyCase "a month".toList) (.alt (Rx.spelling Rx.anyCase "/month".toList)
         (Rx.spelling Rx.anyCase "monthly".toList))))) }]

/-- `_MOCK_ADDRESS_PATTERN`. -/
def mockAddressPattern : Rx.Grouped :=
  let pat := Rx.Part.ofPat py.isWord
  let gap := Rx.Pat.plus (.char py.isSpace)
  { front := pat (.cat (.opt (.seq (Rx.spelling Rx.anyCase "i".toList) gap))
      [.alt (Rx.spelling Rx.anyCase "live".toList) (Rx.spelling Rx.anyCase "reside".toList), gap,
        Rx.spelling Rx.anyCase "at".toList, gap])
    group := .seq (pat (.char fun _ => true)) (.few none (pat (.char fun _ => true)))
    back := .alt (pat (.char (· == '.'))) .atEnd }

/-- `_MOCK_ID_PATTERN`. -/
def mockIdPattern : Rx.Grouped :=
  let pat := Rx.Part.ofPat py.isWord
  let space := Rx.Pat.char py.isSpace
  let exact (s : String) := Rx.spelling (· == ·) s.toList
  { front := pat (.cat .boundary
      [.alt (exact "id") (exact "ID"),
        .opt (.seq (.plus space) (.alt (exact "#") (.alt (exact "number")
          (.alt (.seq (exact "no") (.opt (exact "."))) (.alt (exact "is") (exact ":")))))),
        .rep 0 none space, .opt (.char fun c => c == ':' || c == '#'), .rep 0 none space])
    group := pat (.rep 5 (some 20) (.char fun c => c.isAlphanum || c == '-'))
    back := .empty }

end Patterns

/-! ### Extraction -/

/-- The triggers and the errors that they raise. -/
def mockFailTriggers : List (Text × LlmErrorKind) :=
  [("SIMULATE_LLM_TIMEOUT".toList, .timeout), ("SIMULATE_RATE_LIMIT".toList, .rateLimit),
    ("SIMULATE_PARSE_ERROR".toList, .responseParse)]

/-- An exception of `_mock_extract_facts`: an error of the LLM, a `ValueError`
of a conversion, or a `ValidationError` of the schema. -/
inductive MockFailure
  | llm (e : LlmError)
  | valueError
  | validation

/-- A value of the schema; its floats are floats of the platform. -/
structure SchemaValue (py : Python) where
  value : FactValue
  value_float : ∀ q, value = .float (.finite q) → py.round q = .finite q

/-- What a pattern found in a source; `value` is `none` where its conversion fails. -/
structure MockFind (py : Python) where
  key : Text
  value : Option (SchemaValue py)
  quote : Text

/-- The calls of `f` one after the other, up to the first exception. -/
def constructAll {ε α β : Type*} (f : α → Except ε β) : List α → Except ε (List β)
  | [] => .ok []
  | a :: rest => match f a with
    | .error e => .error e
    | .ok b => (constructAll f rest).map (b :: ·)

theorem constructAll_ok {ε α β : Type*} {f : α → Except ε β} {l : List α} {bs : List β} :
    constructAll f l = .ok bs ↔ List.Forall₂ (fun a b => f a = .ok b) l bs := by
  induction l generalizing bs with
  | nil => cases bs <;> simp [constructAll]
  | cons a l ih =>
    cases hf : f a with
    | error e => simp [constructAll, hf, List.forall₂_cons_left_iff]
    | ok b =>
      cases hl : constructAll f l with
      | error e =>
        have hnone : ∀ bs, ¬ List.Forall₂ (fun a b => f a = .ok b) l bs := fun bs h => by
          rw [← ih, hl] at h
          cases h
        simp [constructAll, hf, hl, Except.map, List.forall₂_cons_left_iff, hnone]
      | ok rest =>
        have hrest : ∀ bs, List.Forall₂ (fun a b => f a = .ok b) l bs ↔ rest = bs := fun bs => by
          rw [← ih, hl, Except.ok.injEq]
        simp [constructAll, hf, hl, Except.map, List.forall₂_cons_left_iff, hrest, eq_comm]

theorem constructAll_isOk {ε α β : Type*} {f : α → Except ε β} {l : List α} :
    (∃ bs, constructAll f l = .ok bs) ↔ ∀ a ∈ l, ∃ b, f a = .ok b := by
  simp only [constructAll_ok]
  induction l with
  | nil => simp
  | cons a l ih => simp [List.forall₂_cons_left_iff, ← ih]

/-- Each result belongs to an argument, and each argument has one. -/
theorem constructAll_mem {ε α β : Type*} {f : α → Except ε β} {l : List α} {bs : List β}
    (h : constructAll f l = .ok bs) :
    (∀ a ∈ l, ∃ b ∈ bs, f a = .ok b) ∧ ∀ b ∈ bs, ∃ a ∈ l, f a = .ok b := by
  have hall := constructAll_ok.mp h
  clear h
  induction hall with
  | nil => simp
  | cons hab _ ih =>
    refine ⟨List.forall_mem_cons.mpr ⟨⟨_, List.mem_cons_self, hab⟩, fun a ha => ?_⟩,
      List.forall_mem_cons.mpr ⟨⟨_, List.mem_cons_self, hab⟩, fun b hb => ?_⟩⟩
    · obtain ⟨b, hb, hf⟩ := ih.1 a ha
      exact ⟨b, List.mem_cons_of_mem _ hb, hf⟩
    · obtain ⟨a, ha, hf⟩ := ih.2 b hb
      exact ⟨a, List.mem_cons_of_mem _ ha, hf⟩

section Extract
variable (py : Python)

theorem floatOfText_round {s : Text} {q : ℚ} (h : py.floatOfText s = some (.finite q)) :
    py.round q = .finite q := by
  rw [floatOfText_eq] at h
  unfold readNumeral readUnsigned at h
  dsimp only at h
  split at h
  · cases h
  split at h
  · cases h
  obtain ⟨digits, -, h⟩ := Option.bind_eq_some_iff.mp h
  obtain ⟨r, -, h⟩ := Option.map_eq_some_iff.mp h
  split at h
  next hr =>
    cases h
    exact py.round_round _ _ hr
  · cases h

/-- `float(s)` as a value of the schema. -/
def floatValue (s : Text) : Option (SchemaValue py) := match h : py.floatOfText s with
  | none => none
  | some x => some ⟨.float x, fun _ hq => floatOfText_round py (FactValue.float.inj hq ▸ h)⟩

variable {py} in
def textValue (s : Text) : SchemaValue py := ⟨.str s, nofun⟩

/-- The first income pattern that has a match decides. -/
def incomeMatch (text : Text) : Option Rx.Match :=
  (mockIncomePatterns py).findSome? fun pattern => pattern.search [] text

def mockIncome (text : Text) : Option (MockFind py) := (incomeMatch py text).map fun m =>
  ⟨"monthly_income".toList, floatValue py (m.kept.filter (· ≠ ',')), py.strip m.whole⟩

def mockAddress (text : Text) : Option (MockFind py) := ((mockAddressPattern py).search [] text).map fun m =>
  ⟨"address".toList, some (textValue ((py.strip m.kept).reverse.dropWhile (· = '.')).reverse), py.strip m.whole⟩

def mockId (text : Text) : Option (MockFind py) := ((mockIdPattern py).search [] text).map fun m =>
  ⟨"government_id".toList, some (textValue (py.strip m.kept)), py.strip m.whole⟩

/-- What is found in a text, in the order in which it is appended. -/
def mockFinds (text : Text) : List (MockFind py) :=
  (mockIncome py text).toList ++ (mockAddress py text).toList ++ (mockId py text).toList

variable {py}

def mockConfidence (source : SourceText) : ℚ := if source.documentId = none then 11 / 20 else 93 / 100

/-- `RawExtractedEntity(...)`. -/
def mockEntity (source : SourceText) (find : MockFind py) : Except MockFailure (RawExtractedEntity py) :=
  match find.value with
  | none => .error .valueError
  | some v =>
    if h : (1 ≤ find.key.length ∧ find.key.length ≤ 100) ∧
        (0 ≤ mockConfidence source ∧ mockConfidence source ≤ 1) ∧ find.quote.length ≤ 2000 ∧
        ∀ id ∈ source.documentId, id.length ≤ 64 then
      .ok ⟨find.key, v.value, mockConfidence source, some find.quote, source.documentId, h.1, v.value_float,
        h.2.1, fun _ hs => Option.some.inj hs ▸ h.2.2.1, h.2.2.2⟩
    else .error .validation

/-- `json.dumps({"facts": [e.model_dump() for e in entities]})`. -/
def mockResponse (entities : List (RawExtractedEntity py)) : Text :=
  let optional (s : Option Text) := s.elim "null".toList (jsonString true)
  let dump (e : RawExtractedEntity py) := jsonObject
    [("key".toList, jsonString true e.key), ("value".toList, jsonValue py true e.value),
      ("confidence_score".toList, py.repr (.finite e.confidenceScore)),
      ("source_quote".toList, optional e.sourceQuote), ("document_id".toList, optional e.documentId)]
  jsonObject [("facts".toList, '[' :: (join ", ".toList (entities.map dump) ++ [']']))]

/-- `ExtractionResult(facts=entities)` and the call that is returned with it. -/
def mockCall (sources : List SourceText) (entities : List (RawExtractedEntity py)) :
    Except MockFailure (ExtractionCall py) :=
  if h : entities.length ≤ 50 then
    .ok ⟨⟨entities, h⟩, 1, some 0, "mock-extractor".toList, buildUserPrompt sources, mockResponse entities⟩
  else .error .validation

variable (py) in
/-- The entities source by source. -/
def mockEntities (sources : List SourceText) : Except MockFailure (List (List (RawExtractedEntity py))) :=
  constructAll (fun s => constructAll (mockEntity s) (mockFinds py s.text)) sources

variable (py) in
def mockExtractFacts (sources : List SourceText) : Except MockFailure (ExtractionCall py) :=
  let joined := join "\n".toList (sources.map (·.text))
  match mockFailTriggers.find? fun trigger => containsText joined trigger.1 with
  | some (trigger, kind) =>
    .error (.llm ⟨kind, "Mock extractor triggered by marker '".toList ++ trigger ++ "'.".toList⟩)
  | none => match mockEntities py sources with
    | .error e => .error e
    | .ok parts => mockCall sources parts.flatten

end Extract

/-! ### What the patterns find -/

section Finds
variable {py : Python}

theorem not_space_of_word {c : Char} (h : py.isWord c = true) : py.isSpace c = false := by
  cases hs : py.isSpace c with
  | false => rfl
  | true =>
    rw [py.not_word_of_space c hs] at h
    cases h

theorem not_space_of_anyCase {x : Char} (h : Rx.anyCase 'a' x = true) : py.isSpace x = false := by
  have hx : x.toLower = 'a' := by simpa [Rx.anyCase] using h
  have hascii : x = 'a' ∨ x = 'A' := by
    cases hup : x.isUpper with
    | false => exact .inl (by rwa [toLower_of_not_upper hup] at hx)
    | true =>
      have hnat := (toLower_toNat hup).2.2
      rw [hx] at hnat
      exact .inr (Char.toNat_inj.mp (by have : 'a'.toNat = 97 := rfl; have : 'A'.toNat = 65 := rfl; omega))
  rcases hascii with rfl | rfl
  · rw [py.space_ascii 'a' (by decide)]
    rfl
  · rw [py.space_ascii 'A' (by decide)]
    rfl

/-- The texts of an amount: digits and commas, then perhaps a fraction. -/
theorem spells_amount {m : Text} (h : (amountPat py).Spells m) :
    ∃ run f, m = run ++ f ∧ run ≠ [] ∧ (∀ c ∈ run, isDecimal py c = true ∨ c = ',') ∧
      (f = [] ∨ ∃ ds, f = '.' :: ds ∧ ds ≠ [] ∧ ∀ c ∈ ds, isDecimal py c = true) := by
  obtain ⟨run, f, rfl, hrun, hf⟩ := h
  obtain ⟨hlen, hall⟩ := Rx.spells_run hrun
  refine ⟨run, f, rfl, List.length_pos_iff.mp hlen, fun c hc => by simpa using hall c hc, ?_⟩
  rcases Rx.spells_opt hf with rfl | ⟨u, ds, rfl, ⟨c, hdot, rfl⟩, hds⟩
  · exact .inl rfl
  · obtain ⟨hlen, hall⟩ := Rx.spells_run hds
    rw [beq_iff_eq.mp hdot]
    exact .inr ⟨ds, rfl, List.length_pos_iff.mp hlen, hall⟩

theorem not_decimal {c : Char} (hascii : c.toNat < 128) (hc : c.isDigit = false) : isDecimal py c = false := by
  simp [isDecimal, py.digit_ascii c hascii, asciiDigit, hc]

theorem floatValue_ne_none {s : Text} : floatValue py s ≠ none ↔ (py.floatOfText s).isSome = true := by
  unfold floatValue
  split
  next h => exact iff_of_false (not_not.mpr rfl) (by simp [h])
  next h => exact iff_of_true (Option.some_ne_none _) (by simp [h])

/-- An amount is a number unless it is made of commas. -/
theorem floatValue_amount {m : Text} (h : (amountPat py).Spells m) :
    floatValue py (m.filter (· ≠ ',')) ≠ none ↔ ∃ c ∈ m, c ≠ ',' := by
  rw [floatValue_ne_none]
  constructor
  · intro hsome
    by_contra hcommas
    have hnil : m.filter (· ≠ ',') = [] := List.filter_eq_nil_iff.mpr fun c hc => by
      have := not_exists.mp hcommas c
      simpa [hc] using this
    rw [hnil] at hsome
    cases hsome
  · rintro ⟨c, hc, hne⟩
    obtain ⟨run, f, rfl, -, hrun, hf⟩ := spells_amount h
    have hparts : DecimalParts (fun c => (py.digit c).isSome) (run.filter (· ≠ ',')) f := by
      refine ⟨fun c hc => ?_, hf⟩
      obtain ⟨hc, hne⟩ := List.mem_filter.mp hc
      exact (hrun c hc).resolve_right (of_decide_eq_true hne)
    have hfraction : f.filter (· ≠ ',') = f := by
      refine List.filter_eq_self.mpr fun c hc => decide_eq_true ?_
      rintro rfl
      rcases hf with rfl | ⟨ds, rfl, -, hds⟩
      · cases hc
      · rcases List.mem_cons.mp hc with hc | hc
        · exact absurd hc (by decide)
        · have := hds ',' hc
          rw [not_decimal (by decide) rfl] at this
          cases this
    have hne : (run ++ f).filter (· ≠ ',') ≠ [] :=
      List.ne_nil_of_mem (List.mem_filter.mpr ⟨hc, decide_eq_true hne⟩)
    rw [List.filter_append, hfraction] at hne ⊢
    exact hparts.floatOfText_isSome hne

theorem ascii_of_alphanum {c : Char} (h : c.isAlphanum = true) : c.toNat < 128 := by
  simp only [Char.isAlphanum, Char.isAlpha, Char.isUpper, Char.isLower, Char.isDigit, Bool.or_eq_true,
    Bool.and_eq_true, decide_eq_true_eq, ge_iff_le, UInt32.le_iff_toNat_le] at h
  have hc : c.toNat = c.val.toNat := rfl
  have hZ : 'Z'.val.toNat = 90 := rfl
  have hz : 'z'.val.toNat = 122 := rfl
  have h9 : '9'.val.toNat = 57 := rfl
  omega

/-- A quote is a slice of the text, and not empty where something in it is no blank. -/
theorem strip_slice {whole text : Text} (hslice : whole <:+: text) {c : Char} (hc : c ∈ whole)
    (hspace : py.isSpace c = false) : py.strip whole ≠ [] ∧ py.strip whole <:+: text :=
  ⟨List.ne_nil_of_mem (mem_stripBy hc hspace), (stripBy_slice _ _).trans hslice⟩

theorem incomeMatch_sound {text : Text} {m : Rx.Match} (h : incomeMatch py text = some m) :
    m.whole <:+: text ∧ (amountPat py).Spells m.kept ∧ m.kept <:+: m.whole := by
  obtain ⟨g, hg, hm⟩ := List.exists_of_findSome?_eq_some h
  obtain ⟨hslice, u, k, v, hsound⟩ := Rx.Grouped.sound_of_search hm
  refine ⟨hslice, ?_, ?_⟩
  · rw [hsound.kept]
    simp only [mockIncomePatterns, List.mem_cons, List.not_mem_nil, or_false] at hg
    rcases hg with rfl | rfl
    · exact hsound.group
    · exact hsound.group
  · rw [hsound.kept, hsound.whole]
    exact List.infix_append u k v

/-- What a find is worth: a known key and a quote that is a slice of the text. -/
structure MockFind.Sound (text : Text) (f : MockFind py) : Prop where
  key : f.key ∈ knownFactKeys
  quote : f.quote ≠ [] ∧ f.quote <:+: text

theorem mockIncome_sound {text : Text} {f : MockFind py} (h : mockIncome py text = some f) : f.Sound text := by
  obtain ⟨m, hm, rfl⟩ := Option.map_eq_some_iff.mp h
  obtain ⟨hslice, hkept, hinside⟩ := incomeMatch_sound hm
  refine ⟨(by decide : "monthly_income".toList ∈ knownFactKeys), ?_⟩
  obtain ⟨run, tail, heq, hne, hrun, -⟩ := spells_amount hkept
  obtain ⟨c, hc⟩ := List.exists_mem_of_ne_nil run hne
  have hspace : py.isSpace c = false := by
    rcases hrun c hc with hd | rfl
    · exact not_space_of_word (py.word_of_digit c hd)
    · rw [py.space_ascii ',' (by decide)]
      rfl
  exact strip_slice hslice (hinside.subset (heq ▸ List.mem_append_left tail hc)) hspace

theorem mockAddress_sound {text : Text} {f : MockFind py} (h : mockAddress py text = some f) : f.Sound text := by
  obtain ⟨m, hm, rfl⟩ := Option.map_eq_some_iff.mp h
  obtain ⟨hslice, u, k, v, hsound⟩ := Rx.Grouped.sound_of_search hm
  refine ⟨(by decide : "address".toList ∈ knownFactKeys), ?_⟩
  obtain ⟨w, hw, hinside⟩ := Rx.spells_cat hsound.front (b := Rx.spelling Rx.anyCase "at".toList) (by simp)
  obtain ⟨x, hx, hcase⟩ := Rx.spells_spelling hw (c := 'a') (by decide)
  have hmem : x ∈ m.whole := by
    rw [hsound.whole]
    exact List.mem_append_left _ (List.mem_append_left _ (hinside.subset hx))
  exact strip_slice hslice hmem (not_space_of_anyCase hcase)

theorem mockId_sound {text : Text} {f : MockFind py} (h : mockId py text = some f) : f.Sound text := by
  obtain ⟨m, hm, rfl⟩ := Option.map_eq_some_iff.mp h
  obtain ⟨hslice, u, k, v, hsound⟩ := Rx.Grouped.sound_of_search hm
  refine ⟨(by decide : "government_id".toList ∈ knownFactKeys), ?_⟩
  obtain ⟨hlen, hall⟩ := Rx.spells_run hsound.group
  obtain ⟨c, hc⟩ := List.exists_mem_of_length_pos (Nat.lt_of_lt_of_le (by decide : 0 < 5) hlen)
  have hmem : c ∈ m.whole := by
    rw [hsound.whole]
    exact List.mem_append_left _ (List.mem_append_right _ hc)
  refine strip_slice hslice hmem ?_
  have hclass : c.isAlphanum = true ∨ c = '-' := by simpa using hall c hc
  rcases hclass with halnum | rfl
  · refine not_space_of_word ?_
    rw [py.word_ascii c (ascii_of_alphanum halnum)]
    simp [asciiWord, halnum]
  · rw [py.space_ascii '-' (by decide)]
    rfl

theorem mockFinds_sound {text : Text} {f : MockFind py} (h : f ∈ mockFinds py text) : f.Sound text := by
  simp only [mockFinds, List.mem_append, Option.mem_toList] at h
  rcases h with (h | h) | h
  · exact mockIncome_sound h
  · exact mockAddress_sound h
  · exact mockId_sound h

/-- Only the conversion of an income can fail. -/
theorem mockFinds_value {text : Text} : (∀ f ∈ mockFinds py text, f.value ≠ none) ↔
    ∀ m, incomeMatch py text = some m → ∃ c ∈ m.kept, c ≠ ',' := by
  have hmem : ∀ f, f ∈ mockFinds py text ↔
      mockIncome py text = some f ∨ mockAddress py text = some f ∨ mockId py text = some f := fun f => by
    simp only [mockFinds, List.mem_append, Option.mem_toList, or_assoc]
  constructor
  · intro h m hm
    refine (floatValue_amount (incomeMatch_sound hm).2.1).mp ?_
    exact h _ ((hmem _).mpr (.inl (by rw [mockIncome, hm]; rfl)))
  · intro h f hf
    rcases (hmem f).mp hf with hf | hf | hf
    · obtain ⟨m, hm, rfl⟩ := Option.map_eq_some_iff.mp hf
      exact (floatValue_amount (incomeMatch_sound hm).2.1).mpr (h m hm)
    · obtain ⟨m, -, rfl⟩ := Option.map_eq_some_iff.mp hf
      exact Option.some_ne_none _
    · obtain ⟨m, -, rfl⟩ := Option.map_eq_some_iff.mp hf
      exact Option.some_ne_none _

end Finds

/-! ### The contract -/

section Contract
variable {py : Python} {sources : List SourceText}

/-- The trigger occurs in one of the texts. -/
def Triggered (sources : List SourceText) (trigger : Text × LlmErrorKind) : Prop :=
  trigger ∈ mockFailTriggers ∧ ∃ s ∈ sources, trigger.1 <:+: s.text

/-- The entity quotes its source, has the identifier of its source, and is kept by the validator. -/
structure TakenFrom (sources : List SourceText) (s : SourceText) (e : RawExtractedEntity py) : Prop where
  document : e.documentId = s.documentId
  quote : ∃ q, e.sourceQuote = some q ∧ q <:+: s.text
  kept : validateEntity sources e = some ⟨e, e.documentId.filter (· ≠ [])⟩

/-- A typed error of a trigger that occurs, or a result whose entities are
taken from the sources, one after the other, and are kept. -/
inductive MeetsContract (sources : List SourceText) : Except MockFailure (ExtractionCall py) → Prop
  | triggered {trigger : Text × LlmErrorKind} {e : LlmError} (h : Triggered sources trigger)
      (he : e.kind = trigger.2) : MeetsContract sources (.error (.llm e))
  | extracted {call : ExtractionCall py} (parts : List (List (RawExtractedEntity py)))
      (h : call.result.facts = parts.flatten)
      (hparts : List.Forall₂ (fun s es => ∀ e ∈ es, TakenFrom sources s e) sources parts) :
      MeetsContract sources (.ok call)

/-- What the conversion, the schema and the validator ask of the texts. -/
structure Extractable (py : Python) (sources : List SourceText) : Prop where
  number : ∀ s ∈ sources, ∀ m, incomeMatch py s.text = some m → ∃ c ∈ m.kept, c ≠ ','
  quote_length : ∀ s ∈ sources, ∀ f ∈ mockFinds py s.text, f.quote.length ≤ 2000
  document_length : ∀ s ∈ sources, mockFinds py s.text ≠ [] → ∀ id ∈ s.documentId, id.length ≤ 64
  sigma : ∀ s ∈ sources, ∀ f ∈ mockFinds py s.text, 'Σ' ∈ f.quote → FoundIn py sources s f.quote
  total : (sources.map fun s => (mockFinds py s.text).length).sum ≤ 50

theorem mockEntity_fields {s : SourceText} {f : MockFind py} {e : RawExtractedEntity py}
    (h : mockEntity s f = .ok e) : e.key = f.key ∧ e.sourceQuote = some f.quote ∧ e.documentId = s.documentId := by
  unfold mockEntity at h
  split at h
  · cases h
  · split_ifs at h
    cases h
    exact ⟨rfl, rfl, rfl⟩

/-- The schema only looks at the lengths of the quote and of the identifier. -/
theorem mockEntity_isOk {s : SourceText} {f : MockFind py} (hkey : f.key ∈ knownFactKeys) :
    (∃ e, mockEntity s f = .ok e) ↔
      f.value ≠ none ∧ f.quote.length ≤ 2000 ∧ ∀ id ∈ s.documentId, id.length ≤ 64 := by
  have hkeys : ∀ k ∈ knownFactKeys, 1 ≤ k.length ∧ k.length ≤ 100 := by decide
  have hconfidence : 0 ≤ mockConfidence s ∧ mockConfidence s ≤ 1 := by
    unfold mockConfidence
    split_ifs <;> norm_num
  unfold mockEntity
  split
  next hnone => simp [hnone]
  next v hv =>
    simp only [hkeys _ hkey, hconfidence, and_self, true_and, hv, ne_eq, reduceCtorEq, not_false_eq_true]
    split_ifs with hfits
    · exact iff_of_true ⟨_, rfl⟩ hfits
    · exact iff_of_false (fun ⟨_, h⟩ => by cases h) hfits

theorem takenFrom_iff (hdistinct : (sources.filterMap fun s => s.documentId.filter (· ≠ [])).Nodup)
    {s : SourceText} (hs : s ∈ sources) {f : MockFind py} (hf : f.Sound s.text) {e : RawExtractedEntity py}
    (he : mockEntity s f = .ok e) :
    validateEntity sources e = some ⟨e, e.documentId.filter (· ≠ [])⟩ ↔ FoundIn py sources s f.quote := by
  obtain ⟨hkey, hquote, hdoc⟩ := mockEntity_fields he
  have htext : s.text ≠ [] := fun h => hf.quote.1 (List.infix_nil.mp (h ▸ hf.quote.2))
  exact validateEntity_iff_found hdistinct hs (hkey ▸ hf.key) (by rw [hdoc]) hquote hf.quote.1 htext

/-- Without a capital sigma a slice of a text is found in it. -/
theorem contains_slice (hlower : ∀ a q b, 'Σ' ∉ q → py.lower q <:+: py.lower (a ++ q ++ b)) {t q : Text}
    (hq : q ≠ []) (hslice : q <:+: t) (hsigma : 'Σ' ∉ q) : contains py t q = true := by
  obtain ⟨a, b, rfl⟩ := hslice
  refine contains_iff.mpr ⟨hq, ?_⟩
  rw [normalizeText_eq, normalizeText_eq]
  exact Words.collapse_slice (hlower a q b hsigma)

theorem infix_joined {trigger : Text × LlmErrorKind} (h : trigger ∈ mockFailTriggers) :
    containsText (join "\n".toList (sources.map (·.text))) trigger.1 = true ↔ Triggered sources trigger := by
  have hplain : ∀ trigger ∈ mockFailTriggers, '\n' ∉ trigger.1 ∧ trigger.1 ≠ [] := by decide
  obtain ⟨hline, hne⟩ := hplain trigger h
  have hsep : ∀ c ∈ "\n".toList, c ∉ trigger.1 := List.forall_mem_singleton.mpr hline
  rw [containsText_iff, join_eq_intercalate, Triggered, and_iff_right h,
    Places.infix_intercalate (by decide) hsep hne]
  simp only [List.mem_map, exists_exists_and_eq_and]

/-- A trigger that occurs is raised. -/
theorem mockExtractFacts_triggered (h : ∃ trigger, Triggered sources trigger) :
    MeetsContract sources (mockExtractFacts py sources) := by
  obtain ⟨trigger, ht⟩ := h
  have hsome : (mockFailTriggers.find? fun trigger =>
      containsText (join "\n".toList (sources.map (·.text))) trigger.1).isSome = true :=
    List.find?_isSome.mpr ⟨trigger, ht.1, (infix_joined ht.1).mpr ht⟩
  obtain ⟨first, hfirst⟩ := Option.isSome_iff_exists.mp hsome
  have hmem := List.mem_of_find?_eq_some hfirst
  have hoccurs : Triggered sources first := (infix_joined hmem).mp (List.find?_some hfirst :)
  simp only [mockExtractFacts, hfirst]
  exact .triggered hoccurs rfl

theorem mockExtractFacts_untriggered (h : ¬ ∃ trigger, Triggered sources trigger) :
    mockExtractFacts py sources = match mockEntities py sources with
      | .error e => .error e
      | .ok parts => mockCall sources parts.flatten := by
  have hnone : (mockFailTriggers.find? fun trigger =>
      containsText (join "\n".toList (sources.map (·.text))) trigger.1) = none :=
    List.find?_eq_none.mpr fun trigger ht hoccurs => h ⟨trigger, (infix_joined ht).mp hoccurs⟩
  simp only [mockExtractFacts, hnone]

/-- The entities of all sources are built exactly when each find of each source passes. -/
theorem entities_isOk :
    (∃ parts, mockEntities py sources = .ok parts) ↔
      ∀ s ∈ sources, ∀ f ∈ mockFinds py s.text,
        f.value ≠ none ∧ f.quote.length ≤ 2000 ∧ ∀ id ∈ s.documentId, id.length ≤ 64 := by
  rw [mockEntities, constructAll_isOk]
  refine forall₂_congr fun s _ => ?_
  rw [constructAll_isOk]
  exact forall₂_congr fun f hf => mockEntity_isOk (mockFinds_sound hf).key

theorem length_entities {parts : List (List (RawExtractedEntity py))}
    (h : mockEntities py sources = .ok parts) :
    parts.flatten.length = (sources.map fun s => (mockFinds py s.text).length).sum := by
  have hlengths : sources.map (fun s => (mockFinds py s.text).length) = parts.map List.length := by
    refine List.forall₂_eq_eq_eq ▸ List.forall₂_map_left_iff.mpr (List.forall₂_map_right_iff.mpr ?_)
    exact (constructAll_ok.mp h).imp fun s es hes => (constructAll_ok.mp hes).length_eq
  rw [hlengths, List.length_flatten]

theorem entity_of_find {parts : List (List (RawExtractedEntity py))} (h : mockEntities py sources = .ok parts)
    {s : SourceText} (hs : s ∈ sources) {f : MockFind py} (hf : f ∈ mockFinds py s.text) :
    ∃ e ∈ parts.flatten, mockEntity s f = .ok e := by
  obtain ⟨es, hes, hparts⟩ := (constructAll_mem h).1 s hs
  obtain ⟨e, he, hentity⟩ := (constructAll_mem hparts).1 f hf
  exact ⟨e, List.mem_flatten.mpr ⟨es, hes, he⟩, hentity⟩

theorem kept_of_taken {l : List SourceText} {parts : List (List (RawExtractedEntity py))}
    (h : List.Forall₂ (fun s es => ∀ e ∈ es, TakenFrom sources s e) l parts) :
    ∀ e ∈ parts.flatten, validateEntity sources e = some ⟨e, e.documentId.filter (· ≠ [])⟩ := by
  induction h with
  | nil => simp
  | cons hes _ ih => exact List.forall_mem_append.mpr ⟨fun e he => (hes e he).kept, ih⟩

theorem extractable_of_kept (hdistinct : (sources.filterMap fun s => s.documentId.filter (· ≠ [])).Nodup)
    {parts : List (List (RawExtractedEntity py))} (h : mockEntities py sources = .ok parts)
    (hlen : parts.flatten.length ≤ 50)
    (hkept : ∀ e ∈ parts.flatten, validateEntity sources e = some ⟨e, e.documentId.filter (· ≠ [])⟩) :
    Extractable py sources := by
  have hpassed := entities_isOk.mp ⟨parts, h⟩
  refine ⟨fun s hs => mockFinds_value.mp fun f hf => (hpassed s hs f hf).1,
    fun s hs f hf => (hpassed s hs f hf).2.1, fun s hs hne => ?_, fun s hs f hf _ => ?_, ?_⟩
  · obtain ⟨f, hf⟩ := List.exists_mem_of_ne_nil _ hne
    exact (hpassed s hs f hf).2.2
  · obtain ⟨e, he, hentity⟩ := entity_of_find h hs hf
    exact (takenFrom_iff hdistinct hs (mockFinds_sound hf) hentity).mp (hkept e he)
  · rw [← length_entities h]
    exact hlen

theorem Extractable.entities (h : Extractable py sources) : ∃ parts, mockEntities py sources = .ok parts :=
  entities_isOk.mpr fun s hs f hf => ⟨mockFinds_value.mpr (h.number s hs) f hf, h.quote_length s hs f hf,
    h.document_length s hs (List.ne_nil_of_mem hf)⟩

theorem Extractable.takenFrom (hlower : ∀ a q b, 'Σ' ∉ q → py.lower q <:+: py.lower (a ++ q ++ b))
    (hdistinct : (sources.filterMap fun s => s.documentId.filter (· ≠ [])).Nodup) (h : Extractable py sources)
    {s : SourceText} (hs : s ∈ sources) {f : MockFind py} (hf : f ∈ mockFinds py s.text)
    {e : RawExtractedEntity py} (he : mockEntity s f = .ok e) : TakenFrom sources s e := by
  obtain ⟨-, hquote, hdoc⟩ := mockEntity_fields he
  have hsound := mockFinds_sound hf
  have hfound : FoundIn py sources s f.quote := by
    by_cases hsigma : 'Σ' ∈ f.quote
    · exact h.sigma s hs f hf hsigma
    · exact foundIn_of_contains hs (contains_slice hlower hsound.quote.1 hsound.quote.2 hsigma)
  exact ⟨hdoc, ⟨f.quote, hquote, hsound.quote.2⟩, (takenFrom_iff hdistinct hs hsound he).mpr hfound⟩

/-- The contract is met exactly when a trigger occurs or the texts are extractable. -/
theorem mockExtractFacts_contract_iff (hlower : ∀ a q b, 'Σ' ∉ q → py.lower q <:+: py.lower (a ++ q ++ b))
    (sources : List SourceText) (hdistinct : (sources.filterMap fun s => s.documentId.filter (· ≠ [])).Nodup) :
    MeetsContract sources (mockExtractFacts py sources) ↔
      (∃ trigger, Triggered sources trigger) ∨ Extractable py sources := by
  by_cases htrigger : ∃ trigger, Triggered sources trigger
  · exact iff_of_true (mockExtractFacts_triggered htrigger) (.inl htrigger)
  rw [or_iff_right htrigger, mockExtractFacts_untriggered htrigger]
  constructor
  · intro h
    cases hparts : mockEntities py sources with
    | error e =>
      rw [hparts] at h
      cases h with
      | triggered h => exact absurd ⟨_, h⟩ htrigger
    | ok parts =>
      simp only [hparts, mockCall] at h
      split_ifs at h with hlen
      · cases h with
        | extracted taken hfacts htaken =>
          have heq : parts.flatten = taken.flatten := hfacts
          exact extractable_of_kept hdistinct hparts hlen (heq ▸ kept_of_taken htaken)
      · cases h
  · intro h
    obtain ⟨parts, hparts⟩ := h.entities
    have hlen : parts.flatten.length ≤ 50 := by
      rw [length_entities hparts]
      exact h.total
    simp only [hparts, mockCall, dif_pos hlen]
    refine .extracted parts rfl ?_
    have hsources := (List.forall₂_and_left (p := (· ∈ sources)) _ _).mpr ⟨fun _ hs => hs, constructAll_ok.mp hparts⟩
    refine hsources.imp fun s es ⟨hs, hes⟩ e he => ?_
    obtain ⟨f, hf, hentity⟩ := (constructAll_mem hes).2 e he
    exact h.takenFrom hlower hdistinct hs hf hentity

end Contract

def isValueError {α : Type*} : Except MockFailure α → Bool
  | .error .valueError => true
  | _ => false

/-- A message that names a sum without digits. -/
def commaIncome : SourceText := ⟨"message".toList, none, "monthly $,".toList⟩

theorem commaIncome_breaks : ([commaIncome].filterMap fun s => s.documentId.filter (· ≠ [])).Nodup ∧
    ¬ MeetsContract [commaIncome] (mockExtractFacts asciiPython [commaIncome]) := by
  refine ⟨by decide, fun h => ?_⟩
  have hfails : isValueError (mockExtractFacts asciiPython [commaIncome]) = true := by decide +kernel
  cases hcall : mockExtractFacts asciiPython [commaIncome] with
  | ok call =>
    rw [hcall] at hfails
    cases hfails
  | error e =>
    rw [hcall] at hfails h
    cases h
    cases hfails

/-- A pay stub and a message. -/
def stubAndMessage : List SourceText :=
  [⟨"stub".toList, some "d1".toList, "Monthly pay $5,000.50".toList⟩,
    ⟨"message".toList, none, "I live at 1 Elm St. ID: AB-12345".toList⟩]

theorem mockExtractFacts_contract_iff_stub :
    MeetsContract stubAndMessage (mockExtractFacts asciiPython stubAndMessage) := by
  have hlower : ∀ a q b : Text, 'Σ' ∉ q → asciiPython.lower q <:+: asciiPython.lower (a ++ q ++ b) := fun a q b _ =>
    ⟨a.map Char.toLower, b.map Char.toLower, by simp [asciiPython]⟩
  have hfinds : (stubAndMessage.all fun s => (mockFinds asciiPython s.text).all fun f =>
      f.value.isSome && decide (f.quote.length ≤ 2000) && decide ('Σ' ∉ f.quote)) = true := by decide +kernel
  simp only [List.all_eq_true, Bool.and_eq_true, decide_eq_true_eq] at hfinds
  have hnumber : ∀ s ∈ stubAndMessage, ∀ f ∈ mockFinds asciiPython s.text, f.value ≠ none := fun s hs f hf =>
    Option.isSome_iff_ne_none.mp (hfinds s hs f hf).1.1
  refine (mockExtractFacts_contract_iff hlower stubAndMessage (by decide)).mpr (.inr
    ⟨fun s hs => mockFinds_value.mp (hnumber s hs), fun s hs f hf => (hfinds s hs f hf).1.2,
      fun s hs _ => ?_, fun s hs f hf h => absurd h (hfinds s hs f hf).2, by decide +kernel⟩)
  have hids : ∀ s ∈ stubAndMessage, ∀ id ∈ s.documentId, id.length ≤ 64 := by decide
  exact hids s hs

end LoanAgent
