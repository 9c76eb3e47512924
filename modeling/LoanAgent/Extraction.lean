import LoanAgent.DocumentParser
import LoanAgent.Redaction

/-! Extraction of facts: the schema of the model's answer, the call with its
retries, the validation of every quote against the text it is said to come
from, and the rows that are written. The model is given by what it answers to a
prompt. Proved: a validated entity has a known key and a quote that its source
contains, a row keeps the key, the quote and the source of its entity, and the
audit row of an answered call has no PII. -/

namespace LoanAgent

/-! ### Schema -/

/-- `FACT_VALUE` floats are floats of the platform. -/
structure RawExtractedEntity (py : Python) where
  key : Text
  value : FactValue
  confidenceScore : ℚ
  sourceQuote : Option Text
  documentId : Option Text
  key_length : 1 ≤ key.length ∧ key.length ≤ 100
  value_float : ∀ q, value = .float (.finite q) → py.round q = .finite q
  confidence_range : 0 ≤ confidenceScore ∧ confidenceScore ≤ 1
  quote_length : ∀ s, sourceQuote = some s → s.length ≤ 2000
  document_length : ∀ s, documentId = some s → s.length ≤ 64

structure ExtractionResult (py : Python) where
  facts : List (RawExtractedEntity py)
  facts_length : facts.length ≤ 50

def knownFactKeys : List Text :=
  ["monthly_income".toList, "annual_income".toList, "employer_name".toList, "address".toList,
    "government_id".toList, "employment_status".toList]

def requiredFactKeys : List Text :=
  ["government_id".toList, "monthly_income".toList, "address".toList]

/-! ### Calling the model -/

structure SourceText where
  label : Text
  documentId : Option Text
  text : Text
  deriving DecidableEq

/-- `s.replace(old, new)` behind `skip` characters of an occurrence already replaced. -/
def replaceText (old new : Text) : ℕ → Text → Text
  | _, [] => []
  | skip + 1, _ :: rest => replaceText old new skip rest
  | 0, c :: rest =>
    if startsWith (c :: rest) old then new ++ replaceText old new (old.length - 1) rest
    else c :: replaceText old new 0 rest

def sourceBlock (source : SourceText) : Text :=
  let origin := match source.documentId with
    | some id => if id = [] then "ORIGIN=chat_transcript".toList else "DOCUMENT_ID=".toList ++ id
    | none => "ORIGIN=chat_transcript".toList
  let safeText := replaceText "]]>".toList "]]]]><![CDATA[>".toList 0 (source.text.take 20000)
  "<SOURCE ".toList ++ origin ++ " label=\"".toList ++ source.label ++ "\">\n<![CDATA[\n".toList ++
    safeText ++ "\n]]>\n</SOURCE>".toList

def buildUserPrompt (sources : List SourceText) : Text :=
  let full := "Extract all supported financial facts from the following sources.\n\n".toList ++
    join "\n\n".toList (sources.map sourceBlock) ++
    "\n\nReturn JSON matching the ExtractionResult schema.".toList
  full.take 80000

/-- What is read from a response. -/
structure Completion where
  content : Option Text
  cost : Option ℚ
  model : Text
  latencyMs : ℕ

/-- How one attempt ends; a response without the fields that are read is `unreadable`. -/
inductive Attempt
  | completed (response : Completion)
  | unreadable
  | rateLimit
  | timeout
  | authentication
  | badRequest (message : Text)
  | connection
  | other (message : Text)

/-- The provider and the schema validation, with the number of errors it counts. -/
structure Llm (py : Python) where
  attempt : Text → ℕ → Attempt
  validate : Text → Except ℕ (ExtractionResult py)

inductive LlmErrorKind
  | rateLimit | timeout | responseParse | configuration | provider
  deriving DecidableEq

structure LlmError where
  kind : LlmErrorKind
  detail : Text
  deriving DecidableEq

def LlmError.className (e : LlmError) : Text :=
  match e.kind with
  | .rateLimit => "LLMRateLimitError".toList
  | .timeout => "LLMTimeoutError".toList
  | .responseParse => "LLMResponseParseError".toList
  | .configuration => "LLMConfigurationError".toList
  | .provider => "LLMProviderError".toList

/-- `f"{exc.__class__.__name__}: {exc}"`. -/
def LlmError.text (e : LlmError) : Text := e.className ++ ':' :: ' ' :: e.detail

def LlmError.code (e : LlmError) : Text :=
  match e.kind with
  | .rateLimit => "llm_rate_limited".toList
  | .timeout => "llm_timeout".toList
  | .responseParse => "llm_output_unparseable".toList
  | .configuration => "llm_misconfigured".toList
  | .provider => "llm_provider_error".toList

/-- What ends a pipeline run that is not caught on the way. -/
inductive RunError
  | lib (e : LibError)
  | os (e : OsError)
  | llmResponse
  | overflow
  | database
  deriving DecidableEq

inductive CallFailure
  | typed (e : LlmError)
  | untyped
  deriving DecidableEq

structure ExtractionCall (py : Python) where
  result : ExtractionResult py
  latencyMs : ℕ
  costUsd : Option ℚ
  modelName : Text
  promptExcerpt : Text
  responseRaw : Text

section Call
variable {py : Python} (settings : Settings) (llm : Llm py)

/-- The attempts from the given one on; only a rate limit is tried again. -/
def complete (prompt : Text) : ℕ → ℕ → Except CallFailure Completion
  | retries, attempt => match llm.attempt prompt attempt with
    | .completed response => .ok response
    | .unreadable => .error .untyped
    | .rateLimit => match retries with
      | 0 => .error (.typed ⟨.rateLimit, "LLM rate limit persisted after ".toList ++
          intText (attempt + 1) ++ " attempts.".toList⟩)
      | retries + 1 => complete prompt retries (attempt + 1)
    | .timeout => .error (.typed ⟨.timeout, "LLM call exceeded ".toList ++
        py.strOf (.float settings.llmTimeoutSeconds) ++ "s.".toList⟩)
    | .authentication => .error (.typed ⟨.configuration,
        "LLM provider rejected the configured credentials.".toList⟩)
    | .badRequest message => .error (.typed ⟨.configuration,
        "LLM rejected the request as malformed: ".toList ++ message⟩)
    | .connection => .error (.typed ⟨.provider, "Could not reach the LLM provider.".toList⟩)
    | .other message => .error (.typed ⟨.provider, "LLM provider error: ".toList ++ message⟩)

def extractFacts (sources : List SourceText) : Except CallFailure (ExtractionCall py) :=
  let userPrompt := buildUserPrompt sources
  match complete settings llm userPrompt settings.llmMaxRetries 0 with
  | .error e => .error e
  | .ok response =>
    let rawContent := response.content.getD []
    match llm.validate rawContent with
    | .error count => .error (.typed ⟨.responseParse,
        "LLM output failed schema validation: ".toList ++ intText count ++ " error(s).".toList⟩)
    | .ok result => .ok ⟨result, response.latencyMs, response.cost, response.model, userPrompt, rawContent⟩

/-- What `extract_trace` goes on with. -/
inductive ModelAnswer (py : Python)
  | skipped
  | degraded (e : LlmError)
  | answered (call : ExtractionCall py)

def askModel (sources : List SourceText) : Except RunError (ModelAnswer py) :=
  if sources = [] then .ok .skipped
  else match extractFacts settings llm sources with
    | .ok call => .ok (.answered call)
    | .error (.typed e) => .ok (.degraded e)
    | .error .untyped => .error .llmResponse

end Call

/-! ### Validation -/

section Validate
variable (py : Python)

/-- `re.sub(r"[\s\W]+", " ", s.lower())`. -/
def normalizeText (s : Text) : Text :=
  (Rx.subn py.isWord (.plus (.char fun c => py.isSpace c || !py.isWord c)) [' '] (py.lower s)).1

/-- `_contains`. -/
def contains (haystack needle : Text) : Bool :=
  needle != [] && containsText (normalizeText py haystack) (normalizeText py needle)

structure ValidatedEntity where
  entity : RawExtractedEntity py
  documentId : Option Text

variable {py}

/-- `{s.document_id: s.text for s in sources if s.document_id}`; of two texts
under one identifier the later one is found. -/
def docTexts (sources : List SourceText) : List (Text × Text) :=
  (sources.filterMap fun s => match s.documentId with
    | some id => if id = [] then none else some (id, s.text)
    | none => none).reverse

def chatTexts (sources : List SourceText) : List Text :=
  sources.filterMap fun s => match s.documentId with
    | some id => if id = [] then some s.text else none
    | none => some s.text

/-- One round of the loop in `_validate_entities`. -/
def validateEntity (sources : List SourceText) (entity : RawExtractedEntity py) :
    Option (ValidatedEntity py) :=
  if entity.key ∉ knownFactKeys then none
  else
    let quote := entity.sourceQuote.getD []
    match entity.documentId.filter (· ≠ []) with
    | some id => match (docTexts sources).lookup id with
      | none => none
      | some text =>
        if text = [] ∨ quote = [] ∨ !contains py text quote then none else some ⟨entity, some id⟩
    | none =>
      if quote = [] ∨ !(chatTexts sources).any (contains py · quote) then none
      else some ⟨entity, none⟩

def validateEntities (entities : List (RawExtractedEntity py)) (sources : List SourceText) :
    List (ValidatedEntity py) :=
  entities.filterMap (validateEntity sources)

/-- What a validated entity is worth: a known key and a quote that its source contains. -/
structure Validated (sources : List SourceText) (v : ValidatedEntity py) : Prop where
  key_known : v.entity.key ∈ knownFactKeys
  quote : ∃ s, v.entity.sourceQuote = some s ∧ s ≠ [] ∧
    match v.documentId with
    | some id => ∃ text, (docTexts sources).lookup id = some text ∧ text ≠ [] ∧ contains py text s = true
    | none => ∃ text ∈ chatTexts sources, contains py text s = true

theorem validateEntity_some {sources : List SourceText} {entity : RawExtractedEntity py}
    {v : ValidatedEntity py} (h : validateEntity sources entity = some v) :
    v.entity = entity ∧ Validated sources v := by
  have hquote : ∀ q : Option Text, q.getD [] ≠ [] → q = some (q.getD []) := by
    rintro (_ | q) hq
    · exact absurd rfl hq
    · rfl
  unfold validateEntity at h
  split_ifs at h with hkey
  · dsimp only at h
    split at h
    next id hid =>
      split at h
      · cases h
      next text htext =>
        split_ifs at h with hc
        cases h
        simp only [not_or, Bool.not_eq_true', Bool.not_eq_false] at hc
        exact ⟨rfl, hkey, _, hquote _ hc.2.1, hc.2.1, text, htext, hc.1, hc.2.2⟩
    next hid =>
      split_ifs at h with hc
      cases h
      simp only [not_or, Bool.not_eq_true', Bool.not_eq_false, List.any_eq_true] at hc
      exact ⟨rfl, hkey, _, hquote _ hc.1, hc.1, hc.2⟩

theorem validateEntities_validated {entities : List (RawExtractedEntity py)}
    {sources : List SourceText} {v : ValidatedEntity py}
    (h : v ∈ validateEntities entities sources) : Validated sources v := by
  obtain ⟨entity, -, hv⟩ := List.mem_filterMap.mp h
  exact (validateEntity_some hv).2

end Validate

/-! ### The rows of a run -/

section Rows
variable {py : Python}

/-- `s.strip().replace(",", "").lstrip("$")`. -/
def plainNumber (py : Python) (s : Text) : Text :=
  ((py.strip s).filter (· ≠ ',')).dropWhile (· = '$')

def coerceValue (py : Python) (key : Text) : FactValue → Except RunError FactValue
  | .int n => match py.floatOfInt n with
    | some x => .ok (.float x)
    | none => .error .overflow
  | .float x => .ok (.float x)
  | .str s =>
    if endsWith key "_income".toList || endsWith key "_amount".toList ||
        endsWith key "_balance".toList then
      match py.floatOfText (plainNumber py s) with
      | some x => .ok (.float x)
      | none => .ok (.str s)
    else .ok (.str s)
  | .null => .ok .null

/-- An `ExtractedFact` that is not flushed yet. -/
structure FactDraft where
  key : Text
  value : FactValue
  confidenceScore : ℚ
  documentId : Option Text
  sourceSnippet : Option Text

def draftFact (v : ValidatedEntity py) : Except RunError FactDraft :=
  match coerceValue py v.entity.key v.entity.value with
  | .error e => .error e
  | .ok value => .ok ⟨v.entity.key, value, v.entity.confidenceScore, v.documentId, v.entity.sourceQuote⟩

def draftFacts : List (ValidatedEntity py) → Except RunError (List FactDraft)
  | [] => .ok []
  | v :: rest => match draftFact v with
    | .error e => .error e
    | .ok draft => (draftFacts rest).map (draft :: ·)

/-- The row that `INSERT` makes of a draft; `none` when a column refuses it. -/
def insertFact (py : Python) (applicationId id : Uuid) (now : Time) (draft : FactDraft) :
    Option ExtractedFact :=
  match jsonb py draft.value, draft.documentId.elim (some none) (fun s => (Uuid.ofText s).map some) with
  | some value, some documentId =>
    if fitsColumn (some 100) (some draft.key) && fitsColumn none draft.sourceSnippet then
      some ⟨⟨applicationId, draft.key, value, some (roundNumeric 4 draft.confidenceScore),
        documentId, draft.sourceSnippet⟩, id, now⟩
    else none
  | _, _ => none

/-- The flush of the new facts; the `i`-th gets the identifier `ids i`. -/
def insertFacts (py : Python) (applicationId : Uuid) (ids : ℕ → Uuid) (now : Time) :
    ℕ → List FactDraft → Except RunError (List ExtractedFact)
  | _, [] => .ok []
  | i, draft :: rest => match insertFact py applicationId (ids i) now draft with
    | none => .error .database
    | some fact => (insertFacts py applicationId ids now (i + 1) rest).map (fact :: ·)

/-- The new rows of `_persist_facts`. -/
def newFacts (applicationId : Uuid) (ids : ℕ → Uuid) (now : Time)
    (validated : List (ValidatedEntity py)) : Except RunError (List ExtractedFact) :=
  match draftFacts validated with
  | .error e => .error e
  | .ok drafts => insertFacts py applicationId ids now 0 drafts

/-- The row of `_record_degraded_audit`: redacted, then cut. -/
def degradedAudit (py : Python) (applicationId : Uuid) (e : LlmError) (now : Time) : AuditLog where
  applicationId := applicationId
  action := .extractDegraded
  llmResponse := some ((redactPii py (e.className ++ ':' :: ' ' :: e.detail)).text.take 8000)
  errorCode := some e.code
  createdAt := now

/-- A text cut to 8000 characters and redacted, unless it is empty. -/
def redactedExcerpt (py : Python) (s : Text) : Option Text :=
  if s = [] then none else some (redactPii py (s.take 8000)).text

/-- The row of `_record_extraction_audit`: cut, then redacted. -/
def extractionAudit (applicationId : Uuid) (call : ExtractionCall py) (now : Time) : AuditLog where
  applicationId := applicationId
  action := .extractTrace
  llmPrompt := redactedExcerpt py call.promptExcerpt
  llmResponse := redactedExcerpt py call.responseRaw
  latencyMs := some call.latencyMs
  costUsd := call.costUsd.map (roundNumeric 7)
  modelName := some call.modelName
  createdAt := now

theorem draftFact_ok {v : ValidatedEntity py} {draft : FactDraft} (h : draftFact v = .ok draft) :
    draft.key = v.entity.key ∧ draft.documentId = v.documentId ∧
      draft.sourceSnippet = v.entity.sourceQuote ∧
      coerceValue py v.entity.key v.entity.value = .ok draft.value := by
  unfold draftFact at h
  split at h
  · cases h
  next value hv =>
    cases h
    exact ⟨rfl, rfl, rfl, hv⟩

theorem mem_draftFacts {validated : List (ValidatedEntity py)} {drafts : List FactDraft}
    (h : draftFacts validated = .ok drafts) {draft : FactDraft} (hd : draft ∈ drafts) :
    ∃ v ∈ validated, draftFact v = .ok draft := by
  induction validated generalizing drafts with
  | nil => cases h; cases hd
  | cons v rest ih =>
    simp only [draftFacts] at h
    split at h
    · cases h
    next first hv =>
      cases hrest : draftFacts rest with
      | error e => rw [hrest] at h; cases h
      | ok others =>
        rw [hrest] at h
        cases h
        rcases List.mem_cons.mp hd with rfl | hd
        · exact ⟨v, List.mem_cons_self, hv⟩
        · obtain ⟨w, hw, hw'⟩ := ih hrest hd
          exact ⟨w, List.mem_cons_of_mem _ hw, hw'⟩

/-- The columns of an inserted row. -/
theorem insertFact_some {a id : Uuid} {now : Time} {draft : FactDraft} {f : ExtractedFact}
    (h : insertFact py a id now draft = some f) :
    f.id = id ∧ f.applicationId = a ∧ f.key = draft.key ∧ f.sourceSnippet = draft.sourceSnippet ∧
      f.createdAt = now ∧ jsonb py draft.value = some f.value ∧
      (draft.documentId = none ∧ f.documentId = none ∨
        ∃ s u, draft.documentId = some s ∧ Uuid.ofText s = some u ∧ f.documentId = some u) := by
  unfold insertFact at h
  split at h
  next value documentId hvalue hdoc =>
    split_ifs at h
    cases h
    refine ⟨rfl, rfl, rfl, rfl, rfl, hvalue, ?_⟩
    cases hd : draft.documentId with
    | none =>
      rw [hd] at hdoc
      cases hdoc
      exact .inl ⟨rfl, rfl⟩
    | some s =>
      rw [hd] at hdoc
      simp only [Option.elim_some, Option.map_eq_some_iff] at hdoc
      obtain ⟨u, hu, rfl⟩ := hdoc
      exact .inr ⟨s, u, rfl, hu, rfl⟩
  · cases h

theorem mem_insertFacts {a : Uuid} {ids : ℕ → Uuid} {now : Time} {i : ℕ} {drafts : List FactDraft}
    {facts : List ExtractedFact} (h : insertFacts py a ids now i drafts = .ok facts)
    {f : ExtractedFact} (hf : f ∈ facts) :
    ∃ draft ∈ drafts, ∃ j, insertFact py a (ids j) now draft = some f := by
  induction drafts generalizing i facts with
  | nil => cases h; cases hf
  | cons draft rest ih =>
    simp only [insertFacts] at h
    split at h
    · cases h
    next first hfirst =>
      cases hrest : insertFacts py a ids now (i + 1) rest with
      | error e => rw [hrest] at h; cases h
      | ok others =>
        rw [hrest] at h
        cases h
        rcases List.mem_cons.mp hf with rfl | hf
        · exact ⟨draft, List.mem_cons_self, i, hfirst⟩
        · obtain ⟨d, hd, j, hj⟩ := ih hrest hf
          exact ⟨d, List.mem_cons_of_mem _ hd, j, hj⟩

/-- Every new row comes from a validated entity, with its key, quote and source. -/
theorem mem_newFacts {a : Uuid} {ids : ℕ → Uuid} {now : Time} {validated : List (ValidatedEntity py)}
    {facts : List ExtractedFact} (h : newFacts a ids now validated = .ok facts) {f : ExtractedFact}
    (hf : f ∈ facts) :
    f.applicationId = a ∧ ∃ v ∈ validated, f.key = v.entity.key ∧
      f.sourceSnippet = v.entity.sourceQuote ∧
      (∃ value, coerceValue py v.entity.key v.entity.value = .ok value ∧ jsonb py value = some f.value) ∧
      (v.documentId = none ∧ f.documentId = none ∨
        ∃ s u, v.documentId = some s ∧ Uuid.ofText s = some u ∧ f.documentId = some u) := by
  unfold newFacts at h
  split at h
  · cases h
  next drafts hdrafts =>
    obtain ⟨draft, hdraft, j, hj⟩ := mem_insertFacts h hf
    obtain ⟨v, hv, hvd⟩ := mem_draftFacts hdrafts hdraft
    obtain ⟨hkey, hdoc, hsnippet, hvalue⟩ := draftFact_ok hvd
    obtain ⟨-, ha, hk, hs, -, hstored, hd⟩ := insertFact_some hj
    exact ⟨ha, v, hv, hk.trans hkey, hs.trans hsnippet, ⟨_, hvalue, hstored⟩, hdoc ▸ hd⟩

/-! ### When the rows can be written -/

/-- The value converts to one that JSONB holds, and the quote can be stored. -/
structure Insertable (v : ValidatedEntity py) : Prop where
  value : ∃ value, coerceValue py v.entity.key v.entity.value = .ok value ∧ jsonb py value ≠ none
  quote : ∀ s, v.entity.sourceQuote = some s → storableText s = true

theorem draftFacts_cons {v : ValidatedEntity py} {rest : List (ValidatedEntity py)}
    {drafts : List FactDraft} : draftFacts (v :: rest) = .ok drafts ↔
      ∃ draft others, draftFact v = .ok draft ∧ draftFacts rest = .ok others ∧
        drafts = draft :: others := by
  simp only [draftFacts]
  cases draftFact v with
  | error e => simp
  | ok draft => cases draftFacts rest <;> simp [Except.map, eq_comm]

theorem insertFacts_cons {a : Uuid} {ids : ℕ → Uuid} {now : Time} {i : ℕ} {draft : FactDraft}
    {rest : List FactDraft} {facts : List ExtractedFact} :
    insertFacts py a ids now i (draft :: rest) = .ok facts ↔
      ∃ fact others, insertFact py a (ids i) now draft = some fact ∧
        insertFacts py a ids now (i + 1) rest = .ok others ∧ facts = fact :: others := by
  simp only [insertFacts]
  cases insertFact py a (ids i) now draft with
  | none => simp
  | some fact => cases insertFacts py a ids now (i + 1) rest <;> simp [Except.map, eq_comm]

theorem insertFact_isSome {a id : Uuid} {now : Time} {v : ValidatedEntity py} {draft : FactDraft}
    (hdraft : draftFact v = .ok draft) (hkey : v.entity.key ∈ knownFactKeys)
    (hid : ∀ s, v.documentId = some s → ∃ u, s = Uuid.str u) :
    (∃ fact, insertFact py a id now draft = some fact) ↔ Insertable v := by
  obtain ⟨hk, hd, hs, hc⟩ := draftFact_ok hdraft
  have hfit : fitsColumn (some 100) (some draft.key) = true := by
    have : ∀ k ∈ knownFactKeys, fitsColumn (some 100) (some k) = true := by decide
    exact this _ (hk ▸ hkey)
  have hdoc : ∃ d, draft.documentId.elim (some none) (fun s => (Uuid.ofText s).map some) = some d := by
    rw [hd]
    cases hv : v.documentId with
    | none => exact ⟨none, rfl⟩
    | some s =>
      obtain ⟨u, rfl⟩ := hid s hv
      exact ⟨some u, by simp [Uuid.ofText_str]⟩
  obtain ⟨d, hdoc⟩ := hdoc
  have hquote : fitsColumn none draft.sourceSnippet = true ↔
      ∀ s, v.entity.sourceQuote = some s → storableText s = true := by
    rw [hs]
    cases v.entity.sourceQuote <;> simp [fitsColumn]
  unfold insertFact
  rw [hdoc]
  constructor
  · rintro ⟨fact, h⟩
    split at h
    next value _ hvalue _ =>
      split_ifs at h with hcond
      simp only [Bool.and_eq_true] at hcond
      exact ⟨⟨draft.value, hc, by simp [hvalue]⟩, hquote.mp hcond.2⟩
    · cases h
  · rintro ⟨⟨value, hvalue, hsome⟩, hq⟩
    obtain rfl : value = draft.value := Except.ok.inj (hvalue.symm.trans hc)
    obtain ⟨stored, hstored⟩ := Option.ne_none_iff_exists'.mp hsome
    simp [hstored, hfit, hquote.mpr hq]

/-- The rows of validated entities are written exactly when each can be. -/
theorem newFacts_ok_iff {a : Uuid} {ids : ℕ → Uuid} {now : Time} {validated : List (ValidatedEntity py)}
    (hkey : ∀ v ∈ validated, v.entity.key ∈ knownFactKeys)
    (hid : ∀ v ∈ validated, ∀ s, v.documentId = some s → ∃ u, s = Uuid.str u) :
    (∃ facts, newFacts a ids now validated = .ok facts) ↔ ∀ v ∈ validated, Insertable v := by
  have key : ∀ i, (∃ drafts facts, draftFacts validated = .ok drafts ∧
      insertFacts py a ids now i drafts = .ok facts) ↔ ∀ v ∈ validated, Insertable v := by
    induction validated with
    | nil => simp [draftFacts, insertFacts]
    | cons v rest ih =>
      have ih := ih (fun w hw => hkey w (List.mem_cons_of_mem _ hw))
        fun w hw => hid w (List.mem_cons_of_mem _ hw)
      intro i
      rw [List.forall_mem_cons, ← ih (i + 1)]
      constructor
      · rintro ⟨drafts, facts, hd, hf⟩
        obtain ⟨draft, others, hv, ho, rfl⟩ := draftFacts_cons.mp hd
        obtain ⟨fact, more, hfact, hmore, rfl⟩ := insertFacts_cons.mp hf
        exact ⟨(insertFact_isSome hv (hkey v List.mem_cons_self) (hid v List.mem_cons_self)).mp
          ⟨fact, hfact⟩, others, more, ho, hmore⟩
      · rintro ⟨hv, others, more, ho, hmore⟩
        obtain ⟨value, hvalue, -⟩ := hv.value
        have hdraft : draftFact v = .ok ⟨v.entity.key, value, v.entity.confidenceScore, v.documentId,
            v.entity.sourceQuote⟩ := by simp [draftFact, hvalue]
        obtain ⟨fact, hfact⟩ : ∃ fact, insertFact py a (ids i) now _ = some fact :=
          (insertFact_isSome hdraft (hkey v List.mem_cons_self) (hid v List.mem_cons_self)).mpr hv
        exact ⟨_, _, draftFacts_cons.mpr ⟨_, others, hdraft, ho, rfl⟩,
          insertFacts_cons.mpr ⟨fact, more, hfact, hmore, rfl⟩⟩
  rw [← key 0]
  unfold newFacts
  cases draftFacts validated with
  | error e => simp
  | ok drafts => simp

/-- A float that is stored is a float of the platform. -/
theorem round_coerceValue {key : Text} {v : FactValue} {q : ℚ}
    (hv : ∀ q, v = .float (.finite q) → py.round q = .finite q)
    (h : coerceValue py key v = .ok (.float (.finite q))) : py.round q = .finite q := by
  have htext : ∀ {s}, py.floatOfText s = some (.finite q) → py.round q = .finite q := by
    intro s hs
    simp only [Python.floatOfText] at hs
    split_ifs at hs
    · cases hs
    · cases hs
    all_goals
      simp only [Option.bind_eq_some_iff, Option.map_eq_some_iff] at hs
      obtain ⟨digits, -, q', -, hq⟩ := hs
      split at hq
      next r hr =>
        cases hq
        exact py.round_round _ _ hr
      · cases hq
  cases v with
  | int n =>
    simp only [coerceValue] at h
    split at h
    next x hx =>
      cases h
      simp only [Python.floatOfInt] at hx
      split at hx
      next r hr =>
        cases hx
        exact py.round_round _ _ hr
      · cases hx
    · cases h
  | float x =>
    cases h
    exact hv q rfl
  | str s =>
    simp only [coerceValue] at h
    split_ifs at h
    · split at h
      next x hx =>
        cases h
        exact htext hx
      · cases h
    · cases h
  | null => cases h

theorem coerceValue_ne_int {key : Text} {v : FactValue} {n : ℤ} :
    coerceValue py key v ≠ .ok (.int n) := by
  intro h
  cases v with
  | int n => simp only [coerceValue] at h; split at h <;> cases h
  | float x => cases h
  | str s =>
    simp only [coerceValue] at h
    split_ifs at h
    · split at h <;> cases h
    · cases h
  | null => cases h

theorem redactedExcerpt_getD (s : Text) :
    (redactedExcerpt py s).getD [] = (redactPii py (s.take 8000)).text := by
  unfold redactedExcerpt
  split_ifs with hs
  · rw [hs]
    rfl
  · rfl

theorem hasPii_extractionAudit (a : Uuid) (call : ExtractionCall py) (now : Time) {s : Text}
    (h : (extractionAudit a call now).llmPrompt = some s ∨
      (extractionAudit a call now).llmResponse = some s) : hasPii py s = false := by
  have key : ∀ t, redactedExcerpt py t = some s → hasPii py s = false := by
    intro t ht
    unfold redactedExcerpt at ht
    split_ifs at ht
    cases ht
    exact hasPii_redactPii py _
  exact h.elim (key _) (key _)

end Rows

end LoanAgent
