import LoanAgent.Extraction

/-! The first node of the graph. Documents whose text is not stored yet are read
and parsed one by one; a typed document error becomes an audit row, any other
exception ends the run. The texts of the documents and the messages of the
borrower, oldest first, are the sources of the extraction. Proved: what each
source text comes from, and that the node's result only depends on the
documents through what is loaded for them. -/

namespace LoanAgent

/-- What the loop over the documents has collected. -/
structure IngestResult where
  /-- `parsed_documents`: the text of each document under `str(document.id)`. -/
  parsed : List (Text × Text)
  rawTexts : List (Uuid × Text)
  failures : List DocumentError
  deriving DecidableEq

/-- A stored text that is not empty. -/
def Document.storedText (d : Document) : Option Text := d.rawText.filter (· ≠ [])

/-- The loop of `ingest_route`, given how a document is loaded. -/
def ingestDocuments (load : Document → Except LoadFailure Text) :
    List Document → Except RunError IngestResult
  | [] => .ok ⟨[], [], []⟩
  | d :: rest => match d.storedText with
    | some text => (ingestDocuments load rest).map fun r => { r with parsed := (d.id.str, text) :: r.parsed }
    | none => match load d with
      | .error (.caught e) =>
        (ingestDocuments load rest).map fun r => { r with failures := e :: r.failures }
      | .error (.lib e) => .error (.lib e)
      | .error (.os e) => .error (.os e)
      | .ok text => (ingestDocuments load rest).map fun r =>
          { r with parsed := (d.id.str, text) :: r.parsed, rawTexts := (d.id, text) :: r.rawTexts }

/-- `stated_messages`: the inbound texts by time. -/
def statedMessages (messages : List Communication) : List (Text × Text) :=
  ((messages.filter fun m => m.content.isSome).insertionSort
    fun m n => m.timestamp ≤ n.timestamp).map fun m => ("chat:".toList ++ m.id.str, m.content.getD [])

def parseFailedAudit (applicationId : Uuid) (now : Time) (e : DocumentError) : AuditLog where
  applicationId := applicationId
  action := .parseFailed
  llmResponse := some e.detail
  errorCode := some e.code
  createdAt := now

/-- The commit of the node; `none` when a column refuses a text. -/
def commitIngest (applicationId : Uuid) (now : Time) (r : IngestResult) (db : Database) :
    Option Database :=
  let rows := r.failures.map (parseFailedAudit applicationId now)
  if (r.rawTexts.all fun t => storableText t.2) && rows.all AuditLog.fits then
    some ((db.setRawTexts r.rawTexts).addAudit rows)
  else none

/-- The sources of `extract_trace`. -/
def sourceTexts (parsed stated : List (Text × Text)) : List SourceText :=
  parsed.map (fun e => ⟨e.1, some e.1, e.2⟩) ++ stated.map fun e => ⟨e.1, none, e.2⟩

/-! ### The loop in closed form -/

/-- The text under which a document goes into `parsed_documents`. -/
def parsedText (load : Document → Except LoadFailure Text) (d : Document) : Option Text :=
  d.storedText.or (load d).toOption

/-- The text that is loaded for a document and written back. -/
def loadedText (load : Document → Except LoadFailure Text) (d : Document) : Option Text :=
  match d.storedText with
  | some _ => none
  | none => (load d).toOption

def loadError (load : Document → Except LoadFailure Text) (d : Document) : Option LoadFailure :=
  match d.storedText, load d with
  | none, .error e => some e
  | _, _ => none

/-- The failure that is noted for a document. -/
def caughtError (load : Document → Except LoadFailure Text) (d : Document) : Option DocumentError :=
  (loadError load d).bind fun e => match e with
    | .caught e => some e
    | _ => none

/-- What the loop collects when no document ends the run. -/
def ingestResult (load : Document → Except LoadFailure Text) (docs : List Document) : IngestResult where
  parsed := docs.filterMap fun d => (parsedText load d).map fun text => (d.id.str, text)
  rawTexts := docs.filterMap fun d => (loadedText load d).map fun text => (d.id, text)
  failures := docs.filterMap (caughtError load)

/-- Every failure to load a document is one of the three that are caught. -/
def LoadsCaught (load : Document → Except LoadFailure Text) (docs : List Document) : Prop :=
  ∀ d ∈ docs, ∀ e, loadError load d = some e → ∃ t, e = .caught t

theorem ingestDocuments_eq_ok {load : Document → Except LoadFailure Text} {docs : List Document}
    {r : IngestResult} :
    ingestDocuments load docs = .ok r ↔ LoadsCaught load docs ∧ r = ingestResult load docs := by
  induction docs generalizing r with
  | nil => simp [ingestDocuments, LoadsCaught, ingestResult, eq_comm]
  | cons d rest ih =>
    have hcons : LoadsCaught load (d :: rest) ↔
        (∀ e, loadError load d = some e → ∃ t, e = .caught t) ∧ LoadsCaught load rest := by
      simp [LoadsCaught]
    have hmap : ∀ f : IngestResult → IngestResult,
        (ingestDocuments load rest).map f = .ok r ↔
          LoadsCaught load rest ∧ r = f (ingestResult load rest) := by
      intro f
      cases hr : ingestDocuments load rest with
      | error e =>
        have : ¬ LoadsCaught load rest := fun hl => by
          have := (ih (r := ingestResult load rest)).mpr ⟨hl, rfl⟩
          rw [hr] at this
          cases this
        simp [Except.map, this]
      | ok s =>
        obtain ⟨hl, rfl⟩ := ih.mp hr
        simp [Except.map, hl, eq_comm]
    simp only [ingestDocuments, hcons]
    cases hd : d.storedText with
    | some text =>
      simp [hmap, loadError, ingestResult, parsedText, loadedText, caughtError, hd]
    | none =>
      cases hload : load d with
      | ok text =>
        simp [hmap, loadError, ingestResult, parsedText, loadedText, caughtError, hd, hload, Except.toOption]
      | error e =>
        cases e with
        | caught e =>
          simp [hmap, loadError, ingestResult, parsedText, loadedText, caughtError, hd, hload,
            Except.toOption]
        | lib e => simp [loadError, hd, hload]
        | os e => simp [loadError, hd, hload]

theorem storedText_eq_some {d : Document} {text : Text} (h : d.storedText = some text) :
    d.rawText = some text := by
  simp only [Document.storedText, Option.filter_eq_some_iff] at h
  exact h.1

theorem loadedText_eq_some {load : Document → Except LoadFailure Text} {d : Document} {text : Text} :
    loadedText load d = some text ↔ d.storedText = none ∧ load d = .ok text := by
  unfold loadedText
  cases d.storedText with
  | some s => simp
  | none => cases load d <;> simp [Except.toOption]

theorem parsedText_eq_some {load : Document → Except LoadFailure Text} {d : Document} {text : Text}
    (h : parsedText load d = some text) : d.storedText = some text ∨ loadedText load d = some text := by
  unfold parsedText at h
  unfold loadedText
  cases hd : d.storedText with
  | some s => exact .inl (by simpa [hd] using h)
  | none => exact .inr (by simpa [hd] using h)

/-- Each entry of `parsed` is the stored text of a document or the text loaded for it. -/
theorem mem_parsed {load : Document → Except LoadFailure Text} {docs : List Document}
    {e : Text × Text} (h : e ∈ (ingestResult load docs).parsed) :
    ∃ d ∈ docs, e.1 = d.id.str ∧ (d.storedText = some e.2 ∨ loadedText load d = some e.2) := by
  obtain ⟨d, hd, h⟩ := List.mem_filterMap.mp h
  obtain ⟨text, htext, rfl⟩ := Option.map_eq_some_iff.mp h
  exact ⟨d, hd, rfl, parsedText_eq_some htext⟩

theorem mem_rawTexts {load : Document → Except LoadFailure Text} {docs : List Document}
    {t : Uuid × Text} :
    t ∈ (ingestResult load docs).rawTexts ↔ ∃ d ∈ docs, t.1 = d.id ∧ loadedText load d = some t.2 := by
  simp only [ingestResult, List.mem_filterMap, Option.map_eq_some_iff]
  refine exists_congr fun d => and_congr_right fun _ => ⟨?_, ?_⟩
  · rintro ⟨text, htext, rfl⟩
    exact ⟨rfl, htext⟩
  · rintro ⟨hid, htext⟩
    exact ⟨t.2, htext, by rw [← hid]⟩

/-- Two ways of loading that agree on the documents give the same result. -/
theorem ingestDocuments_congr {load load' : Document → Except LoadFailure Text}
    {docs : List Document} (h : ∀ d ∈ docs, d.storedText = none → load d = load' d) :
    ingestDocuments load docs = ingestDocuments load' docs := by
  induction docs with
  | nil => rfl
  | cons d rest ih =>
    have hrest := ih fun x hx => h x (List.mem_cons_of_mem _ hx)
    simp only [ingestDocuments, hrest]
    cases hd : d.storedText with
    | some text => rfl
    | none => rw [h d List.mem_cons_self hd]

theorem mem_statedMessages {messages : List Communication} {e : Text × Text}
    (h : e ∈ statedMessages messages) : ∃ m ∈ messages, m.content = some e.2 := by
  obtain ⟨m, hm, rfl⟩ := List.mem_map.mp h
  rw [List.mem_insertionSort, List.mem_filter] at hm
  obtain ⟨s, hs⟩ := Option.isSome_iff_exists.mp hm.2
  exact ⟨m, hm.1, by simp [hs]⟩

theorem commitIngest_some {a : Uuid} {now : Time} {r : IngestResult} {db db' : Database}
    (h : commitIngest a now r db = some db') :
    db' = (db.setRawTexts r.rawTexts).addAudit (r.failures.map (parseFailedAudit a now)) := by
  simp only [commitIngest] at h
  split_ifs at h
  exact (Option.some.inj h).symm

theorem parseFailedAudit_fits (a : Uuid) (now : Time) (e : DocumentError) :
    (parseFailedAudit a now e).fits = storableText e.detail := by
  have hcode : fitsColumn (some 120) (some e.code) = true := by
    unfold DocumentError.code
    cases e.kind <;> decide
  simp only [AuditLog.fits, parseFailedAudit, hcode]
  simp [fitsColumn]

/-- The commit of the first node goes through exactly when the texts are storable. -/
theorem commitIngest_isSome {load : Document → Except LoadFailure Text} {docs : List Document}
    {a : Uuid} {now : Time} {db : Database} :
    (∃ db', commitIngest a now (ingestResult load docs) db = some db') ↔
      (∀ d ∈ docs, ∀ text, loadedText load d = some text → storableText text = true) ∧
      ∀ d ∈ docs, ∀ e, caughtError load d = some e → storableText e.detail = true := by
  have htexts : ((ingestResult load docs).rawTexts.all fun t => storableText t.2) = true ↔
      ∀ d ∈ docs, ∀ text, loadedText load d = some text → storableText text = true := by
    rw [List.all_eq_true]
    constructor
    · exact fun h d hd text ht => h (d.id, text) (mem_rawTexts.mpr ⟨d, hd, rfl, ht⟩)
    · intro h t ht
      obtain ⟨d, hd, -, htext⟩ := mem_rawTexts.mp ht
      exact h d hd _ htext
  have hfailures : ((ingestResult load docs).failures.map (parseFailedAudit a now)).all AuditLog.fits = true ↔
      ∀ d ∈ docs, ∀ e, caughtError load d = some e → storableText e.detail = true := by
    simp only [ingestResult, List.all_map, List.all_eq_true, List.mem_filterMap, Function.comp_apply,
      parseFailedAudit_fits]
    exact ⟨fun h d hd e he => h e ⟨d, hd, he⟩, fun h e ⟨d, hd, he⟩ => h d hd e he⟩
  rw [← htexts, ← hfailures, ← Bool.and_eq_true]
  simp only [commitIngest]
  split_ifs with h
  · exact ⟨fun _ => h, fun _ => ⟨_, rfl⟩⟩
  · exact ⟨nofun, fun h' => absurd h' h⟩

/-- A text that the extraction looks up for a document is its parsed text. -/
theorem lookup_docTexts {parsed stated : List (Text × Text)} {id text : Text}
    (h : (docTexts (sourceTexts parsed stated)).lookup id = some text) : (id, text) ∈ parsed := by
  have hmem : (id, text) ∈ docTexts (sourceTexts parsed stated) := by
    obtain ⟨l, l', hl, -⟩ := List.lookup_eq_some_iff.mp h
    simp [hl]
  simp only [docTexts, sourceTexts, List.mem_reverse, List.filterMap_append, List.filterMap_map,
    List.mem_append, List.mem_filterMap, Function.comp_apply] at hmem
  rcases hmem with ⟨e, he, hsome⟩ | ⟨e, -, hsome⟩
  · split_ifs at hsome
    cases hsome
    exact he
  · cases hsome

end LoanAgent
