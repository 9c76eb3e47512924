import LoanAgent.Reachability

/-! Every fact goes back to its source. A quote is checked against texts that an
earlier node has read, and by the time the fact is committed other runs may have
parsed the same documents, replaced the facts and new messages may have come.
What carries the check over is that a stored text is always the text of one
stored file, which does not change, so that a text, once stored, stays. Proved:
in every reachable state each fact has a known key and a quote that the stored
text of a document, or an inbound message, of its application contains. -/

namespace LoanAgent

variable {py : Python} {settings : Settings} {s s' : Store} {l l' : Proc py} {a : Action py}
  {c : Service py} {T : Text → Bytes → Text}

/-! ### Texts of stored files -/

/-- Files are read as they are stored, and a parser that returns a text returns
the text `T` that belongs to the media type and the bytes. -/
structure Steady (py : Python) (settings : Settings) (T : Text → Bytes → Text)
    (files : List (FilePath × Bytes)) (io : Io) : Prop where
  read : ∀ p b, io.read p = .ok b → (p, b) ∈ files
  parse : ∀ fileType b text, parseByType py settings io fileType b = .ok text → text = T fileType b

/-- The parsers of a run are steady. -/
def parsesSteadily (settings : Settings) (T : Text → Bytes → Text) (c : Service py) (_ : ℕ)
    (a : Action py) : Prop :=
  match a with
  | .parse io => Steady py settings T c.shared.files io
  | _ => True

/-- The text of the stored file that the path of a document leads to. -/
def FileText (settings : Settings) (T : Text → Bytes → Text) (files : List (FilePath × Bytes))
    (d : Document) (text : Text) : Prop :=
  ∃ path b, localDocumentPath settings d.applicationId d.s3Path = some path ∧ (path, b) ∈ files ∧
    text = T d.fileType b

theorem fileText_of_load {files : List (FilePath × Bytes)} {io : Io} (hio : Steady py settings T files io)
    {d : Document} {text : Text} (h : loadDocument py settings io d.applicationId d = .ok text) :
    FileText settings T files d text := by
  obtain ⟨path, b, hp, hr, ht⟩ := loadDocument_ok py settings io h
  exact ⟨path, b, hp, hio.read _ _ hr, hio.parse _ _ _ ht⟩

/-- A document has one such text. -/
theorem FileText.unique (hs : FilesOwned settings s) {d : Document} {t t' : Text}
    (h : FileText settings T s.files d t) (h' : FileText settings T s.files d t') : t = t' := by
  obtain ⟨p, b, hp, hb, rfl⟩ := h
  obtain ⟨p', b', hp', hb', rfl⟩ := h'
  obtain rfl := Option.some.inj (hp.symm.trans hp')
  rw [hs.unique hb hb']

/-! ### What later steps keep -/

/-- The row of a document, now or later: a text that is there stays. -/
structure Later (d d' : Document) : Prop where
  id : d'.id = d.id
  applicationId : d'.applicationId = d.applicationId
  fileType : d'.fileType = d.fileType
  s3Path : d'.s3Path = d.s3Path
  rawText : ∀ t, t ≠ [] → d.rawText = some t → d'.rawText = some t

theorem Later.refl (d : Document) : Later d d := ⟨rfl, rfl, rfl, rfl, fun _ _ h => h⟩

theorem Later.trans {d d' d'' : Document} (h : Later d d') (h' : Later d' d'') : Later d d'' :=
  ⟨h'.id.trans h.id, h'.applicationId.trans h.applicationId, h'.fileType.trans h.fileType,
    h'.s3Path.trans h.s3Path, fun t ht hd => h'.rawText t ht (h.rawText t ht hd)⟩

theorem Later.fileText {d d' : Document} (h : Later d d') {files : List (FilePath × Bytes)} {t : Text}
    (hd : FileText settings T files d t) : FileText settings T files d' t := by
  unfold FileText
  rw [h.applicationId, h.s3Path, h.fileType]
  exact hd

/-- Documents and messages stay, and so do stored files and texts. -/
structure Grows (s s' : Store) : Prop where
  documents : ∀ d ∈ s.db.documents, ∃ d' ∈ s'.db.documents, Later d d'
  messages : ∀ m ∈ s.db.communications, m ∈ s'.db.communications
  files : ∀ f ∈ s.files, f ∈ s'.files

theorem FileText.mono (h : Grows s s') {d : Document} {t : Text} :
    FileText settings T s.files d t → FileText settings T s'.files d t :=
  fun ⟨path, b, hp, hb, ht⟩ => ⟨path, b, hp, h.files _ hb, ht⟩

/-! ### Sources -/

/-- A document of the application with this identifier has this text stored. -/
def DocumentText (db : Database) (a : Uuid) (id : Text) (text : Text) : Prop :=
  ∃ d ∈ db.documents, d.id.str = id ∧ d.applicationId = a ∧ d.rawText = some text

/-- The borrower has sent this text. -/
def MessageText (db : Database) (a : Uuid) (text : Text) : Prop :=
  ∃ m ∈ db.communications, m.applicationId = a ∧ m.direction = .inbound ∧ m.content = some text

/-- A fact has a known key and a quote of its source. -/
def Traceable (py : Python) (db : Database) (f : ExtractedFact) : Prop :=
  f.key ∈ knownFactKeys ∧ ∃ snippet, f.sourceSnippet = some snippet ∧ snippet ≠ [] ∧
    match f.documentId with
    | some id => ∃ d ∈ db.documents, d.id = id ∧ d.applicationId = f.applicationId ∧
        ∃ text, d.rawText = some text ∧ text ≠ [] ∧ contains py text snippet = true
    | none => ∃ m ∈ db.communications, m.applicationId = f.applicationId ∧ m.direction = .inbound ∧
        ∃ text, m.content = some text ∧ contains py text snippet = true

theorem DocumentText.mono (h : Grows s s') {a : Uuid} {id text : Text} (ht : text ≠ []) :
    DocumentText s.db a id text → DocumentText s'.db a id text := by
  rintro ⟨d, hd, hid, ha, htext⟩
  obtain ⟨d', hd', hlater⟩ := h.documents d hd
  exact ⟨d', hd', hlater.id ▸ hid, hlater.applicationId.trans ha, hlater.rawText text ht htext⟩

theorem MessageText.mono (h : Grows s s') {a : Uuid} {text : Text} :
    MessageText s.db a text → MessageText s'.db a text :=
  fun ⟨m, hm, hrest⟩ => ⟨m, h.messages m hm, hrest⟩

theorem Traceable.mono (h : Grows s s') {f : ExtractedFact} (hf : Traceable py s.db f) :
    Traceable py s'.db f := by
  obtain ⟨hkey, snippet, hs, hne, hsource⟩ := hf
  refine ⟨hkey, snippet, hs, hne, ?_⟩
  split at hsource
  · obtain ⟨d, hd, hid, ha, text, htext, htne, hc⟩ := hsource
    obtain ⟨d', hd', hlater⟩ := h.documents d hd
    exact ⟨d', hd', hlater.id.trans hid, hlater.applicationId.trans ha, text, hlater.rawText text htne htext,
      htne, hc⟩
  · obtain ⟨m, hm, hrest⟩ := hsource
    exact ⟨m, h.messages m hm, hrest⟩

/-- A source of the extraction is what is stored. -/
def SourceOk (db : Database) (a : Uuid) (source : SourceText) : Prop :=
  match source.documentId with
  | some id => id ≠ [] ∧ (source.text ≠ [] → DocumentText db a id source.text)
  | none => MessageText db a source.text

/-- A validated entity quotes what is stored. -/
def EntityOk (db : Database) (a : Uuid) (v : ValidatedEntity py) : Prop :=
  v.entity.key ∈ knownFactKeys ∧ ∃ quote, v.entity.sourceQuote = some quote ∧ quote ≠ [] ∧
    match v.documentId with
    | some id => ∃ text, text ≠ [] ∧ DocumentText db a id text ∧ contains py text quote = true
    | none => ∃ text, MessageText db a text ∧ contains py text quote = true

theorem SourceOk.mono (h : Grows s s') {a : Uuid} {source : SourceText} (hs : SourceOk s.db a source) :
    SourceOk s'.db a source := by
  unfold SourceOk at hs ⊢
  split at hs
  · exact ⟨hs.1, fun hne => (hs.2 hne).mono h hne⟩
  · exact hs.mono h

theorem EntityOk.mono (h : Grows s s') {a : Uuid} {v : ValidatedEntity py} (hv : EntityOk s.db a v) :
    EntityOk s'.db a v := by
  obtain ⟨hkey, quote, hq, hne, hsource⟩ := hv
  refine ⟨hkey, quote, hq, hne, ?_⟩
  split at hsource
  · obtain ⟨text, htne, ht, hc⟩ := hsource
    exact ⟨text, htne, ht.mono h htne, hc⟩
  · obtain ⟨text, ht, hc⟩ := hsource
    exact ⟨text, ht.mono h, hc⟩

/-- What is validated against stored sources quotes what is stored. -/
theorem entityOk_of_validated {db : Database} {a : Uuid} {sources : List SourceText}
    (hsources : ∀ source ∈ sources, SourceOk db a source) {v : ValidatedEntity py}
    (hv : Validated sources v) : EntityOk db a v := by
  obtain ⟨hkey, quote, hq, hne, hsource⟩ := hv
  refine ⟨hkey, quote, hq, hne, ?_⟩
  cases hid : v.documentId with
  | some id =>
    simp only [hid] at hsource
    obtain ⟨text, hlookup, htne, hc⟩ := hsource
    obtain ⟨l₁, l₂, hsplit, -⟩ := List.lookup_eq_some_iff.mp hlookup
    have hmem : (id, text) ∈ docTexts sources := by simp [hsplit]
    obtain ⟨source, hs, hsome⟩ := List.mem_filterMap.mp (List.mem_reverse.mp hmem)
    have hok := hsources source hs
    split at hsome
    next id' hid' =>
      split_ifs at hsome
      obtain ⟨rfl, rfl⟩ := Prod.mk.inj (Option.some.inj hsome)
      simp only [SourceOk, hid'] at hok
      exact ⟨source.text, htne, hok.2 htne, hc⟩
    · cases hsome
  | none =>
    simp only [hid] at hsource
    obtain ⟨text, htext, hc⟩ := hsource
    obtain ⟨source, hs, hsome⟩ := List.mem_filterMap.mp htext
    have hok := hsources source hs
    split at hsome
    next id' hid' =>
      split_ifs at hsome with he
      simp only [SourceOk, hid'] at hok
      exact absurd he hok.1
    next hid' =>
      obtain rfl := Option.some.inj hsome
      simp only [SourceOk, hid'] at hok
      exact ⟨source.text, hok, hc⟩

/-! ### What a run knows -/

/-- What a run has loaded are texts of stored files, and what it has parsed is
stored or loaded. -/
structure LoadedOk (settings : Settings) (T : Text → Bytes → Text) (s : Store) (a : Uuid)
    (r : IngestResult) : Prop where
  loaded : ∀ t ∈ r.rawTexts, ∃ d ∈ s.db.documents, d.id = t.1 ∧ d.applicationId = a ∧
    FileText settings T s.files d t.2
  parsed : ∀ e ∈ r.parsed, e.1 ≠ [] ∧ (e.2 ≠ [] → ∃ d ∈ s.db.documents, d.id.str = e.1 ∧
    d.applicationId = a ∧ (d.rawText = some e.2 ∨ (d.id, e.2) ∈ r.rawTexts))

/-- What a run relies on between its steps. -/
def Proc.Traces (settings : Settings) (T : Text → Bytes → Text) (s : Store) : Proc py → Prop
  | .run σ (.parse docs) => ∀ d ∈ docs, d.applicationId = σ.applicationId ∧
      ∃ d' ∈ s.db.documents, Later d d'
  | .run σ (.messages r) => LoadedOk settings T s σ.applicationId r
  | .run σ (.texts r stated) => LoadedOk settings T s σ.applicationId r ∧
      ∀ e ∈ stated, MessageText s.db σ.applicationId e.2
  | .run σ (.ask sources) => ∀ source ∈ sources, SourceOk s.db σ.applicationId source
  | .run σ (.delete _ validated) | .run σ (.insert _ validated _) =>
    ∀ v ∈ validated, EntityOk s.db σ.applicationId v
  | _ => True

theorem LoadedOk.mono (h : Grows s s') {a : Uuid} {r : IngestResult} (hr : LoadedOk settings T s a r) :
    LoadedOk settings T s' a r := by
  refine ⟨fun t ht => ?_, fun e he => ⟨(hr.parsed e he).1, fun hne => ?_⟩⟩
  · obtain ⟨d, hd, hid, ha, htext⟩ := hr.loaded t ht
    obtain ⟨d', hd', hlater⟩ := h.documents d hd
    exact ⟨d', hd', hlater.id.trans hid, hlater.applicationId.trans ha, (hlater.fileText htext).mono h⟩
  · obtain ⟨d, hd, hid, ha, htext⟩ := (hr.parsed e he).2 hne
    obtain ⟨d', hd', hlater⟩ := h.documents d hd
    exact ⟨d', hd', hlater.id ▸ hid, hlater.applicationId.trans ha,
      htext.imp (hlater.rawText e.2 hne) fun hmem => hlater.id ▸ hmem⟩

theorem Proc.Traces.stable (h : Grows s s') (hl : l.Traces settings T s) : l.Traces settings T s' := by
  unfold Proc.Traces at hl ⊢
  split at hl
  · intro d hd
    obtain ⟨ha, d', hd', hlater⟩ := hl d hd
    obtain ⟨d'', hd'', hlater'⟩ := h.documents d' hd'
    exact ⟨ha, d'', hd'', hlater.trans hlater'⟩
  · exact hl.mono h
  · exact ⟨hl.1.mono h, fun e he => (hl.2 e he).mono h⟩
  · exact fun source hs => (hl source hs).mono h
  · exact fun v hv => (hl v hv).mono h
  · exact fun v hv => (hl v hv).mono h
  · trivial

/-- Stored texts are those of stored files, and facts go back to their sources. -/
structure TracesOk (py : Python) (settings : Settings) (T : Text → Bytes → Text) (s : Store) : Prop where
  texts : ∀ d ∈ s.db.documents, ∀ t, d.rawText = some t → FileText settings T s.files d t
  facts : ∀ f ∈ s.db.facts, Traceable py s.db f

/-! ### The commit of the texts -/

/-- The row of a document behind `setRawTexts`. -/
def Document.rewrite (texts : List (Uuid × Text)) (d : Document) : Document :=
  match texts.lookup d.id with
  | some text => { d with rawText := some text }
  | none => d

section Rewrite
variable {r : IngestResult} {d : Document}

theorem rewrite_columns (texts : List (Uuid × Text)) (d : Document) :
    (d.rewrite texts).id = d.id ∧ (d.rewrite texts).applicationId = d.applicationId ∧
      (d.rewrite texts).fileType = d.fileType ∧ (d.rewrite texts).s3Path = d.s3Path := by
  unfold Document.rewrite
  split <;> exact ⟨rfl, rfl, rfl, rfl⟩

variable {b : Uuid} (hk : (s.db.documents.map (·.id)).Nodup) (hr : LoadedOk settings T s b r)
include hk hr

/-- A text loaded under the identifier of a document is the text of its file. -/
theorem LoadedOk.entry (hd : d ∈ s.db.documents) {text : Text} (h : (d.id, text) ∈ r.rawTexts) :
    FileText settings T s.files d text := by
  obtain ⟨d', hd', hid, -, htext⟩ := hr.loaded _ h
  rw [List.inj_on_of_nodup_map hk hd hd' hid.symm]
  exact htext

theorem LoadedOk.lookup (hd : d ∈ s.db.documents) {text : Text} (h : r.rawTexts.lookup d.id = some text) :
    FileText settings T s.files d text := by
  obtain ⟨l₁, l₂, hsplit, -⟩ := List.lookup_eq_some_iff.mp h
  exact hr.entry hk hd (by simp [hsplit])

variable (hfiles : FilesOwned settings s) (hs : TracesOk py settings T s)
include hfiles hs

/-- Writing the loaded texts changes no text that is there. -/
theorem LoadedOk.later (hd : d ∈ s.db.documents) : Later d (d.rewrite r.rawTexts) := by
  obtain ⟨hid, ha, ht, hp⟩ := rewrite_columns r.rawTexts d
  refine ⟨hid, ha, ht, hp, fun t _ htext => ?_⟩
  unfold Document.rewrite
  split
  next text hlookup => exact congrArg some ((hr.lookup hk hd hlookup).unique hfiles (hs.texts d hd t htext))
  · exact htext

/-- What was parsed is stored behind the commit. -/
theorem LoadedOk.stored {e : Text × Text} (he : e ∈ r.parsed) (hne : e.2 ≠ []) :
    ∃ d ∈ s.db.documents, (d.rewrite r.rawTexts).id.str = e.1 ∧
      (d.rewrite r.rawTexts).applicationId = b ∧ (d.rewrite r.rawTexts).rawText = some e.2 := by
  obtain ⟨d, hd, hid, ha, htext⟩ := (hr.parsed e he).2 hne
  obtain ⟨hid', ha', -, -⟩ := rewrite_columns r.rawTexts d
  refine ⟨d, hd, hid' ▸ hid, ha'.trans ha, ?_⟩
  have hfile : FileText settings T s.files d e.2 :=
    htext.elim (hs.texts d hd e.2) (hr.entry hk hd)
  unfold Document.rewrite
  split
  next text hlookup => exact congrArg some ((hr.lookup hk hd hlookup).unique hfiles hfile)
  next hnone =>
    refine htext.resolve_right fun hmem => ?_
    have := List.lookup_eq_none_iff.mp hnone _ hmem
    simp at this

end Rewrite

/-! ### One step -/

theorem Transition.grows (h : Transition settings s l a s' l') (hk : (s.db.documents.map (·.id)).Nodup)
    (hfiles : FilesOwned settings s) (hs : TracesOk py settings T s) (hl : l.Traces settings T s) :
    Grows s s' := by
  refine ⟨fun d hd => ?_, h.communications_mono, fun f hf => ?_⟩
  · rcases h.commit with hdb | hcommit
    · exact ⟨d, hdb ▸ hd, .refl d⟩
    rcases hcommit.documents with hdocs | ⟨r, draft, -, hdocs⟩ | ⟨σ, result, stated, hlp, hdocs⟩
    · exact ⟨d, hdocs ▸ hd, .refl d⟩
    · exact ⟨d, hdocs ▸ List.mem_append_left _ hd, .refl d⟩
    · rw [hlp] at hl
      exact ⟨_, hdocs ▸ List.mem_map_of_mem hd, hl.1.later hk hfiles hs hd⟩
  · rcases h.files with hsame | ⟨_, _, _, files, -, -, hadd, -⟩
    · exact hsame ▸ hf
    · exact hadd ▸ List.mem_append_left _ hf

/-- A new fact quotes what its entity quotes. -/
theorem traceable_of_entityOk {db : Database} {b : Uuid} {ids : ℕ → Uuid} {now : Time}
    {validated : List (ValidatedEntity py)} {facts : List ExtractedFact}
    (hv : ∀ v ∈ validated, EntityOk db b v) (h : newFacts b ids now validated = .ok facts)
    {f : ExtractedFact} (hf : f ∈ facts) : Traceable py db f := by
  obtain ⟨ha, v, hmem, hkey, hsnippet, -, hid⟩ := mem_newFacts h hf
  obtain ⟨hknown, quote, hquote, hne, hsource⟩ := hv v hmem
  refine ⟨hkey ▸ hknown, quote, hsnippet.trans hquote, hne, ?_⟩
  rcases hid with ⟨hvid, hfid⟩ | ⟨i, u, hvid, hu, hfid⟩
  · simp only [hvid] at hsource
    obtain ⟨text, ⟨m, hm, hma, hdir, hcontent⟩, hc⟩ := hsource
    simp only [hfid]
    exact ⟨m, hm, hma.trans ha.symm, hdir, text, hcontent, hc⟩
  · simp only [hvid] at hsource
    obtain ⟨text, htne, ⟨d, hd, hdid, hda, htext⟩, hc⟩ := hsource
    simp only [hfid]
    rw [← hdid, Uuid.ofText_str] at hu
    exact ⟨d, hd, Option.some.inj hu, hda.trans ha.symm, text, htext, htne, hc⟩

theorem Transition.tracesOk (h : Transition settings s l a s' l') (hjust : l.Justified)
    (hgrow : Grows s s') (hs : TracesOk py settings T s) (hl : l.Traces settings T s)
    (hk : (s.db.documents.map (·.id)).Nodup) : TracesOk py settings T s' := by
  refine ⟨fun d hd t ht => ?_, fun f hf => ?_⟩
  · rcases h.commit with hdb | hcommit
    · exact (hs.texts d (hdb ▸ hd) t ht).mono hgrow
    rcases hcommit.documents with hdocs | ⟨r, draft, hlp, hdocs⟩ | ⟨σ, result, stated, hlp, hdocs⟩
    · exact (hs.texts d (hdocs ▸ hd) t ht).mono hgrow
    · rw [hdocs] at hd
      rcases List.mem_append.mp hd with hd | hd
      · exact (hs.texts d hd t ht).mono hgrow
      · rw [hlp] at hjust
        obtain ⟨draws, db, hdraft⟩ := hjust
        obtain ⟨u, hbuilt⟩ := hdraft.documents d hd
        rw [hbuilt.rawText] at ht
        cases ht
    · rw [hlp] at hl
      rw [hdocs] at hd
      obtain ⟨d, hmem, rfl⟩ := List.mem_map.mp hd
      have htext : FileText settings T s.files d t := by
        split at ht
        next text hlookup => exact Option.some.inj ht ▸ hl.1.lookup hk hmem hlookup
        · exact hs.texts d hmem t ht
      obtain ⟨-, ha, hft, hp⟩ := rewrite_columns result.rawTexts d
      refine FileText.mono hgrow ?_
      change FileText settings T s.files (d.rewrite result.rawTexts) t
      unfold FileText
      rw [ha, hp, hft]
      exact htext
  · rcases h.facts with ⟨hsame, -⟩ | ⟨σ, call, validated, deleted, ids, now, facts, hlp, -, -, hnew, hdb, -⟩
    · exact (hs.facts f (hsame ▸ hf)).mono hgrow
    · rw [hlp] at hl
      rw [hdb] at hf
      rcases List.mem_append.mp hf with hf | hf
      · exact (hs.facts f (List.mem_filter.mp hf).1).mono hgrow
      · exact (traceable_of_entityOk hl hnew hf).mono hgrow

theorem Transition.traces {p : ℕ} (h : Transition settings c.shared (c.procs p) a s' l')
    (hok : parsesSteadily settings T c p a) (hk : (c.shared.db.documents.map (·.id)).Nodup)
    (hfiles : FilesOwned settings c.shared) (hs : TracesOk py settings T c.shared)
    (hgrow : Grows c.shared s') (hl : (c.procs p).Traces settings T c.shared) : l'.Traces settings T s' := by
  generalize hlp : c.procs p = l at h hl
  cases h with
  | evict | forgotten => exact hl.stable hgrow
  | documents σ =>
    intro d hd
    obtain ⟨hmem, ha⟩ := List.mem_filter.mp hd
    exact ⟨by simpa using ha, d, hmem, .refl d⟩
  | @parsed σ docs io result h =>
    obtain ⟨-, rfl⟩ := ingestDocuments_eq_ok.mp h
    refine ⟨fun t ht => ?_, fun e he => ?_⟩
    · obtain ⟨d, hd, hid, hload⟩ := mem_rawTexts.mp ht
      obtain ⟨ha, d', hd', hlater⟩ := hl d hd
      have hfile := fileText_of_load hok (ha ▸ (loadedText_eq_some.mp hload).2)
      exact ⟨d', hd', hlater.id.trans hid.symm, hlater.applicationId.trans ha, hlater.fileText hfile⟩
    · obtain ⟨d, hd, hid, htext⟩ := mem_parsed he
      obtain ⟨ha, d', hd', hlater⟩ := hl d hd
      refine ⟨hid ▸ str_ne_nil d.id, fun hne => ⟨d', hd', by rw [hlater.id, hid], hlater.applicationId.trans ha, ?_⟩⟩
      refine htext.imp (fun h => ?_) fun h => ?_
      · exact hlater.rawText e.2 hne (storedText_eq_some h)
      · exact mem_rawTexts.mpr ⟨d, hd, hlater.id, h⟩
  | messages σ result =>
    refine ⟨hl, fun e he => ?_⟩
    obtain ⟨m, hm, hcontent⟩ := mem_statedMessages he
    obtain ⟨hmem, hm⟩ := List.mem_filter.mp hm
    simp only [decide_eq_true_eq] at hm
    exact ⟨m, hmem, hm.1, hm.2, hcontent⟩
  | @ingested σ result stated now db h =>
    obtain rfl := commitIngest_some h
    intro source hsource
    rcases List.mem_append.mp hsource with hmem | hmem
    · obtain ⟨e, he, rfl⟩ := List.mem_map.mp hmem
      refine ⟨(hl.1.parsed e he).1, fun hne => ?_⟩
      obtain ⟨d, hd, hid, ha, htext⟩ := hl.1.stored hk hfiles hs he hne
      exact ⟨_, List.mem_map_of_mem hd, hid, ha, htext⟩
    · obtain ⟨e, he, rfl⟩ := List.mem_map.mp hmem
      exact hl.2 e he
  | asked => exact fun v hv => entityOk_of_validated hl (validateEntities_validated hv)
  | deleted => exact hl
  | delivered _ _ _ h => rcases h with rfl | rfl <;> trivial
  | _ => trivial

/-! ### Every run -/

/-- Every fact of every reachable state goes back to its source, where parsers
return the same text for the same stored bytes. -/
theorem facts_traceable (h : ServiceReaches py settings (parsesSteadily settings T) c) :
    ∀ f ∈ c.shared.db.facts, Traceable py c.shared.db f := by
  have h0 : TracesOk py settings T (initial py).shared := ⟨nofun, nofun⟩
  have hknown := ((h.assuming (I := fun c => ∀ p, (c.procs p).Justified) fun h =>
    justified_of_reaches h).assuming (I := KeysOk) fun h => keysOk_of_reaches h).assuming
    (I := fun c => FilesOwned settings c.shared) fun h => filesOwned_of_reaches h
  refine (hknown.assertions (I := TracesOk py settings T) (J := fun s l => l.Traces settings T s) (R := Grows)
    h0 (fun _ => trivial) ?_ fun _ _ _ hR hl => hl.stable hR).1.facts
  rintro c p a s' l' ⟨⟨⟨hok, hjust⟩, hkeys⟩, hfiles⟩ hs hl hstep
  have htrans := procStep_transition hstep
  have hk := hkeys.keysUnique.documents
  have hgrow := htrans.grows hk hfiles hs hl
  exact ⟨htrans.tracesOk (hjust p) hgrow hs hl hk, htrans.traces hok hk hfiles hs hgrow hl, hgrow⟩

/-! ### A fact of a document -/

/-- A borrower sends a payslip as a text file. -/
def payslipMessage : Request :=
  textRequest "alice".toList "hello".toList "k1".toList [plainAttachment "aW5jb21lIDUwMDA=".toList (by decide)]
    length_alice length_hello length_k1 (by decide)

def payslipFile : FilePath × Bytes :=
  (["data".toList, "s3".toList, (Uuid.ofNat 100).str, (Uuid.ofNat 102).str ++ ".bin".toList],
    "income 5000".toUTF8.toList)

/-- A disk with the payslip only. -/
def payslipDisk : Io :=
  { sampleIo with
    read := fun p => if p = payslipFile.1 then .ok payslipFile.2 else .error .fileNotFound }

def payslipText (fileType : Text) (b : Bytes) : Text :=
  (parseByType asciiPython sampleSettings payslipDisk fileType b).toOption.getD []

def payslipIncome : ExtractionResult asciiPython where
  facts := [sampleEntity "monthly_income".toList "5000".toList "income 5000".toList (some (.ofNat 102))
    length_monthlyIncome (by decide)]
  facts_length := by decide

def payslipRun : List (ℕ × Action asciiPython) :=
  intakeSteps 0 payslipMessage 1 ++
    extractSteps 0 (.ofNat 100) payslipDisk (answering payslipIncome) 10 ++ [factsStep 0 1 10]

/-- A run parses when the payslip is stored. -/
def payslipStored (c : Service asciiPython) (_ : ℕ) (a : Action asciiPython) : Bool :=
  match a with
  | .parse _ => payslipFile ∈ c.shared.files
  | _ => true

theorem payslipRun_steady : ∀ c, ∀ e ∈ payslipRun, payslipStored c e.1 e.2 = true →
    parsesSteadily sampleSettings payslipText c e.1 e.2 := by
  have hdisk : ∀ e ∈ payslipRun, match e.2 with | .parse io => io = payslipDisk | _ => True := by
    simp [payslipRun, intakeSteps, extractSteps, factsStep]
  intro c e he ht
  have hio := hdisk e he
  unfold payslipStored at ht
  unfold parsesSteadily
  split at hio
  next io heq =>
    simp only [heq, decide_eq_true_eq] at ht
    simp only [heq, hio]
    refine ⟨fun p b hb => ?_, fun fileType b text htext => ?_⟩
    · simp only [payslipDisk] at hb
      split_ifs at hb with hp
      obtain rfl := Except.ok.inj hb
      exact hp ▸ ht
    · simp [payslipText, htext, Except.toOption]
  next hno =>
    split
    next io heq => exact absurd heq (hno io)
    · trivial

theorem facts_traceable_payslip :
    (serviceAfter payslipStored payslipRun).shared.db.facts.map (·.documentId) = [some (Uuid.ofNat 102)] ∧
    ∀ f ∈ (serviceAfter payslipStored payslipRun).shared.db.facts,
      Traceable asciiPython (serviceAfter payslipStored payslipRun).shared.db f :=
  ⟨by decide +kernel, facts_traceable (Interleave.after_reaches payslipRun_steady)⟩

end LoanAgent
