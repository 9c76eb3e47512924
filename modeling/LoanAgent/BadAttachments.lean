import LoanAgent.RunStatus
import LoanAgent.Intake

/-! What one attachment can do to the others of its application. The ingest
node loads its documents in one loop and ends with one commit; the loop only
catches the typed document errors. The condition for it to come to its end is
traced back through the wrappers to the path, the file system, the PDF engine
and the texts. Proved: every document is treated on its own exactly when no
path that is read is refused other than as missing, no PDF raises outside the
kinds that mean a corrupt file, and no text or note holds a NUL. An accepted URL
can name the folder of its application, which is such a path. -/

namespace LoanAgent

/-! ### What the PDF engine raises -/

/-- The exceptions that `parse_pdf` takes for a corrupt file. -/
def LibErrorKind.meansCorrupt : LibErrorKind → Bool
  | .fileData | .runtime | .value => true
  | _ => false

/-- The exception that ends the reading of the pages, `total` characters being read. -/
def pagesRaise : ℕ → List (Except LibError Text) → Option LibError
  | _, [] => none
  | _, .error e :: _ => some e
  | total, .ok text :: rest =>
    if 500000 < total + text.length then none else pagesRaise (total + text.length) rest

/-- The exception of the PDF engine that ends `parse_pdf`. -/
def pdfRaises (io : Io) (payload : Bytes) : Option LibError :=
  match io.openPdf payload with
  | .error e => some e
  | .ok document =>
    if document.isEncrypted ∨ document.pageCount = 0 ∨ 200 < document.pageCount then none
    else pagesRaise 0 document.pages

/-- Whatever is raised is one of the three errors that the loop catches. -/
def Caught {α : Type} (x : Except LoadFailure α) : Prop := ∀ e, x = .error e → ∃ t, e = .caught t

@[simp] theorem caught_ok {α : Type} (x : α) : Caught (.ok x) := nofun

@[simp] theorem caught_error {α : Type} (e : LoadFailure) :
    Caught (.error e : Except LoadFailure α) ↔ ∃ t, e = .caught t :=
  ⟨fun h => h e rfl, fun h _ he => Except.error.inj he ▸ h⟩

@[simp] theorem caught_map {α β : Type} (f : α → β) (x : Except LoadFailure α) :
    Caught (x.map f) ↔ Caught x := by
  cases x <;> simp [Except.map]

theorem caught_ocrFailure (tesseractText otherText : String) (e : LibError) :
    ∃ t, ocrFailure tesseractText otherText e = .caught t := by
  unfold ocrFailure
  split <;> exact ⟨_, rfl⟩

theorem caught_pdfFailure (e : LibError) :
    (∃ t, pdfFailure e = .caught t) ↔ e.kind.meansCorrupt = true := by
  obtain ⟨kind, message⟩ := e
  cases kind <;> simp [pdfFailure, malformedPdf, LibErrorKind.meansCorrupt]

variable {py : Python} {settings : Settings} {io : Io}

theorem caught_ocrImage (payload : Bytes) : Caught (ocrImage py io payload) := by
  unfold ocrImage
  dsimp only
  split_ifs
  · exact (caught_error _).mpr ⟨_, rfl⟩
  · split
    · exact (caught_error _).mpr (caught_ocrFailure _ _ _)
    · split_ifs
      · exact (caught_error _).mpr ⟨_, rfl⟩
      · exact caught_ok _

theorem caught_ocrPages (pages : List (Except LibError (ℕ × Except LibError Text))) :
    Caught (ocrPages pages) := by
  induction pages with
  | nil => exact caught_ok _
  | cons page rest ih =>
    cases page with
    | error e => exact (caught_error _).mpr (caught_ocrFailure _ _ e)
    | ok p =>
      obtain ⟨pixels, text⟩ := p
      simp only [ocrPages]
      split_ifs
      · exact (caught_error _).mpr ⟨_, rfl⟩
      · cases text with
        | error e => exact (caught_error _).mpr (caught_ocrFailure _ _ e)
        | ok text => exact (caught_map _ _).mpr ih

theorem caught_ocrPdf (payload : Bytes) : Caught (ocrPdf py io payload) := by
  unfold ocrPdf
  split_ifs
  · exact (caught_error _).mpr ⟨_, rfl⟩
  · cases io.scanPdf payload with
    | error e => exact (caught_error _).mpr (caught_ocrFailure _ _ e)
    | ok document =>
      dsimp only
      split_ifs
      · exact (caught_error _).mpr ⟨_, rfl⟩
      · have hpages := caught_ocrPages document.pages
        cases hp : ocrPages document.pages with
        | error e => exact (caught_error _).mpr (hpages e hp)
        | ok texts =>
          dsimp only
          split_ifs
          · exact (caught_error _).mpr ⟨_, rfl⟩
          · exact caught_ok _

theorem caught_ocrFallback (payload : Bytes) : Caught (ocrFallback py settings io payload) := by
  unfold ocrFallback
  split_ifs
  · exact caught_ocrPdf payload
  · exact (caught_error _).mpr ⟨_, rfl⟩

theorem caught_pdfPages (total : ℕ) (pages : List (Except LibError Text)) :
    Caught (pdfPages total pages) ↔ ∀ e, pagesRaise total pages = some e → e.kind.meansCorrupt = true := by
  induction pages generalizing total with
  | nil => simp [pdfPages, pagesRaise]
  | cons page rest ih =>
    cases page with
    | error e => simp [pdfPages, pagesRaise, caught_pdfFailure]
    | ok text =>
      simp only [pdfPages, pagesRaise]
      split_ifs
      · simp [malformedPdf]
      · rw [caught_map, ih]

theorem caught_parsePdf (payload : Bytes) : Caught (parsePdf py settings io payload) ↔
    ∀ e, pdfRaises io payload = some e → e.kind.meansCorrupt = true := by
  unfold parsePdf pdfRaises
  cases io.openPdf payload with
  | error e => simp [caught_pdfFailure]
  | ok document =>
    dsimp only
    by_cases hencrypted : document.isEncrypted = true
    · simp [hencrypted, malformedPdf]
    by_cases hzero : document.pageCount = 0
    · simp [hencrypted, hzero, malformedPdf]
    by_cases hmany : 200 < document.pageCount
    · simp [hencrypted, hzero, hmany, malformedPdf]
    simp only [hencrypted, hzero, hmany, if_false, or_self, Bool.false_eq_true]
    rw [← caught_pdfPages]
    cases pdfPages 0 document.pages with
    | error e => simp
    | ok parts =>
      simp only [caught_ok, iff_true]
      split_ifs
      · exact caught_ocrFallback payload
      · exact caught_ok _

theorem caught_parseByType (fileType : Text) (payload : Bytes) :
    Caught (parseByType py settings io fileType payload) ↔ (fileType = "application/pdf".toList →
      ∀ e, pdfRaises io payload = some e → e.kind.meansCorrupt = true) := by
  unfold parseByType
  split_ifs with hpdf htext himage
  · rw [caught_parsePdf]
    simp [hpdf]
  · refine iff_of_true ?_ fun h => absurd h hpdf
    unfold parsePlainText
    dsimp only
    split
    · exact caught_ok _
    · exact (caught_error _).mpr ⟨_, rfl⟩
  · exact iff_of_true (caught_ocrImage payload) fun h => absurd h hpdf
  · exact iff_of_true ((caught_error _).mpr ⟨_, rfl⟩) fun h => absurd h hpdf

/-! ### What a document needs to leave the others alone -/

/-- The file that a document names is read or is missing, and as a PDF it
raises nothing outside the kinds of a corrupt file. -/
structure Document.Harmless (settings : Settings) (io : Io) (a : Uuid) (d : Document) : Prop where
  file : ∀ path e, localDocumentPath settings a d.s3Path = some path → io.read path = .error e →
    e = .fileNotFound
  engine : d.fileType = "application/pdf".toList → ∀ path payload e,
    localDocumentPath settings a d.s3Path = some path → io.read path = .ok payload →
      pdfRaises io payload = some e → e.kind.meansCorrupt = true

/-- The text of a document, or the note on why it has none, holds no NUL. -/
def Document.Storable (py : Python) (settings : Settings) (io : Io) (a : Uuid) (d : Document) : Prop :=
  (∀ text, loadDocument py settings io a d = .ok text → '\x00' ∉ text) ∧
    ∀ e, loadDocument py settings io a d = .error (.caught e) → '\x00' ∉ e.detail

theorem caught_loadDocument (py : Python) (a : Uuid) (d : Document) :
    Caught (loadDocument py settings io a d) ↔ d.Harmless settings io a := by
  unfold loadDocument readLocalPayload
  cases hpath : localDocumentPath settings a d.s3Path with
  | none => exact iff_of_true ((caught_error _).mpr ⟨_, rfl⟩) ⟨by simp [hpath], by simp [hpath]⟩
  | some path =>
    dsimp only
    cases hread : io.read path with
    | ok payload =>
      dsimp only
      rw [caught_parseByType]
      constructor
      · refine fun h => ⟨?_, fun hpdf p b e hp hb => ?_⟩
        · intro p e hp he
          cases hpath.symm.trans hp
          rw [hread] at he
          cases he
        · cases hpath.symm.trans hp
          cases hread.symm.trans hb
          exact h hpdf e
      · exact fun h hpdf e => h.engine hpdf path payload e hpath hread
    | error e =>
      have hengine : ∀ p b, localDocumentPath settings a d.s3Path = some p → io.read p ≠ .ok b := by
        intro p b hp hb
        cases hpath.symm.trans hp
        rw [hread] at hb
        cases hb
      cases e with
      | fileNotFound =>
        refine iff_of_true ((caught_error _).mpr ⟨_, rfl⟩) ⟨fun p e hp he => ?_, fun _ p b _ hp hb => ?_⟩
        · cases hpath.symm.trans hp
          exact (Except.error.inj (hread.symm.trans he)).symm
        · exact absurd hb (hengine p b hp)
      | _ =>
        refine iff_of_false (fun h => ?_) fun h => ?_
        · obtain ⟨t, ht⟩ := h _ rfl
          cases ht
        · exact OsError.noConfusion (h.file path _ hpath hread)

theorem loadError_eq_some {load : Document → Except LoadFailure Text} {d : Document} {e : LoadFailure} :
    loadError load d = some e ↔ d.storedText = none ∧ load d = .error e := by
  unfold loadError
  cases d.storedText with
  | some s => simp
  | none => cases load d <;> simp

theorem caughtError_eq_some {load : Document → Except LoadFailure Text} {d : Document}
    {e : DocumentError} :
    caughtError load d = some e ↔ d.storedText = none ∧ load d = .error (.caught e) := by
  rw [← loadError_eq_some]
  unfold caughtError
  cases h : loadError load d with
  | none => simp
  | some f => cases f <;> simp

/-- No document without a text blocks the others. -/
def AllHarmless (py : Python) (settings : Settings) (io : Io) (a : Uuid) (docs : List Document) : Prop :=
  ∀ d ∈ docs, d.storedText = none → d.Harmless settings io a ∧ d.Storable py settings io a

theorem documentsClean_iff {a : Uuid} {docs : List Document} :
    DocumentsClean (loadDocument py settings io a) docs ↔ AllHarmless py settings io a docs := by
  constructor
  · intro h d hd hstored
    refine ⟨(caught_loadDocument py a d).mp fun e he => ?_, fun text ht => ?_, fun e he => ?_⟩
    · exact h.caught d hd e (loadError_eq_some.mpr ⟨hstored, he⟩)
    · exact of_decide_eq_true (h.texts d hd text (loadedText_eq_some.mpr ⟨hstored, ht⟩))
    · exact of_decide_eq_true (h.failures d hd e (caughtError_eq_some.mpr ⟨hstored, he⟩))
  · refine fun h => ⟨fun d hd e he => ?_, fun d hd text ht => ?_, fun d hd e he => ?_⟩
    · obtain ⟨hstored, he⟩ := loadError_eq_some.mp he
      exact (caught_loadDocument py a d).mpr (h d hd hstored).1 e he
    · obtain ⟨hstored, ht⟩ := loadedText_eq_some.mp ht
      exact decide_eq_true ((h d hd hstored).2.1 text ht)
    · obtain ⟨hstored, he⟩ := caughtError_eq_some.mp he
      exact decide_eq_true ((h d hd hstored).2.2 e he)

/-! ### Each document on its own -/

/-- The entry of `parsed_documents` for a document: its stored text, or the text it parses to. -/
def parsedEntry (py : Python) (settings : Settings) (io : Io) (a : Uuid) (d : Document) :
    Option (Text × Text) :=
  (d.storedText.or (loadDocument py settings io a d).toOption).map fun text => (d.id.str, text)

/-- The node returns, with the entries of the documents that have a text and
one note for each of the others, and every entry and every note is that of its
document alone. -/
def IngestsEach (py : Python) (settings : Settings) (io : Io) (draws : RunDraws) (a : Uuid)
    (db : Database) : Prop :=
  ∃ db' rows, ingestRoute py settings io draws a db = .ok
      (sourceTexts ((db.documentsOf a).filterMap (parsedEntry py settings io a))
        (statedMessages (db.messagesOf a .inbound)), db') ∧
    db'.auditLogs = db.auditLogs ++ rows ∧
    List.Forall₂ (fun d row => ∃ e, loadDocument py settings io a d = .error (.caught e) ∧
        row = parseFailedAudit a draws.ingestAt e)
      ((db.documentsOf a).filter fun d => (parsedEntry py settings io a d).isNone) rows

theorem parsedEntry_isNone {a : Uuid} {d : Document} :
    (parsedEntry py settings io a d).isNone = true ↔
      ∃ e, loadError (loadDocument py settings io a) d = some e := by
  unfold parsedEntry loadError
  cases d.storedText with
  | some s => simp
  | none => cases loadDocument py settings io a d <;> simp [Except.toOption]

/-- The notes of the loop, document by document. -/
theorem forall₂_failures {a : Uuid} {docs : List Document} (now : Time)
    (h : LoadsCaught (loadDocument py settings io a) docs) :
    List.Forall₂ (fun d row => ∃ e, loadDocument py settings io a d = .error (.caught e) ∧
        row = parseFailedAudit a now e)
      (docs.filter fun d => (parsedEntry py settings io a d).isNone)
      ((docs.filterMap (caughtError (loadDocument py settings io a))).map (parseFailedAudit a now)) := by
  induction docs with
  | nil => exact .nil
  | cons d rest ih =>
    have hrest := ih fun x hx => h x (List.mem_cons_of_mem d hx)
    cases hd : loadError (loadDocument py settings io a) d with
    | none =>
      have hnone : (parsedEntry py settings io a d).isNone = false :=
        Bool.eq_false_iff.mpr fun hn => by
          obtain ⟨e, he⟩ := parsedEntry_isNone.mp hn
          rw [hd] at he
          cases he
      have hcaught : caughtError (loadDocument py settings io a) d = none := by simp [caughtError, hd]
      simpa [hnone, hcaught] using hrest
    | some e =>
      obtain ⟨t, rfl⟩ := h d List.mem_cons_self e hd
      have hnone : (parsedEntry py settings io a d).isNone = true := parsedEntry_isNone.mpr ⟨_, hd⟩
      have hcaught : caughtError (loadDocument py settings io a) d = some t := by simp [caughtError, hd]
      simp only [List.filter_cons, hnone, if_true, List.filterMap_cons, hcaught, List.map_cons]
      exact .cons ⟨t, (loadError_eq_some.mp hd).2, rfl⟩ hrest

/-- Ingestion treats each document of an application on its own exactly when
none of those without a text blocks the others. -/
theorem ingestRoute_each_iff (py : Python) (settings : Settings) (io : Io) (draws : RunDraws) (a : Uuid)
    (db : Database) :
    IngestsEach py settings io draws a db ↔ AllHarmless py settings io a (db.documentsOf a) := by
  have hroute : (∃ r, ingestRoute py settings io draws a db = .ok r) ↔ _ := ingestRoute_ok_iff
  rw [← documentsClean_iff, ← hroute]
  constructor
  · rintro ⟨db', rows, h, -⟩
    exact ⟨_, h⟩
  · rintro ⟨⟨sources, db'⟩, h⟩
    obtain ⟨hl, hc, hs⟩ := ingestRoute_ok.mp h
    have hdb := commitIngest_some hc
    refine ⟨db', _, ?_, ?_, forall₂_failures draws.ingestAt hl⟩
    · rw [h, hs]
      rfl
    · rw [hdb]
      rfl

/-! ### A URL that names a folder -/

/-- An attachment whose URL is the folder of the first application. -/
def folderAttachment : AttachmentIn :=
  linkedAttachment "application/pdf".toList (s3UriPrefix ++ (Uuid.ofNat 1).str ++ ['/']) length_pdf (by decide)

def folderDocument : Document :=
  ⟨.ofNat 2, .ofNat 1, "application/pdf".toList, none, some (s3UriPrefix ++ (Uuid.ofNat 1).str ++ ['/']), none⟩

/-- A disk on which the folder of the first application exists. -/
def folderDisk : Io :=
  { sampleIo with read := fun path =>
      if path = sampleSettings.folder (.ofNat 1) then .error .isADirectory else .error .fileNotFound }

/-- The folder and a document whose text is known. -/
def folderDatabase : Database where
  applications := [⟨.ofNat 1, "alice".toList, .processing, 0⟩]
  documents := [⟨.ofNat 3, .ofNat 1, "text/plain".toList, some "payslip".toList, none, none⟩, folderDocument]

/-- The URL is accepted, and then even the known text is not handed on. -/
theorem folderAttachment_blocks :
    buildDocument asciiPython sampleSettings folderAttachment (.ofNat 1) (.ofNat 2) =
      .ok (folderDocument, none) ∧
    ¬ IngestsEach asciiPython sampleSettings folderDisk sampleDraws (.ofNat 1) folderDatabase := by
  refine ⟨by decide +kernel, ?_⟩
  have hstop : (ingestRoute asciiPython sampleSettings folderDisk sampleDraws (.ofNat 1)
      folderDatabase).toOption = none := by decide +kernel
  rintro ⟨db', rows, h, -⟩
  rw [h] at hstop
  cases hstop

end LoanAgent
