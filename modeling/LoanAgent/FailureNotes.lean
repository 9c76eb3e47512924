import LoanAgent.BadAttachments

/-! What the note on an unreadable document says. A typed document error is a
sentence of the parsers, and some of the sentences go on with a text from
outside: the path of a missing file, the type of the file, a number of pages,
the message of a library. Proved: the note shows PII only where one of these
does, whatever the sentence around it. -/

namespace LoanAgent

/-! ### Sentences -/

section Sentences
variable {py : Python}

/-- Every digit as the digit zero. -/
def zeroDigits (c : Char) : Char := if c.isDigit then '0' else c

theorem mem_digits_of_isDigit {c : Char} (h : c.isDigit = true) : c ∈ "0123456789".toList := by
  simp only [Char.isDigit, Bool.and_eq_true, decide_eq_true_eq, ge_iff_le, UInt32.le_iff_toNat_le] at h
  have hc : Char.ofNat c.val.toNat = c := Char.ofNat_toNat c
  have h0 : '0'.val.toNat = 48 := rfl
  have h9 : '9'.val.toNat = 57 := rfl
  rw [← hc]
  generalize c.val.toNat = n at h
  have hn : n ∈ List.range' 48 10 := List.mem_range'_1.mpr (by omega)
  have key : ∀ n ∈ List.range' 48 10, Char.ofNat n ∈ "0123456789".toList := by decide
  exact key n hn

/-- A class that has all the digits or none of them does not tell them apart. -/
theorem class_zeroDigits {p : Char → Bool} (hp : "0123456789".toList.all (fun c => p c == p '0') = true)
    (c : Char) : p (zeroDigits c) = p c := by
  unfold zeroDigits
  split_ifs with h
  · exact (beq_iff_eq.mp (List.all_eq_true.mp hp c (mem_digits_of_isDigit h))).symm
  · rfl

theorem blindTo_zeroDigits {r : Rx.Pat × Text} (h : r ∈ redactionPatterns asciiPython) :
    r.1.blindTo zeroDigits := by
  have hdigit := class_zeroDigits (p := fun c => (asciiDigit c).isSome) (by decide)
  have hspace := class_zeroDigits (p := asciiSpace) (by decide)
  have hdash := class_zeroDigits (p := (· == '-')) (by decide)
  have hgap := class_zeroDigits (p := fun c => c == ' ' || c == '-') (by decide)
  have hupper := class_zeroDigits (p := asciiUpper) (by decide)
  have htail := class_zeroDigits (p := fun c => asciiUpper c || c.isDigit) (by decide)
  simp only [redactionPatterns, List.mem_cons, List.not_mem_nil, or_false] at h
  rcases h with rfl | rfl | rfl | rfl
  · exact ⟨trivial, hdigit, hdash, hdigit, hdash, hdigit, trivial⟩
  · exact ⟨trivial, hdigit, hspace, hdigit, hspace, hdigit, trivial⟩
  · exact ⟨trivial, ⟨hdigit, hgap⟩, trivial⟩
  · exact ⟨trivial, hupper, hdigit, htail, trivial⟩

/-- Which digits a text has does not matter. -/
theorem hasPii_zeroDigits (text : Text) :
    hasPii asciiPython (text.map zeroDigits) = hasPii asciiPython text := by
  have hword := class_zeroDigits (p := asciiWord) (by decide)
  have hrule : ∀ r ∈ redactionPatterns asciiPython,
      Rx.occurs asciiPython.isWord r.1 [] (text.map zeroDigits) = Rx.occurs asciiPython.isWord r.1 [] text :=
    fun r hr => Rx.occurs_map hword (blindTo_zeroDigits hr) [] text
  rw [Bool.eq_iff_iff]
  simp only [hasPii, List.any_eq_true]
  exact exists_congr fun r => and_congr_right fun hr => by rw [hrule r hr]

theorem intText_natCast (n : ℕ) : intText n = Nat.toDigits 10 n := by
  rw [intText, if_neg (by omega), Int.natAbs_natCast]

/-- The limits on the number of pages, as the parsers say them. -/
def pageLimits : List String := [" pages; exceeds limit of 200.", " pages; exceeds OCR limit of 50."]

theorem pageLimits_free : pageLimits.all (fun limit => limit.toList.all plainChar && (List.range 13).all fun k =>
    !hasPii asciiPython ("PDF has ".toList ++ (List.replicate k '0' ++ limit.toList.map zeroDigits))) = true := by
  decide +kernel

/-- A sentence about the number of pages: twelve digits are no identifier. -/
theorem hasPii_pageCount (py : Python) {n : ℕ} (hn : n < 10 ^ 12) {limit : String} (hlimit : limit ∈ pageLimits) :
    hasPii py ("PDF has ".toList ++ intText n ++ limit.toList) = false := by
  have hlimits := List.all_eq_true.mp pageLimits_free limit hlimit
  rw [Bool.and_eq_true] at hlimits
  obtain ⟨hplain, hfree⟩ := hlimits
  have hdigits : ∀ c ∈ intText n, c.isDigit = true := fun c hc =>
    isDigit_of_mem_toDigits (by rwa [← intText_natCast])
  have hplainDigits : (intText n).all plainChar = true := by
    refine List.all_eq_true.mpr fun c hc => ?_
    have key : ("0123456789".toList.all plainChar) = true := by decide
    exact List.all_eq_true.mp key c (mem_digits_of_isDigit (hdigits c hc))
  have hlen : (intText n).length < 13 := by
    rw [intText_natCast]
    exact Nat.lt_succ_of_le ((Nat.length_toDigits_le_iff (by decide) (by decide)).mpr hn)
  have hzeros : (intText n).map zeroDigits = List.replicate (intText n).length '0' :=
    List.eq_replicate_iff.mpr ⟨List.length_map _, fun c hc => by
      obtain ⟨d, hd, rfl⟩ := List.mem_map.mp hc
      exact if_pos (hdigits d hd)⟩
  have hfront : ("PDF has ".toList).map zeroDigits = "PDF has ".toList := by decide
  have hall : ("PDF has ".toList ++ intText n ++ limit.toList).all plainChar = true := by
    rw [List.all_append, List.all_append, hplain, hplainDigits]
    decide
  rw [hasPii_plain py hall, ← hasPii_zeroDigits, List.map_append, List.map_append, hfront, hzeros,
    List.append_assoc]
  have := List.all_eq_true.mp hfree _ (List.mem_range.mpr hlen)
  simpa only [Bool.not_eq_true'] using this

/-- A text of the code that ends with a colon. -/
def announces (text : Text) : Bool :=
  text.all plainChar && !hasPii asciiPython text && [':', ' '].isSuffixOf text

/-- What the parsers say before they quote. -/
def announcements : List String :=
  ["PDF structure is corrupt: ", "Attachment is not valid UTF-8: ", "Stored file missing on disk: ",
    "Tesseract failed while recognizing image: ", "Image could not be decoded for OCR: ",
    "Tesseract failed while recognizing a page: ", "OCR failed while processing PDF: "]

theorem announcements_announce : announcements.all (fun text => announces text.toList) = true := by decide +kernel

/-- What is announced shows what it shows by itself. -/
theorem hasPii_announced {text : String} (h : text ∈ announcements) (said : Text) :
    hasPii py (text.toList ++ said) = hasPii py said := by
  have hsaid := List.all_eq_true.mp announcements_announce text h
  simp only [announces, Bool.and_eq_true, Bool.not_eq_true', List.isSuffixOf_iff_suffix] at hsaid
  obtain ⟨⟨hplain, hfree⟩, front, hfront⟩ := hsaid
  rw [← hfront] at hplain hfree ⊢
  have hcolon : Barrier py ':' := barrier_ascii (by decide) (by decide) (by decide) (by decide)
  have hblank : py.isWord ' ' = false := py.word_ascii ' ' (by decide)
  have hquiet : hasPii py front = false := by
    rw [← hasPii_plain py hplain] at hfree
    have := (hasPii_append_barrier hcolon front [' ']).symm.trans hfree
    exact (Bool.or_eq_false_iff.mp this).1
  rw [List.append_assoc]
  exact (hasPii_append_barrier hcolon front (' ' :: said)).trans
    (by rw [hquiet, Bool.false_or, hasPii_cons_nonword hblank])

/-- A type in quotation marks shows what it shows by itself. -/
theorem hasPii_quoted (fileType : Text) :
    hasPii py ("Unsupported file_type '".toList ++ fileType ++ "'.".toList) = hasPii py fileType := by
  have hquote : Barrier py (Char.ofNat 39) := barrier_ascii (by decide) (by decide) (by decide) (by decide)
  have hends : ["Unsupported file_type ", "."].all (fun text => !hasPii asciiPython text.toList) = true := by
    decide +kernel
  simp only [List.all_cons, List.all_nil, Bool.and_true, Bool.and_eq_true, Bool.not_eq_true'] at hends
  have hfront : hasPii py "Unsupported file_type ".toList = false := (hasPii_plain py (by decide)).trans hends.1
  have hback : hasPii py ".".toList = false := (hasPii_plain py (by decide)).trans hends.2
  have hsplit : "Unsupported file_type '".toList ++ fileType ++ "'.".toList =
      "Unsupported file_type ".toList ++ Char.ofNat 39 :: (fileType ++ Char.ofNat 39 :: ".".toList) := by
    have hopen : "Unsupported file_type '".toList = "Unsupported file_type ".toList ++ [Char.ofNat 39] := by decide
    have hclose : "'.".toList = Char.ofNat 39 :: ".".toList := by decide
    rw [hopen, hclose, List.append_assoc, List.append_assoc]
    rfl
  rw [hsplit, hasPii_append_barrier hquote, hasPii_append_barrier hquote, hfront, hback, Bool.false_or,
    Bool.or_false]

/-- A path shows what one of its segments shows. -/
theorem hasPii_pathText (path : FilePath) : hasPii py (pathText path) = path.any (hasPii py) := by
  have hslash : Barrier py '/' := barrier_ascii (by decide) (by decide) (by decide) (by decide)
  have hjoin : ∀ (path : FilePath) (front : Text),
      hasPii py (front ++ pathText path) = (hasPii py front || path.any (hasPii py)) := by
    intro path
    induction path with
    | nil => simp [pathText]
    | cons segment path ih =>
      intro front
      have hsplit : front ++ pathText (segment :: path) = front ++ '/' :: (segment ++ pathText path) := rfl
      rw [hsplit, hasPii_append_barrier hslash, ih, List.any_cons]
  have := hjoin path []
  rwa [hasPii_nil, Bool.false_or] at this

end Sentences

/-! ### What the libraries say -/

/-- The exception that ends the OCR of the pages. -/
def ocrPagesRaise : List (Except LibError (ℕ × Except LibError Text)) → Option LibError
  | [] => none
  | .error e :: _ => some e
  | .ok (pixels, text) :: rest =>
    if 50000000 < pixels then none
    else match text with
      | .error e => some e
      | .ok _ => ocrPagesRaise rest

/-- The exception of the OCR engine that ends `ocr_pdf`. -/
def ocrRaises (io : Io) (payload : Bytes) : Option LibError :=
  match io.scanPdf payload with
  | .error e => some e
  | .ok document => if 50 < document.pageCount then none else ocrPagesRaise document.pages

/-- The exception that ends `ocr_image`. -/
def imageRaises (io : Io) (payload : Bytes) : Option LibError :=
  match io.scanImage payload with
  | .error e => some e
  | .ok _ => none

/-- The OCR wrappers quote every exception but one. -/
def LibErrorKind.ocrQuotes : LibErrorKind → Bool
  | .tesseractNotFound => false
  | _ => true

/-- The PDF has pages without a text layer, which is what OCR is for. -/
def textLayerBlank (py : Python) (io : Io) (payload : Bytes) : Bool :=
  match io.openPdf payload with
  | .error _ => false
  | .ok document => match pdfPages 0 document.pages with
    | .error _ => false
    | .ok parts => py.strip (join ['\n'] parts) = []

section Clean
variable (py : Python) (settings : Settings) (io : Io)

/-- An exception of a kind that is quoted shows no PII. -/
def cleanRaise (quoted : LibErrorKind → Bool) (raised : Option LibError) : Bool :=
  raised.all fun e => !(quoted e.kind && hasPii py e.message)

def cleanOcrPdf (payload : Bytes) : Bool :=
  !io.tesseract || (cleanRaise py LibErrorKind.ocrQuotes (ocrRaises io payload) &&
    (io.scanPdf payload).toOption.all fun document => document.pageCount < 10 ^ 12)

def cleanPdf (payload : Bytes) : Bool :=
  cleanRaise py LibErrorKind.meansCorrupt (pdfRaises io payload) &&
    ((io.openPdf payload).toOption.all fun document => document.pageCount < 10 ^ 12) &&
    (!(textLayerBlank py io payload && settings.ocrEnabled) || cleanOcrPdf py io payload)

/-- What the parser of the media type has to quote shows no PII. -/
def cleanPayload (fileType : Text) (payload : Bytes) : Bool :=
  if fileType = "application/pdf".toList then cleanPdf py settings io payload
  else if fileType = "text/plain".toList then
    (parsePlainText io payload).toOption.isSome || !hasPii py (io.decodeError payload)
  else if fileType = "image/jpeg".toList ∨ fileType = "image/png".toList then
    !io.tesseract || cleanRaise py LibErrorKind.ocrQuotes (imageRaises io payload)
  else !hasPii py fileType

/-- What comes from outside into the note on a document shows no PII: the path
of its file when it is missing, and what its parser quotes when it is there. -/
def Document.cleanQuotes (applicationId : Uuid) (d : Document) : Bool :=
  match localDocumentPath settings applicationId d.s3Path with
  | none => true
  | some path => match io.read path with
    | .ok payload => cleanPayload py settings io d.fileType payload
    | .error .fileNotFound => path.all fun segment => !hasPii py segment
    | .error _ => true

end Clean

/-! ### The notes -/

section Notes
variable {py : Python} {settings : Settings} {io : Io}

/-- Whatever is raised for the loop to catch says nothing that shows PII. -/
def Discreet (py : Python) {α : Type} (x : Except LoadFailure α) : Prop :=
  ∀ e, x = .error (.caught e) → hasPii py e.detail = false

theorem discreet_ok {α : Type} (x : α) : Discreet py (.ok x) := nofun

theorem discreet_error {α : Type} {kind : DocumentErrorKind} {detail : Text} (h : hasPii py detail = false) :
    Discreet py (.error (.caught ⟨kind, detail⟩) : Except LoadFailure α) := by
  intro e he
  cases he
  exact h

/-- The sentences without anything from outside. -/
def ownSentences : List String :=
  ["No extractable text layer and OCR is disabled.", "PDF is password protected.", "PDF contains zero pages.",
    "PDF text extraction exceeds 500k char limit.", "PDF page too large for OCR at configured DPI.",
    "Tesseract binary could not be executed.",
    "Tesseract binary not found. Install tesseract-ocr or set TESSERACT_CMD.",
    "OCR produced no text; the image may be blank or unreadable.",
    "OCR produced no text; the document may be blank or unreadable.",
    "Document is remotely hosted or its storage path is untrusted; fetch not supported in MVP."]

theorem ownSentences_discreet :
    ownSentences.all (fun s => s.toList.all plainChar && !hasPii asciiPython s.toList) = true := by
  decide +kernel

theorem discreet_own {α : Type} {kind : DocumentErrorKind} {sentence : String} (h : sentence ∈ ownSentences) :
    Discreet py (.error (.caught ⟨kind, sentence.toList⟩) : Except LoadFailure α) := by
  have hown := List.all_eq_true.mp ownSentences_discreet sentence h
  rw [Bool.and_eq_true, Bool.not_eq_true'] at hown
  exact discreet_error ((hasPii_plain py hown.1).trans hown.2)

theorem discreet_map {α β : Type} (f : α → β) {x : Except LoadFailure α} (h : Discreet py x) :
    Discreet py (x.map f) := by
  cases x with
  | error e =>
    intro e' he
    cases he
    exact h e' rfl
  | ok x => exact discreet_ok (f x)

theorem discreet_ocrFailure {α : Type} {tesseractText otherText : String}
    (ht : tesseractText ∈ announcements) (ho : otherText ∈ announcements) {e : LibError}
    (h : cleanRaise py LibErrorKind.ocrQuotes (some e) = true) :
    Discreet py (.error (ocrFailure tesseractText otherText e) : Except LoadFailure α) := by
  obtain ⟨kind, message⟩ := e
  simp only [cleanRaise, Option.all_some, Bool.not_eq_true'] at h
  cases kind with
  | tesseractNotFound => exact discreet_own (by simp [ownSentences])
  | tesseract => exact discreet_error ((hasPii_announced ht message).trans h)
  | _ => exact discreet_error ((hasPii_announced ho message).trans h)

theorem discreet_pdfFailure {α : Type} {e : LibError}
    (h : cleanRaise py LibErrorKind.meansCorrupt (some e) = true) :
    Discreet py (.error (pdfFailure e) : Except LoadFailure α) := by
  obtain ⟨kind, message⟩ := e
  have hsaid : "PDF structure is corrupt: " ∈ announcements := by simp [announcements]
  simp only [cleanRaise, Option.all_some, Bool.not_eq_true'] at h
  cases kind with
  | fileData | runtime | value => exact discreet_error ((hasPii_announced hsaid message).trans h)
  | _ => nofun

theorem discreet_ocrImage {payload : Bytes}
    (h : !io.tesseract || cleanRaise py LibErrorKind.ocrQuotes (imageRaises io payload)) :
    Discreet py (ocrImage py io payload) := by
  unfold ocrImage
  split_ifs with htess
  · exact discreet_own (by simp [ownSentences])
  · have htess : io.tesseract = true := by simpa using htess
    simp only [htess, Bool.not_true, Bool.false_or, imageRaises] at h
    cases hs : io.scanImage payload with
    | error e =>
      rw [hs] at h
      exact discreet_ocrFailure (by simp [announcements]) (by simp [announcements]) h
    | ok text =>
      dsimp only
      split_ifs
      · exact discreet_own (by simp [ownSentences])
      · exact discreet_ok _

theorem announces_ocrPages : "Tesseract failed while recognizing a page: " ∈ announcements ∧
    "OCR failed while processing PDF: " ∈ announcements := by simp [announcements]

theorem discreet_ocrPages {pages : List (Except LibError (ℕ × Except LibError Text))}
    (h : cleanRaise py LibErrorKind.ocrQuotes (ocrPagesRaise pages) = true) : Discreet py (ocrPages pages) := by
  induction pages with
  | nil => exact discreet_ok _
  | cons page rest ih =>
    cases page with
    | error e => exact discreet_ocrFailure announces_ocrPages.1 announces_ocrPages.2 h
    | ok p =>
      obtain ⟨pixels, text⟩ := p
      simp only [ocrPagesRaise] at h
      simp only [ocrPages]
      split_ifs at h ⊢ with hlarge
      · exact discreet_own (by simp [ownSentences])
      · cases text with
        | error e => exact discreet_ocrFailure announces_ocrPages.1 announces_ocrPages.2 h
        | ok text => exact discreet_map _ (ih h)

theorem discreet_ocrPdf {payload : Bytes} (h : cleanOcrPdf py io payload = true) :
    Discreet py (ocrPdf py io payload) := by
  unfold ocrPdf
  split_ifs with htess
  · exact discreet_own (by simp [ownSentences])
  · have htess : io.tesseract = true := by simpa using htess
    simp only [cleanOcrPdf, ocrRaises, htess, Bool.not_true, Bool.false_or, Bool.and_eq_true] at h
    cases hs : io.scanPdf payload with
    | error e =>
      rw [hs] at h
      exact discreet_ocrFailure announces_ocrPages.1 announces_ocrPages.2 h.1
    | ok document =>
      simp only [hs, Except.toOption, Option.all_some, decide_eq_true_eq] at h
      dsimp only
      split_ifs at h ⊢ with hmany
      · exact discreet_error (hasPii_pageCount py h.2 (by simp [pageLimits]))
      · have hpages := discreet_ocrPages h.1
        cases hp : ocrPages document.pages with
        | error e => exact fun e' he => hpages e' (by rw [hp, Except.error.inj he])
        | ok texts =>
          dsimp only
          split_ifs
          · exact discreet_own (by simp [ownSentences])
          · exact discreet_ok _

theorem discreet_pdfPages {total : ℕ} {pages : List (Except LibError Text)}
    (h : cleanRaise py LibErrorKind.meansCorrupt (pagesRaise total pages) = true) :
    Discreet py (pdfPages total pages) := by
  induction pages generalizing total with
  | nil => exact discreet_ok _
  | cons page rest ih =>
    cases page with
    | error e => exact discreet_pdfFailure h
    | ok text =>
      simp only [pagesRaise] at h
      simp only [pdfPages]
      split_ifs at h ⊢ with hlong
      · exact discreet_own (by simp [ownSentences])
      · exact discreet_map _ (ih h)

theorem discreet_parsePdf {payload : Bytes} (h : cleanPdf py settings io payload = true) :
    Discreet py (parsePdf py settings io payload) := by
  simp only [cleanPdf, Bool.and_eq_true] at h
  obtain ⟨⟨hraise, hcount⟩, hblank⟩ := h
  unfold parsePdf
  unfold pdfRaises at hraise
  unfold textLayerBlank at hblank
  cases ho : io.openPdf payload with
  | error e =>
    rw [ho] at hraise
    exact discreet_pdfFailure hraise
  | ok document =>
    simp only [ho, Except.toOption, Option.all_some, decide_eq_true_eq] at hraise hcount hblank
    dsimp only
    by_cases hencrypted : document.isEncrypted = true
    · rw [if_pos hencrypted]
      exact discreet_own (by simp [ownSentences])
    by_cases hzero : document.pageCount = 0
    · rw [if_neg hencrypted, if_pos hzero]
      exact discreet_own (by simp [ownSentences])
    by_cases hmany : 200 < document.pageCount
    · rw [if_neg hencrypted, if_neg hzero, if_pos hmany]
      exact discreet_error (hasPii_pageCount py hcount (by simp [pageLimits]))
    rw [if_neg (by tauto)] at hraise
    rw [if_neg hencrypted, if_neg hzero, if_neg hmany]
    have hpages := discreet_pdfPages hraise
    cases hp : pdfPages 0 document.pages with
    | error e => exact fun e' he => hpages e' (by rw [hp, Except.error.inj he])
    | ok parts =>
      dsimp only
      split_ifs with hstrip
      · unfold ocrFallback
        split_ifs with henabled
        · refine discreet_ocrPdf ?_
          simpa [hp, hstrip, henabled] using hblank
        · exact discreet_own (by simp [ownSentences])
      · exact discreet_ok _

theorem discreet_parsePlainText {payload : Bytes}
    (h : (parsePlainText io payload).toOption.isSome || !hasPii py (io.decodeError payload)) :
    Discreet py (parsePlainText io payload) := by
  have hsaid : "Attachment is not valid UTF-8: " ∈ announcements := by simp [announcements]
  unfold parsePlainText at h ⊢
  dsimp only at h ⊢
  split at h
  · exact discreet_ok _
  · exact discreet_error ((hasPii_announced hsaid _).trans (by simpa [Except.toOption] using h))

theorem discreet_parseByType {fileType : Text} {payload : Bytes}
    (h : cleanPayload py settings io fileType payload = true) :
    Discreet py (parseByType py settings io fileType payload) := by
  unfold cleanPayload at h
  unfold parseByType
  split_ifs at h ⊢
  · exact discreet_parsePdf h
  · exact discreet_parsePlainText h
  · exact discreet_ocrImage h
  · exact discreet_error ((hasPii_quoted fileType).trans (by simpa using h))

/-- The note on a document shows PII only where something from outside does. -/
theorem hasPii_detail {a : Uuid} {d : Document} {e : DocumentError} (h : d.cleanQuotes py settings io a = true)
    (he : caughtError (loadDocument py settings io a) d = some e) : hasPii py e.detail = false := by
  have key : Discreet py (loadDocument py settings io a d) := by
    unfold Document.cleanQuotes at h
    unfold loadDocument readLocalPayload
    cases hpath : localDocumentPath settings a d.s3Path with
    | none => exact discreet_own (by simp [ownSentences])
    | some path =>
      rw [hpath] at h
      dsimp only at h ⊢
      cases hread : io.read path with
      | ok payload =>
        rw [hread] at h
        exact discreet_parseByType h
      | error e =>
        cases e with
        | fileNotFound =>
          simp only [hread, List.all_eq_true, Bool.not_eq_true'] at h
          have hsaid : "Stored file missing on disk: " ∈ announcements := by simp [announcements]
          refine discreet_error ((hasPii_announced hsaid _).trans ?_)
          rw [hasPii_pathText, List.any_eq_false]
          exact fun segment hs => by simp [h segment hs]
        | _ => nofun
  exact key e (caughtError_eq_some.mp he).2

end Notes

end LoanAgent
