import LoanAgent.ObjectStore

/-! Reading a stored document. The PDF engine, the OCR engine and the file
system are given by what they answer, `Io`; the wrappers around them map the
exceptions they know to the three typed document errors and let every other
exception through. -/

namespace LoanAgent

/-- The exceptions of the libraries, as far as the wrappers tell them apart. -/
inductive LibErrorKind
  | fileData | runtime | value | tesseractNotFound | tesseract | other
  deriving DecidableEq

structure LibError where
  kind : LibErrorKind
  message : Text
  deriving DecidableEq

/-- The subclasses of `OSError` that reading a path raises. -/
inductive OsError
  | fileNotFound | isADirectory | notADirectory | nameTooLong | permission
  deriving DecidableEq

/-- A PDF as `fitz` opens it: every page yields its text or raises. -/
structure PdfFile where
  isEncrypted : Bool
  pageCount : ℕ
  pages : List (Except LibError Text)

/-- A PDF as the OCR loop sees it: the pixels of each page and its recognized text. -/
structure ScannedPdf where
  pageCount : ℕ
  pages : List (Except LibError (ℕ × Except LibError Text))

/-- What the file system and the libraries answer. -/
structure Io where
  read : FilePath → Except OsError Bytes
  openPdf : Bytes → Except LibError PdfFile
  scanPdf : Bytes → Except LibError ScannedPdf
  /-- `Image.open` and `image_to_string`. -/
  scanImage : Bytes → Except LibError Text
  /-- Whether `_resolve_tesseract_binary` finds a binary. -/
  tesseract : Bool
  /-- The text of the `UnicodeDecodeError` for bytes that are not UTF-8. -/
  decodeError : Bytes → Text

inductive DocumentErrorKind
  | malformedPdf | textDecoding | ocrUnavailable
  deriving DecidableEq

/-- `MalformedPDFError`, `TextDecodingError` and `OCRUnavailableError`. -/
structure DocumentError where
  kind : DocumentErrorKind
  detail : Text
  deriving DecidableEq

def DocumentError.code (e : DocumentError) : Text :=
  match e.kind with
  | .malformedPdf => "malformed_pdf".toList
  | .textDecoding => "text_decoding_failed".toList
  | .ocrUnavailable => "ocr_unavailable".toList

/-- What leaves the reading of one document: an error that `ingest_route`
catches, or one that it does not. -/
inductive LoadFailure
  | caught (e : DocumentError)
  | lib (e : LibError)
  | os (e : OsError)
  deriving DecidableEq

def malformedPdf (detail : Text) : LoadFailure := .caught ⟨.malformedPdf, detail⟩

def ocrUnavailable (detail : Text) : LoadFailure := .caught ⟨.ocrUnavailable, detail⟩

section Parse
variable (py : Python) (settings : Settings) (io : Io)

/-- The handlers of the OCR wrappers. -/
def ocrFailure (tesseractText otherText : String) (e : LibError) : LoadFailure :=
  match e.kind with
  | .tesseractNotFound => ocrUnavailable "Tesseract binary could not be executed.".toList
  | .tesseract => ocrUnavailable (tesseractText.toList ++ e.message)
  | _ => ocrUnavailable (otherText.toList ++ e.message)

def binaryMissing : LoadFailure := ocrUnavailable
  "Tesseract binary not found. Install tesseract-ocr or set TESSERACT_CMD.".toList

def ocrImage (payload : Bytes) : Except LoadFailure Text :=
  if !io.tesseract then .error binaryMissing
  else match io.scanImage payload with
    | .error e => .error (ocrFailure "Tesseract failed while recognizing image: "
        "Image could not be decoded for OCR: " e)
    | .ok text =>
      let text := py.strip text
      if text = [] then
        .error (ocrUnavailable "OCR produced no text; the image may be blank or unreadable.".toList)
      else .ok text

/-- The texts of the pages in order, or the first failure. -/
def ocrPages : List (Except LibError (ℕ × Except LibError Text)) → Except LoadFailure (List Text)
  | [] => .ok []
  | page :: rest =>
    let failed := ocrFailure "Tesseract failed while recognizing a page: "
      "OCR failed while processing PDF: "
    match page with
    | .error e => .error (failed e)
    | .ok (pixels, text) =>
      if 50000000 < pixels then
        .error (ocrUnavailable "PDF page too large for OCR at configured DPI.".toList)
      else match text with
        | .error e => .error (failed e)
        | .ok text => (ocrPages rest).map (text :: ·)

def ocrPdf (payload : Bytes) : Except LoadFailure Text :=
  if !io.tesseract then .error binaryMissing
  else match io.scanPdf payload with
    | .error e => .error (ocrFailure "Tesseract failed while recognizing a page: "
        "OCR failed while processing PDF: " e)
    | .ok document =>
      if 50 < document.pageCount then
        .error (ocrUnavailable ("PDF has ".toList ++ intText document.pageCount ++
          " pages; exceeds OCR limit of 50.".toList))
      else match ocrPages document.pages with
        | .error e => .error e
        | .ok texts =>
          let text := py.strip (join ['\n'] texts)
          if text = [] then .error
            (ocrUnavailable "OCR produced no text; the document may be blank or unreadable.".toList)
          else .ok text

def ocrFallback (payload : Bytes) : Except LoadFailure Text :=
  if settings.ocrEnabled then ocrPdf py io payload
  else .error (malformedPdf "No extractable text layer and OCR is disabled.".toList)

/-- The handler of `parse_pdf`: three kinds of exceptions mean a corrupt file. -/
def pdfFailure (e : LibError) : LoadFailure :=
  match e.kind with
  | .fileData | .runtime | .value => malformedPdf ("PDF structure is corrupt: ".toList ++ e.message)
  | _ => .lib e

/-- The page texts, given the number of characters before. -/
def pdfPages : ℕ → List (Except LibError Text) → Except LoadFailure (List Text)
  | _, [] => .ok []
  | total, page :: rest => match page with
    | .error e => .error (pdfFailure e)
    | .ok text =>
      if 500000 < total + text.length then
        .error (malformedPdf "PDF text extraction exceeds 500k char limit.".toList)
      else (pdfPages (total + text.length) rest).map (text :: ·)

def parsePdf (payload : Bytes) : Except LoadFailure Text :=
  match io.openPdf payload with
  | .error e => .error (pdfFailure e)
  | .ok document =>
    if document.isEncrypted then .error (malformedPdf "PDF is password protected.".toList)
    else if document.pageCount = 0 then .error (malformedPdf "PDF contains zero pages.".toList)
    else if 200 < document.pageCount then
      .error (malformedPdf ("PDF has ".toList ++ intText document.pageCount ++
        " pages; exceeds limit of 200.".toList))
    else match pdfPages 0 document.pages with
      | .error e => .error e
      | .ok parts =>
        let text := join ['\n'] parts
        if py.strip text = [] then ocrFallback py settings io payload else .ok text

/-- `payload.decode("utf-8-sig")`: a byte order mark in front is dropped. -/
def parsePlainText (payload : Bytes) : Except LoadFailure Text :=
  let body := if payload.take 3 = [0xEF, 0xBB, 0xBF] then payload.drop 3 else payload
  match String.fromUTF8? ⟨body.toArray⟩ with
  | some s => .ok s.toList
  | none => .error (.caught ⟨.textDecoding,
      "Attachment is not valid UTF-8: ".toList ++ io.decodeError payload⟩)

/-! ### One document of `ingest_route` -/

/-- `str(path)` of an absolute path. -/
def pathText (p : FilePath) : Text := p.flatMap ('/' :: ·)

def readLocalPayload (applicationId : Uuid) (s3Path : Option Text) :
    Except LoadFailure (Option Bytes) :=
  match localDocumentPath settings applicationId s3Path with
  | none => .ok none
  | some path => match io.read path with
    | .ok payload => .ok (some payload)
    | .error .fileNotFound =>
      .error (malformedPdf ("Stored file missing on disk: ".toList ++ pathText path))
    | .error e => .error (.os e)

/-- The parser that the media type selects. -/
def parseByType (fileType : Text) (payload : Bytes) : Except LoadFailure Text :=
  if fileType = "application/pdf".toList then parsePdf py settings io payload
  else if fileType = "text/plain".toList then parsePlainText io payload
  else if fileType = "image/jpeg".toList ∨ fileType = "image/png".toList then ocrImage py io payload
  else .error (malformedPdf ("Unsupported file_type '".toList ++ fileType ++ "'.".toList))

/-- The body of the `try` in the loop of `ingest_route`. -/
def loadDocument (applicationId : Uuid) (d : Document) : Except LoadFailure Text :=
  match readLocalPayload settings io applicationId d.s3Path with
  | .error e => .error e
  | .ok none => .error (malformedPdf
      "Document is remotely hosted or its storage path is untrusted; fetch not supported in MVP.".toList)
  | .ok (some payload) => parseByType py settings io d.fileType payload

/-- A text comes from a stored file that the document's path resolves to. -/
theorem loadDocument_ok {a : Uuid} {d : Document} {text : Text}
    (h : loadDocument py settings io a d = .ok text) :
    ∃ path payload, localDocumentPath settings a d.s3Path = some path ∧
      io.read path = .ok payload ∧ parseByType py settings io d.fileType payload = .ok text := by
  unfold loadDocument readLocalPayload at h
  split at h
  · cases h
  · cases h
  next payload he =>
    split at he
    · cases he
    next path hp =>
      split at he
      next hr =>
        cases he
        exact ⟨path, payload, hp, hr, h⟩
      · cases he
      · cases he

end Parse

end LoanAgent
