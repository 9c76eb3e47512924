import LoanAgent.JsonText
import LoanAgent.Library.Xml
import LoanAgent.LosExport

/-! The credit memo as XML, of facts whose documents are loaded, and what a
parser reads out of it. Values, paths and snippets are cut at a length; what is
left is escaped, so that only characters that XML does not allow and the line
ends that it normalises stand between a fact and its element. Proved: the memo
of facts without documents is the one that the export builds, and a memo is
well formed and gives back every fact exactly when each text has allowed
characters only, no cut applies, no snippet and no path has a carriage return
and no value is null. -/

namespace LoanAgent

/-- A fact with the row of its document, if it has one. -/
structure LoadedFact extends FactContent where
  document : Option Document
  deriving DecidableEq

/-- The path of the document; an absent one and a `None` leave the element empty. -/
def LoadedFact.path (f : LoadedFact) : Text := (f.document.bind (·.s3Path)).getD []

/-- The contents of a `Fact` element. -/
structure FactElement where
  key : Text
  confidence : Option ℚ
  value : Text
  documentId : Option Uuid
  path : Text
  snippet : Text
  deriving DecidableEq

def factElement (py : Python) (f : LoadedFact) : FactElement where
  key := f.key
  confidence := f.confidenceScore
  value := if f.value = .null then [] else (jsonValue py false f.value).take 5000
  documentId := f.documentId
  path := f.path.take 1024
  snippet := (f.sourceSnippet.getD []).take 2000

/-! ### The tree -/

/-- What `ET.indent` puts in front of an element of the given level. -/
def newline (level : ℕ) (rest : Xml.Content) : Xml.Content :=
  .ofText ('\n' :: List.replicate (2 * level) ' ') rest

def leaf (name : String) (s : Text) (rest : Xml.Content) : Xml.Content :=
  .elem name.toList [] (.ofText s .nil) rest

def FactElement.source (f : FactElement) : Xml.Content :=
  newline 4 <| .elem "Document".toList (f.documentId.elim [] fun id => [("id".toList, id.str)])
    (newline 5 <| leaf "S3Path" f.path <| newline 4 .nil) <|
    newline 4 <| leaf "Snippet" f.snippet <| newline 3 .nil

def FactElement.body (f : FactElement) : Xml.Content :=
  newline 3 <| leaf "Value" f.value <| newline 3 <| .elem "Source".toList [] f.source <| newline 2 .nil

def FactElement.attrs (f : FactElement) : List (Text × Text) :=
  ("key".toList, f.key) :: f.confidence.elim [] fun q => [("confidence".toList, fixed4 q)]

def factsXml : List FactElement → Xml.Content
  | [] => newline 1 .nil
  | f :: rest => newline 2 <| .elem "Fact".toList f.attrs f.body <| factsXml rest

def memoXml (application : Application) (generatedAt : Text) (facts : List FactElement) : Xml.Element where
  name := "CreditMemo".toList
  attrs := [("applicationId".toList, application.id.str), ("status".toList, application.status.value),
    ("generatedAt".toList, generatedAt)]
  body := newline 1 <| .elem "Borrower".toList [("externalId".toList, application.externalBorrowerId)] .nil <|
    newline 1 <| .elem "ExtractedFacts".toList [] (if facts = [] then .nil else factsXml facts) <|
    newline 0 .nil

/-- `build_credit_memo_xml`. -/
def buildCreditMemoXml (py : Python) (application : Application) (facts : List LoadedFact)
    (generatedAt : Text) : Text :=
  Xml.declaration ++ '\n' ::
    (memoXml application generatedAt ((facts.take 50).map (factElement py))).content.render

/-! ### What a bank reads -/

structure FactReading where
  key : Text
  value : Option Json
  documentId : Option Text
  path : Text
  snippet : Text

def readFact (py : Python) (e : Xml.Element) : Option FactReading := do
  let key ← e.get "key"
  let value ← e.child "Value"
  let source ← e.child "Source"
  let document ← source.child "Document"
  let path ← document.child "S3Path"
  let snippet ← source.child "Snippet"
  pure ⟨key, loads py value.body.text, document.get "id", path.body.text, snippet.body.text⟩

/-- The facts of a memo, in order; `none` when it is not well formed. -/
def readMemo (py : Python) (text : Text) : Option (List FactReading) := do
  let root ← Xml.parse text
  let facts ← root.child "ExtractedFacts"
  (facts.body.children.filter (·.name = "Fact".toList)).mapM (readFact py)

/-- What is to be read of a fact. -/
def LoadedFact.reading (f : LoadedFact) : FactReading :=
  ⟨f.key, some (jsonOf f.value), f.documentId.map (·.str), f.path, f.sourceSnippet.getD []⟩

/-- The memo is well formed and gives back its facts. -/
def RoundTrips (py : Python) (application : Application) (facts : List LoadedFact) (generatedAt : Text) :
    Prop :=
  readMemo py (buildCreditMemoXml py application facts generatedAt) = some (facts.map (·.reading))

/-! ### One memo, written twice -/

theorem escapeXml_attr (s : Text) : escapeXml true s = s.flatMap Xml.escapeAttr := by
  refine congrArg (List.flatMap · s) (funext fun c => ?_)
  simp only [Xml.escapeAttr, true_and]

theorem escapeXml_text (s : Text) : escapeXml false s = s.flatMap Xml.escapeText := by
  refine congrArg (List.flatMap · s) (funext fun c => ?_)
  simp only [Xml.escapeText, Bool.false_eq_true, false_and, if_false]

theorem render_leaf (name : String) (s : Text) (rest : Xml.Content) :
    (leaf name s rest).render = xmlLeaf name s ++ rest.render := by
  rw [leaf, Xml.Content.render, xmlLeaf]
  simp only [Xml.ofText_eq_nil, Xml.startOf, Xml.endOf, Xml.render_ofText, escapeXml_text]
  split_ifs with hs <;> simp [Xml.Content.render]

theorem render_newline (level : ℕ) (rest : Xml.Content) :
    (newline level rest).render = '\n' :: (List.replicate (2 * level) ' ' ++ rest.render) := by
  have hblank : Xml.escapeText ' ' = [' '] := rfl
  rw [newline, Xml.render_ofText, List.flatMap_cons, List.flatMap_replicate, hblank]
  simp [Xml.escapeText]

theorem renderAttr_eq (name : String) (value : Text) :
    Xml.renderAttr (name.toList, value) = xmlAttribute name value := by
  have hquote : "=\"".toList = ['=', '"'] := rfl
  rw [Xml.renderAttr, xmlAttribute, escapeXml_attr, hquote]
  simp

/-- The element of a fact without a document. -/
def MemoFact.element (f : MemoFact) : FactElement := ⟨f.key, f.confidence, f.value.getD [], none, [], f.snippet⟩

theorem factElement_memoFact (py : Python) {f : FactContent} (h : f.documentId = none) :
    factElement py ⟨f, none⟩ = (memoFact py f).element := by
  simp only [factElement, memoFact, MemoFact.element, h, LoadedFact.path]
  split_ifs <;> rfl

theorem render_source (f : MemoFact) : f.element.source.render =
    "\n        <Document>\n          <S3Path />\n        </Document>\n        ".toList ++
      (xmlLeaf "Snippet" f.snippet ++ "\n      ".toList) := by
  simp only [FactElement.source, MemoFact.element, Option.elim_none, render_newline, render_leaf,
    Xml.Content.render]
  rfl

theorem render_attrs (f : MemoFact) : Xml.startOf "Fact".toList f.element.attrs =
    "<Fact".toList ++ (xmlAttribute "key" f.key ++
      (f.confidence.elim [] fun q => xmlAttribute "confidence" (fixed4 q))) := by
  rw [FactElement.attrs, Xml.startOf, List.flatMap_cons, renderAttr_eq]
  cases hc : f.confidence with
  | none => simp [MemoFact.element, hc]
  | some q =>
    have hattr := renderAttr_eq "confidence" (fixed4 q)
    simpa [MemoFact.element, hc] using hattr

theorem newline_ne_nil (level : ℕ) (rest : Xml.Content) : newline level rest ≠ .nil :=
  Xml.Content.noConfusion

theorem render_body (f : MemoFact) : f.element.body.render = '\n' :: (List.replicate 6 ' ' ++
    (xmlLeaf "Value" (f.value.getD []) ++ ('\n' :: (List.replicate 6 ' ' ++ ("<Source>".toList ++
      (f.element.source.render ++ ("</Source>".toList ++ ('\n' :: List.replicate 4 ' '))))))))  := by
  have hvalue : f.element.value = f.value.getD [] := rfl
  have hsource : f.element.source ≠ .nil := newline_ne_nil _ _
  rw [FactElement.body, hvalue, render_newline, render_leaf, render_newline, Xml.Content.render, if_neg hsource,
    render_newline]
  generalize f.element.source.render = source
  simp only [List.append_assoc, List.cons_append, Xml.Content.render]
  rfl

theorem render_facts (facts : List MemoFact) : (factsXml (facts.map (·.element))).render =
    '\n' :: (facts.flatMap MemoFact.xml ++ "  ".toList) := by
  induction facts with
  | nil =>
    rw [List.map_nil, factsXml, render_newline]
    rfl
  | cons f facts ih =>
    have hbody : f.element.body ≠ .nil := newline_ne_nil _ _
    have hxml : "    ".toList ++ (Xml.startOf "Fact".toList f.element.attrs ++
        ('>' :: (f.element.body.render ++ Xml.endOf "Fact".toList) ++ ['\n'])) = f.xml := by
      rw [render_attrs, render_body, render_source]
      unfold MemoFact.xml
      generalize xmlAttribute "key" f.key = key
      generalize (f.confidence.elim [] fun q => xmlAttribute "confidence" (fixed4 q)) = confidence
      generalize xmlLeaf "Value" (f.value.getD []) = value
      generalize xmlLeaf "Snippet" f.snippet = snippet
      simp only [List.append_assoc, List.cons_append]
      rfl
    rw [List.map_cons, factsXml, render_newline, Xml.Content.render, if_neg hbody, ih, List.flatMap_cons, ← hxml]
    simp only [List.append_assoc, List.cons_append, List.nil_append]
    rfl

theorem render_memoXml (application : Application) (stamp : Text) (facts : List MemoFact) :
    (memoXml application stamp (facts.map (·.element))).content.render = "<CreditMemo".toList ++
      (xmlAttribute "applicationId" application.id.str ++ (xmlAttribute "status" application.status.value ++
        (xmlAttribute "generatedAt" stamp ++ (">\n  <Borrower".toList ++
          (xmlAttribute "externalId" application.externalBorrowerId ++ (" />\n  ".toList ++
            ((if facts = [] then "<ExtractedFacts />".toList
              else "<ExtractedFacts>\n".toList ++ (facts.flatMap MemoFact.xml ++ "  </ExtractedFacts>".toList)) ++
              "\n</CreditMemo>".toList))))))) := by
  have hbody : ∀ elements, (memoXml application stamp elements).body ≠ .nil := fun _ => newline_ne_nil _ _
  have hroot : Xml.startOf "CreditMemo".toList [("applicationId".toList, application.id.str),
      ("status".toList, application.status.value), ("generatedAt".toList, stamp)] = "<CreditMemo".toList ++
        (xmlAttribute "applicationId" application.id.str ++ (xmlAttribute "status" application.status.value ++
          xmlAttribute "generatedAt" stamp)) := by
    simp only [Xml.startOf, List.flatMap_cons, List.flatMap_nil, renderAttr_eq, List.append_nil]
    rfl
  have hborrower : Xml.startOf "Borrower".toList [("externalId".toList, application.externalBorrowerId)] =
      "<Borrower".toList ++ xmlAttribute "externalId" application.externalBorrowerId := by
    simp only [Xml.startOf, List.flatMap_cons, List.flatMap_nil, renderAttr_eq, List.append_nil]
    rfl
  have hnewline : ∀ rest, (newline 1 rest).render = '\n' :: ("  ".toList ++ rest.render) := render_newline 1
  have hlast : (newline 0 .nil).render = ['\n'] := rfl
  have hlist : Xml.startOf "ExtractedFacts".toList [] = "<ExtractedFacts".toList := rfl
  have hlistEnd : Xml.endOf "ExtractedFacts".toList = "</ExtractedFacts>".toList := rfl
  have hrootEnd : Xml.endOf "CreditMemo".toList = "</CreditMemo>".toList := rfl
  have hopen : ">\n  <Borrower".toList = '>' :: '\n' :: ("  ".toList ++ "<Borrower".toList) := rfl
  have hnext : " />\n  ".toList = " />".toList ++ '\n' :: "  ".toList := rfl
  have hempty : "<ExtractedFacts />".toList = "<ExtractedFacts".toList ++ " />".toList := rfl
  have hfull : "<ExtractedFacts>\n".toList = "<ExtractedFacts".toList ++ ['>', '\n'] := rfl
  have hclose : "  </ExtractedFacts>".toList = "  ".toList ++ "</ExtractedFacts>".toList := rfl
  have hend : "\n</CreditMemo>".toList = '\n' :: "</CreditMemo>".toList := rfl
  have hrender : (memoXml application stamp (facts.map (·.element))).content.render =
      Xml.startOf "CreditMemo".toList [("applicationId".toList, application.id.str),
        ("status".toList, application.status.value), ("generatedAt".toList, stamp)] ++
      ('>' :: ((newline 1 <| .elem "Borrower".toList [("externalId".toList, application.externalBorrowerId)] .nil <|
        newline 1 <| .elem "ExtractedFacts".toList []
          (if facts.map (·.element) = [] then .nil else factsXml (facts.map (·.element))) <|
        newline 0 .nil).render ++ Xml.endOf "CreditMemo".toList) ++ []) :=
    congrArg _ (congrArg (· ++ []) (if_neg (hbody _)))
  rw [hrender, hnewline, Xml.Content.render, if_pos rfl, hnewline, Xml.Content.render, hlast, hroot, hborrower,
    hlist, hlistEnd, hrootEnd, hopen, hnext, hclose, hend]
  by_cases hfacts : facts = []
  · simp only [hfacts, List.map_nil, if_true, hempty, List.append_assoc, List.cons_append, List.nil_append,
      List.append_nil]
  · have hmap : facts.map (·.element) ≠ [] := fun h => hfacts (List.map_eq_nil_iff.mp h)
    have hnil : factsXml (facts.map (·.element)) ≠ .nil := by
      cases facts with
      | nil => exact absurd rfl hfacts
      | cons f facts => exact newline_ne_nil _ _
    simp only [hfacts, hmap, hnil, if_false, render_facts, hfull, List.append_assoc, List.cons_append,
      List.nil_append, List.append_nil]

/-- Of facts without documents it is the memo that the export delivers. -/
theorem xml_eq_buildCreditMemoXml {py : Python} {application : Application} {facts : List FactContent}
    {stamp : Text} {memo : CreditMemo} (h : buildCreditMemo py application facts stamp = some memo)
    (hcount : facts.length ≤ 50) :
    memo.xml = buildCreditMemoXml py application (facts.map fun f => ⟨f, none⟩) stamp := by
  unfold buildCreditMemo at h
  split_ifs at h with hdoc
  cases h
  simp only [List.any_eq_true, not_exists, not_and, Option.not_isSome_iff_eq_none] at hdoc
  have hmap : ((facts.map fun f => (⟨f, none⟩ : LoadedFact)).take 50).map (factElement py) =
      (facts.map (memoFact py)).map (·.element) := by
    rw [List.take_of_length_le (by rwa [List.length_map]), List.map_map, List.map_map]
    exact List.map_congr_left fun f hf => factElement_memoFact py (hdoc f hf)
  rw [buildCreditMemoXml, hmap]
  unfold CreditMemo.xml
  dsimp only
  rewrite [render_memoXml]
  have hopen : "<?xml version=\"1.0\" encoding=\"UTF-8\"?>\n<CreditMemo".toList =
      Xml.declaration ++ '\n' :: "<CreditMemo".toList := rfl
  have hempty : "<ExtractedFacts />\n".toList = "<ExtractedFacts />".toList ++ ['\n'] := rfl
  have hclose : "  </ExtractedFacts>\n".toList = "  </ExtractedFacts>".toList ++ ['\n'] := rfl
  have hend : "\n</CreditMemo>".toList = '\n' :: "</CreditMemo>".toList := rfl
  rewrite [hopen, hempty, hclose, hend]
  split_ifs
  · simp only [List.append_assoc, List.cons_append, List.nil_append]
  · simp only [List.append_assoc, List.cons_append, List.nil_append]

/-! ### The tree is well formed -/

section Layout
variable (level : ℕ) (rest : Xml.Content)

theorem newline_plain {c : Char} (h : c ∈ '\n' :: List.replicate (2 * level) ' ') : c = '\n' ∨ c = ' ' := by
  rcases List.mem_cons.mp h with h | h
  · exact .inl h
  · exact .inr (List.eq_of_mem_replicate h)

theorem legal_newline : (newline level rest).legal = rest.legal := by
  have hall : ('\n' :: List.replicate (2 * level) ' ').all Xml.isChar = true := by
    rw [List.all_eq_true]
    intro c hc
    rcases newline_plain level hc with rfl | rfl <;> decide
  rw [newline, Xml.legal_ofText, hall, Bool.true_and]

theorem valid_newline : (newline level rest).Valid ↔ rest.Valid := Xml.valid_ofText _ rest

theorem lineEnds_newline : (newline level rest).lineEnds false = newline level (rest.lineEnds false) := by
  refine Xml.lineEnds_ofText_append (fun h => ?_) rest
  rcases newline_plain level h with h | h <;> exact absurd h (by decide)

theorem children_newline : (newline level rest).children = rest.children := Xml.children_ofText _ rest

theorem legal_leaf (name : String) (s : Text) :
    (leaf name s rest).legal = (s.all Xml.isChar && rest.legal) := by
  rw [leaf, Xml.Content.legal, Xml.legal_ofText, Xml.Content.legal, List.all_nil, Bool.true_and, Bool.and_true]

theorem valid_leaf {name : String} (hname : Xml.isName name.toList = true) (s : Text) :
    (leaf name s rest).Valid ↔ rest.Valid := by
  rw [leaf, Xml.Content.Valid, Xml.valid_ofText]
  simp [hname, Xml.Content.Valid]

theorem lineEnds_leaf (afterCr : Bool) (name : String) (s : Text) :
    (leaf name s rest).lineEnds afterCr = leaf name (Xml.lineEnds false s) (rest.lineEnds false) := by
  rw [leaf, Xml.Content.lineEnds, Xml.lineEnds_ofText]
  rfl

end Layout

theorem valid_source (f : FactElement) : f.source.Valid := by
  have hid : Xml.isName "id".toList = true := by decide
  rw [FactElement.source, valid_newline]
  refine ⟨by decide, ?_, ?_, ?_, ?_⟩
  · cases f.documentId with
    | none => exact List.forall_mem_nil _
    | some id => exact List.forall_mem_singleton.mpr hid
  · cases f.documentId with
    | none => exact List.nodup_nil
    | some id => exact List.nodup_singleton _
  · rw [valid_newline, valid_leaf _ (by decide), valid_newline]
    trivial
  · rw [valid_newline, valid_leaf _ (by decide), valid_newline]
    trivial

theorem valid_body (f : FactElement) : f.body.Valid := by
  rw [FactElement.body, valid_newline, valid_leaf _ (by decide), valid_newline]
  exact ⟨by decide, List.forall_mem_nil _, List.nodup_nil, valid_source f, (valid_newline _ _).mpr trivial⟩

theorem valid_factsXml (facts : List FactElement) : (factsXml facts).Valid := by
  have hfact : Xml.isName "Fact".toList = true := by decide
  have hkey : Xml.isName "key".toList = true := by decide
  have hconfidence : Xml.isName "confidence".toList = true := by decide
  induction facts with
  | nil => exact (valid_newline _ _).mpr trivial
  | cons f facts ih =>
    rw [factsXml, valid_newline]
    refine ⟨hfact, ?_, ?_, valid_body f, ih⟩
    · cases hc : f.confidence with
      | none => simpa [FactElement.attrs, hc] using hkey
      | some q => simpa [FactElement.attrs, hc] using ⟨hkey, hconfidence⟩
    · cases hc : f.confidence with
      | none => simp [FactElement.attrs, hc]
      | some q => simp [FactElement.attrs, hc]

theorem valid_memoXml (application : Application) (stamp : Text) (facts : List FactElement) :
    (memoXml application stamp facts).content.Valid := by
  have hroot : Xml.isName "CreditMemo".toList = true := by decide
  have hid : Xml.isName "applicationId".toList = true := by decide
  have hstatus : Xml.isName "status".toList = true := by decide
  have hgenerated : Xml.isName "generatedAt".toList = true := by decide
  have hexternal : Xml.isName "externalId".toList = true := by decide
  have hnodup : ["applicationId".toList, "status".toList, "generatedAt".toList].Nodup := by decide
  have hfacts : (if facts = [] then Xml.Content.nil else factsXml facts).Valid := by
    split_ifs
    · trivial
    · exact valid_factsXml facts
  have hlist : (Xml.Content.elem "ExtractedFacts".toList []
      (if facts = [] then .nil else factsXml facts) (newline 0 .nil)).Valid :=
    ⟨by decide, List.forall_mem_nil _, List.nodup_nil, hfacts, (valid_newline _ _).mpr trivial⟩
  have hbody : (memoXml application stamp facts).body.Valid :=
    (valid_newline _ _).mpr ⟨by decide, List.forall_mem_singleton.mpr hexternal, List.nodup_singleton _, trivial,
      (valid_newline _ _).mpr hlist⟩
  exact ⟨hroot, List.forall_mem_cons.mpr ⟨hid, List.forall_mem_cons.mpr ⟨hstatus,
    List.forall_mem_singleton.mpr hgenerated⟩⟩, hnodup, hbody, trivial⟩

/-! ### Its characters -/

theorem all_str (u : Uuid) : u.str.all Xml.isChar = true := by
  rw [List.all_eq_true]
  intro c hc
  rcases Uuid.mem_str hc with rfl | ⟨d, rfl⟩
  · decide
  · have key : ∀ d : Fin 16, Xml.isChar (hexChar d) = true := by decide
    exact key d

theorem all_fixed4 (q : ℚ) : (fixed4 q).all Xml.isChar = true := by
  have hdigits : ∀ n, ∀ c ∈ Nat.toDigits 10 n, Xml.isChar c = true := by
    intro n c hc
    have hdigit := Char.isDigit_iff_toNat.mp (isDigit_of_mem_toDigits hc)
    have h0 : '0'.toNat = 48 := rfl
    have h9 : '9'.toNat = 57 := rfl
    simp only [Xml.isChar, Bool.or_eq_true, Bool.and_eq_true, decide_eq_true_eq]
    omega
  rw [List.all_eq_true]
  intro c hc
  simp only [fixed4, List.mem_append, List.mem_cons] at hc
  rcases hc with hc | rfl | hc | hc
  · exact hdigits _ c hc
  · decide
  · rw [List.eq_of_mem_replicate hc]
    decide
  · exact hdigits _ c hc

/-- All characters of the element are allowed. -/
def FactElement.Legal (f : FactElement) : Prop :=
  f.key.all Xml.isChar = true ∧ f.value.all Xml.isChar = true ∧ f.path.all Xml.isChar = true ∧
    f.snippet.all Xml.isChar = true

theorem legal_body (f : FactElement) : f.body.legal =
    (f.value.all Xml.isChar && (f.path.all Xml.isChar && f.snippet.all Xml.isChar)) := by
  cases hd : f.documentId <;>
    simp [FactElement.body, FactElement.source, hd, legal_newline, legal_leaf, Xml.Content.legal, all_str]

theorem legal_factsXml (facts : List FactElement) :
    (factsXml facts).legal = true ↔ ∀ f ∈ facts, f.Legal := by
  induction facts with
  | nil => simp [factsXml, legal_newline, Xml.Content.legal]
  | cons f facts ih =>
    have hattrs : (f.attrs.all fun a => a.2.all Xml.isChar) = f.key.all Xml.isChar := by
      cases hc : f.confidence <;> simp [FactElement.attrs, hc, all_fixed4]
    rw [factsXml, legal_newline, Xml.Content.legal, hattrs, legal_body, Bool.and_eq_true, ih, List.forall_mem_cons]
    simp only [Bool.and_eq_true, FactElement.Legal]

theorem legal_memoXml (application : Application) {stamp : Text} (hstamp : stamp.all Xml.isChar = true)
    (facts : List FactElement) : (memoXml application stamp facts).content.legal = true ↔
      application.externalBorrowerId.all Xml.isChar = true ∧ ∀ f ∈ facts, f.Legal := by
  have hstatus : application.status.value.all Xml.isChar = true := by
    cases application.status <;> decide
  have hfacts : (if facts = [] then Xml.Content.nil else factsXml facts).legal = true ↔
      ∀ f ∈ facts, f.Legal := by
    split_ifs with h
    · simp [h, Xml.Content.legal]
    · exact legal_factsXml facts
  have hattrs : ((memoXml application stamp facts).attrs.all fun a => a.2.all Xml.isChar) = true := by
    rw [List.all_eq_true]
    exact List.forall_mem_cons.mpr ⟨all_str _, List.forall_mem_cons.mpr ⟨hstatus,
      List.forall_mem_singleton.mpr hstamp⟩⟩
  have hbody : (memoXml application stamp facts).body.legal = (application.externalBorrowerId.all Xml.isChar &&
      (if facts = [] then Xml.Content.nil else factsXml facts).legal) := by
    rw [show (memoXml application stamp facts).body = newline 1 _ from rfl]
    simp only [legal_newline, Xml.Content.legal, List.all_cons, List.all_nil, Bool.and_true, Bool.true_and]
  rw [Xml.Element.content, Xml.Content.legal, hattrs, hbody, Bool.true_and, Xml.Content.legal, Bool.and_true,
    Bool.and_eq_true, hfacts]

/-! ### Reading it -/

theorem child_first {e x : Xml.Element} {rest : List Xml.Element} (name : String)
    (h : e.body.children = x :: rest) (hname : x.name = name.toList) : e.child name = some x := by
  rw [Xml.Element.child, h, List.find?_cons_of_pos (by simpa using hname)]

theorem child_second {e x y : Xml.Element} {rest : List Xml.Element} (name : String)
    (h : e.body.children = x :: y :: rest) (hx : x.name ≠ name.toList) (hy : y.name = name.toList) :
    e.child name = some y := by
  rw [Xml.Element.child, h, List.find?_cons_of_neg (by simpa using hx),
    List.find?_cons_of_pos (by simpa using hy)]

/-- What is read of an element, once the line ends are normalised. -/
def FactElement.reading (py : Python) (f : FactElement) : FactReading :=
  ⟨f.key, loads py (Xml.lineEnds false f.value), f.documentId.map (·.str), Xml.lineEnds false f.path,
    Xml.lineEnds false f.snippet⟩

theorem children_body (f : FactElement) : (f.body.lineEnds false).children =
    [⟨"Value".toList, [], .ofText (Xml.lineEnds false f.value) .nil⟩,
      ⟨"Source".toList, [], f.source.lineEnds false⟩] := by
  rw [FactElement.body, lineEnds_newline, children_newline, lineEnds_leaf, lineEnds_newline]
  rw [leaf, Xml.Content.children, children_newline, Xml.Content.lineEnds, Xml.Content.children,
    lineEnds_newline, children_newline]
  rfl

theorem children_source (f : FactElement) : (f.source.lineEnds false).children =
    [⟨"Document".toList, f.documentId.elim [] fun id => [("id".toList, id.str)],
        newline 5 (leaf "S3Path" (Xml.lineEnds false f.path) (newline 4 .nil))⟩,
      ⟨"Snippet".toList, [], .ofText (Xml.lineEnds false f.snippet) .nil⟩] := by
  rw [FactElement.source, lineEnds_newline, children_newline, Xml.Content.lineEnds, Xml.Content.children,
    lineEnds_newline, lineEnds_leaf, lineEnds_newline, lineEnds_newline, children_newline, lineEnds_leaf, leaf,
    leaf, Xml.Content.children, lineEnds_newline, children_newline]
  rfl

theorem readFact_element (py : Python) (f : FactElement) :
    readFact py ⟨"Fact".toList, f.attrs, f.body.lineEnds false⟩ = some (f.reading py) := by
  have hkey : Xml.Element.get "key" ⟨"Fact".toList, f.attrs, f.body.lineEnds false⟩ = some f.key :=
    List.lookup_cons_self
  have hvalue := child_first "Value" (e := ⟨"Fact".toList, f.attrs, f.body.lineEnds false⟩)
    (children_body f) rfl
  have hsource := child_second "Source" (e := ⟨"Fact".toList, f.attrs, f.body.lineEnds false⟩)
    (children_body f) (show "Value".toList ≠ "Source".toList by decide) rfl
  have hdocument := child_first "Document" (e := ⟨"Source".toList, [], f.source.lineEnds false⟩)
    (children_source f) rfl
  have hsnippet := child_second "Snippet" (e := ⟨"Source".toList, [], f.source.lineEnds false⟩)
    (children_source f) (show "Document".toList ≠ "Snippet".toList by decide) rfl
  have hpath := child_first "S3Path" (e := ⟨"Document".toList,
    f.documentId.elim [] fun id => [("id".toList, id.str)],
    newline 5 (leaf "S3Path" (Xml.lineEnds false f.path) (newline 4 .nil))⟩) (children_newline _ _) rfl
  have hid : Xml.Element.get "id" ⟨"Document".toList, f.documentId.elim [] fun id => [("id".toList, id.str)],
      newline 5 (leaf "S3Path" (Xml.lineEnds false f.path) (newline 4 .nil))⟩ = f.documentId.map (·.str) := by
    cases f.documentId with
    | none => rfl
    | some id => exact List.lookup_cons_self
  unfold readFact
  rw [hkey, hvalue, hsource]
  simp only [Option.bind_eq_bind, Option.bind_some, hdocument, hsnippet, hpath, hid, Xml.text_ofText]
  rfl

theorem children_factsXml (facts : List FactElement) : ((factsXml facts).lineEnds false).children =
    facts.map fun f => ⟨"Fact".toList, f.attrs, f.body.lineEnds false⟩ := by
  induction facts with
  | nil =>
    rw [factsXml, lineEnds_newline, children_newline]
    rfl
  | cons f facts ih =>
    rw [factsXml, lineEnds_newline, children_newline, Xml.Content.lineEnds, Xml.Content.children, ih, List.map_cons]

theorem mapM_readFact (py : Python) (facts : List FactElement) :
    (facts.map fun f => (⟨"Fact".toList, f.attrs, f.body.lineEnds false⟩ : Xml.Element)).mapM (readFact py) =
      some (facts.map (·.reading py)) := by
  induction facts with
  | nil => rfl
  | cons f facts ih =>
    rw [List.map_cons, List.mapM_cons, readFact_element, ih]
    rfl

/-- A memo is read exactly when all its characters are allowed. -/
theorem readMemo_memoXml (py : Python) (application : Application) {stamp : Text}
    (hstamp : stamp.all Xml.isChar = true) (facts : List FactElement) (readings : List FactReading) :
    readMemo py (Xml.declaration ++ '\n' :: (memoXml application stamp facts).content.render) = some readings ↔
      (application.externalBorrowerId.all Xml.isChar = true ∧ ∀ f ∈ facts, f.Legal) ∧
        facts.map (·.reading py) = readings := by
  have hlegal := legal_memoXml application hstamp facts
  unfold readMemo
  rw [Xml.parse_render (valid_memoXml application stamp facts)]
  by_cases h : (memoXml application stamp facts).content.legal = true
  swap
  · rw [if_neg h]
    refine iff_of_false nofun fun hread => h (hlegal.mpr hread.1)
  rw [if_pos h, ← hlegal, and_iff_right h]
  have hroot : (memoXml application stamp facts).lineEnds.body.children =
      [⟨"Borrower".toList, [("externalId".toList, application.externalBorrowerId)], .nil⟩,
        ⟨"ExtractedFacts".toList, [], (if facts = [] then .nil else factsXml facts).lineEnds false⟩] := by
    rw [Xml.Element.lineEnds, show (memoXml application stamp facts).body = newline 1 _ from rfl, lineEnds_newline,
      children_newline, Xml.Content.lineEnds, Xml.Content.children, lineEnds_newline, children_newline,
      Xml.Content.lineEnds, Xml.Content.lineEnds, Xml.Content.children, lineEnds_newline, children_newline]
    rfl
  have hlist := child_second "ExtractedFacts" hroot (show "Borrower".toList ≠ "ExtractedFacts".toList by decide) rfl
  have hchildren : (((if facts = [] then Xml.Content.nil else factsXml facts).lineEnds false).children.filter
      (·.name = "Fact".toList)) = facts.map fun f => ⟨"Fact".toList, f.attrs, f.body.lineEnds false⟩ := by
    have hall : ((if facts = [] then Xml.Content.nil else factsXml facts).lineEnds false).children =
        facts.map fun f => ⟨"Fact".toList, f.attrs, f.body.lineEnds false⟩ := by
      split_ifs with hnil
      · rw [hnil]
        rfl
      · exact children_factsXml facts
    rw [hall, List.filter_eq_self]
    intro x hx
    obtain ⟨f, -, rfl⟩ := List.mem_map.mp hx
    exact decide_eq_true rfl
  simp only [Option.bind_eq_bind, Option.bind_some, hlist, hchildren, mapM_readFact, Option.some.injEq]

/-! ### What survives -/

/-- What the platform admits as a value: an integer has at most 4300 digits, and
the text of a float is short, has no line end and reads as that float. -/
structure Admitted (py : Python) (v : FactValue) : Prop where
  int : ∀ n, v = .int n → (Nat.toDigits 10 n.natAbs).length ≤ 4300
  float : ∀ q, v = .float (.finite q) → (py.repr (.finite q)).length ≤ 5000 ∧ '\r' ∉ py.repr (.finite q) ∧
    loads py (py.repr (.finite q)) = some (.number (.float (.finite q)))

theorem cr_not_mem_jsonValue {py : Python} {v : FactValue} (h : Admitted py v) : '\r' ∉ jsonValue py false v := by
  cases v with
  | null => exact (by decide : '\r' ∉ "null".toList)
  | str s => exact cr_not_mem_jsonString false s
  | int n => exact cr_not_mem_intText n
  | float x =>
    cases x with
    | finite q => exact (h.float q rfl).2.1
    | inf negative =>
      cases negative
      · exact (by decide : '\r' ∉ "Infinity".toList)
      · exact (by decide : '\r' ∉ "-Infinity".toList)
    | nan => exact (by decide : '\r' ∉ "NaN".toList)

/-- An admitted value is read back exactly when its text is not cut. -/
theorem loads_take {py : Python} {v : FactValue} (h : Admitted py v) (hv : v ≠ .null) :
    loads py ((jsonValue py false v).take 5000) = some (jsonOf v) ↔ (jsonValue py false v).length ≤ 5000 := by
  have hshort : (jsonValue py false v).length ≤ 5000 → loads py (jsonValue py false v) = some (jsonOf v) →
      (loads py ((jsonValue py false v).take 5000) = some (jsonOf v) ↔ (jsonValue py false v).length ≤ 5000) :=
    fun hlength hread => iff_of_true (by rwa [List.take_of_length_le hlength]) hlength
  cases v with
  | null => exact absurd rfl hv
  | str s =>
    by_cases hlength : (jsonString false s).length ≤ 5000
    · exact hshort hlength (loads_jsonString false s)
    · have hcut : loads py ((jsonString false s).take 5000) = none := loads_cut (by omega)
      exact iff_of_false (fun hread => by rw [jsonValue, hcut] at hread; cases hread) hlength
  | int n =>
    have hdigits := h.int n rfl
    refine hshort ?_ (loads_intText n)
    rw [jsonValue, intText]
    split_ifs
    · simp only [List.length_cons]
      omega
    · omega
  | float x =>
    cases x with
    | finite q => exact hshort (h.float q rfl).1 (h.float q rfl).2.2
    | inf negative =>
      cases negative
      · exact hshort (show "Infinity".toList.length ≤ 5000 by decide) rfl
      · exact hshort (show "-Infinity".toList.length ≤ 5000 by decide) rfl
    | nan => exact hshort (show "NaN".toList.length ≤ 5000 by decide) rfl

/-- A fact that its element can hold: no cut applies, every character is allowed,
no line end is normalised away and the value is not null. -/
structure Transcribed (py : Python) (f : LoadedFact) : Prop where
  key : f.key.all Xml.isChar = true
  value_some : f.value ≠ .null
  value_length : (jsonValue py false f.value).length ≤ 5000
  value_chars : (jsonValue py false f.value).all Xml.isChar = true
  path_length : f.path.length ≤ 1024
  path_chars : f.path.all Xml.isChar = true
  path_cr : '\r' ∉ f.path
  snippet_length : (f.sourceSnippet.getD []).length ≤ 2000
  snippet_chars : (f.sourceSnippet.getD []).all Xml.isChar = true
  snippet_cr : '\r' ∉ f.sourceSnippet.getD []

/-- A text is read as it was before it was cut. -/
theorem lineEnds_take_iff {s : Text} {n : ℕ} :
    ((s.take n).all Xml.isChar = true ∧ Xml.lineEnds false (s.take n) = s) ↔
      s.length ≤ n ∧ s.all Xml.isChar = true ∧ '\r' ∉ s := by
  constructor
  · rintro ⟨hall, hread⟩
    have hlength : s.length ≤ n := by
      have h := Xml.length_lineEnds_le false (s.take n)
      rw [hread, List.length_take] at h
      omega
    rw [List.take_of_length_le hlength] at hall hread
    exact ⟨hlength, hall, Xml.lineEnds_eq_self.mp hread⟩
  · rintro ⟨hlength, hall, hcr⟩
    rw [List.take_of_length_le hlength]
    exact ⟨hall, Xml.lineEnds_eq_self.mpr hcr⟩

theorem transcribed_iff {py : Python} {f : LoadedFact} (h : Admitted py f.value) :
    (factElement py f).Legal ∧ (factElement py f).reading py = f.reading ↔ Transcribed py f := by
  have hpath := lineEnds_take_iff (s := f.path) (n := 1024)
  have hsnippet := lineEnds_take_iff (s := f.sourceSnippet.getD []) (n := 2000)
  have hcr : '\r' ∉ (jsonValue py false f.value).take 5000 := fun hmem =>
    cr_not_mem_jsonValue h (List.mem_of_mem_take hmem)
  constructor
  · rintro ⟨⟨hkey, hvalue, hpathChars, hsnippetChars⟩, hread⟩
    rw [FactElement.reading, LoadedFact.reading, FactReading.mk.injEq] at hread
    obtain ⟨-, hloads, -, hpathRead, hsnippetRead⟩ := hread
    obtain ⟨hp, hpc, hpr⟩ := hpath.mp ⟨hpathChars, hpathRead⟩
    obtain ⟨hs, hsc, hsr⟩ := hsnippet.mp ⟨hsnippetChars, hsnippetRead⟩
    have hsome : f.value ≠ .null := by
      intro hnull
      rw [factElement, if_pos hnull] at hloads
      cases hloads
    rw [factElement, if_neg hsome, Xml.lineEnds_eq_self.mpr hcr, loads_take h hsome] at hloads
    rw [factElement, if_neg hsome, List.take_of_length_le hloads] at hvalue
    exact ⟨hkey, hsome, hloads, hvalue, hp, hpc, hpr, hs, hsc, hsr⟩
  · rintro ⟨hkey, hsome, hlength, hvalue, hp, hpc, hpr, hs, hsc, hsr⟩
    obtain ⟨hpathChars, hpathRead⟩ := hpath.mpr ⟨hp, hpc, hpr⟩
    obtain ⟨hsnippetChars, hsnippetRead⟩ := hsnippet.mpr ⟨hs, hsc, hsr⟩
    have hloads := (loads_take h hsome).mpr hlength
    refine ⟨⟨hkey, ?_, hpathChars, hsnippetChars⟩, ?_⟩
    · rwa [factElement, if_neg hsome, List.take_of_length_le hlength]
    · rw [FactElement.reading, LoadedFact.reading, FactReading.mk.injEq]
      refine ⟨rfl, ?_, rfl, hpathRead, hsnippetRead⟩
      rw [factElement, if_neg hsome, Xml.lineEnds_eq_self.mpr hcr, hloads]

/-- A memo is well formed and gives back its facts exactly when the borrower's
identifier has allowed characters only and each fact can be transcribed. -/
theorem roundTrips_iff (py : Python) (application : Application) {generatedAt : Text}
    (hstamp : generatedAt.all Xml.isChar = true) {facts : List LoadedFact} (hcount : facts.length ≤ 50)
    (hadmitted : ∀ f ∈ facts, Admitted py f.value) :
    RoundTrips py application facts generatedAt ↔
      application.externalBorrowerId.all Xml.isChar = true ∧ ∀ f ∈ facts, Transcribed py f := by
  rw [RoundTrips, buildCreditMemoXml, List.take_of_length_le hcount, readMemo_memoXml py application hstamp,
    List.map_map, and_assoc]
  refine and_congr_right fun _ => ?_
  rw [List.forall_mem_map, List.map_inj_left, ← forall₂_and]
  refine forall₂_congr fun f hf => ?_
  exact transcribed_iff (hadmitted f hf)

/-- A fact from a scanned page, quoted across the page break. -/
def scannedFact : LoadedFact where
  applicationId := .ofNat 1
  key := "address".toList
  value := .str "1 Main St".toList
  confidenceScore := some (9 / 10)
  documentId := some (.ofNat 2)
  sourceSnippet := some "1 Main St\x0cPage 2".toList
  document := some ⟨.ofNat 2, .ofNat 1, "application/pdf".toList, none, some "1/2.pdf".toList, none⟩

def readyApplication : Application := ⟨.ofNat 1, "borrower".toList, .readyForLos, 0⟩

theorem scannedFact_lost :
    ¬ RoundTrips asciiPython readyApplication [scannedFact] "2025-01-01T00:00:00+00:00".toList := by
  have hparse : Xml.parse (buildCreditMemoXml asciiPython readyApplication [scannedFact]
      "2025-01-01T00:00:00+00:00".toList) = none := by decide +kernel
  intro h
  rw [RoundTrips, readMemo, hparse] at h
  cases h

theorem roundTrips_iff_scannedFact :
    RoundTrips asciiPython readyApplication [scannedFact] "2025-01-01T00:00:00+00:00".toList ↔
      readyApplication.externalBorrowerId.all Xml.isChar = true ∧
        ∀ f ∈ [scannedFact], Transcribed asciiPython f :=
  roundTrips_iff asciiPython readyApplication (by decide) (by decide) (by
    intro f hf
    rw [List.mem_singleton.mp hf]
    exact ⟨(fun n h => by cases h), fun q h => by cases h⟩)

end LoanAgent
