import LoanAgent.AuditTrail
import LoanAgent.MemoXml
import LoanAgent.System

/-! The export next to the audit trail. Both read the facts of an application in
the same order. The audit trail loads their documents along with them; the
export does not, and the session of its request holds no document, so that the
attribute of a fact that has one raises as soon as the memo comes to it. Proved:
the export returns the memo that a process of the service delivers, and its
elements are the facts of the audit trail exactly when no fact has a document,
no snippet is cut and the audit trail answers. -/

namespace LoanAgent

inductive ExportError
  | notFound
  | invalidState
  | missingGreenlet
  deriving DecidableEq

/-- What `export_to_los` returns once the memo is delivered. -/
structure ExportedMemo where
  applicationId : Uuid
  facts : List FactElement
  xml : Text

/-- `fact.document` of a fact that was selected without its document; `none`
when it raises. -/
def lazyDocument (f : FactContent) : Option LoadedFact :=
  if f.documentId.isSome then none else some ⟨f, none⟩

/-- `export_to_los`, with an archive and a delivery that succeed, given the facts
in the order in which its query returns them. -/
def exportToLosOf (py : Python) (db : Database) (ordered : List ExtractedFact) (a : Uuid) (generatedAt : Text) :
    Except ExportError ExportedMemo :=
  match db.application a with
  | none => .error .notFound
  | some application =>
    if application.status = .readyForLos then
      match (memoFacts ordered).mapM lazyDocument with
      | none => .error .missingGreenlet
      | some facts => .ok ⟨application.id, facts.map (factElement py),
          buildCreditMemoXml py application facts generatedAt⟩
    else .error .invalidState

def exportToLos (py : Python) (db : Database) (a : Uuid) (generatedAt : Text) :
    Except ExportError ExportedMemo :=
  exportToLosOf py db (orderFacts (db.factsOf a)) a generatedAt

variable {py : Python}

theorem mapM_lazyDocument {facts : List FactContent} {loaded : List LoadedFact} :
    facts.mapM lazyDocument = some loaded ↔
      (∀ f ∈ facts, f.documentId = none) ∧ loaded = facts.map fun f => ⟨f, none⟩ := by
  induction facts generalizing loaded with
  | nil => simp [eq_comm]
  | cons f facts ih =>
    rw [List.mapM_cons, List.forall_mem_cons, List.map_cons]
    cases hd : f.documentId with
    | some id => simp [lazyDocument, hd]
    | none =>
      simp only [lazyDocument, hd, Option.isSome_none, Bool.false_eq_true, if_false, Option.bind_eq_bind,
        Option.bind_some, Option.bind_eq_some_iff, ih, true_and]
      constructor
      · rintro ⟨rest, ⟨hrest, rfl⟩, hloaded⟩
        exact ⟨hrest, (Option.some.inj hloaded).symm⟩
      · rintro ⟨hrest, rfl⟩
        exact ⟨_, ⟨hrest, rfl⟩, rfl⟩

theorem buildCreditMemo_isSome {application : Application} {facts : List FactContent} {stamp : Text} :
    (buildCreditMemo py application facts stamp).isSome = true ↔ ∀ f ∈ facts, f.documentId = none := by
  unfold buildCreditMemo
  split_ifs with h
  · simp only [List.any_eq_true] at h
    obtain ⟨f, hf, hd⟩ := h
    refine iff_of_false nofun fun hall => ?_
    rw [hall f hf] at hd
    cases hd
  · simpa using h

/-- A process that passes the gate and selects the facts delivers this memo. -/
theorem exportStep_exportToLos {settings : Settings} {s s' : Store} {application : Application}
    {query : List ExtractedFact → List ExtractedFact} {stamp : Text}
    {memo : CreditMemo} (happlication : s.db.application application.id = some application)
    (hready : application.status = .readyForLos)
    (h : exportStep settings s (.facts application) (.selectMemo query stamp) =
      some (s', (.exporting (.deliver memo) : Proc py))) :
    exportToLosOf py s.db (query (s.db.factsOf application.id)) application.id stamp =
      .ok ⟨memo.applicationId, memo.facts.map (·.element), memo.xml⟩ := by
  simp only [exportStep] at h
  split_ifs at h
  generalize query (s.db.factsOf application.id) = ordered at h ⊢
  cases hmemo : buildCreditMemo py application (memoFacts ordered) stamp with
  | none =>
    rw [hmemo] at h
    cases h
  | some memo' =>
    rw [hmemo] at h
    cases h
    have hnone := buildCreditMemo_isSome.mp (Option.isSome_of_mem hmemo)
    have hcount : (memoFacts ordered).length ≤ 50 := by
      rw [memoFacts, List.length_map]
      exact List.length_take_le 50 _
    have hload := mapM_lazyDocument.mpr ⟨hnone, rfl⟩
    have hxml := xml_eq_buildCreditMemoXml hmemo hcount
    have hid := buildCreditMemo_applicationId hmemo
    have hfacts : memo.facts = (memoFacts ordered).map (memoFact py) := by
      unfold buildCreditMemo at hmemo
      split_ifs at hmemo
      cases hmemo
      rfl
    unfold exportToLosOf
    rw [happlication]
    dsimp only
    rw [if_pos hready, hload]
    dsimp only
    rw [hxml, hid, hfacts, List.map_map, List.map_map]
    congr 2
    exact List.map_congr_left fun f hf => factElement_memoFact py (hnone f hf)

/-! ### Agreement -/

/-- An element of the memo and an item of the audit trail tell the same; a null
is an empty value, and what is absent an empty text. -/
structure Agrees (py : Python) (e : FactElement) (p : FactProvenance) : Prop where
  key : e.key = p.key
  value : e.value = if p.value = .null then [] else jsonValue py false p.value
  snippet : e.snippet = p.sourceSnippet.getD []
  documentId : e.documentId = p.documentId
  path : e.path = p.documentS3Path.getD []

/-- The export succeeds, and the audit trail lists the facts of its memo. -/
def ExportAgrees (py : Python) (db : Database) (a : Uuid) (generatedAt : Text) : Prop :=
  ∃ memo report, exportToLos py db a generatedAt = .ok memo ∧
    getAuditTrail py db a 100 0 = .ok report ∧ List.Forall₂ (Agrees py) memo.facts report.facts

theorem agrees_iff {db : Database} {f : FactContent} (hdocument : f.documentId = none)
    (hvalue : (jsonValue py false f.value).length ≤ 5000) :
    Agrees py (factElement py ⟨f, none⟩) (provenance db f) ↔ (f.sourceSnippet.getD []).length ≤ 2000 := by
  have htake : (jsonValue py false f.value).take 5000 = jsonValue py false f.value :=
    List.take_of_length_le hvalue
  constructor
  · intro h
    exact List.take_eq_self_iff _ |>.mp h.snippet
  · intro hsnippet
    refine ⟨rfl, ?_, List.take_of_length_le hsnippet, rfl, ?_⟩
    · rw [factElement, htake]
      rfl
    · simp [factElement, provenance, LoadedFact.path, hdocument]

/-- With at most fifty facts neither reader leaves one out. -/
theorem cappedFacts_page {db : Database} {a : Uuid} (hcount : (db.factsOf a).length ≤ 50) :
    cappedFacts db a = (orderFacts (db.factsOf a)).map (·.toFactContent) ∧
      factsPage db a 100 0 = (cappedFacts db a).map (provenance db) := by
  have hlen : (orderFacts (db.factsOf a)).length ≤ 50 := by
    rw [orderFacts, List.length_insertionSort]
    exact hcount
  have hcap : cappedFacts db a = (orderFacts (db.factsOf a)).map (·.toFactContent) := by
    rw [cappedFacts, memoFacts, List.take_of_length_le hlen]
  have hpage : (orderFacts (db.factsOf a)).take (100 : ℤ).toNat = orderFacts (db.factsOf a) :=
    List.take_of_length_le (hlen.trans (by decide))
  refine ⟨hcap, ?_⟩
  rw [hcap, factsPage, Int.toNat_zero, List.drop_zero, hpage, List.map_map]
  rfl

theorem exportToLos_ok {db : Database} {a : Uuid} {application : Application} {stamp : Text}
    {memo : ExportedMemo} (happlication : db.application a = some application)
    (hready : application.status = .readyForLos) :
    exportToLos py db a stamp = .ok memo ↔ (∀ f ∈ cappedFacts db a, f.documentId = none) ∧
      memo = ⟨application.id, (cappedFacts db a).map fun f => factElement py ⟨f, none⟩,
        buildCreditMemoXml py application ((cappedFacts db a).map fun f => ⟨f, none⟩) stamp⟩ := by
  unfold exportToLos exportToLosOf
  rw [← cappedFacts, happlication]
  dsimp only
  rw [if_pos hready]
  cases hload : (cappedFacts db a).mapM lazyDocument with
  | none =>
    refine iff_of_false nofun fun h => ?_
    rw [mapM_lazyDocument.mpr ⟨h.1, rfl⟩] at hload
    cases hload
  | some loaded =>
    obtain ⟨hnone, rfl⟩ := mapM_lazyDocument.mp hload
    dsimp only
    rw [Except.ok.injEq, List.map_map]
    exact ⟨fun h => ⟨hnone, h.symm⟩, fun h => h.2.symm⟩

/-- Export and audit trail agree exactly on an application without facts of a
document, whose snippets fit in the memo and whose anomalies decode. -/
theorem exportAgrees_iff (py : Python) (db : Database) {a : Uuid} {application : Application} (stamp : Text)
    (happlication : db.application a = some application) (hready : application.status = .readyForLos)
    (hcount : (db.factsOf a).length ≤ 50)
    (hvalues : ∀ f ∈ db.factsOf a, (jsonValue py false f.value).length ≤ 5000) :
    ExportAgrees py db a stamp ↔
      (∀ f ∈ db.factsOf a, f.documentId = none ∧ (f.sourceSnippet.getD []).length ≤ 2000) ∧
        ∀ row ∈ db.anomalyRows a, (anomalyContent py row.llmResponse).isSome = true := by
  obtain ⟨hcap, hpage⟩ := cappedFacts_page hcount
  have hmem : ∀ {P : FactContent → Prop},
      (∀ f ∈ cappedFacts db a, P f) ↔ ∀ f ∈ db.factsOf a, P f.toFactContent := by
    intro P
    simp only [hcap, List.forall_mem_map, orderFacts, List.mem_insertionSort]
  have hvalues' : ∀ f ∈ cappedFacts db a, (jsonValue py false f.value).length ≤ 5000 := hmem.mpr hvalues
  have hlisted (hnone : ∀ f ∈ cappedFacts db a, f.documentId = none) :
      List.Forall₂ (Agrees py) ((cappedFacts db a).map fun f => factElement py ⟨f, none⟩)
        (factsPage db a 100 0) ↔ ∀ f ∈ cappedFacts db a, (f.sourceSnippet.getD []).length ≤ 2000 := by
    rw [hpage, List.forall₂_map_left_iff, List.forall₂_map_right_iff, List.forall₂_same]
    exact forall₂_congr fun f hf => agrees_iff (hnone f hf) (hvalues' f hf)
  rw [← anomalyItems_isOk, forall₂_and, ← hmem (P := fun f => f.documentId = none),
    ← hmem (P := fun f => (f.sourceSnippet.getD []).length ≤ 2000)]
  constructor
  · rintro ⟨memo, report, hexport, hreport, hagree⟩
    obtain ⟨hnone, rfl⟩ := (exportToLos_ok happlication hready).mp hexport
    obtain ⟨-, -, -, hfacts, hitems⟩ := (getAuditTrail_ok (by decide) (by decide)).mp hreport
    rw [hfacts] at hagree
    exact ⟨⟨hnone, (hlisted hnone).mp hagree⟩, _, hitems⟩
  · rintro ⟨⟨hnone, hsnippets⟩, items, hitems⟩
    have hreport : getAuditTrail py db a 100 0 = .ok ⟨a, application.externalBorrowerId,
        application.status.value, factsPage db a 100 0, items⟩ :=
      (getAuditTrail_ok (by decide) (by decide)).mpr ⟨rfl, by rw [Database.borrowerOf, happlication]; rfl,
        by rw [Database.statusOf, happlication]; rfl, rfl, hitems⟩
    exact ⟨_, _, (exportToLos_ok happlication hready).mpr ⟨hnone, rfl⟩, hreport, (hlisted hnone).mpr hsnippets⟩

/-- A ready application with an income from the chat and an address from a PDF. -/
def mixedDatabase : Database where
  applications := [readyApplication]
  documents := [⟨.ofNat 2, .ofNat 1, "application/pdf".toList, some "1 Main St".toList,
    some "1/2.pdf".toList, none⟩]
  facts := [
    ⟨⟨.ofNat 1, "monthly_income".toList, .float (.finite 5000), some (9 / 10), none,
      some "I make 5000".toList⟩, .ofNat 3, 0⟩,
    ⟨⟨.ofNat 1, "address".toList, .str "1 Main St".toList, some (9 / 10), some (.ofNat 2),
      some "1 Main St".toList⟩, .ofNat 4, 0⟩]

theorem mixedDatabase_disagrees :
    exportToLos asciiPython mixedDatabase (.ofNat 1) "2025-01-01T00:00:00+00:00".toList =
        .error .missingGreenlet ∧
      (∃ report, getAuditTrail asciiPython mixedDatabase (.ofNat 1) 100 0 = .ok report) ∧
      ¬ ExportAgrees asciiPython mixedDatabase (.ofNat 1) "2025-01-01T00:00:00+00:00".toList := by
  have hraises : exportToLos asciiPython mixedDatabase (.ofNat 1) "2025-01-01T00:00:00+00:00".toList =
      .error .missingGreenlet := rfl
  refine ⟨hraises, ⟨_, rfl⟩, ?_⟩
  rintro ⟨memo, report, hexport, -⟩
  rw [hraises] at hexport
  cases hexport

theorem exportAgrees_iff_mixedDatabase :
    ExportAgrees asciiPython mixedDatabase (.ofNat 1) "2025-01-01T00:00:00+00:00".toList ↔
      (∀ f ∈ mixedDatabase.factsOf (.ofNat 1),
        f.documentId = none ∧ (f.sourceSnippet.getD []).length ≤ 2000) ∧
      ∀ row ∈ mixedDatabase.anomalyRows (.ofNat 1),
        (anomalyContent asciiPython row.llmResponse).isSome = true :=
  have happlication : mixedDatabase.application (.ofNat 1) = some readyApplication := rfl
  exportAgrees_iff asciiPython mixedDatabase _ happlication rfl (by decide) (by decide +kernel)

end LoanAgent
