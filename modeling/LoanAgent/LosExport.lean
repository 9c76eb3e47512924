import LoanAgent.Chase
import LoanAgent.Json
import LoanAgent.Library.Paging

/-! The export. Behind the status gate the facts are read a second time, at most
fifty of them go into the credit memo, and the memo is delivered and noted in
the audit log. The facts come without their documents, and touching the missing
document of a fact that has one raises, so a memo is only built of facts that
were stated in chat. Proved: what a memo shows of each fact. -/

namespace LoanAgent

open Paging

/-- A `Fact` element: the encoded value is absent when the value is null. -/
structure MemoFact where
  key : Text
  confidence : Option ℚ
  value : Option Text
  snippet : Text
  deriving DecidableEq

structure CreditMemo where
  applicationId : Uuid
  status : ApplicationStatus
  generatedAt : Text
  borrower : Text
  facts : List MemoFact
  deriving DecidableEq

def memoFact (py : Python) (f : FactContent) : MemoFact where
  key := f.key
  confidence := f.confidenceScore
  value := if f.value = .null then none else some ((jsonValue py false f.value).take 5000)
  snippet := (f.sourceSnippet.getD []).take 2000

/-- `ORDER BY key, created_at`. -/
def ExtractedFact.sortKey (f : ExtractedFact) : Text ×ₗ Time := toLex (f.key, f.createdAt)

/-- One of the orders in which the query may return the facts: rows that tie stay in the
order of the table. -/
def orderFacts (facts : List ExtractedFact) : List ExtractedFact :=
  facts.insertionSort fun f g => f.key < g.key ∨ f.key = g.key ∧ f.createdAt ≤ g.createdAt

/-- The facts that fit in a memo, of those that the query has returned. -/
def memoFacts (ordered : List ExtractedFact) : List FactContent :=
  (ordered.take 50).map (·.toFactContent)

def cappedFacts (db : Database) (applicationId : Uuid) : List FactContent :=
  memoFacts (orderFacts (db.factsOf applicationId))

/-- `build_credit_memo_xml` up to the rendering; `none` when it raises. -/
def buildCreditMemo (py : Python) (application : Application) (facts : List FactContent)
    (generatedAt : Text) : Option CreditMemo :=
  if facts.any fun f => f.documentId.isSome then none
  else some ⟨application.id, application.status, generatedAt, application.externalBorrowerId,
    facts.map (memoFact py)⟩

/-! ### The order of the facts -/

theorem sortKey_eq_iff {f g : ExtractedFact} :
    f.sortKey = g.sortKey ↔ f.key = g.key ∧ f.createdAt = g.createdAt := by
  rw [ExtractedFact.sortKey, ExtractedFact.sortKey, toLex_inj, Prod.mk.injEq]

theorem sortKey_le_iff {f g : ExtractedFact} :
    f.sortKey ≤ g.sortKey ↔ f.key < g.key ∨ f.key = g.key ∧ f.createdAt ≤ g.createdAt := by
  rw [ExtractedFact.sortKey, ExtractedFact.sortKey, Prod.Lex.toLex_le_toLex]

instance (facts ordered : List ExtractedFact) :
    Decidable (Arrangement ExtractedFact.sortKey facts ordered) :=
  decidable_of_iff (ordered.Perm facts ∧
      ordered.Pairwise fun f g => f.key < g.key ∨ f.key = g.key ∧ f.createdAt ≤ g.createdAt)
    ⟨fun h => ⟨h.1, h.2.imp fun h => sortKey_le_iff.mpr h⟩, fun h => ⟨h.perm, h.sorted.imp sortKey_le_iff.mp⟩⟩

theorem arrangement_orderFacts (facts : List ExtractedFact) :
    Arrangement ExtractedFact.sortKey facts (orderFacts facts) := by
  have : Std.Total fun f g : ExtractedFact => f.key < g.key ∨ f.key = g.key ∧ f.createdAt ≤ g.createdAt :=
    ⟨fun f g => by
      rw [← sortKey_le_iff, ← sortKey_le_iff]
      exact le_total _ _⟩
  have : IsTrans ExtractedFact fun f g => f.key < g.key ∨ f.key = g.key ∧ f.createdAt ≤ g.createdAt :=
    ⟨fun f g k => by
      rw [← sortKey_le_iff, ← sortKey_le_iff, ← sortKey_le_iff]
      exact le_trans⟩
  exact ⟨List.perm_insertionSort _ facts, (List.pairwise_insertionSort _ facts).imp sortKey_le_iff.mpr⟩

/-! ### The text -/

def escapeXml (quoted : Bool) (s : Text) : Text :=
  s.flatMap fun c =>
    if c = '&' then "&amp;".toList
    else if c = '<' then "&lt;".toList
    else if c = '>' then "&gt;".toList
    else if quoted ∧ c = '"' then "&quot;".toList
    else if quoted ∧ c = '\r' then "&#13;".toList
    else if quoted ∧ c = '\n' then "&#10;".toList
    else if quoted ∧ c = '\t' then "&#09;".toList
    else [c]

def xmlAttribute (name : String) (value : Text) : Text :=
  ' ' :: (name.toList ++ "=\"".toList ++ escapeXml true value ++ ['"'])

/-- An element that holds a text. -/
def xmlLeaf (name : String) (s : Text) : Text :=
  if s = [] then '<' :: (name.toList ++ " />".toList)
  else '<' :: (name.toList ++ '>' :: (escapeXml false s ++ "</".toList ++ name.toList ++ ['>']))

/-- `f"{q:.4f}"` of a number between 0 and 1 with four decimals. -/
def fixed4 (q : ℚ) : Text :=
  let n := ⌊q * 10000⌋.toNat
  let decimals := Nat.toDigits 10 (n % 10000)
  Nat.toDigits 10 (n / 10000) ++ '.' :: (List.replicate (4 - decimals.length) '0' ++ decimals)

def MemoFact.xml (f : MemoFact) : Text :=
  let start := "    <Fact".toList ++ xmlAttribute "key" f.key ++
    (f.confidence.elim [] fun q => xmlAttribute "confidence" (fixed4 q)) ++ ">\n".toList
  start ++ "      ".toList ++ xmlLeaf "Value" (f.value.getD []) ++
    "\n      <Source>\n        <Document>\n          <S3Path />\n        </Document>\n        ".toList ++
    xmlLeaf "Snippet" f.snippet ++ "\n      </Source>\n    </Fact>\n".toList

def CreditMemo.xml (memo : CreditMemo) : Text :=
  "<?xml version=\"1.0\" encoding=\"UTF-8\"?>\n<CreditMemo".toList ++
    xmlAttribute "applicationId" memo.applicationId.str ++
    xmlAttribute "status" memo.status.value ++ xmlAttribute "generatedAt" memo.generatedAt ++
    ">\n  <Borrower".toList ++ xmlAttribute "externalId" memo.borrower ++ " />\n  ".toList ++
    (if memo.facts = [] then "<ExtractedFacts />\n".toList
      else "<ExtractedFacts>\n".toList ++ memo.facts.flatMap MemoFact.xml ++
        "  </ExtractedFacts>\n".toList) ++
    "</CreditMemo>".toList

/-- `record_audit` of the export. -/
def losExportAudit (py : Python) (settings : Settings) (memo : CreditMemo) (now : Time) : AuditLog where
  applicationId := memo.applicationId
  action := .losExport
  llmResponse := some (
    if settings.logSecretsRedaction then (redactPii py (memo.xml.take 4000)).text
    else memo.xml.take 4000)
  createdAt := now

/-- Each required key has an element whose value is not null. -/
def CreditMemo.complete (memo : CreditMemo) : Prop :=
  ∀ k ∈ requiredFactKeys, ∃ f ∈ memo.facts, f.key = k ∧ f.value ≠ none

instance (memo : CreditMemo) : Decidable memo.complete :=
  inferInstanceAs (Decidable (∀ k ∈ requiredFactKeys, ∃ f ∈ memo.facts, f.key = k ∧ f.value ≠ none))

/-- A memo is complete exactly when the facts it is built of are. -/
theorem complete_buildCreditMemo {py : Python} {application : Application} {facts : List FactContent}
    {stamp : Text} {memo : CreditMemo} (h : buildCreditMemo py application facts stamp = some memo) :
    memo.complete ↔ Complete facts := by
  unfold buildCreditMemo at h
  split_ifs at h
  cases h
  refine forall₂_congr fun k _ => ?_
  simp only [hasValue, List.any_eq_true, decide_eq_true_eq, List.mem_map]
  constructor
  · rintro ⟨_, ⟨f, hf, rfl⟩, hk, hv⟩
    refine ⟨f, hf, hk, fun hnull => hv ?_⟩
    simp [memoFact, hnull]
  · rintro ⟨f, hf, hk, hv⟩
    exact ⟨_, ⟨f, hf, rfl⟩, hk, by simp [memoFact, hv]⟩

theorem buildCreditMemo_applicationId {py : Python} {application : Application}
    {facts : List FactContent} {stamp : Text} {memo : CreditMemo}
    (h : buildCreditMemo py application facts stamp = some memo) :
    memo.applicationId = application.id := by
  unfold buildCreditMemo at h
  split_ifs at h
  cases h
  rfl

theorem hasPii_losExportAudit (py : Python) {settings : Settings}
    (hs : settings.logSecretsRedaction = true) (memo : CreditMemo) (now : Time) {s : Text}
    (h : (losExportAudit py settings memo now).llmResponse = some s) : hasPii py s = false := by
  simp only [losExportAudit, hs, if_true, Option.some.injEq] at h
  exact h ▸ hasPii_redactPii py _

end LoanAgent
