import LoanAgent.LosExport
import LoanAgent.Reconcile

/-! The audit trail of an application as the API reports it: the status, a page
of the facts with their documents, and every anomaly that the audit log holds,
decoded from its text. Proved: what a report consists of, and that the anomalies
are reported exactly when the text of each decodes. -/

namespace LoanAgent

structure FactProvenance where
  key : Text
  value : FactValue
  confidenceScore : Option ℚ
  sourceSnippet : Option Text
  documentId : Option Uuid
  documentS3Path : Option Text
  documentFileType : Option Text
  deriving DecidableEq

/-- An anomaly besides the time it was detected. -/
structure AnomalyContent where
  key : Text
  statedValue : Json
  documentValue : Json
  documentId : Option Uuid
  variancePct : Option PyFloat

structure AnomalyItem extends AnomalyContent where
  detectedAt : Time

structure AuditTrailResponse where
  applicationId : Uuid
  externalBorrowerId : Text
  status : Text
  facts : List FactProvenance
  anomalies : List AnomalyItem

inductive ReportError
  | limit
  | offset
  | notFound
  | anomaly
  deriving DecidableEq

/-- Thirty-two hexadecimal digits, of either case. -/
def Uuid.ofHex (s : Text) : Option Uuid :=
  match s.mapM fun c => hexValue c.toLower with
  | some ds => if h : ds.length = 32 then some ⟨ds, h⟩ else none
  | none => none

/-- Hexadecimal digits in the five groups of `str(uuid)`. -/
def Uuid.ofGroups (s : Text) : Option Uuid :=
  if s.length = 36 ∧ s[8]? = some '-' ∧ s[13]? = some '-' ∧ s[18]? = some '-' ∧ s[23]? = some '-' then
    ofHex (s.take 8 ++ ((s.drop 9).take 4 ++ ((s.drop 14).take 4 ++ ((s.drop 19).take 4 ++ s.drop 24))))
  else none

/-- The texts that pydantic takes for a UUID: the digits alone, or in groups, which
may stand in braces or behind `urn:uuid:`. -/
def Uuid.parse (s : Text) : Option Uuid :=
  if s.length = 32 then ofHex s
  else if s.length = 38 ∧ s.head? = some (Char.ofNat 123) ∧ s.getLast? = some (Char.ofNat 125) then
    ofGroups ((s.drop 1).take 36)
  else if s.length = 45 ∧ startsWith s "urn:uuid:".toList then ofGroups (s.drop 9)
  else ofGroups s

theorem Uuid.ofHex_digits (u : Uuid) : ofHex (u.digits.map hexChar) = some u := by
  have hdigit : ∀ d : Fin 16, hexValue (hexChar d).toLower = some d := by decide
  have hm : ∀ l : List (Fin 16), ((l.map hexChar).mapM fun c => hexValue c.toLower) = some l := by
    intro l
    induction l with
    | nil => rfl
    | cons d l ih => simp [hdigit, ih]
  simp only [ofHex, hm]
  rw [dif_pos u.length_eq]

theorem Uuid.ofGroups_groups {a b c d e : Text} (ha : a.length = 8) (hb : b.length = 4) (hc : c.length = 4)
    (hd : d.length = 4) (he : e.length = 12) :
    ofGroups (a ++ '-' :: (b ++ '-' :: (c ++ '-' :: (d ++ '-' :: e)))) = ofHex (a ++ (b ++ (c ++ (d ++ e)))) := by
  have htake : ∀ {n : ℕ} {x y : Text}, x.length = n → (x ++ y).take n = x := by
    rintro _ x y rfl
    exact List.take_left
  have hdrop : ∀ {n : ℕ} {x y : Text}, x.length = n → (x ++ '-' :: y).drop (n + 1) = y := by
    rintro _ x y rfl
    rw [List.drop_length_add_append]
    rfl
  have h9 := hdrop (y := b ++ '-' :: (c ++ '-' :: (d ++ '-' :: e))) ha
  have h14 := (congrArg (List.drop 5) h9).trans (hdrop (y := c ++ '-' :: (d ++ '-' :: e)) hb)
  have h19 := (congrArg (List.drop 5) h14).trans (hdrop (y := d ++ '-' :: e) hc)
  have h24 := (congrArg (List.drop 5) h19).trans (hdrop (y := e) hd)
  simp only [List.drop_drop, Nat.reduceAdd] at h14 h19 h24
  have hat : ∀ {n : ℕ} {x y : Text}, x.length = n → (x ++ '-' :: y)[n]? = some '-' := by
    rintro _ x y rfl
    simp
  have h13 := hat (y := c ++ '-' :: (d ++ '-' :: e)) hb
  have h18 := hat (y := d ++ '-' :: e) hc
  have h23 := hat (y := e) hd
  rw [← h9, List.getElem?_drop] at h13
  rw [← h14, List.getElem?_drop] at h18
  rw [← h19, List.getElem?_drop] at h23
  rw [ofGroups, if_pos, htake ha, h9, htake hb, h14, htake hc, h19, htake hd, h24]
  refine ⟨?_, hat ha, h13, h18, h23⟩
  simp only [List.length_append, List.length_cons, ha, hb, hc, hd, he]

/-- The text of an identifier is read back. -/
theorem Uuid.parse_str (u : Uuid) : parse u.str = some u := by
  have hstr := str_length u
  rw [parse, if_neg (by omega), if_neg (by omega), if_neg (by omega), ← ofHex_digits u]
  unfold str
  generalize hh : u.digits.map hexChar = h
  have hlen : h.length = 32 := by
    rw [← hh, List.length_map, u.length_eq]
  have hgroup : ∀ n, n + 4 ≤ 32 → ((h.drop n).take 4).length = 4 := fun n hn => by
    rw [List.length_take, List.length_drop]
    omega
  have h12 := List.take_append_drop 4 (h.drop 8)
  have h16 := List.take_append_drop 4 (h.drop 12)
  have h20 := List.take_append_drop 4 (h.drop 16)
  simp only [List.drop_drop, Nat.reduceAdd] at h12 h16 h20
  refine (ofGroups_groups (by rw [List.length_take]; omega) (hgroup 8 (by decide)) (hgroup 12 (by decide))
    (hgroup 16 (by decide)) (by rw [List.length_drop]; omega)).trans ?_
  rw [h20, h16, h12, List.take_append_drop]

example : Uuid.parse "urn:uuid:00000000-0000-0000-0000-00000000000A".toList = some (.ofNat 10) ∧
    Uuid.parse "0000-0000-0000-0000-0000-0000-0000-0000".toList = none := by decide

section Decode
variable (py : Python)

/-- `payload.get(key)`. -/
def member (members : List (Text × Json)) (key : String) : Json :=
  (members.lookup key.toList).getD .null

/-- A field of type `uuid.UUID | None`. -/
def uuidField : Json → Option (Option Uuid)
  | .null => some none
  | .str s => (Uuid.parse s).map some
  | _ => none

/-- A field of type `float | None`. -/
def floatField : Json → Option (Option PyFloat)
  | .null => some none
  | .bool b => some (some (.finite (if b then 1 else 0)))
  | .number (.float x) => some (some x)
  | .number (.int n) => (py.floatOfInt n).map some
  | .str s => (py.floatOfText s).map some
  | _ => none

/-- A field of type `str` with a default. -/
def stringField (default : Text) : Option Json → Option Text
  | none => some default
  | some (.str s) => some s
  | some _ => none

/-- What `get_audit_trail` makes of the text of an anomaly; a payload that is not
an object has no `get`, and a field of another type fails the validation. -/
def anomalyContent (response : Option Text) : Option AnomalyContent :=
  let payload := match response.filter (· ≠ []) with
    | none => some (Json.obj [])
    | some text => (loads py text).or (some (.obj [("raw".toList, .str text)]))
  match payload with
  | some (.obj members) => do
    let key ← stringField [] (members.lookup "key".toList)
    let documentId ← uuidField (member members "document_id")
    let variancePct ← floatField py (member members "variance_pct")
    pure ⟨key, member members "stated_value", member members "document_value", documentId, variancePct⟩
  | _ => none

def anomalyItems : List AuditLog → Except ReportError (List AnomalyItem)
  | [] => .ok []
  | row :: rest => match anomalyContent py row.llmResponse with
    | none => .error .anomaly
    | some content => (anomalyItems rest).map (⟨content, row.createdAt⟩ :: ·)

/-- The anomaly rows of an application by time. -/
def Database.anomalyRows (db : Database) (applicationId : Uuid) : List AuditLog :=
  (db.auditLogs.filter fun row => row.applicationId = applicationId ∧ row.action = .reconcileAnomaly).insertionSort
    fun r s => r.createdAt ≤ s.createdAt

def provenance (db : Database) (f : FactContent) : FactProvenance :=
  let document := f.documentId.bind fun id => db.documents.find? (·.id = id)
  ⟨f.key, f.value, f.confidenceScore, f.sourceSnippet, f.documentId, document.bind (·.s3Path),
    document.map (·.fileType)⟩

def getAuditTrail (db : Database) (applicationId : Uuid) (limit offset : ℤ) :
    Except ReportError AuditTrailResponse :=
  if limit < 1 ∨ 500 < limit then .error .limit
  else if offset < 0 then .error .offset
  else match db.application applicationId with
    | none => .error .notFound
    | some application => match anomalyItems py (db.anomalyRows applicationId) with
      | .error e => .error e
      | .ok anomalies => .ok {
          applicationId := application.id
          externalBorrowerId := application.externalBorrowerId
          status := application.status.value
          facts := (((orderFacts (db.factsOf applicationId)).drop offset.toNat).take limit.toNat).map
            fun f => provenance db f.toFactContent
          anomalies := anomalies }

end Decode

/-- Two reports agree up to the order of their items and the times of detection. -/
structure AuditTrailResponse.Same (r s : AuditTrailResponse) : Prop where
  applicationId : r.applicationId = s.applicationId
  externalBorrowerId : r.externalBorrowerId = s.externalBorrowerId
  status : r.status = s.status
  facts : r.facts.Perm s.facts
  anomalies : (r.anomalies.map (·.toAnomalyContent)).Perm (s.anomalies.map (·.toAnomalyContent))

/-- The content under which an anomaly is to be reported. -/
def Anomaly.content (a : Anomaly) : AnomalyContent where
  key := a.key
  statedValue := match a.statedValue with
    | .null => .null
    | .str s => .str s
    | v => .number v
  documentValue := match a.documentValue with
    | .null => .null
    | .str s => .str s
    | v => .number v
  documentId := some a.documentId
  variancePct := a.variancePct

variable {py : Python}

/-- The page of the facts in a report. -/
def factsPage (db : Database) (a : Uuid) (limit offset : ℤ) : List FactProvenance :=
  (((orderFacts (db.factsOf a)).drop offset.toNat).take limit.toNat).map
    fun f => provenance db f.toFactContent

theorem getAuditTrail_ok {db : Database} {a : Uuid} {limit offset : ℤ} {r : AuditTrailResponse}
    (hlimit : 1 ≤ limit ∧ limit ≤ 500) (hoffset : 0 ≤ offset) :
    getAuditTrail py db a limit offset = .ok r ↔
      r.applicationId = a ∧ db.borrowerOf a = some r.externalBorrowerId ∧
      (db.statusOf a).map ApplicationStatus.value = some r.status ∧ r.facts = factsPage db a limit offset ∧
      anomalyItems py (db.anomalyRows a) = .ok r.anomalies := by
  unfold getAuditTrail
  rw [if_neg (by omega), if_neg (by omega)]
  cases hx : db.application a with
  | none => simp [Database.borrowerOf, hx]
  | some x =>
    have hid := Database.application_id hx
    cases hi : anomalyItems py (db.anomalyRows a) with
    | error e => simp
    | ok items =>
      obtain ⟨ra, rb, rs, rf, ri⟩ := r
      simp only [Except.ok.injEq, AuditTrailResponse.mk.injEq, Database.borrowerOf, Database.statusOf, hx,
        hid, Option.map_some, Option.some.injEq, factsPage]
      constructor
      · rintro ⟨rfl, rfl, rfl, rfl, rfl⟩
        exact ⟨rfl, rfl, rfl, rfl, rfl⟩
      · rintro ⟨rfl, rfl, rfl, rfl, rfl⟩
        exact ⟨rfl, rfl, rfl, rfl, rfl⟩

/-- The anomalies are reported exactly when each of them decodes. -/
theorem anomalyItems_isOk {rows : List AuditLog} :
    (∃ items, anomalyItems py rows = .ok items) ↔
      ∀ row ∈ rows, (anomalyContent py row.llmResponse).isSome = true := by
  induction rows with
  | nil => simp [anomalyItems]
  | cons row rest ih =>
    rw [anomalyItems, List.forall_mem_cons]
    cases hrow : anomalyContent py row.llmResponse with
    | none => simp
    | some content =>
      rw [← ih]
      constructor
      · rintro ⟨items, h⟩
        cases hrest : anomalyItems py rest with
        | error e =>
          rw [hrest] at h
          cases h
        | ok others => exact ⟨rfl, others, rfl⟩
      · rintro ⟨-, others, h⟩
        exact ⟨⟨content, row.createdAt⟩ :: others, by rw [h]; rfl⟩

theorem length_anomalyItems {rows : List AuditLog} {items : List AnomalyItem}
    (h : anomalyItems py rows = .ok items) : items.length = rows.length := by
  induction rows generalizing items with
  | nil => cases h; rfl
  | cons row rest ih =>
    simp only [anomalyItems] at h
    split at h
    · cases h
    · cases hr : anomalyItems py rest with
      | error e => rw [hr] at h; cases h
      | ok others =>
        rw [hr] at h
        cases h
        simp [ih hr]

end LoanAgent
