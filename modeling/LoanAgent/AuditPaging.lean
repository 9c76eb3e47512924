import LoanAgent.Rerun

/-! Reading the audit trail page by page. Each request sorts the facts by key and
time of insertion, which all facts of one transaction share, and the database
may return rows that tie in another order each time. Proved: the pages of an
application report every fact once in whatever orders the queries return exactly
when each anomaly decodes and no boundary between two pages falls among facts of
one key and time that are reported differently. -/

namespace LoanAgent

open Paging

section Page
variable (py : Python) (db : Database) (applicationId : Uuid)

/-- `get_audit_trail`, given the facts in the order in which its query sorts them. -/
def auditTrailOf (ordered : List ExtractedFact) (limit offset : ℤ) : Except ReportError AuditTrailResponse :=
  if limit < 1 ∨ 500 < limit then .error .limit
  else if offset < 0 then .error .offset
  else match db.application applicationId with
    | none => .error .notFound
    | some application => match anomalyItems py (db.anomalyRows applicationId) with
      | .error e => .error e
      | .ok anomalies => .ok {
          applicationId := application.id
          externalBorrowerId := application.externalBorrowerId
          status := application.status.value
          facts := ((ordered.drop offset.toNat).take limit.toNat).map fun f => provenance db f.toFactContent
          anomalies := anomalies }

theorem getAuditTrail_eq (limit offset : ℤ) : getAuditTrail py db applicationId limit offset =
    auditTrailOf py db applicationId (orderFacts (db.factsOf applicationId)) limit offset := rfl

/-- How a fact is reported. -/
def reported (f : ExtractedFact) : FactProvenance := provenance db f.toFactContent

/-- Whatever orders the queries return, every request up to the first empty page
is answered, and the pages together report every fact once. -/
def PagesLossless (limit : ℕ) : Prop :=
  ∀ q : ℕ → List ExtractedFact,
    (∀ j, Arrangement ExtractedFact.sortKey (db.factsOf applicationId) (q j)) →
    ∃ r : ℕ → AuditTrailResponse,
      (∀ j, auditTrailOf py db applicationId (q j) limit (j * limit : ℕ) = .ok (r j)) ∧
        Lossless (fun j => (r j).facts) ((db.factsOf applicationId).map (reported db))

end Page

section Trail
variable {py : Python} {db : Database} {a : Uuid}

theorem auditTrailOf_isOk {x : Application} (hx : db.application a = some x) {limit : ℕ}
    (hlimit : 1 ≤ limit ∧ limit ≤ 500) {ordered : List ExtractedFact} {j : ℕ} {r : AuditTrailResponse}
    (h : auditTrailOf py db a ordered limit (j * limit : ℕ) = .ok r) :
    r.facts = (page limit j ordered).map (reported db) ∧
      ∃ items, anomalyItems py (db.anomalyRows a) = .ok items := by
  unfold auditTrailOf at h
  rw [if_neg (by omega), if_neg (by omega), hx] at h
  cases hi : anomalyItems py (db.anomalyRows a) with
  | error e =>
    rw [hi] at h
    cases h
  | ok items =>
    rw [hi] at h
    cases h
    exact ⟨rfl, items, rfl⟩

theorem auditTrailOf_ok {x : Application} (hx : db.application a = some x) {limit : ℕ}
    (hlimit : 1 ≤ limit ∧ limit ≤ 500) {items : List AnomalyItem}
    (hitems : anomalyItems py (db.anomalyRows a) = .ok items) (ordered : List ExtractedFact) (j : ℕ) :
    ∃ r, auditTrailOf py db a ordered limit (j * limit : ℕ) = .ok r := by
  unfold auditTrailOf
  rw [if_neg (by omega), if_neg (by omega), hx, hitems]
  exact ⟨_, rfl⟩

/-- What is known of the pages of an application whose requests are all answered. -/
theorem lossless_of_pagesLossless {x : Application} (hx : db.application a = some x) {limit : ℕ}
    (hlimit : 1 ≤ limit ∧ limit ≤ 500) (h : PagesLossless py db a limit) (q : ℕ → List ExtractedFact)
    (hq : ∀ j, Arrangement ExtractedFact.sortKey (db.factsOf a) (q j)) :
    Lossless (fun j => (page limit j (q j)).map (reported db)) ((db.factsOf a).map (reported db)) := by
  obtain ⟨r, hr, hlossless⟩ := h q hq
  have hfacts : (fun j => (r j).facts) = fun j => (page limit j (q j)).map (reported db) :=
    funext fun j => (auditTrailOf_isOk hx hlimit (hr j)).1
  exact hfacts ▸ hlossless

/-- The pages of an application report every fact once exactly when its anomalies
decode and facts that tie around a boundary between two pages are reported alike. -/
theorem pagesLossless_iff {x : Application} (hx : db.application a = some x) {limit : ℕ}
    (hlimit : 1 ≤ limit ∧ limit ≤ 500) :
    PagesLossless py db a limit ↔
      (∀ row ∈ db.anomalyRows a, (anomalyContent py row.llmResponse).isSome = true) ∧
      ∀ f ∈ db.factsOf a, ∀ g ∈ db.factsOf a, f.key = g.key → f.createdAt = g.createdAt →
        (∃ j, Splits ExtractedFact.sortKey (db.factsOf a) f.sortKey (j * limit)) →
        reported db f = reported db g := by
  have hpages := lossless_iff hlimit.1 ExtractedFact.sortKey (reported db) (db.factsOf a)
  simp only [sortKey_eq_iff, and_imp] at hpages
  rw [← hpages, ← anomalyItems_isOk]
  constructor
  · intro h
    obtain ⟨r, hr, -⟩ := h (fun _ => orderFacts (db.factsOf a)) fun _ => arrangement_orderFacts _
    exact ⟨(auditTrailOf_isOk hx hlimit (hr 0)).2, lossless_of_pagesLossless hx hlimit h⟩
  · rintro ⟨⟨items, hitems⟩, h⟩ q hq
    choose r hr using fun j => auditTrailOf_ok hx hlimit hitems (q j) j
    have hfacts : (fun j => (r j).facts) = fun j => (page limit j (q j)).map (reported db) :=
      funext fun j => (auditTrailOf_isOk hx hlimit (hr j)).1
    exact ⟨r, hr, hfacts ▸ h q hq⟩

/-- The facts of one run tie whenever they have one key. -/
theorem sortKey_newFacts {ids : ℕ → Uuid} {now : Time} {validated : List (ValidatedEntity py)}
    {facts : List ExtractedFact} (h : newFacts a ids now validated = .ok facts) {f g : ExtractedFact}
    (hf : f ∈ facts) (hg : g ∈ facts) : f.sortKey = g.sortKey ↔ f.key = g.key := by
  rw [sortKey_eq_iff, createdAt_newFacts h f hf, createdAt_newFacts h g hg]
  exact and_iff_left rfl

end Trail

/-! ### Two incomes of one run -/

def tiedIncome (n : ℕ) : ExtractedFact :=
  ⟨⟨.ofNat 1, "monthly_income".toList, .float (.finite n), some 1, none, none⟩, .ofNat n, 0⟩

/-- An application with two incomes that were inserted together. -/
def tiedIncomes : Database where
  applications := [⟨.ofNat 1, "alice".toList, .processing, 0⟩]
  facts := [tiedIncome 100, tiedIncome 200]

theorem application_tiedIncomes :
    tiedIncomes.application (.ofNat 1) = some ⟨.ofNat 1, "alice".toList, .processing, 0⟩ := by decide +kernel

theorem tiedIncomes_not_lossless : ¬ ∀ db a x limit, db.application a = some x → 1 ≤ limit ∧ limit ≤ 500 →
    PagesLossless asciiPython db a limit := by
  intro h
  have hlossless := lossless_of_pagesLossless application_tiedIncomes ⟨le_rfl, by decide⟩
    (h tiedIncomes (.ofNat 1) _ 1 application_tiedIncomes ⟨le_rfl, by decide⟩)
  have hfacts : tiedIncomes.factsOf (.ofNat 1) = [tiedIncome 100, tiedIncome 200] := by decide +kernel
  rw [hfacts] at hlossless
  have hsplits : Splits ExtractedFact.sortKey [tiedIncome 100, tiedIncome 200] (tiedIncome 100).sortKey (1 * 1) := by
    have hkey : (tiedIncome 200).sortKey = (tiedIncome 100).sortKey := rfl
    simp [Splits, hkey]
  have heq : reported tiedIncomes (tiedIncome 100) = reported tiedIncomes (tiedIncome 200) :=
    view_eq_of_lossless Nat.one_pos hlossless (by simp) (by simp) rfl hsplits
  revert heq
  decide +kernel

theorem pagesLossless_iff_tiedIncomes :
    PagesLossless asciiPython tiedIncomes (.ofNat 1) 2 ↔
      (∀ row ∈ tiedIncomes.anomalyRows (.ofNat 1), (anomalyContent asciiPython row.llmResponse).isSome = true) ∧
      ∀ f ∈ tiedIncomes.factsOf (.ofNat 1), ∀ g ∈ tiedIncomes.factsOf (.ofNat 1), f.key = g.key →
        f.createdAt = g.createdAt →
        (∃ j, Splits ExtractedFact.sortKey (tiedIncomes.factsOf (.ofNat 1)) f.sortKey (j * 2)) →
        reported tiedIncomes f = reported tiedIncomes g :=
  pagesLossless_iff (x := ⟨.ofNat 1, "alice".toList, .processing, 0⟩) (by decide +kernel) (by decide)

end LoanAgent
