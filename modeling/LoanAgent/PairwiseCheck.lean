import LoanAgent.Library.Grouping
import LoanAgent.RunStatus
import LoanAgent.JsonText

/-! Reconciliation against the plain check of every pair. The node groups the
facts by key in two dictionaries and visits the keys that both have; the plain
check compares every stated fact with every documented fact of its key. Proved:
on facts as extractions store them both find the same anomalies as often, in
whatever order the rows and the keys come, and the node writes one row for each,
whose text decodes to it. -/

namespace LoanAgent

variable {py : Python}

/-! ### The plain check -/

/-- `_compare` of a stated fact and a documented fact of its key. -/
def comparePair (py : Python) (f g : FactContent) : Option Anomaly :=
  match f.documentId, g.documentId, reading py f, reading py g with
  | none, some id, .ok s, .ok d =>
    if g.key = f.key then (compare py f.key s d id).toOption.join else none
  | _, _, _, _ => none

/-- The anomalies of all pairs. -/
def pairwiseAnomalies (py : Python) (facts : List FactContent) : List Anomaly :=
  facts.flatMap fun f => facts.filterMap (comparePair py f)

theorem pairwiseAnomalies_perm {facts rows : List FactContent} (h : rows.Perm facts) :
    (pairwiseAnomalies py rows).Perm (pairwiseAnomalies py facts) := by
  unfold pairwiseAnomalies
  exact (h.flatMap_right _).trans (List.Perm.flatMap_left _ fun f _ => h.filterMap _)

/-! ### What the dictionaries hold -/

theorem dictValues_dictAppend {α β : Type*} [DecidableEq α] (d : List (α × List β)) (k k' : α) (v : β) :
    dictValues (dictAppend k v d) k' = dictValues d k' ++ if k = k' then [v] else [] := by
  induction d with
  | nil =>
    by_cases hk : k = k'
    · subst hk; simp [dictValues, dictAppend]
    · simp [dictValues, dictAppend, List.lookup, hk, beq_eq_false_iff_ne.mpr (Ne.symm hk)]
  | cons x d ih =>
    obtain ⟨k₀, vs⟩ := x
    have hhead : ∀ (ws : List β) (e : List (α × List β)),
        dictValues ((k₀, ws) :: e) k' = if k' = k₀ then ws else dictValues e k' := by
      intro ws e
      by_cases h : k' = k₀
      · subst h
        simp [dictValues]
      · simp [dictValues, List.lookup, beq_eq_false_iff_ne.mpr h, h]
    by_cases hx : k₀ = k
    · subst hx
      simp only [dictAppend, if_true, hhead, @eq_comm _ k₀ k']
      split_ifs <;> simp
    · simp only [dictAppend, if_neg hx, hhead, ih]
      by_cases h : k' = k₀
      · subst h
        simp [Ne.symm hx]
      · simp only [if_neg h]

theorem keys_dictAppend {α β : Type*} [DecidableEq α] (d : List (α × List β)) (k : α) (v : β) :
    (dictAppend k v d).map (·.1) = if k ∈ d.map (·.1) then d.map (·.1) else d.map (·.1) ++ [k] := by
  induction d with
  | nil => rfl
  | cons x d ih =>
    simp only [dictAppend, List.map_cons, List.mem_cons]
    by_cases h : x.1 = k
    · simp [h]
    · rw [if_neg h, List.map_cons, ih]
      by_cases hk : k ∈ d.map (·.1)
      · rw [if_pos hk, if_pos (.inr hk)]
      · rw [if_neg hk, if_neg (not_or.mpr ⟨Ne.symm h, hk⟩), List.cons_append]

theorem nodup_keys_dictAppend {α β : Type*} [DecidableEq α] {d : List (α × List β)} (k : α) (v : β)
    (h : (d.map (·.1)).Nodup) : ((dictAppend k v d).map (·.1)).Nodup := by
  rw [keys_dictAppend]
  split_ifs with hk
  · exact h
  · rw [← List.concat_eq_append]
    exact h.concat hk

/-- A stated value under its key. -/
def statedPair (py : Python) (f : FactContent) : Option (Text × FactValue) :=
  match f.documentId, reading py f with
  | none, .ok v => some (f.key, v)
  | _, _ => none

/-- A documented value under its key. -/
def documentedPair (py : Python) (f : FactContent) : Option (Text × FactValue × Uuid) :=
  match f.documentId, reading py f with
  | some id, .ok v => some (f.key, v, id)
  | _, _ => none

/-- The dictionaries hold the pairs of the facts, key by key, and no key twice. -/
structure Collected (py : Python) (rows : List FactContent) (r : Readings) : Prop where
  stated : ∀ k, dictValues r.stated k = Grouping.valuesAt k (rows.filterMap (statedPair py))
  documented : ∀ k, dictValues r.documented k = Grouping.valuesAt k (rows.filterMap (documentedPair py))
  nodup : (r.stated.map (·.1)).Nodup

theorem collect_collected {acc r : Readings} {before rows : List FactContent}
    (h : collect py acc rows = .ok r) (hacc : Collected py before acc) : Collected py (before ++ rows) r := by
  induction rows generalizing acc before with
  | nil =>
    cases h
    rwa [List.append_nil]
  | cons f rows ih =>
    obtain ⟨hs, hd, hn⟩ := hacc
    simp only [collect] at h
    split at h
    · cases h
    next value hvalue =>
      have hstep : ∀ acc', collect py acc' rows = .ok r → Collected py (before ++ [f]) acc' →
          Collected py (before ++ f :: rows) r := by
        intro acc' h' hacc'
        simpa using ih h' hacc'
      split at h
      next hdoc =>
        refine hstep _ h ⟨fun k => ?_, fun k => ?_, nodup_keys_dictAppend _ _ hn⟩
        · simp only [dictValues_dictAppend, hs]
          by_cases hk : f.key = k <;>
            simp [Grouping.valuesAt, List.filterMap_append, statedPair, hdoc, hvalue, hk]
        · simp [hd, Grouping.valuesAt, List.filterMap_append, documentedPair, hdoc]
      next id hdoc =>
        refine hstep _ h ⟨fun k => ?_, fun k => ?_, hn⟩
        · simp [hs, Grouping.valuesAt, List.filterMap_append, statedPair, hdoc]
        · simp only [dictValues_dictAppend, hd]
          by_cases hk : f.key = k <;>
            simp [Grouping.valuesAt, List.filterMap_append, documentedPair, hdoc, hvalue, hk]

theorem comparisons_eq {rows : List FactContent} {r : Readings} (h : Collected py rows r) :
    comparisons py r = Grouping.groupedJoin
      (py.setOrder ((r.stated.map (·.1)).filter (· ∈ r.documented.map (·.1))))
      (rows.filterMap (statedPair py)) (rows.filterMap (documentedPair py)) := by
  simp only [comparisons, Grouping.groupedJoin, h.stated, h.documented, Prod.mk.eta]

/-- The pairs that the node compares are those of the nested loop. -/
theorem comparisons_perm {rows : List FactContent} {r : Readings} (h : Collected py rows r) :
    (comparisons py r).Perm (Grouping.nestedJoin (rows.filterMap (statedPair py))
      (rows.filterMap (documentedPair py))) := by
  have hvalues : ∀ {α : Type} (k : Text) (l : List (Text × α)), k ∈ l.map (·.1) →
      ∃ v, v ∈ Grouping.valuesAt k l := by
    intro α k l hk
    obtain ⟨x, hx, rfl⟩ := List.mem_map.mp hk
    exact ⟨x.2, List.mem_map.mpr ⟨x, List.mem_filter.mpr ⟨hx, by simp⟩, rfl⟩⟩
  rw [comparisons_eq h]
  refine Grouping.groupedJoin_perm ((py.setOrder_perm _).nodup_iff.mpr (h.nodup.filter _)) fun k hs hd => ?_
  obtain ⟨v, hv⟩ := hvalues k _ hs
  obtain ⟨w, hw⟩ := hvalues k _ hd
  rw [← h.stated] at hv
  rw [← h.documented] at hw
  exact (py.setOrder_perm _).mem_iff.mpr (List.mem_filter.mpr
    ⟨mem_keys_of_mem_dictValues hv, by simpa using mem_keys_of_mem_dictValues hw⟩)

/-! ### Both checks agree -/

/-- The anomaly of a pair, if its comparison yields one. -/
def compared (py : Python) (p : Text × FactValue × FactValue × Uuid) : Option Anomaly :=
  (compare py p.1 p.2.1 p.2.2.1 p.2.2.2).toOption.join

theorem compareAll_eq {pairs : List (Text × FactValue × FactValue × Uuid)} {found : List Anomaly}
    (h : compareAll py pairs = .ok found) : found = pairs.filterMap (compared py) := by
  induction pairs generalizing found with
  | nil =>
    cases h
    rfl
  | cons p rest ih =>
    obtain ⟨key, s, d, id⟩ := p
    simp only [compareAll] at h
    split at h
    · cases h
    next x hx =>
      cases hr : compareAll py rest with
      | error e => rw [hr] at h; cases h
      | ok others =>
        rw [hr] at h
        cases h
        rw [ih hr]
        cases x <;> simp [compared, hx, Except.toOption]

/-- One stated value against all documented ones. -/
theorem filterMap_valuesAt {f : FactContent} {x : Text × FactValue} (h : statedPair py f = some x)
    (rows : List FactContent) :
    ((Grouping.valuesAt x.1 (rows.filterMap (documentedPair py))).map fun b => (x.1, x.2, b)).filterMap
      (compared py) = rows.filterMap (comparePair py f) := by
  unfold statedPair at h
  split at h
  next s hdoc hread =>
    cases h
    rw [Grouping.valuesAt, List.map_map, List.filterMap_map, List.filterMap_filter, List.filterMap_filterMap]
    refine List.filterMap_congr fun g _ => ?_
    unfold documentedPair comparePair
    rw [hdoc, hread]
    cases g.documentId with
    | none => rfl
    | some id =>
      cases reading py g with
      | error e => rfl
      | ok d => simp [compared]
  · cases h

/-- The pairs of the nested loop yield the anomalies of the plain check. -/
theorem filterMap_nestedJoin (rows : List FactContent) :
    (Grouping.nestedJoin (rows.filterMap (statedPair py)) (rows.filterMap (documentedPair py))).filterMap
      (compared py) = pairwiseAnomalies py rows := by
  have hnone : ∀ f, statedPair py f = none → rows.filterMap (comparePair py f) = [] := by
    intro f hf
    refine List.filterMap_eq_nil_iff.mpr fun g _ => ?_
    unfold statedPair at hf
    unfold comparePair
    split at hf
    · cases hf
    next hno =>
      split
      next id s d hdoc _ hread _ => exact absurd hread (hno s hdoc)
      · rfl
  have key : ∀ facts : List FactContent, (Grouping.nestedJoin (facts.filterMap (statedPair py))
      (rows.filterMap (documentedPair py))).filterMap (compared py) =
        facts.flatMap fun f => rows.filterMap (comparePair py f) := by
    intro facts
    induction facts with
    | nil => rfl
    | cons f facts ih =>
      rw [List.flatMap_cons, ← ih]
      cases hf : statedPair py f with
      | none => rw [List.filterMap_cons_none hf, hnone f hf, List.nil_append]
      | some x =>
        rw [List.filterMap_cons_some hf, Grouping.nestedJoin, List.flatMap_cons, List.filterMap_append,
          filterMap_valuesAt hf]
        rfl
  exact key rows

/-- The anomalies of facts, whose rows come in any order, are those of the plain check. -/
theorem findAnomalies_perm {rows : List FactContent} {found : List Anomaly}
    (h : findAnomalies py rows = .ok found) : found.Perm (pairwiseAnomalies py rows) := by
  unfold findAnomalies at h
  split at h
  · cases h
  next r hr =>
    have hempty : Collected py [] {} := ⟨fun _ => rfl, fun _ => rfl, List.nodup_nil⟩
    have hcollected : Collected py (rows.insertionSort fun f g => f.key ≤ g.key) r :=
      collect_collected hr hempty
    rw [compareAll_eq h]
    refine ((comparisons_perm hcollected).filterMap _).trans ?_
    rw [filterMap_nestedJoin]
    exact pairwiseAnomalies_perm (List.perm_insertionSort _ _)

/-! ### The rows that the node writes -/

/-- What the text of an anomaly's row holds. -/
def Anomaly.json (x : Anomaly) : Json :=
  .obj [("key".toList, .str x.key), ("stated_value".toList, jsonOf x.statedValue),
    ("document_value".toList, jsonOf x.documentValue), ("document_id".toList, .str x.documentId.str),
    ("variance_pct".toList, jsonOf (x.variancePct.elim .null .float))]

/-- The platform reads its texts of the anomaly's floats as these floats. -/
def Anomaly.Readable (py : Python) (x : Anomaly) : Prop :=
  ∀ v ∈ [x.statedValue, x.documentValue, x.variancePct.elim .null .float], ∀ q, v = .float (.finite q) →
    Scans py (py.repr (.finite q)) (.number v)

theorem loads_anomalyText {x : Anomaly} (h : x.Readable py) : loads py (anomalyText py x) = some x.json := by
  simp only [Anomaly.Readable, List.forall_mem_cons, List.not_mem_nil, false_implies, implies_true, and_true] at h
  obtain ⟨hstated, hdocument, hvariance⟩ := h
  have hscan : ∀ m ∈ [("key".toList, jsonString true x.key, Json.str x.key),
      ("stated_value".toList, jsonValue py true x.statedValue, jsonOf x.statedValue),
      ("document_value".toList, jsonValue py true x.documentValue, jsonOf x.documentValue),
      ("document_id".toList, jsonString true x.documentId.str, Json.str x.documentId.str),
      ("variance_pct".toList, jsonValue py true (x.variancePct.elim .null .float),
        jsonOf (x.variancePct.elim .null .float))], Scans py m.2.1 m.2.2 := by
    simp only [List.forall_mem_cons, List.not_mem_nil, false_implies, implies_true, and_true]
    exact ⟨scans_jsonString _, scans_jsonValue hstated, scans_jsonValue hdocument, scans_jsonString _,
      scans_jsonValue hvariance⟩
  have hread := loads_jsonObject (List.cons_ne_nil _ _) hscan
  simp only [List.map_cons, List.map_nil] at hread
  rw [anomalyText, hread]
  rfl

/-- Reconciliation finds the anomalies of the plain check as often, in whatever
order the rows come, and writes nothing but one row for each, which decodes to it. -/
theorem reconcile_pairwise {facts : List FactContent} (hfacts : ∀ f ∈ facts, f.Persisted py)
    (hread : ∀ x ∈ pairwiseAnomalies py facts, x.Readable py) (draws : RunDraws) {a : Uuid} {db : Database}
    (hrows : (db.contentsOf a).Perm facts) :
    ∃ found, reconcile py draws a db =
        .ok (found, { db with auditLogs := db.auditLogs ++ found.map (anomalyAudit py a draws.reconcileAt) }) ∧
      found.Perm (pairwiseAnomalies py facts) ∧
      ∀ x ∈ found, ∃ text, (anomalyAudit py a draws.reconcileAt x).llmResponse = some text ∧
        loads py text = some x.json := by
  have hconvert : NumbersConvert py (db.contentsOf a) :=
    persisted_convert fun f hf => hfacts f (hrows.mem_iff.mp hf)
  obtain ⟨found, hfound⟩ := findAnomalies_ok_iff.mpr hconvert
  have hperm : found.Perm (pairwiseAnomalies py facts) :=
    (findAnomalies_perm hfound).trans (pairwiseAnomalies_perm hrows)
  refine ⟨found, ?_, hperm, fun x hx => ⟨_, rfl, loads_anomalyText (hread x (hperm.mem_iff.mp hx))⟩⟩
  rw [reconcile, hfound]
  rfl

/-- The income that the borrower declares. -/
def declaredIncome : FactContent :=
  ⟨.ofNat 1, "monthly_income".toList, .float (.finite 6000), some (9 / 10), none, some "6000".toList⟩

/-- The income of the payslip. -/
def paidIncome : FactContent :=
  ⟨.ofNat 1, "monthly_income".toList, .float (.finite 5000), some (9 / 10), some (.ofNat 3), some "5000".toList⟩

def incomeDatabase : Database :=
  { sampleDatabase "I earn 6000".toList with facts := [⟨paidIncome, .ofNat 5, 10⟩, ⟨declaredIncome, .ofNat 4, 10⟩] }

theorem declaredIncome_anomalies : pairwiseAnomalies asciiPython [declaredIncome, paidIncome] =
    [⟨"monthly_income".toList, .float (.finite 6000), .float (.finite 5000), .ofNat 3, some (.finite 20)⟩] := by
  decide +kernel

theorem declaredIncome_persisted {f : FactContent} (hf : f ∈ [declaredIncome, paidIncome]) :
    f.Persisted asciiPython := by
  have hround : ∀ q : ℚ, q = 6000 ∨ q = 5000 → asciiPython.round q = .finite q := by
    rintro q (rfl | rfl) <;> decide +kernel
  simp only [List.mem_cons, List.not_mem_nil, or_false] at hf
  rcases hf with rfl | rfl
  · refine ⟨.float (.finite 6000), _, fun q hq => ?_, rfl, by decide +kernel⟩
    cases hq
    exact hround _ (.inl rfl)
  · refine ⟨.float (.finite 5000), _, fun q hq => ?_, rfl, by decide +kernel⟩
    cases hq
    exact hround _ (.inr rfl)

theorem declaredIncome_readable {x : Anomaly}
    (hx : x ∈ pairwiseAnomalies asciiPython [declaredIncome, paidIncome]) : x.Readable asciiPython := by
  have hscan : ∀ (q : ℚ) (whole : Text), asciiPython.repr (.finite q) = whole ++ ['.', '0'] →
      (whole ≠ [] ∧ whole.head? ≠ some '0' ∧ whole.all Char.isDigit = true) →
      asciiPython.floatOfText (whole ++ ['.', '0']) = some (.finite q) →
      Scans asciiPython (asciiPython.repr (.finite q)) (.number (.float (.finite q))) := by
    rintro q whole htext ⟨hne, hzero, hdigits⟩ hfloat
    rw [htext]
    exact scans_decimal hne hzero (List.all_eq_true.mp hdigits) (List.cons_ne_nil _ _)
      (List.all_eq_true.mp (by decide)) hfloat
  have hdeclared := hscan 6000 "6000".toList (by decide +kernel) (by decide) (by decide +kernel)
  have hpaid := hscan 5000 "5000".toList (by decide +kernel) (by decide) (by decide +kernel)
  have hvariance := hscan 20 "20".toList (by decide +kernel) (by decide) (by decide +kernel)
  rw [declaredIncome_anomalies, List.mem_singleton] at hx
  subst hx
  simp only [Anomaly.Readable, List.forall_mem_cons, List.not_mem_nil, false_implies, implies_true, and_true]
  refine ⟨fun q hq => ?_, fun q hq => ?_, fun q hq => ?_⟩
  · cases hq
    exact hdeclared
  · cases hq
    exact hpaid
  · cases hq
    exact hvariance

theorem reconcile_pairwise_incomes :
    ∃ found, reconcile asciiPython sampleDraws (.ofNat 1) incomeDatabase = .ok (found, { incomeDatabase with
        auditLogs := incomeDatabase.auditLogs ++
          found.map fun x => anomalyAudit asciiPython (.ofNat 1) sampleDraws.reconcileAt x }) ∧
      found.Perm (pairwiseAnomalies asciiPython [declaredIncome, paidIncome]) ∧
      ∀ x ∈ found, ∃ text,
        (anomalyAudit asciiPython (.ofNat 1) sampleDraws.reconcileAt x).llmResponse = some text ∧
        loads asciiPython text = some x.json :=
  reconcile_pairwise (fun _ hf => declaredIncome_persisted hf) (fun _ hx => declaredIncome_readable hx)
    sampleDraws (List.Perm.swap _ _ [])

end LoanAgent
