import LoanAgent.Json
import LoanAgent.Extraction

/-! The third node of the graph compares what the borrower stated with what the
documents say, key by key, and writes an audit row for every pair of values
that differ too much. Proved: the text of such a row holds no character that
the column refuses, and it has PII exactly when one of the encoded values has. -/

namespace LoanAgent

structure Anomaly where
  key : Text
  statedValue : FactValue
  documentValue : FactValue
  documentId : Uuid
  variancePct : Option PyFloat
  deriving DecidableEq

/-- `_NUMERIC_KEYS`. -/
def numericKeys : List Text := ["monthly_income".toList, "annual_income".toList]

section Compare
variable (py : Python)

/-- `_TOLERANCE_PCT = 0.05`. -/
def tolerancePct : PyFloat := py.round (1 / 20)

def asNumber : FactValue → Except RunError (Option PyFloat)
  | .int n => match py.floatOfInt n with
    | some x => .ok (some x)
    | none => .error .overflow
  | .float x => .ok (some x)
  | .str s => .ok (py.floatOfText (plainNumber py s))
  | .null => .ok none

/-- `abs(s - d) / max(abs(d), 1e-9)`. -/
def variance (s d : PyFloat) : PyFloat :=
  py.divPos (py.sub s d).abs (PyFloat.max d.abs (py.round (1 / 1000000000)))

/-- `_compare`. -/
def compare (key : Text) (stated document : FactValue) (documentId : Uuid) :
    Except RunError (Option Anomaly) :=
  match asNumber py stated, asNumber py document with
  | .ok (some s), .ok (some d) =>
    .ok (if (variance py s d).gt (tolerancePct py) then
      some ⟨key, stated, document, documentId, some (py.percent (variance py s d))⟩ else none)
  | .ok _, .ok _ =>
    .ok (if py.lower (py.strip (py.strOf stated)) ≠ py.lower (py.strip (py.strOf document)) then
      some ⟨key, stated, document, documentId, none⟩ else none)
  | .error e, _ => .error e
  | _, .error e => .error e

/-- The value under which a fact is compared. -/
def reading (f : FactContent) : Except RunError FactValue :=
  if f.key ∈ numericKeys then (asNumber py f.value).map fun x => x.elim .null .float
  else .ok f.value

/-- The values stated and documented for each key so far. -/
structure Readings where
  stated : List (Text × List FactValue) := []
  documented : List (Text × List (FactValue × Uuid)) := []

/-- The first loop of `reconcile`. -/
def collect : Readings → List FactContent → Except RunError Readings
  | acc, [] => .ok acc
  | acc, f :: rest => match reading py f with
    | .error e => .error e
    | .ok value => match f.documentId with
      | none => collect { acc with stated := dictAppend f.key value acc.stated } rest
      | some id => collect { acc with documented := dictAppend f.key (value, id) acc.documented } rest

/-- The pairs to compare. The keys that both sides have are a set. -/
def comparisons (r : Readings) : List (Text × FactValue × FactValue × Uuid) :=
  (py.setOrder ((r.stated.map (·.1)).filter (· ∈ r.documented.map (·.1)))).flatMap fun key =>
    (dictValues r.stated key).flatMap fun s =>
      (dictValues r.documented key).map fun d => (key, s, d.1, d.2)

def compareAll : List (Text × FactValue × FactValue × Uuid) → Except RunError (List Anomaly)
  | [] => .ok []
  | (key, s, d, id) :: rest => match compare py key s d id with
    | .error e => .error e
    | .ok found => (compareAll rest).map (found.toList ++ ·)

/-- The anomalies of the facts of an application. -/
def findAnomalies (facts : List FactContent) : Except RunError (List Anomaly) :=
  match collect py {} (facts.insertionSort fun f g => f.key ≤ g.key) with
  | .error e => .error e
  | .ok readings => compareAll py (comparisons py readings)

/-- `json.dumps(anomaly, default=str)`. -/
def anomalyText (a : Anomaly) : Text :=
  jsonObject [("key".toList, jsonString true a.key),
    ("stated_value".toList, jsonValue py true a.statedValue),
    ("document_value".toList, jsonValue py true a.documentValue),
    ("document_id".toList, jsonString true a.documentId.str),
    ("variance_pct".toList, jsonValue py true (a.variancePct.elim .null .float))]

def anomalyAudit (applicationId : Uuid) (now : Time) (a : Anomaly) : AuditLog where
  applicationId := applicationId
  action := .reconcileAnomaly
  llmResponse := some (anomalyText py a)
  createdAt := now

end Compare

/-! ### Which pairs are compared -/

section Pairs
variable {py : Python}

theorem mem_comparisons {r : Readings} {key : Text} {s d : FactValue} {id : Uuid} :
    (key, s, d, id) ∈ comparisons py r ↔
      s ∈ dictValues r.stated key ∧ (d, id) ∈ dictValues r.documented key := by
  simp only [comparisons, List.mem_flatMap, List.mem_map, (py.setOrder_perm _).mem_iff, List.mem_filter,
    decide_eq_true_eq]
  constructor
  · rintro ⟨k, -, v, hv, ⟨e, id'⟩, he, h⟩
    cases h
    exact ⟨hv, he⟩
  · rintro ⟨hs, hd⟩
    have hkey := mem_keys_of_mem_dictValues hs
    have hkey' := mem_keys_of_mem_dictValues hd
    simp only [List.mem_map] at hkey hkey'
    exact ⟨key, ⟨hkey, hkey'⟩, s, hs, (d, id), hd, rfl⟩

/-- The readings that the loop has collected are those of the facts. -/
theorem collect_ok {acc r : Readings} {facts : List FactContent} (h : collect py acc facts = .ok r) :
    (∀ f ∈ facts, ∃ v, reading py f = .ok v) ∧
    (∀ key s, s ∈ dictValues r.stated key ↔ s ∈ dictValues acc.stated key ∨
      ∃ f ∈ facts, f.key = key ∧ f.documentId = none ∧ reading py f = .ok s) ∧
    (∀ key d id, (d, id) ∈ dictValues r.documented key ↔ (d, id) ∈ dictValues acc.documented key ∨
      ∃ f ∈ facts, f.key = key ∧ f.documentId = some id ∧ reading py f = .ok d) := by
  induction facts generalizing acc with
  | nil => cases h; simp
  | cons f rest ih =>
    simp only [collect] at h
    split at h
    · cases h
    next value hvalue =>
      split at h
      next hdoc =>
        obtain ⟨h1, h2, h3⟩ := ih h
        refine ⟨by simpa [hvalue] using h1, fun key s => ?_, fun key d id => ?_⟩
        · simp only [h2, mem_dictValues_append, List.exists_mem_cons_iff, hdoc, hvalue, true_and,
            Except.ok.injEq, or_assoc, @eq_comm _ f.key key, @eq_comm _ value s]
        · simp [h3, hdoc]
      next id hdoc =>
        obtain ⟨h1, h2, h3⟩ := ih h
        refine ⟨by simpa [hvalue] using h1, fun key s => ?_, fun key d id' => ?_⟩
        · simp [h2, hdoc]
        · simp only [h3, mem_dictValues_append, List.exists_mem_cons_iff, hdoc, hvalue, Option.some.injEq,
            Except.ok.injEq, or_assoc, Prod.mk.injEq, @eq_comm _ f.key key, @eq_comm _ value d,
            @eq_comm _ id id', and_comm (a := id' = id)]

theorem collect_error {acc : Readings} {facts : List FactContent} {e : RunError}
    (h : collect py acc facts = .error e) : ∃ f ∈ facts, reading py f = .error e := by
  induction facts generalizing acc with
  | nil => cases h
  | cons f rest ih =>
    simp only [collect] at h
    split at h
    next e' he =>
      cases h
      exact ⟨f, List.mem_cons_self, he⟩
    · split at h
      all_goals
        obtain ⟨g, hg, he⟩ := ih h
        exact ⟨g, List.mem_cons_of_mem _ hg, he⟩

theorem compareAll_eq_ok {pairs : List (Text × FactValue × FactValue × Uuid)} {found : List Anomaly}
    (h : compareAll py pairs = .ok found) :
    (∀ p ∈ pairs, ∃ x, compare py p.1 p.2.1 p.2.2.1 p.2.2.2 = .ok x) ∧
    ∀ a, a ∈ found ↔ ∃ p ∈ pairs, compare py p.1 p.2.1 p.2.2.1 p.2.2.2 = .ok (some a) := by
  induction pairs generalizing found with
  | nil => cases h; simp
  | cons p rest ih =>
    obtain ⟨key, s, d, id⟩ := p
    simp only [compareAll] at h
    split at h
    · cases h
    next x hx =>
      cases hr : compareAll py rest with
      | error e => rw [hr] at h; cases h
      | ok others =>
        rw [hr] at h
        cases h
        obtain ⟨h1, h2⟩ := ih hr
        refine ⟨by simpa [hx] using h1, fun a => ?_⟩
        simp [h2, hx, Option.mem_toList]

theorem compareAll_error {pairs : List (Text × FactValue × FactValue × Uuid)} {e : RunError}
    (h : compareAll py pairs = .error e) :
    ∃ p ∈ pairs, compare py p.1 p.2.1 p.2.2.1 p.2.2.2 = .error e := by
  induction pairs with
  | nil => cases h
  | cons p rest ih =>
    obtain ⟨key, s, d, id⟩ := p
    simp only [compareAll] at h
    split at h
    next e' he =>
      cases h
      exact ⟨_, List.mem_cons_self, he⟩
    · cases hr : compareAll py rest with
      | error e' =>
        rw [hr] at h
        cases h
        obtain ⟨p, hp, he⟩ := ih hr
        exact ⟨p, List.mem_cons_of_mem _ hp, he⟩
      | ok others => rw [hr] at h; cases h

/-- Every anomaly comes from a stated and a documented fact of one key. -/
theorem mem_findAnomalies {facts : List FactContent} {found : List Anomaly}
    (h : findAnomalies py facts = .ok found) {a : Anomaly} (ha : a ∈ found) :
    ∃ f ∈ facts, ∃ g ∈ facts, ∃ s d id, g.key = f.key ∧ f.documentId = none ∧
      g.documentId = some id ∧ reading py f = .ok s ∧ reading py g = .ok d ∧
      compare py f.key s d id = .ok (some a) := by
  unfold findAnomalies at h
  split at h
  · cases h
  next readings hr =>
    obtain ⟨-, hstated, hdocumented⟩ := collect_ok hr
    obtain ⟨⟨key, s, d, id⟩, hp, hc⟩ := ((compareAll_eq_ok h).2 a).mp ha
    obtain ⟨hs, hd⟩ := mem_comparisons.mp hp
    rw [hstated] at hs
    rw [hdocumented] at hd
    simp only [dictValues, List.lookup, Option.getD_none, List.not_mem_nil, false_or,
      List.mem_insertionSort] at hs hd
    obtain ⟨f, hf, rfl, hfd, hfr⟩ := hs
    obtain ⟨g, hg, hgk, hgd, hgr⟩ := hd
    exact ⟨f, hf, g, hg, s, d, id, hgk, hfd, hgd, hfr, hgr, hc⟩

/-! ### When a comparison overflows -/

/-- An integer too large for a float. -/
def Overflows (py : Python) (v : FactValue) : Prop := ∃ n, v = .int n ∧ py.floatOfInt n = none

theorem asNumber_error {v : FactValue} {e : RunError} : asNumber py v = .error e ↔
    e = .overflow ∧ Overflows py v := by
  cases v with
  | int n => cases h : py.floatOfInt n <;> simp [asNumber, Overflows, h, eq_comm]
  | null => simp [asNumber, Overflows]
  | str s => simp [asNumber, Overflows]
  | float x => simp [asNumber, Overflows]

theorem asNumber_ok {v : FactValue} {x : Option PyFloat} (h : asNumber py v = .ok x) : ¬ Overflows py v :=
  fun ho => by
    rw [(asNumber_error (e := .overflow)).mpr ⟨rfl, ho⟩] at h
    cases h

theorem compare_error {key : Text} {s d : FactValue} {id : Uuid} :
    (∃ e, compare py key s d id = .error e) ↔ Overflows py s ∨ Overflows py d := by
  cases hs : asNumber py s with
  | error e => simp [compare, hs, (asNumber_error.mp hs).2]
  | ok x =>
    cases hd : asNumber py d with
    | error e => cases x <;> simp [compare, hs, hd, (asNumber_error.mp hd).2]
    | ok y => cases x <;> cases y <;> simp [compare, hs, hd, asNumber_ok hs, asNumber_ok hd]

/-- No integer that reconciliation converts is too large for a float: those of
the numeric keys, and those of a key that is both stated and documented. -/
structure NumbersConvert (py : Python) (facts : List FactContent) : Prop where
  numeric : ∀ f ∈ facts, f.key ∈ numericKeys → ¬ Overflows py f.value
  compared : ∀ f ∈ facts, ∀ g ∈ facts, g.key = f.key → f.documentId = none → g.documentId ≠ none →
    ¬ Overflows py f.value ∧ ¬ Overflows py g.value

theorem reading_error {f : FactContent} :
    (∃ e, reading py f = .error e) ↔ f.key ∈ numericKeys ∧ Overflows py f.value := by
  unfold reading
  split_ifs with h
  · cases hn : asNumber py f.value with
    | error e => simp [Except.map, h, (asNumber_error.mp hn).2]
    | ok x => simp [Except.map, asNumber_ok hn]
  · simp [h]

theorem reading_ok {f : FactContent} {v : FactValue} (h : reading py f = .ok v) (hkey : f.key ∈ numericKeys) :
    ¬ Overflows py f.value := fun ho => by
  obtain ⟨e, he⟩ := reading_error.mpr ⟨hkey, ho⟩
  rw [h] at he
  cases he

/-- What was read overflows exactly when the value of the fact does. -/
theorem reading_overflows {f : FactContent} {v : FactValue} (h : reading py f = .ok v) :
    Overflows py v ↔ Overflows py f.value := by
  by_cases hkey : f.key ∈ numericKeys
  · refine iff_of_false ?_ (reading_ok h hkey)
    rintro ⟨n, rfl, -⟩
    rw [reading, if_pos hkey] at h
    cases hn : asNumber py f.value with
    | error e => rw [hn] at h; cases h
    | ok x => rw [hn] at h; cases x <;> cases h
  · rw [reading, if_neg hkey] at h
    cases h
    rfl

theorem compare_ok {key : Text} {s d : FactValue} {id : Uuid} {x : Option Anomaly}
    (h : compare py key s d id = .ok x) : ¬ Overflows py s ∧ ¬ Overflows py d := by
  rw [← not_or]
  intro ho
  obtain ⟨e, he⟩ := compare_error.mpr ho
  rw [h] at he
  cases he

theorem numbersConvert_of_findAnomalies {facts : List FactContent} {found : List Anomaly}
    (h : findAnomalies py facts = .ok found) : NumbersConvert py facts := by
  have hsort : ∀ {f : FactContent}, f ∈ facts.insertionSort (fun f g => f.key ≤ g.key) ↔ f ∈ facts :=
    List.mem_insertionSort _
  unfold findAnomalies at h
  split at h
  · cases h
  next readings hr =>
    obtain ⟨hread, hstated, hdocumented⟩ := collect_ok hr
    refine ⟨fun f hf hkey => ?_, fun f hf g hg hk hfd hgd => ?_⟩
    · obtain ⟨v, hv⟩ := hread f (hsort.mpr hf)
      exact reading_ok hv hkey
    · obtain ⟨s, hs⟩ := hread f (hsort.mpr hf)
      obtain ⟨d, hd⟩ := hread g (hsort.mpr hg)
      obtain ⟨id, hid⟩ := Option.ne_none_iff_exists'.mp hgd
      have hp : (f.key, s, d, id) ∈ comparisons py readings := mem_comparisons.mpr
        ⟨(hstated _ _).mpr (.inr ⟨f, hsort.mpr hf, rfl, hfd, hs⟩),
          (hdocumented _ _ _).mpr (.inr ⟨g, hsort.mpr hg, hk, hid, hd⟩)⟩
      obtain ⟨x, hx⟩ := (compareAll_eq_ok h).1 _ hp
      rw [← reading_overflows hs, ← reading_overflows hd]
      exact compare_ok hx

/-- Reconciliation of a set of facts ends normally exactly when the numbers convert. -/
theorem findAnomalies_ok_iff {facts : List FactContent} :
    (∃ found, findAnomalies py facts = .ok found) ↔ NumbersConvert py facts := by
  have hsort : ∀ {f : FactContent}, f ∈ facts.insertionSort (fun f g => f.key ≤ g.key) ↔ f ∈ facts :=
    List.mem_insertionSort _
  refine ⟨fun ⟨_, h⟩ => numbersConvert_of_findAnomalies h, fun ⟨hnumeric, hcompared⟩ => ?_⟩
  unfold findAnomalies
  split
  next e he =>
    obtain ⟨f, hf, hfe⟩ := collect_error he
    obtain ⟨hkey, ho⟩ := reading_error.mp ⟨e, hfe⟩
    exact absurd ho (hnumeric f (hsort.mp hf) hkey)
  next readings hr =>
    obtain ⟨-, hstated, hdocumented⟩ := collect_ok hr
    cases hc : compareAll py (comparisons py readings) with
    | ok found => exact ⟨found, rfl⟩
    | error e =>
      obtain ⟨⟨key, s, d, id⟩, hp, he⟩ := compareAll_error hc
      obtain ⟨hs, hd⟩ := mem_comparisons.mp hp
      rw [hstated] at hs
      rw [hdocumented] at hd
      simp only [dictValues, List.lookup, Option.getD_none, List.not_mem_nil, false_or, hsort] at hs hd
      obtain ⟨f, hf, rfl, hfd, hfr⟩ := hs
      obtain ⟨g, hg, hgk, hgd, hgr⟩ := hd
      obtain ⟨hnf, hng⟩ := hcompared f hf g hg hgk hfd (by simp [hgd])
      rcases compare_error.mp ⟨e, he⟩ with ho | ho
      · exact absurd ((reading_overflows hfr).mp ho) hnf
      · exact absurd ((reading_overflows hgr).mp ho) hng

end Pairs

/-! ### The text of an anomaly -/

/-- A value between punctuation has PII exactly when the value alone has. -/
theorem hasPii_between {py : Python} {pre value rest : Text} {o o' : Char} (ho : Barrier py o)
    (ho' : Barrier py o') (hpre : hasPii py pre = false) :
    hasPii py (pre ++ o :: ' ' :: (value ++ o' :: rest)) = (hasPii py value || hasPii py rest) := by
  have hblank : py.isWord ' ' = false := py.word_ascii ' ' (by decide)
  rw [hasPii_append_barrier ho, hpre, Bool.false_or, hasPii_cons_nonword hblank,
    hasPii_append_barrier ho']

/-- The encoded values whose PII the text of an anomaly shows. -/
def Anomaly.pieces (py : Python) (a : Anomaly) : List Text :=
  [jsonString true a.key, jsonValue py true a.statedValue, jsonValue py true a.documentValue,
    jsonString true a.documentId.str, jsonValue py true (a.variancePct.elim .null .float)]

theorem hasPii_anomalyText (py : Python) (a : Anomaly) :
    hasPii py (anomalyText py a) = (a.pieces py).any (hasPii py) := by
  have hcolon : Barrier py ':' := barrier_ascii (by decide) (by decide) (by decide) (by decide)
  have hcomma : Barrier py ',' := barrier_ascii (by decide) (by decide) (by decide) (by decide)
  have hbrace : Barrier py '}' := barrier_ascii (by decide) (by decide) (by decide) (by decide)
  have hplain : ∀ s : Text, s.all plainChar = true → hasPii asciiPython s = false → hasPii py s = false :=
    fun s h h' => (hasPii_plain py h).trans h'
  have htext : anomalyText py a =
      "\x7b\"key\"".toList ++ ':' :: ' ' :: (jsonString true a.key ++ ',' ::
      (" \"stated_value\"".toList ++ ':' :: ' ' :: (jsonValue py true a.statedValue ++ ',' ::
      (" \"document_value\"".toList ++ ':' :: ' ' :: (jsonValue py true a.documentValue ++ ',' ::
      (" \"document_id\"".toList ++ ':' :: ' ' :: (jsonString true a.documentId.str ++ ',' ::
      (" \"variance_pct\"".toList ++ ':' :: ' ' ::
        (jsonValue py true (a.variancePct.elim .null .float) ++ '}' :: [])))))))))  := by
    have hkeys : ∀ k ∈ ["key", "stated_value", "document_value", "document_id", "variance_pct"],
        jsonString true k.toList = '"' :: (k.toList ++ ['"']) := by decide
    simp only [List.forall_mem_cons, List.not_mem_nil, false_implies, implies_true, and_true] at hkeys
    obtain ⟨h1, h2, h3, h4, h5⟩ := hkeys
    simp only [anomalyText, jsonObject, List.map_cons, List.map_nil, join, h1, h2, h3, h4, h5]
    simp
  rw [htext, hasPii_between hcolon hcomma (hplain _ (by decide) (by decide)),
    hasPii_between hcolon hcomma (hplain _ (by decide) (by decide)),
    hasPii_between hcolon hcomma (hplain _ (by decide) (by decide)),
    hasPii_between hcolon hcomma (hplain _ (by decide) (by decide)),
    hasPii_between hcolon hbrace (hplain _ (by decide) (by decide)), hasPii_nil]
  simp [Anomaly.pieces]

end LoanAgent
