import LoanAgent.NumberText

/-! What reconciliation reports of a stated and a documented value. The node
converts the values of the numeric keys; the comparison behind it converts any
two values that look like numbers, and compares as text what is left. Proved:
values of the other keys are reconciled as texts exactly when they are equal as
texts, or do not both read as numbers, or are far apart as numbers; and a pair
of a numeric key that differs is passed over in silence only within the
tolerance exactly when one of the two reads as a number and, where both do,
neither is NaN and the documented one is finite. -/

namespace LoanAgent

variable {py : Python}

/-- Reconciliation of the facts reports the stated fact `f` against the
documented fact `g`. -/
def Reports (py : Python) (facts : List FactContent) (f g : FactContent) (id : Uuid) : Prop :=
  ∃ found s d, findAnomalies py facts = .ok found ∧ reading py f = .ok s ∧ reading py g = .ok d ∧
    ∃ a ∈ found, a.key = f.key ∧ a.statedValue = s ∧ a.documentValue = d ∧ a.documentId = id

/-! ### From the list of facts to the pair -/

theorem compare_fields {key : Text} {s d : FactValue} {id : Uuid} {a : Anomaly}
    (h : compare py key s d id = .ok (some a)) :
    a.key = key ∧ a.statedValue = s ∧ a.documentValue = d ∧ a.documentId = id := by
  unfold compare at h
  split at h
  · split_ifs at h
    · cases h
      exact ⟨rfl, rfl, rfl, rfl⟩
    · cases h
  · split_ifs at h
    · cases h
      exact ⟨rfl, rfl, rfl, rfl⟩
    · cases h
  · cases h
  · cases h

/-- A stated and a documented fact of one key are compared. -/
theorem mem_findAnomalies_of {facts : List FactContent} {found : List Anomaly}
    (h : findAnomalies py facts = .ok found) {f g : FactContent} {id : Uuid} (hf : f ∈ facts)
    (hg : g ∈ facts) (hkey : g.key = f.key) (hstated : f.documentId = none)
    (hdoc : g.documentId = some id) {s d : FactValue} (hs : reading py f = .ok s)
    (hd : reading py g = .ok d) {a : Anomaly} (ha : compare py f.key s d id = .ok (some a)) :
    a ∈ found := by
  unfold findAnomalies at h
  split at h
  · cases h
  next readings hr =>
    obtain ⟨-, hstated', hdocumented⟩ := collect_ok hr
    refine ((compareAll_eq_ok h).2 a).mpr ⟨(f.key, s, d, id), mem_comparisons.mpr ⟨?_, ?_⟩, ha⟩
    · exact (hstated' _ _).mpr (.inr ⟨f, (List.mem_insertionSort _).mpr hf, rfl, hstated, hs⟩)
    · exact (hdocumented _ _ _).mpr (.inr ⟨g, (List.mem_insertionSort _).mpr hg, hkey, hdoc, hd⟩)

/-- A pair is reported exactly when the facts convert and its comparison finds an anomaly. -/
theorem reports_iff {facts : List FactContent} {f g : FactContent} {id : Uuid} (hf : f ∈ facts)
    (hg : g ∈ facts) (hkey : g.key = f.key) (hstated : f.documentId = none)
    (hdoc : g.documentId = some id) :
    Reports py facts f g id ↔ NumbersConvert py facts ∧
      ∃ s d a, reading py f = .ok s ∧ reading py g = .ok d ∧ compare py f.key s d id = .ok (some a) := by
  constructor
  · rintro ⟨found, s, d, h, hs, hd, a, ha, hk, hsv, hdv, hid⟩
    refine ⟨findAnomalies_ok_iff.mp ⟨found, h⟩, s, d, a, hs, hd, ?_⟩
    obtain ⟨f', -, g', -, s', d', id', -, -, -, -, -, hc⟩ := mem_findAnomalies h ha
    obtain ⟨hk', hsv', hdv', hid'⟩ := compare_fields hc
    rwa [← hk', ← hsv', ← hdv', ← hid', hk, hsv, hdv, hid] at hc
  · rintro ⟨hconvert, s, d, a, hs, hd, ha⟩
    obtain ⟨found, h⟩ := findAnomalies_ok_iff.mpr hconvert
    exact ⟨found, s, d, h, hs, hd, a, mem_findAnomalies_of h hf hg hkey hstated hdoc hs hd ha,
      compare_fields ha⟩

/-- The comparison of two numbers. -/
theorem compare_numbers {key : Text} {s d : FactValue} {id : Uuid} {x y : PyFloat}
    (hs : asNumber py s = .ok (some x)) (hd : asNumber py d = .ok (some y)) :
    (∃ a, compare py key s d id = .ok (some a)) ↔ (variance py x y).gt (tolerancePct py) = true := by
  simp only [compare, hs, hd]
  split_ifs with h <;> simp [h]

/-- The comparison of two values of which one is no number. -/
theorem compare_texts {key : Text} {s d : FactValue} {id : Uuid} {x y : Option PyFloat}
    (hs : asNumber py s = .ok x) (hd : asNumber py d = .ok y) (h : x = none ∨ y = none) :
    (∃ a, compare py key s d id = .ok (some a)) ↔ comparedText py s ≠ comparedText py d := by
  have hcompare : compare py key s d id = .ok (if comparedText py s ≠ comparedText py d then
      some ⟨key, s, d, id, none⟩ else none) := by
    rcases h with rfl | rfl
    · simp only [compare, hs, hd]
      rfl
    · cases x <;> simp only [compare, hs, hd] <;> rfl
  rw [hcompare]
  split_ifs with h' <;> simp [h']

/-! ### Equal texts are never reported -/

/-- A number is at no distance from itself. -/
theorem variance_self (hpy : CPython py) (x : PyFloat) :
    (variance py x x).gt (tolerancePct py) = false := by
  have htol : (PyFloat.finite 0).gt (tolerancePct py) = false := by
    rcases hpy.round_nonneg (1 / 20) (by norm_num) with ⟨r, hr, h⟩ | h
    · rw [tolerancePct, h]
      exact decide_eq_false (not_lt.mpr hr)
    · rw [tolerancePct, h]
      rfl
  cases x with
  | nan => rfl
  | inf negative => cases negative <;> rfl
  | finite q =>
    simp only [variance, Python.sub, sub_self, hpy.round_zero, PyFloat.abs, abs_zero]
    unfold PyFloat.max
    split_ifs
    · cases py.round (1 / 1000000000) with
      | finite r => simpa only [Python.divPos, zero_div, hpy.round_zero] using htol
      | inf negative => exact htol
      | nan => rfl
    · simpa only [Python.divPos, zero_div, hpy.round_zero] using htol

/-- Where a value reads as a number, its text reads as the same number. -/
theorem number_of_strOf {v : FactValue} {x : PyFloat}
    (hrepr : ∀ x, v = .float x → py.floatOfText (plainNumber py (py.repr x)) = some x)
    (h : asNumber py v = .ok (some x)) : py.floatOfText (plainNumber py (py.strOf v)) = some x := by
  cases v with
  | null => cases h
  | str s => exact Except.ok.inj h
  | float y =>
    obtain rfl : y = x := Option.some.inj (Except.ok.inj h)
    exact hrepr y rfl
  | int n =>
    simp only [asNumber] at h
    split at h
    next z hz =>
      obtain rfl : z = x := Option.some.inj (Except.ok.inj h)
      exact floatOfText_intText hz
    · cases h

theorem numbers_of_equal_texts (hpy : CPython py) {v w : FactValue} {x y : PyFloat}
    (hrepr : ∀ x, v = .float x ∨ w = .float x → py.floatOfText (plainNumber py (py.repr x)) = some x)
    (htext : comparedText py v = comparedText py w) (hx : asNumber py v = .ok (some x))
    (hy : asNumber py w = .ok (some y)) : x = y :=
  number_of_text hpy (number_of_strOf (fun z hz => hrepr z (.inl hz)) hx)
    (number_of_strOf (fun z hz => hrepr z (.inr hz)) hy) htext

theorem asNumber_ok_of_not_overflows {v : FactValue} (h : ¬ Overflows py v) :
    ∃ x, asNumber py v = .ok x := by
  cases hv : asNumber py v with
  | ok x => exact ⟨x, rfl⟩
  | error e => exact absurd (asNumber_error.mp hv).2 h

theorem NumbersConvert.asNumber {facts : List FactContent} (h : NumbersConvert py facts)
    {f g : FactContent} {id : Uuid} (hf : f ∈ facts) (hg : g ∈ facts) (hkey : g.key = f.key)
    (hstated : f.documentId = none) (hdoc : g.documentId = some id) :
    ∃ x y, LoanAgent.asNumber py f.value = .ok x ∧ LoanAgent.asNumber py g.value = .ok y := by
  obtain ⟨hfo, hgo⟩ := h.compared f hf g hg hkey hstated (by simp [hdoc])
  obtain ⟨x, hx⟩ := asNumber_ok_of_not_overflows hfo
  obtain ⟨y, hy⟩ := asNumber_ok_of_not_overflows hgo
  exact ⟨x, y, hx, hy⟩

section Pair
variable {key : Text} {v w : FactValue} {id : Uuid} {x y : Option PyFloat}

theorem equal_texts_pass (hpy : CPython py)
    (hrepr : ∀ x, v = .float x ∨ w = .float x → py.floatOfText (plainNumber py (py.repr x)) = some x)
    (htext : comparedText py v = comparedText py w) (hx : asNumber py v = .ok x)
    (hy : asNumber py w = .ok y) : ¬ ∃ a, compare py key v w id = .ok (some a) := by
  intro ha
  by_cases hnone : x = none ∨ y = none
  · exact (compare_texts hx hy hnone).mp ha htext
  · obtain ⟨x, rfl⟩ := Option.ne_none_iff_exists'.mp (not_or.mp hnone).1
    obtain ⟨y, rfl⟩ := Option.ne_none_iff_exists'.mp (not_or.mp hnone).2
    have hgt := (compare_numbers hx hy).mp ha
    rw [numbers_of_equal_texts hpy hrepr htext hx hy, variance_self hpy] at hgt
    cases hgt

/-- Texts that differ pass only as numbers within the tolerance. -/
theorem differing_texts_found (htext : comparedText py v ≠ comparedText py w) (hx : asNumber py v = .ok x)
    (hy : asNumber py w = .ok y) : (∃ a, compare py key v w id = .ok (some a)) ↔
      ∀ p q, x = some p → y = some q → (variance py p q).gt (tolerancePct py) = true := by
  by_cases hnone : x = none ∨ y = none
  · refine iff_of_true ((compare_texts hx hy hnone).mpr htext) fun p q hp hq => ?_
    rw [hp, hq] at hnone
    rcases hnone with h | h <;> cases h
  · obtain ⟨x, rfl⟩ := Option.ne_none_iff_exists'.mp (not_or.mp hnone).1
    obtain ⟨y, rfl⟩ := Option.ne_none_iff_exists'.mp (not_or.mp hnone).2
    rw [compare_numbers hx hy]
    refine ⟨fun h p q hp hq => ?_, fun h => h x y rfl rfl⟩
    cases hp
    cases hq
    exact h

end Pair

/-! ### Keys that hold no numbers -/

/-- The values of an identity key are compared as they are. -/
theorem reports_identity {facts : List FactContent} {f g : FactContent} {id : Uuid} (hf : f ∈ facts)
    (hg : g ∈ facts) (hkey : g.key = f.key) (hident : f.key ∉ numericKeys) (hstated : f.documentId = none)
    (hdoc : g.documentId = some id) : Reports py facts f g id ↔ NumbersConvert py facts ∧
      ∃ a, compare py f.key f.value g.value id = .ok (some a) := by
  have hs : reading py f = .ok f.value := if_neg hident
  have hd : reading py g = .ok g.value := if_neg (by rwa [hkey])
  rw [reports_iff hf hg hkey hstated hdoc, hs, hd]
  simp

/-- A pair of an identity key is reported by text exactly when the two are equal
as texts, or the facts convert and the two do not both read as numbers within
the tolerance. The text of a float is taken to read as that float. -/
theorem identity_by_text_iff (hpy : CPython py) {facts : List FactContent} {f g : FactContent} {id : Uuid}
    (hf : f ∈ facts) (hg : g ∈ facts) (hkey : g.key = f.key) (hident : f.key ∉ numericKeys)
    (hstated : f.documentId = none) (hdoc : g.documentId = some id)
    (hrepr : ∀ x, f.value = .float x ∨ g.value = .float x →
      py.floatOfText (plainNumber py (py.repr x)) = some x) :
    (Reports py facts f g id ↔ comparedText py f.value ≠ comparedText py g.value) ↔
      comparedText py f.value = comparedText py g.value ∨
      (NumbersConvert py facts ∧ ∀ x y, asNumber py f.value = .ok (some x) →
        asNumber py g.value = .ok (some y) → (variance py x y).gt (tolerancePct py) = true) := by
  rw [reports_identity hf hg hkey hident hstated hdoc]
  by_cases htext : comparedText py f.value = comparedText py g.value
  · refine iff_of_true ((iff_of_false ?_ (not_not.mpr htext))) (.inl htext)
    rintro ⟨hconvert, ha⟩
    obtain ⟨x, y, hx, hy⟩ := hconvert.asNumber hf hg hkey hstated hdoc
    exact equal_texts_pass hpy hrepr htext hx hy ha
  · simp only [htext, ne_eq, not_false_eq_true, iff_true, false_or]
    refine and_congr_right fun hconvert => ?_
    obtain ⟨x, y, hx, hy⟩ := hconvert.asNumber hf hg hkey hstated hdoc
    rw [differing_texts_found htext hx hy]
    simp only [hx, hy, Except.ok.injEq]

/-- Two identifiers that differ in their last digit. -/
def statedId : FactContent :=
  ⟨.ofNat 1, "government_id".toList, .str "100000000".toList, none, none, none⟩

def documentedId : FactContent :=
  ⟨.ofNat 1, "government_id".toList, .str "100000001".toList, none, some (.ofNat 2), none⟩

theorem statedId_passes :
    ¬ (Reports asciiPython [statedId, documentedId] statedId documentedId (.ofNat 2) ↔
      comparedText asciiPython statedId.value ≠ comparedText asciiPython documentedId.value) := by
  have hnone : findAnomalies asciiPython [statedId, documentedId] = .ok [] := by decide +kernel
  have hdiffer : comparedText asciiPython statedId.value ≠ comparedText asciiPython documentedId.value := by
    decide
  intro h
  obtain ⟨found, s, d, hfound, -, -, a, ha, -⟩ := h.mpr hdiffer
  rw [hnone] at hfound
  cases hfound
  cases ha

theorem identity_by_text_iff_statedId :
    (Reports asciiPython [statedId, documentedId] statedId documentedId (.ofNat 2) ↔
      comparedText asciiPython statedId.value ≠ comparedText asciiPython documentedId.value) ↔
      comparedText asciiPython statedId.value = comparedText asciiPython documentedId.value ∨
      (NumbersConvert asciiPython [statedId, documentedId] ∧ ∀ x y,
        asNumber asciiPython statedId.value = .ok (some x) →
        asNumber asciiPython documentedId.value = .ok (some y) →
          (variance asciiPython x y).gt (tolerancePct asciiPython) = true) :=
  identity_by_text_iff asciiPython_cpython (by simp) (by simp) rfl (by decide) rfl rfl
    (by rintro x (h | h) <;> cases h)

/-! ### Keys that hold numbers -/

/-- The two values are numbers within the tolerance. -/
def WithinTolerance (py : Python) (v w : FactValue) : Prop :=
  ∃ p q : ℚ, asNumber py v = .ok (some (.finite p)) ∧ asNumber py w = .ok (some (.finite q)) ∧
    |p - q| / max |q| (1 / 1000000000) ≤ 1 / 20

/-- One of the two reads as a number; where both do, neither is NaN and the
documented one is finite. -/
def Comparable (py : Python) (v w : FactValue) : Prop :=
  ∃ x y, asNumber py v = .ok x ∧ asNumber py w = .ok y ∧ (x ≠ none ∨ y ≠ none) ∧
    ∀ p q, x = some p → y = some q → p.isNan = false ∧ q.isFinite = true

theorem variance_finite (hexact : ∀ q, py.round q = .finite q) (p q : ℚ) :
    variance py (.finite p) (.finite q) = .finite (|p - q| / max |q| (1 / 1000000000)) := by
  have hmax : PyFloat.max (.finite |q|) (.finite (1 / 1000000000)) =
      .finite (max |q| (1 / 1000000000)) := by
    simp only [PyFloat.max, PyFloat.gt, decide_eq_true_eq]
    split_ifs with h
    · rw [max_eq_right h.le]
    · rw [max_eq_left (not_lt.mp h)]
  simp only [variance, Python.sub, hexact, PyFloat.abs, hmax, Python.divPos]

/-- Of two numbers, the comparison lets pass what is within the tolerance, NaN
and whatever is documented as infinite. -/
theorem variance_gt (hexact : ∀ q, py.round q = .finite q) (x y : PyFloat) :
    (variance py x y).gt (tolerancePct py) = true ↔ x.isNan = false ∧ y.isFinite = true ∧
      ∀ p q, x = .finite p → y = .finite q → 1 / 20 < |p - q| / max |q| (1 / 1000000000) := by
  have htol : tolerancePct py = .finite (1 / 20) := hexact _
  cases y with
  | nan => cases x <;> simp [variance, Python.sub, PyFloat.abs, Python.divPos, PyFloat.gt, PyFloat.isFinite]
  | inf n =>
    have hmax : PyFloat.max (.inf false) (py.round (1 / 1000000000)) = .inf false := by
      rw [hexact]
      rfl
    have hno : (variance py x (.inf n)).gt (tolerancePct py) = false := by
      unfold variance
      simp only [PyFloat.abs, hmax, htol]
      cases x with
      | finite p => rfl
      | nan => rfl
      | inf m => cases n <;> cases m <;> rfl
    simp [hno, PyFloat.isFinite]
  | finite q =>
    cases x with
    | nan => simp [variance, Python.sub, PyFloat.abs, Python.divPos, PyFloat.gt, PyFloat.isNan]
    | inf m =>
      have hmax : ∃ r, PyFloat.max (.finite |q|) (py.round (1 / 1000000000)) = .finite r := by
        rw [hexact]
        unfold PyFloat.max
        split_ifs
        · exact ⟨_, rfl⟩
        · exact ⟨_, rfl⟩
      obtain ⟨r, hr⟩ := hmax
      have hyes : (variance py (.inf m) (.finite q)).gt (tolerancePct py) = true := by
        simp only [variance, Python.sub, PyFloat.abs, hr, htol, Python.divPos]
        rfl
      simp [hyes, PyFloat.isNan, PyFloat.isFinite]
    | finite p =>
      rw [variance_finite hexact, htol]
      simp [PyFloat.gt, PyFloat.isNan, PyFloat.isFinite]

/-- Where two numbers pass they are within the tolerance, but for NaN and for
what is documented as infinite. -/
theorem passes_within_iff (hexact : ∀ q, py.round q = .finite q) (x y : PyFloat) :
    (¬ (variance py x y).gt (tolerancePct py) = true → ∃ p q, x = .finite p ∧ y = .finite q ∧
      |p - q| / max |q| (1 / 1000000000) ≤ 1 / 20) ↔ x.isNan = false ∧ y.isFinite = true := by
  rw [variance_gt hexact]
  constructor
  · intro h
    by_contra hno
    obtain ⟨p, q, rfl, rfl, -⟩ := h fun ⟨h1, h2, _⟩ => hno ⟨h1, h2⟩
    exact hno ⟨rfl, rfl⟩
  · rintro ⟨h1, h2⟩ hno
    cases y with
    | finite q =>
      cases x with
      | nan => cases h1
      | inf m => exact absurd ⟨h1, h2, fun p q hp _ => by cases hp⟩ hno
      | finite p =>
        refine ⟨p, q, rfl, rfl, ?_⟩
        by_contra hgt
        exact hno ⟨h1, h2, fun p' q' hp hq => by cases hp; cases hq; exact not_le.mp hgt⟩
    | inf n => cases h2
    | nan => cases h2

/-- What is compared for a value of a numeric key. -/
theorem asNumber_reading {f : FactContent} (hnum : f.key ∈ numericKeys) {x : Option PyFloat}
    (h : asNumber py f.value = .ok x) :
    reading py f = .ok (x.elim .null .float) ∧ asNumber py (x.elim .null .float) = .ok x := by
  refine ⟨?_, by cases x <;> rfl⟩
  rw [reading, if_pos hnum, h]
  rfl

theorem not_overflows_exact (hexact : ∀ q, py.round q = .finite q) (v : FactValue) : ¬ Overflows py v := by
  rintro ⟨n, -, h⟩
  rw [Python.floatOfInt, hexact] at h
  cases h

/-- With exact arithmetic, a pair of a numeric key is passed over in silence only
within the tolerance or as equal texts exactly when the two are equal as texts
or comparable as numbers. -/
theorem numeric_never_silent_iff (hpy : CPython py) (hexact : ∀ q, py.round q = .finite q)
    {facts : List FactContent} {f g : FactContent} {id : Uuid} (hf : f ∈ facts) (hg : g ∈ facts)
    (hkey : g.key = f.key) (hnum : f.key ∈ numericKeys) (hstated : f.documentId = none)
    (hdoc : g.documentId = some id) :
    (¬ Reports py facts f g id → WithinTolerance py f.value g.value ∨
      comparedText py f.value = comparedText py g.value) ↔
    comparedText py f.value = comparedText py g.value ∨ Comparable py f.value g.value := by
  have hconvert : NumbersConvert py facts :=
    ⟨fun f _ _ => not_overflows_exact hexact f.value,
      fun f _ g _ _ _ _ => ⟨not_overflows_exact hexact f.value, not_overflows_exact hexact g.value⟩⟩
  obtain ⟨x, hx⟩ := asNumber_ok_of_not_overflows (not_overflows_exact hexact f.value)
  obtain ⟨y, hy⟩ := asNumber_ok_of_not_overflows (not_overflows_exact hexact g.value)
  obtain ⟨hs, hs'⟩ := asNumber_reading hnum hx
  obtain ⟨hd, hd'⟩ := asNumber_reading (hkey ▸ hnum) hy
  have hreport : Reports py facts f g id ↔
      ∃ a, compare py f.key (x.elim .null .float) (y.elim .null .float) id = .ok (some a) := by
    rw [reports_iff hf hg hkey hstated hdoc, hs, hd]
    simp [hconvert]
  rw [hreport]
  by_cases htext : comparedText py f.value = comparedText py g.value
  · simp [htext]
  simp only [htext, or_false, false_or]
  have hwithin : WithinTolerance py f.value g.value ↔ ∃ p q : ℚ, x = some (.finite p) ∧
      y = some (.finite q) ∧ |p - q| / max |q| (1 / 1000000000) ≤ 1 / 20 := by
    simp only [WithinTolerance, hx, hy, Except.ok.injEq]
  have hcomparable : Comparable py f.value g.value ↔ (x ≠ none ∨ y ≠ none) ∧
      ∀ p q, x = some p → y = some q → p.isNan = false ∧ q.isFinite = true := by
    simp only [Comparable, hx, hy, Except.ok.injEq, exists_eq_left', exists_and_left]
  rw [hwithin, hcomparable]
  cases x with
  | none =>
    rw [compare_texts hs' hd' (.inl rfl)]
    cases y with
    | none => simp
    | some y =>
      have hne : comparedText py (.float y) ≠ comparedText py .null := hpy.repr_ne_none y
      simpa using hne.symm
  | some x =>
    cases y with
    | none =>
      rw [compare_texts hs' hd' (.inr rfl)]
      have hne : comparedText py (.float x) ≠ comparedText py .null := hpy.repr_ne_none x
      simpa using hne
    | some y =>
      rw [compare_numbers hs' hd']
      simp only [Option.some.injEq, ne_eq, reduceCtorEq, not_false_eq_true, or_self, true_and]
      refine (passes_within_iff hexact x y).trans ⟨fun h p q hp hq => ?_, fun h => h x y rfl rfl⟩
      rw [← hp, ← hq]
      exact h

/-- A platform that computes exactly. -/
def exactPython : Python := { asciiPython with
  round := .finite
  round_round := fun _ _ _ => rfl
  round_reprInt := fun _ _ => rfl }

theorem exactPython_cpython : CPython exactPython where
  lower_plain _ _ := rfl
  round_zero := rfl
  round_nonneg q hq := .inl ⟨q, hq, rfl⟩
  repr_ne_none := asciiPython_cpython.repr_ne_none

/-- A stated and a documented income that are no numbers. -/
def statedIncome : FactContent :=
  ⟨.ofNat 1, "monthly_income".toList, .str "five thousand".toList, none, none, none⟩

def documentedIncome : FactContent :=
  ⟨.ofNat 1, "monthly_income".toList, .str "2 grand".toList, none, some (.ofNat 2), none⟩

theorem statedIncome_silent :
    ¬ (¬ Reports exactPython [statedIncome, documentedIncome] statedIncome documentedIncome (.ofNat 2) →
      WithinTolerance exactPython statedIncome.value documentedIncome.value ∨
        comparedText exactPython statedIncome.value = comparedText exactPython documentedIncome.value) := by
  have hnone : findAnomalies exactPython [statedIncome, documentedIncome] = .ok [] := by decide +kernel
  have hdiffer : comparedText exactPython statedIncome.value ≠
      comparedText exactPython documentedIncome.value := by decide
  have hnumber : asNumber exactPython statedIncome.value = .ok none := by decide +kernel
  have hsilent : ¬ Reports exactPython [statedIncome, documentedIncome] statedIncome documentedIncome
      (.ofNat 2) := by
    rintro ⟨found, s, d, hfound, -, -, a, ha, -⟩
    rw [hnone] at hfound
    cases hfound
    cases ha
  intro h
  rcases h hsilent with ⟨p, q, hp, -⟩ | htext
  · rw [hnumber] at hp
    cases hp
  · exact hdiffer htext

theorem numeric_never_silent_iff_statedIncome :
    (¬ Reports exactPython [statedIncome, documentedIncome] statedIncome documentedIncome (.ofNat 2) →
      WithinTolerance exactPython statedIncome.value documentedIncome.value ∨
        comparedText exactPython statedIncome.value = comparedText exactPython documentedIncome.value) ↔
    comparedText exactPython statedIncome.value = comparedText exactPython documentedIncome.value ∨
      Comparable exactPython statedIncome.value documentedIncome.value :=
  numeric_never_silent_iff exactPython_cpython (fun _ => rfl) (by simp) (by simp) rfl (by decide) rfl rfl

end LoanAgent
