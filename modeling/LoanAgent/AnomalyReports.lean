import LoanAgent.AuditPii
import LoanAgent.AuditRecord
import LoanAgent.AuditTrail
import LoanAgent.Integrity
import LoanAgent.PairwiseCheck

/-! What the audit trail reports as anomalies. Fact sets are replaced and other runs
go on while a run compares what it has read, and a row of the audit log is only a
text. Proved: in every reachable state each such row is the text of a difference
between a stated and a documented fact of its application that extractions have
committed, the document is there and its own, and the report of any page holds
these differences, in the order of their rows, as soon as the platform reads the
floats that it wrote; it can be rendered exactly if none of these floats is
infinite or no number. -/

namespace LoanAgent

variable {py : Python} {settings : Settings} {s s' : Store} {l l' : Proc py} {a : Action py}
  {c : Service py}

/-! ### Differences between committed facts -/

/-- An extraction of the application has committed the fact. -/
def Store.Committed (s : Store) (b : Uuid) (f : FactContent) : Prop :=
  ∃ facts, (b, facts) ∈ s.extractions ∧ f ∈ facts

/-- Two committed facts, one stated and one of a document, that differ. -/
structure Differs (py : Python) (s : Store) (b : Uuid) (x : Anomaly) : Prop where
  facts : ∃ f g, s.Committed b f ∧ s.Committed b g ∧ comparePair py f g = some x
  document : s.db.HasDocument b x.documentId

theorem Store.Committed.mono (h : s.Extends s') {b : Uuid} {f : FactContent} (hf : s.Committed b f) :
    s'.Committed b f := by
  obtain ⟨facts, hmem, hf⟩ := hf
  exact ⟨facts, h.extractions.subset hmem, hf⟩

theorem Differs.mono (h : s.Extends s') {b : Uuid} {x : Anomaly} (hx : Differs py s b x) : Differs py s' b x := by
  obtain ⟨⟨f, g, hf, hg, hcompare⟩, hdoc⟩ := hx
  exact ⟨⟨f, g, hf.mono h, hg.mono h, hcompare⟩, h.db.hasDocument hdoc⟩

theorem compare_document {key : Text} {v w : FactValue} {id : Uuid} {x : Anomaly}
    (h : compare py key v w id = .ok (some x)) : x.documentId = id := by
  unfold compare at h
  split at h
  · split_ifs at h
    · cases h
      rfl
    · cases h
  · split_ifs at h
    · cases h
      rfl
    · cases h
  · cases h
  · cases h

theorem comparePair_document {f g : FactContent} {x : Anomaly} (h : comparePair py f g = some x) :
    g.documentId = some x.documentId := by
  unfold comparePair at h
  split at h
  next id s d _ hid _ _ =>
    split_ifs at h
    cases hcompare : compare py f.key s d id with
    | error e =>
      rw [hcompare] at h
      cases h
    | ok found =>
      rw [hcompare] at h
      obtain rfl : found = some x := h
      rw [hid, compare_document hcompare]
  · cases h

/-- What a run finds in the facts that it reads. -/
theorem differs_of_findAnomalies {b : Uuid} {found : List Anomaly}
    (hfacts : ∀ f ∈ s.db.facts, s.Committed f.applicationId f.toFactContent)
    (hdocs : ∀ f ∈ s.db.facts, ∀ id, f.documentId = some id → s.db.HasDocument f.applicationId id)
    (h : findAnomalies py (s.db.contentsOf b) = .ok found) : ∀ x ∈ found, Differs py s b x := by
  have hof : ∀ f ∈ s.db.contentsOf b, s.Committed b f ∧ ∀ id, f.documentId = some id → s.db.HasDocument b id := by
    intro f hf
    obtain ⟨row, hrow, rfl⟩ := List.mem_map.mp hf
    obtain ⟨hmem, hb⟩ := List.mem_filter.mp hrow
    obtain rfl : row.applicationId = b := by simpa using hb
    exact ⟨hfacts row hmem, hdocs row hmem⟩
  intro x hx
  obtain ⟨f, hf, hxf⟩ := List.mem_flatMap.mp ((findAnomalies_perm h).mem_iff.mp hx)
  obtain ⟨g, hg, hcompare⟩ := List.mem_filterMap.mp hxf
  exact ⟨⟨f, g, (hof f hf).1, (hof g hg).1, hcompare⟩, (hof g hg).2 _ (comparePair_document hcompare)⟩

/-! ### Every run -/

/-- The facts and the anomalies of the database come from extractions. -/
structure Reported (py : Python) (s : Store) : Prop where
  facts : ∀ f ∈ s.db.facts, s.Committed f.applicationId f.toFactContent
  rows : ∀ row ∈ s.db.rowsOf .reconcileAnomaly,
    ∃ x, row = anomalyAudit py row.applicationId row.createdAt x ∧ Differs py s row.applicationId x

/-- What a run is about to report. -/
def Proc.Finds (s : Store) : Proc py → Prop
  | .run σ (.anomalies found) => ∀ x ∈ found, Differs py s σ.applicationId x
  | _ => True

theorem Proc.Finds.mono (h : s.Extends s') (hl : l.Finds s) : l.Finds s' := by
  unfold Proc.Finds at hl ⊢
  split at hl
  · exact fun x hx => (hl x hx).mono h
  · trivial

theorem Transition.factsCommitted (h : Transition settings s l a s' l')
    (hs : ∀ f ∈ s.db.facts, s.Committed f.applicationId f.toFactContent) :
    ∀ f ∈ s'.db.facts, s'.Committed f.applicationId f.toFactContent := by
  intro f hf
  rcases h.facts with ⟨hfacts, -⟩ | ⟨σ, call, validated, deleted, ids, now, facts, -, -, -, hnew, hdb, hextractions⟩
  · exact (hs f (hfacts ▸ hf)).mono h.extends
  · rw [hdb] at hf
    rcases List.mem_append.mp hf with hf | hf
    · exact (hs f (List.mem_filter.mp hf).1).mono h.extends
    · obtain ⟨hb, -⟩ := mem_newFacts hnew hf
      refine ⟨facts.map (·.toFactContent), ?_, List.mem_map_of_mem hf⟩
      rw [hextractions, hb]
      exact List.mem_cons_self

theorem Transition.reports (h : Transition settings s l a s' l')
    (hdocs : ∀ f ∈ s.db.facts, ∀ id, f.documentId = some id → s.db.HasDocument f.applicationId id)
    (hs : Reported py s) (hl : l.Finds s) : Reported py s' ∧ l'.Finds s' := by
  have hext := h.extends
  have hfacts := h.factsCommitted hs.facts
  have hkept : ∀ row ∈ s.db.rowsOf .reconcileAnomaly,
      ∃ x, row = anomalyAudit py row.applicationId row.createdAt x ∧ Differs py s' row.applicationId x :=
    fun row hrow => (hs.rows row hrow).imp fun x hx => ⟨hx.1, hx.2.mono hext⟩
  have hquiet : l.noting ≠ some .reconcileAnomaly → Reported py s' := fun hl =>
    ⟨hfacts, fun row hrow => hkept row (h.rowsOf hl ▸ hrow)⟩
  have hsilent : s'.db = s.db → Reported py s' := fun hdb =>
    ⟨hfacts, fun row hrow => hkept row (hdb ▸ hrow)⟩
  cases h with
  | @compared σ found h => exact ⟨hsilent rfl, differs_of_findAnomalies hs.facts hdocs h⟩
  | reconciled σ found now =>
    refine ⟨⟨hfacts, fun row hrow => ?_⟩, trivial⟩
    have hadded : (commitAnomalies py σ.applicationId now found s.db).auditLogs =
        s.db.auditLogs ++ found.map (anomalyAudit py σ.applicationId now) := rfl
    rw [rowsOf_append hadded] at hrow
    rcases List.mem_append.mp hrow with hrow | hrow
    · exact hkept row hrow
    · obtain ⟨x, hx, rfl⟩ := List.mem_map.mp (List.mem_filter.mp hrow).1
      exact ⟨x, rfl, (hl x hx).mono hext⟩
  | evict | forgotten => exact ⟨hsilent rfl, hl.mono hext⟩
  | delivered _ _ l hl => exact ⟨hquiet nofun, by rcases hl with rfl | rfl <;> trivial⟩
  | stop => exact ⟨hsilent rfl, trivial⟩
  | _ => exact ⟨hquiet nofun, trivial⟩

theorem reported_of_reaches (h : ServiceReaches py settings Interleave.anyStep c) : Reported py c.shared := by
  have h0 : Reported py (initial py).shared :=
    ⟨fun _ hf => absurd hf List.not_mem_nil, fun _ hrow => absurd hrow List.not_mem_nil⟩
  refine ((h.assuming (I := fun c => Consistent c.shared.db) fun h => (consistent_of_reaches h).1).assertions
    (I := Reported py) (J := fun s l => l.Finds s) (R := Store.Extends) h0 (fun _ => trivial) ?_
    fun _ _ _ hR hl => hl.mono hR).1
  rintro c p a s' l' ⟨-, hconsistent⟩ hs hl hstep
  have htrans := procStep_transition hstep
  obtain ⟨hs', hl'⟩ := htrans.reports hconsistent.origins hs hl
  exact ⟨hs', hl', htrans.extends⟩

/-! ### The report -/

theorem anomalyText_ne_nil (x : Anomaly) : anomalyText py x ≠ [] := nofun

/-- The text of an anomaly is reported as this anomaly. -/
theorem anomalyContent_anomalyText {x : Anomaly} (h : x.Readable py) :
    anomalyContent py (some (anomalyText py x)) = some x.content := by
  have hvariance : floatField py (jsonOf (x.variancePct.elim .null .float)) = some x.variancePct := by
    cases x.variancePct <;> rfl
  unfold anomalyContent
  rw [Option.filter_some_pos (by simpa using anomalyText_ne_nil x)]
  dsimp only
  rw [loads_anomalyText h]
  change ((Uuid.parse x.documentId.str).map some).bind (fun documentId =>
    (floatField py (jsonOf (x.variancePct.elim .null .float))).bind fun variancePct =>
      some (⟨x.key, jsonOf x.statedValue, jsonOf x.documentValue, documentId, variancePct⟩ : AnomalyContent)) =
    some x.content
  rw [Uuid.parse_str, hvariance]
  obtain ⟨key, stated, document, id, variancePct⟩ := x
  cases stated <;> cases document <;> rfl

/-- The items that a list of anomalies and their rows are reported as. -/
def reportItems (rows : List AuditLog) (found : List Anomaly) : List AnomalyItem :=
  List.zipWith (fun row x => ⟨x.content, row.createdAt⟩) rows found

theorem anomalyItems_readable {b : Uuid} {rows : List AuditLog} {found : List Anomaly}
    (h : List.Forall₂ (fun row x => row = anomalyAudit py b row.createdAt x) rows found)
    (hread : ∀ x ∈ found, x.Readable py) : anomalyItems py rows = .ok (reportItems rows found) := by
  induction h with
  | nil => rfl
  | @cons row x rows found hrow _ ih =>
    obtain ⟨hx, hrest⟩ := List.forall_mem_cons.mp hread
    have htext : row.llmResponse = some (anomalyText py x) := by
      rw [hrow]
      rfl
    rw [anomalyItems, htext, anomalyContent_anomalyText hx, ih hrest]
    rfl

theorem exists_forall₂ {α β : Type*} {R : α → β → Prop} {P : β → Prop} {as : List α}
    (h : ∀ a ∈ as, ∃ b, R a b ∧ P b) : ∃ bs, List.Forall₂ R as bs ∧ ∀ b ∈ bs, P b := by
  induction as with
  | nil => exact ⟨[], .nil, nofun⟩
  | cons a as ih =>
    obtain ⟨⟨b, hb, hp⟩, hrest⟩ := List.forall_mem_cons.mp h
    obtain ⟨bs, hbs, hps⟩ := ih hrest
    exact ⟨b :: bs, .cons hb hbs, List.forall_mem_cons.mpr ⟨hp, hps⟩⟩

/-! ### Rendering -/

/-- Whether the JSON of a response may hold the value: an infinite float and NaN raise an error. -/
def FactValue.renders : FactValue → Bool
  | .float (.inf _) | .float .nan => false
  | _ => true

mutual

def Json.renders : Json → Bool
  | .number v => v.renders
  | .arr items => itemsRender items
  | .obj members => membersRender members
  | _ => true

def itemsRender : List Json → Bool
  | [] => true
  | j :: rest => j.renders && itemsRender rest

def membersRender : List (Text × Json) → Bool
  | [] => true
  | m :: rest => m.2.renders && membersRender rest

end

def AnomalyItem.renders (item : AnomalyItem) : Bool :=
  item.statedValue.renders && item.documentValue.renders &&
    (item.variancePct.elim FactValue.null FactValue.float).renders

/-- Whether the response with the report can be rendered. -/
def AuditTrailResponse.renders (r : AuditTrailResponse) : Bool :=
  r.facts.all (·.value.renders) && r.anomalies.all (·.renders)

/-- No value of the anomaly is infinite or no number. -/
def Anomaly.renders (x : Anomaly) : Bool :=
  x.statedValue.renders && x.documentValue.renders && (x.variancePct.elim FactValue.null FactValue.float).renders

theorem renders_jsonOf (v : FactValue) : (jsonOf v).renders = v.renders := by
  cases v <;> rfl

theorem renders_content (x : Anomaly) (now : Time) : (⟨x.content, now⟩ : AnomalyItem).renders = x.renders := by
  have hcontent : x.content =
      ⟨x.key, jsonOf x.statedValue, jsonOf x.documentValue, some x.documentId, x.variancePct⟩ := by
    obtain ⟨key, stated, document, id, variancePct⟩ := x
    cases stated <;> cases document <;> rfl
  rw [hcontent, AnomalyItem.renders, renders_jsonOf, renders_jsonOf, Anomaly.renders]

theorem renders_reportItems {R : AuditLog → Anomaly → Prop} {rows : List AuditLog} {found : List Anomaly}
    (h : List.Forall₂ R rows found) : (reportItems rows found).all (·.renders) = found.all (·.renders) := by
  induction h with
  | nil => rfl
  | @cons row x rows found _ _ ih =>
    rw [List.all_cons, ← ih, ← renders_content x row.createdAt]
    rfl

theorem renders_jsonb {v stored : FactValue} (h : jsonb py v = some stored) : stored.renders = true := by
  unfold jsonb at h
  split at h
  any_goals split_ifs at h
  all_goals cases h
  all_goals rfl

/-- A column of JSON takes no infinite float and no NaN. -/
theorem factsRender_of_reaches {ok : Service py → ℕ → Action py → Prop} (h : ServiceReaches py settings ok c) :
    ∀ f ∈ c.shared.db.facts, f.value.renders = true := by
  refine h.invariant (I := fun c => ∀ f ∈ c.shared.db.facts, f.value.renders = true)
    (fun _ hf => absurd hf List.not_mem_nil) ?_
  rintro c p a s' l' hc - hs f hf
  rcases (procStep_transition hs).facts with ⟨hfacts, -⟩ | ⟨_, _, _, _, _, _, facts, -, -, -, hnew, hdb, -⟩
  · exact hc f (hfacts ▸ hf)
  · rw [show s'.db.facts = _ from congrArg Database.facts hdb] at hf
    rcases List.mem_append.mp hf with hf | hf
    · exact hc f (List.mem_filter.mp hf).1
    · obtain ⟨-, _, -, -, -, ⟨_, -, hstored⟩, -⟩ := mem_newFacts hnew hf
      exact renders_jsonb hstored

theorem renders_factsPage {ok : Service py → ℕ → Action py → Prop} (h : ServiceReaches py settings ok c) (b : Uuid)
    (limit offset : ℤ) : (factsPage c.shared.db b limit offset).all (·.value.renders) = true := by
  refine List.all_eq_true.mpr fun r hr => ?_
  obtain ⟨f, hf, rfl⟩ := List.mem_map.mp hr
  have hmem := List.mem_of_mem_drop (List.mem_of_mem_take hf)
  rw [orderFacts, List.mem_insertionSort] at hmem
  exact factsRender_of_reaches h f (List.mem_filter.mp hmem).1

/-- Every anomaly that the audit log of an application holds is a difference between
facts committed for it, and every report that `get_audit_trail` returns holds these
anomalies; it is rendered exactly if none of them has an infinite float or a NaN. -/
theorem anomalies_reported (h : ServiceReaches py settings Interleave.anyStep c) {b : Uuid}
    (hb : c.shared.db.HasApplication b) :
    ∃ found, List.Forall₂ (fun row x => row = anomalyAudit py b row.createdAt x) (c.shared.db.anomalyRows b) found ∧
      (∀ x ∈ found, Differs py c.shared b x) ∧
      ((∀ x ∈ found, x.Readable py) → ∀ limit offset : ℤ, 1 ≤ limit → limit ≤ 500 → 0 ≤ offset →
        ∃ report, getAuditTrail py c.shared.db b limit offset = .ok report ∧
          report.anomalies = reportItems (c.shared.db.anomalyRows b) found ∧
          report.renders = found.all (·.renders)) := by
  have hreported := reported_of_reaches h
  have hrows : ∀ row ∈ c.shared.db.anomalyRows b,
      ∃ x, row = anomalyAudit py b row.createdAt x ∧ Differs py c.shared b x := by
    intro row hrow
    rw [Database.anomalyRows, List.mem_insertionSort, List.mem_filter] at hrow
    obtain ⟨hmem, happlication⟩ := hrow
    obtain ⟨rfl, haction⟩ : row.applicationId = b ∧ row.action = .reconcileAnomaly := by simpa using happlication
    exact hreported.rows row (List.mem_filter.mpr ⟨hmem, by simpa using haction⟩)
  obtain ⟨found, hfound, hdiffers⟩ := exists_forall₂ hrows
  refine ⟨found, hfound, hdiffers, fun hread limit offset hlow hhigh hoffset => ?_⟩
  obtain ⟨x, hx⟩ : ∃ x, c.shared.db.application b = some x := by
    obtain ⟨x, hmem, hid⟩ := hb
    exact Option.isSome_iff_exists.mp (List.find?_isSome.mpr ⟨x, hmem, by simpa using hid⟩)
  refine ⟨⟨b, x.externalBorrowerId, x.status.value, _, _⟩, (getAuditTrail_ok ⟨hlow, hhigh⟩ hoffset).mpr
    ⟨rfl, by rw [Database.borrowerOf, hx]; rfl, by rw [Database.statusOf, hx]; rfl, rfl,
      anomalyItems_readable hfound hread⟩, rfl, ?_⟩
  exact (congrArg₂ and (renders_factsPage h b limit offset) (renders_reportItems hfound)).trans (Bool.true_and _)

/-- The two numbers of one borrower, compared. -/
def idsCompared : Service asciiPython := serviceAfter (fun _ _ _ => true) differingIds

theorem idsCompared_reached : ServiceReaches asciiPython sampleSettings Interleave.anyStep idsCompared :=
  Interleave.after_reaches fun _ _ _ _ => trivial

theorem idsCompared_application : idsCompared.shared.db.HasApplication (.ofNat 100) := by
  unfold Database.HasApplication
  decide +kernel

theorem anomalies_reported_idsCompared : (idsCompared.shared.db.anomalyRows (.ofNat 100)).length = 1 ∧
    ∃ found, List.Forall₂ (fun row x => row = anomalyAudit asciiPython (.ofNat 100) row.createdAt x)
        (idsCompared.shared.db.anomalyRows (.ofNat 100)) found ∧
      (∀ x ∈ found, Differs asciiPython idsCompared.shared (.ofNat 100) x) ∧
      ((∀ x ∈ found, x.Readable asciiPython) → ∀ limit offset : ℤ, 1 ≤ limit → limit ≤ 500 → 0 ≤ offset →
        ∃ report, getAuditTrail asciiPython idsCompared.shared.db (.ofNat 100) limit offset = .ok report ∧
          report.anomalies = reportItems (idsCompared.shared.db.anomalyRows (.ofNat 100)) found ∧
          report.renders = found.all (·.renders)) :=
  ⟨by decide +kernel, anomalies_reported idsCompared_reached idsCompared_application⟩

end LoanAgent
