import LoanAgent.Pipeline

/-! What the commits of a run make of the rows of its application, and which
parts of the new rows do not depend on the identifiers and times that the run
draws. Primary keys are taken to be unique. -/

namespace LoanAgent

/-- No identifier is used twice in a table. -/
structure KeysUnique (db : Database) : Prop where
  applications : (db.applications.map (·.id)).Nodup
  documents : (db.documents.map (·.id)).Nodup
  communications : (db.communications.map (·.id)).Nodup
  facts : (db.facts.map (·.id)).Nodup

/-! ### Texts written back -/

/-- The row of a document behind the first node. -/
def Document.withText (load : Document → Except LoadFailure Text) (d : Document) : Document :=
  match loadedText load d with
  | some text => { d with rawText := some text }
  | none => d

theorem lookup_rawTexts {load : Document → Except LoadFailure Text} {docs : List Document}
    (hnodup : (docs.map (·.id)).Nodup) {d : Document} (hd : d ∈ docs) :
    (ingestResult load docs).rawTexts.lookup d.id = loadedText load d := by
  cases ht : loadedText load d with
  | none =>
    rw [List.lookup_eq_none_iff]
    intro t hmem
    obtain ⟨d', hd', hid, htext⟩ := mem_rawTexts.mp hmem
    rw [hid, bne_iff_ne, ne_eq]
    intro he
    rw [List.inj_on_of_nodup_map hnodup hd hd' he, htext] at ht
    cases ht
  | some text =>
    have hmem : (d.id, text) ∈ (ingestResult load docs).rawTexts := mem_rawTexts.mpr ⟨d, hd, rfl, ht⟩
    cases hl : (ingestResult load docs).rawTexts.lookup d.id with
    | none =>
      have := List.lookup_eq_none_iff.mp hl _ hmem
      simp at this
    | some text' =>
      obtain ⟨l, l', hsplit, -⟩ := List.lookup_eq_some_iff.mp hl
      obtain ⟨d', hd', hid, htext⟩ := mem_rawTexts.mp (hsplit ▸ List.mem_append_right l List.mem_cons_self)
      have : d' = d := List.inj_on_of_nodup_map hnodup hd' hd hid.symm
      rw [this] at htext
      rw [← htext, ← ht]

theorem nodup_documentsOf {db : Database} (hk : (db.documents.map (·.id)).Nodup) (a : Uuid) :
    ((db.documentsOf a).map (·.id)).Nodup :=
  hk.sublist (List.filter_sublist.map _)

/-- Only documents of the application itself get a text. -/
theorem documents_setRawTexts (load : Document → Except LoadFailure Text) {db : Database}
    (hk : (db.documents.map (·.id)).Nodup) (a : Uuid) :
    (db.setRawTexts (ingestResult load (db.documentsOf a)).rawTexts).documents =
      db.documents.map fun d => if d.applicationId = a then d.withText load else d := by
  simp only [Database.setRawTexts]
  refine List.map_congr_left fun d hd => ?_
  by_cases ha : d.applicationId = a
  · have hmem : d ∈ db.documentsOf a := by simp [Database.documentsOf, hd, ha]
    rw [if_pos ha, lookup_rawTexts (nodup_documentsOf hk a) hmem]
    rfl
  · rw [if_neg ha]
    have hnone : (ingestResult load (db.documentsOf a)).rawTexts.lookup d.id = none := by
      rw [List.lookup_eq_none_iff]
      intro t ht
      obtain ⟨d', hd', hid, -⟩ := mem_rawTexts.mp ht
      rw [hid, bne_iff_ne, ne_eq]
      intro he
      obtain ⟨hmem, ha'⟩ := List.mem_filter.mp hd'
      rw [List.inj_on_of_nodup_map hk hd hmem he] at ha
      exact ha (by simpa using ha')
    rw [hnone]

@[simp] theorem withText_id (load : Document → Except LoadFailure Text) (d : Document) :
    (d.withText load).id = d.id := by
  unfold Document.withText
  split <;> rfl

@[simp] theorem withText_applicationId (load : Document → Except LoadFailure Text) (d : Document) :
    (d.withText load).applicationId = d.applicationId := by
  unfold Document.withText
  split <;> rfl

theorem withText_s3Path (load : Document → Except LoadFailure Text) (d : Document) :
    (d.withText load).s3Path = d.s3Path ∧ (d.withText load).fileType = d.fileType := by
  unfold Document.withText
  split <;> exact ⟨rfl, rfl⟩

theorem documentsOf_ingest {load : Document → Except LoadFailure Text} {db db' : Database}
    {a : Uuid} {now : Time} (hk : (db.documents.map (·.id)).Nodup)
    (h : commitIngest a now (ingestResult load (db.documentsOf a)) db = some db') :
    db'.documentsOf a = (db.documentsOf a).map (Document.withText load) := by
  rw [commitIngest_some h]
  change List.filter _ (db.setRawTexts _).documents = _
  rw [documents_setRawTexts load hk, Database.documentsOf, List.filter_map]
  have hfilter : ((fun d : Document => decide (d.applicationId = a)) ∘
      fun d => if d.applicationId = a then d.withText load else d) =
      fun d => decide (d.applicationId = a) := by
    funext d
    simp only [Function.comp_apply]
    split_ifs with h <;> simp [h]
  rw [hfilter]
  refine List.map_congr_left fun d hd => ?_
  rw [if_pos (by simpa using (List.mem_filter.mp hd).2)]

/-- Loading a document does not look at its stored text. -/
theorem loadDocument_withText (py : Python) (settings : Settings) (io : Io) (a : Uuid)
    (load : Document → Except LoadFailure Text) (d : Document) :
    loadDocument py settings io a (d.withText load) = loadDocument py settings io a d := by
  obtain ⟨h1, h2⟩ := withText_s3Path load d
  simp only [loadDocument, h1, h2]

section Reload
variable {load : Document → Except LoadFailure Text} (hload : ∀ d, load (d.withText load) = load d)
include hload

theorem parsedText_withText (d : Document) : parsedText load (d.withText load) = parsedText load d := by
  unfold parsedText
  rw [hload]
  cases ht : loadedText load d with
  | none => simp [Document.withText, ht]
  | some text =>
    obtain ⟨hnone, hok⟩ := loadedText_eq_some.mp ht
    simp only [Document.withText, ht, hnone, hok, Except.toOption, Option.none_or]
    by_cases he : text = [] <;> simp [Document.storedText, Option.filter, he]

theorem loadError_withText (d : Document) : loadError load (d.withText load) = loadError load d := by
  unfold loadError
  rw [hload]
  cases ht : loadedText load d with
  | none => simp [Document.withText, ht]
  | some text =>
    obtain ⟨-, hok⟩ := loadedText_eq_some.mp ht
    rw [hok]
    cases (d.withText load).storedText <;> cases d.storedText <;> rfl

theorem loadedText_withText {d : Document} {text : Text}
    (h : loadedText load (d.withText load) = some text) : loadedText load d = some text := by
  obtain ⟨hnone, hok⟩ := loadedText_eq_some.mp h
  rw [hload] at hok
  cases ht : loadedText load d with
  | none =>
    simp only [Document.withText, ht] at h
    cases h
  | some text' =>
    rw [← ht]
    rw [(loadedText_eq_some.mp ht).2] at hok
    rw [ht, Except.ok.inj hok]

end Reload

/-! ### New facts -/

/-- The new rows do not depend on the identifiers and the time but for carrying them. -/
theorem insertFacts_redraw {py : Python} {a : Uuid} (ids ids' : ℕ → Uuid) (now now' : Time) (i : ℕ)
    (drafts : List FactDraft) : insertFacts py a ids' now' i drafts =
      (insertFacts py a ids now i drafts).map fun facts =>
        facts.mapIdx fun j f => { f with id := ids' (i + j), createdAt := now' } := by
  have hone : ∀ i draft, insertFact py a (ids' i) now' draft =
      (insertFact py a (ids i) now draft).map fun f => { f with id := ids' i, createdAt := now' } := by
    intro i draft
    unfold insertFact
    split
    · split_ifs <;> rfl
    · rfl
  induction drafts generalizing i with
  | nil => rfl
  | cons draft rest ih =>
    simp only [insertFacts, hone i draft, ih (i + 1)]
    cases insertFact py a (ids i) now draft with
    | none => rfl
    | some f =>
      cases insertFacts py a ids now (i + 1) rest with
      | error e => rfl
      | ok facts => simp [Except.map, List.mapIdx_cons, Nat.add_assoc, Nat.add_comm 1]

theorem newFacts_redraw {py : Python} {a : Uuid} (ids ids' : ℕ → Uuid) (now now' : Time)
    (validated : List (ValidatedEntity py)) : newFacts a ids' now' validated =
      (newFacts a ids now validated).map fun facts =>
        facts.mapIdx fun i f => { f with id := ids' i, createdAt := now' } := by
  unfold newFacts
  cases draftFacts validated with
  | error e => rfl
  | ok drafts => simpa using insertFacts_redraw ids ids' now now' 0 drafts

theorem newFacts_contents {py : Python} {a : Uuid} {ids : ℕ → Uuid} {now : Time} (ids' : ℕ → Uuid)
    (now' : Time) {validated : List (ValidatedEntity py)} {facts : List ExtractedFact}
    (h : newFacts a ids now validated = .ok facts) :
    ∃ facts', newFacts a ids' now' validated = .ok facts' ∧
      facts'.map (·.toFactContent) = facts.map (·.toFactContent) := by
  refine ⟨_, by rw [newFacts_redraw ids ids' now now', h]; rfl, ?_⟩
  refine List.ext_getElem (by simp) fun i hi hi' => ?_
  simp

/-- The new rows take the identifiers in order. -/
theorem newFacts_ids {py : Python} {a : Uuid} {ids : ℕ → Uuid} {now : Time}
    {validated : List (ValidatedEntity py)} {facts : List ExtractedFact}
    (h : newFacts a ids now validated = .ok facts) :
    facts.map (·.id) = (List.range validated.length).map ids := by
  have hlength : ∀ {validated : List (ValidatedEntity py)} {drafts : List FactDraft},
      draftFacts validated = .ok drafts → drafts.length = validated.length := by
    intro validated
    induction validated with
    | nil =>
      rintro drafts ⟨⟩
      rfl
    | cons v rest ih =>
      intro drafts h
      obtain ⟨draft, others, -, ho, rfl⟩ := draftFacts_cons.mp h
      simp [ih ho]
  have hids : ∀ {drafts : List FactDraft} {i : ℕ} {facts : List ExtractedFact},
      insertFacts py a ids now i drafts = .ok facts →
      facts.map (·.id) = (List.range' i drafts.length).map ids := by
    intro drafts
    induction drafts with
    | nil =>
      rintro i facts ⟨⟩
      rfl
    | cons draft rest ih =>
      intro i facts h
      obtain ⟨fact, others, hf, ho, rfl⟩ := insertFacts_cons.mp h
      simp [ih ho, (insertFact_some hf).1, List.range'_succ]
  unfold newFacts at h
  cases hd : draftFacts validated with
  | error e => rw [hd] at h; cases h
  | ok drafts =>
    rw [hd] at h
    rw [hids h, hlength hd, List.range_eq_range']

theorem createdAt_newFacts {py : Python} {a : Uuid} {ids : ℕ → Uuid} {now : Time}
    {validated : List (ValidatedEntity py)} {facts : List ExtractedFact}
    (h : newFacts a ids now validated = .ok facts) : ∀ f ∈ facts, f.createdAt = now := by
  intro f hf
  unfold newFacts at h
  cases hd : draftFacts validated with
  | error e => rw [hd] at h; cases h
  | ok drafts =>
    rw [hd] at h
    obtain ⟨draft, -, j, hj⟩ := mem_insertFacts h hf
    exact (insertFact_some hj).2.2.2.2.1

end LoanAgent
