import LoanAgent.Transitions

/-! What later steps can no longer change. A status is overwritten, the text of a
document is written when it has been read, and the facts of an application are
replaced; everything else that is committed stays as it is and where it is.
Proved: from any state on, whatever the steps, the audit log and the messages only
get longer, no application and no document goes or changes but for its status or
its text, a text that was written is not taken back, and no stored file and no
record of an answer or a delivery is lost. -/

namespace LoanAgent

/-! ### Tables that grow -/

/-- The rows of a table later on: those that were there have evolved, and new ones stand behind. -/
inductive Evolved {α : Type*} (R : α → α → Prop) : List α → List α → Prop
  | nil (rows : List α) : Evolved R [] rows
  | cons {x y : α} {rows rows' : List α} (h : R x y) (hrest : Evolved R rows rows') :
      Evolved R (x :: rows) (y :: rows')

namespace Evolved
variable {α : Type*} {R : α → α → Prop} {rows rows' rows'' : List α}

theorem append (hR : ∀ x, R x x) (rows more : List α) : Evolved R rows (rows ++ more) := by
  induction rows with
  | nil => exact .nil _
  | cons x rows ih => exact .cons (hR x) ih

theorem refl (hR : ∀ x, R x x) (rows : List α) : Evolved R rows rows := by
  simpa using append hR rows []

theorem map {f : α → α} (hf : ∀ x, R x (f x)) (rows : List α) : Evolved R rows (rows.map f) := by
  induction rows with
  | nil => exact .nil _
  | cons x rows ih => exact .cons (hf x) ih

theorem trans (hR : ∀ x y z, R x y → R y z → R x z) (h : Evolved R rows rows')
    (h' : Evolved R rows' rows'') : Evolved R rows rows'' := by
  induction h generalizing rows'' with
  | nil => exact .nil _
  | cons hxy _ ih =>
    cases h' with
    | cons hyz hrest => exact .cons (hR _ _ _ hxy hyz) (ih hrest)

theorem mem (h : Evolved R rows rows') {x : α} (hx : x ∈ rows) : ∃ y ∈ rows', R x y := by
  induction h with
  | nil => cases hx
  | cons hxy _ ih =>
    rcases List.mem_cons.mp hx with rfl | hx
    · exact ⟨_, List.mem_cons_self, hxy⟩
    · obtain ⟨y, hy, h⟩ := ih hx
      exact ⟨y, List.mem_cons_of_mem _ hy, h⟩

end Evolved

/-! ### What stays of a row -/

/-- An application later on: only its status may be another. -/
def Application.Evolves (x y : Application) : Prop := ∃ status, y = { x with status := status }

/-- A document later on: only its text may be another, and there is one if there was. -/
def Document.Evolves (d e : Document) : Prop :=
  ∃ text, e = { d with rawText := text } ∧ (d.rawText ≠ none → text ≠ none)

theorem Application.Evolves.refl (x : Application) : x.Evolves x := ⟨x.status, rfl⟩

theorem Application.Evolves.trans (x y z : Application) (h : x.Evolves y) (h' : y.Evolves z) : x.Evolves z := by
  obtain ⟨_, rfl⟩ := h
  obtain ⟨status, rfl⟩ := h'
  exact ⟨status, rfl⟩

theorem Document.Evolves.refl (d : Document) : d.Evolves d := ⟨d.rawText, rfl, fun h => h⟩

theorem Document.Evolves.trans (d e f : Document) (h : d.Evolves e) (h' : e.Evolves f) : d.Evolves f := by
  obtain ⟨_, rfl, ht⟩ := h
  obtain ⟨text, rfl, ht'⟩ := h'
  exact ⟨text, rfl, fun h => ht' (ht h)⟩

/-- A database later on. -/
structure Database.Extends (db db' : Database) : Prop where
  applications : Evolved Application.Evolves db.applications db'.applications
  documents : Evolved Document.Evolves db.documents db'.documents
  communications : db.communications <+: db'.communications
  auditLogs : db.auditLogs <+: db'.auditLogs

/-- A store later on. The latest entry of a list of events stands first. -/
structure Store.Extends (s s' : Store) : Prop where
  db : s.db.Extends s'.db
  files : s.files <+: s'.files
  issued : s.issued <:+ s'.issued
  stored : s.stored <:+ s'.stored
  responses : s.responses <:+ s'.responses
  extractions : s.extractions <:+ s'.extractions
  delivered : s.delivered <:+ s'.delivered

namespace Database
variable {db db' db'' : Database}

theorem Extends.refl (db : Database) : db.Extends db :=
  ⟨.refl Application.Evolves.refl _, .refl Document.Evolves.refl _, List.prefix_refl _, List.prefix_refl _⟩

theorem Extends.trans (h : db.Extends db') (h' : db'.Extends db'') : db.Extends db'' :=
  ⟨h.applications.trans Application.Evolves.trans h'.applications,
    h.documents.trans Document.Evolves.trans h'.documents,
    h.communications.trans h'.communications, h.auditLogs.trans h'.auditLogs⟩

theorem extends_addAudit (db : Database) (rows : List AuditLog) : db.Extends (db.addAudit rows) :=
  { Extends.refl db with auditLogs := List.prefix_append _ _ }

theorem extends_setStatus (db : Database) (a : Uuid) (status : ApplicationStatus) :
    db.Extends (db.setStatus a status) := by
  refine { Extends.refl db with applications := .map (fun x => ?_) _ }
  split_ifs
  · exact ⟨status, rfl⟩
  · exact .refl x

theorem extends_flushStatus (db : Database) (σ : Session) (status : ApplicationStatus) :
    db.Extends (σ.flushStatus status db) := by
  unfold Session.flushStatus
  split_ifs
  · exact .refl db
  · exact extends_setStatus _ _ _

theorem extends_setRawTexts (db : Database) (texts : List (Uuid × Text)) : db.Extends (db.setRawTexts texts) := by
  refine { Extends.refl db with documents := .map (fun d => ?_) _ }
  split
  next text _ => exact ⟨some text, rfl, fun _ => nofun⟩
  · exact .refl d

end Database

/-! ### One step -/

variable {py : Python} {settings : Settings} {s s' s'' : Store} {l l' : Proc py} {a : Action py}
  {db db' : Database}

theorem Commit.extends (h : Commit settings db l a db') : db.Extends db' := by
  cases h with
  | @message r draft _ h =>
    obtain ⟨-, rfl⟩ := commitDraft_ok h
    refine ⟨?_, .append Document.Evolves.refl _ _, List.prefix_append _ _, List.prefix_refl _⟩
    dsimp only
    split_ifs
    · exact .append Application.Evolves.refl _ _
    · exact .refl Application.Evolves.refl _
  | processing σ =>
    unfold markProcessing
    split_ifs
    · exact db.extends_setStatus _ _
    · exact .refl db
  | texts h =>
    obtain rfl := commitIngest_some h
    exact (db.extends_setRawTexts _).trans (Database.extends_addAudit _ _)
  | degraded h =>
    obtain ⟨-, rfl⟩ := commitDegraded_some.mp h
    exact (db.extends_flushStatus _ _).trans (Database.extends_addAudit _ _)
  | facts _ h =>
    obtain ⟨-, rfl⟩ := commitFacts_some.mp h
    exact { Database.Extends.refl db with auditLogs := List.prefix_append _ _ }
  | anomalies => exact db.extends_addAudit _
  | chase σ missing channel alreadySent id now =>
    have hflush := db.extends_flushStatus σ (chaseStatus missing)
    unfold commitChase
    dsimp only
    split_ifs
    · exact hflush
    · exact ⟨hflush.applications, hflush.documents, hflush.communications.trans (List.prefix_append _ _),
        hflush.auditLogs.trans (List.prefix_append _ _)⟩
  | exported => exact db.extends_addAudit _

theorem Store.Extends.refl (s : Store) : s.Extends s :=
  ⟨.refl s.db, List.prefix_refl _, List.suffix_refl _, List.suffix_refl _, List.suffix_refl _,
    List.suffix_refl _, List.suffix_refl _⟩

theorem Store.Extends.trans (h : s.Extends s') (h' : s'.Extends s'') : s.Extends s'' :=
  ⟨h.db.trans h'.db, h.files.trans h'.files, h.issued.trans h'.issued, h.stored.trans h'.stored,
    h.responses.trans h'.responses, h.extractions.trans h'.extractions, h.delivered.trans h'.delivered⟩

theorem Transition.extends (h : Transition settings s l a s' l') : s.Extends s' := by
  have hdb : s.db.Extends s'.db := by
    rcases h.commit with hdb | hcommit
    · exact hdb ▸ .refl s.db
    · exact hcommit.extends
  have hcons : ∀ {α : Type} (x : α) (xs : List α), xs <:+ x :: xs := fun x xs => List.suffix_cons x xs
  have hpre : ∀ {α : Type} (xs ys : List α), ys <:+ xs ++ ys := fun xs ys => List.suffix_append xs ys
  cases h with
  | undrafted => exact { Store.Extends.refl s with
      db := hdb, files := List.prefix_append _ _, issued := hpre _ _, responses := hcons _ _ }
  | drafted => exact { Store.Extends.refl s with
      db := hdb, files := List.prefix_append _ _, issued := hpre _ _ }
  | committed => exact { Store.Extends.refl s with db := hdb, stored := hcons _ _ }
  | cached | uncommitted | disowned | answered => exact { Store.Extends.refl s with
      db := hdb, responses := hcons _ _ }
  | unwritten => exact { Store.Extends.refl s with db := hdb, issued := hpre _ _ }
  | extracted => exact { Store.Extends.refl s with
      db := hdb, issued := hpre _ _, extractions := hcons _ _ }
  | chased => exact { Store.Extends.refl s with db := hdb, issued := hcons _ _ }
  | delivered => exact { Store.Extends.refl s with db := hdb, delivered := hcons _ _ }
  | _ => exact { Store.Extends.refl s with db := hdb }

/-! ### Every run -/

/-- What was committed, stored, drawn, answered or delivered stays, from any state on. -/
theorem history_only_grows {ok : Service py → ℕ → Action py → Prop} {c c' : Service py}
    (h : Interleave.Reaches (procStep settings) ok c c') : c.shared.Extends c'.shared := by
  refine h.invariant (I := fun c' => c.shared.Extends c'.shared) (.refl _) ?_
  intro c' p a s' l' hc _ hs
  exact hc.trans (procStep_transition hs).extends

/-- A message of alice is answered. -/
def answeredHello : Service asciiPython :=
  Interleave.after (procStep sampleSettings) (fun _ _ _ => true) (initial asciiPython)
    (intakeSteps 0 (aliceHello "k1".toList length_k1) 1)

theorem answeredHello_reached : ServiceReaches asciiPython sampleSettings Interleave.anyStep answeredHello :=
  Interleave.after_reaches fun _ _ _ _ => trivial

/-- A run of her application finds every required fact. -/
def helloRun : List (ℕ × Action asciiPython) :=
  extractSteps 1 (.ofNat 100) sampleIo (answering requiredFacts) 10 ++ [factsStep 1 3 10] ++
    finishSteps 1 (.ofNat 4000) 20

def behindHelloRun : Service asciiPython :=
  Interleave.after (procStep sampleSettings) (fun _ _ _ => true) answeredHello helloRun

theorem reaches_helloRun : Interleave.Reaches (procStep sampleSettings) Interleave.anyStep answeredHello
    behindHelloRun := Interleave.after_reaches fun _ _ _ _ => trivial

theorem behindHelloRun_reached : ServiceReaches asciiPython sampleSettings Interleave.anyStep behindHelloRun :=
  answeredHello_reached.trans reaches_helloRun

theorem history_only_grows_helloRun : behindHelloRun.shared.db.auditLogs.length = 2 ∧
    answeredHello.shared.Extends behindHelloRun.shared :=
  ⟨by decide +kernel, history_only_grows reaches_helloRun⟩

end LoanAgent
