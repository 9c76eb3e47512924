import LoanAgent.FactSets
import LoanAgent.Holdings
import LoanAgent.Isolation
import LoanAgent.Library.Simulation
import LoanAgent.Payloads
import LoanAgent.Portion

/-! One borrower among others. The service has no notion of a tenant: all requests,
runs and exports share the tables, the cache, the queue and the disk, and rows are
found by identifiers and keys alone. Proved: as long as no request of another
borrower comes with a scoped key that counts as the borrower's own, every run of the
service, whatever the others send and wherever it crashes, shows the borrower what a
run of the service for this borrower alone shows, in the same rows, answers, queued
runs and deliveries, with no files on the disk but the borrower's. -/

namespace LoanAgent

variable {py : Python} {settings : Settings} {s s' v : Store} {l l' : Proc py} {a : Action py}
  {db db' : Database} {borrower : Text} {own mine mine' : Uuid → Bool} {ours : Text → Bool} {b : Uuid}

/-! ### Whose process it is -/

/-- A process works for the borrower, or for an application that is kept. -/
def Proc.worksFor (borrower : Text) (own : Uuid → Bool) : Proc py → Bool
  | .idle => false
  | .request r _ => r.borrower py = borrower
  | .run σ _ => own σ.applicationId
  | .exporting (.facts x) => own x.id
  | .exporting (.deliver memo) | .exporting (.audit memo) => own memo.applicationId

/-- What the borrower sees of a process. -/
def Proc.seen (borrower : Text) (own : Uuid → Bool) (l : Proc py) : Proc py :=
  if l.worksFor borrower own then l else .idle

theorem seen_own (h : l.worksFor borrower own = true) : l.seen borrower own = l := if_pos h

theorem seen_other (h : l.worksFor borrower own = false) : l.seen borrower own = .idle :=
  if_neg (by rw [h]; exact Bool.false_ne_true)

/-- A process works for the same until it is done. -/
theorem Transition.worksFor (h : Transition settings s l a s' l') (hidle : l ≠ .idle) (borrower : Text)
    (own : Uuid → Bool) : l' = .idle ∨ l'.worksFor borrower own = l.worksFor borrower own := by
  cases h with
  | receive | vanished | started | gated => exact absurd rfl hidle
  | marked σ => exact .inr (congrArg own (markProcessing_applicationId σ s.db))
  | memo _ h => exact .inr (congrArg own (buildCreditMemo_applicationId h))
  | delivered _ _ _ h => rcases h with rfl | rfl <;> first | exact .inl rfl | exact .inr rfl
  | _ => first | exact .inl rfl | exact .inr rfl

/-! ### Whose files -/

/-- The application in whose folder a stored path lies. -/
def Settings.folderOf (settings : Settings) (path : FilePath) : Option Uuid :=
  Uuid.ofText (path.getD settings.root.length [])

/-- The stored files of some applications. -/
def filesOf (settings : Settings) (mine : Uuid → Bool) (files : List (FilePath × Bytes)) : List (FilePath × Bytes) :=
  files.filter fun f => (settings.folderOf f.1).any mine

/-- Every stored file lies right in the folder of an application that was drawn. -/
def FoldersIssued (settings : Settings) (s : Store) : Prop :=
  ∀ f ∈ s.files, ∃ u ∈ s.issued, ∃ name, f.1 = settings.folder u ++ [name]

theorem folderOf_folder (settings : Settings) (u : Uuid) (name : Text) :
    settings.folderOf (settings.folder u ++ [name]) = some u := by
  simp [Settings.folderOf, Settings.folder, Uuid.ofText_str]

theorem filesOf_append (files files' : List (FilePath × Bytes)) :
    filesOf settings mine (files ++ files') = filesOf settings mine files ++ filesOf settings mine files' :=
  List.filter_append ..

theorem filesOf_congr (hs : FoldersIssued settings s) (h : ∀ u ∈ s.issued, mine' u = mine u) :
    filesOf settings mine' s.files = filesOf settings mine s.files := by
  refine List.filter_congr fun f hf => ?_
  obtain ⟨u, hu, name, hname⟩ := hs f hf
  simp only [hname, folderOf_folder, Option.any_some, h u hu]

/-- A message is filed under an application of its borrower, or under a new one. -/
theorem folder_draftMessage {r : Request} {draws : IntakeDraws} {drafted : Except IntakeError Draft}
    {files : List (FilePath × Bytes)} (h : draftMessage py settings db r draws = (drafted, files)) :
    ∃ b, (b = draws.application ∨ db.HasBorrower b (r.borrower py)) ∧
      (∀ f ∈ files, ∃ name, f.1 = settings.folder b ++ [name]) ∧
      ∀ draft, drafted = .ok draft → draft.application.id = b := by
  have hfound : ∀ x, db.latestOpen (r.borrower py) = some x → db.HasBorrower x.id (r.borrower py) := fun x hx =>
    ⟨x, (latestOpen_some hx).1, rfl, (latestOpen_some hx).2.1⟩
  unfold draftMessage at h
  dsimp only at h
  split_ifs at h
  · cases h
    exact ⟨draws.application, .inl rfl, nofun, nofun⟩
  set x := (db.latestOpen (r.borrower py)).getD (newApplication draws.application draws.now (r.borrower py)) with hx
  have hspec := (buildDocuments_spec py settings (a := x.id) draws.document 0 r.message.attachments).2
  obtain ⟨⟨docs, written⟩, hb⟩ : ∃ p, buildDocuments py settings x.id draws.document 0 r.message.attachments = p :=
    ⟨_, rfl⟩
  rw [hb] at h hspec
  obtain ⟨rfl, rfl⟩ := Prod.mk.inj h
  obtain ⟨owners, -, hall⟩ := hspec
  refine ⟨x.id, ?_, fun f hf => ?_, fun draft hd => ?_⟩
  · cases hopen : db.latestOpen (r.borrower py) with
    | none =>
      rw [hopen] at hx
      exact .inl (congrArg Application.id hx)
    | some y =>
      rw [hopen] at hx
      rw [hx]
      exact .inr (hfound y hopen)
  · obtain ⟨i, hi, rfl⟩ := List.getElem_of_mem hf
    have hlen := hall.length_eq
    obtain ⟨suffix, hw⟩ := (List.forall₂_iff_get.mp hall).2 i (by omega) hi
    exact ⟨_, hw⟩
  · cases docs with
    | error e => cases hd
    | ok docs =>
      cases hd
      rfl

theorem KeysOk.applicationIssued {c : Service py} (h : KeysOk c) {x : Application}
    (hx : x ∈ c.shared.db.applications) : x.id ∈ c.shared.issued :=
  h.issued 0 x.id (List.mem_append_right _ (List.mem_append_left _ (List.mem_map_of_mem hx)))

theorem Transition.foldersIssued (h : Transition settings s l a s' l')
    (happs : ∀ x ∈ s.db.applications, x.id ∈ s.issued) (hs : FoldersIssued settings s) :
    FoldersIssued settings s' := by
  have hkept : ∀ f ∈ s.files, ∃ u ∈ s'.issued, ∃ name, f.1 = settings.folder u ++ [name] := fun f hf =>
    (hs f hf).imp fun u hu => ⟨h.issued_mono u hu.1, hu.2⟩
  intro f hf
  rcases h.files with hfiles | ⟨r, draws, drafted, files, -, hd, hfiles, hissued⟩
  · exact hkept f (hfiles ▸ hf)
  · rw [hfiles] at hf
    refine (List.mem_append.mp hf).elim (hkept f) fun hf => ?_
    obtain ⟨b, hb, hfolder, -⟩ := folder_draftMessage hd
    refine ⟨b, ?_, hfolder f hf⟩
    rw [hissued]
    rcases hb with rfl | ⟨x, hx, rfl, -⟩
    · exact List.mem_append_left _ List.mem_cons_self
    · exact List.mem_append_right _ (happs x hx)

theorem foldersIssued_of_reaches {ok : Service py → ℕ → Action py → Prop} {c : Service py}
    (h : ServiceReaches py settings ok c) : FoldersIssued settings c.shared := by
  refine (h.assuming (I := KeysOk) fun h => keysOk_of_reaches h).invariant
    (I := fun c => FoldersIssued settings c.shared) (fun _ hf => absurd hf List.not_mem_nil) ?_
  rintro c p a s' l' hc ⟨-, hkeys⟩ hs
  exact (procStep_transition hs).foldersIssued (fun _ hx => hkeys.applicationIssued hx) hc

/-- A disk on which there are no other files. -/
def Io.within (io : Io) (files : List (FilePath × Bytes)) : Io :=
  { io with read := fun path => match io.read path with
      | .ok payload => if files.contains (path, payload) then .ok payload else .error .fileNotFound
      | .error e => .error e }

theorem readsFrom_within (io : Io) (files : List (FilePath × Bytes)) :
    (Action.parse (io.within files) : Action py).ReadsFrom files := by
  intro path payload h
  simp only [Io.within] at h
  split at h
  next payload' _ =>
    split_ifs at h with hmem
    cases h
    exact List.contains_iff_mem.mp hmem
  · cases h

/-- To read the documents of an application, its own files are enough. -/
theorem loadDocument_within (hs : FoldersIssued settings s) (hmine : mine b = true) {io : Io}
    (hreads : (Action.parse io : Action py).ReadsFrom s.files) {d : Document}
    (hpath : ∃ path, d.s3Path = some path ∧ NoTraversal path) :
    loadDocument py settings (io.within (filesOf settings mine s.files)) b d = loadDocument py settings io b d := by
  obtain ⟨path, hd, hfree⟩ := hpath
  have hread : readLocalPayload settings (io.within (filesOf settings mine s.files)) b d.s3Path =
      readLocalPayload settings io b d.s3Path := by
    simp only [readLocalPayload, hd]
    cases hp : localDocumentPath settings b (some path) with
    | none => rfl
    | some p =>
      simp only [Io.within]
      cases hio : io.read p with
      | error e => rfl
      | ok payload =>
        have hmem := hreads p payload hio
        obtain ⟨u, -, name, hname⟩ := hs _ hmem
        have hfolder : settings.folder b = settings.folder u := by
          have hinside : settings.folder b <+: settings.folder u ++ [name] :=
            hname ▸ localDocumentPath_inside hfree hp
          exact (List.prefix_of_prefix_length_le hinside (List.prefix_append _ _)
            (by simp [Settings.folder])).eq_of_length (by simp [Settings.folder])
        have hub : u = b := Uuid.str_injective (by simpa [Settings.folder] using hfolder.symm)
        have hkept : (p, payload) ∈ filesOf settings mine s.files := by
          refine List.mem_filter.mpr ⟨hmem, ?_⟩
          have hp' : p = settings.folder u ++ [name] := hname
          rw [hp', folderOf_folder, hub]
          exact hmine
        simp only [if_pos (List.contains_iff_mem.mpr hkept)]
  simp only [loadDocument, hread]
  rfl

/-! ### The borrower's part of the store -/

/-- The borrower's part of a store. Of the identifiers there may be fewer. -/
structure PartOf (py : Python) (settings : Settings) (borrower : Text) (own mine : Uuid → Bool)
    (ours : Text → Bool) (s v : Store) : Prop where
  db : v.db = s.db.keeping own
  redis : v.redis = s.redis.filter fun e => ours e.1
  files : v.files = filesOf settings mine s.files
  issued : ∀ u ∈ v.issued, u ∈ s.issued
  queue : v.queue = s.queue.filter own
  stored : v.stored = s.stored.filter fun e => e.1.borrower py = borrower
  responses : v.responses = s.responses.filter fun e => e.1.borrower py = borrower
  extractions : v.extractions = s.extractions.filter fun e => own e.1
  delivered : v.delivered = s.delivered.filter fun memo => own memo.applicationId

namespace PartOf
variable (h : PartOf py settings borrower own mine ours s v)
include h

theorem fresh {ids : List Uuid} (hfresh : s.Fresh ids) : v.Fresh ids :=
  ⟨hfresh.1, fun u hu hmem => hfresh.2 u hu (h.issued u hmem)⟩

theorem draw (ids : List Uuid) : PartOf py settings borrower own mine ours { s with issued := ids ++ s.issued }
    { v with issued := ids ++ v.issued } :=
  { h with
    issued := fun u hu => (List.mem_append.mp hu).elim (List.mem_append_left _) fun hu =>
      List.mem_append_right _ (h.issued u hu) }

theorem draw_other (ids : List Uuid) :
    PartOf py settings borrower own mine ours { s with issued := ids ++ s.issued } v :=
  { h with issued := fun u hu => List.mem_append_right _ (h.issued u hu) }

theorem commit (db : Database) :
    PartOf py settings borrower own mine ours { s with db := db } { v with db := db.keeping own } :=
  { h with db := rfl }

theorem commit_other {db : Database} (hdb : db.keeping own = s.db.keeping own) :
    PartOf py settings borrower own mine ours { s with db := db } v := { h with db := h.db.trans hdb.symm }

theorem respond {r : Request} (hr : r.borrower py = borrower) (response : Response) :
    PartOf py settings borrower own mine ours (s.respond r response) (v.respond r response) :=
  { h with responses := by simp [Store.respond, h.responses, hr] }

theorem respond_other {r : Request} (hr : r.borrower py ≠ borrower) (response : Response) :
    PartOf py settings borrower own mine ours (s.respond r response) v :=
  { h with responses := by simp [Store.respond, h.responses, hr] }

/-- Files are written into a folder that is the borrower's. -/
theorem drafted (hs : FoldersIssued settings s) (hkept : ∀ u ∈ s.issued, mine' u = mine u) (ids : List Uuid)
    {files : List (FilePath × Bytes)} (hfiles : ∀ f ∈ files, ∃ name, f.1 = settings.folder b ++ [name])
    (hb : mine' b = true) :
    PartOf py settings borrower own mine' ours (s.drafted ids files) (v.drafted ids files) := by
  have hall : filesOf settings mine' files = files := List.filter_eq_self.mpr fun f hf => by
    obtain ⟨name, hname⟩ := hfiles f hf
    rw [hname, folderOf_folder]
    exact hb
  refine { h.draw ids with files := ?_ }
  change v.files ++ files = filesOf settings mine' (s.files ++ files)
  rw [filesOf_append, filesOf_congr hs hkept, hall, h.files]

/-- Files are written into a folder that is not the borrower's. -/
theorem drafted_other (hs : FoldersIssued settings s) (hkept : ∀ u ∈ s.issued, mine' u = mine u)
    (ids : List Uuid) {files : List (FilePath × Bytes)}
    (hfiles : ∀ f ∈ files, ∃ name, f.1 = settings.folder b ++ [name]) (hb : mine' b = false) :
    PartOf py settings borrower own mine' ours (s.drafted ids files) v := by
  have hnone : filesOf settings mine' files = [] := List.filter_eq_nil_iff.mpr fun f hf => by
    obtain ⟨name, hname⟩ := hfiles f hf
    rw [hname, folderOf_folder, Option.any_some, hb]
    exact Bool.false_ne_true
  refine { h.draw_other ids with files := ?_ }
  change v.files = filesOf settings mine' (s.files ++ files)
  rw [filesOf_append, filesOf_congr hs hkept, hnone, List.append_nil, h.files]

theorem lookup {key : Text} (hkey : ours key = true) : v.redis.lookup key = s.redis.lookup key := by
  rw [h.redis]
  induction s.redis with
  | nil => rfl
  | cons e rest ih =>
    obtain ⟨other, ack⟩ := e
    by_cases he : key = other
    · subst he
      simp [hkey]
    · cases hkept : ours other with
      | true => simp [hkept, List.lookup_cons, beq_false_of_ne he, ih]
      | false => simp [hkept, List.lookup_cons, beq_false_of_ne he, ih]

theorem evict (key : Text) : PartOf py settings borrower own mine ours { s with redis := s.redis.filter (·.1 ≠ key) }
    { v with redis := v.redis.filter (·.1 ≠ key) } :=
  { h with redis := by simp only [h.redis, List.filter_filter, Bool.and_comm] }

/-- A run leaves the queue. -/
theorem dequeue (a : Uuid) : PartOf py settings borrower own mine ours { s with queue := s.queue.erase a }
    { v with queue := v.queue.erase a } :=
  { h with queue := by simp only [h.queue, List.erase_filter] }

theorem dequeue_other {a : Uuid} (ha : own a = false) :
    PartOf py settings borrower own mine ours { s with queue := s.queue.erase a } v := by
  have hnot : a ∉ v.queue := fun hmem => by
    rw [h.queue] at hmem
    rw [(List.mem_filter.mp hmem).2] at ha
    cases ha
  have herase := (h.dequeue a).queue
  exact { h with queue := by rw [← herase, List.erase_of_not_mem hnot] }

end PartOf

/-! ### Where a step is taken -/

/-- The scoped key of a request counts as the borrower's exactly if the request does. -/
def Proc.Apart (borrower : Text) (ours : Text → Bool) : Proc py → Prop
  | .request r _ => ours (r.scopedKey py) = decide (r.borrower py = borrower)
  | _ => True

/-- What is known where a process takes a step. -/
structure Footing (borrower : Text) (own : Uuid → Bool) (ours : Text → Bool) (s : Store) (l : Proc py) :
    Prop where
  splits : Splits borrower own s.db
  keys : KeysSplit ours own s.db
  unique : KeysUnique s.db
  justified : l.Justified
  serves : l.Serves s.db
  extracts : l.Extracts s
  apart : l.Apart borrower ours

theorem Footing.own_committed {r : Request} {draft : Draft}
    (h : Footing borrower own ours s (.request r (.commit draft) : Proc py)) (hs' : Splits borrower own db')
    (hc : commitDraft draft s.db = .ok db') : own draft.application.id = decide (r.borrower py = borrower) :=
  hs'.own_eq (hasBorrower_commitDraft h.justified h.serves hc)

theorem Footing.own_answered {r : Request} {ack : WebhookAck}
    (h : Footing borrower own ours s (.request r (.respond ack) : Proc py)) :
    own ack.applicationId = decide (r.borrower py = borrower) := h.splits.own_eq h.serves

/-! ### Steps for the others -/

section Others
variable (hf : Footing borrower own ours s l) (hl : l.worksFor borrower own = false)
include hf hl

/-- A commit for another borrower leaves the rows of this one as they are. -/
theorem Commit.unseen (h : Commit settings s.db l a db') (hs' : Splits borrower own db') :
    db'.keeping own = s.db.keeping own := by
  cases h with
  | message hc =>
    have ha := (hf.own_committed hs' hc).trans hl
    obtain ⟨draws, db, hdraft⟩ := hf.justified
    refine commitDraft_other_keeping ha hdraft.communication.2.1 (fun d hd => ?_) hc
    obtain ⟨u, hbuilt⟩ := hdraft.documents d hd
    exact hbuilt.applicationId
  | processing σ =>
    unfold markProcessing
    split_ifs
    · exact keeping_setStatus_other hl _
    · rfl
  | texts h =>
    rw [commitIngest_some h, keeping_addOther hl fun _ => failures_applicationId]
    exact keeping_setRawTexts_other hl hf.unique.documents hf.serves
  | degraded h =>
    obtain ⟨-, rfl⟩ := commitDegraded_some.mp h
    rw [keeping_addOther hl (by simp [degradedAudit]), keeping_flushStatus_other hl rfl]
  | facts hfacts h =>
    obtain ⟨-, rfl⟩ := commitFacts_some.mp h
    rw [keeping_addOther hl (by simp [extractionAudit])]
    exact keeping_replaceFacts_other hl (fun u hu => (hf.extracts.2 u hu).2) fun f hf =>
      (mem_newFacts hfacts hf).1
  | anomalies σ found now => exact keeping_addOther hl fun _ => anomalies_applicationId
  | chase σ missing channel alreadySent id now => exact commitChase_other_keeping hl rfl _ _ _ _ _
  | exported memo now => exact keeping_addOther hl (by simp [losExportAudit])

/-- The borrower sees nothing of a step for another. -/
theorem Transition.unseen (h : Transition settings s l a s' l') (hs' : Splits borrower own s'.db)
    (hidle : l ≠ .idle) (hdraft : ∀ draws, a ≠ .draft draws) (hevict : ∀ key, a ≠ .evict key)
    (hforget : ∀ u, a ≠ .forget u) (hv : PartOf py settings borrower own mine ours s v) :
    PartOf py settings borrower own mine ours s' v := by
  have hdb : s'.db.keeping own = s.db.keeping own := by
    rcases h.commit with hdb | hcommit
    · rw [hdb]
    · exact hcommit.unseen hf hl hs'
  have hr : ∀ r phase, l = .request r phase → r.borrower py ≠ borrower := by
    rintro r phase rfl
    exact of_decide_eq_false hl
  cases h with
  | evict l key => exact absurd rfl (hevict key)
  | forgotten l u => exact absurd rfl (hforget u)
  | receive | vanished | started | gated => exact absurd rfl hidle
  | cached | uncommitted | disowned => exact hv.respond_other (hr _ _ rfl) _
  | undrafted | drafted => exact absurd rfl (hdraft _)
  | committed => exact { hv.commit_other hdb with stored := by simp [hv.stored, hr _ _ rfl] }
  | answered r ack available =>
    have hack := hf.own_answered.trans hl
    have hkey := Eq.trans hf.apart hl
    refine { hv.respond_other (hr _ _ rfl) _ with redis := ?_, queue := ?_ }
    · cases available <;> simp [hv.redis, hkey]
    · simp [hv.queue, hack]
  | marked | ingested | degraded | reconciled | exported => exact hv.commit_other hdb
  | unwritten => exact hv.draw_other _
  | @extracted σ =>
    have hσ : own σ.applicationId = false := hl
    exact { (hv.commit_other hdb).draw_other _ with extractions := by simp [hv.extractions, hσ] }
  | chased => exact (hv.commit_other hdb).draw_other [_]
  | delivered memo =>
    have hmemo : own memo.applicationId = false := hl
    exact { hv with delivered := by simp [hv.delivered, hmemo] }
  | _ => exact hv

end Others

/-! ### Steps for the borrower -/

theorem PartOf.issue (hv : PartOf py settings borrower own mine ours s v) {ids : List Uuid} (hfresh : s.Fresh ids) :
    v.issue ids = some { v with issued := ids ++ v.issued } := issue_some.mpr ⟨hv.fresh hfresh, rfl⟩

/-- The borrower's part takes a step that comes to the same, and reads its own files. -/
def Follows (settings : Settings) (borrower : Text) (own mine : Uuid → Bool) (ours : Text → Bool) (v : Store)
    (l : Proc py) (s' : Store) (l' : Proc py) : Prop :=
  ∃ b v', (∀ r, b ≠ .receive r) ∧ b.ReadsFrom v.files ∧ procStep settings v l b = some (v', l') ∧
    PartOf py settings borrower own mine ours s' v'

theorem PartOf.stop (hv : PartOf py settings borrower own mine ours s v) (l : Proc py) :
    Follows settings borrower own mine ours v l s .idle :=
  ⟨.crash, v, nofun, trivial, by cases l <;> rfl, hv⟩

theorem PartOf.evicted (hv : PartOf py settings borrower own mine ours s v) (l : Proc py) (key : Text) :
    Follows settings borrower own mine ours v l { s with redis := s.redis.filter (·.1 ≠ key) } l :=
  ⟨.evict key, _, nofun, trivial, by cases l <;> rfl, hv.evict key⟩

theorem PartOf.forgotten (hv : PartOf py settings borrower own mine ours s v) (l : Proc py) (u : Uuid) :
    Follows settings borrower own mine ours v l { s with queue := s.queue.erase u } l :=
  ⟨.forget u, _, nofun, trivial, by cases l <;> rfl, hv.dequeue u⟩

theorem request_seen {r : Request} {phase : RequestPhase}
    (hf : Footing borrower own ours s (.request r phase : Proc py)) (hr : r.borrower py = borrower)
    (hv : PartOf py settings borrower own mine ours s v)
    (hdraft : ∀ draws, a ≠ .draft draws)
    (h : Transition settings s (.request r phase) a s' l') (hs' : Splits borrower own s'.db) :
    Follows settings borrower own mine ours v (.request r phase) s' l' := by
  have hkey : ours (r.scopedKey py) = true := Eq.trans hf.apart (decide_eq_true hr)
  cases h with
  | stop => exact hv.stop _
  | evict _ key => exact hv.evicted _ key
  | forgotten _ u => exact hv.forgotten _ u
  | cached hack =>
    refine ⟨.lookup true, _, nofun, trivial, ?_, hv.respond hr _⟩
    simp only [procStep, requestStep, if_true, hv.lookup hkey, hack]
  | missed => exact ⟨.lookup false, v, nofun, trivial, rfl, hv⟩
  | undrafted | drafted => exact absurd rfl (hdraft _)
  | @committed _ draft db hc =>
    have ha := (hf.own_committed hs' hc).trans (decide_eq_true hr)
    obtain ⟨draws, db₀, hdraft⟩ := hf.justified
    have hkept := commitDraft_ok_keeping hf.keys hkey hdraft.key ha hdraft.communication.2.1
      (fun d hd => (hdraft.documents d hd).choose_spec.applicationId) hc
    refine ⟨.commitMessage, { v with
      db := db.keeping own, stored := (r, draft.communication.id) :: v.stored }, nofun, trivial, ?_,
      { hv.commit db with stored := ?_ }⟩
    · simp only [procStep, requestStep, hv.db, hkept]
    · simp [hv.stored, hr]
  | conflicting hc =>
    obtain ⟨draws, db₀, hdraft⟩ := hf.justified
    refine ⟨.commitMessage, v, nofun, trivial, ?_, hv⟩
    simp only [procStep, requestStep, hv.db, commitDraft_error_keeping hf.keys hkey hdraft.key hc]
  | uncommitted hc he =>
    obtain ⟨draws, db₀, hdraft⟩ := hf.justified
    refine ⟨.commitMessage, _, nofun, trivial, ?_, hv.respond hr _⟩
    simp only [procStep, requestStep, hv.db, commitDraft_error_keeping hf.keys hkey hdraft.key hc]
  | replayed hack =>
    refine ⟨.replay, v, nofun, trivial, ?_, hv⟩
    simp only [procStep, requestStep, hv.db, replayAck_keeping hf.keys hkey, hack]
  | disowned hack =>
    refine ⟨.replay, _, nofun, trivial, ?_, hv.respond hr _⟩
    simp only [procStep, requestStep, hv.db, replayAck_keeping hf.keys hkey, hack]
  | answered _ ack available =>
    have hack := hf.own_answered.trans (decide_eq_true hr)
    refine ⟨.respond available, _, nofun, trivial, rfl, { hv.respond hr (.ack ack) with redis := ?_, queue := ?_ }⟩
    · cases available <;> simp [hv.redis, hkey]
    · simp [hv.queue, hack]

/-- None of the documents that a run is about to read has a path that climbs. -/
def Proc.Holds : Proc py → Prop
  | .run _ (.parse docs) => ∀ d ∈ docs, ∃ path, d.s3Path = some path ∧ NoTraversal path
  | _ => True

theorem run_seen {σ : Session} {phase : RunPhase py} (hσ : own σ.applicationId = true)
    (hfolders : FoldersIssued settings s) (hmine : mine σ.applicationId = true)
    (hdocs : (.run σ phase : Proc py).Holds) (hreads : a.ReadsFrom s.files)
    (hv : PartOf py settings borrower own mine ours s v) (h : Transition settings s (.run σ phase) a s' l') :
    Follows settings borrower own mine ours v (.run σ phase) s' l' := by
  have hmessages : ∀ direction, v.db.messagesOf σ.applicationId direction =
      s.db.messagesOf σ.applicationId direction := fun direction => by rw [hv.db, messagesOf_keeping hσ]
  have hcontents : v.db.contentsOf σ.applicationId = s.db.contentsOf σ.applicationId := by
    rw [hv.db, contentsOf_keeping hσ]
  have hsame : ∀ {b : Action py} {l' : Proc py}, (∀ r, b ≠ .receive r) → b.ReadsFrom v.files →
      procStep settings v (.run σ phase) b = some (v, l') →
      Follows settings borrower own mine ours v (.run σ phase) s l' := fun hb hread hstep =>
    ⟨_, v, hb, hread, hstep, hv⟩
  cases h with
  | stop => exact hv.stop _
  | evict _ key => exact hv.evicted _ key
  | forgotten _ u => exact hv.forgotten _ u
  | marked =>
    refine ⟨.markProcessing, _, nofun, trivial, ?_, hv.commit _⟩
    simp only [procStep, runStep, hv.db, markProcessing_keeping]
  | documents =>
    refine hsame (b := .selectDocuments) nofun trivial ?_
    simp only [procStep, runStep, hv.db, documentsOf_keeping hσ]
  | @parsed _ docs io result h =>
    have hload : ingestDocuments (loadDocument py settings (io.within v.files) σ.applicationId) docs =
        .ok result := by
      rw [← h, hv.files]
      exact ingestDocuments_congr fun d hd _ => loadDocument_within hfolders hmine hreads (hdocs d hd)
    refine hsame (b := .parse (io.within v.files)) nofun (readsFrom_within io v.files) ?_
    simp only [procStep, runStep, hload]
  | messages =>
    refine hsame (b := .selectMessages) nofun trivial ?_
    simp only [procStep, runStep, hmessages]
  | @ingested _ result stated now db h =>
    refine ⟨.commitTexts now, _, nofun, trivial, ?_, hv.commit _⟩
    simp only [procStep, runStep, hv.db, commitIngest_keeping hσ, h, Option.map_some]
  | @skipped _ sources llm h =>
    refine hsame (b := .ask llm) nofun trivial ?_
    simp only [procStep, runStep, h]
  | @failed _ sources llm e h =>
    refine hsame (b := .ask llm) nofun trivial ?_
    simp only [procStep, runStep, h]
  | @asked _ sources llm call h =>
    refine hsame (b := .ask llm) nofun trivial ?_
    simp only [procStep, runStep, h]
  | @degraded _ e now db h =>
    refine ⟨.commitDegraded now, _, nofun, trivial, ?_, hv.commit _⟩
    simp only [procStep, runStep, hv.db, commitDegraded_keeping hσ rfl, h, Option.map_some]
  | deleted =>
    refine hsame (b := .deleteFacts) nofun trivial ?_
    simp only [procStep, runStep, hv.db, factsOf_keeping hσ]
  | @unwritten _ call validated deleted ids => exact (PartOf.draw_other hv ids).stop _
  | @extracted _ call validated deleted ids now facts db hfresh hfacts h =>
    have hkept : commitFacts deleted facts (extractionAudit σ.applicationId call now) (s.db.keeping own) =
        some (db.keeping own) := by
      rw [commitFacts_keeping hσ deleted (fun f hf => (mem_newFacts hfacts hf).1) rfl, h, Option.map_some]
    refine ⟨.commitFacts ids now, { v with
      db := db.keeping own
      issued := (List.range validated.length).map ids ++ v.issued
      extractions := (σ.applicationId, facts.map (·.toFactContent)) :: v.extractions }, nofun, trivial, ?_,
      { (hv.commit db).draw _ with extractions := ?_ }⟩
    · simp only [procStep, runStep, hv.issue hfresh, Option.map_some, hfacts, hv.db, hkept]
    · simp [hv.extractions, hσ]
  | @compared _ found h =>
    refine hsame (b := .selectFacts) nofun trivial ?_
    simp only [procStep, runStep, hcontents, h]
  | reconciled _ found now =>
    refine ⟨.commitAnomalies now, _, nofun, trivial, ?_, hv.commit _⟩
    simp only [procStep, runStep, hv.db, commitAnomalies_keeping hσ]
  | present =>
    refine hsame (b := .selectPresent) nofun trivial ?_
    simp only [procStep, runStep, hcontents]
  | channel =>
    refine hsame (b := .selectChannel) nofun trivial ?_
    simp only [procStep, runStep, hmessages]
  | sent =>
    refine hsame (b := .selectSent) nofun trivial ?_
    simp only [procStep, runStep, hmessages]
  | @chased _ missing channel alreadySent id now hfresh =>
    refine ⟨.commitChase id now, _, nofun, trivial, ?_, (hv.commit _).draw [id]⟩
    simp only [procStep, runStep, hv.issue hfresh, Option.map_some, hv.db, commitChase_keeping hσ rfl]
    rfl

theorem export_seen {phase : ExportPhase} (hl : (.exporting phase : Proc py).worksFor borrower own = true)
    (hv : PartOf py settings borrower own mine ours s v)
    (hstep : procStep settings s (.exporting phase) a = some (s', l')) :
    Follows settings borrower own mine ours v (.exporting phase) s' l' := by
  have htrans := procStep_transition hstep
  cases htrans with
  | stop => exact hv.stop _
  | evict _ key => exact hv.evicted _ key
  | forgotten _ u => exact hv.forgotten _ u
  | @memo x query stamp memo horder h =>
    refine ⟨.selectMemo query stamp, v, nofun, trivial, ?_, hv⟩
    simp only [procStep, exportStep, hv.db, factsOf_keeping hl, horder, if_true, h]
  | delivered memo accepted _ h =>
    have hmemo : own memo.applicationId = true := hl
    have hdelivered : PartOf py settings borrower own mine ours { s with delivered := memo :: s.delivered }
        { v with delivered := memo :: v.delivered } := { hv with delivered := by simp [hv.delivered, hmemo] }
    rcases h with rfl | rfl
    · exact ⟨.deliver false, _, nofun, trivial, rfl, hdelivered⟩
    · exact ⟨.deliver true, _, nofun, trivial, rfl, hdelivered⟩
  | exported memo now =>
    -- A row that does not fit is written on neither side.
    obtain ⟨hs', -⟩ := Prod.mk.inj (Option.some.inj hstep)
    refine ⟨.commitExport now, _, nofun, trivial, rfl, ?_⟩
    rw [← hs']
    split_ifs
    · have hadd : (s.db.addAudit [losExportAudit py settings memo now]).keeping own =
          (s.db.keeping own).addAudit [losExportAudit py settings memo now] :=
        keeping_addOwn hl (by simp [losExportAudit])
      rw [hv.db, ← hadd]
      exact hv.commit _
    · exact hv

/-! ### Every step -/

/-- The borrower's part stays as it is, or takes a step too, which reads its own files. -/
def Matches (settings : Settings) (borrower : Text) (own mine : Uuid → Bool) (ours : Text → Bool) (v : Store)
    (m : Proc py) (s' : Store) (l' : Proc py) : Prop :=
  (PartOf py settings borrower own mine ours s' v ∧ l'.seen borrower own = m) ∨
  ∃ b v', (∀ r, b = .receive r → r.borrower py = borrower) ∧ b.ReadsFrom v.files ∧
    procStep settings v m b = some (v', l'.seen borrower own) ∧ PartOf py settings borrower own mine ours s' v'

theorem Follows.matches (h : Follows settings borrower own mine ours v l s' l')
    (hseen : l'.seen borrower own = l') : Matches settings borrower own mine ours v l s' l' := by
  obtain ⟨b, v', hb, hread, hstep, hv'⟩ := h
  exact .inr ⟨b, v', fun r hr => absurd hr (hb r), hread, by rw [hseen, hstep], hv'⟩

theorem idle_seen (hv : PartOf py settings borrower own mine ours s v)
    (hstep : procStep settings s .idle a = some (s', l')) :
    Matches settings borrower own mine ours v .idle s' l' := by
  have htrans := procStep_transition hstep
  cases htrans with
  | stop => exact .inl ⟨hv, rfl⟩
  | evict _ key => exact (hv.evicted .idle key).matches rfl
  | forgotten _ u => exact (hv.forgotten .idle u).matches rfl
  | receive r =>
    by_cases hr : r.borrower py = borrower
    · rw [Matches, seen_own (l := .request r .lookup) (decide_eq_true hr)]
      refine .inr ⟨.receive r, v, ?_, trivial, rfl, hv⟩
      rintro _ ⟨⟩
      exact hr
    · exact .inl ⟨hv, seen_other (decide_eq_false hr)⟩
  | vanished a =>
    cases ha : own a with
    | false => exact .inl ⟨hv.dequeue_other ha, rfl⟩
    | true =>
      refine .inr ⟨.startRun a, _, nofun, trivial, ?_, hv.dequeue a⟩
      simp only [procStep] at hstep ⊢
      split_ifs at hstep with hmem
      rw [if_pos (by rw [hv.queue]; exact List.mem_filter.mpr ⟨hmem, ha⟩), hv.db, application_keeping ha]
      split at hstep
      · rfl
      · cases hstep
  | @started a x hx =>
    cases ha : own a with
    | false => exact .inl ⟨hv.dequeue_other ha, seen_other ha⟩
    | true =>
      rw [Matches, seen_own (l := .run ⟨a, x.status⟩ .mark) ha]
      refine .inr ⟨.startRun a, _, nofun, trivial, ?_, hv.dequeue a⟩
      simp only [procStep] at hstep ⊢
      split_ifs at hstep with hmem
      rw [if_pos (by rw [hv.queue]; exact List.mem_filter.mpr ⟨hmem, ha⟩), hv.db, application_keeping ha, hx]
  | @gated a x hx hready =>
    have hworks : (.exporting (.facts x) : Proc py).worksFor borrower own = own a :=
      congrArg own (Database.application_id hx)
    cases ha : own a with
    | false => exact .inl ⟨hv, seen_other (hworks.trans ha)⟩
    | true =>
      rw [Matches, seen_own (hworks.trans ha)]
      refine .inr ⟨.requestExport a, v, nofun, trivial, ?_, hv⟩
      simp only [procStep, hv.db, application_keeping ha, hx, hready, if_true]

/-- The folder of a draft counts as the borrower's exactly if its request does. -/
def Proc.Filed (borrower : Text) (mine : Uuid → Bool) : Proc py → Prop
  | .request r (.commit draft) => mine draft.application.id = decide (r.borrower py = borrower)
  | _ => True

/-- What is known of the folders where a process takes a step. -/
structure Shelves (settings : Settings) (borrower : Text) (own mine : Uuid → Bool) (s : Store) (l : Proc py) :
    Prop where
  folders : FoldersIssued settings s
  issued : ∀ x ∈ s.db.applications, x.id ∈ s.issued
  rows : ∀ x ∈ s.db.applications, mine x.id = own x.id
  refers : l.Refers s.db
  holds : l.Holds
  filed : l.Filed borrower mine

theorem Shelves.mine_run {σ : Session} {phase : RunPhase py}
    (h : Shelves settings borrower own mine s (.run σ phase : Proc py)) (hσ : own σ.applicationId = true) :
    mine σ.applicationId = true := by
  obtain ⟨x, hx, hid⟩ := h.refers.application
  rw [← hid, h.rows x hx, hid, hσ]

theorem Transition.filed (h : Transition settings s l a s' l') (hdraft : ∀ draws, a ≠ .draft draws)
    (hl : l.Filed borrower mine) : l'.Filed borrower mine := by
  cases h with
  | evict | forgotten => exact hl
  | drafted => exact absurd rfl (hdraft _)
  | delivered _ _ _ h => rcases h with rfl | rfl <;> trivial
  | _ => trivial

/-- A new application is the borrower's exactly if its draft was filed as the borrower's. -/
theorem Transition.rows (h : Transition settings s l a s' l') (hf : Footing borrower own ours s l)
    (hs' : Splits borrower own s'.db) (hsh : Shelves settings borrower own mine s l) :
    ∀ x ∈ s'.db.applications, mine x.id = own x.id := by
  rcases h.commit with hdb | hcommit
  · exact hdb ▸ hsh.rows
  rcases hcommit.applications with happs | ⟨r, draft, rfl, -, -, happs⟩ | ⟨σ, _, status, -, -, -, happs⟩
  · exact happs ▸ hsh.rows
  · intro x hx
    rw [happs] at hx
    rcases List.mem_append.mp hx with hx | hx
    · exact hsh.rows x hx
    · obtain rfl := List.mem_singleton.mp hx
      cases hcommit with
      | message hc => exact Eq.trans hsh.filed (hf.own_committed hs' hc).symm
  · intro x hx
    rw [happs] at hx
    obtain ⟨y, hy, rfl⟩ := List.mem_map.mp hx
    have hid : (if y.id = σ.applicationId then { y with status := status } else y).id = y.id := by
      split_ifs <;> rfl
    rw [hid]
    exact hsh.rows y hy

/-- Every step but the drafting of a message is matched on the borrower's part. -/
theorem procStep_matched (hf : Footing borrower own ours s l) (hsh : Shelves settings borrower own mine s l)
    (hs' : Splits borrower own s'.db) (hv : PartOf py settings borrower own mine ours s v)
    (hdraft : ∀ draws, a ≠ .draft draws) (hreads : a.ReadsFrom s.files)
    (hstep : procStep settings s l a = some (s', l')) :
    Matches settings borrower own mine ours v (l.seen borrower own) s' l' := by
  by_cases hidle : l = .idle
  · subst hidle
    exact idle_seen hv hstep
  have htrans := procStep_transition hstep
  cases hl : l.worksFor borrower own with
  | false =>
    rw [seen_other hl]
    by_cases hevict : ∃ key, a = .evict key
    · obtain ⟨key, rfl⟩ := hevict
      obtain ⟨rfl, rfl⟩ : { s with redis := s.redis.filter (·.1 ≠ key) } = s' ∧ l = l' := by
        cases l <;> exact Prod.mk.inj (Option.some.inj hstep)
      rw [Matches, seen_other hl]
      exact .inr ⟨.evict key, _, nofun, trivial, rfl, hv.evict key⟩
    by_cases hforget : ∃ u, a = .forget u
    · obtain ⟨u, rfl⟩ := hforget
      obtain ⟨rfl, rfl⟩ : { s with queue := s.queue.erase u } = s' ∧ l = l' := by
        cases l <;> exact Prod.mk.inj (Option.some.inj hstep)
      rw [Matches, seen_other hl]
      exact .inr ⟨.forget u, _, nofun, trivial, rfl, hv.dequeue u⟩
    refine .inl ⟨htrans.unseen hf hl hs' hidle hdraft (fun key hkey => hevict ⟨key, hkey⟩)
      (fun u hu => hforget ⟨u, hu⟩) hv, ?_⟩
    rcases htrans.worksFor hidle borrower own with rfl | hsame
    · rfl
    · exact seen_other (hsame.trans hl)
  | true =>
    have hseen : l'.seen borrower own = l' := by
      rcases htrans.worksFor hidle borrower own with rfl | hsame
      · rfl
      · exact seen_own (hsame.trans hl)
    have hfollows : Follows settings borrower own mine ours v l s' l' := by
      cases l with
      | idle => exact absurd rfl hidle
      | request r phase => exact request_seen hf (of_decide_eq_true hl) hv hdraft htrans hs'
      | run σ phase => exact run_seen hl hsh.folders (hsh.mine_run hl) hsh.holds hreads hv htrans
      | exporting phase => exact export_seen hl hv hstep
    rw [seen_own hl]
    exact hfollows.matches hseen

/-- A message is drafted: its files are the borrower's exactly if its request is. -/
theorem draft_matched {draws : IntakeDraws} (hf : Footing borrower own ours s l)
    (hsh : Shelves settings borrower own mine s l) (hv : PartOf py settings borrower own mine ours s v)
    (hstep : procStep settings s l (.draft draws) = some (s', l')) :
    ∃ mine', (∀ u ∈ s.issued, mine' u = mine u) ∧ s'.db = s.db ∧ l'.Filed borrower mine' ∧
      Matches settings borrower own mine' ours v (l.seen borrower own) s' l' := by
  obtain ⟨r, rfl⟩ : ∃ r, l = .request r .draft := by
    rcases l with _ | ⟨r, phase⟩ | ⟨_, phase⟩ | phase
    · cases hstep
    all_goals cases phase <;> first | exact ⟨r, rfl⟩ | cases hstep
  obtain ⟨t, ht, h⟩ := Option.map_eq_some_iff.mp (show (s.issue (draws.ids r)).map _ = some (s', l') from hstep)
  obtain ⟨hfresh, rfl⟩ := issue_some.mp ht
  obtain ⟨⟨drafted, files⟩, hd⟩ : ∃ p, draftMessage py settings s.db r draws = p := ⟨_, rfl⟩
  rw [hd] at h
  dsimp only at h
  obtain ⟨b, hb, hfolder, hid⟩ := folder_draftMessage hd
  set mine' := Function.update mine draws.application (decide (r.borrower py = borrower)) with hmine'
  have hnew : draws.application ∉ s.issued := hfresh.2 _ List.mem_cons_self
  have hkept : ∀ u ∈ s.issued, mine' u = mine u := fun u hu =>
    Function.update_of_ne (ne_of_mem_of_not_mem hu hnew) _ _
  have hfiled : mine' b = decide (r.borrower py = borrower) := by
    rcases hb with rfl | hb
    · exact Function.update_self ..
    · obtain ⟨x, hx, hxb, -⟩ := id hb
      rw [hkept b (hxb ▸ hsh.issued x hx), ← hf.splits.own_eq hb, ← hxb, hsh.rows x hx]
  refine ⟨mine', hkept, ?_⟩
  by_cases hr : r.borrower py = borrower
  · have hv' := hv.drafted hsh.folders hkept (draws.ids r) hfolder (hfiled.trans (decide_eq_true hr))
    have hdraft' : draftMessage py settings v.db r draws = (drafted, files) := by
      rw [hv.db, draftMessage_keeping (hr ▸ hf.splits), hd]
    rw [seen_own (l := .request r .draft) (decide_eq_true hr)]
    cases drafted with
    | error e =>
      cases h
      refine ⟨rfl, trivial, .inr ⟨.draft draws, _, nofun, trivial, ?_, hv'.respond hr _⟩⟩
      simp only [procStep, requestStep, hv.issue hfresh, Option.map_some, hdraft']
      rfl
    | ok draft =>
      cases h
      refine ⟨rfl, by rw [Proc.Filed, hid draft rfl, hfiled], .inr ⟨.draft draws, _, nofun, trivial, ?_, hv'⟩⟩
      rw [seen_own (l := .request r (.commit draft)) (decide_eq_true hr)]
      simp only [procStep, requestStep, hv.issue hfresh, Option.map_some, hdraft']
      rfl
  · have hv' := hv.drafted_other hsh.folders hkept (draws.ids r) hfolder (hfiled.trans (decide_eq_false hr))
    rw [seen_other (l := .request r .draft) (decide_eq_false hr)]
    cases drafted with
    | error e =>
      cases h
      exact ⟨rfl, trivial, .inl ⟨hv'.respond_other hr _, rfl⟩⟩
    | ok draft =>
      cases h
      exact ⟨rfl, by rw [Proc.Filed, hid draft rfl, hfiled], .inl ⟨hv', seen_other (decide_eq_false hr)⟩⟩

/-- Every step is matched on the borrower's part, and the folders that are there stay whose they are. -/
theorem step_matched (hf : Footing borrower own ours s l) (hsh : Shelves settings borrower own mine s l)
    (hs' : Splits borrower own s'.db) (hv : PartOf py settings borrower own mine ours s v)
    (hreads : a.ReadsFrom s.files) (hstep : procStep settings s l a = some (s', l')) :
    ∃ mine', (∀ u ∈ s.issued, mine' u = mine u) ∧ (∀ x ∈ s'.db.applications, mine' x.id = own x.id) ∧
      l'.Filed borrower mine' ∧ Matches settings borrower own mine' ours v (l.seen borrower own) s' l' := by
  by_cases hdraft : ∃ draws, a = .draft draws
  · obtain ⟨draws, rfl⟩ := hdraft
    obtain ⟨mine', hkept, hdb, hfiled, hmatches⟩ := draft_matched hf hsh hv hstep
    refine ⟨mine', hkept, fun x hx => ?_, hfiled, hmatches⟩
    rw [hdb] at hx
    rw [hkept x.id (hsh.issued x hx), hsh.rows x hx]
  · have hdraft : ∀ draws, a ≠ .draft draws := fun draws h => hdraft ⟨draws, h⟩
    have htrans := procStep_transition hstep
    exact ⟨mine, fun _ _ => rfl, htrans.rows hf hs' hsh, htrans.filed hdraft hsh.filed,
      procStep_matched hf hsh hs' hv hdraft hreads hstep⟩

/-! ### Every run -/

/-- A request has a scoped key that counts as the borrower's exactly if it is the borrower's. -/
def keysApart (borrower : Text) (ours : Text → Bool) (_ : Service py) (_ : ℕ) : Action py → Bool
  | .receive r => ours (r.scopedKey py) == decide (r.borrower py = borrower)
  | _ => true

/-- Only the borrower sends requests. -/
def onlyFrom (borrower : Text) (_ : Service py) (_ : ℕ) : Action py → Bool
  | .receive r => r.borrower py = borrower
  | _ => true

theorem Transition.apart (h : Transition settings s l a s' l') {c : Service py} {p : ℕ}
    (ha : keysApart borrower ours c p a = true) (hl : l.Apart borrower ours) : l'.Apart borrower ours := by
  cases h with
  | evict | forgotten | missed | drafted | committed | conflicting | replayed => exact hl
  | receive r => exact beq_iff_eq.mp ha
  | delivered _ _ _ h => rcases h with rfl | rfl <;> trivial
  | _ => trivial

/-- A new message is under a key of its borrower. -/
theorem Transition.keysSplit (h : Transition settings s l a s' l') (hjust : l.Justified) (hserves : l.Serves s.db)
    (hl : l.Apart borrower ours) (hs' : Splits borrower own s'.db) (hs : KeysSplit ours own s.db) :
    KeysSplit ours own s'.db := by
  rcases h.commit with hdb | hcommit
  · exact hdb ▸ hs
  rcases hcommit.communications with hkept | ⟨r, draft, rfl, hc, hadd⟩ | ⟨_, _, _, _, hadd⟩
  · simpa only [KeysSplit, hkept] using hs
  · have ha := hs'.own_eq (hasBorrower_commitDraft hjust hserves hc)
    obtain ⟨draws, db, hdraft⟩ := hjust
    intro m hm key hkey
    rw [hadd] at hm
    rcases List.mem_append.mp hm with hm | hm
    · exact hs m hm key hkey
    · obtain rfl := List.mem_singleton.mp hm
      obtain rfl := Option.some.inj (hdraft.key.symm.trans hkey)
      exact Eq.trans hl (by rw [hdraft.communication.2.1, ha])
  · intro m hm key hkey
    rw [hadd] at hm
    rcases List.mem_append.mp hm with hm | hm
    · exact hs m hm key hkey
    · obtain rfl := List.mem_singleton.mp hm
      cases hkey

section Runs
variable {c : Service py}

theorem splits_back {c' : Service py} {p : ℕ} (hs : Interleave.next (procStep settings) c p a = some c')
    (h : Splits borrower own c'.shared.db) : Splits borrower own c.shared.db := by
  obtain ⟨s', l', hstep, rfl⟩ := Interleave.next_eq_some hs
  exact (procStep_transition hstep).extends.db.splits h

theorem footing_of_reaches (h : ServiceReaches py settings (fun c p a => keysApart borrower ours c p a = true ∧
      ∀ c', Interleave.next (procStep settings) c p a = some c' → Splits borrower own c'.shared.db) c)
    (hsplits : Splits borrower own c.shared.db) (p : ℕ) : Footing borrower own ours c.shared (c.procs p) := by
  have hkeys : KeysSplit ours own c.shared.db ∧ ∀ p, (c.procs p).Apart borrower ours := by
    refine ((h.assuming (I := fun c => ∀ p, (c.procs p).Justified) fun h => justified_of_reaches h).assuming
      (I := fun c => ∀ p, (c.procs p).Serves c.shared.db) fun h => serves_of_reaches h).assertions
      (I := fun s => KeysSplit ours own s.db) (J := fun _ l => l.Apart borrower ours) (R := fun _ _ => True)
      (fun m hm => absurd hm List.not_mem_nil) (fun _ => trivial) ?_ fun _ _ _ _ hl => hl
    rintro c p a s' l' ⟨⟨⟨ha, hfuture⟩, hjust⟩, hserves⟩ hs hl hstep
    have htrans := procStep_transition hstep
    have hs' := hfuture ⟨s', Function.update c.procs p l'⟩ (by simp [Interleave.next, hstep])
    exact ⟨htrans.keysSplit (hjust p) (hserves p) hl hs' hs, htrans.apart ha hl, trivial⟩
  exact ⟨hsplits, hkeys.1, keysUnique_of_reaches h, justified_of_reaches h p, serves_of_reaches h p,
    extracts_of_reaches h p, hkeys.2 p⟩

/-- The documents in hand at a run's reading have the paths of their rows. -/
theorem holds_of_reaches (h : ServiceReaches py settings readsStored c) (p : ℕ) : (c.procs p).Holds := by
  have hany : ServiceReaches py settings (parsesWith fun _ => True) c :=
    h.mono fun _ _ a hok => ⟨hok, by cases a <;> trivial⟩
  have hreads := (reads_of_reaches hany).2 p
  have hchecked := pathsChecked_of_reaches h
  generalize c.procs p = l at hreads ⊢
  unfold Proc.Holds
  split
  · intro d hd
    obtain ⟨-, e, he, hde⟩ := hreads d hd
    obtain ⟨path, hpath, hfree⟩ := hchecked e he
    obtain ⟨_, rfl, -⟩ := hde
    exact ⟨path, hpath, hfree⟩
  · trivial

/-- The application of a draft is an identifier that was drawn. -/
theorem Proc.Filed.congr {p : ℕ} (hkeys : KeysOk c) (hserves : (c.procs p).Serves c.shared.db)
    (h : ∀ u ∈ c.shared.issued, mine' u = mine u) (hl : (c.procs p).Filed borrower mine) :
    (c.procs p).Filed borrower mine' := by
  have hissued := hkeys.issued p
  generalize c.procs p = l at hserves hl hissued ⊢
  unfold Proc.Filed at hl ⊢
  split at hl
  next r draft =>
    rw [h, hl]
    cases hnew : draft.isNew with
    | true => exact hissued _ (List.mem_append_left _ (by simp [Proc.reserved, Draft.ids, hnew]))
    | false =>
      obtain ⟨x, hx, hid, -⟩ := hserves hnew
      exact hid ▸ hkeys.applicationIssued hx
  · trivial

/-- A run of the service that is the borrower's alone and stands where this one does. -/
structure Beside (settings : Settings) (borrower : Text) (own mine : Uuid → Bool) (ours : Text → Bool)
    (c d : Service py) : Prop where
  rows : ∀ x ∈ c.shared.db.applications, mine x.id = own x.id
  part : PartOf py settings borrower own mine ours c.shared d.shared
  procs : ∀ p, d.procs p = (c.procs p).seen borrower own

/-- What a borrower has of a run is all there is in a run where nobody else sends anything
and nothing is on the disk but the borrower's files. -/
theorem borrower_undisturbed
    (h : ServiceReaches py settings (fun c p a => keysApart borrower ours c p a = true ∧ readsStored c p a) c) :
    ∃ d mine, ServiceReaches py settings (fun c p a => onlyFrom borrower c p a = true ∧ readsStored c p a) d ∧
      Beside settings borrower (c.shared.db.owns borrower) mine ours c d := by
  have hend := splits_owns (keysUnique_of_reaches h).applications borrower
  generalize c.shared.db.owns borrower = own at hend ⊢
  have hforeseen := h.foreseeing (I := fun c => Splits borrower own c.shared.db) (fun hs => splits_back hs) hend
  have h0 : Beside settings borrower own own ours (initial py) (initial py) :=
    ⟨fun _ hx => absurd hx List.not_mem_nil, ⟨rfl, rfl, rfl, fun _ hu => hu, rfl, rfl, rfl, rfl, rfl⟩, fun _ => rfl⟩
  suffices hrun : ∃ d, ServiceReaches py settings
      (fun c p a => onlyFrom borrower c p a = true ∧ readsStored c p a) d ∧
      ∃ mine, Beside settings borrower own mine ours c d ∧ ∀ p, (c.procs p).Filed borrower mine by
    obtain ⟨d, hd, mine, hbeside, -⟩ := hrun
    exact ⟨d, mine, hd, hbeside⟩
  refine hforeseen.follows (R := fun c d => ∃ mine, Beside settings borrower own mine ours c d ∧
    ∀ p, (c.procs p).Filed borrower mine) ⟨own, h0, fun _ => trivial⟩ ?_
  rintro c c' p a d hr ⟨⟨hapart, hreads⟩, hfuture⟩ ⟨mine, ⟨hrows, hv, hprocs⟩, hfiled⟩ hs
  have hkeys := keysOk_of_reaches hr
  have hclear : ServiceReaches py settings (fun c p a => keysApart borrower ours c p a = true ∧
      ∀ c', Interleave.next (procStep settings) c p a = some c' → Splits borrower own c'.shared.db) c :=
    hr.mono fun _ _ _ hok => ⟨hok.1.1, hok.2⟩
  have hf := footing_of_reaches hclear (splits_back hs (hfuture c' hs)) p
  have hsh : Shelves settings borrower own mine c.shared (c.procs p) :=
    ⟨foldersIssued_of_reaches hr, fun _ hx => hkeys.applicationIssued hx, hrows,
      (consistent_of_reaches (hr.mono fun _ _ _ _ => trivial)).2 p,
      holds_of_reaches (hr.mono fun _ _ _ hok => hok.1.2) p, hfiled p⟩
  have hs' := hfuture c' hs
  obtain ⟨s', l', hstep, rfl⟩ := Interleave.next_eq_some hs
  obtain ⟨mine', hkept, hrows', hfiled', hmatches⟩ := step_matched hf hsh hs' hv hreads hstep
  have hfiledAll : ∀ q, (Function.update c.procs p l' q).Filed borrower mine' := by
    intro q
    by_cases hq : q = p
    · subst hq
      rwa [Function.update_self]
    · rw [Function.update_of_ne hq]
      exact (hfiled q).congr hkeys (serves_of_reaches hr q) hkept
  -- The other processes look the same before and behind the step.
  have hothers : ∀ m, m = l'.seen borrower own → ∀ q, Function.update d.procs p m q =
      (Function.update c.procs p l' q).seen borrower own := by
    rintro m rfl q
    by_cases hq : q = p
    · subst hq
      simp only [Function.update_self]
    · simp only [Function.update_of_ne hq, hprocs q]
  rcases hmatches with ⟨hv', hseen⟩ | ⟨b, v', hb, hread, hstep', hv'⟩
  · have hsame := hothers (d.procs p) (by rw [hprocs p, hseen])
    rw [Function.update_eq_self] at hsame
    exact ⟨d, .start, mine', ⟨hrows', hv', hsame⟩, hfiledAll⟩
  · have hok : onlyFrom borrower d p b = true := by
      cases b with
      | receive r => exact decide_eq_true (hb r rfl)
      | _ => rfl
    refine ⟨⟨v', Function.update d.procs p (l'.seen borrower own)⟩,
      Interleave.Reaches.start.step (p := p) (a := b) ⟨hok, hread⟩ ?_, mine',
      ⟨hrows', hv', hothers _ rfl⟩, hfiledAll⟩
    simp only [Interleave.next, hprocs p, hstep', Option.map_some]

end Runs

/-! ### Alice beside bob -/

def aliceKeys (key : Text) : Bool := "alice:".toList.isPrefixOf key

/-- What a step reads is there, and its request has a key of its own borrower. -/
def besideTest (c : Service asciiPython) (p : ℕ) (a : Action asciiPython) : Bool :=
  keysApart "alice".toList aliceKeys c p a && payslipStored c p a

/-- Bob writes, then alice sends her payslip and her application is run. -/
def besideBob : Service asciiPython := serviceAfter besideTest (intakeSteps 1 bobMessage 2 ++ payslipRun)

theorem besideTest_sound : ∀ c, ∀ e ∈ intakeSteps 1 bobMessage 2 ++ payslipRun, besideTest c e.1 e.2 = true →
    keysApart "alice".toList aliceKeys c e.1 e.2 = true ∧ readsStored c e.1 e.2 := by
  intro c e he ht
  obtain ⟨hapart, hstored⟩ := Bool.and_eq_true_iff.mp ht
  refine ⟨hapart, ?_⟩
  rcases List.mem_append.mp he with he | he
  · simp only [intakeSteps, List.mem_cons, List.not_mem_nil, or_false] at he
    rcases he with rfl | rfl | rfl | rfl | rfl <;> trivial
  · exact readsStored_payslip c e he hstored

theorem borrower_undisturbed_besideBob :
    besideBob.shared.db.communications.length = 2 ∧ besideBob.shared.db.facts.length = 1 ∧
    ∃ d mine, ServiceReaches asciiPython sampleSettings
        (fun c p a => onlyFrom "alice".toList c p a = true ∧ readsStored c p a) d ∧
      Beside sampleSettings "alice".toList (besideBob.shared.db.owns "alice".toList) mine aliceKeys besideBob d :=
  ⟨by decide +kernel, by decide +kernel, borrower_undisturbed (Interleave.after_reaches besideTest_sound)⟩

end LoanAgent
