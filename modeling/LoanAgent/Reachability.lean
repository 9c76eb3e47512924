import LoanAgent.Transitions
import LoanAgent.RunRows

/-! What holds in every reachable state of the service, whatever the order of
the steps. Proved: an identifier stands for one row, and the identifiers that a
request has drawn for rows still to be committed belong to no row and to no
other request; every stored file lies under its own identifier; a draft is the
one that intake makes of its request; no document has a path that climbs. -/

namespace LoanAgent

variable {py : Python} {settings : Settings} {s s' : Store} {l l' : Proc py} {a : Action py}
  {ok : Service py → ℕ → Action py → Prop} {c : Service py}

/-! ### Drafts -/

/-- The draft that a request is about to commit was made of that request. -/
def Proc.Justified : Proc py → Prop
  | .request r (.commit draft) => ∃ draws db, Drafted py r draws db draft
  | _ => True

theorem Transition.justified (h : Transition settings s l a s' l') (hl : l.Justified) : l'.Justified := by
  cases h with
  | evict | forgotten => exact hl
  | drafted _ h => exact ⟨_, _, draftMessage_ok h⟩
  | delivered _ _ _ h => rcases h with rfl | rfl <;> trivial
  | _ => trivial

theorem justified_of_reaches (h : ServiceReaches py settings ok c) (p : ℕ) : (c.procs p).Justified :=
  (h.assertions (I := fun _ => True) (J := fun _ l => l.Justified) (R := fun _ _ => True) trivial
    (fun _ => trivial) (fun _ _ _ _ _ _ _ hl hs => ⟨trivial, (procStep_transition hs).justified hl, trivial⟩)
    fun _ _ _ _ hl => hl).2 p

/-! ### Identifiers -/

def Draft.ids (draft : Draft) : List Uuid :=
  (if draft.isNew then [draft.application.id] else []) ++
    draft.communication.id :: draft.documents.map (·.id)

/-- The identifiers drawn for rows that are still to be committed. -/
def Proc.reserved : Proc py → List Uuid
  | .request _ (.commit draft) => draft.ids
  | _ => []

def Database.ids (db : Database) : List Uuid :=
  db.applications.map (·.id) ++ (db.documents.map (·.id) ++
    (db.communications.map (·.id) ++ db.facts.map (·.id)))

theorem Drafted.ids_subperm {r : Request} {draws : IntakeDraws} {db : Database} {draft : Draft}
    (h : Drafted py r draws db draft) : draft.ids.Subperm (draws.ids r) := by
  rw [Draft.ids, IntakeDraws.ids, h.documentIds, h.communication.1]
  cases hnew : draft.isNew with
  | false => exact (List.sublist_cons_self _ _).subperm
  | true => simpa [(h.isNew hnew).1] using List.Subperm.refl _

theorem ids_setStatus (db : Database) (id : Uuid) (status : ApplicationStatus) :
    (db.setStatus id status).ids = db.ids := by
  have h : (db.setStatus id status).applications.map (·.id) = db.applications.map (·.id) := by
    simp only [Database.setStatus, List.map_map]
    refine List.map_congr_left fun x _ => ?_
    simp only [Function.comp_apply]
    split_ifs <;> rfl
  simp only [Database.ids, h, setStatus_documents, setStatus_communications, setStatus_facts]

theorem ids_flushStatus (σ : Session) (status : ApplicationStatus) (db : Database) :
    (σ.flushStatus status db).ids = db.ids := by
  unfold Session.flushStatus
  split_ifs
  · rfl
  · exact ids_setStatus _ _ _

theorem ids_markProcessing (σ : Session) (db : Database) : (markProcessing σ db).2.ids = db.ids := by
  unfold markProcessing
  split_ifs
  · exact ids_setStatus _ _ _
  · rfl

theorem ids_setRawTexts (db : Database) (texts : List (Uuid × Text)) :
    (db.setRawTexts texts).ids = db.ids := by
  have h : (db.setRawTexts texts).documents.map (·.id) = db.documents.map (·.id) := by
    simp only [Database.setRawTexts, List.map_map]
    refine List.map_congr_left fun x _ => ?_
    simp only [Function.comp_apply]
    split <;> rfl
  simp only [Database.ids, h]
  rfl

theorem ids_commitDraft {draft : Draft} {db db' : Database} (h : commitDraft draft db = .ok db') :
    db'.ids.Perm (draft.ids ++ db.ids) := by
  obtain ⟨-, rfl⟩ := commitDraft_ok h
  rw [List.perm_iff_count]
  intro u
  cases hnew : draft.isNew with
  | false =>
    simp only [Database.ids, Draft.ids, hnew, Bool.false_eq_true, if_false, List.map_append, List.map_cons,
      List.map_nil, List.count_append, List.count_cons, List.count_nil, List.nil_append]
    omega
  | true =>
    simp only [Database.ids, Draft.ids, hnew, if_true, List.map_append, List.map_cons, List.map_nil,
      List.count_append, List.count_cons, List.count_nil]
    omega

theorem ids_replaceFacts (db : Database) (deleted : List Uuid) (facts : List ExtractedFact) :
    (db.replaceFacts deleted facts).ids.Subperm (facts.map (·.id) ++ db.ids) := by
  rw [List.subperm_iff_count]
  intro u
  have hkept : List.count u ((db.facts.filter fun f => f.id ∉ deleted).map (·.id)) ≤
      List.count u (db.facts.map (·.id)) := (List.filter_sublist.map _).count_le u
  simp only [Database.ids, Database.replaceFacts, List.map_append, List.count_append]
  omega

theorem ids_commitChase (σ : Session) (id : Uuid) (now : Time) (missing : List Text) (channel : Channel)
    (alreadySent : Bool) (db : Database) :
    (commitChase σ id now missing channel alreadySent db).ids.Subperm (id :: db.ids) := by
  have hflush := ids_flushStatus σ (chaseStatus missing) db
  unfold commitChase
  dsimp only
  split_ifs
  · rw [hflush]
    exact (List.sublist_cons_self _ _).subperm
  · rw [List.subperm_iff_count]
    intro u
    rw [← hflush]
    simp only [Database.ids, chaseMessage, List.map_append, List.map_cons, List.map_nil,
      List.count_append, List.count_cons, List.count_nil]
    omega

/-- A step draws new identifiers, and uses only these and its reserved ones. -/
theorem Transition.ids (h : Transition settings s l a s' l') (hl : l.Justified) :
    ∃ fresh, s.Fresh fresh ∧ s'.issued = fresh ++ s.issued ∧
      (l'.reserved ++ s'.db.ids).Subperm (fresh ++ (l.reserved ++ s.db.ids)) := by
  have hnone : s.Fresh [] := ⟨List.nodup_nil, nofun⟩
  have hkeep : ∀ {db : Database}, db.ids = s.db.ids →
      ([] ++ db.ids).Subperm ([] ++ (l.reserved ++ s.db.ids)) := fun {db} hdb => by
    rw [hdb]
    exact (List.sublist_append_right _ _).subperm
  cases h with
  | evict | forgotten => exact ⟨[], hnone, rfl, List.Subperm.refl _⟩
  | undrafted hfresh => exact ⟨_, hfresh, rfl, (List.sublist_append_right _ _).subperm⟩
  | drafted hfresh h =>
    exact ⟨_, hfresh, rfl, (List.subperm_append_right _).mpr (draftMessage_ok h).ids_subperm⟩
  | committed h => exact ⟨[], hnone, rfl, (ids_commitDraft h).subperm⟩
  | marked σ => exact ⟨[], hnone, rfl, hkeep (ids_markProcessing σ s.db)⟩
  | ingested h =>
    obtain rfl := commitIngest_some h
    have htexts := ids_setRawTexts s.db
    exact ⟨[], hnone, rfl, hkeep (htexts _)⟩
  | degraded h =>
    obtain ⟨-, rfl⟩ := commitDegraded_some.mp h
    exact ⟨[], hnone, rfl, hkeep (ids_flushStatus _ _ _)⟩
  | unwritten hfresh => exact ⟨_, hfresh, rfl, (List.sublist_append_right _ _).subperm⟩
  | extracted hfresh hfacts h =>
    obtain ⟨-, rfl⟩ := commitFacts_some.mp h
    refine ⟨_, hfresh, rfl, ?_⟩
    rw [← newFacts_ids hfacts]
    exact ids_replaceFacts s.db _ _
  | chased hfresh => exact ⟨_, hfresh, rfl, ids_commitChase _ _ _ _ _ _ _⟩
  | delivered _ _ _ h =>
    refine ⟨[], hnone, rfl, ?_⟩
    rcases h with rfl | rfl <;> exact hkeep rfl
  | _ => exact ⟨[], hnone, rfl, hkeep rfl⟩

/-- Who owns which identifier. -/
structure KeysOk (c : Service py) : Prop where
  nodup : ∀ p, ((c.procs p).reserved ++ c.shared.db.ids).Nodup
  issued : ∀ p, ∀ u ∈ (c.procs p).reserved ++ c.shared.db.ids, u ∈ c.shared.issued
  apart : ∀ p q, p ≠ q → List.Disjoint (c.procs p).reserved (c.procs q).reserved

theorem keysOk_of_reaches (h : ServiceReaches py settings ok c) : KeysOk c := by
  have h0 : KeysOk (initial py) :=
    ⟨fun _ => List.nodup_nil, fun _ _ hu => absurd hu List.not_mem_nil, fun _ _ _ => List.disjoint_nil_left _⟩
  refine (h.assuming (I := fun c => ∀ p, (c.procs p).Justified) fun h => justified_of_reaches h).invariant
    h0 ?_
  rintro c p a s' l' ⟨hnodup, hissued, hapart⟩ ⟨-, hjust⟩ hs
  obtain ⟨fresh, ⟨hfresh, hnew⟩, hs', hsub⟩ := (procStep_transition hs).ids (hjust p)
  have hall : (fresh ++ ((c.procs p).reserved ++ c.shared.db.ids)).Nodup :=
    hfresh.append (hnodup p) fun u hu hu' => hnew u hu (hissued p u hu')
  have hissue : ∀ u ∈ fresh ++ ((c.procs p).reserved ++ c.shared.db.ids), u ∈ s'.issued := by
    intro u hu
    rw [hs']
    exact (List.mem_append.mp hu).elim (List.mem_append_left _) fun hu =>
      List.mem_append_right _ (hissued p u hu)
  have hnodup' : (l'.reserved ++ s'.db.ids).Nodup := by
    obtain ⟨k, hperm, hk⟩ := hsub
    exact hperm.nodup_iff.mp (hk.nodup hall)
  -- What the step uses was not reserved by another process.
  have hother : ∀ q, q ≠ p → ∀ u ∈ (c.procs q).reserved,
      u ∉ l'.reserved ++ s'.db.ids := by
    intro q hq u hu hmem
    rcases List.mem_append.mp (hsub.subset hmem) with hmem | hmem
    · exact hnew u hmem (hissued q u (List.mem_append_left _ hu))
    · rcases List.mem_append.mp hmem with hmem | hmem
      · exact hapart q p hq hu hmem
      · exact List.disjoint_of_nodup_append (hnodup q) hu hmem
  refine ⟨fun q => ?_, fun q u hu => ?_, fun q q' hq => ?_⟩
  · by_cases hqp : q = p
    · subst hqp
      simpa using hnodup'
    · have hres := (List.nodup_append.mp (hnodup q)).1
      simp only [Function.update_of_ne hqp]
      exact hres.append (List.nodup_append.mp hnodup').2.1 fun u hu hu' =>
        hother q hqp u hu (List.mem_append_right _ hu')
  · by_cases hqp : q = p
    · subst hqp
      exact hissue u (hsub.subset (by simpa using hu))
    · simp only [Function.update_of_ne hqp] at hu
      rcases List.mem_append.mp hu with hu | hu
      · rw [hs']
        exact List.mem_append_right _ (hissued q u (List.mem_append_left _ hu))
      · exact hissue u (hsub.subset (List.mem_append_right _ hu))
  · by_cases hqp : q = p
    · subst hqp
      have hq' : q' ≠ q := fun he => hq he.symm
      simp only [Function.update_self, Function.update_of_ne hq']
      exact fun u hu hu' => hother q' hq' u hu' (List.mem_append_left _ hu)
    · by_cases hq'p : q' = p
      · subst hq'p
        simp only [Function.update_self, Function.update_of_ne hqp]
        exact fun u hu hu' => hother q hqp u hu (List.mem_append_left _ hu')
      · simpa only [Function.update_of_ne hqp, Function.update_of_ne hq'p] using hapart q q' hq

theorem KeysOk.keysUnique (h : KeysOk c) : KeysUnique c.shared.db := by
  have hnodup := (List.nodup_append.mp (h.nodup 0)).2.1
  rw [Database.ids, List.nodup_append] at hnodup
  obtain ⟨happs, hrest, -⟩ := hnodup
  rw [List.nodup_append] at hrest
  obtain ⟨hdocs, hrest, -⟩ := hrest
  obtain ⟨hmsgs, hfacts, -⟩ := List.nodup_append.mp hrest
  exact ⟨happs, hdocs, hmsgs, hfacts⟩

theorem KeysOk.factIssued (h : KeysOk c) {f : ExtractedFact} (hf : f ∈ c.shared.db.facts) :
    f.id ∈ c.shared.issued := by
  refine h.issued 0 f.id (List.mem_append_right _ ?_)
  simp only [Database.ids, List.mem_append]
  exact .inr (.inr (.inr (List.mem_map_of_mem hf)))

theorem keysUnique_of_reaches (h : ServiceReaches py settings ok c) : KeysUnique c.shared.db :=
  (keysOk_of_reaches h).keysUnique

/-! ### Files and paths -/

/-- Every stored file has an owner of its own: a drawn identifier that its name begins with. -/
def FilesOwned (settings : Settings) (s : Store) : Prop :=
  ∃ owners : List Uuid, owners.Nodup ∧ (∀ u ∈ owners, u ∈ s.issued) ∧
    List.Forall₂ (fun u f => ∃ a, Written settings a u f.1) owners s.files

theorem Written.unique {a a' u u' : Uuid} {p : FilePath} (h : Written settings a u p)
    (h' : Written settings a' u' p) : a = a' ∧ u = u' := by
  obtain ⟨suffix, rfl⟩ := h
  obtain ⟨suffix', heq⟩ := h'
  simp only [Settings.folder, List.append_assoc, List.append_cancel_left_eq, List.cons_append,
    List.nil_append, List.cons.injEq, and_true] at heq
  refine ⟨Uuid.str_injective heq.1, Uuid.str_injective ?_⟩
  exact (List.append_inj heq.2 ((str_length u).trans (str_length u').symm)).1

/-- Only a request that drafts its message writes files. -/
theorem Transition.files (h : Transition settings s l a s' l') :
    s'.files = s.files ∨
    ∃ r draws drafted files, s.Fresh (draws.ids r) ∧
      draftMessage py settings s.db r draws = (drafted, files) ∧
      s'.files = s.files ++ files ∧ s'.issued = draws.ids r ++ s.issued := by
  cases h with
  | undrafted hfresh h => exact .inr ⟨_, _, _, _, hfresh, h, rfl, rfl⟩
  | drafted hfresh h => exact .inr ⟨_, _, _, _, hfresh, h, rfl, rfl⟩
  | _ => exact .inl rfl

theorem Transition.filesOwned (h : Transition settings s l a s' l') (hs : FilesOwned settings s) :
    FilesOwned settings s' := by
  obtain ⟨owners, hnodup, hissued, hall⟩ := hs
  obtain hfiles | ⟨r, draws, drafted, files, ⟨hfresh, hnew⟩, hd, hfiles, hs'⟩ := h.files
  · exact ⟨owners, hnodup, fun u hu => h.issued_mono u (hissued u hu), hfiles ▸ hall⟩
  · obtain ⟨a, more, hsub, hmore⟩ := draftMessage_files hd
    have hin : ∀ u ∈ more, u ∈ draws.ids r := fun u hu =>
      List.mem_cons_of_mem _ (List.mem_cons_of_mem _ (hsub.subset hu))
    have hmem : more.Nodup := hsub.nodup (List.nodup_cons.mp (List.nodup_cons.mp hfresh).2).2
    refine ⟨owners ++ more, hnodup.append hmem fun u hu hu' => hnew u (hin u hu') (hissued u hu), ?_, ?_⟩
    · intro u hu
      rw [hs']
      exact (List.mem_append.mp hu).elim (fun hu => List.mem_append_right _ (hissued u hu))
        fun hu => List.mem_append_left _ (hin u hu)
    · rw [hfiles]
      exact List.rel_append hall (hmore.imp fun u f hw => ⟨a, hw⟩)

theorem filesOwned_of_reaches (h : ServiceReaches py settings ok c) : FilesOwned settings c.shared := by
  refine h.invariant (I := fun c => FilesOwned settings c.shared) ⟨[], List.nodup_nil, nofun, .nil⟩ ?_
  intro c p a s' l' hc _ hs
  exact (procStep_transition hs).filesOwned hc

/-- A path names at most one stored file. -/
theorem FilesOwned.unique (h : FilesOwned settings s) {p : FilePath} {b b' : Bytes}
    (hb : (p, b) ∈ s.files) (hb' : (p, b') ∈ s.files) : b = b' := by
  obtain ⟨owners, hnodup, -, hall⟩ := h
  generalize s.files = files at hb hb' hall
  induction hall with
  | nil => cases hb
  | @cons u f owners files hw hall ih =>
    have hnot : ∀ b, (f.1, b) ∉ files := by
      intro b hmem
      obtain ⟨i, hi, hget⟩ := List.getElem_of_mem hmem
      have hlen := hall.length_eq
      obtain ⟨a', hw'⟩ := (List.forall₂_iff_get.mp hall).2 i (by omega) hi
      obtain ⟨a, hw⟩ := hw
      simp only [List.get_eq_getElem, hget] at hw'
      rw [(hw.unique hw').2] at hnodup
      exact (List.nodup_cons.mp hnodup).1 (List.getElem_mem _)
    rcases List.mem_cons.mp hb with rfl | hb <;> rcases List.mem_cons.mp hb' with hf | hb'
    · exact (Prod.mk.inj hf).2.symm
    · exact absurd hb' (hnot b')
    · exact absurd hb (by rw [← hf] at hnot; exact hnot b)
    · exact ih (List.nodup_cons.mp hnodup).2 hb hb'

/-- Stored files lie right under the folder of an application. -/
theorem FilesOwned.folder (h : FilesOwned settings s) {f : FilePath × Bytes} (hf : f ∈ s.files) :
    ∃ a name, f.1 = settings.folder a ++ [name] := by
  obtain ⟨owners, -, -, hall⟩ := h
  obtain ⟨i, hi, rfl⟩ := List.getElem_of_mem hf
  have hlen := hall.length_eq
  obtain ⟨a, suffix, hw⟩ := (List.forall₂_iff_get.mp hall).2 i (by omega) hi
  exact ⟨a, _, hw⟩

/-- The path of a document was accepted by intake. -/
def PathsChecked (db : Database) : Prop :=
  ∀ d ∈ db.documents, ∃ path, d.s3Path = some path ∧ NoTraversal path

theorem pathsChecked_of_reaches (h : ServiceReaches py settings ok c) : PathsChecked c.shared.db := by
  refine (h.assuming (I := fun c => ∀ p, (c.procs p).Justified) fun h => justified_of_reaches h).invariant
    (I := fun c => PathsChecked c.shared.db) (fun d hd => absurd hd List.not_mem_nil) ?_
  rintro c p a s' l' hc ⟨-, hjust⟩ hs
  rcases (procStep_transition hs).commit with hdb | hcommit
  · simpa only [hdb] using hc
  rcases hcommit.documents with hdocs | ⟨r, draft, hl, hdocs⟩ | ⟨σ, result, stated, -, hdocs⟩
  · simpa only [PathsChecked, hdocs] using hc
  · intro d hd
    rw [hdocs] at hd
    rcases List.mem_append.mp hd with hd | hd
    · exact hc d hd
    · have hp := hjust p
      rw [hl] at hp
      obtain ⟨draws, db, hdraft⟩ := hp
      obtain ⟨u, hbuilt⟩ := hdraft.documents d hd
      exact hbuilt.s3Path
  · intro d hd
    rw [hdocs] at hd
    obtain ⟨d', hd', rfl⟩ := List.mem_map.mp hd
    obtain ⟨path, hpath⟩ := hc d' hd'
    exact ⟨path, by split <;> exact hpath⟩

end LoanAgent
