import LoanAgent.ExactlyOnce
import LoanAgent.Holdings

/-! The replay of an ack from the database. The ack of a commit lists the
documents of its message; the rows do not say which message brought a document,
and the replay lists all documents of the application. The assignment of the
documents to their messages is followed along a run as a ghost. Proved: in every
run a message that was committed is replayed, the replayed ack names the message
and the application of the first ack, and it has the documents of the first ack
exactly when no other message under the application has attachments. -/

namespace LoanAgent

variable {py : Python} {settings : Settings} {s s' : Store} {l l' : Proc py} {a : Action py}
  {c : Service py}

/-- The message `u`, with attachments, was committed under the application. -/
def Brings (s : Store) (applicationId u : Uuid) : Prop :=
  ∃ r, (r, u) ∈ s.stored ∧ r.message.attachments ≠ [] ∧
    ∃ m ∈ s.db.communications, m.id = u ∧ m.applicationId = applicationId ∧ m.direction = .inbound

/-- There is a document with this identifier under the application. -/
def Database.Holds (db : Database) (i applicationId : Uuid) : Prop :=
  ∃ d ∈ db.documents, d.id = i ∧ d.applicationId = applicationId

/-- The documents of the database are those that `bundle` assigns to the
messages with attachments, each to one of them. -/
structure Filed (s : Store) (bundle : Uuid → List Uuid) : Prop where
  source : ∀ i x, s.db.Holds i x → ∃ u, i ∈ bundle u ∧ Brings s x u
  filed : ∀ x u, Brings s x u → ∃ i ∈ bundle u, s.db.Holds i x
  apart : ∀ u v i, i ∈ bundle u → i ∈ bundle v → u = v
  known : ∀ u i, i ∈ bundle u → (∃ x, s.db.Holds i x) ∧ ∃ m ∈ s.db.communications, m.id = u

/-- The documents of an application are the bundle of one message of it exactly
when no other message brought it documents. -/
theorem Filed.holds_iff_alone {bundle : Uuid → List Uuid} (hs : Filed s bundle) {x u : Uuid}
    (hown : ∀ y, Brings s y u → y = x) :
    (∀ i, s.db.Holds i x ↔ i ∈ bundle u) ↔ ∀ v, v ≠ u → ¬ Brings s x v := by
  constructor
  · intro hset v hv hbrings
    obtain ⟨i, hi, hholds⟩ := hs.filed x v hbrings
    exact hv (hs.apart v u i hi ((hset i).mp hholds))
  · intro halone i
    constructor
    · intro hholds
      obtain ⟨v, hv, hbrings⟩ := hs.source i x hholds
      have hv' : v = u := by
        by_contra hne
        exact halone v hne hbrings
      exact hv' ▸ hv
    · intro hi
      obtain ⟨⟨y, hholds⟩, -⟩ := hs.known u i hi
      obtain ⟨v, hv, hbrings⟩ := hs.source i y hholds
      rw [hs.apart v u i hv hi] at hbrings
      exact hown y hbrings ▸ hholds

/-! ### Steps that commit no message -/

theorem Transition.stored_eq (h : Transition settings s l a s' l')
    (hl : ∀ r draft, l ≠ .request r (.commit draft)) : s'.stored = s.stored := by
  cases h with
  | committed => exact absurd rfl (hl _ _)
  | _ => rfl

theorem Transition.holds_iff (h : Transition settings s l a s' l')
    (hl : ∀ r draft, l ≠ .request r (.commit draft)) (i x : Uuid) :
    s'.db.Holds i x ↔ s.db.Holds i x := by
  rcases h.commit with hdb | hcommit
  · rw [hdb]
  rcases hcommit.documents with hdocs | ⟨r, draft, rfl, -⟩ | ⟨σ, result, stated, -, hdocs⟩
  · rw [Database.Holds, hdocs, Database.Holds]
  · exact absurd rfl (hl r draft)
  · simp only [Database.Holds, hdocs, Database.setRawTexts, List.mem_map, exists_exists_and_eq_and]
    refine exists_congr fun d => and_congr_right fun _ => ?_
    split <;> rfl

theorem Transition.brings_iff (h : Transition settings s l a s' l')
    (hl : ∀ r draft, l ≠ .request r (.commit draft)) (x u : Uuid) : Brings s' x u ↔ Brings s x u := by
  have hmessages : ∀ m, (m ∈ s'.db.communications ∧ m.direction = .inbound) ↔
      (m ∈ s.db.communications ∧ m.direction = .inbound) := by
    intro m
    rcases h.commit with hdb | hcommit
    · rw [hdb]
    rcases hcommit.communications with hm | ⟨r, draft, rfl, -⟩ | ⟨σ, id, channel, content, hm⟩
    · rw [hm]
    · exact absurd rfl (hl r draft)
    · rw [hm, List.mem_append, List.mem_singleton]
      constructor
      · rintro ⟨hm | rfl, hdir⟩
        · exact ⟨hm, hdir⟩
        · cases hdir
      · exact fun ⟨hm, hdir⟩ => ⟨.inl hm, hdir⟩
  simp only [Brings, h.stored_eq hl]
  refine exists_congr fun r => and_congr_right fun _ => and_congr_right fun _ => exists_congr fun m => ?_
  have := hmessages m
  tauto

theorem Transition.filed_frame (h : Transition settings s l a s' l')
    (hl : ∀ r draft, l ≠ .request r (.commit draft)) {bundle : Uuid → List Uuid}
    (hs : Filed s bundle) : Filed s' bundle := by
  have hholds := h.holds_iff hl
  have hbrings := h.brings_iff hl
  refine ⟨fun i x hi => ?_, fun x u hu => ?_, hs.apart, fun u i hi => ?_⟩
  · obtain ⟨u, hu, hb⟩ := hs.source i x ((hholds i x).mp hi)
    exact ⟨u, hu, (hbrings x u).mpr hb⟩
  · obtain ⟨i, hi, hd⟩ := hs.filed x u ((hbrings x u).mp hu)
    exact ⟨i, hi, (hholds i x).mpr hd⟩
  · obtain ⟨⟨x, hx⟩, m, hm, hid⟩ := hs.known u i hi
    exact ⟨⟨x, (hholds i x).mpr hx⟩, m, h.communications_mono m hm, hid⟩

/-! ### The commit of a message -/

section Committed
variable {r : Request} {draft : Draft} {db : Database}

theorem holds_commitDraft (hdocs : ∀ d ∈ draft.documents, d.applicationId = draft.application.id)
    (h : commitDraft draft s.db = .ok db) (i x : Uuid) : db.Holds i x ↔
      s.db.Holds i x ∨ (i ∈ draft.documents.map (·.id) ∧ x = draft.application.id) := by
  obtain ⟨-, rfl⟩ := commitDraft_ok h
  simp only [Database.Holds, List.mem_append, or_and_right, exists_or, List.mem_map]
  refine or_congr_right ⟨?_, ?_⟩
  · rintro ⟨d, hd, hid, hx⟩
    exact ⟨⟨d, hd, hid⟩, hx.symm.trans (hdocs d hd)⟩
  · rintro ⟨⟨d, hd, hid⟩, rfl⟩
    exact ⟨d, hd, hid, hdocs d hd⟩

theorem mem_commitDraft (h : commitDraft draft s.db = .ok db) {m : Communication} :
    m ∈ db.communications ↔ m ∈ s.db.communications ∨ m = draft.communication := by
  rw [(commitDraft_ok h).2, List.mem_append, List.mem_singleton]

/-- The identifiers of a draft that is committed are new. -/
theorem fresh_commit (hids : (draft.ids ++ s.db.ids).Nodup) :
    (∀ m ∈ s.db.communications, m.id ≠ draft.communication.id) ∧
      ∀ i ∈ draft.documents.map (·.id), ∀ x, ¬ s.db.Holds i x := by
  have hout := (List.nodup_append.mp hids).2.2
  constructor
  · rintro m hm hid
    refine hout draft.communication.id (by simp [Draft.ids]) m.id ?_ hid.symm
    simp only [Database.ids, List.mem_append]
    exact .inr (.inr (.inl (List.mem_map_of_mem hm)))
  · rintro i hi x ⟨d, hd, hid, -⟩
    refine hout i (by simp [Draft.ids, List.mem_map.mp hi]) d.id ?_ hid.symm
    simp only [Database.ids, List.mem_append]
    exact .inr (.inl (List.mem_map_of_mem hd))

/-- Which messages bring documents behind the commit of one more. -/
theorem brings_commitDraft (hids : (draft.ids ++ s.db.ids).Nodup)
    (hstored : ∀ r u, (r, u) ∈ s.stored → ∃ m ∈ s.db.communications, m.id = u)
    (hcomm : draft.communication.applicationId = draft.application.id ∧
      draft.communication.direction = .inbound)
    (h : commitDraft draft s.db = .ok db) (x u : Uuid) :
    Brings { s with db := db, stored := (r, draft.communication.id) :: s.stored } x u ↔ Brings s x u ∨
      (u = draft.communication.id ∧ x = draft.application.id ∧ r.message.attachments ≠ []) := by
  have hnew := (fresh_commit hids).1
  obtain ⟨-, rfl⟩ := commitDraft_ok h
  constructor
  · rintro ⟨r', hr', hne, m, hm, hid, hx, hdir⟩
    rcases List.mem_cons.mp hr' with heq | hr'
    · cases heq
      rcases List.mem_append.mp hm with hm | hm
      · exact absurd hid (hnew m hm)
      · rw [List.mem_singleton.mp hm] at hx
        exact .inr ⟨rfl, hx.symm.trans hcomm.1, hne⟩
    · obtain ⟨m', hm', hid'⟩ := hstored r' u hr'
      rcases List.mem_append.mp hm with hm | hm
      · exact .inl ⟨r', hr', hne, m, hm, hid, hx, hdir⟩
      · rw [List.mem_singleton.mp hm] at hid
        exact absurd (hid'.trans hid.symm) (hnew m' hm')
  · rintro (⟨r', hr', hne, m, hm, hrest⟩ | ⟨rfl, rfl, hne⟩)
    · exact ⟨r', List.mem_cons_of_mem _ hr', hne, m, List.mem_append_left _ hm, hrest⟩
    · exact ⟨r, List.mem_cons_self, hne, draft.communication, by simp, rfl, hcomm.1, hcomm.2⟩

/-- The documents of a committed draft become the bundle of its message. -/
theorem Filed.commit {draws : IntakeDraws} {db₀ : Database} (hdraft : Drafted py r draws db₀ draft)
    (hids : (draft.ids ++ s.db.ids).Nodup)
    (hstored : ∀ r u, (r, u) ∈ s.stored → ∃ m ∈ s.db.communications, m.id = u)
    (h : commitDraft draft s.db = .ok db) {bundle : Uuid → List Uuid} (hs : Filed s bundle) :
    Filed { s with db := db, stored := (r, draft.communication.id) :: s.stored }
      (Function.update bundle draft.communication.id (draft.documents.map (·.id))) := by
  have hdocs : ∀ d ∈ draft.documents, d.applicationId = draft.application.id := fun d hd => by
    obtain ⟨u, hu⟩ := hdraft.documents d hd
    exact hu.applicationId
  have hsome : draft.documents.map (·.id) ≠ [] ↔ r.message.attachments ≠ [] := by
    rw [hdraft.documentIds]
    simp
  have hholds := holds_commitDraft hdocs h
  have hbrings := brings_commitDraft (r := r) hids hstored hdraft.communication.2 h
  obtain ⟨hnew, hfresh⟩ := fresh_commit hids
  have hold : ∀ u i, i ∈ bundle u → u ≠ draft.communication.id := by
    rintro u i hi rfl
    obtain ⟨-, m, hm, hid⟩ := hs.known _ i hi
    exact hnew m hm hid
  refine ⟨fun i x hi => ?_, fun x u hu => ?_, fun u v i hu hv => ?_, fun u i hi => ?_⟩
  · rcases (hholds i x).mp hi with hi | ⟨hmem, rfl⟩
    · obtain ⟨u, hu, hb⟩ := hs.source i x hi
      exact ⟨u, by rwa [Function.update_of_ne (hold u i hu)], (hbrings x u).mpr (.inl hb)⟩
    · refine ⟨draft.communication.id, by rwa [Function.update_self], (hbrings _ _).mpr (.inr ⟨rfl, rfl, ?_⟩)⟩
      exact hsome.mp (List.ne_nil_of_mem hmem)
  · rcases (hbrings x u).mp hu with hu | ⟨rfl, rfl, hne⟩
    · obtain ⟨i, hi, hd⟩ := hs.filed x u hu
      exact ⟨i, by rwa [Function.update_of_ne (hold u i hi)], (hholds i x).mpr (.inl hd)⟩
    · obtain ⟨i, hi⟩ := List.exists_mem_of_ne_nil _ (hsome.mpr hne)
      exact ⟨i, by rwa [Function.update_self], (hholds i _).mpr (.inr ⟨hi, rfl⟩)⟩
  · have hclash : ∀ v, v ≠ draft.communication.id → i ∈ draft.documents.map (·.id) →
        i ∉ bundle v := by
      intro v hv hi hi'
      obtain ⟨⟨x, hx⟩, -⟩ := hs.known v i hi'
      exact hfresh i hi x hx
    by_cases hu' : u = draft.communication.id
    · by_cases hv' : v = draft.communication.id
      · rw [hu', hv']
      · rw [hu', Function.update_self] at hu
        rw [Function.update_of_ne hv'] at hv
        exact absurd hv (hclash v hv' hu)
    · rw [Function.update_of_ne hu'] at hu
      by_cases hv' : v = draft.communication.id
      · rw [hv', Function.update_self] at hv
        exact absurd hu (hclash u hu' hv)
      · rw [Function.update_of_ne hv'] at hv
        exact hs.apart u v i hu hv
  · by_cases hu : u = draft.communication.id
    · rw [hu, Function.update_self] at hi
      exact ⟨⟨_, (hholds i _).mpr (.inr ⟨hi, rfl⟩)⟩, draft.communication, (mem_commitDraft h).mpr (.inr rfl),
        hu.symm⟩
    · rw [Function.update_of_ne hu] at hi
      obtain ⟨⟨x, hx⟩, m, hm, hid⟩ := hs.known u i hi
      exact ⟨⟨x, (hholds i x).mpr (.inl hx)⟩, m, (mem_commitDraft h).mpr (.inl hm), hid⟩

end Committed

/-! ### Every run -/

/-- A draft that is about to be committed was made by the process. -/
theorem drafted_of_reaches {ok : Service py → ℕ → Action py → Prop} (h : ServiceReaches py settings ok c)
    {p : ℕ} {r : Request} {draft : Draft} (hp : c.procs p = .request r (.commit draft)) :
    ∃ draws db, Drafted py r draws db draft := by
  have hjust := justified_of_reaches h p
  rw [hp] at hjust
  exact hjust

theorem stored_known {ok : Service py → ℕ → Action py → Prop} (h : ServiceReaches py settings ok c) :
    ∀ r u, (r, u) ∈ c.shared.stored → ∃ m ∈ c.shared.db.communications, m.id = u := by
  refine h.invariant (I := fun c => ∀ r u, (r, u) ∈ c.shared.stored →
    ∃ m ∈ c.shared.db.communications, m.id = u) (fun _ _ hr => absurd hr List.not_mem_nil) ?_
  intro c p a s l hc _ hs r u hr
  have htrans := procStep_transition hs
  have hkeep : (r, u) ∈ c.shared.stored → ∃ m ∈ s.db.communications, m.id = u := fun hr => by
    obtain ⟨m, hm, hid⟩ := hc r u hr
    exact ⟨m, htrans.communications_mono m hm, hid⟩
  by_cases hl : ∀ r draft, c.procs p ≠ .request r (.commit draft)
  · exact hkeep (htrans.stored_eq hl ▸ hr)
  push Not at hl
  obtain ⟨r₀, draft, hl⟩ := hl
  rw [hl] at htrans
  cases htrans with
  | committed h =>
    rcases List.mem_cons.mp hr with heq | hr
    · cases heq
      exact ⟨draft.communication, (mem_commitDraft h).mpr (.inr rfl), rfl⟩
    · exact hkeep hr
  | _ => exact hkeep hr

/-- One step keeps the assignment of the documents, and the bundles of the
messages that were there. -/
theorem filed_step {p : ℕ} (hc : ServiceReaches py settings Interleave.anyStep c)
    (hs : procStep settings c.shared (c.procs p) a = some (s', l')) {bundle : Uuid → List Uuid}
    (hfiled : Filed c.shared bundle) :
    ∃ bundle', Filed s' bundle' ∧ (∀ m ∈ c.shared.db.communications, bundle' m.id = bundle m.id) ∧
      ∀ r draft, c.procs p = .request r (.commit draft) → l' = .request r (.respond draft.ack) →
        bundle' draft.communication.id = draft.documents.map (·.id) := by
  have htrans := procStep_transition hs
  by_cases hl : ∀ r draft, c.procs p ≠ .request r (.commit draft)
  · exact ⟨bundle, htrans.filed_frame hl hfiled, fun _ _ => rfl, fun r draft h => absurd h (hl r draft)⟩
  push Not at hl
  obtain ⟨r, draft, hl⟩ := hl
  have hkeep : s'.db = c.shared.db → s'.stored = c.shared.stored →
      l' ≠ .request r (.respond draft.ack) → ∃ bundle', Filed s' bundle' ∧
      (∀ m ∈ c.shared.db.communications, bundle' m.id = bundle m.id) ∧
      ∀ r draft, c.procs p = .request r (.commit draft) → l' = .request r (.respond draft.ack) →
        bundle' draft.communication.id = draft.documents.map (·.id) := by
    intro hdb hstored hne
    refine ⟨bundle, ?_, fun _ _ => rfl, fun r' draft' h h' => ?_⟩
    · obtain ⟨h1, h2, h3, h4⟩ := hfiled
      refine ⟨?_, ?_, h3, ?_⟩
      all_goals simpa only [Brings, hdb, hstored] using by assumption
    · rw [hl] at h
      cases h
      exact absurd h' hne
  obtain ⟨draws, db₀, hdraft⟩ := drafted_of_reaches hc hl
  have hids := (keysOk_of_reaches hc).nodup p
  rw [hl] at htrans hids
  cases htrans with
  | committed h =>
    refine ⟨_, hfiled.commit hdraft hids (stored_known hc) h, fun m hm => ?_, fun r' draft' hl' _ => ?_⟩
    · exact Function.update_of_ne ((fresh_commit hids).1 m hm) _ _
    · rw [hl] at hl'
      cases hl'
      exact Function.update_self _ _ _
  | _ => exact hkeep rfl rfl nofun

/-- Along a run the bundle of a message stays what it is. -/
theorem bundle_of_reaches {c' : Service py} (hc : ServiceReaches py settings Interleave.anyStep c)
    (h : Interleave.Reaches (procStep settings) Interleave.anyStep c c') {bundle : Uuid → List Uuid}
    (hfiled : Filed c.shared bundle) {m : Communication} (hm : m ∈ c.shared.db.communications) :
    m ∈ c'.shared.db.communications ∧ ∃ bundle', Filed c'.shared bundle' ∧ bundle' m.id = bundle m.id := by
  refine (h.assuming (I := fun c' => ServiceReaches py settings Interleave.anyStep c')
    fun h => hc.trans h).invariant (I := fun c' => m ∈ c'.shared.db.communications ∧
      ∃ bundle', Filed c'.shared bundle' ∧ bundle' m.id = bundle m.id) ⟨hm, bundle, hfiled, rfl⟩ ?_
  rintro c' p a s l ⟨hm, bundle', hfiled, hbundle⟩ ⟨-, hc'⟩ hs
  obtain ⟨bundle'', hfiled', hkept, -⟩ := filed_step hc' hs hfiled
  exact ⟨(procStep_transition hs).communications_mono m hm, bundle'', hfiled', (hkept m hm).trans hbundle⟩

theorem filed_of_reaches (h : ServiceReaches py settings Interleave.anyStep c) :
    ∃ bundle, Filed c.shared bundle := by
  refine (h.assuming (I := fun c => ServiceReaches py settings Interleave.anyStep c)
    fun h => h).invariant (I := fun c => ∃ bundle, Filed c.shared bundle) ⟨fun _ => [], ?_⟩ ?_
  · refine ⟨?_, ?_, by simp, by simp⟩
    · rintro i x ⟨d, hd, -⟩
      cases hd
    · rintro x u ⟨r, hr, -⟩
      cases hr
  · rintro c p a s l ⟨bundle, hfiled⟩ ⟨-, hc⟩ hs
    obtain ⟨bundle', hfiled', -⟩ := filed_step hc hs hfiled
    exact ⟨bundle', hfiled'⟩

/-- A replay lists whatever the application has. -/
theorem mem_replayAck {db : Database} {key borrower : Text} {ack : WebhookAck}
    (h : replayAck db key borrower = some ack) (i : Uuid) :
    i ∈ ack.documentIds ↔ db.Holds i ack.applicationId := by
  simp only [replayAck, Option.bind_eq_some_iff] at h
  obtain ⟨m, -, x, -, heq⟩ := h
  split_ifs at heq
  cases heq
  simp only [Database.documentsOf, Database.Holds, List.mem_map, List.mem_filter, decide_eq_true_eq]
  exact exists_congr fun d => by tauto

/-- A message of the borrower is replayed. -/
theorem exists_replayAck {db : Database} {key borrower : Text} {m : Communication} (hone : OneMessage db)
    (hids : (db.applications.map (·.id)).Nodup) (hm : m ∈ db.communications) (hkey : m.idempotencyKey = some key)
    (hb : db.HasBorrower m.applicationId borrower) : ∃ ack, replayAck db key borrower = some ack := by
  obtain ⟨m', hfound⟩ : ∃ m', db.communications.find? (fun m => m.idempotencyKey = some key) = some m' :=
    Option.isSome_iff_exists.mp (List.find?_isSome.mpr ⟨m, hm, decide_eq_true hkey⟩)
  have hkey' : m'.idempotencyKey = some key := by simpa using List.find?_some hfound
  have hsame : m' = m := hone.unique (List.mem_of_find?_eq_some hfound) hkey' hm hkey
  obtain ⟨x, hx, hid, hborrower⟩ := hb
  obtain ⟨y, hy⟩ : ∃ y, db.application m.applicationId = some y :=
    Option.isSome_iff_exists.mp (List.find?_isSome.mpr ⟨x, hx, decide_eq_true hid⟩)
  have hyx : y = x := List.inj_on_of_nodup_map hids (List.mem_of_find?_eq_some hy) hx
    ((Database.application_id hy).trans hid.symm)
  have howner : ¬ y.externalBorrowerId ≠ borrower := not_not.mpr (by rw [hyx, hborrower])
  rw [replayAck, hfound, hsame, Option.bind_some, hy, Option.bind_some, if_neg howner]
  exact ⟨_, rfl⟩

/-- A replay from the database, any time after the commit of the message, is
answered, and it agrees with the ack of the commit exactly when no other message
that was filed under its application has attachments. -/
theorem replay_original_iff (settings : Settings) {c₁ c₂ c₃ : Service py} {p : ℕ} {r r' : Request}
    {draft : Draft} (h₁ : ServiceReaches py settings Interleave.anyStep c₁)
    (hdraft : c₁.procs p = .request r (.commit draft))
    (hcommit : Interleave.next (procStep settings) c₁ p .commitMessage = some c₂)
    (hack : c₂.procs p = .request r (.respond draft.ack))
    (h₃ : Interleave.Reaches (procStep settings) Interleave.anyStep c₂ c₃)
    (hsame : r'.borrower py = r.borrower py ∧ r'.idempotencyKey py = r.idempotencyKey py) :
    ∃ ack, replayAck c₃.shared.db (r'.scopedKey py) (r'.borrower py) = some ack ∧
      ((ack.applicationId = draft.ack.applicationId ∧ ack.communicationId = draft.ack.communicationId ∧
        ∀ u, u ∈ ack.documentIds ↔ u ∈ draft.ack.documentIds) ↔
      ∀ u, u ≠ draft.communication.id → ¬ Brings c₃.shared draft.application.id u) := by
  have h₂ : ServiceReaches py settings Interleave.anyStep c₂ := h₁.step trivial hcommit
  have h₁₃ := h₂.trans h₃
  -- The commit makes the documents of the draft the bundle of its message.
  obtain ⟨s, l, hs, rfl⟩ := Interleave.next_eq_some hcommit
  simp only [Function.update_self] at hack
  obtain ⟨bundle₁, hfiled₁⟩ := filed_of_reaches h₁
  obtain ⟨bundle₂, hfiled₂, -, hbundle₂⟩ := filed_step h₁ hs hfiled₁
  have hbundle := hbundle₂ r draft hdraft hack
  obtain ⟨draws, db₀, hdrafted⟩ := drafted_of_reaches h₁ hdraft
  have hmem₂ : draft.communication ∈ s.db.communications := by
    have htrans := procStep_transition hs
    rw [hdraft, hack] at htrans
    cases htrans with
    | committed h => exact (mem_commitDraft h).mpr (.inr rfl)
  obtain ⟨hmem, bundle, hfiled, hb⟩ := bundle_of_reaches h₂ h₃ hfiled₂ hmem₂
  rw [hbundle] at hb
  -- The replay finds that message, and an application of the borrower.
  have hkey : r'.scopedKey py = r.scopedKey py := by
    rw [Request.scopedKey, Request.scopedKey, hsame.1, hsame.2]
  have hserves := serves_of_reaches h₂ p
  simp only [Function.update_self] at hserves
  rw [hack] at hserves
  have hborrower : c₃.shared.db.HasBorrower draft.communication.applicationId (r'.borrower py) := by
    rw [hdrafted.communication.2.1, hsame.1]
    exact hasBorrower_of_reaches h₃ hserves
  obtain ⟨ack, hreplay⟩ := exists_replayAck (acksOk_of_reaches h₁₃).one (keysUnique_of_reaches h₁₃).applications
    hmem (hkey ▸ hdrafted.key) hborrower
  refine ⟨ack, hreplay, ?_⟩
  have hnames : Names c₃.shared.db (r'.scopedKey py) draft.ack :=
    ⟨draft.communication, hmem, hkey ▸ hdrafted.key, rfl, hdrafted.communication.2.1⟩
  obtain ⟨hcomm, happ⟩ := (names_replayAck hreplay).agree (acksOk_of_reaches h₁₃).one hnames
  have hown : ∀ x, Brings c₃.shared x draft.communication.id → x = draft.application.id := by
    rintro x ⟨-, -, -, m, hm, hid, hx, -⟩
    rw [List.inj_on_of_nodup_map (keysUnique_of_reaches h₁₃).communications hm hmem hid] at hx
    exact hx.symm.trans hdrafted.communication.2.1
  rw [← hfiled.holds_iff_alone hown, hb, and_iff_right happ, and_iff_right hcomm]
  refine forall_congr' fun i => ?_
  rw [mem_replayAck hreplay, happ]
  rfl

/-! ### A message between the two acks -/

def urlAttachment : AttachmentIn :=
  linkedAttachment "application/pdf".toList "x".toList length_pdf length_x

/-- A message with one attachment. -/
def payslipRequest : Request :=
  textRequest "alice".toList "payslip".toList "k2".toList [urlAttachment] length_alice (by decide) length_k2
    (by decide)

def helloRequest : Request := aliceHello "k1".toList length_k1

/-- The first message is about to be committed. -/
def helloDrafted : Service asciiPython :=
  serviceAfter (fun _ _ _ => true) ((intakeSteps 0 helloRequest 1).take 3)

def helloDraft : Draft where
  application := ⟨.ofNat 100, "alice".toList, .pendingDocs, 1⟩
  isNew := true
  communication := ⟨.ofNat 101, .ofNat 100, .sms, .inbound, some "x".toList, 0, some "alice:k1".toList⟩
  documents := []

def helloCommitted : Service asciiPython :=
  Interleave.after (procStep sampleSettings) (fun _ _ _ => true) helloDrafted [(0, .commitMessage)]

/-- It is answered, a message with an attachment follows, the cached ack is lost
and the first message comes again. -/
def helloAgain : Service asciiPython :=
  Interleave.after (procStep sampleSettings) (fun _ _ _ => true) helloCommitted
    ((0, .respond true) :: intakeSteps 1 payslipRequest 2 ++ [(2, .evict "alice:k1".toList),
      (2, .receive helloRequest), (2, .lookup true), (2, .draft (sampleIntake 3)), (2, .commitMessage)])

theorem helloDrafted_reaches :
    ServiceReaches asciiPython sampleSettings Interleave.anyStep helloDrafted := by
  unfold helloDrafted
  exact Interleave.after_reaches fun _ _ _ _ => trivial

theorem helloAgain_reaches :
    Interleave.Reaches (procStep sampleSettings) Interleave.anyStep helloCommitted helloAgain :=
  Interleave.after_reaches fun _ _ _ _ => trivial

theorem helloDrafted_commits : Interleave.next (procStep sampleSettings) helloDrafted 0 .commitMessage =
    some helloCommitted := Interleave.next_after (by decide +kernel)

/-- The replay answers with the document of the other message. -/
theorem helloAgain_lists_other :
    ServiceReaches asciiPython sampleSettings Interleave.anyStep helloAgain ∧
    (Interleave.after (procStep sampleSettings) (fun _ _ _ => true) helloAgain
      [(2, .replay), (2, .respond false)]).shared.responses =
        [(helloRequest, .ack ⟨.ofNat 100, "pending_docs".toList, .ofNat 101, [.ofNat 202]⟩),
          (payslipRequest, .ack ⟨.ofNat 100, "pending_docs".toList, .ofNat 201, [.ofNat 202]⟩),
          (helloRequest, .ack ⟨.ofNat 100, "pending_docs".toList, .ofNat 101, []⟩)] :=
  ⟨(helloDrafted_reaches.step trivial helloDrafted_commits).trans helloAgain_reaches, by decide +kernel⟩

theorem replay_original_iff_hello :
    ∃ ack, replayAck helloAgain.shared.db (helloRequest.scopedKey asciiPython)
        (helloRequest.borrower asciiPython) = some ack ∧
      ((ack.applicationId = helloDraft.ack.applicationId ∧ ack.communicationId = helloDraft.ack.communicationId ∧
        ∀ u, u ∈ ack.documentIds ↔ u ∈ helloDraft.ack.documentIds) ↔
      ∀ u, u ≠ helloDraft.communication.id → ¬ Brings helloAgain.shared helloDraft.application.id u) :=
  replay_original_iff sampleSettings helloDrafted_reaches rfl helloDrafted_commits rfl helloAgain_reaches
    ⟨rfl, rfl⟩

end LoanAgent
