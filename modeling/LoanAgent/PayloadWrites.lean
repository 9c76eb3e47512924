import LoanAgent.Library.Simulation
import LoanAgent.Library.WriteOnce
import LoanAgent.Payloads
import LoanAgent.StoreFiles

/-! The writes of a draft, call by call. The service counts the files of a draft as
stored at once; on the disk each is created under a temporary name, filled in as
many writes as it takes and renamed, while other processes do the same, and a crash
may come between any two of these calls. Proved: a file of the store is never torn,
and a row is committed only when its file is there, whole; what a crash leaves of a
write is a temporary file with the beginning of a payload. -/

namespace LoanAgent

variable {py : Python} {settings : Settings} {s s' : Store} {l l' : Proc py} {a : Action py}

/-- The service, which counts the files of a draft as stored and its refusal as given
from the draft on, and the files that are there. -/
structure DiskStore where
  service : Store := {}
  disk : WriteOnce.Disk FilePath UInt8 := fun _ => none

/-- A process with the files it has to write. -/
structure DiskProc (py : Python) where
  proc : Proc py
  writer : WriteOnce.Writer FilePath UInt8 := {}

inductive DiskAction (py : Python)
  | act (a : Action py)
  | call (c : WriteOnce.Call)

/-- The files that a step has added. -/
def newFiles (s s' : Store) : List (FilePath × Bytes) := s'.files.drop s.files.length

/-- A process goes on only when its files are written; it may crash at any time. -/
def diskStep (settings : Settings) : Interleave.Step DiskStore (DiskProc py) (DiskAction py) := fun s l a =>
  match a with
  | .act .crash => some (s, ⟨.idle, {}⟩)
  | .act a =>
    if l.writer.jobs = [] then (procStep settings s.service l.proc a).map fun r =>
      let added := newFiles s.service r.1
      ({ s with service := r.1 }, ⟨r.2, if added = [] then l.writer else ⟨added, added, none⟩⟩)
    else none
  | .call c => (WriteOnce.call temporaryPath s.disk l.writer c).map fun r =>
    ({ s with disk := r.1 }, { l with writer := r.2 })

def diskInitial (py : Python) : Interleave.Config DiskStore (DiskProc py) := ⟨{}, fun _ => ⟨.idle, {}⟩⟩

abbrev DiskReaches (py : Python) (settings : Settings) (c : Interleave.Config DiskStore (DiskProc py)) : Prop :=
  Interleave.Reaches (diskStep settings) Interleave.anyStep (diskInitial py) c

/-! ### The service on its own -/

/-- A step is one of the service, with its files handed to the writer, or a call. -/
theorem diskStep_cases {t t' : DiskStore} {m m' : DiskProc py} {e : DiskAction py}
    (h : diskStep settings t m e = some (t', m')) :
    (t' = t ∧ m' = ⟨.idle, {}⟩) ∨
    (∃ a, m.writer.jobs = [] ∧ procStep settings t.service m.proc a = some (t'.service, m'.proc) ∧
      t'.disk = t.disk ∧ m'.writer = if newFiles t.service t'.service = [] then m.writer else
        ⟨newFiles t.service t'.service, newFiles t.service t'.service, none⟩) ∨
    ∃ c, WriteOnce.call temporaryPath t.disk m.writer c = some (t'.disk, m'.writer) ∧
      t'.service = t.service ∧ m'.proc = m.proc := by
  unfold diskStep at h
  split at h
  · cases h
    exact .inl ⟨rfl, rfl⟩
  next a _ =>
    split_ifs at h with hjobs
    obtain ⟨r, hr, heq⟩ := Option.map_eq_some_iff.mp h
    cases heq
    exact .inr (.inl ⟨a, hjobs, hr, rfl, rfl⟩)
  next c =>
    obtain ⟨r, hr, heq⟩ := Option.map_eq_some_iff.mp h
    cases heq
    exact .inr (.inr ⟨c, hr, rfl, rfl⟩)

variable {c : Interleave.Config DiskStore (DiskProc py)}

theorem service_of_disk (h : DiskReaches py settings c) : ServiceReaches py settings Interleave.anyStep
    ⟨c.shared.service, fun p => (c.procs p).proc⟩ := by
  refine h.refines (fun s => s.service) (fun l => l.proc) ?_
  rintro c p e s l - - hstep
  rcases diskStep_cases hstep with ⟨rfl, rfl⟩ | ⟨a, -, hs, -, -⟩ | ⟨_, -, hs, hl⟩
  · exact Interleave.Does.once .crash (by cases (c.procs p).proc <;> rfl)
  · exact Interleave.Does.once a hs
  · rw [hs, hl]

/-! ### The writers on their own -/

/-- The places where payloads are stored. -/
def payloadPaths (py : Python) (settings : Settings) : Set FilePath :=
  Set.range fun d : Deposit => d.target py settings

theorem temporaryPath_injOn : Set.InjOn temporaryPath (payloadPaths py settings) := by
  rintro _ ⟨d, rfl⟩ _ ⟨e, rfl⟩ h
  simp only [temporaryPath_target] at h
  obtain ⟨hfolder, hname⟩ := List.append_inj' h rfl
  simp only [Deposit.target_eq, hfolder, List.append_cancel_right (List.cons.inj hname).1]

theorem temporaryPath_apart : ∀ p ∈ payloadPaths py settings, temporaryPath p ∉ payloadPaths py settings := by
  rintro _ ⟨d, rfl⟩ ⟨e, he⟩
  exact temporaryPath_ne d e he.symm

theorem payloadPath_buildDocument {x : AttachmentIn} {b u : Uuid} {d : Document}
    {file : Option (FilePath × Bytes)} (h : buildDocument py settings x b u = .ok (d, file)) :
    ∀ f ∈ file, f.1 ∈ payloadPaths py settings := by
  unfold buildDocument at h
  split_ifs at h
  split at h
  · split at h
    · cases h
    next payload _ =>
      split_ifs at h
      simp only [Except.ok.injEq, Prod.mk.injEq] at h
      obtain ⟨-, rfl⟩ := h
      rintro f hf
      obtain rfl := Option.some.inj hf
      exact ⟨⟨b, u, _, payload⟩, rfl⟩
  · split at h
    · cases h
    · split_ifs at h
      cases h
      exact fun f hf => by cases hf

theorem payloadPath_buildDocuments {b : Uuid} {ids : ℕ → Uuid} {i : ℕ} {attachments : List AttachmentIn}
    {f : FilePath × Bytes} (hf : f ∈ (buildDocuments py settings b ids i attachments).2) :
    f.1 ∈ payloadPaths py settings := by
  induction attachments generalizing i with
  | nil => cases hf
  | cons x rest ih =>
    unfold buildDocuments at hf
    split at hf
    · cases hf
    next d file hx =>
      rcases List.mem_append.mp hf with hf | hf
      · exact payloadPath_buildDocument hx f (Option.mem_toList.mp hf)
      · exact ih hf

theorem payloadPath_draftMessage {db : Database} {r : Request} {draws : IntakeDraws}
    {f : FilePath × Bytes} (hf : f ∈ (draftMessage py settings db r draws).2) :
    f.1 ∈ payloadPaths py settings := by
  unfold draftMessage at hf
  dsimp only at hf
  split_ifs at hf
  · cases hf
  · exact payloadPath_buildDocuments hf

theorem payloadPaths_of_reaches {ok : Service py → ℕ → Action py → Prop} {d : Service py}
    (h : ServiceReaches py settings ok d) : ∀ f ∈ d.shared.files, f.1 ∈ payloadPaths py settings := by
  refine h.invariant (I := fun d => ∀ f ∈ d.shared.files, f.1 ∈ payloadPaths py settings)
    (fun f hf => absurd hf List.not_mem_nil) ?_
  intro d p a s' l' hd _ hs f hf
  rcases (procStep_transition hs).files with hfiles | ⟨r, draws, drafted, files, -, hdraft, hfiles, -⟩
  · exact hd f (hfiles ▸ hf)
  · rcases List.mem_append.mp (hfiles ▸ hf) with hf | hf
    · exact hd f hf
    · exact payloadPath_draftMessage (by rw [hdraft]; exact hf)

theorem FilesOwned.nodup (h : FilesOwned settings s) : (s.files.map (·.1)).Nodup := by
  obtain ⟨owners, hnodup, -, hall⟩ := h
  generalize s.files = files at hall
  induction hall with
  | nil => exact List.nodup_nil
  | @cons u f owners files hw hall ih =>
    obtain ⟨hu, howners⟩ := List.nodup_cons.mp hnodup
    refine List.nodup_cons.mpr ⟨fun hmem => ?_, ih howners⟩
    obtain ⟨g, hg, hgf⟩ := List.mem_map.mp hmem
    obtain ⟨i, hi, rfl⟩ := List.getElem_of_mem hg
    have hlen := hall.length_eq
    obtain ⟨b, hw'⟩ := (List.forall₂_iff_get.mp hall).2 i (by omega) hi
    obtain ⟨b', hw⟩ := hw
    simp only [List.get_eq_getElem, hgf] at hw'
    exact hu ((hw.unique hw').2 ▸ List.get_mem owners _)

/-- The disk and what the service counts as stored. -/
def DiskStore.writes (s : DiskStore) : WriteOnce.State FilePath UInt8 := ⟨s.disk, s.service.files⟩

theorem files_eq (h : Transition settings s l a s' l') : s'.files = s.files ++ newFiles s s' := by
  obtain ⟨added, hadded⟩ := h.extends.files
  rw [newFiles, ← hadded, List.drop_left]

/-- The writers keep to the rules of files that are written once. -/
theorem writes_of_disk (h : DiskReaches py settings c) :
    WriteOnce.Sound temporaryPath (payloadPaths py settings) ⟨c.shared.writes, fun p => (c.procs p).writer⟩ := by
  have hfollowed : ∃ d, Interleave.Reaches (WriteOnce.step temporaryPath)
      (WriteOnce.fresh (payloadPaths py settings)) (WriteOnce.initial FilePath UInt8) d ∧
      d = ⟨c.shared.writes, fun p => (c.procs p).writer⟩ := by
    refine h.follows (R := fun c d => d = ⟨c.shared.writes, fun p => (c.procs p).writer⟩) rfl ?_
    rintro c c' p e _ hr - rfl hnext
    have hservice := service_of_disk (hr.step trivial hnext)
    obtain ⟨t, m, hstep, rfl⟩ := Interleave.next_eq_some hnext
    have hprocs : (fun q => (Function.update c.procs p m q).writer) =
        Function.update (fun q => (c.procs q).writer) p m.writer := by
      funext q
      by_cases hq : q = p
      · subst hq
        simp only [Function.update_self]
      · simp only [Function.update_of_ne hq]
    refine ⟨_, ?_, rfl⟩
    dsimp only at hservice ⊢
    rw [hprocs]
    rcases diskStep_cases hstep with ⟨rfl, rfl⟩ | ⟨a, hjobs, hs, hdisk, hwriter⟩ | ⟨k, hcall, hs, -⟩
    · exact Interleave.Reaches.start.step (p := p) (a := .crash) trivial rfl
    · have hfiles := files_eq (procStep_transition hs)
      by_cases hnone : newFiles c.shared.service t.service = []
      · rw [hwriter, if_pos hnone, Function.update_eq_self]
        rw [hnone, List.append_nil] at hfiles
        have hsame : t.writes = c.shared.writes := by rw [DiskStore.writes, hdisk, hfiles]; rfl
        rw [hsame]
        exact .start
      · refine Interleave.Reaches.start.step (p := p) (a := .begin (newFiles c.shared.service t.service)) ?_ ?_
        · refine ⟨?_, fun f hf => payloadPaths_of_reaches hservice f ?_⟩
          · have hnodup := (filesOwned_of_reaches hservice).nodup
            rwa [hfiles] at hnodup
          · exact hfiles ▸ List.mem_append_right _ hf
        · rw [hwriter, if_neg hnone]
          simp only [Interleave.next, WriteOnce.step, hjobs, if_true, Option.map_some, DiskStore.writes, hdisk,
            hfiles]
    · refine Interleave.Reaches.start.step (p := p) (a := .call k) trivial ?_
      simp only [Interleave.next, WriteOnce.step, DiskStore.writes, hcall, hs, Option.map_some]
  obtain ⟨_, hd, rfl⟩ := hfollowed
  exact WriteOnce.sound_of_reaches temporaryPath_injOn temporaryPath_apart hd

/-! ### Rows and files -/

/-- The files that are there, whole. -/
def DiskStore.stored (s : DiskStore) : List (FilePath × Bytes) :=
  s.service.files.filter fun f => s.disk f.1 = some f.2

/-- What is handed to the writer is what the draft needs. -/
theorem Transition.batch (h : Transition settings s l a s' l') {files : List (FilePath × Bytes)}
    (hl : l.Deposited settings files) :
    l'.Deposited settings (newFiles s s') ∨ newFiles s s' = [] ∧ l'.Deposited settings files := by
  cases h with
  | evict | forgotten => exact .inr ⟨List.drop_length, hl⟩
  | drafted _ h =>
    refine .inl ?_
    rw [newFiles, Store.drafted, List.drop_left]
    exact keeps_draftMessage h
  | delivered _ _ _ h => rcases h with rfl | rfl <;> exact .inl trivial
  | _ => exact .inl trivial

/-- Nothing on the disk is torn, and no committed row is without its file. -/
structure OnDisk (py : Python) (settings : Settings) (s : DiskStore) : Prop where
  whole : ∀ path b, s.disk path = some b → (path, b) ∈ s.service.files ∨
    ∃ f ∈ s.service.files, path = temporaryPath f.1 ∧ b <+: f.2
  rows : List.Forall₂ (fun d x => d.Keeps py settings s.stored x) s.service.db.documents s.service.attachments

/-- A payload is on the disk, whole, before the row that leads to it is committed,
whatever crashes between two calls. -/
theorem payloads_on_disk (h : DiskReaches py settings c) : OnDisk py settings c.shared := by
  refine ⟨(writes_of_disk h).state.whole, ?_⟩
  refine ((h.assuming (I := fun c => WriteOnce.Sound temporaryPath (payloadPaths py settings)
    ⟨c.shared.writes, fun p => (c.procs p).writer⟩) fun h => writes_of_disk h).assertions
    (I := fun s => List.Forall₂ (fun d x => d.Keeps py settings s.stored x) s.service.db.documents
      s.service.attachments)
    (J := fun _ l => l.proc.Deposited settings l.writer.batch) (R := fun _ _ => True) .nil (fun _ => trivial) ?_
    fun _ _ _ _ hl => hl).1
  rintro c p e t m ⟨-, hwrites⟩ hs hl hstep
  rcases diskStep_cases hstep with ⟨rfl, rfl⟩ | ⟨a, hjobs, hact, hdisk, hwriter⟩ | ⟨k, hcall, hservice, hproc⟩
  · exact ⟨hs, trivial, trivial⟩
  · have htrans := procStep_transition hact
    have hstored : ∀ f ∈ c.shared.stored, f ∈ t.stored := by
      intro f hf
      obtain ⟨hmem, hthere⟩ := List.mem_filter.mp hf
      rw [DiskStore.stored, hdisk]
      exact List.mem_filter.mpr ⟨htrans.extends.files.subset hmem, hthere⟩
    have hwritten : ∀ f ∈ (c.procs p).writer.batch, f ∈ c.shared.stored := fun f hf => by
      have hdone := (hwrites.writers p).done f hf (by rw [hjobs]; exact List.not_mem_nil)
      exact List.mem_filter.mpr ⟨(hwrites.writers p).batch f hf, decide_eq_true hdone⟩
    refine ⟨htrans.attachments hstored (hl.mono hwritten) hs, ?_, trivial⟩
    rw [hwriter]
    rcases htrans.batch hl with hnew | ⟨hnone, hold⟩
    · split_ifs with hnone
      · exact (hnone ▸ hnew).mono fun f hf => absurd hf List.not_mem_nil
      · exact hnew
    · rw [if_pos hnone]
      exact hold
  · have hstored : ∀ f ∈ c.shared.stored, f ∈ t.stored := by
      intro f hf
      obtain ⟨hmem, hthere⟩ := List.mem_filter.mp hf
      have hstays := WriteOnce.call_target temporaryPath_apart hwrites.state (hwrites.writers p) hcall hmem
        (of_decide_eq_true hthere)
      rw [DiskStore.stored, hservice]
      exact List.mem_filter.mpr ⟨hmem, decide_eq_true hstays⟩
    refine ⟨?_, ?_, trivial⟩
    · rw [hservice]
      exact hs.imp fun d x hd => hd.mono hstored
    · rw [hproc, WriteOnce.call_batch hcall]
      exact hl

/-! ### A crash while a payload is written -/

/-- A schedule of the service, with the calls in between. -/
def diskAfter (schedule : List (ℕ × DiskAction asciiPython)) :
    Interleave.Config DiskStore (DiskProc asciiPython) :=
  Interleave.after (diskStep sampleSettings) (fun _ _ _ => true) (diskInitial asciiPython) schedule

/-- Alice's payslip is written in two parts, and committed; a second attempt crashes in the middle. -/
def interruptedWrite : List (ℕ × DiskAction asciiPython) :=
  [(0, .act (.receive payslipMessage)), (1, .act (.receive payslipMessage)), (0, .act (.lookup true)),
    (1, .act (.lookup true)), (0, .act (.draft (sampleIntake 1))), (1, .act (.draft (sampleIntake 2))),
    (0, .call .create), (1, .call .create), (0, .call (.append 4)), (1, .call (.append 6)),
    (1, .act .crash), (0, .call (.append 7)), (0, .call .rename), (0, .act .commitMessage)]

theorem payloads_on_disk_interruptedWrite :
    (diskAfter interruptedWrite).shared.service.db.documents.length = 1 ∧
    (diskAfter interruptedWrite).shared.stored = [payslipFile] ∧
    (diskAfter interruptedWrite).shared.service.files.length = 2 ∧
    OnDisk asciiPython sampleSettings (diskAfter interruptedWrite).shared :=
  ⟨by decide +kernel, by decide +kernel, by decide +kernel,
    payloads_on_disk (Interleave.after_reaches fun _ _ _ _ => trivial)⟩

end LoanAgent
