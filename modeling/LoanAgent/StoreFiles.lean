import LoanAgent.DocumentParser
import LoanAgent.ObjectStore

/-! The object store as files on a disk. Proved: the way back from a URI leaves
the folder of its application exactly when the segments behind the application's
identifier climb above it and come down to the store again, but not to that
folder; and the calls of a sequence on different documents each store their own
file, whatever the names they are given, and leave the other files alone. -/

namespace LoanAgent

/-! ### Where a URI leads -/

/-- The steps up and the names that are left of the segments of a path. -/
structure Route where
  up : ℕ := 0
  names : List Text := []

def Route.step (r : Route) (s : Text) : Route :=
  if s = [] ∨ s = ".".toList then r
  else if s = "..".toList then
    if r.names = [] then { r with up := r.up + 1 } else { r with names := r.names.dropLast }
  else { r with names := r.names ++ [s] }

/-- The segments of a path in normal form. -/
def route (segments : List Text) : Route := segments.foldl Route.step {}

/-- Where a route leads from a folder; above the root there is only the root. -/
def Route.from (r : Route) (base : FilePath) : FilePath := base.take (base.length - r.up) ++ r.names

theorem Route.step_from (r : Route) (base : FilePath) (s : Text) (rest : List Text) :
    resolveFrom (r.from base) (s :: rest) = resolveFrom ((r.step s).from base) rest := by
  simp only [resolveFrom, Route.step]
  split_ifs with hskip hup hnames
  · rfl
  · congr 1
    rw [Route.from, Route.from, hnames, List.append_nil, List.append_nil, List.dropLast_eq_take, List.take_take]
    congr 1
    dsimp only
    rw [List.length_take]
    omega
  · rw [Route.from, Route.from, List.dropLast_append_of_ne_nil hnames]
  · rw [Route.from, Route.from, List.append_assoc]

theorem resolveFrom_route (base : FilePath) (segments : List Text) :
    resolveFrom base segments = (route segments).from base := by
  have key : ∀ r : Route, resolveFrom (r.from base) segments = (segments.foldl Route.step r).from base := by
    induction segments with
    | nil => exact fun r => rfl
    | cons s rest ih => exact fun r => (r.step_from base s rest).trans (ih _)
  have hstart : ({} : Route).from base = base := by simp [Route.from]
  rw [route, ← key, hstart]

/-- The last segments of the store's root that the route has left, the folder of
the application not counted. -/
def Route.left (r : Route) (settings : Settings) : FilePath :=
  settings.root.drop (settings.root.length - (r.up - 1))

/-- The route does not climb above the folder, misses the store on its way down,
or comes down to the folder again. -/
def Route.StaysInside (r : Route) (settings : Settings) (a : Uuid) : Prop :=
  r.up = 0 ∨ ¬ r.left settings <+: r.names ∨ r.left settings ++ [a.str] <+: r.names

theorem Route.from_folder {r : Route} (h : r.up ≠ 0) (settings : Settings) (a : Uuid) :
    (settings.root <+: r.from (settings.folder a) ↔ r.left settings <+: r.names) ∧
      (settings.folder a <+: r.from (settings.folder a) ↔ r.left settings ++ [a.str] <+: r.names) := by
  set n := settings.root.length - (r.up - 1) with hn
  have hfrom : r.from (settings.folder a) = settings.root.take n ++ r.names := by
    have hlength : (settings.folder a).length - r.up = n := by
      rw [Settings.folder, List.length_append, List.length_singleton]
      omega
    rw [Route.from, hlength, Settings.folder, List.take_append_of_le_length (by omega)]
  have hroot : settings.root = settings.root.take n ++ r.left settings := (List.take_append_drop n _).symm
  have hfolder : settings.folder a = settings.root.take n ++ (r.left settings ++ [a.str]) := by
    rw [← List.append_assoc, ← hroot, Settings.folder]
  rw [hfrom]
  exact ⟨(iff_of_eq (congrArg (· <+: _) hroot)).trans (List.prefix_append_right_inj _),
    (iff_of_eq (congrArg (· <+: _) hfolder)).trans (List.prefix_append_right_inj _)⟩

/-- A path that is returned lies in the folder of the application exactly when
the route behind the identifier stays inside. -/
theorem localDocumentPath_inside_iff (settings : Settings) (a : Uuid) (s3Path : Option Text) :
    (∀ p, localDocumentPath settings a s3Path = some p → settings.folder a <+: p) ↔
      ∀ rest, s3Path = some (s3UriPrefix ++ (a.str ++ '/' :: rest)) →
        (route (rest.splitOn '/')).StaysInside settings a := by
  have hleads : ∀ rest p, localDocumentPath settings a (some (s3UriPrefix ++ (a.str ++ '/' :: rest))) = some p ↔
      p = (route (rest.splitOn '/')).from (settings.folder a) ∧ settings.root <+: p := by
    intro rest p
    rw [localDocumentPath_uri, resolveFrom_route]
  constructor
  · rintro h rest rfl
    by_cases hup : (route (rest.splitOn '/')).up = 0
    · exact .inl hup
    · obtain ⟨hroot, hfolder⟩ := Route.from_folder hup settings a
      refine .inr (or_iff_not_imp_left.mpr fun hin => ?_)
      rw [not_not, ← hroot] at hin
      exact hfolder.mp (h _ ((hleads _ _).mpr ⟨rfl, hin⟩))
  · intro h p hp
    obtain ⟨rest, rfl, -⟩ := localDocumentPath_some hp
    obtain ⟨rfl, hin⟩ := (hleads _ _).mp hp
    by_cases hup : (route (rest.splitOn '/')).up = 0
    · rw [Route.from, hup, Nat.sub_zero, List.take_length]
      exact List.prefix_append _ _
    · obtain ⟨hroot, hfolder⟩ := Route.from_folder hup settings a
      rcases h rest rfl with hzero | hout | hback
      · exact absurd hzero hup
      · exact absurd (hroot.mp hin) hout
      · exact hfolder.mpr hback

/-- A store below `/data`. -/
def sampleStore : Settings where
  root := ["data".toList, "s3".toList]

/-- A path of one application that leads to a file of another. -/
def neighbourPath : Text :=
  s3UriPrefix ++ ((Uuid.ofNat 1).str ++ '/' :: ("../".toList ++ (Uuid.ofNat 2).str ++ "/x.pdf".toList))

theorem neighbourPath_leaves :
    ¬ ∀ p, localDocumentPath sampleStore (.ofNat 1) (some neighbourPath) = some p →
      sampleStore.folder (.ofNat 1) <+: p := by
  have hread : localDocumentPath sampleStore (.ofNat 1) (some neighbourPath) =
      some (sampleStore.folder (.ofNat 2) ++ ["x.pdf".toList]) := by decide +kernel
  intro h
  have hin : sampleStore.folder (.ofNat 1) <+: sampleStore.folder (.ofNat 2) ++ ["x.pdf".toList] := h _ hread
  revert hin
  decide +kernel

/-! ### A file system -/

inductive Node
  | folder
  | file (content : Bytes)
  deriving DecidableEq

/-- What stands under each path, if anything. -/
abbrev Disk := FilePath → Option Node

def Disk.put (disk : Disk) (path : FilePath) (node : Option Node) : Disk :=
  fun p => if p = path then node else disk p

/-- `path.mkdir(parents=True, exist_ok=True)`, the outermost folder first. -/
def makeFolders : List FilePath → Disk → Except OsError Disk
  | [], disk => .ok disk
  | p :: rest, disk => match disk p with
    | some (.file _) => .error .notADirectory
    | _ => makeFolders rest (disk.put p (some .folder))

/-- `path.write_bytes(payload)`. -/
def writeBytes (path : FilePath) (payload : Bytes) (disk : Disk) : Except OsError Disk :=
  match disk path.dropLast, disk path with
  | none, _ => .error .fileNotFound
  | some (.file _), _ => .error .notADirectory
  | some .folder, some .folder => .error .isADirectory
  | some .folder, _ => .ok (disk.put path (some (.file payload)))

/-- `source.replace(target)` of a file. -/
def replaceFile (source target : FilePath) (disk : Disk) : Except OsError Disk :=
  match disk source, disk target with
  | some (.file _), some .folder => .error .isADirectory
  | some (.file content), _ => .ok ((disk.put source none).put target (some (.file content)))
  | _, _ => .error .fileNotFound

/-- `path.with_suffix(suffix)` for the last segment of a path. -/
def withSuffix (name suffix : Text) : Text :=
  name.take (name.length - (pathSuffix name).length) ++ suffix

/-- The temporary file of `_atomic_write_bytes`. -/
def temporaryPath (target : FilePath) : FilePath :=
  let name := target.getLast?.getD []
  target.dropLast ++ [withSuffix name (pathSuffix name ++ ".tmp".toList)]

/-- `_atomic_write_bytes`. -/
def atomicWriteBytes (target : FilePath) (payload : Bytes) (disk : Disk) : Except OsError Disk :=
  match writeBytes (temporaryPath target) payload disk with
  | .error e => .error e
  | .ok disk => replaceFile (temporaryPath target) target disk

/-- The arguments of a call of `persist_document`. -/
structure Deposit where
  applicationId : Uuid
  documentId : Uuid
  filename : Text
  payload : Bytes

section Deposits
variable (py : Python) (settings : Settings)

/-- The file of a deposit. -/
def Deposit.target (d : Deposit) : FilePath :=
  (persistDocument py settings d.applicationId d.documentId d.filename).1

/-- The URI that is returned. -/
def Deposit.uri (d : Deposit) : Text :=
  (persistDocument py settings d.applicationId d.documentId d.filename).2

/-- `persist_document` on the disk. -/
def persist (d : Deposit) (disk : Disk) : Except OsError (Disk × Text) :=
  match makeFolders (settings.folder d.applicationId).inits disk with
  | .error e => .error e
  | .ok disk =>
    (atomicWriteBytes (d.target py settings) d.payload disk).map fun disk => (disk, d.uri py settings)

/-- The calls one after another, with the URIs that they return. -/
def persistAll : List Deposit → Disk → Except OsError (Disk × List Text)
  | [], disk => .ok (disk, [])
  | d :: rest, disk => match persist py settings d disk with
    | .error e => .error e
    | .ok (disk, uri) => (persistAll rest disk).map fun r => (r.1, uri :: r.2)

end Deposits

variable {py : Python} {settings : Settings}

/-! ### Names -/

theorem pathSuffix_cases (filename : Text) :
    pathSuffix filename = [] ∨
      ∃ tail, pathSuffix filename = '.' :: tail ∧ tail ≠ [] ∧ '.' ∉ tail ∧ '/' ∉ tail := by
  have hslash := slash_not_mem_pathSuffix filename
  unfold pathSuffix at hslash ⊢
  dsimp only at hslash ⊢
  split_ifs at hslash ⊢ with h
  · refine .inr ⟨_, rfl, h.2.1, fun hmem => ?_, fun hmem => hslash (List.mem_cons_of_mem _ hmem)⟩
    have := List.mem_takeWhile_imp (List.mem_reverse.mp hmem)
    simp at this
  · exact .inl rfl

/-- A stored name is an identifier and an allowed suffix, which has its only dot in front. -/
theorem storedName_suffix (py : Python) (u : Uuid) (filename : Text) :
    ∃ tail, storedName py u filename = u.str ++ '.' :: tail ∧
      Rx.fullmatch py.isWord safeSuffix ('.' :: tail) = true ∧ tail ≠ [] ∧ '.' ∉ tail ∧ '/' ∉ tail := by
  unfold storedName
  dsimp only
  split_ifs with h
  · rcases pathSuffix_cases filename with hnil | ⟨tail, htail, hne, hdot, hslash⟩
    · rw [hnil] at h
      cases h
    · rw [htail] at h ⊢
      exact ⟨tail, rfl, h, hne, hdot, hslash⟩
  · exact ⟨"bin".toList, rfl, rfl, by decide, by decide, by decide⟩

theorem pathName_stored {u : Uuid} {tail : Text} (hslash : '/' ∉ tail) :
    pathName (u.str ++ '.' :: tail) = u.str ++ '.' :: tail := by
  have hname : '/' ∉ u.str ++ '.' :: tail := by
    simp [slash_not_mem_str, hslash]
  have hlong : ∀ t : Text, t.length < 36 → u.str ++ '.' :: tail ≠ t := by
    rintro t ht rfl
    rw [List.length_append, str_length] at ht
    omega
  rw [pathName, List.splitOn_eq_singleton hname, List.filter_cons_of_pos]
  · rfl
  · exact decide_eq_true ⟨hlong [] (by decide), hlong ['.'] (by decide)⟩

theorem pathSuffix_stored {u : Uuid} {tail : Text} (hne : tail ≠ []) (hdot : '.' ∉ tail) (hslash : '/' ∉ tail) :
    pathSuffix (u.str ++ '.' :: tail) = '.' :: tail := by
  have htail : ((u.str ++ '.' :: tail).reverse.takeWhile (· ≠ '.')).reverse = tail := by
    rw [List.reverse_append, List.reverse_cons, List.append_assoc, List.takeWhile_append_of_pos]
    · simp
    · intro c hc
      exact decide_eq_true fun heq => hdot (heq ▸ List.mem_reverse.mp hc)
  have hlength : tail.length + 1 < (u.str ++ '.' :: tail).length := by
    rw [List.length_append, str_length, List.length_cons]
    omega
  rw [pathSuffix, pathName_stored hslash, htail, if_pos ⟨by simp, hne, hlength⟩]

theorem Deposit.target_eq (d : Deposit) : d.target py settings =
    settings.folder d.applicationId ++ [storedName py d.documentId d.filename] := by
  simp [Deposit.target, persistDocument, Settings.folder]

/-- The temporary file stands beside the file, with `.tmp` behind its name. -/
theorem temporaryPath_target (d : Deposit) : temporaryPath (d.target py settings) =
    settings.folder d.applicationId ++ [storedName py d.documentId d.filename ++ ".tmp".toList] := by
  obtain ⟨tail, hname, -, hne, hdot, hslash⟩ := storedName_suffix py d.documentId d.filename
  have htake : (d.documentId.str ++ '.' :: tail).take ((d.documentId.str ++ '.' :: tail).length -
      ('.' :: tail).length) = d.documentId.str := by
    rw [List.length_append, Nat.add_sub_cancel, List.take_left]
  rw [temporaryPath, d.target_eq, List.getLast?_concat, List.dropLast_concat, Option.getD_some, hname,
    withSuffix, pathSuffix_stored hne hdot hslash, htake, List.append_assoc]

/-- No file is named like a temporary one. -/
theorem temporaryPath_ne (d e : Deposit) : temporaryPath (d.target py settings) ≠ e.target py settings := by
  obtain ⟨tail, hname, -, -, -, -⟩ := storedName_suffix py d.documentId d.filename
  obtain ⟨tail', hname', -, -, hdot', -⟩ := storedName_suffix py e.documentId e.filename
  rw [temporaryPath_target, e.target_eq, hname, hname']
  intro h
  obtain ⟨-, hlast⟩ := List.append_inj' h rfl
  have hnames := (List.cons.inj hlast).1
  rw [List.append_assoc] at hnames
  obtain ⟨-, htails⟩ := List.append_inj hnames (by rw [str_length, str_length])
  have hsuffix : tail ++ ".tmp".toList = tail' := (List.cons.inj htails).2
  exact hdot' (hsuffix ▸ List.mem_append_right _ (by decide))

/-- Files of different documents are different. -/
theorem target_injective {d e : Deposit} (h : d.target py settings = e.target py settings) :
    d.documentId = e.documentId := by
  obtain ⟨tail, hname, -⟩ := storedName_suffix py d.documentId d.filename
  obtain ⟨tail', hname', -⟩ := storedName_suffix py e.documentId e.filename
  rw [d.target_eq, e.target_eq, hname, hname'] at h
  have hnames := (List.cons.inj (List.append_inj' h rfl).2).1
  exact Uuid.str_injective (List.append_inj hnames (by rw [str_length, str_length])).1

/-! ### One call -/

theorem makeFolders_ok {paths : List FilePath} {disk : Disk}
    (h : ∀ p ∈ paths, ∀ c, disk p ≠ some (.file c)) :
    makeFolders paths disk = .ok fun p => if p ∈ paths then some .folder else disk p := by
  induction paths generalizing disk with
  | nil => rfl
  | cons p rest ih =>
    have hput : ∀ q ∈ rest, ∀ c, disk.put p (some .folder) q ≠ some (.file c) := by
      intro q hq c
      unfold Disk.put
      split_ifs
      · intro heq
        cases heq
      · exact h q (List.mem_cons_of_mem _ hq) c
    have hfold : makeFolders (p :: rest) disk = makeFolders rest (disk.put p (some .folder)) := by
      rw [makeFolders]
      split
      next c hc => exact absurd hc (h p List.mem_cons_self c)
      · rfl
    rw [hfold, ih hput]
    congr 1
    funext q
    by_cases hq : q = p <;> simp [Disk.put, hq]

theorem writeBytes_ok {path : FilePath} {disk : Disk} (hparent : disk path.dropLast = some .folder)
    (hpath : disk path ≠ some .folder) (payload : Bytes) :
    writeBytes path payload disk = .ok (disk.put path (some (.file payload))) := by
  unfold writeBytes
  rw [hparent]
  cases hnode : disk path with
  | none => rfl
  | some node =>
    cases node with
    | folder => exact absurd hnode hpath
    | file c => rfl

theorem replaceFile_ok {source target : FilePath} {disk : Disk} {content : Bytes}
    (hsource : disk source = some (.file content)) (htarget : disk target ≠ some .folder) :
    replaceFile source target disk = .ok ((disk.put source none).put target (some (.file content))) := by
  unfold replaceFile
  rw [hsource]
  cases hnode : disk target with
  | none => rfl
  | some node =>
    cases node with
    | folder => exact absurd hnode htarget
    | file c => rfl

/-- What the store holds: nothing is in the way above it, its files are those of
the deposits, and its folders are those of applications. -/
structure Stored (py : Python) (settings : Settings) (done : List Deposit) (disk : Disk) : Prop where
  above : ∀ p c, p <+: settings.root → disk p ≠ some (.file c)
  files : ∀ p c, settings.root <+: p →
    (disk p = some (.file c) ↔ ∃ d ∈ done, p = d.target py settings ∧ c = d.payload)
  folders : ∀ p, settings.root <+: p → disk p = some .folder → p.length ≤ settings.root.length + 1

/-- The disk behind a call. -/
def Disk.deposit (py : Python) (settings : Settings) (disk : Disk) (d : Deposit) : Disk := fun p =>
  if p = d.target py settings then some (.file d.payload)
  else if p = temporaryPath (d.target py settings) then none
  else if p <+: settings.folder d.applicationId then some .folder
  else disk p

theorem folder_prefix {p : FilePath} {a : Uuid} (h : p <+: settings.folder a) :
    p <+: settings.root ∨ p = settings.folder a := by
  rcases List.prefix_concat_iff.mp h with h | h
  · exact .inr h
  · exact .inl h

theorem root_prefix_entry (a : Uuid) (name : Text) : settings.root <+: settings.folder a ++ [name] :=
  (List.prefix_append _ _).trans (List.prefix_append _ _)

/-- A file of the store is no part of the path of a folder. -/
theorem not_prefix_folder (a b : Uuid) (name : Text) : ¬ settings.folder a ++ [name] <+: settings.folder b := by
  intro h
  have hlength := h.length_le
  simp [Settings.folder] at hlength

theorem Stored.not_file {done : List Deposit} {disk : Disk} (h : Stored py settings done disk) {a : Uuid}
    {p : FilePath} (hp : p <+: settings.folder a) (c : Bytes) : disk p ≠ some (.file c) := by
  rcases folder_prefix hp with hp | rfl
  · exact h.above p c hp
  · intro hfile
    obtain ⟨e, -, he, -⟩ := (h.files _ c (List.prefix_append _ _)).mp hfile
    have hlength := congrArg List.length he
    simp [e.target_eq, Settings.folder] at hlength

theorem Stored.not_folder {done : List Deposit} {disk : Disk} (h : Stored py settings done disk) (a : Uuid)
    (name : Text) : disk (settings.folder a ++ [name]) ≠ some .folder := by
  intro hfolder
  have hlength := h.folders _ (root_prefix_entry a name) hfolder
  simp [Settings.folder] at hlength

theorem Stored.persist {done : List Deposit} {disk : Disk} (h : Stored py settings done disk) (d : Deposit) :
    persist py settings d disk = .ok (disk.deposit py settings d, d.uri py settings) := by
  have htemp : temporaryPath (d.target py settings) ≠ d.target py settings := temporaryPath_ne d d
  set folders : Disk := fun p => if p ∈ (settings.folder d.applicationId).inits then some .folder else disk p
    with hfolders
  have hmake : makeFolders (settings.folder d.applicationId).inits disk = .ok folders :=
    makeFolders_ok fun p hp => h.not_file ((List.mem_inits _ _).mp hp)
  have hentry : ∀ name, folders (settings.folder d.applicationId ++ [name]) =
      disk (settings.folder d.applicationId ++ [name]) := fun name =>
    if_neg fun hp => not_prefix_folder _ _ _ ((List.mem_inits _ _).mp hp)
  have hparent : folders (settings.folder d.applicationId) = some .folder :=
    if_pos ((List.mem_inits _ _).mpr List.prefix_rfl)
  have hwrite : writeBytes (temporaryPath (d.target py settings)) d.payload folders =
      .ok (folders.put (temporaryPath (d.target py settings)) (some (.file d.payload))) := by
    refine writeBytes_ok ?_ ?_ _
    · rw [temporaryPath_target, List.dropLast_concat]
      exact hparent
    · rw [temporaryPath_target, hentry]
      exact h.not_folder _ _
  have hreplace : replaceFile (temporaryPath (d.target py settings)) (d.target py settings)
      (folders.put (temporaryPath (d.target py settings)) (some (.file d.payload))) =
        .ok (disk.deposit py settings d) := by
    have htarget : folders.put (temporaryPath (d.target py settings)) (some (.file d.payload))
        (d.target py settings) ≠ some .folder := by
      rw [Disk.put, if_neg htemp.symm, d.target_eq, hentry]
      exact h.not_folder _ _
    rw [replaceFile_ok (if_pos rfl) htarget]
    congr 1
    funext p
    simp only [Disk.put, Disk.deposit, hfolders, List.mem_inits]
    split_ifs <;> rfl
  unfold LoanAgent.persist atomicWriteBytes
  rw [hmake]
  dsimp only
  rw [hwrite]
  dsimp only
  rw [hreplace]
  rfl

theorem Stored.deposit {done : List Deposit} {disk : Disk} (h : Stored py settings done disk) {d : Deposit}
    (hnew : ∀ e ∈ done, e.documentId ≠ d.documentId) :
    Stored py settings (done ++ [d]) (disk.deposit py settings d) := by
  have hroot : ∀ {p}, p <+: settings.root → p <+: settings.folder d.applicationId := fun hp =>
    hp.trans (List.prefix_append _ _)
  constructor
  · intro p c hp
    have htarget : p ≠ d.target py settings := by
      rintro rfl
      exact not_prefix_folder _ _ _ (d.target_eq ▸ hroot hp)
    have htemp : p ≠ temporaryPath (d.target py settings) := by
      rintro rfl
      exact not_prefix_folder _ _ _ (temporaryPath_target d ▸ hroot hp)
    rw [Disk.deposit, if_neg htarget, if_neg htemp, if_pos (hroot hp)]
    intro heq
    cases heq
  · intro p c hp
    unfold Disk.deposit
    split_ifs with htarget htemp hprefix
    · rw [Option.some.injEq, Node.file.injEq, htarget]
      constructor
      · rintro rfl
        exact ⟨d, List.mem_append_right _ (List.mem_singleton_self d), rfl, rfl⟩
      · rintro ⟨e, he, hsame, rfl⟩
        rcases List.mem_append.mp he with he | he
        · exact absurd (target_injective hsame).symm (hnew e he)
        · rw [List.mem_singleton.mp he]
    · refine iff_of_false (fun hfile => by cases hfile) ?_
      rintro ⟨e, -, rfl, -⟩
      exact temporaryPath_ne d e htemp.symm
    · refine iff_of_false (fun hfile => by cases hfile) ?_
      rintro ⟨e, -, rfl, -⟩
      exact not_prefix_folder _ _ _ (e.target_eq ▸ hprefix)
    · rw [h.files p c hp]
      refine ⟨fun ⟨e, he, hrest⟩ => ⟨e, List.mem_append_left _ he, hrest⟩, ?_⟩
      rintro ⟨e, he, hrest⟩
      rcases List.mem_append.mp he with he | he
      · exact ⟨e, he, hrest⟩
      · rw [List.mem_singleton.mp he] at hrest
        exact absurd hrest.1 htarget
  · intro p hp hfolder
    by_cases hprefix : p <+: settings.folder d.applicationId
    · have hlength := hprefix.length_le
      rw [Settings.folder, List.length_append] at hlength
      exact hlength
    · simp only [Disk.deposit, if_neg hprefix] at hfolder
      split_ifs at hfolder
      · cases hfolder
      · exact h.folders p hp hfolder

/-- A call leaves the files of other documents alone. -/
theorem Disk.deposit_other (disk : Disk) {d e : Deposit} (h : e.documentId ≠ d.documentId) :
    disk.deposit py settings d (e.target py settings) = disk (e.target py settings) := by
  have hprefix : ¬ e.target py settings <+: settings.folder d.applicationId :=
    e.target_eq ▸ not_prefix_folder _ _ _
  rw [Disk.deposit, if_neg (mt target_injective h), if_neg (temporaryPath_ne d e).symm, if_neg hprefix]

/-! ### A sequence of calls -/

/-- Nothing stands at or below the store's root, and no file is in the way above it. -/
structure FreshStore (settings : Settings) (disk : Disk) : Prop where
  above : ∀ p c, p <+: settings.root → disk p ≠ some (.file c)
  below : ∀ p, settings.root <+: p → disk p = none

theorem FreshStore.stored {disk : Disk} (h : FreshStore settings disk) : Stored py settings [] disk := by
  refine ⟨h.above, fun p c hp => ?_, fun p hp hfolder => ?_⟩
  · rw [h.below p hp]
    exact iff_of_false (fun hfile => by cases hfile) fun ⟨d, hd, _⟩ => by cases hd
  · rw [h.below p hp] at hfolder
    cases hfolder

/-- Every call behind earlier ones succeeds, and the store holds its file too. -/
theorem Stored.persistAll {done deposits : List Deposit} {disk : Disk} (h : Stored py settings done disk)
    (hids : ((done ++ deposits).map (·.documentId)).Nodup) :
    ∃ disk', persistAll py settings deposits disk = .ok (disk', deposits.map (·.uri py settings)) ∧
      Stored py settings (done ++ deposits) disk' := by
  induction deposits generalizing done disk with
  | nil => exact ⟨disk, rfl, (List.append_nil done).symm ▸ h⟩
  | cons d rest ih =>
    have hnew : ∀ e ∈ done, e.documentId ≠ d.documentId := by
      rw [List.map_append, List.nodup_append] at hids
      exact fun e he => hids.2.2 _ (List.mem_map_of_mem he) _ (List.mem_map_of_mem List.mem_cons_self)
    have hstep := h.deposit hnew
    rw [← List.singleton_append, ← List.append_assoc] at hids
    obtain ⟨disk', hrun, hstored⟩ := ih hstep hids
    refine ⟨disk', ?_, by rwa [List.append_assoc, List.singleton_append] at hstored⟩
    rw [LoanAgent.persistAll, h.persist d]
    dsimp only
    rw [hrun]
    rfl

/-- The calls of a sequence on different documents store what they are given:
every file directly in the folder of its application, under the document's
identifier and an allowed suffix, with no temporary file left or in the way, no
file of another call touched, and the URI leading back to it. -/
theorem persistAll_stores {deposits : List Deposit} (hids : (deposits.map (·.documentId)).Nodup) {disk : Disk}
    (hdisk : FreshStore settings disk) (py : Python) :
    ∃ disk', persistAll py settings deposits disk = .ok (disk', deposits.map (·.uri py settings)) ∧
      (∀ p c, settings.root <+: p →
        (disk' p = some (.file c) ↔ ∃ d ∈ deposits, p = d.target py settings ∧ c = d.payload)) ∧
      (∀ d ∈ deposits,
        (∃ suffix, Rx.fullmatch py.isWord safeSuffix suffix = true ∧
          d.target py settings = settings.folder d.applicationId ++ [d.documentId.str ++ suffix]) ∧
        localDocumentPath settings d.applicationId (some (d.uri py settings)) = some (d.target py settings) ∧
        disk' (d.target py settings) = some (.file d.payload) ∧
        ∀ e ∈ deposits, temporaryPath (d.target py settings) ≠ e.target py settings) ∧
      ∀ before d after, deposits = before ++ d :: after → ∃ disk₁ disk₂,
        persistAll py settings before disk = .ok (disk₁, before.map (·.uri py settings)) ∧
        persist py settings d disk₁ = .ok (disk₂, d.uri py settings) ∧
        ∀ e ∈ before, disk₂ (e.target py settings) = disk₁ (e.target py settings) := by
  have hstart : Stored py settings [] disk := hdisk.stored
  have hids' : (([] ++ deposits).map Deposit.documentId).Nodup := hids
  obtain ⟨disk', hrun, hstored⟩ := hstart.persistAll hids'
  rw [List.nil_append] at hstored
  refine ⟨disk', hrun, hstored.files, fun d hd => ?_, ?_⟩
  · obtain ⟨tail, hname, hsafe, -⟩ := storedName_suffix py d.documentId d.filename
    refine ⟨⟨'.' :: tail, hsafe, by rw [d.target_eq, hname]⟩,
      localDocumentPath_persistDocument py settings _ _ _, ?_, fun e _ => temporaryPath_ne d e⟩
    refine (hstored.files _ _ ?_).mpr ⟨d, hd, rfl, rfl⟩
    rw [d.target_eq]
    exact root_prefix_entry _ _
  · rintro before d after rfl
    rw [List.map_append, List.nodup_append] at hids
    obtain ⟨hbefore, -, hdiffer⟩ := hids
    obtain ⟨disk₁, hrun₁, hstored₁⟩ := hstart.persistAll (by rwa [List.nil_append])
    refine ⟨disk₁, disk₁.deposit py settings d, hrun₁, hstored₁.persist d, fun e he => ?_⟩
    exact disk₁.deposit_other (hdiffer _ (List.mem_map_of_mem he) _ (List.mem_map_of_mem List.mem_cons_self))

/-- Two payloads with hostile names. -/
def hostileDeposits : List Deposit :=
  [⟨.ofNat 1, .ofNat 2, "../../etc/passwd".toList, [1]⟩, ⟨.ofNat 1, .ofNat 3, "a/..pdf.PDF".toList, [2, 3]⟩]

theorem persistAll_stores_hostile :
    ∃ disk', persistAll asciiPython sampleStore hostileDeposits (fun _ => none) =
        .ok (disk', hostileDeposits.map (·.uri asciiPython sampleStore)) ∧
      (∀ p c, sampleStore.root <+: p → (disk' p = some (.file c) ↔
        ∃ d ∈ hostileDeposits, p = d.target asciiPython sampleStore ∧ c = d.payload)) ∧
      (∀ d ∈ hostileDeposits,
        (∃ suffix, Rx.fullmatch asciiPython.isWord safeSuffix suffix = true ∧ d.target asciiPython sampleStore =
          sampleStore.folder d.applicationId ++ [d.documentId.str ++ suffix]) ∧
        localDocumentPath sampleStore d.applicationId (some (d.uri asciiPython sampleStore)) =
          some (d.target asciiPython sampleStore) ∧
        disk' (d.target asciiPython sampleStore) = some (.file d.payload) ∧
        ∀ e ∈ hostileDeposits,
          temporaryPath (d.target asciiPython sampleStore) ≠ e.target asciiPython sampleStore) ∧
      ∀ before d after, hostileDeposits = before ++ d :: after → ∃ disk₁ disk₂,
        persistAll asciiPython sampleStore before (fun _ => none) =
          .ok (disk₁, before.map (·.uri asciiPython sampleStore)) ∧
        persist asciiPython sampleStore d disk₁ = .ok (disk₂, d.uri asciiPython sampleStore) ∧
        ∀ e ∈ before, disk₂ (e.target asciiPython sampleStore) = disk₁ (e.target asciiPython sampleStore) :=
  persistAll_stores (by decide) ⟨(fun _ _ _ h => by cases h), fun _ _ => rfl⟩ asciiPython

end LoanAgent
