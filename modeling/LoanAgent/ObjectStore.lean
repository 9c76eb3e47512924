import LoanAgent.Library.Rx
import LoanAgent.Models

/-! The local object store. A stored file has an absolute path, the list of its
segments; the store's own root `<data_dir>/s3` is given resolved. Writing a
document yields a path and the URI under which the row remembers it, and
`localDocumentPath` is the separately written way back. Proved: a URI without
a `..` segment never leads out of the folder of its application, the folders
of two applications are apart, and the way back from a written URI is the path
that was written. -/

namespace LoanAgent

abbrev FilePath := List Text

structure Settings where
  /-- The segments of `(Path(data_dir) / "s3").resolve()`. -/
  root : FilePath
  maxAttachmentBytes : ℕ := 10485760
  ocrEnabled : Bool := true
  logSecretsRedaction : Bool := true
  llmMaxRetries : ℕ := 2
  llmTimeoutSeconds : PyFloat := .finite 30

/-! ### Writing -/

/-- A letter under `re.IGNORECASE`; dotted and dotless `i` count as `i`. -/
def ignoreCase (c : Char) : Rx.Pat :=
  .char fun x => x.toLower == c || (c == 'i' && (x == 'İ' || x == 'ı'))

def literal (s : String) : Rx.Pat := match s.toList with
  | [] => .rep 0 (some 0) .boundary
  | c :: rest => .cat (ignoreCase c) (rest.map ignoreCase)

/-- `^\.(?:pdf|txt|jpg|jpeg|png|bin)$`. -/
def safeSuffix : Rx.Pat :=
  .seq (.char (· == '.')) (.alt (literal "pdf") (.alt (literal "txt") (.alt (literal "jpg")
    (.alt (literal "jpeg") (.alt (literal "png") (literal "bin"))))))

/-- `Path(filename).name`: the last component that is neither empty nor `.`. -/
def pathName (filename : Text) : Text :=
  ((filename.splitOn '/').filter fun s => s ≠ [] ∧ s ≠ ['.']).getLast?.getD []

/-- `Path(filename).suffix`: from the last dot on, unless the dot is at an end of the name. -/
def pathSuffix (filename : Text) : Text :=
  let name := pathName filename
  let tail := (name.reverse.takeWhile (· ≠ '.')).reverse
  if '.' ∈ name ∧ tail ≠ [] ∧ tail.length + 1 < name.length then '.' :: tail else []

def s3UriPrefix : Text := "s3://loan-agent-documents/".toList

/-- The name under which `persist_document` stores a payload. -/
def storedName (py : Python) (documentId : Uuid) (filename : Text) : Text :=
  let suffix := pathSuffix filename
  documentId.str ++ if Rx.fullmatch py.isWord safeSuffix suffix then suffix else ".bin".toList

/-- The file written and the URI returned by `persist_document`. -/
def persistDocument (py : Python) (settings : Settings) (applicationId documentId : Uuid)
    (filename : Text) : FilePath × Text :=
  let name := storedName py documentId filename
  (settings.root ++ [applicationId.str, name], s3UriPrefix ++ applicationId.str ++ '/' :: name)

/-! ### Reading -/

/-- `(base / relative).resolve()` without symbolic links. -/
def resolveFrom : FilePath → List Text → FilePath
  | base, [] => base
  | base, s :: rest =>
    if s = [] ∨ s = ".".toList then resolveFrom base rest
    else if s = "..".toList then resolveFrom base.dropLast rest
    else resolveFrom (base ++ [s]) rest

def localDocumentPath (settings : Settings) (applicationId : Uuid) (s3Path : Option Text) :
    Option FilePath :=
  match s3Path with
  | none => none
  | some path =>
    if path = [] ∨ !startsWith path s3UriPrefix then none
    else
      let relative := path.drop s3UriPrefix.length
      if !startsWith relative (applicationId.str ++ ['/']) then none
      else
        let candidate := resolveFrom settings.root (relative.splitOn '/')
        if settings.root.isPrefixOf candidate then some candidate else none

/-! ### Folders -/

/-- The folder `s3/<application_id>` of an application. -/
def Settings.folder (settings : Settings) (applicationId : Uuid) : FilePath :=
  settings.root ++ [applicationId.str]

/-- No segment of the path climbs to a parent folder. -/
def NoTraversal (path : Text) : Prop := "..".toList ∉ path.splitOn '/'

theorem resolveFrom_prefix (base : FilePath) (segments : List Text)
    (h : "..".toList ∉ segments) : base <+: resolveFrom base segments := by
  induction segments generalizing base with
  | nil => exact List.prefix_refl base
  | cons s rest ih =>
    simp only [List.mem_cons, not_or] at h
    simp only [resolveFrom]
    split_ifs with h1 h2
    · exact ih base h.2
    · exact absurd h2.symm h.1
    · exact (List.prefix_append base [s]).trans (ih _ h.2)

theorem not_mem_str {c : Char} (hdash : c ≠ '-') (hhex : ∀ d, hexChar d ≠ c) (u : Uuid) : c ∉ u.str := by
  intro h
  rcases Uuid.mem_str h with h | ⟨d, h⟩
  · exact hdash h
  · exact hhex d h

theorem slash_not_mem_str (u : Uuid) : '/' ∉ u.str := not_mem_str (by decide) (by decide) u

theorem dot_not_mem_str (u : Uuid) : '.' ∉ u.str := not_mem_str (by decide) (by decide) u

theorem str_length (u : Uuid) : u.str.length = 36 := by
  simp only [Uuid.str, List.length_append, List.length_cons, List.length_take, List.length_drop,
    List.length_map, u.length_eq]
  rfl

theorem str_ne_nil (u : Uuid) : u.str ≠ [] := fun h => by
  have := str_length u
  rw [h] at this
  simp at this

theorem resolveFrom_str (u : Uuid) (base : FilePath) (rest : List Text) :
    resolveFrom base (u.str :: rest) = resolveFrom (base ++ [u.str]) rest := by
  have hdot : ∀ s : Text, '.' ∈ s → u.str ≠ s := fun s hs h => dot_not_mem_str u (h ▸ hs)
  simp only [resolveFrom]
  rw [if_neg (not_or.mpr ⟨str_ne_nil u, hdot _ (by decide)⟩), if_neg (hdot _ (by decide))]

/-- A prefix test that holds leaves the rest of the text behind it. -/
theorem startsWith_drop {s pre : Text} (h : startsWith s pre = true) :
    s = pre ++ s.drop pre.length := by
  obtain ⟨t, rfl⟩ := List.isPrefixOf_iff_prefix.mp h
  simp

/-- A URI of the application's folder leads along its segments, unless they leave the store. -/
theorem localDocumentPath_uri {settings : Settings} {a : Uuid} {rest : Text} {p : FilePath} :
    localDocumentPath settings a (some (s3UriPrefix ++ (a.str ++ '/' :: rest))) = some p ↔
      p = resolveFrom (settings.folder a) (rest.splitOn '/') ∧ settings.root <+: p := by
  have hne : s3UriPrefix ++ (a.str ++ '/' :: rest) ≠ [] := fun h =>
    absurd (List.append_eq_nil_iff.mp h).1 (by decide)
  have hstart : startsWith (s3UriPrefix ++ (a.str ++ '/' :: rest)) s3UriPrefix = true :=
    List.isPrefixOf_iff_prefix.mpr (List.prefix_append _ _)
  have hfolder : startsWith (a.str ++ '/' :: rest) (a.str ++ ['/']) = true :=
    List.isPrefixOf_iff_prefix.mpr ⟨rest, by simp⟩
  have hresolve : resolveFrom settings.root ((a.str ++ '/' :: rest).splitOn '/') =
      resolveFrom (settings.folder a) (rest.splitOn '/') := by
    rw [List.splitOn_append_cons_self_of_not_mem (slash_not_mem_str a), resolveFrom_str, Settings.folder]
  simp only [localDocumentPath, hne, hstart, List.drop_left, hfolder, hresolve, Bool.not_true, or_self,
    Bool.false_eq_true, if_false, List.isPrefixOf_iff_prefix]
  split_ifs with h
  · rw [Option.some.injEq, eq_comm]
    exact (and_iff_left_of_imp fun hp => hp ▸ h).symm
  · exact iff_of_false (fun hp => by cases hp) fun hp => h (hp.1 ▸ hp.2)

/-- What `localDocumentPath` accepts and what it makes of it. -/
theorem localDocumentPath_some {settings : Settings} {a : Uuid} {s3Path : Option Text}
    {p : FilePath} (h : localDocumentPath settings a s3Path = some p) :
    ∃ rest, s3Path = some (s3UriPrefix ++ (a.str ++ '/' :: rest)) ∧
      p = resolveFrom (settings.folder a) (rest.splitOn '/') := by
  unfold localDocumentPath at h
  split at h
  · cases h
  next path =>
    dsimp only at h
    split_ifs at h with h1 h2 h3
    cases h
    simp only [not_or, Bool.not_eq_true', Bool.not_eq_false] at h1 h2
    have hp := startsWith_drop h1.2
    have hr := startsWith_drop h2
    set relative := path.drop s3UriPrefix.length
    refine ⟨relative.drop (a.str ++ ['/']).length, ?_, ?_⟩
    · rw [hp, hr]; simp
    · conv_lhs => rw [hr]
      rw [List.append_assoc, List.singleton_append,
        List.splitOn_append_cons_self_of_not_mem (slash_not_mem_str a), resolveFrom_str]
      rfl

/-- Without a `..` segment a stored path stays in the folder of its application. -/
theorem localDocumentPath_inside {settings : Settings} {a : Uuid} {path : Text} {p : FilePath}
    (hpath : NoTraversal path) (h : localDocumentPath settings a (some path) = some p) :
    settings.folder a <+: p := by
  obtain ⟨rest, hr, rfl⟩ := localDocumentPath_some h
  refine resolveFrom_prefix _ _ fun hmem => hpath ?_
  obtain rfl := Option.some.inj hr
  have hsplit : s3UriPrefix ++ (a.str ++ '/' :: rest) =
      (s3UriPrefix ++ a.str) ++ '/' :: rest := by simp
  rw [hsplit, List.splitOn_append_cons_self]
  exact List.mem_append_right _ hmem

/-! ### Stored names -/

/-- The segments of a text do not hold the separator and stand in the text. -/
theorem mem_splitOn {sep : Char} {s segment : Text} (h : segment ∈ s.splitOn sep) :
    sep ∉ segment ∧ segment <:+: s := by
  have key : ∀ s : Text, ∃ first rest, s.splitOn sep = first :: rest ∧ sep ∉ first ∧ first <+: s ∧
      ∀ t ∈ rest, sep ∉ t ∧ t <:+: s := by
    intro s
    induction s with
    | nil => exact ⟨[], [], rfl, by simp, List.nil_prefix, by simp⟩
    | cons c s ih =>
      obtain ⟨first, rest, hs, hfirst, hpre, hrest⟩ := ih
      have htail : ∀ t ∈ rest, sep ∉ t ∧ t <:+: c :: s := fun t ht =>
        ⟨(hrest t ht).1, (hrest t ht).2.trans (List.suffix_cons c s).isInfix⟩
      rw [List.splitOn_cons_eq_if_modifyHead, hs]
      split_ifs with hc
      · refine ⟨[], first :: rest, rfl, by simp, List.nil_prefix, ?_⟩
        rintro t (_ | ⟨_, ht⟩)
        · exact ⟨hfirst, hpre.isInfix.trans (List.suffix_cons c s).isInfix⟩
        · exact htail t ht
      · have hne : sep ≠ c := fun he => hc (by simp [he])
        exact ⟨c :: first, rest, rfl, by simp [hne, hfirst], List.cons_prefix_cons.mpr ⟨rfl, hpre⟩, htail⟩
  obtain ⟨first, rest, hs, hfirst, hpre, hrest⟩ := key s
  rw [hs] at h
  rcases List.mem_cons.mp h with rfl | h
  · exact ⟨hfirst, hpre.isInfix⟩
  · exact hrest _ h

theorem slash_not_mem_pathName (filename : Text) : '/' ∉ pathName filename := by
  unfold pathName
  cases hl : ((filename.splitOn '/').filter fun s => s ≠ [] ∧ s ≠ ['.']).getLast? with
  | none => simp
  | some name =>
    have hmem := List.mem_of_getLast? hl
    exact (mem_splitOn (List.mem_filter.mp hmem).1).1

theorem slash_not_mem_pathSuffix (filename : Text) : '/' ∉ pathSuffix filename := by
  unfold pathSuffix
  dsimp only
  split_ifs with h
  · intro hmem
    rcases List.mem_cons.mp hmem with hc | hmem
    · exact absurd hc (by decide)
    · have := (List.takeWhile_sublist _).subset (List.mem_reverse.mp hmem)
      exact slash_not_mem_pathName filename (List.mem_reverse.mp this)
  · simp

/-- A payload is stored under the identifier of its document and a suffix. -/
theorem storedName_eq (py : Python) (u : Uuid) (filename : Text) :
    ∃ suffix, '/' ∉ suffix ∧ storedName py u filename = u.str ++ suffix := by
  unfold storedName
  dsimp only
  split_ifs
  · exact ⟨_, slash_not_mem_pathSuffix filename, rfl⟩
  · exact ⟨_, by decide, rfl⟩

theorem slash_not_mem_storedName (py : Python) (u : Uuid) (filename : Text) :
    '/' ∉ storedName py u filename := by
  obtain ⟨suffix, hs, h⟩ := storedName_eq py u filename
  rw [h]
  simp [slash_not_mem_str, hs]

theorem storedName_length (py : Python) (u : Uuid) (filename : Text) :
    36 ≤ (storedName py u filename).length := by
  obtain ⟨suffix, -, h⟩ := storedName_eq py u filename
  rw [h, List.length_append, str_length]
  omega

/-- The URI of a stored payload does not climb. -/
theorem noTraversal_persistDocument (py : Python) (settings : Settings) (a u : Uuid) (filename : Text) :
    NoTraversal (persistDocument py settings a u filename).2 := by
  have hname : (storedName py u filename).splitOn '/' = [storedName py u filename] :=
    List.splitOn_eq_singleton (slash_not_mem_storedName py u filename)
  have hstr : a.str.splitOn '/' = [a.str] := List.splitOn_eq_singleton (slash_not_mem_str a)
  have hbase : ("s3://loan-agent-documents".toList).splitOn '/' =
      ["s3:".toList, [], "loan-agent-documents".toList] := by decide
  have huri : (persistDocument py settings a u filename).2 = "s3://loan-agent-documents".toList ++
      '/' :: (a.str ++ '/' :: storedName py u filename) := by
    have hprefix : s3UriPrefix = "s3://loan-agent-documents".toList ++ ['/'] := by decide
    simp only [persistDocument, hprefix, List.append_assoc, List.cons_append, List.nil_append]
  rw [NoTraversal, huri, List.splitOn_append_cons_self, List.splitOn_append_cons_self, hname, hstr, hbase]
  have hlong : ∀ t : Text, 36 ≤ t.length → "..".toList ≠ t := by
    rintro t ht rfl
    exact absurd ht (by decide)
  simp only [List.mem_append, List.mem_cons, List.not_mem_nil, or_false, not_or]
  exact ⟨by decide, hlong _ (str_length a).ge, hlong _ (storedName_length py u filename)⟩

/-- The way back from the URI of a stored payload is the file that was written. -/
theorem localDocumentPath_persistDocument (py : Python) (settings : Settings) (a u : Uuid)
    (filename : Text) : localDocumentPath settings a (some (persistDocument py settings a u filename).2) =
      some (persistDocument py settings a u filename).1 := by
  set name := storedName py u filename with hn
  have hname : name.splitOn '/' = [name] :=
    List.splitOn_eq_singleton (slash_not_mem_storedName py u filename)
  have hlong : ∀ t : Text, t.length < 36 → name ≠ t := fun t ht he => by
    have := storedName_length py u filename
    rw [← hn, he] at this
    omega
  have hresolve : resolveFrom (settings.folder a) [name] = settings.root ++ [a.str, name] := by
    rw [resolveFrom, if_neg, if_neg, resolveFrom, Settings.folder, List.append_assoc]
    · rfl
    · exact hlong "..".toList (by decide)
    · exact not_or.mpr ⟨hlong [] (by decide), hlong ".".toList (by decide)⟩
  have huri : (persistDocument py settings a u filename).2 = s3UriPrefix ++ (a.str ++ '/' :: name) := by
    simp only [persistDocument, ← hn, List.append_assoc]
  rw [huri, localDocumentPath_uri, hname, hresolve]
  exact ⟨rfl, List.prefix_append _ _⟩

end LoanAgent
