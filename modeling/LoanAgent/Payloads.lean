import LoanAgent.FallbackKeys
import LoanAgent.History
import LoanAgent.NumberText
import LoanAgent.Traceability
import LoanAgent.WebhookAuth
import Mathlib.Data.List.Forall2

/-! What becomes of an attachment. Its bytes are taken out of base64, stored under
a name of the store's choice, remembered by a URI and a digest, and read back by a
later run, while other requests and runs go on. Proved: in every reachable state
the documents are the attachments of the committed messages, in their order, and
each with a payload leads to a stored file with these bytes, their digest and an
admissible size; where parsers read what is stored, each text is what a library makes
of the bytes that were sent or of the file that the URL leads to, the text of a text
file is the text that was sent, and no other text is blank. -/

namespace LoanAgent

variable {py : Python} {settings : Settings} {s s' : Store} {l l' : Proc py} {a : Action py}
  {c : Service py} {files files' : List (FilePath × Bytes)} {io : Io}

/-! ### Base64 -/

theorem base64Char_spec : ∀ n < 64, base64Value (base64Char n) = some n ∧ base64Char n ≠ '=' := by
  decide +kernel

theorem byte_eq {b : UInt8} {n : ℕ} (h : n % 256 = b.toNat) : UInt8.ofNat n = b := by
  apply UInt8.toNat_inj.mp
  simp [h]

/-- The first bytes of a group of three come back from their four digits. -/
theorem base64Group_bytes (n : ℕ) (a b c : UInt8) :
    base64Group n (base64Char (a.toNat / 4)) (base64Char (a.toNat % 4 * 16 + b.toNat / 16))
      (base64Char (b.toNat % 16 * 4 + c.toNat / 64)) (base64Char (c.toNat % 64)) = some ([a, b, c].take n) := by
  have ha := a.toNat_lt
  have hb := b.toNat_lt
  have hc := c.toNat_lt
  have hdigit : ∀ n < 64, base64Value (base64Char n) = some n := fun n hn => (base64Char_spec n hn).1
  set v := ((a.toNat / 4 * 64 + (a.toNat % 4 * 16 + b.toNat / 16)) * 64 + (b.toNat % 16 * 4 + c.toNat / 64)) * 64 +
    c.toNat % 64 with hv
  have hbytes : UInt8.ofNat (v / 65536) = a ∧ UInt8.ofNat (v / 256) = b ∧ UInt8.ofNat v = c :=
    ⟨byte_eq (by omega), byte_eq (by omega), byte_eq (by omega)⟩
  simp only [base64Group, hdigit _ (by omega : a.toNat / 4 < 64),
    hdigit _ (by omega : a.toNat % 4 * 16 + b.toNat / 16 < 64),
    hdigit _ (by omega : b.toNat % 16 * 4 + c.toNat / 64 < 64), hdigit _ (by omega : c.toNat % 64 < 64),
    Option.bind_eq_bind, Option.bind_some, ← hv, hbytes]
  rfl

theorem b64decode_group {w x y z : Char} (hz : z ≠ '=') (rest : Text) :
    b64decode (w :: x :: y :: z :: rest) = (base64Group 3 w x y z).bind fun group =>
      if rest.all (· == '=') then some group
      else (b64decode rest).bind fun others => some (group ++ others) := by
  rw [b64decode]
  all_goals simp_all

/-- No encoded text begins with a pad. -/
theorem base64Text_pads {payload : Bytes} (h : (base64Text payload).all (· == '=') = true) : payload = [] := by
  have hfirst : ∀ b : UInt8, (base64Char (b.toNat / 4) == '=') = false := fun b =>
    beq_eq_false_iff_ne.mpr (base64Char_spec _ (by have := b.toNat_lt; omega)).2
  unfold base64Text at h
  split at h <;> simp_all

/-- What is encoded is decoded. -/
theorem b64decode_base64Text (payload : Bytes) : b64decode (base64Text payload) = some payload := by
  fun_induction base64Text payload with
  | case1 => rfl
  | case2 a => exact base64Group_bytes 1 a 0 0
  | case3 a b =>
    have hpad : base64Char (b.toNat % 16 * 4) ≠ '=' := (base64Char_spec _ (by omega)).2
    rw [b64decode]
    · exact base64Group_bytes 2 a b 0
    · simp_all
  | case4 a b c rest ih =>
    rw [b64decode_group (base64Char_spec _ (by omega)).2, base64Group_bytes, ih, Option.bind_some]
    split_ifs with hpads
    · rw [base64Text_pads hpads]
      rfl
    · rfl

/-! ### UTF-8 -/

theorem data_utf8Encode (t : Text) : (List.utf8Encode t).data.toList = encodeUtf8 t := by
  rw [List.utf8Encode, encodeUtf8, List.toList_data_toByteArray]

theorem utf8Encode_eq (t : Text) : (⟨(encodeUtf8 t).toArray⟩ : ByteArray) = List.utf8Encode t := by
  rw [ByteArray.ext_iff, ← Array.toList_inj, data_utf8Encode]

/-- UTF-8 is decoded to the text that it encodes, and to no other. -/
theorem fromUTF8_eq_some {body : Bytes} {text : String} :
    String.fromUTF8? ⟨body.toArray⟩ = some text ↔ body = encodeUtf8 text.toList := by
  have hof : text.toByteArray = List.utf8Encode text.toList := by
    rw [← String.toByteArray_ofList, String.ofList_toList]
  unfold String.fromUTF8?
  split_ifs with h
  · rw [Option.some.injEq, ← String.toByteArray_inj, hof]
    change (⟨body.toArray⟩ : ByteArray) = _ ↔ _
    rw [ByteArray.ext_iff, ← Array.toList_inj, data_utf8Encode]
  · refine ⟨nofun, ?_⟩
    rintro rfl
    exact absurd (utf8Encode_eq text.toList ▸ ByteArray.isValidUTF8_utf8Encode) h

/-- The encoding of `'\uFEFF'`. -/
def byteOrderMark : Bytes := [0xEF, 0xBB, 0xBF]

theorem encodeUtf8_mark (t : Text) : encodeUtf8 ('\uFEFF' :: t) = byteOrderMark ++ encodeUtf8 t := by
  have hmark : String.utf8EncodeChar '\uFEFF' = byteOrderMark := by decide
  rw [encodeUtf8, List.flatMap_cons, hmark, encodeUtf8]

/-- Only a text that begins with the mark is encoded with its bytes in front. -/
theorem head_of_mark {t : Text} (h : (encodeUtf8 t).take 3 = byteOrderMark) : t.head? = some '\uFEFF' := by
  have hsplit : encodeUtf8 t = byteOrderMark ++ (encodeUtf8 t).drop 3 := by rw [← h, List.take_append_drop]
  have hbytes : List.utf8Encode t = List.utf8Encode ['\uFEFF'] ++ ⟨((encodeUtf8 t).drop 3).toArray⟩ := by
    rw [ByteArray.ext_iff, ByteArray.data_append, ← Array.toList_inj, Array.toList_append, data_utf8Encode,
      data_utf8Encode, hsplit]
    rfl
  have hvalid := ByteArray.isValidUTF8_utf8Encode (l := t)
  rw [hbytes, ByteArray.isValidUTF8_utf8Encode_singleton_append_iff] at hvalid
  obtain ⟨rest, hrest⟩ := hvalid
  have hdrop : (encodeUtf8 t).drop 3 = encodeUtf8 rest := by
    have := congrArg (fun b : ByteArray => b.data.toList) hrest
    rw [data_utf8Encode] at this
    exact this
  rw [hdrop, ← encodeUtf8_mark] at hsplit
  rw [encodeUtf8_injective hsplit, List.head?_cons]

/-- The decoder is given what stands behind the mark, if there is one. -/
theorem parsePlainText_decodes {payload : Bytes} {t : Text} : parsePlainText io payload = .ok t ↔
    (if payload.take 3 = byteOrderMark then payload.drop 3 else payload) = encodeUtf8 t := by
  unfold parsePlainText
  change _ ↔ (if payload.take 3 = [0xEF, 0xBB, 0xBF] then payload.drop 3 else payload) = _
  generalize (if payload.take 3 = [0xEF, 0xBB, 0xBF] then payload.drop 3 else payload) = body
  cases hs : String.fromUTF8? ⟨body.toArray⟩ with
  | none =>
    dsimp only
    rw [hs]
    refine ⟨nofun, fun hb => ?_⟩
    have hread : String.fromUTF8? ⟨body.toArray⟩ = some (String.ofList t) :=
      fromUTF8_eq_some.mpr (by rw [String.toList_ofList, hb])
    rw [hs] at hread
    cases hread
  | some s =>
    dsimp only
    rw [hs]
    rw [fromUTF8_eq_some] at hs
    subst hs
    simp only [Except.ok.injEq]
    exact encodeUtf8_injective.eq_iff.symm

theorem parsePlainText_eq_ok {payload : Bytes} {t : Text} : parsePlainText io payload = .ok t ↔
    payload = encodeUtf8 ('\uFEFF' :: t) ∨ payload = encodeUtf8 t ∧ t.head? ≠ some '\uFEFF' := by
  rw [parsePlainText_decodes, encodeUtf8_mark]
  split_ifs with hmark
  · have hsplit : payload = byteOrderMark ++ payload.drop 3 := by rw [← hmark, List.take_append_drop]
    constructor
    · intro h
      rw [← h]
      exact .inl hsplit
    · rintro (h | ⟨rfl, h⟩)
      · rw [h]
        rfl
      · exact absurd (head_of_mark hmark) h
  · constructor
    · rintro rfl
      refine .inr ⟨rfl, fun hhead => hmark ?_⟩
      obtain ⟨rest, rfl⟩ := List.head?_eq_some_iff.mp hhead
      rw [encodeUtf8_mark]
      rfl
    · rintro (rfl | ⟨h, -⟩)
      · exact absurd rfl hmark
      · exact h

/-! ### The row of an attachment -/

/-- The row keeps what was sent: a payload stands in the store, a URL in the row. -/
structure Document.Keeps (py : Python) (settings : Settings) (files : List (FilePath × Bytes)) (d : Document)
    (x : AttachmentIn) : Prop where
  fileType : d.fileType = x.fileType ∧ x.fileType ∈ allowedFileTypes
  payload : ∀ content, x.contentBase64 = some content → ∃ payload path, b64decode content = some payload ∧
    payload.length ≤ settings.maxAttachmentBytes ∧
    localDocumentPath settings d.applicationId d.s3Path = some path ∧ (path, payload) ∈ files ∧
    d.contentSha256 = some (py.sha256 payload)
  url : x.contentBase64 = none → d.s3Path = x.url ∧ d.contentSha256 = none

theorem Document.Keeps.mono {d : Document} {x : AttachmentIn} (hfiles : ∀ f ∈ files, f ∈ files')
    (h : d.Keeps py settings files x) : d.Keeps py settings files' x :=
  ⟨h.fileType, fun content hc => by
    obtain ⟨payload, path, hb, hlen, hpath, hmem, hsha⟩ := h.payload content hc
    exact ⟨payload, path, hb, hlen, hpath, hfiles _ hmem, hsha⟩, h.url⟩

theorem keeps_buildDocument {x : AttachmentIn} {b u : Uuid} {d : Document} {file : Option (FilePath × Bytes)}
    (h : buildDocument py settings x b u = .ok (d, file)) : d.Keeps py settings file.toList x := by
  unfold buildDocument at h
  split_ifs at h with htype
  split at h
  next content hcontent =>
    split at h
    · cases h
    next payload hb =>
      split_ifs at h with hlen
      simp only [Except.ok.injEq, Prod.mk.injEq] at h
      obtain ⟨rfl, rfl⟩ := h
      refine ⟨⟨rfl, htype⟩, fun content' hc => ?_, fun hnone => ?_⟩
      · obtain rfl := Option.some.inj (hcontent.symm.trans hc)
        exact ⟨payload, _, hb, not_lt.mp hlen, localDocumentPath_persistDocument py settings b u _,
          List.mem_singleton_self _, rfl⟩
      · rw [hcontent] at hnone
        cases hnone
  next hcontent =>
    split at h
    · cases h
    next url hurl =>
      split_ifs at h
      simp only [Except.ok.injEq, Prod.mk.injEq] at h
      obtain ⟨rfl, rfl⟩ := h
      refine ⟨⟨rfl, htype⟩, fun content hc => ?_, fun _ => ⟨hurl.symm, rfl⟩⟩
      rw [hcontent] at hc
      cases hc

theorem keeps_buildDocuments {b : Uuid} {ids : ℕ → Uuid} {attachments : List AttachmentIn} {i : ℕ}
    {docs : List Document} (h : buildDocuments py settings b ids i attachments = (.ok docs, files)) :
    List.Forall₂ (fun d x => d.Keeps py settings files x) docs attachments := by
  induction attachments generalizing i docs files with
  | nil =>
    cases h
    exact .nil
  | cons x rest ih =>
    cases hx : buildDocument py settings x b (ids i) with
    | error e => simp only [buildDocuments, hx] at h; cases h
    | ok r =>
      obtain ⟨d, file⟩ := r
      obtain ⟨⟨others, written⟩, hrest⟩ : ∃ p, buildDocuments py settings b ids (i + 1) rest = p := ⟨_, rfl⟩
      simp only [buildDocuments, hx, hrest] at h
      cases others with
      | error e => cases h
      | ok others =>
        cases h
        refine .cons ((keeps_buildDocument hx).mono fun f hf => List.mem_append_left _ hf) ?_
        exact (ih hrest).imp fun d x hd => hd.mono fun f hf => List.mem_append_right _ hf

theorem keeps_draftMessage {db : Database} {r : Request} {draws : IntakeDraws} {draft : Draft}
    (h : draftMessage py settings db r draws = (.ok draft, files)) :
    List.Forall₂ (fun d x => d.Keeps py settings files x) draft.documents r.message.attachments := by
  unfold draftMessage at h
  dsimp only at h
  split_ifs at h
  · cases h
  obtain ⟨⟨docs, written⟩, hb⟩ : ∃ p, buildDocuments py settings
    ((db.latestOpen (r.borrower py)).getD (newApplication draws.application draws.now (r.borrower py))).id
    draws.document 0 r.message.attachments = p := ⟨_, rfl⟩
  rw [hb] at h
  cases docs with
  | error e => cases h
  | ok docs =>
    cases h
    exact keeps_buildDocuments hb

/-! ### Every document -/

/-- The attachments of the committed messages, the first first. -/
def Store.attachments (s : Store) : List AttachmentIn := s.stored.reverse.flatMap (·.1.message.attachments)

/-- What a request that has stored its payloads relies on. -/
def Proc.Deposited (settings : Settings) (files : List (FilePath × Bytes)) : Proc py → Prop
  | .request r (.commit draft) =>
    List.Forall₂ (fun d x => d.Keeps py settings files x) draft.documents r.message.attachments
  | _ => True

theorem Proc.Deposited.mono (hfiles : ∀ f ∈ files, f ∈ files') (hl : l.Deposited settings files) :
    l.Deposited settings files' := by
  unfold Proc.Deposited at hl ⊢
  split at hl
  · exact hl.imp fun _ _ hd => hd.mono hfiles
  · trivial

theorem Transition.deposited (h : Transition settings s l a s' l') (hl : l.Deposited settings s.files) :
    l'.Deposited settings s'.files := by
  cases h with
  | evict | forgotten => exact hl
  | drafted _ h => exact (keeps_draftMessage h).imp fun _ _ hd => hd.mono fun f hf => List.mem_append_right _ hf
  | delivered _ _ _ h => rcases h with rfl | rfl <;> trivial
  | _ => trivial

theorem Transition.attachments (h : Transition settings s l a s' l') (hfiles : ∀ f ∈ files, f ∈ files')
    (hl : l.Deposited settings files)
    (hs : List.Forall₂ (fun d x => d.Keeps py settings files x) s.db.documents s.attachments) :
    List.Forall₂ (fun d x => d.Keeps py settings files' x) s'.db.documents s'.attachments := by
  have hkeep : s'.db.documents = s.db.documents → s'.stored = s.stored →
      List.Forall₂ (fun d x => d.Keeps py settings files' x) s'.db.documents s'.attachments := fun hd hst => by
    rw [hd, Store.attachments, hst]
    exact hs.imp fun _ _ hd => hd.mono hfiles
  cases h with
  | committed h =>
    obtain ⟨-, rfl⟩ := commitDraft_ok h
    simp only [Store.attachments, List.reverse_cons, List.flatMap_append, List.flatMap_singleton]
    exact List.rel_append (hs.imp fun _ _ hd => hd.mono hfiles) (hl.imp fun _ _ hd => hd.mono hfiles)
  | @ingested σ result stated now _ h =>
    obtain rfl := commitIngest_some h
    refine List.forall₂_map_left_iff.mpr (hs.imp fun d x hd => ?_)
    have hd := hd.mono hfiles
    split
    · exact ⟨hd.fileType, hd.payload, hd.url⟩
    · exact hd
  | marked σ => exact hkeep (markProcessing_frame (rfl : markProcessing σ s.db = (_, _))).1 rfl
  | degraded h =>
    obtain ⟨-, rfl⟩ := commitDegraded_some.mp h
    exact hkeep (flushStatus_frame _ _ s.db).1 rfl
  | extracted _ _ h =>
    obtain ⟨-, rfl⟩ := commitFacts_some.mp h
    exact hkeep rfl rfl
  | chased => exact hkeep (commitChase_tables _ _ _ _ _ _ s.db).1 rfl
  | _ => exact hkeep rfl rfl

theorem keeps_of_reaches {ok : Service py → ℕ → Action py → Prop} (h : ServiceReaches py settings ok c) :
    List.Forall₂ (fun d x => d.Keeps py settings c.shared.files x) c.shared.db.documents c.shared.attachments := by
  refine (h.assertions (J := fun s l => l.Deposited settings s.files) (R := fun s s' => ∀ f ∈ s.files, f ∈ s'.files)
    (I := fun s => List.Forall₂ (fun d x => d.Keeps py settings s.files x) s.db.documents s.attachments)
    .nil (fun _ => trivial) ?_ fun _ _ _ hR hl => hl.mono hR).1
  intro c p a s' l' _ hs hl hstep
  have htrans := procStep_transition hstep
  have hfiles : ∀ f ∈ c.shared.files, f ∈ s'.files := fun f hf => htrans.extends.files.subset hf
  exact ⟨htrans.attachments hfiles hl hs, htrans.deposited hl, hfiles⟩

/-- Each attachment has its row, and each path at most one file. -/
structure AttachmentsKept (py : Python) (settings : Settings) (s : Store) : Prop where
  rows : List.Forall₂ (fun d x => d.Keeps py settings s.files x) s.db.documents s.attachments
  files : ∀ path payload payload', (path, payload) ∈ s.files → (path, payload') ∈ s.files → payload = payload'

/-- The documents are the attachments of the committed messages, one by one, and
each payload stands in the store under the path to which the row leads. -/
theorem attachments_kept (h : ServiceReaches py settings Interleave.anyStep c) :
    AttachmentsKept py settings c.shared :=
  ⟨keeps_of_reaches h, fun _ _ _ => (filesOwned_of_reaches h).unique⟩

theorem attachments_kept_payslip :
    (serviceAfter payslipStored payslipRun).shared.attachments.length = 1 ∧
    AttachmentsKept asciiPython sampleSettings (serviceAfter payslipStored payslipRun).shared :=
  ⟨by decide +kernel, attachments_kept (Interleave.after_reaches fun _ _ _ _ => trivial)⟩

/-! ### The text of a file -/

variable {libraries : Io → Prop}

/-- A parser over one of the libraries makes this text of the stored file to which the row leads. -/
def Document.ReadsAs (py : Python) (settings : Settings) (libraries : Io → Prop) (files : List (FilePath × Bytes))
    (d : Document) (text : Text) : Prop :=
  ∃ path payload io, localDocumentPath settings d.applicationId d.s3Path = some path ∧ (path, payload) ∈ files ∧
    libraries io ∧ parseByType py settings io d.fileType payload = .ok text

/-- What a step reads is one of the files. -/
def Action.ReadsFrom (files : List (FilePath × Bytes)) : Action py → Prop
  | .parse io => ∀ path payload, io.read path = .ok payload → (path, payload) ∈ files
  | _ => True

/-- A run reads what is stored. -/
def readsStored (c : Service py) (_ : ℕ) (a : Action py) : Prop := a.ReadsFrom c.shared.files

/-- A step that parses does so over one of the libraries. -/
def Action.Uses (libraries : Io → Prop) : Action py → Prop
  | .parse io => libraries io
  | _ => True

/-- A run parses what is stored, over some libraries. -/
def parsesWith (libraries : Io → Prop) (c : Service py) (p : ℕ) (a : Action py) : Prop :=
  readsStored c p a ∧ a.Uses libraries

/-- What a run that reads documents relies on between its steps. -/
def Proc.Reads (settings : Settings) (libraries : Io → Prop) (s : Store) : Proc py → Prop
  | .run σ (.parse docs) => ∀ d ∈ docs, d.applicationId = σ.applicationId ∧ ∃ e ∈ s.db.documents, d.Evolves e
  | .run _ (.messages r) | .run _ (.texts r _) => ∀ t ∈ r.rawTexts, ∃ d ∈ s.db.documents, d.id = t.1 ∧
      d.ReadsAs py settings libraries s.files t.2
  | _ => True

theorem Document.ReadsAs.mono {d : Document} {text : Text} (hfiles : ∀ f ∈ files, f ∈ files')
    (h : d.ReadsAs py settings libraries files text) : d.ReadsAs py settings libraries files' text := by
  obtain ⟨path, payload, io, hpath, hmem, hlib, hparse⟩ := h
  exact ⟨path, payload, io, hpath, hfiles _ hmem, hlib, hparse⟩

theorem Document.ReadsAs.evolves {d e : Document} {text : Text} (hd : d.Evolves e)
    (h : d.ReadsAs py settings libraries files text) : e.ReadsAs py settings libraries files text := by
  obtain ⟨_, rfl, -⟩ := hd
  exact h

theorem Proc.Reads.mono (h : s.Extends s') (hl : l.Reads settings libraries s) : l.Reads settings libraries s' := by
  unfold Proc.Reads at hl ⊢
  split at hl
  · intro d hd
    obtain ⟨ha, e, he, hde⟩ := hl d hd
    obtain ⟨f, hf, hef⟩ := h.db.documents.mem he
    exact ⟨ha, f, hf, hde.trans _ _ _ hef⟩
  all_goals first
    | trivial
    | intro t ht
      obtain ⟨d, hd, hid, htext⟩ := hl t ht
      obtain ⟨e, he, hde⟩ := h.db.documents.mem hd
      have hid' : e.id = d.id := by
        obtain ⟨_, rfl, -⟩ := hde
        rfl
      exact ⟨e, he, hid'.trans hid, (htext.evolves hde).mono fun f hf => h.files.subset hf⟩

theorem Transition.reads {p : ℕ} (h : Transition settings c.shared (c.procs p) a s' l')
    (hok : parsesWith libraries c p a) (hl : (c.procs p).Reads settings libraries c.shared) :
    l'.Reads settings libraries s' := by
  have hext := h.extends
  generalize hlp : c.procs p = l at h hl
  cases h with
  | evict | forgotten => exact hl.mono hext
  | documents σ =>
    intro d hd
    obtain ⟨hmem, ha⟩ := List.mem_filter.mp hd
    exact ⟨by simpa using ha, d, hmem, .refl d⟩
  | @parsed σ docs io result h =>
    obtain ⟨-, rfl⟩ := ingestDocuments_eq_ok.mp h
    intro t ht
    obtain ⟨d, hd, hid, hload⟩ := mem_rawTexts.mp ht
    obtain ⟨ha, e, he, hde⟩ := hl d hd
    obtain ⟨path, payload, hpath, hread, hparse⟩ := loadDocument_ok py settings io (loadedText_eq_some.mp hload).2
    have hreads : d.ReadsAs py settings libraries c.shared.files t.2 :=
      ⟨path, payload, io, ha ▸ hpath, hok.1 path payload hread, hok.2, hparse⟩
    refine ⟨e, he, ?_, hreads.evolves hde⟩
    obtain ⟨_, rfl, -⟩ := hde
    exact hid.symm
  | messages => exact hl
  | delivered _ _ _ h => rcases h with rfl | rfl <;> trivial
  | _ => trivial

/-- Every stored text was read from the stored file of its row. -/
def TextsRead (py : Python) (settings : Settings) (libraries : Io → Prop) (s : Store) : Prop :=
  ∀ d ∈ s.db.documents, ∀ text, d.rawText = some text → d.ReadsAs py settings libraries s.files text

theorem Transition.textsRead (h : Transition settings s l a s' l') (hjust : l.Justified)
    (hk : (s.db.documents.map (·.id)).Nodup) (hs : TextsRead py settings libraries s)
    (hl : l.Reads settings libraries s) :
    TextsRead py settings libraries s' := by
  have hfiles : ∀ f ∈ s.files, f ∈ s'.files := fun f hf => h.extends.files.subset hf
  intro d hd text htext
  have hold : d ∈ s.db.documents → d.ReadsAs py settings libraries s'.files text := fun hd =>
    (hs d hd text htext).mono hfiles
  rcases h.commit with hdb | hcommit
  · exact hold (hdb ▸ hd)
  rcases hcommit.documents with hdocs | ⟨r, draft, rfl, hdocs⟩ | ⟨σ, result, stated, rfl, hdocs⟩
  · exact hold (hdocs ▸ hd)
  · rw [hdocs] at hd
    refine (List.mem_append.mp hd).elim hold fun hd => ?_
    obtain ⟨draws, db, hdraft⟩ := hjust
    obtain ⟨u, hbuilt⟩ := hdraft.documents d hd
    rw [hbuilt.rawText] at htext
    cases htext
  · rw [hdocs] at hd
    obtain ⟨e, he, rfl⟩ := List.mem_map.mp hd
    refine Document.ReadsAs.mono hfiles ?_
    split at htext
    next found hfound =>
      obtain rfl := Option.some.inj htext
      obtain ⟨l₁, l₂, hsplit, -⟩ := List.lookup_eq_some_iff.mp hfound
      have hmem : (e.id, found) ∈ result.rawTexts := hsplit ▸ List.mem_append_right _ List.mem_cons_self
      obtain ⟨e', he', hid, hreads⟩ := hl _ hmem
      obtain rfl := List.inj_on_of_nodup_map hk he' he hid
      exact hreads
    · exact hs e he text htext

theorem reads_of_reaches (h : ServiceReaches py settings (parsesWith libraries) c) :
    TextsRead py settings libraries c.shared ∧ ∀ p, (c.procs p).Reads settings libraries c.shared := by
  refine ((h.assuming (I := fun c => ∀ p, (c.procs p).Justified) fun h => justified_of_reaches h).assuming
    (I := KeysOk) fun h => keysOk_of_reaches h).assertions (I := TextsRead py settings libraries)
    (J := fun s l => l.Reads settings libraries s) (R := Store.Extends)
    (fun _ hd => absurd hd List.not_mem_nil) (fun _ => trivial) ?_
    fun _ _ _ hR hl => hl.mono hR
  rintro c p a s' l' ⟨⟨hok, hjust⟩, hkeys⟩ hs hl hstep
  have htrans := procStep_transition hstep
  exact ⟨htrans.textsRead (hjust p) hkeys.keysUnique.documents hs hl, htrans.reads hok hl, htrans.extends⟩

/-! ### Blank texts -/

theorem exists_of_stripBy_ne_nil {p : Char → Bool} {t : Text} (h : stripBy p t ≠ []) :
    ∃ c ∈ stripBy p t, p c = false := by
  have hne : ((t.dropWhile p).reverse.dropWhile p) ≠ [] := fun he => h (by rw [stripBy, he, List.reverse_nil])
  refine ⟨_, List.mem_reverse.mpr (List.head_mem hne), List.head_dropWhile_not p hne⟩

theorem strip_strip_ne_nil {t : Text} (h : py.strip t ≠ []) : py.strip (py.strip t) ≠ [] := by
  obtain ⟨c, hc, hspace⟩ := exists_of_stripBy_ne_nil h
  exact List.ne_nil_of_mem (mem_stripBy hc hspace)

theorem ocrPdf_not_blank {payload : Bytes} {t : Text} (h : ocrPdf py io payload = .ok t) : py.strip t ≠ [] := by
  unfold ocrPdf at h
  split_ifs at h
  split at h
  · cases h
  · split_ifs at h
    split at h
    · cases h
    · dsimp only at h
      split_ifs at h with hne
      cases h
      exact strip_strip_ne_nil hne

theorem ocrImage_not_blank {payload : Bytes} {t : Text} (h : ocrImage py io payload = .ok t) : py.strip t ≠ [] := by
  unfold ocrImage at h
  split_ifs at h
  split at h
  · cases h
  · dsimp only at h
    split_ifs at h with hne
    cases h
    exact strip_strip_ne_nil hne

/-- Only a text file has a blank text. -/
theorem parseByType_not_blank {fileType : Text} {payload : Bytes} {t : Text}
    (hplain : fileType ≠ "text/plain".toList) (h : parseByType py settings io fileType payload = .ok t) :
    py.strip t ≠ [] := by
  unfold parseByType at h
  split_ifs at h
  · unfold parsePdf at h
    split at h
    · cases h
    · split_ifs at h
      split at h
      · cases h
      · dsimp only at h
        split_ifs at h with hblank
        · unfold ocrFallback at h
          split_ifs at h
          exact ocrPdf_not_blank h
        · cases h
          exact hblank
  · exact ocrImage_not_blank h

/-! ### From the attachment to the text -/

/-- The text of a document and the attachment from which it came. -/
structure ShowsText (py : Python) (settings : Settings) (libraries : Io → Prop) (files : List (FilePath × Bytes))
    (applicationId : Uuid) (x : AttachmentIn) (t : Text) : Prop where
  /-- It was parsed from the bytes that were sent, or from the stored file to which the URL leads. -/
  parsed : ∃ payload io, libraries io ∧ parseByType py settings io x.fileType payload = .ok t ∧
    (∀ content, x.contentBase64 = some content → b64decode content = some payload) ∧
    (x.contentBase64 = none →
      ∃ path, localDocumentPath settings applicationId x.url = some path ∧ (path, payload) ∈ files)
  /-- The bytes are the encoding of the text, but for a mark in front. -/
  decoded : x.fileType = "text/plain".toList → ∀ content, x.contentBase64 = some content →
    b64decode content = some (encodeUtf8 ('\uFEFF' :: t)) ∨
      b64decode content = some (encodeUtf8 t) ∧ t.head? ≠ some '\uFEFF'
  sent : x.fileType = "text/plain".toList → ∀ text : Text, x.contentBase64 = some (base64Text (encodeUtf8 text)) →
    text.head? ≠ some '\uFEFF' → t = text
  scanned : x.fileType ≠ "text/plain".toList → py.strip t ≠ []

/-- The file to which the row of an attachment leads is what its base64 decodes to. -/
theorem Document.Keeps.decodes (hfiles : FilesOwned settings s) {d : Document} {x : AttachmentIn} {path : FilePath}
    {payload : Bytes} {content : Text} (hx : d.Keeps py settings s.files x)
    (hcontent : x.contentBase64 = some content)
    (hpath : localDocumentPath settings d.applicationId d.s3Path = some path) (hmem : (path, payload) ∈ s.files) :
    b64decode content = some payload := by
  obtain ⟨sent, path', hb, -, hpath', hmem', -⟩ := hx.payload content hcontent
  obtain rfl := Option.some.inj (hpath.symm.trans hpath')
  obtain rfl := hfiles.unique hmem hmem'
  exact hb

theorem showsText_of_reads (hfiles : FilesOwned settings s) {d : Document} {x : AttachmentIn} {t : Text}
    (hx : d.Keeps py settings s.files x) (ht : d.ReadsAs py settings libraries s.files t) :
    ShowsText py settings libraries s.files d.applicationId x t := by
  obtain ⟨path, payload, io, hpath, hmem, hlib, hparse⟩ := ht
  rw [hx.fileType.1] at hparse
  have hbytes : ∀ content, x.contentBase64 = some content → b64decode content = some payload :=
    fun content hcontent =>
    hx.decodes hfiles hcontent hpath hmem
  have hdecoded : x.fileType = "text/plain".toList → ∀ content, x.contentBase64 = some content →
      b64decode content = some (encodeUtf8 ('\uFEFF' :: t)) ∨
        b64decode content = some (encodeUtf8 t) ∧ t.head? ≠ some '\uFEFF' := by
    intro htype content hcontent
    have hplain : parseByType py settings io x.fileType payload = parsePlainText io payload := by
      rw [htype]
      rfl
    rw [hplain, parsePlainText_eq_ok] at hparse
    rw [hbytes content hcontent]
    simpa using hparse
  refine ⟨⟨payload, io, hlib, hparse, hbytes, fun hnone => ⟨path, ?_, hmem⟩⟩, hdecoded,
    fun htype text hcontent hmark => ?_, fun htype => parseByType_not_blank htype hparse⟩
  · rw [← (hx.url hnone).1, hpath]
  · have hb := hdecoded htype _ hcontent
    rw [b64decode_base64Text] at hb
    simp only [Option.some.injEq] at hb
    rcases hb with hb | ⟨hb, -⟩
    · exact absurd (by rw [encodeUtf8_injective hb, List.head?_cons]) hmark
    · exact (encodeUtf8_injective hb).symm

/-- Where runs read what is stored, the text of each document is what a library makes of its attachment. -/
theorem texts_round_trip (h : ServiceReaches py settings (parsesWith libraries) c) :
    List.Forall₂ (fun d x => ∀ t, d.rawText = some t →
        ShowsText py settings libraries c.shared.files d.applicationId x t)
      c.shared.db.documents c.shared.attachments := by
  have hread : ∀ d ∈ c.shared.db.documents, ∀ t, d.rawText = some t →
      d.ReadsAs py settings libraries c.shared.files t := (reads_of_reaches h).1
  refine ((List.forall₂_and_left _ _).mpr ⟨hread, keeps_of_reaches h⟩).imp fun d x hdx t ht => ?_
  exact showsText_of_reads (filesOwned_of_reaches h) hdx.2 (hdx.1 t ht)

theorem readsStored_payslip : ∀ c, ∀ e ∈ payslipRun, payslipStored c e.1 e.2 = true → readsStored c e.1 e.2 := by
  intro c e he ht
  obtain ⟨p, a⟩ := e
  have hsteady := payslipRun_steady c (p, a) he ht
  cases a with
  | parse io => exact hsteady.read
  | _ => trivial

theorem uses_payslip : ∀ e ∈ payslipRun, e.2.Uses (· = payslipDisk) := by
  simp [payslipRun, intakeSteps, extractSteps, factsStep, Action.Uses]

theorem texts_round_trip_payslip :
    (serviceAfter payslipStored payslipRun).shared.db.documents.map (·.rawText) = [some "income 5000".toList] ∧
    List.Forall₂ (fun d x => ∀ t, d.rawText = some t →
        ShowsText asciiPython sampleSettings (· = payslipDisk)
          (serviceAfter payslipStored payslipRun).shared.files d.applicationId x t)
      (serviceAfter payslipStored payslipRun).shared.db.documents
      (serviceAfter payslipStored payslipRun).shared.attachments :=
  ⟨by decide +kernel, texts_round_trip (Interleave.after_reaches fun c e he ht =>
    ⟨readsStored_payslip c e he ht, uses_payslip e he⟩)⟩

end LoanAgent
