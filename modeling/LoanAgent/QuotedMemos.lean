import LoanAgent.ExportGate
import LoanAgent.Portion

/-! The words behind a memo. A fact of the chat names no document, and its quote was
looked up in the messages that a run had selected by then; the memo shows the quote
and not the message. By the time of the delivery the facts may come from another
run, the borrower may have written again, and other borrowers' facts stand in the
same table. Proved: in every reachable state every fact of a delivered memo has a
known key and shows, uncut, a quote of a message that the borrower whom the memo
names has sent to the application that it names. -/

namespace LoanAgent

variable {py : Python} {settings : Settings} {s s' : Store} {l l' : Proc py} {a : Action py}
  {c : Service py} {db db' : Database} {b : Uuid}

/-! ### Quotes of messages -/

/-- A message to the application has these words. -/
def Database.Quotes (py : Python) (db : Database) (b : Uuid) (quote : Text) : Prop :=
  ∃ text, MessageText db b text ∧ contains py text quote = true

/-- A memo names a borrower of ours, and its facts are in this borrower's words. -/
structure CreditMemo.InWords (py : Python) (db : Database) (memo : CreditMemo) : Prop where
  borrower : db.HasBorrower memo.applicationId memo.borrower
  keys : ∀ f ∈ memo.facts, f.key ∈ knownFactKeys
  quotes : ∀ f ∈ memo.facts, db.Quotes py memo.applicationId f.snippet

theorem MessageText.extend (h : db.Extends db') {text : Text} : MessageText db b text → MessageText db' b text :=
  fun ⟨m, hm, hrest⟩ => ⟨m, h.communications.subset hm, hrest⟩

theorem Database.Quotes.mono (h : db.Extends db') {quote : Text} (hq : db.Quotes py b quote) :
    db'.Quotes py b quote := by
  obtain ⟨text, htext, hc⟩ := hq
  exact ⟨text, htext.extend h, hc⟩

theorem CreditMemo.InWords.mono (h : db.Extends db') {memo : CreditMemo} (hm : memo.InWords py db) :
    memo.InWords py db' :=
  ⟨h.hasBorrower hm.borrower, hm.keys, fun f hf => (hm.quotes f hf).mono h⟩

/-- The quote of an entity that names no document. -/
def ValidatedEntity.InWords (db : Database) (b : Uuid) (v : ValidatedEntity py) : Prop :=
  v.documentId = none → ∃ quote, v.entity.sourceQuote = some quote ∧ db.Quotes py b quote

/-- What a process relies on between its steps. -/
def Proc.InWords (db : Database) : Proc py → Prop
  | .run σ (.texts _ stated) => ∀ e ∈ stated, MessageText db σ.applicationId e.2
  | .run σ (.ask sources) => ∀ source ∈ sources, source.documentId = none →
      MessageText db σ.applicationId source.text
  | .run σ (.delete _ validated) | .run σ (.insert _ validated _) =>
    ∀ v ∈ validated, v.InWords db σ.applicationId
  | .exporting (.facts x) => db.HasBorrower x.id x.externalBorrowerId
  | .exporting (.deliver memo) => memo.InWords py db
  | _ => True

theorem Proc.InWords.mono (h : db.Extends db') (hl : l.InWords db) : l.InWords db' := by
  have hentity : ∀ {v : ValidatedEntity py} {b : Uuid}, v.InWords db b → v.InWords db' b := by
    intro v b hv hnone
    obtain ⟨quote, hquote, hq⟩ := hv hnone
    exact ⟨quote, hquote, hq.mono h⟩
  unfold Proc.InWords at hl ⊢
  split at hl
  · exact fun e he => (hl e he).extend h
  · exact fun source hs hnone => (hl source hs hnone).extend h
  · exact fun v hv => hentity (hl v hv)
  · exact fun v hv => hentity (hl v hv)
  · exact h.hasBorrower hl
  · exact hl.mono h
  · trivial

/-! ### One step -/

/-- A validated entity without a document quotes a message: identifiers are not empty. -/
theorem inWords_of_validated {sources : List SourceText}
    (hnamed : ∀ source ∈ sources, ∀ id, source.documentId = some id →
      ∃ u : Uuid, u.str = id ∧ db.HasDocument b u)
    (hsources : ∀ source ∈ sources, source.documentId = none → MessageText db b source.text)
    {v : ValidatedEntity py} (hv : Validated sources v) : v.InWords db b := by
  intro hnone
  obtain ⟨-, quote, hquote, -, hsource⟩ := hv
  simp only [hnone] at hsource
  obtain ⟨text, htext, hc⟩ := hsource
  obtain ⟨source, hs, hsome⟩ := List.mem_filterMap.mp htext
  refine ⟨quote, hquote, text, ?_, hc⟩
  split at hsome
  next id hid =>
    split_ifs at hsome with he
    obtain ⟨u, hu, -⟩ := hnamed source hs id hid
    exact absurd (hu.trans he) (str_ne_nil u)
  next hid =>
    obtain rfl := Option.some.inj hsome
    exact hsources source hs hid

/-- The memo shows the quotes of its facts uncut. -/
theorem inWords_buildCreditMemo {x : Application} {ordered : List ExtractedFact} {stamp : Text} {memo : CreditMemo}
    (horder : Paging.Arrangement ExtractedFact.sortKey (db.factsOf x.id) ordered)
    (hx : db.HasBorrower x.id x.externalBorrowerId) (hwell : ∀ f ∈ db.facts, f.WellFormed)
    (hfacts : ∀ f ∈ db.facts, f.documentId = none →
      ∀ quote, f.sourceSnippet = some quote → db.Quotes py f.applicationId quote)
    (h : buildCreditMemo py x (memoFacts ordered) stamp = some memo) : memo.InWords py db := by
  have hshown : ∀ f ∈ memoFacts ordered, (memoFact py f).key ∈ knownFactKeys ∧
      (f.documentId = none → db.Quotes py x.id (memoFact py f).snippet) := by
    intro f hf
    obtain ⟨row, hrow, rfl⟩ := List.mem_map.mp hf
    obtain ⟨hmem, happ⟩ := List.mem_filter.mp (horder.perm.mem_iff.mp (List.mem_of_mem_take hrow))
    obtain ⟨hkey, ⟨quote, hquote, -, hlength⟩, -⟩ := hwell row hmem
    refine ⟨hkey, fun hnone => ?_⟩
    rw [memoFact, hquote, Option.getD_some, List.take_of_length_le hlength, ← of_decide_eq_true happ]
    exact hfacts row hmem hnone quote hquote
  unfold buildCreditMemo at h
  split_ifs at h with hdocument
  cases h
  simp only [List.any_eq_true, not_exists, not_and, Option.not_isSome_iff_eq_none] at hdocument
  refine ⟨hx, List.forall_mem_map.mpr fun f hf => (hshown f hf).1,
    List.forall_mem_map.mpr fun f hf => (hshown f hf).2 (hdocument f hf)⟩

/-- The quote of a fact without a document comes from an entity without one. -/
theorem quotes_newFacts {ids : ℕ → Uuid} {now : Time} {validated : List (ValidatedEntity py)}
    {facts : List ExtractedFact} (hv : ∀ v ∈ validated, v.InWords db b)
    (h : newFacts b ids now validated = .ok facts) {f : ExtractedFact} (hf : f ∈ facts)
    (hnone : f.documentId = none) {quote : Text} (hquote : f.sourceSnippet = some quote) :
    db.Quotes py f.applicationId quote := by
  obtain ⟨hb, v, hmem, -, hsnippet, -, hid⟩ := mem_newFacts h hf
  rcases hid with ⟨hvid, -⟩ | ⟨_, _, -, -, hsome⟩
  · obtain ⟨quote', hquote', hq⟩ := hv v hmem hvid
    rw [hb, Option.some.inj (hquote.symm.trans (hsnippet.trans hquote'))]
    exact hq
  · rw [hnone] at hsome
    cases hsome

theorem Transition.inWords (h : Transition settings s l a s' l') (hrefers : l.Refers s.db)
    (hwell : ∀ f ∈ s.db.facts, f.WellFormed)
    (hfacts : ∀ f ∈ s.db.facts, f.documentId = none →
      ∀ quote, f.sourceSnippet = some quote → s.db.Quotes py f.applicationId quote)
    (hl : l.InWords s.db) : l'.InWords s'.db := by
  have hext := h.extends.db
  cases h with
  | evict | forgotten => exact hl.mono hext
  | messages σ result =>
    intro e he
    obtain ⟨m, hm, hcontent⟩ := mem_statedMessages he
    obtain ⟨hmem, hm⟩ := List.mem_filter.mp hm
    simp only [decide_eq_true_eq] at hm
    exact ⟨m, hmem, hm.1, hm.2, hcontent⟩
  | @ingested σ result stated now db h =>
    intro source hsource hnone
    rcases List.mem_append.mp hsource with hmem | hmem
    · obtain ⟨e, -, rfl⟩ := List.mem_map.mp hmem
      cases hnone
    · obtain ⟨e, he, rfl⟩ := List.mem_map.mp hmem
      exact (hl e he).extend hext
  | asked => exact fun v hv => inWords_of_validated hrefers.2 hl (validateEntities_validated hv)
  | deleted => exact hl
  | gated h => exact ⟨_, List.mem_of_find?_eq_some h, rfl, rfl⟩
  | memo horder h => exact inWords_buildCreditMemo horder hl hwell hfacts h
  | delivered _ _ _ h => rcases h with rfl | rfl <;> trivial
  | _ => trivial

/-! ### Every run -/

/-- Facts of the chat and the memos that were made of them are in the borrower's words. -/
structure WordsOk (py : Python) (s : Store) : Prop where
  facts : ∀ f ∈ s.db.facts, f.documentId = none →
    ∀ quote, f.sourceSnippet = some quote → s.db.Quotes py f.applicationId quote
  delivered : ∀ memo ∈ s.delivered, memo.InWords py s.db

theorem Transition.wordsOk (h : Transition settings s l a s' l') (hs : WordsOk py s) (hl : l.InWords s.db) :
    WordsOk py s' := by
  have hext := h.extends.db
  refine ⟨fun f hf hnone quote hquote => ?_, fun memo hm => ?_⟩
  · rcases h.facts with ⟨hsame, -⟩ | ⟨σ, call, validated, deleted, ids, now, facts, hlp, -, -, hnew, hdb, -⟩
    · exact (hs.facts f (hsame ▸ hf) hnone quote hquote).mono hext
    · rw [hlp] at hl
      rw [hdb] at hf
      rcases List.mem_append.mp hf with hf | hf
      · exact (hs.facts f (List.mem_filter.mp hf).1 hnone quote hquote).mono hext
      · exact (quotes_newFacts hl hnew hf hnone hquote).mono hext
  · cases h with
    | delivered memo' accepted l' h =>
      rcases List.mem_cons.mp hm with rfl | hm
      · exact hl
      · exact hs.delivered memo hm
    | _ => exact (hs.delivered memo hm).mono hext

/-- Every delivered memo is in the words of the borrower whom it names. -/
theorem delivered_memos_quoted (h : ServiceReaches py settings Interleave.anyStep c) :
    ∀ memo ∈ c.shared.delivered, memo.InWords py c.shared.db := by
  have h0 : WordsOk py (initial py).shared :=
    ⟨fun f hf => absurd hf List.not_mem_nil, fun memo hm => absurd hm List.not_mem_nil⟩
  refine ((h.assuming (I := fun c => Consistent c.shared.db ∧ ∀ p, (c.procs p).Refers c.shared.db) fun h =>
    consistent_of_reaches h).assertions (I := WordsOk py) (J := fun s l => l.InWords s.db)
    (R := fun s s' => s.db.Extends s'.db) h0 (fun _ => trivial) ?_ fun _ _ _ hR hl => hl.mono hR).1.delivered
  rintro c p a s' l' ⟨-, hdb, hrefers⟩ hs hl hstep
  have htrans := procStep_transition hstep
  exact ⟨htrans.wordsOk hs hl, htrans.inWords (hrefers p) hdb.wellFormed hs.facts hl,
    htrans.extends.db⟩

/-- The memo of Alice's application, whose facts quote her message. -/
theorem delivered_memos_quoted_afterRun :
    ((serviceAfter factsSuffice exportAfterRun).shared.delivered.map fun memo =>
      (memo.borrower, memo.facts.length)) = [("alice".toList, 3)] ∧
    ∀ memo ∈ (serviceAfter factsSuffice exportAfterRun).shared.delivered,
      memo.InWords asciiPython (serviceAfter factsSuffice exportAfterRun).shared.db :=
  ⟨by decide +kernel, delivered_memos_quoted (Interleave.after_reaches fun _ _ _ _ => trivial)⟩

end LoanAgent
