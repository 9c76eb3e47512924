import LoanAgent.Extraction
import LoanAgent.Library.Words
import LoanAgent.NumberText

/-! What the check of a quote against its source is worth. Both texts are
lower-cased and their gaps collapsed, and the one is searched in the other.
Proved: a quote whose gaps and letter case have been rewritten is always found
in a text it is a slice of, so that no entity is lost that quotes its source;
and an accepted quote is a block of whole words of every source exactly when it
has a word and neither begins nor ends inside one. -/

namespace LoanAgent

variable {py : Python}

theorem blank_not_word : py.isWord ' ' = false := by
  rw [py.word_ascii ' ' (by decide)]
  decide

/-- The normalisation collapses the gaps of the lower-cased text. -/
theorem normalizeText_eq (s : Text) :
    normalizeText py s = Words.collapse py.isWord ' ' false (py.lower s) := by
  have hclass : (fun c => !(py.isSpace c || !py.isWord c)) = py.isWord := by
    funext c
    cases hs : py.isSpace c with
    | true => simp [py.not_word_of_space c hs]
    | false => simp
  rw [normalizeText, Rx.subn_gaps, hclass]

theorem contains_iff {t q : Text} :
    contains py t q = true ↔ q ≠ [] ∧ normalizeText py q <:+: normalizeText py t := by
  rw [contains, Bool.and_eq_true, containsText_iff, bne_iff_ne]

/-! ### No quote is lost -/

section Complete
variable {lc : Char → Char}

/-- `q'` is `q` with other letter case and other gaps, but gaps in the same places. -/
inductive Variant (py : Python) (lc : Char → Char) : Text → Text → Prop
  | nil : Variant py lc [] []
  | letter {c c' : Char} {q q' : Text} (hc : lc c' = lc c) (h : Variant py lc q q') :
      Variant py lc (c :: q) (c' :: q')
  | gap {r r' q q' : Text} (hr : r ≠ []) (hr' : r' ≠ []) (hgap : ∀ c ∈ r, py.isWord c = false)
      (hgap' : ∀ c ∈ r', py.isWord c = false) (h : Variant py lc q q') :
      Variant py lc (r ++ q) (r' ++ q')

theorem Variant.ne_nil {q q' : Text} (h : Variant py lc q q') (hq : q ≠ []) : q' ≠ [] := by
  cases h with
  | nil => exact absurd rfl hq
  | letter => exact List.cons_ne_nil _ _
  | gap _ hr' => simp [hr']

theorem Variant.collapse_eq (hword : ∀ c, py.isWord (lc c) = py.isWord c) {q q' : Text}
    (h : Variant py lc q q') (gap : Bool) :
    Words.collapse py.isWord ' ' gap (q.map lc) = Words.collapse py.isWord ' ' gap (q'.map lc) := by
  induction h generalizing gap with
  | nil => rfl
  | letter hc _ ih => simp only [List.map_cons, Words.collapse, hc, ih]
  | gap hr hr' hgap hgap' _ ih =>
    have hrun : ∀ {r : Text}, (∀ c ∈ r, py.isWord c = false) → ∀ c ∈ r.map lc, py.isWord c = false := by
      intro r hr c hc
      obtain ⟨d, hd, rfl⟩ := List.mem_map.mp hc
      rw [hword, hr d hd]
    rw [List.map_append, List.map_append, Words.collapse_run _ (by simpa using hr) (hrun hgap),
      Words.collapse_run _ (by simpa using hr') (hrun hgap'), ih]

theorem contains_variant (hlower : ∀ s, py.lower s = s.map lc)
    (hword : ∀ c, py.isWord (lc c) = py.isWord c) {t q q' : Text} (hq : q ≠ []) (hslice : q <:+: t)
    (h : Variant py lc q q') : contains py t q' = true := by
  refine contains_iff.mpr ⟨h.ne_nil hq, ?_⟩
  rw [normalizeText_eq, normalizeText_eq, hlower, hlower, ← h.collapse_eq hword]
  exact Words.collapse_slice (hslice.map lc)

theorem Variant.refl (q : Text) : Variant py lc q q := by
  induction q with
  | nil => exact .nil
  | cons c q ih => exact .letter rfl ih

/-- The entity quotes, character for character, the source it names, or a chat
message if it names none. -/
def Quotes (sources : List SourceText) (e : RawExtractedEntity py) : Prop :=
  ∃ s ∈ sources, s.documentId.filter (· ≠ []) = e.documentId.filter (· ≠ []) ∧
    ∃ q, e.sourceQuote = some q ∧ q ≠ [] ∧ q <:+: s.text

theorem lookup_of_nodup {α β : Type*} [BEq α] [LawfulBEq α] {d : List (α × β)}
    (h : (d.map (·.1)).Nodup) {k : α} {v : β} (hm : (k, v) ∈ d) : d.lookup k = some v := by
  obtain ⟨l, l', rfl⟩ := List.append_of_mem hm
  refine List.lookup_eq_some_iff.mpr ⟨l, l', rfl, fun e he => ?_⟩
  rw [List.map_append, List.map_cons] at h
  have hne := (List.nodup_append.mp h).2.2 e.1 (List.mem_map_of_mem he) k List.mem_cons_self
  simpa using hne.symm

theorem map_docTexts (sources : List SourceText) :
    (docTexts sources).map (·.1) = (sources.filterMap fun s => s.documentId.filter (· ≠ [])).reverse := by
  rw [docTexts, List.map_reverse, List.map_filterMap]
  congr 2
  funext s
  cases s.documentId with
  | none => rfl
  | some id => by_cases hid : id = [] <;> simp [hid, Option.filter]

/-- The search of a quote of the source has success: in the text of a document
for a document, in some chat message for a chat message. -/
def FoundIn (py : Python) (sources : List SourceText) (s : SourceText) (q : Text) : Prop :=
  if s.documentId.filter (· ≠ []) = none then ∃ t ∈ chatTexts sources, contains py t q = true
  else contains py s.text q = true

theorem text_mem_chatTexts {sources : List SourceText} {s : SourceText} (hs : s ∈ sources)
    (hid : s.documentId.filter (· ≠ []) = none) : s.text ∈ chatTexts sources := by
  refine List.mem_filterMap.mpr ⟨s, hs, ?_⟩
  cases hsome : s.documentId with
  | none => rfl
  | some id => simpa [hsome] using hid

theorem foundIn_of_contains {sources : List SourceText} {s : SourceText} {q : Text} (hs : s ∈ sources)
    (h : contains py s.text q = true) : FoundIn py sources s q := by
  unfold FoundIn
  split_ifs with hid
  · exact ⟨s.text, text_mem_chatTexts hs hid, h⟩
  · exact h

/-- An entity with a quote of its source is kept exactly when the quote is found. -/
theorem validateEntity_iff_found {sources : List SourceText}
    (hdistinct : (sources.filterMap fun s => s.documentId.filter (· ≠ [])).Nodup)
    {e : RawExtractedEntity py} {s : SourceText} {q : Text} (hs : s ∈ sources) (hkey : e.key ∈ knownFactKeys)
    (hid : s.documentId.filter (· ≠ []) = e.documentId.filter (· ≠ [])) (hquote : e.sourceQuote = some q)
    (hq : q ≠ []) (htext : s.text ≠ []) :
    validateEntity sources e = some ⟨e, e.documentId.filter (· ≠ [])⟩ ↔ FoundIn py sources s q := by
  unfold validateEntity FoundIn
  rw [if_neg (not_not.mpr hkey), hquote, hid]
  dsimp only [Option.getD_some]
  cases hdoc : e.documentId.filter (· ≠ []) with
  | some id =>
    rw [hdoc] at hid
    have hlookup : (docTexts sources).lookup id = some s.text := by
      refine lookup_of_nodup (by rwa [map_docTexts, List.nodup_reverse]) ?_
      obtain ⟨hsome, hne⟩ := Option.filter_eq_some_iff.mp hid
      refine List.mem_reverse.mpr (List.mem_filterMap.mpr ⟨s, hs, ?_⟩)
      simpa [hsome] using hne
    simp [hlookup, htext, hq]
  | none => simp [hq]

theorem validateEntity_quotes (hlower : ∀ s, py.lower s = s.map lc)
    (hword : ∀ c, py.isWord (lc c) = py.isWord c) {sources : List SourceText}
    (hdistinct : (sources.filterMap fun s => s.documentId.filter (· ≠ [])).Nodup)
    {e : RawExtractedEntity py} (hkey : e.key ∈ knownFactKeys) (hquotes : Quotes sources e) :
    validateEntity sources e = some ⟨e, e.documentId.filter (· ≠ [])⟩ := by
  obtain ⟨s, hs, hid, q, hquote, hq, hslice⟩ := hquotes
  have hfound : contains py s.text q = true := contains_variant hlower hword hq hslice (.refl q)
  have htext : s.text ≠ [] := fun h => hq (List.infix_nil.mp (h ▸ hslice))
  exact (validateEntity_iff_found hdistinct hs hkey hid hquote hq htext).mpr (foundIn_of_contains hs hfound)

/-- Where lower-casing acts on each character and keeps word characters apart
from others, a slice of a text is found in it, whatever its letter case and its
gaps, and every entity that quotes its source is kept, in its place. -/
theorem grounding_complete (hlower : ∀ s, py.lower s = s.map lc)
    (hword : ∀ c, py.isWord (lc c) = py.isWord c) :
    (∀ t q q', q ≠ [] → q <:+: t → Variant py lc q q' → contains py t q' = true) ∧
      ∀ sources : List SourceText, (sources.filterMap fun s => s.documentId.filter (· ≠ [])).Nodup →
        ∀ (e : RawExtractedEntity py) (before after : List (RawExtractedEntity py)),
          e.key ∈ knownFactKeys → Quotes sources e →
          validateEntities (before ++ e :: after) sources = validateEntities before sources ++
            ⟨e, e.documentId.filter (· ≠ [])⟩ :: validateEntities after sources := by
  refine ⟨fun t q q' hq hslice h => contains_variant hlower hword hq hslice h, ?_⟩
  intro sources hdistinct e before after hkey hquotes
  rw [validateEntities, List.filterMap_append, List.filterMap_cons,
    validateEntity_quotes hlower hword hdistinct hkey hquotes]
  rfl

theorem asciiWord_toLower (c : Char) : asciiWord c.toLower = asciiWord c := by
  cases hc : c.isUpper with
  | false => rw [toLower_of_not_upper hc]
  | true =>
    obtain ⟨h1, h2, h3⟩ := toLower_toNat hc
    have hl : c.toLower.toNat = c.toLower.val.toNat := rfl
    have ha : 'a'.val.toNat = 97 := rfl
    have hz : 'z'.val.toNat = 122 := rfl
    have hlower : c.toLower.isLower = true := by
      simp only [Char.isLower, Bool.and_eq_true, decide_eq_true_eq, ge_iff_le, UInt32.le_iff_toNat_le]
      omega
    simp [asciiWord, Char.isAlphanum, Char.isAlpha, hc, hlower]

/-- A stated income and the message it is taken from. -/
def incomeEntity : RawExtractedEntity asciiPython where
  key := "monthly_income".toList
  value := .str "5000".toList
  confidenceScore := 1
  sourceQuote := some "$5,000 net".toList
  documentId := none
  key_length := by decide
  value_float := by simp
  confidence_range := by norm_num
  quote_length := by rintro s ⟨⟩; decide
  document_length := by simp

def incomeMessage : SourceText := ⟨"message".toList, none, "I earn $5,000 net.".toList⟩

theorem grounding_complete_income :
    contains asciiPython "I earn $5,000 net.".toList "0-NET".toList = true ∧
      validateEntities [incomeEntity] [incomeMessage] = [⟨incomeEntity, none⟩] := by
  have hvariant : Variant asciiPython Char.toLower "0 net".toList "0-NET".toList := by
    have hgap : Variant asciiPython Char.toLower ([' '] ++ "net".toList) (['-'] ++ "NET".toList) :=
      .gap (List.cons_ne_nil _ _) (List.cons_ne_nil _ _) (List.forall_mem_singleton.mpr rfl)
        (List.forall_mem_singleton.mpr rfl)
        (.letter rfl (.letter rfl (.letter rfl .nil)))
    exact .letter rfl hgap
  have h := @grounding_complete asciiPython Char.toLower (fun _ => rfl) asciiWord_toLower
  exact ⟨h.1 _ _ _ (by decide) ⟨"I earn $5,00".toList, ['.'], by decide⟩ hvariant,
    h.2 [incomeMessage] (by decide) incomeEntity [] [] (by decide)
      ⟨incomeMessage, List.mem_cons_self, rfl, _, rfl, by decide, "I earn ".toList, ['.'], by decide⟩⟩

end Complete

/-! ### What an accepted quote shows -/

/-- The words of a text, compared without letter case. -/
def wordsOf (py : Python) (s : Text) : List Text := Words.words py.isWord (py.lower s)

/-- The quote has a word, and its words are a block of the words of the text. -/
def Grounded (py : Python) (t q : Text) : Prop := wordsOf py q ≠ [] ∧ wordsOf py q <:+: wordsOf py t

instance (t q : Text) : Decidable (Grounded py t q) :=
  inferInstanceAs (Decidable (_ ∧ _))

/-- The quote has a word, and neither begins nor ends inside one. -/
def Enclosed (py : Python) (q : Text) : Prop :=
  wordsOf py q ≠ [] ∧ Words.starts py.isWord (py.lower q) = false ∧
    Words.finishes py.isWord (py.lower q) = false

/-- Where the quote is searched with success its words also stand free; a quote
without words is searched in vain. -/
def Uncut (py : Python) (t q : Text) : Prop :=
  if wordsOf py q = [] then q = [] ∨ ∀ c ∈ py.lower t, py.isWord c = true
  else normalizeText py q <:+: normalizeText py t →
    Words.Free py.isWord ([' '].intercalate (wordsOf py q)) (normalizeText py t)

/-- Documented behaviour of `str.lower`: nothing is lost, and a digit neither
changes nor lets a letter depend on what lies beyond it. -/
structure DigitsBlock (py : Python) : Prop where
  nil : ∀ s, py.lower s = [] ↔ s = []
  before : ∀ s, py.lower ('0' :: s) = '0' :: py.lower s
  behind : ∀ s, py.lower (s ++ ['0']) = py.lower s ++ ['0']

theorem words_normalizeText (s : Text) : Words.words py.isWord (normalizeText py s) = wordsOf py s := by
  rw [normalizeText_eq, Words.words_collapse blank_not_word, wordsOf]

theorem wordsOf_nil (hpy : DigitsBlock py) : wordsOf py [] = [] := by
  rw [wordsOf, (hpy.nil []).mpr rfl]
  rfl

theorem ne_nil_of_wordsOf (hpy : DigitsBlock py) {q : Text} (h : wordsOf py q ≠ []) : q ≠ [] := by
  rintro rfl
  exact h (wordsOf_nil hpy)

/-- An enclosed quote stands free wherever it is found. -/
theorem Enclosed.grounded {t q : Text} (h : Enclosed py q) (hfound : contains py t q = true) :
    Grounded py t q := by
  obtain ⟨hwords, hstart, hfinish⟩ := h
  obtain ⟨a, b, heq⟩ := (contains_iff.mp hfound).2
  have hfree : Words.Free py.isWord (normalizeText py q) (normalizeText py t) := by
    refine ⟨a, b, heq.symm, .inr ?_, .inl ?_⟩
    · rw [normalizeText_eq, Words.starts_collapse blank_not_word, hstart]
    · rw [normalizeText_eq, Words.finishes_collapse blank_not_word, hfinish]
  have hinfix := hfree.block
  rw [words_normalizeText, words_normalizeText] at hinfix
  exact ⟨hwords, hinfix⟩

/-- Every other quote is accepted where it should not be: one without words in
itself, one that begins or ends inside a word behind or in front of a digit. -/
theorem enclosed_of_grounded (hpy : DigitsBlock py) {q : Text} (hq : q ≠ [])
    (h : ∀ t, contains py t q = true → Grounded py t q) : Enclosed py q := by
  have hdigit : py.isWord '0' = true := by
    rw [py.word_ascii '0' (by decide)]
    decide
  refine ⟨(h q (contains_iff.mpr ⟨hq, List.infix_refl _⟩)).1, ?_, ?_⟩
  · rw [← Bool.not_eq_true]
    intro hstart
    have hfound : contains py ('0' :: q) q = true := by
      refine contains_iff.mpr ⟨hq, ?_⟩
      rw [normalizeText_eq, normalizeText_eq, hpy.before, Words.collapse_word hdigit]
      exact List.infix_cons (List.infix_refl _)
    have hinfix := (h _ hfound).2
    rw [wordsOf, wordsOf, hpy.before] at hinfix
    exact Words.not_block_cons hdigit hstart hinfix
  · rw [← Bool.not_eq_true]
    intro hfinish
    have hfound : contains py (q ++ ['0']) q = true := by
      refine contains_iff.mpr ⟨hq, ?_⟩
      rw [normalizeText_eq, normalizeText_eq, hpy.behind, Words.collapse_append]
      exact (List.prefix_append _ _).isInfix
    have hinfix := (h _ hfound).2
    rw [wordsOf, wordsOf, hpy.behind] at hinfix
    exact Words.not_block_concat hdigit hfinish hinfix

theorem grounded_iff_uncut (hpy : DigitsBlock py) (t q : Text) :
    (contains py t q = true → Grounded py t q) ↔ Uncut py t q := by
  unfold Uncut
  split_ifs with hwords
  · have hnone : ¬ Grounded py t q := fun h => h.1 hwords
    by_cases hq : q = []
    · have hrefused : ¬ contains py t q = true := fun h => (contains_iff.mp h).1 hq
      exact iff_of_true (fun h => absurd h hrefused) (.inl hq)
    · have hlower : py.lower q ≠ [] := fun h => hq ((hpy.nil q).mp h)
      have hblank : normalizeText py q = [' '] := by
        have hrun := Words.collapse_run ' ' hlower (Words.words_eq_nil.mp hwords) false []
        rw [List.append_nil] at hrun
        rw [normalizeText_eq, hrun]
        rfl
      have hfound : contains py t q = true ↔ ∃ c ∈ py.lower t, py.isWord c = false := by
        rw [contains_iff, hblank, List.singleton_infix_iff, normalizeText_eq,
          Words.sep_mem_collapse blank_not_word]
        exact and_iff_right hq
      rw [hfound]
      simp [hnone, hq]
  · have hgrounded : Grounded py t q ↔
        Words.Free py.isWord ([' '].intercalate (wordsOf py q)) (normalizeText py t) := by
      rw [normalizeText_eq]
      exact (and_iff_right hwords).trans (Words.block_iff blank_not_word hwords)
    rw [hgrounded, contains_iff]
    exact ⟨fun h hfound => h ⟨ne_nil_of_wordsOf hpy hwords, hfound⟩, fun h hfound => h hfound.2⟩

theorem asciiPython_digitsBlock : DigitsBlock asciiPython where
  nil _ := List.map_eq_nil_iff
  before _ := rfl
  behind _ := List.map_append

end LoanAgent
