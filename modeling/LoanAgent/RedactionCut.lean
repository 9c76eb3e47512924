import LoanAgent.Library.RxCut
import LoanAgent.Extraction

/-! What the cut to 8000 characters shows of what redaction hides. A text is
redacted with the places of its characters, so that it is seen which of them an
audit row keeps. A failure is redacted and then cut; a prompt and a response are
cut and then redacted. Proved: the row of a failure shows nothing that redacting
the whole text replaces; neither does the row of an extraction when the cut moves
no match, or when nothing is replaced in the stretch before the cut that is set
apart by a character that no pattern accepts; and a stretch that has no match of
its own is shown with everything that redacting the whole text replaces in it. -/

namespace LoanAgent

/-- The characters of the text with their places, the first of which is `k`. -/
def placed (k : ℕ) (text : Text) : List (Char × Option ℕ) := (text.zipIdx k).map fun x => (x.1, some x.2)

section Trace
variable (py : Python)

/-- The redacted text; a character that is kept has its place and a token has none. -/
def tracedRedact (k : ℕ) (text : Text) : List (Char × Option ℕ) :=
  Rx.substAllTraced py.isWord (redactionPatterns py) (placed k text)

/-- Redacting the whole text replaces the character at the place `i`. -/
def Replaced (text : Text) (i : ℕ) : Prop := i < text.length ∧ ∀ c, (c, some i) ∉ tracedRedact py 0 text

/-- What `_record_extraction_audit` stores: cut, then redacted. -/
def tracedExcerpt (text : Text) : List (Char × Option ℕ) := tracedRedact py 0 (text.take 8000)

/-- What `_record_degraded_audit` stores: redacted, then cut. -/
def tracedFailure (text : Text) : List (Char × Option ℕ) := (tracedRedact py 0 text).take 8000

/-- No character that redacting the whole text replaces is stored. -/
def Hides (text : Text) (stored : List (Char × Option ℕ)) : Prop :=
  ∀ i, Replaced py text i → ∀ c, (c, some i) ∉ stored

/-- At each place before the cut every pattern matches the same in the whole text
as in the part before the cut. -/
def CutKeepsMatches (text : Text) : Prop :=
  ∀ r ∈ redactionPatterns py, Rx.Unmoved py.isWord r.1 (text.drop 8000) [] (text.take 8000)

/-- What follows `pre` is set apart: `pre` is empty, or ends with a character that
no pattern accepts. -/
def Apart (pre : Text) : Prop := pre = [] ∨ ∃ front o, Barrier py o ∧ pre = front ++ [o]

/-- Redacting the whole text replaces nothing from the place `k` on to the cut. -/
def StretchKept (text : Text) (k : ℕ) : Prop := ∀ i, k ≤ i → i < 8000 → ¬ Replaced py text i

end Trace

/-! ### Places -/

@[simp] theorem placed_fst (k : ℕ) (text : Text) : (placed k text).map Prod.fst = text := by
  simp only [placed, List.map_map]
  exact List.zipIdx_map_fst k text

theorem placed_append (k : ℕ) (s t : Text) : placed k (s ++ t) = placed k s ++ placed (k + s.length) t := by
  simp only [placed, List.zipIdx_append, List.map_append]

theorem placed_cons (k : ℕ) (c : Char) (t : Text) : placed k (c :: t) = (c, some k) :: placed (k + 1) t := rfl

theorem mem_placed {k i : ℕ} {text : Text} (hk : k ≤ i) (hi : i < k + text.length) :
    ∃ c, (c, some i) ∈ placed k text := by
  obtain ⟨c, hc⟩ : ∃ c, text[i - k]? = some c := ⟨_, List.getElem?_eq_getElem (by omega)⟩
  exact ⟨c, List.mem_map.mpr ⟨(c, i), List.mk_mem_zipIdx_iff_le_and_getElem?_sub.mpr ⟨hk, hc⟩, rfl⟩⟩

theorem bounds_of_mem_placed {k i : ℕ} {c : Char} {text : Text} (h : (c, some i) ∈ placed k text) :
    k ≤ i ∧ i < k + text.length := by
  obtain ⟨x, hx, he⟩ := List.mem_map.mp h
  obtain ⟨rfl, rfl⟩ : x.1 = c ∧ x.2 = i := by simpa using he
  have := List.mem_zipIdx hx
  exact ⟨this.1, by omega⟩

section Facts
variable {py : Python} {text : Text}

theorem framed_patterns {r : Rx.Pat × Text} (h : r ∈ redactionPatterns py) : Rx.Framed r.1 := by
  simp only [redactionPatterns, List.mem_cons, List.not_mem_nil, or_false] at h
  rcases h with rfl | rfl | rfl | rfl
  · exact ⟨.times 3 (digitClass py), [.char (· == '-'), .times 2 (digitClass py), .char (· == '-'),
      .times 4 (digitClass py)], rfl, rfl⟩
  · exact ⟨.times 3 (digitClass py), [.char py.isSpace, .times 2 (digitClass py), .char py.isSpace,
      .times 4 (digitClass py)], rfl, rfl⟩
  · exact ⟨.rep 13 (some 19) (.seq (digitClass py) (.opt (.char fun c => c == ' ' || c == '-'))), [], rfl, rfl⟩
  · exact ⟨.times 2 (.char asciiUpper), [.times 2 (digitClass py),
      .rep 11 (some 30) (.char fun c => asciiUpper c || c.isDigit)], rfl, rfl⟩

/-- The traced text is the one that `redact_pii` returns. -/
theorem tracedRedact_fst (py : Python) (k : ℕ) (text : Text) :
    (tracedRedact py k text).map Prod.fst = (redactPii py text).text := by
  rw [tracedRedact, redactionPatterns_sound.substAllTraced_fst, placed_fst]
  rfl

theorem bounds_of_mem_tracedRedact {c : Char} {i k : ℕ} (h : (c, some i) ∈ tracedRedact py k text) :
    k ≤ i ∧ i < k + text.length := by
  rcases Rx.mem_substAllTraced h with h | h
  · exact bounds_of_mem_placed h
  · cases h

theorem tracedRedact_of_free (k : ℕ) (h : hasPii py text = false) : tracedRedact py k text = placed k text := by
  simp only [hasPii, List.any_eq_false, Bool.not_eq_true] at h
  rw [tracedRedact, Rx.substAllTraced_of_occurs]
  intro r hr
  rw [placed_fst]
  exact h r hr

/-! ### Redacted, then cut -/

theorem hides_failure (py : Python) (text : Text) : Hides py text (tracedFailure py text) :=
  fun _ hi c hc => hi.2 c (List.mem_of_mem_take hc)

/-! ### Cut, then redacted -/

/-- A cut that moves no match leaves the beginning of the redacted whole. -/
theorem excerpt_begins (h : CutKeepsMatches py text) : tracedExcerpt py text <+: tracedRedact py 0 text := by
  have hplaced : placed 0 text = placed 0 (text.take 8000) ++
      placed (0 + (text.take 8000).length) (text.drop 8000) := by
    rw [← placed_append, List.take_append_drop]
  rw [tracedExcerpt, tracedRedact, tracedRedact, hplaced]
  refine redactionPatterns_sound.substAllTraced_append (fun r hr => framed_patterns hr) fun r hr => ?_
  rw [placed_fst, placed_fst]
  exact h r hr

theorem hides_excerpt (h : CutKeepsMatches py text) : Hides py text (tracedExcerpt py text) :=
  fun _ hi c hc => hi.2 c ((excerpt_begins h).subset hc)

/-- Text that is set apart is redacted apart. -/
theorem tracedRedact_apart {pre : Text} (h : Apart py pre) (tail : Text) :
    tracedRedact py 0 (pre ++ tail) = tracedRedact py 0 pre ++ tracedRedact py pre.length tail := by
  have hnil : ∀ k, tracedRedact py k [] = [] := fun k => tracedRedact_of_free k (hasPii_nil py)
  rcases h with rfl | ⟨front, o, ho, rfl⟩
  · rw [hnil, List.nil_append, List.nil_append, List.length_nil]
  · have hsplit : ∀ tail, tracedRedact py 0 (front ++ o :: tail) =
        tracedRedact py 0 front ++ (o, some front.length) :: tracedRedact py (front.length + 1) tail := by
      intro tail
      have := redactionPatterns_sound.substAllTraced_barrier (fun r hr => framed_patterns hr) ho.not_word
        (fun r hr => avoids_patterns ho hr) (some front.length) (placed 0 front) (placed (front.length + 1) tail)
      rw [tracedRedact, placed_append, placed_cons, Nat.zero_add]
      exact this
    rw [List.append_assoc, List.singleton_append, hsplit, hsplit [], hnil, List.length_append,
      List.length_singleton, List.append_assoc, List.singleton_append]

section Stretch
variable {pre rest : Text} (hpre : Apart py pre) (hcut : text.take 8000 = pre ++ rest)
include hpre hcut

/-- Only the last stretch before the cut is redacted otherwise than in the whole. -/
theorem hides_of_stretchKept (h : StretchKept py text pre.length) : Hides py text (tracedExcerpt py text) := by
  have hwhole := tracedRedact_apart hpre (rest ++ text.drop 8000)
  rw [← List.append_assoc, ← hcut, List.take_append_drop] at hwhole
  intro i hreplaced c hc
  rw [tracedExcerpt, hcut, tracedRedact_apart hpre, List.mem_append] at hc
  rcases hc with hc | hc
  · exact hreplaced.2 c (hwhole ▸ List.mem_append_left _ hc)
  · have hlen := congrArg List.length hcut
    have hbounds := bounds_of_mem_tracedRedact hc
    simp only [List.length_take, List.length_append] at hlen
    exact h i hbounds.1 (by omega) hreplaced

/-- A stretch without a match of its own is shown as it is. -/
theorem stretchKept_of_hides (hfree : hasPii py rest = false) (h : Hides py text (tracedExcerpt py text)) :
    StretchKept py text pre.length := by
  intro i hle hlt hreplaced
  have hlen := congrArg List.length hcut
  have hi := hreplaced.1
  simp only [List.length_take, List.length_append] at hlen
  obtain ⟨c, hc⟩ : ∃ c, (c, some i) ∈ placed pre.length rest := mem_placed hle (by omega)
  refine h i hreplaced c ?_
  rw [tracedExcerpt, hcut, tracedRedact_apart hpre, tracedRedact_of_free _ hfree]
  exact List.mem_append_right _ hc

end Stretch

end Facts

theorem barrier_dot (py : Python) : Barrier py '.' :=
  barrier_ascii (by decide) (by decide) (by decide) (by decide)

theorem apart_dots (py : Python) (n : ℕ) : Apart py (List.replicate n '.') := by
  cases n with
  | zero => exact .inl rfl
  | succ n => exact .inr ⟨List.replicate n '.', '.', barrier_dot py, List.replicate_succ'⟩

theorem hasPii_dots (py : Python) (n : ℕ) (text : Text) :
    hasPii py (List.replicate n '.' ++ text) = hasPii py text := by
  induction n with
  | zero => rfl
  | succ n ih =>
    rw [List.replicate_succ, List.cons_append, hasPii_cons_nonword (barrier_dot py).not_word, ih]

/-! ### The rows -/

/-- A number that the cut leaves alone: it falls on a full stop further on. -/
def leadingSsn : Text := ("123-45-6789.".toList ++ List.replicate 7988 '.') ++ '.' :: List.replicate 1000 '.'

/-- A number that begins seven characters before the cut. -/
def straddlingSsn : Text := List.replicate 7993 '.' ++ "123-45-6789".toList

theorem take_straddlingSsn : straddlingSsn.take 8000 = List.replicate 7993 '.' ++ "123-45-".toList := by
  have hlen : 8000 = (List.replicate 7993 '.').length + 7 := by rw [List.length_replicate]
  rw [straddlingSsn, hlen, List.take_length_add_append]
  rfl

theorem leadingSsn_keepsMatches : CutKeepsMatches asciiPython leadingSsn := by
  have hdot := barrier_dot asciiPython
  have hdrop : leadingSsn.drop 8000 = '.' :: List.replicate 1000 '.' := by
    refine List.drop_left' ?_
    rw [List.length_append, List.length_replicate]
    rfl
  intro r hr
  rw [hdrop]
  exact Rx.unmoved_barrier hdot.not_word (framed_patterns hr) (avoids_patterns hdot hr) _ _ _

theorem leadingSsn_replaced : Replaced asciiPython leadingSsn 0 := by
  have happart : Apart asciiPython "123-45-6789.".toList :=
    .inr ⟨"123-45-6789".toList, '.', barrier_dot asciiPython, rfl⟩
  have hfront : ∀ c, (c, some 0) ∉ tracedRedact asciiPython 0 "123-45-6789.".toList := by
    have htrace : tracedRedact asciiPython 0 "123-45-6789.".toList =
        ssnToken.map (·, none) ++ [('.', some 11)] := by decide +kernel
    rw [htrace]
    simp
  have hsplit : leadingSsn = "123-45-6789.".toList ++
      (List.replicate 7988 '.' ++ '.' :: List.replicate 1000 '.') := List.append_assoc _ _ _
  rw [hsplit]
  refine ⟨?_, fun c hc => ?_⟩
  · rw [List.length_append]
    exact Nat.add_pos_left (by decide) _
  · rw [tracedRedact_apart happart] at hc
    rcases List.mem_append.mp hc with hc | hc
    · exact hfront c hc
    · exact absurd (bounds_of_mem_tracedRedact hc).1 (by decide)

theorem straddlingSsn_replaced : Replaced asciiPython straddlingSsn 7993 := by
  have hnumber : tracedRedact asciiPython 7993 "123-45-6789".toList = ssnToken.map (·, none) := by
    decide +kernel
  refine ⟨?_, fun c hc => ?_⟩
  · rw [straddlingSsn, List.length_append, List.length_replicate]
    decide
  · rw [straddlingSsn, tracedRedact_apart (apart_dots asciiPython 7993), List.length_replicate, hnumber] at hc
    rcases List.mem_append.mp hc with hc | hc
    · have := (bounds_of_mem_tracedRedact hc).2
      rw [List.length_replicate] at this
      omega
    · obtain ⟨_, -, hc⟩ := List.mem_map.mp hc
      cases hc

/-- The row of a failure shows nothing that redacting the whole text replaces.
The row of an extraction shows nothing of it when the cut moves no match, and
when nothing of the stretch before the cut is replaced; and only then, where
that stretch has no match of its own. -/
theorem audit_hides_replaced (py : Python) (a : Uuid) (now : Time) :
    (∀ e : LlmError,
      (degradedAudit py a e now).llmResponse = some ((tracedFailure py e.text).map Prod.fst) ∧
        Hides py e.text (tracedFailure py e.text)) ∧
    (∀ call : ExtractionCall py,
      (extractionAudit a call now).llmPrompt.getD [] = (tracedExcerpt py call.promptExcerpt).map Prod.fst ∧
        (extractionAudit a call now).llmResponse.getD [] = (tracedExcerpt py call.responseRaw).map Prod.fst) ∧
    ∀ text : Text, (CutKeepsMatches py text → Hides py text (tracedExcerpt py text)) ∧
      ∀ pre rest, Apart py pre → text.take 8000 = pre ++ rest →
        (StretchKept py text pre.length → Hides py text (tracedExcerpt py text)) ∧
        (hasPii py rest = false → Hides py text (tracedExcerpt py text) → StretchKept py text pre.length) := by
  have hexcerpt : ∀ text, (redactedExcerpt py text).getD [] = (tracedExcerpt py text).map Prod.fst := fun text =>
    (redactedExcerpt_getD text).trans (tracedRedact_fst py 0 _).symm
  refine ⟨fun e => ⟨?_, hides_failure py _⟩, fun call => ⟨hexcerpt _, hexcerpt _⟩, fun text => ⟨hides_excerpt,
    fun pre rest hpre hcut => ⟨hides_of_stretchKept hpre hcut, stretchKept_of_hides hpre hcut⟩⟩⟩
  rw [tracedFailure, List.map_take, tracedRedact_fst]
  rfl

theorem audit_hides_replaced_ssn (a : Uuid) :
    Replaced asciiPython leadingSsn 0 ∧
      Hides asciiPython leadingSsn (tracedExcerpt asciiPython leadingSsn) ∧
      (Hides asciiPython straddlingSsn (tracedExcerpt asciiPython straddlingSsn) →
        StretchKept asciiPython straddlingSsn 7993) := by
  have hfree : hasPii asciiPython "123-45-".toList = false := by decide +kernel
  have hkept := (((audit_hides_replaced asciiPython a 0).2.2 straddlingSsn).2 _ _
    (apart_dots asciiPython 7993) take_straddlingSsn).2 hfree
  rw [List.length_replicate] at hkept
  exact ⟨leadingSsn_replaced, ((audit_hides_replaced asciiPython a 0).2.2 leadingSsn).1 leadingSsn_keepsMatches,
    hkept⟩

/-- The number is cut in two: redacting the whole text replaces it, and the row
shows what of it stands before the cut. -/
theorem straddlingSsn_shown :
    redactedExcerpt asciiPython straddlingSsn = some (List.replicate 7993 '.' ++ "123-45-".toList) ∧
      Replaced asciiPython straddlingSsn 7993 ∧
      ¬ Hides asciiPython straddlingSsn (tracedExcerpt asciiPython straddlingSsn) := by
  have hfree : hasPii asciiPython "123-45-".toList = false := by decide +kernel
  refine ⟨?_, straddlingSsn_replaced, fun hides => ?_⟩
  · have hcut : hasPii asciiPython (List.replicate 7993 '.' ++ "123-45-".toList) = false := by
      rw [hasPii_dots, hfree]
    have hne : straddlingSsn ≠ [] := List.append_ne_nil_of_right_ne_nil _ (List.cons_ne_nil _ _)
    rw [redactedExcerpt, if_neg hne, take_straddlingSsn, redactPii_of_free hcut]
  · have hkept := stretchKept_of_hides (apart_dots asciiPython 7993) take_straddlingSsn hfree hides
    exact hkept 7993 (by rw [List.length_replicate]) (by decide) straddlingSsn_replaced

end LoanAgent
