import LoanAgent.Library.Rx
import LoanAgent.Python

/-! Redaction of personal identifiers. Four expressions are substituted in turn,
each by its own token, and a text has PII when one of them has a match in it.
Proved: a redacted text has none and is left as it is by a second pass, a
character that occurs in no identifier splits the question in two, and on the
texts that the code writes itself the answer does not depend on the Unicode
tables of the platform. -/

namespace LoanAgent

section Patterns
variable (py : Python)

/-- `\d`. -/
def digitClass : Rx.Pat := .char fun c => (py.digit c).isSome

def asciiUpper (c : Char) : Bool := 'A' ≤ c && c ≤ 'Z'

/-- `\b\d{3}-\d{2}-\d{4}\b`. -/
def ssnDashed : Rx.Pat := .cat .boundary
  [.times 3 (digitClass py), .char (· == '-'), .times 2 (digitClass py), .char (· == '-'),
    .times 4 (digitClass py), .boundary]

/-- `\b\d{3}\s\d{2}\s\d{4}\b`. -/
def ssnSpaced : Rx.Pat := .cat .boundary
  [.times 3 (digitClass py), .char py.isSpace, .times 2 (digitClass py), .char py.isSpace,
    .times 4 (digitClass py), .boundary]

/-- `\b(?:\d[ -]?){13,19}\b`. -/
def accountNumber : Rx.Pat := .cat .boundary
  [.rep 13 (some 19) (.seq (digitClass py) (.opt (.char fun c => c == ' ' || c == '-'))), .boundary]

/-- `\b[A-Z]{2}\d{2}[A-Z0-9]{11,30}\b`. -/
def iban : Rx.Pat := .cat .boundary
  [.times 2 (.char asciiUpper), .times 2 (digitClass py),
    .rep 11 (some 30) (.char fun c => asciiUpper c || c.isDigit), .boundary]

def ssnToken : Text := "[SSN_REDACTED]".toList

def accountToken : Text := "[ACCOUNT_NUMBER_REDACTED]".toList

def ibanToken : Text := "[IBAN_REDACTED]".toList

/-- `_PATTERNS`. -/
def redactionPatterns : List (Rx.Pat × Text) :=
  [(ssnDashed py, ssnToken), (ssnSpaced py, ssnToken), (accountNumber py, accountToken),
    (iban py, ibanToken)]

structure RedactionResult where
  text : Text
  redactions : ℕ

def redactPii (text : Text) : RedactionResult :=
  let result := Rx.substAll py.isWord (redactionPatterns py) text
  ⟨result.1, result.2⟩

/-- Some pattern has a match in the text. -/
def hasPii (text : Text) : Bool :=
  (redactionPatterns py).any fun r => Rx.occurs py.isWord r.1 [] text

end Patterns

/-- A character that stands in no match of any pattern. -/
structure Barrier (py : Python) (o : Char) : Prop where
  not_word : py.isWord o = false
  not_space : py.isSpace o = false
  ne_dash : o ≠ '-'

section Facts
variable {py : Python}

theorem barrier_ascii {o : Char} (h : o.toNat < 128) (hw : asciiWord o = false)
    (hs : asciiSpace o = false) (hd : o ≠ '-') : Barrier py o :=
  ⟨py.word_ascii o h ▸ hw, py.space_ascii o h ▸ hs, hd⟩

theorem barrier_bracket (py : Python) : Barrier py '[' :=
  barrier_ascii (by decide) (by decide) (by decide) (by decide)

theorem word_of_upper {c : Char} (h : asciiUpper c = true) : py.isWord c = true := by
  simp only [asciiUpper, Bool.and_eq_true, decide_eq_true_eq, Char.le_def, UInt32.le_iff_toNat_le] at h
  have hc : c.toNat = c.val.toNat := rfl
  have hZ : 'Z'.val.toNat = 90 := rfl
  have hupper : c.isUpper = true := by
    simpa [Char.isUpper, UInt32.le_iff_toNat_le] using h
  rw [py.word_ascii c (by omega)]
  simp [asciiWord, Char.isAlphanum, Char.isAlpha, hupper]

theorem digit_of_not_word {c : Char} (h : py.isWord c = false) : (py.digit c).isSome = false :=
  Bool.eq_false_iff.mpr fun hd => by
    have := py.word_of_digit c hd
    rw [h] at this
    cases this

theorem opens_digit : Rx.Opens py.isWord (digitClass py) := Rx.opens_char py.word_of_digit

theorem opens_upper : Rx.Opens py.isWord (.char asciiUpper) := Rx.opens_char fun _ => word_of_upper

/-- A match of a pattern starts with the first expression behind the boundary. -/
theorem opens_patterns {r : Rx.Pat × Text} (h : r ∈ redactionPatterns py) :
    ∃ body, r.1 = .seq .boundary body ∧ Rx.Opens py.isWord body ∧ Rx.Closes py.isWord body := by
  simp only [redactionPatterns, List.mem_cons, List.not_mem_nil, or_false] at h
  rcases h with rfl | rfl | rfl | rfl
  · exact ⟨_, rfl, (opens_digit.rep 2 _).seq, Rx.closes_boundary.seq.seq.seq.seq.seq⟩
  · exact ⟨_, rfl, (opens_digit.rep 2 _).seq, Rx.closes_boundary.seq.seq.seq.seq.seq⟩
  · exact ⟨_, rfl, (opens_digit.seq.rep 12 _).seq, Rx.closes_boundary.seq⟩
  · exact ⟨_, rfl, (opens_upper.rep 1 _).seq, Rx.closes_boundary.seq.seq.seq⟩

theorem avoids_patterns {o : Char} (ho : Barrier py o) {r : Rx.Pat × Text}
    (h : r ∈ redactionPatterns py) : r.1.avoids o = true := by
  have hdigit : (py.digit o).isSome = false := digit_of_not_word ho.not_word
  have hupper : asciiUpper o = false := Bool.eq_false_iff.mpr fun hu => by
    have : py.isWord o = true := word_of_upper hu
    rw [ho.not_word] at this
    cases this
  have hisDigit : o.isDigit = false := by
    by_contra hd
    have hlt : o.toNat < 128 := by
      simp only [Char.isDigit, Bool.not_eq_false, Bool.and_eq_true, decide_eq_true_eq,
        UInt32.le_iff_toNat_le] at hd
      have h9 : '9'.val.toNat = 57 := rfl
      have hc : o.toNat = o.val.toNat := rfl
      omega
    have := ho.not_word
    rw [py.word_ascii o hlt] at this
    simp [asciiWord, Char.isAlphanum, hd] at this
  have hblank : o ≠ ' ' := by
    rintro rfl
    have := ho.not_space
    rw [py.space_ascii ' ' (by decide)] at this
    cases this
  simp only [redactionPatterns, List.mem_cons, List.not_mem_nil, or_false] at h
  rcases h with rfl | rfl | rfl | rfl
  all_goals simp [ssnDashed, ssnSpaced, accountNumber, iban, Rx.Pat.cat, Rx.Pat.times, Rx.Pat.opt,
    digitClass, Rx.Pat.avoids, hdigit, hupper, hisDigit, hblank, ho.not_space, ho.ne_dash]

theorem guarded_patterns {o : Char} (ho : Barrier py o) {r : Rx.Pat × Text}
    (h : r ∈ redactionPatterns py) : Rx.Guarded py.isWord o r.1 := by
  obtain ⟨body, hbody, hopen, hclose⟩ := opens_patterns h
  have havoid := avoids_patterns ho h
  rw [hbody] at havoid ⊢
  exact Rx.guarded_boundary (by simpa [Rx.Pat.avoids] using havoid) hopen hclose

/-! ### The tokens -/

theorem token_ascii {r : Rx.Pat × Text} (h : r ∈ redactionPatterns py) :
    r.2 = ssnToken ∨ r.2 = accountToken ∨ r.2 = ibanToken := by
  simp only [redactionPatterns, List.mem_cons, List.not_mem_nil, or_false] at h
  rcases h with rfl | rfl | rfl | rfl <;> simp

theorem token_ends {r : Rx.Pat × Text} (h : r ∈ redactionPatterns py) :
    r.2.head? = some '[' ∧ r.2.getLast? = some ']' := by
  rcases token_ascii h with h | h | h <;> rw [h] <;> decide

/-- The tokens have no digit, so a match of the first three patterns cannot
start in one, and an IBAN would need a digit two places further on. -/
theorem digit_token {r : Rx.Pat × Text} (h : r ∈ redactionPatterns py) {c : Char} (hc : c ∈ r.2) :
    (py.digit c).isSome = false := by
  have key : ∀ t ∈ [ssnToken, accountToken, ibanToken],
      t.all (fun c => c.toNat < 128 ∧ asciiDigit c = none) = true := by decide
  have hmem : r.2 ∈ [ssnToken, accountToken, ibanToken] := by
    simpa using token_ascii h
  obtain ⟨hlt, hnone⟩ := of_decide_eq_true (List.all_eq_true.mp (key _ hmem) c hc)
  rw [py.digit_ascii c hlt, hnone]
  rfl

theorem head_of_boundary_rep {p : Char → Bool} {lo : ℕ} {hi : Option ℕ} {rest tail : Rx.Pat}
    {word : Char → Bool} {z y : Rx.Pos}
    (h : y ∈ Rx.ends word (.seq .boundary (.seq (.rep (lo + 1) hi (.seq (.char p) rest)) tail)) z) :
    ∃ c l, z.after = c :: l ∧ p c = true := by
  obtain ⟨b, l⟩ := z
  simp only [Rx.ends, Rx.repEnds, List.mem_flatMap, List.mem_ite_nil_right, List.mem_singleton] at h
  obtain ⟨_, ⟨-, rfl⟩, _, ⟨_, ⟨_, h, -⟩, -⟩, -⟩ := h
  cases l with
  | nil => simp at h
  | cons c l =>
    simp only [List.mem_ite_nil_right] at h
    exact ⟨c, l, rfl, h.1⟩

theorem head_of_boundary_times {p : Char → Bool} {n : ℕ} {tail : Rx.Pat} {word : Char → Bool}
    {z y : Rx.Pos}
    (h : y ∈ Rx.ends word (.seq .boundary (.seq (.times (n + 1) (.char p)) tail)) z) :
    ∃ c l, z.after = c :: l ∧ p c = true := by
  obtain ⟨b, l⟩ := z
  simp only [Rx.ends, Rx.Pat.times, Rx.repEnds, List.mem_flatMap, List.mem_ite_nil_right,
    List.mem_singleton] at h
  obtain ⟨_, ⟨-, rfl⟩, _, ⟨_, h, -⟩, -⟩ := h
  cases l with
  | nil => simp at h
  | cons c l =>
    simp only [List.mem_ite_nil_right] at h
    exact ⟨c, l, rfl, h.1⟩

theorem head_of_iban {z y : Rx.Pos} (h : y ∈ Rx.ends py.isWord (iban py) z) :
    ∃ c d e l, z.after = c :: d :: e :: l ∧ asciiUpper d = true ∧ (py.digit e).isSome = true := by
  obtain ⟨b, l⟩ := z
  simp only [iban, Rx.Pat.cat, Rx.Pat.times, digitClass, Rx.ends, Rx.repEnds, Nat.sub_self, Rx.moreEnds,
    List.mem_flatMap, List.mem_ite_nil_right, List.mem_singleton] at h
  obtain ⟨_, ⟨-, rfl⟩, x, ⟨x', hx', x'', hx'', rfl⟩, w, ⟨w', hw', -⟩, -⟩ := h
  obtain _ | ⟨c, _ | ⟨d, _ | ⟨e, l⟩⟩⟩ := l
  · simp at hx'
  · simp only [List.mem_ite_nil_right, List.mem_singleton] at hx'
    simp [hx'.2] at hx''
  · simp only [List.mem_ite_nil_right, List.mem_singleton] at hx'
    simp only [hx'.2, List.mem_ite_nil_right, List.mem_singleton] at hx''
    simp [hx''.2] at hw'
  · simp only [List.mem_ite_nil_right, List.mem_singleton] at hx'
    simp only [hx'.2, List.mem_ite_nil_right, List.mem_singleton] at hx''
    simp only [hx''.2, List.mem_ite_nil_right] at hw'
    exact ⟨c, d, e, l, rfl, hx''.1, hw'.1⟩

theorem blocked_iban {t : Text} (hdigit : ∀ c ∈ t, (py.digit c).isSome = false)
    (hlast : t.getLast?.any asciiUpper = false) (hlast' : ∀ pre c, t = pre ++ [c] → py.isWord c = false) :
    Rx.Blocked py.isWord (iban py) t := by
  intro pre suf ht hne b l
  refine List.eq_nil_iff_forall_not_mem.mpr fun y hy => ?_
  obtain ⟨c, d, e, l', hl, hd, he⟩ := head_of_iban hy
  have hmem : ∀ x ∈ suf, x ∈ t := fun x hx => ht ▸ List.mem_append_right _ hx
  match suf with
  | [] => exact hne rfl
  | [a] =>
    -- The last character of the token is outside the words, so no match starts there.
    have hw := hlast' pre a ht
    have hiban : (iban py, ibanToken) ∈ redactionPatterns py := by simp [redactionPatterns]
    have hg := (guarded_patterns (barrier_bracket py) hiban).ends_nil (z := ⟨b, [a] ++ l⟩) hw
    rw [hg] at hy
    cases hy
  | [a, a'] =>
    simp only [List.cons_append, List.cons.injEq] at hl
    have hgl : t.getLast? = some a' := by simp [ht]
    rw [hgl, hl.2.1] at hlast
    simp [hd] at hlast
  | a :: a' :: a'' :: suf =>
    simp only [List.cons_append, List.cons.injEq] at hl
    have := hdigit a'' (hmem a'' (by simp))
    rw [hl.2.2.1, he] at this
    cases this

theorem blocked_patterns {r q : Rx.Pat × Text} (hr : r ∈ redactionPatterns py)
    (hq : q ∈ redactionPatterns py) : Rx.Blocked py.isWord q.1 r.2 := by
  have hdigit := fun c (hc : c ∈ r.2) => digit_token hr hc
  have hhead : (∀ z y, y ∈ Rx.ends py.isWord q.1 z → ∃ c l, z.after = c :: l ∧ (py.digit c).isSome = true) →
      Rx.Blocked py.isWord q.1 r.2 := by
    intro hstart pre suf ht hne b l
    refine List.eq_nil_iff_forall_not_mem.mpr fun y hy => ?_
    obtain ⟨c, l', hl, hc⟩ := hstart _ _ hy
    obtain ⟨a, suf, rfl⟩ := List.exists_cons_of_ne_nil hne
    simp only [List.cons_append, List.cons.injEq] at hl
    rw [← hl.1, hdigit a (by simp [ht])] at hc
    cases hc
  simp only [redactionPatterns, List.mem_cons, List.not_mem_nil, or_false] at hq
  rcases hq with rfl | rfl | rfl | rfl
  · exact hhead fun z y hy => head_of_boundary_times hy
  · exact hhead fun z y hy => head_of_boundary_times hy
  · exact hhead fun z y hy => head_of_boundary_rep hy
  · rcases token_ascii hr with ht | ht | ht
    all_goals
      refine blocked_iban hdigit (by rw [ht]; decide) fun pre c hc => ?_
      have hc' : c = ']' := by simpa [hc] using (token_ends hr).2
      rw [hc', py.word_ascii ']' (by decide)]
      decide

theorem redactionPatterns_sound : Rx.SoundRules py.isWord '[' (redactionPatterns py) := by
  have hopen := barrier_bracket py
  have hclose : py.isWord ']' = false := py.word_ascii ']' (by decide)
  refine ⟨hopen.not_word, fun r hr => guarded_patterns hopen hr, fun r hr => ?_, fun r hr => ?_,
    fun r hr => ?_, fun r hr q hq => blocked_patterns hr hq⟩
  · obtain ⟨body, hbody, hopens, -⟩ := opens_patterns hr
    rw [hbody]
    exact Rx.consumes_boundary hopens
  · exact (token_ends hr).1
  · rw [Rx.headWord_eq, List.head?_reverse, (token_ends hr).2]
    exact hclose

/-! ### What has PII -/

/-- A redacted text has no match of any pattern. -/
theorem hasPii_redactPii (py : Python) (text : Text) : hasPii py (redactPii py text).text = false := by
  simp only [hasPii, List.any_eq_false, Bool.not_eq_true]
  exact fun r hr => redactionPatterns_sound.occurs_substAll text hr

theorem hasPii_nil (py : Python) : hasPii py [] = false := by
  simp only [hasPii, List.any_eq_false, Bool.not_eq_true]
  intro r hr
  rw [Rx.occurs, (guarded_patterns (barrier_bracket py) hr).ends_nil rfl]
  rfl

theorem redactPii_of_free {text : Text} (h : hasPii py text = false) : redactPii py text = ⟨text, 0⟩ := by
  simp only [hasPii, List.any_eq_false, Bool.not_eq_true] at h
  rw [redactPii, Rx.substAll_of_occurs h]

/-- No pattern matches anywhere in a redacted text, so redacting it once more
changes nothing and counts nothing. -/
theorem redactPii_fixed (py : Python) (text : Text) :
    (∀ r ∈ redactionPatterns py, ∀ pre post, (redactPii py text).text = pre ++ post →
      Rx.ends py.isWord r.1 ⟨pre.reverse, post⟩ = []) ∧
    redactPii py (redactPii py text).text = ⟨(redactPii py text).text, 0⟩ := by
  constructor
  · intro r hr pre post htext
    have h : Rx.occurs py.isWord r.1 [] (redactPii py text).text = false :=
      redactionPatterns_sound.occurs_substAll text hr
    rw [htext] at h
    simpa using Rx.ends_of_occurs h
  · exact redactPii_of_free (hasPii_redactPii py text)

theorem hasPii_append_barrier {o : Char} (ho : Barrier py o) (l l' : Text) :
    hasPii py (l ++ o :: l') = (hasPii py l || hasPii py l') := by
  have hsplit := fun r hr => Rx.occurs_append_barrier ho.not_word (guarded_patterns ho (r := r) hr) [] l l'
  rw [Bool.eq_iff_iff]
  simp only [hasPii, List.any_eq_true, Bool.or_eq_true]
  constructor
  · rintro ⟨r, hr, h⟩
    rw [hsplit r hr, Bool.or_eq_true] at h
    exact h.imp (fun h => ⟨r, hr, h⟩) fun h => ⟨r, hr, h⟩
  · rintro (⟨r, hr, h⟩ | ⟨r, hr, h⟩) <;> exact ⟨r, hr, by rw [hsplit r hr, h]; simp⟩

theorem hasPii_cons_nonword {c : Char} (hc : py.isWord c = false) (l : Text) :
    hasPii py (c :: l) = hasPii py l := by
  refine Bool.eq_iff_iff.mpr ?_
  simp only [hasPii, List.any_eq_true]
  exact exists_congr fun r => and_congr_right fun hr => by
    rw [Rx.occurs_cons_nonword (barrier_bracket py).not_word (guarded_patterns (barrier_bracket py) hr) hc]

/-- The characters of the texts that the code itself writes. -/
def plainChar (c : Char) : Bool := c.toNat < 128 || c == '•'

theorem plain_classes {c : Char} (h : plainChar c = true) :
    py.isWord c = asciiWord c ∧ py.isSpace c = asciiSpace c ∧ (py.digit c).isSome = (asciiDigit c).isSome := by
  simp only [plainChar, Bool.or_eq_true, decide_eq_true_eq, beq_iff_eq] at h
  rcases h with h | rfl
  · exact ⟨py.word_ascii c h, py.space_ascii c h, by rw [py.digit_ascii c h]⟩
  · exact ⟨py.bullet_not_word, py.bullet_not_space, digit_of_not_word py.bullet_not_word⟩

/-- On plain texts every platform finds what `asciiPython` finds. -/
theorem hasPii_plain (py : Python) {text : Text} (h : text.all plainChar = true) :
    hasPii py text = hasPii asciiPython text := by
  have hmem : ∀ c ∈ [] ++ text, plainChar c = true := by simpa using h
  have hclass : ∀ p q : Char → Bool, (∀ c, plainChar c = true → p c = q c) →
      (fun c => plainChar c && p c) = fun c => plainChar c && q c := by
    intro p q hpq
    funext c
    cases hc : plainChar c with
    | false => rfl
    | true => rw [hpq c hc]
  have hword := hclass py.isWord asciiWord fun c hc => (plain_classes hc).1
  have hspace := hclass py.isSpace asciiSpace fun c hc => (plain_classes hc).2.1
  have hdigit := hclass (fun c => (py.digit c).isSome) (fun c => (asciiDigit c).isSome)
    fun c hc => (plain_classes hc).2.2
  have key : ∀ p q : Rx.Pat, p.restrict plainChar = q.restrict plainChar →
      Rx.occurs py.isWord p [] text = Rx.occurs asciiWord q [] text := by
    intro p q hpq
    rw [← Rx.occurs_restrict p [] text hmem, ← Rx.occurs_restrict q [] text hmem, hpq, hword]
  have h1 := key (ssnDashed py) (ssnDashed asciiPython) (by
    simp [ssnDashed, Rx.Pat.cat, Rx.Pat.times, digitClass, Rx.Pat.restrict, hdigit, asciiPython])
  have h2 := key (ssnSpaced py) (ssnSpaced asciiPython) (by
    simp [ssnSpaced, Rx.Pat.cat, Rx.Pat.times, digitClass, Rx.Pat.restrict, hdigit, hspace, asciiPython])
  have h3 := key (accountNumber py) (accountNumber asciiPython) (by
    simp [accountNumber, Rx.Pat.cat, Rx.Pat.opt, digitClass, Rx.Pat.restrict, hdigit, asciiPython])
  have h4 := key (iban py) (iban asciiPython) (by
    simp [iban, Rx.Pat.cat, Rx.Pat.times, digitClass, Rx.Pat.restrict, hdigit, asciiPython])
  simp only [hasPii, redactionPatterns, List.any_cons, h1, h2, h3, h4]
  rfl

end Facts

example : (redactPii asciiPython "SSN 123-45-6789, IBAN DE44500105175407324931.".toList).text =
    "SSN [SSN_REDACTED], IBAN [IBAN_REDACTED].".toList := by decide +kernel

end LoanAgent
