import LoanAgent.JsonTrees

/-! Log lines as a reader finds them. The texts in a line come from borrowers and
from libraries, and a line that is cut in two, or that an escape sequence changes on
a screen, may pretend to be another. Proved: whatever its texts, a line is made of
printable ASCII characters, reads as one object, and has for every key of the payload
the value that was rendered for it, the four keys of a record among them. -/

namespace LoanAgent

variable {py : Python}

/-! ### The characters of a number -/

/-- The characters of which numbers are made. -/
def isNumberChar (c : Char) : Bool := c.isDigit || c ∈ "-+.eE".toList

def signPart : Text → Text
  | '-' :: _ => ['-']
  | _ => []

def wholePart : Text → Text
  | '0' :: _ => ['0']
  | r => r.takeWhile Char.isDigit

def fractionPart : Text → Text
  | '.' :: t => match t.takeWhile Char.isDigit with
    | [] => []
    | ds => '.' :: ds
  | _ => []

def exponentPart : Text → Text
  | e :: t =>
    if e = 'e' ∨ e = 'E' then
      let mark := t.take 1 |>.filter fun c => c = '+' ∨ c = '-'
      match (t.drop mark.length).takeWhile Char.isDigit with
      | [] => []
      | ds => e :: (mark ++ ds)
    else []
  | [] => []

/-- What is left behind a number. -/
def behindNumber (s : Text) : Text :=
  let r := s.drop (signPart s).length
  let r := r.drop (wholePart r).length
  let r := r.drop (fractionPart r).length
  r.drop (exponentPart r).length

theorem scanNumber_rest {s rest : Text} {v : FactValue} (h : scanNumber py s = some (v, rest)) :
    rest = behindNumber s := by
  have hread : ∀ (p q : Prop) [Decidable p] [Decidable q] (n : FactValue) (x : Option PyFloat) (t : Text),
      (if p then none else if q then some (n, t) else x.map fun x => (FactValue.float x, t)) = some (v, rest) →
      t = rest := by
    intro p q _ _ n x t h
    split_ifs at h
    · exact (Prod.mk.inj (Option.some.inj h)).2
    · obtain ⟨x, -, h⟩ := Option.map_eq_some_iff.mp h
      exact (Prod.mk.inj h).2
  unfold scanNumber at h
  split at h
  next sign r hsign =>
  have hrest := hread _ _ _ _ _ h
  split at hsign
  · cases hsign
    exact hrest.symm
  next hno =>
    cases hsign
    have hs : signPart s = [] := by
      unfold signPart
      split
      · exact absurd rfl (hno _)
      · rfl
    rw [behindNumber, hs]
    exact hrest.symm

/-- Part of a text in front of it, made of characters of numbers. -/
def NumberPart (part s : Text) : Prop := part <+: s ∧ ∀ c ∈ part, isNumberChar c = true

theorem NumberPart.nil (s : Text) : NumberPart [] s := ⟨List.nil_prefix, nofun⟩

theorem NumberPart.cons {c : Char} (hc : isNumberChar c = true) {part s : Text} (h : NumberPart part s) :
    NumberPart (c :: part) (c :: s) :=
  ⟨List.cons_prefix_cons.mpr ⟨rfl, h.1⟩, List.forall_mem_cons.mpr ⟨hc, h.2⟩⟩

theorem NumberPart.digits (s : Text) : NumberPart (s.takeWhile Char.isDigit) s :=
  ⟨List.takeWhile_prefix _, fun c hc => by rw [isNumberChar, List.mem_takeWhile_imp hc, Bool.true_or]⟩

theorem NumberPart.drop {part s : Text} (h : NumberPart part s) {c : Char} (hc : c ∈ s) :
    isNumberChar c = true ∨ c ∈ s.drop part.length := by
  obtain ⟨⟨t, rfl⟩, hpart⟩ := h
  rw [List.drop_left]
  exact (List.mem_append.mp hc).imp (hpart c) id

theorem numberPart_sign (s : Text) : NumberPart (signPart s) s := by
  unfold signPart
  split
  · exact .cons (by decide) (.nil _)
  · exact .nil _

theorem numberPart_whole (s : Text) : NumberPart (wholePart s) s := by
  unfold wholePart
  split
  · exact .cons (by decide) (.nil _)
  · exact .digits _

theorem numberPart_fraction (s : Text) : NumberPart (fractionPart s) s := by
  unfold fractionPart
  split
  · split
    · exact .nil _
    next t ds _ => exact .cons (by decide) (.digits t)
  · exact .nil _

theorem numberPart_exponent (s : Text) : NumberPart (exponentPart s) s := by
  unfold exponentPart
  split
  next e t =>
    split_ifs with he
    · dsimp only
      split
      · exact .nil _
      next ds _ =>
        refine .cons (by rcases he with rfl | rfl <;> decide) ?_
        cases t with
        | nil => exact .digits _
        | cons c t =>
          by_cases hc : c = '+' ∨ c = '-'
          · have hmark : ((c :: t).take 1).filter (fun c => c = '+' ∨ c = '-') = [c] := by simp [hc]
            rw [hmark]
            exact .cons (by rcases hc with rfl | rfl <;> decide) (.digits t)
          · have hmark : ((c :: t).take 1).filter (fun c => c = '+' ∨ c = '-') = [] := by simp [hc]
            rw [hmark]
            exact .digits _
    · exact .nil _
  · exact .nil _

theorem mem_behindNumber {s : Text} {c : Char} (hc : c ∈ s) : isNumberChar c = true ∨ c ∈ behindNumber s := by
  rcases (numberPart_sign s).drop hc with h | hc
  · exact .inl h
  rcases (numberPart_whole _).drop hc with h | hc
  · exact .inl h
  rcases (numberPart_fraction _).drop hc with h | hc
  · exact .inl h
  · exact (numberPart_exponent _).drop hc

/-! ### The characters of a text -/

def isPrintable (c : Char) : Bool := 32 ≤ c.toNat && c.toNat < 127

theorem isPrintable_of_isNumberChar {c : Char} (h : isNumberChar c = true) : isPrintable c = true := by
  simp only [isNumberChar, Bool.or_eq_true, decide_eq_true_eq] at h
  rcases h with h | h
  · simp only [Char.isDigit, Bool.and_eq_true, decide_eq_true_eq] at h
    have hlow : 48 ≤ c.toNat := h.1
    have hhigh : c.toNat ≤ 57 := h.2
    simp only [isPrintable, Bool.and_eq_true, decide_eq_true_eq]
    omega
  · have key : "-+.eE".toList.all isPrintable = true := by decide
    exact List.all_eq_true.mp key c h

/-- A float that reads back is written in the characters of numbers. -/
theorem FloatReads.printable {q : ℚ} (h : FloatReads py q) : (py.repr (.finite q)).all isPrintable = true := by
  have hread := h [] endsNumber_nil
  rw [List.append_nil] at hread
  have hrest := scanNumber_rest hread
  refine List.all_eq_true.mpr fun c hc => ?_
  rcases mem_behindNumber hc with hnumber | hmem
  · exact isPrintable_of_isNumberChar hnumber
  · rw [← hrest] at hmem
    cases hmem

theorem printable_escapeChar (c : Char) : (escapeChar true c).all isPrintable = true := by
  have hdigit : ∀ n, isPrintable (Nat.digitChar (n % 16)) = true := by
    have key : ∀ d : Fin 16, isPrintable (Nat.digitChar d) = true := by decide
    exact fun n => key ⟨n % 16, Nat.mod_lt _ (by decide)⟩
  have hu : ∀ n, (unicodeEscape n).all isPrintable = true := by
    intro n
    simp only [unicodeEscape, List.all_cons, List.all_nil, hdigit]
    decide
  unfold escapeChar
  split_ifs with h1 h2 h3 h4 h5 h6 h7 h8
  iterate 7 decide
  · simp only [List.all_cons, List.all_nil, isPrintable, Bool.and_true, Bool.and_eq_true, decide_eq_true_eq]
    simpa using h8
  · exact hu _
  · rw [List.all_append, hu, hu, Bool.and_self]

theorem printable_jsonString (s : Text) : (jsonString true s).all isPrintable = true := by
  have hquote : isPrintable '"' = true := by decide
  rw [jsonString, List.all_cons, List.all_append, List.all_flatMap]
  simp only [printable_escapeChar, List.all_cons, List.all_nil, hquote]
  simp

theorem printable_join {sep : Text} {parts : List Text} (hsep : sep.all isPrintable = true)
    (h : ∀ s ∈ parts, s.all isPrintable = true) : (join sep parts).all isPrintable = true := by
  refine List.all_eq_true.mpr fun c hc => ?_
  rcases mem_join hc with hc | ⟨s, hs, hc⟩
  · exact List.all_eq_true.mp hsep c hc
  · exact List.all_eq_true.mp (h s hs) c hc

theorem printable_jsonValue {v : FactValue} (h : v.Reads py) : (jsonValue py true v).all isPrintable = true := by
  match v, h with
  | .int n, _ =>
    refine List.all_eq_true.mpr fun c hc => isPrintable_of_isNumberChar ?_
    rcases mem_intText hc with rfl | hc
    · decide +kernel
    · rw [isNumberChar, hc, Bool.true_or]
  | .float (.finite q), h => exact h.printable
  | .float .nan, _ => rfl
  | .float (.inf negative), _ => cases negative <;> rfl

theorem printable_separator : (", ".toList).all isPrintable = true := by decide

/-- Brackets around parts that are joined. -/
theorem printable_brackets {open' close : Char} (hopen : isPrintable open' = true)
    (hclose : isPrintable close = true)
    {parts : List Text} (h : ∀ s ∈ parts, s.all isPrintable = true) :
    (open' :: (join ", ".toList parts ++ [close])).all isPrintable = true := by
  rw [List.all_cons, List.all_append, hopen, printable_join printable_separator h, List.all_cons, hclose]
  rfl

mutual

theorem printable_dumps : ∀ j : Json, j.Proper py → (dumps py j).all isPrintable = true
  | .null, _ => rfl
  | .bool true, _ => rfl
  | .bool false, _ => rfl
  | .number _, h => printable_jsonValue h
  | .str s, _ => printable_jsonString s
  | .arr items, h => printable_brackets (by decide) (by decide) (printable_items items h)
  | .obj members, h => printable_brackets (by decide) (by decide) (printable_members members h.2)

theorem printable_items : ∀ items : List Json, ProperItems py items →
    ∀ s ∈ dumpsItems py items, s.all isPrintable = true
  | [], _ => nofun
  | j :: rest, h => List.forall_mem_cons.mpr ⟨printable_dumps j h.1, printable_items rest h.2⟩

theorem printable_members : ∀ members : List (Text × Json), ProperMembers py members →
    ∀ s ∈ dumpsMembers py members, s.all isPrintable = true
  | [], _ => nofun
  | (k, j) :: rest, h => by
    refine List.forall_mem_cons.mpr ⟨?_, printable_members rest h.2⟩
    have hcolon : isPrintable ':' = true ∧ isPrintable ' ' = true := by decide
    rw [List.all_append, printable_jsonString, List.all_cons, List.all_cons, hcolon.1, hcolon.2,
      printable_dumps j h.1]
    rfl

end

/-! ### The payload of a record -/

/-- JSON writes the value: its tree, or the text for another object, can be read. -/
def LogValue.Writable (py : Python) : LogValue → Prop
  | .str _ => True
  | .container j => j.Proper py
  | .other json => ∃ j : Json, j.Proper py ∧ json = dumps py j

/-- The value is rendered as the text of a tree. -/
theorem LogValue.Writable.render {v : LogValue} (h : v.Writable py) (redact : Bool) :
    ∃ j : Json, j.Proper py ∧ v.render py redact = dumps py j := by
  match v, h with
  | .str s, _ => exact ⟨.str _, trivial, rfl⟩
  | .container j, h =>
    cases redact with
    | true => exact ⟨.str _, trivial, rfl⟩
    | false => exact ⟨j, h, rfl⟩
  | .other _, ⟨j, hj, he⟩ => exact ⟨j, hj, he⟩

theorem mem_dictSet {α β : Type*} [DecidableEq α] {k : α} {v : β} {d : List (α × β)} {e : α × β}
    (h : e ∈ dictSet k v d) : e = (k, v) ∨ e ∈ d := by
  induction d with
  | nil => exact .inl (List.mem_singleton.mp h)
  | cons x d ih =>
    rw [dictSet] at h
    split_ifs at h
    · exact (List.mem_cons.mp h).imp id (List.mem_cons_of_mem _)
    · rcases List.mem_cons.mp h with rfl | h
      · exact .inr List.mem_cons_self
      · exact (ih h).imp id (List.mem_cons_of_mem _)

/-- A dictionary keeps its keys, each once. -/
theorem keys_dictSet {α β : Type*} [DecidableEq α] (k : α) (v : β) (d : List (α × β)) :
    (dictSet k v d).map (·.1) = if k ∈ d.map (·.1) then d.map (·.1) else d.map (·.1) ++ [k] := by
  induction d with
  | nil => rfl
  | cons x d ih =>
    rw [dictSet]
    split_ifs with hx hmem hmem
    · rw [List.map_cons, List.map_cons, hx]
    · exact absurd (hx ▸ List.mem_cons_self) hmem
    · have hd : k ∈ d.map (·.1) := (List.mem_cons.mp hmem).resolve_left fun h => hx h.symm
      rw [List.map_cons, ih, if_pos hd, List.map_cons]
    · have hd : k ∉ d.map (·.1) := fun h => hmem (List.mem_cons_of_mem _ h)
      rw [List.map_cons, ih, if_neg hd, List.map_cons, List.cons_append]

/-- The fields a payload starts with. -/
def payloadFields : List Text := ["ts".toList, "level".toList, "logger".toList, "event".toList]

theorem payloadFields_nodup : payloadFields.Nodup := by decide

/-- What a payload is from its first keys on. -/
structure PayloadOk (py : Python) (payload : List (Text × LogValue)) : Prop where
  keys : (payload.map (·.1)).Nodup
  fields : ∀ k ∈ payloadFields, k ∈ payload.map (·.1)
  values : ∀ e ∈ payload, e.2.Writable py

theorem PayloadOk.set {payload : List (Text × LogValue)} (h : PayloadOk py payload) (k : Text) {v : LogValue}
    (hv : v.Writable py) : PayloadOk py (dictSet k v payload) := by
  have hkeys := keys_dictSet k v payload
  refine ⟨?_, fun k' hk' => ?_, fun e he => ?_⟩
  · rw [hkeys]
    split_ifs with hmem
    · exact h.keys
    · exact List.nodup_append.mpr ⟨h.keys, List.nodup_singleton _, fun x hx y hy => by
        rintro rfl
        exact hmem (List.mem_singleton.mp hy ▸ hx)⟩
  · rw [hkeys]
    split_ifs
    · exact h.fields k' hk'
    · exact List.mem_append_left _ (h.fields k' hk')
  · rcases mem_dictSet he with rfl | he
    · exact hv
    · exact h.values e he

theorem payloadOk_record {record : LogRecord} (h : ∀ a ∈ record.attributes, a.2.Writable py) :
    PayloadOk py (record.payload py) := by
  have hfold : ∀ (attributes payload : List (Text × LogValue)), (∀ a ∈ attributes, a.2.Writable py) →
      PayloadOk py payload → PayloadOk py (attributes.foldl (fun payload a => dictSet a.1 a.2 payload) payload) := by
    intro attributes
    induction attributes with
    | nil => exact fun payload _ hp => hp
    | cons a attributes ih =>
      intro payload ha hp
      obtain ⟨hone, hrest⟩ := List.forall_mem_cons.mp ha
      exact ih _ hrest (hp.set a.1 hone)
  have hstart : PayloadOk py
      [("ts".toList, .other (jsonString true (py.isoformat record.created))),
        ("level".toList, .other (jsonString true record.levelname)),
        ("logger".toList, .other (jsonString true record.name)), ("event".toList, .str record.message)] := by
    refine ⟨payloadFields_nodup, fun k hk => hk, ?_⟩
    simp only [List.forall_mem_cons, List.not_mem_nil, false_implies, implies_true, and_true]
    exact ⟨⟨.str _, trivial, rfl⟩, ⟨.str _, trivial, rfl⟩, ⟨.str _, trivial, rfl⟩, trivial⟩
  have hextras := hfold record.extras _ (fun a ha => h a (List.mem_filter.mp ha).1) hstart
  unfold LogRecord.payload
  dsimp only
  split
  · exact hextras
  · exact hextras.set _ trivial

/-! ### The line -/

/-- A line that is one object with the values of the payload. -/
structure LineReads (py : Python) (redact : Bool) (record : LogRecord) (line : Text) : Prop where
  printable : ∀ c ∈ line, isPrintable c = true
  object : ∃ members, loads py line = some (.obj members) ∧ (members.map (·.1)).Nodup ∧
    (∀ k ∈ payloadFields, k ∈ members.map (·.1)) ∧
    List.Forall₂ (fun e m => m.1 = e.1 ∧ dumps py m.2 = e.2.render py redact) (record.payload py) members

/-- The members of the line. -/
theorem exists_members {payload : List (Text × LogValue)} (redact : Bool) (h : ∀ e ∈ payload, e.2.Writable py) :
    ∃ members : List (Text × Json), ProperMembers py members ∧ members.map (·.1) = payload.map (·.1) ∧
      List.Forall₂ (fun e m => m.1 = e.1 ∧ dumps py m.2 = e.2.render py redact) payload members ∧
      dumpsMembers py members = payload.map fun e => jsonString true e.1 ++ ':' :: ' ' :: e.2.render py redact := by
  induction payload with
  | nil => exact ⟨[], trivial, rfl, .nil, rfl⟩
  | cons e payload ih =>
    obtain ⟨hone, hrest⟩ := List.forall_mem_cons.mp h
    obtain ⟨j, hj, htext⟩ := hone.render redact
    obtain ⟨members, hproper, hkeys, hall, hdumps⟩ := ih hrest
    refine ⟨(e.1, j) :: members, ⟨hj, hproper⟩, congrArg (e.1 :: ·) hkeys, .cons ⟨rfl, htext.symm⟩ hall, ?_⟩
    rw [dumpsMembers, List.map_cons, htext, hdumps]

/-- Whatever its texts, a record is one line that reads as one object. -/
theorem log_line_reads (redact : Bool) {record : LogRecord} (h : ∀ a ∈ record.attributes, a.2.Writable py) :
    LineReads py redact record (formatRecord py redact record) := by
  have hpayload := payloadOk_record h
  obtain ⟨members, hproper, hkeys, hall, hdumps⟩ := exists_members redact hpayload.values
  have hobject : (Json.obj members).Proper py := ⟨hkeys ▸ hpayload.keys, hproper⟩
  have hline : formatRecord py redact record = dumps py (.obj members) := by
    rw [formatRecord, jsonObject, dumps, hdumps, List.map_map]
    rfl
  rw [hline]
  refine ⟨List.all_eq_true.mp (printable_dumps _ hobject), members, loads_dumps hobject, hobject.1,
    fun k hk => ?_, hall⟩
  rw [hkeys]
  exact hpayload.fields k hk

/-- A message that pretends to end its line. -/
def forgedRecord : LogRecord where
  created := 0
  levelname := "INFO".toList
  name := "app".toList
  message := "done\n\x7b\"level\": \"ERROR\"\x7d".toList
  attributes := [("document_id".toList, .str "x\u001b[2J".toList), ("count".toList, .other (intText 3))]
  exception := none

theorem log_line_reads_forgedRecord :
    LineReads asciiPython true forgedRecord (formatRecord asciiPython true forgedRecord) := by
  refine log_line_reads true ?_
  simp only [forgedRecord, List.forall_mem_cons, List.not_mem_nil, false_implies, implies_true, and_true]
  exact ⟨trivial, .number (.int 3), trivial, rfl⟩

end LoanAgent
