import Mathlib.Algebra.BigOperators.Group.List.Basic
import Mathlib.Data.List.Basic
import Mathlib.Data.Nat.Notation
import Mathlib.Tactic.SplitIfs

/-! XML documents as ElementTree writes them and as a conforming parser reads
them. Content is a run of characters and elements. The parser knows elements,
attributes, character data and references; what it accepts is well formed, and
it is meant for documents without a document type, comments, processing
instructions and marked sections. Proved: a written document is accepted exactly
when all its characters are allowed, and reads as it was written but for the
line ends of its character data. -/

namespace Xml

/-! ### Characters and names -/

/-- What a document may hold. -/
def isChar (c : Char) : Bool :=
  c == '\t' || c == '\n' || c == '\r' || (32 ≤ c.toNat && c.toNat ≤ 0xD7FF) ||
    (0xE000 ≤ c.toNat && c.toNat ≤ 0xFFFD) || 0x10000 ≤ c.toNat

def isWhite (c : Char) : Bool := c == ' ' || c == '\t' || c == '\n' || c == '\r'

def inRanges (ranges : List (ℕ × ℕ)) (c : Char) : Bool :=
  ranges.any fun r => r.1 ≤ c.toNat && c.toNat ≤ r.2

def nameStartRanges : List (ℕ × ℕ) :=
  [(0x3A, 0x3A), (0x41, 0x5A), (0x5F, 0x5F), (0x61, 0x7A), (0xC0, 0xD6), (0xD8, 0xF6), (0xF8, 0x2FF),
    (0x370, 0x37D), (0x37F, 0x1FFF), (0x200C, 0x200D), (0x2070, 0x218F), (0x2C00, 0x2FEF),
    (0x3001, 0xD7FF), (0xF900, 0xFDCF), (0xFDF0, 0xFFFD), (0x10000, 0xEFFFF)]

def nameRanges : List (ℕ × ℕ) :=
  [(0x2D, 0x2E), (0x30, 0x39), (0xB7, 0xB7), (0x300, 0x36F), (0x203F, 0x2040)]

def isNameStart (c : Char) : Bool := inRanges nameStartRanges c

def isNameChar (c : Char) : Bool := isNameStart c || inRanges nameRanges c

def isName (s : List Char) : Bool := s.head?.any isNameStart && s.all isNameChar

theorem isChar_of_isNameChar {c : Char} (h : isNameChar c = true) : isChar c = true := by
  simp only [isNameChar, isNameStart, inRanges, nameStartRanges, nameRanges, List.any_cons,
    List.any_nil, Bool.or_eq_true, Bool.and_eq_true, decide_eq_true_eq, Bool.or_false] at h
  simp only [isChar, Bool.or_eq_true, Bool.and_eq_true, decide_eq_true_eq]
  omega

/-! ### Content -/

/-- A run of characters and elements. -/
inductive Content
  | nil
  | char (c : Char) (rest : Content)
  | elem (name : List Char) (attrs : List (List Char × List Char)) (body rest : Content)
  deriving DecidableEq

structure Element where
  name : List Char
  attrs : List (List Char × List Char)
  body : Content
  deriving DecidableEq

def Element.content (e : Element) : Content := .elem e.name e.attrs e.body .nil

/-- The names are names, and no attribute is given twice. -/
def Content.Valid : Content → Prop
  | .nil => True
  | .char _ rest => rest.Valid
  | .elem name attrs body rest => isName name = true ∧ (∀ a ∈ attrs, isName a.1 = true) ∧
      (attrs.map (·.1)).Nodup ∧ body.Valid ∧ rest.Valid

/-- All characters are allowed. -/
def Content.legal : Content → Bool
  | .nil => true
  | .char c rest => isChar c && rest.legal
  | .elem _ attrs body rest => attrs.all (·.2.all isChar) && body.legal && rest.legal

/-- Content whose character data has normalised line ends. -/
def Content.lineEnds : Bool → Content → Content
  | _, .nil => .nil
  | afterCr, .char c rest =>
    if c = '\r' then .char '\n' (rest.lineEnds true)
    else if c = '\n' ∧ afterCr = true then rest.lineEnds false
    else .char c (rest.lineEnds false)
  | _, .elem name attrs body rest => .elem name attrs (body.lineEnds false) (rest.lineEnds false)

def Element.lineEnds (e : Element) : Element := ⟨e.name, e.attrs, e.body.lineEnds false⟩

/-! ### Writing -/

def escapeText (c : Char) : List Char :=
  if c = '&' then "&amp;".toList
  else if c = '<' then "&lt;".toList
  else if c = '>' then "&gt;".toList
  else [c]

def escapeAttr (c : Char) : List Char :=
  if c = '&' then "&amp;".toList
  else if c = '<' then "&lt;".toList
  else if c = '>' then "&gt;".toList
  else if c = '"' then "&quot;".toList
  else if c = '\r' then "&#13;".toList
  else if c = '\n' then "&#10;".toList
  else if c = '\t' then "&#09;".toList
  else [c]

def renderAttr (a : List Char × List Char) : List Char :=
  ' ' :: (a.1 ++ '=' :: '"' :: (a.2.flatMap escapeAttr ++ ['"']))

def startOf (name : List Char) (attrs : List (List Char × List Char)) : List Char :=
  '<' :: (name ++ attrs.flatMap renderAttr)

def endOf (name : List Char) : List Char := '<' :: '/' :: (name ++ ['>'])

def Content.render : Content → List Char
  | .nil => []
  | .char c rest => escapeText c ++ rest.render
  | .elem name attrs body rest => startOf name attrs ++
      ((if body = .nil then " />".toList else '>' :: (body.render ++ endOf name)) ++ rest.render)

/-! ### Reading -/

/-- Line ends become line feeds. -/
def lineEnds : Bool → List Char → List Char
  | _, [] => []
  | afterCr, c :: rest =>
    if c = '\r' then '\n' :: lineEnds true rest
    else if c = '\n' ∧ afterCr = true then lineEnds false rest
    else c :: lineEnds false rest

def digitValue (base : ℕ) (c : Char) : Option ℕ :=
  let n := if c.isDigit then c.toNat - '0'.toNat
    else if 'a' ≤ c ∧ c ≤ 'f' then c.toNat - 'a'.toNat + 10
    else if 'A' ≤ c ∧ c ≤ 'F' then c.toNat - 'A'.toNat + 10
    else base
  if n < base then some n else none

/-- A character by its number. -/
def charRef (base : ℕ) (digits : List Char) : Option Char :=
  if digits = [] then none
  else (digits.mapM (digitValue base)).bind fun ds =>
    let n := ds.foldl (fun acc d => acc * base + d) 0
    if n.isValidChar ∧ isChar (Char.ofNat n) = true then some (Char.ofNat n) else none

def entity (name : List Char) : Option Char :=
  if name = "amp".toList then some '&'
  else if name = "lt".toList then some '<'
  else if name = "gt".toList then some '>'
  else if name = "quot".toList then some '"'
  else if name = "apos".toList then some '\''
  else match name with
    | '#' :: 'x' :: digits => charRef 16 digits
    | '#' :: digits => charRef 10 digits
    | _ => none

/-- The character of the reference behind an ampersand. -/
def reference (s : List Char) : Option (Char × List Char) :=
  match s.dropWhile (· != ';') with
  | [] => none
  | _ :: rest => (entity (s.takeWhile (· != ';'))).map fun c => (c, rest)

/-- An attribute value behind its opening quote. -/
def attValue (quote : Char) : ℕ → List Char → Option (List Char × List Char)
  | 0, _ => none
  | _ + 1, [] => none
  | n + 1, c :: rest =>
    if c = quote then some ([], rest)
    else if c = '<' then none
    else if c = '&' then
      (reference rest).bind fun r => (attValue quote n r.2).map fun v => (r.1 :: v.1, v.2)
    else (attValue quote n rest).map fun v => ((if isWhite c then ' ' else c) :: v.1, v.2)

/-- The equals sign and the value behind the name of an attribute. -/
def eqValue (s : List Char) : Option (List Char × List Char) :=
  match s.dropWhile isWhite with
  | '=' :: s => match s.dropWhile isWhite with
    | quote :: s => if quote = '"' ∨ quote = '\'' then attValue quote (s.length + 1) s else none
    | [] => none
  | _ => none

/-- The attributes of a start tag, and whether it closes its element at once. -/
def attributes : ℕ → List Char → Option (List (List Char × List Char) × Bool × List Char)
  | 0, _ => none
  | n + 1, s =>
    let t := s.dropWhile isWhite
    if t.head? = some '>' then some ([], false, t.tail)
    else if ['/', '>'].isPrefixOf t then some ([], true, t.drop 2)
    else if s.head?.any isWhite then
      let name := t.takeWhile isNameChar
      if isName name then
        (eqValue (t.drop name.length)).bind fun v => (attributes n v.2).bind fun r =>
          if name ∈ r.1.map (·.1) then none else some ((name, v.1) :: r.1, r.2)
      else none
    else none

/-- An element behind its opening bracket, given how its content is read. -/
def elementWith (content : List Char → Option (Content × List Char)) (s : List Char) :
    Option (Element × List Char) :=
  let name := s.takeWhile isNameChar
  if isName name then
    (attributes (s.length + 1) (s.drop name.length)).bind fun t =>
      if t.2.1 then some (⟨name, t.1, .nil⟩, t.2.2)
      else (content t.2.2).bind fun b =>
        if ('<' :: '/' :: name).isPrefixOf b.2 then
          let r := (b.2.drop (name.length + 2)).dropWhile isWhite
          if r.head? = some '>' then some (⟨name, t.1, b.1⟩, r.tail) else none
        else none
  else none

/-- Content up to an end tag or the end of the text. -/
def content : ℕ → List Char → Option (Content × List Char)
  | 0, _ => none
  | _ + 1, [] => some (.nil, [])
  | n + 1, c :: rest =>
    if c = '<' then
      if rest.head? = some '/' then some (.nil, c :: rest)
      else (elementWith (content n) rest).bind fun e => (content n e.2).map fun r =>
        (.elem e.1.name e.1.attrs e.1.body r.1, r.2)
    else if c = '&' then
      (reference rest).bind fun d => (content n d.2).map fun r => (.char d.1 r.1, r.2)
    else if [']', ']', '>'].isPrefixOf (c :: rest) then none
    else (content n rest).map fun r => (.char c r.1, r.2)

def declaration : List Char := "<?xml version=\"1.0\" encoding=\"UTF-8\"?>".toList

/-- A document with normalised line ends. -/
def document (text : List Char) : Option Element :=
  let s := (if declaration.isPrefixOf text then text.drop declaration.length else text).dropWhile isWhite
  if s.head? = some '<' then
    (elementWith (content s.length) s.tail).bind fun e => if e.2.all isWhite then some e.1 else none
  else none

def parse (text : List Char) : Option Element :=
  if text.all isChar then document (lineEnds false text) else none

/-! ### References and attributes -/

theorem escapeAttr_eq (c : Char) : escapeAttr c = [c] ∧ c ≠ '&' ∧ c ≠ '<' ∧ c ≠ '"' ∧ c ≠ '\r' ∧
    (isWhite c = true → c = ' ') ∨ ∃ s, escapeAttr c = '&' :: s ∧
      (∀ r, reference (s ++ r) = some (c, r)) ∧ s.all isChar = true ∧ isChar c = true ∧ '\r' ∉ s := by
  unfold escapeAttr
  split_ifs with h1 h2 h3 h4 h5 h6 h7
  · exact .inr ⟨"amp;".toList, rfl, fun r => by rw [h1]; rfl, by decide, by rw [h1]; decide, by decide⟩
  · exact .inr ⟨"lt;".toList, rfl, fun r => by rw [h2]; rfl, by decide, by rw [h2]; decide, by decide⟩
  · exact .inr ⟨"gt;".toList, rfl, fun r => by rw [h3]; rfl, by decide, by rw [h3]; decide, by decide⟩
  · exact .inr ⟨"quot;".toList, rfl, fun r => by rw [h4]; rfl, by decide, by rw [h4]; decide, by decide⟩
  · exact .inr ⟨"#13;".toList, rfl, fun r => by rw [h5]; rfl, by decide, by rw [h5]; decide, by decide⟩
  · exact .inr ⟨"#10;".toList, rfl, fun r => by rw [h6]; rfl, by decide, by rw [h6]; decide, by decide⟩
  · exact .inr ⟨"#09;".toList, rfl, fun r => by rw [h7]; rfl, by decide, by rw [h7]; decide, by decide⟩
  · refine .inl ⟨rfl, h1, h2, h4, h5, fun h => ?_⟩
    simpa [isWhite, h5, h6, h7] using h

theorem attValue_escape (n : ℕ) (c : Char) (r : List Char) :
    attValue '"' (n + 1) (escapeAttr c ++ r) = (attValue '"' n r).map fun v => (c :: v.1, v.2) := by
  rcases escapeAttr_eq c with ⟨he, h1, h2, h3, -, hw⟩ | ⟨s, he, href, -, -, -⟩
  · rw [he, List.singleton_append, attValue, if_neg h3, if_neg h2, if_neg h1]
    cases hwhite : isWhite c with
    | false => rfl
    | true => rw [hw hwhite]; rfl
  · rw [he, List.cons_append, attValue, if_neg (by decide), if_neg (by decide), if_pos rfl, href]
    rfl

theorem attValue_render (s r : List Char) (n : ℕ) (hn : s.length < n) :
    attValue '"' n (s.flatMap escapeAttr ++ '"' :: r) = some (s, r) := by
  induction s generalizing n with
  | nil =>
    obtain ⟨n, rfl⟩ := Nat.exists_eq_succ_of_ne_zero (Nat.ne_of_gt hn)
    rfl
  | cons c s ih =>
    simp only [List.length_cons] at hn
    obtain ⟨n, rfl⟩ := Nat.exists_eq_succ_of_ne_zero (by omega : n ≠ 0)
    rw [List.flatMap_cons, List.append_assoc, attValue_escape, ih n (by omega)]
    rfl

theorem length_le_flatMap {α β : Type*} {f : α → List β} (hf : ∀ a, 1 ≤ (f a).length) (s : List α) :
    s.length ≤ (s.flatMap f).length :=
  calc s.length = (s.map fun a => (f a).length).length := List.length_map _ |>.symm
    _ ≤ (s.map fun a => (f a).length).sum :=
      List.length_le_sum_of_one_le _ (List.forall_mem_map.mpr fun a _ => hf a)
    _ = (s.flatMap f).length := List.length_flatMap.symm

theorem eqValue_render (s r : List Char) :
    eqValue ('=' :: '"' :: (s.flatMap escapeAttr ++ ['"']) ++ r) = some (s, r) := by
  have hlength : s.length ≤ (s.flatMap escapeAttr).length := by
    refine length_le_flatMap (fun c => ?_) s
    rcases escapeAttr_eq c with ⟨he, -⟩ | ⟨t, he, -⟩ <;> simp [he]
  have hvalue := attValue_render s r ((s.flatMap escapeAttr ++ '"' :: r).length + 1) (by
    simp only [List.length_append, List.length_cons]
    omega)
  simpa [eqValue, isWhite] using hvalue

/-- A name ends where no name character follows. -/
theorem takeWhile_name {name r : List Char} (hname : isName name = true)
    (hr : ∀ c ∈ r.head?, isNameChar c = false) : (name ++ r).takeWhile isNameChar = name := by
  have hall : ∀ c ∈ name, isNameChar c = true := by
    simp only [isName, Bool.and_eq_true, List.all_eq_true] at hname
    exact hname.2
  rw [List.takeWhile_append_of_pos hall]
  cases r with
  | nil => simp
  | cons c r => rw [List.takeWhile_cons_of_neg (by simp [hr c rfl]), List.append_nil]

theorem name_head {name : List Char} (h : isName name = true) :
    ∃ c s, name = c :: s ∧ isNameChar c = true := by
  cases name with
  | nil => cases h
  | cons c s =>
    simp only [isName, Bool.and_eq_true, List.all_eq_true] at h
    exact ⟨c, s, rfl, h.2 c List.mem_cons_self⟩

theorem dropWhile_white_name {name r : List Char} (h : isName name = true) :
    (' ' :: (name ++ r)).dropWhile isWhite = name ++ r := by
  obtain ⟨c, s, rfl, hc⟩ := name_head h
  have hwhite : isWhite c = false := by
    simp only [isWhite, Bool.or_eq_false_iff, beq_eq_false_iff_ne]
    refine ⟨⟨⟨?_, ?_⟩, ?_⟩, ?_⟩ <;> rintro rfl <;> revert hc <;> decide
  rw [List.dropWhile_cons_of_pos rfl, List.cons_append, List.dropWhile_cons_of_neg (by simp [hwhite])]

theorem attributes_cons {a : List Char × List Char} (ha : isName a.1 = true) (n : ℕ) (r : List Char) :
    attributes (n + 1) (renderAttr a ++ r) = (attributes n r).bind fun t =>
      if a.1 ∈ t.1.map (·.1) then none else some (a :: t.1, t.2) := by
  obtain ⟨c, s, hcs, hc⟩ := name_head ha
  obtain ⟨v, hv, hequal, hvalue⟩ : ∃ v, renderAttr a ++ r = ' ' :: (a.1 ++ v) ∧
      v.head? = some '=' ∧ eqValue v = some (a.2, r) :=
    ⟨'=' :: '"' :: (a.2.flatMap escapeAttr ++ ['"']) ++ r, by simp [renderAttr], rfl, eqValue_render a.2 r⟩
  have htake : (a.1 ++ v).takeWhile isNameChar = a.1 := by
    refine takeWhile_name ha fun d hd => ?_
    rw [hequal] at hd
    cases hd
    decide
  have hclose : ¬ (a.1 ++ v).head? = some '>' := by
    have hne : c ≠ '>' := by rintro rfl; revert hc; decide
    simp [hcs, hne]
  have hempty : ¬ ['/', '>'].isPrefixOf (a.1 ++ v) = true := by
    have hne : '/' ≠ c := by rintro rfl; revert hc; decide
    simp [hcs, hne]
  have hwhite : (' ' :: (a.1 ++ v)).head?.any isWhite = true := rfl
  rw [attributes, hv, dropWhile_white_name ha]
  dsimp only
  rw [if_neg hclose, if_neg hempty, if_pos hwhite, htake, if_pos ha, List.drop_left, hvalue]
  rfl

theorem attributes_render {attrs : List (List Char × List Char)} (hnames : ∀ a ∈ attrs, isName a.1 = true)
    (hnodup : (attrs.map (·.1)).Nodup) {tail r : List Char} (empty : Bool)
    (htail : ∀ n, attributes (n + 1) tail = some ([], empty, r)) (n : ℕ) (hn : attrs.length < n) :
    attributes n (attrs.flatMap renderAttr ++ tail) = some (attrs, empty, r) := by
  induction attrs generalizing n with
  | nil =>
    obtain ⟨n, rfl⟩ := Nat.exists_eq_succ_of_ne_zero (Nat.ne_of_gt hn)
    exact htail n
  | cons a attrs ih =>
    simp only [List.length_cons] at hn
    obtain ⟨n, rfl⟩ := Nat.exists_eq_succ_of_ne_zero (by omega : n ≠ 0)
    rw [List.map_cons, List.nodup_cons] at hnodup
    rw [List.flatMap_cons, List.append_assoc, attributes_cons (hnames a List.mem_cons_self),
      ih (fun b hb => hnames b (List.mem_cons_of_mem a hb)) hnodup.2 n (by omega), Option.bind_some,
      if_neg hnodup.1]

/-! ### Elements and content -/

theorem escapeText_eq (c : Char) : escapeText c = [c] ∧ c ≠ '&' ∧ c ≠ '<' ∧ c ≠ '>' ∨
    ∃ s, escapeText c = '&' :: s ∧ (∀ r, reference (s ++ r) = some (c, r)) ∧ s.all isChar = true ∧
      isChar c = true ∧ '\r' ∉ s ∧ c ≠ '\r' ∧ c ≠ '\n' := by
  unfold escapeText
  split_ifs with h1 h2 h3
  · exact .inr ⟨"amp;".toList, rfl, fun r => by rw [h1]; rfl, by decide, by rw [h1]; decide, by decide,
      by rw [h1]; decide, by rw [h1]; decide⟩
  · exact .inr ⟨"lt;".toList, rfl, fun r => by rw [h2]; rfl, by decide, by rw [h2]; decide, by decide,
      by rw [h2]; decide, by rw [h2]; decide⟩
  · exact .inr ⟨"gt;".toList, rfl, fun r => by rw [h3]; rfl, by decide, by rw [h3]; decide, by decide,
      by rw [h3]; decide, by rw [h3]; decide⟩
  · exact .inl ⟨rfl, h1, h2, h3⟩

/-- A text that content can be followed by. -/
def Stops (r : List Char) : Prop := r = [] ∨ ∃ s, r = '<' :: '/' :: s

theorem head_render (c : Content) {r : List Char} (hr : Stops r) : (c.render ++ r).head? ≠ some '>' := by
  cases c with
  | nil => rcases hr with rfl | ⟨s, rfl⟩ <;> simp [Content.render]
  | char d rest =>
    rcases escapeText_eq d with ⟨he, -, -, hd⟩ | ⟨s, he, -⟩
    · simp [Content.render, he, hd]
    · simp [Content.render, he]
  | elem => simp [Content.render, startOf]

/-- No two brackets and a closing bracket stand in character data. -/
theorem not_cdataEnd (d : Char) (c : Content) {r : List Char} (hr : Stops r) :
    ¬ [']', ']', '>'].isPrefixOf (d :: (c.render ++ r)) = true := by
  intro h
  rw [List.isPrefixOf_iff_prefix] at h
  obtain ⟨t, ht⟩ := h
  obtain ⟨-, hrest⟩ := List.cons.inj ht
  cases c with
  | nil => rcases hr with rfl | ⟨s, rfl⟩ <;> simp [Content.render] at hrest
  | char e rest =>
    rcases escapeText_eq e with ⟨he, -, -, -⟩ | ⟨s, he, -⟩
    · have hhead := head_render rest hr
      rw [Content.render, he] at hrest
      obtain ⟨-, hrest⟩ := List.cons.inj hrest
      have hclose : '>' :: t = rest.render ++ r := hrest
      rw [← hclose] at hhead
      exact hhead rfl
    · simp [Content.render, he] at hrest
  | elem => simp [Content.render, startOf] at hrest

/-- The fuel that reading a content takes. -/
def Content.fuel : Content → ℕ
  | .nil => 0
  | .char _ rest => rest.fuel + 1
  | .elem _ _ body rest => body.fuel + rest.fuel + 1

theorem length_attrs_le (attrs : List (List Char × List Char)) :
    attrs.length ≤ (attrs.flatMap renderAttr).length :=
  length_le_flatMap (fun _ => by simp [renderAttr]) attrs

theorem fuel_le (c : Content) : c.fuel ≤ c.render.length := by
  induction c with
  | nil => exact Nat.le_refl _
  | char d rest ih =>
    have hlength : 1 ≤ (escapeText d).length := by
      rcases escapeText_eq d with ⟨he, -⟩ | ⟨s, he, -⟩ <;> simp [he]
    simp only [Content.fuel, Content.render, List.length_append]
    omega
  | elem name attrs body rest ihb ihr =>
    simp only [Content.fuel, Content.render, startOf, List.length_append, List.length_cons]
    split_ifs with hb
    · rw [hb, Content.fuel]
      omega
    · simp only [List.length_append, List.length_cons]
      omega

/-- A written element is read back, given that its content is. -/
theorem elementWith_render {e : Element} (hname : isName e.name = true)
    (hnames : ∀ a ∈ e.attrs, isName a.1 = true) (hnodup : (e.attrs.map (·.1)).Nodup)
    {content : List Char → Option (Content × List Char)}
    (hbody : ∀ r, Stops r → content (e.body.render ++ r) = some (e.body, r)) (r : List Char) :
    elementWith content (e.content.render.tail ++ r) = some (e, r) := by
  obtain ⟨name, attrs, body⟩ := e
  dsimp only at hname hnames hnodup hbody
  have hrender : (Element.content ⟨name, attrs, body⟩).render.tail ++ r = name ++ (attrs.flatMap renderAttr ++
      ((if body = .nil then " />".toList else '>' :: (body.render ++ endOf name)) ++ r)) := by
    simp [Element.content, Content.render, startOf]
  have hstop : ∀ {s : List Char}, (s.head? = some ' ' ∨ s.head? = some '>') →
      ∀ c ∈ (attrs.flatMap renderAttr ++ s).head?, isNameChar c = false := by
    intro s hs c hc
    have hc' : c = ' ' ∨ c = '>' := by
      cases attrs with
      | nil =>
        rw [List.flatMap_nil, List.nil_append] at hc
        exact hs.imp (fun h => Option.some.inj (hc.symm.trans h)) fun h => Option.some.inj (hc.symm.trans h)
      | cons a attrs => exact .inl (Option.some.inj hc).symm
    rcases hc' with rfl | rfl <;> decide
  have hlength := length_attrs_le attrs
  rw [hrender]
  unfold elementWith
  split_ifs with hb
  · rw [takeWhile_name hname (hstop (.inl rfl)), if_pos hname, List.drop_left,
      attributes_render hnames hnodup true (r := r) (fun n => rfl) _ (by
        simp only [List.length_append]
        omega)]
    simp [hb]
  · have hend : endOf name ++ r = '<' :: '/' :: (name ++ '>' :: r) := by simp [endOf]
    have hcontent := hbody (endOf name ++ r) (.inr ⟨_, hend⟩)
    have hmatch : ('<' :: '/' :: name).isPrefixOf (endOf name ++ r) = true := by
      rw [List.isPrefixOf_iff_prefix, hend]
      exact ⟨'>' :: r, rfl⟩
    have hdrop : ((endOf name ++ r).drop (name.length + 2)).dropWhile isWhite = '>' :: r := by
      rw [hend, List.drop_succ_cons, List.drop_succ_cons, List.drop_left]
      rfl
    rw [takeWhile_name hname (hstop (.inr rfl)), if_pos hname, List.drop_left,
      attributes_render hnames hnodup false (r := body.render ++ endOf name ++ r) (fun n => rfl) _ (by
        simp only [List.length_append]
        omega), Option.bind_some]
    dsimp only
    rw [if_neg Bool.false_ne_true, List.append_assoc, hcontent, Option.bind_some]
    dsimp only
    rw [if_pos hmatch, hdrop]
    rfl

theorem content_render {c : Content} (hc : c.Valid) {r : List Char} (hr : Stops r) (n : ℕ)
    (hn : c.fuel < n) : content n (c.render ++ r) = some (c, r) := by
  induction c generalizing r n with
  | nil =>
    obtain ⟨n, rfl⟩ := Nat.exists_eq_succ_of_ne_zero (Nat.ne_of_gt hn)
    rcases hr with rfl | ⟨s, rfl⟩ <;> rfl
  | char d rest ih =>
    rw [Content.fuel] at hn
    obtain ⟨n, rfl⟩ := Nat.exists_eq_succ_of_ne_zero (by omega : n ≠ 0)
    have hrest := ih hc hr n (by omega)
    rw [Content.render, List.append_assoc]
    rcases escapeText_eq d with ⟨he, hamp, hlt, -⟩ | ⟨s, he, href, -⟩
    · rw [he, List.singleton_append, content, if_neg hlt, if_neg hamp, if_neg (not_cdataEnd d rest hr), hrest]
      rfl
    · rw [he, List.cons_append, content, if_neg (by decide), if_pos rfl, href, Option.bind_some, hrest]
      rfl
  | elem name attrs body rest ihb ihr =>
    obtain ⟨hname, hnames, hnodup, hbody, hrest⟩ := hc
    rw [Content.fuel] at hn
    obtain ⟨n, rfl⟩ := Nat.exists_eq_succ_of_ne_zero (by omega : n ≠ 0)
    have helement := elementWith_render (e := ⟨name, attrs, body⟩) hname hnames hnodup
      (fun r hr => ihb hbody hr n (by omega)) (rest.render ++ r)
    have hsplit : (Content.elem name attrs body rest).render ++ r =
        '<' :: ((Element.content ⟨name, attrs, body⟩).render.tail ++ (rest.render ++ r)) := by
      simp [Element.content, Content.render, startOf]
    have hslash : ¬ ((Element.content ⟨name, attrs, body⟩).render.tail ++ (rest.render ++ r)).head? =
        some '/' := by
      obtain ⟨c, s, hcs, hc⟩ := name_head hname
      have hne : c ≠ '/' := by rintro rfl; revert hc; decide
      simp [Element.content, Content.render, startOf, hcs, hne]
    rw [hsplit, content, if_pos rfl, if_neg hslash, helement, Option.bind_some, ihr hrest hr n (by omega)]
    rfl

/-! ### Line ends -/

theorem lineEnds_append {s : List Char} (hs : '\r' ∉ s) (r : List Char) :
    lineEnds false (s ++ r) = s ++ lineEnds false r := by
  induction s with
  | nil => rfl
  | cons c s ih =>
    rw [List.mem_cons, not_or] at hs
    rw [List.cons_append, lineEnds, if_neg (Ne.symm hs.1), if_neg (by simp), ih hs.2]
    rfl

theorem lineEnds_open (afterCr : Bool) (r : List Char) :
    lineEnds afterCr ('<' :: r) = '<' :: lineEnds false r := by
  simp [lineEnds]

theorem lineEnds_escape {c : Char} (hc : c ≠ '\r') {afterCr : Bool} (hlf : ¬ (c = '\n' ∧ afterCr = true))
    (r : List Char) : lineEnds afterCr (escapeText c ++ r) = escapeText c ++ lineEnds false r := by
  rcases escapeText_eq c with ⟨he, -⟩ | ⟨s, he, -, -, -, hs, -⟩
  · rw [he, List.singleton_append, lineEnds, if_neg hc, if_neg hlf]
    rfl
  · rw [he, List.cons_append, lineEnds, if_neg (by decide), if_neg (by simp), lineEnds_append hs]
    rfl

theorem cr_not_mem_name {name : List Char} (h : isName name = true) : '\r' ∉ name := by
  intro hmem
  simp only [isName, Bool.and_eq_true, List.all_eq_true] at h
  exact absurd (h.2 _ hmem) (by decide)

theorem cr_not_mem_attr {a : List Char × List Char} (ha : isName a.1 = true) : '\r' ∉ renderAttr a := by
  have hvalue : '\r' ∉ a.2.flatMap escapeAttr := by
    rw [List.mem_flatMap]
    rintro ⟨c, -, hc⟩
    rcases escapeAttr_eq c with ⟨he, -, -, -, hne, -⟩ | ⟨s, he, -, -, -, hs⟩
    · rw [he, List.mem_singleton] at hc
      exact hne hc.symm
    · rw [he, List.mem_cons] at hc
      exact hc.elim (by decide) hs
  simp [renderAttr, cr_not_mem_name ha, hvalue]

theorem cr_not_mem_startOf {name : List Char} {attrs : List (List Char × List Char)}
    (hname : isName name = true) (hnames : ∀ a ∈ attrs, isName a.1 = true) : '\r' ∉ startOf name attrs := by
  simp only [startOf, List.mem_cons, List.mem_append, List.mem_flatMap, not_or, not_exists, not_and]
  exact ⟨by decide, cr_not_mem_name hname, fun a ha => cr_not_mem_attr (hnames a ha)⟩

theorem lineEnds_eq_nil {c : Content} : c.lineEnds false = .nil ↔ c = .nil := by
  cases c with
  | nil => simp [Content.lineEnds]
  | char d rest =>
    simp only [Content.lineEnds, Bool.false_eq_true, and_false, if_false]
    split_ifs <;> simp
  | elem => simp [Content.lineEnds]

/-- Normalising the written text is normalising what is written. -/
theorem lineEnds_render {c : Content} (hc : c.Valid) (afterCr : Bool) {r : List Char}
    (hr : r = [] ∨ ∃ s, r = '<' :: s) :
    lineEnds afterCr (c.render ++ r) = (c.lineEnds afterCr).render ++ lineEnds false r := by
  induction c generalizing afterCr r with
  | nil =>
    rcases hr with rfl | ⟨s, rfl⟩
    · rfl
    · exact (lineEnds_open afterCr s).trans (lineEnds_open false s).symm
  | char d rest ih =>
    rw [Content.render, List.append_assoc, Content.lineEnds]
    split_ifs with hcr hlf
    · rw [hcr]
      exact congrArg ('\n' :: ·) (ih hc true hr)
    · rw [hlf.1, hlf.2]
      exact ih hc false hr
    · rw [lineEnds_escape hcr hlf, ih hc false hr, Content.render, List.append_assoc]
  | elem name attrs body rest ihb ihr =>
    obtain ⟨hname, hnames, -, hbody, hrest⟩ := hc
    obtain ⟨s, hs⟩ : ∃ s, startOf name attrs = '<' :: s := ⟨_, rfl⟩
    have hcr := cr_not_mem_startOf hname hnames
    rw [hs, List.mem_cons, not_or] at hcr
    have htail := ihr hrest false hr
    simp only [Content.render, Content.lineEnds, lineEnds_eq_nil, List.append_assoc]
    rw [hs, List.cons_append, List.cons_append, lineEnds_open, lineEnds_append hcr.2]
    split_ifs with hb
    · rw [lineEnds_append (by decide), htail]
    · have hend : '\r' ∉ endOf name := by simp [endOf, cr_not_mem_name hname]
      have hopen : endOf name ++ (rest.render ++ r) = '<' :: ('/' :: (name ++ ['>']) ++ (rest.render ++ r)) := rfl
      have hinner := ihb hbody false (r := endOf name ++ (rest.render ++ r)) (.inr ⟨_, hopen⟩)
      rw [lineEnds_append hend, htail] at hinner
      have hclose : ∀ x, lineEnds false ('>' :: x) = '>' :: lineEnds false x :=
        lineEnds_append (s := ['>']) (by decide)
      rw [List.cons_append, List.append_assoc, hclose, hinner]
      simp

theorem Content.Valid.lineEnds {c : Content} (hc : c.Valid) (afterCr : Bool) : (c.lineEnds afterCr).Valid := by
  induction c generalizing afterCr with
  | nil => trivial
  | char d rest ih =>
    rw [Content.lineEnds]
    split_ifs
    · exact ih hc true
    · exact ih hc false
    · exact ih hc false
  | elem name attrs body rest ihb ihr =>
    obtain ⟨hname, hnames, hnodup, hbody, hrest⟩ := hc
    exact ⟨hname, hnames, hnodup, ihb hbody false, ihr hrest false⟩

/-! ### Allowed characters -/

theorem all_escapeText (c : Char) : (escapeText c).all isChar = isChar c := by
  rcases escapeText_eq c with ⟨he, -⟩ | ⟨s, he, -, hs, hc, -⟩
  · simp [he]
  · rw [he, List.all_cons, hs, hc]
    rfl

theorem all_escapeAttr (c : Char) : (escapeAttr c).all isChar = isChar c := by
  rcases escapeAttr_eq c with ⟨he, -⟩ | ⟨s, he, -, hs, hc, -⟩
  · simp [he]
  · rw [he, List.all_cons, hs, hc]
    rfl

theorem all_name {name : List Char} (h : isName name = true) : name.all isChar = true := by
  simp only [isName, Bool.and_eq_true, List.all_eq_true] at h
  exact List.all_eq_true.mpr fun c hc => isChar_of_isNameChar (h.2 c hc)

theorem all_renderAttr {a : List Char × List Char} (ha : isName a.1 = true) :
    (renderAttr a).all isChar = a.2.all isChar := by
  have hvalue : (a.2.flatMap escapeAttr).all isChar = a.2.all isChar := by
    rw [List.all_flatMap]
    exact congrArg a.2.all (funext all_escapeAttr)
  simp only [renderAttr, List.all_cons, List.all_append, all_name ha, hvalue, List.all_nil]
  simp [isChar]

theorem all_startOf {name : List Char} {attrs : List (List Char × List Char)} (hname : isName name = true)
    (hnames : ∀ a ∈ attrs, isName a.1 = true) :
    (startOf name attrs).all isChar = attrs.all (·.2.all isChar) := by
  have hattrs : (attrs.flatMap renderAttr).all isChar = attrs.all (·.2.all isChar) := by
    induction attrs with
    | nil => rfl
    | cons a attrs ih =>
      rw [List.flatMap_cons, List.all_append, all_renderAttr (hnames a List.mem_cons_self),
        ih fun b hb => hnames b (List.mem_cons_of_mem a hb), List.all_cons]
  rw [startOf, List.all_cons, List.all_append, all_name hname, hattrs]
  rfl

/-- A written text holds what the content holds. -/
theorem all_render {c : Content} (hc : c.Valid) : c.render.all isChar = c.legal := by
  induction c with
  | nil => rfl
  | char d rest ih => rw [Content.render, List.all_append, all_escapeText, ih hc, Content.legal]
  | elem name attrs body rest ihb ihr =>
    obtain ⟨hname, hnames, -, hbody, hrest⟩ := hc
    have hend : (endOf name).all isChar = true := by
      simp only [endOf, List.all_cons, List.all_append, all_name hname]
      rfl
    rw [Content.render, List.all_append, List.all_append, all_startOf hname hnames, ihr hrest, Content.legal,
      Bool.and_assoc]
    split_ifs with hb
    · rw [hb]
      rfl
    · rw [List.all_cons, List.all_append, ihb hbody, hend]
      simp [isChar]

/-! ### Round trip -/

/-- A written document is accepted exactly when all its characters are allowed,
and reads as it was written with normalised line ends. -/
theorem parse_render {e : Element} (he : e.content.Valid) :
    parse (declaration ++ '\n' :: e.content.render) = if e.content.legal then some e.lineEnds else none := by
  have hall : (declaration ++ '\n' :: e.content.render).all isChar = e.content.legal := by
    rw [List.all_append, List.all_cons, all_render he]
    rfl
  have hends : lineEnds false (declaration ++ '\n' :: e.content.render) =
      declaration ++ '\n' :: e.lineEnds.content.render := by
    have hrender := lineEnds_render he false (r := []) (.inl rfl)
    rw [List.append_nil] at hrender
    rw [show declaration ++ '\n' :: e.content.render = declaration ++ ['\n'] ++ e.content.render by simp,
      lineEnds_append (by decide), hrender]
    simp [lineEnds, Element.lineEnds, Element.content, Content.lineEnds]
  have hlower : e.lineEnds.content.Valid := he.lineEnds false
  obtain ⟨hname, hnames, hnodup, hbody, -⟩ := hlower
  have hread : elementWith (content e.lineEnds.content.render.length) (e.lineEnds.content.render.tail ++ []) =
      some (e.lineEnds, []) := by
    refine elementWith_render hname hnames hnodup (fun r hr => content_render hbody hr _ ?_) []
    have hfuel : e.lineEnds.body.fuel + Content.nil.fuel + 1 ≤ _ := fuel_le e.lineEnds.content
    omega
  have hdeclared : declaration.isPrefixOf (declaration ++ '\n' :: e.lineEnds.content.render) = true := by
    rw [List.isPrefixOf_iff_prefix]
    exact List.prefix_append _ _
  rw [parse, hall, hends]
  split_ifs
  · rw [document, if_pos hdeclared, List.drop_left]
    rw [List.append_nil] at hread
    have hdrop : ('\n' :: e.lineEnds.content.render).dropWhile isWhite = e.lineEnds.content.render := rfl
    have hopen : e.lineEnds.content.render.head? = some '<' := rfl
    rw [hdrop, if_pos hopen, hread]
    rfl
  · rfl

/-! ### What is read -/

/-- The characters in front of the first element. -/
def Content.text : Content → List Char
  | .nil => []
  | .char c rest => c :: rest.text
  | .elem .. => []

def Content.children : Content → List Element
  | .nil => []
  | .char _ rest => rest.children
  | .elem name attrs body rest => ⟨name, attrs, body⟩ :: rest.children

/-- The text, and content behind it. -/
def Content.ofText (s : List Char) (rest : Content) : Content := s.foldr .char rest

def Element.child (name : String) (e : Element) : Option Element :=
  e.body.children.find? (·.name = name.toList)

def Element.get (name : String) (e : Element) : Option (List Char) := e.attrs.lookup name.toList

@[simp] theorem children_ofText (s : List Char) (rest : Content) :
    (Content.ofText s rest).children = rest.children := by
  induction s with
  | nil => rfl
  | cons c s ih => exact ih

theorem text_ofText (s : List Char) : (Content.ofText s .nil).text = s := by
  induction s with
  | nil => rfl
  | cons c s ih => exact congrArg (c :: ·) ih

theorem lineEnds_ofText (afterCr : Bool) (s : List Char) :
    (Content.ofText s .nil).lineEnds afterCr = .ofText (Xml.lineEnds afterCr s) .nil := by
  induction s generalizing afterCr with
  | nil => rfl
  | cons c s ih =>
    have hcons : Content.ofText (c :: s) .nil = .char c (.ofText s .nil) := rfl
    rw [hcons, Content.lineEnds, Xml.lineEnds]
    split_ifs
    · exact congrArg (Content.char '\n') (ih true)
    · exact ih false
    · exact congrArg (Content.char c) (ih false)

/-- A text without carriage returns stays in front of what follows it. -/
theorem lineEnds_ofText_append {s : List Char} (hs : '\r' ∉ s) (rest : Content) :
    (Content.ofText s rest).lineEnds false = .ofText s (rest.lineEnds false) := by
  induction s with
  | nil => rfl
  | cons c s ih =>
    rw [List.mem_cons, not_or] at hs
    have hcons : ∀ rest, Content.ofText (c :: s) rest = .char c (.ofText s rest) := fun _ => rfl
    rw [hcons, Content.lineEnds, if_neg (Ne.symm hs.1), if_neg (by simp), ih hs.2, ← hcons]

theorem valid_ofText (s : List Char) (rest : Content) : (Content.ofText s rest).Valid ↔ rest.Valid := by
  induction s with
  | nil => exact Iff.rfl
  | cons c s ih => exact ih

theorem legal_ofText (s : List Char) (rest : Content) :
    (Content.ofText s rest).legal = (s.all isChar && rest.legal) := by
  induction s with
  | nil => rfl
  | cons c s ih =>
    have hcons : (Content.ofText (c :: s) rest).legal = (isChar c && (Content.ofText s rest).legal) := rfl
    rw [hcons, ih, List.all_cons, Bool.and_assoc]

theorem render_ofText (s : List Char) (rest : Content) :
    (Content.ofText s rest).render = s.flatMap escapeText ++ rest.render := by
  induction s with
  | nil => rfl
  | cons c s ih =>
    have hcons : (Content.ofText (c :: s) rest).render = escapeText c ++ (Content.ofText s rest).render := rfl
    rw [hcons, ih, List.flatMap_cons, List.append_assoc]

theorem ofText_eq_nil {s : List Char} : Content.ofText s .nil = .nil ↔ s = [] := by
  cases s with
  | nil => exact iff_of_true rfl rfl
  | cons c s => exact iff_of_false nofun nofun

theorem length_lineEnds_le (afterCr : Bool) (s : List Char) : (Xml.lineEnds afterCr s).length ≤ s.length := by
  induction s generalizing afterCr with
  | nil => exact Nat.le_refl _
  | cons c s ih =>
    rw [Xml.lineEnds]
    split_ifs
    · exact Nat.succ_le_succ (ih true)
    · exact Nat.le_succ_of_le (ih false)
    · exact Nat.succ_le_succ (ih false)

/-- Only a text with carriage returns changes. -/
theorem lineEnds_eq_self {s : List Char} : Xml.lineEnds false s = s ↔ '\r' ∉ s := by
  have hgone : ∀ s b, '\r' ∉ Xml.lineEnds b s := by
    intro s
    induction s with
    | nil => exact fun _ => List.not_mem_nil
    | cons c s ih =>
      intro b
      rw [Xml.lineEnds]
      split_ifs with hcr
      · rw [List.mem_cons, not_or]
        exact ⟨by decide, ih true⟩
      · exact ih false
      · rw [List.mem_cons, not_or]
        exact ⟨Ne.symm hcr, ih false⟩
  constructor
  · intro h
    rw [← h]
    exact hgone s false
  · intro h
    have hself := lineEnds_append h []
    rwa [List.append_nil, Xml.lineEnds, List.append_nil] at hself

end Xml
