import Mathlib.Data.List.Basic
import Mathlib.Data.Nat.Notation
import Mathlib.Tactic.SplitIfs

/-! Marked sections of character data. A section goes up to its first terminator,
and sections that touch read as one text. A writer that splits every terminator
of its text over two sections is safe. Proved: behind an opener the text reads as
it was written, in front of anything that does not complete a terminator. -/

namespace Cdata

/-- What opens a section. -/
def opener : List Char := "<![CDATA[".toList

/-- What ends a section. -/
def terminator : List Char := "]]>".toList

/-- The text behind an opener, joined with that of the sections that touch, and
what follows; `skip` more characters are read already. -/
def sectionText : ℕ → List Char → Option (List Char × List Char)
  | _, [] => none
  | skip + 1, _ :: s => sectionText skip s
  | 0, c :: s =>
    if terminator.isPrefixOf (c :: s) then
      if opener.isPrefixOf ((c :: s).drop terminator.length) then
        sectionText (terminator.length - 1 + opener.length) s
      else some ([], (c :: s).drop terminator.length)
    else (sectionText 0 s).map fun r => (c :: r.1, r.2)

/-- What a terminator is replaced by: its brackets end a section, the rest begins one. -/
def split : List Char := "]]]]><![CDATA[>".toList

/-- Every terminator is split; `skip` more characters belong to one that is. -/
def escape : ℕ → List Char → List Char
  | _, [] => []
  | skip + 1, _ :: s => escape skip s
  | 0, c :: s =>
    if terminator.isPrefixOf (c :: s) then split ++ escape (terminator.length - 1) s else c :: escape 0 s

/-- A text that completes no terminator begun in front of it. -/
structure Detached (s : List Char) : Prop where
  tail : ¬ [']', '>'] <+: s
  last : ¬ ['>'] <+: s

theorem prefix_terminator {s : List Char} : terminator <+: s ↔ ∃ r, s = ']' :: ']' :: '>' :: r := by
  constructor
  · rintro ⟨r, rfl⟩
    exact ⟨r, rfl⟩
  · rintro ⟨r, rfl⟩
    exact ⟨r, rfl⟩

theorem sectionText_char {c : Char} {s : List Char} (h : ¬ terminator <+: c :: s) :
    sectionText 0 (c :: s) = (sectionText 0 s).map fun r => (c :: r.1, r.2) := by
  rw [sectionText, if_neg (mt List.isPrefixOf_iff_prefix.mp h)]

theorem sectionText_terminator {s : List Char} (h : ¬ opener <+: s) :
    sectionText 0 (terminator ++ s) = some ([], s) :=
  if_neg (mt List.isPrefixOf_iff_prefix.mp h)

/-- A terminator that is split reads as a terminator. -/
theorem sectionText_split (s : List Char) :
    sectionText 0 (split ++ s) = (sectionText 0 s).map fun r => (terminator ++ r.1, r.2) := by
  have hread : sectionText 0 (split ++ s) =
      (((sectionText 0 s).map fun r => ('>' :: r.1, r.2)).map fun r => (']' :: r.1, r.2)).map
        fun r => (']' :: r.1, r.2) := rfl
  rw [hread, Option.map_map, Option.map_map]
  rfl

/-- Escaped text goes on as the text does, where it can complete a terminator. -/
theorem escape_head {c : Char} {t s r : List Char} (h : escape 0 (c :: t) ++ s = '>' :: r) : c = '>' := by
  rw [escape] at h
  split_ifs at h
  · cases h
  · exact (List.cons.inj h).1

theorem escape_last {t s r : List Char} (hs : Detached s) (h : escape 0 t ++ s = '>' :: r) :
    ∃ u, t = '>' :: u := by
  cases t with
  | nil => exact absurd ⟨r, h.symm⟩ hs.last
  | cons c t => exact ⟨t, by rw [escape_head h]⟩

theorem escape_tail {t s r : List Char} (hs : Detached s) (h : escape 0 t ++ s = ']' :: '>' :: r) :
    ∃ u, t = ']' :: '>' :: u := by
  cases t with
  | nil => exact absurd ⟨r, h.symm⟩ hs.tail
  | cons c t =>
    rw [escape] at h
    split_ifs at h
    · cases h
    · obtain ⟨rfl, htail⟩ := List.cons.inj h
      obtain ⟨u, rfl⟩ := escape_last hs htail
      exact ⟨u, rfl⟩

theorem not_terminator {c : Char} {t s : List Char} (h : ¬ terminator <+: c :: t) (hs : Detached s) :
    ¬ terminator <+: c :: (escape 0 t ++ s) := by
  intro hprefix
  obtain ⟨r, hr⟩ := prefix_terminator.mp hprefix
  obtain ⟨rfl, htail⟩ := List.cons.inj hr
  obtain ⟨u, rfl⟩ := escape_tail hs htail
  exact h ⟨u, rfl⟩

/-- Escaped text reads as it was. -/
theorem sectionText_escape (skip : ℕ) (t : List Char) {s : List Char} (hs : Detached s) :
    sectionText 0 (escape skip t ++ s) = (sectionText 0 s).map fun r => (t.drop skip ++ r.1, r.2) := by
  induction t generalizing skip with
  | nil =>
    rw [escape, List.nil_append, List.drop_nil]
    exact (congrFun Option.map_id _).symm
  | cons c t ih =>
    cases skip with
    | succ skip => exact ih skip
    | zero =>
      rw [escape]
      split_ifs with h
      · obtain ⟨r, hr⟩ := prefix_terminator.mp (List.isPrefixOf_iff_prefix.mp h)
        obtain ⟨rfl, rfl⟩ := List.cons.inj hr
        rw [List.append_assoc, sectionText_split, ih, Option.map_map]
        rfl
      · rw [List.cons_append, sectionText_char (not_terminator (mt List.isPrefixOf_iff_prefix.mpr h) hs), ih,
          Option.map_map]
        rfl

theorem length_le_escape (skip : ℕ) (t : List Char) : t.length ≤ (escape skip t).length + skip := by
  induction t generalizing skip with
  | nil => exact Nat.zero_le _
  | cons c t ih =>
    cases skip with
    | succ skip =>
      have := ih skip
      rw [escape, List.length_cons]
      omega
    | zero =>
      rw [escape, List.length_cons]
      split_ifs
      · have hsplit : split.length = 15 := rfl
        have hskip : terminator.length - 1 = 2 := rfl
        have := ih 2
        rw [List.length_append, hsplit, hskip]
        omega
      · have := ih 0
        rw [List.length_cons]
        omega

end Cdata
