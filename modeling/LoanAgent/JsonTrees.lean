import LoanAgent.JsonText
import LoanAgent.LogSecrets

/-! JSON texts of whole trees and back. Proved: a tree whose objects have no key
twice, and whose floats the platform reads as it writes them, is read from its text
as it is, behind any blanks and whatever follows that does not go on with a number;
so no two such trees have one text. -/

namespace LoanAgent

variable {py : Python}

/-! ### Trees that can be written -/

/-- The platform reads its text of a finite float as this float. -/
def FloatReads (py : Python) (q : ℚ) : Prop :=
  ∀ rest, EndsNumber rest → scanNumber py (py.repr (.finite q) ++ rest) = some (.float (.finite q), rest)

/-- A number, and one whose text reads as it. -/
def FactValue.Reads (py : Python) : FactValue → Prop
  | .int _ | .float .nan | .float (.inf _) => True
  | .float (.finite q) => FloatReads py q
  | .null | .str _ => False

mutual

/-- The numbers of the tree read as they are, and no object has a key twice. -/
def Json.Proper (py : Python) : Json → Prop
  | .number v => v.Reads py
  | .arr items => ProperItems py items
  | .obj members => (members.map (·.1)).Nodup ∧ ProperMembers py members
  | _ => True

def ProperItems (py : Python) : List Json → Prop
  | [] => True
  | j :: rest => Json.Proper py j ∧ ProperItems py rest

def ProperMembers (py : Python) : List (Text × Json) → Prop
  | [] => True
  | m :: rest => Json.Proper py m.2 ∧ ProperMembers py rest

end

/-! ### The beginning of a text -/

/-- The text begins with what is neither blank nor a closing bracket. -/
def Opens (s : Text) : Prop := ∃ c t, s = c :: t ∧ c ∉ [' ', '\t', '\n', '\r', ']']

theorem Opens.append {s : Text} (h : Opens s) (rest : Text) : Opens (s ++ rest) := by
  obtain ⟨c, t, rfl, hc⟩ := h
  exact ⟨c, t ++ rest, rfl, hc⟩

theorem Opens.skipSpace {s : Text} (h : Opens s) : skipSpace s = s := by
  obtain ⟨c, t, rfl, hc⟩ := h
  refine List.dropWhile_cons_of_neg ?_
  simp only [List.mem_cons, List.not_mem_nil, or_false, not_or] at hc
  simp [hc]

theorem opens_of_scanNumber {s rest : Text} {v : FactValue} (h : scanNumber py s = some (v, rest)) : Opens s := by
  obtain ⟨c, t, rfl, hc⟩ := scanNumber_head h
  refine ⟨c, t, rfl, fun hmem => ?_⟩
  rcases hc with rfl | hc
  · exact absurd hmem (by decide)
  · simp only [List.mem_cons, List.not_mem_nil, or_false] at hmem
    rcases hmem with rfl | rfl | rfl | rfl | rfl <;> exact absurd hc (by decide)

/-- A number is read in front of what does not go on with it. -/
theorem scanNumber_jsonValue {v : FactValue} (h : v.Reads py) {rest : Text} (hrest : EndsNumber rest)
    (hfinite : v ≠ .float .nan ∧ ∀ negative, v ≠ .float (.inf negative)) :
    scanNumber py (jsonValue py true v ++ rest) = some (v, rest) := by
  match v, h with
  | .int n, _ => exact scanNumber_intText n hrest
  | .float (.finite q), h => exact h rest hrest
  | .float .nan, _ => exact absurd rfl hfinite.1
  | .float (.inf negative), _ => exact absurd rfl (hfinite.2 negative)

theorem scanValue_jsonValue {v : FactValue} (h : v.Reads py) {rest : Text} (hrest : EndsNumber rest) (fuel : ℕ) :
    scanValue py (fuel + 1) (jsonValue py true v ++ rest) = some (.number v, rest) := by
  by_cases hnan : v = .float .nan
  · subst hnan
    rfl
  by_cases hinf : ∃ negative, v = .float (.inf negative)
  · obtain ⟨negative, rfl⟩ := hinf
    cases negative <;> rfl
  · have hnumber := scanNumber_jsonValue h hrest ⟨hnan, fun b hb => hinf ⟨b, hb⟩⟩
    rw [← (opens_of_scanNumber hnumber).skipSpace, scanValue_number hnumber]

theorem opens_dumps {j : Json} (h : j.Proper py) : Opens (dumps py j) := by
  cases j with
  | null => exact ⟨_, _, rfl, by decide⟩
  | bool b => cases b <;> exact ⟨_, _, rfl, by decide⟩
  | str s => exact ⟨_, _, rfl, by decide⟩
  | arr items => exact ⟨_, _, rfl, by decide⟩
  | obj members => exact ⟨_, _, rfl, by decide⟩
  | number v =>
    rw [dumps]
    by_cases hnan : v = .float .nan
    · subst hnan
      exact ⟨_, _, rfl, by decide⟩
    by_cases hinf : ∃ negative, v = .float (.inf negative)
    · obtain ⟨negative, rfl⟩ := hinf
      cases negative <;> exact ⟨_, _, rfl, by decide⟩
    · have hnumber := scanNumber_jsonValue h endsNumber_nil ⟨hnan, fun b hb => hinf ⟨b, hb⟩⟩
      rw [List.append_nil] at hnumber
      exact opens_of_scanNumber hnumber

/-! ### Reading what was written -/

theorem endsNumber_cons {c : Char} (h : c ∈ [',', ']', '}']) (rest : Text) : EndsNumber (c :: rest) := by
  rintro d t ⟨⟩
  simp only [List.mem_cons, List.not_mem_nil, or_false] at h
  rcases h with rfl | rfl | rfl <;> decide

theorem skipSpace_blank (s : Text) : skipSpace (' ' :: s) = skipSpace s := rfl

theorem opens_join {s : Text} {rest : List Text} (h : Opens s) (sep : Text) : Opens (join sep (s :: rest)) := by
  cases rest with
  | nil => exact h
  | cons t rest => exact (h.append _).append _

theorem opens_items {items : List Json} (hne : items ≠ []) (h : ProperItems py items) :
    Opens (join ", ".toList (dumpsItems py items)) := by
  cases items with
  | nil => exact absurd rfl hne
  | cons j items => exact opens_join (opens_dumps h.1) _

theorem members_quote (py : Python) {members : List (Text × Json)} (hne : members ≠ []) :
    ∃ t, join ", ".toList (dumpsMembers py members) = '"' :: t := by
  cases members with
  | nil => exact absurd rfl hne
  | cons m members => cases members <;> exact ⟨_, rfl⟩

theorem opens_quote (t : Text) : Opens ('"' :: t) := ⟨_, _, rfl, by decide⟩

theorem join_cons_cons (sep s t : Text) (rest : List Text) :
    join sep (s :: t :: rest) = s ++ (sep ++ join sep (t :: rest)) := List.append_assoc ..

theorem scanValue_bracket {s : Text} (hs : Opens s) (fuel : ℕ) :
    scanValue py (fuel + 1) ('[' :: s) = (scanItems py fuel s).map fun r => (.arr r.1, r.2) := by
  rw [scanValue, hs.skipSpace]
  obtain ⟨c, t, rfl, hc⟩ := hs
  split
  next heq =>
    obtain ⟨rfl, -⟩ := List.cons.inj heq
    exact absurd hc (by decide)
  · rfl

theorem scanValue_brace (t : Text) (fuel : ℕ) :
    scanValue py (fuel + 1) ('{' :: '"' :: t) =
      (scanMembers py fuel [] ('"' :: t)).map fun r => (.obj r.1, r.2) := by
  rw [scanValue]
  rfl

/-- One item, and what is read behind it. -/
theorem scanItems_item {fuel : ℕ} {s rest : Text} {j : Json} (h : scanValue py fuel s = some (j, rest)) :
    scanItems py (fuel + 1) s = match skipSpace rest with
      | ',' :: rest => (scanItems py fuel (skipSpace rest)).map fun r => (j :: r.1, r.2)
      | ']' :: rest => some ([j], rest)
      | _ => none := by
  rw [scanItems, h]
  rfl

/-- One member, and what is read behind it. -/
theorem scanMembers_value {fuel : ℕ} {k s rest : Text} {j : Json} {acc : List (Text × Json)} (hs : Opens s)
    (h : scanValue py fuel s = some (j, rest)) :
    scanMembers py (fuel + 1) acc (jsonString true k ++ ':' :: ' ' :: s) = match skipSpace rest with
      | ',' :: rest => scanMembers py fuel (dictSet k j acc) (skipSpace rest)
      | '}' :: rest => some (dictSet k j acc, rest)
      | _ => none := by
  have hlength := length_le_escape true k
  have htext : jsonString true k ++ ':' :: ' ' :: s =
      '"' :: (k.flatMap (escapeChar true) ++ '"' :: ':' :: ' ' :: s) := by
    simp [jsonString]
  have hkey := scanString_jsonString true k
    ((k.flatMap (escapeChar true) ++ '"' :: ':' :: ' ' :: s).length + 1) (':' :: ' ' :: s)
    (by rw [List.length_append]; omega)
  have hcolon : skipSpace (':' :: ' ' :: s) = ':' :: ' ' :: s := rfl
  rw [htext, scanMembers]
  simp only [hkey, Option.bind_some, hcolon, skipSpace_blank, hs.skipSpace]
  rw [h]
  rfl

theorem dictSet_new {k : Text} {j : Json} {acc : List (Text × Json)} (h : k ∉ acc.map (·.1)) :
    dictSet k j acc = acc ++ [(k, j)] := by
  induction acc with
  | nil => rfl
  | cons m acc ih =>
    simp only [List.map_cons, List.mem_cons, not_or] at h
    rw [dictSet, if_neg (Ne.symm h.1), ih h.2, List.cons_append]

/-- Members with keys of their own come to stand one behind the other. -/
theorem foldl_dictSet_append {members acc : List (Text × Json)} (h : ((acc ++ members).map (·.1)).Nodup) :
    members.foldl (fun d m => dictSet m.1 m.2 d) acc = acc ++ members := by
  induction members generalizing acc with
  | nil => rw [List.foldl_nil, List.append_nil]
  | cons m members ih =>
    have hnew : m.1 ∉ acc.map (·.1) := fun hmem => by
      rw [List.map_append, List.map_cons] at h
      exact (List.nodup_append.mp h).2.2 _ hmem _ List.mem_cons_self rfl
    rw [List.foldl_cons, dictSet_new hnew, ih (by rw [List.append_assoc]; exact h), List.append_assoc]
    rfl

theorem foldl_dictSet {members : List (Text × Json)} (h : (members.map (·.1)).Nodup) :
    members.foldl (fun d m => dictSet m.1 m.2 d) [] = members := foldl_dictSet_append h

mutual

theorem scanValue_dumps : ∀ (j : Json), j.Proper py → ∀ {rest : Text}, EndsNumber rest → ∀ {n : ℕ},
    (dumps py j).length < n → scanValue py n (dumps py j ++ rest) = some (j, rest)
  | .null, _, _, _, fuel + 1, _ => rfl
  | .bool b, _, _, _, fuel + 1, _ => by cases b <;> rfl
  | .number v, h, _, hrest, fuel + 1, _ => by
    rw [dumps]
    exact scanValue_jsonValue h hrest fuel
  | .str s, _, rest, _, fuel + 1, _ => by
    have hlength := length_le_escape true s
    have htext : dumps py (.str s) ++ rest = '"' :: (s.flatMap (escapeChar true) ++ '"' :: rest) := by
      simp [dumps, jsonString]
    rw [htext, scanValue_quote, scanString_jsonString true s _ _ (by rw [List.length_append]; omega)]
    rfl
  | .arr items, h, rest, _, fuel + 1, hfuel => by
    have htext : dumps py (.arr items) ++ rest = '[' :: (join ", ".toList (dumpsItems py items) ++ ']' :: rest) := by
      simp [dumps]
    rw [htext]
    by_cases hne : items = []
    · subst hne
      rfl
    · have hopen := (opens_items hne h).append (']' :: rest)
      have hread := scanItems_dumps items hne h rest (n := fuel) (by simpa [dumps] using hfuel)
      rw [scanValue_bracket hopen, hread]
      rfl
  | .obj members, h, rest, _, fuel + 1, hfuel => by
    have htext : dumps py (.obj members) ++ rest =
        '{' :: (join ", ".toList (dumpsMembers py members) ++ '}' :: rest) := by simp [dumps]
    rw [htext]
    by_cases hne : members = []
    · subst hne
      rfl
    · obtain ⟨t, ht⟩ := members_quote py hne
      have hread := scanMembers_dumps members hne h.2 [] rest (n := fuel) (by simpa [dumps] using hfuel)
      rw [ht] at hread ⊢
      rw [List.cons_append, scanValue_brace, ← List.cons_append, hread, foldl_dictSet h.1]
      rfl

theorem scanItems_dumps : ∀ (items : List Json), items ≠ [] → ProperItems py items → ∀ (rest : Text) {n : ℕ},
    (join ", ".toList (dumpsItems py items)).length + 1 < n →
    scanItems py n (join ", ".toList (dumpsItems py items) ++ ']' :: rest) = some (items, rest)
  | [], hne, _, _, _, _ => absurd rfl hne
  | [j], _, h, rest, fuel + 1, hfuel => by
    have hitem := scanValue_dumps j h.1 (endsNumber_cons (by decide : ']' ∈ [',', ']', '}']) rest) (n := fuel)
      (by simp only [dumpsItems, join] at hfuel; omega)
    exact (scanItems_item hitem).trans rfl
  | j :: j' :: items, _, h, rest, fuel + 1, hfuel => by
    have hne : j' :: items ≠ [] := List.cons_ne_nil _ _
    have htext : join ", ".toList (dumpsItems py (j :: j' :: items)) ++ ']' :: rest =
        dumps py j ++ ',' :: ' ' :: (join ", ".toList (dumpsItems py (j' :: items)) ++ ']' :: rest) := by
      simp only [dumpsItems, join_cons_cons]
      simp
    have hlength : (join ", ".toList (dumpsItems py (j :: j' :: items))).length =
        (dumps py j).length + (2 + (join ", ".toList (dumpsItems py (j' :: items))).length) := by
      simp only [dumpsItems, join_cons_cons, List.length_append]
      rfl
    have hitem := scanValue_dumps j h.1 (endsNumber_cons (by decide : ',' ∈ [',', ']', '}'])
      (' ' :: (join ", ".toList (dumpsItems py (j' :: items)) ++ ']' :: rest))) (n := fuel) (by omega)
    have hread := scanItems_dumps (j' :: items) hne h.2 rest (n := fuel) (by omega)
    have hopen := (opens_items hne h.2).append (']' :: rest)
    rw [htext, scanItems_item hitem]
    change (scanItems py fuel (skipSpace (' ' :: _))).map _ = _
    rw [skipSpace_blank, hopen.skipSpace, hread]
    rfl

theorem scanMembers_dumps : ∀ (members : List (Text × Json)), members ≠ [] → ProperMembers py members →
    ∀ (acc : List (Text × Json)) (rest : Text) {n : ℕ},
    (join ", ".toList (dumpsMembers py members)).length + 1 < n →
    scanMembers py n acc (join ", ".toList (dumpsMembers py members) ++ '}' :: rest) =
      some (members.foldl (fun d m => dictSet m.1 m.2 d) acc, rest)
  | [], hne, _, _, _, _, _ => absurd rfl hne
  | [(k, j)], _, h, acc, rest, fuel + 1, hfuel => by
    have hvalue := scanValue_dumps j h.1 (endsNumber_cons (by decide : '}' ∈ [',', ']', '}']) rest) (n := fuel)
      (by simp only [dumpsMembers, join, List.length_append, List.length_cons] at hfuel; omega)
    have htext : join ", ".toList (dumpsMembers py [(k, j)]) ++ '}' :: rest =
        jsonString true k ++ ':' :: ' ' :: (dumps py j ++ '}' :: rest) := by simp [dumpsMembers, join]
    rw [htext, scanMembers_value ((opens_dumps h.1).append _) hvalue]
    rfl
  | (k, j) :: m :: members, _, h, acc, rest, fuel + 1, hfuel => by
    have hne : m :: members ≠ [] := List.cons_ne_nil _ _
    have htext : join ", ".toList (dumpsMembers py ((k, j) :: m :: members)) ++ '}' :: rest =
        jsonString true k ++ ':' :: ' ' :: (dumps py j ++
          ',' :: ' ' :: (join ", ".toList (dumpsMembers py (m :: members)) ++ '}' :: rest)) := by
      simp only [dumpsMembers, join_cons_cons]
      simp
    have hlength : (dumps py j).length + (join ", ".toList (dumpsMembers py (m :: members))).length + 2 ≤
        (join ", ".toList (dumpsMembers py ((k, j) :: m :: members))).length := by
      simp only [dumpsMembers, join_cons_cons, List.length_append, List.length_cons]
      have : ", ".toList.length = 2 := rfl
      omega
    have hvalue := scanValue_dumps j h.1 (endsNumber_cons (by decide : ',' ∈ [',', ']', '}'])
      (' ' :: (join ", ".toList (dumpsMembers py (m :: members)) ++ '}' :: rest))) (n := fuel) (by omega)
    have hread := scanMembers_dumps (m :: members) hne h.2 (dictSet k j acc) rest (n := fuel) (by omega)
    obtain ⟨t, ht⟩ := members_quote py hne
    rw [htext, scanMembers_value ((opens_dumps h.1).append _) hvalue]
    change scanMembers py fuel _ (skipSpace (' ' :: _)) = _
    rw [ht] at hread ⊢
    rw [skipSpace_blank, List.cons_append, (opens_quote _).skipSpace, ← List.cons_append, hread]
    rfl

end

/-- A tree is read from its text, whatever blanks stand in front. -/
theorem loads_dumps {j : Json} (h : j.Proper py) : loads py (dumps py j) = some j := by
  have hread := scanValue_dumps j h endsNumber_nil (n := (dumps py j).length + 1) (Nat.lt_succ_self _)
  rw [List.append_nil] at hread
  rw [loads, (opens_dumps h).skipSpace, hread]
  rfl

end LoanAgent
