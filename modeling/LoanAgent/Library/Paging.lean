import Mathlib.Data.List.Sort
import Mathlib.Data.List.Perm.Basic

/-! Reading sorted rows page by page. Every page comes from a query of its own,
and rows with equal sort keys stand in any order in each query; a reader sees a
view of each row. Proved: whatever the orders are, the pages up to the first
empty one show every row once, exactly when the rows with one key have one view
wherever a boundary between two pages falls among them. -/

namespace Paging

variable {α β γ : Type*} [LinearOrder β] {key : α → β} {view : α → γ}

/-- An order in which a query by a key may return the rows. -/
structure Arrangement (key : α → β) (rows l : List α) : Prop where
  perm : l.Perm rows
  sorted : l.Pairwise fun x y => key x ≤ key y

def page (limit j : ℕ) (l : List α) : List α := (l.drop (j * limit)).take limit

/-- The pages up to the first empty one hold the items, each once. -/
def Lossless (pages : ℕ → List γ) (items : List γ) : Prop :=
  ∃ m, pages m = [] ∧ (∀ i < m, pages i ≠ []) ∧ ((List.range m).flatMap pages).Perm items

/-- The place `p` falls among the rows with key `c`. -/
def Splits (key : α → β) (rows : List α) (c : β) (p : ℕ) : Prop :=
  rows.countP (key · < c) < p ∧ p < rows.countP (key · ≤ c)

/-! ### Pages of one order -/

theorem page_eq_nil_iff {limit j : ℕ} (hlimit : 0 < limit) {l : List α} :
    page limit j l = [] ↔ l.length ≤ j * limit := by
  rw [page, List.take_eq_nil_iff, List.drop_eq_nil_iff]
  omega

theorem flatMap_page (limit m : ℕ) (l : List α) :
    (List.range m).flatMap (fun j => page limit j l) = l.take (m * limit) := by
  induction m with
  | zero => rw [Nat.zero_mul, List.take_zero, List.range_zero, List.flatMap_nil]
  | succ m ih =>
    rw [List.range_succ, List.flatMap_append, ih, Nat.succ_mul, List.take_add, List.flatMap_singleton]
    rfl

/-- The pages of one order end, and they are the rows. -/
theorem lossless_page {limit : ℕ} (hlimit : 0 < limit) (l : List α) :
    ∃ m, l.length ≤ m * limit ∧ (∀ i < m, i * limit < l.length) ∧
      (List.range m).flatMap (fun j => page limit j l) = l := by
  have hend : ∃ m, l.length ≤ m * limit := ⟨l.length, Nat.le_mul_of_pos_right _ hlimit⟩
  refine ⟨Nat.find hend, Nat.find_spec hend, fun i hi => not_le.mp (Nat.find_min hend hi), ?_⟩
  rw [flatMap_page, List.take_of_length_le (Nat.find_spec hend)]

/-! ### What every order has in common -/

section Common
variable {rows l l' : List α}

theorem Arrangement.map_key (h : Arrangement key rows l) (h' : Arrangement key rows l') :
    l.map key = l'.map key :=
  ((h.perm.trans h'.perm.symm).map key).eq_of_pairwise' (List.pairwise_map.mpr h.sorted)
    (List.pairwise_map.mpr h'.sorted)

/-- The rows in front of `z` are the rows with a smaller key and some of the key of `z`. -/
theorem Arrangement.front {front rest : List α} {z : α} (h : Arrangement key rows (front ++ z :: rest)) :
    (front.filter (key · < key z)).Perm (rows.filter (key · < key z)) ∧
      (∀ x ∈ front, ¬ key x < key z → key x = key z) ∧
      rows.countP (key · < key z) + (front.filter fun x => !decide (key x < key z)).length = front.length ∧
      front.length < rows.countP (key · ≤ key z) := by
  obtain ⟨-, hrest, hcross⟩ := List.pairwise_append.mp h.sorted
  have hle : ∀ x ∈ front, key x ≤ key z := fun x hx => hcross x hx z List.mem_cons_self
  have hge : ∀ x ∈ z :: rest, key z ≤ key x := by
    rintro x (_ | ⟨_, hx⟩)
    · exact le_rfl
    · exact (List.pairwise_cons.mp hrest).1 x hx
  have hnone : (z :: rest).filter (key · < key z) = [] :=
    List.filter_eq_nil_iff.mpr fun x hx => by simpa using hge x hx
  have hfilter : (front ++ z :: rest).filter (key · < key z) = front.filter (key · < key z) := by
    rw [List.filter_append, hnone, List.append_nil]
  have hsmaller : (front.filter (key · < key z)).Perm (rows.filter (key · < key z)) :=
    hfilter ▸ h.perm.filter _
  refine ⟨hsmaller, fun x hx hlt => le_antisymm (hle x hx) (not_lt.mp hlt), ?_, ?_⟩
  · rw [List.countP_eq_length_filter, ← hsmaller.length_eq, ← List.length_append]
    exact (List.filter_append_perm _ front).length_eq
  · have hall : front.countP (key · ≤ key z) = front.length :=
      List.countP_eq_length.mpr fun x hx => decide_eq_true (hle x hx)
    rw [← h.perm.countP_eq, List.countP_append, hall, List.countP_cons]
    simp

/-- The views in front of a place that splits no key with two views are those of the
smaller rows and copies of one view. -/
theorem Arrangement.view_front {front rest : List α} {z : α} (h : Arrangement key rows (front ++ z :: rest))
    (hviews : ∀ x ∈ rows, ∀ y ∈ rows, key x = key y → Splits key rows (key x) front.length → view x = view y) :
    (front.map view).Perm ((rows.filter (key · < key z)).map view ++
      List.replicate (front.length - rows.countP (key · < key z)) (view z)) := by
  obtain ⟨hsmaller, hequal, hlength, hbelow⟩ := h.front
  have hmem : ∀ x ∈ front ++ z :: rest, x ∈ rows := fun x hx => h.perm.mem_iff.mp hx
  have hz : z ∈ rows := hmem z (by simp)
  have hcopies : (front.filter fun x => !decide (key x < key z)).map view =
      List.replicate (front.length - rows.countP (key · < key z)) (view z) := by
    refine List.eq_replicate_iff.mpr ⟨by rw [List.length_map]; omega, ?_⟩
    rintro v hv
    obtain ⟨x, hx, rfl⟩ := List.mem_map.mp hv
    have hpos := List.length_pos_of_mem hx
    rw [List.mem_filter, Bool.not_eq_true', decide_eq_false_iff_not] at hx
    have hkey := hequal x hx.1 hx.2
    exact hviews x (hmem x (List.mem_append_left _ hx.1)) z hz hkey (hkey ▸ ⟨by omega, hbelow⟩)
  rw [← hcopies]
  refine ((List.filter_append_perm (fun x => decide (key x < key z)) front).symm.map view).trans ?_
  rw [List.map_append]
  exact (hsmaller.map view).append_right _

/-- In front of such a place every order shows the same views. -/
theorem Arrangement.take_view_perm (h : Arrangement key rows l) (h' : Arrangement key rows l') {p : ℕ}
    (hviews : ∀ x ∈ rows, ∀ y ∈ rows, key x = key y → Splits key rows (key x) p → view x = view y) :
    ((l.take p).map view).Perm ((l'.take p).map view) := by
  have hlength : l.length = l'.length := (h.perm.trans h'.perm.symm).length_eq
  rcases Nat.lt_or_ge p l.length with hp | hp
  swap
  · rw [List.take_of_length_le hp, List.take_of_length_le (hlength ▸ hp)]
    exact (h.perm.trans h'.perm.symm).map view
  have hp' : p < l'.length := hlength ▸ hp
  have hcut : l.take p ++ l[p] :: l.drop (p + 1) = l := by
    rw [← List.drop_eq_getElem_cons, List.take_append_drop]
  have hcut' : l'.take p ++ l'[p] :: l'.drop (p + 1) = l' := by
    rw [← List.drop_eq_getElem_cons, List.take_append_drop]
  have hkey : key l[p] = key l'[p] := by
    have hget : (l.map key)[p]? = (l'.map key)[p]? := by rw [h.map_key h']
    simpa [hp, hp'] using hget
  have hfront := (hcut.symm ▸ h : Arrangement key rows (l.take p ++ l[p] :: l.drop (p + 1)))
  have hfront' := (hcut'.symm ▸ h' : Arrangement key rows (l'.take p ++ l'[p] :: l'.drop (p + 1)))
  have htake : (l.take p).length = p := List.length_take_of_le hp.le
  have htake' : (l'.take p).length = p := List.length_take_of_le hp'.le
  have hbelow := hfront.front.2.2.2
  have hsplit := hviews
  have hsplit' := hviews
  rw [← htake] at hsplit
  rw [← htake'] at hsplit'
  have hperm := hfront.view_front hsplit
  have hperm' := hfront'.view_front hsplit'
  rw [htake] at hperm hbelow
  rw [htake', ← hkey] at hperm'
  refine hperm.trans (.trans (.of_eq ?_) hperm'.symm)
  congr 1
  rcases Nat.eq_zero_or_pos (p - rows.countP (key · < key l[p])) with hzero | hpos
  · rw [hzero, List.replicate_zero, List.replicate_zero]
  · rw [hviews _ (h.perm.mem_iff.mp (List.getElem_mem hp)) _ (h'.perm.mem_iff.mp (List.getElem_mem hp')) hkey
      ⟨by omega, hbelow⟩]

/-- A page between two such places shows the same views in every order. -/
theorem Arrangement.page_view_perm (h : Arrangement key rows l) (h' : Arrangement key rows l') {limit : ℕ}
    (hviews : ∀ x ∈ rows, ∀ y ∈ rows, key x = key y → (∃ j, Splits key rows (key x) (j * limit)) →
      view x = view y) (j : ℕ) : ((page limit j l).map view).Perm ((page limit j l').map view) := by
  have hplace : ∀ j, ((l.take (j * limit)).map view).Perm ((l'.take (j * limit)).map view) := fun j =>
    h.take_view_perm h' fun x hx y hy hkey hsplits => hviews x hx y hy hkey ⟨j, hsplits⟩
  have hsucc := hplace (j + 1)
  rw [Nat.succ_mul, List.take_add, List.take_add, List.map_append, List.map_append] at hsucc
  exact (List.perm_append_left_iff _).mp (hsucc.trans ((hplace j).symm.append_right _))

end Common

/-! ### An order that shows a row twice -/

section Twice
variable {rows : List α}

theorem exists_arrangement (key : α → β) (rows : List α) : ∃ l, Arrangement key rows l :=
  ⟨rows.insertionSort fun x y => key x ≤ key y, List.perm_insertionSort _ rows, List.pairwise_insertionSort _ rows⟩

/-- The smaller rows, those of one key in any order and the greater rows. -/
theorem Arrangement.of_parts {c : β} {smaller equal greater : List α}
    (hsmaller : Arrangement key (rows.filter (key · < c)) smaller) (hequal : equal.Perm (rows.filter (key · = c)))
    (hgreater : Arrangement key (rows.filter (c < key ·)) greater) :
    Arrangement key rows (smaller ++ (equal ++ greater)) := by
  have hlt : ∀ x ∈ smaller, key x < c := fun x hx => by
    simpa using (List.mem_filter.mp (hsmaller.perm.mem_iff.mp hx)).2
  have heq : ∀ x ∈ equal, key x = c := fun x hx => by
    simpa using (List.mem_filter.mp (hequal.mem_iff.mp hx)).2
  have hgt : ∀ x ∈ greater, c < key x := fun x hx => by
    simpa using (List.mem_filter.mp (hgreater.perm.mem_iff.mp hx)).2
  constructor
  · have hnotless := List.filter_append_perm (fun x => decide (key x = c))
      (rows.filter fun x => !decide (key x < c))
    have hmiddle : (rows.filter fun x => !decide (key x < c)).filter (fun x => decide (key x = c)) =
        rows.filter (key · = c) := by
      rw [List.filter_filter]
      refine List.filter_congr fun x _ => ?_
      by_cases hx : key x = c <;> simp [hx]
    have hlast : (rows.filter fun x => !decide (key x < c)).filter (fun x => !decide (key x = c)) =
        rows.filter (c < key ·) := by
      rw [List.filter_filter]
      refine List.filter_congr fun x _ => ?_
      rcases lt_trichotomy (key x) c with hx | hx | hx
      · simp [hx, hx.le]
      · simp [hx]
      · simp [hx, hx.ne', hx.le]
    rw [hmiddle, hlast] at hnotless
    refine (hsmaller.perm.append ((hequal.append hgreater.perm).trans hnotless)).trans ?_
    exact List.filter_append_perm _ rows
  · refine List.pairwise_append.mpr ⟨hsmaller.sorted, List.pairwise_append.mpr ⟨?_, hgreater.sorted, ?_⟩, ?_⟩
    · exact List.pairwise_of_forall_mem_list fun x hx y hy => (heq x hx).trans_le (heq y hy).ge
    · exact fun x hx y hy => (heq x hx).trans_le (hgt y hy).le
    · intro x hx y hy
      rcases List.mem_append.mp hy with hy | hy
      · exact (hlt x hx).le.trans (heq y hy).ge
      · exact ((hlt x hx).trans (hgt y hy)).le

theorem countP_le (key : α → β) (rows : List α) (c : β) :
    rows.countP (key · ≤ c) = rows.countP (key · < c) + rows.countP (key · = c) := by
  induction rows with
  | nil => rfl
  | cons x rows ih =>
    simp only [List.countP_cons, ih]
    rcases lt_trichotomy (key x) c with hx | hx | hx
    · simp only [hx, hx.le, hx.ne, decide_true, decide_false, Bool.false_eq_true, if_true, if_false]
      omega
    · simp only [hx, lt_irrefl, le_refl, decide_true, decide_false, Bool.false_eq_true, if_true, if_false]
      omega
    · simp only [hx.not_ge, hx.not_gt, hx.ne', decide_false, Bool.false_eq_true, if_false]
      omega

/-- Two rows of one key can stand on both sides of a place that splits it. -/
theorem exists_around {x y : α} (hx : x ∈ rows) (hy : y ∈ rows) (hkey : key x = key y) (hne : x ≠ y) {p : ℕ}
    (hsplits : Splits key rows (key x) p) :
    ∃ front rest, front.length + 1 = p ∧ Arrangement key rows (front ++ x :: y :: rest) ∧
      Arrangement key rows (front ++ y :: x :: rest) := by
  obtain ⟨hlow, hhigh⟩ := hsplits
  obtain ⟨smaller, hsmaller⟩ := exists_arrangement key (rows.filter (key · < key x))
  obtain ⟨greater, hgreater⟩ := exists_arrangement key (rows.filter (key x < key ·))
  have hxmem : x ∈ rows.filter (key · = key x) := List.mem_filter.mpr ⟨hx, by simp⟩
  have hymem : y ∈ rows.filter (key · = key x) := List.mem_filter.mpr ⟨hy, by simp [hkey]⟩
  obtain ⟨others, hothers⟩ : ∃ others, (x :: y :: others).Perm (rows.filter (key · = key x)) := by
    obtain ⟨s, t, hst⟩ := List.append_of_mem hxmem
    have hperm : (x :: (s ++ t)).Perm (rows.filter (key · = key x)) := hst ▸ List.perm_middle.symm
    have hyst : y ∈ s ++ t := (List.mem_cons.mp (hperm.mem_iff.mpr hymem)).resolve_left (Ne.symm hne)
    obtain ⟨s', t', hst'⟩ := List.append_of_mem hyst
    exact ⟨s' ++ t', ((List.perm_middle.symm.trans (.of_eq hst'.symm)).cons x).trans hperm⟩
  have hsmallerLength : smaller.length = rows.countP (key · < key x) := by
    rw [hsmaller.perm.length_eq, List.countP_eq_length_filter]
  have hcount : rows.countP (key · ≤ key x) = rows.countP (key · < key x) + (others.length + 2) := by
    have hequal : rows.countP (key · = key x) = others.length + 2 := by
      rw [List.countP_eq_length_filter, ← hothers.length_eq]
      rfl
    rw [← hequal, countP_le]
  set k := p - 1 - smaller.length with hk
  have hcut : others.take k ++ others.drop k = others := List.take_append_drop k others
  have hlength : (others.take k).length = k := List.length_take_of_le (by omega)
  have hmiddle : ∀ a b : α, ((others.take k) ++ a :: b :: others.drop k).Perm (a :: b :: others) := fun a b => by
    refine List.perm_middle.trans (List.Perm.cons a (List.perm_middle.trans ?_))
    rw [hcut]
  have harrange : ∀ a b : α, (a :: b :: others).Perm (rows.filter (key · = key x)) →
      Arrangement key rows (smaller ++ others.take k ++ a :: b :: (others.drop k ++ greater)) := by
    intro a b hab
    have := Arrangement.of_parts hsmaller ((hmiddle a b).trans hab) hgreater
    simpa only [List.append_assoc, List.cons_append] using this
  refine ⟨smaller ++ others.take k, others.drop k ++ greater, ?_, harrange x y hothers,
    harrange y x ((List.Perm.swap x y others).trans hothers)⟩
  rw [List.length_append, hlength]
  omega

/-- Two queries that differ in the rows around a boundary show one of them twice. -/
theorem view_eq_of_lossless {limit : ℕ} (hlimit : 0 < limit)
    (h : ∀ q : ℕ → List α, (∀ j, Arrangement key rows (q j)) →
      Lossless (fun j => (page limit j (q j)).map view) (rows.map view))
    {x y : α} (hx : x ∈ rows) (hy : y ∈ rows) (hkey : key x = key y) {j : ℕ}
    (hsplits : Splits key rows (key x) (j * limit)) : view x = view y := by
  by_contra hview
  obtain ⟨front, rest, hfront, hl, hl'⟩ := exists_around hx hy hkey (fun he => hview (congrArg view he)) hsplits
  set l := front ++ x :: y :: rest with hldef
  set l' := front ++ y :: x :: rest with hldef'
  have hdrop : l.drop (j * limit) = y :: rest := by
    rw [hldef, ← hfront, List.append_cons, List.drop_left' (by rw [List.length_append]; rfl)]
  have hdrop' : l'.drop (j * limit) = x :: rest := by
    rw [hldef', ← hfront, List.append_cons, List.drop_left' (by rw [List.length_append]; rfl)]
  obtain ⟨n, rfl⟩ := Nat.exists_eq_add_one_of_ne_zero hlimit.ne'
  obtain ⟨m, hend, hbefore, hperm⟩ := h (fun i => if i = j then l' else l) fun i => by
    split_ifs
    exacts [hl', hl]
  have hlength : ∀ i, (if i = j then l' else l).length = l.length := by
    intro i
    split_ifs
    · rw [hl'.perm.length_eq, hl.perm.length_eq]
    · rfl
  have hall : (List.range m).flatMap (fun i => page (n + 1) i l) = l := by
    rw [List.map_eq_nil_iff, page_eq_nil_iff n.succ_pos, hlength] at hend
    rw [flatMap_page, List.take_of_length_le hend]
  have hj : j ∈ List.range m := by
    rw [List.mem_range]
    by_contra hm
    have hshort : l.length ≤ j * (n + 1) := by
      rw [List.map_eq_nil_iff, page_eq_nil_iff n.succ_pos, hlength] at hend
      exact hend.trans (Nat.mul_le_mul_right _ (not_lt.mp hm))
    rw [List.drop_of_length_le hshort] at hdrop
    cases hdrop
  obtain ⟨s, t, hst⟩ := List.append_of_mem hj
  have hnodup : (s ++ j :: t).Nodup := hst ▸ List.nodup_range
  have hnot : ∀ i, i ∈ s ∨ i ∈ t → i ≠ j := by
    rintro i hi rfl
    have := (List.nodup_middle.mp hnodup).notMem
    exact this (List.mem_append.mpr hi)
  -- Both families show the same pages but for the page behind the boundary.
  have hsame : ∀ u : List ℕ, (∀ i ∈ u, i ≠ j) →
      u.flatMap (fun i => (page (n + 1) i (if i = j then l' else l)).map view) =
        u.flatMap (fun i => (page (n + 1) i l).map view) := fun u hu =>
    List.flatMap_congr fun i hi => by rw [if_neg (hu i hi)]
  have htwice := hperm.trans ((hl.perm.map view).symm.trans (.of_eq (congrArg (List.map view) hall.symm)))
  rw [List.map_flatMap, hst, List.flatMap_append, List.flatMap_append, List.flatMap_cons, List.flatMap_cons,
    hsame s fun i hi => hnot i (.inl hi), hsame t fun i hi => hnot i (.inr hi), if_pos rfl, page, hdrop', page,
    hdrop, List.take_succ_cons, List.take_succ_cons, List.map_cons, List.map_cons, List.perm_append_left_iff,
    List.perm_append_right_iff] at htwice
  have hone : ([view x] ++ (rest.take n).map view).Perm ([view y] ++ (rest.take n).map view) := htwice
  exact hview (List.singleton_perm_singleton.mp ((List.perm_append_right_iff _).mp hone))

end Twice

/-- Pages are lossless in every family of orders exactly when no boundary
between pages falls among the rows of a key that have different views. -/
theorem lossless_iff {limit : ℕ} (hlimit : 0 < limit) (key : α → β) (view : α → γ) (rows : List α) :
    (∀ q : ℕ → List α, (∀ j, Arrangement key rows (q j)) →
      Lossless (fun j => (page limit j (q j)).map view) (rows.map view)) ↔
    ∀ x ∈ rows, ∀ y ∈ rows, key x = key y → (∃ j, Splits key rows (key x) (j * limit)) → view x = view y := by
  refine ⟨fun h x hx y hy hkey ⟨j, hsplits⟩ => view_eq_of_lossless hlimit h hx hy hkey hsplits,
    fun hviews q hq => ?_⟩
  obtain ⟨m, hend, hbefore, hall⟩ := lossless_page hlimit (q 0)
  have hlength : ∀ j, (q j).length = (q 0).length := fun j => by
    rw [(hq j).perm.length_eq, (hq 0).perm.length_eq]
  refine ⟨m, ?_, fun i hi => ?_, ?_⟩
  · rw [List.map_eq_nil_iff, page_eq_nil_iff hlimit, hlength]
    exact hend
  · rw [ne_eq, List.map_eq_nil_iff, page_eq_nil_iff hlimit, hlength, not_le]
    exact hbefore i hi
  · have hpages := List.Perm.flatMap_left (List.range m) fun j _ =>
      (hq j).page_view_perm (hq 0) hviews j
    refine hpages.trans ?_
    rw [← List.map_flatMap, hall]
    exact (hq 0).perm.map view

end Paging
