import Mathlib.Algebra.Order.Group.Unbundled.Int
import Mathlib.Algebra.Order.Ring.Int
import Mathlib.Data.Nat.Log
import Mathlib.Tactic.Linarith
import Mathlib.Tactic.Ring

/-! Rounding integers to a significand of a fixed number of bits, ties to even.
The exponent has no bound; a format with a largest number compares the result
with it. Proved: no number with such a significand is nearer than the result,
hence the numbers that round to themselves are exactly those that have one. -/

namespace Significand

/-- An integer with a significand of `p` bits. -/
def Representable (p : ℕ) (n : ℤ) : Prop := ∃ (m : ℤ) (e : ℕ), m.natAbs < 2 ^ p ∧ n = m * 2 ^ e

/-- No number with a significand of `p` bits is nearer to `n` than `r` is. -/
structure Nearest (p : ℕ) (n r : ℤ) : Prop where
  representable : Representable p r
  le : ∀ x, Representable p x → (n - r).natAbs ≤ (n - x).natAbs

/-- The unit in the last of the `p` leading bits. -/
def unit (p a : ℕ) : ℕ := 2 ^ (a.log2 + 1 - p)

/-- Rounding to a multiple of the unit, ties to even. -/
def roundNat (p a : ℕ) : ℕ :=
  let q := a / unit p a
  let r := a % unit p a
  if 2 * r < unit p a ∨ 2 * r = unit p a ∧ q % 2 = 0 then q * unit p a else (q + 1) * unit p a

def roundInt (p : ℕ) (n : ℤ) : ℤ := n.sign * roundNat p n.natAbs

variable {p : ℕ}

theorem Representable.neg {n : ℤ} (h : Representable p n) : Representable p (-n) := by
  obtain ⟨m, e, hm, rfl⟩ := h
  exact ⟨-m, e, by rwa [Int.natAbs_neg], (neg_mul _ _).symm⟩

theorem representable_zero (p : ℕ) : Representable p 0 := ⟨0, 0, Nat.two_pow_pos p, rfl⟩

theorem representable_mul (hp : 0 < p) {m : ℕ} (hm : m ≤ 2 ^ p) (s : ℕ) : Representable p ((m * 2 ^ s : ℕ) : ℤ) := by
  rcases Nat.lt_or_eq_of_le hm with hlt | rfl
  · exact ⟨m, s, hlt, by push_cast; ring⟩
  · exact ⟨1, p + s, Nat.one_lt_two_pow hp.ne', by push_cast; ring⟩

theorem Nearest.neg {n r : ℤ} (h : Nearest p n r) : Nearest p (-n) (-r) := by
  refine ⟨h.representable.neg, fun x hx => ?_⟩
  have := h.le (-x) hx.neg
  omega

/-- A number that is representable is the nearest to itself, and the only one. -/
theorem Nearest.eq_iff {n r : ℤ} (h : Nearest p n r) : r = n ↔ Representable p n := by
  constructor
  · rintro rfl
    exact h.representable
  · intro hn
    have := h.le n hn
    omega

/-- No representable number lies between two multiples of the unit. -/
theorem not_between {q s : ℕ} (hp : 0 < p) (hq : 2 ^ (p - 1) ≤ q) {x : ℤ} (hx : Representable p x) :
    x ≤ (q * 2 ^ s : ℕ) ∨ ((q + 1) * 2 ^ s : ℕ) ≤ x := by
  obtain ⟨m, e, hm, rfl⟩ := hx
  by_contra hcon
  push Not at hcon
  obtain ⟨hlow, hhigh⟩ := hcon
  push_cast at hlow hhigh
  rcases Nat.lt_or_ge e s with hse | hse
  swap
  · -- A multiple of the unit.
    obtain ⟨d, rfl⟩ := Nat.exists_eq_add_of_le hse
    have hpow : (0 : ℤ) < 2 ^ s := by positivity
    have hmul : m * 2 ^ (s + d) = m * 2 ^ d * 2 ^ s := by ring
    rw [hmul] at hlow hhigh
    have h1 := lt_of_mul_lt_mul_right hlow hpow.le
    have h2 := lt_of_mul_lt_mul_right hhigh hpow.le
    omega
  · -- A number below the multiples whose quotient has all its bits.
    obtain ⟨d, rfl⟩ := Nat.exists_eq_add_of_lt hse
    have hpos : (0 : ℤ) < 2 ^ e := by positivity
    have hm' : m < 2 ^ p := by
      have : (m.natAbs : ℤ) < 2 ^ p := by exact_mod_cast hm
      omega
    have hq' : (2 : ℤ) ^ (p - 1) ≤ q := by exact_mod_cast hq
    have htwo : (2 : ℤ) ^ p = 2 ^ (p - 1) * 2 := by rw [← pow_succ, Nat.sub_add_cancel hp]
    have hd : (1 : ℤ) ≤ 2 ^ d := one_le_pow₀ (by decide)
    have hbig : m * 2 ^ e < q * 2 ^ (e + d + 1) := calc
      m * 2 ^ e < 2 ^ p * 2 ^ e := mul_lt_mul_of_pos_right hm' hpos
      _ = 2 ^ (p - 1) * (2 ^ (e + 1) * 1) := by rw [htwo]; ring
      _ ≤ q * (2 ^ (e + 1) * 2 ^ d) :=
        mul_le_mul hq' (mul_le_mul_of_nonneg_left hd (by positivity)) (by positivity) (by omega)
      _ = q * 2 ^ (e + d + 1) := by ring
    omega

/-- The quotient by the unit has all its bits, or the unit is one. -/
theorem unit_cases (hp : 0 < p) (a : ℕ) :
    (unit p a = 1 ∧ a < 2 ^ p) ∨ 2 ^ (p - 1) ≤ a / unit p a ∧ a / unit p a < 2 ^ p := by
  have hlt : a < 2 ^ (a.log2 + 1) := Nat.lt_log2_self
  unfold unit
  rcases Nat.le_total (a.log2 + 1) p with h | h
  · rw [Nat.sub_eq_zero_of_le h, pow_zero]
    exact .inl ⟨rfl, hlt.trans_le (Nat.pow_le_pow_right (by decide) h)⟩
  rcases Nat.eq_zero_or_pos a with rfl | ha
  · rw [Nat.log2_zero, Nat.sub_eq_zero_of_le (by omega), pow_zero]
    exact .inl ⟨rfl, Nat.two_pow_pos p⟩
  · refine .inr ⟨?_, ?_⟩
    · rw [Nat.le_div_iff_mul_le (Nat.two_pow_pos _), ← pow_add]
      have hexp : p - 1 + (a.log2 + 1 - p) = a.log2 := by omega
      rw [hexp]
      exact Nat.log2_self_le ha.ne'
    · rw [Nat.div_lt_iff_lt_mul (Nat.two_pow_pos _), ← pow_add, Nat.add_sub_cancel' h]
      exact hlt

theorem roundNat_nearest (hp : 0 < p) (a : ℕ) : Nearest p a (roundNat p a) := by
  have hdiv := Nat.div_add_mod' a (unit p a)
  have hmod : a % unit p a < unit p a := Nat.mod_lt _ (Nat.two_pow_pos _)
  rcases unit_cases hp a with ⟨hone, ha⟩ | ⟨hlow, hhigh⟩
  · have hround : roundNat p a = a := by
      simp [roundNat, hone, Nat.mod_one]
    rw [hround]
    exact ⟨⟨a, 0, by simpa using ha, by simp⟩, fun x _ => by omega⟩
  · have hsucc : (a / unit p a + 1) * unit p a = a / unit p a * unit p a + unit p a := Nat.succ_mul _ _
    have hbetween : ∀ x, Representable p x → x ≤ (a / unit p a * unit p a : ℕ) ∨
        (a / unit p a * unit p a + unit p a : ℕ) ≤ x := fun x hx => hsucc ▸ not_between hp hlow hx
    unfold roundNat
    dsimp only
    split_ifs with hdown
    · refine ⟨representable_mul hp hhigh.le _, fun x hx => ?_⟩
      have := hbetween x hx
      omega
    · refine ⟨representable_mul hp hhigh _, fun x hx => ?_⟩
      have := hbetween x hx
      rw [hsucc]
      omega

theorem roundInt_nearest (hp : 0 < p) (n : ℤ) : Nearest p n (roundInt p n) := by
  rcases lt_trichotomy n 0 with h | rfl | h
  · have := (roundNat_nearest hp n.natAbs).neg
    rw [roundInt, Int.sign_eq_neg_one_of_neg h, neg_one_mul]
    rwa [Int.ofNat_natAbs_of_nonpos h.le, neg_neg] at this
  · have hzero : roundInt p 0 = 0 := by rw [roundInt, Int.sign_zero, zero_mul]
    rw [hzero]
    exact ⟨representable_zero p, fun x _ => by omega⟩
  · have := roundNat_nearest hp n.natAbs
    rw [roundInt, Int.sign_eq_one_of_pos h, one_mul]
    rwa [Int.natAbs_of_nonneg h.le] at this

theorem roundInt_roundInt (hp : 0 < p) (n : ℤ) : roundInt p (roundInt p n) = roundInt p n :=
  (roundInt_nearest hp _).eq_iff.mpr (roundInt_nearest hp n).representable

end Significand
