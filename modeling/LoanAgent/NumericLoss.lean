import LoanAgent.Reconcile
import LoanAgent.Library.Significand

/-! Integers that become floats when they are persisted. A platform rounds an
integer to the nearest one with a significand of 53 bits and fails beyond the
doubles. Proved: the integers of two entities are stored and read back by the
reconciliation as they are, and apart when they differ, exactly when both have
such a significand and lie within the doubles. -/

namespace LoanAgent

open Significand

/-- The platform rounds integers as binary64 does: to a nearest one with a
significand of 53 bits, with infinity from `2 ^ 1024` on. -/
def RoundsIntegers (py : Python) : Prop :=
  ∀ n : ℤ, ∃ r, Nearest 53 n r ∧
    py.round n = if r.natAbs < 2 ^ 1024 then .finite r else .inf (decide (n < 0))

/-- An integer that a float holds. -/
def FloatExact (n : ℤ) : Prop := Representable 53 n ∧ n.natAbs < 2 ^ 1024

/-- The integer of an entity is coerced to a float of its value, stored, and
read back by the reconciliation as the same number. -/
def Preserved (py : Python) (key : Text) (n : ℤ) : Prop :=
  coerceValue py key (.int n) = .ok (.float (.finite n)) ∧
    ∃ stored, jsonb py (.float (.finite n)) = some stored ∧ asNumber py stored = .ok (some (.finite n))

/-- What is stored of the integer of an entity. -/
def storedInt (py : Python) (key : Text) (n : ℤ) : Option FactValue :=
  match coerceValue py key (.int n) with
  | .ok value => jsonb py value
  | .error _ => none

variable {py : Python}

theorem round_eq_iff (h : RoundsIntegers py) {n : ℤ} : py.round n = .finite n ↔ FloatExact n := by
  obtain ⟨r, hr, hround⟩ := h n
  rw [hround]
  constructor
  · intro heq
    split_ifs at heq with hlarge
    have hrn : r = n := by exact_mod_cast PyFloat.finite.inj heq
    exact ⟨hr.eq_iff.mp hrn, hrn ▸ hlarge⟩
  · rintro ⟨hn, hlarge⟩
    rw [hr.eq_iff.mpr hn, if_pos hlarge]

theorem floatOfInt_eq_iff {n k : ℤ} : py.floatOfInt n = some (.finite k) ↔ py.round n = .finite k := by
  unfold Python.floatOfInt
  cases hx : py.round n <;> simp only [Option.some.injEq, PyFloat.finite.injEq, reduceCtorEq]

theorem coerceValue_int_iff (key : Text) (n : ℤ) :
    coerceValue py key (.int n) = .ok (.float (.finite n)) ↔ py.round n = .finite n := by
  rw [← floatOfInt_eq_iff]
  unfold coerceValue
  cases hx : py.floatOfInt n <;> 
    simp only [hx, Except.ok.injEq, FactValue.float.injEq, Option.some.injEq, reduceCtorEq]

/-- A float is stored, and read back as the number it is. -/
theorem stored_asNumber {n : ℤ} (hn : py.round n = .finite n) :
    ∃ stored, jsonb py (.float (.finite n)) = some stored ∧ asNumber py stored = .ok (some (.finite n)) := by
  have hnum : (n : ℚ).num = n := Rat.num_intCast n
  unfold jsonb
  dsimp only
  split_ifs with hlarge
  · -- From `1e16` on the text of a float is that of an integer.
    have hread : py.floatOfInt (py.reprInt (n : ℚ).num) = some (.finite n) :=
      floatOfInt_eq_iff.mpr (hnum.symm ▸ py.round_reprInt n hn)
    refine ⟨_, rfl, ?_⟩
    rw [asNumber, hread]
  · exact ⟨_, rfl, rfl⟩

theorem preserved_iff (h : RoundsIntegers py) (key : Text) (n : ℤ) : Preserved py key n ↔ FloatExact n := by
  rw [← round_eq_iff h, Preserved, coerceValue_int_iff]
  exact ⟨And.left, fun hn => ⟨hn, stored_asNumber hn⟩⟩

theorem storedInt_preserved {key : Text} {n : ℤ} (h : Preserved py key n) :
    ∃ stored, storedInt py key n = some stored ∧ asNumber py stored = .ok (some (.finite n)) := by
  obtain ⟨hcoerce, stored, hstored, hread⟩ := h
  exact ⟨stored, by rw [storedInt, hcoerce]; exact hstored, hread⟩

/-- The integers of two entities are kept exactly, and stored and read back apart
when they differ, exactly when a float holds each of them. -/
theorem preserved_pair_iff (h : RoundsIntegers py) (key : Text) (n m : ℤ) :
    (Preserved py key n ∧ Preserved py key m ∧ (n ≠ m → storedInt py key n ≠ storedInt py key m ∧
      (storedInt py key n).map (asNumber py) ≠ (storedInt py key m).map (asNumber py))) ↔
    FloatExact n ∧ FloatExact m := by
  rw [preserved_iff h, preserved_iff h, ← and_assoc]
  refine and_iff_left_of_imp fun ⟨hn, hm⟩ hne => ?_
  obtain ⟨x, hx, hreadx⟩ := storedInt_preserved ((preserved_iff h key n).mpr hn)
  obtain ⟨y, hy, hready⟩ := storedInt_preserved ((preserved_iff h key m).mpr hm)
  have hread : (storedInt py key n).map (asNumber py) ≠ (storedInt py key m).map (asNumber py) := by
    rw [hx, hy, Option.map_some, Option.map_some, hreadx, hready]
    intro heq
    simp only [Option.some.injEq, Except.ok.injEq, PyFloat.finite.injEq, Int.cast_inj] at heq
    exact hne heq
  exact ⟨fun heq => hread (congrArg (Option.map (asNumber py)) heq), hread⟩

/-! ### A platform that rounds integers -/

/-- Integers are rounded as in binary64; other numbers stay as they are. -/
def binaryRound (q : ℚ) : PyFloat :=
  if q.den = 1 then
    let r := roundInt 53 q.num
    if r.natAbs < 2 ^ 1024 then .finite r else .inf (decide (q.num < 0))
  else asciiPython.round q

theorem binaryRound_intCast (n : ℤ) : binaryRound n =
    if (roundInt 53 n).natAbs < 2 ^ 1024 then .finite (roundInt 53 n) else .inf (decide (n < 0)) := by
  rw [binaryRound, if_pos (Rat.den_intCast n), Rat.num_intCast]

theorem binaryRound_round {q r : ℚ} (h : binaryRound q = .finite r) : binaryRound r = .finite r := by
  by_cases hq : q.den = 1
  · have hint : (q.num : ℚ) = q := Rat.coe_int_num_of_den_eq_one hq
    rw [← hint, binaryRound_intCast] at h
    split_ifs at h with hlarge
    cases h
    rw [binaryRound_intCast, roundInt_roundInt (by decide), if_pos hlarge]
  · have hself : asciiPython.round q = .finite r := by rwa [binaryRound, if_neg hq] at h
    have hqr : q = r := by
      have hround : asciiPython.round q = if |q| < 2 ^ 1024 then .finite q else .inf (decide (q < 0)) := rfl
      rw [hround] at hself
      split_ifs at hself
      exact PyFloat.finite.inj hself
    exact hqr ▸ h

def binaryPython : Python := { asciiPython with
  round := binaryRound
  round_round := fun _ _ => binaryRound_round
  round_reprInt := fun _ h => h }

theorem roundsIntegers_binaryPython : RoundsIntegers binaryPython := by
  intro n
  refine ⟨roundInt 53 n, roundInt_nearest (by decide) n, ?_⟩
  have hround : binaryPython.round = binaryRound := rfl
  rw [hround, binaryRound_intCast]

theorem governmentId_not_preserved : ¬ ∀ py, RoundsIntegers py → ∀ key ∈ knownFactKeys, ∀ n, Preserved py key n := by
  intro h
  have hrounded : coerceValue binaryPython "government_id".toList (.int 9007199254740993) =
      .ok (.float (.finite 9007199254740992)) := by decide +kernel
  obtain ⟨hexact, -⟩ := h binaryPython roundsIntegers_binaryPython "government_id".toList (by decide +kernel)
    9007199254740993
  rw [hrounded] at hexact
  revert hexact
  decide +kernel

theorem preserved_pair_iff_governmentId :
    (Preserved binaryPython "government_id".toList 123456789 ∧
      Preserved binaryPython "government_id".toList 987654321 ∧
      ((123456789 : ℤ) ≠ 987654321 →
        storedInt binaryPython "government_id".toList 123456789 ≠
          storedInt binaryPython "government_id".toList 987654321 ∧
        (storedInt binaryPython "government_id".toList 123456789).map (asNumber binaryPython) ≠
          (storedInt binaryPython "government_id".toList 987654321).map (asNumber binaryPython))) ↔
    FloatExact 123456789 ∧ FloatExact 987654321 :=
  preserved_pair_iff roundsIntegers_binaryPython "government_id".toList 123456789 987654321

end LoanAgent
