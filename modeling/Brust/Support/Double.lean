import Mathlib.Data.Int.Log
import Mathlib.Data.Rat.Floor
import Mathlib.Algebra.Order.Field.Power
import Mathlib.Tactic.Positivity
import Mathlib.Tactic.NormNum

/-!
# Support — doubles

Rounding a decimal to the nearest double, ties to the even one, by the exponent of its leading bit.
A value that is a double's own is not rounded (`value_round`).
-/

namespace Brust

/-- A double; a finite one by its sign and its magnitude. -/
inductive Double
  | nan
  | inf (neg : Bool)
  | fin (neg : Bool) (mag : ℚ)
deriving DecidableEq

namespace Double

/-- The magnitude is one of a double: 53 bits at an exponent. -/
def Representable (q : ℚ) : Prop :=
  ∃ (m : ℕ) (e : ℤ), m < 2 ^ 53 ∧ -1074 ≤ e ∧ e ≤ 971 ∧ q = m * (2 : ℚ) ^ e

/-- To the nearest integer, and between two to the even one. -/
def roundEven (x : ℚ) : ℤ :=
  let f := ⌊x⌋
  if x - f < 1 / 2 then f
  else if 1 / 2 < x - f then f + 1
  else if f % 2 = 0 then f else f + 1

/-- The exponent of the last bit of the double next to a magnitude. -/
def ulp (q : ℚ) : ℤ := max (-1074) (Int.log 2 q - 52)

/-- The double next to a number of this sign and magnitude. -/
def round (neg : Bool) (q : ℚ) : Double :=
  let r := roundEven (q / (2 : ℚ) ^ ulp q) * (2 : ℚ) ^ ulp q
  if r < 2 ^ 1024 then .fin neg r else .inf neg

def value : Double → Option ℚ
  | .fin neg mag => some (if neg then -mag else mag)
  | _ => none

theorem round_ne_nan (neg : Bool) (q : ℚ) : round neg q ≠ .nan := by
  unfold round
  dsimp only
  split
  · rintro ⟨⟩
  · rintro ⟨⟩

theorem roundEven_intCast (n : ℤ) : roundEven n = n := by
  simp [roundEven]

/-- A double's magnitude is a whole number of units in its last place. -/
theorem Representable.units {q : ℚ} (h : Representable q) :
    ∃ n : ℤ, q / (2 : ℚ) ^ ulp q = n := by
  obtain ⟨m, e, hm, hlow, -, rfl⟩ := h
  rcases Nat.eq_zero_or_pos m with rfl | hpos
  · exact ⟨0, by simp⟩
  have hq : (0 : ℚ) < m * (2 : ℚ) ^ e := by positivity
  have hle : ulp (m * (2 : ℚ) ^ e) ≤ e := by
    refine max_le hlow ?_
    -- the leading bit is at most 52 places above the last
    have hlog := Int.zpow_log_le_self (b := 2) (by decide) hq
    have hlt : (m : ℚ) * (2 : ℚ) ^ e < (2 : ℚ) ^ (53 + e) := by
      rw [zpow_add₀ (by norm_num)]
      have hm' : (m : ℚ) < (2 : ℚ) ^ (53 : ℤ) := by exact_mod_cast hm
      exact mul_lt_mul_of_pos_right hm' (by positivity)
    have hexp := (zpow_lt_zpow_iff_right₀ (by norm_num : (1 : ℚ) < 2)).mp
      (lt_of_le_of_lt (by exact_mod_cast hlog) hlt)
    omega
  obtain ⟨k, hk⟩ := Int.eq_ofNat_of_zero_le (sub_nonneg.mpr hle)
  refine ⟨m * 2 ^ k, ?_⟩
  rw [mul_div_assoc, ← zpow_sub₀ (by norm_num), hk, zpow_natCast]
  push_cast
  rfl

theorem representable_of_lt {n : ℕ} (h : n < 2 ^ 53) : Representable n :=
  ⟨n, 0, h, by decide, by decide, by rw [zpow_zero, mul_one]⟩

theorem Representable.lt {q : ℚ} (h : Representable q) : q < 2 ^ 1024 := by
  obtain ⟨m, e, hm, -, hhigh, rfl⟩ := h
  have hm' : (m : ℚ) < (2 : ℚ) ^ (53 : ℤ) := by exact_mod_cast hm
  calc (m : ℚ) * (2 : ℚ) ^ e < (2 : ℚ) ^ (53 : ℤ) * (2 : ℚ) ^ e :=
        mul_lt_mul_of_pos_right hm' (by positivity)
    _ = (2 : ℚ) ^ (53 + e) := (zpow_add₀ (by norm_num) _ _).symm
    _ ≤ (2 : ℚ) ^ ((1024 : ℕ) : ℤ) := zpow_le_zpow_right₀ (by norm_num) (by push_cast; omega)
    _ = 2 ^ 1024 := zpow_natCast _ _

/-- **A value that a double has is not rounded.** -/
theorem round_eq {q : ℚ} (h : Representable q) (neg : Bool) : round neg q = .fin neg q := by
  obtain ⟨n, hn⟩ := h.units
  have hunit : (2 : ℚ) ^ ulp q ≠ 0 := by positivity
  have hr : (roundEven (q / (2 : ℚ) ^ ulp q) : ℚ) * (2 : ℚ) ^ ulp q = q := by
    rw [hn, roundEven_intCast, ← hn, div_mul_cancel₀ _ hunit]
  unfold round
  dsimp only
  rw [hr, if_pos h.lt]

end Double

end Brust
