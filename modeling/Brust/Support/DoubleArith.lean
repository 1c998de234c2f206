import Brust.Support.Double
import Mathlib.Order.WithBot

/-!
# Support — arithmetic of doubles

The operations of IEEE arithmetic, each the exact one and a rounding, with the signs of zeros and
the cases of infinities, and the order of doubles.  No operation leaves a magnitude below zero
(`Nonneg`), and a whole number is the double of its integer, but for negative zero
(`ofInt_whole_iff`).
-/

namespace Brust

section
variable {α : Type} [LinearOrder α]

/-- `cmp` -/
def order (x y : α) : Ordering := compare x y

def less (x y : α) : Bool := decide (x < y)

theorem order_eq_lt (x y : α) : (order x y == .lt) = less x y := by
  rw [Bool.eq_iff_iff, beq_iff_eq, less, decide_eq_true_iff]
  exact compare_lt_iff_lt

theorem order_eq_gt (x y : α) : (order x y == .gt) = less y x := by
  rw [Bool.eq_iff_iff, beq_iff_eq, less, decide_eq_true_iff]
  exact compare_gt_iff_gt

theorem order_eq_eq {x y : α} : order x y = .eq ↔ x = y := compare_eq_iff_eq

end

namespace Double

/-- The double that is meant: one that a double's magnitude is given with is itself. -/
def f64 : Double → Double
  | .fin a p => round a |p|
  | d => d

/-! ### Operations -/

def signed (neg : Bool) (q : ℚ) : ℚ := if neg then -q else q

def negZero : Double := .fin true 0

/-- The double next to a number other than zero. -/
def next (q : ℚ) : Double := round (decide (q < 0)) |q|

def ofInt (i : ℤ) : Double := round (decide (i < 0)) |(i : ℚ)|

def neg : Double → Double
  | .nan => .nan
  | .inf a => .inf !a
  | .fin a p => .fin (!a) p

def add : Double → Double → Double
  | .nan, _ | _, .nan => .nan
  | .inf a, .inf b => if a = b then .inf a else .nan
  | .inf a, .fin _ _ => .inf a
  | .fin _ _, .inf b => .inf b
  | .fin a p, .fin b q =>
    if signed a p + signed b q = 0 then .fin (a && b) 0 else next (signed a p + signed b q)

def sub (x y : Double) : Double := add x (neg y)

def mul : Double → Double → Double
  | .nan, _ | _, .nan => .nan
  | .inf a, .inf b => .inf (a ^^ b)
  | .inf a, .fin b q | .fin b q, .inf a => if q = 0 then .nan else .inf (a ^^ b)
  | .fin a p, .fin b q => round (a ^^ b) (p * q)

def div : Double → Double → Double
  | .nan, _ | _, .nan => .nan
  | .inf _, .inf _ => .nan
  | .inf a, .fin b _ => .inf (a ^^ b)
  | .fin a _, .inf b => .fin (a ^^ b) 0
  | .fin a p, .fin b q =>
    if q = 0 then if p = 0 then .nan else .inf (a ^^ b) else round (a ^^ b) (p / q)

/-- The remainder of a quotient cut off at its whole part, with the sign of the dividend. -/
def rem : Double → Double → Double
  | .nan, _ | _, .nan | .inf _, _ => .nan
  | .fin a p, .inf _ => .fin a p
  | .fin a p, .fin _ q => if q = 0 then .nan else .fin a (p - q * ⌊p / q⌋)

/-- The place of a double in their order. -/
def key : Double → Option (WithBot (WithTop ℚ))
  | .nan => none
  | .inf true => some ⊥
  | .inf false => some ((⊤ : WithTop ℚ) : WithBot (WithTop ℚ))
  | .fin a p => some ((signed a p : WithTop ℚ) : WithBot (WithTop ℚ))

/-- `partial_cmp` -/
def cmp (x y : Double) : Option Ordering := do some (order (← x.key) (← y.key))

def isNaN (x : Double) : Bool := x == .nan

def isZero : Double → Bool
  | .fin _ p => p == 0
  | _ => false

/-! ### Magnitudes -/

def Nonneg : Double → Prop
  | .fin _ p => 0 ≤ p
  | _ => True

theorem nonneg_roundEven {x : ℚ} (h : 0 ≤ x) : 0 ≤ roundEven x := by
  have hfloor : 0 ≤ ⌊x⌋ := Int.floor_nonneg.mpr h
  unfold roundEven
  dsimp only
  split
  · exact hfloor
  · split
    · omega
    · split
      · exact hfloor
      · omega

theorem nonneg_round (a : Bool) {q : ℚ} (h : 0 ≤ q) : (round a q).Nonneg := by
  unfold round
  dsimp only
  split
  · have hunit : (0 : ℚ) < (2 : ℚ) ^ ulp q := by positivity
    have hround := nonneg_roundEven (div_nonneg h hunit.le)
    exact mul_nonneg (by exact_mod_cast hround) hunit.le
  · trivial

theorem nonneg_next (q : ℚ) : (next q).Nonneg := nonneg_round _ (abs_nonneg q)

theorem nonneg_ofInt (i : ℤ) : (ofInt i).Nonneg := nonneg_round _ (abs_nonneg _)

theorem nonneg_neg {x : Double} (h : x.Nonneg) : x.neg.Nonneg := by
  cases x with
  | nan | inf => trivial
  | fin a p => exact h

theorem nonneg_add (x y : Double) : (add x y).Nonneg := by
  unfold add
  split
  · trivial
  · trivial
  · split <;> trivial
  · trivial
  · trivial
  · split
    · exact le_refl (0 : ℚ)
    · exact nonneg_next _

theorem nonneg_mul {x y : Double} (hx : x.Nonneg) (hy : y.Nonneg) : (mul x y).Nonneg := by
  unfold mul
  split
  · trivial
  · trivial
  · trivial
  · split <;> trivial
  · split <;> trivial
  · exact nonneg_round _ (Rat.mul_nonneg hx hy)

theorem nonneg_div {x y : Double} (hx : x.Nonneg) (hy : y.Nonneg) : (div x y).Nonneg := by
  unfold div
  split
  · trivial
  · trivial
  · trivial
  · trivial
  · exact le_refl (0 : ℚ)
  · split
    · split <;> trivial
    · exact nonneg_round _ (div_nonneg hx hy)

theorem nonneg_rem {x y : Double} (hx : x.Nonneg) (hy : y.Nonneg) : (rem x y).Nonneg := by
  unfold rem
  split
  · trivial
  · trivial
  · trivial
  · exact hx
  · split
    · trivial
    · next a p b q hq =>
      have hpos : 0 < q := lt_of_le_of_ne hy (Ne.symm hq)
      have hfloor := mul_le_mul_of_nonneg_left (Int.floor_le (p / q)) hpos.le
      rw [mul_div_cancel₀ _ hq] at hfloor
      exact sub_nonneg.mpr hfloor

/-! ### Whole numbers -/

/-- A whole number below `9e15`, as an integer. -/
def whole : Double → Option ℤ
  | .fin a p => if p.den = 1 ∧ p < 9000000000000000 then some (signed a p).num else none
  | _ => none

/-- **The double of a whole number's integer is the number**, but for negative zero. -/
theorem ofInt_whole_iff {x : Double} (hx : x.Nonneg) {i : ℤ} (hi : x.whole = some i) :
    ofInt i = x ↔ x ≠ negZero := by
  cases x with
  | nan => cases hi
  | inf a => cases hi
  | fin a p =>
      rw [whole] at hi
      split at hi
      · next hp =>
        have hp0 : 0 ≤ p := hx
        have hnum : (p.num : ℚ) = p := Rat.coe_int_num_of_den_eq_one hp.1
        obtain ⟨n, hn⟩ := Int.eq_ofNat_of_zero_le (Rat.num_nonneg.mpr hp0)
        have hpn : p = (n : ℚ) := by
          rw [← hnum, hn]
          rfl
        have hlt : n < 2 ^ 53 := by
          have hbound : (n : ℚ) < 9000000000000000 := hpn ▸ hp.2
          have hbound : n < 9000000000000000 := by exact_mod_cast hbound
          omega
        have hrep : Representable (n : ℚ) := ⟨n, 0, hlt, by decide, by decide, by simp⟩
        have hi := Option.some.inj hi
        cases a with
        | false =>
            have hin : i = (n : ℤ) := by
              rw [← hi, signed, if_neg Bool.false_ne_true, hn]
            have hof : ofInt i = .fin false p := by
              rw [ofInt, hin, hpn, Int.cast_natCast, Nat.abs_cast,
                decide_eq_false (Int.natCast_nonneg n).not_gt]
              exact round_eq hrep false
            exact ⟨fun _ h => (by cases h), fun _ => hof⟩
        | true =>
            have hin : i = -(n : ℤ) := by
              rw [← hi, signed, if_pos rfl, Rat.neg_num, hn]
            have hof : ofInt i = .fin (decide (0 < n)) p := by
              rw [ofInt, hin, hpn, Int.cast_neg, Int.cast_natCast, abs_neg, Nat.abs_cast]
              have hsign : decide (-(n : ℤ) < 0) = decide (0 < n) := by
                simp
              rw [hsign]
              exact round_eq hrep _
            rw [hof]
            rcases Nat.eq_zero_or_pos n with rfl | hpos
            · rw [Nat.cast_zero] at hpn
              subst hpn
              simp [negZero]
            · have hne : p ≠ 0 := by
                rw [hpn]
                exact_mod_cast hpos.ne'
              simp [negZero, hpos, hne]
      · cases hi

theorem cmp_comm_eq (x y : Double) : (x.cmp y == some .eq) = (y.cmp x == some .eq) := by
  have hone : ∀ x y : Double, x.cmp y = some .eq → y.cmp x = some .eq := by
    intro x y h
    obtain ⟨k, hk, h⟩ := Option.bind_eq_some_iff.mp h
    obtain ⟨l, hl, h⟩ := Option.bind_eq_some_iff.mp h
    have hkl : k = l := order_eq_eq.mp (Option.some.inj h)
    rw [cmp, hl, hk, hkl]
    exact congrArg some (order_eq_eq.mpr rfl)
  rw [Bool.eq_iff_iff, beq_iff_eq, beq_iff_eq]
  exact ⟨hone x y, hone y x⟩

end Double

end Brust
