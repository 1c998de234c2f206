import Brust.Support.Decimal
import Brust.Support.Double

/-!
# Support — the shortest decimal of a double

The double next to a number does not fall as the number grows (`nearest_mono`), so a shortest
decimal of a double has its point where the double lies among the powers of ten
(`Shortest.lt_exp_iff`); of an integer below `10 ^ 15` it has the integer's own digits
(`Shortest.toDigits_eq`).  Every double above zero has one (`exists_shortest`).
-/

namespace Brust

namespace Double

/-! ### Rounding and order -/

/-- The magnitude of the double next to a number, were there no largest one. -/
def nearest (q : ℚ) : ℚ := roundEven (q / (2 : ℚ) ^ ulp q) * (2 : ℚ) ^ ulp q

theorem round_eq_ite (neg : Bool) (q : ℚ) :
    round neg q = if nearest q < 2 ^ 1024 then .fin neg (nearest q) else .inf neg := rfl

theorem Representable.nearest_eq {q : ℚ} (h : Representable q) : nearest q = q := by
  obtain ⟨n, hn⟩ := h.units
  rw [nearest, hn, roundEven_intCast, ← hn, div_mul_cancel₀ _ (by positivity)]

theorem floor_le_roundEven (x : ℚ) : ⌊x⌋ ≤ roundEven x := by
  unfold roundEven
  dsimp only
  split_ifs <;> omega

theorem roundEven_le (x : ℚ) : roundEven x ≤ ⌊x⌋ + 1 := by
  unfold roundEven
  dsimp only
  split_ifs <;> omega

theorem roundEven_mono {x y : ℚ} (h : x ≤ y) : roundEven x ≤ roundEven y := by
  rcases (Int.floor_mono h).lt_or_eq with hlt | heq
  · have := roundEven_le x
    have := floor_le_roundEven y
    omega
  · unfold roundEven
    dsimp only
    rw [heq]
    split_ifs <;> first | omega | linarith

theorem roundEven_le_of_le {x : ℚ} {n : ℤ} (h : x ≤ n) : roundEven x ≤ n :=
  (roundEven_mono h).trans_eq (roundEven_intCast n)

theorem le_roundEven_of_le {x : ℚ} {n : ℤ} (h : n ≤ x) : n ≤ roundEven x :=
  (roundEven_intCast n).symm.trans_le (roundEven_mono h)

theorem lt_zpow_ulp {q : ℚ} : q < (2 : ℚ) ^ (ulp q + 53) := by
  have hlog := Int.lt_zpow_succ_log_self (b := 2) (by decide) q
  refine lt_of_lt_of_le (by exact_mod_cast hlog) (zpow_le_zpow_right₀ (by norm_num) ?_)
  have : Int.log 2 q - 52 ≤ ulp q := le_max_right _ _
  omega

theorem roundEven_div_ulp_le (q : ℚ) : roundEven (q / (2 : ℚ) ^ ulp q) ≤ 2 ^ 53 := by
  refine roundEven_le_of_le ((div_le_iff₀ (by positivity)).mpr (lt_zpow_ulp.le.trans_eq ?_))
  rw [add_comm, zpow_add₀ (by norm_num)]
  push_cast
  rfl

theorem le_roundEven_div_ulp {q : ℚ} (h : 0 < q) (hulp : -1074 < ulp q) :
    2 ^ 52 ≤ roundEven (q / (2 : ℚ) ^ ulp q) := by
  have hlog := Int.zpow_log_le_self (b := 2) (by decide) h
  have hexp : Int.log 2 q = 52 + ulp q := by
    rw [ulp] at hulp ⊢
    omega
  rw [hexp, Nat.cast_ofNat, zpow_add₀ (by norm_num)] at hlog
  refine le_roundEven_of_le ((le_div_iff₀ (by positivity)).mpr ?_)
  push_cast
  exact_mod_cast hlog

/-- **Rounding keeps the order.** -/
theorem nearest_mono {q r : ℚ} (h : 0 < q) (hle : q ≤ r) : nearest q ≤ nearest r := by
  have hulp : ulp q ≤ ulp r := max_le_max_left _ (Int.sub_le_sub_right (Int.log_mono_right h hle) _)
  rcases hulp.lt_or_eq with hlt | heq
  · -- `q` is at most the last power of two below its units' successor, `r` at least the next one
    have hq : (roundEven (q / (2 : ℚ) ^ ulp q) : ℚ) ≤ (2 : ℚ) ^ (53 : ℤ) := by
      exact_mod_cast roundEven_div_ulp_le q
    have hr : (2 : ℚ) ^ (52 : ℤ) ≤ roundEven (r / (2 : ℚ) ^ ulp r) := by
      exact_mod_cast le_roundEven_div_ulp (h.trans_le hle)
        (lt_of_le_of_lt (le_max_left _ _) hlt)
    calc nearest q ≤ (2 : ℚ) ^ (53 : ℤ) * (2 : ℚ) ^ ulp q :=
          mul_le_mul_of_nonneg_right hq (by positivity)
      _ = (2 : ℚ) ^ (53 + ulp q) := (zpow_add₀ (by norm_num) _ _).symm
      _ ≤ (2 : ℚ) ^ (52 + ulp r) := zpow_le_zpow_right₀ (by norm_num) (by omega)
      _ = (2 : ℚ) ^ (52 : ℤ) * (2 : ℚ) ^ ulp r := zpow_add₀ (by norm_num) _ _
      _ ≤ nearest r := mul_le_mul_of_nonneg_right hr (by positivity)
  · rw [nearest, nearest, heq]
    have hround := roundEven_mono (div_le_div_of_nonneg_right hle
      (show (0 : ℚ) ≤ (2 : ℚ) ^ ulp r by positivity))
    exact mul_le_mul_of_nonneg_right (by exact_mod_cast hround) (by positivity)

theorem nearest_zpow {j : ℤ} (hj : -1022 ≤ j) : nearest ((2 : ℚ) ^ j) = (2 : ℚ) ^ j := by
  have hulp : ulp ((2 : ℚ) ^ j) = j - 52 := by
    have hlog : Int.log 2 ((2 : ℚ) ^ j) = j := by
      exact_mod_cast Int.log_zpow (R := ℚ) (b := 2) (by decide) j
    rw [ulp, hlog]
    omega
  have hunits : (2 : ℚ) ^ j / (2 : ℚ) ^ (j - 52) = ((2 ^ 52 : ℤ) : ℚ) := by
    rw [← zpow_sub₀ (by norm_num), sub_sub_cancel]
    norm_num
  rw [nearest, hulp, hunits, roundEven_intCast, ← hunits, div_mul_cancel₀ _ (by positivity)]

theorem nearest_eq_zero {q : ℚ} (h : 0 < q) (hlt : q < (2 : ℚ) ^ (-1075 : ℤ)) : nearest q = 0 := by
  have hulp : ulp q = -1074 := by
    have hlog := (Int.lt_zpow_iff_log_lt (b := 2) (by decide) h).mp (by exact_mod_cast hlt)
    rw [ulp]
    omega
  have hhalf : q / (2 : ℚ) ^ (-1074 : ℤ) < 1 / 2 := by
    rw [div_lt_iff₀ (by positivity)]
    refine hlt.trans_eq ?_
    rw [show (-1075 : ℤ) = -1 + -1074 by norm_num, zpow_add₀ (by norm_num), zpow_neg_one]
    norm_num
  have hnonneg : 0 ≤ q / (2 : ℚ) ^ (-1074 : ℤ) := by positivity
  have hfloor : ⌊q / (2 : ℚ) ^ (-1074 : ℤ)⌋ = 0 :=
    Int.floor_eq_zero_iff.mpr ⟨hnonneg, hhalf.trans (by norm_num)⟩
  rw [nearest, hulp, roundEven, hfloor]
  simp only [Int.cast_zero, sub_zero]
  rw [if_pos hhalf, Int.cast_zero, zero_mul]

/-- What a number is rounded to is a double's. -/
theorem representable_nearest {q : ℚ} (h : 0 ≤ q) (hfin : nearest q < 2 ^ 1024) :
    Representable (nearest q) := by
  have hnonneg : 0 ≤ roundEven (q / (2 : ℚ) ^ ulp q) :=
    le_roundEven_of_le (by rw [Int.cast_zero]; positivity)
  obtain ⟨m, hm⟩ := Int.eq_ofNat_of_zero_le hnonneg
  have hle := roundEven_div_ulp_le q
  have hlow : -1074 ≤ ulp q := le_max_left _ _
  rw [nearest, hm] at hfin ⊢
  rw [hm] at hle
  have hexp : ∀ n e : ℤ, (2 : ℚ) ^ n ≤ m → (m : ℚ) * (2 : ℚ) ^ e < 2 ^ 1024 → n + e < 1024 := by
    intro n e hn he
    have hlt : (2 : ℚ) ^ (n + e) < (2 : ℚ) ^ ((1024 : ℕ) : ℤ) := by
      rw [zpow_add₀ (by norm_num), zpow_natCast]
      exact (mul_le_mul_of_nonneg_right hn (by positivity)).trans_lt he
    have := (zpow_lt_zpow_iff_right₀ (by norm_num : (1 : ℚ) < 2)).mp hlt
    omega
  rcases hle.lt_or_eq with hlt | heq
  · refine ⟨m, ulp q, by omega, hlow, ?_, by simp⟩
    by_contra hhigh
    have hpos : 0 < q := by
      rcases h.lt_or_eq with hpos | rfl
      · exact hpos
      · simp [ulp] at hhigh
    have hbig := le_roundEven_div_ulp hpos (by omega)
    rw [hm] at hbig
    have := hexp 52 (ulp q) (by exact_mod_cast hbig) (by simpa using hfin)
    omega
  · have hm53 : (m : ℚ) = (2 : ℚ) ^ (53 : ℤ) := by exact_mod_cast heq
    have := hexp 53 (ulp q) hm53.ge (by simpa using hfin)
    refine ⟨2 ^ 52, ulp q + 1, by decide, by omega, by omega, ?_⟩
    rw [Int.cast_natCast, hm53, zpow_add₀ (by norm_num)]
    push_cast
    ring

end Double

/-! ### Decimals -/

/-- The digits of a number above zero behind its leading zeros and before its trailing ones, and the
place of its point: it is `0.d₁d₂…` times `10 ^ exp`. -/
structure Decimal where
  digits : List Char
  exp : ℤ
  ne_nil : digits ≠ []
  isDigit : ∀ c ∈ digits, c.isDigit = true
  head_ne : digits.head? ≠ some '0'
  last_ne : digits.getLast? ≠ some '0'

namespace Decimal

open Nat

/-- The digits as a number. -/
def significand (d : Decimal) : ℕ := ofDigitChars 10 d.digits 0

def value (d : Decimal) : ℚ := d.significand * (10 : ℚ) ^ (d.exp - d.digits.length)

theorem toDigits_significand (d : Decimal) : toDigits 10 d.significand = d.digits :=
  (toDigits_ofDigitChars d.ne_nil d.isDigit d.head_ne).2

theorem length_pos (d : Decimal) : 0 < d.digits.length := List.length_pos_of_ne_nil d.ne_nil

theorem significand_lt (d : Decimal) : d.significand < 10 ^ d.digits.length := by
  refine (length_toDigits_le_iff (by decide) d.length_pos).mp ?_
  rw [d.toDigits_significand]

theorem le_significand (d : Decimal) : 10 ^ (d.digits.length - 1) ≤ d.significand := by
  have hpos := (toDigits_ofDigitChars d.ne_nil d.isDigit d.head_ne).1
  rcases Nat.eq_zero_or_pos (d.digits.length - 1) with hzero | hlong
  · rw [hzero]
    exact hpos
  · refine Nat.not_lt.mp fun hlt => ?_
    have hle := (length_toDigits_le_iff (by decide) hlong).mpr hlt
    rw [d.toDigits_significand] at hle
    omega

theorem value_lt (d : Decimal) : d.value < (10 : ℚ) ^ d.exp := by
  have hlt : (d.significand : ℚ) < (10 : ℚ) ^ (d.digits.length : ℤ) := by
    rw [zpow_natCast]
    exact_mod_cast d.significand_lt
  calc d.value < (10 : ℚ) ^ (d.digits.length : ℤ) * (10 : ℚ) ^ (d.exp - d.digits.length) :=
        mul_lt_mul_of_pos_right hlt (by positivity)
    _ = (10 : ℚ) ^ d.exp := by rw [← zpow_add₀ (by norm_num), add_sub_cancel]

theorem le_value (d : Decimal) : (10 : ℚ) ^ (d.exp - 1) ≤ d.value := by
  have hle : (10 : ℚ) ^ ((d.digits.length : ℤ) - 1) ≤ d.significand := by
    have hlen := d.length_pos
    rw [show (d.digits.length : ℤ) - 1 = ((d.digits.length - 1 : ℕ) : ℤ) by omega, zpow_natCast]
    exact_mod_cast d.le_significand
  calc (10 : ℚ) ^ (d.exp - 1)
      = (10 : ℚ) ^ ((d.digits.length : ℤ) - 1) * (10 : ℚ) ^ (d.exp - d.digits.length) := by
        rw [← zpow_add₀ (by norm_num)]
        congr 1
        ring
    _ ≤ d.value := mul_le_mul_of_nonneg_right hle (by positivity)

theorem value_pos (d : Decimal) : 0 < d.value := lt_of_lt_of_le (by positivity) d.le_value

/-- One digit is nine at most. -/
theorem value_le_of_length_eq_one {d : Decimal} (h : d.digits.length = 1) :
    d.value ≤ 9 * (10 : ℚ) ^ (d.exp - 1) := by
  have hlt := d.significand_lt
  rw [h] at hlt
  have hle : (d.significand : ℚ) ≤ 9 := by exact_mod_cast Nat.le_of_lt_succ hlt
  rw [value, h]
  exact mul_le_mul_of_nonneg_right hle (by positivity)

/-- A power of ten. -/
def tenPow (j : ℤ) : Decimal where
  digits := ['1']
  exp := j + 1
  ne_nil := List.cons_ne_nil _ _
  isDigit := List.forall_mem_singleton.mpr rfl
  head_ne := by decide
  last_ne := by decide

theorem value_tenPow (j : ℤ) : (tenPow j).value = (10 : ℚ) ^ j := by
  have hone : (tenPow j).significand = 1 := rfl
  rw [value, hone, show (tenPow j).exp - (tenPow j).digits.length = j from add_sub_cancel_right j 1]
  simp

theorem getLast?_toDigits (n : ℕ) : (toDigits 10 n).getLast? = some (digitChar (n % 10)) := by
  rw [toDigits_eq_if (by decide)]
  split
  next hlt => rw [Nat.mod_eq_of_lt hlt]; rfl
  next => rw [List.getLast?_append, List.getLast?_singleton]; rfl

/-- A natural number at a power of ten, its trailing zeros taken off. -/
theorem exists_value_eq {n : ℕ} (hn : 0 < n) (j : ℤ) :
    ∃ d : Decimal, d.value = n * (10 : ℚ) ^ j ∧ j ≤ d.exp - d.digits.length := by
  induction n using Nat.strongRecOn generalizing j with
  | ind n ih =>
      by_cases hmod : n % 10 = 0
      · obtain ⟨d, hd, hexp⟩ := ih (n / 10) (by omega) (by omega) (j + 1)
        refine ⟨d, ?_, by omega⟩
        have hten : (n : ℚ) = ((n / 10 : ℕ) : ℚ) * 10 := by
          exact_mod_cast (Nat.div_mul_cancel (Nat.dvd_of_mod_eq_zero hmod)).symm
        rw [hd, hten, zpow_add₀ (by norm_num), zpow_one]
        ring
      · refine ⟨⟨toDigits 10 n, j + (toDigits 10 n).length, toDigits_ne_nil,
          fun c hc => isDigit_of_mem_toDigits (by decide) (by decide) hc, head?_toDigits hn, ?_⟩,
          ?_, by simp⟩
        · rw [getLast?_toDigits]
          exact fun h => hmod (digitChar_eq_zero.mp (Option.some.inj h))
        · rw [value, significand, ofDigitChars_ten_toDigits]
          simp

end Decimal

/-! ### The shortest one -/

/-- The decimal is read as the magnitude, and none with fewer digits is. -/
structure Shortest (p : ℚ) (d : Decimal) : Prop where
  nearest_eq : Double.nearest d.value = p
  length_le : ∀ e : Decimal, Double.nearest e.value = p → d.digits.length ≤ e.digits.length

open Double

theorem exists_shortest {p : ℚ} (hp : Representable p) (hpos : 0 < p) : ∃ d, Shortest p d := by
  classical
  have hsome : ∃ n, ∃ d : Decimal, nearest d.value = p ∧ d.digits.length = n := by
    obtain ⟨m, e, -, -, -, rfl⟩ := id hp
    have hm : 0 < m := Nat.pos_of_ne_zero fun h => by simp [h] at hpos
    -- a power of two is a natural number at a power of ten
    obtain ⟨n, j, hn, htwo⟩ : ∃ (n : ℕ) (j : ℤ), 0 < n ∧ (2 : ℚ) ^ e = n * (10 : ℚ) ^ j := by
      rcases Int.le_total 0 e with he | he
      · obtain ⟨k, rfl⟩ := Int.eq_ofNat_of_zero_le he
        exact ⟨2 ^ k, 0, by positivity, by simp⟩
      · obtain ⟨k, hk⟩ := Int.eq_ofNat_of_zero_le (Int.neg_nonneg_of_nonpos he)
        refine ⟨5 ^ k, e, by positivity, ?_⟩
        rw [show e = -(k : ℤ) by omega, zpow_neg, zpow_neg, zpow_natCast, zpow_natCast,
          Nat.cast_pow,
          Nat.cast_ofNat, show (10 : ℚ) = 5 * 2 by norm_num, mul_pow, mul_inv, ← mul_assoc,
          mul_inv_cancel₀ (pow_ne_zero k (by norm_num)), one_mul]
    obtain ⟨d, hd, -⟩ := Decimal.exists_value_eq (Nat.mul_pos hm hn) j
    refine ⟨_, d, ?_, rfl⟩
    rw [hd, Nat.cast_mul, mul_assoc, ← htwo]
    exact hp.nearest_eq
  obtain ⟨d, hd, hlen⟩ := Nat.find_spec hsome
  exact ⟨d, hd, fun e he => hlen.trans_le (Nat.find_min' hsome ⟨e, he, rfl⟩)⟩

open Classical in
/-- A shortest decimal of each double above zero. -/
noncomputable def shortestOf (p : ℚ) : Decimal :=
  if h : Representable p ∧ 0 < p then (exists_shortest h.1 h.2).choose else .tenPow 0

theorem shortestOf_spec {p : ℚ} (hp : Representable p) (hpos : 0 < p) :
    Shortest p (shortestOf p) := by
  rw [shortestOf, dif_pos ⟨hp, hpos⟩]
  exact (exists_shortest hp hpos).choose_spec

namespace Shortest

variable {p : ℚ} {d : Decimal}

/-- **The point of the shortest decimal** is behind a power of ten exactly where the double is not
below the power's, unless nine tenths of the power round to that one too. -/
theorem lt_exp_iff (h : Shortest p d) {j : ℤ}
    (hnine : nearest (9 * (10 : ℚ) ^ (j - 1)) < nearest ((10 : ℚ) ^ j)) :
    j < d.exp ↔ nearest ((10 : ℚ) ^ j) ≤ p := by
  constructor
  · intro hj
    rw [← h.nearest_eq]
    exact nearest_mono (by positivity)
      ((zpow_le_zpow_right₀ (by norm_num) (by omega)).trans d.le_value)
  · intro hp
    by_contra hj
    have hexp : d.exp ≤ j := not_lt.mp hj
    have hle : p ≤ nearest ((10 : ℚ) ^ j) := by
      rw [← h.nearest_eq]
      exact nearest_mono d.value_pos
        (d.value_lt.le.trans (zpow_le_zpow_right₀ (by norm_num) hexp))
    -- the power itself is read as the double, so the decimal has one digit
    have hone : d.digits.length = 1 := by
      have := h.length_le (.tenPow j) (by rw [Decimal.value_tenPow]; exact le_antisymm hp hle)
      have := d.length_pos
      exact le_antisymm ‹_› ‹_›
    have hvalue := Decimal.value_le_of_length_eq_one hone
    have hshort : p ≤ nearest (9 * (10 : ℚ) ^ (j - 1)) := by
      rw [← h.nearest_eq]
      exact nearest_mono d.value_pos (hvalue.trans
        (mul_le_mul_of_nonneg_left (zpow_le_zpow_right₀ (by norm_num) (by omega)) (by norm_num)))
    exact absurd (hp.trans hshort) (not_le.mpr hnine)

theorem lt_exp_natCast_iff (h : Shortest p d) {j : ℕ} (hj : j ≤ 15) :
    (j : ℤ) < d.exp ↔ 10 ^ j ≤ p := by
  have hpow : ∀ i ≤ 15, nearest ((10 : ℚ) ^ i) = 10 ^ i := fun i hi => by
    have hlt : 10 ^ i < 2 ^ 53 := (Nat.pow_le_pow_right (by decide) hi).trans_lt (by decide)
    exact_mod_cast (representable_of_lt hlt).nearest_eq
  have hnine : nearest (9 * (10 : ℚ) ^ ((j : ℤ) - 1)) < nearest ((10 : ℚ) ^ (j : ℤ)) := by
    rw [zpow_natCast, hpow j hj]
    cases j with
    | zero =>
        have hless : Representable (15 / 16) :=
          ⟨15, -4, by decide, by decide, by decide, by norm_num⟩
        refine (nearest_mono (by norm_num) (?_ : _ ≤ (15 / 16 : ℚ))).trans_lt ?_
        · norm_num
        · rw [hless.nearest_eq]
          norm_num
    | succ i =>
        have hi : 9 * 10 ^ i < 2 ^ 53 := by
          have := Nat.pow_le_pow_right (n := 10) (by decide) (show i ≤ 14 by omega)
          omega
        have hrep := (representable_of_lt hi).nearest_eq
        push_cast at hrep ⊢
        rw [add_sub_cancel_right, zpow_natCast, hrep, pow_succ]
        have : (0 : ℚ) < 10 ^ i := by positivity
        linarith
  have hiff := h.lt_exp_iff hnine
  rwa [zpow_natCast, hpow j hj] at hiff

/-- **An integer below `10 ^ 15`** has its own digits, and behind them its trailing zeros. -/
theorem toDigits_eq (h : Shortest p d) {n : ℕ} (hp : p = n) (hn : 0 < n) (hlt : n < 10 ^ 15) :
    0 ≤ d.exp - d.digits.length ∧
      Nat.toDigits 10 n = d.digits ++ List.replicate (d.exp - d.digits.length).toNat '0' := by
  have hsmall : ∀ m : ℕ, m < 10 ^ 15 → nearest (m : ℚ) = m := fun m hm =>
    (representable_of_lt (hm.trans (by decide))).nearest_eq
  -- its own decimal has the same point, and so no fewer digits
  obtain ⟨e, he, hzeros⟩ := Decimal.exists_value_eq hn 0
  rw [zpow_zero, mul_one] at he
  have hlen := h.length_le e (by rw [he, hsmall n hlt, hp])
  have hexp : e.exp ≤ d.exp := by
    have hpos : 0 < e.exp := by
      have := e.length_pos
      omega
    obtain ⟨j, hj⟩ := Int.eq_ofNat_of_zero_le (show 0 ≤ e.exp - 1 by omega)
    have hge : (10 : ℚ) ^ j ≤ n := by
      have := e.le_value
      rw [he, hj] at this
      exact_mod_cast this
    have hj15 : j ≤ 15 := by
      have hge : 10 ^ j ≤ n := by exact_mod_cast hge
      by_contra hcon
      have := Nat.pow_le_pow_right (n := 10) (by decide) (show 15 ≤ j by omega)
      omega
    have := (h.lt_exp_natCast_iff hj15).mpr (hp ▸ hge)
    omega
  have hnonneg : 0 ≤ d.exp - d.digits.length := by omega
  obtain ⟨k, hk⟩ := Int.eq_ofNat_of_zero_le hnonneg
  have hvalue : d.value = ((d.significand * 10 ^ k : ℕ) : ℚ) := by
    rw [Decimal.value, hk]
    push_cast
    rfl
  have hbound : d.exp ≤ 15 := by
    have hnot : ¬ ((15 : ℕ) : ℤ) < d.exp := fun hcon => by
      have hge := (h.lt_exp_natCast_iff le_rfl).mp hcon
      rw [hp] at hge
      have : 10 ^ 15 ≤ n := by exact_mod_cast hge
      omega
    exact not_lt.mp hnot
  have hm : d.significand * 10 ^ k < 10 ^ 15 := by
    have hlt' : d.value < (10 : ℚ) ^ (15 : ℤ) :=
      d.value_lt.trans_le (zpow_le_zpow_right₀ (by norm_num) hbound)
    rw [hvalue] at hlt'
    exact_mod_cast hlt'
  have hn' : n = d.significand * 10 ^ k := by
    have hread := h.nearest_eq
    rw [hvalue, hsmall _ hm, hp] at hread
    exact_mod_cast hread.symm
  refine ⟨hnonneg, ?_⟩
  have hdigits := (toDigits_ofDigitChars (l := d.digits ++ List.replicate k '0')
    (by simp [d.ne_nil]) (fun c hc => ?_) (by
      rw [head?_append_of_ne_nil d.ne_nil]
      exact d.head_ne)).2
  · rw [Nat.ofDigitChars_append, Nat.ofDigitChars_replicate_zero] at hdigits
    rw [hk, Int.toNat_natCast, ← hdigits, hn', Decimal.significand, Nat.mul_comm]
  · rcases List.mem_append.mp hc with hc | hc
    · exact d.isDigit c hc
    · rw [List.eq_of_mem_replicate hc]
      rfl

/-- No double has its point four hundred places away. -/
theorem exp_bounds (h : Shortest p d) (hp : Representable p) (hpos : 0 < p) :
    -400 ≤ d.exp ∧ d.exp ≤ 400 := by
  have hten : (2 : ℚ) ^ (1200 : ℤ) ≤ (10 : ℚ) ^ (400 : ℤ) := by
    calc (2 : ℚ) ^ (1200 : ℤ) = ((2 : ℚ) ^ 3) ^ 400 := by rw [← pow_mul]; exact zpow_natCast 2 1200
      _ ≤ 10 ^ 400 := pow_le_pow_left₀ (by norm_num) (by norm_num) 400
      _ = (10 : ℚ) ^ (400 : ℤ) := (zpow_natCast 10 400).symm
  constructor
  · by_contra hlow
    have hvalue : d.value < (2 : ℚ) ^ (-1075 : ℤ) := by
      calc d.value < (10 : ℚ) ^ d.exp := d.value_lt
        _ ≤ (10 : ℚ) ^ (-400 : ℤ) := zpow_le_zpow_right₀ (by norm_num) (by omega)
        _ ≤ (2 : ℚ) ^ (-1200 : ℤ) := by
          rw [zpow_neg, zpow_neg]
          exact inv_anti₀ (by positivity) hten
        _ ≤ (2 : ℚ) ^ (-1075 : ℤ) := zpow_le_zpow_right₀ (by norm_num) (by decide)
    have hzero := nearest_eq_zero d.value_pos hvalue
    rw [h.nearest_eq] at hzero
    exact hpos.ne' hzero
  · by_contra hhigh
    have hvalue : (2 : ℚ) ^ (1024 : ℤ) ≤ d.value := by
      calc (2 : ℚ) ^ (1024 : ℤ) ≤ (2 : ℚ) ^ (1200 : ℤ) :=
            zpow_le_zpow_right₀ (by norm_num) (by decide)
        _ ≤ (10 : ℚ) ^ (400 : ℤ) := hten
        _ ≤ (10 : ℚ) ^ (d.exp - 1) := zpow_le_zpow_right₀ (by norm_num) (by omega)
        _ ≤ d.value := d.le_value
    have hle := nearest_mono (by positivity) hvalue
    rw [nearest_zpow (by decide), h.nearest_eq] at hle
    exact absurd hp.lt (not_lt.mpr (by exact_mod_cast hle))

end Shortest

end Brust
