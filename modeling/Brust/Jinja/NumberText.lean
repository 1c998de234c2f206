import Brust.Jinja.Number
import Brust.Support.DoubleArith
import Brust.Support.Shortest

/-!
# Jinja — the text of a number

`js_number` prints a double with `{}` between `1e-6` and `1e21` and with `{:e}` outside, where it
writes the exponent anew; `Number::toString` chooses by where the point of the shortest decimal is.
The two texts are one (`jsNumber_eq`).
-/

namespace Brust.Jinja

open Paint (literal)

/-- What the operators are given: the shortest decimal of a number above zero, and the number of a
text. -/
class Conversions where
  shortest : ℚ → Decimal
  toNumber : List Char → Double
  shortest_spec {p : ℚ} (hp : Double.Representable p) (hpos : 0 < p) : Shortest p (shortest p)
  nonneg_toNumber (s : List Char) : (toNumber s).Nonneg

/-- `1e-6` as a double. -/
def MICRO : ℚ := 4722366482869645 / 2 ^ 72

def signText (a : Bool) : List Char := if a then ['-'] else []

/-! ### `js_number` -/

/-- `{}` of a float above zero, which never uses an exponent. -/
def display (d : Decimal) : List Char :=
  if d.exp ≤ 0 then '0' :: '.' :: (List.replicate (-d.exp).toNat '0' ++ d.digits)
  else if d.exp < d.digits.length then
    d.digits.take d.exp.toNat ++ '.' :: d.digits.drop d.exp.toNat
  else d.digits ++ List.replicate (d.exp - d.digits.length).toNat '0'

/-- `{}` of an integer. -/
def intText (i : ℤ) : List Char := signText (decide (i < 0)) ++ Nat.toDigits 10 i.natAbs

/-- The digits with the point behind the first. -/
def mantissa (d : Decimal) : List Char :=
  d.digits.take 1 ++ if d.digits.length = 1 then [] else '.' :: d.digits.drop 1

/-- `{:e}` of a float above zero. -/
def lowerExp (d : Decimal) : List Char := mantissa d ++ 'e' :: intText (d.exp - 1)

def stripSuffix (suffix s : List Char) : Option (List Char) :=
  if suffix.isSuffixOf s then some (s.take (s.length - suffix.length)) else none

def splitOnce (c : Char) (s : List Char) : Option (List Char × List Char) :=
  if c ∈ s then some (s.takeWhile (· != c), (s.dropWhile (· != c)).drop 1) else none

/-- `str::parse::<i32>` -/
def parseI32 (s : List Char) : Option ℤ :=
  let (neg, ds) := takeSign s
  let i : ℤ := if neg then -number 10 ds else number 10 ds
  if Digits 10 ds ∧ -2 ^ 31 ≤ i ∧ i < 2 ^ 31 then some i else none

/-- What `js_number` makes of `{:e}`: the sign of the exponent is written. -/
def signedExp (s : List Char) : List Char :=
  let (m, e) := (splitOnce 'e' s).getD (s, literal "0")
  let e := (parseI32 e).getD 0
  m ++ 'e' :: (if e < 0 then '-' else '+') :: intText |e|

section
variable [Conversions]

/-- `js_number` -/
def jsNumber (n : Double) : List Char :=
  match n.f64 with
  | .nan => literal "NaN"
  | .inf a => signText a ++ literal "Infinity"
  | .fin a p =>
    if p = 0 then literal "0"
    else if ¬ (MICRO ≤ p ∧ p < 10 ^ 21) then
      signedExp (signText a ++ lowerExp (Conversions.shortest p))
    else
      let s := signText a ++ display (Conversions.shortest p)
      (stripSuffix (literal ".0") s).getD s

end

/-! ### `Number::toString` -/

/-- The exponent of a number is written with its sign. -/
def exponentText (e : ℤ) : List Char :=
  'e' :: (if e < 0 then '-' else '+') :: Nat.toDigits 10 e.natAbs

/-- `Number::toString` of a number above zero with these digits. -/
def numeral (d : Decimal) : List Char :=
  let k : ℤ := d.digits.length
  let n := d.exp
  if k ≤ n ∧ n ≤ 21 then d.digits ++ List.replicate (n - k).toNat '0'
  else if 0 < n ∧ n ≤ 21 then d.digits.take n.toNat ++ '.' :: d.digits.drop n.toNat
  else if -6 < n ∧ n ≤ 0 then '0' :: '.' :: (List.replicate (-n).toNat '0' ++ d.digits)
  else if k = 1 then d.digits ++ exponentText (n - 1)
  else d.digits.take 1 ++ '.' :: d.digits.drop 1 ++ exponentText (n - 1)

section
variable [Conversions]

/-- `Number::toString` -/
def numberText (n : Double) : List Char :=
  match n.f64 with
  | .nan => literal "NaN"
  | .inf a => signText a ++ literal "Infinity"
  | .fin a p => if p = 0 then literal "0" else signText a ++ numeral (Conversions.shortest p)

end

/-! ### Where the point is -/

theorem nearest_micro : Double.nearest ((10 : ℚ) ^ (-6 : ℤ)) = MICRO := by
  have hlog : Int.log 2 ((10 : ℚ) ^ (-6 : ℤ)) = -20 := by
    refine le_antisymm ?_ ((Int.zpow_le_iff_le_log (b := 2) (by decide) (by positivity)).mp ?_)
    · exact Int.lt_add_one_iff.mp
        ((Int.lt_zpow_iff_log_lt (b := 2) (by decide) (by positivity)).mp (by norm_num))
    · norm_num
  have hulp : Double.ulp ((10 : ℚ) ^ (-6 : ℤ)) = -72 := by
    rw [Double.ulp, hlog]
    rfl
  have hfloor : ⌊(10 : ℚ) ^ (-6 : ℤ) / (2 : ℚ) ^ (-72 : ℤ)⌋ = 4722366482869645 := by
    rw [Int.floor_eq_iff]
    norm_num
  have hround : Double.roundEven ((10 : ℚ) ^ (-6 : ℤ) / (2 : ℚ) ^ (-72 : ℤ)) =
    4722366482869645 := by
    rw [Double.roundEven, hfloor]
    norm_num
  rw [Double.nearest, hulp, hround, MICRO]
  norm_num

variable {p : ℚ} {d : Decimal}

theorem micro_le_iff (h : Shortest p d) : MICRO ≤ p ↔ -6 < d.exp := by
  have hbelow : Double.nearest (9 * (10 : ℚ) ^ ((-6 : ℤ) - 1)) < MICRO := by
    refine (Double.nearest_mono (by positivity)
      (show _ ≤ (2 : ℚ) ^ (-20 : ℤ) by norm_num)).trans_lt ?_
    rw [Double.nearest_zpow (by decide), MICRO]
    norm_num
  rw [h.lt_exp_iff (hbelow.trans_eq nearest_micro.symm), nearest_micro]

theorem lt_sextillion_iff (h : Shortest p d) : p < 10 ^ 21 ↔ d.exp ≤ 21 := by
  have hpow : Double.Representable ((10 : ℚ) ^ (21 : ℤ)) :=
    ⟨5 ^ 21, 21, by decide, by decide, by decide, by norm_num⟩
  have hnine : Double.Representable (9 * (10 : ℚ) ^ ((21 : ℤ) - 1)) :=
    ⟨9 * 5 ^ 20, 20, by decide, by decide, by decide, by norm_num⟩
  have hiff := h.lt_exp_iff (j := 21) (by
    rw [hpow.nearest_eq, hnine.nearest_eq]
    norm_num)
  rw [hpow.nearest_eq] at hiff
  have hten : (10 : ℚ) ^ (21 : ℤ) = 10 ^ 21 := zpow_natCast 10 21
  rw [hten] at hiff
  rw [← not_le, ← hiff, not_lt]

/-! ### One text -/

/-- The digits that `{}` prints do not end in `.0`. -/
theorem stripSuffix_display (a : Bool) (d : Decimal) :
    stripSuffix (literal ".0") (signText a ++ display d) = none := by
  refine if_neg fun h => ?_
  obtain ⟨s, hs⟩ := List.isSuffixOf_iff_suffix.mp h
  have hlast : (signText a ++ display d).getLast? = some '0' := by
    rw [← hs, List.getLast?_append]
    rfl
  have hpoint : '.' ∈ signText a ++ display d := by
    rw [← hs]
    exact List.mem_append_right s (by decide)
  obtain ⟨c, hc⟩ := Option.ne_none_iff_exists'.mp (mt List.getLast?_eq_none_iff.mp d.ne_nil)
  have hne : d.digits.getLast? ≠ some '0' := d.last_ne
  rw [display] at hlast hpoint
  split at hlast
  · refine hne ?_
    rw [List.getLast?_append, List.getLast?_cons, List.getLast?_cons, List.getLast?_append,
      hc] at hlast
    rw [hc]
    exact hlast
  next hpos =>
  rw [if_neg hpos] at hpoint
  split at hlast
  next hlt =>
    refine hne ?_
    have hdrop : d.digits.drop d.exp.toNat ≠ [] := fun hnil => by
      have := List.drop_eq_nil_iff.mp hnil
      omega
    have hwhole := congrArg List.getLast? (List.take_append_drop d.exp.toNat d.digits)
    obtain ⟨e, he⟩ := Option.ne_none_iff_exists'.mp (mt List.getLast?_eq_none_iff.mp hdrop)
    rw [List.getLast?_append, he] at hwhole
    rw [List.getLast?_append, List.getLast?_append, List.getLast?_cons, he] at hlast
    rw [← hwhole]
    exact hlast
  next hge =>
    rw [if_neg hge] at hpoint
    have hdigit : ∀ c ∈ d.digits ++ List.replicate (d.exp - d.digits.length).toNat '0',
        c.isDigit = true := fun c hc => (List.mem_append.mp hc).elim (d.isDigit c)
      fun hc => List.eq_of_mem_replicate hc ▸ rfl
    rcases List.mem_append.mp hpoint with hsign | hdigits
    · cases a with
      | false => cases hsign
      | true => exact absurd (List.mem_singleton.mp hsign) (by decide)
    · exact absurd (hdigit _ hdigits) (by decide)

theorem splitOnce_append {c : Char} {m : List Char} (h : c ∉ m) (e : List Char) :
    splitOnce c (m ++ c :: e) = some (m, e) := by
  have hm : ∀ x ∈ m, (x != c) = true := fun x hx => bne_iff_ne.mpr fun hxc => h (hxc ▸ hx)
  rw [splitOnce, if_pos (by simp), List.takeWhile_append_of_pos hm, List.dropWhile_append_of_pos hm]
  simp

theorem parseI32_intText {i : ℤ} (hlow : -2 ^ 31 ≤ i) (hhigh : i < 2 ^ 31) :
    parseI32 (intText i) = some i := by
  have hall : ∀ c ∈ Nat.toDigits 10 i.natAbs, c.isDigit = true := fun c hc =>
    Nat.isDigit_of_mem_toDigits (by decide) (by decide) hc
  have hdigits : Digits 10 (Nat.toDigits 10 i.natAbs) :=
    digits_ten_iff.mpr ⟨Nat.toDigits_ne_nil, hall⟩
  have hsign : Sign (signText (decide (i < 0))) (decide (i < 0)) := by
    cases decide (i < 0) with
    | false => exact .none
    | true => exact .minus
  have hunmarked := hdigits.unmarked (t := []) (by decide)
  rw [List.append_nil] at hunmarked
  have hnumber : number 10 (Nat.toDigits 10 i.natAbs) = i.natAbs := by
    rw [number_ten hall, Nat.ofDigitChars_ten_toDigits]
  have hint : (if decide (i < 0) = true then -(i.natAbs : ℤ) else i.natAbs) = i := by
    split
    · next h =>
      have := of_decide_eq_true h
      omega
    · next h =>
      rw [decide_eq_true_iff] at h
      omega
  rw [parseI32, intText, takeSign_append hsign hunmarked]
  dsimp only
  rw [hnumber, hint, if_pos ⟨hdigits, hlow, hhigh⟩]

theorem notMem_digits {s : List Char} (h : ∀ c ∈ s, c.isDigit = true) : 'e' ∉ s :=
  fun he => absurd (h _ he) (by decide)

theorem signedExp_lowerExp (h : Shortest p d) (hp : Double.Representable p) (hpos : 0 < p)
    (a : Bool) :
    signedExp (signText a ++ lowerExp d) = signText a ++ mantissa d ++
      exponentText (d.exp - 1) := by
  have hletter : 'e' ∉ signText a ++ mantissa d := by
    rw [mantissa, List.mem_append, List.mem_append, not_or, not_or]
    refine ⟨?_, notMem_digits fun c hc => d.isDigit c (List.mem_of_mem_take hc), ?_⟩
    · cases a <;> decide
    · split
      · exact List.not_mem_nil
      · exact List.not_mem_cons_of_ne_of_not_mem (by decide)
          (notMem_digits fun c hc => d.isDigit c (List.mem_of_mem_drop hc))
  obtain ⟨hlow, hhigh⟩ := h.exp_bounds hp hpos
  have habs : ∀ e : ℤ, intText |e| = Nat.toDigits 10 e.natAbs := fun e => by
    rw [intText, decide_eq_false (abs_nonneg e).not_gt, Int.natAbs_abs]
    rfl
  rw [signedExp, lowerExp, ← List.append_assoc, splitOnce_append hletter, Option.getD_some]
  dsimp only
  rw [parseI32_intText (by omega) (by omega), Option.getD_some, habs, exponentText]

theorem nonneg_of_representable {q : ℚ} (h : Double.Representable q) : 0 ≤ q := by
  obtain ⟨m, e, -, -, -, rfl⟩ := h
  positivity

theorem f64_representable {n : Double} {a : Bool} {q : ℚ} (h : n.f64 = .fin a q) :
    Double.Representable q := by
  cases n with
  | nan | inf => cases h
  | fin b p =>
      rw [Double.f64, Double.round_eq_ite] at h
      split at h
      · next hlt =>
        cases h
        exact Double.representable_nearest (abs_nonneg p) hlt
      · cases h

section
variable [Conversions]

/-- **The text of a number is JavaScript's.** -/
theorem jsNumber_eq (n : Double) : jsNumber n = numberText n := by
  rw [jsNumber, numberText]
  split
  · rfl
  · rfl
  next a q hq =>
  split
  · rfl
  next hzero =>
  have hrep := f64_representable hq
  have hpos : 0 < q := lt_of_le_of_ne (nonneg_of_representable hrep) (Ne.symm hzero)
  have hshort := Conversions.shortest_spec hrep hpos
  have hlen := (Conversions.shortest q).length_pos
  have hin : MICRO ≤ q ∧ q < 10 ^ 21 ↔
      -6 < (Conversions.shortest q).exp ∧ (Conversions.shortest q).exp ≤ 21 :=
    and_congr (micro_le_iff hshort) (lt_sextillion_iff hshort)
  split
  next hout =>
    rw [hin] at hout
    rw [signedExp_lowerExp hshort hrep hpos a, List.append_assoc, numeral]
    rw [if_neg (by omega), if_neg (by omega), if_neg (by omega), mantissa]
    by_cases hone : (Conversions.shortest q).digits.length = 1
    · rw [if_pos hone, if_pos (by omega), List.append_nil, List.take_of_length_le hone.le]
    · rw [if_neg hone, if_neg (by omega)]
  next hinside =>
    rw [not_not, hin] at hinside
    dsimp only
    rw [stripSuffix_display, Option.getD_none, numeral, display]
    split
    next h => rw [if_neg (by omega), if_neg (by omega), if_pos ⟨hinside.1, h⟩]
    next h =>
      split
      next hlt => rw [if_neg (by omega), if_pos (by omega)]
      next hge => rw [if_pos (by omega)]

end

/-! ### The characters of a number -/

theorem numeral_ne_nil (d : Decimal) : numeral d ≠ [] := by
  unfold numeral
  dsimp only
  split_ifs <;> simp [d.ne_nil]

/-- The characters that numbers are written with. -/
def Plain (s : List Char) : Prop := ∀ c ∈ s, c.isAlphanum = true ∨ c ∈ ['+', '-', '.']

instance (s : List Char) : Decidable (Plain s) := List.decidableBAll _ s

theorem plain_append {s t : List Char} : Plain (s ++ t) ↔ Plain s ∧ Plain t :=
  List.forall_mem_append

theorem plain_cons {c : Char} {s : List Char} (hc : Plain [c]) (hs : Plain s) : Plain (c :: s) :=
  plain_append.mpr ⟨hc, hs⟩

theorem plain_digits {s : List Char} (h : ∀ c ∈ s, c.isDigit = true) : Plain s := fun c hc =>
  .inl (by rw [Char.isAlphanum, h c hc, Bool.or_true])

theorem plain_exponentText (e : ℤ) : Plain (exponentText e) := by
  refine plain_cons (by decide) (plain_cons ?_ (plain_digits fun _ hc =>
    Nat.isDigit_of_mem_toDigits (by decide) (by decide) hc))
  split <;> decide

theorem plain_numeral (d : Decimal) : Plain (numeral d) := by
  have hdigits := plain_digits d.isDigit
  have htake : ∀ n, Plain (d.digits.take n) := fun n c hc => hdigits c (List.mem_of_mem_take hc)
  have hdrop : ∀ n, Plain (d.digits.drop n) := fun n c hc => hdigits c (List.mem_of_mem_drop hc)
  have hzeros : ∀ n, Plain (List.replicate n '0') := fun n =>
    plain_digits fun c hc => List.eq_of_mem_replicate hc ▸ rfl
  have hpoint : Plain ['.'] := by decide
  unfold numeral
  dsimp only
  split_ifs
  · exact plain_append.mpr ⟨hdigits, hzeros _⟩
  · exact plain_append.mpr ⟨htake _, plain_cons hpoint (hdrop _)⟩
  · exact plain_cons (by decide) (plain_cons hpoint (plain_append.mpr ⟨hzeros _, hdigits⟩))
  · exact plain_append.mpr ⟨hdigits, plain_exponentText _⟩
  · exact plain_append.mpr
      ⟨plain_append.mpr ⟨htake _, plain_cons hpoint (hdrop _)⟩, plain_exponentText _⟩

section
variable [Conversions]

theorem jsNumber_ne_nil (n : Double) : jsNumber n ≠ [] := by
  rw [jsNumber_eq, numberText]
  split
  · decide
  · exact List.append_ne_nil_of_right_ne_nil _ (by decide)
  · split
    · decide
    · exact List.append_ne_nil_of_right_ne_nil _ (numeral_ne_nil _)

theorem jsNumber_plain (n : Double) : Plain (jsNumber n) := by
  have hsign : ∀ a, Plain (signText a) := by decide
  rw [jsNumber_eq, numberText]
  split
  · decide
  · exact plain_append.mpr ⟨hsign _, by decide⟩
  · split
    · decide
    · exact plain_append.mpr ⟨hsign _, plain_numeral _⟩

end

end Brust.Jinja
