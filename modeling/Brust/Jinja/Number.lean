import Brust.Paint.Css
import Brust.Support.Double
import Brust.Support.Framing

/-!
# Jinja — numbers in strings

`string_to_number`, the server's `Number(string)`.  It reads a decimal as JavaScript does.  What it
takes off the ends has U+0085 too, which is no white space of JavaScript; and a literal after `0x`,
`0o` or `0b` is read by `u64::from_str_radix`, which takes a sign and no more than 64 bits
(`string_to_number_iff`).
-/

namespace Brust.Jinja

open Paint (trimBy isWhitespace blanks stripPrefix)

/-! ### Digits -/

/-- What a digit or a letter stands for, up to 35. -/
def digitOf (c : Char) : ℕ :=
  if c.isDigit then c.toNat - 48
  else if c.isLower then c.toNat - 87
  else if c.isUpper then c.toNat - 55
  else 36

def number (radix : ℕ) (ds : List Char) : ℕ := ds.foldl (fun n c => radix * n + digitOf c) 0

/-- One digit at least, each below the radix. -/
def Digits (radix : ℕ) (ds : List Char) : Prop := ds ≠ [] ∧ ∀ c ∈ ds, digitOf c < radix

instance (radix : ℕ) (ds : List Char) : Decidable (Digits radix ds) :=
  inferInstanceAs (Decidable (_ ∧ _))

/-- `u64::from_str_radix` -/
def fromStrRadix (radix : ℕ) (s : List Char) : Option ℕ :=
  let ds := match s with
    | '+' :: ds => ds
    | ds => ds
  if Digits radix ds ∧ number radix ds < 2 ^ 64 then some (number radix ds) else none

/-! ### Decimals -/

/-- A sign, which may be left out, and what follows it. -/
def takeSign : List Char → Bool × List Char
  | '-' :: t => (true, t)
  | '+' :: t => (false, t)
  | t => (false, t)

/-- The exponent at the end of a decimal. -/
def takeExponent : List Char → Option ℤ
  | [] => some 0
  | c :: t =>
    if c = 'e' ∨ c = 'E' then
      let (neg, ds) := takeSign t
      if Digits 10 ds then some (if neg then -number 10 ds else number 10 ds) else none
    else none

/-- The digits of a decimal, its point and its exponent. -/
def parseUnsigned (t : List Char) : Option ℚ :=
  let whole := t.takeWhile Char.isDigit
  let t := t.dropWhile Char.isDigit
  let (part, t) := match t with
    | '.' :: t => (t.takeWhile Char.isDigit, t.dropWhile Char.isDigit)
    | t => ([], t)
  if whole ++ part = [] then none
  else (takeExponent t).map fun e : ℤ =>
    (number 10 (whole ++ part) : ℚ) * (10 : ℚ) ^ (e - (part.length : ℤ))

/-- `str::parse::<f64>` of digits, points, signs and `e`: the sign and the magnitude. -/
def parseF64 (t : List Char) : Option (Bool × ℚ) :=
  let (neg, t) := takeSign t
  (parseUnsigned t).map fun q => (neg, q)

/-! ### `string_to_number` -/

def trimmed (s : List Char) : List Char := trimBy (fun c => isWhitespace c || c == '\ufeff') s

def radixPrefixes : List (List Char × ℕ) :=
  [(['0', 'x'], 16), (['0', 'X'], 16), (['0', 'o'], 8), (['0', 'O'], 8), (['0', 'b'], 2),
    (['0', 'B'], 2)]

def decimalChar (c : Char) : Bool := c.isDigit || ['.', 'e', 'E', '+', '-'].contains c

def infinity : List Char := ['I', 'n', 'f', 'i', 'n', 'i', 't', 'y']

def readTrimmed (t : List Char) : Double :=
  if t = [] then .fin false 0
  else if t = infinity ∨ t = '+' :: infinity then .inf false
  else if t = '-' :: infinity then .inf true
  else
    match radixPrefixes.findSome? fun p => (stripPrefix p.1 t).map fun ds => (p.2, ds) with
    | some (radix, ds) => ((fromStrRadix radix ds).map fun n : ℕ => Double.round false n).getD .nan
    | none =>
      if !t.all decimalChar then .nan
      else ((parseF64 t).map fun d => Double.round d.1 d.2).getD .nan

/-- `string_to_number` -/
def stringToNumber (s : List Char) : Double := readTrimmed (trimmed s)

/-! ### JavaScript's literals -/

/-- White space and line terminators of JavaScript. -/
def jsSpace (c : Char) : Bool := blanks.contains c || c == '\ufeff'

def jsTrimmed (s : List Char) : List Char := trimBy jsSpace s

inductive Sign : List Char → Bool → Prop
  | none : Sign [] false
  | plus : Sign ['+'] false
  | minus : Sign ['-'] true

/-- `ExponentPart`, which may be left out. -/
inductive Exponent : List Char → ℤ → Prop
  | none : Exponent [] 0
  | some {c : Char} {sign ds : List Char} {neg : Bool} (hc : c = 'e' ∨ c = 'E')
      (hsign : Sign sign neg) (hds : Digits 10 ds) :
      Exponent (c :: sign ++ ds) (if neg then -number 10 ds else number 10 ds)

/-- A decimal with its point, which may be left out, and its exponent. -/
inductive Unsigned : List Char → ℚ → Prop
  | whole {ds exp : List Char} {e : ℤ} (hds : Digits 10 ds) (hexp : Exponent exp e) :
      Unsigned (ds ++ exp) (number 10 ds * (10 : ℚ) ^ e)
  | point {ds fs exp : List Char} {e : ℤ} (hds : Digits 10 (ds ++ fs)) (hexp : Exponent exp e) :
      Unsigned (ds ++ '.' :: fs ++ exp) (number 10 (ds ++ fs) * (10 : ℚ) ^ (e - fs.length))

def RadixLiteral (t : List Char) (n : ℕ) : Prop :=
  ∃ p ∈ radixPrefixes, ∃ ds, t = p.1 ++ ds ∧ Digits p.2 ds ∧ n = number p.2 ds

/-- `StringNumericLiteral` without white space. -/
inductive Literal : List Char → Prop
  | infinity {sign : List Char} {neg : Bool} (hsign : Sign sign neg) :
      Literal (sign ++ infinity)
  | decimal {sign u : List Char} {neg : Bool} {q : ℚ} (hsign : Sign sign neg)
      (hu : Unsigned u q) : Literal (sign ++ u)
  | radix {t : List Char} {n : ℕ} (h : RadixLiteral t n) : Literal t

/-- An integer's literal, its sign and its magnitude. -/
inductive IntegerLiteral : List Char → Bool → ℕ → Prop
  | decimal {sign ds : List Char} {neg : Bool} (hsign : Sign sign neg) (hds : Digits 10 ds) :
      IntegerLiteral (sign ++ ds) neg (number 10 ds)
  | radix {t : List Char} {n : ℕ} (h : RadixLiteral t n) : IntegerLiteral t false n

/-- A string is a number where JavaScript says so, and an integer that a double has is that. -/
structure ReadsAsJs (s : List Char) : Prop where
  nan : stringToNumber s ≠ .nan ↔ jsTrimmed s = [] ∨ Literal (jsTrimmed s)
  integer : ∀ neg n, IntegerLiteral (jsTrimmed s) neg n → Double.Representable n →
    (stringToNumber s).value = some (if neg then -(n : ℚ) else n)

/-! ### Reading decimals -/

theorem digitOf_lt_ten_iff (c : Char) : digitOf c < 10 ↔ c.isDigit = true := by
  unfold digitOf
  split
  · next h =>
    refine iff_of_true ?_ h
    simp only [Char.isDigit, Bool.and_eq_true, decide_eq_true_eq] at h
    have := h.2
    simp only [UInt32.le_iff_toNat_le] at this
    change c.toNat ≤ 57 at this
    omega
  · next h =>
    refine iff_of_false ?_ h
    split
    · next hl =>
      delta Char.isLower at hl
      simp only [Bool.and_eq_true, decide_eq_true_eq, UInt32.le_iff_toNat_le] at hl
      have : 97 ≤ c.toNat := hl.1
      omega
    · split
      · next hu =>
        delta Char.isUpper at hu
        simp only [decide_eq_true_eq, UInt32.le_iff_toNat_le] at hu
        have : 65 ≤ c.toNat := hu.1
        omega
      · decide

theorem digits_ten_iff {ds : List Char} :
    Digits 10 ds ↔ ds ≠ [] ∧ ∀ c ∈ ds, c.isDigit = true := by
  simp only [Digits, digitOf_lt_ten_iff]

theorem number_ten {ds : List Char} (hds : ∀ c ∈ ds, c.isDigit = true) :
    number 10 ds = Nat.ofDigitChars 10 ds 0 := by
  rw [number, Nat.ofDigitChars_eq_foldl]
  refine List.foldl_ext _ _ 0 fun n c hc => ?_
  rw [digitOf, if_pos (hds c hc)]
  rfl

/-- The digits at the start of a text, where no digit follows them. -/
theorem span_digits {ds rest : List Char} (hds : ∀ c ∈ ds, c.isDigit = true)
    (hrest : ∀ c ∈ rest.head?, c.isDigit = false) :
    (ds ++ rest).takeWhile Char.isDigit = ds ∧ (ds ++ rest).dropWhile Char.isDigit = rest := by
  rw [List.takeWhile_append_of_pos hds, List.dropWhile_append_of_pos hds]
  cases rest with
  | nil => simp
  | cons c rest =>
      have hc := hrest c rfl
      simp [hc]

/-- A text that does not start with a sign. -/
def Unmarked (t : List Char) : Prop := ∀ c ∈ t.head?, c ≠ '-' ∧ c ≠ '+'

theorem takeSign_append {sign t : List Char} {neg : Bool} (hsign : Sign sign neg)
    (ht : Unmarked t) : takeSign (sign ++ t) = (neg, t) := by
  cases hsign with
  | plus => rfl
  | minus => rfl
  | none =>
      cases t with
      | nil => rfl
      | cons c t =>
          obtain ⟨hminus, hplus⟩ := ht c rfl
          rw [List.nil_append, takeSign]
          · rintro u ⟨⟩
            exact hminus rfl
          · rintro u ⟨⟩
            exact hplus rfl

theorem takeSign_spec (t : List Char) : ∃ sign, Sign sign (takeSign t).1 ∧
    t = sign ++ (takeSign t).2 := by
  unfold takeSign
  split
  · exact ⟨_, .minus, rfl⟩
  · exact ⟨_, .plus, rfl⟩
  · exact ⟨_, .none, rfl⟩

theorem unmarked_of_digit {c : Char} {t : List Char} (hc : c.isDigit = true) :
    Unmarked (c :: t) := by
  rintro d ⟨⟩
  constructor
  · rintro rfl
    exact absurd hc (by decide)
  · rintro rfl
    exact absurd hc (by decide)

theorem Digits.unmarked {radix : ℕ} {ds t : List Char} (h : Digits radix ds) (hr : radix ≤ 36) :
    Unmarked (ds ++ t) := by
  obtain ⟨hne, hds⟩ := h
  cases ds with
  | nil => exact absurd rfl hne
  | cons c ds =>
      rintro d ⟨⟩
      have hc := hds c List.mem_cons_self
      constructor
      · rintro rfl
        have : digitOf '-' = 36 := by decide
        omega
      · rintro rfl
        have : digitOf '+' = 36 := by decide
        omega

theorem takeExponent_iff {t : List Char} {e : ℤ} : takeExponent t = some e ↔ Exponent t e := by
  constructor
  · intro h
    cases t with
    | nil =>
        cases h
        exact .none
    | cons c t =>
        rw [takeExponent] at h
        split at h
        · next hc =>
          obtain ⟨sign, hsign, ht⟩ := takeSign_spec t
          dsimp only at h
          split at h
          · next hds =>
            cases h
            have hexp := Exponent.some hc hsign hds
            rwa [List.cons_append, ← ht] at hexp
          · cases h
        · cases h
  · rintro (_ | ⟨hc, hsign, hds⟩)
    · rfl
    · have hunmarked := hds.unmarked (t := []) (by decide)
      rw [List.append_nil] at hunmarked
      rw [List.cons_append, takeExponent, if_pos hc, takeSign_append hsign hunmarked]
      dsimp only
      rw [if_pos hds]

/-- What ends the digits before it. -/
theorem Exponent.ends {t : List Char} {e : ℤ} (h : Exponent t e) :
    ∀ c ∈ t.head?, c.isDigit = false ∧ c ≠ '.' := by
  cases h with
  | none => rintro c ⟨⟩
  | some hc hsign hds =>
      rintro d ⟨⟩
      rcases hc with rfl | rfl
      · decide
      · decide

theorem parseUnsigned_point {t part rest : List Char}
    (h : t.dropWhile Char.isDigit = '.' :: (part ++ rest)) (hpart : ∀ c ∈ part, c.isDigit = true)
    (hrest : ∀ c ∈ rest.head?, c.isDigit = false) :
    parseUnsigned t = if t.takeWhile Char.isDigit ++ part = [] then none
      else (takeExponent rest).map fun e : ℤ =>
        (number 10 (t.takeWhile Char.isDigit ++ part) : ℚ) *
          (10 : ℚ) ^ (e - (part.length : ℤ)) := by
  obtain ⟨htake, hdrop⟩ := span_digits hpart hrest
  simp only [parseUnsigned, h, htake, hdrop]

theorem parseUnsigned_whole {t : List Char}
    (h : ∀ c ∈ (t.dropWhile Char.isDigit).head?, c ≠ '.') :
    parseUnsigned t = if t.takeWhile Char.isDigit = [] then none
      else (takeExponent (t.dropWhile Char.isDigit)).map fun e : ℤ =>
        (number 10 (t.takeWhile Char.isDigit) : ℚ) * (10 : ℚ) ^ e := by
  unfold parseUnsigned
  dsimp only
  split
  · next u hu =>
    rw [hu] at h
    exact absurd rfl (h '.' rfl)
  · simp only [List.append_nil, List.length_nil, Nat.cast_zero, sub_zero]

/-- What a `dropWhile` leaves does not start with what it drops. -/
theorem head_dropWhile (p : Char → Bool) (t : List Char) :
    ∀ c ∈ (t.dropWhile p).head?, p c = false := by
  intro c hc
  have h := List.head?_dropWhile_not p t
  rw [Option.mem_def.mp hc] at h
  simpa using h

theorem mem_takeWhile_digit {t : List Char} :
    ∀ c ∈ t.takeWhile Char.isDigit, c.isDigit = true := fun _ hc =>
  List.mem_takeWhile_imp hc

theorem parseUnsigned_sound {t : List Char} {q : ℚ} (h : parseUnsigned t = some q) :
    Unsigned t q := by
  have hsplit := (List.takeWhile_append_dropWhile (p := Char.isDigit) (l := t)).symm
  by_cases hpoint : ∃ u, t.dropWhile Char.isDigit = '.' :: u
  · obtain ⟨u, hu⟩ := hpoint
    have hsplitu := (List.takeWhile_append_dropWhile (p := Char.isDigit) (l := u)).symm
    rw [hsplitu] at hu
    rw [parseUnsigned_point hu mem_takeWhile_digit (head_dropWhile _ u)] at h
    split at h
    · cases h
    · next hne =>
      obtain ⟨e, he, rfl⟩ := Option.map_eq_some_iff.mp h
      have hds : Digits 10 (t.takeWhile Char.isDigit ++ u.takeWhile Char.isDigit) := by
        refine digits_ten_iff.mpr ⟨hne, fun c hc => ?_⟩
        rcases List.mem_append.mp hc with hc | hc
        · exact mem_takeWhile_digit c hc
        · exact mem_takeWhile_digit c hc
      have hdecimal := Unsigned.point hds (takeExponent_iff.mp he)
      rwa [List.append_assoc, List.cons_append, ← hu, ← hsplit] at hdecimal
  · have hhead : ∀ c ∈ (t.dropWhile Char.isDigit).head?, c ≠ '.' := by
      rintro c hc rfl
      obtain ⟨u, hu⟩ := List.head?_eq_some_iff.mp hc
      exact hpoint ⟨u, hu⟩
    rw [parseUnsigned_whole hhead] at h
    split at h
    · cases h
    · next hne =>
      obtain ⟨e, he, rfl⟩ := Option.map_eq_some_iff.mp h
      have hds := digits_ten_iff.mpr ⟨hne, mem_takeWhile_digit⟩
      have hdecimal := Unsigned.whole hds (takeExponent_iff.mp he)
      rwa [← hsplit] at hdecimal

theorem parseUnsigned_iff {t : List Char} {q : ℚ} : parseUnsigned t = some q ↔ Unsigned t q := by
  refine ⟨parseUnsigned_sound, ?_⟩
  rintro (⟨hds, hexp⟩ | ⟨hds, hexp⟩)
  · next ds exp e =>
    have hdigits := digits_ten_iff.mp hds
    obtain ⟨htake, hdrop⟩ := span_digits hdigits.2 fun c hc => (hexp.ends c hc).1
    rw [parseUnsigned_whole (by rw [hdrop]; exact fun c hc => (hexp.ends c hc).2), htake, hdrop,
      if_neg hdigits.1, takeExponent_iff.mpr hexp, Option.map_some]
  · next ds fs exp e =>
    have hdigits := digits_ten_iff.mp hds
    obtain ⟨htake, hdrop⟩ := @span_digits ds ('.' :: (fs ++ exp))
      (fun c hc => hdigits.2 c (List.mem_append_left fs hc)) (by rintro c ⟨⟩; decide)
    rw [List.append_assoc, List.cons_append, parseUnsigned_point hdrop
      (fun c hc => hdigits.2 c (List.mem_append_right ds hc)) (fun c hc => (hexp.ends c hc).1),
      htake, if_neg hdigits.1, takeExponent_iff.mpr hexp, Option.map_some]

theorem Unsigned.unmarked {t : List Char} {q : ℚ} (h : Unsigned t q) : Unmarked t := by
  cases h with
  | whole hds hexp => exact hds.unmarked (by decide)
  | @point ds fs exp e hds hexp =>
      cases ds with
      | nil =>
          rintro c ⟨⟩
          decide
      | cons c ds =>
          have hc := hds.2 c List.mem_cons_self
          exact unmarked_of_digit ((digitOf_lt_ten_iff c).mp hc)

theorem parseF64_iff {t : List Char} {neg : Bool} {q : ℚ} :
    parseF64 t = some (neg, q) ↔ ∃ sign u, Sign sign neg ∧ Unsigned u q ∧ t = sign ++ u := by
  constructor
  · intro h
    obtain ⟨sign, hsign, ht⟩ := takeSign_spec t
    unfold parseF64 at h
    dsimp only at h
    obtain ⟨q', hq, heq⟩ := Option.map_eq_some_iff.mp h
    obtain ⟨rfl, rfl⟩ := Prod.mk.inj heq
    exact ⟨sign, _, hsign, parseUnsigned_iff.mp hq, ht⟩
  · rintro ⟨sign, u, hsign, hu, rfl⟩
    unfold parseF64
    rw [takeSign_append hsign hu.unmarked]
    dsimp only
    rw [parseUnsigned_iff.mpr hu, Option.map_some]

/-! ### Reading a trimmed text -/

/-- A radix literal with a plus sign after its prefix, which `from_str_radix` reads. -/
def Signed (t : List Char) : Prop :=
  ∃ p ∈ radixPrefixes, ∃ ds, t = p.1 ++ '+' :: ds ∧ Digits p.2 ds ∧ number p.2 ds < 2 ^ 64

/-- What the server takes for a number. -/
def Taken (t : List Char) : Prop :=
  t = [] ∨ (Literal t ∧ ∀ n, RadixLiteral t n → n < 2 ^ 64) ∨ Signed t

theorem radix_unique {p p' : List Char × ℕ} {ds ds' : List Char} (hp : p ∈ radixPrefixes)
    (hp' : p' ∈ radixPrefixes) (h : p.1 ++ ds = p'.1 ++ ds') : p = p' ∧ ds = ds' := by
  have hlength : ∀ p ∈ radixPrefixes, p.1.length = 2 := by decide
  have hunique : ∀ p ∈ radixPrefixes, ∀ p' ∈ radixPrefixes, p.1 = p'.1 → p = p' := by decide
  obtain ⟨hpre, hds⟩ := List.append_inj h ((hlength p hp).trans (hlength p' hp').symm)
  exact ⟨hunique p hp p' hp' hpre, hds⟩

theorem findRadix_eq_some_iff {t ds : List Char} {radix : ℕ} :
    (radixPrefixes.findSome? fun p => (stripPrefix p.1 t).map fun ds => (p.2, ds)) =
      some (radix, ds) ↔ ∃ p ∈ radixPrefixes, p.2 = radix ∧ t = p.1 ++ ds := by
  have hsound : ∀ {r : ℕ × List Char},
      (radixPrefixes.findSome? fun p => (stripPrefix p.1 t).map fun ds => (p.2, ds)) = some r →
        ∃ p ∈ radixPrefixes, p.2 = r.1 ∧ t = p.1 ++ r.2 := by
    intro r h
    obtain ⟨p, hp, hstrip⟩ := List.exists_of_findSome?_eq_some h
    obtain ⟨u, hu, rfl⟩ := Option.map_eq_some_iff.mp hstrip
    exact ⟨p, hp, rfl, Paint.stripPrefix_eq_some.mp hu⟩
  refine ⟨hsound, ?_⟩
  rintro ⟨p, hp, rfl, ht⟩
  cases hfind : radixPrefixes.findSome? fun p => (stripPrefix p.1 t).map fun ds => (p.2, ds) with
  | none =>
      have hnone := List.findSome?_eq_none_iff.mp hfind p hp
      rw [Paint.stripPrefix_eq_some.mpr ht] at hnone
      cases hnone
  | some r =>
      obtain ⟨p', hp', hradix, ht'⟩ := hsound hfind
      obtain ⟨rfl, rfl⟩ := radix_unique hp hp' (ht.symm.trans ht')
      rw [hradix]

theorem radix_head {p : List Char × ℕ} (hp : p ∈ radixPrefixes) (ds : List Char) :
    (p.1 ++ ds).head? = some '0' := by
  have hhead : ∀ p ∈ radixPrefixes, p.1.head? = some '0' := by decide
  rw [List.head?_append, hhead p hp]
  rfl

theorem readTrimmed_radix {p : List Char × ℕ} (hp : p ∈ radixPrefixes) (ds : List Char) :
    readTrimmed (p.1 ++ ds) =
      ((fromStrRadix p.2 ds).map fun n : ℕ => Double.round false n).getD .nan := by
  have hne : ∀ {t : List Char}, t.head? ≠ some '0' → p.1 ++ ds ≠ t := fun ht h =>
    ht (h ▸ radix_head hp ds)
  unfold readTrimmed
  rw [if_neg (hne (by decide)), if_neg (not_or.mpr ⟨hne (by decide), hne (by decide)⟩),
    if_neg (hne (by decide)), findRadix_eq_some_iff.mpr ⟨p, hp, rfl, rfl⟩]

theorem readTrimmed_infinity {sign : List Char} {neg : Bool} (hsign : Sign sign neg) :
    readTrimmed (sign ++ infinity) = .inf neg := by
  cases hsign with
  | none => rfl
  | plus => rfl
  | minus => rfl

theorem Sign.chars {sign : List Char} {neg : Bool} (h : Sign sign neg) :
    ∀ c ∈ sign, decimalChar c = true := by
  cases h with
  | none => exact forall_mem_of_all rfl
  | plus => exact forall_mem_of_all rfl
  | minus => exact forall_mem_of_all rfl

theorem Digits.decimal {ds : List Char} (h : Digits 10 ds) : ∀ c ∈ ds, decimalChar c = true := by
  intro c hc
  unfold decimalChar
  rw [(digits_ten_iff.mp h).2 c hc, Bool.true_or]

theorem Exponent.chars {t : List Char} {e : ℤ} (h : Exponent t e) :
    ∀ c ∈ t, decimalChar c = true := by
  cases h with
  | none => exact fun c hc => absurd hc List.not_mem_nil
  | some hc hsign hds =>
      intro d hd
      simp only [List.cons_append, List.mem_cons, List.mem_append] at hd
      rcases hd with rfl | hd | hd
      · rcases hc with rfl | rfl
        · decide
        · decide
      · exact hsign.chars d hd
      · exact hds.decimal d hd

theorem Unsigned.chars {t : List Char} {q : ℚ} (h : Unsigned t q) :
    ∀ c ∈ t, decimalChar c = true := by
  intro c hc
  cases h with
  | whole hds hexp =>
      rcases List.mem_append.mp hc with hc | hc
      · exact hds.decimal c hc
      · exact hexp.chars c hc
  | point hds hexp =>
      simp only [List.mem_append, List.cons_append, List.append_assoc, List.mem_cons] at hc
      rcases hc with hc | rfl | hc | hc
      · exact hds.decimal c (List.mem_append_left _ hc)
      · decide
      · exact hds.decimal c (List.mem_append_right _ hc)
      · exact hexp.chars c hc

theorem Unsigned.ne_nil {q : ℚ} : ¬ Unsigned [] q := by
  intro h
  have hparse := parseUnsigned_iff.mpr h
  cases hparse

/-- A text of a decimal's letters is read as a decimal. -/
theorem readTrimmed_chars {t : List Char} (hne : t ≠ []) (ht : ∀ c ∈ t, decimalChar c = true) :
    readTrimmed t = ((parseF64 t).map fun d => Double.round d.1 d.2).getD .nan := by
  have hinf : ∀ {u : List Char}, 'I' ∈ u → t ≠ u := by
    rintro u hI rfl
    exact absurd (ht 'I' hI) (by decide)
  have hradix : (radixPrefixes.findSome? fun p => (stripPrefix p.1 t).map fun ds => (p.2, ds)) =
      none := by
    refine List.findSome?_eq_none_iff.mpr fun p hp => Option.map_eq_none_iff.mpr ?_
    have hletter : ∀ p ∈ radixPrefixes, (p.1.any fun c => !decimalChar c) = true := by decide
    obtain ⟨c, hc, hnot⟩ := List.any_eq_true.mp (hletter p hp)
    have hfalse : decimalChar c = false := (Bool.not_eq_eq_eq_not ..).mp hnot
    refine Option.eq_none_iff_forall_ne_some.mpr fun ds hds => ?_
    rw [Paint.stripPrefix_eq_some.mp hds] at ht
    have htrue := ht c (List.mem_append_left _ hc)
    rw [hfalse] at htrue
    cases htrue
  unfold readTrimmed
  rw [if_neg hne, if_neg (not_or.mpr ⟨hinf (by decide), hinf (by decide)⟩),
    if_neg (hinf (by decide)), hradix]
  dsimp only
  rw [List.all_eq_true.mpr ht, Bool.not_true, if_neg (by decide)]

theorem readTrimmed_decimal {sign u : List Char} {neg : Bool} {q : ℚ} (hsign : Sign sign neg)
    (hu : Unsigned u q) : readTrimmed (sign ++ u) = Double.round neg q := by
  have hne : sign ++ u ≠ [] := by
    intro h
    rw [(List.append_eq_nil_iff.mp h).2] at hu
    exact hu.ne_nil
  have hchars : ∀ c ∈ sign ++ u, decimalChar c = true := fun c hc =>
    (List.mem_append.mp hc).elim (hsign.chars c) (hu.chars c)
  rw [readTrimmed_chars hne hchars, parseF64_iff.mpr ⟨sign, u, hsign, hu, rfl⟩, Option.map_some,
    Option.getD_some]

theorem fromStrRadix_digits {radix : ℕ} {ds : List Char} (h : Digits radix ds)
    (hr : radix ≤ 36) : fromStrRadix radix ds =
      if number radix ds < 2 ^ 64 then some (number radix ds) else none := by
  unfold fromStrRadix
  dsimp only
  split
  · next c ds' =>
    have hmark := h.unmarked (t := []) hr
    exact absurd rfl (hmark '+' rfl).2
  · simp only [h, true_and]

theorem fromStrRadix_plus (radix : ℕ) (ds : List Char) : fromStrRadix radix ('+' :: ds) =
    if Digits radix ds ∧ number radix ds < 2 ^ 64 then some (number radix ds) else none := rfl

theorem fromStrRadix_sound {radix n : ℕ} {s : List Char} (h : fromStrRadix radix s = some n) :
    n < 2 ^ 64 ∧ ∃ ds, (s = ds ∨ s = '+' :: ds) ∧ Digits radix ds ∧ number radix ds = n := by
  unfold fromStrRadix at h
  dsimp only at h
  split at h
  · split at h
    · next hread =>
      cases h
      exact ⟨hread.2, _, .inr rfl, hread.1, rfl⟩
    · cases h
  · split at h
    · next hread =>
      cases h
      exact ⟨hread.2, _, .inl rfl, hread.1, rfl⟩
    · cases h

theorem radix_le : ∀ p ∈ radixPrefixes, p.2 ≤ 36 := by decide

theorem getD_round_ne_nan_iff {o : Option ℕ} :
    (o.map fun n : ℕ => Double.round false n).getD .nan ≠ .nan ↔ o.isSome := by
  cases o with
  | none => exact iff_of_false (fun h => h rfl) nofun
  | some n => exact iff_of_true (Double.round_ne_nan _ _) rfl

theorem RadixLiteral.unique {p : List Char × ℕ} {ds : List Char} {n : ℕ}
    (h : RadixLiteral (p.1 ++ ds) n) (hp : p ∈ radixPrefixes) :
    Digits p.2 ds ∧ n = number p.2 ds := by
  obtain ⟨p', hp', ds', ht, hds', rfl⟩ := h
  obtain ⟨rfl, rfl⟩ := radix_unique hp hp' ht
  exact ⟨hds', rfl⟩

/-- A radix literal is no decimal and not `Infinity`. -/
theorem Literal.radix_of_mem {p : List Char × ℕ} {ds t : List Char} (h : Literal t)
    (hp : p ∈ radixPrefixes) (ht : t = p.1 ++ ds) : ∃ n, RadixLiteral t n := by
  cases h with
  | radix hn => exact ⟨_, hn⟩
  | infinity hsign =>
      have hzero := radix_head hp ds
      rw [← ht] at hzero
      cases hsign with
      | none => exact absurd hzero (by decide)
      | plus => exact absurd hzero (by decide)
      | minus => exact absurd hzero (by decide)
  | decimal hsign hu =>
      have hletter : ∀ p ∈ radixPrefixes, (p.1.any fun c => !decimalChar c) = true := by decide
      obtain ⟨c, hc, hnot⟩ := List.any_eq_true.mp (hletter p hp)
      have hfalse : decimalChar c = false := (Bool.not_eq_eq_eq_not ..).mp hnot
      have hmem : c ∈ p.1 ++ ds := List.mem_append_left _ hc
      rw [← ht] at hmem
      have htrue := (List.mem_append.mp hmem).elim (hsign.chars c) (hu.chars c)
      rw [hfalse] at htrue
      cases htrue

theorem readTrimmed_ne_nan {t : List Char} (h : readTrimmed t ≠ .nan) : Taken t := by
  by_cases hradix : ∃ p ∈ radixPrefixes, ∃ ds, t = p.1 ++ ds
  · obtain ⟨p, hp, ds, rfl⟩ := hradix
    rw [readTrimmed_radix hp, getD_round_ne_nan_iff] at h
    obtain ⟨n, hn⟩ := Option.isSome_iff_exists.mp h
    obtain ⟨hlt, ds', rfl | rfl, hds, rfl⟩ := fromStrRadix_sound hn
    · refine .inr (.inl ⟨.radix ⟨p, hp, _, rfl, hds, rfl⟩, fun n hn' => ?_⟩)
      rw [(hn'.unique hp).2]
      exact hlt
    · exact .inr (.inr ⟨p, hp, ds', rfl, hds, hlt⟩)
  · have hno : ∀ n, RadixLiteral t n → n < 2 ^ 64 := by
      rintro n ⟨p, hp, ds, rfl, -⟩
      exact absurd ⟨p, hp, ds, rfl⟩ hradix
    unfold readTrimmed at h
    split at h
    · next ht => exact .inl ht
    split at h
    · next ht =>
      rcases ht with rfl | rfl
      · exact .inr (.inl ⟨.infinity .none, hno⟩)
      · exact .inr (.inl ⟨.infinity .plus, hno⟩)
    split at h
    · next ht =>
      subst ht
      exact .inr (.inl ⟨.infinity .minus, hno⟩)
    split at h
    · next hfind =>
      obtain ⟨p, hp, -, ht⟩ := findRadix_eq_some_iff.mp hfind
      exact absurd ⟨p, hp, _, ht⟩ hradix
    · split at h
      · exact absurd rfl h
      · cases hparse : parseF64 t with
        | none =>
            rw [hparse] at h
            exact absurd rfl h
        | some d =>
            obtain ⟨neg, q⟩ := d
            obtain ⟨sign, u, hsign, hu, rfl⟩ := parseF64_iff.mp hparse
            exact .inr (.inl ⟨.decimal hsign hu, hno⟩)

theorem readTrimmed_literal {t : List Char} (h : Literal t) :
    readTrimmed t ≠ .nan ↔ ∀ n, RadixLiteral t n → n < 2 ^ 64 := by
  by_cases hradix : ∃ p ∈ radixPrefixes, ∃ ds, t = p.1 ++ ds
  · obtain ⟨p, hp, ds, rfl⟩ := hradix
    obtain ⟨n, hn⟩ := h.radix_of_mem hp rfl
    obtain ⟨hds, rfl⟩ := hn.unique hp
    rw [readTrimmed_radix hp, getD_round_ne_nan_iff, fromStrRadix_digits hds (radix_le p hp)]
    constructor
    · intro hsome n hn'
      split at hsome
      · next hlt =>
        rw [(hn'.unique hp).2]
        exact hlt
      · cases hsome
    · intro hlt
      rw [if_pos (hlt _ hn)]
      rfl
  · refine iff_of_true ?_ ?_
    · cases h with
      | infinity hsign =>
          rw [readTrimmed_infinity hsign]
          rintro ⟨⟩
      | decimal hsign hu =>
          rw [readTrimmed_decimal hsign hu]
          exact Double.round_ne_nan _ _
      | radix hn =>
          obtain ⟨p, hp, ds, rfl, -⟩ := hn
          exact absurd ⟨p, hp, ds, rfl⟩ hradix
    · rintro n ⟨p, hp, ds, rfl, -⟩
      exact absurd ⟨p, hp, ds, rfl⟩ hradix

theorem readTrimmed_ne_nan_iff {t : List Char} : readTrimmed t ≠ .nan ↔ Taken t := by
  refine ⟨readTrimmed_ne_nan, ?_⟩
  rintro (rfl | ⟨ht, hlt⟩ | ⟨p, hp, ds, rfl, hds, hlt⟩)
  · rintro ⟨⟩
  · exact (readTrimmed_literal ht).mpr hlt
  · rw [readTrimmed_radix hp, getD_round_ne_nan_iff, fromStrRadix_plus, if_pos ⟨hds, hlt⟩]
    rfl

/-! ### White space -/

theorem trimBy_append {p : Char → Bool} {a t b : List Char} (ha : ∀ c ∈ a, p c = true)
    (ht : ∀ c ∈ t, p c = false) (hb : ∀ c ∈ b, p c = true) : trimBy p (a ++ (t ++ b)) = t := by
  have hkeep : ∀ {t u : List Char}, (∀ c ∈ t, p c = false) → t ≠ [] →
      (t ++ u).dropWhile p = t ++ u := by
    intro t u ht hne
    cases t with
    | nil => exact absurd rfl hne
    | cons c t => exact List.dropWhile_cons_of_neg (by rw [ht c List.mem_cons_self]; decide)
  rw [trimBy, List.dropWhile_append_of_pos ha]
  rcases eq_or_ne t [] with rfl | hne
  · rw [List.nil_append, List.dropWhile_eq_nil_iff.mpr hb, List.rdropWhile_nil]
  · have hreverse := hkeep (t := t.reverse) (u := [])
      (fun c hc => ht c (List.mem_reverse.mp hc)) (List.reverse_ne_nil_iff.mpr hne)
    rw [List.append_nil] at hreverse
    rw [hkeep ht hne, List.rdropWhile, List.reverse_append,
      List.dropWhile_append_of_pos (fun c hc => hb c (List.mem_reverse.mp hc)), hreverse,
      List.reverse_reverse]

theorem trimBy_spec (p : Char → Bool) (s : List Char) : ∃ a b, s = a ++ (trimBy p s ++ b) ∧
    (∀ c ∈ a, p c = true) ∧ ∀ c ∈ b, p c = true := by
  refine ⟨s.takeWhile p, (s.dropWhile p).rtakeWhile p, ?_, fun c hc => List.mem_takeWhile_imp hc,
    fun c hc => List.mem_rtakeWhile_imp hc⟩
  rw [trimBy, List.rdropWhile_append_rtakeWhile, List.takeWhile_append_dropWhile]

/-- A letter that no literal's reader takes off. -/
def Dark (c : Char) : Prop := isWhitespace c = false ∧ c ≠ '\ufeff'

theorem trimmed_eq {s : List Char} (h : ∀ c ∈ jsTrimmed s, Dark c) : trimmed s = jsTrimmed s := by
  obtain ⟨a, b, hs, ha, hb⟩ := trimBy_spec jsSpace s
  have hwider : ∀ c, jsSpace c = true → (isWhitespace c || c == '\ufeff') = true := by
    intro c hc
    simp only [jsSpace, isWhitespace, Bool.or_eq_true] at hc ⊢
    rcases hc with hc | hc
    · exact .inl (.inl hc)
    · exact .inr hc
  conv_lhs => rw [hs]
  refine trimBy_append (fun c hc => hwider c (ha c hc)) (fun c hc => ?_)
    fun c hc => hwider c (hb c hc)
  obtain ⟨hspace, hmark⟩ := h c hc
  rw [hspace, Bool.false_or, beq_eq_false_iff_ne]
  exact hmark

theorem dark_of_range {c : Char} (h : 32 < c.toNat ∧ c.toNat < 128) : Dark c := by
  have hblanks : ∀ b ∈ '\u0085' :: '\ufeff' :: blanks, b.toNat ≤ 32 ∨ 128 ≤ b.toNat :=
    forall_mem_of_all (by decide)
  have hno : c ∉ '\u0085' :: '\ufeff' :: blanks := by
    intro hc
    have := hblanks c hc
    omega
  simp only [List.mem_cons, not_or] at hno
  refine ⟨?_, hno.2.1⟩
  rw [isWhitespace, Bool.or_eq_false_iff]
  exact ⟨by simpa using hno.2.2, beq_eq_false_iff_ne.mpr hno.1⟩

theorem isDigit_range {c : Char} (h : c.isDigit = true) : 32 < c.toNat ∧ c.toNat < 128 := by
  simp only [Char.isDigit, Bool.and_eq_true, decide_eq_true_eq, UInt32.le_iff_toNat_le] at h
  have hlow : 48 ≤ c.toNat := h.1
  have hhigh : c.toNat ≤ 57 := h.2
  omega

theorem dark_of_digit {radix : ℕ} {c : Char} (h : digitOf c < radix) (hr : radix ≤ 36) :
    Dark c := by
  refine dark_of_range ?_
  unfold digitOf at h
  split at h
  · next hdigit => exact isDigit_range hdigit
  split at h
  · next hlower =>
    delta Char.isLower at hlower
    simp only [Bool.and_eq_true, decide_eq_true_eq, UInt32.le_iff_toNat_le] at hlower
    have hlow : 97 ≤ c.toNat := hlower.1
    have hhigh : c.toNat ≤ 122 := hlower.2
    omega
  split at h
  · next hupper =>
    delta Char.isUpper at hupper
    simp only [decide_eq_true_eq, UInt32.le_iff_toNat_le] at hupper
    have hlow : 65 ≤ c.toNat := hupper.1
    have hhigh : c.toNat ≤ 90 := hupper.2
    omega
  · omega

theorem dark_of_decimal {c : Char} (h : decimalChar c = true) : Dark c := by
  refine dark_of_range ?_
  rw [decimalChar, Bool.or_eq_true] at h
  rcases h with h | h
  · exact isDigit_range h
  · have hmarks : ∀ c ∈ ['.', 'e', 'E', '+', '-'], 32 < c.toNat ∧ c.toNat < 128 :=
      forall_mem_of_all (by decide)
    exact hmarks c (by simpa using h)

theorem Literal.dark {t : List Char} (h : Literal t) : ∀ c ∈ t, Dark c := by
  intro c hc
  cases h with
  | infinity hsign =>
      rcases List.mem_append.mp hc with hc | hc
      · exact dark_of_decimal (hsign.chars c hc)
      · have hletters : ∀ c ∈ Jinja.infinity, 32 < c.toNat ∧ c.toNat < 128 :=
          forall_mem_of_all (by decide)
        exact dark_of_range (hletters c hc)
  | decimal hsign hu =>
      rcases List.mem_append.mp hc with hc | hc
      · exact dark_of_decimal (hsign.chars c hc)
      · exact dark_of_decimal (hu.chars c hc)
  | radix hn =>
      obtain ⟨p, hp, ds, rfl, hds, -⟩ := hn
      rcases List.mem_append.mp hc with hc | hc
      · have hmarks : ∀ p ∈ radixPrefixes,
            (p.1.all fun c => decide (32 < c.toNat ∧ c.toNat < 128)) = true := by decide
        exact dark_of_range (forall_mem_of_all (hmarks p hp) c hc)
      · exact dark_of_digit (hds.2 c hc) (radix_le p hp)

/-! ### Agreement with JavaScript -/

/-- U+0085 stands at no end that the server reads, no radix literal is signed or over 64 bits. -/
structure PlainNumeral (s : List Char) : Prop where
  ends : trimmed s ≠ jsTrimmed s → ¬ Taken (trimmed s)
  unsigned : trimmed s = jsTrimmed s → ¬ Signed (jsTrimmed s)
  bounded : ∀ n, RadixLiteral (jsTrimmed s) n → n < 2 ^ 64

theorem Signed.not_literal {t : List Char} (h : Signed t) : ¬ (t = [] ∨ Literal t) := by
  obtain ⟨p, hp, ds, rfl, -⟩ := h
  rintro (hnil | hliteral)
  · have hzero := radix_head hp ('+' :: ds)
    rw [hnil] at hzero
    cases hzero
  · obtain ⟨n, hn⟩ := hliteral.radix_of_mem hp rfl
    have hmark := (hn.unique hp).1.unmarked (t := []) (radix_le p hp)
    exact absurd rfl (hmark '+' rfl).2

theorem trimmed_of_literal {s : List Char} (h : jsTrimmed s = [] ∨ Literal (jsTrimmed s)) :
    trimmed s = jsTrimmed s := by
  refine trimmed_eq ?_
  rcases h with h | h
  · rw [h]
    exact fun c hc => absurd hc List.not_mem_nil
  · exact h.dark

theorem IntegerLiteral.literal {t : List Char} {neg : Bool} {n : ℕ}
    (h : IntegerLiteral t neg n) : Literal t := by
  cases h with
  | decimal hsign hds =>
      have hu := Unsigned.whole hds .none
      rw [List.append_nil] at hu
      exact .decimal hsign hu
  | radix hn => exact .radix hn

theorem readTrimmed_integer {t : List Char} {neg : Bool} {n : ℕ} (h : IntegerLiteral t neg n)
    (hn : Double.Representable n) (hlt : ∀ n, RadixLiteral t n → n < 2 ^ 64) :
    (readTrimmed t).value = some (if neg then -(n : ℚ) else n) := by
  cases h with
  | decimal hsign hds =>
      have hu := Unsigned.whole hds .none
      rw [List.append_nil, zpow_zero, mul_one] at hu
      rw [readTrimmed_decimal hsign hu, Double.round_eq hn]
      rfl
  | radix hradix =>
      have hbound := hlt n hradix
      obtain ⟨p, hp, ds, rfl, hds, rfl⟩ := hradix
      rw [readTrimmed_radix hp, fromStrRadix_digits hds (radix_le p hp), if_pos hbound,
        Option.map_some, Option.getD_some, Double.round_eq hn]
      rfl

theorem ReadsAsJs.plain {s : List Char} (h : ReadsAsJs s) : PlainNumeral s := by
  have hnan := h.nan
  rw [stringToNumber, readTrimmed_ne_nan_iff] at hnan
  refine ⟨fun hne ht => hne (trimmed_of_literal (hnan.mp ht)), fun heq hsigned => ?_, ?_⟩
  · exact hsigned.not_literal (hnan.mp (.inr (.inr (heq ▸ hsigned))))
  · intro n hn
    have hliteral := Literal.radix hn
    have hread := h.nan.mpr (.inr hliteral)
    rw [stringToNumber, trimmed_of_literal (.inr hliteral)] at hread
    exact (readTrimmed_literal hliteral).mp hread n hn

/-- **`string_to_number` reads a string as JavaScript does exactly when no U+0085 at an end is
taken off before a number, and no radix literal has a sign or more than 64 bits.** -/
theorem string_to_number_iff (s : List Char) : ReadsAsJs s ↔ PlainNumeral s := by
  refine ⟨ReadsAsJs.plain, ?_⟩
  rintro ⟨hends, hunsigned, hbounded⟩
  refine ⟨?_, fun neg n hinteger hn => ?_⟩
  · rw [stringToNumber, readTrimmed_ne_nan_iff]
    constructor
    · intro ht
      have heq : trimmed s = jsTrimmed s := by_contra fun hne => hends hne ht
      rw [heq] at ht
      rcases ht with ht | ⟨ht, -⟩ | ht
      · exact .inl ht
      · exact .inr ht
      · exact absurd ht (hunsigned heq)
    · intro ht
      rw [trimmed_of_literal ht]
      exact ht.elim .inl fun ht => .inr (.inl ⟨ht, hbounded⟩)
  · rw [stringToNumber, trimmed_of_literal (.inr hinteger.literal)]
    exact readTrimmed_integer hinteger hn hbounded

/-- `from_str_radix` takes the sign of `0x+5`, which JavaScript does not read. -/
theorem string_to_number_signed : ¬ ReadsAsJs ['0', 'x', '+', '5'] := by
  intro h
  have hsigned : Signed ['0', 'x', '+', '5'] :=
    ⟨(['0', 'x'], 16), by decide, ['5'], by decide, ⟨by decide, forall_mem_of_all rfl⟩, by decide⟩
  exact h.plain.unsigned (by decide) hsigned

end Brust.Jinja
