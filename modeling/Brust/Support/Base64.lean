import Mathlib.Data.List.GetD
import Mathlib.Data.List.Nodup

/-!
# Support — base64

The encoding of bytes in an alphabet of sixty-four letters and a pad: three bytes are four letters,
and a rest of one or two bytes is padded to four.  A text is read strictly, with the bits behind
the last byte zero and the pads at the end only.  What is written is read back
(`Alphabet.decode_encode`).
-/

namespace Brust.Base64

/-- The letters of the values from 0 to 63, and the pad, which is none of them. -/
structure Alphabet (α : Type) where
  letters : List α
  pad : α
  length_letters : letters.length = 64
  nodup : (pad :: letters).Nodup

namespace Alphabet

variable {α : Type} [DecidableEq α] (A : Alphabet α)

/-- The letter of a value. -/
def letter (v : ℕ) : α := A.letters.getD v A.pad

/-- The value of a letter. -/
def value (c : α) : Option ℕ :=
  if c ∈ A.letters then some (A.letters.idxOf c) else none

/-- The letters of some bytes: each group of three is a number of twenty-four bits. -/
def encode : List UInt8 → List α
  | [] => []
  | [a] =>
    let n := a.toNat * 16
    [A.letter (n / 64), A.letter (n % 64), A.pad, A.pad]
  | [a, b] =>
    let n := (a.toNat * 256 + b.toNat) * 4
    [A.letter (n / 4096), A.letter (n / 64 % 64), A.letter (n % 64), A.pad]
  | a :: b :: c :: rest =>
    let n := (a.toNat * 256 + b.toNat) * 256 + c.toNat
    A.letter (n / 262144) :: A.letter (n / 4096 % 64) :: A.letter (n / 64 % 64) ::
      A.letter (n % 64) :: encode rest

/-- The three bytes of four letters. -/
def group (w x y z : α) : Option (List UInt8) := do
  let n := ((((← A.value w) * 64 + (← A.value x)) * 64 + (← A.value y)) * 64 + (← A.value z))
  some [.ofNat (n / 65536), .ofNat (n / 256 % 256), .ofNat (n % 256)]

/-- The bytes of the last four characters: a pad is a byte less, and leaves bits that are zero. -/
def last (w x y z : α) : Option (List UInt8) :=
  if z = A.pad then
    if y = A.pad then do
      let n := (← A.value w) * 64 + (← A.value x)
      if n % 16 = 0 then some [.ofNat (n / 16)] else none
    else do
      let n := ((← A.value w) * 64 + (← A.value x)) * 64 + (← A.value y)
      if n % 4 = 0 then some [.ofNat (n / 4 / 256), .ofNat (n / 4 % 256)] else none
  else A.group w x y z

/-- The bytes of a text. -/
def decode : List α → Option (List UInt8)
  | [] => some []
  | w :: x :: y :: z :: rest =>
    if rest = [] then A.last w x y z
    else do
      let bytes ← A.group w x y z
      let more ← decode rest
      some (bytes ++ more)
  | _ => none

/-! ### Letters -/

omit [DecidableEq α] in
theorem letter_eq {v : ℕ} (hv : v < 64) :
    A.letter v = A.letters.get ⟨v, A.length_letters.symm ▸ hv⟩ := by
  rw [letter, List.getD_eq_getElem _ _ (A.length_letters.symm ▸ hv)]
  rfl

theorem value_letter {v : ℕ} (hv : v < 64) : A.value (A.letter v) = some v := by
  rw [A.letter_eq hv, value, if_pos (List.get_mem _ _)]
  exact congrArg some (List.get_idxOf A.nodup.of_cons ⟨v, A.length_letters.symm ▸ hv⟩)

omit [DecidableEq α] in
theorem letter_ne_pad {v : ℕ} (hv : v < 64) : A.letter v ≠ A.pad := by
  rw [A.letter_eq hv]
  exact fun h => (List.nodup_cons.mp A.nodup).1 (h ▸ List.get_mem _ _)

/-! ### Groups -/

theorem group_letters (a b c : UInt8) :
    let n := (a.toNat * 256 + b.toNat) * 256 + c.toNat
    A.group (A.letter (n / 262144)) (A.letter (n / 4096 % 64)) (A.letter (n / 64 % 64))
      (A.letter (n % 64)) = some [a, b, c] := by
  intro n
  have ha := a.toNat_lt
  have hb := b.toNat_lt
  have hc := c.toNat_lt
  have hn : n = (a.toNat * 256 + b.toNat) * 256 + c.toNat := rfl
  have hsum : ((n / 262144 * 64 + n / 4096 % 64) * 64 + n / 64 % 64) * 64 + n % 64 = n := by
    omega
  have h₁ : n / 65536 = a.toNat := by omega
  have h₂ : n / 256 % 256 = b.toNat := by omega
  have h₃ : n % 256 = c.toNat := by omega
  rw [group, A.value_letter (by omega), A.value_letter (by omega), A.value_letter (by omega),
    A.value_letter (by omega)]
  simp only [Option.bind_eq_bind, Option.bind_some, hsum, h₁, h₂, h₃, UInt8.ofNat_toNat]

theorem last_one (a : UInt8) :
    let n := a.toNat * 16
    A.last (A.letter (n / 64)) (A.letter (n % 64)) A.pad A.pad = some [a] := by
  intro n
  have ha := a.toNat_lt
  have hn : n = a.toNat * 16 := rfl
  have hsum : n / 64 * 64 + n % 64 = n := by omega
  have hzero : n % 16 = 0 := by omega
  have h₁ : n / 16 = a.toNat := by omega
  rw [last, if_pos rfl, if_pos rfl, A.value_letter (by omega), A.value_letter (by omega)]
  simp only [Option.bind_eq_bind, Option.bind_some, hsum, hzero, h₁, if_true, UInt8.ofNat_toNat]

theorem last_two (a b : UInt8) :
    let n := (a.toNat * 256 + b.toNat) * 4
    A.last (A.letter (n / 4096)) (A.letter (n / 64 % 64)) (A.letter (n % 64)) A.pad =
      some [a, b] := by
  intro n
  have ha := a.toNat_lt
  have hb := b.toNat_lt
  have hn : n = (a.toNat * 256 + b.toNat) * 4 := rfl
  have hsum : (n / 4096 * 64 + n / 64 % 64) * 64 + n % 64 = n := by omega
  have hzero : n % 4 = 0 := by omega
  have h₁ : n / 4 / 256 = a.toNat := by omega
  have h₂ : n / 4 % 256 = b.toNat := by omega
  rw [last, if_pos rfl, if_neg (A.letter_ne_pad (by omega)), A.value_letter (by omega),
    A.value_letter (by omega), A.value_letter (by omega)]
  simp only [Option.bind_eq_bind, Option.bind_some, hsum, hzero, h₁, h₂, if_true,
    UInt8.ofNat_toNat]

/-- Three bytes more are a group more, which is the last one where nothing is behind it. -/
theorem decode_group (a b c : UInt8) {rest : List α} {bytes : List UInt8}
    (hrest : A.decode rest = some bytes) :
    let n := (a.toNat * 256 + b.toNat) * 256 + c.toNat
    A.decode (A.letter (n / 262144) :: A.letter (n / 4096 % 64) :: A.letter (n / 64 % 64) ::
      A.letter (n % 64) :: rest) = some (a :: b :: c :: bytes) := by
  intro n
  have hgroup := A.group_letters a b c
  rw [decode]
  by_cases hnil : rest = []
  · subst hnil
    cases hrest
    rw [if_pos rfl, last, if_neg (A.letter_ne_pad (Nat.mod_lt _ (by decide)))]
    exact hgroup
  · rw [if_neg hnil]
    simp only [n, hgroup, hrest, Option.bind_eq_bind, Option.bind_some]
    rfl

/-- **What is written is read back.** -/
theorem decode_encode (bytes : List UInt8) : A.decode (A.encode bytes) = some bytes := by
  induction bytes using encode.induct with
  | case1 => rfl
  | case2 a => exact (if_pos rfl).trans (A.last_one a)
  | case3 a b => exact (if_pos rfl).trans (A.last_two a b)
  | case4 a b c rest ih => exact A.decode_group a b c ih

end Alphabet

/-- The standard alphabet of RFC 4648. -/
def standard : Alphabet Char where
  letters := "ABCDEFGHIJKLMNOPQRSTUVWXYZabcdefghijklmnopqrstuvwxyz0123456789+/".toList
  pad := '='
  length_letters := by decide +kernel
  nodup := by decide +kernel

end Brust.Base64
