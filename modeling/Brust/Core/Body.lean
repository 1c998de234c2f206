import Brust.Core.Path.Bytes
import Brust.Paint.Server
import Brust.Support.Base64

/-!
# Core — request bodies

How the body of a request goes into the JSON that reaches the actions: as a text where the content
type is textual and the bytes are UTF-8, as base64 otherwise.  Either way the reader has the bytes
back (`decodeBody_encodeBody`).
-/

namespace Brust.Core.Body

open Base64 (Alphabet standard)
open Path (utf8_of_fromUtf8)

/-- `FetchBody`; of the last two the bytes cross elsewhere. -/
inductive FetchBody where
  | text (s : String)
  | b64 (s : String)
  | heap (len : ℕ)
  | stream (length : Option ℕ) (token : ℕ)
deriving DecidableEq

/-! ### The encoder -/

def A : List Char := "ABCDEFGHIJKLMNOPQRSTUVWXYZabcdefghijklmnopqrstuvwxyz0123456789+/".toList

/-- `A[i]` -/
def letter (i : ℕ) : Char := A.getD i '='

/-- `chunks(3)` -/
def chunks : List UInt8 → List (List UInt8)
  | [] => []
  | a :: b :: c :: rest => [a, b, c] :: chunks rest
  | rest => [rest]

/-- What the loop pushes for a chunk, which is never empty. -/
def pushed (c : List UInt8) : List Char :=
  let n := (c.getD 0 0).toUInt32 <<< 16 ||| (c.getD 1 0).toUInt32 <<< 8 ||| (c.getD 2 0).toUInt32
  [letter ((n >>> 18).toNat &&& 63), letter ((n >>> 12).toNat &&& 63),
    if 1 < c.length then letter ((n >>> 6).toNat &&& 63) else '=',
    if 2 < c.length then letter (n.toNat &&& 63) else '=']

/-- `b64` -/
def b64 (b : List UInt8) : String := String.ofList ((chunks b).flatMap pushed)

/-- The media type without its parameters, in lower case. -/
def essence (ct : String) : List Char :=
  (Paint.trim (ct.toList.takeWhile (· ≠ ';'))).map Char.toLower

def textual (ct : String) : Bool :=
  ["", "application/json", "application/x-www-form-urlencoded"].contains
    (String.ofList (essence ct)) ||
    "+json".toList.isSuffixOf (essence ct) || "text/".toList.isPrefixOf (essence ct)

/-- `encode_body` -/
def encodeBody (ct : String) (b : List UInt8) : FetchBody :=
  if textual ct then
    match fromUtf8 b with
    | some s => .text s
    | none => .b64 (b64 b)
  else .b64 (b64 b)

/-- The bytes that a body carries in itself. -/
def decodeBody : FetchBody → Option (List UInt8)
  | .text s => some (utf8 s)
  | .b64 s => standard.decode s.toList
  | .heap _ => none
  | .stream _ _ => none

/-! ### The encoder writes base64 -/

theorem and_63 (n : ℕ) : n &&& 63 = n % 64 := Nat.and_two_pow_sub_one_eq_mod n 6

theorem toNat_shiftRight (n k : UInt32) (h : k.toNat < 32) :
    (n >>> k).toNat = n.toNat / 2 ^ k.toNat := by
  rw [UInt32.toNat_shiftRight, Nat.mod_eq_of_lt h, Nat.shiftRight_eq_div_pow]

/-- The number of three bytes. -/
theorem toNat_number (a b c : UInt8) :
    (a.toUInt32 <<< 16 ||| b.toUInt32 <<< 8 ||| c.toUInt32).toNat =
      (a.toNat * 256 + b.toNat) * 256 + c.toNat := by
  have ha := a.toNat_lt
  have hb := b.toNat_lt
  have hc := c.toNat_lt
  have hhigh : (a.toUInt32 <<< 16).toNat = 2 ^ 16 * a.toNat := by
    rw [UInt32.toNat_shiftLeft, Nat.shiftLeft_eq, UInt8.toNat_toUInt32,
      show UInt32.toNat 16 % 32 = 16 from rfl]
    omega
  have hmid : (b.toUInt32 <<< 8).toNat = 2 ^ 8 * b.toNat := by
    rw [UInt32.toNat_shiftLeft, Nat.shiftLeft_eq, UInt8.toNat_toUInt32,
      show UInt32.toNat 8 % 32 = 8 from rfl]
    omega
  have hlow : 2 ^ 8 * b.toNat ||| c.toNat = 2 ^ 8 * b.toNat + c.toNat :=
    (Nat.two_pow_add_eq_or_of_lt hc b.toNat).symm
  rw [UInt32.toNat_or, UInt32.toNat_or, hhigh, hmid, UInt8.toNat_toUInt32, Nat.or_assoc, hlow,
    ← Nat.two_pow_add_eq_or_of_lt (by omega)]
  omega

/-- The letters of a number, read off its bits. -/
theorem letters_number (a b c : UInt8) :
    let m := a.toUInt32 <<< 16 ||| b.toUInt32 <<< 8 ||| c.toUInt32
    let n := (a.toNat * 256 + b.toNat) * 256 + c.toNat
    letter ((m >>> 18).toNat &&& 63) = standard.letter (n / 262144) ∧
      letter ((m >>> 12).toNat &&& 63) = standard.letter (n / 4096 % 64) ∧
      letter ((m >>> 6).toNat &&& 63) = standard.letter (n / 64 % 64) ∧
      letter (m.toNat &&& 63) = standard.letter (n % 64) := by
  intro m n
  have ha := a.toNat_lt
  have hn : m.toNat = n := toNat_number a b c
  have htop : n / 262144 % 64 = n / 262144 := by
    have hb := b.toNat_lt
    have hc := c.toNat_lt
    have : n = (a.toNat * 256 + b.toNat) * 256 + c.toNat := rfl
    omega
  rw [toNat_shiftRight _ _ (by decide), toNat_shiftRight _ _ (by decide),
    toNat_shiftRight _ _ (by decide), hn]
  simp only [and_63, UInt32.reduceToNat, Nat.reducePow, htop]
  exact ⟨rfl, rfl, rfl, rfl⟩

/-- A whole chunk is a group of four letters. -/
theorem pushed_three (a b c : UInt8) :
    let n := (a.toNat * 256 + b.toNat) * 256 + c.toNat
    pushed [a, b, c] = [standard.letter (n / 262144), standard.letter (n / 4096 % 64),
      standard.letter (n / 64 % 64), standard.letter (n % 64)] := by
  intro n
  obtain ⟨h₁, h₂, h₃, h₄⟩ := letters_number a b c
  rw [← h₁, ← h₂, ← h₃, ← h₄]
  rfl

theorem pushed_two (a b : UInt8) : pushed [a, b] = standard.encode [a, b] := by
  obtain ⟨h₁, h₂, h₃, -⟩ := letters_number a b 0
  have hb := b.toNat_lt
  have e₁ : (a.toNat * 256 + b.toNat) * 4 / 4096 =
      ((a.toNat * 256 + b.toNat) * 256 + (0 : UInt8).toNat) / 262144 := by
    rw [UInt8.toNat_zero]
    omega
  have e₂ : (a.toNat * 256 + b.toNat) * 4 / 64 % 64 =
      ((a.toNat * 256 + b.toNat) * 256 + (0 : UInt8).toNat) / 4096 % 64 := by
    rw [UInt8.toNat_zero]
    omega
  have e₃ : (a.toNat * 256 + b.toNat) * 4 % 64 =
      ((a.toNat * 256 + b.toNat) * 256 + (0 : UInt8).toNat) / 64 % 64 := by
    rw [UInt8.toNat_zero]
    omega
  rw [Alphabet.encode, e₁, e₂, e₃, ← h₁, ← h₂, ← h₃]
  rfl

theorem pushed_one (a : UInt8) : pushed [a] = standard.encode [a] := by
  obtain ⟨h₁, h₂, -, -⟩ := letters_number a 0 0
  have e₁ : a.toNat * 16 / 64 =
      ((a.toNat * 256 + (0 : UInt8).toNat) * 256 + (0 : UInt8).toNat) / 262144 := by
    rw [UInt8.toNat_zero]
    omega
  have e₂ : a.toNat * 16 % 64 =
      ((a.toNat * 256 + (0 : UInt8).toNat) * 256 + (0 : UInt8).toNat) / 4096 % 64 := by
    rw [UInt8.toNat_zero]
    omega
  rw [Alphabet.encode, e₁, e₂, ← h₁, ← h₂]
  rfl

/-- **The encoder writes the base64 of the bytes.** -/
theorem b64_eq_encode (b : List UInt8) : (b64 b).toList = standard.encode b := by
  rw [b64, String.toList_ofList]
  induction b using Base64.Alphabet.encode.induct with
  | case1 => rfl
  | case2 a => exact (List.append_nil _).trans (pushed_one a)
  | case3 a b => exact (List.append_nil _).trans (pushed_two a b)
  | case4 a b c rest ih => rw [chunks, List.flatMap_cons, pushed_three, ih]; rfl

example : b64 [0, 1, 255] = "AAH/" := by decide

/-! ### Either way the bytes come back -/

theorem decodeBody_b64 (b : List UInt8) : decodeBody (.b64 (b64 b)) = some b := by
  rw [decodeBody, b64_eq_encode, standard.decode_encode]

/-- **The encoding is lossless.** -/
theorem decodeBody_encodeBody (ct : String) (b : List UInt8) :
    decodeBody (encodeBody ct b) = some b := by
  rw [encodeBody]
  split
  · cases htext : fromUtf8 b with
    | some s => exact congrArg some (utf8_of_fromUtf8 htext)
    | none => exact decodeBody_b64 b
  · exact decodeBody_b64 b

end Brust.Core.Body
