import Brust.Core.Path.Bytes

/-!
# Core — paths as characters

The normalisation of the bytes is that of the characters (`normalize_false`), which is the one the
router's paths and the cache keys are modelled with.
-/

namespace Brust.Core.Path

open Brust.Routing (encodeFrom encodeFrom_cons encodeChar encodeByte hexUpper upperHex isLowerHex
  escapeAt_hex escape_eq_some normalize_eq_encodeFrom normalizeRequestPath)

/-! ### What is written for a character -/

/-- The ASCII characters and their bytes, one by one. -/
theorem ascii_table : ∀ n < 128, String.utf8EncodeChar (Char.ofNat n) = [UInt8.ofNat n] ∧
    isHexDigit (UInt8.ofNat n) = Routing.isHexDigit (Char.ofNat n) ∧
    (Routing.isHexDigit (Char.ofNat n) = true →
      String.utf8EncodeChar (upperHex (Char.ofNat n)) = [toUppercase (UInt8.ofNat n)]) ∧
    needsEncode (UInt8.ofNat n) = Routing.needsEncode n ∧
    (UInt8.ofNat n = 0x25 → Char.ofNat n = '%') := by
  decide +kernel

/-- What is written for a hex digit, as a character and as a byte. -/
theorem encoded_hex {c : Char} (h : Routing.isHexDigit c = true) :
    String.utf8EncodeChar c = [UInt8.ofNat c.toNat] ∧
      isHexDigit (UInt8.ofNat c.toNat) = true ∧
      String.utf8EncodeChar (upperHex c) = [toUppercase (UInt8.ofNat c.toNat)] := by
  have hlt : c.toNat < 128 := by
    simp only [Routing.isHexDigit, Bool.or_eq_true, Bool.and_eq_true, decide_eq_true_eq,
      Char.le_def, UInt32.le_iff_toNat_le] at h
    rcases h with (⟨-, h⟩ | ⟨-, h⟩) | ⟨-, h⟩
    · exact Nat.lt_of_le_of_lt h (by decide)
    · exact Nat.lt_of_le_of_lt h (by decide)
    · exact Nat.lt_of_le_of_lt h (by decide)
  obtain ⟨he, hhex, hupper, -⟩ := ascii_table c.toNat hlt
  rw [Char.ofNat_toNat] at he hhex hupper
  exact ⟨he, hhex.trans h, hupper h⟩

theorem encoded_hexUpper {n : ℕ} (h : n < 16) :
    String.utf8EncodeChar (hexUpper n) = [hexDigit n] := by
  have hall : ∀ n < 16, String.utf8EncodeChar (hexUpper n) = [hexDigit n] := by decide +kernel
  exact hall n h

theorem encoded_encodeChar (c : Char) : encoded (encodeChar c) =
    (String.utf8EncodeChar c).flatMap fun b =>
      [0x25, hexDigit (b.toNat / 16), hexDigit (b.toNat % 16)] := by
  rw [encodeChar, encoded, List.flatMap_assoc]
  congr 1
  funext b
  have hlt : b.toNat < 256 := b.toNat_lt
  rw [encodeByte, List.flatMap_cons, List.flatMap_cons, List.flatMap_cons,
    encoded_hexUpper (by omega), encoded_hexUpper (by omega)]
  rfl

theorem rewritten_encode {braces : Bool} {bs s t : List UInt8}
    (hbs : ∀ b ∈ bs, needsEncode b = true) (h : Rewritten braces 0 s t) :
    Rewritten braces 0 (bs ++ s)
      ((bs.flatMap fun b => [0x25, hexDigit (b.toNat / 16), hexDigit (b.toNat % 16)]) ++ t) := by
  induction bs with
  | nil => exact h
  | cons b bs ih =>
      exact .encode (hbs b List.mem_cons_self)
        (ih fun b' hb' => hbs b' (List.mem_cons_of_mem _ hb'))

/-- A character that is encoded has only bytes that are; another is its own byte. -/
theorem utf8EncodeChar_needsEncode (c : Char) :
    (Routing.needsEncode c.toNat = true → ∀ b ∈ String.utf8EncodeChar c, needsEncode b = true) ∧
      (Routing.needsEncode c.toNat = false → ∃ b, String.utf8EncodeChar c = [b] ∧
        needsEncode b = false ∧ (b = 0x25 → c = '%')) := by
  by_cases hlow : c.toNat < 128
  · obtain ⟨he, -, -, hn, hpercent⟩ := ascii_table c.toNat hlow
    rw [Char.ofNat_toNat] at he hpercent
    rw [he]
    refine ⟨fun h b hb => ?_, fun h => ⟨_, rfl, hn.trans h, hpercent⟩⟩
    rw [List.mem_singleton.mp hb, hn, h]
  · have hn : Routing.needsEncode c.toNat = true := by
      rw [Routing.needsEncode, decide_eq_true (Nat.not_lt.mp hlow)]
      rfl
    refine ⟨fun _ b hb => needsEncode_high ?_, fun h => ?_⟩
    · rcases utf8EncodeChar_cases c with ⟨b', -, he⟩ | ⟨b', bs, he, -, hall⟩
      · have hsize := String.length_utf8EncodeChar c
        rw [he, List.length_singleton, eq_comm, Char.utf8Size_eq_one_iff,
          UInt32.le_iff_toNat_le] at hsize
        exact absurd (Nat.lt_succ_of_le hsize) hlow
      · exact hall b (he ▸ hb)
    · rw [hn] at h
      cases h

/-- An ASCII byte of a text is a character. -/
theorem encoded_ascii_cons {cs : List Char} {b : UInt8} {s : List UInt8} (hb : b.toNat < 0x80)
    (h : encoded cs = b :: s) :
    ∃ c cs', cs = c :: cs' ∧ String.utf8EncodeChar c = [b] ∧ encoded cs' = s := by
  cases cs with
  | nil => cases h
  | cons c cs' =>
      rw [encoded_cons] at h
      rcases utf8EncodeChar_cases c with ⟨b', -, he⟩ | ⟨b', bs, he, -, hall⟩
      · rw [he] at h
        obtain ⟨rfl, hs⟩ := List.cons.inj h
        exact ⟨c, cs', rfl, he, hs⟩
      · rw [he] at h
        obtain ⟨rfl, -⟩ := List.cons.inj h
        exact absurd hb (Nat.not_lt.mpr (hall b' List.mem_cons_self))

/-- The character of one byte. -/
theorem of_utf8EncodeChar {c : Char} {b : UInt8} (h : String.utf8EncodeChar c = [b]) :
    c.toNat < 128 ∧ b = UInt8.ofNat c.toNat := by
  have hsize := String.length_utf8EncodeChar c
  rw [h, List.length_singleton, eq_comm, Char.utf8Size_eq_one_iff, UInt32.le_iff_toNat_le] at hsize
  have hlow : c.toNat < 128 := Nat.lt_succ_of_le hsize
  have hc := (ascii_table c.toNat hlow).1
  rw [Char.ofNat_toNat, h] at hc
  exact ⟨hlow, List.head_eq_of_cons_eq hc⟩

/-- A hex digit of the bytes is one of the characters. -/
theorem isHexDigit_char {c : Char} {b : UInt8} (h : String.utf8EncodeChar c = [b])
    (hb : isHexDigit b = true) : Routing.isHexDigit c = true := by
  obtain ⟨hlow, rfl⟩ := of_utf8EncodeChar h
  have hc := (ascii_table c.toNat hlow).2.1
  rwa [hb, Char.ofNat_toNat, eq_comm] at hc

/-- An escape of the bytes is one of the characters. -/
theorem escapeAt_encoded {cs : List Char} (h : Routing.escapeAt cs = none) :
    escapeAt (encoded cs) = none := by
  refine Option.eq_none_iff_forall_ne_some.mpr fun ⟨x, y⟩ hsome => ?_
  obtain ⟨hx, hy, s, hs⟩ := escapeAt_eq_some hsome
  obtain ⟨c, cs', rfl, hc, hs⟩ := encoded_ascii_cons (by decide) hs
  obtain ⟨cx, cs', rfl, hcx, hs⟩ := encoded_ascii_cons (hex_ascii hx).1 hs
  obtain ⟨cy, cs', rfl, hcy, -⟩ := encoded_ascii_cons (hex_ascii hy).1 hs
  obtain rfl : c = '%' := by
    obtain ⟨hlow, hb⟩ := of_utf8EncodeChar hc
    have hall : ∀ n < 128, 0x25 = UInt8.ofNat n → Char.ofNat n = '%' := by decide
    have hpercent := hall c.toNat hlow hb
    rwa [Char.ofNat_toNat] at hpercent
  rw [Routing.escapeAt, isHexDigit_char hcx hx, isHexDigit_char hcy hy] at h
  cases h

theorem rewritten_encodeFrom (cs : List Char) :
    Rewritten false 0 (encoded cs) (encoded (encodeFrom false 0 0 cs)) := by
  -- an escape is three characters, so the induction is on the length
  obtain ⟨n, hn⟩ : ∃ n, cs.length ≤ n := ⟨_, Nat.le_refl _⟩
  induction n generalizing cs with
  | zero =>
      rw [List.eq_nil_of_length_eq_zero (Nat.le_zero.mp hn)]
      exact .nil 0
  | succ n ih =>
      match cs with
      | [] => exact .nil 0
      | c :: rest =>
          have hrest : rest.length ≤ n := Nat.le_of_succ_le_succ hn
          cases hescape : Routing.escapeAt (c :: rest) with
          | some e =>
              obtain ⟨x, y, r⟩ := e
              obtain ⟨hx, hy⟩ := escapeAt_hex hescape
              obtain ⟨rfl, rfl⟩ := List.cons.inj (escape_eq_some hescape)
              obtain ⟨hex, hxhex, hux⟩ := encoded_hex hx
              obtain ⟨hey, hyhex, huy⟩ := encoded_hex hy
              have hpercent : String.utf8EncodeChar '%' = [0x25] := by decide
              have hr : r.length ≤ n := by
                simp only [List.length_cons] at hrest
                omega
              rw [encodeFrom_cons, hescape]
              simp only [encoded_cons, hpercent, hex, hey, hux, huy]
              exact .escape hxhex hyhex (ih r hr)
          | none =>
              rw [encodeFrom_cons, hescape]
              cases hneeds : Routing.needsEncode c.toNat with
              | true =>
                  simp only [if_true, encoded_append, encoded_encodeChar, encoded_cons]
                  exact rewritten_encode ((utf8EncodeChar_needsEncode c).1 hneeds) (ih rest hrest)
              | false =>
                  obtain ⟨b, hb, hn, -⟩ := (utf8EncodeChar_needsEncode c).2 hneeds
                  have hnone := escapeAt_encoded hescape
                  simp only [Bool.false_eq_true, if_false, encoded_cons, hb] at hnone ⊢
                  exact .plain rfl hn hnone (ih rest hrest)

/-- **The bytes and the characters of a request path are normalised alike.** -/
theorem normalize_false (s : String) : (normalize s false).text = normalizeRequestPath s := by
  have hbytes := (rewritten_encodeFrom s.toList).eq_rewrite
  rw [← utf8_eq] at hbytes
  have htext := fromUtf8_rewrite s false
  rw [← hbytes, fromUtf8_encoded, ← normalize_eq_encodeFrom] at htext
  exact (Option.some.inj htext).symm

end Brust.Core.Path
