import Mathlib.Data.List.Induction
import Mathlib.Tactic.NormNum

/-!
# Support — decimal numerals

The digits of a number, written and read: the numeral of a number begins with a zero only for zero
(`head?_toDigits`), and a text of digits that does not is the numeral of what it spells
(`toDigits_ofDigitChars`).
-/

namespace Brust

open Nat

theorem ofDigitChars_concat (l : List Char) (c : Char) :
    ofDigitChars 10 (l ++ [c]) 0 = 10 * ofDigitChars 10 l 0 + (c.toNat - '0'.toNat) := by
  rw [ofDigitChars_append, ofDigitChars_cons, ofDigitChars_nil]

theorem head?_append_of_ne_nil {l : List Char} (h : l ≠ []) (m : List Char) :
    (l ++ m).head? = l.head? := by
  obtain ⟨c, l, rfl⟩ := List.exists_cons_of_ne_nil h
  rfl

/-- A digit is the numeral of its value. -/
theorem digitChar_value {c : Char} (h : c.isDigit = true) :
    c.toNat - '0'.toNat < 10 ∧ digitChar (c.toNat - '0'.toNat) = c := by
  obtain ⟨hlow, hhigh⟩ := Char.isDigit_iff_toNat.mp h
  have h0 : '0'.toNat = 48 := rfl
  have h9 : '9'.toNat = 57 := rfl
  have hlt : c.toNat - '0'.toNat < 10 := by omega
  refine ⟨hlt, Char.toNat_inj.mp ?_⟩
  rw [toNat_digitChar_of_lt_ten hlt]
  omega

theorem toDigits_ofDigitChars {l : List Char} (hne : l ≠ []) (hd : ∀ c ∈ l, c.isDigit = true)
    (h0 : l.head? ≠ some '0') :
    0 < ofDigitChars 10 l 0 ∧ toDigits 10 (ofDigitChars 10 l 0) = l := by
  induction l using List.reverseRecOn with
  | nil => exact absurd rfl hne
  | append_singleton l c ih =>
      obtain ⟨hlt, hc⟩ := digitChar_value (hd c (by simp))
      rw [ofDigitChars_concat]
      by_cases hl : l = []
      · subst hl
        have hpos : c.toNat - '0'.toNat ≠ 0 := by
          intro hz
          rw [hz] at hc
          exact h0 (by simp [← hc])
        rw [ofDigitChars_nil, Nat.mul_zero, Nat.zero_add, toDigits_of_lt_base hlt, hc]
        exact ⟨Nat.pos_of_ne_zero hpos, rfl⟩
      · obtain ⟨hpos, ih⟩ := ih hl (fun d hd' => hd d (by simp [hd'])) (by
          rwa [head?_append_of_ne_nil hl] at h0)
        rw [← toDigits_append_toDigits (by decide) hpos hlt, ih, toDigits_of_lt_base hlt, hc]
        exact ⟨by omega, rfl⟩

theorem head?_toDigits {n : ℕ} (hn : 0 < n) : (toDigits 10 n).head? ≠ some '0' := by
  induction n using Nat.strongRecOn with
  | ind n ih =>
      rw [toDigits_eq_if (by decide)]
      split
      next hlt =>
        intro h
        exact hn.ne' (digitChar_eq_zero.mp (Option.some.inj h))
      next hge =>
        rw [head?_append_of_ne_nil toDigits_ne_nil]
        exact ih (n / 10) (by omega) (by omega)

end Brust
