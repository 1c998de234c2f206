import Mathlib.Data.List.Basic

/-!
# Support — slices of UTF-8

A text as its bytes, and its slices, which exist between character boundaries only.  In the bytes
of a text a boundary is on either side of every ASCII byte (`Proper.boundary_after`), so that a
scanner that stops at ASCII bytes slices where it may.
-/

namespace Brust

/-- A byte that continues a character. -/
def continues (b : UInt8) : Bool := decide (0x80 ≤ b.toNat) && decide (b.toNat < 0xc0)

/-- `is_char_boundary` -/
def isCharBoundary (s : List UInt8) (k : ℕ) : Bool :=
  k == 0 || k == s.length || (s[k]?).any fun b => !continues b

/-- `&s[i..j]`, none where that panics. -/
def slice (s : List UInt8) (i j : ℕ) : Option (List UInt8) :=
  if i ≤ j ∧ j ≤ s.length ∧ isCharBoundary s i = true ∧ isCharBoundary s j = true then
    some ((s.drop i).take (j - i))
  else none

/-- The bytes of a text. -/
def encoded (s : List Char) : List UInt8 := s.flatMap String.utf8EncodeChar

/-! ### The bytes of a text -/

/-- No byte that continues a character is behind an ASCII byte. -/
def Proper (s : List UInt8) : Prop :=
  ∀ k b c, s[k]? = some b → s[k + 1]? = some c → b.toNat < 0x80 → continues c = false

/-- A character begins here, if anything does. -/
def Begins (s : List UInt8) : Prop := ∀ b, s.head? = some b → continues b = false

/-- A character is an ASCII byte, or bytes of which none is. -/
theorem utf8EncodeChar_cases (c : Char) :
    (∃ b : UInt8, b.toNat < 0x80 ∧ String.utf8EncodeChar c = [b]) ∨
      ∃ b bs, String.utf8EncodeChar c = b :: bs ∧ continues b = false ∧
        ∀ x ∈ b :: bs, 0x80 ≤ x.toNat := by
  have hbyte : ∀ n, n < 256 → (UInt8.ofNat n).toNat = n := fun n hn =>
    UInt8.toNat_ofNat_of_lt hn
  unfold String.utf8EncodeChar
  dsimp only
  split
  · next h =>
    refine .inl ⟨_, ?_, rfl⟩
    rw [hbyte _ (by omega)]
    omega
  · split
    · next h =>
      refine .inr ⟨_, _, rfl, ?_, ?_⟩
      · rw [continues, hbyte _ (by omega)]
        simp
      · simp only [List.mem_cons, List.not_mem_nil, or_false, forall_eq_or_imp, forall_eq]
        refine ⟨?_, ?_⟩ <;> rw [hbyte _ (by omega)] <;> omega
    · split
      · next h =>
        refine .inr ⟨_, _, rfl, ?_, ?_⟩
        · rw [continues, hbyte _ (by omega)]
          simp
        · simp only [List.mem_cons, List.not_mem_nil, or_false, forall_eq_or_imp, forall_eq]
          refine ⟨?_, ?_, ?_⟩ <;> rw [hbyte _ (by omega)] <;> omega
      · refine .inr ⟨_, _, rfl, ?_, ?_⟩
        · rw [continues, hbyte _ (by omega)]
          simp
        · simp only [List.mem_cons, List.not_mem_nil, or_false, forall_eq_or_imp, forall_eq]
          refine ⟨?_, ?_, ?_, ?_⟩ <;> rw [hbyte _ (by omega)] <;> omega

theorem continues_of_ascii {b : UInt8} (h : b.toNat < 0x80) : continues b = false := by
  rw [continues, decide_eq_false (Nat.not_le.mpr h), Bool.false_and]

theorem Proper.append {s t : List UInt8} (hs : Proper s) (ht : Proper t) (hbegins : Begins t) :
    Proper (s ++ t) := by
  intro k b c hk hk' hb
  rcases Nat.lt_trichotomy (k + 1) s.length with hlt | heq | hgt
  · rw [List.getElem?_append_left (by omega)] at hk
    rw [List.getElem?_append_left hlt] at hk'
    exact hs k b c hk hk' hb
  · rw [heq, List.getElem?_append_right (Nat.le_refl _), Nat.sub_self] at hk'
    exact hbegins c (by rw [List.head?_eq_getElem?, hk'])
  · rw [List.getElem?_append_right (by omega)] at hk hk'
    have hsucc : k + 1 - s.length = k - s.length + 1 := by omega
    rw [hsucc] at hk'
    exact ht _ b c hk hk' hb

theorem Proper.drop {s : List UInt8} (hs : Proper s) (n : ℕ) : Proper (s.drop n) := by
  intro k b c hk hk'
  rw [List.getElem?_drop] at hk hk'
  exact hs (n + k) b c hk hk'

theorem Proper.take {s : List UInt8} (hs : Proper s) (n : ℕ) : Proper (s.take n) := by
  intro k b c hk hk'
  rw [List.getElem?_take] at hk hk'
  split at hk
  · split at hk'
    · exact hs k b c hk hk'
    · cases hk'
  · cases hk

theorem utf8EncodeChar_proper (c : Char) :
    Proper (String.utf8EncodeChar c) ∧ Begins (String.utf8EncodeChar c) ∧
      String.utf8EncodeChar c ≠ [] := by
  rcases utf8EncodeChar_cases c with ⟨b, hb, he⟩ | ⟨b, bs, he, hcont, hall⟩
  · rw [he]
    refine ⟨fun k a d hk hk' => ?_, fun a ha => ?_, List.cons_ne_nil _ _⟩
    · rw [List.getElem?_eq_none (by simp)] at hk'
      cases hk'
    · cases ha
      exact continues_of_ascii hb
  · rw [he]
    refine ⟨fun k a d hk _ ha => ?_, fun a ha => ?_, List.cons_ne_nil _ _⟩
    · exact absurd ha (Nat.not_lt.mpr (hall a (List.mem_of_getElem? hk)))
    · cases ha
      exact hcont

/-- **The bytes of a text are proper.** -/
theorem encoded_proper (s : List Char) : Proper (encoded s) ∧ Begins (encoded s) := by
  induction s with
  | nil => exact ⟨fun k b c hk => (by cases hk), fun b hb => by cases hb⟩
  | cons c s ih =>
      obtain ⟨hproper, hbegins, hne⟩ := utf8EncodeChar_proper c
      obtain ⟨b, bs, he⟩ := List.exists_cons_of_ne_nil hne
      rw [encoded, List.flatMap_cons]
      refine ⟨hproper.append ih.1 ih.2, fun a ha => hbegins a ?_⟩
      rw [he] at ha ⊢
      exact ha

/-! ### Boundaries -/

theorem boundary_zero (s : List UInt8) : isCharBoundary s 0 = true := rfl

theorem boundary_length (s : List UInt8) : isCharBoundary s s.length = true := by
  rw [isCharBoundary, beq_self_eq_true, Bool.or_true, Bool.true_or]

/-- A boundary is before every ASCII byte. -/
theorem boundary_before {s : List UInt8} {k : ℕ} {b : UInt8} (hk : s[k]? = some b)
    (hb : b.toNat < 0x80) : isCharBoundary s k = true := by
  rw [isCharBoundary, hk, Option.any_some, continues_of_ascii hb]
  simp

/-- A boundary is behind every ASCII byte. -/
theorem Proper.boundary_after {s : List UInt8} (hs : Proper s) {k : ℕ} {b : UInt8}
    (hk : s[k]? = some b) (hb : b.toNat < 0x80) : isCharBoundary s (k + 1) = true := by
  cases hk' : s[k + 1]? with
  | none =>
      have hlen : k + 1 = s.length := by
        have hlt := (List.getElem?_eq_some_iff.mp hk).1
        have hge := List.getElem?_eq_none_iff.mp hk'
        omega
      rw [hlen]
      exact boundary_length s
  | some c =>
      rw [isCharBoundary, hk', Option.any_some, hs k b c hk hk' hb]
      simp

theorem slice_eq_some {s : List UInt8} {i j : ℕ} (hij : i ≤ j) (hj : j ≤ s.length)
    (hi : isCharBoundary s i = true) (hj' : isCharBoundary s j = true) :
    slice s i j = some ((s.drop i).take (j - i)) := if_pos ⟨hij, hj, hi, hj'⟩

theorem of_slice {s z : List UInt8} {i j : ℕ} (h : slice s i j = some z) :
    (i ≤ j ∧ j ≤ s.length ∧ isCharBoundary s i = true ∧ isCharBoundary s j = true) ∧
      z = (s.drop i).take (j - i) := by
  rw [slice] at h
  split at h
  · next hcond => exact ⟨hcond, (Option.some.inj h).symm⟩
  · cases h

theorem slice_from {s : List UInt8} {i : ℕ} (hi : i ≤ s.length) (h : isCharBoundary s i = true) :
    slice s i s.length = some (s.drop i) := by
  rw [slice_eq_some hi (Nat.le_refl _) h (boundary_length s), List.take_of_length_le]
  exact Nat.le_of_eq List.length_drop

theorem slice_to {s : List UInt8} {j : ℕ} (hj : j ≤ s.length) (h : isCharBoundary s j = true) :
    slice s 0 j = some (s.take j) := by
  rw [slice_eq_some (Nat.zero_le j) hj (boundary_zero s) h, List.drop_zero, Nat.sub_zero]

end Brust
