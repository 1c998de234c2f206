import Mathlib.Data.List.Infix
import Brust.Core.Request

/-!
# Core — finding in HTML

A page as the bytes of its text, and what the render pass looks for in them: a name in any letter
case (`find_ci`) and the first `<head …>…</head>` (`head_range`).
-/

namespace Brust.Core

abbrev Bytes := List UInt8

/-- `b"…"` -/
def ascii (s : String) : Bytes := s.toList.map fun c => UInt8.ofNat c.toNat

/-- `to_ascii_lowercase` of a byte. -/
def lowerByte (b : UInt8) : UInt8 := if 0x41 ≤ b ∧ b ≤ 0x5a then b + 0x20 else b

/-- `eq_ignore_ascii_case` -/
def eqIgnoreCase (s t : Bytes) : Bool := s.map lowerByte == t.map lowerByte

/-- `is_ascii_whitespace` -/
def isSpaceByte (b : UInt8) : Bool :=
  b == 0x20 || b == 0x09 || b == 0x0a || b == 0x0d || b == 0x0c

/-- A text starts with `needle` in any letter case. -/
def startsCi (needle s : Bytes) : Bool :=
  decide (needle.length ≤ s.length) && eqIgnoreCase (s.take needle.length) needle

/-- Where `needle` is first in a text, in any letter case. -/
def findCi (needle : Bytes) : Bytes → Option ℕ
  | [] => if startsCi needle [] then some 0 else none
  | b :: s => if startsCi needle (b :: s) then some 0 else (findCi needle s).map (· + 1)

/-- `find_ci` -/
def findCiFrom (html needle : Bytes) (at_ : ℕ) : Option ℕ :=
  if at_ ≤ html.length then (findCi needle (html.drop at_)).map (at_ + ·) else none

theorem startsCi_length {needle s : Bytes} (h : startsCi needle s = true) :
    needle.length ≤ s.length := by
  rw [startsCi, Bool.and_eq_true] at h
  exact of_decide_eq_true h.1

theorem findCi_spec {needle : Bytes} : ∀ {s : Bytes} {k : ℕ}, findCi needle s = some k →
    k ≤ s.length ∧ startsCi needle (s.drop k) = true
  | [], k, h => by
      rw [findCi] at h
      split at h
      · next hstart =>
        cases h
        exact ⟨Nat.le_refl _, hstart⟩
      · cases h
  | b :: s, k, h => by
      rw [findCi] at h
      split at h
      · next hstart =>
        cases h
        exact ⟨Nat.zero_le _, hstart⟩
      · obtain ⟨j, hj, rfl⟩ := Option.map_eq_some_iff.mp h
        obtain ⟨hle, hstart⟩ := findCi_spec hj
        exact ⟨Nat.succ_le_succ hle, hstart⟩

theorem findCi_add_le {needle s : Bytes} {k : ℕ} (h : findCi needle s = some k) :
    k + needle.length ≤ s.length := by
  obtain ⟨hle, hstart⟩ := findCi_spec h
  have hlength := startsCi_length hstart
  rw [List.length_drop] at hlength
  omega

/-! ### The head -/

/-- What may follow `<head` in a head's tag. -/
def endsName (b : UInt8) : Bool := b == 0x3e || b == 0x2f || isSpaceByte b

/-- Where the first head's tag starts: `<head` that is not the start of a longer name. -/
def headStart (html : Bytes) (at_ : ℕ) : Option ℕ :=
  match h : findCi (ascii "<head") (html.drop at_) with
  | none => none
  | some k =>
    if (html[at_ + k + 5]?).any endsName then some (at_ + k)
    else headStart html (at_ + k + 5)
termination_by html.length - at_
decreasing_by
  have hle := findCi_add_le h
  have hfive : (ascii "<head").length = 5 := rfl
  rw [List.length_drop, hfive] at hle
  omega

/-- `head_range` -/
def headRange (html : Bytes) : Option (ℕ × ℕ) :=
  (headStart html 0).bind fun start =>
    (findCiFrom html (ascii "</head>") start).map fun stop =>
      (start, stop + (ascii "</head>").length)

end Brust.Core
