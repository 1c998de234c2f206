import Mathlib.Data.List.Basic
import Mathlib.Tactic.IntervalCases

/-!
# Support — JSON strings

A JSON string as every encoder of the source writes it: quoted, the quote, the backslash and the
controls escaped, every other character as it is.  A JSON string is self-delimiting: what follows
it can be told from it (`jsonString_append_inj`).
-/

namespace Brust

/-- UTF-16 code units, which JavaScript compares strings by. -/
def codeUnits (s : String) : List Nat :=
  s.toList.flatMap fun c =>
    if c.toNat < 0x10000 then [c.toNat]
    else [0xd800 + (c.toNat - 0x10000) / 0x400, 0xdc00 + (c.toNat - 0x10000) % 0x400]

/-- A hex digit in lowercase. -/
def hexDigit (n : Nat) : Char := if n < 10 then Char.ofNat (0x30 + n) else Char.ofNat (0x57 + n)

/-- The letter of a two-character escape. -/
def shortEscape (c : Char) : Option Char :=
  if c = '\x22' then some '\x22'
  else if c = '\\' then some '\\'
  else if c = '\x08' then some 'b'
  else if c = '\t' then some 't'
  else if c = '\n' then some 'n'
  else if c = '\x0c' then some 'f'
  else if c = '\r' then some 'r'
  else none

def jsonEscape (c : Char) : List Char :=
  match shortEscape c with
  | some e => ['\\', e]
  | none =>
    if c.toNat < 0x20 then ['\\', 'u', '0', '0', hexDigit (c.toNat / 16), hexDigit (c.toNat % 16)]
    else [c]

def jsonString (s : List Char) : List Char := '\x22' :: s.flatMap jsonEscape ++ ['\x22']

/-! ### Reading one character back -/

/-- The character a two-character escape stands for. -/
def ofShortEscape (e : Char) : Option Char :=
  if e = '\x22' then some '\x22'
  else if e = '\\' then some '\\'
  else if e = 'b' then some '\x08'
  else if e = 't' then some '\t'
  else if e = 'n' then some '\n'
  else if e = 'f' then some '\x0c'
  else if e = 'r' then some '\r'
  else none

def hexValue (c : Char) : Nat := if c.toNat < 0x3a then c.toNat - 0x30 else c.toNat - 0x57

/-- The first character of a JSON string's body, and what is left of it. -/
def readChar : List Char → Option (Char × List Char)
  | [] => none
  | '\\' :: 'u' :: _ :: _ :: a :: b :: rest =>
    some (Char.ofNat (16 * hexValue a + hexValue b), rest)
  | '\\' :: e :: rest => (ofShortEscape e).map (·, rest)
  | c :: rest => if c = '\x22' then none else some (c, rest)

theorem ofShortEscape_shortEscape {c e : Char} (h : shortEscape c = some e) :
    ofShortEscape e = some c ∧ e ≠ 'u' := by
  unfold shortEscape at h
  repeat' split at h
  all_goals first
    | (cases h; subst_vars; exact ⟨rfl, by decide⟩)
    | cases h

theorem hexValue_hexDigit {n : Nat} (h : n < 16) : hexValue (hexDigit n) = n := by
  interval_cases n <;> decide

theorem readChar_jsonEscape (c : Char) (rest : List Char) :
    readChar (jsonEscape c ++ rest) = some (c, rest) := by
  unfold jsonEscape
  split
  · next e he =>
    obtain ⟨hc, hu⟩ := ofShortEscape_shortEscape he
    simp only [List.cons_append, List.nil_append]
    rw [readChar.eq_3 _ _ (by rintro _ _ _ _ _ h -; exact hu h), hc]
    rfl
  · next he =>
    split
    · next hlt =>
      simp only [List.cons_append, List.nil_append, readChar]
      rw [hexValue_hexDigit (by omega), hexValue_hexDigit (by omega),
        show 16 * (c.toNat / 16) + c.toNat % 16 = c.toNat by omega, Char.ofNat_toNat]
    · have hq : c ≠ '\x22' := by rintro rfl; simp [shortEscape] at he
      have hb : c ≠ '\\' := by rintro rfl; simp [shortEscape] at he
      simp [readChar, hq, hb]

theorem jsonEscape_append_inj {c d : Char} {u v : List Char}
    (h : jsonEscape c ++ u = jsonEscape d ++ v) : c = d ∧ u = v := by
  have := congrArg readChar h
  rw [readChar_jsonEscape, readChar_jsonEscape] at this
  simpa using this

theorem jsonEscape_ne_quote (c : Char) (u v : List Char) :
    jsonEscape c ++ u ≠ '\x22' :: v := by
  intro h
  have := congrArg readChar h
  rw [readChar_jsonEscape] at this
  cases v with
  | nil => simp [readChar] at this
  | cons a w => simp [readChar] at this

/-- **A JSON string is self-delimiting.** -/
theorem jsonString_append_inj {s t u v : List Char} (h : jsonString s ++ u = jsonString t ++ v) :
    s = t ∧ u = v := by
  simp only [jsonString, List.cons_append, List.append_assoc, List.cons.injEq, true_and,
    List.nil_append] at h
  induction s generalizing t with
  | nil =>
      cases t with
      | nil => exact ⟨rfl, by simpa using h⟩
      | cons d t =>
          simp only [List.flatMap_nil, List.nil_append, List.flatMap_cons, List.append_assoc] at h
          exact (jsonEscape_ne_quote _ _ _ h.symm).elim
  | cons c s ih =>
      cases t with
      | nil =>
          simp only [List.flatMap_nil, List.nil_append, List.flatMap_cons, List.append_assoc] at h
          exact (jsonEscape_ne_quote _ _ _ h).elim
      | cons d t =>
          simp only [List.flatMap_cons, List.append_assoc] at h
          obtain ⟨rfl, hst⟩ := jsonEscape_append_inj h
          obtain ⟨rfl, rfl⟩ := ih hst
          exact ⟨rfl, rfl⟩

end Brust
