import Brust.Support.JsonEscapes

/-!
# Support — string literals of JavaScript

A double-quoted literal, read to the code units it stands for (`readLiteral`): the letters, the
escapes by two hex digits, by four and in braces, the line continuations; the octal escapes of old
scripts are not read.  A literal by escapes that are known is read back (`readLiteral_quoted`).
-/

namespace Brust.JsLiteral

open JsonValue

/-- The code units of a character. -/
def unitsOf (c : Char) : List ℕ :=
  if c.toNat < 0x10000 then [c.toNat]
  else [0xd800 + (c.toNat - 0x10000) / 0x400, 0xdc00 + (c.toNat - 0x10000) % 0x400]

theorem codeUnits_eq (s : String) : codeUnits s = s.toList.flatMap unitsOf := rfl

/-- What a letter behind the backslash stands for; any other character is itself. -/
def singleEscape (e : Char) : Char :=
  if e = 'b' then '\x08'
  else if e = 't' then '\t'
  else if e = 'n' then '\n'
  else if e = 'v' then '\x0b'
  else if e = 'f' then '\x0c'
  else if e = 'r' then '\r'
  else e

/-- Two hex digits. -/
def readPair : List Char → Option (ℕ × List Char)
  | a :: b :: rest => (readHex a).bind fun a => (readHex b).map fun b => (0x10 * a + b, rest)
  | _ => none

/-- The hex digits up to the closing brace. -/
def readBraced (value : ℕ) : List Char → Option (ℕ × List Char)
  | [] => none
  | c :: rest =>
    if c = '\x7d' then some (value, rest)
    else (readHex c).bind fun d => readBraced (0x10 * value + d) rest

/-- The code units of a code point, which may be half a pair. -/
def pointUnits (n : ℕ) : List ℕ :=
  if n < 0x10000 then [n] else [0xd800 + (n - 0x10000) / 0x400, 0xdc00 + (n - 0x10000) % 0x400]

/-- What is behind a backslash. -/
def readSequence : List Char → Option (List ℕ × List Char)
  | 'u' :: '\x7b' :: rest => (readBraced 0 rest).bind fun r =>
      if r.1 ≤ 0x10ffff ∧ rest.head? ≠ some '\x7d' then some (pointUnits r.1, r.2) else none
  | 'u' :: rest => (readUnit rest).map fun u => ([u.1], u.2)
  | 'x' :: rest => (readPair rest).map fun u => ([u.1], u.2)
  | '\r' :: '\n' :: rest => some ([], rest)
  | e :: rest =>
    if e = '\n' ∨ e = '\r' ∨ e = '\u2028' ∨ e = '\u2029' then some ([], rest)
    else if e.isDigit then
      if e = '0' ∧ rest.head?.all (fun d => !d.isDigit) = true then some ([0], rest) else none
    else some (unitsOf (singleEscape e), rest)
  | [] => none

/-- One element of a double-quoted literal. -/
def readElement : List Char → Option (List ℕ × List Char)
  | '\\' :: rest => readSequence rest
  | c :: rest =>
    if c = '\x22' ∨ c = '\n' ∨ c = '\r' then none else some (unitsOf c, rest)
  | [] => none

/-- A literal, and what is behind its closing quote. -/
def readLiteral : List Char → Option (List ℕ × List Char)
  | '\x22' :: rest =>
    (readBodyWith readElement (rest.length + 1) rest).map fun b => (b.1.flatten, b.2)
  | _ => none

/-! ### Escapes that are read -/

theorem readElement_unit {n : ℕ} (h : n < 0x10000) (rest : List Char) :
    readElement ('\\' :: 'u' :: (hexUnit n ++ rest)) = some ([n], rest) := by
  have hbrace : ∀ m < 16, hexDigit m ≠ '\x7b' := by decide
  rw [readElement, readSequence.eq_2, readUnit_hexUnit h, Option.map_some]
  intro rest' heq
  rw [hexUnit, List.cons_append] at heq
  exact hbrace _ (by omega) (List.cons.inj heq).1

theorem readElement_self {e : Char} (hu : e ≠ 'u') (hx : e ≠ 'x') (h : singleEscape e = e)
    (hdigit : e.isDigit = false) (hline : e ∉ ['\n', '\r', '\u2028', '\u2029']) (rest : List Char) :
    readElement ('\\' :: e :: rest) = some (unitsOf e, rest) := by
  simp only [List.mem_cons, List.not_mem_nil, or_false, not_or] at hline
  obtain ⟨hn, hr, hls, hps⟩ := hline
  rw [readElement, readSequence.eq_5 _ _ (fun _ h' => absurd h' hu) hu hx
    (fun _ h' => absurd h' hr), if_neg (by simp [hn, hr, hls, hps]), hdigit, h]
  rfl

theorem readElement_plain {c : Char} (hslash : c ≠ '\\') (h : c ∉ ['\x22', '\n', '\r'])
    (rest : List Char) : readElement (c :: rest) = some (unitsOf c, rest) := by
  simp only [List.mem_cons, List.not_mem_nil, or_false] at h
  rw [readElement.eq_2 _ _ hslash, if_neg h]

/-- **A literal is read back** where its escapes are known. -/
theorem readLiteral_quoted {write : Char → List Char}
    (e : Escaping write readElement unitsOf) (s rest : List Char) :
    readLiteral (quotedWith write s ++ rest) = some (s.flatMap unitsOf, rest) := by
  rw [quotedWith_append, readLiteral, readBodyWith_quoted e, Option.map_some, List.flatMap]

end Brust.JsLiteral
