import Mathlib.Data.List.Basic
import Mathlib.Tactic.IntervalCases

/-!
# Routing — the path normalisation

`normalize` is the one normalisation of the router, the L1 keys and `invalidate({path})`: what a
browser percent-encodes becomes `%XX` in uppercase hex, the hex digits of an escape that is already
there are uppercased, and nothing is decoded.  The source works on UTF-8 bytes; here a text is its
characters, and a character outside ASCII is encoded byte by byte.

Two facts are used later: a text with nothing to do comes back as it is, and a normalised request
path has no space in it.
-/

namespace Brust.Routing

/-- `needs_encode`: a byte a browser percent-encodes in a URL path; the quote, the angle brackets
and the backtick among them. -/
def needsEncode (b : Nat) : Bool :=
  0x80 ≤ b || b ≤ 0x20 || b == 0x7f || b == 0x22 || b == 0x3c || b == 0x3e || b == 0x60

/-- `is_ascii_hexdigit`. -/
def isHexDigit (c : Char) : Bool :=
  ('0' ≤ c && c ≤ '9') || ('a' ≤ c && c ≤ 'f') || ('A' ≤ c && c ≤ 'F')

def isLowerHex (c : Char) : Bool := 'a' ≤ c && c ≤ 'f'

/-- `to_ascii_uppercase` of a hex digit. -/
def upperHex (c : Char) : Char := if isLowerHex c then Char.ofNat (c.toNat - 32) else c

/-- The uppercase hex digit of `n`. -/
def hexUpper (n : Nat) : Char := if n < 10 then Char.ofNat (0x30 + n) else Char.ofNat (0x37 + n)

def encodeByte (b : Nat) : List Char := ['%', hexUpper (b / 16), hexUpper (b % 16)]

/-- The bytes of a character, each as `%XX`. -/
def encodeChar (c : Char) : List Char := (String.utf8EncodeChar c).flatMap fun b =>
    encodeByte b.toNat

/-- The escape a text starts with: the two digits after its `%`. -/
def escapeAt : List Char → Option (Char × Char × List Char)
  | '%' :: a :: b :: rest => if isHexDigit a && isHexDigit b then some (a, b, rest) else none
  | _ => none

/-- Whether anything is to be done, outside `depth` braces. -/
def dirty (braces : Bool) (depth : Nat) : List Char → Bool
  | [] => false
  | c :: rest =>
    if braces && c == '\x7b' then dirty braces (depth + 1) rest
    else if braces && c == '\x7d' then dirty braces (depth - 1) rest
    else if depth == 0 then
      needsEncode c.toNat ||
      (match escapeAt (c :: rest) with
        | some (a, b, _) => isLowerHex a || isLowerHex b
        | none => false) ||
      dirty braces depth rest
    else dirty braces depth rest

/-- The output loop; `skip` characters of an escape are already written. -/
def encodeFrom (braces : Bool) (depth skip : Nat) : List Char → List Char
  | [] => []
  | c :: rest =>
    if 0 < skip then encodeFrom braces depth (skip - 1) rest
    else if braces && c == '\x7b' then c :: encodeFrom braces (depth + 1) 0 rest
    else if braces && c == '\x7d' then c :: encodeFrom braces (depth - 1) 0 rest
    else if 0 < depth then c :: encodeFrom braces depth 0 rest
    else match escapeAt (c :: rest) with
      | some (a, b, _) => '%' :: upperHex a :: upperHex b :: encodeFrom braces depth 2 rest
      | none =>
        if needsEncode c.toNat then encodeChar c ++ encodeFrom braces depth 0 rest
        else c :: encodeFrom braces depth 0 rest

def normalize (s : List Char) (braces : Bool) : List Char :=
  if dirty braces 0 s then encodeFrom braces 0 0 s else s

/-- A request path (no query) in the form route literals are stored in. -/
def normalizeRequestPath (path : String) : String := String.ofList (normalize path.toList false)

/-! ### What a normalised request path looks like -/

theorem isLowerHex_iff {c : Char} : isLowerHex c = true ↔ 97 ≤ c.toNat ∧ c.toNat ≤ 102 := by
  simp only [isLowerHex, Bool.and_eq_true, decide_eq_true_eq]
  exact Iff.rfl

theorem upperHex_ne_space {c : Char} (h : isHexDigit c = true) : upperHex c ≠ ' ' := by
  unfold upperHex
  split
  · next hl =>
    obtain ⟨hlo, hhi⟩ := isLowerHex_iff.mp hl
    generalize c.toNat = n at hlo hhi
    interval_cases n <;> decide
  · rintro rfl
    revert h
    decide

theorem hexUpper_ne_space {n : Nat} (h : n < 16) : hexUpper n ≠ ' ' := by
  interval_cases n <;> decide

theorem space_notMem_encodeChar (c : Char) : ' ' ∉ encodeChar c := by
  simp only [encodeChar, List.mem_flatMap, encodeByte, List.mem_cons, List.not_mem_nil, or_false]
  rintro ⟨b, -, h | h | h⟩
  · revert h; decide
  · exact hexUpper_ne_space (by have := b.toNat_lt; omega) h.symm
  · exact hexUpper_ne_space (by omega) h.symm

theorem escapeAt_hex {s : List Char} {a b : Char} {rest : List Char}
    (h : escapeAt s = some (a, b, rest)) : isHexDigit a = true ∧ isHexDigit b = true := by
  unfold escapeAt at h
  split at h
  · split at h
    · next hd => cases h; simpa using hd
    · cases h
  · cases h

theorem encodeFrom_cons (c : Char) (rest : List Char) : encodeFrom false 0 0 (c :: rest) =
    match escapeAt (c :: rest) with
      | some (x, y, _) => '%' :: upperHex x :: upperHex y :: encodeFrom false 0 2 rest
      | none => if needsEncode c.toNat then encodeChar c ++ encodeFrom false 0 0 rest
        else c :: encodeFrom false 0 0 rest := by
  rw [encodeFrom]
  simp only [Bool.false_and, Bool.false_eq_true, if_false]
  rfl

theorem escape_eq_some {cs : List Char} {x y : Char} {r : List Char}
    (h : escapeAt cs = some (x, y, r)) : cs = '%' :: x :: y :: r := by
  unfold escapeAt at h
  split at h
  · split at h
    · cases h
      rfl
    · cases h
  · cases h

/-- What the scan of the characters finds, at one of them. -/
theorem of_dirty_cons {c : Char} {rest : List Char}
    (h : dirty false 0 (c :: rest) = false) :
    needsEncode c.toNat = false ∧
      (∀ x y r, escapeAt (c :: rest) = some (x, y, r) →
        isLowerHex x = false ∧ isLowerHex y = false) ∧
      dirty false 0 rest = false := by
  rw [dirty] at h
  simp only [Bool.false_and, Bool.false_eq_true, if_false, beq_self_eq_true, if_true,
    Bool.or_eq_false_iff] at h
  obtain ⟨⟨hn, hescape⟩, hrest⟩ := h
  refine ⟨hn, fun x y r he => ?_, hrest⟩
  rw [he] at hescape
  exact Bool.or_eq_false_iff.mp hescape

theorem upperHex_of_not_lower {c : Char} (h : isLowerHex c = false) : upperHex c = c := by
  rw [upperHex, h]
  rfl

/-- The scan of the characters finds what the rewriter of them changes. -/
theorem encodeFrom_of_clean {cs : List Char} (h : dirty false 0 cs = false) :
    encodeFrom false 0 0 cs = cs := by
  obtain ⟨n, hn⟩ : ∃ n, cs.length ≤ n := ⟨_, Nat.le_refl _⟩
  induction n generalizing cs with
  | zero =>
      rw [List.eq_nil_of_length_eq_zero (Nat.le_zero.mp hn)]
      rfl
  | succ n ih =>
      match cs with
      | [] => rfl
      | c :: rest =>
          have hlen : rest.length ≤ n := Nat.le_of_succ_le_succ hn
          obtain ⟨hneeds, hescapes, hrest⟩ := of_dirty_cons h
          rw [encodeFrom_cons]
          cases hescape : escapeAt (c :: rest) with
          | some e =>
              obtain ⟨x, y, r⟩ := e
              obtain ⟨hx, hy⟩ := hescapes x y r hescape
              obtain ⟨rfl, rfl⟩ := List.cons.inj (escape_eq_some hescape)
              obtain ⟨-, -, hr⟩ := of_dirty_cons (of_dirty_cons hrest).2.2
              have hrlen : r.length ≤ n := by
                simp only [List.length_cons] at hlen
                omega
              simp only [upperHex_of_not_lower hx, upperHex_of_not_lower hy]
              exact congrArg (fun t => '%' :: x :: y :: t) (ih hr hrlen)
          | none =>
              simp only [hneeds, Bool.false_eq_true, if_false]
              rw [ih hrest hlen]

/-- The normalisation of a request path is what the output loop writes, scan or no scan. -/
theorem normalize_eq_encodeFrom (s : List Char) : normalize s false = encodeFrom false 0 0 s := by
  rw [normalize]
  split
  · rfl
  · next hclean => exact (encodeFrom_of_clean (Bool.not_eq_true _ ▸ hclean)).symm

theorem space_notMem_encodeFrom (s : List Char) (skip : Nat) :
    ' ' ∉ encodeFrom false 0 skip s := by
  induction s generalizing skip with
  | nil => simp [encodeFrom]
  | cons c rest ih =>
      unfold encodeFrom
      simp only [Bool.false_and, Bool.false_eq_true, if_false, Nat.lt_irrefl]
      split
      · exact ih _
      split
      · next a b _ he =>
        obtain ⟨ha, hb⟩ := escapeAt_hex he
        simp only [List.mem_cons, not_or]
        exact ⟨by decide, (upperHex_ne_space ha).symm, (upperHex_ne_space hb).symm, ih _⟩
      · split
        · simp only [List.mem_append, not_or]
          exact ⟨space_notMem_encodeChar c, ih _⟩
        · next hn =>
          simp only [List.mem_cons, not_or]
          refine ⟨?_, ih _⟩
          rintro rfl
          exact hn (by decide)

theorem space_notMem_of_not_dirty {s : List Char} (h : dirty false 0 s = false) : ' ' ∉ s := by
  induction s with
  | nil => simp
  | cons c rest ih =>
      simp only [dirty, Bool.false_and, Bool.false_eq_true, if_false, beq_self_eq_true, if_true,
        Bool.or_eq_false_iff] at h
      simp only [List.mem_cons, not_or]
      refine ⟨?_, ih h.2⟩
      rintro rfl
      have := h.1.1
      revert this
      decide

/-- **A normalised request path has no space in it.** -/
theorem space_notMem_normalize (s : List Char) : ' ' ∉ normalize s false := by
  unfold normalize
  split
  · exact space_notMem_encodeFrom s 0
  · next h => exact space_notMem_of_not_dirty (by simpa using h)

/-- Lowercase hex digits of an escape are not the normal form, nor is a raw character. -/
example : normalizeRequestPath "/caf%c3%a9" = "/caf%C3%A9" := by decide
example : normalizeRequestPath "/café" = "/caf%C3%A9" := by decide

end Brust.Routing
