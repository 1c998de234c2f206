import Brust.Support.JsonEscapes

/-!
# Support — reading JSON

A reader of JSON texts without blanks, as encoders write them: a numeral is kept as it is written,
an object's entries in their order.  It is the reader by the escapes of `jsonString`, so it reads
the text of a value back (`read_render`).
-/

namespace Brust

namespace JsonValue

/-- The body of a string and what is behind its closing quote. -/
def readBody : ℕ → List Char → Option (List Char × List Char)
  | 0, _ => none
  | _ + 1, [] => none
  | fuel + 1, c :: s =>
    if c = '\x22' then some ([], s)
    else (readChar (c :: s)).bind fun r => (readBody fuel r.2).map fun b => (r.1 :: b.1, b.2)

mutual

def readValue : ℕ → List Char → Option (JsonValue × List Char)
  | 0, _ => none
  | _ + 1, [] => none
  | fuel + 1, c :: s =>
    match lead c with
    | 0 => readWord "ull".toList .null s
    | 1 => readWord "rue".toList (.bool true) s
    | 2 => readWord "alse".toList (.bool false) s
    | 3 => (readBody (s.length + 1) s).map fun b => (.str (String.ofList b.1), b.2)
    | 4 =>
      if s.head? = some ']' then some (.arr [], s.tail)
      else (readItems fuel s).map fun r => (.arr r.1, r.2)
    | 5 =>
      if s.head? = some '}' then some (.obj [], s.tail)
      else (readEntries fuel s).map fun r => (.obj r.1, r.2)
    | 6 => some (.num ((c :: s).takeWhile numeralChar), (c :: s).dropWhile numeralChar)
    | _ => none

/-- The items of a list, behind its bracket or a comma. -/
def readItems : ℕ → List Char → Option (List JsonValue × List Char)
  | 0, _ => none
  | fuel + 1, s =>
    (readValue fuel s).bind fun x =>
      if x.2.head? = some ']' then some ([x.1], x.2.tail)
      else if x.2.head? = some ',' then
        (readItems fuel x.2.tail).map fun r => (x.1 :: r.1, r.2)
      else none

/-- The entries of an object, behind its brace or a comma. -/
def readEntries : ℕ → List Char → Option (List (String × JsonValue) × List Char)
  | 0, _ => none
  | _ + 1, [] => none
  | fuel + 1, c :: s =>
    if c = '\x22' then
      (readBody (s.length + 1) s).bind fun k =>
        if k.2.head? = some ':' then
          (readValue fuel k.2.tail).bind fun x =>
            if x.2.head? = some '}' then some ([(String.ofList k.1, x.1)], x.2.tail)
            else if x.2.head? = some ',' then
              (readEntries fuel x.2.tail).map fun r => ((String.ofList k.1, x.1) :: r.1, r.2)
            else none
        else none
    else none

end

/-- The value of a text. -/
def read (s : List Char) : Option JsonValue :=
  match readValue (2 * s.length) s with
  | some (v, []) => some v
  | _ => none

/-! ### Its escapes -/

theorem jsonEscape_eq_cons (c : Char) : ∃ d rest, jsonEscape c = d :: rest ∧ d ≠ '\x22' := by
  cases h : jsonEscape c with
  | nil =>
      unfold jsonEscape at h
      split at h
      · cases h
      · split at h <;> cases h
  | cons d rest =>
      refine ⟨d, rest, rfl, ?_⟩
      rintro rfl
      have := jsonEscape_ne_quote c [] rest
      rw [List.append_nil] at this
      exact this h

theorem escaping_jsonEscape : Escaping jsonEscape readChar id :=
  ⟨readChar_jsonEscape, jsonEscape_eq_cons⟩

mutual

theorem render_eq : ∀ a : JsonValue, render a = renderWith jsonEscape a
  | .null | .bool _ | .num _ | .str _ => rfl
  | .arr xs => by rw [render, renderWith, renderItems_eq xs]
  | .obj entries => by rw [render, renderWith, renderEntries_eq entries]

theorem renderItems_eq : ∀ xs : List JsonValue, renderItems xs = renderItemsWith jsonEscape xs
  | [] => rfl
  | x :: xs => by rw [renderItems, renderItemsWith, render_eq x, renderItems_eq xs]

theorem renderEntries_eq : ∀ xs : List (String × JsonValue),
    renderEntries xs = renderEntriesWith jsonEscape xs
  | [] => rfl
  | (k, x) :: rest => by
      rw [renderEntries, renderEntriesWith, render_eq x, renderEntries_eq rest]
      rfl

end

theorem readBodyWith_readChar : ∀ (n : ℕ) (s : List Char), readBodyWith readChar n s = readBody n s
  | 0, _ | _ + 1, [] => rfl
  | n + 1, c :: s => by
      simp only [readBodyWith, readBodyWith_readChar n]
      rfl

mutual

theorem readValueWith_readChar : ∀ (n : ℕ) (s : List Char),
    readValueWith readChar n s = readValue n s
  | 0, _ | _ + 1, [] => rfl
  | n + 1, c :: s => by
      simp only [readValueWith, readBodyWith_readChar, readItemsWith_readChar n,
        readEntriesWith_readChar n]
      rfl

theorem readItemsWith_readChar : ∀ (n : ℕ) (s : List Char),
    readItemsWith readChar n s = readItems n s
  | 0, _ => rfl
  | n + 1, s => by
      simp only [readItemsWith, readValueWith_readChar n, readItemsWith_readChar n]
      rfl

theorem readEntriesWith_readChar : ∀ (n : ℕ) (s : List Char),
    readEntriesWith readChar n s = readEntries n s
  | 0, _ | _ + 1, [] => rfl
  | n + 1, c :: s => by
      simp only [readEntriesWith, readBodyWith_readChar, readValueWith_readChar n,
        readEntriesWith_readChar n]
      rfl

end

/-- **The text of a value is read back.** -/
theorem read_render {a : JsonValue} (ha : a.Numerals) : read (render a) = some a := by
  have hread := readWith_renderWith escaping_jsonEscape ha
  rw [readWith, readValueWith_readChar, ← render_eq] at hread
  exact hread

end JsonValue

end Brust
