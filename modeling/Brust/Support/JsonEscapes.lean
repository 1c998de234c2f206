import Brust.Support.JsonText

/-!
# Support — JSON by any escapes

Writers of JSON differ in the characters they escape, readers in the escapes they know.  The text of
a value and its reader take the two as parameters; where the reader knows every escape that the
writer makes (`Escaping`), a text is read back (`readWith_renderWith`).

The escapes that JSON has are read by `readEscape`: the letters, and four hex digits for a code
unit, two code units for a character beyond them.
-/

namespace Brust

namespace JsonValue

/-! ### Writing -/

section Writing
variable (write : Char → List Char)

def quotedWith (s : List Char) : List Char := '\x22' :: s.flatMap write ++ ['\x22']

mutual

def renderWith : JsonValue → List Char
  | .null => "null".toList
  | .bool b => (if b then "true" else "false").toList
  | .num numeral => numeral
  | .str s => quotedWith write s.toList
  | .arr xs => '[' :: List.intercalate [','] (renderItemsWith xs) ++ [']']
  | .obj entries => '{' :: List.intercalate [','] (renderEntriesWith entries) ++ ['}']

def renderItemsWith : List JsonValue → List (List Char)
  | [] => []
  | x :: xs => renderWith x :: renderItemsWith xs

def renderEntriesWith : List (String × JsonValue) → List (List Char)
  | [] => []
  | (k, x) :: rest => (quotedWith write k.toList ++ ':' :: renderWith x) :: renderEntriesWith rest

end

end Writing

/-! ### Reading -/

/-- A value that is spelled out, behind its first letter. -/
def readWord (word : List Char) (v : JsonValue) (s : List Char) : Option (JsonValue × List Char) :=
  if word <+: s then some (v, s.drop word.length) else none

/-- The body of a string, one element after the other, and what is behind its closing quote. -/
def readBodyWith {α : Type} (char : List Char → Option (α × List Char)) :
    ℕ → List Char → Option (List α × List Char)
  | 0, _ => none
  | _ + 1, [] => none
  | fuel + 1, c :: s =>
    if c = '\x22' then some ([], s)
    else (char (c :: s)).bind fun r => (readBodyWith char fuel r.2).map fun b => (r.1 :: b.1, b.2)

section Reading
variable (char : List Char → Option (Char × List Char))

mutual

def readValueWith : ℕ → List Char → Option (JsonValue × List Char)
  | 0, _ => none
  | _ + 1, [] => none
  | fuel + 1, c :: s =>
    match lead c with
    | 0 => readWord "ull".toList .null s
    | 1 => readWord "rue".toList (.bool true) s
    | 2 => readWord "alse".toList (.bool false) s
    | 3 => (readBodyWith char (s.length + 1) s).map fun b => (.str (String.ofList b.1), b.2)
    | 4 =>
      if s.head? = some ']' then some (.arr [], s.tail)
      else (readItemsWith fuel s).map fun r => (.arr r.1, r.2)
    | 5 =>
      if s.head? = some '}' then some (.obj [], s.tail)
      else (readEntriesWith fuel s).map fun r => (.obj r.1, r.2)
    | 6 => some (.num ((c :: s).takeWhile numeralChar), (c :: s).dropWhile numeralChar)
    | _ => none

/-- The items of a list, behind its bracket or a comma. -/
def readItemsWith : ℕ → List Char → Option (List JsonValue × List Char)
  | 0, _ => none
  | fuel + 1, s =>
    (readValueWith fuel s).bind fun x =>
      if x.2.head? = some ']' then some ([x.1], x.2.tail)
      else if x.2.head? = some ',' then
        (readItemsWith fuel x.2.tail).map fun r => (x.1 :: r.1, r.2)
      else none

/-- The entries of an object, behind its brace or a comma. -/
def readEntriesWith : ℕ → List Char → Option (List (String × JsonValue) × List Char)
  | 0, _ => none
  | _ + 1, [] => none
  | fuel + 1, c :: s =>
    if c = '\x22' then
      (readBodyWith char (s.length + 1) s).bind fun k =>
        if k.2.head? = some ':' then
          (readValueWith fuel k.2.tail).bind fun x =>
            if x.2.head? = some '}' then some ([(String.ofList k.1, x.1)], x.2.tail)
            else if x.2.head? = some ',' then
              (readEntriesWith fuel x.2.tail).map fun r => ((String.ofList k.1, x.1) :: r.1, r.2)
            else none
        else none
    else none

end

/-- The value of a text. -/
def readWith (s : List Char) : Option JsonValue :=
  match readValueWith char (2 * s.length) s with
  | some (v, []) => some v
  | _ => none

end Reading

/-! ### Escapes that are known -/

/-- What is written for a character is read as what the character means, and ends no string. -/
structure Escaping {α : Type} (write : Char → List Char) (char : List Char → Option (α × List Char))
    (meaning : Char → α) : Prop where
  read : ∀ c rest, char (write c ++ rest) = some (meaning c, rest)
  begins : ∀ c, ∃ d rest, write c = d :: rest ∧ d ≠ '\x22'

section
variable {α : Type} {write : Char → List Char} {char : List Char → Option (α × List Char)}
  {meaning : Char → α}

theorem readBodyWith_written (e : Escaping write char meaning) (u : List Char) :
    ∀ (s : List Char) {n : ℕ}, s.length < n →
      readBodyWith char n (s.flatMap write ++ '\x22' :: u) = some (s.map meaning, u)
  | [], fuel + 1, _ => rfl
  | c :: s, fuel + 1, hfuel => by
      obtain ⟨d, rest, hd, hne⟩ := e.begins c
      have hread := e.read c (s.flatMap write ++ '\x22' :: u)
      rw [List.flatMap_cons, List.append_assoc]
      rw [hd, List.cons_append] at hread ⊢
      rw [readBodyWith, if_neg hne, hread, Option.bind_some,
        readBodyWith_written e u s (Nat.lt_of_succ_lt_succ hfuel)]
      rfl

theorem length_le_written (e : Escaping write char meaning) (s : List Char) :
    s.length ≤ (s.flatMap write).length := by
  induction s with
  | nil => exact le_rfl
  | cons c s ih =>
      obtain ⟨d, rest, hd, -⟩ := e.begins c
      rw [List.flatMap_cons, List.length_append, hd, List.length_cons, List.length_cons]
      omega

/-- A string behind its opening quote. -/
theorem readBodyWith_quoted (e : Escaping write char meaning) (s u : List Char) :
    readBodyWith char ((s.flatMap write ++ '\x22' :: u).length + 1)
      (s.flatMap write ++ '\x22' :: u) = some (s.map meaning, u) := by
  refine readBodyWith_written e u s ?_
  have := length_le_written e s
  rw [List.length_append]
  omega

end

section
variable {write : Char → List Char} {char : List Char → Option (Char × List Char)}

theorem quotedWith_append (s u : List Char) :
    quotedWith write s ++ u = '\x22' :: (s.flatMap write ++ '\x22' :: u) := by
  simp only [quotedWith, List.cons_append, List.append_assoc, List.nil_append]

/-! ### Values -/

mutual

/-- How deep and how often reading a value goes on. -/
def weight : JsonValue → ℕ
  | .arr xs => 1 + itemsWeight xs
  | .obj entries => 1 + entriesWeight entries
  | _ => 1

def itemsWeight : List JsonValue → ℕ
  | [] => 0
  | x :: xs => 1 + weight x + itemsWeight xs

def entriesWeight : List (String × JsonValue) → ℕ
  | [] => 0
  | (_, x) :: rest => 1 + weight x + entriesWeight rest

end

theorem takeWhile_numeral {t u : List Char} (ht : ∀ c ∈ t, numeralChar c = true) (hu : Ends u) :
    (t ++ u).takeWhile numeralChar = t ∧ (t ++ u).dropWhile numeralChar = u := by
  have hstop : u.takeWhile numeralChar = [] ∧ u.dropWhile numeralChar = u := by
    cases u with
    | nil => exact ⟨rfl, rfl⟩
    | cons c u =>
        have hc := hu c rfl
        exact ⟨List.takeWhile_cons_of_neg (by simp [hc]), List.dropWhile_cons_of_neg (by simp [hc])⟩
  rw [List.takeWhile_append_of_pos ht, List.dropWhile_append_of_pos ht, hstop.1, hstop.2,
    List.append_nil]
  exact ⟨rfl, rfl⟩

theorem readWord_append (word : List Char) (v : JsonValue) (u : List Char) :
    readWord word v (word ++ u) = some (v, u) := by
  rw [readWord, if_pos (List.prefix_append word u), List.drop_left]

theorem exists_renderWith_eq_cons {a : JsonValue} (ha : a.Numerals) :
    ∃ c rest, renderWith write a = c :: rest ∧ lead c ≠ 7 := by
  cases a with
  | null => exact ⟨'n', _, rfl, by decide⟩
  | bool b => cases b <;> exact ⟨_, _, rfl, by decide⟩
  | num t =>
      rw [Numerals] at ha
      obtain ⟨c, t, rfl⟩ := List.exists_cons_of_ne_nil ha.1
      refine ⟨c, t, rfl, ?_⟩
      rw [lead_numeralChar (ha.2 c List.mem_cons_self)]
      decide
  | str s => exact ⟨'\x22', _, rfl, by decide⟩
  | arr xs => exact ⟨'[', _, by rw [renderWith]; rfl, by decide⟩
  | obj entries => exact ⟨'{', _, by rw [renderWith]; rfl, by decide⟩

/-- What the text of a list or an object goes on with is no bracket. -/
theorem head?_ne_of_lead {a : JsonValue} (ha : a.Numerals) {c : Char} (hc : lead c = 7)
    (u : List Char) : (renderWith write a ++ u).head? ≠ some c := by
  obtain ⟨d, rest, hd, hlead⟩ : ∃ d rest, renderWith write a = d :: rest ∧ lead d ≠ 7 :=
    exists_renderWith_eq_cons ha
  rw [hd]
  rintro h
  cases h
  exact hlead hc

theorem intercalate_cons_append (x : List Char) (xs : List (List Char)) (u : List Char) :
    List.intercalate [','] (x :: xs) ++ u = x ++ (xs.flatMap (',' :: ·) ++ u) := by
  rw [intercalate_cons, List.append_assoc]

mutual

theorem readValueWith_renderWith (e : Escaping write char id) : ∀ {a : JsonValue}, a.Numerals →
    ∀ {n : ℕ}, weight a ≤ n → ∀ {u : List Char}, Ends u →
      readValueWith char n (renderWith write a ++ u) = some (a, u)
  | .null, _, fuel + 1, _, u, _ => readWord_append "ull".toList .null u
  | .bool true, _, fuel + 1, _, u, _ => readWord_append "rue".toList (.bool true) u
  | .bool false, _, fuel + 1, _, u, _ => readWord_append "alse".toList (.bool false) u
  | .num t, ha, fuel + 1, _, u, hu => by
      rw [Numerals] at ha
      obtain ⟨c, t', ht⟩ := List.exists_cons_of_ne_nil ha.1
      obtain ⟨htake, hdrop⟩ := takeWhile_numeral ha.2 hu
      have hlead : lead c = 6 := lead_numeralChar (ha.2 c (by rw [ht]; exact List.mem_cons_self))
      rw [renderWith]
      rw [ht, List.cons_append] at htake hdrop ⊢
      simp only [readValueWith, hlead, htake, hdrop]
  | .str s, _, fuel + 1, _, u, _ => by
      have hlead : lead '\x22' = 3 := by decide
      rw [renderWith, quotedWith_append]
      simp only [readValueWith, hlead, readBodyWith_quoted e, Option.map_some, List.map_id,
        String.ofList_toList]
  | .arr [], _, fuel + 1, _, u, _ => rfl
  | .arr (x :: xs), _, 0, hfuel, _, _ => by
      rw [weight] at hfuel
      omega
  | .arr (x :: xs), ha, fuel + 1, hfuel, u, _ => by
      rw [Numerals] at ha
      rw [weight] at hfuel
      have hlead : lead '[' = 4 := by decide
      have hitems := readItemsWith_renderWith e ha (n := fuel) (by omega) (u := u)
      have hhead : (renderWith write x ++
          ((renderItemsWith write xs).flatMap (',' :: ·) ++ ']' :: u)).head? ≠ some ']' :=
        head?_ne_of_lead ha.1 (by decide) _
      rw [renderWith, renderItemsWith, List.cons_append, List.cons_append, List.append_assoc,
        intercalate_cons_append, List.singleton_append]
      simp only [readValueWith, hlead, hitems, Option.map_some]
      rw [if_neg hhead]
  | .obj [], _, fuel + 1, _, u, _ => rfl
  | .obj ((k, x) :: xs), _, 0, hfuel, _, _ => by
      rw [weight] at hfuel
      omega
  | .obj ((k, x) :: xs), ha, fuel + 1, hfuel, u, _ => by
      rw [Numerals] at ha
      rw [weight] at hfuel
      have hlead : lead '{' = 5 := by decide
      have hentries := readEntriesWith_renderWith e ha (n := fuel) (by omega) (u := u)
      rw [renderWith, renderEntriesWith, List.cons_append, List.cons_append, List.append_assoc,
        intercalate_cons_append, List.singleton_append]
      simp only [readValueWith, hlead, hentries, Option.map_some]
      rw [if_neg]
      rw [List.append_assoc, quotedWith_append]
      exact fun h => by cases h

theorem readItemsWith_renderWith (e : Escaping write char id) : ∀ {x : JsonValue}
    {xs : List JsonValue}, ItemNumerals (x :: xs) → ∀ {n : ℕ}, itemsWeight (x :: xs) ≤ n →
      ∀ {u : List Char}, readItemsWith char n (renderWith write x ++
        ((renderItemsWith write xs).flatMap (',' :: ·) ++ ']' :: u)) = some (x :: xs, u)
  | x, [], _, 0, hfuel, _ => by
      rw [itemsWeight] at hfuel
      omega
  | x, y :: ys, _, 0, hfuel, _ => by
      rw [itemsWeight] at hfuel
      omega
  | x, [], ha, fuel + 1, hfuel, u => by
      rw [itemsWeight] at hfuel
      have hx := readValueWith_renderWith e ha.1 (n := fuel) (by omega) (u := ']' :: u)
        (ends_cons (by decide))
      simp only [renderItemsWith, List.flatMap_nil, List.nil_append, readItemsWith, hx,
        Option.bind_some]
      rfl
  | x, y :: ys, ha, fuel + 1, hfuel, u => by
      rw [itemsWeight] at hfuel
      have hx := readValueWith_renderWith e ha.1 (n := fuel) (by omega)
        (ends_items (renderItemsWith write (y :: ys)) (c := ']') (by decide) u)
      have hys := readItemsWith_renderWith e ha.2 (n := fuel) (by omega) (u := u)
      rw [readItemsWith, hx, renderItemsWith, List.flatMap_cons]
      simp only [Option.bind_some, List.cons_append, List.head?_cons, List.tail_cons,
        List.append_assoc, hys, Option.map_some]
      rfl

theorem readEntriesWith_renderWith (e : Escaping write char id) : ∀ {k : String} {x : JsonValue}
    {xs : List (String × JsonValue)}, EntryNumerals ((k, x) :: xs) → ∀ {n : ℕ},
      entriesWeight ((k, x) :: xs) ≤ n → ∀ {u : List Char},
        readEntriesWith char n ((quotedWith write k.toList ++ ':' :: renderWith write x) ++
          ((renderEntriesWith write xs).flatMap (',' :: ·) ++ '}' :: u)) = some ((k, x) :: xs, u)
  | k, x, [], _, 0, hfuel, _ => by
      rw [entriesWeight] at hfuel
      omega
  | k, x, (l, y) :: ys, _, 0, hfuel, _ => by
      rw [entriesWeight] at hfuel
      omega
  | k, x, [], ha, fuel + 1, hfuel, u => by
      rw [entriesWeight] at hfuel
      have hx := readValueWith_renderWith e ha.1 (n := fuel) (by omega) (u := '}' :: u)
        (ends_cons (by decide))
      rw [List.append_assoc, quotedWith_append]
      simp only [renderEntriesWith, List.flatMap_nil, List.nil_append, List.cons_append,
        readEntriesWith, if_true, readBodyWith_quoted e, Option.bind_some, List.map_id,
        List.head?_cons, List.tail_cons, hx, String.ofList_toList]
  | k, x, (l, y) :: ys, ha, fuel + 1, hfuel, u => by
      rw [entriesWeight] at hfuel
      have hx := readValueWith_renderWith e ha.1 (n := fuel) (by omega)
        (ends_items (renderEntriesWith write ((l, y) :: ys)) (c := '}') (by decide) u)
      have hys := readEntriesWith_renderWith e ha.2 (n := fuel) (by omega) (u := u)
      rw [List.append_assoc, quotedWith_append]
      simp only [List.cons_append, readEntriesWith, if_true, readBodyWith_quoted e,
        Option.bind_some, List.map_id, List.head?_cons, List.tail_cons, hx, String.ofList_toList]
      rw [renderEntriesWith, List.flatMap_cons]
      simp only [List.cons_append, List.head?_cons, List.tail_cons, List.append_assoc] at hys ⊢
      simp only [hys, Option.map_some]
      rfl

end

/-! ### Whole texts -/

mutual

theorem weight_le : ∀ {a : JsonValue}, a.Numerals → weight a < 2 * (renderWith write a).length
  | .null, _ => by
      rw [renderWith]
      decide
  | .bool b, _ => by
      rw [renderWith]
      cases b <;> decide
  | .num t, ha => by
      rw [Numerals] at ha
      have := List.length_pos_of_ne_nil ha.1
      have hweight : weight (.num t) = 1 := rfl
      rw [hweight, renderWith]
      omega
  | .str s, _ => by
      have hweight : weight (.str s) = 1 := rfl
      rw [hweight, renderWith, quotedWith, List.length_append, List.length_cons]
      omega
  | .arr xs, ha => by
      rw [Numerals] at ha
      have := itemsWeight_le ha
      rw [weight, renderWith]
      simp only [List.length_append, List.length_cons, List.length_nil]
      omega
  | .obj xs, ha => by
      rw [Numerals] at ha
      have := entriesWeight_le ha
      rw [weight, renderWith]
      simp only [List.length_append, List.length_cons, List.length_nil]
      omega

theorem itemsWeight_le : ∀ {xs : List JsonValue}, ItemNumerals xs →
    itemsWeight xs ≤ 2 * (List.intercalate [','] (renderItemsWith write xs)).length + 1
  | [], _ => Nat.zero_le _
  | [x], ha => by
      have := weight_le ha.1
      simp only [itemsWeight, renderItemsWith, intercalate_cons, List.flatMap_nil, List.append_nil]
      omega
  | x :: y :: ys, ha => by
      have hx := weight_le ha.1
      have hys := itemsWeight_le ha.2
      rw [renderItemsWith, renderItemsWith, List.intercalate_cons_cons] at *
      rw [itemsWeight]
      simp only [List.length_append, List.length_cons, List.length_nil]
      omega

theorem entriesWeight_le : ∀ {xs : List (String × JsonValue)}, EntryNumerals xs →
    entriesWeight xs ≤ 2 * (List.intercalate [','] (renderEntriesWith write xs)).length + 1
  | [], _ => Nat.zero_le _
  | [(k, x)], ha => by
      have := weight_le ha.1
      simp only [entriesWeight, renderEntriesWith, intercalate_cons, List.flatMap_nil,
        List.append_nil, List.length_append, List.length_cons]
      omega
  | (k, x) :: (l, y) :: ys, ha => by
      have hx := weight_le ha.1
      have hys := entriesWeight_le ha.2
      rw [renderEntriesWith, renderEntriesWith, List.intercalate_cons_cons] at *
      rw [entriesWeight]
      simp only [List.length_append, List.length_cons, List.length_nil]
      omega

end

/-- **A text is read back** where its escapes are known. -/
theorem readWith_renderWith (e : Escaping write char id) {a : JsonValue} (ha : a.Numerals) :
    readWith char (renderWith write a) = some a := by
  have hends : Ends [] := fun c hc => by cases hc
  have hweight : weight a ≤ 2 * (renderWith write a).length := (weight_le ha).le
  have hread := readValueWith_renderWith e ha hweight hends
  rw [List.append_nil] at hread
  rw [readWith, hread]

end

/-! ### The escapes of JSON -/

/-- A hex digit of either case. -/
def readHex (c : Char) : Option ℕ :=
  if c.isDigit then some (c.toNat - 0x30)
  else if 'a' ≤ c ∧ c ≤ 'f' then some (c.toNat - 0x57)
  else if 'A' ≤ c ∧ c ≤ 'F' then some (c.toNat - 0x37)
  else none

/-- The code unit that four hex digits write. -/
def readUnit : List Char → Option (ℕ × List Char)
  | a :: b :: c :: d :: rest =>
    (readHex a).bind fun a => (readHex b).bind fun b => (readHex c).bind fun c =>
      (readHex d).map fun d => (0x1000 * a + 0x100 * b + 0x10 * c + d, rest)
  | _ => none

/-- The second half of a pair of code units. -/
def readTrail (lead : ℕ) (s : List Char) : Option (Char × List Char) :=
  match s with
  | '\\' :: 'u' :: rest => (readUnit rest).bind fun u =>
      if 0xdc00 ≤ u.1 ∧ u.1 < 0xe000 then
        some (Char.ofNat (0x10000 + 0x400 * (lead - 0xd800) + (u.1 - 0xdc00)), u.2)
      else none
  | _ => none

/-- The first character of a JSON string's body; half a pair is none. -/
def readEscape : List Char → Option (Char × List Char)
  | '\\' :: 'u' :: rest => (readUnit rest).bind fun u =>
      if 0xd800 ≤ u.1 ∧ u.1 < 0xdc00 then readTrail u.1 u.2
      else if 0xdc00 ≤ u.1 ∧ u.1 < 0xe000 then none
      else some (Char.ofNat u.1, u.2)
  | '\\' :: '/' :: rest => some ('/', rest)
  | '\\' :: e :: rest => (ofShortEscape e).map (·, rest)
  | c :: rest => if c = '\x22' ∨ c = '\\' ∨ c.toNat < 0x20 then none else some (c, rest)
  | [] => none

/-- A code unit as four hex digits. -/
def hexUnit (n : ℕ) : List Char :=
  [hexDigit (n / 0x1000), hexDigit (n / 0x100 % 16), hexDigit (n / 0x10 % 16), hexDigit (n % 16)]

theorem readHex_hexDigit {n : ℕ} (h : n < 16) : readHex (hexDigit n) = some n := by
  interval_cases n <;> decide

theorem readUnit_hexUnit {n : ℕ} (h : n < 0x10000) (rest : List Char) :
    readUnit (hexUnit n ++ rest) = some (n, rest) := by
  simp only [hexUnit, List.cons_append, List.nil_append, readUnit,
    readHex_hexDigit (show n / 0x1000 < 16 by omega),
    readHex_hexDigit (show n / 0x100 % 16 < 16 by omega),
    readHex_hexDigit (show n / 0x10 % 16 < 16 by omega),
    readHex_hexDigit (show n % 16 < 16 by omega), Option.bind_some, Option.map_some]
  congr 2
  omega

/-- A character below the surrogates, written by its code unit. -/
theorem readEscape_unit {c : Char} (h : c.toNat < 0xd800) (rest : List Char) :
    readEscape ('\\' :: 'u' :: (hexUnit c.toNat ++ rest)) = some (c, rest) := by
  rw [readEscape, readUnit_hexUnit (by omega), Option.bind_some, if_neg (by omega),
    if_neg (by omega), Char.ofNat_toNat]

theorem readEscape_short {c e : Char} (h : shortEscape c = some e) (rest : List Char) :
    readEscape ('\\' :: e :: rest) = some (c, rest) := by
  obtain ⟨hc, hu⟩ := ofShortEscape_shortEscape h
  have hslash : e ≠ '/' := by
    rintro rfl
    cases hc
  rw [readEscape.eq_3 _ _ hu hslash, hc]
  rfl

theorem readEscape_plain {c : Char} (hquote : c ≠ '\x22') (hslash : c ≠ '\\') (h : ¬ c.toNat < 0x20)
    (rest : List Char) : readEscape (c :: rest) = some (c, rest) := by
  rw [readEscape.eq_4 _ _ (fun _ hc => absurd hc hslash) (fun _ hc => absurd hc hslash)
    (fun _ _ hc => absurd hc hslash), if_neg]
  rintro (h' | h' | h')
  · exact hquote h'
  · exact hslash h'
  · exact h h'

theorem hexUnit_of_lt {n : ℕ} (h : n < 0x100) :
    hexUnit n = ['0', '0', hexDigit (n / 16), hexDigit (n % 16)] := by
  rw [hexUnit, show n / 0x1000 = 0 by omega, show n / 0x100 % 16 = 0 by omega,
    show n / 0x10 % 16 = n / 16 by omega]
  rfl

/-- What every encoder escapes is read. -/
theorem readEscape_jsonEscape (c : Char) (rest : List Char) :
    readEscape (jsonEscape c ++ rest) = some (c, rest) := by
  rw [jsonEscape]
  cases he : shortEscape c with
  | some e => exact readEscape_short he rest
  | none =>
      dsimp only
      split
      next hlt =>
        rw [← hexUnit_of_lt (by omega)]
        exact readEscape_unit (by omega) rest
      next hlt =>
        have hquote : c ≠ '\x22' := by
          rintro rfl
          cases he
        have hslash : c ≠ '\\' := by
          rintro rfl
          cases he
        exact readEscape_plain hquote hslash hlt rest

/-! ### Escaping a text once more -/

/-- The characters that a text has outside its strings. -/
def outside (c : Char) : Bool := numeralChar c || c ∈ "nultrefas[]{}:,\x22".toList

section
variable {write : Char → List Char} {f : Char → List Char} (hf : ∀ c, outside c = true → f c = [c])
include hf

theorem flatMap_outside {t : List Char} (ht : ∀ c ∈ t, outside c = true) : t.flatMap f = t := by
  induction t with
  | nil => rfl
  | cons c t ih =>
      rw [List.flatMap_cons, hf c (ht c List.mem_cons_self),
        ih fun d hd => ht d (List.mem_cons_of_mem _ hd), List.singleton_append]

theorem flatMap_quotedWith (s : List Char) :
    (quotedWith write s).flatMap f = quotedWith (fun c => (write c).flatMap f) s := by
  have hquote : f '\x22' = ['\x22'] := hf _ (by decide)
  rw [quotedWith, quotedWith, List.flatMap_append, List.flatMap_cons, List.flatMap_cons,
    List.flatMap_nil, hquote, List.flatMap_assoc]
  rfl

theorem flatMap_intercalate : ∀ ts : List (List Char),
    (List.intercalate [','] ts).flatMap f = List.intercalate [','] (ts.map (·.flatMap f))
  | [] => rfl
  | [t] => by simp
  | t :: u :: ts => by
      have hcomma : f ',' = [','] := hf _ (by decide)
      rw [List.intercalate_cons_cons, List.map_cons, List.map_cons, List.intercalate_cons_cons,
        List.flatMap_append, List.flatMap_append, flatMap_intercalate (u :: ts), List.flatMap_cons,
        hcomma]
      rfl

end

mutual

/-- **Escapes of escapes**: where the characters outside of strings are kept, escaping a text is
escaping what is written for each character. -/
theorem flatMap_renderWith {write : Char → List Char} {f : Char → List Char}
    (hf : ∀ c, outside c = true → f c = [c]) : ∀ {a : JsonValue}, a.Numerals →
    (renderWith write a).flatMap f = renderWith (fun c => (write c).flatMap f) a
  | .null, _ => flatMap_outside hf (t := "null".toList) (List.all_eq_true.mp (by decide))
  | .bool true, _ => flatMap_outside hf (t := "true".toList) (List.all_eq_true.mp (by decide))
  | .bool false, _ => flatMap_outside hf (t := "false".toList) (List.all_eq_true.mp (by decide))
  | .num t, ha => flatMap_outside hf fun c hc => by
      rw [Numerals] at ha
      rw [outside, ha.2 c hc, Bool.true_or]
  | .str s, _ => flatMap_quotedWith hf s.toList
  | .arr xs, ha => by
      have hopen : f '[' = ['['] := hf _ (by decide)
      have hclose : f ']' = [']'] := hf _ (by decide)
      rw [renderWith, renderWith, List.flatMap_append, List.flatMap_cons, List.flatMap_cons,
        List.flatMap_nil, hopen, hclose, flatMap_intercalate hf, flatMap_renderItemsWith hf ha]
      rfl
  | .obj entries, ha => by
      have hopen : f '{' = ['{'] := hf _ (by decide)
      have hclose : f '}' = ['}'] := hf _ (by decide)
      rw [renderWith, renderWith, List.flatMap_append, List.flatMap_cons, List.flatMap_cons,
        List.flatMap_nil, hopen, hclose, flatMap_intercalate hf, flatMap_renderEntriesWith hf ha]
      rfl

theorem flatMap_renderItemsWith {write : Char → List Char} {f : Char → List Char}
    (hf : ∀ c, outside c = true → f c = [c]) : ∀ {xs : List JsonValue}, ItemNumerals xs →
    (renderItemsWith write xs).map (·.flatMap f) =
      renderItemsWith (fun c => (write c).flatMap f) xs
  | [], _ => rfl
  | x :: xs, ha => by
      rw [renderItemsWith, renderItemsWith, List.map_cons, flatMap_renderWith hf ha.1,
        flatMap_renderItemsWith hf ha.2]

theorem flatMap_renderEntriesWith {write : Char → List Char} {f : Char → List Char}
    (hf : ∀ c, outside c = true → f c = [c]) :
    ∀ {xs : List (String × JsonValue)}, EntryNumerals xs →
    (renderEntriesWith write xs).map (·.flatMap f) =
      renderEntriesWith (fun c => (write c).flatMap f) xs
  | [], _ => rfl
  | (k, x) :: rest, ha => by
      have hcolon : f ':' = [':'] := hf _ (by decide)
      rw [renderEntriesWith, renderEntriesWith, List.map_cons, List.flatMap_append,
        flatMap_quotedWith hf, List.flatMap_cons, hcolon, flatMap_renderWith hf ha.1,
        flatMap_renderEntriesWith hf ha.2]
      rfl

end

end JsonValue

end Brust
