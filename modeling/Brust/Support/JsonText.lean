import Brust.Support.JsonString

/-!
# Support — JSON values and their text

A JSON value as its text has it: a number by its numeral, an object by its entries in their order.
The text of a value is self-delimiting but for a numeral, which ends where no character of one
follows, so the text determines the value (`render_inj`).
-/

namespace Brust

inductive JsonValue where
  | null
  | bool (b : Bool)
  | num (numeral : List Char)
  | str (s : String)
  | arr (xs : List JsonValue)
  | obj (entries : List (String × JsonValue))

namespace JsonValue

mutual

def render : JsonValue → List Char
  | .null => "null".toList
  | .bool b => (if b then "true" else "false").toList
  | .num numeral => numeral
  | .str s => jsonString s.toList
  | .arr xs => '[' :: List.intercalate [','] (renderItems xs) ++ [']']
  | .obj entries => '{' :: List.intercalate [','] (renderEntries entries) ++ ['}']

def renderItems : List JsonValue → List (List Char)
  | [] => []
  | x :: xs => render x :: renderItems xs

def renderEntries : List (String × JsonValue) → List (List Char)
  | [] => []
  | (k, x) :: rest => (jsonString k.toList ++ ':' :: render x) :: renderEntries rest

end

/-! ### Numerals -/

def numeralChar (c : Char) : Bool := c.isDigit || c ∈ ['-', '+', '.', 'e', 'E']

def Numeral (t : List Char) : Prop := t ≠ [] ∧ ∀ c ∈ t, numeralChar c = true

mutual

/-- Every number is a numeral. -/
def Numerals : JsonValue → Prop
  | .num t => Numeral t
  | .arr xs => ItemNumerals xs
  | .obj entries => EntryNumerals entries
  | _ => True

def ItemNumerals : List JsonValue → Prop
  | [] => True
  | x :: xs => Numerals x ∧ ItemNumerals xs

def EntryNumerals : List (String × JsonValue) → Prop
  | [] => True
  | (_, x) :: rest => Numerals x ∧ EntryNumerals rest

end

/-- No numeral goes on here. -/
def Ends (rest : List Char) : Prop := ∀ c ∈ rest.head?, numeralChar c = false

theorem ends_cons {c : Char} {rest : List Char} (h : numeralChar c = false) : Ends (c :: rest) := by
  intro d hd
  cases hd
  exact h

theorem numeral_append_inj {t t' u v : List Char} (ht : ∀ c ∈ t, numeralChar c = true)
    (ht' : ∀ c ∈ t', numeralChar c = true) (hu : Ends u) (hv : Ends v) (h : t ++ u = t' ++ v) :
    t = t' ∧ u = v := by
  induction t generalizing t' with
  | nil =>
      cases t' with
      | nil => exact ⟨rfl, h⟩
      | cons c t' =>
          rw [List.nil_append, List.cons_append] at h
          have := hu c (by rw [h]; rfl)
          rw [ht' c (by simp)] at this
          cases this
  | cons c t ih =>
      cases t' with
      | nil =>
          rw [List.nil_append, List.cons_append] at h
          have := hv c (by rw [← h]; rfl)
          rw [ht c (by simp)] at this
          cases this
      | cons c' t' =>
          obtain ⟨rfl, htail⟩ := List.cons.inj h
          obtain ⟨rfl, rfl⟩ := ih (fun d hd => ht d (List.mem_cons_of_mem _ hd))
            (fun d hd => ht' d (List.mem_cons_of_mem _ hd)) htail
          exact ⟨rfl, rfl⟩

/-! ### The first character -/

/-- What kind of value begins with a character. -/
def lead (c : Char) : ℕ :=
  if c = 'n' then 0 else if c = 't' then 1 else if c = 'f' then 2 else if c = '\x22' then 3
  else if c = '[' then 4 else if c = '{' then 5 else if numeralChar c then 6 else 7

def kind : JsonValue → ℕ
  | .null => 0
  | .bool b => if b then 1 else 2
  | .num _ => 6
  | .str _ => 3
  | .arr _ => 4
  | .obj _ => 5

theorem lead_numeralChar {c : Char} (h : numeralChar c = true) : lead c = 6 := by
  have hne : ∀ d, numeralChar d = false → c ≠ d := by
    rintro d hd rfl
    rw [h] at hd
    cases hd
  rw [lead, if_neg (hne 'n' (by decide)), if_neg (hne 't' (by decide)),
    if_neg (hne 'f' (by decide)),
    if_neg (hne '\x22' (by decide)), if_neg (hne '[' (by decide)), if_neg (hne '{' (by decide)),
    if_pos h]

theorem exists_render_eq_cons {a : JsonValue} (ha : a.Numerals) :
    ∃ c rest, render a = c :: rest ∧ lead c = kind a := by
  cases a with
  | null => exact ⟨'n', _, rfl, by decide⟩
  | bool b => cases b <;> exact ⟨_, _, rfl, by decide⟩
  | num t =>
      rw [Numerals] at ha
      obtain ⟨c, t, rfl⟩ := List.exists_cons_of_ne_nil ha.1
      exact ⟨c, t, rfl, lead_numeralChar (ha.2 c (by simp))⟩
  | str s => exact ⟨'\x22', _, rfl, rfl⟩
  | arr xs => exact ⟨'[', _, by rw [render]; rfl, rfl⟩
  | obj entries => exact ⟨'{', _, by rw [render]; rfl, rfl⟩

theorem kind_eq {a b : JsonValue} (ha : a.Numerals) (hb : b.Numerals) {u v : List Char}
    (h : render a ++ u = render b ++ v) : kind a = kind b := by
  obtain ⟨c, s, hc, hlead⟩ := exists_render_eq_cons ha
  obtain ⟨d, t, hd, hlead'⟩ := exists_render_eq_cons hb
  rw [hc, hd] at h
  rw [← hlead, ← hlead', (List.cons.inj h).1]

/-! ### The text determines the value -/

theorem intercalate_cons (c : Char) (x : List Char) (xs : List (List Char)) :
    List.intercalate [c] (x :: xs) = x ++ xs.flatMap (c :: ·) := by
  induction xs generalizing x with
  | nil => simp
  | cons y ys ih => rw [List.intercalate_cons_cons, ih, List.flatMap_cons]; simp

/-- No value begins with a character of no kind. -/
theorem render_append_ne_cons {a : JsonValue} (ha : a.Numerals) {c : Char} (hc : lead c = 7)
    (u v : List Char) : render a ++ u ≠ c :: v := by
  obtain ⟨d, rest, hd, hlead⟩ := exists_render_eq_cons ha
  rw [hd]
  intro h
  obtain ⟨rfl, -⟩ := List.cons.inj h
  rw [hc] at hlead
  cases a with
  | bool b => cases b <;> cases hlead
  | _ => cases hlead

theorem ends_items (xs : List (List Char)) {c : Char} (hc : numeralChar c = false) (u : List Char) :
    Ends (xs.flatMap (',' :: ·) ++ c :: u) := by
  cases xs with
  | nil => exact ends_cons hc
  | cons x xs => exact ends_cons (by decide)

/-- A list of texts between brackets, with a comma in front of each. -/
theorem comma_intercalate {x : List Char} {xs : List (List Char)} (w : List Char) :
    ',' :: (List.intercalate [','] (x :: xs) ++ w) = (x :: xs).flatMap (',' :: ·) ++ w := by
  rw [intercalate_cons, List.flatMap_cons, List.cons_append, List.cons_append]

mutual

theorem render_append_inj : ∀ {a b : JsonValue}, a.Numerals → b.Numerals → ∀ {u v : List Char},
    Ends u → Ends v → render a ++ u = render b ++ v → a = b ∧ u = v
  | .null, b, ha, hb, u, v, _, _, h => by
      have hk := kind_eq ha hb h
      cases b with
      | null => exact ⟨rfl, by simpa [render] using h⟩
      | bool b => cases b <;> cases hk
      | _ => cases hk
  | .bool a, b, ha, hb, u, v, _, _, h => by
      have hk := kind_eq ha hb h
      cases b with
      | bool b =>
          have hab : a = b := by cases a <;> cases b <;> first | rfl | cases hk
          subst hab
          exact ⟨rfl, List.append_cancel_left h⟩
      | _ => cases a <;> cases hk
  | .num t, b, ha, hb, u, v, hu, hv, h => by
      have hk := kind_eq ha hb h
      cases b with
      | num t' =>
          rw [Numerals] at ha hb
          obtain ⟨rfl, htail⟩ := numeral_append_inj ha.2 hb.2 hu hv h
          exact ⟨rfl, htail⟩
      | bool b => cases b <;> cases hk
      | _ => cases hk
  | .str s, b, ha, hb, u, v, _, _, h => by
      have hk := kind_eq ha hb h
      cases b with
      | str s' =>
          obtain ⟨hs, htail⟩ := jsonString_append_inj h
          exact ⟨by rw [String.toList_inj.mp hs], htail⟩
      | bool b => cases b <;> cases hk
      | _ => cases hk
  | .arr xs, b, ha, hb, u, v, _, _, h => by
      have hk := kind_eq ha hb h
      cases b with
      | arr ys =>
          rw [Numerals] at ha hb
          rw [render, render] at h
          simp only [List.cons_append, List.append_assoc, List.cons.injEq, true_and,
            List.nil_append] at h
          have hboth : xs = ys ∧ u = v := by
            refine items_append_inj ha hb ?_
            cases xs with
            | nil =>
                cases ys with
                | nil => exact h
                | cons y ys =>
                    rw [renderItems, renderItems, intercalate_cons, List.append_assoc] at h
                    exact absurd h.symm (render_append_ne_cons hb.1 (by decide) _ _)
            | cons x xs =>
                cases ys with
                | nil =>
                    rw [renderItems, renderItems, intercalate_cons, List.append_assoc] at h
                    exact absurd h (render_append_ne_cons ha.1 (by decide) _ _)
                | cons y ys =>
                    rw [renderItems, renderItems] at h ⊢
                    rw [← comma_intercalate, ← comma_intercalate, h]
          exact ⟨by rw [hboth.1], hboth.2⟩
      | bool b => cases b <;> cases hk
      | _ => cases hk
  | .obj xs, b, ha, hb, u, v, _, _, h => by
      have hk := kind_eq ha hb h
      cases b with
      | obj ys =>
          rw [Numerals] at ha hb
          rw [render, render] at h
          simp only [List.cons_append, List.append_assoc, List.cons.injEq, true_and,
            List.nil_append] at h
          have hboth : xs = ys ∧ u = v := by
            refine entries_append_inj ha hb ?_
            cases xs with
            | nil =>
                cases ys with
                | nil => exact h
                | cons y ys =>
                    rw [renderEntries, renderEntries, intercalate_cons, List.append_assoc] at h
                    cases h
            | cons x xs =>
                cases ys with
                | nil =>
                    rw [renderEntries, renderEntries, intercalate_cons, List.append_assoc] at h
                    cases h
                | cons y ys =>
                    rw [renderEntries, renderEntries] at h ⊢
                    rw [← comma_intercalate, ← comma_intercalate, h]
          exact ⟨by rw [hboth.1], hboth.2⟩
      | bool b => cases b <;> cases hk
      | _ => cases hk

/-- The items that follow one of a list. -/
theorem items_append_inj : ∀ {xs ys : List JsonValue}, ItemNumerals xs → ItemNumerals ys →
    ∀ {u v : List Char}, (renderItems xs).flatMap (',' :: ·) ++ ']' :: u =
      (renderItems ys).flatMap (',' :: ·) ++ ']' :: v → xs = ys ∧ u = v
  | [], [], _, _, u, v, h => by simpa [renderItems] using h
  | [], y :: ys, _, _, u, v, h => by simp [renderItems] at h
  | x :: xs, [], _, _, u, v, h => by simp [renderItems] at h
  | x :: xs, y :: ys, hx, hy, u, v, h => by
      simp only [renderItems, List.flatMap_cons, List.cons_append, List.append_assoc,
        List.cons.injEq, true_and] at h
      obtain ⟨hxy, htail⟩ := render_append_inj hx.1 hy.1 (ends_items _ (by decide) _)
        (ends_items _ (by decide) _) h
      obtain ⟨hrest, huv⟩ := items_append_inj hx.2 hy.2 htail
      exact ⟨by rw [hxy, hrest], huv⟩

/-- The entries that follow one of an object. -/
theorem entries_append_inj : ∀ {xs ys : List (String × JsonValue)}, EntryNumerals xs →
    EntryNumerals ys → ∀ {u v : List Char}, (renderEntries xs).flatMap (',' :: ·) ++ '}' :: u =
      (renderEntries ys).flatMap (',' :: ·) ++ '}' :: v → xs = ys ∧ u = v
  | [], [], _, _, u, v, h => by simpa [renderEntries] using h
  | [], y :: ys, _, _, u, v, h => by simp [renderEntries] at h
  | x :: xs, [], _, _, u, v, h => by simp [renderEntries] at h
  | (k, x) :: xs, (k', y) :: ys, hx, hy, u, v, h => by
      simp only [renderEntries, List.flatMap_cons, List.cons_append, List.append_assoc,
        List.cons.injEq, true_and] at h
      obtain ⟨hk, hvalue⟩ := jsonString_append_inj h
      obtain ⟨hxy, htail⟩ := render_append_inj hx.1 hy.1 (ends_items _ (by decide) _)
        (ends_items _ (by decide) _) (List.cons.inj hvalue).2
      obtain ⟨hrest, huv⟩ := entries_append_inj hx.2 hy.2 htail
      exact ⟨by rw [String.toList_inj.mp hk, hxy, hrest], huv⟩

end

/-- **The text of a JSON value determines it**, up to what its numerals stand for. -/
theorem render_inj {a b : JsonValue} (ha : a.Numerals) (hb : b.Numerals)
    (h : render a = render b) : a = b := by
  have hends : Ends [] := fun c hc => by cases hc
  exact (render_append_inj ha hb hends hends (congrArg (· ++ []) h)).1

end JsonValue

end Brust
