import Mathlib.Data.String.Basic
import Brust.Paint.Client
import Brust.Support.Split

/-!
# Paint — Style objects

The two sides agree on the names of properties, on the texts that end a declaration and on what a
declaration prints of a name, so each entry's declaration agrees exactly where `EntryAgrees`
(`declaration_agrees`); and the CSS of an object where each entry's does (`css_agrees`).
-/

namespace Brust.Paint

open Numbers

variable {F : Type} [Numbers F]

/-! ### Letters -/

theorem toLower_of_not_upper {c : Char} (h : c.isUpper = false) : c.toLower = c := by
  delta Char.isUpper at h
  delta Char.toLower
  rw [decide_eq_false_iff_not] at h
  rw [dif_neg h]

theorem toLower_toUpper (c : Char) : c.toUpper.toLower = c.toLower := by
  apply Char.ext
  delta Char.toUpper Char.toLower
  split <;> split <;> (try split) <;> grind

theorem toUpper_toLower (c : Char) : c.toLower.toUpper = c.toUpper := by
  apply Char.ext
  delta Char.toUpper Char.toLower
  split <;> split <;> (try split) <;> grind

/-- Patterns in lower case match alike, whichever case both are turned to. -/
theorem infix_upper_iff {p s : List Char} (hp : p.map Char.toLower = p) :
    p.map Char.toUpper <:+: s.map Char.toUpper ↔ p <:+: s.map Char.toLower := by
  have hlower (l : List Char) : (l.map Char.toUpper).map Char.toLower = l.map Char.toLower := by
    rw [List.map_map]
    exact List.map_congr_left fun c _ => toLower_toUpper c
  have hupper (l : List Char) : (l.map Char.toLower).map Char.toUpper = l.map Char.toUpper := by
    rw [List.map_map]
    exact List.map_congr_left fun c _ => toUpper_toLower c
  constructor
  · intro h
    have := h.map Char.toLower
    rwa [hlower, hlower, hp] at this
  · intro h
    have := h.map Char.toUpper
    rwa [hupper] at this

/-! ### Names -/

theorem wordChar_eq (c : Char) :
    (c.isUpper || c.isLower || c.isDigit || c == '_' || c == '-') = wordChar c := by
  rw [wordChar, Char.isAlphanum]
  delta Char.isAlpha
  cases c == '_' <;> simp

theorem wordChar_of_alpha {c : Char} (h : c.isAlpha = true) : wordChar c = true := by
  rw [wordChar, Char.isAlphanum, h, Bool.true_or, Bool.true_or, Bool.true_or]

theorem stripPrefix_eq_some : ∀ {p k r : List Char}, stripPrefix p k = some r ↔ k = p ++ r
  | [], k, r => by simp [stripPrefix]
  | c :: p, [], r => by simp [stripPrefix]
  | c :: p, d :: k, r => by
      rw [stripPrefix, List.cons_append, List.cons_eq_cons]
      split
      · next h => simp [h, stripPrefix_eq_some]
      · next h => simp [Ne.symm h]

theorem custom_iff {k : List Char} : custom k = true ↔ ['-', '-'].isPrefixOf k = true := by
  rw [custom, Option.isSome_iff_exists, List.isPrefixOf_iff_prefix]
  exact exists_congr fun r => stripPrefix_eq_some.trans eq_comm

/-- The pattern of a style key. -/
theorem cssName_eq_cssKey (k : List Char) : Helper.cssName k = cssKey k := by
  have hplain : ∀ {k : List Char}, ['-', '-'].isPrefixOf k = false →
      Helper.cssName k = (k.head?.any Char.isAlpha && k.all wordChar) := by
    intro k hk
    rcases k with _ | ⟨c, k⟩
    · rfl
    · have hletter : (c.isAlpha && k.all wordChar) =
          (c.isAlpha && (wordChar c && k.all wordChar)) := by
        cases h : c.isAlpha with
        | false => rfl
        | true => simp only [wordChar_of_alpha h, Bool.true_and]
      rw [Helper.cssName]
      · have halpha : (c.isUpper || c.isLower) = c.isAlpha := rfl
        simpa only [wordChar_eq, Bool.false_or, List.head?_cons, Option.any_some, List.all_cons,
          halpha] using hletter
      · intro d r hdash
        rw [hdash] at hk
        cases hk
  rw [cssKey]
  cases h : stripPrefix ['-', '-'] k with
  | none =>
      refine hplain (Bool.eq_false_iff.mpr fun hp => ?_)
      have := custom_iff.mpr hp
      rw [custom, h] at this
      cases this
  | some r =>
      obtain rfl := stripPrefix_eq_some.mp h
      rcases r with _ | ⟨c, r⟩
      · rfl
      · simp only [List.cons_append, List.nil_append, Helper.cssName, wordChar_eq]
        exact (Bool.or_false _)

theorem hyphenated_eq : ∀ k : List Char, Helper.hyphenated k = k.flatMap hyphen
  | [] => rfl
  | c :: k => by
      rw [Helper.hyphenated, List.flatMap_cons, hyphen, hyphenated_eq k]
      split <;> rfl

theorem msDash_eq (s : List Char) :
    Helper.msDash s = if (stripPrefix ['m', 's', '-'] s).isSome then '-' :: s else s := by
  rw [Helper.msDash.eq_def]
  split
  · rfl
  · next h =>
    rw [if_neg]
    intro hs
    obtain ⟨r, hr⟩ := Option.isSome_iff_exists.mp hs
    exact h r (stripPrefix_eq_some.mp hr)

theorem property_eq_cssProperty (k : List Char) : Helper.property k = cssProperty k := by
  rw [Helper.property, cssProperty, msDash_eq, hyphenated_eq]
  exact if_congr custom_iff.symm rfl rfl

/-! ### Unitless properties -/

/-- A unitless name in upper case: `ZIndex`. -/
def CapitalUnitless (k : List Char) : Prop :=
  vendored k = none ∧ startsUpper k = true ∧ unitless.contains (lowerFirst k) = true

instance (k : List Char) : Decidable (CapitalUnitless k) :=
  inferInstanceAs (Decidable (_ ∧ _ ∧ _))

theorem unitless_lower : ∀ k ∈ unitless, startsUpper k = false ∧ vendored k = none := by
  -- The kernel is slow to decode a literal, and need not where its characters are given.
  simp only [unitless, vendored, vendors, literal, List.map_cons, List.map_nil]
  repeat rw [String.toList_ofList]
  decide +kernel

theorem lowerFirst_of_not_upper {k : List Char} (h : startsUpper k = false) : lowerFirst k = k := by
  rcases k with _ | ⟨c, k⟩
  · rfl
  · rw [lowerFirst, toLower_of_not_upper h]

/-- The helper's test is the filter's, but for a unitless name in upper case. -/
theorem bare_eq_isUnitless (k : List Char) :
    unitless.contains (Helper.bare k) = isUnitless k ↔ ¬ CapitalUnitless k := by
  rw [Helper.bare, isUnitless]
  cases hv : vendored k with
  | some rest =>
      have hk : unitless.contains k = false := Bool.eq_false_iff.mpr fun h => by
        have := (unitless_lower k (List.contains_iff_mem.mp h)).2
        rw [hv] at this
        cases this
      rw [hk]
      simp [CapitalUnitless, hv]
  | none =>
      cases hu : startsUpper k with
      | false =>
          rw [Option.getD_none, lowerFirst_of_not_upper hu]
          simp [CapitalUnitless, hu]
      | true =>
          have hk : unitless.contains k = false := Bool.eq_false_iff.mpr fun h => by
            have := (unitless_lower k (List.contains_iff_mem.mp h)).1
            rw [hu] at this
            cases this
          rw [hk]
          simp [CapitalUnitless, hu, hv]

/-! ### The texts that are refused -/

theorem refuses_eq_breaks (s : List Char) : Helper.refuses s = breaks s := by
  have hany : s.any (fun c => c == ';' || c == '{' || c == '}' || c == '\\' || c == '\n' ||
      c == '\r') = s.any breakers.contains := by
    congr 1
    funext c
    rw [Bool.eq_iff_iff]
    simp [breakers, or_assoc]
  have htext {p : List Char} (hp : p.map Char.toLower = p) :
      Helper.hasText p s = decide (p <:+: s.map Char.toLower) :=
    decide_eq_decide.mpr (infix_upper_iff hp)
  rw [Helper.refuses, breaks, hany, htext (by decide), htext (by decide), htext (by decide)]

theorem isAlpha_toLower {c : Char} (h : c.isUpper = true) : c.toLower.isAlpha = true := by
  delta Char.isAlpha Char.isUpper Char.isLower Char.toLower at *
  simp only [Bool.or_eq_true, Bool.and_eq_true, decide_eq_true_eq] at h ⊢
  rw [dif_pos h]
  exact .inr (by grind)

/-- A character of a number's text. -/
def plainChar (c : Char) : Bool := c.isAlphanum || ['+', '-', '.'].contains c

theorem mem_of_mem_lower {c : Char} {s : List Char} (h : c ∈ s.map Char.toLower)
    (hc : c.isAlpha = false) : c ∈ s := by
  obtain ⟨d, hd, rfl⟩ := List.mem_map.mp h
  cases hu : d.isUpper with
  | false => rwa [toLower_of_not_upper hu]
  | true =>
      rw [isAlpha_toLower hu] at hc
      cases hc

theorem breaks_plain {s : List Char} (h : ∀ c ∈ s, plainChar c = true) : breaks s = false := by
  have hno {p : List Char} {c : Char} (hc : c ∈ p) (halpha : c.isAlpha = false)
      (hplain : plainChar c = false) : decide (p <:+: s.map Char.toLower) = false :=
    decide_eq_false fun hin => by
      have := h c (mem_of_mem_lower (hin.subset hc) halpha)
      rw [hplain] at this
      cases this
  have hany : s.any breakers.contains = false := List.any_eq_false.mpr fun c hc hb => by
    have hbreak : ∀ c ∈ breakers, plainChar c = false := forall_mem_of_all (by decide)
    have := h c hc
    rw [hbreak c (List.contains_iff_mem.mp hb)] at this
    cases this
  rw [breaks, hany, hno (c := '*') (by decide) rfl rfl, hno (c := '(') (by decide) rfl rfl,
    hno (c := '@') (by decide) rfl rfl]
  rfl

/-! ### The texts of values -/

mutual

/-- At most one value is painted, and it is no boolean: `join` prints nothing beside it. -/
def single : Painted F → Bool
  | .bool _ => false
  | .arr items => singleItems items
  | _ => true

def singleItems : List (Painted F) → Bool
  | [] => true
  | [v] => single v
  | _ => false

end

theorem joined_cons (v : Painted F) (vs : List (Painted F)) :
    joined (v :: vs) = shown v :: joined vs := by
  cases v <;> rfl

mutual

theorem shown_of_single : ∀ {v : Painted F}, single v = true → shown v = paint v
  | .undefined, _ | .null, _ | .num _, _ | .str _, _ => rfl
  | .arr items, h => by
      rw [shown, string, paint]
      exact joined_of_single (by rwa [single] at h)
      all_goals simp
  | .bool _, h => by cases h

theorem joined_of_single : ∀ {vs : List (Painted F)}, singleItems vs = true →
    List.intercalate [','] (joined vs) = paintItems vs
  | [], _ => rfl
  | [v], h => by
      rw [joined_cons, joined, List.intercalate_singleton, paintItems, paintItems, List.append_nil]
      exact shown_of_single h
  | _ :: _ :: _, h => by cases h

end

/-- A character that no `trim` takes away. -/
def inked (c : Char) : Bool := !(isWhitespace c || Helper.isSpace c)

mutual

/-- JavaScript's text has all that is painted, and more where there is more than one value. -/
theorem shown_inked : ∀ v : Painted F, (paint v).countP inked ≤ (shown v).countP inked ∧
    (single v = false → (paint v).countP inked < (shown v).countP inked)
  | .undefined | .null | .num _ | .str _ => ⟨le_rfl, fun h => by cases h⟩
  | .bool b =>
      have hink : ∀ b, 0 < (boolText b).countP inked := by decide
      ⟨Nat.zero_le _, fun _ => hink b⟩
  | .arr items => by
      rw [shown, string, paint]
      exact joined_inked items
      all_goals simp

theorem joined_inked : ∀ vs : List (Painted F),
    (paintItems vs).countP inked ≤ (List.intercalate [','] (joined vs)).countP inked ∧
    (singleItems vs = false →
      (paintItems vs).countP inked < (List.intercalate [','] (joined vs)).countP inked)
  | [] => ⟨le_rfl, fun h => by cases h⟩
  | [v] => by
      rw [joined_cons, joined, List.intercalate_singleton, paintItems, paintItems, List.append_nil]
      exact shown_inked v
  | v :: w :: vs => by
      have hv := (shown_inked v).1
      have ih := (joined_inked (w :: vs)).1
      have hcomma : [','].countP inked = 1 := by decide
      rw [joined_cons] at ih
      rw [joined_cons, joined_cons, List.intercalate_cons_cons, paintItems]
      simp only [List.countP_append, hcomma]
      exact ⟨by omega, fun _ => by omega⟩

end

theorem countP_dropWhile {p : Char → Bool} (hp : ∀ c, p c = true → inked c = false)
    (s : List Char) : (s.dropWhile p).countP inked = s.countP inked := by
  have htake : (s.takeWhile p).countP inked = 0 := List.countP_eq_zero.mpr fun c hc hink => by
    rw [hp c (List.mem_takeWhile_imp hc)] at hink
    cases hink
  conv_rhs => rw [← List.takeWhile_append_dropWhile (p := p) (l := s), List.countP_append, htake,
    Nat.zero_add]

theorem countP_trimBy {p : Char → Bool} (hp : ∀ c, p c = true → inked c = false)
    (s : List Char) : (trimBy p s).countP inked = s.countP inked := by
  rw [trimBy, List.rdropWhile, List.countP_reverse, countP_dropWhile hp, List.countP_reverse,
    countP_dropWhile hp]

theorem countP_trim (s : List Char) : (trim s).countP inked = s.countP inked :=
  countP_trimBy (fun c hc => by rw [inked, hc]; rfl) s

theorem countP_helper_trim (s : List Char) : (Helper.trim s).countP inked = s.countP inked :=
  countP_trimBy (fun c hc => by rw [inked, hc, Bool.or_true]; rfl) s

/-! ### Declarations -/

/-- The text is dropped: it is empty, or would end the declaration. -/
def Refused (s : List Char) : Prop := s = [] ∨ breaks s = true

/-- The two texts of a value are trimmed alike, or both refused. -/
def TextAgrees (v : Painted F) : Prop :=
  (single v = true ∧ Helper.trim (paint v) = trim (paint v)) ∨
    (Refused (trim (paint v)) ∧ Refused (Helper.trim (shown v)))

/-- An entry of a style object whose declaration is one on both sides. -/
def EntryAgrees (k : List Char) (v : Painted F) : Prop :=
  cssKey k = true → match v with
    | .undefined | .null | .bool _ => True
    | .num n => isZero n = true ∨ custom k = true ∨ ¬ CapitalUnitless k
    | v => TextAgrees v

/-- The declaration that the helper makes of an entry. -/
def Helper.declaration (k : List Char) (v : Painted F) : Option (List Char) :=
  if given v && cssName k then
    let val := value k v
    if val ≠ [] && !refuses val then some (property k ++ ':' :: val) else none
  else none

theorem helper_css_eq (o : List (List Char × Painted F)) :
    Helper.css o = List.intercalate [';'] (o.filterMap fun (k, v) => Helper.declaration k v) := by
  rw [Helper.css]
  congr 1
  induction o with
  | nil => rfl
  | cons e o ih =>
      obtain ⟨k, v⟩ := e
      rw [List.filterMap_cons, ← ih]
      dsimp only
      rw [Helper.declaration]
      by_cases hk : (Helper.given v && Helper.cssName k) = true
      · by_cases hv : (Helper.value k v ≠ [] && !Helper.refuses (Helper.value k v)) = true
        · simp only [List.filter_cons, hk, if_true, List.map_cons, hv]
        · simp only [List.filter_cons, hk, if_true, List.map_cons, hv, Bool.false_eq_true, if_false]
      · simp only [List.filter_cons, hk, Bool.false_eq_true, if_false]

/-- What is printed of a text that is not dropped. -/
def kept (s : List Char) : Option (List Char) := if s ≠ [] && !breaks s then some s else none

theorem kept_eq_none {s : List Char} : kept s = none ↔ Refused s := by
  rw [kept, Refused]
  cases breaks s <;> simp

/-- The filter empties a text before it looks whether it is empty. -/
theorem kept_eq_dropped (s : List Char) :
    kept s = if !(if breaks s then [] else s).isEmpty then some (if breaks s then [] else s)
      else none := by
  rw [kept]
  cases breaks s with
  | true => simp
  | false => cases s <;> simp

theorem kept_eq_iff {s t : List Char} : kept s = kept t ↔ s = t ∨ (Refused s ∧ Refused t) := by
  constructor
  · intro h
    cases hs : kept s with
    | none => exact .inr ⟨kept_eq_none.mp hs, kept_eq_none.mp (h ▸ hs)⟩
    | some r =>
        have hval : ∀ {u : List Char}, kept u = some r → u = r := fun hu => by
          rw [kept] at hu
          split at hu
          · exact Option.some.inj hu
          · cases hu
        exact .inl ((hval hs).trans (hval (h ▸ hs)).symm)
  · rintro (rfl | ⟨hs, ht⟩)
    · rfl
    · rw [kept_eq_none.mpr hs, kept_eq_none.mpr ht]

theorem helper_declaration_eq (k : List Char) (v : Painted F) : Helper.declaration k v =
    if present v && cssKey k then (kept (Helper.value k v)).map (cssProperty k ++ ':' :: ·)
    else none := by
  have hgiven : Helper.given v = present v := by
    cases v with
    | bool b => cases b <;> rfl
    | _ => rfl
  rw [Helper.declaration, hgiven, cssName_eq_cssKey, property_eq_cssProperty, kept]
  dsimp only
  rw [refuses_eq_breaks]
  split
  · split <;> rfl
  · rfl

/-- The text of a number is kept, with its unit or without. -/
theorem kept_number (n : F) (px : Bool) :
    kept (if px then text n else text n ++ ['p', 'x']) =
      some (if px then text n else text n ++ ['p', 'x']) := by
  have hplain : ∀ c ∈ text n, plainChar c = true := fun c hc => by
    rw [plainChar, Bool.or_eq_true, List.contains_iff_mem]
    exact text_plain n c hc
  cases px with
  | true =>
      rw [if_pos rfl, kept, breaks_plain hplain]
      simp [text_ne_nil]
  | false =>
      have hpx : ∀ c ∈ text n ++ ['p', 'x'], plainChar c = true := fun c hc => by
        rcases List.mem_append.mp hc with hc | hc
        · exact hplain c hc
        · have hunit : ∀ c ∈ ['p', 'x'], plainChar c = true := forall_mem_of_all (by decide)
          exact hunit c hc
      rw [if_neg Bool.false_ne_true, kept, breaks_plain hpx]
      simp

/-- What the filter prints of a value, where it is not dropped. -/
def cssText (k : List Char) : Painted F → List Char
  | .num n => cssValue k (.num n)
  | v => trim (paint v)

theorem declaration_eq (k : List Char) (v : Painted F) : declaration k v =
    if present v && cssKey k then (kept (cssText k v)).map (cssProperty k ++ ':' :: ·)
    else none := by
  have hkept : kept (cssText k v) =
      if !(cssValue k v).isEmpty then some (cssValue k v) else none := by
    cases v with
    | num n =>
        have hval : kept (cssValue k (.num n)) = some (cssValue k (.num n)) := by
          rw [cssValue]
          exact kept_number n _
        have hne : (cssValue k (.num n)).isEmpty = false := by
          cases h : cssValue k (.num n) with
          | nil => rw [h] at hval; cases hval
          | cons c s => rfl
        rw [cssText, hval, hne]
        rfl
    | _ =>
        exact kept_eq_dropped _
  rw [declaration, hkept]
  split
  · dsimp only
    split <;> rfl
  · rfl

theorem text_agrees_iff {v : Painted F} :
    kept (Helper.trim (shown v)) = kept (trim (paint v)) ↔ TextAgrees v := by
  rw [kept_eq_iff, TextAgrees, and_comm (a := Refused (trim _))]
  refine or_congr_left ⟨fun h => ?_, fun ⟨hsingle, htrim⟩ => by rw [shown_of_single hsingle, htrim]⟩
  have hcount := congrArg (List.countP inked) h
  rw [countP_helper_trim, countP_trim] at hcount
  have hsingle : single v = true := by
    cases hs : single v with
    | true => rfl
    | false => exact absurd hcount ((shown_inked v).2 hs).ne'
  rw [shown_of_single hsingle] at h
  exact ⟨hsingle, h⟩

theorem number_agrees_iff (k : List Char) (n : F) :
    Helper.value k (.num n) = cssValue k (.num n) ↔
      isZero n = true ∨ custom k = true ∨ ¬ CapitalUnitless k := by
  have hdash : ['-', '-'].isPrefixOf k = custom k := Bool.eq_iff_iff.mpr custom_iff.symm
  have hne : text n ≠ text n ++ ['p', 'x'] := fun h => by
    have := congrArg List.length h
    simp at this
  rw [Helper.value, cssValue, hdash, ← bare_eq_isUnitless]
  cases isZero n <;> cases custom k <;> cases unitless.contains (Helper.bare k) <;>
    cases isUnitless k <;> simp [hne, hne.symm]

/-- **An entry's declaration.**  One on both sides exactly where the entry agrees. -/
theorem declaration_agrees (k : List Char) (v : Painted F) :
    Helper.declaration k v = declaration k v ↔ EntryAgrees k v := by
  have hmap : ∀ {s t : List Char}, (kept s).map (cssProperty k ++ ':' :: ·) =
      (kept t).map (cssProperty k ++ ':' :: ·) ↔ kept s = kept t := by
    intro s t
    refine (Option.map_injective fun a b hab => ?_).eq_iff
    exact (List.cons.inj (List.append_cancel_left hab)).2
  rw [helper_declaration_eq, declaration_eq]
  cases hk : cssKey k with
  | false =>
      rw [Bool.and_false]
      exact ⟨fun _ h => absurd (hk.symm.trans h) Bool.false_ne_true, fun _ => rfl⟩
  | true =>
      have hkey : ∀ {P : Prop}, P ↔ (cssKey k = true → P) := ⟨fun h _ => h, fun h => h hk⟩
      rw [Bool.and_true]
      cases v with
      | undefined | null => exact ⟨fun _ _ => trivial, fun _ => rfl⟩
      | bool b =>
          refine ⟨fun _ _ => trivial, fun _ => ?_⟩
          cases b <;> rfl
      | num n =>
          rw [if_pos (by rfl), if_pos (by rfl), hmap]
          have hval : kept (Helper.value k (.num n)) = some (Helper.value k (.num n)) := by
            rw [Helper.value]
            exact kept_number n _
          have hcss : kept (cssText k (.num n)) = some (cssValue k (.num n)) := by
            rw [cssText, cssValue]
            exact kept_number n _
          rw [hval, hcss, Option.some_inj]
          exact (number_agrees_iff k n).trans hkey
      | str s =>
          rw [if_pos (by rfl), if_pos (by rfl), hmap]
          exact (text_agrees_iff (v := .str s)).trans hkey
      | arr items =>
          rw [if_pos (by rfl), if_pos (by rfl), hmap]
          exact (text_agrees_iff (v := .arr items)).trans hkey

/-! ### Style objects -/

/-- A join of pieces can be taken apart: none is empty, and none has the separator. -/
theorem join_inj {c : Char} {l l' : List (List Char)} (h : ∀ p ∈ l, p ≠ [] ∧ c ∉ p)
    (h' : ∀ p ∈ l', p ≠ [] ∧ c ∉ p)
    (he : List.intercalate [c] l = List.intercalate [c] l') : l = l' := by
  have hne : ∀ {l : List (List Char)}, (∀ p ∈ l, p ≠ [] ∧ c ∉ p) → l ≠ [] →
      List.intercalate [c] l ≠ [] := by
    intro l h hl hnil
    have hsplit := List.splitOn_intercalate c (fun p hp => (h p hp).2) hl
    rw [hnil, List.splitOn_nil] at hsplit
    exact (h [] (hsplit ▸ List.mem_singleton_self _)).1 rfl
  rcases eq_or_ne l [] with rfl | hl <;> rcases eq_or_ne l' [] with rfl | hl'
  · rfl
  · exact absurd he.symm (hne h' hl')
  · exact absurd he (hne h hl)
  · rw [← List.splitOn_intercalate c (fun p hp => (h p hp).2) hl, he,
      List.splitOn_intercalate c (fun p hp => (h' p hp).2) hl']

/-- Two choices of tagged values from a list without duplicate tags are one where their results
are. -/
theorem filterMap_inj {α β γ : Type} {f g : α → Option β} {p : α → Bool} {key : α → γ}
    {t : β → γ} (hf : ∀ a b, f a = some b → p a = true ∧ t b = key a)
    (hg : ∀ a b, g a = some b → p a = true ∧ t b = key a) :
    ∀ {l : List α}, ((l.filter p).map key).Nodup → l.filterMap f = l.filterMap g →
      ∀ a ∈ l, f a = g a
  | [], _, _ => by simp
  | a :: l, hnodup, h => by
      have hrest : ((l.filter p).map key).Nodup :=
        hnodup.sublist ((List.Sublist.filter p (List.sublist_cons_self a l)).map key)
      -- a value of `a` is none of the values of the others
      have hno : ∀ {g : α → Option β}, (∀ a b, g a = some b → p a = true ∧ t b = key a) →
          ∀ b, p a = true → t b = key a → b ∉ l.filterMap g := by
        intro g hg b hpa htag hb
        obtain ⟨c, hc, hcb⟩ := List.mem_filterMap.mp hb
        obtain ⟨hpc, hkey⟩ := hg c b hcb
        rw [List.filter_cons_of_pos hpa, List.map_cons, List.nodup_cons] at hnodup
        exact hnodup.1 (List.mem_map.mpr ⟨c, List.mem_filter.mpr ⟨hc, hpc⟩, hkey.symm.trans htag⟩)
      rw [List.filterMap_cons, List.filterMap_cons] at h
      cases hfa : f a with
      | none =>
          cases hga : g a with
          | none =>
              rw [hfa, hga] at h
              exact List.forall_mem_cons.mpr ⟨hfa.trans hga.symm, filterMap_inj hf hg hrest h⟩
          | some b =>
              rw [hfa, hga] at h
              obtain ⟨hpa, htag⟩ := hg a b hga
              have hb : b ∈ l.filterMap f := by
                rw [show l.filterMap f = b :: l.filterMap g from h]
                exact List.mem_cons_self
              exact absurd hb (hno hf b hpa htag)
      | some b =>
          cases hga : g a with
          | none =>
              rw [hfa, hga] at h
              obtain ⟨hpa, htag⟩ := hf a b hfa
              have hb : b ∈ l.filterMap g := by
                rw [show l.filterMap g = b :: l.filterMap f from h.symm]
                exact List.mem_cons_self
              exact absurd hb (hno hg b hpa htag)
          | some c =>
              rw [hfa, hga] at h
              obtain ⟨hbc, htail⟩ := List.cons.inj h
              refine List.forall_mem_cons.mpr ⟨?_, filterMap_inj hf hg hrest htail⟩
              rw [hfa, hga, hbc]

theorem wordChar_toLower {c : Char} (h : wordChar c = true) : wordChar c.toLower = true := by
  cases hu : c.isUpper with
  | false => rwa [toLower_of_not_upper hu]
  | true => exact wordChar_of_alpha (isAlpha_toLower hu)

/-- A property's name has word characters only. -/
theorem cssProperty_word {k : List Char} (hk : cssKey k = true) :
    ∀ c ∈ cssProperty k, wordChar c = true := by
  have hword : ∀ c ∈ k, wordChar c = true := by
    rw [cssKey] at hk
    split at hk
    · next r hr =>
        obtain rfl := stripPrefix_eq_some.mp hr
        intro c hc
        rcases List.mem_append.mp hc with hc | hc
        · have hdash : ∀ c ∈ ['-', '-'], wordChar c = true := forall_mem_of_all (by decide)
          exact hdash c hc
        · exact List.all_eq_true.mp (Bool.and_eq_true_iff.mp hk).2 c hc
    · exact List.all_eq_true.mp (Bool.and_eq_true_iff.mp hk).2
  have hout : ∀ c ∈ k.flatMap hyphen, wordChar c = true := by
    intro c hc
    obtain ⟨d, hd, hc⟩ := List.mem_flatMap.mp hc
    rw [hyphen] at hc
    split at hc
    · rcases List.mem_cons.mp hc with rfl | hc
      · rfl
      · rw [List.mem_singleton.mp hc]
        exact wordChar_toLower (hword d hd)
    · rw [List.mem_singleton.mp hc]
      exact hword d hd
  rw [cssProperty]
  split
  · exact hword
  · dsimp only
    split
    · exact List.forall_mem_cons.mpr ⟨rfl, hout⟩
    · exact hout

/-- What a declaration is, on either side. -/
theorem kept_declaration {k s d : List Char}
    (h : (kept s).map (cssProperty k ++ ':' :: ·) = some d) :
    d = cssProperty k ++ ':' :: s ∧ ';' ∉ s := by
  obtain ⟨r, hr, rfl⟩ := Option.map_eq_some_iff.mp h
  rw [kept] at hr
  split at hr
  · next hs =>
      obtain rfl := Option.some.inj hr
      refine ⟨rfl, fun hsemi => ?_⟩
      have hbreaks : breaks s = true := by
        have hany : s.any breakers.contains = true :=
          List.any_eq_true.mpr ⟨';', hsemi, by decide⟩
        rw [breaks, hany, Bool.true_or, Bool.true_or, Bool.true_or]
      rw [hbreaks, Bool.not_true, Bool.and_false] at hs
      cases hs
  · cases hr

theorem helper_declaration_some {k d : List Char} {v : Painted F}
    (h : Helper.declaration k v = some d) :
    cssKey k = true ∧ ∃ s, d = cssProperty k ++ ':' :: s ∧ ';' ∉ s := by
  rw [helper_declaration_eq] at h
  split at h
  · next hk => exact ⟨(Bool.and_eq_true_iff.mp hk).2, _, kept_declaration h⟩
  · cases h

theorem declaration_some {k d : List Char} {v : Painted F} (h : declaration k v = some d) :
    cssKey k = true ∧ ∃ s, d = cssProperty k ++ ':' :: s ∧ ';' ∉ s := by
  rw [declaration_eq] at h
  split at h
  · next hk => exact ⟨(Bool.and_eq_true_iff.mp hk).2, _, kept_declaration h⟩
  · cases h

/-- The name before the colon of a declaration. -/
def named (d : List Char) : List Char := d.takeWhile (· ≠ ':')

theorem named_eq {k s : List Char} (hk : cssKey k = true) :
    named (cssProperty k ++ ':' :: s) = cssProperty k := by
  have hno : ∀ c ∈ cssProperty k, decide (c ≠ ':') = true := fun c hc => decide_eq_true fun he => by
    have := cssProperty_word hk c hc
    rw [he] at this
    cases this
  rw [named, List.takeWhile_append_of_pos hno, List.takeWhile_cons_of_neg (by simp),
    List.append_nil]

theorem piece {k d : List Char}
    (h : cssKey k = true ∧ ∃ s, d = cssProperty k ++ ':' :: s ∧ ';' ∉ s) :
    d ≠ [] ∧ ';' ∉ d := by
  obtain ⟨hk, s, rfl, hs⟩ := h
  refine ⟨by simp, fun hsemi => ?_⟩
  rcases List.mem_append.mp hsemi with hprop | hval
  · have := cssProperty_word hk ';' hprop
    cases this
  · exact hs ((List.mem_cons.mp hval).resolve_left (by decide))

variable {o : List (List Char × Painted F)}

theorem css_of_entries (h : ∀ e ∈ o, EntryAgrees e.1 e.2) : Helper.css o = styleObjToCss o := by
  rw [helper_css_eq, styleObjToCss]
  congr 1
  exact List.filterMap_congr fun e he => (declaration_agrees e.1 e.2).mpr (h e he)

/-- **Style objects.**  Where no two names of an object are one property, its CSS is one on both
sides only if each entry's declaration is. -/
theorem entries_of_css
    (hdistinct : ((o.filter fun e => cssKey e.1).map fun e => cssProperty e.1).Nodup)
    (h : Helper.css o = styleObjToCss o) : ∀ e ∈ o, EntryAgrees e.1 e.2 := by
  rw [helper_css_eq, styleObjToCss] at h
  have hlists := join_inj (fun d hd => ?_) (fun d hd => ?_) h
  · intro e he
    refine (declaration_agrees e.1 e.2).mp (filterMap_inj (t := named) (fun a d ha => ?_)
      (fun a d ha => ?_) hdistinct hlists e he)
    · obtain ⟨hk, s, rfl, -⟩ := helper_declaration_some ha
      exact ⟨hk, named_eq hk⟩
    · obtain ⟨hk, s, rfl, -⟩ := declaration_some ha
      exact ⟨hk, named_eq hk⟩
  · obtain ⟨e, -, hd⟩ := List.mem_filterMap.mp hd
    exact piece (helper_declaration_some hd)
  · obtain ⟨e, -, hd⟩ := List.mem_filterMap.mp hd
    exact piece (declaration_some hd)

end Brust.Paint
