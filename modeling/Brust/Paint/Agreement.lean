import Brust.Paint.Css

/-!
# Paint — The server's paint and the client's

Text agrees for every value, and an attribute for every value but an array (`text_agrees`,
`attr_agrees`).  A style object's CSS agrees where each entry does (`EntryAgrees`), and only there
where no two of its names are one property (`css_agrees`).
-/

namespace Brust.Paint

open Numbers

variable {F : Type} [Numbers F]

/-! ### Text -/

mutual

theorem text_agrees : ∀ v : Painted F, shown (Helper.text v) = paint v
  | .undefined | .null | .bool _ | .num _ | .str _ => rfl
  | .arr items => by
      rw [Helper.text, paint, ← textItems_agrees items]
      rfl

theorem textItems_agrees : ∀ vs : List (Painted F),
    (Helper.textItems vs).flatten = paintItems vs
  | [] => rfl
  | v :: vs => by
      rw [Helper.textItems, paintItems, List.flatten_cons, text_agrees v, textItems_agrees vs]

end

/-! ### Attributes -/

theorem shown_of_given {v : Painted F} (h : presentStr v = true) : shown v = string v := by
  cases v <;> first | rfl | cases h

variable (m : Minijinja F)

mutual

/-- Inside a list minijinja's text of a value is no shorter than JavaScript's. -/
theorem shown_length_le : ∀ v : Painted F, (shown v).length ≤ (m.repr v).length
  | .undefined | .null => Nat.zero_le _
  | .bool b => by
      rw [shown_of_given (v := .bool b) rfl, string, ← m.bool b, List.length_map]
  | .num n => by
      rw [shown_of_given (v := .num n) rfl, string, m.num]
  | .str s => by
      obtain ⟨q, quoted, hrepr, hlen⟩ := m.str s
      rw [shown_of_given (v := .str s) rfl, string, hrepr, List.length_append, List.length_cons]
      omega
  | .arr items => by
      rw [shown_of_given (v := .arr items) rfl, string, m.arr, List.length_append,
        List.length_cons]
      exact (joined_length_le items).trans (by omega)

theorem joined_length_le : ∀ vs : List (Painted F),
    (List.intercalate [','] (joined vs)).length ≤
      (List.intercalate [',', ' '] (vs.map m.repr)).length
  | [] => le_rfl
  | [v] => by
      rw [joined_cons, joined, List.map_singleton, List.intercalate_singleton,
        List.intercalate_singleton]
      exact shown_length_le v
  | v :: w :: vs => by
      have ih := joined_length_le (w :: vs)
      have hv := shown_length_le v
      rw [joined_cons, List.map_cons] at ih
      rw [joined_cons, joined_cons, List.map_cons, List.map_cons, List.intercalate_cons_cons,
        List.intercalate_cons_cons]
      simp only [List.length_append, List.length_cons, List.length_nil]
      omega

end

theorem string_ne_repr (items : List (Painted F)) :
    string (.arr items) ≠ m.repr (.arr items) := by
  intro h
  have hlen := congrArg List.length h
  rw [string, m.arr, List.length_append, List.length_cons] at hlen
  have := joined_length_le m items
  simp only [List.length_cons, List.length_nil] at hlen
  omega

def Painted.isArr : Painted F → Bool
  | .arr _ => true
  | _ => false

theorem truthy_eq_boolean (v : Painted F) : truthy v = boolean v := by
  cases v with
  | num n => rw [truthy, boolean, Bool.not_or]
  | str s => cases s <;> rfl
  | _ => rfl

/-- An attribute agrees where it is a boolean one, or where its value is no array. -/
theorem attr_agrees (kind : AttrKind) (v : Painted F) :
    boundAttr kind v = dynamicAttr m kind v ↔ kind = .boolean ∨ v.isArr = false := by
  constructor
  · intro h
    refine or_iff_not_imp_left.mpr fun hkind => Bool.eq_false_iff.mpr fun harr => ?_
    cases v with
    | arr items =>
        refine string_ne_repr m items ?_
        cases kind with
        | boolean => exact absurd rfl hkind
        | _ => exact Option.some.inj h
    | _ => cases harr
  · rintro (rfl | harr)
    · rw [dynamicAttr, truthy_eq_boolean]
      rfl
    · cases kind with
      | boolean =>
          rw [dynamicAttr, truthy_eq_boolean]
          rfl
      | overloaded =>
          cases v with
          | arr items => cases harr
          | bool b => cases b <;> rfl
          | _ => rfl
      | _ =>
          cases v with
          | arr items => cases harr
          | _ => rfl

/-! ### Both sides -/

/-- No two names of a style object are one property. -/
def Distinct (o : List (List Char × Painted F)) : Prop :=
  ((o.filter fun e => cssKey e.1).map fun e => cssProperty e.1).Nodup

/-- **Paint.**  Text agrees; an attribute does where it is a boolean one or its value is no array; a
style object's CSS does where its entries do, and only there where its names are distinct. -/
theorem paint_agrees (m : Minijinja F) :
    (∀ v : Painted F, shown (Helper.text v) = paint v) ∧
    (∀ (kind : AttrKind) (v : Painted F),
      boundAttr kind v = dynamicAttr m kind v ↔ kind = .boolean ∨ v.isArr = false) ∧
    (∀ o : List (List Char × Painted F),
      (∀ e ∈ o, EntryAgrees e.1 e.2) → Helper.css o = styleObjToCss o) ∧
    ∀ o : List (List Char × Painted F), Distinct o →
      (Helper.css o = styleObjToCss o ↔ ∀ e ∈ o, EntryAgrees e.1 e.2) :=
  ⟨text_agrees, attr_agrees m, fun _ => css_of_entries,
    fun _ h => ⟨entries_of_css h, css_of_entries⟩⟩

/-! ### Where they differ -/

/-- The numbers of one digit. -/
instance : Numbers (Fin 10) where
  text n := [Char.ofNat ('0'.toNat + n)]
  isZero n := n == 0
  isNaN _ := false
  text_ne_nil _ := List.cons_ne_nil _ _
  text_plain n := by
    have hall : ∀ n : Fin 10, (([Char.ofNat ('0'.toNat + n)] : List Char).all fun c =>
        decide (c.isAlphanum = true ∨ c ∈ ['+', '-', '.'])) = true := by decide
    exact forall_mem_of_all (hall n)

mutual

def printed : Painted (Fin 10) → List Char
  | .undefined => literal "Undefined"
  | .null => literal "None"
  | .bool b => literal (if b then "True" else "False")
  | .num n => text n
  | .str s => '"' :: s ++ ['"']
  | .arr items => '[' :: List.intercalate [',', ' '] (printedItems items) ++ [']']

def printedItems : List (Painted (Fin 10)) → List (List Char)
  | [] => []
  | v :: vs => printed v :: printedItems vs

end

theorem printedItems_eq_map (vs : List (Painted (Fin 10))) : printedItems vs = vs.map printed := by
  induction vs with
  | nil => rfl
  | cons v vs ih => rw [printedItems, ih, List.map_cons]

/-- Lists as minijinja prints them, with strings that need no escape. -/
def printer : Minijinja (Fin 10) where
  repr := printed
  arr items := by rw [printed, printedItems_eq_map]
  num n := by rw [printed]
  str s := ⟨'"', s, by rw [printed], le_rfl⟩
  bool b := by cases b <;> decide +kernel

def pair : Painted (Fin 10) := .arr [.num 1, .num 2]

/-- A style object of one property. -/
def styled (k : String) (v : Painted (Fin 10)) : List (List Char × Painted (Fin 10)) :=
  [(literal k, v)]

theorem zIndex_differs : Helper.css (styled "ZIndex" (.num 1)) ≠ styleObjToCss
    (styled "ZIndex" (.num 1)) := by
  have hcapital : CapitalUnitless "ZIndex".toList := by
    -- The kernel is slow to decode a literal, and need not where its characters are given.
    simp only [CapitalUnitless, vendored, vendors, unitless, literal, List.map_cons, List.map_nil]
    repeat rw [String.toList_ofList]
    decide +kernel
  have hkey : cssKey "ZIndex".toList = true ∧ custom "ZIndex".toList = false := by
    rw [String.toList_ofList]
    decide +kernel
  have hdistinct : Distinct (styled "ZIndex" (.num 1)) := by
    have hkept : (styled "ZIndex" (.num 1)).filter (fun e => cssKey e.1) =
      styled "ZIndex" (.num 1) :=
      List.filter_eq_self.mpr fun e he => List.mem_singleton.mp he ▸ hkey.1
    rw [Distinct, hkept]
    exact List.pairwise_singleton _ _
  intro h
  rcases entries_of_css hdistinct h _ List.mem_cons_self hkey.1 with hzero | hcustom | hno
  · exact absurd hzero (by decide)
  · exact absurd (hkey.2.symm.trans hcustom) Bool.false_ne_true
  · exact hno hcapital

/-- `title={[1, 2]}`, and `style` of `{ fontFamily: ["a", "b"] }`, `{ ZIndex: 1 }` and
`{ color: "\ufeffr" }`. -/
theorem paint_differs :
    boundAttr .plain pair ≠ dynamicAttr printer .plain pair ∧
    Helper.css (styled "fontFamily" (.arr [.str ['a'], .str ['b']])) ≠
      styleObjToCss (styled "fontFamily" (.arr [.str ['a'], .str ['b']])) ∧
    Helper.css (styled "ZIndex" (.num 1)) ≠ styleObjToCss (styled "ZIndex" (.num 1)) ∧
    Helper.css (styled "color" (.str ['\ufeff', 'r'])) ≠
      styleObjToCss (styled "color" (.str ['\ufeff', 'r'])) := by
  refine ⟨by decide +kernel, ?_, zIndex_differs, ?_⟩
  all_goals
    simp only [styled, literal]
    repeat rw [String.toList_ofList]
    decide +kernel

end Brust.Paint
