import Brust.Core.KeyParse

/-!
# Core — printing cache-key expressions

A printed form of every expression of the language, which derives the expression it is of
(`derives_print`).  So the parser reads it back (`parse_iff`).
-/

namespace Brust.Core.KeyExpr

section
variable {env : String → Option String}

/-! ### The printed form -/

/-- A text that a pair of quotes holds. -/
def Quotable (s : String) : Prop := '\'' ∉ s.toList ∨ '"' ∉ s.toList

def quote (s : String) : List Char :=
  if '"' ∈ s.toList then '\'' :: (s.toList ++ ['\'']) else '"' :: (s.toList ++ ['"'])

def call (name : String) (args : List Char) : List Char := name.toList ++ '(' :: (args ++ [')'])

section
variable (env)

open Classical in
/-- A variable of that value: the expression has kept the value alone. -/
noncomputable def envName (value : String) : String :=
  if h : ∃ n, Quotable n ∧ (env n).getD "" = value then h.choose else ""

mutual

noncomputable def print : Expr → List Char
  | .header n => call "header" (quote n)
  | .cookie n => call "cookie" (quote n)
  | .query n => call "query" (quote n)
  | .param n => call "param" (quote n)
  | .request f => call "request" (quote f)
  | .env v => call "env" (quote (envName env v))
  | .lit s => quote s
  | .or args => call "or" (printAll args)
  | .and args => call "and" (printAll args)
  | .concat args => call "concat" (printAll args)
  | .eq a b v => call "eq" (print a ++ ',' :: (print b ++ printValue v))
  | .lower a => call "lower" (print a)
  | .upper a => call "upper" (print a)

noncomputable def printAll : List Expr → List Char
  | [] => []
  | [e] => print e
  | e :: es => print e ++ ',' :: printAll es

noncomputable def printValue : Option Expr → List Char
  | none => []
  | some v => ',' :: print v

end

end

theorem derives_quote {s : String} (h : Quotable s) : Derives env (quote s) (.lit s) := by
  have hlit : (.lit s : Expr) = .lit (String.ofList s.toList) := by rw [String.ofList_toList]
  rw [quote, hlit]
  split
  · next hmem => exact .quoted (.inl rfl) (h.resolve_right (not_not_intro hmem))
  · next hmem => exact .quoted (.inr rfl) hmem

/-- A literal of the language is written in quotes or is an identifier, which has no quote. -/
theorem quotable_of_derives {text : List Char} {s : String} (h : Derives env text (.lit s)) :
    Quotable s := by
  generalize he : Expr.lit s = e at h
  cases h with
  | quoted hq hs =>
      cases he
      rw [Quotable, String.toList_ofList]
      rcases hq with rfl | rfl
      · exact .inl hs
      · exact .inr hs
  | bare hne hs =>
      cases he
      rw [Quotable, String.toList_ofList]
      exact .inl fun hmem => absurd (hs _ hmem) (by decide)
  | @call name w text args _ hne hname hw hargs hbuild =>
      generalize String.ofList name = ident at hbuild
      cases hbuild <;> cases he

theorem DerivesArgs.single {text : List Char} {e : Expr} (h : Derives env text e) :
    DerivesArgs env text [e] := by
  have hone := DerivesArgs.one blank_nil h blank_nil
  rwa [List.nil_append, List.append_nil] at hone

theorem DerivesArgs.comma {text rest : List Char} {e : Expr} {es : List Expr}
    (h : Derives env text e) (hrest : DerivesArgs env rest es) :
    DerivesArgs env (text ++ ',' :: rest) (e :: es) := by
  have hcons := DerivesArgs.cons blank_nil h blank_nil hrest
  rwa [List.nil_append, List.nil_append] at hcons

/-- A builtin is called by its name. -/
theorem derives_call {name : String} {text : List Char} {es : List Expr} {e : Expr}
    (hname : (!name.isEmpty && name.toList.all isIdent) = true) (hargs : DerivesArgs env text es)
    (hbuild : Builtin env name es e) : Derives env (call name text) e := by
  rw [Bool.and_eq_true] at hname
  refine Derives.call ?_ (List.all_eq_true.mp hname.2) blank_nil hargs ?_
  · intro hnil
    have hempty : name = "" := String.toList_injective hnil
    rw [hempty] at hname
    exact absurd hname.1 (by decide)
  · rwa [String.ofList_toList]

/-- The arguments of one text, which is what most builtins take. -/
theorem quotable_of_single {text : List Char} {s : String} (h : DerivesArgs env text [.lit s]) :
    Quotable s := by
  cases h with
  | one hw he hw' => exact quotable_of_derives he
  | cons hw he hw' hrest => cases hrest

theorem single_quotable {text : List Char} {s : String} (h : DerivesArgs env text [.lit s]) :
    DerivesArgs env (quote s) [.lit s] := .single (derives_quote (quotable_of_single h))

theorem derives_env {n : String} (h : Quotable n) :
    Derives env (print env (.env ((env n).getD ""))) (.env ((env n).getD "")) := by
  have hex : ∃ n', Quotable n' ∧ (env n').getD "" = (env n).getD "" := ⟨n, h, rfl⟩
  have hspec := hex.choose_spec
  have hbuild := @Builtin.env env hex.choose
  rw [hspec.2] at hbuild
  rw [print, envName, dif_pos hex]
  exact derives_call rfl (.single (derives_quote hspec.1)) hbuild

mutual

/-- **The printed form derives the expression it is of.** -/
theorem derives_print {text : List Char} {e : Expr} (h : Derives env text e) :
    Derives env (print env e) e := by
  match h with
  | .quoted hq hs =>
      rw [print]
      exact derives_quote (@quotable_of_derives env _ _ (.quoted hq hs))
  | .bare hne hs =>
      rw [print]
      exact derives_quote (@quotable_of_derives env _ _ (.bare hne hs))
  | @Derives.call _ name w text es e hne hname hw hargs hbuild =>
      have hall := derivesArgs_print hargs
      generalize String.ofList name = ident at hbuild
      cases hbuild with
      | header n => exact derives_call rfl (single_quotable hargs) (.header n)
      | cookie n => exact derives_call rfl (single_quotable hargs) (.cookie n)
      | query n => exact derives_call rfl (single_quotable hargs) (.query n)
      | param n => exact derives_call rfl (single_quotable hargs) (.param n)
      | request hf => exact derives_call rfl (single_quotable hargs) (.request hf)
      | env n => exact derives_env (quotable_of_single hargs)
      | or hne => exact derives_call rfl hall (.or hne)
      | and hne => exact derives_call rfl hall (.and hne)
      | concat hne => exact derives_call rfl hall (.concat hne)
      | lower a => exact derives_call rfl hall (.lower a)
      | upper a => exact derives_call rfl hall (.upper a)
      | eq a b =>
          rw [print, printValue, List.append_nil]
          exact derives_call rfl hall (.eq a b)
      | eqValue a b v => exact derives_call rfl hall (.eqValue a b v)

theorem derivesArgs_print {text : List Char} {es : List Expr} (h : DerivesArgs env text es) :
    DerivesArgs env (printAll env es) es := by
  match h with
  | .one hw he hw' =>
      rw [printAll]
      exact .single (derives_print he)
  | @DerivesArgs.cons _ w text w' rest e es hw he hw' hrest =>
      have hne : es ≠ [] := by
        cases hrest <;> exact List.cons_ne_nil _ _
      rw [printAll]
      · exact .comma (derives_print he) (derivesArgs_print hrest)
      · exact hne

end

/-- **Cache-key expressions.**  The parser ends on every source; it accepts exactly the sources of
the language, each with the expression that the grammar derives; and it reads the printed form of
every expression of the language back. -/
theorem parse_iff (env : String → Option String) :
    (∀ src, parse env src ≠ .error .fuel) ∧
      (∀ src e, parse env src = .ok e ↔ Accepts env src e) ∧
      ∀ src e, Accepts env src e → parse env (String.ofList (print env e)) = .ok e := by
  refine ⟨parse_ne_fuel, fun src e => ⟨accepts_of_parse, parse_of_accepts⟩, ?_⟩
  rintro src e ⟨w, text, w', -, -, -, he⟩
  refine parse_of_accepts ⟨[], print env e, [], blank_nil, blank_nil, ?_, derives_print he⟩
  rw [String.toList_ofList, List.nil_append, List.append_nil]

end

end Brust.Core.KeyExpr
