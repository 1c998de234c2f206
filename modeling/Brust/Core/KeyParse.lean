import Brust.Core.KeyExpr
import Brust.Support.Except
import Mathlib.Data.List.DropRight
import Mathlib.Data.List.TakeWhile

/-!
# Core — parsing cache-key expressions

The grammar of the expressions, with what each builtin takes (`Derives`), and the parser as the
source writes it.  The parser ends on every source (`parse_ne_fuel`), what it accepts derives
(`accepts_of_parse`), and what derives it accepts (`parse_of_accepts`).
-/

namespace Brust.Core.KeyExpr

/-! ### Characters -/

/-- `is_ascii_whitespace` -/
def isWs (c : Char) : Bool := c == ' ' || c == '\t' || c == '\n' || c == '\x0c' || c == '\r'

/-- A character of an identifier. -/
def isIdent (c : Char) : Bool := c.isAlphanum || c == '_' || c == '-'

def Blank (w : List Char) : Prop := ∀ c ∈ w, isWs c = true

section
-- the variables of the process
variable (env : String → Option String)

/-! ### The grammar -/

/-- What the builtins take. -/
inductive Builtin : String → List Expr → Expr → Prop where
  | header (n : String) : Builtin "header" [.lit n] (.header n)
  | cookie (n : String) : Builtin "cookie" [.lit n] (.cookie n)
  | query (n : String) : Builtin "query" [.lit n] (.query n)
  | param (n : String) : Builtin "param" [.lit n] (.param n)
  | request {f : String} (hf : f ∈ ["host", "method", "scheme", "path"]) :
      Builtin "request" [.lit f] (.request f)
  | env (n : String) : Builtin "env" [.lit n] (.env ((env n).getD ""))
  | or {args : List Expr} (h : args ≠ []) : Builtin "or" args (.or args)
  | and {args : List Expr} (h : args ≠ []) : Builtin "and" args (.and args)
  | concat {args : List Expr} (h : args ≠ []) : Builtin "concat" args (.concat args)
  | lower (a : Expr) : Builtin "lower" [a] (.lower a)
  | upper (a : Expr) : Builtin "upper" [a] (.upper a)
  | eq (a b : Expr) : Builtin "eq" [a, b] (.eq a b none)
  | eqValue (a b v : Expr) : Builtin "eq" [a, b, v] (.eq a b (some v))

mutual

/-- An expression: a quoted text without its quote in it, a bare identifier that stands for itself,
or a call of a builtin. -/
inductive Derives : List Char → Expr → Prop where
  | quoted {q : Char} {s : List Char} (hq : q = '\'' ∨ q = '"') (hs : q ∉ s) :
      Derives (q :: (s ++ [q])) (.lit (String.ofList s))
  | bare {s : List Char} (hne : s ≠ []) (hs : ∀ c ∈ s, isIdent c = true) :
      Derives s (.lit (String.ofList s))
  | call {name w text : List Char} {args : List Expr} {e : Expr} (hne : name ≠ [])
      (hname : ∀ c ∈ name, isIdent c = true) (hw : Blank w) (hargs : DerivesArgs text args)
      (hbuild : Builtin env (String.ofList name) args e) :
      Derives (name ++ (w ++ '(' :: (text ++ [')']))) e

/-- Arguments between commas, with white space around each. -/
inductive DerivesArgs : List Char → List Expr → Prop where
  | one {w text w' : List Char} {e : Expr} (hw : Blank w) (he : Derives text e) (hw' : Blank w') :
      DerivesArgs (w ++ (text ++ w')) [e]
  | cons {w text w' rest : List Char} {e : Expr} {args : List Expr} (hw : Blank w)
      (he : Derives text e) (hw' : Blank w') (hrest : DerivesArgs rest args) :
      DerivesArgs (w ++ (text ++ (w' ++ ',' :: rest))) (e :: args)

end

/-- A source of the language: an expression with white space around it. -/
def Accepts (src : String) (e : Expr) : Prop :=
  ∃ w text w', Blank w ∧ Blank w' ∧ src.toList = w ++ (text ++ w') ∧ Derives env text e

/-! ### The parser -/

/-- A message, or that the model ran out of fuel, which it does not (`parse_ne_fuel`). -/
inductive ParseError where
  | message (text : String)
  | fuel
deriving DecidableEq

def fail {α : Type} (text : String) : Except ParseError α :=
  .error (.message ("cache expression: " ++ text))

def skipWs (s : List Char) : List Char := s.dropWhile isWs

/-- The byte of the source that the rest begins at. -/
def byteAt (src rest : List Char) : String :=
  toString ((String.ofList src).utf8ByteSize - (String.ofList rest).utf8ByteSize)

/-- `one_str` -/
def oneStr (ident : String) : List Expr → Except ParseError String
  | [.lit s] => .ok s
  | [_] => fail (ident ++ "() argument must be a string literal")
  | _ => fail (ident ++ "() takes exactly one argument")

def build (ident : String) (args : List Expr) : Except ParseError Expr :=
  match ident with
  | "header" => (oneStr ident args).map .header
  | "cookie" => (oneStr ident args).map .cookie
  | "query" => (oneStr ident args).map .query
  | "param" => (oneStr ident args).map .param
  | "request" => (oneStr ident args).bind fun f =>
      if f ∈ ["host", "method", "scheme", "path"] then .ok (.request f)
      else fail ("request('" ++ f ++ "') — field must be host|method|scheme|path")
  | "env" => (oneStr ident args).map fun n => .env ((env n).getD "")
  | "or" => if args.isEmpty then fail "or() needs >= 1 argument" else .ok (.or args)
  | "and" => if args.isEmpty then fail "and() needs >= 1 argument" else .ok (.and args)
  | "concat" => if args.isEmpty then fail "concat() needs >= 1 argument" else .ok (.concat args)
  | "lower" =>
    match args with
    | [a] => .ok (.lower a)
    | _ => fail (ident ++ "() takes one argument")
  | "upper" =>
    match args with
    | [a] => .ok (.upper a)
    | _ => fail (ident ++ "() takes one argument")
  | "eq" =>
    match args with
    | [a, b] => .ok (.eq a b none)
    | [a, b, v] => .ok (.eq a b (some v))
    | _ => fail "eq() takes 2 or 3 arguments"
  | "uuid" => fail (ident ++ "() is non-deterministic and not allowed in cache keys")
  | "timestamp" => fail (ident ++ "() is non-deterministic and not allowed in cache keys")
  | other => fail ("unknown function '" ++ other ++ "'")

/-- `ident` -/
def identifier (src s : List Char) : Except ParseError (List Char × List Char) :=
  if s.takeWhile isIdent = [] then fail ("expected identifier at byte " ++ byteAt src s)
  else .ok (s.takeWhile isIdent, s.dropWhile isIdent)

/-- `string_lit`; the text begins with its quote. -/
def stringLit : List Char → Except ParseError (Expr × List Char)
  | [] => fail "unterminated string literal"
  | quote :: s =>
    match s.dropWhile (· ≠ quote) with
    | [] => fail "unterminated string literal"
    | _ :: rest => .ok (.lit (String.ofList (s.takeWhile (· ≠ quote))), rest)

/-- `expect` -/
def expect (c : Char) (s : List Char) : Except ParseError (List Char) :=
  if (skipWs s).head? = some c then .ok (skipWs s).tail
  else fail ("expected '" ++ String.singleton c ++ "'")

def isQuote (c : Char) : Bool := c == '\'' || c == '"'

mutual

def expr (src : List Char) : ℕ → List Char → Except ParseError (Expr × List Char)
  | 0, _ => .error .fuel
  | fuel + 1, s =>
    let s := skipWs s
    if s.head?.any isQuote then stringLit s
    else do
      let (ident, s) ← identifier src s
      let s := skipWs s
      -- without a call a bare identifier is a literal
      if s.head? ≠ some '(' then .ok (.lit (String.ofList ident), s)
      else do
        let (args, s) ← args src fuel s.tail
        let s ← expect ')' s
        let e ← build env (String.ofList ident) args
        .ok (e, s)

def args (src : List Char) : ℕ → List Char → Except ParseError (List Expr × List Char)
  | 0, _ => .error .fuel
  | fuel + 1, s =>
    let s := skipWs s
    if s.head? = some ')' then .ok ([], s) else argLoop src fuel s

/-- The loop of `args`. -/
def argLoop (src : List Char) : ℕ → List Char → Except ParseError (List Expr × List Char)
  | 0, _ => .error .fuel
  | fuel + 1, s => do
    let (e, s) ← expr src fuel s
    let s := skipWs s
    if s.head? = some ',' then do
      let (es, s) ← argLoop src fuel (skipWs s.tail)
      .ok (e :: es, s)
    else if s.head? = some ')' then .ok ([e], s)
    else fail "expected ',' or ')'"

end

/-- `Expr::parse` -/
def parse (src : String) : Except ParseError Expr := do
  let (e, s) ← expr env src.toList (2 * src.toList.length + 1) (skipWs src.toList)
  if skipWs s = [] then .ok e
  else fail ("trailing input at byte " ++ byteAt src.toList (skipWs s))

end

/-! ### White space -/

theorem blank_nil : Blank [] := fun _ hc => by cases hc

theorem Blank.append {w w' : List Char} (h : Blank w) (h' : Blank w') : Blank (w ++ w') :=
  List.forall_mem_append.mpr ⟨h, h'⟩

theorem exists_skipWs (s : List Char) : ∃ w, Blank w ∧ s = w ++ skipWs s :=
  ⟨s.takeWhile isWs, fun _ hc => List.mem_takeWhile_imp hc, List.takeWhile_append_dropWhile.symm⟩

theorem skipWs_blank {w : List Char} (hw : Blank w) (s : List Char) :
    skipWs (w ++ s) = skipWs s := List.dropWhile_append_of_pos hw

theorem skipWs_skipWs (s : List Char) : skipWs (skipWs s) = skipWs s :=
  List.dropWhile_idempotent isWs s

theorem skipWs_cons {c : Char} (h : isWs c = false) (s : List Char) : skipWs (c :: s) = c :: s :=
  List.dropWhile_cons_of_neg (by rw [h]; exact Bool.false_ne_true)

/-! ### What the builtins take -/

section
variable {env : String → Option String}

theorem Builtin.ne_nil {ident : String} {args : List Expr} {e : Expr}
    (h : Builtin env ident args e) : args ≠ [] := by
  cases h with
  | header | cookie | query | param | request | env | lower | upper | eq | eqValue =>
      exact List.cons_ne_nil _ _
  | or h | and h | concat h => exact h

theorem oneStr_eq_ok {ident n : String} {args : List Expr} (h : oneStr ident args = .ok n) :
    args = [.lit n] := by
  unfold oneStr at h
  split at h
  · cases h
    rfl
  · cases h
  · cases h

theorem map_oneStr_eq_ok {ident : String} {args : List Expr} {f : String → Expr} {e : Expr}
    (h : (oneStr ident args).map f = .ok e) : ∃ n, args = [.lit n] ∧ e = f n := by
  cases hone : oneStr ident args with
  | error err =>
      rw [hone] at h
      cases h
  | ok n =>
      rw [hone] at h
      cases h
      exact ⟨n, oneStr_eq_ok hone, rfl⟩

theorem eq_of_nonEmpty {args : List Expr} {text : String} {f : List Expr → Expr} {e : Expr}
    (h : (if args.isEmpty then fail text else .ok (f args)) = Except.ok e) :
    args ≠ [] ∧ e = f args := by
  cases args with
  | nil => cases h
  | cons a as =>
      cases h
      exact ⟨List.cons_ne_nil _ _, rfl⟩

/-- **A builtin is built exactly from what it takes.** -/
theorem build_iff {ident : String} {args : List Expr} {e : Expr} :
    build env ident args = .ok e ↔ Builtin env ident args e := by
  constructor
  · intro h
    unfold build at h
    split at h
    · obtain ⟨n, rfl, rfl⟩ := map_oneStr_eq_ok h
      exact .header n
    · obtain ⟨n, rfl, rfl⟩ := map_oneStr_eq_ok h
      exact .cookie n
    · obtain ⟨n, rfl, rfl⟩ := map_oneStr_eq_ok h
      exact .query n
    · obtain ⟨n, rfl, rfl⟩ := map_oneStr_eq_ok h
      exact .param n
    · obtain ⟨f, hone, hfield⟩ := bind_eq_ok.mp h
      obtain rfl := oneStr_eq_ok hone
      split at hfield
      · next hf =>
        cases hfield
        exact .request hf
      · cases hfield
    · obtain ⟨n, rfl, rfl⟩ := map_oneStr_eq_ok h
      exact .env n
    · obtain ⟨hne, rfl⟩ := eq_of_nonEmpty h
      exact .or hne
    · obtain ⟨hne, rfl⟩ := eq_of_nonEmpty h
      exact .and hne
    · obtain ⟨hne, rfl⟩ := eq_of_nonEmpty h
      exact .concat hne
    · split at h
      · cases h
        exact .lower _
      · cases h
    · split at h
      · cases h
        exact .upper _
      · cases h
    · split at h
      · cases h
        exact .eq _ _
      · cases h
        exact .eqValue _ _ _
      · cases h
    · cases h
    · cases h
    · cases h
  · intro h
    cases h with
    | header | cookie | query | param | env | lower | upper | eq | eqValue => rfl
    | request hf => exact if_pos hf
    | or h | and h | concat h =>
        obtain ⟨a, as, rfl⟩ := List.exists_cons_of_ne_nil h
        rfl

/-! ### The parser accepts what the grammar derives -/

theorem DerivesArgs.blank {w text : List Char} {es : List Expr} (hw : Blank w)
    (h : DerivesArgs env text es) : DerivesArgs env (w ++ text) es := by
  cases h with
  | one hw₁ he hw' =>
      rw [← List.append_assoc]
      exact .one (hw.append hw₁) he hw'
  | cons hw₁ he hw' hrest =>
      rw [← List.append_assoc]
      exact .cons (hw.append hw₁) he hw' hrest

theorem identifier_eq_ok {src s ident rest : List Char} (h : identifier src s = .ok (ident, rest)) :
    s = ident ++ rest ∧ ident ≠ [] ∧ ∀ c ∈ ident, isIdent c = true := by
  rw [identifier] at h
  split at h
  · cases h
  · next hne =>
    cases h
    exact ⟨List.takeWhile_append_dropWhile.symm, hne, fun _ hc => List.mem_takeWhile_imp hc⟩

theorem stringLit_eq_ok {s rest : List Char} {e : Expr} (hquote : s.head?.any isQuote = true)
    (h : stringLit s = .ok (e, rest)) : ∃ text, Derives env text e ∧ s = text ++ rest := by
  cases s with
  | nil => cases hquote
  | cons q s =>
      rw [stringLit] at h
      split at h
      · cases h
      · next c rest' hdrop =>
        cases h
        have hc := List.head?_dropWhile_not (· ≠ q) s
        rw [hdrop] at hc
        obtain rfl : c = q := by simpa using hc
        have hbody : c ∉ s.takeWhile (· ≠ c) := fun hmem =>
          absurd (List.mem_takeWhile_imp hmem) (by simp)
        have hq : c = '\'' ∨ c = '"' := by
          simpa [isQuote] using hquote
        refine ⟨_, .quoted hq hbody, ?_⟩
        rw [List.cons_append, List.append_assoc, List.singleton_append, ← hdrop,
          List.takeWhile_append_dropWhile]

theorem expect_eq_ok {c : Char} {s rest : List Char} (h : expect c s = .ok rest) :
    skipWs s = c :: rest := by
  rw [expect] at h
  split at h
  · next hc =>
    cases h
    obtain ⟨tl, htl⟩ := List.head?_eq_some_iff.mp hc
    rw [htl, List.tail_cons]
  · cases h

/-- **What is parsed derives**, for the three parts of the parser. -/
theorem sound (src : List Char) (n : ℕ) :
    (∀ s e rest, expr env src n s = .ok (e, rest) → ∃ w text w', Blank w ∧ Blank w' ∧
      s = w ++ (text ++ (w' ++ rest)) ∧ Derives env text e) ∧
    (∀ s es rest, args env src n s = .ok (es, rest) → es = [] ∨
      ∃ text, s = text ++ rest ∧ DerivesArgs env text es ∧ rest.head? = some ')') ∧
    ∀ s es rest, argLoop env src n s = .ok (es, rest) →
      ∃ text, s = text ++ rest ∧ DerivesArgs env text es ∧ rest.head? = some ')' := by
  induction n with
  | zero =>
      refine ⟨fun s e rest h => ?_, fun s es rest h => ?_, fun s es rest h => ?_⟩
      · rw [expr] at h
        cases h
      · rw [args] at h
        cases h
      · rw [argLoop] at h
        cases h
  | succ n ih =>
      obtain ⟨ihExpr, ihArgs, ihLoop⟩ := ih
      refine ⟨fun s e rest h => ?_, fun s es rest h => ?_, fun s es rest h => ?_⟩
      · obtain ⟨w, hw, hs⟩ := exists_skipWs s
        rw [expr] at h
        dsimp only at h
        split at h
        · next hquote =>
          obtain ⟨text, htext, hsplit⟩ := @stringLit_eq_ok env _ _ _ hquote h
          exact ⟨w, text, [], hw, blank_nil, by rw [List.nil_append, ← hsplit, ← hs], htext⟩
        · obtain ⟨⟨ident, s₂⟩, hident, h⟩ := bind_eq_ok.mp h
          obtain ⟨hs₁, hne, hall⟩ := identifier_eq_ok hident
          obtain ⟨w₂, hw₂, hs₂⟩ := exists_skipWs s₂
          dsimp only at h
          split at h
          · cases h
            refine ⟨w, ident, w₂, hw, hw₂, ?_, .bare hne hall⟩
            rw [← hs₂, ← hs₁, ← hs]
          · next hopen =>
            obtain ⟨⟨es, s₃⟩, hargs, h⟩ := bind_eq_ok.mp h
            obtain ⟨s₄, hexpect, h⟩ := bind_eq_ok.mp h
            obtain ⟨e', hbuild, h⟩ := bind_eq_ok.mp h
            cases h
            have hbuild := build_iff.mp hbuild
            obtain ⟨text, htext, hderives, hclose⟩ :=
              (ihArgs _ _ _ hargs).resolve_left hbuild.ne_nil
            have hs₃ := expect_eq_ok hexpect
            obtain ⟨tl, htl⟩ := List.head?_eq_some_iff.mp hclose
            rw [htl, skipWs_cons (by decide)] at hs₃
            obtain ⟨s₅, hs₅⟩ := List.head?_eq_some_iff.mp (not_not.mp hopen)
            rw [hs₅, List.tail_cons] at htext
            refine ⟨w, _, [], hw, blank_nil, ?_, .call hne hall hw₂ hderives hbuild⟩
            rw [hs, hs₁, hs₂, hs₅, htext, htl, hs₃]
            simp
      · rw [args] at h
        split at h
        · cases h
          exact .inl rfl
        · obtain ⟨w, hw, hs⟩ := exists_skipWs s
          obtain ⟨text, htext, hderives, hclose⟩ := ihLoop _ _ _ h
          refine .inr ⟨w ++ text, ?_, hderives.blank hw, hclose⟩
          rw [List.append_assoc, ← htext, ← hs]
      · rw [argLoop] at h
        obtain ⟨⟨e, s₁⟩, hexpr, h⟩ := bind_eq_ok.mp h
        obtain ⟨w, text, w', hw, hw', hs, he⟩ := ihExpr _ _ _ hexpr
        obtain ⟨w₁, hw₁, hs₁⟩ := exists_skipWs s₁
        dsimp only at h
        split at h
        · next hcomma =>
          obtain ⟨⟨es', s₂⟩, hloop, h⟩ := bind_eq_ok.mp h
          cases h
          obtain ⟨text', htext', hderives, hclose⟩ := ihLoop _ _ _ hloop
          obtain ⟨s₃, hs₃⟩ := List.head?_eq_some_iff.mp hcomma
          obtain ⟨w₂, hw₂, hs₂⟩ := exists_skipWs s₃
          rw [hs₃, List.tail_cons] at htext'
          refine ⟨_, ?_, .cons hw he (hw'.append hw₁) (hderives.blank hw₂), hclose⟩
          rw [hs, hs₁, hs₃, hs₂, htext']
          simp
        · split at h
          · next hclose =>
            cases h
            refine ⟨_, ?_, .one hw he (hw'.append hw₁), hclose⟩
            rw [hs, List.append_assoc, List.append_assoc, List.append_assoc, ← hs₁]
          · cases h

/-! ### The grammar derives what the parser accepts -/

/-- An expression begins with a quote or a character of an identifier. -/
theorem Derives.head {text : List Char} {e : Expr} (h : Derives env text e) :
    ∃ c tl, text = c :: tl ∧ (isQuote c = true ∨ isIdent c = true) := by
  cases h with
  | quoted hq hs =>
      refine ⟨_, _, rfl, .inl ?_⟩
      rcases hq with rfl | rfl <;> rfl
  | bare hne hs =>
      obtain ⟨c, tl, rfl⟩ := List.exists_cons_of_ne_nil hne
      exact ⟨c, tl, rfl, .inr (hs c (List.mem_cons_self ..))⟩
  | call hne hname hw hargs hbuild =>
      obtain ⟨c, tl, rfl⟩ := List.exists_cons_of_ne_nil hne
      exact ⟨c, _, rfl, .inr (hname c (List.mem_cons_self ..))⟩

theorem not_isWs {c : Char} (h : isQuote c = true ∨ isIdent c = true) : isWs c = false := by
  by_contra hws
  rw [Bool.not_eq_false] at hws
  simp only [isWs, Bool.or_eq_true, beq_iff_eq] at hws
  rcases hws with (((rfl | rfl) | rfl) | rfl) | rfl <;> revert h <;> decide

theorem not_isIdent {c : Char} (h : isWs c = true ∨ c ∈ ['(', ')', ',']) : isIdent c = false := by
  rcases h with h | h
  · by_contra hident
    rw [Bool.not_eq_false] at hident
    rw [not_isWs (.inr hident)] at h
    cases h
  · simp only [List.mem_cons, List.not_mem_nil, or_false] at h
    rcases h with rfl | rfl | rfl <;> rfl

theorem skipWs_text {text : List Char} {e : Expr} (h : Derives env text e) (rest : List Char) :
    skipWs (text ++ rest) = text ++ rest := by
  obtain ⟨c, tl, rfl, hc⟩ := h.head
  exact skipWs_cons (not_isWs hc) _

theorem DerivesArgs.exists_head {text : List Char} {es : List Expr} (h : DerivesArgs env text es) :
    ∃ w c tl, Blank w ∧ text = w ++ c :: tl ∧ (isQuote c = true ∨ isIdent c = true) := by
  cases h with
  | one hw he hw' =>
      obtain ⟨c, tl, rfl, hc⟩ := he.head
      exact ⟨_, c, _, hw, rfl, hc⟩
  | cons hw he hw' hrest =>
      obtain ⟨c, tl, rfl, hc⟩ := he.head
      exact ⟨_, c, _, hw, rfl, hc⟩

/-- What may be behind an expression: white space, then the end or a character that ends it. -/
def Follow (rest : List Char) : Prop :=
  ∃ w rest', Blank w ∧ rest = w ++ rest' ∧ ∀ c ∈ rest'.head?, c = ',' ∨ c = ')'

theorem Follow.skipWs {rest : List Char} (h : Follow rest) :
    ∀ c ∈ (KeyExpr.skipWs rest).head?, c = ',' ∨ c = ')' := by
  obtain ⟨w, rest', hw, rfl, hhead⟩ := h
  rw [skipWs_blank hw]
  cases rest' with
  | nil => exact hhead
  | cons c tl =>
      have hc := hhead c rfl
      rw [skipWs_cons (by rcases hc with rfl | rfl <;> rfl)]
      exact hhead

/-- An identifier ends before white space and before what is no identifier. -/
theorem identifier_append {src name w rest : List Char} (hne : name ≠ [])
    (hname : ∀ c ∈ name, isIdent c = true) (hw : Blank w)
    (hrest : ∀ c ∈ rest.head?, c ∈ ['(', ')', ',']) :
    identifier src (name ++ (w ++ rest)) = .ok (name, w ++ rest) := by
  have hstop : ∀ c ∈ (w ++ rest).head?, isIdent c = false := by
    intro c hc
    cases w with
    | nil => exact not_isIdent (.inr (hrest c hc))
    | cons d w =>
        obtain rfl : d = c := Option.some.inj hc
        exact not_isIdent (.inl (hw _ (List.mem_cons_self ..)))
  have htake : (name ++ (w ++ rest)).takeWhile isIdent = name := by
    rw [List.takeWhile_append_of_pos hname]
    generalize w ++ rest = s at hstop
    cases s with
    | nil => simp
    | cons c s => rw [List.takeWhile_cons_of_neg (by rw [hstop c rfl]; simp), List.append_nil]
  have hdrop : (name ++ (w ++ rest)).dropWhile isIdent = w ++ rest := by
    have hsplit := @List.takeWhile_append_dropWhile _ isIdent (name ++ (w ++ rest))
    rw [htake] at hsplit
    exact List.append_cancel_left hsplit
  rw [identifier, htake, hdrop, if_neg hne]

theorem stringLit_quoted {q : Char} {s : List Char} (hs : q ∉ s) (rest : List Char) :
    stringLit (q :: (s ++ [q]) ++ rest) = .ok (.lit (String.ofList s), rest) := by
  have hall : ∀ c ∈ s, decide (c ≠ q) = true := fun c hc =>
    decide_eq_true fun he => hs (he ▸ hc)
  have hlist : s ++ [q] ++ rest = s ++ q :: rest := by simp
  rw [List.cons_append, hlist, stringLit, List.dropWhile_append_of_pos hall,
    List.takeWhile_append_of_pos hall]
  simp

theorem expr_blank {src w : List Char} (hw : Blank w) (n : ℕ) (s : List Char) :
    expr env src n (w ++ s) = expr env src n s := by
  cases n with
  | zero => rw [expr, expr]
  | succ n => rw [expr, expr, skipWs_blank hw]

theorem argLoop_blank {src w : List Char} (hw : Blank w) (n : ℕ) (s : List Char) :
    argLoop env src n (w ++ s) = argLoop env src n s := by
  cases n with
  | zero => rw [argLoop, argLoop]
  | succ n => rw [argLoop, argLoop, expr_blank hw]

theorem not_quote_of_ident {name : List Char} (hne : name ≠ [])
    (hname : ∀ c ∈ name, isIdent c = true) (rest : List Char) :
    ¬ (name ++ rest).head?.any isQuote = true := by
  obtain ⟨c, tl, rfl⟩ := List.exists_cons_of_ne_nil hne
  have hc := hname c (List.mem_cons_self ..)
  rw [List.cons_append, List.head?_cons, Option.any_some]
  intro hquote
  simp only [isQuote, Bool.or_eq_true, beq_iff_eq] at hquote
  rcases hquote with rfl | rfl <;> revert hc <;> decide

/-- Arguments that are derived are none that the parser takes for no arguments. -/
theorem args_of_argLoop {src text s rest : List Char} {es : List Expr}
    (h : DerivesArgs env text es) {n : ℕ} (hloop : argLoop env src n (text ++ s) = .ok (es, rest)) :
    args env src (n + 1) (text ++ s) = .ok (es, rest) := by
  obtain ⟨w, c, tl, hw, rfl, hc⟩ := h.exists_head
  have hskip : skipWs (w ++ c :: tl ++ s) = c :: (tl ++ s) := by
    rw [List.append_assoc, skipWs_blank hw, List.cons_append, skipWs_cons (not_isWs hc)]
  have hclose : (c :: (tl ++ s)).head? ≠ some ')' := by
    rintro he
    obtain rfl := Option.some.inj he
    revert hc
    decide
  rw [List.append_assoc, argLoop_blank hw, List.cons_append] at hloop
  rw [args, hskip, if_neg hclose, hloop]

theorem ok_bind {α β : Type} (a : α) (f : α → Except ParseError β) :
    (Except.ok a >>= f) = f a := rfl

mutual

theorem expr_of_derives (src : List Char) {text : List Char} {e : Expr} (h : Derives env text e)
    (rest : List Char) (hrest : Follow rest) {n : ℕ} (hn : 2 * (text ++ rest).length + 1 ≤ n) :
    ∃ r, expr env src n (text ++ rest) = .ok (e, r) ∧ skipWs r = skipWs rest := by
  obtain ⟨n, rfl⟩ : ∃ k, n = k + 1 := ⟨n - 1, by omega⟩
  rw [expr, skipWs_text h]
  match h with
  | @Derives.quoted _ q s hq hs =>
      have hquote : (q :: (s ++ [q]) ++ rest).head?.any isQuote = true := by
        rcases hq with rfl | rfl <;> rfl
      exact ⟨rest, by rw [if_pos hquote, stringLit_quoted hs], rfl⟩
  | @Derives.bare _ s hne hs =>
      have hquote : ¬ (s ++ rest).head?.any isQuote = true := not_quote_of_ident hne hs rest
      obtain ⟨w, rest', hw, rfl, hhead⟩ := hrest
      have hnext : ∀ c ∈ rest'.head?, c ∈ ['(', ')', ','] := fun c hc => by
        rcases hhead c hc with rfl | rfl <;> decide
      have hopen : (skipWs (w ++ rest')).head? ≠ some '(' := fun he => by
        rcases Follow.skipWs ⟨w, rest', hw, rfl, hhead⟩ _ he with h | h <;>
          exact absurd h (by decide)
      refine ⟨skipWs (w ++ rest'), ?_, skipWs_skipWs _⟩
      rw [if_neg hquote, identifier_append hne hs hw hnext]
      exact if_pos hopen
  | @Derives.call _ name w text es _ hne hname hw hargs hbuild =>
      have hlist : name ++ (w ++ '(' :: (text ++ [')'])) ++ rest =
          name ++ (w ++ '(' :: (text ++ ')' :: rest)) := by simp
      rw [hlist] at hn ⊢
      have hquote : ¬ (name ++ (w ++ '(' :: (text ++ ')' :: rest))).head?.any isQuote = true :=
        not_quote_of_ident hne hname _
      have hlen : 0 < name.length := List.length_pos_of_ne_nil hne
      simp only [List.length_append, List.length_cons] at hn
      have hargs' := args_of_argLoop hargs (argLoop_of_derives src hargs rest (n := n - 1)
        (by simp only [List.length_append, List.length_cons]; omega))
      have hfuel : n - 1 + 1 = n := by omega
      rw [hfuel] at hargs'
      refine ⟨rest, ?_, rfl⟩
      rw [if_neg hquote, identifier_append hne hname hw fun c hc => by cases hc; decide]
      refine (if_neg (not_not_intro ?_)).trans ?_
      · rw [skipWs_blank hw, skipWs_cons rfl]
        rfl
      · rw [skipWs_blank hw, skipWs_cons rfl, List.tail_cons, hargs']
        have hexpect : expect ')' (')' :: rest) = .ok rest := by
          rw [expect, skipWs_cons rfl]
          exact if_pos rfl
        rw [ok_bind]
        dsimp only
        rw [hexpect, ok_bind, build_iff.mpr hbuild]
        rfl

theorem argLoop_of_derives (src : List Char) {text : List Char} {es : List Expr}
    (h : DerivesArgs env text es) (rest : List Char) {n : ℕ}
    (hn : 2 * (text ++ ')' :: rest).length + 2 ≤ n) :
    argLoop env src n (text ++ ')' :: rest) = .ok (es, ')' :: rest) := by
  obtain ⟨n, rfl⟩ : ∃ k, n = k + 1 := ⟨n - 1, by omega⟩
  match h with
  | @DerivesArgs.one _ w text w' _ hw he hw' =>
      have hlist : w ++ (text ++ w') ++ ')' :: rest = w ++ (text ++ (w' ++ ')' :: rest)) := by simp
      rw [hlist] at hn ⊢
      simp only [List.length_append, List.length_cons] at hn
      obtain ⟨r, hexpr, hr⟩ := expr_of_derives src he (w' ++ ')' :: rest)
        ⟨w', _, hw', rfl, fun c hc => .inr (Option.some.inj hc).symm⟩ (n := n)
        (by simp only [List.length_append, List.length_cons]; omega)
      rw [skipWs_blank hw', skipWs_cons rfl] at hr
      rw [argLoop, expr_blank hw, hexpr, ok_bind]
      dsimp only
      rw [hr, List.head?_cons, if_neg (by decide)]
      exact if_pos rfl
  | @DerivesArgs.cons _ w text w' more _ es hw he hw' hmore =>
      have hlist : w ++ (text ++ (w' ++ ',' :: more)) ++ ')' :: rest =
          w ++ (text ++ (w' ++ ',' :: (more ++ ')' :: rest))) := by simp
      rw [hlist] at hn ⊢
      simp only [List.length_append, List.length_cons] at hn
      obtain ⟨c, tl, htext, -⟩ := he.head
      have hlen : 0 < text.length := by rw [htext]; exact Nat.succ_pos _
      obtain ⟨r, hexpr, hr⟩ := expr_of_derives src he (w' ++ ',' :: (more ++ ')' :: rest))
        ⟨w', _, hw', rfl, fun c hc => .inl (Option.some.inj hc).symm⟩ (n := n)
        (by simp only [List.length_append, List.length_cons]; omega)
      have hloop := argLoop_of_derives src hmore rest (n := n)
        (by simp only [List.length_append, List.length_cons]; omega)
      obtain ⟨w₁, hw₁, hs₁⟩ := exists_skipWs (more ++ ')' :: rest)
      rw [hs₁, argLoop_blank hw₁] at hloop
      rw [skipWs_blank hw', skipWs_cons rfl] at hr
      rw [argLoop, expr_blank hw, hexpr, ok_bind]
      dsimp only
      rw [hr, List.head?_cons]
      refine (if_pos rfl).trans ?_
      rw [List.tail_cons, hloop]
      rfl

end

/-! ### The parser never runs out of fuel -/

section
variable {α β : Type}

theorem ok_ne_fuel (a : α) : (Except.ok a : Except ParseError α) ≠ .error .fuel :=
  fun h => by cases h

theorem fail_ne_fuel (text : String) : (fail text : Except ParseError α) ≠ .error .fuel :=
  fun h => by cases h

theorem bind_ne_fuel {x : Except ParseError α} {f : α → Except ParseError β}
    (hx : x ≠ .error .fuel) (hf : ∀ a, x = .ok a → f a ≠ .error .fuel) :
    (x >>= f) ≠ .error .fuel := by
  cases x with
  | error err =>
      intro h
      cases h
      exact hx rfl
  | ok a => exact hf a rfl

theorem map_ne_fuel {x : Except ParseError α} {f : α → β} (hx : x ≠ .error .fuel) :
    x.map f ≠ .error .fuel := by
  cases x with
  | error err =>
      intro h
      cases h
      exact hx rfl
  | ok a => exact ok_ne_fuel (f a)

end

theorem oneStr_ne_fuel (ident : String) (args : List Expr) :
    oneStr ident args ≠ .error .fuel := by
  unfold oneStr
  split
  · exact ok_ne_fuel _
  · exact fail_ne_fuel _
  · exact fail_ne_fuel _

theorem build_ne_fuel (ident : String) (args : List Expr) :
    build env ident args ≠ .error .fuel := by
  have hone : ∀ (ident : String) (f : String → Expr),
      (oneStr ident args).map f ≠ .error .fuel := fun ident _ =>
    map_ne_fuel (oneStr_ne_fuel ident args)
  have hsome : ∀ (text : String) (e : Expr),
      (if args.isEmpty then fail text else .ok e) ≠ .error .fuel := fun text e => by
    split
    · exact fail_ne_fuel text
    · exact ok_ne_fuel e
  unfold build
  split
  · exact hone _ _
  · exact hone _ _
  · exact hone _ _
  · exact hone _ _
  · refine bind_ne_fuel (oneStr_ne_fuel _ _) fun f _ => ?_
    split
    · exact ok_ne_fuel _
    · exact fail_ne_fuel _
  · exact hone _ _
  · exact hsome _ _
  · exact hsome _ _
  · exact hsome _ _
  · split
    · exact ok_ne_fuel _
    · exact fail_ne_fuel _
  · split
    · exact ok_ne_fuel _
    · exact fail_ne_fuel _
  · split
    · exact ok_ne_fuel _
    · exact ok_ne_fuel _
    · exact fail_ne_fuel _
  · exact fail_ne_fuel _
  · exact fail_ne_fuel _
  · exact fail_ne_fuel _

theorem identifier_ne_fuel (src s : List Char) : identifier src s ≠ .error .fuel := by
  rw [identifier]
  split
  · exact fail_ne_fuel _
  · exact ok_ne_fuel _

theorem stringLit_ne_fuel (s : List Char) : stringLit s ≠ .error .fuel := by
  unfold stringLit
  split
  · exact fail_ne_fuel _
  · split
    · exact fail_ne_fuel _
    · exact ok_ne_fuel _

theorem expect_ne_fuel (c : Char) (s : List Char) : expect c s ≠ .error .fuel := by
  rw [expect]
  split
  · exact ok_ne_fuel _
  · exact fail_ne_fuel _

theorem length_skipWs_le (s : List Char) : (skipWs s).length ≤ s.length :=
  (List.dropWhile_suffix isWs).length_le

/-- Each call takes two of the fuel and each of its characters is read once. -/
theorem ne_fuel (src : List Char) (n : ℕ) :
    (∀ s, 2 * s.length + 1 ≤ n → expr env src n s ≠ .error .fuel) ∧
    (∀ s, 2 * s.length + 3 ≤ n → args env src n s ≠ .error .fuel) ∧
    ∀ s, 2 * s.length + 2 ≤ n → argLoop env src n s ≠ .error .fuel := by
  induction n with
  | zero => exact ⟨fun _ h => by omega, fun _ h => by omega, fun _ h => by omega⟩
  | succ n ih =>
      obtain ⟨ihExpr, ihArgs, ihLoop⟩ := ih
      refine ⟨fun s hn => ?_, fun s hn => ?_, fun s hn => ?_⟩
      · rw [expr]
        dsimp only
        split
        · exact stringLit_ne_fuel _
        · refine bind_ne_fuel (identifier_ne_fuel _ _) fun ⟨ident, s₁⟩ hident => ?_
          obtain ⟨hs, hne, -⟩ := identifier_eq_ok hident
          have hlen := length_skipWs_le s
          have hlen₁ := length_skipWs_le s₁
          have hpos := List.length_pos_of_ne_nil hne
          rw [hs, List.length_append] at hlen
          dsimp only
          split
          · exact ok_ne_fuel _
          · next hopen =>
            obtain ⟨s₂, hs₂⟩ := List.head?_eq_some_iff.mp (not_not.mp hopen)
            rw [hs₂, List.length_cons] at hlen₁
            rw [hs₂, List.tail_cons]
            refine bind_ne_fuel (ihArgs s₂ (by omega)) fun ⟨es, s₃⟩ _ => ?_
            refine bind_ne_fuel (expect_ne_fuel _ _) fun s₄ _ => ?_
            exact bind_ne_fuel (build_ne_fuel _ _) fun _ _ => ok_ne_fuel _
      · rw [args]
        have hlen := length_skipWs_le s
        split
        · exact ok_ne_fuel _
        · exact ihLoop _ (by omega)
      · rw [argLoop]
        refine bind_ne_fuel (ihExpr s (by omega)) fun ⟨e, s₁⟩ hexpr => ?_
        obtain ⟨w, text, w', -, -, hs, -⟩ := (sound src n).1 _ _ _ hexpr
        have hlen : s₁.length ≤ s.length := by
          rw [hs]
          simp only [List.length_append]
          omega
        have hlen₁ := length_skipWs_le s₁
        dsimp only
        split
        · next hcomma =>
          obtain ⟨s₂, hs₂⟩ := List.head?_eq_some_iff.mp hcomma
          rw [hs₂, List.length_cons] at hlen₁
          rw [hs₂, List.tail_cons]
          have hlen₂ := length_skipWs_le s₂
          exact bind_ne_fuel (ihLoop _ (by omega)) fun _ _ => ok_ne_fuel _
        · split
          · exact ok_ne_fuel _
          · exact fail_ne_fuel _

theorem parse_ne_fuel (src : String) : parse env src ≠ .error .fuel := by
  have hlen := length_skipWs_le src.toList
  refine bind_ne_fuel ((ne_fuel _ _).1 _ (by omega)) fun ⟨e, s⟩ _ => ?_
  dsimp only
  split
  · exact ok_ne_fuel _
  · exact fail_ne_fuel _

/-! ### The parser accepts the language -/

theorem accepts_of_parse {src : String} {e : Expr} (h : parse env src = .ok e) :
    Accepts env src e := by
  obtain ⟨⟨e', s⟩, hexpr, h⟩ := bind_eq_ok.mp h
  obtain ⟨w₀, hw₀, hs₀⟩ := exists_skipWs src.toList
  obtain ⟨w, text, w', hw, hw', hs, he⟩ := (sound _ _).1 _ _ _ hexpr
  obtain ⟨w₁, hw₁, hs₁⟩ := exists_skipWs s
  dsimp only at h
  split at h
  · next hend =>
    cases h
    refine ⟨w₀ ++ w, text, w' ++ w₁, hw₀.append hw, hw'.append hw₁, ?_, he⟩
    rw [hend, List.append_nil] at hs₁
    rw [hs₀, hs, hs₁]
    simp
  · cases h

theorem parse_of_accepts {src : String} {e : Expr} (h : Accepts env src e) :
    parse env src = .ok e := by
  obtain ⟨w, text, w', hw, hw', hsrc, he⟩ := h
  have hfollow : Follow w' := ⟨w', [], hw', (List.append_nil _).symm, fun _ hc => by cases hc⟩
  have hskip : skipWs src.toList = text ++ w' := by
    rw [hsrc, skipWs_blank hw, skipWs_text he]
  have hlen := length_skipWs_le src.toList
  rw [hskip] at hlen
  obtain ⟨r, hexpr, hr⟩ := expr_of_derives src.toList he w' hfollow
    (n := 2 * src.toList.length + 1) (by omega)
  have hblank : skipWs w' = [] := by
    have := skipWs_blank hw' []
    rwa [List.append_nil] at this
  rw [parse, hskip, hexpr, ok_bind]
  dsimp only
  rw [hr, hblank]
  exact if_pos rfl

end

end Brust.Core.KeyExpr
