import Brust.Compiler.Expr

/-!
# Compiler — What an expression evaluates to

The JavaScript meaning of an expression, in a monad `m` of effects (`Language.run`): the order of
evaluation, the arms a condition takes, the short circuit of an optional chain and the `this` of a
method call.  What the operators, members and calls do to values is left to the `Language`.
-/

namespace Brust.Compiler

/-- What deciding a condition asks of a number. -/
class Floating (F : Type) where
  isZero : F → Bool
  isNaN : F → Bool

/-- `ToBoolean` of a literal. -/
def Literal.toBoolean {F : Type} [Floating F] : Literal F → Bool
  | .str s => s != ""
  | .num n => !(Floating.isZero n || Floating.isNaN n)
  | .bool b => b
  | .null => false
  | .undefined => false

/-- `null` or `undefined`. -/
def Literal.nullish {F : Type} : Literal F → Bool
  | .null => true
  | .undefined => true
  | _ => false

/-- What an identifier reads. -/
abbrev Env (m : Type → Type) (V : Type) := String → IdentKind → m V

/-- Values and what the language does with them. -/
structure Language (F : Type) [Floating F] (m : Type → Type) (V : Type) where
  literal : Literal F → V
  toBoolean : V → Bool
  nullish : V → Bool
  member : V → String → m V
  index : V → V → m V
  call : V → V → List V → m V
  binary : BinOp → V → V → m V
  unary : UnOp → V → m V
  /-- `typeof` of a name, which need not be declared. -/
  typeofName : Env m V → String → IdentKind → m V
  text : V → m String
  array : List V → m V
  object : List (String × V) → m V
  /-- Functions, elements and opaque code. -/
  code : Env m V → RawExpr F → m V
  toBoolean_literal (l : Literal F) : toBoolean (literal l) = l.toBoolean
  nullish_literal (l : Literal F) : nullish (literal l) = l.nullish

/-- A value, and what a call of it has as `this`. -/
structure Reference (V : Type) where
  this : V
  value : V

namespace Language

variable {F V : Type} [Floating F] {m : Type → Type} [Monad m] (L : Language F m V)

def undefined : V := L.literal .undefined

/-- A value that is no member of another. -/
def plain (v : V) : Option (Reference V) := some ⟨L.undefined, v⟩

/-- An optional chain that was cut short is `undefined`. -/
def value (o : Option (Reference V)) : V := o.elim L.undefined Reference.value

/-- The member that `?.` or `.` reads: `?.` of `null` and `undefined` cuts the chain short. -/
def select (optional : Bool) (name : String) (t : V) : m (Option (Reference V)) :=
  if optional && L.nullish t then pure none
  else (fun v => some ⟨t, v⟩) <$> L.member t name

/-- Whether an operator that may skip its right operand stops at a left one of this value. -/
def stops : BinOp → V → Option Bool
  | .and, v => some !L.toBoolean v
  | .or, v => some (L.toBoolean v)
  | .nullish, v => some !L.nullish v
  | _, _ => none

/-- An operator on an operand that `c` evaluates; `typeof` does not throw on a name that is not
declared. -/
def applyUnary (env : Env m V) : UnOp → RawExpr F → m V → m V
  | .not, _, c => (fun v => L.literal (.bool !L.toBoolean v)) <$> c
  | .typeof, .ident name kind, _ => L.typeofName env name kind
  | op, _, c => c >>= L.unary op

mutual
/-- An expression evaluated; `none` in an optional chain that was cut short. -/
def run (env : Env m V) : RawExpr F → m (Option (Reference V))
  | .lit l => pure (L.plain (L.literal l))
  | .ident name kind => L.plain <$> env name kind
  | .member target name optional => do
      let o ← run env target
      o.elim (pure none) fun r => L.select optional name r.value
  | .index target i => do
      let o ← run env target
      o.elim (pure none) fun r => do
        let k ← L.value <$> run env i
        let v ← L.index r.value k
        pure (some ⟨r.value, v⟩)
  | .call callee args => do
      let o ← run env callee
      o.elim (pure none) fun r => do
        let vs ← runAll env args
        L.plain <$> L.call r.this r.value vs
  | .binary op left right => do
      let l ← L.value <$> run env left
      (L.stops op l).elim
        (do
          let r ← L.value <$> run env right
          L.plain <$> L.binary op l r)
        fun stop => if stop then pure (L.plain l)
          else (fun o => L.plain (L.value o)) <$> run env right
  | .unary op e => L.plain <$> L.applyUnary env op e (L.value <$> run env e)
  | .cond test yes no => do
      let t ← L.value <$> run env test
      if L.toBoolean t then (fun o => L.plain (L.value o)) <$> run env yes
      else (fun o => L.plain (L.value o)) <$> run env no
  | .template head parts =>
      (fun s => L.plain (L.literal (.str (head ++ s)))) <$> runParts env parts
  | .array items => do
      let vs ← runAll env items
      L.plain <$> L.array vs
  | .object props => do
      let ps ← runProps env props
      L.plain <$> L.object ps
  | e => L.plain <$> L.code env e

def runAll (env : Env m V) : List (RawExpr F) → m (List V)
  | [] => pure []
  | e :: es => do
      let v ← L.value <$> run env e
      (v :: ·) <$> runAll env es

/-- Each part of a template is text before the next is evaluated. -/
def runParts (env : Env m V) : List (RawExpr F × String) → m String
  | [] => pure ""
  | (e, tail) :: es => do
      let v ← L.value <$> run env e
      let s ← L.text v
      (s ++ tail ++ ·) <$> runParts env es

def runProps (env : Env m V) : List (String × RawExpr F) → m (List (String × V))
  | [] => pure []
  | (k, e) :: es => do
      let v ← L.value <$> run env e
      ((k, v) :: ·) <$> runProps env es
end

/-- The value of an expression. -/
def eval (env : Env m V) (e : RawExpr F) : m V := L.value <$> L.run env e

end Language

end Brust.Compiler
