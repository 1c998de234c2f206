import Mathlib.Data.List.Basic
import Mathlib.Data.Nat.Notation

/-!
# Core — cache-key expressions

The expressions a route's `cache.prefix` and `cache.bypass` are written in, and what they make of a
request: a text, where the empty one stands for absent and for false.
-/

namespace Brust.Core

/-- The request as the evaluator reads it. -/
structure EvalCtx where
  headers : List (String × String)
  cookies : List (String × String)
  query : List (String × String)
  params : List (String × String)
  method : String
  host : String
  scheme : String
  path : String

inductive Expr where
  | header (name : String)
  | cookie (name : String)
  | query (name : String)
  | param (name : String)
  | request (field : String)
  | env (value : String)
  | lit (value : String)
  | or (args : List Expr)
  | and (args : List Expr)
  | concat (args : List Expr)
  | eq (a b : Expr) (value : Option Expr)
  | lower (a : Expr)
  | upper (a : Expr)

def eqIgnoreAsciiCase (a b : String) : Bool :=
  a.toList.map Char.toLower == b.toList.map Char.toLower

/-- The value of the first pair of that name, in any case. -/
def lookup (pairs : List (String × String)) (name : String) : String :=
  (pairs.find? fun p => eqIgnoreAsciiCase p.1 name).elim "" (·.2)

namespace Expr

mutual

def eval (ctx : EvalCtx) : Expr → String
  | .header n => lookup ctx.headers n
  | .cookie n => lookup ctx.cookies n
  | .query n => lookup ctx.query n
  | .param n => lookup ctx.params n
  | .request f =>
    if f = "host" then ctx.host
    else if f = "method" then ctx.method
    else if f = "scheme" then ctx.scheme
    else if f = "path" then ctx.path
    else ""
  | .env v => v
  | .lit v => v
  | .or args => ((evalAll ctx args).find? (· ≠ "")).getD ""
  | .and args =>
    let vals := evalAll ctx args
    if vals.all (· ≠ "") then String.intercalate "\x1f" vals else ""
  | .concat args => String.join (evalAll ctx args)
  | .eq a b v =>
    let av := eval ctx a
    if av = eval ctx b then (evalOpt ctx v).getD av else ""
  | .lower a => String.ofList ((eval ctx a).toList.map Char.toLower)
  | .upper a => String.ofList ((eval ctx a).toList.map Char.toUpper)

def evalAll (ctx : EvalCtx) : List Expr → List String
  | [] => []
  | e :: es => eval ctx e :: evalAll ctx es

def evalOpt (ctx : EvalCtx) : Option Expr → Option String
  | none => none
  | some e => some (eval ctx e)

end

mutual

/-- The fields of the request that an expression reads. -/
def fields : Expr → List Expr
  | .header n => [.header n]
  | .cookie n => [.cookie n]
  | .query n => [.query n]
  | .param n => [.param n]
  | .request f => [.request f]
  | .env _ => []
  | .lit _ => []
  | .or args => fieldsAll args
  | .and args => fieldsAll args
  | .concat args => fieldsAll args
  | .eq a b v => fields a ++ fields b ++ fieldsOpt v
  | .lower a => fields a
  | .upper a => fields a

def fieldsAll : List Expr → List Expr
  | [] => []
  | e :: es => fields e ++ fieldsAll es

def fieldsOpt : Option Expr → List Expr
  | none => []
  | some e => fields e

end

end Expr

end Brust.Core
