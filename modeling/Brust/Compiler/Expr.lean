import Mathlib.Data.List.Basic

/-!
# Compiler — Expressions

`ir/expr.rs`: an expression as the analyzer reads it, over the type `F` of its numbers.  JSX has no
payload here: no function below looks into it.
-/

namespace Brust.Compiler

/-- What an identifier refers to, decided from its symbol and never from its spelling. -/
inductive IdentKind where
  | prop
  | localName
  | state
  | setter
  | imported (source name : String)
  | globalName
  | loopBinding
  | store (handle : String) (key : Option String)
  | unknown
deriving DecidableEq, Repr

inductive Literal (F : Type) where
  | str (s : String)
  | num (n : F)
  | bool (b : Bool)
  | null
  | undefined
deriving DecidableEq, Repr

inductive BinOp where
  | add | sub | mul | div | rem
  | eq | ne | strictEq | strictNe
  | lt | le | gt | ge
  | and | or | nullish
deriving DecidableEq, Repr

inductive UnOp where
  | not | neg | pos | typeof
deriving DecidableEq, Repr

abbrev Captures := List (String × IdentKind)

/-- `RawKind`.  An arrow with an expression body is `arrow`, one with a block body `block`. -/
inductive RawExpr (F : Type) where
  | lit (l : Literal F)
  | ident (name : String) (kind : IdentKind)
  | member (target : RawExpr F) (name : String) (optional : Bool)
  | index (target index : RawExpr F)
  | call (callee : RawExpr F) (args : List (RawExpr F))
  | binary (op : BinOp) (left right : RawExpr F)
  | unary (op : UnOp) (value : RawExpr F)
  | cond (test yes no : RawExpr F)
  | template (head : String) (parts : List (RawExpr F × String))
  | array (items : List (RawExpr F))
  | object (props : List (String × RawExpr F))
  | arrow (params : List String) (body : RawExpr F) (captures : Captures)
  | block (params : List String) (source : String) (captures : Captures)
  | jsx
  | opaqueJs (source why : String) (captures : Captures)

namespace RawExpr

variable {F : Type}

/-- `visit_idents`: every identifier the expression reads, captures of functions included. -/
def visitIdents : RawExpr F → Captures
  | lit _ => []
  | ident name kind => [(name, kind)]
  | member target _ _ => target.visitIdents
  | index target i => target.visitIdents ++ i.visitIdents
  | call callee args => callee.visitIdents ++ visitAll args
  | binary _ left right => left.visitIdents ++ right.visitIdents
  | unary _ value => value.visitIdents
  | cond test yes no => test.visitIdents ++ yes.visitIdents ++ no.visitIdents
  | template _ parts => visitParts parts
  | array items => visitAll items
  | object props => visitProps props
  | arrow _ _ captures => captures
  | block _ _ captures => captures
  | jsx => []
  | opaqueJs _ _ captures => captures
where
  visitAll : List (RawExpr F) → Captures
    | [] => []
    | e :: es => e.visitIdents ++ visitAll es
  visitParts : List (RawExpr F × String) → Captures
    | [] => []
    | (e, _) :: es => e.visitIdents ++ visitParts es
  visitProps : List (String × RawExpr F) → Captures
    | [] => []
    | (_, e) :: es => e.visitIdents ++ visitProps es

/-- What an expression reads itself, in no function or element of it. -/
def directIdents : RawExpr F → Captures
  | ident name kind => [(name, kind)]
  | member target _ _ => target.directIdents
  | index target i => target.directIdents ++ i.directIdents
  | call callee args => callee.directIdents ++ directAll args
  | binary _ left right => left.directIdents ++ right.directIdents
  | unary _ value => value.directIdents
  | cond test yes no => test.directIdents ++ yes.directIdents ++ no.directIdents
  | template _ parts => directParts parts
  | array items => directAll items
  | object props => directProps props
  | lit _ | arrow _ _ _ | block _ _ _ | jsx | opaqueJs _ _ _ => []
where
  directAll : List (RawExpr F) → Captures
    | [] => []
    | e :: es => e.directIdents ++ directAll es
  directParts : List (RawExpr F × String) → Captures
    | [] => []
    | (e, _) :: es => e.directIdents ++ directParts es
  directProps : List (String × RawExpr F) → Captures
    | [] => []
    | (_, e) :: es => e.directIdents ++ directProps es

mutual

theorem directIdents_sublist : ∀ e : RawExpr F, e.directIdents.Sublist e.visitIdents
  | lit _ | ident _ _ => .refl _
  | member target _ _ => directIdents_sublist target
  | index target i => (directIdents_sublist target).append (directIdents_sublist i)
  | call callee args => (directIdents_sublist callee).append (directAll_sublist args)
  | binary _ left right => (directIdents_sublist left).append (directIdents_sublist right)
  | unary _ value => directIdents_sublist value
  | cond test yes no => ((directIdents_sublist test).append (directIdents_sublist yes)).append
      (directIdents_sublist no)
  | template _ parts => directParts_sublist parts
  | array items => directAll_sublist items
  | object props => directProps_sublist props
  | arrow _ _ _ | block _ _ _ | jsx | opaqueJs _ _ _ => List.nil_sublist _

theorem directAll_sublist : ∀ es : List (RawExpr F),
    (directIdents.directAll es).Sublist (visitIdents.visitAll es)
  | [] => .refl _
  | e :: es => (directIdents_sublist e).append (directAll_sublist es)

theorem directParts_sublist : ∀ ps : List (RawExpr F × String),
    (directIdents.directParts ps).Sublist (visitIdents.visitParts ps)
  | [] => .refl _
  | (e, _) :: ps => (directIdents_sublist e).append (directParts_sublist ps)

theorem directProps_sublist : ∀ ps : List (String × RawExpr F),
    (directIdents.directProps ps).Sublist (visitIdents.visitProps ps)
  | [] => .refl _
  | (_, e) :: ps => (directIdents_sublist e).append (directProps_sublist ps)

end

end RawExpr

end Brust.Compiler
