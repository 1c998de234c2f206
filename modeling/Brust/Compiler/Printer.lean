import Brust.Compiler.Expr
import Brust.Support.JsLiteral

/-!
# Compiler — Printing expressions

`to_js_with` of `ir/expr.rs`: an expression as the JavaScript of a job or of a chunk, with the
parentheses that its operators need.
-/

namespace Brust.Compiler.Printer

/-- Where printed code runs: the precompute job or the client chunk. -/
inductive JsCtx where
  | server
  | client
deriving DecidableEq

/-- What printing asks of a number. -/
class Printed (F : Type) where
  isNaN : F → Bool
  isInfinite : F → Bool
  /-- Less than zero. -/
  negative : F → Bool
  /-- The digits of a finite number, without its sign. -/
  digits : F → List Char

/-- An identifier printed otherwise. -/
abbrev JsNames := String → IdentKind → Option (List Char)

def P_SEQ : ℕ := 1
def P_ASSIGN : ℕ := 2
def P_COND : ℕ := 3
def P_UNARY : ℕ := 15
def P_CALL : ℕ := 18
def P_PRIMARY : ℕ := 20

/-- `bin_prec`: the level of an operator; higher ones bind tighter. -/
def binPrec : BinOp → ℕ
  | .nullish | .or => 4
  | .and => 5
  | .eq | .ne | .strictEq | .strictNe => 9
  | .lt | .le | .gt | .ge => 10
  | .add | .sub => 12
  | .mul | .div | .rem => 13

/-- `bin_str` -/
def binStr : BinOp → List Char
  | .add => ['+']
  | .sub => ['-']
  | .mul => ['*']
  | .div => ['/']
  | .rem => ['%']
  | .eq => ['=', '=']
  | .ne => ['!', '=']
  | .strictEq => ['=', '=', '=']
  | .strictNe => ['!', '=', '=']
  | .lt => ['<']
  | .le => ['<', '=']
  | .gt => ['>']
  | .ge => ['>', '=']
  | .and => ['&', '&']
  | .or => ['|', '|']
  | .nullish => ['?', '?']

/-- A prefix operator. -/
def unStr : UnOp → List Char
  | .not => ['!']
  | .neg => ['-']
  | .pos => ['+']
  | .typeof => ['t', 'y', 'p', 'e', 'o', 'f', ' ']

variable {F : Type} [Printed F]

/-- A number literal below zero. -/
def negativeLit : RawExpr F → Bool
  | .lit (.num n) => Printed.negative n
  | _ => false

/-- The level of a printed expression; a number below zero prints as a unary one. -/
def prec (e : RawExpr F) : ℕ :=
  match e with
  | .lit _ => if negativeLit e then P_UNARY else P_PRIMARY
  | .ident _ _ | .template _ _ | .array _ | .object _ | .jsx => P_PRIMARY
  | .member _ _ _ | .index _ _ | .call _ _ => P_CALL
  | .unary _ _ => P_UNARY
  | .binary op _ _ => binPrec op
  | .cond _ _ _ => P_COND
  | .arrow _ _ _ | .block _ _ _ => P_ASSIGN
  | .opaqueJs _ _ _ => P_SEQ

def parens (js : List Char) : List Char := '(' :: (js ++ [')'])

/-- `e`, which prints as `js`, where an operand of a level is required. -/
def wrapped (e : RawExpr F) (required : ℕ) (js : List Char) : List Char :=
  if prec e < required then parens js else js

def INFINITY : List Char := ['I', 'n', 'f', 'i', 'n', 'i', 't', 'y']

/-- A number as JavaScript reads it back. -/
def jsNumber (n : F) : List Char :=
  if Printed.isNaN n then ['N', 'a', 'N']
  else if Printed.isInfinite n then
    if Printed.negative n then '-' :: INFINITY else INFINITY
  else if Printed.negative n then '-' :: Printed.digits n
  else Printed.digits n

/-- Whether a name can stand after a dot and as a key without quotes. -/
def isJsIdent (s : List Char) : Bool :=
  s.head?.any (fun c => c.isAlpha || c == '_' || c == '$') &&
    s.tail.all fun c => c.isAlphanum || c == '_' || c == '$'

/-- The text between the holes of a template, escaped. -/
def templateChunk : List Char → List Char
  | [] => []
  | c :: s =>
    if c = '\\' then '\\' :: '\\' :: templateChunk s
    else if c = '\x60' then '\\' :: '\x60' :: templateChunk s
    else if c = '$' ∧ s.head? = some '\x7b' then '\\' :: '$' :: templateChunk s
    else c :: templateChunk s

/-- A literal as code. -/
def literalJs : Literal F → List Char
  | .str s => jsonString s.toList
  | .num n => jsNumber n
  | .bool b => if b then ['t', 'r', 'u', 'e'] else ['f', 'a', 'l', 's', 'e']
  | .null => ['n', 'u', 'l', 'l']
  | .undefined => ['u', 'n', 'd', 'e', 'f', 'i', 'n', 'e', 'd']

/-- `.name` or `["name"]`. -/
def access (name : List Char) : List Char :=
  if isJsIdent name then '.' :: name else '[' :: (jsonString name ++ [']'])

def PROPS : List Char := ['p', 'r', 'o', 'p', 's']

def SNAPSHOT : List Char :=
  ['s', 'n', 'a', 'p', 's', 'h', 'o', 't']

/-- An identifier as code: a job reads props and states as variables, a chunk calls them. -/
def identJs (ctx : JsCtx) (names : JsNames) (name : String) (kind : IdentKind) : List Char :=
  match names name kind with
  | some js => js
  | none =>
    match kind, ctx with
    | .prop, .server => if name = "*" then PROPS else name.toList
    | .prop, .client =>
      if name = "*" then PROPS ++ ['(', ')'] else PROPS ++ ['(', ')'] ++ access name.toList
    | .state, .client => name.toList ++ ['(', ')']
    | .store handle key, .client =>
      handle.toList ++ (match key with
        | some k => access k.toList
        | none => '.' :: SNAPSHOT) ++ ['(', ')']
    | _, _ => name.toList

/-- `??` cannot mix with `&&` and `||` without parentheses. -/
def mixes (op : BinOp) : RawExpr F → Bool
  | .binary inner _ _ =>
    op ∈ [.and, .or, .nullish] && inner ∈ [.and, .or, .nullish] &&
      ((op == .nullish) != (inner == .nullish))
  | _ => false

/-- An operand of an operator. -/
def binSide (op : BinOp) (side : RawExpr F) (required : ℕ) (js : List Char) : List Char :=
  if mixes op side then parens js else wrapped side required js

def isNum : RawExpr F → Bool
  | .lit (.num _) => true
  | _ => false

def isUnary : RawExpr F → Bool
  | .unary _ _ => true
  | _ => false

def isObject : RawExpr F → Bool
  | .object _ => true
  | _ => false

/-- JSX, which is never printed into a job or a chunk. -/
def JSX : List Char := "undefined /* jsx */".toList

variable (ctx : JsCtx) (names : JsNames)

mutual

def print : RawExpr F → List Char
  | .lit l => literalJs l
  | .ident name kind => identJs ctx names name kind
  | .member target name optional =>
    (if isNum target then parens (print target) else wrapped target P_CALL (print target)) ++
      (if optional then ['?', '.'] else ['.']) ++ name.toList
  | .index target i => wrapped target P_CALL (print target) ++ '[' :: (print i ++ [']'])
  | .call callee args =>
    wrapped callee P_CALL (print callee) ++ '(' :: ([',', ' '].intercalate (list args) ++ [')'])
  | .binary op left right =>
    binSide op left (binPrec op) (print left) ++
      ' ' :: (binStr op ++ ' ' :: binSide op right (binPrec op + 1) (print right))
  | .unary op value =>
    unStr op ++ (if isUnary value || negativeLit value then parens (print value)
      else wrapped value P_UNARY (print value))
  | .cond test yes no =>
    wrapped test (P_COND + 1) (print test) ++ ' ' :: '?' :: ' ' ::
      (wrapped yes P_ASSIGN (print yes) ++ ' ' :: ':' :: ' ' :: wrapped no P_ASSIGN (print no))
  | .template head parts => '\x60' :: (templateChunk head.toList ++ (holes parts ++ ['\x60']))
  | .array items => '[' :: ([',', ' '].intercalate (list items) ++ [']'])
  | .object props =>
    if props.isEmpty then ['\x7b', '\x7d']
    else '\x7b' :: ' ' :: ([',', ' '].intercalate (entries props) ++ [' ', '\x7d'])
  | .arrow params body _ =>
    '(' :: ([',', ' '].intercalate (params.map String.toList) ++ ')' :: ' ' :: '=' :: '>' :: ' ' ::
      if isObject body then parens (print body) else wrapped body P_ASSIGN (print body))
  | .block _ source _ => source.toList
  | .jsx => JSX
  | .opaqueJs source _ _ => source.toList

def list : List (RawExpr F) → List (List Char)
  | [] => []
  | e :: es => wrapped e P_ASSIGN (print e) :: list es

def holes : List (RawExpr F × String) → List Char
  | [] => []
  | (e, tail) :: es =>
      '$' :: '\x7b' :: (print e ++ '\x7d' :: (templateChunk tail.toList ++ holes es))

def entries : List (String × RawExpr F) → List (List Char)
  | [] => []
  | (k, e) :: es =>
    ((if isJsIdent k.toList then k.toList else jsonString k.toList) ++
      ':' :: ' ' :: wrapped e P_ASSIGN (print e)) :: entries es

end

end Brust.Compiler.Printer
