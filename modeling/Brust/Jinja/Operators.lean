import Brust.Jinja.NumberText
import Brust.Jinja.Value
import Mathlib.Data.List.Lex

/-!
# Jinja — the operator filters

What a lowered expression calls for the operators of JavaScript: `+` and the arithmetic ones, the
four comparisons, both equalities, and the conversions to a string and to a number.  A whole number
that arithmetic gives is made an integer.
-/

namespace Brust.Jinja

open Paint (Numbers literal boolText)

/-- A number of a template. -/
inductive Num where
  | int (i : ℤ)
  | float (d : Double)

/-- `number_of` -/
def Num.double : Num → Double
  | .int i => .ofInt i
  | .float d => d

section
variable [Conversions]

instance : Numbers Num where
  text n := jsNumber n.double
  isZero n := n.double.isZero
  isNaN n := n.double.isNaN
  text_ne_nil n := jsNumber_ne_nil n.double
  text_plain n := jsNumber_plain n.double

/-! ### The filters -/

def isNullish : Value Num → Bool
  | .undefined | .null => true
  | _ => false

def isContainer : Value Num → Bool
  | .seq _ | .map .. => true
  | _ => false

mutual

/-- `String(v)` of a value. -/
def jsString : Value Num → List Char
  | .undefined => literal "undefined"
  | .null => literal "null"
  | .bool b => boolText b
  | .num n => jsNumber n.double
  | .str s => s
  | .seq items => List.intercalate [','] (itemStrings items)
  | .map .. => literal "[object Object]"
  | .other text => text

def itemStrings : List (Value Num) → List (List Char)
  | [] => []
  | v :: vs => (if isNullish v then [] else jsString v) :: itemStrings vs

end

def ofBool (b : Bool) : Double := .fin false (if b then 1 else 0)

/-- `Number(v)` of a value. -/
def jsToNumber : Value Num → Double
  | .bool b => ofBool b
  | .null => .fin false 0
  | .undefined => .nan
  | .num n => n.double
  | .str s => Conversions.toNumber s
  | .seq items => Conversions.toNumber (jsString (.seq items))
  | .map kind entries => Conversions.toNumber (jsString (.map kind entries))
  | .other _ => .nan

/-- A whole result is an integer. -/
def numberValue (r : Double) : Value Num :=
  match r.whole with
  | some i => .num (.int i)
  | none => .num (.float r)

def jsArith (f : Double → Double → Double) (a b : Value Num) : Value Num :=
  numberValue (f (jsToNumber a) (jsToNumber b))

/-- `+` joins strings where an operand is one. -/
def stringy : Value Num → Bool
  | .undefined | .null | .bool _ | .num _ => false
  | _ => true

def jsAdd (a b : Value Num) : Value Num :=
  if stringy a || stringy b then .str (jsString a ++ jsString b) else jsArith .add a b

def jsSub : Value Num → Value Num → Value Num := jsArith .sub

def jsMul : Value Num → Value Num → Value Num := jsArith .mul

def jsDiv : Value Num → Value Num → Value Num := jsArith .div

def jsMod : Value Num → Value Num → Value Num := jsArith .rem

def jsNeg (a : Value Num) : Value Num := jsArith (fun x _ => x.neg) a (.num (.int 0))

def jsNum (a : Value Num) : Value Num := jsArith (fun x _ => x) a (.num (.int 0))

/-- A container is compared as its text. -/
def jsPrimitive : Value Num → Value Num
  | .seq items => .str (jsString (.seq items))
  | .map kind entries => .str (jsString (.map kind entries))
  | v => v

/-- The UTF-16 units of a text. -/
def units (s : List Char) : List ℕ :=
  s.flatMap fun c =>
    if c.toNat < 0x10000 then [c.toNat]
    else [0xD800 + (c.toNat - 0x10000) / 0x400, 0xDC00 + (c.toNat - 0x10000) % 0x400]

/-- How `js_cmp` orders two primitive values. -/
def ordering : Value Num → Value Num → Option Ordering
  | .str s, .str t => some (order (units s) (units t))
  | a, b => Double.cmp (jsToNumber a) (jsToNumber b)

/-- `<`, `<=`, `>` and `>=`. -/
def jsCmp (a b : Value Num) (op : String) : Bool :=
  match ordering (jsPrimitive a) (jsPrimitive b) with
  | none => false
  | some ord =>
    if op = "<" then ord == .lt
    else if op = "<=" then ord != .gt
    else if op = ">" then ord == .gt
    else ord != .lt

/-- `==` of two doubles. -/
def sameNumber (x y : Double) : Bool := x.cmp y == some .eq

/-- `===`; two containers are never one. -/
def jsStrictEq : Value Num → Value Num → Bool
  | .undefined, .undefined => true
  | .null, .null => true
  | .bool a, .bool b => a == b
  | .num m, .num n => sameNumber m.double n.double
  | .str s, .str t => s == t
  | _, _ => false

/-- `js_loose_eq` of two primitive values. -/
def looseEq : Value Num → Value Num → Bool
  | .str s, .str t => s == t
  | .bool a, .bool b => a == b
  | a, b => sameNumber (jsToNumber a) (jsToNumber b)

/-- `==`, with its conversions. -/
def jsLooseEq (a b : Value Num) : Bool :=
  if isNullish a || isNullish b then isNullish a && isNullish b
  else if isContainer a && isContainer b then false
  else looseEq (jsPrimitive a) (jsPrimitive b)

end

end Brust.Jinja
