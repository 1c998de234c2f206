import Brust.Jinja.Operators

/-!
# Jinja — the operators of JavaScript

The operators as ECMAScript defines them, over the values that the values of a template stand for
(`stands`).  Where an object cannot be made a primitive value an operator throws, which is `none`.
-/

namespace Brust.Jinja

open Paint (literal boolText)

/-! ### The values of JavaScript -/

/-- A value of JavaScript.  Of an object of plain data the operators read whether there is a
`toString` among its own names, which is then no function. -/
inductive Js where
  | undefined
  | null
  | bool (b : Bool)
  | num (d : Double)
  | str (s : List Char)
  | arr (items : List Js)
  | obj (names : List String)

instance : DecidablePred Double.Nonneg
  | .nan | .inf _ => isTrue trivial
  | .fin _ p => inferInstanceAs (Decidable (0 ≤ p))

mutual

/-- What a value of a template stands for, if it stands for one of JavaScript. -/
def stands : Value Num → Option Js
  | .undefined => some .undefined
  | .null => some .null
  | .bool b => some (.bool b)
  | .num n => if n.double.Nonneg then some (.num n.double) else none
  | .str s => some (.str s)
  | .seq items => (standItems items).map .arr
  | .map kind entries => some (.obj (((Value.map kind entries).mapEntries).map (·.1)))
  | .other _ => none

def standItems : List (Value Num) → Option (List Js)
  | [] => some []
  | v :: vs => do some ((← stands v) :: (← standItems vs))

end

/-! ### ECMAScript -/

namespace Js

def isNullish : Js → Bool
  | .undefined | .null => true
  | _ => false

def isContainer : Js → Bool
  | .arr _ | .obj _ => true
  | _ => false

section
variable [Conversions]

mutual

/-- `ToString`, where an object without one to call throws a `TypeError`. -/
def toStr : Js → Option (List Char)
  | .undefined => some (literal "undefined")
  | .null => some (literal "null")
  | .bool b => some (boolText b)
  | .num d => some (numberText d)
  | .str s => some s
  | .arr items => (joinTexts items).map (List.intercalate [','])
  | .obj names => if "toString" ∈ names then none else some (literal "[object Object]")

/-- The texts that `Array.prototype.join` joins: none of `undefined` and of `null`. -/
def joinTexts : List Js → Option (List (List Char))
  | [] => some []
  | x :: xs => do some ((← if x.isNullish then some [] else toStr x) :: (← joinTexts xs))

end

/-- `ToPrimitive`: of an array and an object of plain data, whatever the hint, its string. -/
def toPrimitive : Js → Option Js
  | .arr items => (toStr (.arr items)).map .str
  | .obj names => (toStr (.obj names)).map .str
  | x => some x

/-- `ToNumber` -/
def toNumber : Js → Option Double
  | .undefined => some .nan
  | .null => some (.fin false 0)
  | .bool b => some (ofBool b)
  | .num d => some d
  | .str s => some (Conversions.toNumber s)
  | .arr items => (toStr (.arr items)).map Conversions.toNumber
  | .obj names => (toStr (.obj names)).map Conversions.toNumber

def isStr : Js → Bool
  | .str _ => true
  | _ => false

/-- An operator of numbers on both operands. -/
def arith (f : Double → Double → Double) (x y : Js) : Option Js := do
  some (.num (f (← toNumber x) (← toNumber y)))

def unary (f : Double → Double) (x : Js) : Option Js := do some (.num (f (← toNumber x)))

/-- `x + y` -/
def add (x y : Js) : Option Js := do
  let p ← toPrimitive x
  let q ← toPrimitive y
  if isStr p || isStr q then some (.str ((← toStr p) ++ (← toStr q)))
  else arith .add p q

/-- Two numbers in their order; a comparison with `NaN` is undefined. -/
def lessNumber (x y : Double) : Option Bool := do some (less (← x.key) (← y.key))

/-- `IsLessThan` of two primitive values. -/
def isLessPrimitive : Js → Js → Option (Option Bool)
  | .str s, .str t => some (some (less (units s) (units t)))
  | p, q => do some (lessNumber (← toNumber p) (← toNumber q))

/-- `IsLessThan`: a `TypeError`, or the answer, which may be undefined. -/
def isLess (x y : Js) : Option (Option Bool) := do
  isLessPrimitive (← toPrimitive x) (← toPrimitive y)

inductive Rel where
  | lt
  | le
  | gt
  | ge

def Rel.text : Rel → String
  | .lt => "<"
  | .le => "<="
  | .gt => ">"
  | .ge => ">="

/-- `x < y`, `x <= y`, `x > y`, `x >= y`. -/
def relation (x y : Js) : Rel → Option Bool
  | .lt => (isLess x y).map fun r => r == some true
  | .gt => (isLess y x).map fun r => r == some true
  | .le => (isLess y x).map fun r => r == some false
  | .ge => (isLess x y).map fun r => r == some false

/-- `x === y`, of two arrays or objects that are distinct. -/
def strictEq : Js → Js → Bool
  | .undefined, .undefined => true
  | .null, .null => true
  | .bool a, .bool b => a == b
  | .num m, .num n => sameNumber m n
  | .str s, .str t => s == t
  | _, _ => false

/-- `m == y` -/
def numberEq (m : Double) : Js → Option Bool
  | .undefined | .null => some false
  | y => (toNumber y).map (sameNumber m)

/-- `x == y`, of two arrays or objects that are distinct: a boolean is compared as its number, and
an object as its primitive value. -/
def looseEq : Js → Js → Option Bool
  | .undefined, .undefined | .undefined, .null | .null, .undefined | .null, .null => some true
  | .undefined, _ | .null, _ | _, .undefined | _, .null => some false
  | .bool a, .bool b => some (a == b)
  | .str s, .str t => some (s == t)
  | .num m, y => numberEq m y
  | x, .num n => numberEq n x
  | .bool a, y => numberEq (ofBool a) y
  | x, .bool b => numberEq (ofBool b) x
  | .str s, y => (toStr y).map (s == ·)
  | x, .str t => (toStr x).map (· == t)
  | .arr _, _ | .obj _, _ => some false

/-- `ToBoolean` -/
def toBoolean : Js → Bool
  | .undefined | .null => false
  | .bool b => b
  | .num d => !d.isZero && !d.isNaN
  | .str s => !s.isEmpty
  | .arr _ | .obj _ => true

end

mutual

/-- No object that is made a string has a `toString` of its own. -/
def converts : Js → Bool
  | .arr items => convertItems items
  | .obj names => !names.contains "toString"
  | _ => true

def convertItems : List Js → Bool
  | [] => true
  | x :: xs => converts x && convertItems xs

end

end Js

end Brust.Jinja
