import Brust.Compiler.Printer
import Brust.Jinja.Js
import Brust.Support.Fallible

/-!
# Compiler — Folding constants

`FoldEnv` of `ir/fold.rs`: the interpreter that evaluates an expression at build time, over the
parameters of the callbacks it is in and the `const`s of the module.  A session remembers the
constants that it folded, the failed ones too, and counts its steps; the depth of an expression is
the fuel of `fold`.
-/

namespace Brust.Compiler.Folding

open Jinja (Conversions MICRO display units signText)

/-! ### Values -/

/-- A folded value. -/
inductive V where
  | undefined
  | null
  | bool (b : Bool)
  | num (n : Double)
  | str (s : String)
  | arr (items : List V)
  | obj (props : List (String × V))

namespace V

/-- `ToBoolean` of a folded value. -/
def truthy : V → Bool
  | undefined | null => false
  | bool b => b
  | num n => !n.isZero && !n.isNaN
  | str s => s != ""
  | arr _ | obj _ => true

/-- `typeof` of a folded value. -/
def kind : V → String
  | undefined => "undefined"
  | null => "null"
  | bool _ => "a boolean"
  | num _ => "a number"
  | str _ => "a string"
  | arr _ => "an array"
  | obj _ => "an object"

/-- The left side of `??` and `?.` gives way. -/
def nullish : V → Bool
  | undefined | null => true
  | _ => false

end V

section
variable [Conversions]

/-- `js_num_str` -/
def jsNumStr (n : Double) : Option (List Char) :=
  match n.f64 with
  | .nan | .inf _ => none
  | .fin a p =>
    if p = 0 then some ['0']
    else if p < MICRO ∨ 10 ^ 21 ≤ p then none
    else if p.den = 1 ∧ p < 10 ^ 15 then some (signText a ++ Nat.toDigits 10 p.num.toNat)
    else some (signText a ++ display (Conversions.shortest p))

/-- `to_js_string`: none of an array or an object, nor of a number that JavaScript prints
otherwise. -/
def V.toJsString : V → Option (List Char)
  | .undefined => some "undefined".toList
  | .null => some "null".toList
  | .bool b => some (Paint.boolText b)
  | .num n => jsNumStr n
  | .str s => some s.toList
  | .arr _ | .obj _ => none

end

/-! ### Operators -/

/-- Own members of `Object.prototype`. -/
def PROTO_NAMES : List String :=
  ["constructor", "__proto__", "toString", "valueOf", "hasOwnProperty", "isPrototypeOf",
    "propertyIsEnumerable", "toLocaleString", "__defineGetter__", "__defineSetter__",
    "__lookupGetter__", "__lookupSetter__"]

/-- A property that the folder knows: `length`, or an own key. -/
def member (t : V) (name : String) (optional : Bool) : Except String V :=
  if t.nullish then
    if optional then .ok .undefined else .error ("`." ++ name ++ "` of " ++ t.kind)
  else
    match t with
    | .arr items =>
      if name = "length" then .ok (.num (Double.ofInt items.length))
      else .error ("`." ++ name ++ "` of " ++ t.kind)
    | .str s =>
      if name = "length" then .ok (.num (Double.ofInt (units s.toList).length))
      else .error ("`." ++ name ++ "` of " ++ t.kind)
    | .obj props =>
      match props.lookup name with
      | some v => .ok v
      | none =>
        if name ∈ PROTO_NAMES then .error ("`." ++ name ++ "` of an object") else .ok .undefined
    | _ => .error ("`." ++ name ++ "` of " ++ t.kind)

/-- A number as an index, where it is a whole one from zero. -/
def toIndex : Double → Option ℕ
  | .fin a p =>
    let q := Double.signed a p
    if 0 ≤ q ∧ q.den = 1 then some q.num.toNat else none
  | .nan | .inf _ => none

/-- An item by its number, or a property by its name. -/
def index (t i : V) : Except String V :=
  match t, i with
  | .arr items, .num n =>
    match toIndex n with
    | some k => .ok (items[k]?.getD .undefined)
    | none => .ok .undefined
  | .obj props, .str k => member (.obj props) k false
  | _, _ => .error ("an index of " ++ t.kind ++ " by " ++ i.kind)

def unary (op : UnOp) (v : V) : Except String V :=
  match op, v with
  | .not, _ => .ok (.bool !v.truthy)
  | .neg, .num n => .ok (.num n.neg)
  | .pos, .num n => .ok (.num n)
  | .neg, _ | .pos, _ => .error ("unary `-`/`+` of " ++ v.kind)
  | .typeof, _ => .error "`typeof`"

/-- What a comparison makes of an order. -/
def compares (op : BinOp) (o : Option Ordering) : Bool :=
  match op with
  | .lt => o == some .lt
  | .le => o == some .lt || o == some .eq
  | .gt => o == some .gt
  | _ => o == some .gt || o == some .eq

/-- Are two values equal for `==`, or for `===`? -/
def equals (strict : Bool) (a b : V) : Except String Bool :=
  match a, b with
  | .num x, .num y => .ok (x.cmp y == some .eq)
  | .str x, .str y => .ok (x == y)
  | .bool x, .bool y => .ok (x == y)
  | .null, .null | .undefined, .undefined => .ok true
  | .null, .undefined | .undefined, .null => .ok !strict
  | .arr _, _ | .obj _, _ | _, .arr _ | _, .obj _ =>
    .error "an equality test on an array or object"
  | _, _ =>
    if strict then .ok false
    else .error ("a loose `==` between " ++ a.kind ++ " and " ++ b.kind)

section
variable [Conversions]

/-- An operator of two folded values; what it cannot fold is an error. -/
def operate (op : BinOp) (a b : V) : Except String V :=
  let text : Except String V := match a.toJsString, b.toJsString with
    | some x, some y => .ok (.str (String.ofList (x ++ y)))
    | _, _ => .error "a number the compiler cannot print as JS does"
  let refused : Except String V :=
    .error ("`" ++ String.ofList (Printer.binStr op) ++ "` between " ++ a.kind ++ " and " ++ b.kind)
  match op with
  | .add =>
    match a, b with
    | .num x, .num y => .ok (.num (x.add y))
    | .str _, .str _ | .str _, .num _ | .num _, .str _ => text
    | _, _ => refused
  | .sub | .mul | .div | .rem =>
    match a, b with
    | .num x, .num y => .ok (.num (match op with
      | .sub => x.sub y
      | .mul => x.mul y
      | .div => x.div y
      | _ => x.rem y))
    | _, _ => refused
  | .lt | .le | .gt | .ge =>
    match a, b with
    | .num x, .num y => .ok (.bool (compares op (x.cmp y)))
    | .str x, .str y =>
      .ok (.bool (compares op (some (order (units x.toList) (units y.toList)))))
    | _, _ => refused
  | .eq => (equals false a b).map .bool
  | .ne => (equals false a b).map fun e => .bool !e
  | .strictEq => (equals true a b).map .bool
  | .strictNe => (equals true a b).map fun e => .bool !e
  | .and | .or | .nullish => refused

end

/-- What `String.prototype.trim` strips. -/
def isJsSpace (c : Char) : Bool :=
  c.toNat ∈ [0x9, 0xA, 0xB, 0xC, 0xD, 0x20, 0xA0, 0x1680, 0x2028, 0x2029, 0x202F, 0x205F, 0x3000,
    0xFEFF] || (0x2000 ≤ c.toNat && c.toNat ≤ 0x200A)

def trimMatches (p : Char → Bool) (s : List Char) : List Char :=
  ((s.dropWhile p).reverse.dropWhile p).reverse

def ofLiteral : Literal Double → V
  | .str s => .str s
  | .num n => .num n
  | .bool b => .bool b
  | .null => .null
  | .undefined => .undefined

/-- A property is overwritten where it stands. -/
def setProp (props : List (String × V)) (k : String) (v : V) : List (String × V) :=
  if k ∈ props.map Prod.fst then props.map fun p => if p.1 = k then (k, v) else p
  else props ++ [(k, v)]

/-! ### A session -/

/-- `binds`, innermost first, and what the session remembers. -/
structure FoldEnv where
  binds : List (String × V)
  memo : List (String × Except String V)
  stack : List String
  steps : ℕ

abbrev Fold := Fallible FoldEnv String

namespace FoldEnv

def new : FoldEnv := ⟨[], [], [], 0⟩

/-- A parameter hides what has its name. -/
def bind (σ : FoldEnv) (name : String) (v : V) : FoldEnv :=
  { σ with binds := (name, v) :: σ.binds }

def unbind (σ : FoldEnv) (n : ℕ) : FoldEnv := { σ with binds := σ.binds.drop n }

end FoldEnv

/-- Longest `Array.from({ length })`. -/
def MAX_FROM_LENGTH : ℕ := 10000

/-- Expressions that one fold visits at most. -/
def MAX_STEPS : ℕ := 200000

/-- Deepest nesting of expressions. -/
def MAX_DEPTH : ℕ := 64

/-- One more step, if there is one left. -/
def tick : Fold Unit := do
  Fallible.modify fun σ => { σ with steps := σ.steps + 1 }
  let σ ← Fallible.get
  if MAX_STEPS < σ.steps then Fallible.fail "a constant too large to fold"

/-- With bindings, which go when the computation ends, however it ends. -/
def withBinds {α : Type} (bs : List (String × V)) (x : Fold α) : Fold α := fun σ =>
  let r := x { σ with binds := bs.reverse ++ σ.binds }
  (r.1, r.2.unbind bs.length)

section
variable [Conversions] [Printer.Printed Double] (consts : String → Option (RawExpr Double))

section
variable (fold : RawExpr Double → Fold V)

/-- An initializer sees no parameters of the place that reads it. -/
def moduleConst (name : String) : Fold V := fun σ =>
  match σ.memo.lookup name with
  | some r => (r, σ)
  | none =>
    if name ∈ σ.stack then (.error ("`" ++ name ++ "`, which refers to itself"), σ)
    else
      match consts name with
      | none => (.error ("`" ++ name ++ "`, which is not a module constant"), σ)
      | some init =>
        let out := fold init { σ with binds := [], stack := name :: σ.stack }
        let r := out.1.mapError fun why => "`" ++ name ++ "` (" ++ why ++ ")"
        (r, { out.2 with
          binds := σ.binds
          stack := out.2.stack.tail
          memo := (name, r) :: out.2.memo })

/-- The globals that are values. -/
def globalValue (name : String) : Except String V :=
  if name = "undefined" then .ok .undefined
  else if name = "NaN" then .ok (.num .nan)
  else if name = "Infinity" then .ok (.num (.inf false))
  else .error ("the global `" ++ name ++ "`")

def ident (name : String) (kind : IdentKind) : Fold V := do
  let σ ← Fallible.get
  match σ.binds.lookup name with
  | some v => pure v
  | none =>
    match kind with
    | .localName => moduleConst consts fold name
    | .globalName => Fallible.ofExcept (globalValue name)
    | .prop => Fallible.fail ("the prop `" ++ name ++ "`")
    | .state | .setter => Fallible.fail ("state `" ++ name ++ "`")
    | .store _ _ => Fallible.fail ("the store value `" ++ name ++ "`")
    | .imported _ _ => Fallible.fail ("the import `" ++ name ++ "`")
    | .loopBinding | .unknown => Fallible.fail ("`" ++ name ++ "`, which is not a constant")

/-- `&&`, `||` and `??` evaluate the right side only when JavaScript does. -/
def binary (op : BinOp) (left right : RawExpr Double) : Fold V := do
  let a ← fold left
  match op with
  | .and => if a.truthy then fold right else pure a
  | .or => if a.truthy then pure a else fold right
  | .nullish => if a.nullish then fold right else pure a
  | _ =>
    let b ← fold right
    Fallible.ofExcept (operate op a b)

def foldParts (s : List Char) : List (RawExpr Double × String) → Fold (List Char)
  | [] => pure s
  | (p, tail) :: parts => do
    let v ← fold p
    match v.toJsString with
    | some t => foldParts (s ++ t ++ tail.toList) parts
    | none => Fallible.fail (v.kind ++ " in a template")

def foldProps (out : List (String × V)) : List (String × RawExpr Double) → Fold (List (String × V))
  | [] => pure out
  | (k, e) :: props => do
    let v ← fold e
    foldProps (setProp out k v) props

/-- The callback at each item, with the item, its index and the array. -/
def mapItems (params : List String) (body : RawExpr Double) (whole : V) :
    ℕ → List V → Fold (List V)
  | _, [] => pure []
  | i, it :: items => do
    let r ← withBinds (params.zip [it, .num (Double.ofInt i), whole]) (fold body)
    let rs ← mapItems params body whole (i + 1) items
    pure (r :: rs)

/-- `.map(fn)` over the items. -/
def map (items : List V) : RawExpr Double → Fold V
  | .arrow params body _ =>
    if 3 < params.length then Fallible.fail "a `.map` callback with more than three parameters"
    else do
      let out ← mapItems fold params body (.arr items) 0 items
      pure (.arr out)
  | .block _ _ _ => Fallible.fail "a `.map` callback with a block body"
  | _ => Fallible.fail "a `.map` callback that is not an arrow function"

/-- The length of `Array.from`, where it is an integer in range. -/
def lengthOf (n : Double) : Option ℕ := (toIndex n).filter (· ≤ MAX_FROM_LENGTH)

/-- `\x7b length: N \x7d`, with a callback or without. -/
def fromSpec (spec : RawExpr Double) (cb : Option (RawExpr Double)) : Fold V :=
  let other := "`Array.from` of something other than `\x7b length: N \x7d`"
  match spec with
  | .object [(k, len)] =>
    if k = "length" then do
      let v ← fold len
      match v with
      | .num n =>
        match lengthOf n, cb with
        | none, _ =>
          Fallible.fail "`Array.from` with a length that is not an integer from 0 to 10000"
        | some m, none => pure (.arr (List.replicate m .undefined))
        | some m, some cb => map fold (List.replicate m .undefined) cb
      | _ => Fallible.fail "`Array.from` needs a constant numeric length"
    else Fallible.fail other
  | _ => Fallible.fail other

def arrayFrom : List (RawExpr Double) → Fold V
  | [spec] => fromSpec fold spec none
  | [spec, cb] => fromSpec fold spec (some cb)
  | _ => Fallible.fail "`Array.from` with other arguments"

/-- A pure method of a string. -/
def stringMethod (name : String) (target : RawExpr Double) : Fold V := do
  let t ← fold target
  match t with
  | .str s =>
    pure (.str (if name = "trim" then String.ofList (trimMatches isJsSpace s.toList) else s))
  | _ => Fallible.fail ("`." ++ name ++ "()` on " ++ t.kind)

/-- The global `Array`. -/
def isArray : RawExpr Double → Bool
  | .ident name .globalName => name = "Array"
  | _ => false

def call (callee : RawExpr Double) (args : List (RawExpr Double)) : Fold V :=
  let refused : Fold V := Fallible.fail
    ("a call to `" ++ String.ofList (Printer.print .server (fun _ _ => none) callee) ++ "`")
  match callee with
  | .member target name false =>
    if isArray target ∧ name = "from" then arrayFrom fold args
    else if name ∈ ["trim", "toString"] ∧ args = [] then stringMethod fold name target
    else if name = "map" then do
      let t ← fold target
      match t with
      | .arr items =>
        match args with
        | [cb] => map fold items cb
        | _ => Fallible.fail "`.map` with other than one argument"
      | _ => Fallible.fail ("`.map` on " ++ t.kind)
    else refused
  | _ => refused

def foldInner : RawExpr Double → Fold V
  | .lit l => pure (ofLiteral l)
  | .ident name kind => ident consts fold name kind
  | .member target name optional => do
    let t ← fold target
    Fallible.ofExcept (member t name optional)
  | .index target i => do
    let t ← fold target
    let k ← fold i
    Fallible.ofExcept (index t k)
  | .unary op value => do
    let v ← fold value
    Fallible.ofExcept (unary op v)
  | .binary op left right => binary fold op left right
  | .cond test yes no => do
    let t ← fold test
    if t.truthy then fold yes else fold no
  | .template head parts => do
    let s ← foldParts fold head.toList parts
    pure (.str (String.ofList s))
  | .array items => do
    let vs ← Fallible.mapAll fold items
    pure (.arr vs)
  | .object props => do
    let out ← foldProps fold [] props
    pure (.obj out)
  | .call callee args => call fold callee args
  | .arrow _ _ _ | .block _ _ _ => Fallible.fail "a function"
  | .jsx => Fallible.fail "JSX"
  | .opaqueJs _ why _ =>
    Fallible.fail ("an expression the reader keeps opaque (" ++ why ++ ")")

end

/-- An expression at a depth that leaves as much. -/
def foldAt : ℕ → RawExpr Double → Fold V
  | 0, _ => do
    tick
    Fallible.fail "an expression nested too deeply to fold"
  | d + 1, e => do
    tick
    foldInner consts (foldAt d) e

def fold (e : RawExpr Double) : Fold V := foldAt consts MAX_DEPTH e

end

end Brust.Compiler.Folding
