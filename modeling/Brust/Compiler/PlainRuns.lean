import Brust.Compiler.PlainFn
import Brust.Support.Actions
import Mathlib.Logic.Function.Basic

/-!
# Compiler — What a plain function returns

The language that a module's functions are written in, with the steps that are no part of it left to
a `Host`, and the calls a call makes bounded by fuel (`callAt`).  `Host.Documented` is what the
language documents of its own values, operators and methods.
-/

namespace Brust.Compiler.PlainFn

open Brust.Rounds

/-- What a body can do. -/
abbrev Act (S α : Type) := StateT S Option α

/-- The values of locals. -/
abbrev Values (V : Type) := Sym → Option V

/-- A body: the symbols it declares, and the values of those that are bound. -/
structure Scope (V : Type) where
  declared : List Sym
  values : Values V

/-- Where a statement leaves its body. -/
inductive Flow (V : Type) where
  | next (values : Values V)
  | ret (v : V)

def Flow.elim {V β : Type} (f : Values V → β) (g : V → β) : Flow V → β
  | .next ρ => f ρ
  | .ret v => g v

/-- Values, and what the steps that the proof does not read do to them: an action that never gives a
value throws or does not end.  `foreign`, `foreignStmt` and `foreignDecl` are the forms that the
proof refuses. -/
structure Host (V S : Type) where
  prim : V → Prop
  builtIn : V → Prop
  isMath : V → Prop
  isRegExp : V → Prop
  lit : Lit → V
  toBoolean : V → Bool
  nullish : V → Bool
  global : String → Act S V
  binding : String → Act S V
  unary : UnOp → V → Act S V
  binary : BinOp → V → V → Act S V
  text : V → Act S String
  regExp : String → Act S V
  member : V → String → Act S V
  callGlobal : String → List V → Act S V
  callMember : V → String → List V → Act S V
  callValue : V → List V → Act S V
  callOther : String → List V → Act S V
  enter : Fn → List V → Act S (Values V)
  foreign : Expr → Values V → Act S V
  foreignStmt : Stmt → Values V → Act S (Flow V)
  foreignDecl : Binding → Values V → Act S (Values V)

/-- What is documented of the language's own values.  A value that is `builtIn` is a primitive or is
read from one. -/
structure Host.Documented {V S : Type} [Preorder S] (h : Host V S) : Prop where
  lit (l : Lit) : h.prim (h.lit l)
  builtIn {v : V} (hv : h.prim v) : h.builtIn v
  global {n : String} (hn : n ∈ GLOBAL_VALUES) : Quiet h.prim (h.global n)
  globalMath : Quiet h.isMath (h.global "Math")
  unary {op : UnOp} {v : V} (hop : op.writes = false) (hv : h.prim v) : Quiet h.prim (h.unary op v)
  binary {op : BinOp} {v w : V} (hop : op.assigns = false) (hv : h.prim v) (hw : h.prim w) :
    Quiet h.prim (h.binary op v w)
  /-- A comparison is a boolean; a built-in object is compared by its identity or its text. -/
  compare {op : BinOp} {v w : V} (hop : op.compares = true) (hv : h.builtIn v) (hw : h.builtIn w) :
    Quiet h.prim (h.binary op v w)
  text {v : V} (hv : h.builtIn v) : Quiet (fun _ => True) (h.text v)
  regExp (source : String) : Quiet h.isRegExp (h.regExp source)
  member {v : V} (hv : h.builtIn v) (n : String) : Quiet h.builtIn (h.member v n)
  callGlobal {n : String} {vs : List V} (hn : n ∈ GLOBAL_CALLS) (hvs : ∀ v ∈ vs, h.prim v) :
    Quiet h.prim (h.callGlobal n vs)
  callMath {v : V} {n : String} {vs : List V} (hv : h.isMath v) (hn : n ∈ MATH_CALLS)
    (hvs : ∀ v ∈ vs, h.prim v ∨ h.isRegExp v) : Quiet h.prim (h.callMember v n vs)
  callMethod {v : V} {n : String} {vs : List V} (hv : h.builtIn v) (hn : n ∈ PRIMITIVE_METHODS)
    (hvs : ∀ v ∈ vs, h.prim v ∨ h.isRegExp v) : Quiet h.prim (h.callMember v n vs)
  /-- A primitive is no function: a call of it throws. -/
  callValue {v : V} (hv : h.prim v) (vs : List V) : h.callValue v vs = failure

/-! ### Names at run time -/

namespace Module

variable (m : Module)

/-- The item that a name denotes: the last one that declares it. -/
def denotes (n : String) : Option Item := m.items.reverse.find? fun i =>
    (i.binds m.names).contains n

/-- The function that an item runs when its name is called; not where the name may be assigned, by
the head of a loop as well. -/
def runs : Item → Option Fn
  | .function r false false f =>
    if m.assignedNames.contains (m.names.name r) || m.loopedNames.contains
      (m.names.name r) then none
    else some f
  | .binding .const _ (.arrow false f) => some f
  | _ => none

/-- The expression that a const is initialised with. -/
def Item.constExpr : Item → Option Expr
  | .binding .const _ (.expr e) => some e
  | _ => none

end Module

/-! ### Expressions -/

section Eval

variable {V S : Type} (h : Host V S) (m : Module) (held : String → Option V)
  (call : String → List V → Act S V)

/-- A name of the module: a const's value, once it is initialised. -/
def readModule (n : String) : Act S V :=
  if ((m.denotes n).bind Module.Item.constExpr).isSome then (held n).elim failure pure
  else h.binding n

/-- A name; a local that is not bound yet throws. -/
def read (sc : Scope V) (r : Sym) : Act S V :=
  if sc.declared.contains r then (sc.values r).elim failure pure
  else if m.names.isGlobal r then h.global (m.names.name r)
  else readModule h m held (m.names.name r)

/-- The function that a name calls. -/
def callee (sc : Scope V) (r : Sym) : Act S (List V → Act S V) :=
  if sc.declared.contains r then h.callValue <$> read h m held sc r
  else if m.names.isGlobal r then pure (h.callGlobal (m.names.name r))
  else pure (call (m.names.name r))

mutual
def eval (sc : Scope V) : Expr → Act S V
  | .lit l => pure (h.lit l)
  | .ident r => read h m held sc r
  | .unary op e =>
    if op.writes then h.foreign (.unary op e) sc.values
    else do
      let v ← eval sc e
      h.unary op v
  | .binary op l r =>
    if op.assigns then h.foreign (.binary op l r) sc.values
    else do
      let v ← eval sc l
      if op = .and then (if h.toBoolean v then eval sc r else pure v)
      else if op = .or then (if h.toBoolean v then pure v else eval sc r)
      else if op = .nullish then (if h.nullish v then eval sc r else pure v)
      else do
        let w ← eval sc r
        if op = .comma then pure w else h.binary op v w
  | .cond test yes no => do
      let v ← eval sc test
      if h.toBoolean v then eval sc yes else eval sc no
  | .template tagged head parts =>
    if tagged then h.foreign (.template tagged head parts) sc.values
    else (fun s => h.lit (.str (head ++ s))) <$> evalParts sc parts
  | .regExp source => h.regExp source
  | .dot optional target name =>
    if optional then h.foreign (.dot optional target name) sc.values
    else do
      let v ← eval sc target
      h.member v name
  | .call false (.ident r) args => do
      let f ← callee h m held call sc r
      let vs ← evalArgs sc args
      f vs
  | .call false (.dot optional target method) args => do
      let v ← eval sc target
      let vs ← evalArgs sc args
      if optional && h.nullish v then h.callValue (h.lit .undefined) vs
      else h.callMember v method vs
  | e => h.foreign e sc.values

def evalArgs (sc : Scope V) : List Expr → Act S (List V)
  | [] => pure []
  | e :: es => do
      let v ← eval sc e
      (v :: ·) <$> evalArgs sc es

def evalParts (sc : Scope V) : List (Expr × String) → Act S String
  | [] => pure ""
  | (e, tail) :: es => do
      let v ← eval sc e
      let s ← h.text v
      (s ++ tail ++ ·) <$> evalParts sc es
end

/-! ### Bodies -/

def Values.set (ρ : Values V) (r : Sym) (v : V) : Values V := Function.update ρ r (some v)

def execDecls (declared : List Sym) (kind : DeclKind) (ρ : Values V) :
    List (Binding × Option Expr) → Act S (Values V)
  | [] => pure ρ
  | (.ident r, some e) :: ds => do
      let v ← eval h m held call ⟨declared, ρ⟩ e
      execDecls declared kind (ρ.set r v) ds
  | (.ident r, none) :: ds =>
      execDecls declared kind (if kind = .var then ρ else ρ.set r (h.lit .undefined)) ds
  | (b, _) :: ds => do
      let ρ ← h.foreignDecl b ρ
      execDecls declared kind ρ ds

mutual
def exec (declared : List Sym) (ρ : Values V) : Stmt → Act S (Flow V)
  | .ret none => pure (.ret (h.lit .undefined))
  | .ret (some e) => .ret <$> eval h m held call ⟨declared, ρ⟩ e
  | .block ss => execAll declared ρ ss
  | .ite test yes no => do
      let v ← eval h m held call ⟨declared, ρ⟩ test
      if h.toBoolean v then exec declared ρ yes else execOpt declared ρ no
  | .decl kind ds => .next <$> execDecls h m held call declared kind ρ ds
  | .other code => h.foreignStmt (.other code) ρ

def execOpt (declared : List Sym) (ρ : Values V) : Option Stmt → Act S (Flow V)
  | none => pure (.next ρ)
  | some s => exec declared ρ s

def execAll (declared : List Sym) (ρ : Values V) : List Stmt → Act S (Flow V)
  | [] => pure (.next ρ)
  | s :: ss => do
      let o ← exec declared ρ s
      o.elim (fun ρ => execAll declared ρ ss) fun v => pure (.ret v)
end

mutual
/-- The symbols of `var` declarations, which are `undefined` before they run. -/
def Stmt.vars : Stmt → List Sym
  | .block ss => varsAll ss
  | .ite _ yes no => yes.vars ++ varsOpt no
  | .decl .var ds => ds.flatMap fun d => d.1.syms
  | _ => []

def varsOpt : Option Stmt → List Sym
  | none => []
  | some s => s.vars

def varsAll : List Stmt → List Sym
  | [] => []
  | s :: ss => s.vars ++ varsAll ss
end

/-- A parameter that is a name and no more. -/
def Fn.simple (f : Fn) (a : Param) : Option Sym :=
  match a.binding with
  | .ident r => if a.default || f.hasRest then none else some r
  | .pattern _ => none

def bindArgs (ρ : Values V) : List Sym → List V → Values V
  | [], _ => ρ
  | r :: rs, vs => bindArgs (ρ.set r (vs.head?.getD (h.lit .undefined))) rs vs.tail

/-- The locals a call begins with: its parameters, over the hoisted `var`s. -/
def enter (f : Fn) (vs : List V) : Act S (Values V) :=
  (f.args.mapM f.simple).elim (h.enter f vs) fun rs =>
    pure (bindArgs h (fun r =>
      if (varsAll f.body).contains r then some (h.lit .undefined) else none)
      rs vs)

end Eval

end Brust.Compiler.PlainFn
