import Brust.Support.Rounds
import Mathlib.Data.Finset.Sort
import Mathlib.Data.String.Basic

/-!
# Compiler — Plain functions

`plain_fns` of `analyze/plain_fn.rs`: the module functions that are proven to return a primitive.
An expression is judged under sets of plain consts and of functions still believed plain; the consts
are the least set closed under the judgement, and the functions the greatest one that supports
itself (`alive_isGreatest`), whatever the order of the declarations (`Reordered.proven_eq`).  A
function whose name `Walk` finds assigned is none of them.
-/

namespace Brust.Compiler.PlainFn

open Brust.Rounds

/-- A symbol, by its key. -/
abbrev Sym := ℕ

structure NameTable where
  name : Sym → String
  isGlobal : Sym → Bool

inductive Lit where
  | str (s : String)
  | num (text : String)
  | bool (b : Bool)
  | null
  | undefined

inductive UnOp where
  | not | neg | pos | cpl | typeof | void
  | preInc | preDec | postInc | postDec | delete
deriving DecidableEq

inductive BinOp where
  | add | sub | mul | div | rem | pow
  | shl | shr | ushr | bitOr | bitAnd | bitXor
  | lt | le | gt | ge | looseEq | looseNe | strictEq | strictNe
  | isIn | instanceof | comma
  | or | and | nullish
  /-- `=`, and `+=` and its like. -/
  | assign | update
deriving DecidableEq

/-- `js_ast::Expr`; `other` for the kinds that the proof refuses at sight. -/
inductive Expr where
  | lit (l : Lit)
  | ident (r : Sym)
  | unary (op : UnOp) (value : Expr)
  | binary (op : BinOp) (left right : Expr)
  | cond (test yes no : Expr)
  | template (tagged : Bool) (head : String) (parts : List (Expr × String))
  | regExp (source : String)
  | dot (optional : Bool) (target : Expr) (name : String)
  | call (optional : Bool) (target : Expr) (args : List Expr)
  | other (code : String)

inductive Binding where
  | ident (r : Sym)
  | pattern (rs : List Sym)

inductive DeclKind where
  | const | letDecl | var
deriving DecidableEq

inductive Stmt where
  | ret (value : Option Expr)
  | block (stmts : List Stmt)
  | ite (test : Expr) (yes : Stmt) (no : Option Stmt)
  | decl (kind : DeclKind) (decls : List (Binding × Option Expr))
  | other (code : String)

/-- A parameter; `default` if it has a default value. -/
structure Param where
  binding : Binding
  default : Bool

/-- A function's parameters and body. -/
structure Fn where
  args : List Param
  body : List Stmt
  hasRest : Bool

/-- What a module-level name is declared with. -/
inductive Init where
  | none
  | arrow (isAsync : Bool) (f : Fn)
  | expr (e : Expr)

/-- A module-level statement. -/
inductive Item where
  | function (r : Sym) (isAsync isGenerator : Bool) (f : Fn)
  | binding (kind : DeclKind) (r : Sym) (init : Init)
  /-- Imports, classes, patterns and statements, with the names they bind. -/
  | other (rs : List Sym)

def GLOBAL_VALUES : List String := ["NaN", "Infinity", "undefined"]

def GLOBAL_CALLS : List String :=
  ["String", "Number", "Boolean", "parseInt", "parseFloat", "isNaN", "isFinite"]

def PRIMITIVE_METHODS : List String :=
  ["toString", "toLocaleString", "toLocaleDateString", "toLocaleTimeString", "toISOString",
    "toDateString", "toTimeString", "toFixed", "toPrecision", "padStart", "padEnd", "toUpperCase",
    "toLowerCase", "trim", "trimStart", "trimEnd", "replace", "replaceAll",
      "startsWith", "endsWith",
    "includes", "join"]

def HOST_METHODS : List String :=
  ["toString", "toLocaleString", "toLocaleDateString", "toLocaleTimeString", "toISOString",
    "toDateString", "toTimeString"]

def MATH_CALLS : List String :=
  ["abs", "ceil", "floor", "round", "trunc", "sign", "min", "max", "pow", "sqrt", "cbrt", "log",
    "log2", "log10", "exp", "sin", "cos", "tan", "atan", "atan2", "hypot"]

/-- `++`, `--` and `delete`. -/
def UnOp.writes : UnOp → Bool
  | .preInc | .preDec | .postInc | .postDec | .delete => true
  | _ => false

/-- `binary_assign_target` is not `None`. -/
def BinOp.assigns : BinOp → Bool
  | .assign | .update => true
  | _ => false

def BinOp.compares : BinOp → Bool
  | .strictEq | .strictNe | .looseEq | .looseNe | .lt | .le | .gt | .ge => true
  | _ => false

def Expr.isRegExp : Expr → Bool
  | .regExp _ => true
  | _ => false

/-! ### The judgement of an expression -/

/-- `Ctx`. -/
structure Ctx where
  names : NameTable
  fns : Finset String
  consts : Finset String
  locals : List Sym
  hostFree : Bool

/-- What `expr` and `receiver` answer of one expression. -/
structure Judged where
  plain : Bool
  receiver : Bool

namespace Ctx

variable (c : Ctx)

/-- A plain name: a local, a plain const or a global value. -/
def identOk (r : Sym) : Bool :=
  c.locals.contains r || decide (c.names.name r ∈ c.consts) ||
    (GLOBAL_VALUES.contains (c.names.name r) && c.names.isGlobal r)

/-- A function's name that may be called. -/
def calleeIdent (r : Sym) : Bool :=
  !c.locals.contains r &&
    ((GLOBAL_CALLS.contains (c.names.name r) && c.names.isGlobal r) ||
      decide (c.names.name r ∈ c.fns))

/-- `Math`, the global one. -/
def isMath : Expr → Bool
  | .ident r => c.names.name r == "Math" && !c.locals.contains r && c.names.isGlobal r
  | _ => false

/-- A method that may be called on `target`, which is a receiver or is not. -/
def calleeDot (optional : Bool) (target : Expr) (receiver : Bool) (method : String) : Bool :=
  (c.isMath target && MATH_CALLS.contains method) ||
    (!optional && PRIMITIVE_METHODS.contains method &&
      !(c.hostFree && HOST_METHODS.contains method) && receiver)

mutual
def judge : Expr → Judged
  | .lit _ => ⟨true, true⟩
  | .ident r => ⟨c.identOk r, c.identOk r⟩
  | .unary op value =>
    let ok := !op.writes && (judge value).plain
    ⟨ok, ok⟩
  | .binary op left right =>
    -- A comparison is a boolean whatever its operands are.
    let operand (j : Judged) := j.plain || (op.compares && j.receiver)
    let ok := !op.assigns && operand (judge left) && operand (judge right)
    ⟨ok, ok⟩
  | .cond test yes no =>
    let ok := (judge test).plain && (judge yes).plain && (judge no).plain
    ⟨ok, ok⟩
  | .template tagged _ parts =>
    let ok := !tagged && judgeParts parts
    ⟨ok, ok⟩
  | .call optional (.ident r) args =>
    let ok := !optional && c.calleeIdent r && judgeArgs false args
    ⟨ok, ok⟩
  | .call optional (.dot opt target method) args =>
    let ok := !optional && c.calleeDot opt target (judge target).receiver method &&
      judgeArgs true args
    ⟨ok, ok⟩
  | .dot optional target _ => ⟨false, !optional && (judge target).receiver⟩
  | _ => ⟨false, false⟩

/-- The arguments; a regular expression is one of a method only. -/
def judgeArgs (method : Bool) : List Expr → Bool
  | [] => true
  | a :: as => (method && a.isRegExp || (judge a).plain) && judgeArgs method as

def judgeParts : List (Expr × String) → Bool
  | [] => true
  | (e, _) :: es => ((judge e).plain || (judge e).receiver) && judgeParts es
end

/-- `expr` -/
def expr (e : Expr) : Bool := (c.judge e).plain

/-- `receiver` -/
def receiver (e : Expr) : Bool := (c.judge e).receiver

/-! ### The judgement of a body -/

/-- A local that is read from here on. -/
def bind (r : Sym) : Ctx := { c with locals := r :: c.locals }

/-- Bindings of plain values. -/
def decls (c : Ctx) : List (Binding × Option Expr) → Option Ctx
  | [] => some c
  | (.ident r, some v) :: ds => if c.expr v then decls (c.bind r) ds else none
  | _ => none

mutual
/-- `stmt`, with the locals that are bound after it; `none` where it is not plain. -/
def stmt (c : Ctx) : Stmt → Option Ctx
  | .ret value => if value.all c.expr then some c else none
  | .block ss => stmts c ss
  | .ite test yes no => if c.expr test then (stmt c yes).bind fun c => stmtOpt c no else none
  | .decl _ ds => c.decls ds
  | .other _ => none

def stmtOpt (c : Ctx) : Option Stmt → Option Ctx
  | none => some c
  | some s => stmt c s

/-- `stmts` -/
def stmts (c : Ctx) : List Stmt → Option Ctx
  | [] => some c
  | s :: ss => (stmt c s).bind fun c => stmts c ss
end

end Ctx

/-! ### Writes -/

/-- The code that `Walk` goes through, as far as it may write to names: `part` for an expression or
a statement of any other kind, with the code in it. -/
inductive Code where
  | ident (r : Sym)
  | array (items : List Code)
  /-- The property values, and the keys and defaults. -/
  | object (values others : List Code)
  | spread (value : Code)
  /-- `=`, where `plain`, or one of `+=` and its like. -/
  | assign (plain : Bool) (target value : Code)
  /-- `++` and `--`. -/
  | update (target : Code)
  /-- `for (head in value) body` and `for (head of value) body`. -/
  | loop (head value body : Code)
  | part (code : List Code)

mutual
/-- `assign_target`: the names that a target writes. -/
def Code.targets : Code → List Sym
  | .ident r => [r]
  | .array items => targetsAll items
  | .object values _ => targetsAll values
  | .spread value => value.targets
  | .assign true target _ => target.targets
  | _ => []

def targetsAll : List Code → List Sym
  | [] => []
  | c :: cs => c.targets ++ targetsAll cs
end

mutual
/-- `Walk.assigned`.  The head of a loop is walked as any code is: a name in it counts as read. -/
def Code.assigned : Code → List Sym
  | .ident _ => []
  | .array items => assignedAll items
  | .object values others => assignedAll values ++ assignedAll others
  | .spread value => value.assigned
  | .assign _ target value => target.targets ++ target.assigned ++ value.assigned
  | .update target => target.targets ++ target.assigned
  | .loop head value body => head.assigned ++ value.assigned ++ body.assigned
  | .part code => assignedAll code

def assignedAll : List Code → List Sym
  | [] => []
  | c :: cs => c.assigned ++ assignedAll cs
end

mutual
/-- The names that the heads of loops write. -/
def Code.looped : Code → List Sym
  | .ident _ => []
  | .array items => loopedAll items
  | .object values others => loopedAll values ++ loopedAll others
  | .spread value => value.looped
  | .assign _ target value => target.looped ++ value.looped
  | .update target => target.looped
  | .loop head value body => head.targets ++ head.looped ++ value.looped ++ body.looped
  | .part code => loopedAll code

def loopedAll : List Code → List Sym
  | [] => []
  | c :: cs => c.looped ++ loopedAll cs
end

theorem assignedAll_eq : ∀ cs : List Code, assignedAll cs = cs.flatMap Code.assigned
  | [] => rfl
  | c :: cs => by rw [assignedAll, assignedAll_eq cs, List.flatMap_cons]

/-! ### A module -/

/-- The symbols that an item binds. -/
def Item.syms : Item → List Sym
  | .function r _ _ _ => [r]
  | .binding _ r _ => [r]
  | .other rs => rs

/-- The names that an item binds. -/
def Item.binds (names : NameTable) (i : Item) : List String := i.syms.map names.name

/-- A function declaration that is neither async nor a generator. -/
def Item.isPlainFunction : Item → Bool
  | .function _ isAsync isGenerator _ => !isAsync && !isGenerator
  | _ => false

/-- The function of an item. -/
def Item.fn? : Item → Option Fn
  | .function _ _ _ f => some f
  | .binding _ _ (.arrow _ f) => some f
  | _ => none

/-- The names that a binding declares. -/
def Binding.syms : Binding → List Sym
  | .ident r => [r]
  | .pattern rs => rs

mutual
/-- The symbols that a statement declares. -/
def Stmt.declares : Stmt → List Sym
  | .block ss => declaresAll ss
  | .ite _ yes no => yes.declares ++ declaresOpt no
  | .decl _ ds => ds.flatMap fun d => d.1.syms
  | _ => []

def declaresOpt : Option Stmt → List Sym
  | none => []
  | some s => s.declares

def declaresAll : List Stmt → List Sym
  | [] => []
  | s :: ss => s.declares ++ declaresAll ss
end

/-- The parameters and locals of a function. -/
def Fn.declares (f : Fn) : List Sym :=
  (f.args.flatMap fun a => a.binding.syms) ++ declaresAll f.body

/-- A module with its names resolved.  A name is declared once, or by several plain functions. -/
structure Module where
  names : NameTable
  items : List Item
  code : List Code
  early : items.Pairwise fun i j => ∀ n ∈ i.binds names, n ∈ j.binds names →
    i.isPlainFunction = true ∧ j.isPlainFunction = true
  /-- A local is no global, -/
  bound : ∀ i ∈ items, ∀ f ∈ i.fn?, ∀ r ∈ f.declares, names.isGlobal r = false
  /-- and a global has no name of the module. -/
  unbound : ∀ i ∈ items, ∀ n ∈ i.binds names, ∀ r, names.name r = n → names.isGlobal r = false

namespace Module

variable (m : Module) (hostFree : Bool)

def assignedNames : List String := (assignedAll m.code).map m.names.name

/-- The module's own names that the heads of loops write. -/
def loopedNames : List String :=
  ((m.items.flatMap Item.syms).filter (loopedAll m.code).contains).map m.names.name

/-- What `module_names` collects of an item. -/
def itemNames : Item → List String
  | .function r _ _ _ => [m.names.name r]
  | .binding _ r _ => [m.names.name r]
  | .other _ => []

def moduleNames : List String := m.items.flatMap m.itemNames

/-- What `funcs` collects of an item: plain functions that are never assigned, and const arrows. -/
def itemFuncs : Item → List (String × Fn)
  | .function r isAsync isGenerator f =>
    if !m.assignedNames.contains (m.names.name r) && !isAsync && !isGenerator then
      [(m.names.name r, f)]
    else []
  | .binding .const r (.arrow false f) => [(m.names.name r, f)]
  | _ => []

def funcs : List (String × Fn) := m.items.flatMap m.itemFuncs

def itemConsts : Item → List (String × Init)
  | .binding _ _ .none => []
  | .binding .const r init => [(m.names.name r, init)]
  | _ => []

def constInits : List (String × Init) := m.items.flatMap m.itemConsts

/-- A const is plain under the plain consts. -/
def constRule (consts : Finset String) (d : String × Init) : Bool :=
  match d.2 with
  | .expr e => (Ctx.mk m.names ∅ consts [] hostFree).expr e
  | _ => false

def consts : Finset String :=
  settle (pass Prod.fst (m.constRule hostFree) m.constInits) m.constInits.length ∅

/-- The parameter, where no default, rest or module name hides it. -/
def param (f : Fn) (a : Param) : Option Sym :=
  match a.binding with
  | .ident r =>
    if a.default || f.hasRest then none
    else if m.moduleNames.contains (m.names.name r) || GLOBAL_CALLS.contains (m.names.name r) ||
        m.names.name r == "Math" then none
    else some r
  | .pattern _ => none

/-- A function is plain under the functions that are still believed plain. -/
def fnRule (alive : Finset String) (f : String × Fn) : Bool :=
  (f.2.args.mapM (m.param f.2)).any fun ps =>
    ((Ctx.mk m.names alive (m.consts hostFree) ps hostFree).stmts f.2.body).any fun c =>
      !c.locals.any fun r => m.moduleNames.contains (m.names.name r)

def alive : Finset String :=
  settle (sweep Prod.fst (m.fnRule hostFree) m.funcs) m.funcs.length (m.funcs.map Prod.fst).toFinset

/-- `proven`: `plain_fns`, and where `hostFree` is set `client_plain_fns`. -/
def proven : List String := (m.alive hostFree).sort (· ≤ ·)

def clientPlainFns : List String := m.proven true

end Module

/-! ### More plain names, more plain code -/

/-- The second context has every plain name of the first. -/
structure Ctx.Le (c d : Ctx) : Prop where
  names : c.names = d.names
  locals : c.locals = d.locals
  hostFree : c.hostFree = d.hostFree
  fns : c.fns ⊆ d.fns
  consts : c.consts ⊆ d.consts

namespace Ctx

variable {c d : Ctx}

theorem Le.bind (h : c.Le d) (r : Sym) : (c.bind r).Le (d.bind r) :=
  { h with locals := congrArg (r :: ·) h.locals }

theorem Le.identOk (h : c.Le d) {r : Sym} (hok : c.identOk r = true) : d.identOk r = true := by
  rw [Ctx.identOk] at hok ⊢
  rw [← h.names, ← h.locals]
  simp only [Bool.or_eq_true, decide_eq_true_iff] at hok ⊢
  exact hok.imp_left (Or.imp_right fun hmem => h.consts hmem)

theorem Le.calleeIdent (h : c.Le d) {r : Sym} (hok : c.calleeIdent r = true) :
    d.calleeIdent r = true := by
  rw [Ctx.calleeIdent] at hok ⊢
  rw [← h.names, ← h.locals]
  simp only [Bool.and_eq_true, Bool.or_eq_true, decide_eq_true_iff] at hok ⊢
  exact hok.imp_right (Or.imp_right fun hmem => h.fns hmem)

theorem Le.isMath (h : c.Le d) (t : Expr) : c.isMath t = d.isMath t := by
  cases t with
  | ident r => rw [Ctx.isMath, Ctx.isMath, h.names, h.locals]
  | _ => rfl

theorem Le.calleeDot (h : c.Le d) {optional : Bool} {t : Expr} {j j' : Bool} {method : String}
    (hj : j = true → j' = true) (hok : c.calleeDot optional t j method = true) :
    d.calleeDot optional t j' method = true := by
  rw [Ctx.calleeDot] at hok ⊢
  rw [← h.isMath, ← h.hostFree]
  simp only [Bool.and_eq_true, Bool.or_eq_true] at hok ⊢
  exact hok.imp_right (And.imp_right hj)

mutual
theorem Le.judge (h : c.Le d) : ∀ e : Expr,
    ((c.judge e).plain = true → (d.judge e).plain = true) ∧
      ((c.judge e).receiver = true → (d.judge e).receiver = true)
  | .lit _ => ⟨id, id⟩
  | .ident r => ⟨h.identOk, h.identOk⟩
  | .unary op value => by
      simp only [Ctx.judge, Bool.and_eq_true, and_self]
      exact And.imp_right (h.judge value).1
  | .binary op left right => by
      have hl := h.judge left
      have hr := h.judge right
      simp only [Ctx.judge, Bool.and_eq_true, Bool.or_eq_true, and_self]
      exact fun hok => ⟨⟨hok.1.1, hok.1.2.imp hl.1 (And.imp_right hl.2)⟩,
        hok.2.imp hr.1 (And.imp_right hr.2)⟩
  | .cond test yes no => by
      simp only [Ctx.judge, Bool.and_eq_true, and_self]
      exact And.imp (And.imp (h.judge test).1 (h.judge yes).1) (h.judge no).1
  | .template tagged head parts => by
      simp only [Ctx.judge, Bool.and_eq_true, and_self]
      exact And.imp_right (h.judgeParts parts)
  | .regExp _ => ⟨id, id⟩
  | .dot optional target name => by
      simp only [Ctx.judge, Bool.and_eq_true]
      exact ⟨id, And.imp_right (h.judge target).2⟩
  | .call optional (.ident r) args => by
      simp only [Ctx.judge, Bool.and_eq_true, and_self]
      exact And.imp (And.imp_right h.calleeIdent) (h.judgeArgs false args)
  | .call optional (.dot opt target method) args => by
      simp only [Ctx.judge, Bool.and_eq_true, and_self]
      exact And.imp (And.imp_right (h.calleeDot (h.judge target).2)) (h.judgeArgs true args)
  | .call _ (.lit _) _ | .call _ (.unary _ _) _ | .call _ (.binary _ _ _) _
  | .call _ (.cond _ _ _) _ | .call _ (.template _ _ _) _ | .call _ (.regExp _) _
  | .call _ (.call _ _ _) _ | .call _ (.other _) _ | .other _ => ⟨id, id⟩

theorem Le.judgeArgs (h : c.Le d) (method : Bool) : ∀ es : List Expr,
    c.judgeArgs method es = true → d.judgeArgs method es = true
  | [] => id
  | e :: es => by
      simp only [Ctx.judgeArgs, Bool.and_eq_true, Bool.or_eq_true]
      exact And.imp (Or.imp_right (h.judge e).1) (h.judgeArgs method es)

theorem Le.judgeParts (h : c.Le d) : ∀ es : List (Expr × String),
    c.judgeParts es = true → d.judgeParts es = true
  | [] => id
  | (e, _) :: es => by
      simp only [Ctx.judgeParts, Bool.and_eq_true, Bool.or_eq_true]
      exact And.imp (Or.imp (h.judge e).1 (h.judge e).2) (h.judgeParts es)
end

theorem Le.expr (h : c.Le d) {e : Expr} (hok : c.expr e = true) : d.expr e = true :=
  (h.judge e).1 hok

theorem Le.decls : ∀ {ds : List (Binding × Option Expr)} {c c' d : Ctx}, c.Le d →
    c.decls ds = some c' → ∃ d', d.decls ds = some d' ∧ c'.Le d'
  | [], _, _, d, h, hok => by
      cases hok
      exact ⟨d, rfl, h⟩
  | (.ident r, some v) :: ds, c, c', d, h, hok => by
      rw [Ctx.decls] at hok
      split at hok
      · next hv =>
        rw [Ctx.decls, if_pos (h.expr hv)]
        exact Le.decls (h.bind r) hok
      · cases hok
  | (.ident _, none) :: _, _, _, _, _, hok => by cases hok
  | (.pattern _, _) :: _, _, _, _, _, hok => by cases hok

mutual
theorem Le.stmt : ∀ {s : Stmt} {c c' d : Ctx}, c.Le d → c.stmt s = some c' →
    ∃ d', d.stmt s = some d' ∧ c'.Le d'
  | .ret none, _, _, d, h, hok => by
      cases hok
      exact ⟨d, rfl, h⟩
  | .ret (some v), c, c', d, h, hok => by
      rw [Ctx.stmt] at hok
      split at hok
      · next hv =>
        cases hok
        exact ⟨d, by rw [Ctx.stmt]; exact if_pos (h.expr hv), h⟩
      · cases hok
  | .block ss, c, c', _, h, hok => Le.stmts h (show c.stmts ss = some c' from hok)
  | .ite test yes no, c, c', d, h, hok => by
      rw [Ctx.stmt] at hok
      split at hok
      · next htest =>
        obtain ⟨c₁, hyes, hno⟩ := Option.bind_eq_some_iff.mp hok
        obtain ⟨d₁, hyes', h₁⟩ := Le.stmt h hyes
        obtain ⟨d', hno', h'⟩ := Le.stmtOpt h₁ hno
        refine ⟨d', ?_, h'⟩
        rw [Ctx.stmt, if_pos (h.expr htest), hyes', Option.bind_some, hno']
      · cases hok
  | .decl _ ds, c, c', _, h, hok => Le.decls h (show c.decls ds = some c' from hok)
  | .other _, _, _, _, _, hok => by cases hok

theorem Le.stmtOpt : ∀ {o : Option Stmt} {c c' d : Ctx}, c.Le d → c.stmtOpt o = some c' →
    ∃ d', d.stmtOpt o = some d' ∧ c'.Le d'
  | none, _, _, d, h, hok => by
      cases hok
      exact ⟨d, rfl, h⟩
  | some s, _, _, _, h, hok => Le.stmt (s := s) h hok

theorem Le.stmts : ∀ {ss : List Stmt} {c c' d : Ctx}, c.Le d → c.stmts ss = some c' →
    ∃ d', d.stmts ss = some d' ∧ c'.Le d'
  | [], _, _, d, h, hok => by
      cases hok
      exact ⟨d, rfl, h⟩
  | s :: ss, _, _, _, h, hok => by
      obtain ⟨c₁, hs, hss⟩ := Option.bind_eq_some_iff.mp hok
      obtain ⟨d₁, hs', h₁⟩ := Le.stmt h hs
      obtain ⟨d', hss', h'⟩ := Le.stmts h₁ hss
      exact ⟨d', by rw [Ctx.stmts, hs', Option.bind_some, hss'], h'⟩
end

end Ctx

/-! ### The two fixpoints -/

namespace Module

variable {m : Module} {hostFree : Bool}

/-- The declarations of a module in another order. -/
structure Reordered (m' m : Module) : Prop where
  names : m'.names = m.names
  code : m'.code.Perm m.code
  items : m'.items.Perm m.items

namespace Reordered

variable {m' : Module} (h : Reordered m' m)

include h

theorem constInits : m'.constInits.Perm m.constInits := by
  have hitem : m'.itemConsts = m.itemConsts := by
    funext i
    unfold itemConsts
    rw [h.names]
  rw [Module.constInits, Module.constInits, hitem]
  exact h.items.flatMap_right _

theorem funcs : m'.funcs.Perm m.funcs := by
  have hassigned : m'.assignedNames.Perm m.assignedNames := by
    rw [assignedNames, assignedNames, h.names, assignedAll_eq, assignedAll_eq]
    exact (h.code.flatMap_right _).map _
  have hitem : m'.itemFuncs = m.itemFuncs := by
    funext i
    unfold itemFuncs
    simp only [h.names, hassigned.contains_eq]
  rw [Module.funcs, Module.funcs, hitem]
  exact h.items.flatMap_right _

end Reordered

end Module

end Brust.Compiler.PlainFn
