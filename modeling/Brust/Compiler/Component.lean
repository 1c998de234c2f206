import Brust.Compiler.Expr
import Brust.Compiler.Consts
import Mathlib.Algebra.GroupWithZero.Nat

/-!
# Compiler — A component's declarations

What the printers of `lower/` declare, each in its order: the precompute job, the build-evaluation
module, the client chunk and the template preamble.  A declaration is kept as its name, what its
initialiser reads as it is printed there, and whether it defers.
-/

namespace Brust.Compiler

variable {F : Type}

/-! ### The component -/

/-- The placement of a value. -/
inductive Placed (F : Type) where
  | raw (e : RawExpr F)
  | server (e : RawExpr F)
  | precomputed (slot : String)
  | clientOnly

/-- The expression of the structural snapshot, at its location. -/
structure Located (F : Type) where
  loc : ℕ
  expr : RawExpr F

structure PropDecl (F : Type) where
  name : String
  /-- What the component, and the job, binds it to. -/
  bound : String
  default : Option (RawExpr F)

structure StateDecl (F : Type) where
  name : String
  setter : Option String
  init : Placed F
  raw : Located F
  late : Bool

structure DerivedDecl (F : Type) where
  name : String
  expr : Placed F
  raw : Located F

structure RefDecl (F : Type) where
  name : String
  raw : Located F

structure HandlerDecl (F : Type) where
  name : String
  body : RawExpr F

/-- `ComponentIR`, with its structural snapshot. -/
structure ComponentIR (F : Type) where
  props : List (PropDecl F)
  states : List (StateDecl F)
  derived : List (DerivedDecl F)
  refs : List (RefDecl F)
  handlers : List (HandlerDecl F)
  idBindings : List String
  /-- The views `s` of stores that verbatim code reads, at their locations. -/
  views : List (ℕ × String)
  /-- The module's own functions. -/
  moduleFns : List String
  distinct : (props.map PropDecl.bound ++ states.map StateDecl.name ++
    derived.map DerivedDecl.name ++ refs.map RefDecl.name ++ handlers.map HandlerDecl.name ++
    idBindings ++ views.map Prod.snd).Nodup

def functionWhys : List String :=
  ["async arrow", "arrow parameter pattern", "function parameter pattern", "EFunction",
    "contains-jsx"]

def RawExpr.isFunctionRaw : RawExpr F → Bool
  | .arrow .. => true
  | .block .. => true
  | .opaqueJs _ why _ => functionWhys.contains why
  | _ => false

namespace ComponentIR

variable (ir : ComponentIR F)

def isModuleFn : RawExpr F → Bool
  | .ident name .localName => ir.moduleFns.contains name
  | _ => false

/-- `state_init`: React calls a lazy initialiser. -/
def stateInit (s : StateDecl F) : RawExpr F :=
  match s.raw.expr with
  | .arrow [] body _ => body
  | r => if r.isFunctionRaw || ir.isModuleFn r then .call r [] else r

def inits : List (RawExpr F) := ir.states.map ir.stateInit

def derivedRaw (n : String) : Option (RawExpr F) :=
  (ir.derived.find? (·.name = n)).map fun d => d.raw.expr

/-- `locals_in` -/
def localsIn (e : RawExpr F) : List String :=
  e.visitIdents.filterMap fun (n, k) => if k = .localName then some n else none

def isDerived (n : String) : Bool := ir.derived.any (·.name = n)

/-- The loop of `reach`: the stack, and what was seen. -/
def reachFrom : ℕ → List String → List String → List String
  | 0, _, seen => seen
  | _ + 1, [], seen => seen
  | f + 1, n :: stack, seen =>
    if !ir.isDerived n || seen.contains n then reachFrom f stack seen
    else reachFrom f (((ir.derivedRaw n).elim [] localsIn) ++ stack) (n :: seen)

/-- How many names the loop can push. -/
def pushes : ℕ := (ir.derived.map fun d => (localsIn d.raw.expr).length).sum

/-- `reach` -/
def reach (roots : List (RawExpr F)) : List String :=
  let stack := roots.flatMap localsIn
  ir.reachFrom (stack.length + ir.pushes + 1) stack []

def reached (names : List String) : List (DerivedDecl F) :=
  ir.derived.filter fun d => names.contains d.name

/-- `reads_of` -/
def readsOf (e : RawExpr F) (names : List String) : List String :=
  ((e.visitIdents.map Prod.fst).filter names.contains).dedup

/-! ### Names as they are printed -/

/-- The component's names that an expression's text reads, where `name` prints an identifier. -/
def codeIn (name : String → IdentKind → Option String) (e : RawExpr F) : List String :=
  e.visitIdents.filterMap fun (n, k) => name n k

def propLocal (n : String) : Option String :=
  (ir.props.find? (·.name = n)).map PropDecl.bound

def setterOf (n : String) : Option String :=
  (ir.states.find? (·.setter = some n)).map StateDecl.name

def stateName (n : String) : Option String :=
  if n ∈ ir.states.map StateDecl.name then some n else none

/-- Derived values, refs, handlers and `useId` values. -/
def locals : List String :=
  ir.derived.map DerivedDecl.name ++ ir.refs.map RefDecl.name ++
    ir.handlers.map HandlerDecl.name ++ ir.idBindings

def localName (n : String) : Option String := if n ∈ ir.locals then some n else none

def viewName (n : String) : Option String := if n ∈ ir.views.map Prod.snd then some n else none

/-- As the source reads them. -/
def sourceName (n : String) : IdentKind → Option String
  | .prop => ir.propLocal n
  | .setter => ir.setterOf n
  | .state => ir.stateName n
  | .localName => ir.localName n
  | .store _ none => ir.viewName n
  | _ => none

/-- `server_js`: props under their locals, stores off the props. -/
def jobName (n : String) : IdentKind → Option String
  | .prop => ir.propLocal n
  | .state => ir.stateName n
  | .localName => ir.localName n
  | _ => none

/-- `client_js`: a setter is `s.set`, props are read off the context. -/
def chunkName (n : String) : IdentKind → Option String
  | .setter => ir.setterOf n
  | .state => ir.stateName n
  | .localName => ir.localName n
  | .store _ none => ir.viewName n
  | _ => none

/-- The template's variables: states and derived values. -/
def templateName (n : String) : IdentKind → Option String
  | .state => ir.stateName n
  | .localName => if ir.isDerived n then some n else none
  | _ => none

/-! ### The source -/

/-- The declarations of the source, in no order. -/
def source : List Const :=
  ir.props.map (fun p => ⟨p.bound, p.default.elim [] (codeIn ir.sourceName), false⟩) ++
  ir.states.map (fun s => ⟨s.name, codeIn ir.sourceName (ir.stateInit s), false⟩) ++
  ir.derived.map (fun d =>
    ⟨d.name, codeIn ir.sourceName d.raw.expr, d.raw.expr.isFunctionRaw⟩) ++
  ir.refs.map (fun r => ⟨r.name, codeIn ir.sourceName r.raw.expr, false⟩) ++
  ir.handlers.map (fun h => ⟨h.name, codeIn ir.sourceName h.body, h.body.isFunctionRaw⟩) ++
  ir.idBindings.map (fun n => ⟨n, [], false⟩) ++
  ir.views.map fun v => ⟨v.2, [], false⟩

/-- In the source, in its own order, no read comes before what it reads is declared. -/
def InOrder (made : String → String → Prop) : Prop :=
  ∃ src : List Const, src.Perm ir.source ∧ Declared made src

/-! ### The precompute job -/

/-- A `const` of the job. -/
def jobDecl (names : List String) (n : String) (loc : ℕ) (e : RawExpr F) (defers : Bool) :
    Decl Const :=
  ⟨loc, n, readsOf e names, ⟨n, codeIn ir.jobName e, defers⟩⟩

/-- The derived values that are slots. -/
def slotConsts : List (DerivedDecl F) :=
  ir.derived.filter fun d =>
    match d.expr with
    | .precomputed _ => true
    | _ => false

/-- The derived values of the job: those that its expressions reach, and those that are slots. -/
def jobDerived (slots : List (RawExpr F)) : List (DerivedDecl F) :=
  ir.reached (ir.reach (slots ++ ir.inits ++ ir.slotConsts.map fun d => d.raw.expr) ++
    ir.slotConsts.map DerivedDecl.name)

def propsIn (e : RawExpr F) : List String :=
  e.visitIdents.filterMap fun (n, k) => if k = .prop then some n else none

/-- The props that the job's expressions read. -/
def readProps (slots : List (RawExpr F)) : List (PropDecl F) :=
  let exprs := slots ++ ir.inits ++ (ir.jobDerived slots).map fun d => d.raw.expr
  ir.props.filter fun p => (exprs.flatMap propsIn).contains p.name

/-- As the job destructures them: the whole object first, the others by name. -/
def jobProps (slots : List (RawExpr F)) : List (PropDecl F) :=
  (ir.readProps slots).filter (·.name = "*") ++
    ((ir.readProps slots).filter (·.name ≠ "*")).insertionSort fun p q => p.name ≤ q.name

def propConst (p : PropDecl F) : Const := ⟨p.bound, p.default.elim [] (codeIn ir.jobName), false⟩

/-- The declarations of `job`, for the expressions of its slots. -/
def job (slots : List (RawExpr F)) : Block where
  front := (ir.jobProps slots).map ir.propConst
  decls :=
    let derived := ir.jobDerived slots
    let names := ir.states.map StateDecl.name ++ derived.map DerivedDecl.name
    ir.states.map (fun s => ir.jobDecl names s.name s.raw.loc (ir.stateInit s) false) ++
      derived.map fun d => ir.jobDecl names d.name d.raw.loc d.raw.expr d.raw.expr.isFunctionRaw
  back := []

/-! ### The build-evaluation module -/

def evalConst (d : DerivedDecl F) : Const :=
  ⟨d.name, codeIn ir.jobName d.raw.expr, d.raw.expr.isFunctionRaw⟩

/-- The constants that the expressions of the chosen slots reach. -/
def evalDerived (chosen : List (RawExpr F)) : List (DerivedDecl F) := ir.reached (ir.reach chosen)

/-- The constants of `eval_module`: sorted by location only. -/
def evalModule (chosen : List (RawExpr F)) : List Const :=
  ((ir.evalDerived chosen).insertionSort fun a b => a.raw.loc ≤ b.raw.loc).map ir.evalConst

/-! ### The client chunk -/

/-- `handler_names` grows by the derived values that read one of them, until there is none. -/
def handlerNames : ℕ → List String → List String
  | 0, names => names
  | f + 1, names =>
    let more := (ir.derived.filter fun d =>
      !names.contains d.name && !(readsOf d.raw.expr names).isEmpty).map DerivedDecl.name
    if more = [] then names else handlerNames f (names ++ more)

def lateNames : List String :=
  ir.handlerNames (ir.derived.length + 1) (ir.handlers.map HandlerDecl.name)

/-- A ref that reads a handler starts empty, and is set after the handlers. -/
def isLate (r : RefDecl F) : Bool := !(readsOf r.raw.expr ir.lateNames).isEmpty

/-- The derived values of the chunk: those that its code reaches, and those that events name. -/
def chunkDerived (members : List (RawExpr F)) (events : List String) : List (DerivedDecl F) :=
  let roots := ir.inits ++ ir.handlers.map HandlerDecl.body ++
    ir.refs.map (fun r => r.raw.expr) ++ members
  ir.reached (ir.reach roots ++ events)

/-- The declarations before they are ordered, with all that their expressions read. -/
def chunkDecls (members : List (RawExpr F)) (events : List String) :
    List (ℕ × List String × Const) :=
  let all (e : RawExpr F) := e.visitIdents.map Prod.fst
  (ir.idBindings.map fun n => (0, [], ⟨n, [], false⟩)) ++
  (ir.states.map fun s => (s.raw.loc, all (ir.stateInit s),
    ⟨s.name, if s.late then [] else codeIn ir.chunkName (ir.stateInit s), false⟩)) ++
  (ir.refs.map fun r =>
    if ir.isLate r then (r.raw.loc, [], ⟨r.name, [], false⟩)
    else (r.raw.loc, all r.raw.expr, ⟨r.name, codeIn ir.chunkName r.raw.expr, false⟩)) ++
  ((ir.chunkDerived members events).map fun d =>
    (d.raw.loc, all d.raw.expr, ⟨d.name, codeIn ir.chunkName d.raw.expr, true⟩)) ++
  ir.views.map fun v => (v.1, [], ⟨v.2, [], false⟩)

/-- The declarations of `chunk_in`, for the expressions of its members and effects, and the handlers
that events name.  The handlers come after the rest. -/
def chunk (members : List (RawExpr F)) (events : List String) : Block where
  front := []
  decls :=
    let ds := ir.chunkDecls members events
    let names := ds.map fun d => d.2.2.name
    ds.map fun (loc, reads, c) => ⟨loc, c.name, (reads.filter names.contains).dedup, c⟩
  back := ir.handlers.map fun h => ⟨h.name, codeIn ir.chunkName h.body, true⟩

/-! ### The template preamble -/

def placedReads (names : List String) : Placed F → List String
  | .raw e => readsOf e names
  | .server e => readsOf e names
  | .precomputed _ => []
  | .clientOnly => []

/-- Only a `Server` value is printed as an expression of the template, and of that no function. -/
def printed : Placed F → Captures
  | .server e => e.directIdents
  | _ => []

def placedCode (p : Placed F) : List String :=
  (printed p).filterMap fun (n, k) => ir.templateName n k

/-- The derived values that have a template variable. -/
def placedDerived : List (DerivedDecl F) :=
  ir.derived.filter fun d =>
    match d.expr with
    | .server _ => true
    | .precomputed _ => true
    | _ => false

/-- The declarations of `preamble`. -/
def preamble : Block where
  front := []
  decls :=
    let names := ir.states.map StateDecl.name ++ ir.derived.map DerivedDecl.name
    ir.states.map (fun s =>
      ⟨s.raw.loc, s.name, placedReads names s.init, ⟨s.name, ir.placedCode s.init, false⟩⟩) ++
    ir.placedDerived.map fun d =>
      ⟨d.raw.loc, d.name, placedReads names d.expr, ⟨d.name, ir.placedCode d.expr, false⟩⟩
  back := []

end ComponentIR

/-- A component as `place` leaves it.  `fold` writes constants out, which read nothing, and drops
arms; and a value is printed only where `locals_placed` has placed what it reads. -/
structure PlacedIR (F : Type) extends ComponentIR F where
  state_reads : ∀ s ∈ states,
    ComponentIR.printed s.init ⊆ (toComponentIR.stateInit s).directIdents
  derived_reads : ∀ d ∈ derived, ComponentIR.printed d.expr ⊆ d.raw.expr.directIdents
  has_vars : ∀ p ∈ states.map StateDecl.init ++ derived.map DerivedDecl.expr,
    ∀ i ∈ ComponentIR.printed p, i.2 = .localName → toComponentIR.isDerived i.1 = true →
      i.1 ∈ toComponentIR.placedDerived.map DerivedDecl.name

end Brust.Compiler
