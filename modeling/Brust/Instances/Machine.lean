import Mathlib.Algebra.BigOperators.Group.Finset.Basic
import Mathlib.Logic.Function.Basic

/-!
# Instances — Effects, captures and disposal

`signal.ts`'s effects, `instance.ts` and the binders of `x-if` and `x-for`, by who calls whom: a
stack of the calls under way, what the one on top does next, and how a call that returned or threw
goes on (`State.step`).  The code of components is whatever it chooses to do: it runs and disposes
effects, registers, binds, disposes instances, returns and throws, at any point where the library
calls it.  A flush is such code; which effects it runs is not looked into.

The arrays that `capture` makes are kept by value: one is pushed to only while it is the instance's
`sink`, and taken only by the disposer that `capture` returned.
-/

namespace Brust.Instances

/-- A function that an instance or a captured part calls when it goes: an effect's disposer, one
given to `onCleanup`, and a directive's own. -/
inductive Fn
  | effect (e : ℕ)
  | cleanup (c : ℕ)
  | remove (p : ℕ)
deriving DecidableEq

/-- The function of an effect: a component's, or that of a directive. -/
inductive Body
  | user
  | part (p : ℕ)
deriving DecidableEq

/-- `EffectImpl` -/
structure Effect where
  body : Body
  disposed : Bool
  cleanup : Option ℕ

/-- Where an instance's `dispose` is: `this.disposed` is set in all but the first. -/
inductive Phase
  | live
  | children
  | disposers
  | over
deriving DecidableEq

/-- `Instance` -/
structure Inst where
  parent : Option ℕ
  children : List ℕ
  disposers : List Fn
  cleanups : List Fn
  sink : Option (List Fn)
  phase : Phase

/-- What a directive keeps: an `x-if` its `drop` and whether there is a `current` element, an
`x-for` its `rows` and their `order`. -/
inductive Kind
  | branch (drop : ℕ) (current : Bool)
  | rows (rows order : List ℕ)
deriving DecidableEq

structure Part where
  inst : ℕ
  kind : Kind

/-- What the disposer of a branch or of a row will call. -/
structure Slot where
  inst : ℕ
  part : ℕ
  own : List Fn

/-- A call under way. -/
inductive Frame
  /-- A component's code. -/
  | user
  /-- `run`, in the cleanup of the run before. -/
  | rerun (e : ℕ)
  /-- `run`, in `fn`. -/
  | body (e : ℕ)
  /-- `effect`, in the first run. -/
  | first (e : ℕ)
  /-- `effect`, disposing after a first run that threw. -/
  | rethrow
  /-- `Instance.effect` -/
  | owner (i e : ℕ)
  /-- `Instance.dispose`, with the children left to dispose. -/
  | children (i : ℕ) (rest : List ℕ)
  /-- `Instance.dispose`, with the disposers left to call. -/
  | disposers (i : ℕ) (rest : List Fn)
  /-- `runCleanups` -/
  | cleanups (i : ℕ) (rest : List Fn)
  /-- `capture`, with the sink of before; of a row with the rows before it. -/
  | capture (i p s : ℕ) (prev : Option (List Fn)) (next : Option (List ℕ))
  /-- The effect of an `x-if`, before it knows. -/
  | branch (p : ℕ)
  /-- The effect of an `x-for`, with the rows so far. -/
  | rows (p : ℕ) (next : List ℕ)
  /-- The end of either: refs are attached, nested hosts mounted. -/
  | tail
  /-- Rows or a branch to drop; then the rows to put in their place. -/
  | drops (p : ℕ) (rest : List ℕ) (next : Option (List ℕ))
  | dropping (p s : ℕ) (rest : List ℕ) (next : Option (List ℕ))
  /-- The binder of an `x-if` or an `x-for`, in `inst.effect`. -/
  | binder (i p : ℕ)
deriving DecidableEq

/-- The call on top goes on, it returned (its value is a cleanup), or it threw. -/
inductive Ctrl
  | run
  | ret (cleanup : Bool)
  | throw
deriving DecidableEq

/-- What is recorded of the instances. -/
inductive Event
  | registered (i : ℕ) (fn : Fn)
  | called (i : ℕ) (fn : Fn)
  | started (e : ℕ)
  | returned (e c : ℕ)
  | executed (e c : ℕ)
  | disposed (e : ℕ)
deriving DecidableEq

/-- What has no number yet is as new ones are. -/
structure State where
  ctrl : Ctrl
  stack : List Frame
  effects : ℕ → Effect
  insts : ℕ → Inst
  parts : ℕ → Part
  slots : ℕ → Slot
  nEffects : ℕ
  nCleanups : ℕ
  nInsts : ℕ
  nParts : ℕ
  nSlots : ℕ
  log : List Event

/-- What the call on top does. -/
inductive Act
  /-- An event's handler is called. -/
  | enter
  | run (e : ℕ)
  | dispose (e : ℕ)
  | effect (owner : Option ℕ)
  | bind (i : ℕ) (isRows : Bool)
  | onCleanup (i : ℕ)
  | mount (parent : Option ℕ)
  | disposeInst (i : ℕ)
  | ret (cleanup : Bool)
  | throw
  /-- A directive calls a component's code. -/
  | call
  /-- An `x-if` knows whether it wants its branch. -/
  | want (b : Bool)
  /-- An `x-for` has an item of a row that there is, or of a new one. -/
  | reuse (s : ℕ)
  | row (host : Bool)
  /-- An `x-for` has its items. -/
  | finish
  | leave
  /-- The call under it goes on. -/
  | resume
deriving DecidableEq

/-- The rows, or the branch, that a directive's `remove` drops. -/
def Kind.dropped : Kind → List ℕ
  | .branch drop _ => [drop]
  | .rows _ order => order

/-- Those that a directive still has. -/
def Kind.kept : Kind → List ℕ
  | .branch drop _ => [drop]
  | .rows now _ => now

namespace State

/-- Nothing is mounted. -/
def init : State where
  ctrl := .run
  stack := []
  effects _ := ⟨.user, false, none⟩
  insts _ := ⟨none, [], [], [], none, .live⟩
  parts _ := ⟨0, .rows [] []⟩
  slots _ := ⟨0, 0, []⟩
  nEffects := 0
  nCleanups := 0
  nInsts := 0
  nParts := 0
  nSlots := 0
  log := []

variable (σ : State)

def push (f : Frame) (ctrl : Ctrl) : State := { σ with stack := f :: σ.stack, ctrl }

def ret : State := { σ with ctrl := .ret false }

/-- What runs throws. -/
def fail : State := { σ with ctrl := .throw }

def setEffect (e : ℕ) (x : Effect) : State := { σ with effects := Function.update σ.effects e x }

def setInst (i : ℕ) (x : Inst) : State := { σ with insts := Function.update σ.insts i x }

def setKind (p : ℕ) (k : Kind) : State :=
  { σ with parts := Function.update σ.parts p { σ.parts p with kind := k } }

def setOwn (s : ℕ) (own : List Fn) : State :=
  { σ with slots := Function.update σ.slots s { σ.slots s with own } }

def emit (ev : Event) : State := { σ with log := ev :: σ.log }

theorem setEffect_self (e : ℕ) (x : Effect) : (σ.setEffect e x).effects e = x :=
  Function.update_self ..

theorem setEffect_of_ne {e e' : ℕ} (h : e' ≠ e) (x : Effect) :
    (σ.setEffect e x).effects e' = σ.effects e' :=
  Function.update_of_ne h ..

theorem setInst_self (i : ℕ) (x : Inst) : (σ.setInst i x).insts i = x :=
  Function.update_self ..

theorem setInst_of_ne {i i' : ℕ} (h : i' ≠ i) (x : Inst) :
    (σ.setInst i x).insts i' = σ.insts i' :=
  Function.update_of_ne h ..

theorem setOwn_self (s : ℕ) (own : List Fn) :
    (σ.setOwn s own).slots s = { σ.slots s with own } :=
  Function.update_self ..

theorem setOwn_of_ne {s s' : ℕ} (h : s' ≠ s) (own : List Fn) :
    (σ.setOwn s own).slots s' = σ.slots s' :=
  Function.update_of_ne h ..

/-! ### Effects -/

/-- `run`, from where it calls `fn`. -/
def start (e : ℕ) : State :=
  let σ := (σ.emit (.started e)).push (.body e) .run
  match (σ.effects e).body with
  | .user => σ.push .user .run
  | .part p =>
    match (σ.parts p).kind with
    | .branch .. => σ.push (.branch p) .run
    | .rows .. => σ.push (.rows p []) .run

/-- `EffectImpl.run` -/
def runEffect (e : ℕ) : State :=
  if (σ.effects e).disposed then σ.ret
  else match (σ.effects e).cleanup with
    | some c =>
      (((σ.setEffect e { σ.effects e with cleanup := none }).emit (.executed e c)).push (.rerun e)
        .run).push .user .run
    | none => σ.start e

/-- `EffectImpl.dispose` -/
def disposeEffect (e : ℕ) : State :=
  if (σ.effects e).disposed then σ.ret
  else
    let gone := σ.setEffect e { σ.effects e with disposed := true, cleanup := none }
    match (σ.effects e).cleanup with
    | some c => ((gone.emit (.executed e c)).emit (.disposed e)).push .user .run
    | none => (gone.emit (.disposed e)).ret

/-- `effect` -/
def effect (body : Body) : State :=
  ({ σ with
    effects := Function.update σ.effects σ.nEffects { σ.effects σ.nEffects with body }
    nEffects := σ.nEffects + 1 }.push (.first σ.nEffects) .run).runEffect σ.nEffects

/-- `this.cleanup = this.fn()` -/
def setCleanup (e : ℕ) (cleanup : Bool) : State :=
  if cleanup then
    ({ σ with nCleanups := σ.nCleanups + 1 }.setEffect e
      { σ.effects e with cleanup := some σ.nCleanups }).emit (.returned e σ.nCleanups) |>.ret
  else (σ.setEffect e { σ.effects e with cleanup := none }).ret

/-! ### Instances -/

/-- `(this.sink ?? list).push(fn)` -/
def register (i : ℕ) (fn : Fn) : State :=
  let x := σ.insts i
  let x := match x.sink, fn with
    | some own, fn => { x with sink := some (own ++ [fn]) }
    | none, .effect e => { x with disposers := x.disposers ++ [.effect e] }
    | none, fn => { x with cleanups := x.cleanups ++ [fn] }
  ((σ.setInst i x).emit (.registered i fn)).ret

/-- `Instance.effect` -/
def instEffect (i : ℕ) (body : Body) : State := (σ.push (.owner i σ.nEffects) .run).effect body

def call (i : ℕ) (fn : Fn) : State :=
  let σ := σ.emit (.called i fn)
  match fn with
  | .effect e => σ.disposeEffect e
  | .cleanup _ => σ.push .user .run
  | .remove p => σ.push (.drops p (σ.parts p).kind.dropped none) (.ret false)

/-- `Instance.dispose` -/
def disposeInst (i : ℕ) : State :=
  if (σ.insts i).phase = .live then
    (σ.setInst i { σ.insts i with phase := .children }).push (.children i (σ.insts i).children)
      (.ret false)
  else σ.ret

def forgetChild (i : ℕ) : State :=
  match (σ.insts i).parent with
  | some q => σ.setInst q { σ.insts q with children := (σ.insts q).children.erase i }
  | none => σ

/-- `new Instance` -/
def mount (parent : Option ℕ) : State :=
  let σ' := { σ with
    insts := Function.update σ.insts σ.nInsts { σ.insts σ.nInsts with parent }
    nInsts := σ.nInsts + 1 }
  match parent with
  | some q => σ'.setInst q { σ'.insts q with children := (σ'.insts q).children ++ [σ.nInsts] }
  | none => σ'

/-! ### Directives -/

/-- A branch or a row is being bound. -/
def capture (p s : ℕ) (next : Option (List ℕ)) : State :=
  let i := (σ.parts p).inst
  ((σ.setInst i { σ.insts i with sink := some [] }).push
    (.capture i p s (σ.insts i).sink next) .run).push .user .run

/-- One more slot, of a part. -/
def newSlot (p : ℕ) : State :=
  { σ with
    slots := Function.update σ.slots σ.nSlots
      { σ.slots σ.nSlots with inst := (σ.parts p).inst, part := p }
    nSlots := σ.nSlots + 1 }

def newPart (i : ℕ) (isRows : Bool) : State :=
  let kind : Kind := if isRows then .rows [] [] else .branch σ.nSlots false
  let σ' := { σ with
    parts := Function.update σ.parts σ.nParts ⟨i, kind⟩
    nParts := σ.nParts + 1 }
  if isRows then σ' else σ'.newSlot σ.nParts

/-- The binder of an `x-if` or of an `x-for`. -/
def bind (i : ℕ) (isRows : Bool) : State :=
  ((σ.newPart i isRows).push (.binder i σ.nParts) .run).instEffect i (.part σ.nParts)

/-! ### Going on -/

/-- The call under way goes on after one that returned. -/
def returned (cleanup : Bool) : Frame → State
  | .user => σ.push .user .run
  | .branch p => σ.push (.branch p) .run
  | .rows p next => σ.push (.rows p next) .run
  | .tail => σ.push .tail .run
  | .rerun e => σ.start e
  | .body e => σ.setCleanup e cleanup
  | .first _ => σ.ret
  | .rethrow => σ.fail
  | .owner i e => σ.register i (.effect e)
  | .children i (c :: rest) => (σ.push (.children i rest) .run).disposeInst c
  | .children i [] =>
    let σ := σ.forgetChild i
    (σ.setInst i { σ.insts i with disposers := [], phase := .disposers }).push
      (.disposers i (σ.insts i).disposers) (.ret false)
  | .disposers i (fn :: rest) => (σ.push (.disposers i rest) .run).call i fn
  | .disposers i [] =>
    (σ.setInst i { σ.insts i with cleanups := [], phase := .over }).push
      (.cleanups i (σ.insts i).cleanups) (.ret false)
  | .cleanups i (fn :: rest) => (σ.push (.cleanups i rest) .run).call i fn
  | .cleanups _ [] => σ.ret
  | .capture i p s prev next =>
    let own := (σ.insts i).sink.getD []
    let σ := (σ.setInst i { σ.insts i with sink := prev }).setOwn s own
    match next with
    | some next => σ.push (.rows p (next ++ [s])) .run
    | none => σ.push .tail .run
  | .drops p (s :: rest) next =>
    ((σ.setOwn s []).push (.dropping p s rest next) .run).push
      (.cleanups (σ.slots s).inst (σ.slots s).own) (.ret false)
  | .drops p [] (some next) => (σ.setKind p (.rows next next)).push .tail .run
  | .drops p [] none =>
    match (σ.parts p).kind with
    | .branch drop _ => (σ.setKind p (.branch drop false)).ret
    | .rows .. => σ.ret
  | .dropping p s rest next => (σ.setOwn s []).push (.drops p rest next) (.ret false)
  | .binder i p => σ.register i (.remove p)

/-- The call under way goes on after one that threw. -/
def threw : Frame → State
  | .user => σ.push .user .run
  | .first e => (σ.push .rethrow .run).disposeEffect e
  | .children i _ | .disposers i _ => (σ.setInst i { σ.insts i with phase := .over }).fail
  | .capture i _ _ prev _ => (σ.setInst i { σ.insts i with sink := prev }).fail
  -- `runCleanups` logs what its functions throw, so it returns
  | .cleanups i rest => σ.returned false (.cleanups i rest)
  | .drops p rest next => σ.returned false (.drops p rest next)
  | .dropping p s rest next => σ.returned false (.dropping p s rest next)
  | _ => σ.fail

/-- The call on top does something; the stack is what is under it. -/
def act : Frame → Act → Option State
  | .user, .run e => if e < σ.nEffects then some ((σ.push .user .run).runEffect e) else none
  | .user, .dispose e => if e < σ.nEffects then some ((σ.push .user .run).disposeEffect e) else none
  | .user, .effect none => some ((σ.push .user .run).effect .user)
  | .user, .effect (some i) =>
    if i < σ.nInsts then some ((σ.push .user .run).instEffect i .user) else none
  | .user, .bind i isRows => if i < σ.nInsts then some ((σ.push .user .run).bind i isRows) else none
  | .user, .onCleanup i =>
    if i < σ.nInsts then
      some (({ σ with nCleanups := σ.nCleanups + 1 }.push .user .run).register i
        (.cleanup σ.nCleanups))
    else none
  | .user, .mount parent =>
    if parent.all (· < σ.nInsts) then some ((σ.push .user .run).mount parent) else none
  | .user, .disposeInst i =>
    if i < σ.nInsts then some ((σ.push .user .run).disposeInst i) else none
  | .user, .ret cleanup => some { σ with ctrl := .ret cleanup }
  | .user, .throw => some σ.fail
  | .branch p, .call => some ((σ.push (.branch p) .run).push .user .run)
  | .branch _, .leave => some σ.ret
  | .branch p, .want b =>
    match (σ.parts p).kind, b with
    | .branch drop false, true => some ((σ.setKind p (.branch drop true)).capture p drop none)
    | .branch drop true, false => some (σ.push (.drops p [drop] none) (.ret false))
    | .branch .., _ => some σ.ret
    | .rows .., _ => none
  | .rows p next, .call => some ((σ.push (.rows p next) .run).push .user .run)
  | .rows _ [], .leave => some σ.ret
  | .rows p next, .reuse s =>
    match (σ.parts p).kind with
    | .rows rows order =>
      if s ∈ rows then
        some ((σ.setKind p (.rows (rows.erase s) order)).push (.rows p (next ++ [s])) .run)
      else none
    | .branch .. => none
  | .rows p next, .row host =>
    if host then some ((σ.newSlot p).push (.rows p (next ++ [σ.nSlots])) .run)
    else some ((σ.newSlot p).capture p σ.nSlots (some next))
  | .rows p next, .finish => some (σ.push (.drops p (σ.parts p).kind.kept (some next)) (.ret false))
  | .tail, .call => some ((σ.push .tail .run).push .user .run)
  | .tail, .leave => some σ.ret
  | _, _ => none

/-- One step of the machine. -/
def step (a : Act) : Option State :=
  match σ.stack, σ.ctrl, a with
  | [], _, .enter => some (σ.push .user .run)
  | [], _, _ => none
  | f :: st, .run, a => { σ with stack := st }.act f a
  | f :: st, .ret cleanup, .resume => some ({ σ with stack := st }.returned cleanup f)
  | f :: st, .throw, .resume => some ({ σ with stack := st }.threw f)
  | _, _, _ => none

def run : State → List Act → Option State
  | σ, [] => some σ
  | σ, a :: as => (σ.step a).bind fun σ' => σ'.run as

/-! ### Where something is lost -/

variable (σ : State)

/-- The `x-for` is at its stale rows. -/
def Stale (p : ℕ) : Frame → Prop
  | .drops q _ (some _) | .dropping q _ _ (some _) => q = p
  | _ => False

instance (p : ℕ) : DecidablePred (Stale p)
  | .drops _ _ (some _) | .dropping _ _ _ (some _) => inferInstanceAs (Decidable (_ = _))
  | .drops _ _ none | .dropping _ _ _ none => inferInstanceAs (Decidable False)
  | .user | .rerun _ | .body _ | .first _ | .rethrow | .owner .. | .children .. | .disposers ..
  | .cleanups .. | .capture .. | .branch _ | .rows .. | .tail | .binder .. =>
    inferInstanceAs (Decidable False)

def Quiet (p : ℕ) : Prop := ∀ f ∈ σ.stack, ¬ Stale p f

/-- What an instance has to call can still be added to. -/
def TakesEffect (i : ℕ) : Prop :=
  (σ.insts i).sink ≠ none ∨ (σ.insts i).phase = .live ∨ (σ.insts i).phase = .children

def TakesCleanup (i : ℕ) : Prop := (σ.insts i).sink ≠ none ∨ (σ.insts i).phase ≠ .over

def Empty (slots : List ℕ) : Prop := ∀ s ∈ slots, (σ.slots s).own = []

/-- The `remove` of a directive is, or will be, registered, and was not called. -/
def Promised (st : List Frame) (p : ℕ) : Prop :=
  (.binder (σ.parts p).inst p ∈ st ∨ .registered (σ.parts p).inst (.remove p) ∈ σ.log) ∧
    .called (σ.parts p).inst (.remove p) ∉ σ.log

/-- The call under way can go on after one that returned: a run of an effect neither starts nor
stores a cleanup over one that is stored, or where the effect is disposed; an instance that has
called its disposers gets no other; what a branch or a row bound has a directive to drop it. -/
def ReturnsWell (cleanup : Bool) : Frame → Prop
  | .rerun e => (σ.effects e).disposed = false ∧ (σ.effects e).cleanup = none
  | .body e => (σ.effects e).cleanup = none ∧ (cleanup = true → (σ.effects e).disposed = false)
  | .owner i _ => σ.TakesEffect i
  | .binder i _ => σ.TakesCleanup i
  | .capture i p s _ none => (σ.slots s).own = [] ∧
    ((σ.insts i).sink.getD [] = [] ∨ σ.Promised σ.stack p)
  | .capture _ p s _ (some _) => (σ.slots s).own = [] ∧ σ.Quiet p
  | .drops p [] (some next) => σ.Promised σ.stack p ∨ σ.Empty next
  | .dropping _ s _ _ => (σ.slots s).own = []
  | _ => True

/-- The call under way can be left by a throw: an instance's `dispose` with nothing left to call, a
capture with nothing bound, a directive with nothing that it could not drop. -/
def ThrowsWell : Frame → Prop
  | .children i _ => (σ.insts i).disposers = [] ∧ (σ.insts i).cleanups = []
  | .disposers i rest => rest = [] ∧ (σ.insts i).cleanups = []
  | .capture i _ _ _ next => (σ.insts i).sink.getD [] = [] ∧ σ.Empty (next.getD [])
  | .rows _ next => σ.Empty next
  | .binder _ p => σ.Empty (σ.parts p).kind.kept
  | .drops p rest next => σ.ReturnsWell false (.drops p rest next)
  | .dropping p s rest next => σ.ReturnsWell false (.dropping p s rest next)
  | _ => True

/-- A cleanup is registered where it will be called, and a run inside an `x-for`'s removal of stale
rows leaves the rows alone. -/
def ActsWell : Frame → Act → Prop
  | .user, .onCleanup i => σ.TakesCleanup i
  | .rows p _, .reuse _ | .rows p _, .row _ | .rows p _, .finish => σ.Quiet p
  | _, _ => True

/-- Nothing is lost by the step. -/
def Well (a : Act) : Prop :=
  match σ.stack, σ.ctrl with
  | [], _ => True
  | f :: st, .run => { σ with stack := st }.ActsWell f a
  | f :: st, .ret cleanup => { σ with stack := st }.ReturnsWell cleanup f
  | f :: st, .throw => { σ with stack := st }.ThrowsWell f

/-- Nothing is lost by the steps of a run. -/
def Wells : State → List Act → Prop
  | _, [] => True
  | σ, a :: as => σ.Well a ∧ ∀ σ' ∈ σ.step a, σ'.Wells as

/-- The call on top, taken from the stack, acts or goes on. -/
inductive Goes (σ : State) (f : Frame) (σ' : State) : Prop
  | act (a : Act) (well : σ.ActsWell f a) (h : σ.act f a = some σ')
  | returned (cleanup : Bool) (well : σ.ReturnsWell cleanup f) (h : σ' = σ.returned cleanup f)
  | threw (well : σ.ThrowsWell f) (h : σ' = σ.threw f)

/-- **What a step can do.** -/
theorem step_cases {σ σ' : State} {a : Act} (hwell : σ.Well a) (hstep : σ.step a = some σ') :
    (σ.stack = [] ∧ σ' = σ.push .user .run) ∨
      ∃ f st, σ.stack = f :: st ∧ Goes { σ with stack := st } f σ' := by
  unfold step at hstep
  unfold Well at hwell
  split at hstep
  · next hstack =>
    cases hstep
    exact .inl ⟨hstack, rfl⟩
  · cases hstep
  · next f st hstack hctrl =>
    rw [hstack, hctrl] at hwell
    exact .inr ⟨f, st, hstack, .act _ hwell hstep⟩
  · next f st cleanup hstack hctrl =>
    rw [hstack, hctrl] at hwell
    cases hstep
    exact .inr ⟨f, st, hstack, .returned cleanup hwell rfl⟩
  · next f st hstack hctrl =>
    rw [hstack, hctrl] at hwell
    cases hstep
    exact .inr ⟨f, st, hstack, .threw hwell rfl⟩
  · cases hstep

/-- **What every step keeps, a run keeps.** -/
theorem run_induction {P : State → Prop} (hstep : ∀ σ σ' a, P σ → σ.Well a →
    σ.step a = some σ' → P σ') {σ σ' : State} {as : List Act} (h : P σ) (hwell : σ.Wells as)
    (hrun : σ.run as = some σ') : P σ' := by
  induction as generalizing σ with
  | nil =>
      cases hrun
      exact h
  | cons a as ih =>
      obtain ⟨σ₁, hone, hrest⟩ := Option.bind_eq_some_iff.mp hrun
      exact ih (hstep σ σ₁ a h hwell.1 hone) (hwell.2 σ₁ hone) hrest

end State

end Brust.Instances
