import Mathlib.Data.List.Sort
import Mathlib.Logic.Function.Basic

/-!
# Reactive — Signals, computeds and effects

`signal.ts`: signals push marks to their subscribers, computeds pull when they are read, effects
run in a flush.  The function of a computed is the tree of what it reads; where one returns after a
read of it threw, that is kept as `caught`, for the statements about it.
-/

namespace Brust.Reactive

inductive Node where
  | sig (i : ℕ)
  | comp (c : ℕ)
deriving DecidableEq

/-- A subscriber. -/
inductive Sub where
  | comp (c : ℕ)
  | eff (e : ℕ)
deriving DecidableEq

/-- What the `c`-th computed may read: signals, and computeds before it. -/
inductive Source (c : ℕ) where
  | sig (i : ℕ)
  | comp (j : Fin c)

def Source.node {c : ℕ} : Source c → Node
  | .sig i => .sig i
  | .comp j => .comp j

/-- The function of the `c`-th computed: it returns, throws, or reads and goes on from the value, or
from `none` where it catches what the read throws. -/
inductive Body (V : Type) (c : ℕ) where
  | ret (v : V)
  | throw
  | read (n : Source c) (k : Option V → Body V c)

/-- The functions of the computeds, of which each reads those before it only. -/
abbrev Graph (V : Type) := (c : ℕ) → Body V c

/-- The signals' values; the computeds' values and whether they are dirty; who subscribed to what;
the effects' tiers in the order of their ids; and the context.  `caught` are the computeds that
returned after a read of theirs threw. -/
structure State (V : Type) where
  sig : ℕ → V
  value : ℕ → Option V
  dirty : ℕ → Bool
  subs : Node → List Sub
  deps : Sub → List Node
  tiers : List ℕ
  disposed : ℕ → Bool
  pending : List ℕ
  batchDepth : ℕ
  caught : List ℕ

/-- `Set.prototype.add` -/
def add {α : Type} [DecidableEq α] (x : α) (xs : List α) : List α :=
  if x ∈ xs then xs else xs ++ [x]

namespace State

variable {V : Type}

/-- `track` -/
def track (σ : State V) (cur : Option Sub) (n : Node) : State V :=
  match cur with
  | none => σ
  | some s =>
    { σ with
      subs := Function.update σ.subs n (add s (σ.subs n))
      deps := Function.update σ.deps s (add n (σ.deps s)) }

/-- `for (const d of deps) d.subs.delete(s); deps.clear()` -/
def unsubscribe (σ : State V) (s : Sub) : State V :=
  { σ with
    subs := fun n => if n ∈ σ.deps s then (σ.subs n).filter (· ≠ s) else σ.subs n
    deps := Function.update σ.deps s [] }

/-- `EffectImpl.dispose`, before the cleanup. -/
def dispose (σ : State V) (e : ℕ) : State V :=
  if σ.disposed e then σ
  else
    { σ.unsubscribe (.eff e) with
      disposed := Function.update σ.disposed e true
      pending := σ.pending.filter (· ≠ e) }

end State

/-! ### Reading -/

section Reading

variable {V : Type}

/-- A read under `cur`, a computed read by `rd`. -/
def readWith (rd : ℕ → State V → State V × Option V) (cur : Option Sub) (n : Node) (σ : State V) :
    State V × Option V :=
  match n with
  | .sig i => (σ.track cur n, some (σ.sig i))
  | .comp c => rd c (σ.track cur n)

/-- `slipped` once a read threw. -/
def execBody (rd : ℕ → State V → State V × Option V) (c : ℕ) :
    Bool → Body V c → State V → State V × Option V
  | slipped, .ret v, σ => (if slipped then { σ with caught := c :: σ.caught } else σ, some v)
  | _, .throw, σ => (σ, none)
  | slipped, .read n k, σ =>
    match readWith rd (some (.comp c)) n.node σ with
    | (σ, v) => execBody rd c (slipped || v.isNone) (k v) σ

/-- `recompute`: a function that throws leaves the computed dirty. -/
def recompute (g : Graph V) (rd : ℕ → State V → State V × Option V) (c : ℕ) (σ : State V) :
    State V × Option V :=
  match execBody rd c false (g c) (σ.unsubscribe (.comp c)) with
  | (σ, some v) =>
    ({ σ with
        value := Function.update σ.value c (some v)
        dirty := Function.update σ.dirty c false },
      some v)
  | (σ, none) => (σ, none)

/-- A computed below `n` is read: recomputed if it is dirty. -/
def pull (g : Graph V) : ℕ → ℕ → State V → State V × Option V
  | 0, _, σ => (σ, none)
  | n + 1, c, σ => if σ.dirty c then recompute g (pull g n) c σ else (σ, σ.value c)

/-- A node is read under `cur`; `none` is a throw. -/
def readNode (g : Graph V) (cur : Option Sub) (n : Node) (σ : State V) : State V × Option V :=
  readWith (fun c => pull g (c + 1) c) cur n σ

end Reading

/-! ### Writing -/

section Writing

variable {V : Type}

/-- `notify` -/
def notify : ℕ → Node → State V → Option (State V)
  | 0, _, _ => none
  | f + 1, n, σ =>
    (σ.subs n).foldlM (fun (σ : State V) s =>
      match s with
      | .comp c =>
        if σ.dirty c then some σ
        else notify f (.comp c) { σ with dirty := Function.update σ.dirty c true }
      | .eff e => some { σ with pending := add e σ.pending }) σ

def tierOf (σ : State V) (e : ℕ) : ℕ := σ.tiers[e]?.getD 0

/-- The pending effects of the lowest tier: bindings in notify order, others by their ids. -/
def nextRun (σ : State V) : List ℕ :=
  let t := (σ.pending.map (tierOf σ)).foldl min (tierOf σ (σ.pending.headD 0))
  let run := σ.pending.filter fun e => tierOf σ e = t
  if t = 0 then run else run.insertionSort (· ≤ ·)

end Writing

/-- Nothing was read yet. -/
def start {V : Type} (sig : ℕ → V) : State V where
  sig := sig
  value _ := none
  dirty _ := true
  subs _ := []
  deps _ := []
  tiers := []
  disposed _ := false
  pending := []
  batchDepth := 0
  caught := []

end Brust.Reactive
