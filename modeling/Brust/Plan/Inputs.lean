import Brust.Plan.Node

/-!
# Plan — what a job is given

The paths, conditions and prop maps of a manifest, parsed once at boot, and their values in a
context: the inputs a job is sent, the props of an inlined child, the rows it repeats over.
minijinja compiles and evaluates a prop's expression, and blake3 hashes a job's inputs; both are
parameters here.
-/

namespace Brust.Plan

/-! ### Paths -/

inductive Seg where
  | key (k : String)
  | index (i : ℕ)
  | idx
  deriving DecidableEq

abbrev Path := List Seg

inductive PathError where
  /-- `input path {path:?}: empty segment`. -/
  | emptySegment (path : String)
  /-- `input path {path:?}: unexpected {rest:?} after ']'`. -/
  | unexpected (path rest : String)
  /-- `input path {path:?}: unclosed '['`. -/
  | unclosed (path : String)
  /-- `input path {path:?}: bad index {index:?}`. -/
  | badIndex (path index : String)

/-- `str::parse::<usize>`, which takes a leading `+`. -/
def parseUsize (s : List Char) : Option ℕ :=
  let digits := match s with
    | '+' :: rest => rest
    | _ => s
  if digits ≠ [] ∧ digits.all Char.isDigit then
    let n := digits.foldl (fun n d => 10 * n + (d.toNat - 0x30)) 0
    if n < 2 ^ 64 then some n else none
  else none

/-- The brackets that follow a segment's name: outside of a bracket, or inside of one that has
read so far. -/
def brackets (orig : String) : Option (List Char) → List Char → Except PathError (List Seg)
  | none, [] => pure []
  | none, c :: rest =>
    if c = '[' then brackets orig (some []) rest
    else throw (.unexpected orig (String.ofList (c :: rest)))
  | some _, [] => throw (.unclosed orig)
  | some inside, c :: rest =>
    if c = ']' then do
      let seg ← if inside = ['i', 'd', 'x'] then pure Seg.idx else
        match parseUsize inside with
        | some i => pure (Seg.index i)
        | none => throw (.badIndex orig (String.ofList inside))
      let segs ← brackets orig none rest
      pure (seg :: segs)
    else brackets orig (some (inside ++ [c])) rest

/-- One dotted part. -/
def pathPart (orig : String) (part : List Char) : Except PathError (List Seg) :=
  let head := part.takeWhile (· ≠ '[')
  if head = [] then throw (.emptySegment orig) else do
    let segs ← brackets orig none (part.dropWhile (· ≠ '['))
    pure (.key (String.ofList head) :: segs)

/-- The path without a leading `props.`. -/
def stripProps (s : List Char) : List Char :=
  match s with
  | 'p' :: 'r' :: 'o' :: 'p' :: 's' :: '.' :: rest => rest
  | _ => s

namespace Path

def parse (s : String) : Except PathError Path :=
  (((stripProps s.toList).splitOn '.').mapM (pathPart s)).map List.flatten

/-- One segment down; `[idx]` is the current row. -/
def step (idx : Option ℕ) (cur : Node) : Seg → Option Node
  | .key k => cur.get k
  | .index i => cur.index i
  | .idx => idx.bind fun i => cur.index i

/-- The value at the path, null if there is none. -/
def get (p : Path) (ctx : Node) (idx : Option ℕ) : Node :=
  p.foldl (fun cur seg => (step idx cur seg).getD .null) ctx

/-- The value at a path, if every step finds one. -/
def find (p : Path) (ctx : Node) (idx : Option ℕ) : Option Node := p.foldlM (step idx) ctx

/-- Everything but the last segment resolves. -/
def parentExists (p : Path) (ctx : Node) (idx : Option ℕ) : Bool :=
  p.dropLast = [] || (find p.dropLast ctx idx).isSome

/-- The path names the row it is read in. -/
def hasIdx (p : Path) : Bool := Seg.idx ∈ p

end Path

/-! ### Conditions -/

/-- `RowGuard`, over paths as texts or parsed. -/
inductive Guard (P : Type) where
  | truthy (p : P)
  | eq (p : P) (lit : Node)
  | not (g : Guard P)
  | all (gs : List (Guard P))
  | any (gs : List (Guard P))

/-- As the template sees it. -/
def jsTruthy : Node → Bool
  | .null => false
  | .bool b => b
  | .num n => n.asF64 != 0 && !n.asF64.isNaN
  | .str s => s ≠ ""
  | .arr _ => true
  | .map _ _ => true

def jsStrictEq : Node → Node → Bool
  | .num a, .num b => a.asF64 == b.asF64
  | .null, .null => true
  | .bool a, .bool b => a == b
  | .str a, .str b => a == b
  | _, _ => false

namespace Guard

mutual

/-- `Guard::new`. -/
def new : Guard String → Except PathError (Guard Path)
  | .truthy p => do pure (.truthy (← Path.parse p))
  | .eq p lit => do pure (.eq (← Path.parse p) lit)
  | .not g => do pure (.not (← new g))
  | .all gs => do pure (.all (← newAll gs))
  | .any gs => do pure (.any (← newAll gs))

def newAll : List (Guard String) → Except PathError (List (Guard Path))
  | [] => pure []
  | g :: gs => do
    let g ← new g
    let gs ← newAll gs
    pure (g :: gs)

end

mutual

def holds (ctx : Node) (idx : Option ℕ) : Guard Path → Bool
  | .truthy p => (p.find ctx idx).any jsTruthy
  | .eq p lit => (p.find ctx idx).any (jsStrictEq · lit)
  | .not g => !holds ctx idx g
  | .all gs => holdsAll ctx idx gs
  | .any gs => holdsAny ctx idx gs

/-- Every guard holds. -/
def holdsAll (ctx : Node) (idx : Option ℕ) : List (Guard Path) → Bool
  | [] => true
  | g :: gs => holds ctx idx g && holdsAll ctx idx gs

/-- Some guard holds. -/
def holdsAny (ctx : Node) (idx : Option ℕ) : List (Guard Path) → Bool
  | [] => false
  | g :: gs => holds ctx idx g || holdsAny ctx idx gs

end

end Guard

/-! ### Projections -/

/-- Why a request's jobs cannot be planned. -/
inductive PlanError where
  /-- `unknown component {id}`. -/
  | unknownComponent (id : String)
  /-- `input path {path:?}: [idx] outside a per-row instance`. -/
  | inputOutsideRow (path : String)
  /-- `child prop {name:?} = {src:?}: [idx] outside a per-row instance`. -/
  | propOutsideRow (name src : String)
  /-- `child prop {name:?} = {src:?}: {error}`. -/
  | expr (name src error : String)
  /-- An index out of bounds, or an `expect` that fails: the thread panics. -/
  | panics

def projKey : Seg → String
  | .key k => k
  | .index i => "[" ++ toString i ++ "]"
  | .idx => "[idx]"

structure Projection where
  /-- The paths that no other one covers, each with its keys. -/
  kept : List (Path × List String)
  firstIdx : Option String

/-- Another input is a prefix of this one, or the same one earlier. -/
def covered (paths : List Path) (i : ℕ) (p : Path) : Bool :=
  paths.zipIdx.any fun q =>
    q.2 ≠ i && (q.1.length ≤ p.length && q.1.isPrefixOf p && (q.1.length < p.length || q.2 < i))

def Projection.new (inputs : List String) : Except PathError Projection := do
  let paths ← inputs.mapM Path.parse
  pure
    { kept := (paths.zipIdx.filter fun p => !covered paths p.2 p.1).map fun p =>
        (p.1, p.1.map projKey)
      firstIdx := ((paths.zip inputs).find? fun p => p.1.hasIdx).map (·.2) }

/-- A value at its keys, under the objects on the way; no value leaves the last key unset. -/
def place (last : String) (value : Option Node) : List String → MapInner → Except PlanError MapInner
  | [], out => pure (match value with
    | some v => SortedMap.insert last v out
    | none => out)
  | k :: ks, out =>
    match (out.lookup k).getD (.map [] none) with
    | .map entries order => do
      let entries ← place last value ks entries
      pure (SortedMap.insert k (.map entries order) out)
    | _ => throw .panics

/-- One kept input in what is projected so far. -/
def Projection.input (ctx : Node) (idx : Option ℕ) (out : MapInner) (p : Path × List String) :
    Except PlanError MapInner :=
  let value := p.1.find ctx idx
  if value.isNone && !p.1.parentExists ctx idx then pure out
  else match p.2.getLast? with
    | some last => place last value p.2.dropLast out
    | none => throw .panics

/-- The inputs of a job as one object. -/
def Projection.eval (pr : Projection) (ctx : Node) (idx : Option ℕ) : Except PlanError Node :=
  match idx, pr.firstIdx with
  | none, some path => throw (.inputOutsideRow path)
  | _, _ => do
    let out ← pr.kept.foldlM (Projection.input ctx idx) []
    pure (.map out none)

/-! ### Props of a child -/

/-- The rows of a list: at a path, or written out. -/
inductive Rows where
  | path (p : Path)
  | literal (n : Node)

namespace Rows

def list (ctx : Node) : Rows → Node
  | .path p => p.get ctx none
  | .literal n => n

def count (r : Rows) (ctx : Node) : ℕ := (r.list ctx).rowCount

def row (r : Rows) (ctx : Node) (i : ℕ) : Node := ((r.list ctx).index i).getD .null

end Rows

/-- What planning calls outside of the repository.  minijinja, over the filters the renderer
registers: an expression compiles or not, and has a value in a scope, none if that is undefined.
serde_json: a text is read from a string or from bytes, which are the same for a string's bytes, and
a finite float is written by ryu.  blake3, as hex. -/
structure Crates (E : Type) where
  compile : String → Except String E
  eval : E → List (String × Node) → Except String (Option Node)
  fromStr : String → Option Json
  fromSlice : ByteArray → Option Json
  fromSlice_utf8 : ∀ s, fromSlice s.toUTF8 = fromStr s
  ryu : Float → String
  blake3 : List UInt8 → String

variable {E : Type}

/-- What a prop is bound to. -/
inductive Bound (E : Type) where
  | path (p : Path) (src : String)
  | lit (n : Node)
  | expr (e : E) (src : String)

structure PropsMap (E : Type) where
  props : List (String × Bound E)
  rows : Option Rows

/-- Why a manifest has no plan index. -/
inductive IndexError where
  | path (e : PathError)
  /-- `child prop {name:?} = {src:?}: {error}`. -/
  | expr (name src error : String)
  /-- `component {component} job {job}: {e}`. -/
  | job (component job : String) (e : PathError)
  /-- `component {component}: unknown child {child}`. -/
  | unknownChild (component child : String)
  /-- `component {component}: child {child} when: {e}`. -/
  | guard (component child : String) (e : PathError)

namespace PropsMap

/-- `PropsMap::child`: paths, literals and expressions. -/
def child (crates : Crates E) (props : List (String × String)) (literals : MapInner)
    (exprs : List (String × String)) (rows : Option Rows) : Except IndexError (PropsMap E) := do
  let paths ← props.mapM fun p => do
    let path ← (Path.parse p.2).mapError .path
    pure (p.1, Bound.path path p.2)
  let compiled ← exprs.mapM fun p => do
    let e ← (crates.compile p.2).mapError fun e => .expr p.1 p.2 e
    pure (p.1, Bound.expr e p.2)
  pure ⟨paths ++ literals.map (fun p => (p.1, .lit p.2)) ++ compiled, rows⟩

/-- `PropsMap::new`. -/
def new (crates : Crates E) (props : List (String × String)) : Except IndexError (PropsMap E) :=
  child crates props [] [] none

/-- What an expression reads. -/
def scope (m : PropsMap E) (ctx : Node) (idx : Option ℕ) : List (String × Node) :=
  ("__props", ctx) :: match m.rows, idx with
    | some list, some i => [("__row", list.row ctx i), ("__idx", .num (.posInt (UInt64.ofNat i)))]
    | _, _ => []

/-- One binding's value, none if the child does not get the prop. -/
def value (crates : Crates E) (m : PropsMap E) (ctx : Node) (idx : Option ℕ) (name : String) :
    Bound E → Except PlanError (Option Node)
  | .path p src => if idx.isNone && p.hasIdx then throw (.propOutsideRow name src)
    else pure (p.find ctx idx)
  | .lit n => pure (some n)
  | .expr e src => (crates.eval e (m.scope ctx idx)).mapError fun err => .expr name src err

def eval (crates : Crates E) (m : PropsMap E) (ctx : Node) (idx : Option ℕ) :
    Except PlanError Node := do
  let out ← m.props.foldlM (fun out p => do
    match ← m.value crates ctx idx p.1 p.2 with
    | some v => pure (SortedMap.insert p.1 v out)
    | none => pure out) []
  pure (.map out none)

end PropsMap

/-! ### Keys -/

/-- A `u32`, little-endian. -/
def leBytes (n : ℕ) : List UInt8 :=
  [UInt8.ofNat n, UInt8.ofNat (n / 2 ^ 8), UInt8.ofNat (n / 2 ^ 16), UInt8.ofNat (n / 2 ^ 24)]

def utf8 (s : String) : List UInt8 := s.toUTF8.data.toList

/-- `canonical`: the sorted text. -/
def canonical (crates : Crates E) (v : Node) : String := String.ofList (v.text crates.ryu false)

/-- The text of a job's inputs, its objects in the order the loader's text had. -/
def orderedText (crates : Crates E) (v : Node) : String := String.ofList (v.text crates.ryu true)

/-- `job_key`: the hash of the component, the job and the inputs, each after its length. -/
def jobKey (crates : Crates E) (cid jid : String) (inputs : Node) : String :=
  crates.blake3 ([cid, jid, orderedText crates inputs].flatMap fun field =>
    leBytes (utf8 field).length ++ utf8 field)

end Brust.Plan
