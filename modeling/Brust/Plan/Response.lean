import Brust.Plan.Node

/-!
# Plan — the loader's response

What `LoaderVisitor` makes of a worker's JSON: a plan taken, data, a verdict or an error, by the
fields that are there.  A field of the wrong type makes the whole response unreadable.
-/

namespace Brust.Plan

/-- A loader's response headers, in order, repeated names kept. -/
abbrev Headers := List (String × String)

structure JobResult where
  id : String
  value : Option Node
  error : Option String

inductive Verdict where
  | notFound (data : Node) (store : Option Node) (headers : Headers)
  | redirect (location : String) (status : ℕ) (headers : Headers)
  | httpError (status : ℕ) (body : String) (contentType : Option String) (headers : Headers)

inductive LoaderResponse where
  | ok (ok : Bool) (data : Node) (headers : Headers) (store : Option Node)
  | planned (results : List JobResult)
  | verdict (v : Verdict)
  | error (error : String)

/-! ### Typed reads -/

namespace Json

def bool? : Json → Option Bool
  | .bool b => some b
  | _ => none

def string? : Json → Option String
  | .str s => some s
  | _ => none

/-- A `u16`. -/
def u16? : Json → Option ℕ
  | .num (.posInt n) => if n.toNat < 2 ^ 16 then some n.toNat else none
  | _ => none

/-- An `Option` of what is read: null is none. -/
def option? {α : Type} (read : Json → Option α) : Json → Option (Option α)
  | .null => some none
  | v => (read v).map some

def array? {α : Type} (read : Json → Option α) : Json → Option (List α)
  | .arr xs => xs.mapM read
  | _ => none

/-- A `(String, String)`. -/
def pair? : Json → Option (String × String)
  | .arr [.str a, .str b] => some (a, b)
  | _ => none

/-- A list of pairs, the map of an older worker, or null. -/
def headers? : Json → Option Headers
  | .arr xs => xs.mapM pair?
  | .obj entries => entries.mapM fun e => (string? e.2).map (e.1, ·)
  | .null => some []
  | _ => none

end Json

/-! ### A job's result -/

/-- The fields of a result that were read. -/
structure ResultFields where
  id : Option String
  value : Option (Option Node)
  error : Option (Option String)

/-- One entry; a field that is there twice fails, an unknown one is ignored. -/
def ResultFields.entry (f : ResultFields) (e : String × Json) : Option ResultFields :=
  if e.1 = "id" then
    if f.id.isSome then none else (Json.string? e.2).map fun v => { f with id := some v }
  else if e.1 = "value" then
    if f.value.isSome then none
    else (Json.option? Node.ofJson e.2).map fun v => { f with value := some v }
  else if e.1 = "error" then
    if f.error.isSome then none
    else (Json.option? Json.string? e.2).map fun v => { f with error := some v }
  else some f

/-- A derived `Deserialize`: from an object, or from the fields in a list. -/
def JobResult.ofJson : Json → Option JobResult
  | .obj entries => do
    let f ← entries.foldlM ResultFields.entry ⟨none, none, none⟩
    let id ← f.id
    pure ⟨id, f.value.getD none, f.error.getD none⟩
  | .arr [.str id] => some ⟨id, none, none⟩
  | .arr [.str id, value] => do pure ⟨id, ← Json.option? Node.ofJson value, none⟩
  | .arr [.str id, value, error] => do
    let value ← Json.option? Node.ofJson value
    pure ⟨id, value, ← Json.option? Json.string? error⟩
  | _ => none

/-! ### The response -/

/-- The fields of a response that were read, each the last of its name. -/
structure Fields where
  ok : Option Bool
  data : Option Node
  headers : Option Headers
  verdict : Option String
  location : Option String
  status : Option ℕ
  body : Option String
  contentType : Option String
  error : Option String
  planned : Option Bool
  results : Option (List JobResult)
  store : Option Node

def Fields.entry (f : Fields) (e : String × Json) : Option Fields :=
  match e with
  | ("ok", v) => (Json.bool? v).map fun v => { f with ok := some v }
  | ("data", v) => (Node.ofJson v).map fun v => { f with data := some v }
  | ("headers", v) => (Json.headers? v).map fun v => { f with headers := some v }
  | ("verdict", v) => (Json.string? v).map fun v => { f with verdict := some v }
  | ("location", v) => (Json.string? v).map fun v => { f with location := some v }
  | ("status", v) => (Json.u16? v).map fun v => { f with status := some v }
  | ("body", v) => (Json.string? v).map fun v => { f with body := some v }
  | ("contentType", v) => (Json.option? Json.string? v).map fun v => { f with contentType := v }
  | ("error", v) => (Json.string? v).map fun v => { f with error := some v }
  | ("planned", v) => (Json.bool? v).map fun v => { f with planned := some v }
  | ("results", v) => (Json.array? JobResult.ofJson v).map fun v => { f with results := some v }
  | ("store", v) => (Json.option? Node.ofJson v).map fun v => { f with store := v }
  | _ => some f

/-- A verdict by its tag and the fields it needs. -/
def Fields.verdictOf (f : Fields) (tag : String) : Option Verdict :=
  let headers := f.headers.getD []
  if tag = "notFound" then some (.notFound (f.data.getD .null) f.store headers)
  else if tag = "redirect" then
    f.location.map fun location => .redirect location (f.status.getD 302) headers
  else if tag = "httpError" then
    f.status.map fun status => .httpError status (f.body.getD "") f.contentType headers
  else none

/-- What the fields say: a plan taken, else data, else a verdict, else an error. -/
def Fields.finish (f : Fields) : Option LoaderResponse :=
  if f.planned = some true then some (.planned (f.results.getD []))
  else
    match f.ok, f.data with
    | some ok, some data => some (.ok ok data (f.headers.getD []) f.store)
    | _, _ =>
      match f.verdict with
      | some tag => (f.verdictOf tag).map .verdict
      | none => f.error.map .error

/-- `LoaderResponse`'s `Deserialize`. -/
def LoaderResponse.ofJson : Json → Option LoaderResponse
  | .obj entries => do
    let f ← entries.foldlM Fields.entry
      ⟨none, none, none, none, none, none, none, none, none, none, none, none⟩
    f.finish
  | _ => none

end Brust.Plan
