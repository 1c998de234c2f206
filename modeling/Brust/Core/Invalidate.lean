import Brust.Routing.Normalize
import Mathlib.Data.List.Sort
import Mathlib.Data.Nat.Notation

/-!
# Core — cache keys and invalidations

The key of a page in the response cache, the arguments of `cache.invalidate`, and what
`Core::invalidate` makes of them: a list of calls of the two caches, in the source's order
(`InvalidateArgs.calls`).  `PageInval.covers` says which pages a call removes, by key and tags, and
`InvalidateArgs.covers` which pages the whole invalidation removes.
-/

namespace Brust.Core

open Brust.Routing

structure CacheKey where
  keyPrefix : String
  method : String
  path : String
  sortedQuery : String
  deriving DecidableEq

/-- A request target up to its first `?`. -/
def pathOf (full : String) : String := String.ofList (full.toList.takeWhile (· ≠ '?'))

/-- A request target after its first `?`. -/
def queryOf (full : String) : String := String.ofList ((full.toList.dropWhile (· ≠ '?')).drop 1)

def sortQuery (query : String) : String :=
  if query = "" then ""
  else String.intercalate "&" (((query.splitOn "&").filter (· ≠ "")).mergeSort (· ≤ ·))

/-- One entry per page however the URL is spelled. -/
def buildCacheKey (method full keyPrefix : String) : CacheKey where
  keyPrefix := keyPrefix
  method := method
  path := normalizeRequestPath (pathOf full)
  sortedQuery := sortQuery (queryOf full)

/-- The arguments of an insert into the response cache. -/
structure PageInsert (B : Type) where
  key : CacheKey
  body : B
  ttl : ℕ
  tags : List String
  since : ℕ
  deriving DecidableEq

/-- `job_key()` hex, or `k:<componentId>/<jobId>/<user key>`. -/
abbrev JobKey := String

/-- The arguments of an insert into the job cache. -/
structure JobInsert (V : Type) where
  key : JobKey
  value : V
  ttl : Option ℕ
  tags : List String
  userKey : Option String
  since : ℕ
  deriving DecidableEq

structure InvalidateArgs where
  key : Option String
  tags : List String
  path : Option String
  method : Option String
  keyPrefix : Option String
  deriving DecidableEq

def PREFIX_WITH_KEY : String :=
  "cache.invalidate: `prefix` narrows page entries; `key` names a job entry — call them separately"

/-- `prefix` together with `key` is refused.  Hosts call this before `Core::invalidate`. -/
def InvalidateArgs.validate (args : InvalidateArgs) : Except String Unit :=
  if args.keyPrefix.isSome && args.key.isSome then .error PREFIX_WITH_KEY else .ok ()

def InvalidateArgs.valid (args : InvalidateArgs) : Bool := args.validate matches .ok _

/-- An invalidation of the response cache. -/
inductive PageInval where
  | invalidateTags (tags : List String) (keyPrefix : Option String)
  | invalidatePath (method path : String) (keyPrefix : Option String)
  | invalidatePrefix (keyPrefix : String) (method : Option String)
  | clear
  deriving DecidableEq

/-- An invalidation of the job cache that `Core` calls. -/
inductive JobInval where
  | invalidateUserKey (userKey : String)
  | invalidateTags (tags : List String)
  | clear
  deriving DecidableEq

inductive Call where
  | page (i : PageInval)
  | job (i : JobInval)
  deriving DecidableEq

/-- The calls `Core::invalidate` makes, in order. -/
def InvalidateArgs.calls (args : InvalidateArgs) : List Call :=
  if args.valid = false then []
  else
    (args.key.toList.map fun k => .job (.invalidateUserKey k)) ++
    (if args.tags = [] then []
      else .page (.invalidateTags args.tags args.keyPrefix) ::
        if args.keyPrefix = none then [.job (.invalidateTags args.tags)] else []) ++
    (match args.path, args.keyPrefix with
      | some p, px =>
        [.page (.invalidatePath (args.method.getD "GET") (normalizeRequestPath p) px)]
      | none, some px =>
        if args.tags = [] then [.page (.invalidatePrefix px args.method)] else []
      | none, none => [])

/-! ### What is covered -/

/-- A page carries one of the tags, or has the method and path, or the key prefix (each for the key
prefix or method the call is scoped to). -/
def PageInval.covers (i : PageInval) (key : CacheKey) (tags : List String) : Prop :=
  match i with
  | .invalidateTags ts p => (∃ t ∈ ts, t ∈ tags) ∧ ∀ q, p = some q → key.keyPrefix = q
  | .invalidatePath method path p =>
      key.method = method ∧ key.path = path ∧ ∀ q, p = some q → key.keyPrefix = q
  | .invalidatePrefix p method => key.keyPrefix = p ∧ ∀ q, method = some q → key.method = q
  | .clear => True

/-- A job value is stored under the user key, or carries one of the tags. -/
def JobInval.covers (i : JobInval) (userKey : Option String) (tags : List String) : Prop :=
  match i with
  | .invalidateUserKey u => userKey = some u
  | .invalidateTags ts => ∃ t ∈ ts, t ∈ tags
  | .clear => True

/-- One of the calls of the invalidation covers the page. -/
def InvalidateArgs.covers (args : InvalidateArgs) (key : CacheKey) (tags : List String) : Prop :=
  ∃ i, .page i ∈ args.calls ∧ i.covers key tags

/-- What valid arguments cover: by a tag, by the path, or by the key prefix alone. -/
theorem InvalidateArgs.covers_iff {args : InvalidateArgs} (hv : args.valid = true) (key : CacheKey)
    (tags : List String) : args.covers key tags ↔
      ((∃ t ∈ args.tags, t ∈ tags) ∧ ∀ q, args.keyPrefix = some q → key.keyPrefix = q) ∨
      (∃ p, args.path = some p ∧ key.method = args.method.getD "GET" ∧
        key.path = normalizeRequestPath p ∧ ∀ q, args.keyPrefix = some q → key.keyPrefix = q) ∨
      (args.path = none ∧ args.tags = [] ∧ args.keyPrefix = some key.keyPrefix ∧
        ∀ q, args.method = some q → key.method = q) := by
  obtain ⟨k, ts, path, method, px⟩ := args
  simp only [covers, calls, hv, Bool.true_eq_false, if_false]
  cases ts with
  | nil =>
      cases path with
      | none => cases px <;> simp [PageInval.covers, eq_comm]
      | some p => cases px <;> simp [PageInval.covers]
  | cons t ts =>
      cases path with
      | none => cases px <;> simp [PageInval.covers]
      | some p => cases px <;> simp [PageInval.covers]

end Brust.Core
