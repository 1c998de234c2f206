import Brust.Core.Request
import Brust.Support.UrlPath
import Mathlib.Data.List.DropRight

/-!
# Core — the request pipeline

What `pipeline::handle` makes of a request before a page of it is looked at: the preflight, the base
path, the actions, the paths that are the server's own, and the trailing slash.  What the headers
decide is taken as given.
-/

namespace Brust.Core.Pipeline

open Brust.Routing (normalizeRequestPath)

/-! ### Requests -/

/-- `path_and_query()` of a URI: empty, `*`, or from a `/` or a `?` on; no fragment, and no control
character or space. -/
structure Target where
  full : String
  absolute : full.toList = [] ∨ full.toList = ['*'] ∨
    full.toList.head? = some '/' ∨ full.toList.head? = some '?'
  visible : ∀ c ∈ full.toList, 0x20 < c.toNat ∧ c ≠ '#'

/-- A request: what the headers say is whether its origin may ask for a method, and whether it may
read the stats. -/
structure Request where
  method : String
  target : Target
  corsAllowed : Bool
  statsAllowed : Bool

/-! ### The actions -/

/-- `path` is `p` or lies under it. -/
def under (path p : String) : Bool := path == p || (p.toList ++ ['/']).isPrefixOf path.toList

/-- A segment of an actions prefix. -/
def segOk (s : List Char) : Bool :=
  s != [] && s != ['.'] && s != ['.', '.'] &&
    s.all fun c => c.isAlphanum || ['.', '_', '~', '-'].contains c

/-- The shape that `validate` asks of a prefix. -/
def prefixShape (p : String) : Bool :=
  ['/'].isPrefixOf p.toList && decide (2 ≤ p.utf8ByteSize) && p.toList.getLast? != some '/' &&
    ((p.toList.drop 1).splitOn '/').all segOk

/-- The actions subtree, with a prefix that `validate` lets pass. -/
structure ActionsConfig where
  pathPrefix : String
  valid : pathPrefix = "/" ∨ prefixShape pathPrefix = true

def ActionsConfig.isUnder (a : ActionsConfig) (path : String) : Bool :=
  if a.pathPrefix == "/" then
    ['/'].isPrefixOf path.toList && path != "/ping" && !under path "/_brust" &&
      !under path "/public"
  else under path a.pathPrefix

/-- `str::contains`. -/
def contains (pat s : List Char) : Bool := s.tails.any pat.isPrefixOf

/-- `replace("%2e", ".")`. -/
def dotted : List Char → List Char
  | '%' :: '2' :: 'e' :: s => '.' :: dotted s
  | c :: s => c :: dotted s
  | [] => []

/-- A path that a URL parser would rewrite. -/
def ambiguousPath (path : String) : Bool :=
  let lower := path.toList.map Char.toLower
  contains ['\\'] lower || contains ['%', '5', 'c'] lower ||
    (lower.splitOn '/').any fun seg => [['.'], ['.', '.']].contains (dotted seg)

/-! ### The trailing slash -/

inductive TrailingSlash where
  | strict
  | redirect
  | ignore
  deriving DecidableEq

/-- A path without its trailing slashes, where it has any and is not `/`. -/
def strip (path : String) : Option String :=
  if path.utf8ByteSize ≤ 1 || path.toList.getLast? != some '/' then none
  else
    let t := String.ofList (path.toList.rdropWhile (· == '/'))
    some (if t == "" then "/" else t)

/-- The path with the query of the request. -/
def withQuery (stripped full : String) : String :=
  match splitOnce '?' full with
  | some (_, q) => stripped ++ "?" ++ q
  | none => stripped

/-! ### The pipeline -/

inductive StaticRoot where
  | brust
  | pub
  deriving DecidableEq

inductive Answer where
  | preflight
  | notFound
  | notFoundProblem
  | methodNotAllowed
  | notImplemented
  | badRequest
  /-- The actions go on with what the headers say, and then the app. -/
  | action (full : String)
  | ping
  | stats
  | staticFile (root : StaticRoot) (rel : String)
  | redirect (location : String)
  | page (full : String)
  deriving DecidableEq

/-- Of a route, what the admission reads. -/
structure RoutePattern where
  pattern : String
  catchAll : Bool

structure App where
  basePath : String
  actions : Option ActionsConfig
  actionsOnly : Bool
  trailingSlash : TrailingSlash
  routes : Routes
  route : ℕ → RoutePattern

/-- `strip_prefix`. -/
def stripPrefix (p s : String) : Option String :=
  if p.toList.isPrefixOf s.toList then some (String.ofList
    (s.toList.drop p.toList.length)) else none

namespace App

variable (app : App)

/-- A page or loader route, not the catch-all, whose own pattern lies under the actions prefix. -/
def routedUnder (a : ActionsConfig) (full : String) : Bool :=
  (app.routes.matchRoute full).any fun m =>
    !m.notFound && !(app.route m.routeId).catchAll && a.isUnder (app.route m.routeId).pattern

/-- The path with the base cut off. -/
def frameworkPath (pathOnly : String) : Option String :=
  if app.basePath == "" then some pathOnly
  else (stripPrefix app.basePath (normalizeRequestPath pathOnly)).filter
    fun rest => rest == "" || ['/'].isPrefixOf rest.toList

/-- `actions::handle`, up to what the headers and the body decide. -/
def handleAction (method full : String) : Answer :=
  if ["CONNECT", "TRACE", "TRACK"].contains method then .notImplemented
  else if ambiguousPath (((splitOnce '?' full).map (·.1)).getD full) then .badRequest
  else .action full

/-- The trailing-slash policy. -/
def trailing (fw full : String) : Answer :=
  match strip (pathOf full) with
  | none => .page full
  | some stripped =>
    if strip fw == some "/ping" then .page full
    else match app.trailingSlash with
      | .strict => .page full
      | .redirect =>
        if ['/', '/'].isPrefixOf stripped.toList || ['/', '\\'].isPrefixOf stripped.toList then
          .page full
        else .redirect (withQuery stripped full)
      | .ignore => .page (withQuery stripped full)

/-- From the method gate on. -/
def read (rq : Request) (fw : String) : Answer :=
  let stats := fw == "/_brust/cache/stats" && rq.statsAllowed
  if app.actionsOnly && fw != "/ping" && !stats then .notFoundProblem
  else if !(rq.method == "GET" || rq.method == "HEAD") then .methodNotAllowed
  else if fw == "/ping" then .ping
  else if stats then .stats
  else match stripPrefix "/_brust/" fw, stripPrefix "/public/" fw with
    | some rel, _ => .staticFile .brust rel
    | none, some rel => .staticFile .pub rel
    | none, none => app.trailing fw rq.target.full

def handle (rq : Request) : Answer :=
  let full := rq.target.full
  if rq.method == "OPTIONS" && rq.corsAllowed then .preflight
  else match app.frameworkPath (pathOf full) with
    | none => .notFound
    | some fw =>
      let read := rq.method == "GET" || rq.method == "HEAD"
      if app.actions.any fun a =>
          a.isUnder (normalizeRequestPath (pathOf full)) && !(read && app.routedUnder a full) then
        handleAction rq.method full
      else app.read rq fw

end App

end Brust.Core.Pipeline
