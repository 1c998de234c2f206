import Brust.Boot.Entries

/-!
# Boot — the build and the start of the actions

`[actions]` of `brust.toml` as the build reads it (`parseActions`), the checks of a build with its
routes (`runBuild`), the manifest it writes, and what the server makes of the manifest's block
(`actionsConfig`, `ActionsConfig.validate`, `ActionsConfig.streams`).  The numbers of a table are
rational where they are finite.  The values in the build's messages are left out.
-/

namespace Brust.Boot

open Core (pathOf)
open Core.Pipeline (under segOk prefixShape)
open Jinja (jsSpace jsTrimmed)

/-! ### Settings -/

/-- A value of the build file. -/
inductive Toml where
  | str (s : String)
  | num (n : ℚ)
  | special
  | bool (b : Bool)
  | list (items : List Toml)
  | table (members : List (String × Toml))

/-- A rule of the build, and what it says. -/
structure BuildError where
  rule : String
  message : String
deriving DecidableEq

/-- What the host's `new URL` reads of a text. -/
structure Url where
  search : String
  hash : String
  username : String
  password : String

/-- The functions of the language that the build calls: `toUpperCase` and `new URL`. -/
structure Js where
  toUpperCase : List Char → List Char
  parseUrl : String → Option Url

def configError (message : String) : BuildError := ⟨"config", message⟩

/-- An integer setting between two bounds, or its default. -/
def intSetting (value : Option Toml) (key : String) (lo hi default : ℕ) : Except BuildError ℕ :=
  match value with
  | none => .ok default
  | some (.num n) =>
    if n.den = 1 ∧ (lo : ℚ) ≤ n ∧ n ≤ (hi : ℚ) then .ok n.num.toNat
    else .error (configError ("actions." ++ key ++ " must be an integer in its bounds"))
  | some _ => .error (configError ("actions." ++ key ++ " must be an integer in its bounds"))

def DEFAULT_ACTION_PREFIX : String := "/_brust/action"
def MAX_ACTION_BYTES : ℕ := 67108864
def MIN_RESPONSE_BYTES : ℕ := 262144
def MAX_STREAM_BYTES : ℕ := 4294967296
def U32_MAX : ℕ := 4294967295

/-! ### Paths -/

/-- `SEG`, `/^[A-Za-z0-9._~-]+$/` -/
def SEG (s : List Char) : Bool :=
  s != [] && s.all fun c => c.isAlphanum || ['.', '_', '~', '-'].contains c

/-- A segment that a prefix may not have. -/
def badSegment (s : List Char) : Bool := !SEG s || s == ['.'] || s == ['.', '.']

/-- `length`, in UTF-16. -/
def utf16Length (s : List Char) : ℕ := (s.map fun c => if c.toNat < 0x10000 then 1 else 2).sum

/-- `startsWith` -/
def startsWith (s p : String) : Bool := p.toList.isPrefixOf s.toList

/-- `normalizeBasePath` -/
def normalizeBasePath : Toml → Except BuildError String
  | .str raw =>
    if raw = "" ∨ raw = "/" then .ok ""
    else if !startsWith raw "/" then .error (configError "server.base_path must start with '/'")
    else if raw.toList.getLast? = some '/' then
      .error (configError "server.base_path must not end with '/'")
    else if ((raw.toList.drop 1).splitOn '/').any badSegment then
      .error (configError "server.base_path segments must be [A-Za-z0-9._~-]+ and not '.'/'..'")
    else .ok raw
  | _ => .error (configError "server.base_path must be a string")

/-- `prefixError`: why `p` cannot be the prefix of the actions. -/
def prefixError (p : Toml) (root : Bool) : Option String :=
  match p with
  | .str p =>
    if root && p = "/" then none
    else if !startsWith p "/" || decide (utf16Length p.toList < 2) ||
        p.toList.getLast? == some '/' then
      some "must start with '/', be longer than '/' and have no trailing '/'"
    else if ((p.toList.drop 1).splitOn '/').any badSegment then
      some "segments must be [A-Za-z0-9._~-]+ and not '.'/'..'"
    else if p = "/_brust" ∨ startsWith p "/_brust/" ∧ p ≠ DEFAULT_ACTION_PREFIX ∧
        !startsWith p (DEFAULT_ACTION_PREFIX ++ "/") then
      some (p ++ " is reserved for the server's own /_brust/ paths")
    else none
  | _ => some "must start with '/', be longer than '/' and have no trailing '/'"

/-- What `base_url` has behind its scheme. -/
def schemeRest (v : String) : Option (List Char) :=
  (Paint.stripPrefix "https://".toList v.toList).orElse fun _ =>
    Paint.stripPrefix "http://".toList v.toList

def authorityChar (c : Char) : Bool := !(['/', '?', '#', '@', '\\'].contains c || jsSpace c)

/-- `baseUrlError` -/
def baseUrlError (js : Js) : Toml → Option String
  | .str v =>
    match schemeRest v with
    | none => some "must be an absolute http(s) origin such as https://api.example.com"
    | some authority =>
      match js.parseUrl v with
      | none => some "is not a valid URL"
      | some u =>
        if u.search ≠ "" ∨ u.hash ≠ "" ∨ u.username ≠ "" ∨ u.password ≠ "" ∨
            !authority.all authorityChar then
          some "must be an origin only: no path, query, fragment or credentials"
        else none
  | _ => some "must be an absolute http(s) origin such as https://api.example.com"

/-! ### `[actions]` -/

/-- What an action call from another site gets. -/
inductive CrossSite where
  | reject
  | allow
deriving DecidableEq

def CrossSite.text : CrossSite → String
  | .reject => "reject"
  | .allow => "allow"

inductive ActionCredentials where
  | sameOrigin
  | include_
  | omit_
deriving DecidableEq

structure ActionsStreamConfig where
  stream : List (List Char)
  maxStreamBytes : ℕ
  streamIdleMs : ℕ
  streamTotalMs : ℕ
  maxStreams : Option ℕ

structure ActionsBuildConfig where
  entry : String
  pathPrefix : String
  maxBodyBytes : ℕ
  maxResponseBytes : ℕ
  crossSite : CrossSite
  baseUrl : Option String
  credentials : ActionCredentials
  entryExplicit : Bool
  stream : Option ActionsStreamConfig

/-- An entry of `stream`, checked and written. -/
def streamEntry (js : Js) : Toml → Except BuildError (List Char)
  | .str e =>
    match streamEntryError js.toUpperCase e.toList with
    | some why => .error (configError ("actions.stream entry " ++ why))
    | none => .ok (writeEntry js.toUpperCase e.toList)
  | _ => .error (configError "actions.stream entry must be a string \"<METHOD> <path>\"")

/-- `max_streams`, which has no default. -/
def maxStreamsSetting (t : List (String × Toml)) : Except BuildError (Option ℕ) :=
  match t.lookup "max_streams" with
  | none => .ok none
  | some n => (intSetting (some n) "max_streams" 1 U32_MAX 1).map some

/-- `parseStream` -/
def parseStream (js : Js) (t : List (String × Toml)) :
    Except BuildError (Option ActionsStreamConfig) := do
  let maxStreamBytes ← intSetting (t.lookup "max_stream_bytes") "max_stream_bytes" 1
    MAX_STREAM_BYTES 268435456
  let streamIdleMs ← intSetting (t.lookup "stream_idle_ms") "stream_idle_ms" 1 U32_MAX 30000
  let streamTotalMs ← intSetting (t.lookup "stream_total_ms") "stream_total_ms" 1 U32_MAX 900000
  let maxStreams ← maxStreamsSetting t
  match t.lookup "stream" with
  | none => .ok none
  | some (.list entries) => do
    let stream ← entries.mapM (streamEntry js)
    if stream = [] then .ok none
    else .ok (some ⟨stream, maxStreamBytes, streamIdleMs, streamTotalMs, maxStreams⟩)
  | some _ =>
    .error (configError "actions.stream must be an array of \"<METHOD> <path>\" strings")

/-- `entry`, with the default name. -/
def parseEntry (t : List (String × Toml)) : Except BuildError String :=
  match t.lookup "entry" with
  | none => .ok "actions.ts"
  | some (.str s) =>
    let name := jsTrimmed s.toList
    if name = [] then .error (configError "actions.entry must be a non-empty string")
    else .ok (String.ofList ((Paint.stripPrefix ['.', '/'] name).getD name))
  | some _ => .error (configError "actions.entry must be a non-empty string")

/-- `prefix`: the default one lies under the base path, and a written one has to. -/
def parsePrefix (t : List (String × Toml)) (actionsOnly : Bool) (basePath : String) :
    Except BuildError String :=
  match t.lookup "prefix" with
  | none => .ok (basePath ++ DEFAULT_ACTION_PREFIX)
  | some v =>
    match prefixError v (actionsOnly || (t.lookup "base_url").isSome), v with
    | none, .str p =>
      if basePath ≠ "" ∧ p ≠ basePath ∧ !startsWith p (basePath ++ "/") then
        .error (configError "actions.prefix must lie under server.base_path")
      else .ok p
    | why, _ => .error (configError ("actions.prefix " ++ why.getD ""))

def parseCrossSite (t : List (String × Toml)) : Except BuildError CrossSite :=
  match t.lookup "cross_site" with
  | none => .ok .reject
  | some (.str "reject") => .ok .reject
  | some (.str "allow") => .ok .allow
  | some _ => .error (configError "actions.cross_site must be \"reject\" or \"allow\"")

def parseBaseUrl (js : Js) (t : List (String × Toml)) : Except BuildError (Option String) :=
  match t.lookup "base_url" with
  | none => .ok none
  | some v =>
    match baseUrlError js v, v with
    | none, .str url => .ok (some url)
    | why, _ => .error (configError ("actions.base_url " ++ why.getD ""))

def parseCredentials (t : List (String × Toml)) : Except BuildError ActionCredentials :=
  match t.lookup "credentials" with
  | none => .ok .sameOrigin
  | some (.str "same-origin") => .ok .sameOrigin
  | some (.str "include") => .ok .include_
  | some (.str "omit") => .ok .omit_
  | some _ =>
    .error (configError "actions.credentials must be one of same-origin, include, omit")

/-- `parseActions` -/
def parseActions (js : Js) (raw : Option Toml) (actionsOnly : Bool) (basePath : String) :
    Except BuildError (Option ActionsBuildConfig) :=
  match raw with
  | none => .ok none
  | some (.table t) => do
    let entry ← parseEntry t
    let pathPrefix ← parsePrefix t actionsOnly basePath
    let maxBodyBytes ← intSetting (t.lookup "max_body_bytes") "max_body_bytes" 1
      MAX_ACTION_BYTES 1048576
    let maxResponseBytes ← intSetting (t.lookup "max_response_bytes") "max_response_bytes"
      MIN_RESPONSE_BYTES MAX_ACTION_BYTES 8388608
    let crossSite ← parseCrossSite t
    let baseUrl ← parseBaseUrl js t
    let credentials ← parseCredentials t
    let stream ← parseStream js t
    .ok (some ⟨entry, pathPrefix, maxBodyBytes, maxResponseBytes, crossSite, baseUrl, credentials,
      (t.lookup "entry").isSome, stream⟩)
  | some _ => .error (configError "[actions] must be a table")

/-! ### The build -/

/-- A leaf of the routes. -/
structure FlatRoute where
  id : String
  pattern : String
  catchAll : Bool
deriving DecidableEq

/-- The block of the actions in the manifest. -/
structure ActionsRecord where
  entry : String
  pathPrefix : String
  maxBodyBytes : ℕ
  maxResponseBytes : ℕ
  crossSite : CrossSite
  stream : Option ActionsStreamConfig

/-- What the loader checks of the written manifest. -/
structure Manifest where
  routes : List FlatRoute
  actions : Option ActionsRecord
  actionsOnly : Bool
  basePath : String
  actionsRemote : Option String

/-- What is built: the tables of `brust.toml`, the validated routes, and of a file's name whether it
is written inside the app and whether there is such a file. -/
structure App where
  actionsOnly : Bool
  basePath : Option Toml
  actions : Option Toml
  leaves : List FlatRoute
  inside : String → Bool
  statOk : String → Bool

/-- `parseBasePath` -/
def parseBasePath (raw : Option Toml) : Except BuildError String :=
  match raw with
  | none => .ok ""
  | some raw => normalizeBasePath raw

def ActionsBuildConfig.record (a : ActionsBuildConfig) : ActionsRecord :=
  ⟨a.entry, a.pathPrefix, a.maxBodyBytes, a.maxResponseBytes, a.crossSite, a.stream⟩

/-- `checkBasePath` -/
def outside (basePath : String) (l : FlatRoute) : Bool :=
  basePath != "" && !l.catchAll && l.pattern != basePath && !startsWith l.pattern (basePath ++ "/")

/-- The routes that a build refuses beside the actions. -/
def shadowed (pathPrefix : String) (l : FlatRoute) : Bool :=
  l.pattern == pathPrefix || startsWith l.pattern (pathPrefix ++ "/") &&
    Core.Pipeline.contains ['{', '*'] l.pattern.toList

/-- `runActionsOnly` -/
def runActionsOnly (app : App) (basePath : String) (actions : Option ActionsBuildConfig) :
    Except BuildError Manifest :=
  match actions with
  | none => .error ⟨"actions-only", "--actions-only needs an [actions] table in brust.toml"⟩
  | some a =>
    if !app.inside a.entry || !app.statOk a.entry then
      .error ⟨"actions-entry", "actions.entry " ++ a.entry ++ " is not a file inside the app"⟩
    else .ok ⟨[], some a.record, true, basePath, none⟩

/-- `runBuild`, its checks of the actions. -/
def runBuild (js : Js) (app : App) : Except BuildError Manifest := do
  let basePath ← parseBasePath app.basePath
  let built ← parseActions js app.actions app.actionsOnly basePath
  if app.actionsOnly then runActionsOnly app basePath built
  else
    -- `base_url` without a file of actions: the app is deployed elsewhere
    let remote := built.filter fun a => a.baseUrl.isSome && !a.entryExplicit && !app.statOk a.entry
    let actions := if remote.isSome then none else built
    if actions.any (·.pathPrefix == "/") then
      .error (configError "actions.prefix \"/\" is only for an actions-only build")
    else if app.leaves.any (outside basePath) then
      .error ⟨"route-outside-base-path", "routes outside server.base_path"⟩
    else
      match actions with
      | none => .ok ⟨app.leaves, none, false, basePath, remote.map (·.pathPrefix)⟩
      | some a =>
        if !app.inside a.entry || !app.statOk a.entry then
          .error ⟨"actions-entry", "actions.entry " ++ a.entry ++ " is not a file inside the app"⟩
        else if app.leaves.any (shadowed a.pathPrefix) then
          .error ⟨"actions-prefix", "a route is the actions prefix or a catch-all under it"⟩
        else .ok ⟨app.leaves, some a.record, false, basePath, none⟩

/-! ### The start -/

/-- The options of the native module: a number crosses as `u32`, or as `i64`. -/
structure NapiActionsOptions where
  pathPrefix : Option String
  maxBodyBytes : Option UInt32
  maxResponseBytes : Option UInt32
  crossSite : Option String
  stream : Option (List (List Char))
  maxStreamBytes : Option Int64
  streamIdleMs : Option UInt32
  streamTotalMs : Option UInt32
  maxStreams : Option UInt32

/-- `startOptions`, its block of the actions. -/
def startOptions (r : ActionsRecord) : NapiActionsOptions where
  pathPrefix := some r.pathPrefix
  maxBodyBytes := some (.ofNat r.maxBodyBytes)
  maxResponseBytes := some (.ofNat r.maxResponseBytes)
  crossSite := some r.crossSite.text
  stream := r.stream.map (·.stream)
  maxStreamBytes := r.stream.map fun s => .ofNat s.maxStreamBytes
  streamIdleMs := r.stream.map fun s => .ofNat s.streamIdleMs
  streamTotalMs := r.stream.map fun s => .ofNat s.streamTotalMs
  maxStreams := r.stream.bind fun s => s.maxStreams.map .ofNat

structure StreamConfig where
  routes : List StreamRoute
  maxBytes : ℕ
  idleMs : ℕ
  totalMs : ℕ
  maxStreams : Option ℕ

structure ActionsConfig where
  pathPrefix : String
  maxBodyBytes : ℕ
  maxResponseBytes : ℕ
  crossSite : CrossSite
  stream : StreamConfig

/-- `actions_config`: absent keys take the defaults. -/
def actionsConfig (a : NapiActionsOptions) : Except String ActionsConfig := do
  let routes ← ((a.stream.getD []).mapM StreamRoute.parse).mapError ("actions: " ++ ·)
  .ok {
    pathPrefix := a.pathPrefix.getD DEFAULT_ACTION_PREFIX
    maxBodyBytes := (a.maxBodyBytes.map UInt32.toNat).getD 1048576
    maxResponseBytes := (a.maxResponseBytes.map UInt32.toNat).getD 8388608
    crossSite := if a.crossSite = some "allow" then .allow else .reject
    stream := {
      routes
      maxBytes := (a.maxStreamBytes.map fun n => n.toInt.toNat).getD 268435456
      idleMs := (a.streamIdleMs.map UInt32.toNat).getD 30000
      totalMs := (a.streamTotalMs.map UInt32.toNat).getD 900000
      maxStreams := a.maxStreams.map UInt32.toNat } }

/-- The paths that the prefix may not overlap in either direction. -/
def RESERVED : List String := ["/ping", "/public", "/_brust/client", "/_brust/cache"]

namespace ActionsConfig

variable (c : ActionsConfig)

/-- `validate_limits` -/
def validateLimits : Except String Unit :=
  if ¬ (1 ≤ c.maxBodyBytes ∧ c.maxBodyBytes ≤ MAX_ACTION_BYTES) then
    .error "maxBodyBytes must be in 1..=67108864"
  else if ¬ (MIN_RESPONSE_BYTES ≤ c.maxResponseBytes ∧ c.maxResponseBytes ≤ MAX_ACTION_BYTES) then
    .error "maxResponseBytes must be in 262144..=67108864"
  else if ¬ (1 ≤ c.stream.maxBytes ∧ c.stream.maxBytes ≤ MAX_STREAM_BYTES) then
    .error "maxStreamBytes must be in 1..=4294967296"
  else if c.stream.idleMs = 0 ∨ c.stream.totalMs = 0 then
    .error "streamIdleMs and streamTotalMs must be at least 1"
  else if c.stream.maxStreams = some 0 then .error "maxStreams must be at least 1"
  else .ok ()

/-- The two paths overlap, one under the other. -/
def overlaps (p q : String) : Bool := under p q || under q p

def validate (m : Manifest) : Except String Unit :=
  let p := c.pathPrefix
  if p = "/" then
    if !m.actionsOnly then
      .error "prefix \"/\" is only allowed in an actions-only build (brust build --actions-only)"
    else c.validateLimits
  else if !prefixShape p then
    .error ("prefix must start with '/', must not end with '/', and each segment must be " ++
      "[A-Za-z0-9._~-] (not '.' or '..')")
  else if m.basePath ≠ "" ∧ !under p m.basePath then
    .error "prefix must lie under base_path"
  else if RESERVED.any fun r => overlaps p (m.basePath ++ r) then
    .error "prefix overlaps a reserved path"
  else if m.routes.any fun rt => rt.pattern == p ||
      under rt.pattern p && Core.Pipeline.contains ['{', '*'] rt.pattern.toList then
    .error "prefix shadows a route"
  else c.validateLimits

/-- Is a request, its path under the prefix, on the `stream` list? -/
def streams (method : List Char) (full : String) : Bool :=
  c.stream.routes.any fun r => r.matches method (relative c.pathPrefix full)

end ActionsConfig

end Brust.Boot
