import Brust.Boot.Prefix

/-!
# Boot — a build that passes, and its start

The server takes the numbers of the manifest as the build wrote them, and it reads its entries.
`starts_iff`: a local actions app that the build accepts is one that the server starts with, and
whose entries it serves as they are written, exactly where the prefix is clear of the server's own
paths and no entry loses its end.
-/

namespace Brust.Boot

open Core (pathOf)
open Core.Pipeline (Target under prefixShape)

/-! ### What the build accepts -/

theorem intSetting_bounds {value : Option Toml} {key : String} {lo hi default n : ℕ}
    (h : intSetting value key lo hi default = .ok n) (hlo : lo ≤ default) (hhi : default ≤ hi) :
    lo ≤ n ∧ n ≤ hi := by
  unfold intSetting at h
  split at h
  · obtain rfl := Except.ok.inj h
    exact ⟨hlo, hhi⟩
  · next q =>
    split at h
    · next hq =>
      obtain ⟨hden, hmin, hmax⟩ := hq
      obtain rfl := Except.ok.inj h
      have hint : (q.num : ℚ) = q := Rat.coe_int_num_of_den_eq_one hden
      rw [← hint] at hmin hmax
      have hmin' : (lo : ℤ) ≤ q.num := by exact_mod_cast hmin
      have hmax' : q.num ≤ (hi : ℤ) := by exact_mod_cast hmax
      omega
    · cases h
  · cases h

/-- The limits of a block that the build writes. -/
structure ActionsStreamConfig.Bounds (s : ActionsStreamConfig) : Prop where
  bytes : 1 ≤ s.maxStreamBytes ∧ s.maxStreamBytes ≤ MAX_STREAM_BYTES
  idle : 1 ≤ s.streamIdleMs ∧ s.streamIdleMs ≤ U32_MAX
  total : 1 ≤ s.streamTotalMs ∧ s.streamTotalMs ≤ U32_MAX
  streams : ∀ n ∈ s.maxStreams, 1 ≤ n ∧ n ≤ U32_MAX

/-- What `parseStream` lets pass. -/
theorem of_parseStream {js : Js} {t : List (String × Toml)} {result : Option ActionsStreamConfig}
    (h : parseStream js t = .ok result) :
    (∀ s ∈ result, s.Bounds) ∧
    (∀ entries, t.lookup "stream" = some (.list entries) →
      entries.mapM (streamEntry js) = .ok ((result.map (·.stream)).getD [])) ∧
    ((∀ entries, t.lookup "stream" ≠ some (.list entries)) → result = none) := by
  rw [parseStream] at h
  obtain ⟨bytes, hbytes, h⟩ := bind_eq_ok.mp h
  obtain ⟨idle, hidle, h⟩ := bind_eq_ok.mp h
  obtain ⟨total, htotal, h⟩ := bind_eq_ok.mp h
  obtain ⟨streams, hstreams, h⟩ := bind_eq_ok.mp h
  have hbounds : ∀ n ∈ streams, 1 ≤ n ∧ n ≤ U32_MAX := by
    intro n hn
    obtain rfl := Option.mem_def.mp hn
    unfold maxStreamsSetting at hstreams
    split at hstreams
    · cases hstreams
    · next v _ =>
      cases hv : intSetting (some v) "max_streams" 1 U32_MAX 1 with
      | error e =>
          rw [hv] at hstreams
          cases hstreams
      | ok k =>
          rw [hv] at hstreams
          cases hstreams
          exact intSetting_bounds hv (by decide) (by decide)
  split at h
  · next hnone =>
    obtain rfl := Except.ok.inj h
    refine ⟨fun s hs => (by cases hs), fun entries hentries => ?_, fun _ => rfl⟩
    rw [hnone] at hentries
    cases hentries
  · next entries hlist =>
    obtain ⟨stream, hstream, h⟩ := bind_eq_ok.mp h
    have hsame : ∀ entries', t.lookup "stream" = some (.list entries') → entries' = entries := by
      intro entries' he
      rw [hlist] at he
      exact (Toml.list.inj (Option.some.inj he)).symm
    split at h
    · next hnil =>
      obtain rfl := Except.ok.inj h
      refine ⟨fun s hs => (by cases hs), fun entries' he => ?_, fun _ => rfl⟩
      rw [hsame entries' he, hstream, hnil]
      rfl
    · obtain rfl := Except.ok.inj h
      refine ⟨fun s hs => ?_, fun entries' he => ?_, fun hno => absurd hlist (hno entries)⟩
      · obtain rfl := Option.some.inj hs
        exact ⟨intSetting_bounds hbytes (by decide) (by decide),
          intSetting_bounds hidle (by decide) (by decide),
          intSetting_bounds htotal (by decide) (by decide), hbounds⟩
      · rw [hsame entries' he, hstream]
        rfl
  · cases h

/-- What `parsePrefix` lets pass. -/
theorem of_parsePrefix {t : List (String × Toml)} {actionsOnly : Bool} {base p : String}
    (h : parsePrefix t actionsOnly base = .ok p) (hbase : base = "" ∨ prefixShape base = true) :
    (t.lookup "prefix" = none ∧ p = base ++ DEFAULT_ACTION_PREFIX ∨
      t.lookup "prefix" = some (.str p)) ∧
    (p ≠ "/" → prefixShape p = true) ∧ (base = "" ∨ under p base = true) := by
  rw [parsePrefix] at h
  split at h
  · next hnone =>
    obtain rfl := Except.ok.inj h
    exact ⟨.inl ⟨hnone, rfl⟩, fun _ => default_shape hbase, .inr (under_base base (by decide))⟩
  · next v hv =>
    split at h
    · next q hwhy =>
      split at h
      · cases h
      · next hout =>
        obtain rfl := Except.ok.inj h
        refine ⟨.inr hv, fun hne => ?_, ?_⟩
        · rcases of_prefixError hwhy with ⟨-, hroot⟩ | hshape
          · exact absurd hroot hne
          · exact hshape
        · by_contra hno
          obtain ⟨hne, hunder⟩ := not_or.mp hno
          rw [← startsWith_or_eq_iff, not_or] at hunder
          exact hout ⟨hne, hunder.1, by rw [Bool.eq_false_iff.mpr hunder.2]; rfl⟩
    · cases h

/-- The limits of a block that the build writes. -/
structure ActionsRecord.Bounds (r : ActionsRecord) : Prop where
  body : 1 ≤ r.maxBodyBytes ∧ r.maxBodyBytes ≤ MAX_ACTION_BYTES
  response : MIN_RESPONSE_BYTES ≤ r.maxResponseBytes ∧ r.maxResponseBytes ≤ MAX_ACTION_BYTES
  stream : ∀ s ∈ r.stream, s.Bounds

def ActionsRecord.entries (r : ActionsRecord) : List (List Char) :=
  (r.stream.map (·.stream)).getD []

/-- A setting of `[actions]` as written. -/
def App.written (app : App) (key : String) : Option Toml :=
  match app.actions with
  | some (.table t) => t.lookup key
  | _ => none

/-- The base path, as the build normalises it. -/
def App.base (app : App) : String :=
  match parseBasePath app.basePath with
  | .ok base => base
  | .error _ => ""

/-- The prefix as written, or the default one under the base path. -/
def App.mount (app : App) : String :=
  match app.written "prefix" with
  | some (.str p) => p
  | _ => app.base ++ DEFAULT_ACTION_PREFIX

/-- **A local actions app that the build accepts**, as the manifest has it. -/
structure Accepted (js : Js) (app : App) (m : Manifest) (r : ActionsRecord) : Prop where
  bounds : r.Bounds
  base : m.basePath = app.base
  mount : r.pathPrefix = app.mount
  written : app.written "prefix" = none ∨ app.written "prefix" = some (.str r.pathPrefix)
  shape : r.pathPrefix ≠ "/" → prefixShape r.pathPrefix = true
  under : m.basePath = "" ∨ under r.pathPrefix m.basePath = true
  root : r.pathPrefix = "/" → m.actionsOnly = true
  routes : m.routes.any (shadowed r.pathPrefix) = false
  entries : ∀ es, app.written "stream" = some (.list es) →
    es.mapM (streamEntry js) = .ok r.entries
  none : (∀ es, app.written "stream" ≠ some (.list es)) → r.entries = []

theorem of_parseActions {js : Js} {app : App} {base : String} {a : ActionsBuildConfig}
    (h : parseActions js app.actions app.actionsOnly base = .ok (some a)) :
    ∃ t, app.actions = some (.table t) ∧
      parsePrefix t app.actionsOnly base = .ok a.pathPrefix ∧ a.record.Bounds ∧
      parseStream js t = .ok a.stream := by
  unfold parseActions at h
  split at h
  · cases h
  · next t ht =>
    obtain ⟨entry, -, h⟩ := bind_eq_ok.mp h
    obtain ⟨p, hp, h⟩ := bind_eq_ok.mp h
    obtain ⟨body, hbody, h⟩ := bind_eq_ok.mp h
    obtain ⟨response, hresponse, h⟩ := bind_eq_ok.mp h
    obtain ⟨crossSite, -, h⟩ := bind_eq_ok.mp h
    obtain ⟨baseUrl, -, h⟩ := bind_eq_ok.mp h
    obtain ⟨credentials, -, h⟩ := bind_eq_ok.mp h
    obtain ⟨stream, hstream, h⟩ := bind_eq_ok.mp h
    obtain rfl := Option.some.inj (Except.ok.inj h)
    exact ⟨t, ht, hp, ⟨intSetting_bounds hbody (by decide) (by decide),
      intSetting_bounds hresponse (by decide) (by decide), (of_parseStream hstream).1⟩, hstream⟩
  · cases h

/-- What the build checks beside the table. -/
theorem of_runBuild {js : Js} {app : App} {m : Manifest} {r : ActionsRecord}
    (h : runBuild js app = .ok m) (hr : m.actions = some r) :
    ∃ a : ActionsBuildConfig, r = a.record ∧ parseBasePath app.basePath = .ok m.basePath ∧
      parseActions js app.actions app.actionsOnly m.basePath = .ok (some a) ∧
      (a.pathPrefix = "/" → m.actionsOnly = true) ∧
      m.routes.any (shadowed a.pathPrefix) = false := by
  unfold runBuild at h
  obtain ⟨base, hbase, h⟩ := bind_eq_ok.mp h
  obtain ⟨built, hbuilt, h⟩ := bind_eq_ok.mp h
  split at h
  · unfold runActionsOnly at h
    split at h
    · cases h
    · next a =>
      split at h
      · cases h
      · obtain rfl := Except.ok.inj h
        obtain rfl := Option.some.inj hr
        exact ⟨a, rfl, hbase, hbuilt, fun _ => rfl, rfl⟩
  · simp only at h
    generalize hremote : (built.filter fun a =>
      a.baseUrl.isSome && !a.entryExplicit && !app.statOk a.entry) = remote at h
    generalize hactions : (if remote.isSome then none else built) = actions at h
    split at h
    · cases h
    · next hroot =>
      split at h
      · cases h
      · split at h
        · obtain rfl := Except.ok.inj h
          cases hr
        · next a =>
          split at h
          · cases h
          · split at h
            · cases h
            · next hroutes =>
              obtain rfl := Except.ok.inj h
              obtain rfl := Option.some.inj hr
              have hlocal : built = some a := by
                split at hactions
                · cases hactions
                · exact hactions
              refine ⟨a, rfl, hbase, hlocal ▸ hbuilt, fun hp => ?_, Bool.eq_false_iff.mpr hroutes⟩
              exact absurd (beq_iff_eq.mpr hp) hroot

/-- **What a build that passes has checked.** -/
theorem accepted {js : Js} {app : App} {m : Manifest} {r : ActionsRecord}
    (h : runBuild js app = .ok m) (hr : m.actions = some r) : Accepted js app m r := by
  obtain ⟨a, rfl, hbase, hactions, hroot, hroutes⟩ := of_runBuild h hr
  obtain ⟨t, ht, hprefix, hbounds, hstream⟩ := of_parseActions hactions
  have hwritten : ∀ key, app.written key = t.lookup key := fun key => by
    rw [App.written, ht]
  have hnormal : m.basePath = "" ∨ prefixShape m.basePath = true := by
    unfold parseBasePath at hbase
    split at hbase
    · exact .inl (Except.ok.inj hbase).symm
    · exact of_normalizeBasePath hbase
  have happ : m.basePath = app.base := by rw [App.base, hbase]
  obtain ⟨hcases, hshape, hunder⟩ := of_parsePrefix hprefix hnormal
  obtain ⟨-, hentries, hnone⟩ := of_parseStream hstream
  refine ⟨hbounds, happ, ?_, ?_, hshape, hunder, hroot, hroutes, fun es he => ?_, fun he => ?_⟩
  · rw [App.mount, hwritten]
    rcases hcases with ⟨hnone, hp⟩ | hp
    · rw [hnone, ← happ]
      exact hp
    · rw [hp]
      rfl
  · rw [hwritten]
    exact hcases.imp And.left id
  · exact hentries es (hwritten "stream" ▸ he)
  · rw [ActionsRecord.entries]
    change (a.stream.map _).getD [] = []
    rw [hnone fun es hes => he es (hwritten "stream" ▸ hes)]
    rfl

/-! ### What the server starts with -/

/-- The configuration of a block whose entries are these routes. -/
def serverConfig (r : ActionsRecord) (routes : List StreamRoute) : ActionsConfig where
  pathPrefix := r.pathPrefix
  maxBodyBytes := r.maxBodyBytes
  maxResponseBytes := r.maxResponseBytes
  crossSite := r.crossSite
  stream := {
    routes
    maxBytes := (r.stream.map (·.maxStreamBytes)).getD 268435456
    idleMs := (r.stream.map (·.streamIdleMs)).getD 30000
    totalMs := (r.stream.map (·.streamTotalMs)).getD 900000
    maxStreams := r.stream.bind (·.maxStreams) }

theorem toNat_ofNat_u32 {n hi : ℕ} (h : n ≤ hi) (hhi : hi < 2 ^ 32) :
    (UInt32.ofNat n).toNat = n := by
  rw [UInt32.toNat_ofNat']
  exact Nat.mod_eq_of_lt (Nat.lt_of_le_of_lt h hhi)

/-- The bounds of the streams cross as they are. -/
theorem stream_crosses {r : ActionsRecord} (h : r.Bounds) (routes : List StreamRoute) :
    let a := startOptions r
    (⟨routes, (a.maxStreamBytes.map fun n => n.toInt.toNat).getD 268435456,
      (a.streamIdleMs.map UInt32.toNat).getD 30000, (a.streamTotalMs.map UInt32.toNat).getD 900000,
      a.maxStreams.map UInt32.toNat⟩ : StreamConfig) = (serverConfig r routes).stream := by
  simp only [startOptions, serverConfig]
  cases hs : r.stream with
  | none => rfl
  | some s =>
      obtain ⟨⟨-, hbytes⟩, ⟨-, hidle⟩, ⟨-, htotal⟩, hstreams⟩ := h.stream s hs
      have hbytes' : (Int64.ofNat s.maxStreamBytes).toInt.toNat = s.maxStreamBytes := by
        rw [Int64.toInt_ofNat_of_lt (Nat.lt_of_le_of_lt hbytes (by decide)), Int.toNat_natCast]
      have hmax : (s.maxStreams.map UInt32.ofNat).map UInt32.toNat = s.maxStreams := by
        cases hn : s.maxStreams with
        | none => rfl
        | some n =>
            rw [Option.map_some, Option.map_some,
              toNat_ofNat_u32 (hstreams n hn).2 (by decide)]
      simp only [Option.map_some, Option.getD_some, Option.bind_some, hbytes', hmax,
        toNat_ofNat_u32 hidle (by decide), toNat_ofNat_u32 htotal (by decide)]

/-- The numbers cross as they are, and the entries are parsed. -/
theorem actionsConfig_iff {r : ActionsRecord} (h : r.Bounds) {c : ActionsConfig} :
    actionsConfig (startOptions r) = .ok c ↔
      ∃ routes, r.entries.mapM StreamRoute.parse = .ok routes ∧ c = serverConfig r routes := by
  have hsite : (if r.crossSite.text = "allow" then CrossSite.allow else .reject) =
      r.crossSite := by
    cases r.crossSite <;> rfl
  rw [actionsConfig, bind_eq_ok]
  refine exists_congr fun routes => ?_
  rw [mapError_eq_ok]
  refine and_congr Iff.rfl ?_
  rw [Except.ok.injEq, stream_crosses h routes, eq_comm]
  simp only [startOptions, Option.map_some, Option.getD_some, Option.some.injEq, hsite,
    toNat_ofNat_u32 h.body.2 (by decide), toNat_ofNat_u32 h.response.2 (by decide)]
  rfl

theorem limits_serverConfig {r : ActionsRecord} (h : r.Bounds) (routes : List StreamRoute) :
    (serverConfig r routes).Limits where
  body := h.body
  response := h.response
  stream := by
    rw [serverConfig]
    cases hs : r.stream with
    | none => exact (by decide : 1 ≤ 268435456 ∧ 268435456 ≤ MAX_STREAM_BYTES)
    | some s => exact (h.stream s hs).bytes
  times := by
    rw [serverConfig]
    cases hs : r.stream with
    | none => exact (by decide : ¬ (30000 = 0 ∨ 900000 = 0))
    | some s =>
        obtain ⟨-, ⟨hidle, -⟩, ⟨htotal, -⟩, -⟩ := h.stream s hs
        simp only [Option.map_some, Option.getD_some]
        omega
  streams := by
    rw [serverConfig]
    intro h0
    obtain ⟨s, hs, hn⟩ := Option.bind_eq_some_iff.mp h0
    have := (h.stream s hs).streams 0 hn
    omega

/-- **The server starts with the block, and serves its entries as they are written.** -/
def Starts (m : Manifest) (r : ActionsRecord) : Prop :=
  ∃ (c : ActionsConfig) (a : Core.Pipeline.ActionsConfig),
    actionsConfig (startOptions r) = .ok c ∧ c.validate m = .ok () ∧ a.pathPrefix = c.pathPrefix ∧
      (∀ e ∈ r.entries, EntryServed a e) ∧
      ∀ (method : List Char) (t : Target), Admitted a t →
        (c.streams method t.full = true ↔
          ∃ e ∈ r.entries, EntryNames e method (relative a.pathPrefix t.full))

/-- What `streamEntry` writes, and whether the server takes it as it is written. -/
theorem of_streamEntry {js : Js} {v : Toml} {w : List Char} (h : streamEntry js v = .ok w) :
    ∃ e m p, v = .str e ∧ words e.toList = some (m, p) ∧
      ∀ a : Core.Pipeline.ActionsConfig, EntryServed a w ↔ Kept a.pathPrefix p := by
  cases v with
  | str e =>
      rw [streamEntry] at h
      split at h
      · cases h
      · next hnone =>
        obtain rfl := Except.ok.inj h
        obtain ⟨m, p, hwords, hwrite, hm, hp, hspace⟩ := of_streamEntryError hnone
        refine ⟨e, m, p, rfl, hwords, fun a => ?_⟩
        rw [hwrite]
        exact entry_served_iff a hm hp hspace
  | num | special | bool | list | table => cases h

/-- The list of the server asks each entry. -/
theorem streams_iff {r : ActionsRecord} {routes : List StreamRoute}
    (hparse : r.entries.mapM StreamRoute.parse = .ok routes) {a : Core.Pipeline.ActionsConfig}
    (ha : a.pathPrefix = r.pathPrefix) (hserved : ∀ e ∈ r.entries, EntryServed a e)
    {method : List Char} {t : Target} (ht : Admitted a t) :
    (serverConfig r routes).streams method t.full = true ↔
      ∃ e ∈ r.entries, EntryNames e method (relative a.pathPrefix t.full) := by
  have hone : ∀ e ∈ r.entries, ∀ route, StreamRoute.parse e = .ok route →
      (route.matches method (relative a.pathPrefix t.full) = true ↔
        EntryNames e method (relative a.pathPrefix t.full)) := by
    intro e he route hroute
    obtain ⟨route', hroute', hiff⟩ := hserved e he
    rw [hroute] at hroute'
    obtain rfl := Except.ok.inj hroute'
    exact hiff method t ht
  rw [ActionsConfig.streams, List.any_eq_true]
  change (∃ route ∈ routes, route.matches method (relative r.pathPrefix t.full) = true) ↔ _
  rw [← ha]
  constructor
  · rintro ⟨route, hmem, hmatch⟩
    obtain ⟨e, he, hroute⟩ := mem_of_mapM_ok hparse hmem
    exact ⟨e, he, (hone e he route hroute).mp hmatch⟩
  · rintro ⟨e, he, hnames⟩
    obtain ⟨route, hmem, hroute⟩ := exists_of_mapM_ok hparse he
    exact ⟨route, hmem, (hone e he route hroute).mpr hnames⟩

/-- The prefix is clear of the server's own paths, and no entry loses its end. -/
structure Clear (app : App) : Prop where
  apart : ∀ p, app.written "prefix" = some (.str p) → Apart app.base p
  kept : ∀ es, app.written "stream" = some (.list es) → ∀ e, Toml.str e ∈ es →
    ∀ m p, words e.toList = some (m, p) → Kept app.mount p

/-- **A build that passes starts where the prefix is clear and the entries keep their ends.** -/
theorem starts_iff {js : Js} {app : App} {m : Manifest} {r : ActionsRecord}
    (h : runBuild js app = .ok m) (hr : m.actions = some r) : Starts m r ↔ Clear app := by
  have hok := accepted h hr
  have hvalid : r.pathPrefix = "/" ∨ prefixShape r.pathPrefix = true := by
    by_cases hp : r.pathPrefix = "/"
    · exact .inl hp
    · exact .inr (hok.shape hp)
  have hverdict : ∀ routes, (serverConfig r routes).validate m = .ok () ↔
      Apart m.basePath r.pathPrefix := fun routes =>
    ActionsConfig.validate_iff (limits_serverConfig hok.bounds routes) hok.root hok.shape
      (fun _ => hok.under) hok.routes
  have hapart : Apart m.basePath r.pathPrefix ↔
      ∀ p, app.written "prefix" = some (.str p) → Apart app.base p := by
    rw [hok.base]
    rcases hok.written with hnone | hp
    · refine iff_of_true ?_ fun p hp => ?_
      · rw [hok.mount, App.mount, hnone]
        exact default_apart _
      · rw [hnone] at hp
        cases hp
    · refine ⟨fun ha p hp' => ?_, fun ha => ha _ hp⟩
      rw [hp] at hp'
      cases hp'
      exact ha
  have hkept : ∀ a : Core.Pipeline.ActionsConfig, a.pathPrefix = r.pathPrefix →
      ((∀ e ∈ r.entries, EntryServed a e) ↔ ∀ es, app.written "stream" = some (.list es) →
        ∀ e, Toml.str e ∈ es → ∀ m p, words e.toList = some (m, p) → Kept app.mount p) := by
    intro a ha
    rw [← hok.mount, ← ha]
    constructor
    · intro hserved es hes e he m p hwords
      obtain ⟨w, hw, hentry⟩ := exists_of_mapM_ok (hok.entries es hes) he
      obtain ⟨e', m', p', hstr, hwords', hiff⟩ := of_streamEntry hentry
      obtain rfl := Toml.str.inj hstr
      rw [hwords] at hwords'
      cases hwords'
      exact (hiff a).mp (hserved w hw)
    · intro hkept w hw
      by_cases hlist : ∃ es, app.written "stream" = some (.list es)
      · obtain ⟨es, hes⟩ := hlist
        obtain ⟨v, hv, hentry⟩ := mem_of_mapM_ok (hok.entries es hes) hw
        obtain ⟨e, m, p, rfl, hwords, hiff⟩ := of_streamEntry hentry
        exact (hiff a).mpr (hkept es hes e hv m p hwords)
      · rw [hok.none fun es hes => hlist ⟨es, hes⟩] at hw
        cases hw
  constructor
  · rintro ⟨c, a, hc, hvalidate, ha, hserved, -⟩
    obtain ⟨routes, -, rfl⟩ := (actionsConfig_iff hok.bounds).mp hc
    exact ⟨hapart.mp ((hverdict routes).mp hvalidate), (hkept a ha).mp hserved⟩
  · intro hclear
    obtain ⟨a, ha⟩ : ∃ a : Core.Pipeline.ActionsConfig, a.pathPrefix = r.pathPrefix :=
      ⟨⟨r.pathPrefix, hvalid⟩, rfl⟩
    have hserved := (hkept a ha).mpr hclear.kept
    obtain ⟨routes, hparse⟩ := exists_mapM_ok (f := StreamRoute.parse) fun e he =>
      (hserved e he).imp fun _ hroute => hroute.1
    exact ⟨serverConfig r routes, a, (actionsConfig_iff hok.bounds).mpr ⟨routes, hparse, rfl⟩,
      (hverdict routes).mpr (hapart.mpr hclear.apart), ha, hserved,
      fun method t ht => streams_iff hparse ha hserved ht⟩

/-- The functions of the language on ASCII texts, and no URL. -/
def asciiJs : Js := ⟨fun s => s.map Char.toUpper, fun _ => none⟩

/-- An app with one page, whose files exist. -/
def onePage (basePath : Option Toml) (settings : List (String × Toml)) (home : String) : App where
  actionsOnly := false
  basePath := basePath
  actions := some (.table settings)
  leaves := [⟨"r0", home, false⟩]
  inside := fun _ => true
  statOk := fun _ => true

def uploadApp : App := onePage (some (.str "/app"))
  [("stream", .list [.str " post  /upload", .str "PUT /files/*"])] "/app"

def uploadRecord : ActionsRecord :=
  ⟨"actions.ts", "/app/_brust/action", 1048576, 8388608, .reject,
    some ⟨["POST /upload".toList, "PUT /files/*".toList], 268435456, 30000, 900000, none⟩⟩

def uploadManifest : Manifest :=
  ⟨[⟨"r0", "/app", false⟩], some uploadRecord, false, "/app", none⟩

theorem starts_iff_upload : Starts uploadManifest uploadRecord := by
  have hbuild : runBuild asciiJs uploadApp = .ok uploadManifest := by rfl
  refine (starts_iff hbuild rfl).mpr ⟨fun p hp => (by cases hp), fun es hes e he m p hwords => ?_⟩
  obtain rfl := Toml.list.inj (Option.some.inj hes)
  have hend : p = "/upload".toList ∨ p = "/files/*".toList := by
    rcases List.mem_cons.mp he with he | he
    · obtain rfl := Toml.str.inj he
      have hpair : words " post  /upload".toList = some ("post".toList, "/upload".toList) := by
        decide
      exact .inl (Prod.mk.inj (Option.some.inj (hpair.symm.trans hwords))).2.symm
    · obtain rfl := Toml.str.inj (List.mem_singleton.mp he)
      have hpair : words "PUT /files/*".toList = some ("PUT".toList, "/files/*".toList) := by
        decide
      exact .inr (Prod.mk.inj (Option.some.inj (hpair.symm.trans hwords))).2.symm
  rcases hend with rfl | rfl
  · exact .inl (by decide)
  · exact .inl (by decide)

def pingRecord : ActionsRecord :=
  ⟨"actions.ts", "/ping", 1048576, 8388608, .reject, none⟩

def pingManifest : Manifest := ⟨[⟨"r0", "/", false⟩], some pingRecord, false, "", none⟩

theorem green_build_stops :
    runBuild asciiJs (onePage none [("prefix", .str "/ping")] "/") = .ok pingManifest ∧
      pingManifest.actions = some pingRecord ∧ ¬ Starts pingManifest pingRecord := by
  have hconfig : actionsConfig (startOptions pingRecord) = .ok (serverConfig pingRecord []) := by
    rfl
  have hrefused : (serverConfig pingRecord []).validate pingManifest =
      .error "prefix overlaps a reserved path" := by rfl
  refine ⟨by rfl, rfl, ?_⟩
  rintro ⟨c, a, hc, hvalidate, -⟩
  obtain rfl := Except.ok.inj (hconfig.symm.trans hc)
  rw [hrefused] at hvalidate
  cases hvalidate

end Brust.Boot
