import Brust.Plan.CallIds
import Brust.Support.Search

/-!
# Plan — the worker calls of a build

What a request can call of the worker is asked of the manifest four times: `needsWorkers` (is there
a call at all), `reachedJobs` (which entries `jobs.js` keeps), `chain_has_stores` (does the server
call the loader for a store) and `routeStoresIndex` (which stores the worker has for a route).

The first is right (`pageCalls_eq_nil`).  The others agree where no ssr job lacks its entry for want
of a target, where each route that reads a store reads one that no empty target leads to, and where
routes of one id read stores alike (`plans_agree`, `plans_disagree`).  What the build writes is so
(`Built.shown`).
-/

namespace Brust.Plan

open Brust.Search

/-! ### The manifest the build writes -/

structure ComponentJson extends ComponentRecord where
  stores : List String

/-- A route, and whether it has a `cache` block. -/
structure RouteJson extends RouteRecord where
  loaders : List String
  cached : Bool

/-- The routes, the components by id, and whether there is an actions app and a cache adapter. -/
structure ManifestJson where
  routes : List RouteJson
  components : List (String × ComponentJson)
  actions : Bool
  cache : Bool

namespace ManifestJson

variable (m : ManifestJson)

/-- What the plan index is made of. -/
def plan : Manifest := ⟨m.components.map fun c => (c.1, c.2.toComponentRecord)⟩

def jobs (id : String) : List JobRecord := ((m.components.lookup id).map (·.jobs)).getD []

def children (id : String) : List String :=
  ((m.components.lookup id).map (·.children.map (·.id))).getD []

/-- The component reads a store itself. -/
def reads (id : String) : Bool := (m.components.lookup id).any fun c => !c.stores.isEmpty

/-- A component's children and then its jobs' targets. -/
def links (id : String) : List String := m.children id ++ (m.jobs id).filterMap (·.target)

/-- The reference checks of `walk`. -/
structure Accepted : Prop where
  ids : (m.components.map (·.1)).Nodup
  chain : ∀ r ∈ m.routes, ∀ id ∈ r.chain, id ∈ m.components.map (·.1)
  links : ∀ c ∈ m.components, ∀ id ∈ m.links c.1, id ∈ m.components.map (·.1)

/-! ### The build -/

/-- `planned` of `reachedJobs`: the chains' components and their children. -/
def planned : List String :=
  m.routes.flatMap fun r => r.chain.flatMap fun id => id :: m.children id

/-- `ssr` of `reachedJobs`: the targets of their ssr jobs. -/
def ssr : List String :=
  m.planned.flatMap fun id => (m.jobs id).filterMap fun j =>
    if j.kind = .ssr then j.target else none

/-- `readsStores`; one set of what was seen for all routes. -/
def readsStores : Bool :=
  (anyFrom (fun (r : RouteJson) seen =>
    anyFrom (search m.links m.reads (m.components.length + 1)) r.chain seen) m.routes []).1

def needsWorkers : Bool :=
  m.planned.any (fun id => !(m.jobs id).isEmpty) || m.routes.any (fun r => !r.loaders.isEmpty) ||
    m.readsStores || m.actions || m.cache

/-! ### The server -/

/-- `deep_stores`, by `reads_store` with nothing seen. -/
def deepStores (id : String) : Bool :=
  (search m.links m.reads (m.components.length + 1) id []).1

def chainHasStores (chain : List String) : Bool :=
  chain.any fun id => (m.plan.byId.lookup id).isSome && m.deepStores id

/-! ### The worker -/

/-- A component's children and then the targets that are no empty text. -/
def shownLinks (id : String) : List String :=
  m.children id ++ ((m.jobs id).filterMap (·.target)).filter (· ≠ "")

/-- `acc.add` of each store of a component. -/
def addStores (id : String) (acc : List String) : List String :=
  ((m.components.lookup id).elim [] (·.stores)).foldl
    (fun acc p => if p ∈ acc then acc else acc ++ [p]) acc

/-- The stores of a route, as they are come upon. -/
def routeStores (r : RouteJson) : List String :=
  (r.chain.foldl (fun s id => visit m.shownLinks m.addStores (m.components.length + 1) id s)
    ([], [])).1

/-- The later of two routes of one id stands before the earlier. -/
def routeStoresIndex : List (String × List String) :=
  m.routes.foldl (fun out r =>
    let acc := m.routeStores r
    if acc.isEmpty then out
    else (r.id, acc.mergeSort fun a b => decide (codeUnits a ≤ codeUnits b)) :: out) []

/-- The entry of `jobs.js` that `runJob` runs. -/
def owner (p : JobPlan) : String :=
  match p.kind with
  | .precompute => p.componentId
  | .ssr => p.target.getD p.componentId

/-- `jobs.js` keeps what the job runs. -/
def Kept (p : JobPlan) : Prop :=
  p.componentId ∈ m.planned ∧ (p.kind = .ssr → owner p ∈ m.ssr)

end ManifestJson

/-! ### The calls of a page -/

inductive WorkerCall where
  | loader
  | jobs
  | fetch
  | cache
  deriving DecidableEq

/-- A loader call's answer ends the request, came with the jobs' results, or is the data. -/
inductive LoaderAnswer where
  | ends
  | planned (fits : Bool)
  | data (ctx : Node)

/-- What a page request meets: whether it has a key, whether that hits in L1, whether the adapter
has the page, whether what it answers may be written back, the loader's answer, the context of the
path, the job cache, whether the jobs' results fit, and whether the page is rendered and kept. -/
structure Meets where
  keyed : Bool
  hit : Bool
  served : Bool
  writes : Bool
  loader : LoaderAnswer
  base : Node
  cache : String → Option Node
  fits : Bool
  kept : Bool

section Calls

variable {E : Type} (crates : Crates E) (idx : PlanIndex E) (m : ManifestJson)

/-- The jobs of a context: the calls, and whether the request goes on. -/
def jobCalls (r : RouteJson) (a : Meets) (ctx : Node) : List WorkerCall × Bool :=
  match collectJobs crates idx r.chain ctx with
  | .error _ => ([], false)
  | .ok plans =>
    if (lookupJobs a.cache plans).misses.isEmpty then ([], true) else ([.jobs], a.fits)

/-- The loader, where the route has one or its chain reads a store, and the jobs. -/
def renderCalls (r : RouteJson) (a : Meets) : List WorkerCall × Bool :=
  if !r.loaders.isEmpty || m.chainHasStores r.chain then
    match a.loader with
    | .ends => ([.loader], false)
    | .planned fits => ([.loader], fits)
    | .data ctx =>
      let (calls, goesOn) := jobCalls crates idx r a ctx
      (.loader :: calls, goesOn)
  else jobCalls crates idx r a a.base

/-- The worker calls of one page request, in their order. -/
def pageCalls (r : RouteJson) (a : Meets) : List WorkerCall :=
  if a.keyed && a.hit then []
  else if m.cache && a.keyed && r.cached then
    if a.served then [.cache]
    else
      let (calls, goesOn) := renderCalls crates idx m r a
      .cache :: calls ++ if goesOn && a.writes && a.kept then [.cache] else []
  else (renderCalls crates idx m r a).1

/-- The build, the server and the worker agree on what is called. -/
structure PlansAgree : Prop where
  workers : m.needsWorkers = false → ∀ r ∈ m.routes, ∀ a, pageCalls crates idx m r a = []
  jobs : ∀ r ∈ m.routes, ∀ ctx plans, collectJobs crates idx r.chain ctx = .ok plans →
    ∀ p ∈ plans, m.Kept p
  stores : ∀ r ∈ m.routes,
    m.chainHasStores r.chain = true ↔ (m.routeStoresIndex.lookup r.id).isSome = true

end Calls

/-! ### The jobs of a plan -/

section Planned

variable {E : Type} {crates : Crates E} {idx : PlanIndex E} {m : ManifestJson}

theorem childTpl_child {plan : Manifest} {id : String} {records : List ChildRecord}
    {ch : ChildRecord × ℕ} {t : ChildTpl E} (h : childTpl crates plan id records ch = .ok t) :
    plan.byId.lookup ch.1.id = some t.child := by
  cases hl : plan.byId.lookup ch.1.id with
  | none =>
      simp only [childTpl, hl] at h
      cases h
  | some i =>
      cases hi : ch.1.instances with
      | static | perRowLiteral =>
          simp only [childTpl, hl, hi, pure_bind] at h
          obtain ⟨props, -, h⟩ := bind_eq_ok.mp h
          obtain ⟨when, -, h⟩ := bind_eq_ok.mp h
          cases h
          rfl
      | perRow list =>
          simp only [childTpl, hl, hi, pure_bind] at h
          obtain ⟨path, -, h⟩ := bind_eq_ok.mp h
          obtain ⟨props, -, h⟩ := bind_eq_ok.mp h
          obtain ⟨when, -, h⟩ := bind_eq_ok.mp h
          cases h
          rfl

/-- A template of the component `id`: its jobs are the record's, and its children's components. -/
structure TplOf (m : ManifestJson) (id : String) (c : CompTpl E) : Prop where
  name : c.id = id
  jobs : ∀ t ∈ c.jobs, ∃ j ∈ m.jobs id, t.kind = j.kind ∧ t.target = j.target
  children : ∀ ch ∈ c.children, ∃ cid ∈ m.children id, m.plan.byId.lookup cid = some ch.child

theorem tplOf_compTpl {id : String} {rec : ComponentJson} {c : CompTpl E}
    (hrec : m.components.lookup id = some rec)
    (h : compTpl crates m.plan (id, rec.toComponentRecord) = .ok c) : TplOf m id c := by
  obtain ⟨jobs, hjobs, h⟩ := bind_eq_ok.mp h
  obtain ⟨children, hchildren, h⟩ := bind_eq_ok.mp h
  cases h
  refine ⟨rfl, fun t ht => ?_, fun ch hch => ?_⟩
  · obtain ⟨j, hj, htpl⟩ := mem_of_mapM_ok hjobs ht
    have hrecord := jobTpl_record (mapError_eq_ok.mp htpl)
    refine ⟨j, ?_, hrecord.1, hrecord.2.1⟩
    rw [ManifestJson.jobs, hrec]
    exact hj
  · obtain ⟨record, hrecord, htpl⟩ := mem_of_mapM_ok hchildren hch
    refine ⟨record.1.id, ?_, childTpl_child htpl⟩
    rw [ManifestJson.children, hrec]
    exact List.mem_map_of_mem (List.fst_mem_of_mem_zipIdx hrecord)

theorem tplOf_byId (hm : m.Accepted) (hidx : PlanIndex.new crates m.plan = .ok idx) {id : String}
    {i : ℕ} {c : CompTpl E} (hi : m.plan.byId.lookup id = some i) (hc : idx.comps[i]? = some c) :
    TplOf m id c := by
  obtain ⟨comps, hcomps, hidx⟩ := bind_eq_ok.mp hidx
  cases hidx
  obtain ⟨r, hr⟩ := getElem?_of_byId hi
  obtain ⟨hlt, rfl⟩ := List.getElem?_eq_some_iff.mp hc
  have hlt' : i < m.plan.components.length := length_of_mapM_ok hcomps ▸ hlt
  have hcomp := (List.forall₂_iff_get.mp (forall₂_of_mapM_ok hcomps)).2 i hlt' hlt
  rw [List.get_eq_getElem, List.get_eq_getElem] at hcomp
  -- the record is what the manifest has under the id
  obtain ⟨c, hc, he⟩ := List.mem_map.mp (List.mem_of_getElem? hr)
  obtain ⟨rfl, rfl⟩ := Prod.mk.inj he
  rw [List.getElem?_eq_getElem hlt', Option.some.injEq] at hr
  exact tplOf_compTpl ((SortedMap.lookup_iff_mem hm.ids).mpr hc) (hr ▸ hcomp)

/-- A plan of a job of the component `id`. -/
def PlanOf (m : ManifestJson) (id : String) (p : JobPlan) : Prop :=
  p.componentId = id ∧ ∃ j ∈ m.jobs id, p.kind = j.kind ∧ p.target = j.target

/-- What is planned is a job of a chain's component or of one of its children. -/
theorem planOf_collectJobs (hm : m.Accepted) (hidx : PlanIndex.new crates m.plan = .ok idx)
    {chain : List String} {ctx : Node} {plans : List JobPlan}
    (h : collectJobs crates idx chain ctx = .ok plans) {p : JobPlan} (hp : p ∈ plans) :
    ∃ id ∈ chain, ∃ cid, (cid = id ∨ cid ∈ m.children id) ∧ PlanOf m cid p := by
  have hbyId : idx.byId = m.plan.byId := by
    obtain ⟨comps, -, hidx⟩ := bind_eq_ok.mp hidx
    cases hidx
    rfl
  obtain ⟨id, hid, i, c, hi, hc, horigin⟩ := origin_collectJobs h hp
  have htpl := tplOf_byId hm hidx (hbyId ▸ hi) hc
  refine ⟨id, hid, ?_⟩
  rcases horigin with ⟨t, ht, hof, -⟩ | ⟨ch, hch, child, hchild, t, ht, hof, -⟩
  · obtain ⟨j, hj, hkind, htarget⟩ := htpl.jobs t ht
    exact ⟨id, .inl rfl, hof.component.trans htpl.name, j, hj, hof.kind.trans hkind,
      hof.target.trans htarget⟩
  · obtain ⟨cid, hcid, hlookup⟩ := htpl.children ch hch
    have hchildTpl := tplOf_byId hm hidx hlookup hchild
    obtain ⟨j, hj, hkind, htarget⟩ := hchildTpl.jobs t ht
    exact ⟨cid, .inr hcid, hof.component.trans hchildTpl.name, j, hj, hof.kind.trans hkind,
      hof.target.trans htarget⟩

end Planned

/-! ### Stores -/

namespace ManifestJson

variable {m : ManifestJson}

/-- Along the links a component of the route's chain reaches one that reads a store. -/
def ReadsStore (m : ManifestJson) (links : String → List String) (r : RouteJson) : Prop :=
  ∃ id ∈ r.chain, ∃ x, Reaches links id x ∧ m.reads x = true

theorem lookup_unknown {id : String} (h : id ∉ m.components.map (·.1)) :
    m.components.lookup id = none :=
  SortedMap.lookup_eq_none_iff.mpr h

theorem links_unknown : ∀ id ∉ m.components.map (·.1), m.links id = [] := fun id h => by
  rw [links, children, jobs, lookup_unknown h]
  rfl

theorem shownLinks_unknown : ∀ id ∉ m.components.map (·.1), m.shownLinks id = [] := fun id h => by
  rw [shownLinks, children, jobs, lookup_unknown h]
  rfl

theorem readsStores_iff : m.readsStores = true ↔ ∃ r ∈ m.routes, m.ReadsStore m.links r := by
  have hsearch := search_from m.reads (links_unknown (m := m)) (m.routes.flatMap (·.chain))
  rw [List.length_map] at hsearch
  rw [readsStores, anyFrom_flatMap, hsearch]
  constructor
  · rintro ⟨id, hid, x, hx⟩
    obtain ⟨r, hr, hid⟩ := List.mem_flatMap.mp hid
    exact ⟨r, hr, id, hid, x, hx⟩
  · rintro ⟨r, hr, id, hid, x, hx⟩
    exact ⟨id, List.mem_flatMap.mpr ⟨r, hr, hid⟩, x, hx⟩

theorem byId_isSome {id : String} (h : id ∈ m.components.map (·.1)) :
    (m.plan.byId.lookup id).isSome = true := by
  rw [← Option.ne_none_iff_isSome, ne_eq, SortedMap.lookup_eq_none_iff, not_not]
  obtain ⟨c, hc, rfl⟩ := List.mem_map.mp h
  have hplan : (c.1, c.2.toComponentRecord) ∈ m.plan.components := List.mem_map_of_mem hc
  obtain ⟨i, hi⟩ := List.getElem?_of_mem hplan
  refine List.mem_map.mpr ⟨(c.1, i), List.mem_map.mpr ⟨((c.1, c.2.toComponentRecord), i), ?_, rfl⟩,
    rfl⟩
  exact List.mem_zipIdx_iff_getElem?.mpr hi

theorem chainHasStores_iff (hm : m.Accepted) {r : RouteJson} (hr : r ∈ m.routes) :
    m.chainHasStores r.chain = true ↔ m.ReadsStore m.links r := by
  rw [chainHasStores, List.any_eq_true]
  refine exists_congr fun id => and_congr_right fun hid => ?_
  have hsearch := search_one m.reads (links_unknown (m := m)) id
  rw [List.length_map] at hsearch
  rw [byId_isSome (hm.chain r hr id hid), Bool.true_and, deepStores, hsearch]

theorem mem_addStores {id p : String} {acc : List String} :
    p ∈ m.addStores id acc ↔ p ∈ acc ∨ p ∈ (m.components.lookup id).elim [] (·.stores) := by
  rw [addStores]
  generalize (m.components.lookup id).elim [] (·.stores) = stores
  induction stores generalizing acc with
  | nil => simp
  | cons q stores ih =>
      rw [List.foldl_cons, ih, List.mem_cons]
      split
      · next hq =>
        refine ⟨fun h => h.imp_right .inr, ?_⟩
        rintro (h | rfl | h)
        · exact .inl h
        · exact .inl hq
        · exact .inr h
      · rw [List.mem_append, List.mem_singleton, or_assoc]

theorem reads_iff {id : String} :
    m.reads id = true ↔ ∃ p, p ∈ (m.components.lookup id).elim [] (·.stores) := by
  rw [reads]
  cases m.components.lookup id with
  | none => simp
  | some c => simp [List.eq_nil_iff_forall_not_mem]

theorem routeStores_iff {r : RouteJson} :
    (m.routeStores r).isEmpty = false ↔ m.ReadsStore m.shownLinks r := by
  obtain ⟨fresh, hacc, hfresh⟩ := visit_from m.addStores (shownLinks_unknown (m := m))
    r.chain []
  rw [List.length_map] at hacc
  have hmem : ∀ p, p ∈ m.routeStores r ↔
      ∃ x ∈ fresh, p ∈ (m.components.lookup x).elim [] (·.stores) := by
    intro p
    rw [routeStores, hacc]
    clear hacc hfresh
    induction fresh with
    | nil => simp
    | cons x fresh ih =>
        rw [List.foldr_cons, mem_addStores, ih, or_comm]
        simp only [List.mem_cons, exists_eq_or_imp]
  rw [Bool.eq_false_iff, ne_eq, List.isEmpty_iff, List.eq_nil_iff_forall_not_mem]
  constructor
  · intro h
    obtain ⟨p, hp⟩ := not_forall_not.mp h
    obtain ⟨x, hx, hp⟩ := (hmem p).mp hp
    obtain ⟨id, hid, hx⟩ := (hfresh x).mp hx
    exact ⟨id, hid, x, hx, reads_iff.mpr ⟨p, hp⟩⟩
  · rintro ⟨id, hid, x, hx, hreads⟩ hnone
    obtain ⟨p, hp⟩ := reads_iff.mp hreads
    exact hnone p ((hmem p).mpr ⟨x, (hfresh x).mpr ⟨id, hid, hx⟩, hp⟩)

/-- The worker has stores for an id exactly where some route of it reads one. -/
theorem routeStoresIndex_iff {id : String} : (m.routeStoresIndex.lookup id).isSome = true ↔
    ∃ r ∈ m.routes, r.id = id ∧ m.ReadsStore m.shownLinks r := by
  have hfold : ∀ (rs : List RouteJson) (out : List (String × List String)),
      ((rs.foldl (fun out r =>
        let acc := m.routeStores r
        if acc.isEmpty then out
        else (r.id, acc.mergeSort fun a b => decide (codeUnits a ≤ codeUnits b)) :: out)
          out).lookup id).isSome = true ↔
      (out.lookup id).isSome = true ∨ ∃ r ∈ rs, r.id = id ∧ m.ReadsStore m.shownLinks r := by
    intro rs
    induction rs with
    | nil => simp
    | cons r rs ih =>
        intro out
        rw [List.foldl_cons, ih]
        simp only [List.mem_cons, exists_eq_or_imp]
        split
        case isTrue he =>
          have hnot : ¬ m.ReadsStore m.shownLinks r := fun h => by
            rw [routeStores_iff.mpr h] at he
            cases he
          simp [hnot]
        case isFalse he =>
          have hreads := routeStores_iff.mp (Bool.eq_false_iff.mpr he)
          rw [SortedMap.lookup_cons_if]
          by_cases hid : id = r.id
          · simp [hid, hreads]
          · simp [hid, Ne.symm hid]
  exact (hfold m.routes []).trans (by simp)

theorem shownLinks_subset (id : String) : m.shownLinks id ⊆ m.links id := by
  intro x hx
  rcases List.mem_append.mp hx with hx | hx
  · exact List.mem_append.mpr (.inl hx)
  · exact List.mem_append.mpr (.inr (List.mem_of_mem_filter hx))

theorem ReadsStore.shown {r : RouteJson} (h : m.ReadsStore m.shownLinks r) :
    m.ReadsStore m.links r := by
  obtain ⟨id, hid, x, hx, hreads⟩ := h
  refine ⟨id, hid, x, ?_, hreads⟩
  exact Relation.ReflTransGen.mono (fun a _ hb => shownLinks_subset a hb) _ _ hx

theorem mem_planned {id : String} : id ∈ m.planned ↔
    ∃ r ∈ m.routes, ∃ head ∈ r.chain, id = head ∨ id ∈ m.children head := by
  simp only [planned, List.mem_flatMap, List.mem_cons]

end ManifestJson

/-! ### Agreement -/

section Agreement

variable {E : Type} {crates : Crates E} {idx : PlanIndex E} {m : ManifestJson}

/-- What is planned is a job of a component that the build counts as planned. -/
theorem planned_of_collectJobs (hm : m.Accepted) (hidx : PlanIndex.new crates m.plan = .ok idx)
    {r : RouteJson} (hr : r ∈ m.routes) {ctx : Node} {plans : List JobPlan}
    (h : collectJobs crates idx r.chain ctx = .ok plans) {p : JobPlan} (hp : p ∈ plans) :
    p.componentId ∈ m.planned ∧
      ∃ j ∈ m.jobs p.componentId, p.kind = j.kind ∧ p.target = j.target := by
  obtain ⟨id, hid, cid, hcid, rfl, hj⟩ := planOf_collectJobs hm hidx h hp
  exact ⟨ManifestJson.mem_planned.mpr ⟨r, hr, id, hid, hcid⟩, hj⟩

/-- **A build that needs no workers calls none.** -/
theorem pageCalls_eq_nil (hm : m.Accepted) (hidx : PlanIndex.new crates m.plan = .ok idx)
    (hneeds : m.needsWorkers = false) {r : RouteJson} (hr : r ∈ m.routes) (a : Meets) :
    pageCalls crates idx m r a = [] := by
  simp only [ManifestJson.needsWorkers, Bool.or_eq_false_iff] at hneeds
  obtain ⟨⟨⟨⟨hjobs, hloaders⟩, hstores⟩, -⟩, hcache⟩ := hneeds
  have hnojobs : ∀ ctx, (jobCalls crates idx r a ctx).1 = [] := by
    intro ctx
    rw [jobCalls]
    split
    · rfl
    · next plans hplans =>
      have hnone : plans = [] := by
        refine List.eq_nil_iff_forall_not_mem.mpr fun p hp => ?_
        obtain ⟨hid, j, hj, -⟩ := planned_of_collectJobs hm hidx hr hplans hp
        have hempty := List.any_eq_false.mp hjobs _ hid
        rw [Bool.not_eq_true, Bool.not_eq_false', List.isEmpty_iff] at hempty
        rw [hempty] at hj
        cases hj
      subst hnone
      rfl
  have hnoloader : (!r.loaders.isEmpty) = false :=
    Bool.eq_false_iff.mpr (List.any_eq_false.mp hloaders r hr)
  have hnostores : m.chainHasStores r.chain = false := by
    rw [Bool.eq_false_iff, ne_eq, ManifestJson.chainHasStores_iff hm hr]
    intro h
    have hreads := ManifestJson.readsStores_iff.mpr ⟨r, hr, h⟩
    rw [hstores] at hreads
    cases hreads
  have hrender : (renderCalls crates idx m r a).1 = [] := by
    rw [renderCalls, hnoloader, hnostores]
    exact hnojobs a.base
  rw [pageCalls, hcache]
  split
  · rfl
  · exact hrender

/-- Each ssr job of a chain's component, or of a child of one, names a target or is of a component
that such a job targets. -/
def Targeted (m : ManifestJson) : Prop :=
  ∀ id ∈ m.planned, ∀ j ∈ m.jobs id, j.kind = .ssr → j.target = none → id ∈ m.ssr

/-- Routes of one id read stores alike, and one of them reads a store that no empty target leads to
where one reads a store at all. -/
structure StoresShown (m : ManifestJson) : Prop where
  alike : ∀ r ∈ m.routes, ∀ r' ∈ m.routes, r.id = r'.id →
    (m.ReadsStore m.links r ↔ m.ReadsStore m.links r')
  shown : ∀ r ∈ m.routes, m.ReadsStore m.links r →
    ∃ r' ∈ m.routes, r'.id = r.id ∧ m.ReadsStore m.shownLinks r'

/-- A planned job is kept. -/
theorem kept_of_targeted (hm : m.Accepted) (hidx : PlanIndex.new crates m.plan = .ok idx)
    (ht : Targeted m) {r : RouteJson} (hr : r ∈ m.routes) {ctx : Node} {plans : List JobPlan}
    (h : collectJobs crates idx r.chain ctx = .ok plans) {p : JobPlan} (hp : p ∈ plans) :
    m.Kept p := by
  obtain ⟨hid, j, hj, hkind, htarget⟩ := planned_of_collectJobs hm hidx hr h hp
  refine ⟨hid, fun hk => ?_⟩
  have howner : ManifestJson.owner p = p.target.getD p.componentId := by
    rw [ManifestJson.owner, hk]
  rw [howner]
  cases hnone : p.target with
  | none => exact ht _ hid j hj (hkind.symm.trans hk) (htarget.symm.trans hnone)
  | some target =>
      refine List.mem_flatMap.mpr ⟨p.componentId, hid, List.mem_filterMap.mpr ⟨j, hj, ?_⟩⟩
      rw [if_pos (hkind.symm.trans hk), ← htarget, hnone]
      rfl

theorem stores_iff (hm : m.Accepted) : (∀ r ∈ m.routes,
    m.chainHasStores r.chain = true ↔ (m.routeStoresIndex.lookup r.id).isSome = true) ↔
      StoresShown m := by
  constructor
  · intro h
    have hboth : ∀ r ∈ m.routes, m.ReadsStore m.links r ↔
        ∃ r' ∈ m.routes, r'.id = r.id ∧ m.ReadsStore m.shownLinks r' := fun r hr => by
      rw [← ManifestJson.chainHasStores_iff hm hr, h r hr, ManifestJson.routeStoresIndex_iff]
    exact ⟨fun r hr r' hr' he => by rw [hboth r hr, hboth r' hr', he],
      fun r hr => (hboth r hr).mp⟩
  · intro h r hr
    rw [ManifestJson.chainHasStores_iff hm hr, ManifestJson.routeStoresIndex_iff]
    refine ⟨h.shown r hr, ?_⟩
    rintro ⟨r', hr', he, hreads⟩
    exact (h.alike r' hr' r hr he).mp hreads.shown

/-- **The build, the server and the worker agree** where no ssr job lacks its entry for want of a
target and the stores of each route are shown. -/
theorem plans_agree (hm : m.Accepted) (hidx : PlanIndex.new crates m.plan = .ok idx)
    (htargeted : Targeted m) (hshown : StoresShown m) : PlansAgree crates idx m where
  workers hneeds _ hr a := pageCalls_eq_nil hm hidx hneeds hr a
  jobs _ hr _ _ hplans _ hp := kept_of_targeted hm hidx htargeted hr hplans hp
  stores := (stores_iff hm).mpr hshown

/-- What the build writes: each route has its name, each ssr job a target, and no component is
without a name. -/
structure Built (m : ManifestJson) : Prop where
  routes : (m.routes.map (·.id)).Nodup
  names : "" ∉ m.components.map (·.1)
  targets : ∀ c ∈ m.components, ∀ j ∈ c.2.jobs, j.kind = .ssr → j.target ≠ none

theorem shownLinks_eq (hm : m.Accepted) (hb : Built m) : m.shownLinks = m.links := by
  funext id
  rw [ManifestJson.shownLinks, ManifestJson.links, List.append_cancel_left_eq,
    List.filter_eq_self]
  intro target htarget
  refine decide_eq_true fun he => hb.names ?_
  by_cases hid : id ∈ m.components.map (·.1)
  · obtain ⟨c, hc, rfl⟩ := List.mem_map.mp hid
    exact he ▸ hm.links c hc target (List.mem_append.mpr (.inr htarget))
  · rw [ManifestJson.jobs, ManifestJson.lookup_unknown hid] at htarget
    cases htarget

theorem Built.shown (hb : Built m) (hm : m.Accepted) : Targeted m ∧ StoresShown m := by
  refine ⟨fun id _ j hj hk hnone => ?_, fun r hr r' hr' he => ?_, fun r hr hreads =>
    ⟨r, hr, rfl, ?_⟩⟩
  · rw [ManifestJson.jobs] at hj
    cases hl : m.components.lookup id with
    | none =>
        rw [hl] at hj
        cases hj
    | some c =>
        rw [hl] at hj
        exact absurd hnone (hb.targets _ (SortedMap.mem_of_lookup hl) j hj hk)
  · rw [List.inj_on_of_nodup_map hb.routes hr hr' he]
  · rwa [shownLinks_eq hm hb]

end Agreement

/-! ### Where they do not agree -/

/-- A component with no children. -/
def part (jobs : List JobRecord) (stores : List String) : ComponentJson :=
  { jobs, children := [], stores }

def ssrJob (target : Option String) : JobRecord :=
  { id := "j0", kind := .ssr, inputs := [], perInstance := none, cache := ⟨none, [], none⟩
    outputs := [], target, props := none }

/-- Routes by their ids, each of one component. -/
def pages (routes : List (String × String)) (components : List (String × ComponentJson)) :
    ManifestJson :=
  { routes := routes.map fun r => { id := r.1, chain := [r.2], loaders := [], cached := false }
    components, actions := false, cache := false }

/-- A page whose component reads a store and has a job for an island. -/
def island : ManifestJson :=
  pages [("r0", "card")] [("card", part [ssrJob (some "badge")] ["s"]), ("badge", part [] [])]

/-- A component whose ssr job names no target. -/
def untargeted : ManifestJson := pages [("r0", "card")] [("card", part [ssrJob none] [])]

/-- A component without a name reads a store. -/
def unnamed : ManifestJson :=
  pages [("r0", "card")] [("card", part [ssrJob (some "")] []), ("", part [] ["s"])]

/-- Two routes of one id. -/
def twins : ManifestJson :=
  pages [("r0", "card"), ("r0", "badge")] [("card", part [] []), ("badge", part [] ["s"])]

theorem island_accepted : island.Accepted where
  ids := by decide
  chain := by decide
  links := by decide

theorem plans_agree_island :
    ∃ idx, PlanIndex.new cardCrates island.plan = .ok idx ∧ PlansAgree cardCrates idx island := by
  have hbuilt : Built island := ⟨by decide, by decide, by decide⟩
  have hshown := hbuilt.shown island_accepted
  exact ⟨_, rfl, plans_agree island_accepted rfl hshown.1 hshown.2⟩

/-- **Three manifests that the loader accepts and on which they do not agree.** -/
theorem plans_disagree :
    (untargeted.Accepted ∧ ∃ idx, PlanIndex.new cardCrates untargeted.plan = .ok idx ∧
      ¬ PlansAgree cardCrates idx untargeted) ∧
    (unnamed.Accepted ∧ ∃ idx, PlanIndex.new cardCrates unnamed.plan = .ok idx ∧
      ¬ PlansAgree cardCrates idx unnamed) ∧
    (twins.Accepted ∧ ∃ idx, PlanIndex.new cardCrates twins.plan = .ok idx ∧
      ¬ PlansAgree cardCrates idx twins) := by
  refine ⟨⟨⟨by decide, by decide, by decide⟩, _, rfl, fun h => ?_⟩,
    ⟨⟨by decide, by decide, by decide⟩, _, rfl, fun h => ?_⟩,
    ⟨⟨by decide, by decide, by decide⟩, _, rfl, fun h => ?_⟩⟩
  · -- the job runs the component's own function, which `jobs.js` leaves out
    have hkept := h.jobs _ List.mem_cons_self (.map [] none) _ rfl _ List.mem_cons_self
    exact absurd (hkept.2 rfl) (by decide)
  · -- the server calls the loader for a store that the worker does not find
    exact absurd ((h.stores _ List.mem_cons_self).mp (by decide)) (by decide)
  · -- the worker has a store for the route that reads none
    exact absurd ((h.stores _ List.mem_cons_self).mpr (by decide)) (by decide)

end Brust.Plan
