import Brust.Plan.Index

/-!
# Plan — the jobs of a request

`collect_jobs` plans every job of a route's chain in template order, `lookup_jobs` asks the job
cache and gives each missing key one owner, `jobs_request` builds the one call for the owners, and
`rehydrate` makes the plans again of what was kept of them across the worker's call.

**Rehydration** (`rehydrate_rows`): a plan that was collected is, but for its inputs, what
`rehydrate` makes of its row.
-/

namespace Brust.Plan

variable {E : Type}

/-! ### Plans -/

/-- Where a job's value lands. -/
inductive Dest where
  | chain (component : String) (row : Option ℕ)
  | child (parent component slot : String) (row : Option ℕ)

/-- Where a plan's template lies in the index; `via` is the parent component and the child record
of an inlined child. -/
structure PlanSrc where
  comp : UInt32
  job : UInt32
  via : Option (UInt32 × UInt32)

structure JobPlan where
  key : String
  callPrefix : String
  callRow : Option ℕ
  componentId : String
  jobId : String
  kind : JobKind
  inputs : Node
  ttl : Option ℕ
  tags : List String
  userKey : Option String
  dest : Dest
  outputs : List String
  target : Option String
  src : PlanSrc

/-- What survives the worker call of a plan. -/
structure PlanRow where
  src : PlanSrc
  row : Option ℕ
  key : String
  userKey : Option String

namespace JobPlan

def toRow (p : JobPlan) : PlanRow := ⟨p.src, p.callRow, p.key, p.userKey⟩

/-- The row of a `per_instance` job. -/
def instanceRow (p : JobPlan) : Option ℕ :=
  match p.dest with
  | .chain _ row => row
  | .child _ _ _ _ => none

def callId (p : JobPlan) : String :=
  match p.callRow with
  | some r => p.callPrefix ++ "/" ++ toString r
  | none => p.callPrefix

/-- The plan with no inputs. -/
def withoutInputs (p : JobPlan) : JobPlan := { p with inputs := .null }

end JobPlan

/-! ### Planning one job -/

def PROPS_HIDDEN : List String := ["__children", "__own", "__store"]

def STORE_KEY : String := "__store"

def allProps : Node → Node
  | .map entries _ => .map (entries.filter fun e => e.1 ∉ PROPS_HIDDEN) none
  | v => v

section Collect

variable (crates : Crates E) (idx : PlanIndex E)

def jobInputs (j : JobTpl E) (props : Node) (row : Option ℕ) : Except PlanError Node :=
  match j.inputs with
  | .props map => map.eval crates props row
  | .all => pure (allProps props)
  | .project p => p.eval props none

def userKey : Node → Option String
  | .null => none
  | .str s => some s
  | v => some (canonical crates v)

/-- The job's key, and the user's key it was made of. -/
def planKey (cid keyJob : String) (j : JobTpl E) (props projected : Node) :
    String × Option String :=
  match j.cacheKey.bind fun expr => userKey crates (expr.get props none) with
  | some u => ("k:" ++ cid ++ "/" ++ keyJob ++ "/" ++ u, some u)
  | none => (jobKey crates cid keyJob projected, none)

/-- An ssr job renders in a store scope, so the snapshot is one of its inputs. -/
def withStore (kind : JobKind) (snapshot : Option Node) (projected : Node) : Node :=
  match kind, snapshot, projected with
  | .ssr, some st, .map entries order => .map (SortedMap.insert STORE_KEY st entries) order
  | _, _, _ => projected

def planOne (cid callPrefix : String) (j : JobTpl E) (props : Node) (dest : Dest)
    (row : Option ℕ) (src : PlanSrc) (snapshot : Option Node) : Except PlanError JobPlan := do
  let perInstance := match dest with
    | .chain _ row => row
    | .child _ _ _ _ => none
  let projected ← jobInputs crates j props perInstance
  let projected := withStore j.kind snapshot projected
  -- equal rows share an entry if their props are their inputs; otherwise the row is in the key
  let keyJob := match perInstance with
    | some r => if !j.hasProps || j.cacheKey.isSome then j.id ++ "#" ++ toString r else j.id
    | none => j.id
  let keys := planKey crates cid keyJob j props projected
  pure
    { key := keys.1, callPrefix, callRow := row, componentId := cid, jobId := j.id, kind := j.kind
      inputs := projected, ttl := j.ttl, tags := j.tags, userKey := keys.2, dest
      outputs := j.outputs, target := j.target, src }

/-! ### Planning a request -/

/-- The rows of a `per_instance` job, or the one call of any other. -/
def ownRows (j : JobTpl E) (ctx : Node) : List (Option ℕ) :=
  match j.perInstance with
  | none => [none]
  | some list => (List.range (list.get ctx none).rowCount).map some

/-- The instances of a child: one per row, or one. -/
def childRows (ch : ChildTpl E) (ctx : Node) : List (Option ℕ) :=
  match ch.rows with
  | none => [none]
  | some list => (List.range (list.count ctx)).map some

/-- A chain component's own jobs. -/
def ownPlans (c : CompTpl E) (ci : ℕ) (ctx : Node) (snapshot : Option Node) :
    Except PlanError (List JobPlan) := do
  let plans ← (c.jobs.zip c.callPrefixes).zipIdx.mapM fun j =>
    (ownRows j.1.1 ctx).mapM fun row =>
      planOne crates c.id j.1.2 j.1.1 ctx (.chain c.id row) row
        ⟨UInt32.ofNat ci, UInt32.ofNat j.2, none⟩ snapshot
  pure plans.flatten

/-- The jobs of one instance of a child; an instance whose branch does not render it has none. -/
def instancePlans (c : CompTpl E) (ci ri : ℕ) (ch : ChildTpl E) (child : CompTpl E) (ctx : Node)
    (snapshot : Option Node) (row : Option ℕ) : Except PlanError (List JobPlan) :=
  if ch.when.any fun w => !w.holds ctx row then pure []
  else do
    let props ← ch.props.eval crates ctx row
    (child.jobs.zip ch.callPrefixes).zipIdx.mapM fun j =>
      planOne crates child.id j.1.2 j.1.1 props (.child c.id child.id ch.slot row) row
        ⟨UInt32.ofNat ch.child, UInt32.ofNat j.2, some (UInt32.ofNat ci, UInt32.ofNat ri)⟩ snapshot

/-- The jobs of a chain component's `ri`-th child. -/
def childPlans (c : CompTpl E) (ci : ℕ) (ctx : Node) (snapshot : Option Node)
    (ch : ChildTpl E × ℕ) : Except PlanError (List JobPlan) :=
  match idx.comps[ch.1.child]? with
  | none => throw .panics
  | some child =>
    if child.jobs.isEmpty then pure []
    else do
      let plans ← (childRows ch.1 ctx).mapM
        (instancePlans crates c ci ch.2 ch.1 child ctx snapshot)
      pure plans.flatten

/-- The jobs of one chain component: its own, then its children's. -/
def compPlans (ctx : Node) (snapshot : Option Node) (id : String) :
    Except PlanError (List JobPlan) :=
  match idx.byId.lookup id with
  | none => throw (.unknownComponent id)
  | some ci =>
    match idx.comps[ci]? with
    | none => throw .panics
    | some c => do
      let own ← ownPlans crates c ci ctx snapshot
      let inlined ← c.children.zipIdx.mapM (childPlans crates idx c ci ctx snapshot)
      pure (own ++ inlined.flatten)

def collectJobs (chain : List String) (ctx : Node) : Except PlanError (List JobPlan) := do
  let plans ← chain.mapM (compPlans crates idx ctx (ctx.get STORE_KEY))
  pure plans.flatten

end Collect

/-! ### Where plans come from -/

/-- The plan of a job of a component. -/
structure JobPlan.IsOf (p : JobPlan) (cid : String) (t : JobTpl E) : Prop where
  component : p.componentId = cid
  kind : p.kind = t.kind
  target : p.target = t.target
  outputs : p.outputs = t.outputs

section
variable {crates : Crates E} {idx : PlanIndex E}

theorem isOf_planOne {cid callPrefix : String} {t : JobTpl E} {props : Node} {dest : Dest}
    {row : Option ℕ} {src : PlanSrc} {snapshot : Option Node} {p : JobPlan}
    (h : planOne crates cid callPrefix t props dest row src snapshot = .ok p) :
    p.IsOf cid t ∧ p.dest = dest := by
  obtain ⟨projected, -, h⟩ := bind_eq_ok.mp h
  cases h
  exact ⟨⟨rfl, rfl, rfl, rfl⟩, rfl⟩

theorem getElem?_of_mem_zip_zipIdx {α β : Type} {as : List α} {bs : List β} {j : (α × β) × ℕ}
    (h : j ∈ (as.zip bs).zipIdx) : as[j.2]? = some j.1.1 ∧ bs[j.2]? = some j.1.2 := by
  obtain ⟨ha, hb⟩ := List.getElem?_zip_eq_some.mp (List.mem_zipIdx_iff_getElem?.mp h)
  exact ⟨ha, hb⟩

theorem origin_ownPlans {c : CompTpl E} {ci : ℕ} {ctx : Node} {snapshot : Option Node}
    {plans : List JobPlan} (h : ownPlans crates c ci ctx snapshot = .ok plans) {p : JobPlan}
    (hp : p ∈ plans) : ∃ t ∈ c.jobs, p.IsOf c.id t ∧ ∃ row, p.dest = .chain c.id row := by
  obtain ⟨perJob, hperJob, h⟩ := bind_eq_ok.mp h
  cases h
  obtain ⟨ps, hps, hp⟩ := List.mem_flatten.mp hp
  obtain ⟨j, hj, hrows⟩ := mem_of_mapM_ok hperJob hps
  obtain ⟨row, -, hplan⟩ := mem_of_mapM_ok hrows hp
  obtain ⟨hof, hdest⟩ := isOf_planOne hplan
  exact ⟨_, List.mem_of_getElem? (getElem?_of_mem_zip_zipIdx hj).1, hof, row, hdest⟩

theorem origin_childPlans {c : CompTpl E} {ci : ℕ} {ch : ChildTpl E × ℕ} {ctx : Node}
    {snapshot : Option Node} {plans : List JobPlan}
    (h : childPlans crates idx c ci ctx snapshot ch = .ok plans) {p : JobPlan} (hp : p ∈ plans) :
    ∃ child, idx.comps[ch.1.child]? = some child ∧ ∃ t ∈ child.jobs, p.IsOf child.id t ∧
      ∃ row, p.dest = .child c.id child.id ch.1.slot row := by
  unfold childPlans at h
  cases hchild : idx.comps[ch.1.child]? with
  | none =>
      rw [hchild] at h
      cases h
  | some child =>
      rw [hchild] at h
      dsimp only at h
      split at h
      · cases h
        cases hp
      · obtain ⟨perRow, hperRow, h⟩ := bind_eq_ok.mp h
        cases h
        obtain ⟨ps, hps, hp⟩ := List.mem_flatten.mp hp
        obtain ⟨row, -, hplans⟩ := mem_of_mapM_ok hperRow hps
        unfold instancePlans at hplans
        split at hplans
        · cases hplans
          cases hp
        · obtain ⟨props, -, hplans⟩ := bind_eq_ok.mp hplans
          obtain ⟨j, hj, hplan⟩ := mem_of_mapM_ok hplans hp
          obtain ⟨hof, hdest⟩ := isOf_planOne hplan
          exact ⟨child, rfl, _, List.mem_of_getElem? (getElem?_of_mem_zip_zipIdx hj).1, hof, row,
            hdest⟩

/-- **What is planned** is a job of a chain's component, or of one of its children. -/
theorem origin_collectJobs {chain : List String} {ctx : Node} {plans : List JobPlan}
    (h : collectJobs crates idx chain ctx = .ok plans) {p : JobPlan} (hp : p ∈ plans) :
    ∃ id ∈ chain, ∃ i c, idx.byId.lookup id = some i ∧ idx.comps[i]? = some c ∧
      ((∃ t ∈ c.jobs, p.IsOf c.id t ∧ ∃ row, p.dest = .chain c.id row) ∨
        ∃ ch ∈ c.children, ∃ child, idx.comps[ch.child]? = some child ∧
          ∃ t ∈ child.jobs, p.IsOf child.id t ∧
            ∃ row, p.dest = .child c.id child.id ch.slot row) := by
  obtain ⟨perComp, hperComp, h⟩ := bind_eq_ok.mp h
  cases h
  obtain ⟨ps, hps, hp⟩ := List.mem_flatten.mp hp
  obtain ⟨id, hid, hplans⟩ := mem_of_mapM_ok hperComp hps
  unfold compPlans at hplans
  cases hi : idx.byId.lookup id with
  | none =>
      rw [hi] at hplans
      cases hplans
  | some i =>
      rw [hi] at hplans
      cases hc : idx.comps[i]? with
      | none =>
          simp only [hc] at hplans
          cases hplans
      | some c =>
          simp only [hc] at hplans
          obtain ⟨own, hown, hplans⟩ := bind_eq_ok.mp hplans
          obtain ⟨inlined, hinlined, hplans⟩ := bind_eq_ok.mp hplans
          cases hplans
          refine ⟨id, hid, i, c, hi, hc, ?_⟩
          rcases List.mem_append.mp hp with hp | hp
          · exact .inl (origin_ownPlans hown hp)
          · obtain ⟨qs, hqs, hp⟩ := List.mem_flatten.mp hp
            obtain ⟨ch, hch, hplans⟩ := mem_of_mapM_ok hinlined hqs
            exact .inr ⟨ch.1, List.fst_mem_of_mem_zipIdx hch, origin_childPlans hplans hp⟩

end

/-! ### Lookup and request -/

structure Lookup where
  values : List (Option Node)
  owner : List ℕ
  misses : List ℕ

/-- The owner of each plan from the `i`-th on, and the owners that miss: the first plan that misses
a key owns it. -/
def owners : ℕ → List (String × ℕ) → List (String × Option Node) → List ℕ × List ℕ
  | _, _, [] => ([], [])
  | i, first, (_, some _) :: rest =>
    let (owner, misses) := owners (i + 1) first rest
    (i :: owner, misses)
  | i, first, (key, none) :: rest =>
    match first.lookup key with
    | some o =>
      let (owner, misses) := owners (i + 1) first rest
      (o :: owner, misses)
    | none =>
      let (owner, misses) := owners (i + 1) ((key, i) :: first) rest
      (i :: owner, i :: misses)

/-- `cache` is what the job store answers. -/
def lookupJobs (cache : String → Option Node) (plans : List JobPlan) : Lookup :=
  let (owner, misses) := owners 0 [] (plans.map fun p => (p.key, cache p.key))
  ⟨plans.map fun p => cache p.key, owner, misses⟩

structure JobCall where
  id : String
  componentId : String
  kind : JobKind
  inputs : Node
  target : Option String
  row : Option ℕ

def jobsRequest (plans : List JobPlan) (misses : List ℕ) : List JobCall :=
  misses.filterMap fun i => plans[i]?.map fun p =>
    ⟨p.callId, p.componentId, p.kind, p.inputs, p.target, p.instanceRow⟩

/-- A call as JSON, an absent target and an absent row left out. -/
def JobCall.text (crates : Crates E) (c : JobCall) : List Char :=
  Node.objectText
    ([("id", jsonString c.id.toList), ("componentId", jsonString c.componentId.toList),
        ("kind", jsonString (match c.kind with
          | .precompute => "precompute"
          | .ssr => "ssr").toList),
        ("inputs", c.inputs.text crates.ryu true)] ++
      (c.target.map fun t => ("target", jsonString t.toList)).toList ++
      (c.row.map fun r => ("row", (toString r).toList)).toList)

/-- `serde_json::to_string` of a request. -/
def requestText (crates : Crates E) (jobs : List JobCall) : String :=
  String.ofList (Node.objectText
    [("jobs", '[' :: Node.joined ',' (jobs.map (JobCall.text crates)) ++ [']'])])

/-! ### Rehydration -/

/-- The plan a row describes; none where an index is out of bounds. -/
def rehydrateRow (idx : PlanIndex E) (r : PlanRow) : Option JobPlan := do
  let comp ← idx.comps[r.src.comp.toNat]?
  let job := r.src.job.toNat
  let jt ← comp.jobs[job]?
  let at_ ← match r.src.via with
    | none => comp.callPrefixes[job]?.map fun callPrefix => (callPrefix, Dest.chain comp.id r.row)
    | some (parent, child) => do
      let p ← idx.comps[parent.toNat]?
      let ch ← p.children[child.toNat]?
      ch.callPrefixes[job]?.map fun callPrefix =>
        (callPrefix, Dest.child p.id comp.id ch.slot r.row)
  pure
    { key := r.key, callPrefix := at_.1, callRow := r.row, componentId := comp.id, jobId := jt.id
      kind := jt.kind, inputs := .null, ttl := jt.ttl, tags := jt.tags, userKey := r.userKey
      dest := at_.2, outputs := jt.outputs, target := jt.target, src := r.src }

def rehydrate (idx : PlanIndex E) (rows : List PlanRow) : Option (List JobPlan) :=
  rows.mapM (rehydrateRow idx)

section Rehydrate

variable {crates : Crates E} {idx : PlanIndex E}

/-- The plan can be made again of its row. -/
def Planted (idx : PlanIndex E) (p : JobPlan) : Prop :=
  rehydrateRow idx p.toRow = some p.withoutInputs

/-- The `j`-th of two lists zipped and numbered. -/
theorem toNat_ofNat_of_getElem? {α : Type} {l : List α} {i : ℕ} {a : α} (hl : l.length ≤ 2 ^ 32)
    (h : l[i]? = some a) : (UInt32.ofNat i).toNat = i := by
  obtain ⟨hi, -⟩ := List.getElem?_eq_some_iff.mp h
  rw [UInt32.toNat_ofNat']
  exact Nat.mod_eq_of_lt (by omega)

/-- A job of a chain component. -/
theorem planted_own (hidx : idx.Fits) {ci : ℕ} {c : CompTpl E} (hc : idx.comps[ci]? = some c)
    {j : (JobTpl E × String) × ℕ} (hj : j ∈ (c.jobs.zip c.callPrefixes).zipIdx) {ctx : Node}
    {row : Option ℕ} {snapshot : Option Node} {p : JobPlan}
    (h : planOne crates c.id j.1.2 j.1.1 ctx (.chain c.id row) row
      ⟨UInt32.ofNat ci, UInt32.ofNat j.2, none⟩ snapshot = .ok p) : Planted idx p := by
  obtain ⟨projected, -, h⟩ := bind_eq_ok.mp h
  cases h
  obtain ⟨hjob, hstart⟩ := getElem?_of_mem_zip_zipIdx hj
  have hci := toNat_ofNat_of_getElem? hidx.comps hc
  have hji := toNat_ofNat_of_getElem? (hidx.jobs c (List.mem_of_getElem? hc)) hjob
  simp [Planted, rehydrateRow, JobPlan.toRow, JobPlan.withoutInputs, hci, hji, hc, hjob, hstart]

/-- A job of an inlined child. -/
theorem planted_child (hidx : idx.Fits) {ci ri : ℕ} {c child : CompTpl E} {ch : ChildTpl E}
    (hc : idx.comps[ci]? = some c) (hch : c.children[ri]? = some ch)
    (hchild : idx.comps[ch.child]? = some child) {j : (JobTpl E × String) × ℕ}
    (hj : j ∈ (child.jobs.zip ch.callPrefixes).zipIdx) {props : Node} {row : Option ℕ}
    {snapshot : Option Node} {p : JobPlan}
    (h : planOne crates child.id j.1.2 j.1.1 props (.child c.id child.id ch.slot row) row
      ⟨UInt32.ofNat ch.child, UInt32.ofNat j.2, some (UInt32.ofNat ci, UInt32.ofNat ri)⟩ snapshot
        = .ok p) : Planted idx p := by
  obtain ⟨projected, -, h⟩ := bind_eq_ok.mp h
  cases h
  obtain ⟨hjob, hstart⟩ := getElem?_of_mem_zip_zipIdx hj
  have hci := toNat_ofNat_of_getElem? hidx.comps hc
  have hri := toNat_ofNat_of_getElem? (hidx.children c (List.mem_of_getElem? hc)) hch
  have hcomp := toNat_ofNat_of_getElem? hidx.comps hchild
  have hji := toNat_ofNat_of_getElem? (hidx.jobs child (List.mem_of_getElem? hchild)) hjob
  simp [Planted, rehydrateRow, JobPlan.toRow, JobPlan.withoutInputs, hci, hri, hcomp, hji, hc, hch,
    hchild, hjob, hstart]

theorem planted_ownPlans (hidx : idx.Fits) {ci : ℕ} {c : CompTpl E} (hc : idx.comps[ci]? = some c)
    {ctx : Node} {snapshot : Option Node} {plans : List JobPlan}
    (h : ownPlans crates c ci ctx snapshot = .ok plans) : ∀ p ∈ plans, Planted idx p := by
  obtain ⟨perJob, hperJob, h⟩ := bind_eq_ok.mp h
  cases h
  intro p hp
  obtain ⟨ps, hps, hp⟩ := List.mem_flatten.mp hp
  obtain ⟨j, hj, hrows⟩ := mem_of_mapM_ok hperJob hps
  obtain ⟨row, -, hplan⟩ := mem_of_mapM_ok hrows hp
  exact planted_own hidx hc hj hplan

theorem planted_instancePlans (hidx : idx.Fits) {ci ri : ℕ} {c child : CompTpl E} {ch : ChildTpl E}
    (hc : idx.comps[ci]? = some c) (hch : c.children[ri]? = some ch)
    (hchild : idx.comps[ch.child]? = some child) {ctx : Node} {snapshot : Option Node}
    {row : Option ℕ} {plans : List JobPlan}
    (h : instancePlans crates c ci ri ch child ctx snapshot row = .ok plans) :
    ∀ p ∈ plans, Planted idx p := by
  intro p hp
  unfold instancePlans at h
  split at h
  · cases h
    cases hp
  · obtain ⟨props, -, h⟩ := bind_eq_ok.mp h
    obtain ⟨j, hj, hplan⟩ := mem_of_mapM_ok h hp
    exact planted_child hidx hc hch hchild hj hplan

theorem planted_childPlans (hidx : idx.Fits) {ci : ℕ} {c : CompTpl E}
    (hc : idx.comps[ci]? = some c) {ch : ChildTpl E × ℕ} (hch : c.children[ch.2]? = some ch.1)
    {ctx : Node} {snapshot : Option Node} {plans : List JobPlan}
    (h : childPlans crates idx c ci ctx snapshot ch = .ok plans) : ∀ p ∈ plans, Planted idx p := by
  intro p hp
  unfold childPlans at h
  cases hchild : idx.comps[ch.1.child]? with
  | none =>
      rw [hchild] at h
      cases h
  | some child =>
      rw [hchild] at h
      dsimp only at h
      split at h
      · cases h
        cases hp
      · obtain ⟨perRow, hperRow, h⟩ := bind_eq_ok.mp h
        cases h
        obtain ⟨ps, hps, hp⟩ := List.mem_flatten.mp hp
        obtain ⟨row, -, hplans⟩ := mem_of_mapM_ok hperRow hps
        exact planted_instancePlans hidx hc hch hchild hplans p hp

theorem planted_compPlans (hidx : idx.Fits) {ctx : Node} {snapshot : Option Node} {id : String}
    {plans : List JobPlan} (h : compPlans crates idx ctx snapshot id = .ok plans) :
    ∀ p ∈ plans, Planted idx p := by
  unfold compPlans at h
  cases hid : idx.byId.lookup id with
  | none =>
      rw [hid] at h
      cases h
  | some ci =>
      rw [hid] at h
      cases hc : idx.comps[ci]? with
      | none =>
          simp only [hc] at h
          cases h
      | some c =>
          simp only [hc] at h
          obtain ⟨own, hown, h⟩ := bind_eq_ok.mp h
          obtain ⟨inlined, hinlined, h⟩ := bind_eq_ok.mp h
          cases h
          intro p hp
          rcases List.mem_append.mp hp with hp | hp
          · exact planted_ownPlans hidx hc hown p hp
          · obtain ⟨ps, hps, hp⟩ := List.mem_flatten.mp hp
            obtain ⟨ch, hch, hplans⟩ := mem_of_mapM_ok hinlined hps
            exact planted_childPlans hidx hc (List.mem_zipIdx_iff_getElem?.mp hch) hplans p hp

/-- **Rehydration.**  The plans of a request, but for their inputs, are what is made of their
rows. -/
theorem rehydrate_rows (hidx : idx.Fits) {chain : List String} {ctx : Node} {plans : List JobPlan}
    (h : collectJobs crates idx chain ctx = .ok plans) :
    rehydrate idx (plans.map JobPlan.toRow) = some (plans.map JobPlan.withoutInputs) := by
  obtain ⟨perComp, hperComp, h⟩ := bind_eq_ok.mp h
  cases h
  refine mapM_map_eq_some fun p hp => ?_
  obtain ⟨ps, hps, hp⟩ := List.mem_flatten.mp hp
  obtain ⟨id, -, hplans⟩ := mem_of_mapM_ok hperComp hps
  exact planted_compPlans hidx hplans p hp

end Rehydrate

end Brust.Plan
