import Brust.Plan.Inputs
import Brust.Support.Except

/-!
# Plan — the index of a manifest

Every path a request evaluates, parsed, and every string that does not depend on the request, built
once per component at boot.  The index has a template for each component, each of its jobs and each
of its children, so it can be indexed by what can index the manifest (`Manifest.Fits.index`).
-/

namespace Brust.Plan

/-! ### The manifest -/

/-- What a job runs for: slots of a template, or a component that is rendered by React. -/
inductive JobKind where
  | precompute
  | ssr
  deriving DecidableEq

/-- `cache` of a job: the path of its key, its tags and its lifetime. -/
structure JobCache where
  key : Option String
  tags : List String
  ttlSeconds : Option ℕ

/-- A job of a component, as the build writes it. -/
structure JobRecord where
  id : String
  kind : JobKind
  inputs : List String
  perInstance : Option String
  cache : JobCache
  outputs : List String
  target : Option String
  props : Option (List (String × String))

/-- The input that stands for the whole props. -/
def ALL_PROPS : String := "*"

/-- How often a child is there: once, for each row of a list, or for each literal row. -/
inductive Instances where
  | static
  | perRow (list : String)
  | perRowLiteral

/-- A child of a component, with what it is given. -/
structure ChildRecord where
  id : String
  instances : Instances
  props : List (String × String)
  literals : MapInner
  exprs : List (String × String)
  rows : Option Node
  when : Option (Guard String)

/-- The jobs and the children of a component. -/
structure ComponentRecord where
  jobs : List JobRecord
  children : List ChildRecord

/-- The components by id. -/
structure Manifest where
  components : List (String × ComponentRecord)

/-- A route, with the components of its levels from the root. -/
structure RouteRecord where
  id : String
  chain : List String

/-- The components, and the jobs and children of each, can be indexed by a `u32`. -/
structure Manifest.Fits (m : Manifest) : Prop where
  components : m.components.length ≤ 2 ^ 32
  jobs : ∀ c ∈ m.components, c.2.jobs.length ≤ 2 ^ 32
  children : ∀ c ∈ m.components, c.2.children.length ≤ 2 ^ 32

/-! ### Templates -/

variable {E : Type}

/-- What a job is given of the props. -/
inductive JobInputs (E : Type) where
  | props (m : PropsMap E)
  | all
  | project (p : Projection)

/-- A job whose paths are parsed. -/
structure JobTpl (E : Type) where
  id : String
  kind : JobKind
  inputs : JobInputs E
  hasProps : Bool
  perInstance : Option Path
  cacheKey : Option Path
  ttl : Option ℕ
  tags : List String
  outputs : List String
  target : Option String

/-- A child whose paths are parsed. -/
structure ChildTpl (E : Type) where
  /-- The child component's index. -/
  child : ℕ
  rows : Option Rows
  props : PropsMap E
  when : Option (Guard Path)
  slot : String
  /-- `<parentId>/<childId>_<k>/<jobId>` per child job. -/
  callPrefixes : List String

/-- A component whose jobs and children are indexed. -/
structure CompTpl (E : Type) where
  id : String
  jobs : List (JobTpl E)
  /-- `<id>/<jobId>` per job. -/
  callPrefixes : List String
  children : List (ChildTpl E)

/-- The index that requests are planned with, made once for a manifest. -/
structure PlanIndex (E : Type) where
  comps : List (CompTpl E)
  byId : List (String × ℕ)

/-- The error of a job's own paths, under the component and the job. -/
def jobError (component job : String) : IndexError → IndexError
  | .path e => .job component job e
  | e => e

/-- A job that names its props takes these, else the whole props or a projection of them. -/
def jobTpl (crates : Crates E) (j : JobRecord) : Except IndexError (JobTpl E) := do
  let inputs ← match j.props with
    | some map => do pure (JobInputs.props (← PropsMap.new crates map))
    | none =>
      if ALL_PROPS ∈ j.inputs then pure .all
      else do pure (.project (← (Projection.new j.inputs).mapError .path))
  let perInstance ← j.perInstance.mapM fun p => (Path.parse p).mapError .path
  let cacheKey ← j.cache.key.mapM fun p => (Path.parse p).mapError .path
  pure
    { id := j.id, kind := j.kind, inputs, hasProps := j.props.isSome, perInstance, cacheKey
      ttl := j.cache.ttlSeconds, tags := j.cache.tags, outputs := j.outputs, target := j.target }

/-- The components' places, by their ids. -/
def Manifest.byId (m : Manifest) : List (String × ℕ) :=
  m.components.zipIdx.map fun c => (c.1.1, c.2)

/-- The `i`-th child of a component. -/
def childTpl (crates : Crates E) (m : Manifest) (id : String) (children : List ChildRecord)
    (ch : ChildRecord × ℕ) : Except IndexError (ChildTpl E) := do
  -- the ordinal among the children of one component that have this id
  let k := (children.take ch.2).countP (·.id == ch.1.id) + 1
  let child ← match m.byId.lookup ch.1.id with
    | some i => pure i
    | none => throw (.unknownChild id ch.1.id)
  let rows ← match ch.1.instances with
    | .static => pure none
    | .perRow list => do pure (some (Rows.path (← (Path.parse list).mapError .path)))
    | .perRowLiteral => pure (some (Rows.literal (ch.1.rows.getD .null)))
  let props ← PropsMap.child crates ch.1.props ch.1.literals ch.1.exprs rows
  let when ← ch.1.when.mapM fun g => (Guard.new g).mapError (.guard id ch.1.id)
  pure
    { child, rows, props, when
      slot := "__" ++ ch.1.id ++ "_" ++ toString k
      callPrefixes := (((m.components.lookup ch.1.id).map (·.jobs)).getD []).map fun j =>
        id ++ "/" ++ ch.1.id ++ "_" ++ toString k ++ "/" ++ j.id }

/-- A component; the errors of its jobs name it. -/
def compTpl (crates : Crates E) (m : Manifest) (c : String × ComponentRecord) :
    Except IndexError (CompTpl E) := do
  let jobs ← c.2.jobs.mapM fun j => (jobTpl crates j).mapError (jobError c.1 j.id)
  let children ← c.2.children.zipIdx.mapM (childTpl crates m c.1 c.2.children)
  pure { id := c.1, jobs, callPrefixes := c.2.jobs.map fun j => c.1 ++ "/" ++ j.id, children }

namespace PlanIndex

/-- `PlanIndex::new`: the first thing that is wrong is the error. -/
def new (crates : Crates E) (m : Manifest) : Except IndexError (PlanIndex E) := do
  let comps ← m.components.mapM (compTpl crates m)
  pure ⟨comps, m.byId⟩

/-- The templates can be indexed by a `u32`. -/
structure Fits (idx : PlanIndex E) : Prop where
  comps : idx.comps.length ≤ 2 ^ 32
  jobs : ∀ c ∈ idx.comps, c.jobs.length ≤ 2 ^ 32
  children : ∀ c ∈ idx.comps, c.children.length ≤ 2 ^ 32

end PlanIndex

/-! ### One template each -/

/-- A job's template is of its record. -/
theorem jobTpl_record {crates : Crates E} {j : JobRecord} {t : JobTpl E}
    (h : jobTpl crates j = .ok t) :
    t.kind = j.kind ∧ t.target = j.target ∧ t.outputs = j.outputs := by
  have hrest : ∀ inputs, (do
      let perInstance ← j.perInstance.mapM fun p => (Path.parse p).mapError .path
      let cacheKey ← j.cache.key.mapM fun p => (Path.parse p).mapError .path
      pure
        { id := j.id, kind := j.kind, inputs, hasProps := j.props.isSome, perInstance, cacheKey
          ttl := j.cache.ttlSeconds, tags := j.cache.tags, outputs := j.outputs
          target := j.target } : Except IndexError (JobTpl E)) = .ok t →
      t.kind = j.kind ∧ t.target = j.target ∧ t.outputs = j.outputs := by
    intro inputs h
    obtain ⟨perInstance, -, h⟩ := bind_eq_ok.mp h
    obtain ⟨cacheKey, -, h⟩ := bind_eq_ok.mp h
    cases h
    exact ⟨rfl, rfl, rfl⟩
  unfold jobTpl at h
  split at h
  · obtain ⟨map, -, h⟩ := bind_eq_ok.mp h
    exact hrest _ h
  · split at h
    · exact hrest _ h
    · obtain ⟨p, -, h⟩ := bind_eq_ok.mp h
      exact hrest _ h

/-- A component's template has as many jobs and children. -/
theorem compTpl_lengths {crates : Crates E} {m : Manifest} {c : String × ComponentRecord}
    {t : CompTpl E} (h : compTpl crates m c = .ok t) :
    t.jobs.length = c.2.jobs.length ∧ t.children.length = c.2.children.length := by
  obtain ⟨jobs, hjobs, h⟩ := bind_eq_ok.mp h
  obtain ⟨children, hchildren, h⟩ := bind_eq_ok.mp h
  cases h
  exact ⟨length_of_mapM_ok hjobs, by rw [length_of_mapM_ok hchildren, List.length_zipIdx]⟩

/-- What fits in the manifest fits in the index. -/
theorem Manifest.Fits.index {crates : Crates E} {m : Manifest} (hm : m.Fits) {idx : PlanIndex E}
    (h : PlanIndex.new crates m = .ok idx) : idx.Fits := by
  obtain ⟨comps, hcomps, h⟩ := bind_eq_ok.mp h
  cases h
  refine ⟨?_, fun t ht => ?_, fun t ht => ?_⟩
  · exact (length_of_mapM_ok hcomps).trans_le hm.components
  · obtain ⟨c, hc, htpl⟩ := mem_of_mapM_ok hcomps ht
    exact (compTpl_lengths htpl).1.trans_le (hm.jobs c hc)
  · obtain ⟨c, hc, htpl⟩ := mem_of_mapM_ok hcomps ht
    exact (compTpl_lengths htpl).2.trans_le (hm.children c hc)

end Brust.Plan
