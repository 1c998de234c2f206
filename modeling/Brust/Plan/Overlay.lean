import Brust.Plan.Merge

/-!
# Plan — what a template sees

Over the loader's data the server writes the slots of the inlined children and the results of the
jobs, into one map of the context for each component, and a component sees its own part of them
before the context.  What it sees under a name of the server is what the server wrote, and every
other key of the loader is seen as it is: exactly where no key of the loader is the slot of a clone
that the component does not have (`guarded_iff`).
-/

namespace Brust.Plan

open SortedMap (insert lookup_insert lookup_eq_none_iff)

variable {E : Type}

/-! ### Scopes -/

/-- `Scope`: what a chain component sees, with its `Overlay`. -/
structure Scope where
  outlet : Option String
  props : Option Node
  /-- Looked up last one first. -/
  maps : List Node
  pairs : List (String × String)
  base : Node

/-- `get_value_by_str` -/
def Scope.get (s : Scope) (key : String) : Option Node :=
  if key = "__outlet" ∧ s.outlet.isSome then s.outlet.map .str
  else if key = "_props" ∧ s.props.isSome then s.props
  else
    (s.maps.reverse.findSome? (·.get key)).or
      ((((s.pairs.reverse.find? (·.1 == key)).map fun p => .str p.2)).or (s.base.get key))

section
variable (m : Manifest) (useIdSlots : String → ℕ) (routeId : String)

/-- The overlay of a component over the context; `outlet` is what the level below it rendered. -/
def overlay (ctx : Node) (id : String) (outlet : Option String) : Scope where
  outlet := outlet
  props := some (allProps ctx)
  maps := [CHILDREN_KEY, OWN_KEY].filterMap fun all =>
    ((ctx.get all).bind (·.get id)).filter Node.isMap
  pairs := useIds routeId id (((m.components.lookup id).map fun _ => useIdSlots id).getD 0)
  base := ctx

end

/-! ### Pages -/

/-- The context before the loader's data. -/
def baseCtx (params : List (String × String)) (path : String) : MapInner :=
  insert "path" (.str path)
    (insert "params" (.map (params.foldl (fun o p => insert p.1 (.str p.2) o) []) none) [])

/-- A page that is rendered: what it was made of, and that its jobs were planned and its slots
seeded.  The values are what the jobs answered, if they did. -/
structure Page (crates : Crates E) (m : Manifest) (idx : PlanIndex E) (useIdSlots : String → ℕ)
    (routeId : String) where
  chain : List String
  params : List (String × String)
  path : String
  data : MapInner
  order : Option (List String)
  snapshot : Option Node
  seeds : List (List (String × String × Node))
  plans : List JobPlan
  values : List (Option Node)
  sorted : SortedMap.Sorted data
  planned : collectJobs crates idx chain
    (.map (mergeLoaderResponse (baseCtx params path) (.map data order) snapshot) none) = .ok plans
  seeded : chain.mapM (compSeeds m idx useIdSlots routeId
    (.map (mergeLoaderResponse (baseCtx params path) (.map data order) snapshot) none)) = .ok seeds

namespace Page

variable {crates : Crates E} {m : Manifest} {idx : PlanIndex E} {useIdSlots : String → ℕ}
  {routeId : String} (p : Page crates m idx useIdSlots routeId)

/-- The context of the loader's response. -/
def loaded : MapInner :=
  mergeLoaderResponse (baseCtx p.params p.path) (.map p.data p.order) p.snapshot

/-- The same without the loader's data. -/
def bare : MapInner := mergeLoaderResponse (baseCtx p.params p.path) (.map [] none) p.snapshot

/-- The slots and the results, written over a context. -/
def finish (ctx : MapInner) : MapInner :=
  mergeValues (p.seeds.flatten.foldl seedOne ctx) p.plans p.values

/-- The context that the templates are rendered with. -/
def ctx : Node := .map (p.finish p.loaded) none

/-- What the server writes by itself. -/
def serverCtx : Node := .map (p.finish p.bare) none

/-- What a component sees. -/
def scope (id : String) (outlet : Option String) : Scope :=
  overlay m useIdSlots routeId p.ctx id outlet

/-- What the server put there; the view of the props is of the whole context. -/
def serverScope (id : String) (outlet : Option String) : Scope :=
  { overlay m useIdSlots routeId p.serverCtx id outlet with props := some (allProps p.ctx) }

/-- In every overlay the server's names have what the server put there, if anything, and every
other key of the loader's data has its value. -/
structure Guarded : Prop where
  server : ∀ id ∈ p.chain, ∀ outlet n, ServerName n →
    (p.scope id outlet).get n = (p.serverScope id outlet).get n
  loader : ∀ id ∈ p.chain, ∀ outlet, ∀ e ∈ p.data, ¬ ServerName e.1 →
    (p.scope id outlet).get e.1 = some e.2

/-! ### The context of a page -/

/-- What the results have, where they are put into an object as they are. -/
def LegacyNamed : Prop :=
  ∀ r ∈ p.plans.zip p.values, ∀ v, r.2 = some v → Plan.LegacyNamed r.1 v

section
variable {p} (hidx : PlanIndex.new crates m = .ok idx) (hm : m.Compiled) (hlegacy : p.LegacyNamed)
include hidx hm hlegacy

theorem filing_mergeValues : Filing idx fun ctx => mergeValues ctx p.plans p.values := by
  refine .foldl fun r hr => ?_
  cases hv : r.2 with
  | none => exact .id
  | some v =>
      obtain ⟨hnamed, hslot⟩ := plan_named hidx hm p.planned (List.of_mem_zip hr).1
      exact filing_mergeResult hnamed (hlegacy r hr v hv) hslot

/-- **The server's writes are filed.** -/
theorem filing_finish : Filing idx p.finish := by
  have hseeds : Filing idx fun ctx => p.seeds.flatten.foldl seedOne ctx :=
    .foldl fun _ hseed => filing_seedOne (mem_slotsOf_of_seed hidx p.seeded hseed)
  exact (filing_mergeValues hidx hm hlegacy).comp hseeds

end

theorem lookup_mergeLoaderData {data : MapInner} (hnodup : (SortedMap.keys data).Nodup)
    (order : Option (List String)) (ctx : MapInner) (key : String) :
    (mergeLoaderData ctx (.map data order)).lookup key =
      if isServerSlot key then ctx.lookup key else (data.lookup key).or (ctx.lookup key) := by
  rw [mergeLoaderData]
  induction data generalizing ctx with
  | nil => simp
  | cons e data ih =>
      obtain ⟨hnot, hnodup⟩ := List.nodup_cons.mp hnodup
      rw [List.foldl_cons, ih hnodup, SortedMap.lookup_cons_if]
      by_cases hkey : key = e.1
      · subst hkey
        rw [lookup_eq_none_iff.mpr hnot, if_pos rfl]
        by_cases hslot : isServerSlot e.1 = true
        · rw [if_pos hslot, if_pos hslot, if_pos hslot]
        · rw [if_neg hslot, if_neg hslot, if_neg hslot, lookup_insert, if_pos rfl]
          rfl
      · rw [if_neg hkey]
        have hstep : ((if isServerSlot e.1 then ctx else insert e.1 e.2 ctx) : MapInner).lookup
          key =
            ctx.lookup key := by
          split
          · rfl
          · rw [lookup_insert, if_neg hkey]
        rw [hstep]

theorem mergeLoaderData_nil (ctx : MapInner) : mergeLoaderData ctx (.map [] none) = ctx := rfl

theorem lookup_mergeLoaderResponse {key : String} (h : key ≠ STORE_KEY) (ctx : MapInner)
    (data : Node) (snapshot : Option Node) :
    (mergeLoaderResponse ctx data snapshot).lookup key = (mergeLoaderData ctx data).lookup key := by
  unfold mergeLoaderResponse
  dsimp only
  split
  · rw [lookup_insert, if_neg h]
  · rfl

theorem mergeLoaderResponse_congr {ctx ctx' : MapInner} {data data' : Node} {key : String}
    (h : (mergeLoaderData ctx data).lookup key = (mergeLoaderData ctx' data').lookup key)
    (snapshot : Option Node) : (mergeLoaderResponse ctx data snapshot).lookup key =
      (mergeLoaderResponse ctx' data' snapshot).lookup key := by
  unfold mergeLoaderResponse
  dsimp only
  split
  · rw [lookup_insert, lookup_insert, h]
  · exact h

theorem data_nodup : (SortedMap.keys p.data).Nodup := p.sorted.imp ne_of_lt

/-- A key that is dropped, or that the loader has not, is as without the loader's data. -/
theorem loaded_eq_bare {key : String} (h : isServerSlot key = true ∨ p.data.lookup key = none) :
    p.loaded.lookup key = p.bare.lookup key := by
  refine mergeLoaderResponse_congr ?_ _
  rw [lookup_mergeLoaderData p.data_nodup, mergeLoaderData_nil]
  rcases h with h | h
  · rw [if_pos h]
  · rw [h, Option.none_or, ite_self]

theorem isServerSlot_store : isServerSlot STORE_KEY = true := by decide

/-- A key that is not dropped has the loader's value. -/
theorem loaded_of_mem {e : String × Node} (he : e ∈ p.data) (h : isServerSlot e.1 = false) :
    p.loaded.lookup e.1 = some e.2 := by
  have hstore : e.1 ≠ STORE_KEY := by
    intro hkey
    rw [hkey, isServerSlot_store] at h
    cases h
  rw [loaded, lookup_mergeLoaderResponse hstore, lookup_mergeLoaderData p.data_nodup, h,
    if_neg Bool.false_ne_true, (SortedMap.lookup_iff_mem p.data_nodup).mpr he]
  rfl

/-- Without the loader's data there is nothing of the server's but the store. -/
theorem bare_eq_none {key : String} (hkey : key ∉ ["params", "path", STORE_KEY]) :
    p.bare.lookup key = none := by
  simp only [List.mem_cons, List.not_mem_nil, or_false, not_or] at hkey
  rw [bare, lookup_mergeLoaderResponse hkey.2.2, mergeLoaderData_nil, baseCtx, lookup_insert,
    if_neg hkey.2.1, lookup_insert, if_neg hkey.1, List.lookup_nil]

/-- The two maps are not in the context before the server writes them. -/
theorem held_bare {all : String} (hall : all ∈ [CHILDREN_KEY, OWN_KEY]) (id key : String) :
    held p.bare all id key = none := by
  have hkeys : ∀ a ∈ [CHILDREN_KEY, OWN_KEY], a ∉ ["params", "path", STORE_KEY] := by decide
  rw [held, down_cons, p.bare_eq_none (hkeys all hall), Option.bind_none]

section Finished

variable {p} (hidx : PlanIndex.new crates m = .ok idx) (hm : m.Compiled) (hlegacy : p.LegacyNamed)
include hidx hm hlegacy

/-- What is held is what the server wrote. -/
theorem held_finish {all : String} (hall : all ∈ [CHILDREN_KEY, OWN_KEY]) (id key : String) :
    held (p.finish p.loaded) all id key = held (p.finish p.bare) all id key := by
  have hslots : ∀ a ∈ [CHILDREN_KEY, OWN_KEY], isServerSlot a = true := by decide
  have hagree := (filing_finish hidx hm hlegacy).agree _ _ all
    (p.loaded_eq_bare (.inl (hslots all hall)))
  rw [held, held, down_cons, down_cons, hagree]

theorem filed_of_held {all : String} (hall : all ∈ [CHILDREN_KEY, OWN_KEY]) {id key : String}
    (h : (held (p.finish p.bare) all id key).isSome = true) : Filed idx all id key := by
  refine ((filing_finish hidx hm hlegacy).fills _ _ _ _ h).resolve_left ?_
  rw [p.held_bare hall]
  exact Bool.false_ne_true

/-- A component has all of its slots. -/
theorem held_slot {id key : String} (hid : id ∈ p.chain) (hkey : key ∈ slotsOf idx id) :
    (held (p.finish p.bare) CHILDREN_KEY id key).isSome = true := by
  obtain ⟨seed, hseed, rfl, rfl⟩ := exists_seed hidx p.seeded hid hkey
  exact (filing_mergeValues hidx hm hlegacy).keeps _ _ _ _
    (held_of_seed (fun s hs => mem_slotsOf_of_seed hidx p.seeded hs) hseed _)

end Finished

end Page

/-! ### Overlays -/

/-- The map of a component as a layer of its overlay. -/
theorem layer_get (ctx : MapInner) (all id key : String) :
    ((((Node.map ctx none).get all).bind (·.get id)).filter Node.isMap).bind (·.get key) =
      held ctx all id key := by
  have hheld : held ctx all id key =
      (((Node.map ctx none).get all).bind (·.get id)).bind (·.get key) := by
    rw [held, down_cons, Option.bind_assoc]
    refine Option.bind_congr fun n _ => ?_
    rw [Node.down]
    refine Option.bind_congr fun n _ => ?_
    rw [Node.down]
    cases n.get key <;> rfl
  rw [hheld]
  cases ((Node.map ctx none).get all).bind (·.get id) with
  | none => rfl
  | some n =>
      cases n with
      | map entries order => rfl
      | null | bool _ | num _ | str _ | arr _ => rfl

/-- Two layers, looked up last one first. -/
theorem findSome?_layers {α β γ : Type} (layer : α → Option β) (look : β → Option γ) (a b : α) :
    ([a, b].filterMap layer).reverse.findSome? look =
      ((layer b).bind look).or ((layer a).bind look) := by
  rw [List.filterMap_cons, List.filterMap_cons, List.filterMap_nil]
  cases layer a with
  | none => cases layer b <;> simp
  | some x =>
      cases layer b with
      | none => simp
      | some y =>
          have hlist : ([x, y] : List β).reverse.findSome? look = (look y).or (look x) := by
            rw [List.reverse_cons, List.reverse_singleton, List.singleton_append,
              List.findSome?_cons, List.findSome?_cons, List.findSome?_nil]
            cases look y <;> cases look x <;> rfl
          exact hlist

/-- Only the values of `useId` are named as they are. -/
theorem find?_useIds {routeId id : String} {slots : ℕ} {key : String} (h : ¬ Numbered "_id" key) :
    (useIds routeId id slots).reverse.find? (·.1 == key) = none := by
  rw [List.find?_eq_none]
  intro e he hkey
  obtain ⟨n, -, rfl⟩ := List.mem_map.mp (List.mem_reverse.mp he)
  refine h ⟨_, digits_toString n, ?_⟩
  rw [← beq_iff_eq.mp hkey, String.toList_append]

section
variable {m : Manifest} {useIdSlots : String → ℕ} {routeId : String}

/-- What a component sees but for the outlet and the props: its own jobs' values, its children's
slots, its `useId` values, the context. -/
def layered (m : Manifest) (useIdSlots : String → ℕ) (routeId : String) (ctx : MapInner)
    (id key : String) : Option Node :=
  ((held ctx OWN_KEY id key).or (held ctx CHILDREN_KEY id key)).or
    ((((useIds routeId id (((m.components.lookup id).map fun _ =>
      useIdSlots id).getD 0)).reverse.find?
      (·.1 == key)).map fun p => .str p.2).or (ctx.lookup key))

theorem overlay_get (ctx : MapInner) (id : String) (outlet : Option String) (props : Node)
    (key : String) :
    ({ overlay m useIdSlots routeId (.map ctx none) id outlet with props := some props } : Scope).get
      key =
      if key = "__outlet" ∧ outlet.isSome then outlet.map .str
      else if key = "_props" then some props
      else layered m useIdSlots routeId ctx id key := by
  rw [Scope.get, layered, ← layer_get, ← layer_get, ← findSome?_layers fun all =>
    (((Node.map ctx none).get all).bind (·.get id)).filter Node.isMap]
  simp only [overlay, Option.isSome_some, and_true]
  rfl

end

/-! ### Pages are guarded -/

namespace Page

variable {crates : Crates E} {m : Manifest} {idx : PlanIndex E} {useIdSlots : String → ℕ}
  {routeId : String} {p : Page crates m idx useIdSlots routeId}

theorem scope_get (id : String) (outlet : Option String) (key : String) :
    (p.scope id outlet).get key =
      if key = "__outlet" ∧ outlet.isSome then outlet.map .str
      else if key = "_props" then some (allProps p.ctx)
      else layered m useIdSlots routeId (p.finish p.loaded) id key :=
  overlay_get (p.finish p.loaded) id outlet (allProps p.ctx) key

theorem serverScope_get (id : String) (outlet : Option String) (key : String) :
    (p.serverScope id outlet).get key =
      if key = "__outlet" ∧ outlet.isSome then outlet.map .str
      else if key = "_props" then some (allProps p.ctx)
      else layered m useIdSlots routeId (p.finish p.bare) id key :=
  overlay_get (p.finish p.bare) id outlet (allProps p.ctx) key

theorem files_owned : ∀ key ∈ [CHILDREN_KEY, OWN_KEY],
    key ∈ ["__outlet", "__children", "__own", "_props", STORE_KEY] := by decide

/-- What the server files has a name of the server. -/
theorem serverName_of_filed (hidx : PlanIndex.new crates m = .ok idx) (hm : m.Compiled)
    {all id key : String} (h : Filed idx all id key) : ServerName key := by
  rcases h with h | ⟨-, h⟩
  · cases h with
    | ssr h => exact .ssr h
    | precompute h => exact .precompute h
    | fused h => exact .fused h
  · exact serverName_of_slot hidx hm h

section
variable (hidx : PlanIndex.new crates m = .ok idx) (hm : m.Compiled) (hlegacy : p.LegacyNamed)
include hidx hm hlegacy

theorem held_eq_none {all : String} (hall : all ∈ [CHILDREN_KEY, OWN_KEY]) {id key : String}
    (h : ¬ Filed idx all id key) : held (p.finish p.loaded) all id key = none := by
  rw [held_finish hidx hm hlegacy hall]
  exact Option.not_isSome_iff_eq_none.mp fun hs => h (filed_of_held hidx hm hlegacy hall hs)

/-- A key that is not the server's, as the loader gave it. -/
theorem loader_visible {e : String × Node} (he : e ∈ p.data) (hname : ¬ ServerName e.1)
    (id : String) (outlet : Option String) : (p.scope id outlet).get e.1 = some e.2 := by
  have howned : e.1 ∉ ["__outlet", "__children", "__own", "_props", STORE_KEY] := fun h =>
    hname (.owned h)
  have hslot : isServerSlot e.1 = false := Bool.eq_false_iff.mpr fun h =>
    hname (isServerSlot_iff.mp h).1
  have hfiled : ∀ all ∈ [CHILDREN_KEY, OWN_KEY], held (p.finish p.loaded) all id e.1 = none :=
    fun all hall => held_eq_none hidx hm hlegacy hall fun h =>
      hname (serverName_of_filed hidx hm h)
  have hother : e.1 ∉ [CHILDREN_KEY, OWN_KEY] := fun h => howned (files_owned e.1 h)
  simp only [List.mem_cons, List.not_mem_nil, or_false, not_or] at howned
  rw [scope_get, if_neg fun h => howned.1 h.1, if_neg howned.2.2.2.1, layered,
    hfiled _ (by simp), hfiled _ (by simp), find?_useIds fun h => hname (.useId h),
    (filing_finish hidx hm hlegacy).other _ _ hother, p.loaded_of_mem he hslot]
  rfl

/-- A name of the server, where the test knows it or the component has it as a slot. -/
theorem server_visible {id key : String} (hid : id ∈ p.chain) (hname : ServerName key)
    (h : ∀ v, (key, v) ∈ p.data → CloneSlot key → key ∈ slotsOf idx id) (outlet : Option String) :
    (p.scope id outlet).get key = (p.serverScope id outlet).get key := by
  have hlayers : layered m useIdSlots routeId (p.finish p.loaded) id key =
      layered m useIdSlots routeId (p.finish p.bare) id key := by
    rw [layered, layered, held_finish hidx hm hlegacy (by simp),
      held_finish hidx hm hlegacy (by simp)]
    by_cases hsame : isServerSlot key = true ∨ p.data.lookup key = none
    · rw [(filing_finish hidx hm hlegacy).agree _ _ _ (p.loaded_eq_bare hsame)]
    · -- the loader has the slot of a clone, and the component has its own there
      obtain ⟨htest, hdata⟩ := not_or.mp hsame
      obtain ⟨v, hv⟩ := Option.ne_none_iff_exists'.mp hdata
      have hclone : CloneSlot key := by
        by_contra hno
        exact htest (isServerSlot_iff.mpr ⟨hname, hno⟩)
      have hslot := held_slot hidx hm hlegacy hid
        (h v (SortedMap.mem_of_lookup hv) hclone)
      have hfound : ((held (p.finish p.bare) OWN_KEY id key).or
          (held (p.finish p.bare) CHILDREN_KEY id key)).isSome = true := by
        rw [Option.isSome_or, hslot, Bool.or_true]
      obtain ⟨w, hw⟩ := Option.isSome_iff_exists.mp hfound
      rw [hw]
      rfl
  rw [scope_get, serverScope_get, hlayers]

/-- The slot of a clone that a component does not have shows the loader's value there. -/
theorem forged {e : String × Node} (he : e ∈ p.data) (hclone : CloneSlot e.1) {id : String}
    (hslot : e.1 ∉ slotsOf idx id) :
    (p.scope id none).get e.1 = some e.2 ∧ (p.serverScope id none).get e.1 = none := by
  obtain ⟨_, hslotOf⟩ := hclone.slotOf
  obtain ⟨howned, hssr, hprecompute, huse, hfused⟩ := hslotOf.apart
  have htest : isServerSlot e.1 = false := Bool.eq_false_iff.mpr fun h =>
    (isServerSlot_iff.mp h).2 hclone
  have hother : e.1 ∉ [CHILDREN_KEY, OWN_KEY] := fun h => howned (files_owned e.1 h)
  have hbase : e.1 ∉ ["params", "path", STORE_KEY] := hslotOf.notMem_of_last (by decide)
  have hfiled : ∀ all, ¬ Filed idx all id e.1 := by
    rintro all (h | ⟨-, h⟩)
    · cases h with
      | ssr h => exact hssr h
      | precompute h => exact hprecompute h
      | fused h => exact hfused h
    · exact hslot h
  have hheld : ∀ all ∈ [CHILDREN_KEY, OWN_KEY], held (p.finish p.loaded) all id e.1 = none :=
    fun all hall => held_eq_none hidx hm hlegacy hall (hfiled all)
  have hheld' : ∀ all ∈ [CHILDREN_KEY, OWN_KEY], held (p.finish p.bare) all id e.1 = none :=
    fun all hall => (held_finish hidx hm hlegacy hall id e.1).symm.trans (hheld all hall)
  simp only [List.mem_cons, List.not_mem_nil, or_false, not_or] at howned
  rw [scope_get, serverScope_get, if_neg fun h => howned.1 h.1, if_neg howned.2.2.2.1,
    if_neg fun h => howned.1 h.1, if_neg howned.2.2.2.1, layered, layered,
    hheld _ (by simp), hheld _ (by simp), hheld' _ (by simp), hheld' _ (by simp),
    find?_useIds huse, (filing_finish hidx hm hlegacy).other _ _ hother,
    (filing_finish hidx hm hlegacy).other _ _ hother, p.loaded_of_mem he htest,
    p.bare_eq_none hbase]
  exact ⟨rfl, rfl⟩

/-- **Loader data cannot stand under a name of the server**, and all else of it is seen, exactly
where no key of it is the slot of a clone that a component of the chain does not have. -/
theorem guarded_iff : p.Guarded ↔
    ∀ e ∈ p.data, CloneSlot e.1 → ∀ id ∈ p.chain, e.1 ∈ slotsOf idx id := by
  constructor
  · intro h e he hclone id hid
    by_contra hslot
    obtain ⟨hseen, hserver⟩ := forged hidx hm hlegacy he hclone hslot
    rw [h.server id hid none e.1 hclone.serverName, hserver] at hseen
    cases hseen
  · intro h
    exact {
      server := fun id hid outlet n hname =>
        server_visible hidx hm hlegacy hid hname (fun v hv hclone => h _ hv hclone id hid) outlet
      loader := fun id _ outlet e he hname => loader_visible hidx hm hlegacy he hname id outlet }

end

end Page

section Clone

/-- A layout and a page with one clone of a card. -/
def cloneSite : Manifest :=
  ⟨[("layout_21e3a2c4", ⟨[], []⟩),
    ("page_a4b02858", ⟨[], [⟨"card_65944413_s4c677d47", .static, [], [], [], none, none⟩]⟩),
    ("card_65944413_s4c677d47", ⟨[], []⟩)]⟩

def cloneIndex : PlanIndex Unit :=
  ⟨[⟨"layout_21e3a2c4", [], [], []⟩,
    ⟨"page_a4b02858", [], [],
      [⟨2, none, ⟨[], none⟩, none, "__card_65944413_s4c677d47_1", []⟩]⟩,
    ⟨"card_65944413_s4c677d47", [], [], []⟩], cloneSite.byId⟩

theorem cloneSite_new : PlanIndex.new cardCrates cloneSite = .ok cloneIndex := rfl

theorem cloneSite_compiled : cloneSite.Compiled where
  ids := by
    have hlayout : componentId "app/layout.tsx" = "layout_21e3a2c4" := by decide +kernel
    have hpage : componentId "app/page.tsx" = "page_a4b02858" := by decide +kernel
    have hcard : cloneId (componentId "app/Card.tsx") .content "app/page.tsx~0000000000000000" 120 =
        "card_65944413_s4c677d47" := by decide +kernel
    intro c hc
    rcases List.mem_cons.mp hc with rfl | hc
    · exact hlayout ▸ .component _
    · rcases List.mem_cons.mp hc with rfl | hc
      · exact hpage ▸ .component _
      · obtain rfl := List.mem_singleton.mp hc
        exact hcard ▸ .clone (.component _) _ _ _
  outputs := by
    intro c hc j hj
    have hnone : c.2.jobs = [] := by
      simp only [cloneSite, List.mem_cons, List.not_mem_nil, or_false] at hc
      rcases hc with rfl | rfl | rfl <;> rfl
    rw [hnone] at hj
    cases hj

/-- The page under its layout, where the loader's data has one key. -/
def clonePage (key : String) (value : Node) :
    Page cardCrates cloneSite cloneIndex (fun _ => 0) "r" where
  chain := ["layout_21e3a2c4", "page_a4b02858"]
  params := []
  path := "/"
  data := [(key, value)]
  order := none
  snapshot := none
  seeds := [[], [("page_a4b02858", "__card_65944413_s4c677d47_1", .map [] none)]]
  plans := []
  values := []
  sorted := List.pairwise_singleton _ _
  planned := rfl
  seeded := rfl

theorem legacyNamed_clonePage (key : String) (value : Node) :
    (clonePage key value).LegacyNamed := by
  intro r hr
  cases hr

theorem guarded_iff_title : (clonePage "title" (.str "cards")).Guarded := by
  refine (Page.guarded_iff cloneSite_new cloneSite_compiled (legacyNamed_clonePage _ _)).mpr ?_
  intro e he hclone
  obtain rfl := List.mem_singleton.mp he
  obtain ⟨_, hslot⟩ := hclone.slotOf
  exact absurd (List.mem_singleton_self _) (hslot.notMem_of_last (by decide))

/-- In the overlay of the layout the slot of the page's clone is what the loader says. -/
theorem clone_slot_forged :
    PlanIndex.new cardCrates cloneSite = .ok cloneIndex ∧ cloneSite.Compiled ∧
      (clonePage "__card_65944413_s4c677d47_1" (.str "<b>")).LegacyNamed ∧
      ¬ (clonePage "__card_65944413_s4c677d47_1" (.str "<b>")).Guarded := by
  refine ⟨cloneSite_new, cloneSite_compiled, legacyNamed_clonePage _ _, fun h => ?_⟩
  have hclone : CloneSlot "__card_65944413_s4c677d47_1" :=
    ⟨"card_65944413".toList, .component "card".toList ⟨rfl, by decide⟩, .content,
      "4c677d47".toList, ⟨rfl, by decide⟩, "1".toList, by decide, rfl⟩
  have hother : "__card_65944413_s4c677d47_1" ∉ slotsOf cloneIndex "layout_21e3a2c4" := by decide
  obtain ⟨hseen, hserver⟩ := Page.forged cloneSite_new cloneSite_compiled
    (legacyNamed_clonePage "__card_65944413_s4c677d47_1" (.str "<b>")) (List.mem_singleton_self _)
    hclone hother
  rw [h.server _ (List.mem_cons_self ..) none _ hclone.serverName, hserver] at hseen
  cases hseen

end Clone

end Brust.Plan
