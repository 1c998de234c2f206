import Brust.Plan.Slots

/-!
# Plan — results in the context

`merge_result` puts a job's value into one of two maps of the context: under the chain component
that the job is of, or into the slot of the child instance.  Like the seeding of the slots it files
a value there and does nothing else (`filing_mergeResult`), under a name that the compiler gives to
a job's output or to a slot.
-/

namespace Brust.Plan

open SortedMap (insert lookup_insert)

variable {E : Type}

/-! ### The results of jobs -/

def OWN_KEY : String := "__own"

/-- `component_map`: the object under some keys, changed; what is no object on the way is
replaced. -/
def within (f : MapInner → MapInner) : List String → MapInner → MapInner
  | [], out => f out
  | k :: ks, out =>
    let at_ := Node.members (out.lookup k)
    insert k (.map (within f ks at_.1) at_.2) out

/-- A list that has a row, filled up to it. -/
def padded (filler : Node) (r : ℕ) (xs : List Node) : List Node :=
  xs ++ List.replicate (r + 1 - xs.length) filler

/-- An object, changed; anything else is no cell. -/
def onMap (f : MapInner → MapInner) : Node → Node
  | .map entries order => .map (f entries) order
  | n => n

/-- What is in a slot once its cell, or the cell of its row, was changed. -/
def changeCell (f : MapInner → MapInner) (slot : Option Node) : Option ℕ → Node
  | none => onMap f (slot.getD (.map [] none))
  | some r =>
    match slot.getD (.arr []) with
    | .arr xs => .arr ((padded (.map [] none) r xs).modify r (onMap f))
    | n => n

/-- `child_cell`, and what the caller does with the cell. -/
def inCell (f : MapInner → MapInner) (parent slot : String) (row : Option ℕ) (ctx : MapInner) :
    MapInner :=
  within (fun slots => insert slot (changeCell f (slots.lookup slot) row) slots)
    [CHILDREN_KEY, parent] ctx

/-- One row of an output. -/
def setRow (name : String) (r : ℕ) (v : Node) (obj : MapInner) : MapInner :=
  let xs := match obj.lookup name with
    | some (.arr xs) => xs
    | _ => []
  insert name (.arr ((padded .null r xs).set r v)) obj

/-- The value of an output; an ssr job has but the first. -/
def outputValue (kind : JobKind) (value : Node) (out : String × ℕ) : Option Node :=
  match kind with
  | .precompute => some ((value.get out.1).getD .null)
  | .ssr => if out.2 = 0 then some value else none

def writeOutput (plan : JobPlan) (value : Node) (obj : MapInner) (out : String × ℕ) : MapInner :=
  match outputValue plan.kind value out with
  | none => obj
  | some v =>
    match plan.instanceRow with
    | none => insert out.1 v obj
    | some r => setRow out.1 r v obj

def writeOutputs (plan : JobPlan) (value : Node) (obj : MapInner) : MapInner :=
  plan.outputs.zipIdx.foldl (writeOutput plan value) obj

/-- The members of a result, put into an object. -/
def spread (value : Node) (obj : MapInner) : MapInner :=
  match value with
  | .map entries _ => entries.foldl (fun o e => insert e.1 e.2 o) obj
  | _ => obj

/-- What a plan without outputs puts into its object. -/
def writeLegacy (plan : JobPlan) (component : String) (value : Node) : MapInner → MapInner :=
  match plan.kind with
  | .precompute => spread value
  | .ssr => insert ("_ssr_" ++ component) value

def mergeLegacy (ctx : MapInner) (plan : JobPlan) (value : Node) : MapInner :=
  match plan.dest with
  | .chain component _ => within (writeLegacy plan component value) [OWN_KEY, component] ctx
  | .child parent component slot row =>
    let ctx :=
      if plan.kind = .ssr ∧ row = none then
        within (insert ("_ssr_" ++ component) value) [CHILDREN_KEY, parent] ctx
      else ctx
    inCell (writeLegacy plan component value) parent slot row ctx

def mergeResult (ctx : MapInner) (plan : JobPlan) (value : Node) : MapInner :=
  if plan.outputs = [] then mergeLegacy ctx plan value
  else
    match plan.dest with
    | .chain component _ => within (writeOutputs plan value) [OWN_KEY, component] ctx
    | .child parent _ slot row => inCell (writeOutputs plan value) parent slot row ctx

def mergeValues (ctx : MapInner) (plans : List JobPlan) (values : List (Option Node)) : MapInner :=
  (plans.zip values).foldl (fun ctx p => (p.2.map (mergeResult ctx p.1)).getD ctx) ctx

/-! ### Where the server writes -/

/-- The names of job outputs: `_s1`, `_ssr_<id>`, `_fj_<id>_<ordinal>_s1`. -/
inductive JobName (n : String) : Prop where
  | ssr (h : "_ssr_".toList <+: n.toList)
  | precompute (h : Numbered "_s" n)
  | fused (h : "_fj_".toList <+: n.toList)

theorem jobName_ssr (id : String) : JobName ("_ssr_" ++ id) :=
  .ssr (by rw [String.toList_append]; exact List.prefix_append _ _)

/-- The slots of a component's children. -/
def slotsOf (idx : PlanIndex E) (id : String) : List String :=
  (((idx.byId.lookup id).bind (idx.comps[·]?)).map fun c => c.children.map (·.slot)).getD []

/-- What the map of a component has. -/
def held (ctx : MapInner) (all id key : String) : Option Node :=
  (Node.map ctx none).down [all, id, key]

/-- What the server files under a component: values of jobs and, in one of the maps, the slots of
its children. -/
def Filed (idx : PlanIndex E) (all id key : String) : Prop :=
  JobName key ∨ all = CHILDREN_KEY ∧ key ∈ slotsOf idx id

/-- A change of the context that only files in the two maps: what else is there stays, what is
filed stays filed, and what is under a key comes from that key alone. -/
structure Filing (idx : PlanIndex E) (g : MapInner → MapInner) : Prop where
  other : ∀ ctx key, key ∉ [CHILDREN_KEY, OWN_KEY] → (g ctx).lookup key = ctx.lookup key
  agree : ∀ ctx ctx' key, ctx.lookup key = ctx'.lookup key →
    (g ctx).lookup key = (g ctx').lookup key
  keeps : ∀ ctx all id key, (held ctx all id key).isSome → (held (g ctx) all id key).isSome
  fills : ∀ ctx all id key, (held (g ctx) all id key).isSome →
    (held ctx all id key).isSome ∨ Filed idx all id key

namespace Filing

variable {idx : PlanIndex E}

protected theorem id : Filing idx fun ctx => ctx where
  other _ _ _ := rfl
  agree _ _ _ h := h
  keeps _ _ _ _ h := h
  fills _ _ _ _ h := .inl h

theorem comp {g g' : MapInner → MapInner} (h' : Filing idx g') (h : Filing idx g) :
    Filing idx fun ctx => g' (g ctx) where
  other _ _ hkey := (h'.other _ _ hkey).trans (h.other _ _ hkey)
  agree _ _ _ he := h'.agree _ _ _ (h.agree _ _ _ he)
  keeps _ _ _ _ hs := h'.keeps _ _ _ _ (h.keeps _ _ _ _ hs)
  fills _ _ _ _ hs := (h'.fills _ _ _ _ hs).elim (h.fills _ _ _ _) .inr

theorem foldl {α : Type} {step : MapInner → α → MapInner} {l : List α}
    (h : ∀ a ∈ l, Filing idx fun ctx => step ctx a) : Filing idx fun ctx => l.foldl step ctx := by
  induction l with
  | nil => exact .id
  | cons a l ih =>
      exact comp (ih fun b hb => h b (List.mem_cons_of_mem _ hb)) (h a (List.mem_cons_self ..))

end Filing

/-- A change of an object that leaves no key out. -/
def Keeping (f : MapInner → MapInner) : Prop :=
  ∀ o key, (o.lookup key).isSome → ((f o).lookup key).isSome

/-- A change of an object that adds keys of one kind. -/
def Adding (P : String → Prop) (f : MapInner → MapInner) : Prop :=
  ∀ o key, ((f o).lookup key).isSome → (o.lookup key).isSome ∨ P key

theorem lookup_within (f : MapInner → MapInner) (k : String) (ks : List String) (ctx : MapInner)
    (key : String) : (within f (k :: ks) ctx).lookup key =
      if key = k then some (.map (within f ks (Node.members (ctx.lookup k)).1)
        (Node.members (ctx.lookup k)).2) else ctx.lookup key := by
  rw [within, lookup_insert]

theorem down_singleton (ctx : MapInner) (key : String) :
    (Node.map ctx none).down [key] = ctx.lookup key := by
  rw [down_cons]
  cases ctx.lookup key <;> rfl

theorem held_within (f : MapInner → MapInner) (all id : String) (ctx : MapInner)
    (all' id' key : String) : held (within f [all, id] ctx) all' id' key =
      if all' = all ∧ id' = id then
        (f (Node.members ((Node.members (ctx.lookup all)).1.lookup id)).1).lookup key
      else held ctx all' id' key := by
  rw [held, down_cons, lookup_within]
  by_cases hall : all' = all
  · subst hall
    rw [if_pos rfl, Option.bind_some, down_map _ _ (List.cons_ne_nil _ _), down_cons,
      lookup_within]
    by_cases hid : id' = id
    · rw [if_pos hid, if_pos ⟨rfl, hid⟩, Option.bind_some, down_map _ _ (List.cons_ne_nil _ _),
        down_singleton, within]
    · rw [if_neg hid, if_neg fun h => hid h.2, ← down_cons, down_members _ _ (List.cons_ne_nil _ _)]
      rfl
  · rw [if_neg hall, if_neg fun h => hall h.1]
    rfl

theorem lookup_members (ctx : MapInner) (all id key : String) :
    (Node.members ((Node.members (ctx.lookup all)).1.lookup id)).1.lookup key =
      held ctx all id key := by
  rw [held, ← down_members _ _ (List.cons_ne_nil _ _), ← down_members _ _ (List.cons_ne_nil _ _),
    down_singleton]

theorem filing_within {idx : PlanIndex E} {f : MapInner → MapInner} {all id : String}
    (hall : all ∈ [CHILDREN_KEY, OWN_KEY]) (hkeep : Keeping f)
    (hadd : Adding (Filed idx all id) f) : Filing idx (within f [all, id]) where
  other ctx key hkey := by
    rw [lookup_within, if_neg]
    rintro rfl
    exact hkey hall
  agree ctx ctx' key he := by
    rw [lookup_within, lookup_within]
    split
    · next h =>
      subst h
      rw [he]
    · exact he
  keeps ctx all' id' key hs := by
    rw [held_within]
    split
    · next h =>
      rw [h.1, h.2, ← lookup_members] at hs
      exact hkeep _ _ hs
    · exact hs
  fills ctx all' id' key hs := by
    rw [held_within] at hs
    split at hs
    · next h =>
      rw [h.1, h.2, ← lookup_members]
      exact hadd _ _ hs
    · exact .inl hs

/-! ### What the results write -/

theorem keeping_insert (name : String) (v : Node) : Keeping (insert name v) := fun o key hs => by
  rw [lookup_insert]
  split
  · rfl
  · exact hs

theorem adding_insert {P : String → Prop} {name : String} (h : P name) (v : Node) :
    Adding P (insert name v) := fun o key hs => by
  rw [lookup_insert] at hs
  split at hs
  · next he => exact .inr (he ▸ h)
  · exact .inl hs

theorem keeping_foldl {α : Type} {step : MapInner → α → MapInner} {l : List α}
    (h : ∀ a ∈ l, Keeping fun o => step o a) : Keeping fun o => l.foldl step o := by
  induction l with
  | nil => exact fun _ _ hs => hs
  | cons a l ih =>
      exact fun o key hs => ih (fun b hb => h b (List.mem_cons_of_mem _ hb)) _ _
        (h a (List.mem_cons_self ..) o key hs)

theorem adding_foldl {P : String → Prop} {α : Type} {step : MapInner → α → MapInner} {l : List α}
    (h : ∀ a ∈ l, Adding P fun o => step o a) : Adding P fun o => l.foldl step o := by
  induction l with
  | nil => exact fun _ _ hs => .inl hs
  | cons a l ih =>
      exact fun o key hs => (ih (fun b hb => h b (List.mem_cons_of_mem _ hb)) _ _ hs).elim
        (h a (List.mem_cons_self ..) o key) .inr

/-- Writing an output inserts its name, or does nothing. -/
theorem writeOutput_cases (plan : JobPlan) (value : Node) (out : String × ℕ) (obj : MapInner) :
    writeOutput plan value obj out = obj ∨
      ∃ v, writeOutput plan value obj out = insert out.1 v obj := by
  rw [writeOutput]
  cases outputValue plan.kind value out with
  | none => exact .inl rfl
  | some v =>
      cases plan.instanceRow with
      | none => exact .inr ⟨v, rfl⟩
      | some r => exact .inr ⟨_, rfl⟩

theorem keeping_writeOutputs (plan : JobPlan) (value : Node) : Keeping (writeOutputs plan value) :=
  keeping_foldl fun out _ o key hs => by
    beta_reduce
    rcases writeOutput_cases plan value out o with he | ⟨v, he⟩
    · rw [he]
      exact hs
    · rw [he]
      exact keeping_insert _ _ o key hs

theorem adding_writeOutputs {P : String → Prop} {plan : JobPlan} (h : ∀ o ∈ plan.outputs, P o)
    (value : Node) : Adding P (writeOutputs plan value) :=
  adding_foldl fun out hout o key hs => by
    beta_reduce at hs
    rcases writeOutput_cases plan value out o with he | ⟨v, he⟩
    · rw [he] at hs
      exact .inl hs
    · rw [he] at hs
      exact adding_insert (h _ (List.fst_mem_of_mem_zipIdx hout)) _ o key hs

theorem keeping_writeLegacy (plan : JobPlan) (component : String) (value : Node) :
    Keeping (writeLegacy plan component value) := by
  rw [writeLegacy]
  cases plan.kind with
  | ssr => exact keeping_insert _ _
  | precompute =>
      cases value with
      | map entries order => exact keeping_foldl fun e _ => keeping_insert _ _
      | null | bool _ | num _ | str _ | arr _ => exact fun _ _ hs => hs

/-- A plan's result has the members that a plan without outputs would put into its object. -/
def LegacyNamed (plan : JobPlan) (value : Node) : Prop :=
  plan.outputs = [] → plan.kind = .precompute → ∀ e ∈ (Node.members (some value)).1, JobName e.1

theorem adding_writeLegacy {plan : JobPlan} {value : Node} (houtputs : plan.outputs = [])
    (h : LegacyNamed plan value) (component : String) :
    Adding JobName (writeLegacy plan component value) := by
  rw [writeLegacy]
  cases hkind : plan.kind with
  | ssr => exact adding_insert (jobName_ssr _) _
  | precompute =>
      cases value with
      | map entries order =>
          exact adding_foldl fun e he => adding_insert (h houtputs hkind e he) _
      | null | bool _ | num _ | str _ | arr _ => exact fun _ _ hs => .inl hs

theorem filing_inCell {idx : PlanIndex E} (f : MapInner → MapInner) {parent slot : String}
    (hslot : slot ∈ slotsOf idx parent) (row : Option ℕ) :
    Filing idx (inCell f parent slot row) :=
  filing_within (List.mem_cons_self ..)
    (fun o key hs => keeping_insert slot (changeCell f (o.lookup slot) row) o key hs)
    fun o key hs => adding_insert (.inr ⟨rfl, hslot⟩) (changeCell f (o.lookup slot) row) o key hs

/-- **A result is filed.** -/
theorem filing_mergeResult {idx : PlanIndex E} {plan : JobPlan} {value : Node}
    (hnamed : ∀ o ∈ plan.outputs, JobName o) (hlegacy : LegacyNamed plan value)
    (hslot : ∀ parent component slot row, plan.dest = .child parent component slot row →
      slot ∈ slotsOf idx parent) :
    Filing idx fun ctx => mergeResult ctx plan value := by
  have hown : OWN_KEY ∈ [CHILDREN_KEY, OWN_KEY] := by simp
  unfold mergeResult
  by_cases houtputs : plan.outputs = []
  · simp only [if_pos houtputs]
    unfold mergeLegacy
    cases hdest : plan.dest with
    | chain component row =>
        exact filing_within hown (keeping_writeLegacy _ _ _) fun o key hs =>
          (adding_writeLegacy houtputs hlegacy component o key hs).imp_right .inl
    | child parent component slot row =>
        refine .comp (filing_inCell _ (hslot _ _ _ _ hdest) row) ?_
        split
        · exact filing_within (List.mem_cons_self ..) (keeping_insert _ _)
            (adding_insert (.inl (jobName_ssr _)) _)
        · exact .id
  · simp only [if_neg houtputs]
    cases hdest : plan.dest with
    | chain component row =>
        exact filing_within hown (keeping_writeOutputs _ _) fun o key hs =>
          (adding_writeOutputs hnamed value o key hs).imp_right .inl
    | child parent component slot row => exact filing_inCell _ (hslot _ _ _ _ hdest) row

/-- A seed is filed, where its slot is the component's. -/
theorem filing_seedOne {idx : PlanIndex E} {seed : String × String × Node}
    (h : seed.2.1 ∈ slotsOf idx seed.1) : Filing idx fun ctx => seedOne ctx seed :=
  filing_within (List.mem_cons_self ..) (keeping_insert _ _) (adding_insert (.inr ⟨rfl, h⟩) _)

/-! ### What the compiler builds -/

/-- The ids and the outputs are named as the compiler names them. -/
structure Manifest.Compiled (m : Manifest) : Prop where
  ids : ∀ c ∈ m.components, BuiltId c.1
  outputs : ∀ c ∈ m.components, ∀ j ∈ c.2.jobs, ∀ o ∈ j.outputs, JobName o

section
variable {crates : Crates E} {m : Manifest} {idx : PlanIndex E}

theorem mem_slotsOf {id key : String} : key ∈ slotsOf idx id ↔
    ∃ i c, idx.byId.lookup id = some i ∧ idx.comps[i]? = some c ∧
      ∃ ch ∈ c.children, ch.slot = key := by
  rw [slotsOf]
  cases hi : idx.byId.lookup id with
  | none => simp
  | some i =>
      cases hc : idx.comps[i]? with
      | none => simp [hc]
      | some c => simp [hc]

/-- The slots are the server's names. -/
theorem serverName_of_slot (hidx : PlanIndex.new crates m = .ok idx) (hm : m.Compiled)
    {id key : String} (h : key ∈ slotsOf idx id) : ServerName key := by
  obtain ⟨i, c, hi, hc, ch, hch, rfl⟩ := mem_slotsOf.mp h
  obtain ⟨-, hslots, -, hknown⟩ := comp_of_byId hidx hi hc
  have hslot : ch.slot ∈ c.children.map (·.slot) := List.mem_map_of_mem hch
  rw [hslots] at hslot
  obtain ⟨name, hname, hslot⟩ := List.mem_map.mp hslot
  obtain ⟨record, hrecord, rfl⟩ := List.mem_map.mp hname
  obtain ⟨r, hr⟩ := hknown record.1 (List.fst_mem_of_mem_zipIdx hrecord)
  exact .slot (hm.ids _ hr).shape (hslot ▸ slotOf_instanceName _ record)

/-- The outputs of a component's jobs are named as the compiler names them. -/
theorem jobName_of_tpl (hidx : PlanIndex.new crates m = .ok idx) (hm : m.Compiled) {i : ℕ}
    {c : CompTpl E} (hc : idx.comps[i]? = some c) {t : JobTpl E} (ht : t ∈ c.jobs) :
    ∀ o ∈ t.outputs, JobName o := by
  obtain ⟨comps, hcomps, hidx⟩ := bind_eq_ok.mp hidx
  cases hidx
  obtain ⟨record, hrecord, htpl⟩ := mem_of_mapM_ok hcomps (List.mem_of_getElem? hc)
  obtain ⟨jobs, hjobs, htpl⟩ := bind_eq_ok.mp htpl
  obtain ⟨children, -, htpl⟩ := bind_eq_ok.mp htpl
  cases htpl
  obtain ⟨j, hj, hjob⟩ := mem_of_mapM_ok hjobs ht
  rw [(jobTpl_record (mapError_eq_ok.mp hjob)).2.2]
  exact hm.outputs _ hrecord j hj

/-- What is planned has the outputs of a job, and a child's slot is one of its parent's. -/
theorem plan_named (hidx : PlanIndex.new crates m = .ok idx) (hm : m.Compiled)
    {chain : List String} {ctx : Node} {plans : List JobPlan}
    (h : collectJobs crates idx chain ctx = .ok plans) {plan : JobPlan} (hp : plan ∈ plans) :
    (∀ o ∈ plan.outputs, JobName o) ∧
      ∀ parent component slot row, plan.dest = .child parent component slot row →
        slot ∈ slotsOf idx parent := by
  obtain ⟨id, -, i, c, hi, hc, horigin⟩ := origin_collectJobs h hp
  obtain ⟨hid, -⟩ := comp_of_byId hidx hi hc
  rcases horigin with ⟨t, ht, hof, row, hdest⟩ | ⟨ch, hch, child, hchild, t, ht, hof, row, hdest⟩
  · refine ⟨fun o ho => jobName_of_tpl hidx hm hc ht o (hof.outputs ▸ ho), ?_⟩
    intro parent component slot row' he
    rw [hdest] at he
    cases he
  · refine ⟨fun o ho => jobName_of_tpl hidx hm hchild ht o (hof.outputs ▸ ho), ?_⟩
    intro parent component slot row' he
    rw [hdest] at he
    cases he
    exact mem_slotsOf.mpr ⟨i, c, hid.symm ▸ hi, hc, ch, hch, rfl⟩

variable {useIdSlots : String → ℕ} {routeId : String} {ctx : Node} {chain : List String}
  {seeds : List (List (String × String × Node))}

/-- The seeds are of the slots of the chain's components. -/
theorem mem_slotsOf_of_seed (hidx : PlanIndex.new crates m = .ok idx)
    (h : chain.mapM (compSeeds m idx useIdSlots routeId ctx) = .ok seeds)
    {seed : String × String × Node} (hseed : seed ∈ seeds.flatten) :
    seed.2.1 ∈ slotsOf idx seed.1 := by
  obtain ⟨ys, hys, hseed⟩ := List.mem_flatten.mp hseed
  obtain ⟨id, -, hid⟩ := mem_of_mapM_ok h hys
  obtain ⟨c, hc, -, hslots, hmap⟩ := compSeeds_spec hidx hid
  obtain ⟨k, hk, hseed⟩ := mem_of_mapM_ok hmap hseed
  obtain ⟨hparent, hslot, -⟩ := mem_of_compSeed hseed
  obtain ⟨i, hi, hc⟩ := Option.bind_eq_some_iff.mp hc
  rw [hparent, hslot]
  exact mem_slotsOf.mpr ⟨i, c, hi, hc, k.1, (List.of_mem_zip hk).1, rfl⟩

/-- Every slot of a component of the chain is seeded. -/
theorem exists_seed (hidx : PlanIndex.new crates m = .ok idx)
    (h : chain.mapM (compSeeds m idx useIdSlots routeId ctx) = .ok seeds) {id key : String}
    (hid : id ∈ chain) (hkey : key ∈ slotsOf idx id) :
    ∃ seed ∈ seeds.flatten, seed.1 = id ∧ seed.2.1 = key := by
  obtain ⟨ys, hys, hcomp⟩ := exists_of_mapM_ok h hid
  obtain ⟨c, hc, -, hslots, hmap⟩ := compSeeds_spec hidx hcomp
  obtain ⟨i, hi, hci⟩ := Option.bind_eq_some_iff.mp hc
  obtain ⟨i', c', hi', hc', ch, hch, rfl⟩ := mem_slotsOf.mp hkey
  obtain rfl := Option.some.inj (hi.symm.trans hi')
  obtain rfl := Option.some.inj (hci.symm.trans hc')
  rw [← kids_fst hslots] at hch
  obtain ⟨k, hk, rfl⟩ := List.mem_map.mp hch
  obtain ⟨seed, hseed, hk⟩ := exists_of_mapM_ok hmap hk
  obtain ⟨hparent, hslot, -⟩ := mem_of_compSeed hk
  exact ⟨seed, List.mem_flatten.mpr ⟨ys, hys, hseed⟩, hparent, hslot⟩

end

/-- What was seeded is filed. -/
theorem held_of_seed {idx : PlanIndex E} {seeds : List (String × String × Node)}
    (h : ∀ seed ∈ seeds, seed.2.1 ∈ slotsOf idx seed.1) {seed : String × String × Node}
    (hseed : seed ∈ seeds) (ctx : MapInner) :
    (held (seeds.foldl seedOne ctx) CHILDREN_KEY seed.1 seed.2.1).isSome = true := by
  obtain ⟨before, behind, rfl⟩ := List.append_of_mem hseed
  have hbehind : Filing idx fun ctx => behind.foldl seedOne ctx :=
    .foldl fun s hs => filing_seedOne (h s (List.mem_append_right _ (List.mem_cons_of_mem _ hs)))
  rw [List.foldl_append, List.foldl_cons]
  refine hbehind.keeps _ _ _ _ ?_
  have hself : held (within (insert seed.2.1 seed.2.2) [CHILDREN_KEY, seed.1]
      (before.foldl seedOne ctx)) CHILDREN_KEY seed.1 seed.2.1 = some seed.2.2 := by
    rw [held_within, if_pos ⟨rfl, rfl⟩, lookup_insert, if_pos rfl]
  exact Option.isSome_of_eq_some hself

end Brust.Plan
