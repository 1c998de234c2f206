import Brust.Plan.CallIds
import Brust.Plan.Projection
import Brust.Support.Framing
import Mathlib.Data.List.Flatten

/-!
# Plan — the values of `useId`

The server hands out what the `useId` calls of a page answer: a chain component sees its values
beside its context, an inlined child has them in its cell under `__children`.  A value names its
component instance, and no two instances of a page are named alike (`Inst.text_inj`), so that no
value is handed out twice (`use_ids_distinct`).
-/

namespace Brust.Plan

open SortedMap (insert lookup_insert)

variable {E : Type}

/-! ### Seeding -/

def CHILDREN_KEY : String := "__children"

def useIds (routeId inst : String) (slots : ℕ) : List (String × String) :=
  (List.range slots).map fun n =>
    ("_id" ++ toString n, "brust-" ++ routeId ++ "-" ++ inst ++ "-" ++ toString (n + 1))

/-- The `use_id_instance` of each child of a component. -/
def useIdInstances (id : String) (children : List ChildRecord) : List String :=
  children.zipIdx.map fun ch => id ++ "." ++ instanceName children ch

/-- The cell of one instance of a child. -/
def cell (routeId inst : String) (slots : ℕ) : Node :=
  .map ((useIds routeId inst slots).foldl (fun o p => insert p.1 (.str p.2) o) []) none

section
-- `useIdSlots` is the field of a component's record that planning has no use for
variable (m : Manifest) (idx : PlanIndex E) (useIdSlots : String → ℕ) (routeId : String)

/-- What is put under a child's slot: its cell, or one for each row. -/
def childSeed (ctx : Node) (ch : ChildTpl E × String) : Except PlanError Node :=
  match idx.comps[ch.1.child]? with
  | none => throw .panics
  | some child =>
    match ch.1.rows with
    | none => pure (cell routeId ch.2 (useIdSlots child.id))
    | some list => pure (.arr ((List.range (list.count ctx)).map fun r =>
        cell routeId (ch.2 ++ "-" ++ toString r) (useIdSlots child.id)))

/-- The records of a component's children. -/
def childRecords (id : String) : List ChildRecord :=
  ((m.components.lookup id).map (·.children)).getD []

def compSeeds (ctx : Node) (id : String) : Except PlanError (List (String × String × Node)) :=
  match idx.byId.lookup id with
  | none => throw (.unknownComponent id)
  | some ci =>
    match idx.comps[ci]? with
    | none => throw .panics
    | some c => (c.children.zip (useIdInstances c.id (childRecords m c.id))).mapM fun ch => do
        let slot ← childSeed idx useIdSlots routeId ctx ch
        pure (c.id, ch.1.slot, slot)

/-- One seed; what is no object on the way is replaced. -/
def seedOne (out : MapInner) (seed : String × String × Node) : MapInner :=
  putAt seed.2.1 (some seed.2.2) [CHILDREN_KEY, seed.1] out

def seedChildSlots (chain : List String) (ctx : Node) : Except PlanError Node := do
  let seeds ← chain.mapM (compSeeds m idx useIdSlots routeId ctx)
  match ctx with
  | .map entries order => pure (.map (seeds.flatten.foldl seedOne entries) order)
  | ctx => pure ctx

/-! ### What a page reads -/

/-- The `useId` values of a chain component, as `render_chain_into` lays them over its context. -/
def overlayIds (id : String) : List String :=
  (useIds routeId id (((m.components.lookup id).map fun _ => useIdSlots id).getD 0)).map (·.2)

/-- The `useId` values in a cell. -/
def cellIds (slots : ℕ) (n : Node) : List String :=
  (List.range slots).filterMap fun k =>
    match n.get ("_id" ++ toString k) with
    | some (.str s) => some s
    | _ => none

/-- The cells under a slot: one, or one for each row. -/
def cells : Node → List Node
  | .arr xs => xs
  | n => [n]

/-- The `useId` values of the instances of a child. -/
def childIds (ctx : Node) (parent : String) (ch : ChildTpl E) : List String :=
  match idx.comps[ch.child]?, ctx.down [CHILDREN_KEY, parent, ch.slot] with
  | some child, some slot => (cells slot).flatMap (cellIds (useIdSlots child.id))
  | _, _ => []

/-- The `useId` values of a chain component and its children. -/
def compIds (ctx : Node) (id : String) : List String :=
  overlayIds m useIdSlots routeId id ++
    match (idx.byId.lookup id).bind (idx.comps[·]?) with
    | some c => c.children.flatMap (childIds idx useIdSlots ctx id)
    | none => []

/-- Every string that a `useId` call of the page answers. -/
def pageIds (chain : List String) (ctx : Node) : List String :=
  chain.flatMap (compIds m idx useIdSlots routeId ctx)

end

/-! ### Instances -/

/-- A component instance of a page; a child by its parent, its name there and its row. -/
inductive Inst where
  | chain (id : String)
  | child (parent name : String) (row : Option ℕ)

namespace Inst

def text : Inst → String
  | chain id => id
  | child parent name none => parent ++ "." ++ name
  | child parent name (some r) => parent ++ "." ++ name ++ "-" ++ toString r

/-- The separators are in no id. -/
def Plain : Inst → Prop
  | chain id => '.' ∉ id.toList
  | child parent name _ => '.' ∉ parent.toList ∧ '-' ∉ parent.toList ∧ '-' ∉ name.toList

end Inst

/-- A number behind a separator that is no digit. -/
theorem separated_inj {a b sep : String} {c : Char} (hsep : sep.toList = [c])
    (hc : c.isDigit = false) {m n : ℕ} (h : a ++ sep ++ toString m = b ++ sep ++ toString n) :
    a = b ∧ m = n := by
  have hsplit (s : String) (k : ℕ) : (s ++ sep ++ toString k).toList.reverse =
      (toString k).toList.reverse ++ c :: s.toList.reverse := by
    rw [String.toList_append, String.toList_append, hsep, List.append_assoc, List.reverse_append,
      List.reverse_append]
    simp
  have hdigits (k : ℕ) : c ∉ (toString k).toList.reverse := fun hmem =>
    digits_notMem hc k (List.mem_reverse.mp hmem)
  have hchars := congrArg (fun s : String => s.toList.reverse) h
  simp only [hsplit] at hchars
  obtain ⟨hnum, hname⟩ := append_cons_inj_left (hdigits m) (hdigits n) hchars
  exact ⟨String.toList_inj.mp (List.reverse_injective hname),
    toString_inj (List.reverse_injective hnum)⟩

/-- The parent ends at the first dot. -/
theorem dotted_inj {p p' n n' : String} (hp : '.' ∉ p.toList) (hp' : '.' ∉ p'.toList)
    (h : p ++ "." ++ n = p' ++ "." ++ n') : p = p' ∧ n = n' := by
  have hsplit (a b : String) : (a ++ "." ++ b).toList = a.toList ++ '.' :: b.toList := by
    rw [String.toList_append, String.toList_append, List.append_assoc]
    rfl
  have hchars := congrArg String.toList h
  rw [hsplit, hsplit] at hchars
  obtain ⟨hparent, hname⟩ := append_cons_inj_left hp hp' hchars
  exact ⟨String.toList_inj.mp hparent, String.toList_inj.mp hname⟩

theorem dot_mem_child (p n : String) (row : Option ℕ) :
    '.' ∈ (Inst.child p n row).text.toList := by
  cases row with
  | none => simp [Inst.text]
  | some r => simp [Inst.text]

/-- A row is behind a dash, and a child without one has none. -/
theorem dash_mem_child_iff {p n : String} {row : Option ℕ} (h : (Inst.child p n row).Plain) :
    '-' ∈ (Inst.child p n row).text.toList ↔ row.isSome = true := by
  cases row with
  | none => simp [Inst.text, h.2.1, h.2.2]
  | some r => simp [Inst.text]

/-- No two instances are named alike. -/
theorem Inst.text_inj {i j : Inst} (hi : i.Plain) (hj : j.Plain) (h : i.text = j.text) : i = j := by
  cases i with
  | chain id =>
      cases j with
      | chain id' => exact congrArg Inst.chain h
      | child p n row =>
          have hid : '.' ∉ (Inst.chain id).text.toList := hi
          rw [h] at hid
          exact absurd (dot_mem_child p n row) hid
  | child p n row =>
      cases j with
      | chain id =>
          have hid : '.' ∉ (Inst.chain id).text.toList := hj
          rw [← h] at hid
          exact absurd (dot_mem_child p n row) hid
      | child p' n' row' =>
          have hsome : row.isSome = true ↔ row'.isSome = true := by
            rw [← dash_mem_child_iff hi, ← dash_mem_child_iff hj, h]
          cases row with
          | none =>
              cases row' with
              | none =>
                  obtain ⟨rfl, rfl⟩ := dotted_inj hi.1 hj.1 h
                  rfl
              | some r' => simp at hsome
          | some r =>
              cases row' with
              | none => simp at hsome
              | some r' =>
                  have hdash : "-".toList = ['-'] := rfl
                  obtain ⟨hchild, rfl⟩ := separated_inj hdash (by decide) h
                  obtain ⟨rfl, rfl⟩ := dotted_inj hi.1 hj.1 hchild
                  rfl

/-- The values of an instance are its own. -/
theorem useIds_inj {routeId inst inst' : String} {slots slots' : ℕ} {v : String}
    (h : v ∈ (useIds routeId inst slots).map (·.2))
    (h' : v ∈ (useIds routeId inst' slots').map (·.2)) : inst = inst' := by
  rw [useIds, List.map_map] at h h'
  obtain ⟨n, -, rfl⟩ := List.mem_map.mp h
  obtain ⟨n', -, he⟩ := List.mem_map.mp h'
  have hdash : "-".toList = ['-'] := rfl
  have hinst := (separated_inj hdash (by decide) he).1
  have hchars := congrArg String.toList hinst
  simp only [String.toList_append] at hchars
  exact (String.toList_inj.mp (List.append_cancel_left hchars)).symm

theorem useIds_nodup (routeId inst : String) (slots : ℕ) :
    ((useIds routeId inst slots).map (·.2)).Nodup := by
  rw [useIds, List.map_map]
  refine List.nodup_range.map fun n n' he => ?_
  have hdash : "-".toList = ['-'] := rfl
  exact Nat.succ_injective (separated_inj hdash (by decide) he).2

/-- The values of distinct instances. -/
theorem flatMap_useIds_nodup {routeId : String} {insts : List (Inst × ℕ)}
    (hplain : ∀ i ∈ insts, i.1.Plain) (hnodup : (insts.map (·.1)).Nodup) :
    (insts.flatMap fun i => (useIds routeId i.1.text i.2).map (·.2)).Nodup := by
  rw [List.nodup_flatMap]
  refine ⟨fun i _ => useIds_nodup _ _ _, ?_⟩
  rw [List.Nodup, List.pairwise_map] at hnodup
  refine hnodup.imp_of_mem fun {i j} hi hj hne => ?_
  intro v hv hv'
  exact hne (Inst.text_inj (hplain i hi) (hplain j hj) (useIds_inj hv hv'))

/-! ### The children of a component -/

/-- The names of a component's children. -/
def childNames (children : List ChildRecord) : List String :=
  children.zipIdx.map (instanceName children)

theorem childNames_nodup (children : List ChildRecord) : (childNames children).Nodup := by
  refine (nodup_zipIdx children).map_on fun ch hch ch' hch' he => ?_
  exact mem_zipIdx_ext hch hch' (instanceName_inj hch hch' he)

section
variable {crates : Crates E} {m : Manifest} {idx : PlanIndex E} {useIdSlots : String → ℕ}
  {routeId : String} {ctx : Node}

theorem slots_of_childTpls {id : String} {children : List ChildRecord} {l : List (ChildRecord × ℕ)}
    {tpls : List (ChildTpl E)}
    (h : List.Forall₂ (fun ch t => childTpl crates m id children ch = .ok t) l tpls) :
    tpls.map (·.slot) = l.map fun ch => "__" ++ instanceName children ch := by
  induction h with
  | nil => rfl
  | cons hx _ ih =>
      obtain ⟨child, rows, props, when, rfl⟩ := childTpl_cases hx
      rw [List.map_cons, List.map_cons, ih]
      simp only [instanceName, String.append_assoc]

/-- A child with a template is a component. -/
theorem child_known {id : String} {children : List ChildRecord} {ch : ChildRecord × ℕ}
    {t : ChildTpl E} (h : childTpl crates m id children ch = .ok t) :
    ∃ i, m.byId.lookup ch.1.id = some i := by
  cases hl : m.byId.lookup ch.1.id with
  | none =>
      simp only [childTpl, hl] at h
      cases h
  | some i => exact ⟨i, rfl⟩

/-- The index leads to the first record of an id. -/
theorem lookup_of_byId {id : String} {i : ℕ} (h : m.byId.lookup id = some i) :
    ∃ r, m.components[i]? = some (id, r) ∧ m.components.lookup id = some r := by
  have hwalk : ∀ (l : List (String × ComponentRecord)) (k : ℕ),
      ((l.zipIdx k).map fun c => (c.1.1, c.2)).lookup id = some i →
      ∃ r, k ≤ i ∧ l[i - k]? = some (id, r) ∧ l.lookup id = some r := by
    intro l
    induction l with
    | nil =>
        intro k hk
        cases hk
    | cons c l ih =>
        intro k hk
        rw [List.zipIdx_cons, List.map_cons, SortedMap.lookup_cons_if] at hk
        split at hk
        · next he =>
          cases hk
          refine ⟨c.2, le_rfl, ?_, ?_⟩
          · rw [Nat.sub_self, List.getElem?_cons_zero, he]
          · rw [SortedMap.lookup_cons_if, if_pos he]
        · next hne =>
          obtain ⟨r, hle, hget, hlookup⟩ := ih (k + 1) hk
          have hsub : i - k = i - (k + 1) + 1 := by omega
          refine ⟨r, by omega, ?_, ?_⟩
          · rw [hsub, List.getElem?_cons_succ, hget]
          · rw [SortedMap.lookup_cons_if, if_neg hne, hlookup]
  obtain ⟨r, -, hget, hlookup⟩ := hwalk m.components 0 h
  exact ⟨r, hget, hlookup⟩

/-- A component of the index: the slots of its children are named as its record's. -/
theorem comp_of_byId (hidx : PlanIndex.new crates m = .ok idx) {id : String} {ci : ℕ}
    {c : CompTpl E} (hi : idx.byId.lookup id = some ci) (hc : idx.comps[ci]? = some c) :
    c.id = id ∧ c.children.map (·.slot) = (childNames (childRecords m id)).map ("__" ++ ·) ∧
      (∃ r, (id, r) ∈ m.components) ∧
      ∀ ch ∈ childRecords m id, ∃ r, (ch.id, r) ∈ m.components := by
  obtain ⟨comps, hcomps, hidx⟩ := bind_eq_ok.mp hidx
  cases hidx
  obtain ⟨r, hr, hlookup⟩ := lookup_of_byId hi
  obtain ⟨hlt, rfl⟩ := List.getElem?_eq_some_iff.mp hc
  have hlt' : ci < m.components.length := length_of_mapM_ok hcomps ▸ hlt
  have hcomp := (List.forall₂_iff_get.mp (forall₂_of_mapM_ok hcomps)).2 ci hlt' hlt
  have hrecord : m.components.get ⟨ci, hlt'⟩ = (id, r) := by
    rw [List.getElem?_eq_getElem hlt', Option.some.injEq] at hr
    exact hr
  rw [hrecord] at hcomp
  obtain ⟨jobs, -, hcomp⟩ := bind_eq_ok.mp hcomp
  obtain ⟨children, hchildren, hcomp⟩ := bind_eq_ok.mp hcomp
  rw [List.get_eq_getElem] at hcomp
  rw [← Except.ok.inj hcomp]
  have hrecords : childRecords m id = r.children := by
    rw [childRecords, hlookup]
    rfl
  rw [hrecords]
  refine ⟨rfl, ?_, ⟨r, List.mem_of_getElem? hr⟩, fun ch hch => ?_⟩
  · rw [slots_of_childTpls (forall₂_of_mapM_ok hchildren), childNames, List.map_map]
    rfl
  · obtain ⟨i, hget⟩ := List.getElem?_of_mem hch
    have hlen : i < children.length := by
      rw [length_of_mapM_ok hchildren, List.length_zipIdx]
      exact (List.getElem?_eq_some_iff.mp hget).1
    have hzip : i < r.children.zipIdx.length := length_of_mapM_ok hchildren ▸ hlen
    have htpl := (List.forall₂_iff_get.mp (forall₂_of_mapM_ok hchildren)).2 i hzip hlen
    obtain ⟨j, hj⟩ := child_known htpl
    obtain ⟨r', hr', -⟩ := lookup_of_byId hj
    have hid : (r.children.zipIdx.get ⟨i, hzip⟩).1 = ch := by
      rw [List.get_eq_getElem, List.getElem_zipIdx]
      exact (List.getElem?_eq_some_iff.mp hget).2
    rw [hid] at hr'
    exact ⟨r', List.mem_of_getElem? hr'⟩

/-- The children of a component with their names. -/
def kids (m : Manifest) (c : CompTpl E) : List (ChildTpl E × String) :=
  c.children.zip (childNames (childRecords m c.id))

theorem kids_fst {c : CompTpl E}
    (h : c.children.map (·.slot) = (childNames (childRecords m c.id)).map ("__" ++ ·)) :
    (kids m c).map (·.1) = c.children := by
  have hlen := congrArg List.length h
  rw [List.length_map, List.length_map] at hlen
  exact List.map_fst_zip hlen.le

theorem kids_nodup {c : CompTpl E}
    (h : c.children.map (·.slot) = (childNames (childRecords m c.id)).map ("__" ++ ·)) :
    ((kids m c).map (·.2)).Nodup := by
  have hlen := congrArg List.length h
  rw [List.length_map, List.length_map] at hlen
  have hsnd : (kids m c).map (·.2) = childNames (childRecords m c.id) := List.map_snd_zip hlen.ge
  rw [hsnd]
  exact childNames_nodup _

theorem slot_of_mem_kids {c : CompTpl E}
    (h : c.children.map (·.slot) = (childNames (childRecords m c.id)).map ("__" ++ ·))
    {k : ChildTpl E × String} (hk : k ∈ kids m c) : k.1.slot = "__" ++ k.2 := by
  obtain ⟨i, hi⟩ := List.getElem?_of_mem hk
  obtain ⟨hchild, hname⟩ := List.getElem?_zip_eq_some.mp hi
  have hget := congrArg (·[i]?) h
  simp only [List.getElem?_map, hchild, hname, Option.map_some] at hget
  exact Option.some.inj hget

/-- The slots of a component's children differ. -/
theorem kid_of_slot {c : CompTpl E}
    (h : c.children.map (·.slot) = (childNames (childRecords m c.id)).map ("__" ++ ·))
    {k k' : ChildTpl E × String} (hk : k ∈ kids m c) (hk' : k' ∈ kids m c)
    (he : k.1.slot = k'.1.slot) : k = k' := by
  rw [slot_of_mem_kids h hk, slot_of_mem_kids h hk'] at he
  have hchars := congrArg String.toList he
  simp only [String.toList_append] at hchars
  exact List.inj_on_of_nodup_map (kids_nodup h) hk hk'
    (String.toList_inj.mp (List.append_cancel_left hchars))

/-! ### Reading the seeds -/

/-- A key that is inserted once. -/
theorem lookup_foldl_insert_once {l : List (String × String)} (hnodup : (l.map (·.1)).Nodup)
    {e : String × String} (he : e ∈ l) (out : MapInner) :
    (l.foldl (fun o p => insert p.1 (.str p.2) o) out).lookup e.1 = some (.str e.2) := by
  have hkeep : ∀ (l : List (String × String)) (out : MapInner) (k : String), k ∉ l.map (·.1) →
      (l.foldl (fun o p => insert p.1 (Node.str p.2) o) out).lookup k = out.lookup k := by
    intro l
    induction l with
    | nil => exact fun _ _ _ => rfl
    | cons p l ih =>
        intro out k hk
        rw [List.map_cons, List.mem_cons, not_or] at hk
        rw [List.foldl_cons, ih _ _ hk.2, lookup_insert, if_neg hk.1]
  induction l generalizing out with
  | nil => cases he
  | cons p l ih =>
      rw [List.map_cons, List.nodup_cons] at hnodup
      rw [List.foldl_cons]
      rcases List.mem_cons.mp he with rfl | he
      · rw [hkeep _ _ _ hnodup.1, lookup_insert, if_pos rfl]
      · exact ih hnodup.2 he _

theorem useIds_keys_nodup (routeId inst : String) (slots : ℕ) :
    ((useIds routeId inst slots).map (·.1)).Nodup := by
  rw [useIds, List.map_map]
  refine List.nodup_range.map fun n n' he => ?_
  have hchars := congrArg String.toList he
  simp only [Function.comp_apply, String.toList_append] at hchars
  exact toString_inj (List.append_cancel_left hchars)

/-- A cell has the values of its instance. -/
theorem cellIds_cell (routeId inst : String) (slots : ℕ) :
    cellIds slots (cell routeId inst slots) = (useIds routeId inst slots).map (·.2) := by
  have hget : ∀ k ∈ List.range slots, (cell routeId inst slots).get ("_id" ++ toString k) =
      some (.str ("brust-" ++ routeId ++ "-" ++ inst ++ "-" ++ toString (k + 1))) := fun k hk =>
    lookup_foldl_insert_once (useIds_keys_nodup routeId inst slots)
      (List.mem_map.mpr ⟨k, hk, rfl⟩) []
  rw [cellIds, useIds, List.map_map, ← List.filterMap_eq_map]
  refine List.filterMap_congr fun k hk => ?_
  rw [hget k hk]
  rfl

/-- Seeds of other slots leave a slot alone. -/
theorem down_seedOne_of_ne {parent slot : String} {seed : String × String × Node}
    (h : (parent, slot) ≠ (seed.1, seed.2.1)) (out : MapInner) :
    (Node.map (seedOne out seed) none).down [CHILDREN_KEY, parent, slot] =
      (Node.map out none).down [CHILDREN_KEY, parent, slot] := by
  have hapart : ∀ {a b : String × String}, a ≠ b →
      ¬ [CHILDREN_KEY, a.1, a.2] <+: [CHILDREN_KEY, b.1, b.2] := by
    intro a b hne hpre
    have heq := hpre.eq_of_length rfl
    simp only [List.cons.injEq, true_and, and_true] at heq
    exact hne (Prod.ext heq.1 heq.2)
  exact down_placed_apart ⟨hapart h, hapart h.symm⟩

theorem down_seeds_of_notMem {parent slot : String} {seeds : List (String × String × Node)}
    (h : (parent, slot) ∉ seeds.map fun s => (s.1, s.2.1)) (out : MapInner) :
    (Node.map (seeds.foldl seedOne out) none).down [CHILDREN_KEY, parent, slot] =
      (Node.map out none).down [CHILDREN_KEY, parent, slot] := by
  induction seeds generalizing out with
  | nil => rfl
  | cons seed seeds ih =>
      rw [List.map_cons, List.mem_cons, not_or] at h
      rw [List.foldl_cons, ih h.2, down_seedOne_of_ne h.1]

/-- Where no slot is seeded twice every slot has its seed. -/
theorem down_seeds {seeds : List (String × String × Node)}
    (hnodup : (seeds.map fun s => (s.1, s.2.1)).Nodup) {seed : String × String × Node}
    (hseed : seed ∈ seeds) (out : MapInner) :
    (Node.map (seeds.foldl seedOne out) none).down [CHILDREN_KEY, seed.1, seed.2.1] =
      some seed.2.2 := by
  induction seeds generalizing out with
  | nil => cases hseed
  | cons s seeds ih =>
      rw [List.map_cons, List.nodup_cons] at hnodup
      rw [List.foldl_cons]
      rcases List.mem_cons.mp hseed with rfl | hseed
      · rw [down_seeds_of_notMem hnodup.1]
        exact down_placed_self [CHILDREN_KEY, seed.1] out
      · exact ih hnodup.2 hseed _

/-! ### The instances of a page -/

/-- The values of an instance with that many slots. -/
def Inst.values (routeId : String) (i : Inst × ℕ) : List String :=
  (useIds routeId i.1.text i.2).map (·.2)

/-- The instances of a child. -/
def childInsts (idx : PlanIndex E) (useIdSlots : String → ℕ) (ctx : Node) (parent : String)
    (k : ChildTpl E × String) : List (Inst × ℕ) :=
  (childRows k.1 ctx).map fun row =>
    (.child parent k.2 row, ((idx.comps[k.1.child]?).map (useIdSlots ·.id)).getD 0)

/-- A chain component and the instances of its children. -/
def compInsts (m : Manifest) (idx : PlanIndex E) (useIdSlots : String → ℕ) (ctx : Node)
    (id : String) : List (Inst × ℕ) :=
  (.chain id, ((m.components.lookup id).map fun _ => useIdSlots id).getD 0) ::
    match (idx.byId.lookup id).bind (idx.comps[·]?) with
    | some c => (kids m c).flatMap (childInsts idx useIdSlots ctx id)
    | none => []

/-- A seeded slot has the values of its instances. -/
theorem childIds_of_seed {ctx' : Node} {parent : String} {k : ChildTpl E × String} {slot : Node}
    (hdown : ctx'.down [CHILDREN_KEY, parent, k.1.slot] = some slot)
    (hseed : childSeed idx useIdSlots routeId ctx (k.1, parent ++ "." ++ k.2) = .ok slot) :
    childIds idx useIdSlots ctx' parent k.1 =
      (childInsts idx useIdSlots ctx parent k).flatMap (Inst.values routeId) := by
  rw [childSeed] at hseed
  cases hchild : idx.comps[k.1.child]? with
  | none =>
      rw [hchild] at hseed
      cases hseed
  | some child =>
      rw [hchild] at hseed
      simp only [childIds, childInsts, childRows, hchild, hdown]
      dsimp only at hseed
      cases hrows : k.1.rows with
      | none =>
          rw [hrows] at hseed
          cases hseed
          rw [cell, cells, List.flatMap_singleton, List.map_singleton, List.flatMap_singleton]
          · exact cellIds_cell routeId _ _
          · exact fun xs hxs => by cases hxs
      | some list =>
          rw [hrows] at hseed
          cases hseed
          simp only [cells, List.flatMap_map, List.map_map]
          refine List.flatMap_congr fun r _ => ?_
          exact cellIds_cell routeId _ _

/-- The seeds of a chain component, one for each of its children. -/
theorem compSeeds_spec (hidx : PlanIndex.new crates m = .ok idx) {id : String}
    {ys : List (String × String × Node)}
    (h : compSeeds m idx useIdSlots routeId ctx id = .ok ys) :
    ∃ c : CompTpl E, (idx.byId.lookup id).bind (idx.comps[·]?) = some c ∧ c.id = id ∧
      c.children.map (·.slot) = (childNames (childRecords m c.id)).map ("__" ++ ·) ∧
      (kids m c).mapM (fun k => do
        let slot ← childSeed idx useIdSlots routeId ctx (k.1, id ++ "." ++ k.2)
        pure (id, k.1.slot, slot)) = .ok ys := by
  rw [compSeeds] at h
  cases hi : idx.byId.lookup id with
  | none =>
      rw [hi] at h
      cases h
  | some ci =>
      rw [hi] at h
      dsimp only at h
      cases hc : idx.comps[ci]? with
      | none =>
          rw [hc] at h
          cases h
      | some c =>
          rw [hc] at h
          dsimp only at h
          obtain ⟨rfl, hslots, -⟩ := comp_of_byId hidx hi hc
          refine ⟨c, hc, rfl, hslots, ?_⟩
          have hnames : useIdInstances c.id (childRecords m c.id) =
              (childNames (childRecords m c.id)).map (c.id ++ "." ++ ·) := by
            rw [childNames, List.map_map]
            rfl
          rw [hnames, List.zip_map_right, List.mapM_map] at h
          exact h

theorem mem_of_compSeed {parent : String} {k : ChildTpl E × String}
    {y : String × String × Node} (h : (do
      let slot ← childSeed idx useIdSlots routeId ctx (k.1, parent ++ "." ++ k.2)
      pure (parent, k.1.slot, slot)) = Except.ok y) :
    y.1 = parent ∧ y.2.1 = k.1.slot ∧
      childSeed idx useIdSlots routeId ctx (k.1, parent ++ "." ++ k.2) = .ok y.2.2 := by
  obtain ⟨slot, hslot, h⟩ := bind_eq_ok.mp h
  cases h
  exact ⟨rfl, rfl, hslot⟩

/-- No slot of a page is seeded twice. -/
theorem seeds_nodup (hidx : PlanIndex.new crates m = .ok idx) {chain : List String}
    (hchain : chain.Nodup) {seeds : List (List (String × String × Node))}
    (h : chain.mapM (compSeeds m idx useIdSlots routeId ctx) = .ok seeds) :
    (seeds.flatten.map fun s => (s.1, s.2.1)).Nodup := by
  refine nodup_flatten_of_mapM_ok hchain h (fun id _ ys hys => ?_)
    fun id _ id' _ ys ys' hys hys' y hy y' hy' he => ?_
  · obtain ⟨c, -, -, hslots, hmap⟩ := compSeeds_spec hidx hys
    refine nodup_of_mapM_ok (kids_nodup hslots).of_map hmap
      fun k hk k' hk' y y' hy hy' he => kid_of_slot hslots hk hk' ?_
    rw [← (mem_of_compSeed hy).2.1, ← (mem_of_compSeed hy').2.1]
    exact (Prod.mk.inj he).2
  · obtain ⟨c, -, -, -, hmap⟩ := compSeeds_spec hidx hys
    obtain ⟨c', -, -, -, hmap'⟩ := compSeeds_spec hidx hys'
    obtain ⟨k, -, hk⟩ := mem_of_mapM_ok hmap hy
    obtain ⟨k', -, hk'⟩ := mem_of_mapM_ok hmap' hy'
    rw [← (mem_of_compSeed hk).1, ← (mem_of_compSeed hk').1]
    exact (Prod.mk.inj he).1

/-- What a seeded chain component hands out. -/
theorem compIds_sublist (hidx : PlanIndex.new crates m = .ok idx) {id : String} {ctx' : Node}
    {ys : List (String × String × Node)}
    (h : compSeeds m idx useIdSlots routeId ctx id = .ok ys)
    (hseeds : (∀ y ∈ ys, ctx'.down [CHILDREN_KEY, y.1, y.2.1] = some y.2.2) ∨
      ∀ slot, ctx'.down [CHILDREN_KEY, id, slot] = none) :
    (compIds m idx useIdSlots routeId ctx' id).Sublist
      ((compInsts m idx useIdSlots ctx id).flatMap (Inst.values routeId)) := by
  obtain ⟨c, hc, rfl, hslots, hmap⟩ := compSeeds_spec hidx h
  have hkids : c.children.flatMap (childIds idx useIdSlots ctx' c.id) =
      (kids m c).flatMap fun k => childIds idx useIdSlots ctx' c.id k.1 := by
    rw [← kids_fst hslots, List.flatMap_map]
  simp only [compIds, compInsts, hc, List.flatMap_cons]
  refine (List.Sublist.refl _).append ?_
  rw [hkids, List.flatMap_assoc]
  refine List.Sublist.flatMap_right _ fun k hk => ?_
  rcases hseeds with hdown | hnone
  · obtain ⟨y, hy, hyk⟩ := exists_of_mapM_ok hmap hk
    obtain ⟨hparent, hslot, hseed⟩ := mem_of_compSeed hyk
    have := hdown y hy
    rw [hparent, hslot] at this
    rw [childIds_of_seed this hseed]
  · have : childIds idx useIdSlots ctx' c.id k.1 = [] := by
      rw [childIds, hnone]
      cases idx.comps[k.1.child]? <;> rfl
    rw [this]
    exact List.nil_sublist _

/-- The strings of a page are those of its instances. -/
theorem pageIds_sublist (hidx : PlanIndex.new crates m = .ok idx) {chain : List String}
    (hchain : chain.Nodup) {ctx' : Node}
    (h : seedChildSlots m idx useIdSlots routeId chain ctx = .ok ctx') :
    (pageIds m idx useIdSlots routeId chain ctx').Sublist
      ((chain.flatMap (compInsts m idx useIdSlots ctx)).flatMap (Inst.values routeId)) := by
  obtain ⟨seeds, hseeds, h⟩ := bind_eq_ok.mp h
  have hnodup := seeds_nodup hidx hchain hseeds
  rw [pageIds, List.flatMap_assoc]
  refine List.Sublist.flatMap_right _ fun id hid => ?_
  obtain ⟨ys, hys, hcomp⟩ := exists_of_mapM_ok hseeds hid
  refine compIds_sublist hidx hcomp ?_
  cases ctx with
  | map entries order =>
      cases h
      refine .inl fun y hy => ?_
      rw [down_map _ _ (List.cons_ne_nil _ _)]
      exact down_seeds hnodup (List.mem_flatten.mpr ⟨ys, hys, hy⟩) entries
  | null | bool _ | num _ | str _ | arr _ =>
      cases h
      exact .inr fun _ => rfl

/-! ### Plain ids -/

/-- `[A-Za-z0-9_]`. -/
def plainChar (c : Char) : Bool := c.isAlphanum || c == '_'

def Manifest.PlainIds (m : Manifest) : Prop :=
  ∀ c ∈ m.components, ∀ ch ∈ c.1.toList, plainChar ch = true

theorem notMem_of_plain {s : String} (h : ∀ ch ∈ s.toList, plainChar ch = true) {c : Char}
    (hc : plainChar c = false) : c ∉ s.toList := fun hmem => by
  rw [h c hmem] at hc
  cases hc

/-- The component an instance belongs to. -/
def Inst.component : Inst → String
  | chain id => id
  | child parent _ _ => parent

/-- The instances of a component are plain, are its own and differ. -/
theorem compInsts_spec (hidx : PlanIndex.new crates m = .ok idx) (hm : m.PlainIds) {id : String}
    {c : CompTpl E} (hc : (idx.byId.lookup id).bind (idx.comps[·]?) = some c) :
    (∀ i ∈ compInsts m idx useIdSlots ctx id, i.1.Plain ∧ i.1.component = id) ∧
      ((compInsts m idx useIdSlots ctx id).map (·.1)).Nodup := by
  obtain ⟨ci, hi, hci⟩ := Option.bind_eq_some_iff.mp hc
  obtain ⟨rfl, hslots, ⟨r, hr⟩, hknown⟩ := comp_of_byId hidx hi hci
  have hdot : '.' ∉ c.id.toList := notMem_of_plain (hm _ hr) (by decide)
  have hdash : '-' ∉ c.id.toList := notMem_of_plain (hm _ hr) (by decide)
  have hname : ∀ k ∈ kids m c, '-' ∉ k.2.toList := fun k hk => by
    obtain ⟨ch, hch, he⟩ := List.mem_map.mp (List.of_mem_zip hk).2
    obtain ⟨r', hr'⟩ := hknown ch.1 (List.fst_mem_of_mem_zipIdx hch)
    rw [← he, instanceName]
    simp only [String.toList_append, List.mem_append, not_or]
    exact ⟨⟨notMem_of_plain (hm _ hr') (by decide), by decide⟩, digits_notMem (by decide) _⟩
  have hinsts : compInsts m idx useIdSlots ctx c.id =
      (.chain c.id, ((m.components.lookup c.id).map fun _ => useIdSlots c.id).getD 0) ::
        (kids m c).flatMap (childInsts idx useIdSlots ctx c.id) := by
    rw [compInsts, hc]
  have hchild : ∀ i ∈ (kids m c).flatMap (childInsts idx useIdSlots ctx c.id),
      ∃ k ∈ kids m c, ∃ row, i.1 = .child c.id k.2 row := fun i hi => by
    obtain ⟨k, hk, hi⟩ := List.mem_flatMap.mp hi
    obtain ⟨row, -, rfl⟩ := List.mem_map.mp hi
    exact ⟨k, hk, row, rfl⟩
  rw [hinsts]
  refine ⟨fun i hi => ?_, ?_⟩
  · rcases List.mem_cons.mp hi with rfl | hi
    · exact ⟨hdot, rfl⟩
    · obtain ⟨k, hk, row, he⟩ := hchild i hi
      rw [he]
      exact ⟨⟨hdot, hdash, hname k hk⟩, rfl⟩
  · rw [List.map_cons, List.nodup_cons]
    refine ⟨fun hmem => ?_, ?_⟩
    · obtain ⟨i, hi, he⟩ := List.mem_map.mp hmem
      obtain ⟨k, -, row, he'⟩ := hchild i hi
      rw [he'] at he
      cases he
    · rw [List.map_flatMap, List.nodup_flatMap]
      refine ⟨fun k _ => ?_, ?_⟩
      · rw [childInsts, List.map_map]
        refine (nodup_childRows k.1 ctx).map fun row row' he => ?_
        exact (Inst.child.inj he).2.2
      · have hnames := kids_nodup hslots
        rw [List.Nodup, List.pairwise_map] at hnames
        refine hnames.imp fun {k k'} hne => ?_
        refine List.disjoint_left.mpr fun i hi hi' => ?_
        beta_reduce at hi hi'
        rw [childInsts, List.map_map] at hi hi'
        obtain ⟨row, -, rfl⟩ := List.mem_map.mp hi
        obtain ⟨row', -, he⟩ := List.mem_map.mp hi'
        exact hne (Inst.child.inj he).2.1.symm

/-- **Distinct `useId` values.** Where the ids of the components have no other characters than
letters, digits and underscores, the strings that the `useId` calls of one page answer are
pairwise distinct, whatever its context. -/
theorem use_ids_distinct (hidx : PlanIndex.new crates m = .ok idx) (hm : m.PlainIds)
    {chain : List String} (hchain : chain.Nodup) {ctx' : Node}
    (h : seedChildSlots m idx useIdSlots routeId chain ctx = .ok ctx') :
    (pageIds m idx useIdSlots routeId chain ctx').Nodup := by
  refine (flatMap_useIds_nodup (fun i hi => ?_) ?_).sublist (pageIds_sublist hidx hchain h)
  all_goals obtain ⟨seeds, hseeds, -⟩ := bind_eq_ok.mp h
  · obtain ⟨id, hid, hi⟩ := List.mem_flatMap.mp hi
    obtain ⟨ys, -, hys⟩ := exists_of_mapM_ok hseeds hid
    obtain ⟨c, hc, -⟩ := compSeeds_spec hidx hys
    exact ((compInsts_spec hidx hm hc).1 i hi).1
  · have hspec : ∀ id ∈ chain, (∀ i ∈ compInsts m idx useIdSlots ctx id,
        i.1.Plain ∧ i.1.component = id) ∧ ((compInsts m idx useIdSlots ctx id).map (·.1)).Nodup :=
      fun id hid => by
        obtain ⟨ys, -, hys⟩ := exists_of_mapM_ok hseeds hid
        obtain ⟨c, hc, -⟩ := compSeeds_spec hidx hys
        exact compInsts_spec hidx hm hc
    rw [List.map_flatMap, List.nodup_flatMap]
    refine ⟨fun id hid => (hspec id hid).2, hchain.imp_of_mem fun {id id'} hid hid' hne => ?_⟩
    show List.Disjoint _ _
    rw [List.disjoint_left]
    intro i hi hi'
    obtain ⟨j, hj, rfl⟩ := List.mem_map.mp hi
    obtain ⟨j', hj', he⟩ := List.mem_map.mp hi'
    exact hne (((hspec id hid).1 j hj).2.symm.trans
      ((congrArg Inst.component he).symm.trans ((hspec id' hid').1 j' hj').2))

end

section Shelf

/-- A shelf with one label and one card for each item. -/
def shelfSite : Manifest :=
  ⟨[("shelf_1", ⟨[], [⟨"label_2", .static, [], [], [], none, none⟩,
      ⟨"card_3", .perRow "items", [], [], [], none, none⟩]⟩),
    ("label_2", ⟨[], []⟩), ("card_3", ⟨[], []⟩)]⟩

def shelfIndex : PlanIndex Unit :=
  ⟨[⟨"shelf_1", [], [],
      [⟨1, none, ⟨[], none⟩, none, "__label_2_1", []⟩,
        ⟨2, some (.path [.key "items"]), ⟨[], some (.path [.key "items"])⟩, none,
          "__card_3_1", []⟩]⟩,
    ⟨"label_2", [], [], []⟩, ⟨"card_3", [], [], []⟩], shelfSite.byId⟩

def shelfCtx : Node := .map [("items", .arr [.null, .null])] none

theorem use_ids_distinct_shelf :
    ∃ ctx', seedChildSlots shelfSite shelfIndex (fun _ => 1) "r" ["shelf_1"] shelfCtx = .ok ctx' ∧
      pageIds shelfSite shelfIndex (fun _ => 1) "r" ["shelf_1"] ctx' =
        ["brust-r-shelf_1-1", "brust-r-shelf_1.label_2_1-1", "brust-r-shelf_1.card_3_1-0-1",
          "brust-r-shelf_1.card_3_1-1-1"] ∧
      (pageIds shelfSite shelfIndex (fun _ => 1) "r" ["shelf_1"] ctx').Nodup := by
  have hidx : PlanIndex.new cardCrates shelfSite = .ok shelfIndex := by rfl
  have hplain : shelfSite.PlainIds := by
    have hall : ∀ c ∈ shelfSite.components, (c.1.toList.all fun ch => plainChar ch) = true := by
      decide
    exact fun c hc => List.all_eq_true.mp (hall c hc)
  have hseed : ∃ ctx', seedChildSlots shelfSite shelfIndex (fun _ => 1) "r" ["shelf_1"] shelfCtx =
      .ok ctx' ∧ pageIds shelfSite shelfIndex (fun _ => 1) "r" ["shelf_1"] ctx' =
        ["brust-r-shelf_1-1", "brust-r-shelf_1.label_2_1-1", "brust-r-shelf_1.card_3_1-0-1",
          "brust-r-shelf_1.card_3_1-1-1"] := ⟨_, rfl, by decide⟩
  obtain ⟨ctx', hctx, hids⟩ := hseed
  exact ⟨ctx', hctx, hids, use_ids_distinct hidx hplain (List.nodup_singleton _) hctx⟩

end Shelf

end Brust.Plan
