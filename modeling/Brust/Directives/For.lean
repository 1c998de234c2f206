import Brust.Support.Siblings
import Brust.Support.SortedMap
import Mathlib.Data.List.Count

/-!
# Directives — Lists

`x-for`: the rows of a list, reconciled with every value of it.  A run takes the rows of equal keys
out of their pools, builds the others, drops what is left and places the rest behind the anchor.
The pools are taken from while the run goes on, and `rows` and `order` are set at its end, so a run
that throws half-way leaves rows behind that nothing drops (`list_loses_row`); where no run throws
after it took one, every run that completes accounts for every row (`list_accounted`).
-/

namespace Brust.Directives

open Siblings
open scoped List

/-- The nodes of the list's parent. -/
abbrev Ref := ℕ

/-- What a key function gives, compared as `Map` and `Set` compare. -/
inductive Key (V : Type)
  | undefined
  | str (s : String)
  | other (v : V)
deriving DecidableEq

/-- How a row's binding ends: where it throws, with effects or cleanups registered or none. -/
inductive Binding
  | ok
  | throws (registered : Bool)
deriving DecidableEq

/-- An item in one run: its key (`none`: the key function throws), how a new row of it binds, and
whether the set of a reused row's signal returns.  That set flushes: the bindings of the row run
again, and so does every other effect that is pending by then, and the first that throws ends it. -/
structure Entry (ι V : Type) where
  item : ι
  key : Option (Key V)
  bind : Binding
  flushes : Bool

/-- What a row's bindings read: the item, and the index where the syntax names one. -/
structure Scope (ι : Type) where
  item : ι
  index : Option ℕ
deriving DecidableEq

/-- The list's own: its anchor, whether the syntax names an index, which rows are nested hosts. -/
structure Template where
  anchor : Ref
  indexed : Bool
  nested : Ref → Bool

/-- `bound`: the rows whose binding registered effects and cleanups; `drops`: those that can still
let go of them; `ran`: those that did, in order. -/
structure Rows (ι V : Type) where
  children : List Ref
  scope : Ref → Option (Scope ι)
  rows : List (Key V × List Ref)
  order : List Ref
  adopt : List Ref
  firstRun : Bool
  drops : List Ref
  created : ℕ
  bound : List Ref
  ran : List Ref

variable {ι V : Type} [DecidableEq V]

def Template.scope (t : Template) (item : ι) (i : ℕ) : Scope ι :=
  ⟨item, if t.indexed then some i else none⟩

/-! ### Pools -/

/-- `rows.get(key)?.shift()`, and the rows without it. -/
def shift (key : Key V) : List (Key V × List Ref) → Option (Ref × List (Key V × List Ref))
  | [] => none
  | (k, pool) :: rows =>
    if k = key then
      match pool with
      | [] => none
      | n :: pool => some (n, (k, pool) :: rows)
    else (shift key rows).map fun r => (r.1, (k, pool) :: r.2)

/-- `(next.get(key) ?? next.set(key, []).get(key)!).push(node)` -/
def push (key : Key V) (node : Ref) : List (Key V × List Ref) → List (Key V × List Ref)
  | [] => [(key, [node])]
  | (k, pool) :: rows =>
    if k = key then (k, pool ++ [node]) :: rows else (k, pool) :: push key node rows

/-- The key a row is kept under: an element without a key and one whose key is taken by place. -/
def rowKey (seen : List (Key V)) (i : ℕ) : Key V → Key V
  | .undefined => .str ("__nil_" ++ toString i)
  | key => if key ∈ seen then .str ("__dup_" ++ toString i) else key

section Run

variable [DecidableEq ι]

/-! ### One row -/

/-- A server's row in the first run, where one is left, or a new one. -/
def newRow (s : Rows ι V) : Ref × Rows ι V :=
  match s.firstRun, s.adopt with
  | true, node :: adopt => (node, { s with adopt })
  | _, _ => (s.created, { s with created := s.created + 1 })

/-- The row of an item: one of its key's pool, an adopted one or a new one.  Without it, the binding
of a new row threw, or an effect in the set of a reused one. -/
def takeRow (t : Template) (s : Rows ι V) (e : Entry ι V) (i : ℕ) (key : Key V) :
    Rows ι V × Option Ref :=
  let scope := t.scope e.item i
  match shift key s.rows with
  | some (node, rows) =>
    let s := { s with rows }
    if s.scope node = some scope then (s, some node)
    else
      let s := { s with scope := Function.update s.scope node (some scope) }
      (s, if e.flushes then some node else none)
  | none =>
    let (node, s) := newRow s
    let s := { s with scope := Function.update s.scope node (some scope) }
    if t.nested node then (s, some node)
    else
      match e.bind with
      | .ok => ({ s with drops := node :: s.drops, bound := node :: s.bound }, some node)
      | .throws true => ({ s with bound := node :: s.bound }, none)
      | .throws false => (s, none)

/-- The rows of the items from the `i`-th on, kept by key and in order; without them, the run
threw. -/
def takeRows (t : Template) (s : Rows ι V) (next : List (Key V × List Ref)) (nextOrder : List Ref)
    (seen : List (Key V)) (i : ℕ) :
    List (Entry ι V) → Rows ι V × Option (List (Key V × List Ref) × List Ref)
  | [] => (s, some (next, nextOrder))
  | e :: list =>
    match e.key with
    | none => (s, none)
    | some raw =>
      let key := rowKey seen i raw
      match takeRow t s e i key with
      | (s, none) => (s, none)
      | (s, some node) =>
        takeRows t s (push key node next) (nextOrder ++ [node]) (key :: seen) (i + 1) list

/-! ### A run -/

/-- A row and what it registered go. -/
def drop (s : Rows ι V) (n : Ref) : Rows ι V :=
  { s with
    ran := if n ∈ s.drops then s.ran ++ [n] else s.ran
    drops := s.drops.filter (· ≠ n)
    children := s.children.erase n }

def placeRows (ref : Ref) (children : List Ref) : List Ref → List Ref
  | [] => children
  | node :: rows => placeRows node (place (some ref) node children) rows

/-- The effect with one value of the list; false where it threw. -/
def run (t : Template) (s : Rows ι V) (list : List (Entry ι V)) : Rows ι V × Bool :=
  match takeRows t s [] [] [] 0 list with
  | (s, none) => (s, false)
  | (s, some (next, nextOrder)) =>
    let s := (s.rows.flatMap (·.2)).foldl drop s
    -- the server's rows that no item adopted
    let s := { s with
      children := s.children.filter (· ∉ s.adopt)
      adopt := []
      firstRun := false }
    ({ s with
      children := placeRows t.anchor s.children nextOrder
      rows := next
      order := nextOrder }, true)

/-- The keys that the rows of a list are kept under. -/
def rowKeys (seen : List (Key V)) (i : ℕ) : List (Key V) → List (Key V)
  | [] => []
  | raw :: raws => rowKey seen i raw :: rowKeys (rowKey seen i raw :: seen) (i + 1) raws

/-- A sequence of runs: the state, and the list of the last one that completed. -/
def exec (t : Template) (s : Rows ι V × Option (List (Entry ι V)))
    (runs : List (List (Entry ι V))) : Rows ι V × Option (List (Entry ι V)) :=
  runs.foldl (fun s list =>
    match run t s.1 list with
    | (s', true) => (s', some list)
    | (s', false) => (s', s.2)) s

end Run

/-! ### The start -/

/-- The parent's children when `el`, the first of the elements with the directive (`row`), is
bound; `template`: right behind the server's own marker.  `created`: the next node to be created. -/
structure Markup where
  children : List Ref
  el : Ref
  anchor : Ref
  row : Ref → Bool
  template : Ref → Bool
  distinct : (anchor :: children).Nodup
  el_mem : el ∈ children
  el_row : row el = true
  created : ℕ
  below : ∀ r ∈ anchor :: children, r < created

namespace Markup

variable (m : Markup)

/-- The rows that the server printed. -/
def adopt : List Ref := m.children.filter fun c => m.row c && !m.template c

def start (ι V : Type) : Rows ι V :=
  let children := insertBefore m.anchor (some m.el) m.children
  { children := if m.el ∈ m.adopt then children else children.erase m.el
    scope _ := none
    rows := []
    order := []
    adopt := m.adopt
    firstRun := true
    drops := []
    created := m.created
    bound := []
    ran := [] }

/-- A row's element: the server's or one of the list's own. -/
def Row (r : Ref) : Prop := r ∈ m.adopt ∨ m.created ≤ r

end Markup

/-! ### Pools by key -/

section Pools

variable {key k : Key V} {node : Ref} {rows rows' : List (Key V × List Ref)}

def pool (k : Key V) (rows : List (Key V × List Ref)) : List Ref := (rows.lookup k).getD []

theorem pool_cons (k k' : Key V) (p : List Ref) (rows : List (Key V × List Ref)) :
    pool k ((k', p) :: rows) = if k = k' then p else pool k rows := by
  by_cases h : k = k'
  · subst h
    simp [pool]
  · rw [if_neg h, pool, List.lookup_cons, beq_eq_false_iff_ne.mpr h]
    rfl

theorem shift_none (h : shift key rows = none) : pool key rows = [] := by
  induction rows with
  | nil => rfl
  | cons e rows ih =>
      obtain ⟨k', p⟩ := e
      rw [pool_cons]
      rw [shift.eq_def] at h
      dsimp only at h
      by_cases hk : k' = key
      · rw [if_pos hk] at h
        rw [if_pos hk.symm]
        cases p with
        | nil => rfl
        | cons n p => cases h
      · rw [if_neg hk, Option.map_eq_none_iff] at h
        rw [if_neg (Ne.symm hk), ih h]

/-- One element leaves its key's pool, the first one. -/
theorem shift_some (h : shift key rows = some (node, rows')) :
    (∀ k, pool k rows = if k = key then node :: pool k rows' else pool k rows') ∧
      (rows.flatMap (·.2)).Perm (node :: rows'.flatMap (·.2)) := by
  induction rows generalizing rows' with
  | nil => cases h
  | cons e rows ih =>
      obtain ⟨k', p⟩ := e
      rw [shift.eq_def] at h
      dsimp only at h
      by_cases hk : k' = key
      · subst hk
        rw [if_pos rfl] at h
        cases p with
        | nil => cases h
        | cons n p =>
            cases h
            refine ⟨fun k => ?_, .refl _⟩
            rw [pool_cons, pool_cons]
            split <;> rfl
      · rw [if_neg hk, Option.map_eq_some_iff] at h
        obtain ⟨⟨n, rows''⟩, h, he⟩ := h
        cases he
        obtain ⟨hpool, hperm⟩ := ih h
        refine ⟨fun k => ?_, ?_⟩
        · rw [pool_cons, pool_cons, hpool]
          by_cases h' : k = k'
          · rw [if_pos h', if_pos h', if_neg (h' ▸ hk)]
          · rw [if_neg h', if_neg h']
        · exact (hperm.append_left p).trans List.perm_middle

theorem pool_push (key : Key V) (node : Ref) (k : Key V) (rows : List (Key V × List Ref)) :
    pool k (push key node rows) = if k = key then pool k rows ++ [node] else pool k rows := by
  induction rows with
  | nil => rw [push, pool_cons]; rfl
  | cons e rows ih =>
      obtain ⟨k', p⟩ := e
      rw [push]
      by_cases hk : k' = key
      · subst hk
        rw [if_pos rfl, pool_cons, pool_cons]
        split <;> rfl
      · rw [if_neg hk, pool_cons, pool_cons, ih]
        by_cases h' : k = k'
        · rw [if_pos h', if_pos h', if_neg (h' ▸ hk)]
        · rw [if_neg h', if_neg h']

theorem perm_push (key : Key V) (node : Ref) (rows : List (Key V × List Ref)) :
    ((push key node rows).flatMap (·.2)).Perm (rows.flatMap (·.2) ++ [node]) := by
  induction rows with
  | nil => exact .refl _
  | cons e rows ih =>
      obtain ⟨k', p⟩ := e
      rw [push]
      split
      · simp only [List.flatMap_cons, List.append_assoc]
        exact (List.perm_append_comm).append_left p
      · simp only [List.flatMap_cons, List.append_assoc]
        exact ih.append_left p

end Pools

/-! ### Taking one row -/

section TakeRow

variable {t : Template} {s s' : Rows ι V} {e : Entry ι V} {i : ℕ} {key : Key V} {node : Ref}

/-- Where a row that was not in a pool comes from. -/
inductive Made (s s' : Rows ι V) (node : Ref) : Prop
  | adopted (hfirst : s.firstRun = true) (hadopt : s.adopt = node :: s'.adopt)
      (hcreated : s'.created = s.created)
  | created (hnode : node = s.created) (hadopt : s'.adopt = s.adopt)
      (hcreated : s'.created = s.created + 1) (hlater : s.firstRun = false ∨ s.adopt = [])

/-- What taking a row leaves. -/
structure Took (t : Template) (s s' : Rows ι V) (e : Entry ι V) (i : ℕ) (key : Key V)
    (node : Ref) : Prop where
  children : s'.children = s.children
  order : s'.order = s.order
  firstRun : s'.firstRun = s.firstRun
  ran : s'.ran = s.ran
  scope : s'.scope = Function.update s.scope node (some (t.scope e.item i))
  source : (shift key s.rows = some (node, s'.rows) ∧ s'.adopt = s.adopt ∧ s'.created = s.created ∧
      s'.drops = s.drops ∧ s'.bound = s.bound) ∨
    (shift key s.rows = none ∧ s'.rows = s.rows ∧ Made s s' node ∧
      ((s'.drops = s.drops ∧ s'.bound = s.bound) ∨
        (s'.drops = node :: s.drops ∧ s'.bound = node :: s.bound)))

omit [DecidableEq V] in
theorem newRow_spec (s : Rows ι V) : Made s (newRow s).2 (newRow s).1 ∧
    (newRow s).2 = { s with adopt := (newRow s).2.adopt, created := (newRow s).2.created } := by
  rw [newRow]
  split
  · next hfirst hadopt => exact ⟨.adopted hfirst hadopt rfl, rfl⟩
  · next hnot =>
    refine ⟨.created rfl rfl rfl ?_, rfl⟩
    cases hfirst : s.firstRun with
    | false => exact .inl rfl
    | true =>
        cases hadopt : s.adopt with
        | nil => exact .inr rfl
        | cons n adopt => exact (hnot n adopt hfirst hadopt).elim

theorem takeRow_some [DecidableEq ι] (h : takeRow t s e i key = (s', some node)) :
    Took t s s' e i key node := by
  rw [takeRow] at h
  dsimp only at h
  cases hshift : shift key s.rows with
  | some r =>
      obtain ⟨n, rows⟩ := r
      rw [hshift] at h
      dsimp only at h
      split at h
      · next hscope =>
        cases h
        refine ⟨rfl, rfl, rfl, rfl, ?_, .inl ⟨hshift, rfl, rfl, rfl, rfl⟩⟩
        exact (Function.update_eq_self_iff.mpr hscope.symm).symm
      · obtain ⟨rfl, hnode⟩ := Prod.mk.inj h
        split at hnode
        · cases hnode
          exact ⟨rfl, rfl, rfl, rfl, rfl, .inl ⟨hshift, rfl, rfl, rfl, rfl⟩⟩
        · cases hnode
  | none =>
      rw [hshift] at h
      dsimp only at h
      obtain ⟨hmade, hs₁⟩ := newRow_spec s
      generalize newRow s = r at h hmade hs₁
      obtain ⟨n, s₁⟩ := r
      dsimp only at h hmade hs₁
      rw [hs₁] at h
      have hmade' : ∀ s₂ : Rows ι V, s₂.adopt = s₁.adopt → s₂.created = s₁.created →
          Made s s₂ n := fun s₂ ha hc => by
        cases hmade with
        | adopted hf hadopt hcreated => exact .adopted hf (ha ▸ hadopt) (hc.trans hcreated)
        | created hnode hadopt hcreated hl =>
            exact .created hnode (ha.trans hadopt) (hc.trans hcreated) hl
      split at h
      · cases h
        exact ⟨rfl, rfl, rfl, rfl, rfl,
          .inr ⟨hshift, rfl, hmade' _ rfl rfl, .inl ⟨rfl, rfl⟩⟩⟩
      · split at h
        · cases h
          exact ⟨rfl, rfl, rfl, rfl, rfl,
            .inr ⟨hshift, rfl, hmade' _ rfl rfl, .inr ⟨rfl, rfl⟩⟩⟩
        · cases h
        · cases h

end TakeRow

/-! ### Taking every row -/

/-- The rows of the items from the `i`-th on: under which keys, and which elements. -/
inductive Takes (t : Template) :
    Rows ι V → List (Key V) → ℕ → List (Entry ι V) → Rows ι V → List (Key V) → List Ref → Prop
  | nil (s : Rows ι V) (seen : List (Key V)) (i : ℕ) : Takes t s seen i [] s [] []
  | cons {s s₁ s' : Rows ι V} {seen keys : List (Key V)} {i : ℕ} {e : Entry ι V}
      {list : List (Entry ι V)} {raw : Key V} {node : Ref} {nodes : List Ref}
      (hkey : e.key = some raw) (htook : Took t s s₁ e i (rowKey seen i raw) node)
      (hrest : Takes t s₁ (rowKey seen i raw :: seen) (i + 1) list s' keys nodes) :
      Takes t s seen i (e :: list) s' (rowKey seen i raw :: keys) (node :: nodes)

/-- The rows kept under their keys. -/
def pushAll (next : List (Key V × List Ref)) (rows : List (Key V × Ref)) :
    List (Key V × List Ref) :=
  rows.foldl (fun next r => push r.1 r.2 next) next

section Takes

variable {t : Template} {s s' : Rows ι V} {seen keys : List (Key V)} {i : ℕ}
  {list : List (Entry ι V)} {nodes : List Ref}

theorem takes_of_takeRows [DecidableEq ι] {next next' : List (Key V × List Ref)}
    {nextOrder nextOrder' : List Ref}
    (h : takeRows t s next nextOrder seen i list = (s', some (next', nextOrder'))) :
    ∃ keys nodes, Takes t s seen i list s' keys nodes ∧ nextOrder' = nextOrder ++ nodes ∧
      next' = pushAll next (keys.zip nodes) := by
  induction list generalizing s next nextOrder seen i with
  | nil =>
      cases h
      exact ⟨[], [], .nil s' seen i, (List.append_nil _).symm, rfl⟩
  | cons e list ih =>
      rw [takeRows] at h
      split at h
      · cases h
      · next raw hraw =>
        dsimp only at h
        split at h
        · cases h
        · next s₁ node hrow =>
          obtain ⟨keys, nodes, htakes, rfl, rfl⟩ := ih h
          exact ⟨_, _, .cons hraw (takeRow_some hrow) htakes, by rw [List.append_assoc]; rfl, rfl⟩

theorem Takes.keys_eq (h : Takes t s seen i list s' keys nodes) :
    keys = rowKeys seen i (list.filterMap (·.key)) ∧ keys.length = list.length ∧
      nodes.length = list.length := by
  induction h with
  | nil => exact ⟨rfl, rfl, rfl⟩
  | cons hkey _ _ ih =>
      obtain ⟨hkeys, hlength, hnodes⟩ := ih
      rw [List.filterMap_cons_some hkey, rowKeys, ← hkeys]
      exact ⟨rfl, congrArg (· + 1) hlength, congrArg (· + 1) hnodes⟩

/-- What no row changes. -/
theorem Takes.frame (h : Takes t s seen i list s' keys nodes) : s'.children = s.children ∧
    s'.order = s.order ∧ s'.firstRun = s.firstRun ∧ s'.ran = s.ran := by
  induction h with
  | nil => exact ⟨rfl, rfl, rfl, rfl⟩
  | cons _ htook _ ih =>
      obtain ⟨hc, ho, hf, hr⟩ := ih
      exact ⟨hc.trans htook.children, ho.trans htook.order, hf.trans htook.firstRun,
        hr.trans htook.ran⟩

/-- Every row taken leaves a pool or the adopted ones, or is new. -/
theorem Takes.perm (h : Takes t s seen i list s' keys nodes) : ∃ new : List Ref,
    (s'.rows.flatMap (·.2) ++ s'.adopt ++ nodes).Perm (s.rows.flatMap (·.2) ++ s.adopt ++ new) ∧
      new.Nodup ∧ (∀ r ∈ new, s.created ≤ r ∧ r < s'.created) ∧ s.created ≤ s'.created := by
  induction h with
  | nil s => exact ⟨[], .refl _, List.nodup_nil, fun _ h => (by cases h), Nat.le_refl _⟩
  | @cons s s₁ s' _ _ _ _ _ _ node nodes _ htook _ ih =>
      obtain ⟨new, hperm, hnodup, hnew, hle⟩ := ih
      simp only [List.perm_iff_count, List.count_append, List.count_cons] at hperm ⊢
      rcases htook.source with ⟨hshift, hadopt, hcreated, -⟩ | ⟨hshift, hrows, hmade, -⟩
      · refine ⟨new, fun r => ?_, hnodup, fun r hr => hcreated ▸ hnew r hr, hcreated ▸ hle⟩
        have hflat := List.perm_iff_count.mp (shift_some hshift).2 r
        rw [List.count_cons] at hflat
        have := hperm r
        rw [hadopt] at this
        omega
      · rw [hrows] at hperm
        cases hmade with
        | adopted _ hadopt hcreated =>
            refine ⟨new, fun r => ?_, hnodup, fun r hr => hcreated ▸ hnew r hr, hcreated ▸ hle⟩
            have := hperm r
            rw [hadopt, List.count_cons]
            omega
        | created hnode hadopt hcreated _ =>
            rw [hcreated] at hnew hle
            refine ⟨node :: new, fun r => ?_, ?_, fun r hr => ?_, (Nat.le_succ _).trans hle⟩
            · have := hperm r
              rw [hadopt] at this
              rw [List.count_cons]
              omega
            · refine List.nodup_cons.mpr ⟨fun hmem => ?_, hnodup⟩
              have := (hnew node hmem).1
              rw [hnode] at this
              exact absurd this (Nat.not_succ_le_self _)
            · rcases List.mem_cons.mp hr with rfl | hr
              · exact ⟨hnode.ge, hnode ▸ hle⟩
              · exact ⟨(Nat.le_succ _).trans (hnew r hr).1, (hnew r hr).2⟩

theorem Takes.adopt (h : Takes t s seen i list s' keys nodes) : s'.adopt ⊆ s.adopt := by
  induction h with
  | nil => exact List.Subset.refl _
  | cons _ htook _ ih =>
      refine List.Subset.trans ih ?_
      rcases htook.source with ⟨-, hadopt, -⟩ | ⟨-, -, hmade, -⟩
      · rw [hadopt]
        exact List.Subset.refl _
      · cases hmade with
        | adopted _ hadopt _ => exact hadopt ▸ List.subset_cons_self _ _
        | created _ hadopt _ _ => exact hadopt ▸ List.Subset.refl _

/-- Each row carries its item and its index. -/
theorem Takes.scope (h : Takes t s seen i list s' keys nodes) (hn : nodes.Nodup) :
    nodes.map s'.scope = (list.zipIdx i).map (fun e => some (t.scope e.1.item e.2)) ∧
      ∀ r ∉ nodes, s'.scope r = s.scope r := by
  induction h with
  | nil => exact ⟨rfl, fun _ _ => rfl⟩
  | @cons s s₁ s' _ _ i e list _ node nodes _ htook _ ih =>
      obtain ⟨hnot, hn⟩ := List.nodup_cons.mp hn
      obtain ⟨hscope, hframe⟩ := ih hn
      refine ⟨?_, fun r hr => ?_⟩
      · rw [List.map_cons, List.zipIdx_cons, List.map_cons, hscope, hframe node hnot, htook.scope,
          Function.update_self]
      · rw [List.mem_cons, not_or] at hr
        rw [hframe r hr.2, htook.scope, Function.update_of_ne hr.1]

/-- Of each key as many rows are taken as items have it, in order. -/
theorem Takes.pool (h : Takes t s seen i list s' keys nodes) (k : Key V) :
    pool k s'.rows = (pool k s.rows).drop (keys.count k) ∧
      ∀ (j : ℕ) r, keys[j]? = some k →
        (Directives.pool k s.rows)[(keys.take j).count k]? = some r → nodes[j]? = some r := by
  induction h with
  | nil => exact ⟨rfl, fun j r hj => by cases hj⟩
  | @cons s s₁ s' seen keys i e _ raw node nodes _ htook _ ih =>
      obtain ⟨hdrop, hreuse⟩ := ih
      have hpool : Directives.pool k s.rows =
          if k = rowKey seen i raw ∧ shift (rowKey seen i raw) s.rows ≠ none then
            node :: Directives.pool k s₁.rows else Directives.pool k s₁.rows := by
        rcases htook.source with ⟨hshift, -⟩ | ⟨hshift, hrows, -⟩
        · rw [(shift_some hshift).1 k, hshift]
          by_cases hk : k = rowKey seen i raw <;> simp [hk]
        · rw [if_neg (fun h => h.2 hshift), hrows]
      have hnone : k = rowKey seen i raw → shift (rowKey seen i raw) s.rows = none →
          Directives.pool k s₁.rows = [] := fun hk hs => by
        rw [if_neg (fun h => h.2 hs)] at hpool
        rw [← hpool, hk, shift_none hs]
      rw [hdrop]
      constructor
      · rw [hpool]
        by_cases hk : k = rowKey seen i raw
        · by_cases hs : shift (rowKey seen i raw) s.rows = none
          · rw [if_neg (fun h => h.2 hs), hnone hk hs, List.drop_nil, List.drop_nil]
          · rw [if_pos ⟨hk, hs⟩, List.count_cons, if_pos (by simp [hk]), List.drop_succ_cons]
        · rw [if_neg (fun h => hk h.1), List.count_cons, if_neg (by simpa using Ne.symm hk),
            Nat.add_zero]
      · intro j r hj hr
        cases j with
        | zero =>
            rw [List.getElem?_cons_zero, Option.some.injEq] at hj
            rw [hpool] at hr
            by_cases hs : shift (rowKey seen i raw) s.rows = none
            · rw [if_neg (fun h => h.2 hs), hnone hj.symm hs] at hr
              cases hr
            · rw [if_pos ⟨hj.symm, hs⟩] at hr
              exact hr
        | succ j =>
            rw [List.getElem?_cons_succ] at hj ⊢
            refine hreuse j r hj ?_
            rw [hpool, List.take_succ_cons] at hr
            by_cases hk : k = rowKey seen i raw
            · by_cases hs : shift (rowKey seen i raw) s.rows = none
              · rw [if_neg (fun h => h.2 hs), hnone hk hs] at hr
                cases hr
              · rw [if_pos ⟨hk, hs⟩, List.count_cons, if_pos (by simp [hk]),
                  List.getElem?_cons_succ] at hr
                exact hr
            · rw [if_neg (fun h => hk h.1), List.count_cons, if_neg (by simpa using Ne.symm hk),
                Nat.add_zero] at hr
              exact hr

/-- The rows bound by the run are rows of its items, and were in no pool. -/
theorem Takes.bound (h : Takes t s seen i list s' keys nodes) : ∃ more : List Ref,
    s'.drops = more ++ s.drops ∧ s'.bound = more ++ s.bound ∧
      ∀ r ∈ more, r ∈ nodes ∧ (r ∈ s.adopt ∨ s.created ≤ r) := by
  induction h with
  | nil => exact ⟨[], rfl, rfl, fun _ h => by cases h⟩
  | @cons s s₁ s' _ _ _ _ _ _ node nodes _ htook _ ih =>
      obtain ⟨more, hdrops, hbound, hmore⟩ := ih
      have hlift : ∀ r ∈ more, r ∈ node :: nodes ∧ (r ∈ s.adopt ∨ s.created ≤ r) := by
        intro r hr
        obtain ⟨hmem, hsrc⟩ := hmore r hr
        refine ⟨.tail _ hmem, ?_⟩
        rcases htook.source with ⟨-, hadopt, hcreated, -⟩ | ⟨-, -, hmade, -⟩
        · rwa [hadopt, hcreated] at hsrc
        · cases hmade with
          | adopted _ hadopt hcreated =>
              rw [hcreated] at hsrc
              exact hsrc.imp_left fun h => hadopt ▸ .tail _ h
          | created _ hadopt hcreated _ =>
              rw [hadopt, hcreated] at hsrc
              exact hsrc.imp_right fun h => (Nat.le_succ _).trans h
      have hsame : s₁.drops = s.drops → s₁.bound = s.bound → ∃ more : List Ref,
          s'.drops = more ++ s.drops ∧ s'.bound = more ++ s.bound ∧
            ∀ r ∈ more, r ∈ node :: nodes ∧ (r ∈ s.adopt ∨ s.created ≤ r) := fun hd hb =>
        ⟨more, hd ▸ hdrops, hb ▸ hbound, hlift⟩
      rcases htook.source with ⟨-, -, -, hd, hb⟩ | ⟨-, -, hmade, ⟨hd, hb⟩ | ⟨hd, hb⟩⟩
      · exact hsame hd hb
      · exact hsame hd hb
      · refine ⟨more ++ [node], ?_, ?_, fun r hr => ?_⟩
        · rw [hdrops, hd, List.append_assoc]
          rfl
        · rw [hbound, hb, List.append_assoc]
          rfl
        · rcases List.mem_append.mp hr with hr | hr
          · exact hlift r hr
          · obtain rfl := List.mem_singleton.mp hr
            refine ⟨List.mem_cons_self, ?_⟩
            cases hmade with
            | adopted _ hadopt _ => exact .inl (hadopt ▸ List.mem_cons_self)
            | created hnode _ _ _ => exact .inr hnode.ge

end Takes

/-! ### Dropping and placing -/

section Parts

variable {s : Rows ι V} {l : List Ref}

/-- What dropping rows leaves. -/
structure Dropped (s : Rows ι V) (l : List Ref) (s' : Rows ι V) : Prop where
  same : s' = { s with children := s'.children, drops := s'.drops, ran := s'.ran }
  children : s'.children = s.children.filter (· ∉ l)
  drops : ∀ r, r ∈ s'.drops ↔ r ∈ s.drops ∧ r ∉ l
  ran : ∀ r, s'.ran.count r = s.ran.count r + if r ∈ l ∧ r ∈ s.drops then 1 else 0

omit [DecidableEq V] in
theorem drop_all (hl : l.Nodup) (hc : s.children.Nodup) : Dropped s l (l.foldl drop s) := by
  induction l generalizing s with
  | nil => exact ⟨rfl, by simp, by simp, by simp⟩
  | cons n l ih =>
      obtain ⟨hn, hl⟩ := List.nodup_cons.mp hl
      have hd := ih (s := drop s n) hl (hc.erase n)
      rw [List.foldl_cons]
      constructor
      case same => exact hd.same
      case children =>
          rw [hd.children, drop]
          dsimp only
          rw [hc.erase_eq_filter, List.filter_filter]
          refine List.filter_congr fun r _ => ?_
          by_cases hr : r = n <;> simp [hr]
      case drops =>
          intro r
          rw [hd.drops, drop]
          simp only [List.mem_filter, List.mem_cons, decide_eq_true_eq]
          tauto
      case ran =>
          intro r
          rw [hd.ran, drop]
          dsimp only
          by_cases hr : r = n
          · subst hr
            by_cases hm : r ∈ s.drops <;> simp [hm, hn]
          · have hcount : (if n ∈ s.drops then s.ran ++ [n] else s.ran).count r =
                s.ran.count r := by
              split
              · rw [List.count_append, List.count_singleton, if_neg (by simpa using Ne.symm hr),
                  Nat.add_zero]
              · rfl
            rw [hcount]
            simp [hr]

theorem mem_placeRows {ref : Ref} {children rows : List Ref} (href : ref ∈ children)
    (hrows : (ref :: rows).Nodup) (hc : children.Nodup) :
    (placeRows ref children rows).Nodup ∧
      ∀ r, r ∈ placeRows ref children rows ↔ r ∈ rows ∨ r ∈ children := by
  induction rows generalizing ref children with
  | nil => exact ⟨hc, by simp [placeRows]⟩
  | cons node rows ih =>
      obtain ⟨hnot, hrest⟩ := List.nodup_cons.mp hrows
      have hstands : Stands (some ref) node children := fun p hp => by
        obtain rfl := Option.mem_some_iff.mp hp
        exact ⟨href, fun he => hnot (he ▸ List.mem_cons_self)⟩
      obtain ⟨hnodup, hmem⟩ := ih ((mem_place hstands).mpr (.inl rfl)) hrest
        (nodup_place hstands hc)
      refine ⟨hnodup, fun r => ?_⟩
      rw [placeRows, hmem, mem_place hstands, List.mem_cons]
      tauto

/-- The rows stand behind `ref`, one after the other. -/
theorem placeRows_block {rows before block after : List Ref} {ref : Ref}
    (hl : (before ++ block ++ after).Nodup) (href : block.getLast? = some ref)
    (hrows : (block ++ rows).Nodup) : ∃ before' after',
      placeRows ref (before ++ block ++ after) rows = before' ++ (block ++ rows) ++ after' := by
  induction rows generalizing ref before block after with
  | nil => exact ⟨before, after, by simp [placeRows]⟩
  | cons node rows ih =>
      have hnot : node ∉ block := fun hmem =>
        (List.nodup_append.mp hrows).2.2 node hmem node List.mem_cons_self rfl
      obtain ⟨b, a, hplace⟩ := place_block hl href hnot
      have hstands : Stands (some ref) node (before ++ block ++ after) := fun p hp => by
        obtain rfl := Option.mem_some_iff.mp hp
        have hmem := List.mem_of_getLast? href
        exact ⟨by simp [hmem], fun he => hnot (he ▸ hmem)⟩
      have hl' : (b ++ (block ++ [node]) ++ a).Nodup := hplace ▸ nodup_place hstands hl
      obtain ⟨b', a', hrest⟩ := ih hl' List.getLast?_concat (by simpa using hrows)
      refine ⟨b', a', ?_⟩
      rw [placeRows, hplace, hrest, List.append_assoc block, List.singleton_append]

end Parts

/-! ### A run that completes -/

/-- What holds between the runs. -/
structure Inv (m : Markup) (s : Rows ι V) : Prop where
  rows : (s.rows.flatMap (·.2)).Perm s.order
  distinct : (s.order ++ s.adopt).Nodup
  order_lt : ∀ r ∈ s.order, r < s.created
  adopt_lt : ∀ r ∈ s.adopt, r < s.created
  bound_lt : ∀ r ∈ s.bound, r < s.created
  created : m.created ≤ s.created
  own : ∀ r ∈ s.order, m.Row r
  adopt : ∀ r ∈ s.adopt, r ∈ m.adopt ∧ r ∉ s.bound
  children : s.children.Nodup
  anchor : m.anchor ∈ s.children
  foreign : ¬ m.Row m.anchor
  shown : ∀ r, m.Row r → (r ∈ s.children ↔ r ∈ s.order ∨ r ∈ s.adopt)
  first : s.firstRun = false → s.adopt = []
  drops : ∀ r, r ∈ s.drops ↔ r ∈ s.bound ∧ r ∈ s.order
  cleanups : ∀ r, s.ran.count r = if r ∈ s.bound ∧ r ∉ s.order then 1 else 0

/-- **The account of a run.** Behind the anchor stand the rows of the list, one per item and in its
order, with their items and indices; no other row is in the document; and the cleanups of every row
that is gone have run once, those of the others never. -/
structure Accounted (m : Markup) (t : Template) (s : Rows ι V) (list : List (Entry ι V)) :
    Prop where
  placed : ∃ before after, s.children = before ++ (m.anchor :: s.order) ++ after
  scope : s.order.map s.scope = list.zipIdx.map fun e => some (t.scope e.1.item e.2)
  gone : ∀ r, m.Row r → r ∉ s.order → r ∉ s.children
  cleanups : ∀ r ∈ s.bound, s.ran.count r = if r ∈ s.order then 0 else 1

def rawKeys (list : List (Entry ι V)) : List (Key V) := list.filterMap (·.key)

/-- The rows are kept under the keys of the list. -/
structure Keyed (s : Rows ι V) (list : List (Entry ι V)) : Prop where
  length : (rowKeys [] 0 (rawKeys list)).length = s.order.length
  pools : ∀ k, pool k s.rows =
    (((rowKeys [] 0 (rawKeys list)).zip s.order).filter (·.1 = k)).map (·.2)

theorem pool_pushAll (k : Key V) (next : List (Key V × List Ref)) (rows : List (Key V × Ref)) :
    pool k (pushAll next rows) = pool k next ++ (rows.filter (·.1 = k)).map (·.2) := by
  induction rows generalizing next with
  | nil => exact (List.append_nil _).symm
  | cons r rows ih =>
      rw [pushAll, List.foldl_cons]
      refine (ih _).trans ?_
      rw [pool_push]
      by_cases hk : k = r.1
      · rw [if_pos hk, List.filter_cons_of_pos (by simp [hk]), List.map_cons, List.append_assoc]
        rfl
      · rw [if_neg hk, List.filter_cons_of_neg (by simpa using Ne.symm hk)]

theorem perm_pushAll (next : List (Key V × List Ref)) (rows : List (Key V × Ref)) :
    ((pushAll next rows).flatMap (·.2)).Perm (next.flatMap (·.2) ++ rows.map (·.2)) := by
  induction rows generalizing next with
  | nil => rw [List.map_nil, List.append_nil]; exact .refl _
  | cons r rows ih =>
      rw [pushAll, List.foldl_cons]
      refine (ih _).trans (((perm_push r.1 r.2 next).append_right _).trans ?_)
      rw [List.append_assoc]
      exact .refl _

section Complete

variable {m : Markup} {t : Template} {s s' : Rows ι V} {list : List (Entry ι V)}

/-- The parts of a run that completes. -/
theorem run_parts [DecidableEq ι] (h : run t s list = (s', true)) : ∃ s₁ s₂ keys nodes,
    Takes t s [] 0 list s₁ keys nodes ∧
    s₂ = (s₁.rows.flatMap (·.2)).foldl drop s₁ ∧
    s' = { s₂ with
      children := placeRows t.anchor (s₂.children.filter (· ∉ s₂.adopt)) nodes
      adopt := []
      firstRun := false
      rows := pushAll [] (keys.zip nodes)
      order := nodes } := by
  rw [run] at h
  split at h
  · cases h
  · next s₁ next nextOrder htake =>
    obtain ⟨keys, nodes, htakes, hnodes, rfl⟩ := takes_of_takeRows htake
    rw [List.nil_append] at hnodes
    subst hnodes
    refine ⟨s₁, _, keys, nextOrder, htakes, rfl, ?_⟩
    cases h
    rfl

theorem run_inv [DecidableEq ι] (hi : Inv m s) (ht : t.anchor = m.anchor)
    (h : run t s list = (s', true)) : Inv m s' ∧ Accounted m t s' list ∧ Keyed s' list := by
  obtain ⟨s₁, s₂, keys, nodes, htakes, hs₂, hs'⟩ := run_parts h
  obtain ⟨hchildren, horder, hfirst, hran⟩ := htakes.frame
  obtain ⟨new, hperm, hnewNodup, hnew, hle⟩ := htakes.perm
  obtain ⟨more, hdrops, hbound, hmore⟩ := htakes.bound
  obtain ⟨hkeys, hklen, hnlen⟩ := htakes.keys_eq
  generalize hstale : s₁.rows.flatMap (·.2) = stale at hperm hs₂
  -- every row is stale, left over, or a row of the list, and only one of these
  have hperm' := hperm.trans ((hi.rows.append_right s.adopt).append_right new)
  have hall : (s.order ++ s.adopt ++ new).Nodup := by
    rw [List.nodup_append]
    refine ⟨hi.distinct, hnewNodup, ?_⟩
    rintro a ha b hb rfl
    have := (hnew a hb).1
    rcases List.mem_append.mp ha with ha | ha
    · exact absurd (hi.order_lt a ha) this.not_gt
    · exact absurd (hi.adopt_lt a ha) this.not_gt
  have hsplit := hperm'.nodup_iff.mpr hall
  have hmem : ∀ r, (r ∈ stale ∨ r ∈ s₁.adopt) ∨ r ∈ nodes ↔
      (r ∈ s.order ∨ r ∈ s.adopt) ∨ r ∈ new := fun r => by
    simpa [List.mem_append, or_assoc] using hperm'.mem_iff (a := r)
  obtain ⟨hsa, hnodes, hapart⟩ := List.nodup_append.mp hsplit
  obtain ⟨hstaleNodup, -, hsApart⟩ := List.nodup_append.mp hsa
  have hnodesStale : ∀ r ∈ nodes, r ∉ stale := fun r hr hs =>
    hapart r (List.mem_append_left _ hs) r hr rfl
  have hnodesAdopt : ∀ r ∈ nodes, r ∉ s₁.adopt := fun r hr ha =>
    hapart r (List.mem_append_right _ ha) r hr rfl
  have hrow : ∀ r, (r ∈ stale ∨ r ∈ s₁.adopt) ∨ r ∈ nodes → m.Row r := fun r hr => by
    rcases (hmem r).mp hr with (ho | ha) | hn
    · exact hi.own r ho
    · exact .inl (hi.adopt r ha).1
    · exact .inr (hi.created.trans (hnew r hn).1)
  have hold : ∀ r ∈ s.bound, (r ∈ s.order ↔ r ∈ stale ∨ r ∈ nodes) := fun r hr => by
    have hadopt : r ∉ s.adopt := fun ha => (hi.adopt r ha).2 hr
    have hnot : r ∉ new := fun hn => absurd (hi.bound_lt r hr) (hnew r hn).1.not_gt
    have hleft : r ∉ s₁.adopt := fun ha => hadopt (htakes.adopt ha)
    constructor
    · intro ho
      rcases (hmem r).mpr (.inl (.inl ho)) with (hs | ha) | hn
      · exact .inl hs
      · exact absurd ha hleft
      · exact .inr hn
    · intro h
      rcases (hmem r).mp (h.elim (fun hs => .inl (.inl hs)) .inr) with (ho | ha) | hn
      · exact ho
      · exact absurd ha hadopt
      · exact absurd hn hnot
  have hmoreOld : ∀ r ∈ more, r ∉ s.bound := fun r hr hb => by
    rcases (hmore r hr).2 with ha | hc
    · exact (hi.adopt r ha).2 hb
    · exact absurd (hi.bound_lt r hb) hc.not_gt
  have hd : Dropped s₁ stale s₂ := hs₂ ▸ drop_all hstaleNodup (hchildren ▸ hi.children)
  have hadopt₂ : s₂.adopt = s₁.adopt := by rw [hd.same]
  have hbound₂ : s₂.bound = more ++ s.bound := by rw [hd.same]; exact hbound
  have hcreated₂ : s₂.created = s₁.created := by rw [hd.same]
  have hscope₂ : s₂.scope = s₁.scope := by rw [hd.same]
  -- the children left for the placing
  have hkept : ∀ r, r ∈ s₂.children.filter (· ∉ s₂.adopt) ↔
      r ∈ s.children ∧ r ∉ stale ∧ r ∉ s₁.adopt := fun r => by
    rw [List.mem_filter, hd.children, List.mem_filter, hchildren, hadopt₂]
    simp [and_assoc]
  have hkeptNodup : (s₂.children.filter (· ∉ s₂.adopt)).Nodup := by
    rw [hd.children, hchildren]
    exact (hi.children.filter _).filter _
  have hanchor : t.anchor ∈ s₂.children.filter (· ∉ s₂.adopt) := by
    rw [ht, hkept]
    refine ⟨hi.anchor, fun hs => hi.foreign (hrow _ (.inl (.inl hs))), fun ha => ?_⟩
    exact hi.foreign (hrow _ (.inl (.inr ha)))
  have hanchorNodes : (t.anchor :: nodes).Nodup :=
    List.nodup_cons.mpr ⟨fun hn => hi.foreign (ht ▸ hrow _ (.inr hn)), hnodes⟩
  obtain ⟨hplaceNodup, hplaceMem⟩ := mem_placeRows hanchor hanchorNodes hkeptNodup
  have hshown : ∀ r, m.Row r →
      (r ∈ placeRows t.anchor (s₂.children.filter (· ∉ s₂.adopt)) nodes ↔ r ∈ nodes) := by
    intro r hr
    rw [hplaceMem, hkept, hi.shown r hr]
    refine ⟨fun h => ?_, .inl⟩
    rcases h with hn | ⟨hc, hs, ha⟩
    · exact hn
    · exact ((hmem r).mpr (.inl hc)).resolve_left (not_or.mpr ⟨hs, ha⟩)
  have hcleanups : ∀ r, s₂.ran.count r = if r ∈ more ++ s.bound ∧ r ∉ nodes then 1 else 0 := by
    intro r
    rw [hd.ran, hran, hi.cleanups]
    simp only [hdrops, List.mem_append, hi.drops]
    by_cases hm : r ∈ more
    · simp [hm, hmoreOld r hm, (hmore r hm).1, hnodesStale r (hmore r hm).1]
    · by_cases hb : r ∈ s.bound
      · have hiff := hold r hb
        by_cases hs : r ∈ stale
        · have ho := hiff.mpr (.inl hs)
          have hn : r ∉ nodes := fun hn => hnodesStale r hn hs
          simp [hb, hs, ho, hn]
        · by_cases hn : r ∈ nodes
          · simp [hb, hs, hn, hiff.mpr (.inr hn)]
          · simp [hb, hs, hn, hm, hiff]
      · simp [hm, hb]
  have hinv : Inv m s' := by
    rw [hs']
    constructor
    case rows =>
        refine (perm_pushAll [] _).trans ?_
        rw [List.flatMap_nil, List.nil_append,
          show (fun r : Key V × Ref => r.2) = Prod.snd from rfl,
          List.map_snd_zip (by rw [hklen, hnlen])]
    case distinct => rwa [List.append_nil]
    case order_lt =>
        intro r hr
        dsimp only at hr ⊢
        rw [hcreated₂]
        rcases (hmem r).mp (.inr hr) with (ho | ha) | hn
        · exact (hi.order_lt r ho).trans_le hle
        · exact (hi.adopt_lt r ha).trans_le hle
        · exact (hnew r hn).2
    case adopt_lt => exact fun r hr => by cases hr
    case bound_lt =>
        intro r hr
        dsimp only at hr ⊢
        rw [hbound₂] at hr
        rw [hcreated₂]
        rcases List.mem_append.mp hr with hm | hb
        · rcases (hmem r).mp (.inr (hmore r hm).1) with (ho | ha) | hn
          · exact (hi.order_lt r ho).trans_le hle
          · exact (hi.adopt_lt r ha).trans_le hle
          · exact (hnew r hn).2
        · exact (hi.bound_lt r hb).trans_le hle
    case created => exact hcreated₂ ▸ hi.created.trans hle
    case own => exact fun r hr => hrow r (.inr hr)
    case adopt => exact fun r hr => by cases hr
    case children => exact hplaceNodup
    case anchor => exact (hplaceMem _).mpr (.inr (ht ▸ hanchor))
    case foreign => exact hi.foreign
    case shown =>
        intro r hr
        dsimp only
        rw [hshown r hr]
        simp
    case first => exact fun _ => rfl
    case drops =>
        intro r
        dsimp only
        rw [hd.drops, hdrops, hbound₂, List.mem_append, List.mem_append, hi.drops]
        by_cases hm : r ∈ more
        · simp [hm, (hmore r hm).1, hnodesStale r (hmore r hm).1]
        · by_cases hb : r ∈ s.bound
          · have hiff := hold r hb
            simp only [hm, hb, true_and, false_or, hiff]
            exact ⟨fun h => h.1.resolve_left h.2, fun hn => ⟨.inr hn, hnodesStale r hn⟩⟩
          · simp [hm, hb]
    case cleanups =>
        intro r
        dsimp only
        rw [hbound₂]
        exact hcleanups r
  refine ⟨hinv, ?_, ?_⟩
  · constructor
    case placed =>
        obtain ⟨before, after, hsplitAt⟩ := List.append_of_mem hanchor
        rw [hs', hsplitAt, ← ht]
        rw [hsplitAt, List.append_cons] at hkeptNodup
        have hblock := placeRows_block hkeptNodup rfl hanchorNodes
        rwa [List.append_assoc before] at hblock
    case scope =>
        rw [hs']
        dsimp only
        rw [hscope₂]
        exact (htakes.scope hnodes).1
    case gone =>
        intro r hr hnot hc
        exact hnot (((hinv.shown r hr).mp hc).resolve_right (by rw [hs']; exact List.not_mem_nil))
    case cleanups =>
        intro r hr
        rw [hinv.cleanups r]
        by_cases ho : r ∈ s'.order <;> simp [hr, ho]
  · refine ⟨?_, fun k => ?_⟩
    · rw [hs', rawKeys, ← hkeys, hklen, hnlen]
    · rw [hs', rawKeys, ← hkeys, pool_pushAll]
      exact List.nil_append _

end Complete

/-! ### The first rows -/

omit [DecidableEq V] in
theorem start_inv (m : Markup) : Inv m (m.start ι V) where
  rows := .refl _
  distinct := (List.nodup_cons.mp m.distinct).2.filter _
  order_lt _ hr := by cases hr
  adopt_lt r hr := m.below r (.tail _ (List.mem_of_mem_filter hr))
  bound_lt _ hr := by cases hr
  created := Nat.le_refl _
  own _ hr := by cases hr
  adopt r hr := ⟨hr, List.not_mem_nil⟩
  children := by
    have hnodup : (insertBefore m.anchor (some m.el) m.children).Nodup :=
      perm_insertBefore.nodup_iff.mpr m.distinct
    rw [Markup.start]
    dsimp only
    split
    · exact hnodup
    · exact hnodup.erase _
  anchor := by
    have hmem : m.anchor ∈ insertBefore m.anchor (some m.el) m.children :=
      perm_insertBefore.mem_iff.mpr List.mem_cons_self
    have hne : m.anchor ≠ m.el := fun he =>
      (List.nodup_cons.mp m.distinct).1 (he ▸ m.el_mem)
    rw [Markup.start]
    dsimp only
    split
    · exact hmem
    · exact (List.mem_erase_of_ne hne).mpr hmem
  foreign h := by
    rcases h with ha | hc
    · exact (List.nodup_cons.mp m.distinct).1 (List.mem_of_mem_filter ha)
    · exact absurd (m.below _ List.mem_cons_self) hc.not_gt
  shown r hr := by
    have hold : r ∈ m.children → r < m.created := fun h => m.below r (.tail _ h)
    have hanchor : m.anchor < m.created := m.below _ List.mem_cons_self
    have hmem : r ∈ insertBefore m.anchor (some m.el) m.children ↔
        r = m.anchor ∨ r ∈ m.children := by
      rw [perm_insertBefore.mem_iff, List.mem_cons]
    have hadopt : r ∈ m.adopt → r ∈ m.children := List.mem_of_mem_filter
    -- an element of the server is a row of its, a new one is not there
    have hiff : r ∈ insertBefore m.anchor (some m.el) m.children ↔ r ∈ m.adopt := by
      rw [hmem]
      rcases hr with ha | hc
      · simp [ha, hadopt ha]
      · constructor
        · rintro (rfl | h)
          · exact absurd hanchor hc.not_gt
          · exact absurd (hold h) hc.not_gt
        · exact fun h => .inr (hadopt h)
    rw [Markup.start]
    dsimp only
    split
    · rw [hiff]
      simp
    · next hel =>
      by_cases he : r = m.el
      · subst he
        have hnodup : (insertBefore m.anchor (some m.el) m.children).Nodup :=
          perm_insertBefore.nodup_iff.mpr m.distinct
        simp [hnodup.not_mem_erase, hel]
      · rw [List.mem_erase_of_ne he, hiff]
        simp
  first h := by cases h
  drops r := by simp [Markup.start]
  cleanups r := by simp [Markup.start]

/-! ### Keys -/

section Keys

variable {raws : List (Key V)}

/-- The first row of a key. -/
def FirstAt (raws : List (Key V)) (i : ℕ) (k : Key V) : Prop :=
  raws[i]? = some k ∧ k ∉ raws.take i ∧ k ≠ .undefined

/-- No key is the name that an earlier row got for its place, having no key or a repeated one. -/
def Clean (raws : List (Key V)) : Prop :=
  ∀ (i j : ℕ) k, j < i → raws[i]? = some k →
    (raws[j]? = some .undefined → k ≠ .str ("__nil_" ++ toString j)) ∧
    ∀ r, raws[j]? = some r → r ∈ raws.take j → k ≠ .str ("__dup_" ++ toString j)

theorem getElem?_rowKeys (seen : List (Key V)) (i : ℕ) (raws : List (Key V)) (j : ℕ) :
    (rowKeys seen i raws)[j]? =
      raws[j]?.map (rowKey (((rowKeys seen i raws).take j).reverse ++ seen) (i + j)) := by
  induction raws generalizing seen i j with
  | nil => rfl
  | cons raw raws ih =>
      cases j with
      | zero => rfl
      | succ j =>
          rw [rowKeys, List.getElem?_cons_succ, List.getElem?_cons_succ, ih, List.take_succ_cons,
            List.reverse_cons, List.append_assoc, List.singleton_append, Nat.add_right_comm,
            Nat.add_assoc]

/-- The first row of a key is kept under it, and no row before. -/
theorem rowKeys_first (hc : Clean raws) (i : ℕ) {k : Key V} (h : FirstAt raws i k) :
    (rowKeys [] 0 raws)[i]? = some k ∧ k ∉ (rowKeys [] 0 raws).take i := by
  induction i using Nat.strong_induction_on generalizing k with
  | h i ih =>
      obtain ⟨hget, hfirst, hdef⟩ := h
      have hnot : k ∉ (rowKeys [] 0 raws).take i := by
        intro hmem
        obtain ⟨j, hj, hjk⟩ := List.mem_take_iff_getElem.mp hmem
        have hji : j < i := by omega
        have hkey : (rowKeys [] 0 raws)[j]? = some k := by
          rw [List.getElem?_eq_getElem (by omega), hjk]
        rw [getElem?_rowKeys, Option.map_eq_some_iff] at hkey
        obtain ⟨raw, hraw, hkey⟩ := hkey
        rw [List.append_nil, Nat.zero_add] at hkey
        obtain ⟨hnil, hdup⟩ := hc i j k hji hget
        cases hr : raw with
        | undefined =>
            rw [hr] at hkey hraw
            exact hnil hraw hkey.symm
        | str _ | other _ =>
            rw [rowKey.eq_def, hr] at hkey
            dsimp only at hkey
            rw [← hr] at hkey
            split at hkey
            · next hseen =>
              refine hdup raw hraw ?_ hkey.symm
              by_contra hfresh
              have := (ih j hji ⟨hraw, hfresh, by simp [hr]⟩).2
              exact this (List.mem_reverse.mp hseen)
            · exact hfirst (hkey ▸ List.mem_take_iff_getElem.mpr ⟨j, by
                have := (List.getElem?_eq_some_iff.mp hraw).1
                omega, (List.getElem?_eq_some_iff.mp hraw).2⟩)
      refine ⟨?_, hnot⟩
      rw [getElem?_rowKeys, hget, Option.map_some, List.append_nil]
      cases k with
      | undefined => exact absurd rfl hdef
      | str _ | other _ => rw [rowKey.eq_def]; simp [hnot]

variable {t : Template} {s s' : Rows ι V} {last list : List (Entry ι V)}

/-- **Reuse.** The first row of a key is the element that was the first row of it. -/
theorem run_kept [DecidableEq ι] (hk : Keyed s last) (h : run t s list = (s', true))
    (hlast : Clean (rawKeys last)) (hlist : Clean (rawKeys list)) {i i' : ℕ} {k : Key V}
    (hi : FirstAt (rawKeys last) i k) (hi' : FirstAt (rawKeys list) i' k) :
    ∃ r, s.order[i]? = some r ∧ s'.order[i']? = some r := by
  obtain ⟨s₁, s₂, keys, nodes, htakes, -, rfl⟩ := run_parts h
  obtain ⟨hkey, hbefore⟩ := rowKeys_first hlast i hi
  obtain ⟨hkey', hbefore'⟩ := rowKeys_first hlist i' hi'
  rw [rawKeys, ← htakes.keys_eq.1] at hkey' hbefore'
  generalize hold : rowKeys [] 0 (rawKeys last) = old at hkey hbefore
  have hlt : i < s.order.length := by
    rw [← hk.length, hold]
    exact (List.getElem?_eq_some_iff.mp hkey).1
  refine ⟨s.order.get ⟨i, hlt⟩, List.getElem?_eq_getElem hlt, ?_⟩
  -- the first entry of this key in the pools is the row of the first item with it
  have hhead : (pool k s.rows)[0]? = some (s.order.get ⟨i, hlt⟩) := by
    have hzip : (old.zip s.order)[i]? = some (k, s.order.get ⟨i, hlt⟩) := by
      rw [List.getElem?_zip_eq_some]
      exact ⟨hkey, List.getElem?_eq_getElem hlt⟩
    have hfind : (old.zip s.order).find? (·.1 = k) = some (k, s.order.get ⟨i, hlt⟩) := by
      obtain ⟨hz, hzget⟩ := List.getElem?_eq_some_iff.mp hzip
      refine List.find?_eq_some_iff_getElem.mpr ⟨by simp, i, hz, hzget, fun j hj => ?_⟩
      have hjold : j < old.length := by
        rw [List.length_zip] at hz
        omega
      have hne : (old.get ⟨j, hjold⟩) ≠ k := fun he =>
        hbefore (List.mem_take_iff_getElem.mpr ⟨j, by omega, he⟩)
      simpa using hne
    rw [hk.pools, hold, ← List.head?_eq_getElem?, List.head?_map, List.head?_filter, hfind]
    rfl
  refine (htakes.pool k).2 i' _ hkey' ?_
  rw [List.count_eq_zero.mpr hbefore']
  exact hhead

end Keys

/-! ### Runs that throw -/

section Throws

variable [DecidableEq ι] {m : Markup} {t : Template} {s s₀ : Rows ι V}

/-- The run throws before it took, adopted or bound a row: every item before had a new row that is a
nested host, and the key function threw, or the binding of a new row with nothing registered. -/
def Spared (t : Template) (s : Rows ι V) (seen : List (Key V)) (i : ℕ) :
    List (Entry ι V) → Prop
  | [] => False
  | e :: list =>
    match e.key with
    | none => True
    | some raw =>
      let key := rowKey seen i raw
      shift key s.rows = none ∧ (s.firstRun = false ∨ s.adopt = []) ∧
        ((t.nested (s.created + i) = true ∧ Spared t s (key :: seen) (i + 1) list) ∨
          (t.nested (s.created + i) = false ∧ e.bind = .throws false))

/-- No key function and no binding of the run throws, and no effect in the set of a reused row. -/
def Sound (list : List (Entry ι V)) : Prop :=
  ∀ e ∈ list, e.key ≠ none ∧ e.bind = .ok ∧ e.flushes = true

/-- What the runs of a list may be. -/
def Meets (t : Template) : Rows ι V → List (List (Entry ι V)) → Prop
  | _, [] => True
  | s, list :: runs =>
    ((Sound list ∧ Clean (rawKeys list)) ∨ Spared t s [] 0 list) ∧ Meets t (run t s list).1 runs

theorem takeRow_ok {e : Entry ι V} (h : e.bind = .ok) (hflush : e.flushes = true) (i : ℕ)
    (key : Key V) : ∃ s' node, takeRow t s e i key = (s', some node) := by
  rw [takeRow]
  cases shift key s.rows with
  | some r =>
      dsimp only
      rw [hflush]
      split
      · exact ⟨_, _, rfl⟩
      · exact ⟨_, _, rfl⟩
  | none =>
      dsimp only
      split
      · exact ⟨_, _, rfl⟩
      · rw [h]
        exact ⟨_, _, rfl⟩

theorem run_ok {list : List (Entry ι V)} (h : Sound list) : (run t s list).2 = true := by
  have htake : ∀ (list : List (Entry ι V)) (s : Rows ι V) next nextOrder seen i, Sound list →
      ∃ s' r, takeRows t s next nextOrder seen i list = (s', some r) := by
    intro list
    induction list with
    | nil => exact fun s next nextOrder seen i _ => ⟨s, _, rfl⟩
    | cons e list ih =>
        intro s next nextOrder seen i h
        obtain ⟨hkey, hbind, hflush⟩ := h e List.mem_cons_self
        obtain ⟨raw, hraw⟩ := Option.ne_none_iff_exists'.mp hkey
        obtain ⟨s₁, node, hrow⟩ := takeRow_ok (t := t) (s := s) hbind hflush i (rowKey seen i raw)
        rw [takeRows, hraw]
        dsimp only
        rw [hrow]
        exact ih _ _ _ _ _ fun e he => h e (.tail _ he)
  obtain ⟨s', r, hr⟩ := htake list s [] [] [] 0 h
  rw [run, hr]

/-- What a spared run leaves: new nodes that nothing holds. -/
structure Untouched (s s' : Rows ι V) : Prop where
  same : s' = { s with scope := s'.scope, created := s'.created }
  created : s.created ≤ s'.created
  scope : ∀ r < s.created, s'.scope r = s.scope r

theorem takeRows_spared : ∀ {list : List (Entry ι V)} {s : Rows ι V} {seen : List (Key V)} {i : ℕ}
    (next : List (Key V × List Ref)) (nextOrder : List Ref), Spared t s₀ seen i list →
      s.rows = s₀.rows → s.firstRun = s₀.firstRun → s.adopt = s₀.adopt →
      s.created = s₀.created + i →
      ∃ s', takeRows t s next nextOrder seen i list = (s', none) ∧ Untouched s s'
  | [], _, _, _, _, _, h, _, _, _, _ => h.elim
  | e :: list, s, seen, i, next, nextOrder, h, hrows, hfirst, hadopt, hcreated => by
      rw [Spared] at h
      rw [takeRows]
      cases hkey : e.key with
      | none => exact ⟨s, rfl, rfl, Nat.le_refl _, fun _ _ => rfl⟩
      | some raw =>
          rw [hkey] at h
          obtain ⟨hshift, hlater, h⟩ := h
          have hnew : newRow s = (s.created, { s with created := s.created + 1 }) := by
            rw [newRow]
            split
            · next hf ha =>
              rw [hfirst] at hf
              rw [hadopt] at ha
              rcases hlater with hl | hl
              · rw [hf] at hl
                cases hl
              · rw [ha] at hl
                cases hl
            · rfl
          have hscope : ∀ (e : Option (Scope ι)) r, r < s.created →
              Function.update s.scope s.created e r = s.scope r := fun e r hr =>
            Function.update_of_ne hr.ne _ _
          dsimp only
          rcases h with ⟨hnested, hrest⟩ | ⟨hnested, hbind⟩
          · have hrow : takeRow t s e i (rowKey seen i raw) =
                ({ s with
                  created := s.created + 1
                  scope := Function.update s.scope s.created (some (t.scope e.item i)) },
                  some s.created) := by
              simp only [takeRow, hrows, hshift, hnew, hcreated ▸ hnested, if_true]
            rw [hrow]
            obtain ⟨s', heq, hu⟩ := takeRows_spared (s := { s with
                created := s.created + 1
                scope := Function.update s.scope s.created (some (t.scope e.item i)) })
              (push (rowKey seen i raw) s.created next) (nextOrder ++ [s.created]) hrest hrows
              hfirst hadopt (by rw [hcreated, Nat.add_assoc])
            refine ⟨s', heq, hu.same, (Nat.le_succ _).trans hu.created, fun r hr => ?_⟩
            rw [hu.scope r (hr.trans (Nat.lt_succ_self _))]
            exact hscope _ r hr
          · have hrow : takeRow t s e i (rowKey seen i raw) =
                ({ s with
                  created := s.created + 1
                  scope := Function.update s.scope s.created (some (t.scope e.item i)) },
                  none) := by
              simp only [takeRow, hrows, hshift, hnew, hcreated ▸ hnested, hbind,
                Bool.false_eq_true, if_false]
            rw [hrow]
            exact ⟨_, rfl, rfl, Nat.le_succ _, hscope _⟩

theorem run_spared {list : List (Entry ι V)} (h : Spared t s [] 0 list) :
    (run t s list).2 = false ∧ Untouched s (run t s list).1 := by
  obtain ⟨s', heq, hu⟩ := takeRows_spared [] [] h rfl rfl rfl rfl
  rw [run, heq]
  exact ⟨rfl, hu⟩

omit [DecidableEq V] [DecidableEq ι] in
/-- What was accounted for still is. -/
theorem Untouched.inv {s' : Rows ι V} (hu : Untouched s s') (hi : Inv m s) : Inv m s' := by
  have hle := hu.created
  rw [hu.same]
  exact { hi with
    order_lt := fun r hr => (hi.order_lt r hr).trans_le hle
    adopt_lt := fun r hr => (hi.adopt_lt r hr).trans_le hle
    bound_lt := fun r hr => (hi.bound_lt r hr).trans_le hle
    created := hi.created.trans hle }

omit [DecidableEq V] [DecidableEq ι] in
theorem Untouched.accounted {s' : Rows ι V} {list : List (Entry ι V)} (hu : Untouched s s')
    (hi : Inv m s) (ha : Accounted m t s list) : Accounted m t s' list := by
  have hscope : s.order.map s'.scope = s.order.map s.scope :=
    List.map_congr_left fun r hr => hu.scope r (hi.order_lt r hr)
  rw [hu.same]
  exact { ha with scope := hscope.trans ha.scope }

/-- What holds of a list after its runs. -/
structure Reconciled (m : Markup) (t : Template) (s : Rows ι V) (last : Option (List (Entry ι V))) :
    Prop where
  inv : Inv m s
  last : ∀ list, last = some list →
    Accounted m t s list ∧ Keyed s list ∧ Clean (rawKeys list)

theorem exec_reconciled (ht : t.anchor = m.anchor) :
    ∀ (runs : List (List (Entry ι V))) (s : Rows ι V) last, Reconciled m t s last →
      Meets t s runs → Reconciled m t (exec t (s, last) runs).1 (exec t (s, last) runs).2
  | [], _, _, hr, _ => hr
  | list :: runs, s, last, hr, h => by
      obtain ⟨hstep, hruns⟩ := h
      rw [exec, List.foldl_cons]
      generalize hrun : run t s list = r at hruns
      obtain ⟨s', completes⟩ := r
      cases completes with
      | true =>
          rcases hstep with ⟨-, hclean⟩ | hspared
          · obtain ⟨hinv, haccounted, hkeyed⟩ := run_inv hr.inv ht hrun
            refine exec_reconciled ht runs s' (some list) ⟨hinv, fun l hl => ?_⟩ hruns
            cases hl
            exact ⟨haccounted, hkeyed, hclean⟩
          · have := (run_spared hspared).1
            rw [hrun] at this
            cases this
      | false =>
          rcases hstep with ⟨hsound, -⟩ | hspared
          · have := run_ok (t := t) (s := s) hsound
            rw [hrun] at this
            cases this
          · have hu := (run_spared hspared).2
            rw [hrun] at hu
            change Untouched s s' at hu
            refine exec_reconciled ht runs s' last ⟨hu.inv hr.inv, fun l hl => ?_⟩ hruns
            obtain ⟨haccounted, hkeyed, hclean⟩ := hr.last l hl
            refine ⟨hu.accounted hr.inv haccounted, ?_, hclean⟩
            rw [hu.same]
            exact ⟨hkeyed.length, hkeyed.pools⟩

end Throws

/-- **Keyed lists.** Where no run throws after it took a row, and no key is a name that a row got
for its place: after any runs, the last one that completed accounts for every row, and the next one
that completes keeps the first row of every key it finds again. -/
theorem list_accounted [DecidableEq ι] (m : Markup) (t : Template) (ht : t.anchor = m.anchor)
    (runs : List (List (Entry ι V))) (h : Meets t (m.start ι V) runs) :
    let s := exec t (m.start ι V, none) runs
    ∀ last, s.2 = some last → Accounted m t s.1 last ∧
      ∀ list s', Clean (rawKeys list) → run t s.1 list = (s', true) →
        ∀ (i i' : ℕ) k, FirstAt (rawKeys last) i k → FirstAt (rawKeys list) i' k →
          ∃ r, s.1.order[i]? = some r ∧ s'.order[i']? = some r := by
  intro s last hlast
  have hr : Reconciled m t (m.start ι V) none := ⟨start_inv m, fun _ h => by cases h⟩
  obtain ⟨haccounted, hkeyed, hclean⟩ := (exec_reconciled ht runs _ _ hr h).last last hlast
  exact ⟨haccounted, fun list s' hlist hrun i i' k hi hi' =>
    run_kept hkeyed hrun hclean hlist hi hi'⟩

/-- A list without rows: its template, and the anchor put before it. -/
def bare : Markup where
  children := [0]
  el := 0
  anchor := 1
  row _ := true
  template _ := true
  distinct := by decide
  el_mem := by decide
  el_row := rfl
  created := 2
  below := by decide

def plain : Template := ⟨1, false, fun _ => false⟩

/-- The first row of the list is taken from its pool; the key function throws at the second. -/
def halfway : List (List (Entry ℕ ℕ)) :=
  [[⟨0, some (.other 0), .ok, true⟩], [⟨0, some (.other 0), .ok, true⟩, ⟨1, none, .ok, true⟩],
    [⟨0, some (.other 0), .ok, true⟩]]

/-- The row taken by the run that threw stays in the document for good. -/
theorem list_loses_row :
    ¬ ∀ (m : Markup) (t : Template) (runs : List (List (Entry ℕ ℕ))) (last : List (Entry ℕ ℕ)),
      t.anchor = m.anchor → (exec t (m.start ℕ ℕ, none) runs).2 = some last →
      Accounted m t (exec t (m.start ℕ ℕ, none) runs).1 last := by
  intro hall
  have haccounted := hall bare plain halfway [⟨0, some (.other 0), .ok, true⟩] rfl rfl
  exact haccounted.gone 2 (.inr (by decide)) (by decide) (by decide)

/-- Two values of a list, the rows of the first one kept by the second. -/
theorem list_accounted_plain :
    let shown : List (Entry ℕ ℕ) :=
      [⟨0, some (.other 0), .ok, true⟩, ⟨1, some (.other 1), .ok, true⟩]
    let s := exec plain (bare.start ℕ ℕ, none) [shown]
    Accounted bare plain s.1 shown ∧
      ∀ list s', Clean (rawKeys list) → run plain s.1 list = (s', true) →
        ∀ (i i' : ℕ) k, FirstAt (rawKeys shown) i k → FirstAt (rawKeys list) i' k →
          ∃ r, s.1.order[i]? = some r ∧ s'.order[i']? = some r := by
  intro shown s
  have hclean : Clean (rawKeys shown) := by
    intro i j k hj hk
    have hi : i < 2 := (List.getElem?_eq_some_iff.mp hk).1
    obtain rfl : i = 1 := by omega
    obtain rfl : j = 0 := by omega
    exact ⟨fun h => (by cases h), fun r _ hr => by cases hr⟩
  refine list_accounted bare plain rfl [shown] ⟨.inl ⟨?_, hclean⟩, trivial⟩ shown rfl
  intro e he
  rcases List.mem_cons.mp he with rfl | he
  · exact ⟨by decide, rfl, rfl⟩
  · rw [List.mem_singleton.mp he]
    exact ⟨by decide, rfl, rfl⟩

end Brust.Directives
