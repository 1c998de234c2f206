import Mathlib.Control.Basic
import Mathlib.Tactic.Common
import Brust.Compiler.DeadArms
import Brust.Seeds.Project

/-!
# Compiler — What an expression reads of a row

`item_reads`: the member paths that an expression reads of a loop's item, or the whole item as soon
as it escapes.  Where it answers paths, the expression has the same value on the row that the
`project` filter makes of them as on the row itself (`project_adequate`).
-/

namespace Brust.Compiler

open Seeds (Path Chain ProjNode Marks minimalPaths project projectValue)

variable {F : Type}

/-! ### The scan -/

/-- What client code reads of one loop item. -/
inductive ItemRead where
  | fields (paths : List Path)
  | whole

namespace ItemRead

def insert (p : Path) : ItemRead → ItemRead
  | fields f => fields (p :: f)
  | whole => whole

/-- A capture by name, of whatever kind. -/
def captured (item : String) (captures : Captures) (out : ItemRead) : ItemRead :=
  if captures.any fun c => c.1 == item then whole else out

end ItemRead

namespace RawExpr

/-- A bare identifier that is the item. -/
def isItem (item : String) : RawExpr F → Bool
  | .ident name .loopBinding => name == item
  | _ => false

/-- `item.a.b`, optional chaining included. -/
def itemPath (item : String) : RawExpr F → Option Path
  | .member target name _ =>
    if target.isItem item then some [name] else (itemPath item target).map (· ++ [name])
  | _ => none

mutual

/-- `item_reads`: nothing is added once the whole item is read. -/
def itemReads (item : String) : RawExpr F → ItemRead → ItemRead
  | _, .whole => .whole
  | .lit _, out => out
  | .ident name kind, out => if (ident name kind : RawExpr F).isItem item then .whole else out
  | .member target name optional, out =>
    match (member target name optional).itemPath item with
    | some p => out.insert p
    | none => target.itemReads item out
  | .index target i, out =>
    if (target.itemPath item).isSome || target.isItem item then .whole
    else i.itemReads item (target.itemReads item out)
  | .call (.member target _ _) args, out => itemReadsAll item args (target.itemReads item out)
  | .call callee args, out => itemReadsAll item args (callee.itemReads item out)
  | .binary _ left right, out => right.itemReads item (left.itemReads item out)
  | .unary _ value, out => value.itemReads item out
  | .cond test yes no, out =>
    no.itemReads item (yes.itemReads item (test.itemReads item out))
  | .template _ parts, out => itemReadsParts item parts out
  | .array items, out => itemReadsAll item items out
  | .object props, out => itemReadsProps item props out
  | .arrow params body _, out => if item ∈ params then out else body.itemReads item out
  | .block params _ captures, out => if item ∈ params then out else out.captured item captures
  | .jsx, _ => .whole
  | .opaqueJs _ _ captures, out => out.captured item captures

def itemReadsAll (item : String) : List (RawExpr F) → ItemRead → ItemRead
  | [], out => out
  | e :: es, out => itemReadsAll item es (e.itemReads item out)

def itemReadsParts (item : String) : List (RawExpr F × String) → ItemRead → ItemRead
  | [], out => out
  | (e, _) :: es, out => itemReadsParts item es (e.itemReads item out)

def itemReadsProps (item : String) : List (String × RawExpr F) → ItemRead → ItemRead
  | [], out => out
  | (_, e) :: es, out => itemReadsProps item es (e.itemReads item out)

end

theorem itemReads_whole (item : String) (e : RawExpr F) : e.itemReads item .whole = .whole := by
  cases e with
  | call callee args => cases callee <;> rfl
  | _ => rfl

theorem itemReadsAll_whole (item : String) (es : List (RawExpr F)) :
    itemReadsAll item es .whole = .whole := by
  induction es with
  | nil => rfl
  | cons e es ih => rw [itemReadsAll, itemReads_whole, ih]

theorem itemReadsParts_whole (item : String) (es : List (RawExpr F × String)) :
    itemReadsParts item es .whole = .whole := by
  induction es with
  | nil => rfl
  | cons e es ih => rw [itemReadsParts, itemReads_whole, ih]

theorem itemReadsProps_whole (item : String) (es : List (String × RawExpr F)) :
    itemReadsProps item es .whole = .whole := by
  induction es with
  | nil => rfl
  | cons e es ih => rw [itemReadsProps, itemReads_whole, ih]

theorem itemReadsAll_fields {item : String} {es : List (RawExpr F)} {out : ItemRead}
    {g : List Path} (h : itemReadsAll item es out = .fields g) : ∃ f, out = .fields f := by
  cases out with
  | fields f => exact ⟨f, rfl⟩
  | whole =>
      rw [itemReadsAll_whole] at h
      cases h

theorem itemReadsParts_fields {item : String} {es : List (RawExpr F × String)} {out : ItemRead}
    {g : List Path} (h : itemReadsParts item es out = .fields g) : ∃ f, out = .fields f := by
  cases out with
  | fields f => exact ⟨f, rfl⟩
  | whole =>
      rw [itemReadsParts_whole] at h
      cases h

theorem itemReadsProps_fields {item : String} {es : List (String × RawExpr F)} {out : ItemRead}
    {g : List Path} (h : itemReadsProps item es out = .fields g) : ∃ f, out = .fields f := by
  cases out with
  | fields f => exact ⟨f, rfl⟩
  | whole =>
      rw [itemReadsProps_whole] at h
      cases h

theorem itemReads_call {item : String} {callee : RawExpr F} (args : List (RawExpr F))
    (hcallee : ∀ target name optional, callee ≠ .member target name optional) (f : List Path) :
    (call callee args).itemReads item (.fields f) =
      itemReadsAll item args (callee.itemReads item (.fields f)) := by
  cases callee with
  | member target name optional => exact absurd rfl (hcallee target name optional)
  | _ => rfl

theorem captured_fields {item : String} {captures : Captures} {f g : List Path}
    (h : ItemRead.captured item captures (.fields f) = .fields g) :
    f = g ∧ ∀ c ∈ captures, c.1 ≠ item := by
  rw [ItemRead.captured] at h
  split at h
  · cases h
  · next hnone =>
    refine ⟨ItemRead.fields.inj h, fun c hc heq => hnone ?_⟩
    exact List.any_eq_true.mpr ⟨c, hc, beq_iff_eq.mpr heq⟩

/-- What is read before is paths too. -/
theorem itemReads_fields {item : String} {e : RawExpr F} {out : ItemRead} {g : List Path}
    (h : e.itemReads item out = .fields g) : ∃ f, out = .fields f := by
  cases out with
  | fields f => exact ⟨f, rfl⟩
  | whole =>
      rw [itemReads_whole] at h
      cases h

end RawExpr

/-- A name after a dot, as the parser reads one: it starts with no digit and is no `*`. -/
def IdentifierName (k : String) : Prop := ∃ c cs, k.toList = c :: cs ∧ c.isDigit = false ∧ c ≠ '*'

/-! ### The item in the environment -/

section
variable {V : Type} {m : Type → Type} [Monad m]

/-- The parameters of a function shadow what is around it. -/
def Env.bind (env : Env m V) (undefined : V) (params : List String) (args : List V) : Env m V :=
  fun name kind =>
    if name ∈ params then pure (args.getD (params.idxOf name) undefined) else env name kind

/-- The item of a loop. -/
def Env.withItem (env : Env m V) (item : String) (v : V) : Env m V :=
  fun name kind => if name = item ∧ kind = .loopBinding then pure v else env name kind

/-- Two environments that differ in the item only. -/
structure Differ (item : String) (env env' : Env m V) (v v' : V) : Prop where
  here : env item .loopBinding = pure v
  there : env' item .loopBinding = pure v'
  elsewhere : ∀ name kind, ¬ (name = item ∧ kind = .loopBinding) → env name kind = env' name kind

theorem Env.withItem_differ (env : Env m V) (item : String) (v v' : V) :
    Differ item (env.withItem item v) (env.withItem item v') v v' := by
  refine ⟨if_pos ⟨rfl, rfl⟩, if_pos ⟨rfl, rfl⟩, fun name kind hne => ?_⟩
  rw [Env.withItem, Env.withItem, if_neg hne, if_neg hne]

theorem Differ.bind {item : String} {env env' : Env m V} {v v' : V} (h : Differ item env env' v v')
    {params : List String} (hitem : item ∉ params) (u : V) (args : List V) :
    Differ item (env.bind u params args) (env'.bind u params args) v v' := by
  refine ⟨?_, ?_, fun name kind hne => ?_⟩
  · rw [Env.bind, if_neg hitem]
    exact h.here
  · rw [Env.bind, if_neg hitem]
    exact h.there
  · rw [Env.bind, Env.bind]
    split
    · rfl
    · exact h.elsewhere name kind hne

/-- A function that shadows the item has the same environment. -/
theorem Differ.shadowed {item : String} {env env' : Env m V} {v v' : V}
    (h : Differ item env env' v v') {params : List String} (hitem : item ∈ params) (u : V)
    (args : List V) : env.bind u params args = env'.bind u params args := by
  funext name kind
  rw [Env.bind, Env.bind]
  split
  · rfl
  · next hname => exact h.elsewhere name kind fun heq => hname (heq.1 ▸ hitem)

/-- An identifier that the scan passes is not the item. -/
theorem Differ.ident {item name : String} {kind : IdentKind} {env env' : Env m V} {v v' : V}
    (hdiff : Differ item env env' v v') {f g : List Path}
    (h : (RawExpr.ident name kind : RawExpr F).itemReads item (.fields f) = .fields g) :
    env name kind = env' name kind := by
  refine hdiff.elsewhere name kind ?_
  rintro ⟨rfl, rfl⟩
  have hitem : (RawExpr.ident name .loopBinding : RawExpr F).isItem name = true :=
    beq_self_eq_true name
  simp only [RawExpr.itemReads] at h
  rw [if_pos hitem] at h
  cases h

end

/-! ### Rows in the language -/

section
variable {V : Type} [Floating F] {m : Type → Type}

/-- The value of a reference. -/
def valueOf (o : Option (Reference V)) : Option V := o.map Reference.value

theorem value_eq (L : Language F m V) (o : Option (Reference V)) :
    L.value o = (valueOf o).getD L.undefined := by
  cases o with
  | none => rfl
  | some r => rfl

end

section
variable {V : Type} [Floating F] {m : Type → Type} [Monad m]

/-- JSON values, and functions with what they have from around them. -/
structure Rows (L : Language F m V) where
  ofJson : JsonValue → V
  /-- What an object answers for a name that it has not: its prototype's, or `undefined`. -/
  inherited : String → m V
  closure : (List V → m V) → V
  nullish_obj (entries : List (String × JsonValue)) : L.nullish (ofJson (.obj entries)) = false
  nullish_arr (xs : List JsonValue) : L.nullish (ofJson (.arr xs)) = false
  member_obj (entries : List (String × JsonValue)) (k : String) :
    L.member (ofJson (.obj entries)) k =
      match entries.lookup k with
      | some v => pure (ofJson v)
      | none => inherited k
  /-- A name that is no index reads the length or a method. -/
  member_arr (xs ys : List JsonValue) (k : String) : IdentifierName k → xs.length = ys.length →
    L.member (ofJson (.arr xs)) k = L.member (ofJson (.arr ys)) k
  code_arrow (env : Env m V) (params : List String) (body : RawExpr F) (captures : Captures) :
    L.code env (.arrow params body captures) =
      pure (closure fun args => L.eval (env.bind L.undefined params args) body)
  code_block (env env' : Env m V) (params : List String) (source : String) (captures : Captures) :
    (∀ c ∈ captures, c.1 ∉ params → env c.1 c.2 = env' c.1 c.2) →
      L.code env (.block params source captures) = L.code env' (.block params source captures)
  code_opaque (env env' : Env m V) (source why : String) (captures : Captures) :
    (∀ c ∈ captures, env c.1 c.2 = env' c.1 c.2) →
      L.code env (.opaqueJs source why captures) = L.code env' (.opaqueJs source why captures)
  typeof_local (env env' : Env m V) (name : String) (kind : IdentKind) :
    env name kind = env' name kind → L.typeofName env name kind = L.typeofName env' name kind

variable {L : Language F m V}

/-- One member of a chain. -/
def readStep (L : Language F m V) (v : V) (s : String × Bool) : m (Option V) :=
  if s.2 && L.nullish v then pure none else some <$> L.member v s.1

/-- What a chain of members reads; nothing where a `?.` cuts it short. -/
def readChain (L : Language F m V) : V → Chain → m (Option V)
  | v, [] => pure (some v)
  | v, s :: c => readStep L v s >>= fun o => o.elim (pure none) (readChain L · c)

/-- Two rows read the same along the paths. -/
def SameReads (L : Language F m V) (v v' : V) (paths : List Path) : Prop :=
  ∀ p ∈ paths, ∀ c : Chain, c.map Prod.fst = p → readChain L v c = readChain L v' c

/-- The expression has the same value in both, and is the same run where it is no chain on the
item, whose `this` would be the item. -/
def SameRun (L : Language F m V) (item : String) (v v' : V) (e : RawExpr F) : Prop :=
  ∀ env env', Differ item env env' v v' → valueOf <$> L.run env e = valueOf <$> L.run env' e ∧
    (e.itemPath item = none → L.run env e = L.run env' e)

theorem SameReads.anti {v v' : V} {f g : List Path} (h : SameReads L v v' g) (hfg : f ⊆ g) :
    SameReads L v v' f :=
  fun p hp => h p (hfg hp)

theorem SameRun.of_run {item : String} {v v' : V} {e : RawExpr F}
    (h : ∀ env env', Differ item env env' v v' → L.run env e = L.run env' e) :
    SameRun L item v v' e :=
  fun env env' hdiff => ⟨by rw [h env env' hdiff], fun _ => h env env' hdiff⟩

theorem applyUnary_congr (R : Rows L) {env env' : Env m V} {e : RawExpr F} (op : UnOp) (c : m V)
    (hident : ∀ name kind, e = .ident name kind → env name kind = env' name kind) :
    L.applyUnary env op e c = L.applyUnary env' op e c := by
  cases op with
  | typeof =>
      cases e with
      | ident name kind => exact R.typeof_local env env' name kind (hident name kind rfl)
      | _ => rfl
  | _ => rfl

variable [LawfulMonad m]

theorem readChain_append (c d : Chain) (v : V) : readChain L v (c ++ d) =
    readChain L v c >>= fun o => o.elim (pure none) (readChain L · d) := by
  induction c generalizing v with
  | nil =>
      rw [List.nil_append, readChain, pure_bind]
      rfl
  | cons s c ih =>
      rw [List.cons_append, readChain, readChain, bind_assoc]
      congr 1
      ext o
      cases o with
      | none =>
          change pure none = (pure none >>= _)
          rw [pure_bind]
          rfl
      | some w => exact ih w

theorem readChain_single (v : V) (s : String × Bool) : readChain L v [s] = readStep L v s := by
  have hid : (fun o : Option V => o.elim (pure none) (readChain L · [])) = pure :=
    funext fun o => by
      cases o with
      | none => rfl
      | some w => rfl
  rw [readChain, hid, bind_pure]

/-- **Reads of a row.**  Along a path that the filter was given a projected row reads as the row. -/
theorem readChain_project (R : Rows L) : ∀ {p : Path} {n : ProjNode} {v : JsonValue}, Marks n p →
    ∀ c : Chain, p <+: c.map Prod.fst → (∀ k ∈ c.map Prod.fst, IdentifierName k) →
      readChain L (R.ofJson (projectValue v n)) c = readChain L (R.ofJson v) c
  | [], n, v, ⟨m, hm, hw⟩, c, _, _ => by
      obtain rfl := Option.some.inj hm
      rw [Seeds.projectValue_whole hw]
  | k :: p, n, v, hmarks, c, hpre, hnames => by
      obtain ⟨child, hchild, hmarks⟩ := Seeds.marks_cons.mp hmarks
      rcases c with _ | ⟨⟨k', opt⟩, c⟩
      · cases hpre.length_le
      obtain ⟨hk, htail⟩ := List.cons_prefix_cons.mp hpre
      obtain rfl : k = k' := hk
      have hrest : ∀ k ∈ c.map Prod.fst, IdentifierName k := fun k hk => hnames k (.tail _ hk)
      cases hw : n.whole with
      | true => rw [Seeds.projectValue_whole hw]
      | false =>
          cases v with
          | arr xs =>
              rw [projectValue, hw, if_neg Bool.false_ne_true, readChain, readChain, readStep,
                readStep, R.nullish_arr, R.nullish_arr,
                R.member_arr _ xs k (hnames k (.head _)) (Seeds.length_projectItems n xs)]
          | obj entries =>
              rw [projectValue, hw, if_neg Bool.false_ne_true, readChain, readChain, readStep,
                readStep, R.nullish_obj, R.nullish_obj, R.member_obj, R.member_obj,
                Seeds.lookup_projectMembers, hchild, Option.bind_some]
              cases entries.lookup k with
              | none => rfl
              | some x =>
                  have ih := readChain_project R hmarks (v := x) c htail hrest
                  simpa using ih
          | _ => rw [projectValue] <;> simp

/-! ### Runs -/

/-- What goes on with a value only does the same with equal values. -/
theorem bind_congr_value {α : Type} {x y : m (Option (Reference V))}
    {k : Option (Reference V) → m α} (k' : Option V → m α)
    (h : valueOf <$> x = valueOf <$> y) (hk : ∀ o, k o = k' (valueOf o)) : x >>= k = y >>= k := by
  have hmap : ∀ z : m (Option (Reference V)), z >>= k = (valueOf <$> z) >>= k' := fun z => by
    rw [bind_map_left]
    exact bind_congr hk
  rw [hmap, hmap, h]

theorem eval_congr {x y : m (Option (Reference V))} (h : valueOf <$> x = valueOf <$> y) :
    L.value <$> x = L.value <$> y := by
  have hmap : ∀ z : m (Option (Reference V)),
      L.value <$> z = (fun o => Option.getD o L.undefined) <$> (valueOf <$> z) := fun z => by
    rw [← comp_map]
    exact congrArg (· <$> z) (funext (value_eq L))
  rw [hmap, hmap, h]

/-- A chain on the item is a chain of reads, whatever the item is. -/
theorem run_itemPath {item : String} : ∀ {e : RawExpr F} {p : Path}, e.itemPath item = some p →
    ∃ c : Chain, c.map Prod.fst = p ∧ ∀ (env : Env m V) (v : V), env item .loopBinding = pure v →
      valueOf <$> L.run env e = readChain L v c
  | .member target name optional, p, h => by
      rw [RawExpr.itemPath] at h
      have hselect : ∀ t, valueOf <$> L.select optional name t = readStep L t (name, optional) := by
        intro t
        rw [Language.select, readStep]
        split
        · rw [map_pure]
          rfl
        · rw [← comp_map]
          rfl
      split at h
      · next hitem =>
        obtain rfl := Option.some.inj h
        refine ⟨[(name, optional)], rfl, fun env v hv => ?_⟩
        cases target with
        | ident n kind =>
            cases kind with
            | loopBinding =>
                obtain rfl : n = item := beq_iff_eq.mp hitem
                rw [readChain_single, ← hselect, Language.run, Language.run, hv,
                  map_pure, pure_bind]
                rfl
            | _ => cases hitem
        | _ => cases hitem
      · obtain ⟨q, hq, rfl⟩ := Option.map_eq_some_iff.mp h
        obtain ⟨c, hc, hrun⟩ := run_itemPath hq
        refine ⟨c ++ [(name, optional)], by rw [List.map_append, hc]; rfl, fun env v hv => ?_⟩
        rw [readChain_append, ← hrun env v hv, bind_map_left, Language.run, map_bind]
        refine bind_congr fun o => ?_
        cases o with
        | none => exact map_pure _ _
        | some r =>
            change valueOf <$> L.select optional name r.value = readChain L r.value
              [(name, optional)]
            rw [hselect, readChain_single]

variable {item : String} {v v' : V} {e : RawExpr F}

theorem SameRun.value (h : SameRun L item v v' e) {env env' : Env m V}
    (hdiff : Differ item env env' v v') : L.value <$> L.run env e = L.value <$> L.run env' e :=
  eval_congr (h env env' hdiff).1

theorem SameRun.plain (h : SameRun L item v v' e) {env env' : Env m V}
    (hdiff : Differ item env env' v v') : (fun o => L.plain (L.value o)) <$> L.run env e =
      (fun o => L.plain (L.value o)) <$> L.run env' e := by
  have hcomp : ∀ env, (fun o => L.plain (L.value o)) <$> L.run env e =
      L.plain <$> (L.value <$> L.run env e) := fun env => comp_map L.value L.plain (L.run env e)
  rw [hcomp, hcomp, h.value hdiff]

theorem SameRun.member (h : SameRun L item v v' e) (name : String) (optional : Bool)
    {env env' : Env m V} (hdiff : Differ item env env' v v') :
    L.run env (.member e name optional) = L.run env' (.member e name optional) := by
  rw [Language.run, Language.run]
  refine bind_congr_value (fun o => o.elim (pure none) (L.select optional name))
    (h env env' hdiff).1 fun o => ?_
  cases o with
  | none => rfl
  | some r => rfl

mutual

/-- **What an expression reads.**  Where the scan answers paths, rows that read the same along them
give the same value. -/
theorem run_reads (R : Rows L) : ∀ (e : RawExpr F) {f g : List Path},
    e.itemReads item (.fields f) = .fields g →
      f ⊆ g ∧ (SameReads L v v' g → SameRun L item v v' e)
  | .lit l, f, g, h => by
      cases h
      exact ⟨fun _ hp => hp, fun _ => .of_run fun _ _ _ => rfl⟩
  | .ident name kind, f, g, h => by
      have hfg : f = g := by
        simp only [RawExpr.itemReads] at h
        split at h
        · cases h
        · exact ItemRead.fields.inj h
      refine ⟨hfg ▸ fun _ hp => hp, fun _ => .of_run fun env env' hdiff => ?_⟩
      rw [Language.run, Language.run, hdiff.ident h]
  | .member target name optional, f, g, h => by
      simp only [RawExpr.itemReads] at h
      split at h
      · next p hp =>
        cases h
        refine ⟨List.subset_cons_self _ _, fun hsame env env' hdiff => ⟨?_, fun hnone => ?_⟩⟩
        · obtain ⟨c, hc, hrun⟩ := run_itemPath (L := L) hp
          rw [hrun env v hdiff.here, hrun env' v' hdiff.there]
          exact hsame p (.head _) c hc
        · rw [hp] at hnone
          cases hnone
      · have ih := run_reads R target h
        exact ⟨ih.1, fun hsame => .of_run fun env env' hdiff => (ih.2 hsame).member _ _ hdiff⟩
  | .index target i, f, g, h => by
      simp only [RawExpr.itemReads] at h
      split at h
      · cases h
      · obtain ⟨k, hk⟩ := RawExpr.itemReads_fields h
        have ihi := run_reads R i (hk ▸ h)
        have iht := run_reads R target hk
        refine ⟨List.Subset.trans iht.1 ihi.1, fun hsame => .of_run fun env env' hdiff => ?_⟩
        have ht := iht.2 (hsame.anti ihi.1)
        rw [Language.run, Language.run, (ihi.2 hsame).value hdiff]
        refine bind_congr_value (fun o => o.elim (pure none) fun w => do
          let k ← L.value <$> L.run env' i
          let x ← L.index w k
          pure (some ⟨w, x⟩)) (ht env env' hdiff).1 fun o => ?_
        cases o with
        | none => rfl
        | some r => rfl
  | .call callee args, f, g, h => by
      have hcall : ∀ {k}, f ⊆ k → RawExpr.itemReadsAll item args (.fields k) = .fields g →
          (SameReads L v v' k → ∀ env env', Differ item env env' v v' →
            L.run env callee = L.run env' callee) →
          f ⊆ g ∧ (SameReads L v v' g → SameRun L item v v' (.call callee args)) := by
        intro k hfk hk hcallee
        have iha := run_readsAll R args hk
        refine ⟨List.Subset.trans hfk iha.1, fun hsame => .of_run fun env env' hdiff => ?_⟩
        rw [Language.run, Language.run, hcallee (hsame.anti iha.1) env env' hdiff,
          iha.2 hsame env env' hdiff]
      have ihc := fun {k} => @run_reads R callee f k
      cases callee with
      | member target name optional =>
          simp only [RawExpr.itemReads] at h
          obtain ⟨k, hk⟩ := RawExpr.itemReadsAll_fields h
          have ih := run_reads R target hk
          exact hcall ih.1 (hk ▸ h) fun hsame env env' hdiff =>
            (ih.2 hsame).member name optional hdiff
      | _ =>
          rw [RawExpr.itemReads_call args (by simp)] at h
          obtain ⟨k, hk⟩ := RawExpr.itemReadsAll_fields h
          have ih := ihc hk
          exact hcall ih.1 (hk ▸ h) fun hsame env env' hdiff => (ih.2 hsame env env' hdiff).2 rfl
  | .binary op left right, f, g, h => by
      simp only [RawExpr.itemReads] at h
      obtain ⟨k, hk⟩ := RawExpr.itemReads_fields h
      have ihl := run_reads R left hk
      have ihr := run_reads R right (hk ▸ h)
      refine ⟨List.Subset.trans ihl.1 ihr.1, fun hsame => .of_run fun env env' hdiff => ?_⟩
      rw [Language.run, Language.run, (ihl.2 (hsame.anti ihr.1)).value hdiff,
        (ihr.2 hsame).value hdiff, (ihr.2 hsame).plain hdiff]
  | .unary op e, f, g, h => by
      simp only [RawExpr.itemReads] at h
      have ih := run_reads R e h
      refine ⟨ih.1, fun hsame => .of_run fun env env' hdiff => ?_⟩
      rw [Language.run, Language.run, (ih.2 hsame).value hdiff]
      refine congrArg _ (applyUnary_congr R op _ ?_)
      rintro name kind rfl
      exact hdiff.ident h
  | .cond test yes no, f, g, h => by
      simp only [RawExpr.itemReads] at h
      obtain ⟨l, hl⟩ := RawExpr.itemReads_fields h
      obtain ⟨k, hk⟩ := RawExpr.itemReads_fields hl
      have iht := run_reads R test hk
      have ihy := run_reads R yes (hk ▸ hl)
      have ihn := run_reads R no (hl ▸ h)
      refine ⟨List.Subset.trans iht.1 (List.Subset.trans ihy.1 ihn.1),
        fun hsame => .of_run fun env env' hdiff => ?_⟩
      have hyes := hsame.anti ihn.1
      rw [Language.run, Language.run, (iht.2 (hyes.anti ihy.1)).value hdiff,
        (ihy.2 hyes).plain hdiff, (ihn.2 hsame).plain hdiff]
  | .template head parts, f, g, h => by
      simp only [RawExpr.itemReads] at h
      have ih := run_readsParts R parts h
      refine ⟨ih.1, fun hsame => .of_run fun env env' hdiff => ?_⟩
      rw [Language.run, Language.run, ih.2 hsame env env' hdiff]
  | .array items, f, g, h => by
      simp only [RawExpr.itemReads] at h
      have ih := run_readsAll R items h
      refine ⟨ih.1, fun hsame => .of_run fun env env' hdiff => ?_⟩
      rw [Language.run, Language.run, ih.2 hsame env env' hdiff]
  | .object props, f, g, h => by
      simp only [RawExpr.itemReads] at h
      have ih := run_readsProps R props h
      refine ⟨ih.1, fun hsame => .of_run fun env env' hdiff => ?_⟩
      rw [Language.run, Language.run, ih.2 hsame env env' hdiff]
  | .arrow params body captures, f, g, h => by
      simp only [RawExpr.itemReads] at h
      have hcode : f ⊆ g ∧ (SameReads L v v' g → ∀ env env', Differ item env env' v v' →
          ∀ args, L.eval (env.bind L.undefined params args) body =
            L.eval (env'.bind L.undefined params args) body) := by
        split at h
        · next hitem =>
          cases h
          refine ⟨fun _ hp => hp, fun _ env env' hdiff args => ?_⟩
          rw [hdiff.shadowed hitem]
        · next hitem =>
          have ih := run_reads R body h
          exact ⟨ih.1, fun hsame env env' hdiff args =>
            (ih.2 hsame).value (hdiff.bind hitem L.undefined args)⟩
      refine ⟨hcode.1, fun hsame => .of_run fun env env' hdiff => ?_⟩
      change L.plain <$> L.code env _ = L.plain <$> L.code env' _
      rw [R.code_arrow, R.code_arrow, funext (hcode.2 hsame env env' hdiff)]
  | .block params source captures, f, g, h => by
      simp only [RawExpr.itemReads] at h
      have hcaptures : f = g ∧ ∀ c ∈ captures, c.1 ∉ params → c.1 ≠ item := by
        split at h
        · next hitem =>
          exact ⟨ItemRead.fields.inj h, fun c _ hc heq => hc (heq ▸ hitem)⟩
        · obtain ⟨hfg, hne⟩ := RawExpr.captured_fields h
          exact ⟨hfg, fun c hc _ => hne c hc⟩
      refine ⟨hcaptures.1 ▸ fun _ hp => hp, fun _ => .of_run fun env env' hdiff => ?_⟩
      refine congrArg (L.plain <$> ·) (R.code_block env env' params source captures ?_)
      exact fun c hc hparam => hdiff.elsewhere _ _ fun heq => hcaptures.2 c hc hparam heq.1
  | .jsx, f, g, h => by
      simp only [RawExpr.itemReads] at h
      cases h
  | .opaqueJs source why captures, f, g, h => by
      simp only [RawExpr.itemReads] at h
      obtain ⟨hfg, hne⟩ := RawExpr.captured_fields h
      refine ⟨hfg ▸ fun _ hp => hp, fun _ => .of_run fun env env' hdiff => ?_⟩
      refine congrArg (L.plain <$> ·) (R.code_opaque env env' source why captures fun c hc => ?_)
      exact hdiff.elsewhere _ _ fun heq => hne c hc heq.1

theorem run_readsAll (R : Rows L) : ∀ (es : List (RawExpr F)) {f g : List Path},
    RawExpr.itemReadsAll item es (.fields f) = .fields g →
      f ⊆ g ∧ (SameReads L v v' g → ∀ env env', Differ item env env' v v' →
        L.runAll env es = L.runAll env' es)
  | [], f, g, h => by
      cases h
      exact ⟨fun _ hp => hp, fun _ _ _ _ => rfl⟩
  | e :: es, f, g, h => by
      simp only [RawExpr.itemReadsAll] at h
      obtain ⟨k, hk⟩ := RawExpr.itemReadsAll_fields h
      have ihs := run_readsAll R es (hk ▸ h)
      have ih := run_reads R e hk
      refine ⟨List.Subset.trans ih.1 ihs.1, fun hsame env env' hdiff => ?_⟩
      rw [Language.runAll, Language.runAll, (ih.2 (hsame.anti ihs.1)).value hdiff,
        ihs.2 hsame env env' hdiff]

theorem run_readsParts (R : Rows L) : ∀ (es : List (RawExpr F × String)) {f g : List Path},
    RawExpr.itemReadsParts item es (.fields f) = .fields g →
      f ⊆ g ∧ (SameReads L v v' g → ∀ env env', Differ item env env' v v' →
        L.runParts env es = L.runParts env' es)
  | [], f, g, h => by
      cases h
      exact ⟨fun _ hp => hp, fun _ _ _ _ => rfl⟩
  | (e, tail) :: es, f, g, h => by
      simp only [RawExpr.itemReadsParts] at h
      obtain ⟨k, hk⟩ := RawExpr.itemReadsParts_fields h
      have ihs := run_readsParts R es (hk ▸ h)
      have ih := run_reads R e hk
      refine ⟨List.Subset.trans ih.1 ihs.1, fun hsame env env' hdiff => ?_⟩
      rw [Language.runParts, Language.runParts, (ih.2 (hsame.anti ihs.1)).value hdiff,
        ihs.2 hsame env env' hdiff]

theorem run_readsProps (R : Rows L) : ∀ (es : List (String × RawExpr F)) {f g : List Path},
    RawExpr.itemReadsProps item es (.fields f) = .fields g →
      f ⊆ g ∧ (SameReads L v v' g → ∀ env env', Differ item env env' v v' →
        L.runProps env es = L.runProps env' es)
  | [], f, g, h => by
      cases h
      exact ⟨fun _ hp => hp, fun _ _ _ _ => rfl⟩
  | (k, e) :: es, f, g, h => by
      simp only [RawExpr.itemReadsProps] at h
      obtain ⟨l, hl⟩ := RawExpr.itemReadsProps_fields h
      have ihs := run_readsProps R es (hl ▸ h)
      have ih := run_reads R e hl
      refine ⟨List.Subset.trans ih.1 ihs.1, fun hsame env env' hdiff => ?_⟩
      rw [Language.runProps, Language.runProps, (ih.2 (hsame.anti ihs.1)).value hdiff,
        ihs.2 hsame env env' hdiff]

end

/-! ### Projected rows -/

/-- The filter keeps what is read along the paths. -/
theorem sameReads_project (R : Rows L) {paths : List Path}
    (hnames : ∀ p ∈ paths, ∀ k ∈ p, IdentifierName k) (x : JsonValue) :
    SameReads L (R.ofJson (project x (minimalPaths paths))) (R.ofJson x) paths := by
  intro p hp c hc
  have hstar : ["*"] ∉ paths := by
    intro hmem
    obtain ⟨k, ks, hk, -, hne⟩ := hnames _ hmem "*" (.head _)
    exact hne (List.cons.inj hk).1.symm
  obtain ⟨q, hq, hqp⟩ := Seeds.exists_minimal hstar hp
  rw [project]
  split
  · rfl
  · exact readChain_project R (Seeds.marks_projTree.mpr hq) c (hc ▸ hqp) (hc ▸ hnames p hp)

/-- **Row projection is adequate.**  Where the scan of an expression answers paths, the expression
has the same value, with the same effects, on the projected row as on the row. -/
theorem project_adequate (R : Rows L) {item : String} {e : RawExpr F} {f paths : List Path}
    (hreads : e.itemReads item (.fields f) = .fields paths)
    (hnames : ∀ p ∈ paths, ∀ k ∈ p, IdentifierName k) (env : Env m V) (x : JsonValue) :
    L.eval (env.withItem item (R.ofJson (project x (minimalPaths paths)))) e =
      L.eval (env.withItem item (R.ofJson x)) e :=
  ((run_reads R e hreads).2 (sameReads_project R hnames x)).value (env.withItem_differ item _ _)

end

/-- JSON data and literals, where a member is all that can be read; the functions are one value. -/
def rowLanguage : Language Int (Except String) (Literal Int ⊕ JsonValue) where
  literal := .inl
  toBoolean
    | .inl l => l.toBoolean
    | .inr .null | .inr (.bool false) | .inr (.str "") | .inr (.num ['0']) => false
    | .inr _ => true
  nullish
    | .inl l => l.nullish
    | .inr .null => true
    | .inr _ => false
  member
    | .inr (.obj entries), k =>
      pure (match entries.lookup k with
        | some v => .inr v
        | none => .inl .undefined)
    | .inr (.arr xs), k => pure (.inl (if k = "length" then .num xs.length else .undefined))
    | _, k => .error k
  index _ _ := .error "index"
  call _ _ _ := .error "call"
  binary _ _ _ := .error "operator"
  unary _ _ := .error "operator"
  typeofName _ _ _ := .error "typeof"
  text _ := .error "text"
  array _ := .error "array"
  object _ := .error "object"
  code _ _ := pure (.inl (.str "function"))
  toBoolean_literal _ := rfl
  nullish_literal _ := rfl

def rowLanguageRows : Rows rowLanguage where
  ofJson := .inr
  inherited _ := pure (.inl .undefined)
  closure _ := .inl (.str "function")
  nullish_obj _ := rfl
  nullish_arr _ := rfl
  member_obj entries k := by
    change pure (match entries.lookup k with | some v => _ | none => _) = _
    cases entries.lookup k <;> rfl
  member_arr xs ys k _ h := by
    change pure (Sum.inl (if k = "length" then Literal.num (xs.length : Int) else .undefined)) = _
    rw [h]
    rfl
  code_arrow _ _ _ _ := rfl
  code_block _ _ _ _ _ _ := rfl
  code_opaque _ _ _ _ _ _ := rfl
  typeof_local _ _ _ _ _ := rfl

/-- `row.name ? row.name : null` on a row with an id. -/
theorem project_adequate_name :
    let env : Env (Except String) (Literal Int ⊕ JsonValue) := fun name _ => .error name
    let row : JsonValue := .obj [("id", .num ['1']), ("name", .str "ann")]
    let name : RawExpr Int := .member (.ident "row" .loopBinding) "name" false
    let e : RawExpr Int := .cond name name (.lit .null)
    rowLanguage.eval
        (env.withItem "row" (.inr (project row (minimalPaths [["name"], ["name"]])))) e =
      rowLanguage.eval (env.withItem "row" (.inr row)) e :=
  have hreads : (RawExpr.cond (.member (.ident "row" .loopBinding) "name" false)
      (.member (.ident "row" .loopBinding) "name" false) (.lit .null) : RawExpr Int).itemReads "row"
        (.fields []) = .fields [["name"], ["name"]] := rfl
  project_adequate rowLanguageRows hreads
    (fun p hp k hk => by
      obtain rfl : p = ["name"] := by simpa using hp
      obtain rfl : k = "name" := by simpa using hk
      exact ⟨'n', ['a', 'm', 'e'], rfl, rfl, by decide⟩) _ _

end Brust.Compiler
