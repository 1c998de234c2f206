import Brust.Compiler.ConstFolder
import Brust.Compiler.DeadArms

/-!
# Compiler — Folded constants mean what they meant

`fold_consts` of `analyze/passes/placement.rs`: an expression of a component with the constants of
its module and of the modules that it imports written out.

Wherever the original ends in a value, the folded expression ends in the same value, with the same
effects (`foldConsts_eval`).  The one liberty: a constant that is `undefined` may be written out as
an optional chain, which the rest of the expression then cuts short where the original throws.
-/

namespace Brust.Compiler.ConstFolder

/-! ### What is folded -/

/-- A module: its constants, and the one behind each name that it exports. -/
structure Module (F : Type) where
  consts : List (ConstVal F)
  exported : String → Option String

/-- The modules of a project, by their paths. -/
structure Project (F : Type) where
  /-- The module that an import of a module names. -/
  resolve : String → String → Option String
  read : String → Option (Module F)
  jinjaLen : RawExpr F → ℕ

variable {F : Type}

namespace Project

variable (P : Project F)

/-- `imported_const`: what another module exports, where it folds to a primitive; the fuel is what
is left of `FOLD_DEPTH`. -/
def importedConst : ℕ → String → String → String → Option (RawExpr F)
  | 0, _, _, _ => none
  | n + 1, path, source, imported => do
    let path' ← P.resolve path source
    let md ← P.read path'
    let name ← md.exported imported
    let folder : Scope F := ⟨md.consts, fun _ => false, importedConst n path', P.jinjaLen⟩
    (folder.resolve name .new).1.toOption.filter primitive

/-- The scope in which a module folds its constants. -/
def scope (md : Module F) (shadowed : String → Bool) (n : ℕ) (path : String) : Scope F :=
  ⟨md.consts, shadowed, P.importedConst n path, P.jinjaLen⟩

/-- `note`: what an import folds to where a template reads it. -/
def noted (shadowed : String → Bool) (path name source imported : String) : Option (RawExpr F) :=
  if shadowed name then none
  else (P.importedConst FOLD_DEPTH path source imported).filter (P.jinjaLen · ≤ FOLD_MAX_JINJA)

/-- What the imports of a list fold to, by name; of one name, the last that folds. -/
def importedVals (shadowed : String → Bool) (path : String)
    (imports : List (String × String × String)) (name : String) : Option (RawExpr F) :=
  imports.reverse.findSome? fun (n, source, imported) =>
    if n = name then P.noted shadowed path n source imported else none

end Project

/-- What an identifier folds to. -/
def foldIdent (consts vals : String → Option (RawExpr F)) :
    String → IdentKind → Option (RawExpr F)
  | name, .localName => consts name
  | name, .imported _ _ => vals name
  | _, _ => none

/-- The closure of `map_idents`: an identifier, which may fold, and no other node. -/
def identsOnly (f : String → IdentKind → Option (RawExpr F)) : RawExpr F → Option (RawExpr F)
  | .ident name kind => some ((f name kind).getD (.ident name kind))
  | _ => none

/-- `map_idents`: `e` with what its identifiers fold to. -/
def mapIdents (f : String → IdentKind → Option (RawExpr F)) (e : RawExpr F) : RawExpr F :=
  mapPre (identsOnly f) e

/-- `fold_consts` for a component that shadows names and reads imports. -/
def Project.foldConsts (P : Project F) (path : String) (md : Module F) (shadowed : String → Bool)
    (imports : List (String × String × String)) : RawExpr F → RawExpr F :=
  mapIdents (foldIdent (P.scope md shadowed FOLD_DEPTH path).foldAll
    (P.importedVals shadowed path imports))

/-! ### What it means -/

section Meaning

variable [Floating F] {S E V : Type} (L : Language F (Fallible S E) V)

/-- `undefined` has no members and is no function. -/
structure Strict : Prop where
  member (name : String) : Fallible.Throws (L.member L.undefined name)
  index (i : V) : Fallible.Throws (L.index L.undefined i)
  call (this : V) (args : List V) : Fallible.Throws (L.call this L.undefined args)

/-- A call of the value that goes through without a `this` does the same with one. -/
def Bare (v : V) : Prop :=
  ∀ this args, Fallible.Simulates Eq (L.call L.undefined v args) (L.call this v args)

/-- The same value; the `this` of a call may be new where it was `undefined`, and a chain that gave
`undefined` may be cut short. -/
inductive Like : Option (Reference V) → Option (Reference V) → Prop
  | cut : Like none none
  | same (r : Reference V) : Like (some r) (some r)
  | bare {v : V} (this : V) (h : Bare L v) : Like (L.plain v) (some ⟨this, v⟩)
  | short (this : V) : Like (some ⟨this, L.undefined⟩) none

variable {L}

open Fallible (Simulates Throws)

theorem Like.refl : ∀ o : Option (Reference V), Like L o o
  | none => .cut
  | some r => .same r

theorem Like.value_eq {o o' : Option (Reference V)} (h : Like L o o') : L.value o = L.value o' := by
  cases h <;> rfl

/-- What a constant with the value of `o` may be written out as. -/
theorem Like.read {o o' : Option (Reference V)} (h : Like L o o') (hb : Bare L (L.value o)) :
    Like L (L.plain (L.value o)) o' := by
  cases h with
  | cut => exact .short _
  | same r => exact .bare r.this hb
  | bare this _ => exact .bare this hb
  | short _ => exact .short _

section Forms
variable {x y : Fallible S E (Option (Reference V))}

theorem value_run (h : Simulates (Like L) x y) : Simulates Eq (L.value <$> x) (L.value <$> y) :=
  h.map fun _ _ hlike => hlike.value_eq

theorem plain_run {α : Type} {c d : Fallible S E α} (h : Simulates Eq c d) (f : α → V) :
    Simulates (Like L) ((fun a => L.plain (f a)) <$> c) ((fun a => L.plain (f a)) <$> d) :=
  h.map fun _ _ heq => heq ▸ .same _

theorem member_run (hL : Strict L) (h : Simulates (Like L) x y) (name : String) (optional : Bool) :
    Simulates (Like L)
      (x >>= fun o => o.elim (pure none) fun r => L.select optional name r.value)
      (y >>= fun o => o.elim (pure none) fun r => L.select optional name r.value) := by
  refine h.bind fun o o' hlike => ?_
  cases hlike with
  | cut => exact .pure .cut
  | same r => exact .refl .refl _
  | bare this _ => exact .refl .refl _
  | short this =>
      change Simulates _ (L.select optional name L.undefined) _
      rw [Language.select]
      split
      · exact .pure .cut
      · exact ((hL.member name).bind).simulates

theorem index_run (hL : Strict L) (h : Simulates (Like L) x y)
    {i j : Fallible S E (Option (Reference V))} (hi : Simulates (Like L) i j) :
    Simulates (Like L)
      (x >>= fun o => o.elim (pure none) fun r => do
        let k ← L.value <$> i
        let v ← L.index r.value k
        pure (some ⟨r.value, v⟩))
      (y >>= fun o => o.elim (pure none) fun r => do
        let k ← L.value <$> j
        let v ← L.index r.value k
        pure (some ⟨r.value, v⟩)) := by
  have hread : ∀ v : V, Simulates (Like L)
      (do
        let k ← L.value <$> i
        let u ← L.index v k
        pure (some ⟨v, u⟩))
      (do
        let k ← L.value <$> j
        let u ← L.index v k
        pure (some ⟨v, u⟩)) := fun v => by
    refine (value_run hi).bind fun k _ hk => ?_
    subst hk
    exact .refl .refl _
  refine h.bind fun o o' hlike => ?_
  cases hlike with
  | cut => exact .pure .cut
  | same r => exact hread r.value
  | bare this _ => exact hread _
  | short this => exact (Throws.after fun k => (hL.index k).bind).simulates

theorem call_run (hL : Strict L) (h : Simulates (Like L) x y) {as bs : Fallible S E (List V)}
    (hargs : Simulates Eq as bs) :
    Simulates (Like L)
      (x >>= fun o => o.elim (pure none) fun r => do
        let vs ← as
        L.plain <$> L.call r.this r.value vs)
      (y >>= fun o => o.elim (pure none) fun r => do
        let vs ← bs
        L.plain <$> L.call r.this r.value vs) := by
  refine h.bind fun o o' hlike => ?_
  cases hlike with
  | cut => exact .pure .cut
  | same r =>
      refine hargs.bind fun vs _ hvs => ?_
      subst hvs
      exact .refl .refl _
  | bare this hb =>
      refine hargs.bind fun vs _ hvs => ?_
      subst hvs
      exact plain_run (hb this vs) id
  | short this => exact (Throws.after fun vs => (hL.call this vs).bind).simulates

theorem binary_run (op : BinOp) (h : Simulates (Like L) x y)
    {r r' : Fallible S E (Option (Reference V))} (hr : Simulates (Like L) r r') :
    Simulates (Like L)
      (do
        let l ← L.value <$> x
        (L.stops op l).elim
          (do
            let v ← L.value <$> r
            L.plain <$> L.binary op l v)
          fun stop => if stop then pure (L.plain l) else (fun o => L.plain (L.value o)) <$> r)
      (do
        let l ← L.value <$> y
        (L.stops op l).elim
          (do
            let v ← L.value <$> r'
            L.plain <$> L.binary op l v)
          fun stop => if stop then pure (L.plain l)
            else (fun o => L.plain (L.value o)) <$> r') := by
  refine (value_run h).bind fun l _ hl => ?_
  subst hl
  rcases L.stops op l with _ | _ | _
  · refine (value_run hr).bind fun v _ hv => ?_
    subst hv
    exact .refl .refl _
  · exact hr.map fun o o' hlike => hlike.value_eq ▸ .same _
  · exact .refl .refl _

theorem cond_run (h : Simulates (Like L) x y) {c c' d d' : Fallible S E (Option (Reference V))}
    (hc : Simulates (Like L) c c') (hd : Simulates (Like L) d d') :
    Simulates (Like L)
      (do
        let t ← L.value <$> x
        if L.toBoolean t then (fun o => L.plain (L.value o)) <$> c
        else (fun o => L.plain (L.value o)) <$> d)
      (do
        let t ← L.value <$> y
        if L.toBoolean t then (fun o => L.plain (L.value o)) <$> c'
        else (fun o => L.plain (L.value o)) <$> d') := by
  refine (value_run h).bind fun t _ ht => ?_
  subst ht
  split
  · exact hc.map fun o o' hlike => hlike.value_eq ▸ .same _
  · exact hd.map fun o o' hlike => hlike.value_eq ▸ .same _

end Forms

/-! ### Written out -/

/-- What `c` reads may be written out as `v`, wherever that is run. -/
def Stands (L : Language F (Fallible S E) V) (c : Fallible S E V) (v : RawExpr F) : Prop :=
  ∀ env, Simulates (fun x o => Like L (L.plain x) o) c (L.run env v)

theorem Stands.run {c : Fallible S E V} {v : RawExpr F} (h : Stands L c v)
    (env : Env (Fallible S E) V) : Simulates (Like L) (L.plain <$> c) (L.run env v) := by
  intro s o s' ho
  obtain ⟨x, t, hx, hpure⟩ := Fallible.bind_eq_ok ho
  cases hpure
  exact h env s x s' hx

section Subst
variable {M : Scope F} {env : Env (Fallible S E) V} {val : String → Chained (RawExpr F)}
  (hL : Strict L) (hval : ∀ name r, val name = some r → Stands L (env name .localName) r.1)
  (himported : ∀ source imported v, M.imported source imported = some v →
    ∀ name, Stands L (env name (.imported source imported)) v)

include hL hval himported

mutual

/-- An initializer with its constants written out, one case for each form. -/
theorem subst_run : ∀ (e : RawExpr F) (r : RawExpr F × ℕ), M.subst val e = some r →
    ∀ env', Simulates (Like L) (L.run env e) (L.run env' r.1)
  | .lit l, r, h, _ => by
      cases h
      exact .refl .refl _
  | .ident name kind, r, h, env' => by
      cases kind with
      | localName => exact (hval name r h).run env'
      | imported source imported =>
          obtain ⟨v, hv, hr⟩ := Option.bind_eq_some_iff.mp h
          cases hr
          exact (himported source imported v hv name).run env'
      | _ => cases h
  | .member target name optional, r, h, env' => by
      obtain ⟨t, b, ht, hb, rfl⟩ := Chained.andThen_eq h
      cases hb
      exact member_run hL (subst_run target t ht env') name optional
  | .index target i, r, h, env' => by
      cases i with
      | lit l =>
          obtain ⟨t, b, ht, hb, rfl⟩ := Chained.andThen_eq h
          cases hb
          exact index_run hL (subst_run target t ht env') (.refl .refl _)
      | _ => cases h
  | .unary op value, r, h, env' => by
      cases op with
      | not =>
          obtain ⟨v, b, hv, hb, rfl⟩ := Chained.andThen_eq h
          cases hb
          refine plain_run (f := id) ?_
          exact (value_run (subst_run value v hv env')).map fun _ _ heq => heq ▸ rfl
      | neg =>
          obtain ⟨v, b, hv, hb, rfl⟩ := Chained.andThen_eq h
          cases hb
          refine plain_run (f := id) ?_
          exact (value_run (subst_run value v hv env')).bind fun _ _ heq =>
            heq ▸ .refl (fun _ => rfl) _
      | _ => cases h
  | .binary op left right, r, h, env' => by
      obtain ⟨l, c, hl, hc, rfl⟩ := Chained.andThen_eq h
      obtain ⟨r, b, hr, hb, rfl⟩ := Chained.andThen_eq hc
      cases hb
      exact binary_run op (subst_run left l hl env') (subst_run right r hr env')
  | .cond test yes no, r, h, env' => by
      obtain ⟨t, c, ht, hc, rfl⟩ := Chained.andThen_eq h
      obtain ⟨y, d, hy, hd, rfl⟩ := Chained.andThen_eq hc
      obtain ⟨n, b, hn, hb, rfl⟩ := Chained.andThen_eq hd
      cases hb
      exact cond_run (subst_run test t ht env') (subst_run yes y hy env') (subst_run no n hn env')
  | .template head parts, r, h, env' => by
      obtain ⟨ps, b, hps, hb, rfl⟩ := Chained.andThen_eq h
      cases hb
      exact plain_run (substParts_run parts ps hps env') _
  | .array items, r, h, env' => by
      obtain ⟨es, b, hes, hb, rfl⟩ := Chained.andThen_eq h
      cases hb
      exact (substAll_run items es hes env').bind fun _ _ heq => heq ▸ .refl .refl _
  | .object props, r, h, env' => by
      obtain ⟨ps, b, hps, hb, rfl⟩ := Chained.andThen_eq h
      cases hb
      exact (substProps_run props ps hps env').bind fun _ _ heq => heq ▸ .refl .refl _

theorem substAll_run : ∀ (es : List (RawExpr F)) (r : List (RawExpr F) × ℕ),
    M.substAll val es = some r → ∀ env', Simulates Eq (L.runAll env es) (L.runAll env' r.1)
  | [], r, h, _ => by
      cases h
      exact .refl (fun _ => rfl) _
  | e :: es, r, h, env' => by
      obtain ⟨v, c, hv, hc, rfl⟩ := Chained.andThen_eq h
      obtain ⟨vs, b, hvs, hb, rfl⟩ := Chained.andThen_eq hc
      cases hb
      refine (value_run (subst_run e v hv env')).bind fun a _ ha => ?_
      subst ha
      exact (substAll_run es vs hvs env').map fun _ _ heq => heq ▸ rfl

theorem substParts_run : ∀ (ps : List (RawExpr F × String)) (r : List (RawExpr F × String) × ℕ),
    M.substParts val ps = some r → ∀ env', Simulates Eq (L.runParts env ps) (L.runParts env' r.1)
  | [], r, h, _ => by
      cases h
      exact .refl (fun _ => rfl) _
  | (e, tail) :: ps, r, h, env' => by
      obtain ⟨v, c, hv, hc, rfl⟩ := Chained.andThen_eq h
      obtain ⟨vs, b, hvs, hb, rfl⟩ := Chained.andThen_eq hc
      cases hb
      refine (value_run (subst_run e v hv env')).bind fun a _ ha => ?_
      subst ha
      refine .bind (.refl (fun _ => rfl) _) fun t _ ht => ?_
      subst ht
      exact (substParts_run ps vs hvs env').map fun _ _ heq => heq ▸ rfl

theorem substProps_run : ∀ (ps : List (String × RawExpr F)) (r : List (String × RawExpr F) × ℕ),
    M.substProps val ps = some r → ∀ env', Simulates Eq (L.runProps env ps) (L.runProps env' r.1)
  | [], r, h, _ => by
      cases h
      exact .refl (fun _ => rfl) _
  | (k, e) :: ps, r, h, env' => by
      obtain ⟨v, c, hv, hc, rfl⟩ := Chained.andThen_eq h
      obtain ⟨vs, b, hvs, hb, rfl⟩ := Chained.andThen_eq hc
      cases hb
      refine (value_run (subst_run e v hv env')).bind fun a _ ha => ?_
      subst ha
      exact (substProps_run ps vs hvs env').map fun _ _ heq => heq ▸ rfl

end

end Subst

/-! ### Modules -/

/-- What the modules of a project read once they are loaded: a constant that folds, and that is not
mutated or is primitive, what its initializer gives, in any state, so that a value has no identity
of its own; and an import what the module behind it exports. -/
structure Loaded (P : Project F) (L : Language F (Fallible S E) V)
    (envs : String → Env (Fallible S E) V) : Prop where
  const {path : String} {md : Module F} {shadowed : String → Bool} {n : ℕ} {name : String}
    {r : RawExpr F × ℕ} {cv : ConstVal F} (hread : P.read path = some md)
    (hfolds : (P.scope md shadowed n path).plain name = some r)
    (hcv : (P.scope md shadowed n path).all name = some cv)
    (hkept : cv.mutated = false ∨ primitive r.1 = true) :
    envs path name .localName = L.eval (envs path) cv.value
  bare {path : String} {md : Module F} {shadowed : String → Bool} {n : ℕ} {name : String}
    {r : RawExpr F × ℕ} (hread : P.read path = some md)
    (hfolds : (P.scope md shadowed n path).plain name = some r) {s s' : S} {x : V}
    (hx : envs path name .localName s = (.ok x, s')) : Bare L x
  imported {path source path' imported local' : String} {md : Module F}
    (hpath : P.resolve path source = some path') (hread : P.read path' = some md)
    (hexported : md.exported imported = some local') (name : String) :
    envs path name (.imported source imported) = envs path' local' .localName

section Modules
variable {P : Project F} {envs : String → Env (Fallible S E) V}
  (hL : Strict L) (hP : Loaded P L envs)

include hL hP

/-- A constant of a module, where the module's imports may be written out. -/
theorem plain_stands {path : String} {md : Module F} {shadowed : String → Bool} {n : ℕ}
    (hread : P.read path = some md)
    (himported : ∀ source imported v, P.importedConst n path source imported = some v →
      ∀ name, Stands L (envs path name (.imported source imported)) v)
    {name : String} {r : RawExpr F × ℕ} (h : (P.scope md shadowed n path).plain name = some r) :
    Stands L (envs path name .localName) r.1 := by
  have hvalue : ∀ k name r, (P.scope md shadowed n path).value k name = some r →
      Stands L (envs path name .localName) r.1 := by
    intro k
    induction k with
    | zero => exact fun name r hr => by cases hr
    | succ k ih =>
        intro name r hr env s x s' hx
        have hplain := Scope.plain_of_value hr
        obtain ⟨-, cv, c, hcv, hs, hkeeps, -⟩ := Scope.step_eq_some.mp hr
        have hkept : cv.mutated = false ∨ primitive r.1 = true := by
          simp only [Scope.keeps, Bool.and_eq_true, Bool.or_eq_true, Bool.not_eq_true'] at hkeeps
          exact hkeeps.1.2
        have hbare := hP.bare hread hplain hx
        rw [hP.const hread hplain hcv hkept] at hx
        obtain ⟨o, t, ho, hpure⟩ := Fallible.bind_eq_ok hx
        cases hpure
        obtain ⟨o', ho', hlike⟩ := subst_run hL ih himported cv.value (r.1, c) hs env s o s' ho
        exact ⟨o', ho', hlike.read hbare⟩
  exact hvalue FOLD_DEPTH name r h

/-- What a module imports, at any depth. -/
theorem importedConst_stands (n : ℕ) (path source imported : String) (v : RawExpr F)
    (h : P.importedConst n path source imported = some v) (name : String) :
    Stands L (envs path name (.imported source imported)) v := by
  induction n generalizing path source imported v name with
  | zero => cases h
  | succ n ih =>
      obtain ⟨path', hpath, h⟩ := Option.bind_eq_some_iff.mp h
      obtain ⟨md, hread, h⟩ := Option.bind_eq_some_iff.mp h
      obtain ⟨name', hexported, h⟩ := Option.bind_eq_some_iff.mp h
      have hv := (Option.filter_eq_some_iff.mp h).1
      have hresolved := Scope.resolve_toOption (M := P.scope md (fun _ => false) n path') .new name'
      obtain ⟨r, hr, rfl⟩ := Option.map_eq_some_iff.mp (hresolved.symm.trans hv)
      rw [hP.imported hpath hread hexported name]
      exact plain_stands hL hP hread (ih path') hr

end Modules

/-! ### Components -/

/-- What an identifier reads may be written out as `v`, also below `typeof`. -/
structure Written (L : Language F (Fallible S E) V) (env : Env (Fallible S E) V) (name : String)
    (kind : IdentKind) (v : RawExpr F) : Prop where
  stands : Stands L (env name kind) v
  composite (name' : String) (kind' : IdentKind) : v ≠ .ident name' kind'
  declared : L.typeofName env name kind = env name kind >>= L.unary .typeof

section MapIdents
variable {f : String → IdentKind → Option (RawExpr F)} {env : Env (Fallible S E) V}

omit [Floating F] in
theorem mapIdents_ident (name : String) (kind : IdentKind) :
    mapIdents f (.ident name kind) = (f name kind).getD (.ident name kind) := rfl

/-- Below `typeof`, which does not read a name that is not declared. -/
theorem typeof_run (name : String) (kind : IdentKind)
    (hf : ∀ v, f name kind = some v → Written L env name kind v) :
    Simulates Eq (L.typeofName env name kind)
      (L.applyUnary env .typeof (mapIdents f (.ident name kind))
        (L.value <$> L.run env (mapIdents f (.ident name kind)))) := by
  rw [mapIdents_ident]
  cases hv : f name kind with
  | none => exact .refl (fun _ => rfl) _
  | some v =>
      obtain ⟨hstands, hcomposite, hdeclared⟩ := hf v hv
      have hread : Simulates Eq (env name kind) (L.value <$> L.run env v) := by
        have h := value_run (hstands.run env)
        rwa [← comp_map, show L.value ∘ L.plain = id from rfl, id_map] at h
      have hother : L.applyUnary env .typeof v (L.value <$> L.run env v) =
          L.value <$> L.run env v >>= L.unary .typeof := by
        cases v with
        | ident name' kind' => exact absurd rfl (hcomposite name' kind')
        | _ => rfl
      rw [hdeclared, Option.getD_some, hother]
      exact hread.bind fun _ _ heq => heq ▸ .refl (fun _ => rfl) _

/-- An operator on an operand with its identifiers written out. -/
theorem applyUnary_run (op : UnOp) (e : RawExpr F)
    (hf : ∀ p ∈ e.visitIdents, ∀ v, f p.1 p.2 = some v → Written L env p.1 p.2 v)
    (h : Simulates (Like L) (L.run env e) (L.run env (mapIdents f e))) :
    Simulates Eq (L.applyUnary env op e (L.value <$> L.run env e))
      (L.applyUnary env op (mapIdents f e) (L.value <$> L.run env (mapIdents f e))) := by
  have hbind : ∀ k : V → Fallible S E V, Simulates Eq (L.value <$> L.run env e >>= k)
      (L.value <$> L.run env (mapIdents f e) >>= k) := fun k =>
    (value_run h).bind fun _ _ heq => heq ▸ .refl (fun _ => rfl) _
  cases op with
  | not => exact (value_run h).map fun _ _ heq => heq ▸ rfl
  | neg | pos => exact hbind _
  | typeof =>
      cases e with
      | ident name kind => exact typeof_run name kind (hf (name, kind) List.mem_cons_self)
      | _ => exact hbind _

variable (hL : Strict L)

include hL

mutual

/-- An expression with identifiers written out, one case for each form. -/
theorem mapIdents_run : ∀ e : RawExpr F,
    (∀ p ∈ e.visitIdents, ∀ v, f p.1 p.2 = some v → Written L env p.1 p.2 v) →
      Simulates (Like L) (L.run env e) (L.run env (mapIdents f e))
  | .lit _, _ | .arrow _ _ _, _ | .block _ _ _, _ | .jsx, _ | .opaqueJs _ _ _, _ =>
      .refl .refl _
  | .ident name kind, hf => by
      rw [mapIdents_ident]
      cases hv : f name kind with
      | none => exact .refl .refl _
      | some v => exact (hf (name, kind) List.mem_cons_self v hv).stands.run env
  | .member target name optional, hf => member_run hL (mapIdents_run target hf) name optional
  | .index target i, hf =>
      index_run hL (mapIdents_run target fun p hp => hf p (List.mem_append_left _ hp))
        (mapIdents_run i fun p hp => hf p (List.mem_append_right _ hp))
  | .unary op value, hf =>
      plain_run (applyUnary_run op value hf (mapIdents_run value hf)) id
  | .binary op left right, hf =>
      binary_run op (mapIdents_run left fun p hp => hf p (List.mem_append_left _ hp))
        (mapIdents_run right fun p hp => hf p (List.mem_append_right _ hp))
  | .cond test yes no, hf =>
      cond_run
        (mapIdents_run test fun p hp => hf p (List.mem_append_left _ (List.mem_append_left _ hp)))
        (mapIdents_run yes fun p hp => hf p (List.mem_append_left _ (List.mem_append_right _ hp)))
        (mapIdents_run no fun p hp => hf p (List.mem_append_right _ hp))
  | .template head parts, hf => plain_run (mapParts_run parts hf) _
  | .call callee args, hf =>
      call_run hL (mapIdents_run callee fun p hp => hf p (List.mem_append_left _ hp))
        (mapAll_run args fun p hp => hf p (List.mem_append_right _ hp))
  | .array items, hf => (mapAll_run items hf).bind fun _ _ heq => heq ▸ .refl .refl _
  | .object props, hf => (mapProps_run props hf).bind fun _ _ heq => heq ▸ .refl .refl _

theorem mapAll_run : ∀ es : List (RawExpr F),
    (∀ p ∈ RawExpr.visitIdents.visitAll es, ∀ v, f p.1 p.2 = some v → Written L env p.1 p.2 v) →
      Simulates Eq (L.runAll env es) (L.runAll env (mapPreAll (identsOnly f) es))
  | [], _ => .refl (fun _ => rfl) _
  | e :: es, hf => by
      refine (value_run (mapIdents_run e fun p hp => hf p (List.mem_append_left _ hp))).bind
        fun a _ ha => ?_
      subst ha
      exact (mapAll_run es fun p hp => hf p (List.mem_append_right _ hp)).map
        fun _ _ heq => heq ▸ rfl

theorem mapParts_run : ∀ ps : List (RawExpr F × String),
    (∀ p ∈ RawExpr.visitIdents.visitParts ps, ∀ v, f p.1 p.2 = some v → Written L env p.1 p.2 v) →
      Simulates Eq (L.runParts env ps) (L.runParts env (mapPreParts (identsOnly f) ps))
  | [], _ => .refl (fun _ => rfl) _
  | (e, tail) :: ps, hf => by
      refine (value_run (mapIdents_run e fun p hp => hf p (List.mem_append_left _ hp))).bind
        fun a _ ha => ?_
      subst ha
      refine .bind (.refl (fun _ => rfl) _) fun t _ ht => ?_
      subst ht
      exact (mapParts_run ps fun p hp => hf p (List.mem_append_right _ hp)).map
        fun _ _ heq => heq ▸ rfl

theorem mapProps_run : ∀ ps : List (String × RawExpr F),
    (∀ p ∈ RawExpr.visitIdents.visitProps ps, ∀ v, f p.1 p.2 = some v → Written L env p.1 p.2 v) →
      Simulates Eq (L.runProps env ps) (L.runProps env (mapPreProps (identsOnly f) ps))
  | [], _ => .refl (fun _ => rfl) _
  | (k, e) :: ps, hf => by
      refine (value_run (mapIdents_run e fun p hp => hf p (List.mem_append_left _ hp))).bind
        fun a _ ha => ?_
      subst ha
      exact (mapProps_run ps fun p hp => hf p (List.mem_append_right _ hp)).map
        fun _ _ heq => heq ▸ rfl

end

end MapIdents

/-! ### Folded components -/

/-- What the body of a component reads: the module's names where it shadows none, which are all
declared. -/
structure Reads (L : Language F (Fallible S E) V) (envs : String → Env (Fallible S E) V)
    (path : String) (shadowed : String → Bool) (env : Env (Fallible S E) V) : Prop where
  localName {name : String} (h : shadowed name = false) :
    env name .localName = envs path name .localName
  imported {name : String} (h : shadowed name = false) (source imported : String) :
    env name (.imported source imported) = envs path name (.imported source imported)
  typeofLocal {name : String} (h : shadowed name = false) :
    L.typeofName env name .localName = env name .localName >>= L.unary .typeof
  typeofImported {name : String} (h : shadowed name = false) (source imported : String) :
    L.typeofName env name (.imported source imported) =
      env name (.imported source imported) >>= L.unary .typeof

section Fold
variable {P : Project F}

omit [Floating F] in
theorem ne_ident_of_primitive {v : RawExpr F} (h : primitive v = true) (name : String)
    (kind : IdentKind) : v ≠ .ident name kind := by
  rintro rfl
  cases h

omit [Floating F] in
theorem importedConst_primitive {n : ℕ} {path source imported : String} {v : RawExpr F}
    (h : P.importedConst n path source imported = some v) : primitive v = true := by
  cases n with
  | zero => cases h
  | succ n =>
      obtain ⟨path', -, h⟩ := Option.bind_eq_some_iff.mp h
      obtain ⟨md, -, h⟩ := Option.bind_eq_some_iff.mp h
      obtain ⟨name, -, h⟩ := Option.bind_eq_some_iff.mp h
      exact (Option.filter_eq_some_iff.mp h).2

omit [Floating F] in
/-- No name is left over where a name was. -/
theorem subst_ne_ident {M : Scope F} {val : String → Chained (RawExpr F)}
    (hval : ∀ name r, val name = some r → ∀ name' kind, r.1 ≠ .ident name' kind)
    (himported : ∀ source imported v, M.imported source imported = some v →
      ∀ name kind, v ≠ .ident name kind) :
    ∀ (e : RawExpr F) (r : RawExpr F × ℕ), M.subst val e = some r →
      ∀ name kind, r.1 ≠ .ident name kind := by
  intro e r h name kind
  cases e with
  | lit l =>
      cases h
      exact nofun
  | ident name' kind' =>
      cases kind' with
      | localName => exact hval name' r h name kind
      | imported source imported =>
          obtain ⟨v, hv, hr⟩ := Option.bind_eq_some_iff.mp h
          cases hr
          exact himported source imported v hv name kind
      | _ => cases h
  | member target _ _ | template _ target | array target | object target =>
      obtain ⟨t, b, -, hb, rfl⟩ := Chained.andThen_eq h
      cases hb
      exact nofun
  | index target i =>
      cases i with
      | lit l =>
          obtain ⟨t, b, -, hb, rfl⟩ := Chained.andThen_eq h
          cases hb
          exact nofun
      | _ => cases h
  | unary op value =>
      cases op with
      | not | neg =>
          obtain ⟨v, b, -, hb, rfl⟩ := Chained.andThen_eq h
          cases hb
          exact nofun
      | _ => cases h
  | binary op left right =>
      obtain ⟨l, c, -, hc, rfl⟩ := Chained.andThen_eq h
      obtain ⟨r, b, -, hb, rfl⟩ := Chained.andThen_eq hc
      cases hb
      exact nofun
  | cond test yes no =>
      obtain ⟨t, c, -, hc, rfl⟩ := Chained.andThen_eq h
      obtain ⟨y, d, -, hd, rfl⟩ := Chained.andThen_eq hc
      obtain ⟨n, b, -, hb, rfl⟩ := Chained.andThen_eq hd
      cases hb
      exact nofun
  | _ => cases h

omit [Floating F] in
theorem plain_ne_ident {md : Module F} {shadowed : String → Bool} {n : ℕ} {path name : String}
    {r : RawExpr F × ℕ} (h : (P.scope md shadowed n path).plain name = some r) (name' : String)
    (kind : IdentKind) : r.1 ≠ .ident name' kind := by
  have hvalue : ∀ k name r, (P.scope md shadowed n path).value k name = some r →
      ∀ name' kind, r.1 ≠ .ident name' kind := by
    intro k
    induction k with
    | zero => exact fun name r hr => by cases hr
    | succ k ih =>
        intro name r hr
        obtain ⟨-, cv, c, -, hs, -⟩ := Scope.step_eq_some.mp hr
        exact subst_ne_ident ih
          (fun source imported v hv => ne_ident_of_primitive (importedConst_primitive hv)) cv.value
          (r.1, c) hs
  exact hvalue FOLD_DEPTH name r h name' kind

omit [Floating F] in
/-- Where a name folds as an import, one of the imports with this name does. -/
theorem importedVals_eq_some {shadowed : String → Bool} {path name : String}
    {imports : List (String × String × String)} {v : RawExpr F}
    (h : P.importedVals shadowed path imports name = some v) :
    shadowed name = false ∧ ∃ source imported, (name, source, imported) ∈ imports ∧
      P.importedConst FOLD_DEPTH path source imported = some v := by
  obtain ⟨⟨name', source, imported⟩, hmem, hv⟩ := List.exists_of_findSome?_eq_some h
  dsimp only at hv
  split at hv
  · next hname =>
    subst hname
    rw [Project.noted] at hv
    split at hv
    · cases hv
    · next hshadowed =>
      exact ⟨Bool.eq_false_iff.mpr hshadowed, source, imported, List.mem_reverse.mp hmem,
        (Option.filter_eq_some_iff.mp hv).1⟩
  · cases hv

/-- **Folding constants keeps the meaning.** Where the modules are loaded, and each import that the
expression names has one source, what is folded ends in the value that the expression ends in. -/
theorem foldConsts_eval {envs : String → Env (Fallible S E) V} (hL : Strict L)
    (hP : Loaded P L envs) {path : String} {md : Module F} (hread : P.read path = some md)
    {shadowed : String → Bool} {env : Env (Fallible S E) V}
    (henv : Reads L envs path shadowed env) {imports : List (String × String × String)}
    {e : RawExpr F}
    (hone : ∀ name source imported, (name, .imported source imported) ∈ e.visitIdents →
      ∀ i ∈ imports, i.1 = name → i.2 = (source, imported))
    {s s' : S} {x : V} (h : L.eval env e s = (.ok x, s')) :
    L.eval env (P.foldConsts path md shadowed imports e) s = (.ok x, s') := by
  have himported := importedConst_stands hL hP FOLD_DEPTH path
  have hf : ∀ p ∈ e.visitIdents, ∀ v,
      foldIdent (P.scope md shadowed FOLD_DEPTH path).foldAll (P.importedVals shadowed path imports)
        p.1 p.2 = some v → Written L env p.1 p.2 v := by
    rintro ⟨name, kind⟩ hp v hv
    cases kind with
    | localName =>
        obtain ⟨r, hr, rfl⟩ :=
          Option.map_eq_some_iff.mp ((Scope.foldAll_eq_plain name).symm.trans hv)
        have hshadowed : shadowed name = false :=
          (Scope.step_eq_some.mp ((Scope.step_plain name).trans hr)).1
        refine ⟨?_, plain_ne_ident hr, henv.typeofLocal hshadowed⟩
        rw [henv.localName hshadowed]
        exact plain_stands hL hP hread himported hr
    | imported source imported =>
        obtain ⟨hshadowed, source', imported', hmem, hv⟩ := importedVals_eq_some hv
        cases hone name source imported hp _ hmem rfl
        refine ⟨?_, ne_ident_of_primitive (importedConst_primitive hv),
          henv.typeofImported hshadowed source imported⟩
        rw [henv.imported hshadowed]
        exact himported source imported v hv name
    | _ => cases hv
  obtain ⟨x', hx', rfl⟩ := value_run (mapIdents_run hL e hf) s x s' h
  exact hx'

end Fold

end Meaning

/-! ### A project of two modules -/

/-- A language of literals that adds numbers and joins strings. -/
def adding : Language Int (Fallible Unit String) (Literal Int) where
  literal := id
  toBoolean := Literal.toBoolean
  nullish := Literal.nullish
  member _ _ := .fail "member"
  index _ _ := .fail "index"
  call _ _ _ := .fail "call"
  binary
    | .add, .num a, .num b => pure (.num (a + b))
    | .add, .str a, .str b => pure (.str (a ++ b))
    | _, _, _ => .fail "operator"
  unary _ _ := .fail "operator"
  typeofName _ _ _ := .fail "operator"
  text _ := .fail "text"
  array _ := .fail "array"
  object _ := .fail "object"
  code _ _ := .fail "code"
  toBoolean_literal _ := rfl
  nullish_literal _ := rfl

/-- `export const size = 4` and `export const unit = "px"`, of whose uses one is not proven a
read. -/
def theme : Module Int where
  consts := [⟨"size", .lit (.num 4), false⟩, ⟨"unit", .lit (.str "px"), true⟩]
  exported name := if name = "size" ∨ name = "unit" then some name else none

def themeRead (name : String) : RawExpr Int := .ident name (.imported "./theme" name)

/-- `const double = size + size`, of an imported `size`. -/
def page : Module Int where
  consts := [⟨"double", .binary .add (themeRead "size") (themeRead "size"), false⟩]
  exported _ := none

def shop : Project Int where
  resolve _ source := if source = "./theme" then some "theme" else none
  read path := if path = "page" then some page else if path = "theme" then some theme else none
  jinjaLen _ := 0

def shopEnvs (path : String) : Env (Fallible Unit String) (Literal Int)
  | name, .localName =>
    pure (if path = "page" then .num 8 else if name = "size" then .num 4 else .str "px")
  | _, .imported _ imported => pure (if imported = "size" then .num 4 else .str "px")
  | _, _ => pure .undefined

theorem shop_loaded : Loaded shop adding shopEnvs := by
  have hconst : ∀ path md, shop.read path = some md → ∀ cv ∈ md.consts,
      shopEnvs path cv.name .localName = adding.eval (shopEnvs path) cv.value := by
    intro path md hread cv hcv
    unfold shop at hread
    dsimp only at hread
    split at hread
    · next hpath =>
      cases hread
      obtain rfl := List.mem_singleton.mp hcv
      subst hpath
      rfl
    · split at hread
      · next hpath =>
        cases hread
        subst hpath
        obtain rfl | hcv := List.mem_cons.mp hcv
        · rfl
        · obtain rfl := List.mem_singleton.mp hcv
          rfl
      · cases hread
  have hbare : ∀ v, Bare adding v := fun _ _ _ => .refl (fun _ => rfl) _
  refine ⟨fun hread _ hcv _ => ?_, by intros; exact hbare _, fun hpath hread hexported name => ?_⟩
  · obtain ⟨hmem, rfl⟩ := Scope.all_eq_some hcv
    exact hconst _ _ hread _ hmem
  · unfold shop at hpath
    dsimp only at hpath
    split at hpath
    · cases hpath
      obtain rfl : theme = _ := Option.some.inj hread
      unfold theme at hexported
      dsimp only at hexported
      split at hexported
      · cases hexported
        rfl
      · cases hexported
    · cases hpath

/-- `double + size ? unit + unit : size` on the page. -/
theorem foldConsts_eval_page :
    let e : RawExpr Int := .cond (.binary .add (.ident "double" .localName) (themeRead "size"))
      (.binary .add (themeRead "unit") (themeRead "unit")) (themeRead "size")
    adding.eval (shopEnvs "page") (shop.foldConsts "page" page (fun _ => false)
      [("size", "./theme", "size"), ("unit", "./theme", "unit")] e) () =
        (.ok (.str "pxpx"), ()) := by
  intro e
  have hstrict : Strict adding :=
    ⟨fun _ => .fail _, fun _ => .fail _, fun _ _ => .fail _⟩
  have hreads : Reads adding shopEnvs "page" (fun _ => false) (shopEnvs "page") :=
    ⟨fun _ => rfl, fun _ _ _ => rfl, fun _ => rfl, fun _ _ _ => rfl⟩
  have hone : ∀ p ∈ e.visitIdents, ∀ i ∈ [("size", "./theme", "size"), ("unit", "./theme", "unit")],
      i.1 = p.1 → p.2 = .imported i.2.1 i.2.2 := by decide
  refine foldConsts_eval hstrict shop_loaded rfl hreads
    (fun name source imported hmem i hi hname => ?_) rfl
  cases hone _ hmem i hi hname
  rfl

end Brust.Compiler.ConstFolder
