import Brust.Compiler.Semantics

/-!
# Compiler — Dead arms

`analyze/passes/placement.rs`: what the server template prints for a derived local has `undefined`
for an arm that the server never takes (`dropDeadArms`).  Where every state with a literal initial
value holds it, the printed expression runs as the original does, effect by effect
(`dropDeadArms_eval`).
-/

namespace Brust.Compiler

variable {F : Type} [Floating F]

section Source

/-- `truthy`: JS truthiness of a literal. -/
def truthy : Literal F → Bool
  | .null => false
  | .undefined => false
  | .bool b => b
  | .num n => !Floating.isZero n && !Floating.isNaN n
  | .str s => !s.isEmpty

variable (f : RawExpr F → Option (RawExpr F))

mutual
/-- `map_pre`: `e` rebuilt with `f` applied to every node, outermost first.  A node that `f`
replaces is not visited further; functions, elements and opaque code are left alone. -/
def mapPre (e : RawExpr F) : RawExpr F :=
  (f e).getD <|
    match e with
    | .member target name optional => .member (mapPre target) name optional
    | .index target i => .index (mapPre target) (mapPre i)
    | .unary op value => .unary op (mapPre value)
    | .binary op left right => .binary op (mapPre left) (mapPre right)
    | .cond test yes no => .cond (mapPre test) (mapPre yes) (mapPre no)
    | .template head parts => .template head (mapPreParts parts)
    | .call callee args => .call (mapPre callee) (mapPreAll args)
    | .array items => .array (mapPreAll items)
    | .object props => .object (mapPreProps props)
    | e => e

def mapPreAll : List (RawExpr F) → List (RawExpr F)
  | [] => []
  | e :: es => mapPre e :: mapPreAll es

def mapPreParts : List (RawExpr F × String) → List (RawExpr F × String)
  | [] => []
  | (e, t) :: es => (mapPre e, t) :: mapPreParts es

def mapPreProps : List (String × RawExpr F) → List (String × RawExpr F)
  | [] => []
  | (k, e) :: es => (k, mapPre e) :: mapPreProps es
end

def RawExpr.literal? : RawExpr F → Option (Literal F)
  | .lit l => some l
  | _ => none

variable (inits : String → Option (RawExpr F))

/-- `server_literal`: the value `e` has on the server when that is a literal. -/
def serverLiteral : RawExpr F → Option (Literal F)
  | .lit l => some l
  | .ident name .state => (inits name).bind RawExpr.literal?
  | .unary .not value => (serverLiteral value).map fun l => .bool !truthy l
  | _ => none

/-- Whether an operator with a left operand of this value never takes the right one. -/
def dead : BinOp → Literal F → Bool
  | .and, l => !truthy l
  | .or, l => truthy l
  | .nullish, l => !l.nullish
  | _, _ => false

mutual
/-- `drop_dead_arms`: `map_pre` with a closure that calls the function on the arms it keeps. -/
def dropDeadArms : RawExpr F → RawExpr F
  | .member target name optional => .member (dropDeadArms target) name optional
  | .index target i => .index (dropDeadArms target) (dropDeadArms i)
  | .unary op value => .unary op (dropDeadArms value)
  | .binary op left right =>
      if (serverLiteral inits left).any (dead op) then .binary op left (.lit .undefined)
      else .binary op (dropDeadArms left) (dropDeadArms right)
  | .cond test yes no => (serverLiteral inits test).elim
      (.cond (dropDeadArms test) (dropDeadArms yes) (dropDeadArms no)) fun l =>
        if truthy l then .cond test (dropDeadArms yes) (.lit .undefined)
        else .cond test (.lit .undefined) (dropDeadArms no)
  | .template head parts => .template head (dropParts parts)
  | .call callee args => .call (dropDeadArms callee) (dropAll args)
  | .array items => .array (dropAll items)
  | .object props => .object (dropProps props)
  | e => e

def dropAll : List (RawExpr F) → List (RawExpr F)
  | [] => []
  | e :: es => dropDeadArms e :: dropAll es

def dropParts : List (RawExpr F × String) → List (RawExpr F × String)
  | [] => []
  | (e, t) :: es => (dropDeadArms e, t) :: dropParts es

def dropProps : List (String × RawExpr F) → List (String × RawExpr F)
  | [] => []
  | (k, e) :: es => (k, dropDeadArms e) :: dropProps es
end

end Source

/-! ### What it evaluates to -/

theorem truthy_eq : ∀ l : Literal F, truthy l = l.toBoolean
  | .null | .undefined | .bool _ => rfl
  | .num n => by simp [truthy, Literal.toBoolean]
  | .str s => by
      rw [truthy, Literal.toBoolean, Bool.eq_iff_iff]
      simp

section Value

variable {V : Type} {m : Type → Type} [Monad m] [LawfulMonad m] {L : Language F m V}
  {env : Env m V} {inits : String → Option (RawExpr F)}

/-- Every state with a literal initial value holds it. -/
def Initial (L : Language F m V) (env : Env m V) (inits : String → Option (RawExpr F)) : Prop :=
  ∀ name l, inits name = some (.lit l) → env name .state = pure (L.literal l)

omit [Floating F] in
theorem RawExpr.literal?_eq_some {e : RawExpr F} {l : Literal F} (h : e.literal? = some l) :
    e = .lit l := by
  cases e <;> simp_all [RawExpr.literal?]

/-- What `server_literal` answers is what the expression evaluates to, without an effect. -/
theorem serverLiteral_run (h : Initial L env inits) {e : RawExpr F} :
    ∀ {l : Literal F}, serverLiteral inits e = some l →
      L.run env e = pure (L.plain (L.literal l)) := by
  fun_induction serverLiteral inits e with
  | case1 l =>
      rintro _ ⟨⟩
      rfl
  | case2 name =>
      intro l hl
      obtain ⟨e, he, hl⟩ := Option.bind_eq_some_iff.mp hl
      rw [RawExpr.literal?_eq_some hl] at he
      rw [Language.run, h name l he, map_pure]
  | case3 value ih =>
      intro l hl
      obtain ⟨l', hl', rfl⟩ := Option.map_eq_some_iff.mp hl
      simp [Language.run, Language.applyUnary, ih hl', Language.value, Language.plain,
        L.toBoolean_literal, truthy_eq]
  | case4 => rintro _ ⟨⟩

omit [Monad m] [LawfulMonad m] in
/-- Where the right operand is dead, the operator stops at the left one. -/
theorem stops_of_dead {op : BinOp} {l : Literal F} (h : dead op l = true) :
    L.stops op (L.literal l) = some true := by
  cases op <;> simp_all [dead, Language.stops, L.toBoolean_literal, L.nullish_literal, truthy_eq]

omit [LawfulMonad m] in
/-- A name stays a name, and nothing else becomes one. -/
theorem applyUnary_drop (op : UnOp) (e : RawExpr F) (c : m V) :
    L.applyUnary env op (dropDeadArms inits e) c = L.applyUnary env op e c := by
  cases op with
  | not | neg | pos => rfl
  | typeof =>
    cases e with
    | binary op left right => rw [dropDeadArms]; split <;> rfl
    | cond test yes no =>
        rw [dropDeadArms]
        cases serverLiteral inits test with
        | none => rfl
        | some l => rw [Option.elim_some]; split <;> rfl
    | _ => rfl

mutual
/-- One case for each form: the arms that are dropped are not run, and every other part runs as it
did. -/
theorem dropDeadArms_run (h : Initial L env inits) :
    ∀ e : RawExpr F, L.run env (dropDeadArms inits e) = L.run env e
  | .lit _ | .ident _ _ | .arrow _ _ _ | .block _ _ _ | .jsx | .opaqueJs _ _ _ => rfl
  | .member target _ _ => by
      simp only [dropDeadArms, Language.run, dropDeadArms_run h target]
  | .index target i => by
      simp only [dropDeadArms, Language.run, dropDeadArms_run h target, dropDeadArms_run h i]
  | .unary op value => by
      simp only [dropDeadArms, Language.run, dropDeadArms_run h value, applyUnary_drop]
  | .binary op left right => by
      rw [dropDeadArms]
      split
      case isTrue hd =>
        obtain ⟨l, hl, hd⟩ := (Option.any_eq_true _ _).mp hd
        simp [Language.run, serverLiteral_run h hl, Language.plain, Language.value,
          stops_of_dead hd]
      case isFalse =>
        simp only [Language.run, dropDeadArms_run h left, dropDeadArms_run h right]
  | .cond test yes no => by
      rw [dropDeadArms]
      cases hl : serverLiteral inits test with
      | none =>
          simp only [Option.elim_none, Language.run, dropDeadArms_run h test,
            dropDeadArms_run h yes, dropDeadArms_run h no]
      | some l =>
          have ht : L.value (L.plain (L.literal l)) = L.literal l := rfl
          cases hb : truthy l <;>
            simp [Language.run, serverLiteral_run h hl, ht, L.toBoolean_literal, ← truthy_eq, hb,
              dropDeadArms_run h yes, dropDeadArms_run h no]
  | .template _ parts => by simp only [dropDeadArms, Language.run, dropParts_run h parts]
  | .call callee args => by
      simp only [dropDeadArms, Language.run, dropDeadArms_run h callee, dropAll_run h args]
  | .array items => by simp only [dropDeadArms, Language.run, dropAll_run h items]
  | .object props => by simp only [dropDeadArms, Language.run, dropProps_run h props]

theorem dropAll_run (h : Initial L env inits) :
    ∀ es : List (RawExpr F), L.runAll env (dropAll inits es) = L.runAll env es
  | [] => rfl
  | e :: es => by
      simp only [dropAll, Language.runAll, dropDeadArms_run h e, dropAll_run h es]

theorem dropParts_run (h : Initial L env inits) :
    ∀ es : List (RawExpr F × String), L.runParts env (dropParts inits es) = L.runParts env es
  | [] => rfl
  | (e, _) :: es => by
      simp only [dropParts, Language.runParts, dropDeadArms_run h e, dropParts_run h es]

theorem dropProps_run (h : Initial L env inits) :
    ∀ es : List (String × RawExpr F), L.runProps env (dropProps inits es) = L.runProps env es
  | [] => rfl
  | (_, e) :: es => by
      simp only [dropProps, Language.runProps, dropDeadArms_run h e, dropProps_run h es]
end

/-- **Dropped arms are not missed.** In every environment where the states with a literal initial
value hold it, what the server prints evaluates as the original expression does: to the same value,
with the same effects and throwing where it throws. -/
theorem dropDeadArms_eval (h : Initial L env inits) (e : RawExpr F) :
    L.eval env (dropDeadArms inits e) = L.eval env e := by
  rw [Language.eval, dropDeadArms_run h, Language.eval]

end Value

instance : Floating Int where
  isZero n := n == 0
  isNaN _ := false

/-- A language of literals, where nothing else can be done without a throw. -/
def literals : Language Int (Except String) (Literal Int) where
  literal l := l
  toBoolean := Literal.toBoolean
  nullish := Literal.nullish
  member _ name := .error name
  index _ _ := .error "index"
  call _ _ _ := .error "call"
  binary _ _ _ := .error "operator"
  unary _ _ := .error "operator"
  typeofName _ _ _ := .error "typeof"
  text _ := .error "text"
  array _ := .error "array"
  object _ := .error "object"
  code _ _ := .error "code"
  toBoolean_literal _ := rfl
  nullish_literal _ := rfl

/-- `control ? control.closest("form") : true`, for a state that starts as `null`. -/
theorem dropDeadArms_eval_control :
    let env : Env (Except String) (Literal Int) := fun _ _ => pure .null
    let e : RawExpr Int := .cond (.ident "control" .state)
      (.call (.member (.ident "control" .state) "closest" false) [.lit (.str "form")])
      (.lit (.bool true))
    literals.eval env (dropDeadArms (fun _ => some (.lit .null)) e) = literals.eval env e :=
  dropDeadArms_eval (fun _ _ h => by cases h; rfl) _

end Brust.Compiler
