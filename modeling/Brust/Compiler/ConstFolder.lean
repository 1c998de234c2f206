import Brust.Compiler.Expr
import Brust.Support.Fallible
import Mathlib.Data.List.Perm.Subperm

/-!
# Compiler — Substituting constants

`Folder` of `analyze/const_fold.rs`: the constants of a module with their values substituted, by a
depth-first walk that remembers what it resolved, refuses what it is in the middle of, and counts
the longest chain of constants behind a value.

A value does not depend on what was resolved before, nor on where the walk started: it is that of a
recursion that remembers nothing and knows no path (`resolve_eq_plain`).  So a constant folds from
everywhere or from nowhere, and a cycle folds from nowhere.
-/

namespace Brust.Compiler.ConstFolder

/-! ### The folder -/

structure ConstVal (F : Type) where
  name : String
  value : RawExpr F
  /-- There is a use that is not a proven read. -/
  mutated : Bool

/-- Deepest chain of constants that one fold follows. -/
def FOLD_DEPTH : ℕ := 16

def FOLD_MAX_JINJA : ℕ := 8 * 1024

/-- A value that cannot be an array or an object. -/
def primitive {F : Type} : RawExpr F → Bool
  | .lit _ | .template _ _ | .unary _ _ => true
  | .binary op _ _ => op ∉ [.and, .or, .nullish]
  | _ => false

/-- What a fold knows of the module that it runs in. -/
structure Scope (F : Type) where
  consts : List (ConstVal F)
  /-- Shadowed in the body of a component. -/
  excluded : String → Bool
  imported : String → String → Option (RawExpr F)
  /-- The length of an expression as a template prints it. -/
  jinjaLen : RawExpr F → ℕ

/-- `done`: the values with the length of the chain behind each, and the failures. -/
structure Folder (F : Type) where
  done : List (String × Option (RawExpr F × ℕ))
  path : List String
  chain : ℕ

variable {F : Type}

def Folder.new : Folder F := ⟨[], [], 0⟩

abbrev Fold (F : Type) := Fallible (Folder F) Unit

namespace Scope

variable (M : Scope F)

def names : List String := M.consts.map ConstVal.name

/-- Of constants with one name, the last. -/
def all (name : String) : Option (ConstVal F) := M.consts.reverse.find? (·.name = name)

/-- Is a value folded, behind a chain of this length? -/
def keeps (cv : ConstVal F) (v : RawExpr F) (depth : ℕ) : Bool :=
  depth ≤ FOLD_DEPTH && (!cv.mutated || primitive v) && M.jinjaLen v ≤ FOLD_MAX_JINJA

section Substitute
variable (resolve : String → Fold F (RawExpr F))

mutual

def substitute : RawExpr F → Fold F (RawExpr F)
  | .lit l => pure (.lit l)
  | .ident name .localName => resolve name
  | .ident _ (.imported source name) =>
    Fallible.ofExcept ((M.imported source name).elim (.error ()) .ok)
  | .member target name optional => do
    let t ← substitute target
    pure (.member t name optional)
  | .index target (.lit l) => do
    let t ← substitute target
    pure (.index t (.lit l))
  | .unary .not value => do
    let v ← substitute value
    pure (.unary .not v)
  | .unary .neg value => do
    let v ← substitute value
    pure (.unary .neg v)
  | .binary op left right => do
    let l ← substitute left
    let r ← substitute right
    pure (.binary op l r)
  | .cond test yes no => do
    let t ← substitute test
    let y ← substitute yes
    let n ← substitute no
    pure (.cond t y n)
  | .template head parts => do
    let ps ← substituteParts parts
    pure (.template head ps)
  | .array items => do
    let es ← substituteAll items
    pure (.array es)
  | .object props => do
    let ps ← substituteProps props
    pure (.object ps)
  | _ => Fallible.fail ()

def substituteAll : List (RawExpr F) → Fold F (List (RawExpr F))
  | [] => pure []
  | e :: es => do
    let v ← substitute e
    let vs ← substituteAll es
    pure (v :: vs)

def substituteParts : List (RawExpr F × String) → Fold F (List (RawExpr F × String))
  | [] => pure []
  | (e, tail) :: parts => do
    let v ← substitute e
    let ps ← substituteParts parts
    pure ((v, tail) :: ps)

def substituteProps : List (String × RawExpr F) → Fold F (List (String × RawExpr F))
  | [] => pure []
  | (k, e) :: props => do
    let v ← substitute e
    let ps ← substituteProps props
    pure ((k, v) :: ps)

end

end Substitute

/-- A constant, where the path leaves as many names as the fuel. -/
def resolveAt : ℕ → String → Fold F (RawExpr F)
  | 0, _ => Fallible.fail ()
  | n + 1, name => fun σ =>
    match σ.done.lookup name with
    | some none => (.error (), σ)
    | some (some (value, depth)) => (.ok value, { σ with chain := max σ.chain depth })
    | none =>
      -- A cycle is not remembered.
      if M.excluded name || name ∈ σ.path then (.error (), σ)
      else
        match M.all name with
        | none => (.error (), σ)
        | some cv =>
          let out := M.substitute (resolveAt n) cv.value
            { σ with path := name :: σ.path, chain := 0 }
          let depth := out.2.chain + 1
          let value := out.1.toOption.filter fun v => M.keeps cv v depth
          (value.elim (.error ()) .ok,
            { done := (name, value.map (·, depth)) :: out.2.done
              path := out.2.path.tail
              chain := max σ.chain depth })

def resolve : String → Fold F (RawExpr F) := M.resolveAt (M.names.length + 1)

/-- What is left when every name was resolved, in their order. -/
def finished : Folder F :=
  (M.names.mergeSort (· ≤ ·)).foldl (fun σ name => (M.resolve name σ).2) .new

/-- Every constant that folds, by its name. -/
def foldAll (name : String) : Option (RawExpr F) :=
  (M.finished.done.lookup name).join.map Prod.fst

end Scope

/-! ### A recursion without memory -/

/-- A result with the length of the chain behind it. -/
abbrev Chained (α : Type) := Option (α × ℕ)

namespace Chained

variable {α β : Type}

/-- A result with no constant behind it. -/
def done (a : α) : Chained α := some (a, 0)

/-- One result after another, behind the longer chain. -/
def andThen (x : Chained α) (f : α → Chained β) : Chained β :=
  x.bind fun a => Option.map (fun b => (b.1, max a.2 b.2)) (f a.1)

theorem andThen_eq {x : Chained α} {f : α → Chained β} {r : β × ℕ} (h : x.andThen f = some r) :
    ∃ a b, x = some a ∧ f a.1 = some b ∧ r = (b.1, max a.2 b.2) := by
  obtain ⟨a, ha, h⟩ := Option.bind_eq_some_iff.mp h
  obtain ⟨b, hb, rfl⟩ := Option.map_eq_some_iff.mp h
  exact ⟨a, b, ha, hb, rfl⟩

end Chained

open Chained (done)

namespace Scope

variable (M : Scope F)

section Subst
variable (val : String → Chained (RawExpr F))

mutual

/-- An expression with the constants that `val` gives, and the longest of their chains. -/
def subst : RawExpr F → Chained (RawExpr F)
  | .lit l => done (.lit l)
  | .ident name .localName => val name
  | .ident _ (.imported source name) => (M.imported source name).bind done
  | .member target name optional => (subst target).andThen fun t => done (.member t name optional)
  | .index target (.lit l) => (subst target).andThen fun t => done (.index t (.lit l))
  | .unary .not value => (subst value).andThen fun v => done (.unary .not v)
  | .unary .neg value => (subst value).andThen fun v => done (.unary .neg v)
  | .binary op left right =>
    (subst left).andThen fun l => (subst right).andThen fun r => done (.binary op l r)
  | .cond test yes no =>
    (subst test).andThen fun t => (subst yes).andThen fun y => (subst no).andThen fun n =>
      done (.cond t y n)
  | .template head parts => (substParts parts).andThen fun ps => done (.template head ps)
  | .array items => (substAll items).andThen fun es => done (.array es)
  | .object props => (substProps props).andThen fun ps => done (.object ps)
  | _ => none

def substAll : List (RawExpr F) → Chained (List (RawExpr F))
  | [] => done []
  | e :: es => (subst e).andThen fun v => (substAll es).andThen fun vs => done (v :: vs)

def substParts : List (RawExpr F × String) → Chained (List (RawExpr F × String))
  | [] => done []
  | (e, tail) :: parts =>
    (subst e).andThen fun v => (substParts parts).andThen fun ps => done ((v, tail) :: ps)

def substProps : List (String × RawExpr F) → Chained (List (String × RawExpr F))
  | [] => done []
  | (k, e) :: props =>
    (subst e).andThen fun v => (substProps props).andThen fun ps => done ((k, v) :: ps)

end

/-- A constant, of whose initializer `val` gives the constants. -/
def step (name : String) : Chained (RawExpr F) :=
  if M.excluded name then none
  else
    (M.all name).bind fun cv => (subst M val cv.value).bind fun r =>
      if M.keeps cv r.1 (r.2 + 1) then some (r.1, r.2 + 1) else none

end Subst

def value : ℕ → String → Chained (RawExpr F)
  | 0, _ => none
  | n + 1, name => M.step (value n) name

/-- **The value of a constant**, by the definition of its initializer alone. -/
def plain : String → Chained (RawExpr F) := M.value FOLD_DEPTH

/-! ### What the recursion gives -/

variable {M : Scope F}

/-- One gives what the other gives, of the constants with chains up to a length. -/
def Below (d : ℕ) (f g : String → Chained (RawExpr F)) : Prop :=
  ∀ name r, f name = some r → r.2 ≤ d → g name = some r

theorem Below.le {d d' : ℕ} {f g : String → Chained (RawExpr F)} (h : Below d f g) (hd : d' ≤ d) :
    Below d' f g :=
  fun name r hr hle => h name r hr (Nat.le_trans hle hd)

/-- The same from `y` as from `x`, where constants with chains no longer than its own are kept. -/
def Kept {α : Type} (f g : String → Chained (RawExpr F)) (x y : Chained α) : Prop :=
  ∀ r, x = some r → Below r.2 f g → y = some r

section Kept
variable {f g : String → Chained (RawExpr F)} {α β : Type}

theorem Kept.andThen {x x' : Chained α} {k k' : α → Chained β} (hx : Kept f g x x')
    (hk : ∀ a, Kept f g (k a) (k' a)) : Kept f g (x.andThen k) (x'.andThen k') := by
  intro r hr hbelow
  obtain ⟨a, b, ha, hb, rfl⟩ := Chained.andThen_eq hr
  rw [hx _ ha (hbelow.le (Nat.le_max_left _ _)), Chained.andThen, Option.bind_some,
    hk _ _ hb (hbelow.le (Nat.le_max_right _ _))]
  rfl

theorem Kept.refl (x : Chained α) : Kept f g x x := fun _ hr _ => hr

/-- A form of one operand. -/
theorem Kept.one {x x' : Chained α} (hx : Kept f g x x') (k : α → β) :
    Kept f g (x.andThen fun a => done (k a)) (x'.andThen fun a => done (k a)) :=
  hx.andThen fun _ => .refl _

mutual

theorem subst_kept : ∀ e : RawExpr F, Kept f g (M.subst f e) (M.subst g e)
  | .ident name kind => by
      cases kind with
      | localName => exact fun r hr hbelow => hbelow name r hr (Nat.le_refl _)
      | _ => exact .refl _
  | .member target _ _ => (subst_kept target).one _
  | .index target i => by
      cases i with
      | lit l => exact (subst_kept target).one _
      | _ => exact .refl _
  | .unary op value => by
      cases op with
      | not | neg => exact (subst_kept value).one _
      | _ => exact .refl _
  | .binary _ left right => (subst_kept left).andThen fun _ => (subst_kept right).one _
  | .cond test yes no =>
      (subst_kept test).andThen fun _ => (subst_kept yes).andThen fun _ => (subst_kept no).one _
  | .template _ parts => (substParts_kept parts).one _
  | .array items => (substAll_kept items).one _
  | .object props => (substProps_kept props).one _
  | .lit _ | .call _ _ | .arrow _ _ _ | .block _ _ _ | .jsx | .opaqueJs _ _ _ => .refl _

theorem substAll_kept : ∀ es : List (RawExpr F), Kept f g (M.substAll f es) (M.substAll g es)
  | [] => .refl _
  | e :: es => (subst_kept e).andThen fun _ => (substAll_kept es).one _

theorem substParts_kept : ∀ ps : List (RawExpr F × String),
    Kept f g (M.substParts f ps) (M.substParts g ps)
  | [] => .refl _
  | (e, _) :: ps => (subst_kept e).andThen fun _ => (substParts_kept ps).one _

theorem substProps_kept : ∀ ps : List (String × RawExpr F),
    Kept f g (M.substProps f ps) (M.substProps g ps)
  | [] => .refl _
  | (_, e) :: ps => (subst_kept e).andThen fun _ => (substProps_kept ps).one _

end

end Kept

theorem keeps_depth {cv : ConstVal F} {v : RawExpr F} {d : ℕ} (h : M.keeps cv v d = true) :
    d ≤ FOLD_DEPTH := by
  rw [keeps, Bool.and_eq_true, Bool.and_eq_true] at h
  exact of_decide_eq_true h.1.1

/-- What a step goes through. -/
theorem step_eq_some {val : String → Chained (RawExpr F)} {name : String} {r : RawExpr F × ℕ} :
    M.step val name = some r ↔ M.excluded name = false ∧ ∃ cv c, M.all name = some cv ∧
      M.subst val cv.value = some (r.1, c) ∧ M.keeps cv r.1 (c + 1) = true ∧ r.2 = c + 1 := by
  rw [step]
  constructor
  · intro h
    split at h
    · cases h
    next hexcluded =>
    obtain ⟨cv, hcv, h⟩ := Option.bind_eq_some_iff.mp h
    obtain ⟨s, hs, h⟩ := Option.bind_eq_some_iff.mp h
    split at h
    · next hkeeps =>
      obtain rfl := Option.some.inj h
      exact ⟨Bool.eq_false_iff.mpr hexcluded, cv, s.2, hcv, hs, hkeeps, rfl⟩
    · cases h
  · rintro ⟨hexcluded, cv, c, hcv, hs, hkeeps, hc⟩
    obtain ⟨v, d⟩ := r
    obtain rfl := hc
    rw [hexcluded, hcv]
    simp only [Bool.false_eq_true, if_false, Option.bind_some, hs, hkeeps, if_true]

theorem step_kept {f g : String → Chained (RawExpr F)} {name : String} {r : RawExpr F × ℕ}
    (h : M.step f name = some r) (hbelow : Below (r.2 - 1) f g) : M.step g name = some r := by
  obtain ⟨hexcluded, cv, c, hcv, hs, hkeeps, hc⟩ := step_eq_some.mp h
  rw [hc] at hbelow
  exact step_eq_some.mpr ⟨hexcluded, cv, c, hcv, subst_kept cv.value _ hs hbelow, hkeeps, hc⟩

theorem value_succ {n : ℕ} {name : String} {r : RawExpr F × ℕ} (h : M.value n name = some r) :
    M.value (n + 1) name = some r := by
  induction n generalizing name r with
  | zero => cases h
  | succ n ih => exact step_kept h fun name' r' hr' _ => ih hr'

theorem value_mono {n n' : ℕ} (hle : n ≤ n') {name : String} {r : RawExpr F × ℕ}
    (h : M.value n name = some r) : M.value n' name = some r := by
  induction hle with
  | refl => exact h
  | step _ ih => exact value_succ ih

/-- The length of its chain is enough for a value. -/
theorem value_depth {n : ℕ} {name : String} {r : RawExpr F × ℕ} (h : M.value n name = some r) :
    M.value r.2 name = some r := by
  induction n generalizing name r with
  | zero => cases h
  | succ n ih =>
      obtain ⟨hexcluded, cv, c, hcv, hs, hkeeps, hc⟩ := step_eq_some.mp h
      rw [hc]
      refine step_kept h fun name' r' hr' hle => value_mono ?_ (ih hr')
      rwa [hc] at hle

theorem plain_of_value {n : ℕ} {name : String} {r : RawExpr F × ℕ} (h : M.value n name = some r) :
    M.plain name = some r := by
  cases n with
  | zero => cases h
  | succ n =>
      obtain ⟨-, cv, c, -, -, hkeeps, hc⟩ := step_eq_some.mp h
      have hle : r.2 ≤ FOLD_DEPTH := hc ▸ keeps_depth hkeeps
      exact value_mono hle (value_depth h)

/-- The value of a constant, from those of the constants in its initializer. -/
theorem step_plain (name : String) : M.step M.plain name = M.plain name := by
  refine Option.ext fun r => ⟨fun h => ?_, fun h => ?_⟩
  · have hnext : M.value (FOLD_DEPTH + 1) name = some r := h
    exact plain_of_value hnext
  · have hstep : M.step (M.value 15) name = some r := h
    exact step_kept hstep fun name' r' hr' _ => plain_of_value hr'

/-! ### The walk -/

/-- What is remembered is right. -/
def Good (M : Scope F) (σ : Folder F) : Prop :=
  ∀ name r, σ.done.lookup name = some r → r = M.plain name

/-- Each constant that the walk is in the middle of folds only if this does, behind a longer
chain. -/
def Needs (M : Scope F) (path : List String) {α : Type} (x : Chained α) : Prop :=
  ∀ q ∈ path, ∀ r, M.plain q = some r → ∃ s, x = some s ∧ s.2 < r.2

/-- What a computation has done, for the result `x`: its value with the chain counted in, or a
failure where there is none. -/
structure Gives (M : Scope F) {α : Type} (σ : Folder F) (out : Except Unit α × Folder F)
    (x : Chained α) : Prop where
  good : Good M out.2
  path : out.2.path = σ.path
  grows : σ.done.map Prod.fst ⊆ out.2.done.map Prod.fst
  ok : ∀ a, out.1 = .ok a → ∃ d, x = some (a, d) ∧ out.2.chain = max σ.chain d
  error : out.1 = .error () → x = none

/-- On this path the computation gives the result. -/
def Follows (M : Scope F) (path : List String) {α : Type} (m : Fold F α) (x : Chained α) : Prop :=
  Needs M path x → ∀ σ, Good M σ → σ.path = path → Gives M σ (m σ) x

section Follows
variable {path : List String} {α β γ : Type}

theorem Gives.failed {σ : Folder F} (h : Good M σ) :
    Gives M σ ((.error (), σ) : Except Unit α × Folder F) none :=
  ⟨h, rfl, List.Subset.refl _, fun a ha => (by cases ha), fun _ => rfl⟩

theorem Follows.pure (a : α) : Follows M path (Pure.pure a) (done a) := by
  refine fun _ σ hσ _ => ⟨hσ, rfl, List.Subset.refl _, fun b hb => ?_, fun h => by cases h⟩
  cases hb
  exact ⟨0, rfl, (Nat.max_zero _).symm⟩

theorem Follows.fail : Follows M path (Fallible.fail () : Fold F α) none :=
  fun _ _ hσ _ => .failed hσ

theorem Follows.bind {m : Fold F α} {k : α → Fold F β} {x : Chained α} {y : α → Chained β}
    (h : Follows M path m x) (hk : ∀ a, Follows M path (k a) (y a)) :
    Follows M path (m >>= k) (x.andThen y) := by
  intro hneeds σ hσ hpath
  have hparts : ∀ q ∈ path, ∀ r, M.plain q = some r → ∃ a b, x = some a ∧ y a.1 = some b ∧
      a.2 < r.2 ∧ b.2 < r.2 := fun q hq r hr => by
    obtain ⟨s, hs, hlt⟩ := hneeds q hq r hr
    obtain ⟨a, b, ha, hb, rfl⟩ := Chained.andThen_eq hs
    exact ⟨a, b, ha, hb, Nat.lt_of_le_of_lt (Nat.le_max_left _ _) hlt,
      Nat.lt_of_le_of_lt (Nat.le_max_right _ _) hlt⟩
  have hx : Needs M path x := fun q hq r hr => by
    obtain ⟨a, -, ha, -, hlt, -⟩ := hparts q hq r hr
    exact ⟨a, ha, hlt⟩
  obtain ⟨hgood, hsame, hgrows, hok, herror⟩ := h hx σ hσ hpath
  cases hm : m σ with
  | mk out τ =>
      rw [hm] at hgood hsame hgrows hok herror
      cases out with
      | error e =>
          obtain rfl := herror rfl
          rw [Fallible.bind_error hm]
          exact ⟨hgood, hsame, hgrows, fun c hc => (by cases hc), fun _ => rfl⟩
      | ok a =>
          obtain ⟨d, rfl, hchain⟩ := hok a rfl
          rw [Fallible.bind_ok hm]
          have hy : Needs M path (y a) := fun q hq r hr => by
            obtain ⟨a', b, ha, hb, -, hlt⟩ := hparts q hq r hr
            obtain rfl := Option.some.inj ha
            exact ⟨b, hb, hlt⟩
          obtain ⟨hgood', hsame', hgrows', hok', herror'⟩ := hk a hy τ hgood (hsame.trans hpath)
          refine ⟨hgood', hsame'.trans hsame, List.Subset.trans hgrows hgrows', fun b hb => ?_,
            fun he => ?_⟩
          · obtain ⟨d', hd', hchain'⟩ := hok' b hb
            refine ⟨max d d', ?_, by rw [hchain', hchain, Nat.max_assoc]⟩
            rw [Chained.andThen, Option.bind_some, hd']
            rfl
          · rw [Chained.andThen, Option.bind_some, herror' he]
            rfl

section
variable {resolve : String → Fold F (RawExpr F)}
  (hresolve : ∀ name, Follows M path (resolve name) (M.plain name))

include hresolve

mutual

theorem substitute_follows : ∀ e : RawExpr F,
    Follows M path (M.substitute resolve e) (M.subst M.plain e)
  | .lit _ => .pure _
  | .ident name kind => by
      cases kind with
      | localName => exact hresolve name
      | imported source name =>
          rw [substitute, subst]
          cases M.imported source name with
          | none => exact .fail
          | some v => exact .pure v
      | _ => exact .fail
  | .member target _ _ => (substitute_follows target).bind fun _ => .pure _
  | .index target i => by
      cases i with
      | lit l => exact (substitute_follows target).bind fun _ => .pure _
      | _ => exact .fail
  | .unary op value => by
      cases op with
      | not | neg => exact (substitute_follows value).bind fun _ => .pure _
      | _ => exact .fail
  | .binary _ left right =>
      (substitute_follows left).bind fun _ => (substitute_follows right).bind fun _ => .pure _
  | .cond test yes no =>
      (substitute_follows test).bind fun _ => (substitute_follows yes).bind fun _ =>
        (substitute_follows no).bind fun _ => .pure _
  | .template _ parts => (substituteParts_follows parts).bind fun _ => .pure _
  | .array items => (substituteAll_follows items).bind fun _ => .pure _
  | .object props => (substituteProps_follows props).bind fun _ => .pure _
  | .call _ _ | .arrow _ _ _ | .block _ _ _ | .jsx | .opaqueJs _ _ _ => .fail

theorem substituteAll_follows : ∀ es : List (RawExpr F),
    Follows M path (M.substituteAll resolve es) (M.substAll M.plain es)
  | [] => .pure _
  | e :: es =>
      (substitute_follows e).bind fun _ => (substituteAll_follows es).bind fun _ => .pure _

theorem substituteParts_follows : ∀ ps : List (RawExpr F × String),
    Follows M path (M.substituteParts resolve ps) (M.substParts M.plain ps)
  | [] => .pure _
  | (e, _) :: ps =>
      (substitute_follows e).bind fun _ => (substituteParts_follows ps).bind fun _ => .pure _

theorem substituteProps_follows : ∀ ps : List (String × RawExpr F),
    Follows M path (M.substituteProps resolve ps) (M.substProps M.plain ps)
  | [] => .pure _
  | (_, e) :: ps =>
      (substitute_follows e).bind fun _ => (substituteProps_follows ps).bind fun _ => .pure _

end

end

end Follows

theorem all_eq_some {name : String} {cv : ConstVal F} (h : M.all name = some cv) :
    cv ∈ M.consts ∧ cv.name = name :=
  ⟨List.mem_reverse.mp (List.mem_of_find?_eq_some h), by simpa using List.find?_some h⟩

theorem all_mem {name : String} {cv : ConstVal F} (h : M.all name = some cv) : name ∈ M.names :=
  List.mem_map.mpr ⟨cv, all_eq_some h⟩

/-- A constant as the walk resolves it, where the path leaves as many names as the fuel. -/
theorem resolveAt_follows (n : ℕ) (name : String) (path : List String) (hnodup : path.Nodup)
    (hpath : path ⊆ M.names) (hfuel : M.names.length < n + path.length) :
    Follows M path (M.resolveAt n name) (M.plain name) := by
  induction n generalizing name path with
  | zero =>
      have hle := (List.subperm_of_subset hnodup hpath).length_le
      rw [Nat.zero_add] at hfuel
      exact absurd hfuel (Nat.not_lt.mpr hle)
  | succ n ih =>
      intro hneeds σ hσ hσpath
      have hplain := step_plain (M := M) name
      unfold resolveAt
      split
      · next hdone =>
        rw [← hσ name none hdone]
        exact .failed hσ
      · next v d hdone =>
        rw [← hσ name _ hdone]
        refine ⟨hσ, rfl, List.Subset.refl _, fun a ha => ?_, fun he => by cases he⟩
        cases ha
        exact ⟨d, rfl, rfl⟩
      split
      · next hrefused =>
        -- A name of the path that folded would fold behind a shorter chain than its own.
        have hnone : M.plain name = none := by
          rw [Bool.or_eq_true, decide_eq_true_eq, hσpath] at hrefused
          rcases hrefused with hexcluded | hmem
          · rw [← hplain, step, if_pos hexcluded]
          · by_contra hsome
            obtain ⟨r, hr⟩ := Option.ne_none_iff_exists'.mp hsome
            obtain ⟨s, hs, hlt⟩ := hneeds name hmem r hr
            obtain rfl := Option.some.inj (hr.symm.trans hs)
            exact Nat.lt_irrefl _ hlt
        rw [hnone]
        exact .failed hσ
      next hopen =>
      rw [Bool.or_eq_true, not_or, decide_eq_true_eq, hσpath] at hopen
      obtain ⟨hexcluded, hnew⟩ := hopen
      split
      · next hall =>
        rw [← hplain, step, if_neg hexcluded, hall]
        exact .failed hσ
      next cv hcv =>
      have hsub : Follows M (name :: path) (M.substitute (M.resolveAt n) cv.value)
          (M.subst M.plain cv.value) :=
        substitute_follows (fun name' => ih name' (name :: path)
          (List.nodup_cons.mpr ⟨hnew, hnodup⟩) (List.cons_subset.mpr ⟨all_mem hcv, hpath⟩)
          (by rw [List.length_cons]; omega)) cv.value
      have hneeds' : Needs M (name :: path) (M.subst M.plain cv.value) := by
        have hown : ∀ r, M.plain name = some r →
            ∃ s, M.subst M.plain cv.value = some s ∧ s.2 < r.2 := by
          intro r hr
          rw [← hplain] at hr
          obtain ⟨-, cv', c, hcv', hs, -, hc⟩ := step_eq_some.mp hr
          obtain rfl := Option.some.inj (hcv.symm.trans hcv')
          exact ⟨_, hs, hc ▸ Nat.lt_succ_self c⟩
        refine List.forall_mem_cons.mpr ⟨hown, fun q hq r hr => ?_⟩
        obtain ⟨r', hr', hlt⟩ := hneeds q hq r hr
        obtain ⟨s, hs, hlt'⟩ := hown r' hr'
        exact ⟨s, hs, Nat.lt_trans hlt' hlt⟩
      have hout := hsub hneeds' { σ with path := name :: σ.path, chain := 0 } hσ
        (congrArg (name :: ·) hσpath)
      generalize M.substitute (M.resolveAt n) cv.value
        { σ with path := name :: σ.path, chain := 0 } = out at hout ⊢
      -- What the walk keeps is what the recursion keeps.
      have hvalue : (out.1.toOption.filter fun v => M.keeps cv v (out.2.chain + 1)).map
          (·, out.2.chain + 1) = M.plain name := by
        rw [← hplain, step, if_neg hexcluded, hcv, Option.bind_some]
        cases hr : out.1 with
        | error e =>
            rw [hout.error hr]
            rfl
        | ok v =>
            obtain ⟨d, hd, hchain⟩ := hout.ok v hr
            rw [Nat.zero_max] at hchain
            rw [hd, hchain, Option.bind_some]
            change ((some v).filter fun v => M.keeps cv v (d + 1)).map (·, d + 1) = _
            rw [Option.filter_some]
            split <;> rfl
      refine ⟨fun name' r hr => ?_, ?_, ?_, fun a ha => ?_, fun he => ?_⟩
      · dsimp only at hr
        rw [List.lookup_cons] at hr
        split at hr
        · next heq =>
          obtain rfl := beq_iff_eq.mp heq
          exact (Option.some.inj hr).symm.trans hvalue
        · exact hout.good name' r hr
      · change out.2.path.tail = σ.path
        rw [hout.path]
        rfl
      · exact List.Subset.trans hout.grows (List.subset_cons_self _ _)
      · dsimp only at ha
        rw [← hvalue]
        cases hv : out.1.toOption.filter fun v => M.keeps cv v (out.2.chain + 1) with
        | none =>
            rw [hv] at ha
            cases ha
        | some v =>
            rw [hv] at ha
            cases ha
            exact ⟨_, rfl, rfl⟩
      · dsimp only at he
        rw [← hvalue]
        cases hv : out.1.toOption.filter fun v => M.keeps cv v (out.2.chain + 1) with
        | none => rfl
        | some v =>
            rw [hv] at he
            cases he

/-! ### Runs -/

/-- A folder after it resolved any names in any order. -/
inductive Resolved (M : Scope F) : Folder F → Prop
  | new : Resolved M .new
  | resolve {σ : Folder F} (h : Resolved M σ) (name : String) : Resolved M (M.resolve name σ).2

theorem resolve_gives {σ : Folder F} (hσ : Good M σ) (hpath : σ.path = []) (name : String) :
    Gives M σ (M.resolve name σ) (M.plain name) :=
  resolveAt_follows _ name [] List.nodup_nil (List.nil_subset _) (Nat.lt_succ_self _)
    (fun q hq => by cases hq) σ hσ hpath

theorem Resolved.good {σ : Folder F} (h : Resolved M σ) : Good M σ ∧ σ.path = [] := by
  induction h with
  | new => exact ⟨(fun name r hr => by cases hr), rfl⟩
  | resolve _ name ih =>
      have hgives := resolve_gives ih.1 ih.2 name
      exact ⟨hgives.good, hgives.path.trans ih.2⟩

theorem resolve_toOption {σ : Folder F} (h : Resolved M σ) (name : String) :
    (M.resolve name σ).1.toOption = (M.plain name).map Prod.fst := by
  have hgives := resolve_gives h.good.1 h.good.2 name
  cases hr : (M.resolve name σ).1 with
  | ok v =>
      obtain ⟨d, hd, -⟩ := hgives.ok v hr
      rw [hd]
      rfl
  | error e =>
      rw [hgives.error hr]
      rfl

/-- **A constant folds to the value of its definition**, whatever was resolved before. -/
theorem resolve_eq_plain {σ : Folder F} (h : Resolved M σ) (name : String) :
    (M.resolve name σ).1.toOption = (M.plain name).map Prod.fst :=
  resolve_toOption h name

/-- `size = 2`, `area = size * size`, and two constants that read each other. -/
def cyclic : Scope ℕ where
  consts := [⟨"size", .lit (.num 2), false⟩,
    ⟨"area", .binary .mul (.ident "size" .localName) (.ident "size" .localName), false⟩,
    ⟨"ping", .ident "pong" .localName, false⟩, ⟨"pong", .ident "ping" .localName, false⟩]
  excluded _ := false
  imported _ _ := none
  jinjaLen _ := 0

theorem resolve_eq_plain_area :
    let σ := (cyclic.resolve "ping" .new).2
    (cyclic.resolve "area" σ).1.toOption = (cyclic.plain "area").map Prod.fst :=
  resolve_eq_plain (.resolve .new "ping") "area"

example : (cyclic.plain "area").map Prod.fst =
    some (.binary .mul (.lit (.num 2)) (.lit (.num 2))) := by rfl

/-! ### Cycles -/

theorem andThen_none {α β : Type} {x : Chained α} {f : α → Chained β}
    (h : x = none ∨ ∀ a, f a = none) : x.andThen f = none := by
  rcases h with rfl | h
  · rfl
  · cases x with
    | none => rfl
    | some a => rw [Chained.andThen, Option.bind_some, h]; rfl

section Reads
variable {val : String → Chained (RawExpr F)} {n : String}

mutual

/-- An expression that reads a constant without a value has none. -/
theorem subst_none (hn : val n = none) :
    ∀ e : RawExpr F, (n, .localName) ∈ e.directIdents → M.subst val e = none
  | .ident name kind, h => by
      obtain ⟨rfl, rfl⟩ := Prod.mk.inj (List.mem_singleton.mp h)
      exact hn
  | .member target _ _, h => andThen_none (.inl (subst_none hn target h))
  | .index target i, h => by
      cases i with
      | lit l =>
          exact andThen_none (.inl (subst_none hn target
            ((List.mem_append.mp h).resolve_right List.not_mem_nil)))
      | _ => rfl
  | .unary op value, h => by
      cases op with
      | not | neg => exact andThen_none (.inl (subst_none hn value h))
      | _ => rfl
  | .binary _ left right, h => andThen_none ((List.mem_append.mp h).imp (subst_none hn left)
      fun h _ => andThen_none (.inl (subst_none hn right h)))
  | .cond test yes no, h => by
      refine andThen_none ((List.mem_append.mp h).elim (fun h => ?_) fun h => ?_)
      · exact (List.mem_append.mp h).imp (subst_none hn test)
          fun h _ => andThen_none (.inl (subst_none hn yes h))
      · exact .inr fun _ => andThen_none (.inr fun _ => andThen_none (.inl (subst_none hn no h)))
  | .template _ parts, h => andThen_none (.inl (substParts_none hn parts h))
  | .array items, h => andThen_none (.inl (substAll_none hn items h))
  | .object props, h => andThen_none (.inl (substProps_none hn props h))
  | .lit _, h => by cases h
  | .call _ _, _ | .arrow _ _ _, _ | .block _ _ _, _ | .jsx, _ | .opaqueJs _ _ _, _ => rfl

theorem substAll_none (hn : val n = none) : ∀ es : List (RawExpr F),
    (n, .localName) ∈ RawExpr.directIdents.directAll es → M.substAll val es = none
  | e :: es, h => andThen_none ((List.mem_append.mp h).imp (subst_none hn e)
      fun h _ => andThen_none (.inl (substAll_none hn es h)))

theorem substParts_none (hn : val n = none) : ∀ ps : List (RawExpr F × String),
    (n, .localName) ∈ RawExpr.directIdents.directParts ps → M.substParts val ps = none
  | (e, _) :: ps, h => andThen_none ((List.mem_append.mp h).imp (subst_none hn e)
      fun h _ => andThen_none (.inl (substParts_none hn ps h)))

theorem substProps_none (hn : val n = none) : ∀ ps : List (String × RawExpr F),
    (n, .localName) ∈ RawExpr.directIdents.directProps ps → M.substProps val ps = none
  | (_, e) :: ps, h => andThen_none ((List.mem_append.mp h).imp (subst_none hn e)
      fun h _ => andThen_none (.inl (substProps_none hn ps h)))

end

end Reads

/-- **A cycle folds from nowhere**: constants each of which reads one of them have no values. -/
theorem resolve_cycle {cycle : List String}
    (hcycle : ∀ name ∈ cycle, ∀ cv, M.all name = some cv →
      ∃ n ∈ cycle, (n, .localName) ∈ cv.value.directIdents)
    {σ : Folder F} (h : Resolved M σ) {name : String} (hname : name ∈ cycle) :
    (M.resolve name σ).1.toOption = none := by
  have hvalue : ∀ k, ∀ name ∈ cycle, M.value k name = none := by
    intro k
    induction k with
    | zero => exact fun _ _ => rfl
    | succ k ih =>
        intro name hname
        refine Option.eq_none_iff_forall_not_mem.mpr fun r hr => ?_
        obtain ⟨-, cv, c, hcv, hs, -⟩ := step_eq_some.mp hr
        obtain ⟨n, hmem, hread⟩ := hcycle name hname cv hcv
        rw [subst_none (ih n hmem) cv.value hread] at hs
        cases hs
  rw [resolve_toOption h]
  exact congrArg (Option.map Prod.fst) (hvalue _ name hname)

example : (cyclic.plain "ping").map Prod.fst = none := by rfl

/-! ### What a component folds -/

/-- What folds is remembered. -/
theorem resolve_done {σ : Folder F} (h : Resolved M σ) {name : String} {r : RawExpr F × ℕ}
    (hr : M.plain name = some r) : name ∈ (M.resolve name σ).2.done.map Prod.fst := by
  obtain ⟨hexcluded, cv, -, hcv, -⟩ := step_eq_some.mp ((step_plain (M := M) name).trans hr)
  have hgives := resolve_gives h.good.1 h.good.2 name
  cases hdone : σ.done.lookup name with
  | some known =>
      have hsome : (σ.done.lookup name).isSome = true := by rw [hdone]; rfl
      obtain ⟨p, hp, heq⟩ := List.lookup_isSome_iff.mp hsome
      exact hgives.grows (List.mem_map.mpr ⟨p, hp, (beq_iff_eq.mp heq).symm⟩)
  | none =>
      have hopen : ¬ (M.excluded name || name ∈ σ.path) = true := by
        rw [hexcluded, h.good.2]
        simp
      unfold resolve resolveAt
      rw [hdone]
      dsimp only
      rw [if_neg hopen, hcv]
      exact List.mem_cons_self

theorem finished_done {σ : Folder F} (h : Resolved M σ) (order : List String) :
    Resolved M (order.foldl (fun σ name => (M.resolve name σ).2) σ) ∧
      σ.done.map Prod.fst ⊆
        (order.foldl (fun σ name => (M.resolve name σ).2) σ).done.map Prod.fst ∧
      ∀ name ∈ order, (M.plain name).isSome = true →
        name ∈ (order.foldl (fun σ name => (M.resolve name σ).2) σ).done.map Prod.fst := by
  induction order generalizing σ with
  | nil => exact ⟨h, List.Subset.refl _, fun name hname => by cases hname⟩
  | cons name order ih =>
      obtain ⟨hresolved, hgrows, hdone⟩ := ih (h.resolve name)
      have hnext := (resolve_gives h.good.1 h.good.2 name).grows
      refine ⟨hresolved, List.Subset.trans hnext hgrows, List.forall_mem_cons.mpr ⟨?_, hdone⟩⟩
      intro hsome
      obtain ⟨r, hr⟩ := Option.isSome_iff_exists.mp hsome
      exact hgrows (resolve_done h hr)

/-- The constants that fold are those with a value. -/
theorem foldAll_eq_plain (name : String) : M.foldAll name = (M.plain name).map Prod.fst := by
  obtain ⟨hresolved, -, hdone⟩ := finished_done (M := M) .new (M.names.mergeSort (· ≤ ·))
  rw [foldAll]
  cases hr : M.finished.done.lookup name with
  | some r =>
      rw [← hresolved.good.1 name r hr]
      rfl
  | none =>
      cases hplain : M.plain name with
      | none => rfl
      | some r =>
          have hstep := (step_plain (M := M) name).trans hplain
          obtain ⟨-, cv, c, hcv, -⟩ := step_eq_some.mp hstep
          have hmem := hdone name (List.mem_mergeSort.mpr (all_mem hcv)) (by rw [hplain]; rfl)
          obtain ⟨p, hp, rfl⟩ := List.mem_map.mp hmem
          rw [List.lookup_eq_none_iff] at hr
          exact absurd (beq_self_eq_true p.1) (by simpa using hr p hp)

end Scope

end Brust.Compiler.ConstFolder
