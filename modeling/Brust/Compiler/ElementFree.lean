import Brust.Support.Rounds
import Mathlib.Data.List.ReduceOption
import Mathlib.Order.Iterate

/-!
# Compiler — declarations free of elements

`element_free_fns` of `analyze/plain_fn.rs`: two fixpoints, one inside the other and of opposite
polarity.  Under a set of filled bindings the free declarations are a least set (`freeGiven`); under
a set of free declarations the calls, writes and flows of the module fill bindings (`round`), each
round from the written ones anew.

More filled means fewer free and fewer free means more filled, so a round is monotone (`round_mono`)
and the rounds from the written bindings only grow; they end at the least set that is closed under
the rules, and the names that are returned are those free under it (`element_free_least`), in
whatever order the module has its declarations and calls (`elementFreeFns_perm`).
-/

namespace Brust.Compiler.ElementFree

open Brust.Rounds

/-- A symbol, by its key. -/
abbrev Sym := ℕ

structure NameTable where
  name : Sym → String
  isGlobal : Sym → Bool
  importOf : Sym → Option (String × String)

/-- What a `Walk` collects below an expression or a declaration: `jsx` if a call is a JSX
element. -/
structure Walked where
  used : List Sym
  declared : List Sym
  jsx : Bool

/-- The object of a member: a name itself, the root of its chain, and whether it is `fresh`. -/
structure Target where
  ident : Option Sym
  root : Option Sym
  fresh : Bool

inductive Callee where
  | ident (r : Sym)
  | importIdent (r : Sym)
  | dot (target : Target) (method : String)
  | other

/-- An argument, or the value that is spread in its place. -/
structure Arg where
  root : Option Sym
  walked : Walked

structure Call where
  target : Callee
  args : List Arg

structure Value where
  primitive : Bool
  walked : Walked

/-- A module-level declaration; `isConst` if it is a `const`. -/
inductive Decl where
  | function (r : Sym) (walked : Walked)
  | binding (r : Sym) (isConst : Bool) (value : Option Value)
  | pattern (rs : List Sym)
  | classDecl (r : Sym)

/-- A module as `Walk` collects it. -/
structure Module where
  decls : List Decl
  assigned : List Sym
  memberWritten : List Sym
  opaqueWrite : Bool
  calls : List Call
  memberWrites : List (Sym × Walked)
  flows : List (Sym × Sym)

/-- Methods that write to what they are called on. -/
def MUTATING : List String :=
  ["push", "unshift", "splice", "fill", "copyWithin", "sort", "reverse", "set", "add"]

/-- Globals that write to no argument. -/
def READ_ONLY_FNS : List String :=
  ["String", "Number", "Boolean", "parseInt", "parseFloat", "isNaN", "isFinite"]

/-- Statics that write to no argument. -/
def READ_ONLY_STATICS : List (String × String) :=
  [("Object", "keys"), ("Object", "values"), ("Object", "entries"), ("Array", "isArray"),
    ("JSON", "stringify")]

section
variable (names : NameTable) (elementImport : String → String → Bool) (m : Module)

/-! ### The declarations -/

/-- A mutating method on a root that is no name, nor a copy. -/
def Callee.mutatesUnknown : Callee → Bool
  | .dot t method => MUTATING.contains method && t.root.isNone && !t.fresh
  | _ => false

def Module.writesUnknown : Bool := m.opaqueWrite || m.calls.any fun c => c.target.mutatesUnknown

/-- The symbols of a declaration, with its walk where it may be provable. -/
def Decl.rows (unknown : Bool) : Decl → List (Sym × Option Walked)
  | .function r w => [(r, some w)]
  | .binding r isConst value =>
    [(r, if isConst && (value.any Value.primitive || !unknown) then value.map
      Value.walked else none)]
  | .pattern rs => rs.map fun r => (r, none)
  | .classDecl r => [(r, none)]

def Module.rows : List (Sym × Option Walked) := m.decls.flatMap (Decl.rows m.writesUnknown)

def Decl.always : Decl → List Sym
  | .binding r true (some v) => if v.primitive then [r] else []
  | _ => []

/-- The consts whose value is a primitive whatever it reads. -/
def Module.always : List Sym := m.decls.flatMap Decl.always

def Module.moduleKeys : List Sym := m.rows.map Prod.fst

/-! ### Free under a filled set -/

/-- What a declaration reads holds no element. -/
def readOk (free : Finset Sym) (w : Walked) (r : Sym) : Bool :=
  (names.importOf r).elim
    (if m.moduleKeys.contains r then decide (r ∈ free)
     else w.declared.contains r || (names.isGlobal r && names.name r != "React"))
    fun i => !elementImport i.1 i.2

/-- A declaration that is free when those of the set are. -/
def freeRule (filled : Finset Sym) (free : Finset Sym) (row : Sym × Option Walked) : Bool :=
  row.2.any fun w => !m.assigned.contains row.1 && !decide (row.1 ∈ filled) && !w.jsx &&
    w.used.all (readOk names elementImport m free w)

def freeGiven (filled : Finset Sym) : Finset Sym :=
  settle (pass Prod.fst (freeRule names elementImport m filled) m.rows) m.rows.length
    (m.always.filter fun k => !m.assigned.contains k).toFinset

/-! ### Filled under a free set -/

def isNamed (r : Sym) (n : String) : Bool := names.name r == n && names.isGlobal r

def Callee.readOnly : Callee → Bool
  | .ident r => READ_ONLY_FNS.any (isNamed names r)
  | .dot t method => t.ident.any fun r => READ_ONLY_STATICS.any fun s =>
      isNamed names r s.1 && s.2 == method
  | _ => false

/-- A React export that builds no element. -/
def reactReader (r : Sym) : Bool :=
  (names.importOf r).any fun i =>
    (i.1 == "react" || i.1.startsWith "react/" || i.1.startsWith "preact") &&
      !elementImport i.1 i.2

def Callee.free (free : Finset Sym) : Callee → Bool
  | .ident r => (m.moduleKeys.contains r && decide (r ∈ free)) || reactReader names elementImport r
  | .importIdent r => reactReader names elementImport r
  | _ => false

/-- The value may carry an element: it writes JSX or reads anything but a free module name. -/
def carries (free : Finset Sym) (w : Walked) : Bool :=
  w.jsx || w.used.any fun r => !(m.moduleKeys.contains r && decide (r ∈ free))

/-- The receiver of a mutating method that an argument may carry an element into. -/
def mutated (free : Finset Sym) (c : Call) : List Sym :=
  match c.target with
  | .dot t method =>
    if MUTATING.contains method && c.args.any (fun a => carries m free a.walked) then t.root.toList
    else []
  | _ => []

/-- The arguments that the call may write an element into. -/
def argued (free : Finset Sym) (c : Call) : List Sym :=
  c.args.zipIdx.flatMap fun a =>
    if !c.target.free names elementImport m free ||
        (c.args.eraseIdx a.2).any (fun b => carries m free b.walked) then a.1.root.toList
    else []

/-- What a call may put an element into. -/
def callFills (free : Finset Sym) (c : Call) : List Sym :=
  if c.target.readOnly names then [] else mutated m free c ++ argued names elementImport m free c

/-- What a write may put an element into. -/
def writeFills (free : Finset Sym) (w : Sym × Walked) : List Sym :=
  if carries m free w.2 then [w.1] else []

/-- What the calls and the writes fill. -/
def direct (free : Finset Sym) : Finset Sym :=
  (m.calls.flatMap (callFills names elementImport m free) ++
    m.memberWrites.flatMap (writeFills m free)).toFinset

/-- What a filled binding was made from. -/
def flowRule (filled : Finset Sym) (flow : Sym × Sym) : Bool := decide (flow.1 ∈ filled)

def flowed (filled : Finset Sym) : Finset Sym :=
  settle (pass Prod.snd flowRule m.flows) m.flows.length filled

def base : Finset Sym := m.memberWritten.toFinset

/-- One round: the free declarations of the filled set, and what they leave filled. -/
def round (filled : Finset Sym) : Finset Sym :=
  flowed m (base m ∪ direct names elementImport m (freeGiven names elementImport m filled))

def Callee.root : Callee → Option Sym
  | .dot t _ => t.root
  | _ => none

/-- All symbols that a round may fill. -/
def fillable : Finset Sym :=
  (m.memberWritten ++ m.calls.flatMap (fun c =>
    (c.target.root :: c.args.map Arg.root).reduceOption) ++
    m.memberWrites.map Prod.fst ++ m.flows.map Prod.snd).toFinset

/-- The filled bindings of the last round. -/
def filled : Finset Sym := settle (round names elementImport m) (fillable m).card (base m)

def elementFreeFns : List String :=
  (m.rows.filter fun row =>
    decide (row.1 ∈ freeGiven names elementImport m (filled names elementImport m))).map
      fun row => names.name row.1

/-! ### The rules -/

/-- Free under a filled set: the least set closed under the rule of one declaration. -/
inductive Free (filled : Finset Sym) : Sym → Prop
  | always {k : Sym} (hk : k ∈ m.always) (ha : k ∉ m.assigned) : Free filled k
  | decl {k : Sym} {w : Walked} (hrow : (k, some w) ∈ m.rows) (ha : k ∉ m.assigned)
      (hfilled : k ∉ filled) (hjsx : w.jsx = false)
      (himport : ∀ r ∈ w.used, ∀ i, names.importOf r = some i → elementImport i.1 i.2 = false)
      (hmodule : ∀ r ∈ w.used, names.importOf r = none → r ∈ m.moduleKeys → Free filled r)
      (hother : ∀ r ∈ w.used, names.importOf r = none → r ∉ m.moduleKeys →
        r ∈ w.declared ∨ names.isGlobal r = true ∧ names.name r ≠ "React") : Free filled k

/-- JSX, or a read of anything but a free module name. -/
def Carries (free : Sym → Prop) (w : Walked) : Prop :=
  w.jsx = true ∨ ∃ r ∈ w.used, ¬ (r ∈ m.moduleKeys ∧ free r)

/-- A free module function, or a React export that builds no element. -/
def FreeCallee (free : Sym → Prop) : Callee → Prop
  | .ident r => r ∈ m.moduleKeys ∧ free r ∨ reactReader names elementImport r = true
  | .importIdent r => reactReader names elementImport r = true
  | _ => False

/-- What is filled of a filled set, and of what is free. -/
inductive Fills (free : Sym → Prop) (filled : Finset Sym) : Sym → Prop
  | written {r : Sym} (hr : r ∈ m.memberWritten) : Fills free filled r
  | mutates {c : Call} {t : Target} {method : String} {r : Sym} {a : Arg} (hc : c ∈ m.calls)
      (hread : c.target.readOnly names = false) (ht : c.target = .dot t method)
      (hmethod : method ∈ MUTATING) (hr : t.root = some r) (ha : a ∈ c.args)
      (hcarries : Carries m free a.walked) : Fills free filled r
  | argument {c : Call} {i : ℕ} {a : Arg} {r : Sym} (hc : c ∈ m.calls)
      (hread : c.target.readOnly names = false) (hi : c.args[i]? = some a) (hr : a.root = some r)
      (h : ¬ FreeCallee names elementImport m free c.target ∨
        ∃ b ∈ c.args.eraseIdx i, Carries m free b.walked) : Fills free filled r
  | write {w : Sym × Walked} (hw : w ∈ m.memberWrites) (hcarries : Carries m free w.2) :
      Fills free filled w.1
  | flow {f : Sym × Sym} (hf : f ∈ m.flows) (ht : f.1 ∈ filled) : Fills free filled f.2

/-- A set of filled bindings that is closed under the rules. -/
def ClosedFilled (filled : Finset Sym) : Prop :=
  ∀ k, Fills names elementImport m (Free names elementImport m filled) filled k → k ∈ filled

variable {names elementImport m}

/-! ### The free declarations -/

theorem readOk_mono {s t : Finset Sym} (h : s ⊆ t) {w : Walked} {r : Sym}
    (hr : readOk names elementImport m s w r = true) :
    readOk names elementImport m t w r = true := by
  rw [readOk] at hr ⊢
  cases himport : names.importOf r with
  | some i =>
      rw [himport] at hr
      exact hr
  | none =>
      rw [himport, Option.elim_none] at hr
      rw [Option.elim_none]
      split
      · next hmodule =>
        rw [if_pos hmodule, decide_eq_true_iff] at hr
        exact decide_eq_true (h hr)
      · next hmodule =>
        rw [if_neg hmodule] at hr
        exact hr

theorem freeRule_iff {filled free : Finset Sym} {row : Sym × Option Walked} :
    freeRule names elementImport m filled free row = true ↔
      ∃ w, row.2 = some w ∧ row.1 ∉ m.assigned ∧ row.1 ∉ filled ∧ w.jsx = false ∧
        ∀ r ∈ w.used, readOk names elementImport m free w r = true := by
  rw [freeRule, Option.any_eq_true]
  refine exists_congr fun w => and_congr_right fun _ => ?_
  simp only [Bool.and_eq_true, Bool.not_eq_true', List.contains_eq_mem, decide_eq_false_iff_not,
    List.all_eq_true, and_assoc]

theorem freeRule_mono (filled : Finset Sym) :
    MonotoneRule (freeRule names elementImport m filled) := by
  intro s t h row hrow
  obtain ⟨w, hw, ha, hf, hjsx, hreads⟩ := freeRule_iff.mp hrow
  exact freeRule_iff.mpr ⟨w, hw, ha, hf, hjsx, fun r hr => readOk_mono h (hreads r hr)⟩

theorem freeGiven_isLeast (filled : Finset Sym) :
    IsLeast {z | (m.always.filter fun k => !m.assigned.contains k).toFinset ⊆ z ∧
      Closed Prod.fst (freeRule names elementImport m filled) m.rows z}
      (freeGiven names elementImport m filled) :=
  grow_isLeast (freeRule_mono filled) m.rows _

/-- The more is filled, the less is free. -/
theorem freeGiven_anti : Antitone (freeGiven names elementImport m) := by
  intro s t h
  refine (freeGiven_isLeast t).2 ⟨(freeGiven_isLeast s).1.1, fun row hrow hfires => ?_⟩
  obtain ⟨w, hw, ha, hf, hjsx, hreads⟩ := freeRule_iff.mp hfires
  exact (freeGiven_isLeast s).1.2 row hrow
    (freeRule_iff.mpr ⟨w, hw, ha, fun hmem => hf (h hmem), hjsx, hreads⟩)

theorem free_iff {filled : Finset Sym} {k : Sym} :
    Free names elementImport m filled k ↔ k ∈ freeGiven names elementImport m filled := by
  constructor
  · intro h
    induction h with
    | always hk ha =>
        refine (freeGiven_isLeast filled).1.1 (List.mem_toFinset.mpr (List.mem_filter.mpr ⟨hk, ?_⟩))
        simpa using ha
    | @decl k w hrow ha hfilled hjsx himport hmodule hother ih =>
        refine (freeGiven_isLeast filled).1.2 (k, some w) hrow
          (freeRule_iff.mpr ⟨w, rfl, ha, hfilled, hjsx, fun r hr => ?_⟩)
        rw [readOk]
        cases hi : names.importOf r with
        | some i => simp [himport r hr i hi]
        | none =>
            rw [Option.elim_none]
            split
            · next hmem => exact decide_eq_true (ih r hr hi (by simpa using hmem))
            · next hmem => simpa using hother r hr hi (by simpa using hmem)
  · intro h
    classical
    -- The symbols of the module that are free are closed under the rule.
    have hleast := (@freeGiven_isLeast names elementImport m filled).2
      (show (freeGiven names elementImport m filled).filter
        (Free names elementImport m filled) ∈ _ from ⟨?_, ?_⟩)
    · exact (Finset.mem_filter.mp (hleast h)).2
    · intro a ha
      refine Finset.mem_filter.mpr ⟨(freeGiven_isLeast filled).1.1 ha, ?_⟩
      rw [List.mem_toFinset, List.mem_filter] at ha
      exact .always ha.1 (by simpa using ha.2)
    · intro row hrow hfires
      refine Finset.mem_filter.mpr ⟨(freeGiven_isLeast filled).1.2 row hrow
        (freeRule_mono filled (Finset.filter_subset _ _) row hfires), ?_⟩
      obtain ⟨w, hw, ha, hf, hjsx, hreads⟩ := freeRule_iff.mp hfires
      obtain ⟨k, o⟩ := row
      cases hw
      refine .decl hrow ha hf hjsx (fun r hr i hi => ?_) (fun r hr hi hmem => ?_)
        (fun r hr hi hmem => ?_)
      · have hread := hreads r hr
        rw [readOk, hi] at hread
        simpa using hread
      · have hread := hreads r hr
        rw [readOk, hi, Option.elim_none, if_pos (by simpa using hmem), decide_eq_true_iff] at hread
        exact (Finset.mem_filter.mp hread).2
      · have hread := hreads r hr
        rw [readOk, hi, Option.elim_none, if_neg (by simpa using hmem)] at hread
        simpa using hread

/-! ### What is filled -/

theorem carries_iff {free : Finset Sym} {w : Walked} :
    carries m free w = true ↔ Carries m (· ∈ free) w := by
  rw [carries, Carries, Bool.or_eq_true, List.any_eq_true]
  refine or_congr_right (exists_congr fun r => and_congr_right fun _ => ?_)
  simp only [Bool.not_eq_true', Bool.and_eq_false_iff, List.contains_eq_mem,
    decide_eq_false_iff_not, not_and_or]

theorem freeCallee_iff {free : Finset Sym} {c : Callee} :
    c.free names elementImport m free = true ↔ FreeCallee names elementImport m (· ∈ free) c := by
  cases c with
  | ident r =>
      simp only [Callee.free, FreeCallee, Bool.or_eq_true, Bool.and_eq_true, List.contains_eq_mem,
        decide_eq_true_iff]
  | importIdent r => exact Iff.rfl
  | dot t method => exact iff_of_false Bool.false_ne_true id
  | other => exact iff_of_false Bool.false_ne_true id

theorem Carries.anti {p q : Sym → Prop} (h : ∀ r, p r → q r) {w : Walked} (hw : Carries m q w) :
    Carries m p w := by
  rcases hw with hjsx | ⟨r, hr, hno⟩
  · exact .inl hjsx
  · exact .inr ⟨r, hr, fun hp => hno ⟨hp.1, h r hp.2⟩⟩

theorem FreeCallee.mono {p q : Sym → Prop} (h : ∀ r, p r → q r) {c : Callee}
    (hc : FreeCallee names elementImport m p c) : FreeCallee names elementImport m q c := by
  cases c with
  | ident r => exact hc.imp (fun hr => ⟨hr.1, h r hr.2⟩) id
  | importIdent r => exact hc
  | dot t method => exact hc
  | other => exact hc

/-- The less is free and the more is filled, the more is filled. -/
theorem Fills.mono {p q : Sym → Prop} {s t : Finset Sym} (h : ∀ r, p r → q r) (hst : s ⊆ t)
    {k : Sym} (hk : Fills names elementImport m q s k) : Fills names elementImport m p t k := by
  cases hk with
  | written hr => exact .written hr
  | mutates hc hread ht hmethod hr ha hcarries =>
      exact .mutates hc hread ht hmethod hr ha (hcarries.anti h)
  | argument hc hread hi hr hcall =>
      exact .argument hc hread hi hr (hcall.imp (fun hno hp => hno (hp.mono h))
        fun ⟨b, hb, hcarries⟩ => ⟨b, hb, hcarries.anti h⟩)
  | write hw hcarries => exact .write hw (hcarries.anti h)
  | flow hf ht => exact .flow hf (hst ht)

theorem mem_mutated {free : Finset Sym} {c : Call} {r : Sym} : r ∈ mutated m free c ↔
    ∃ t method a, c.target = .dot t method ∧ method ∈ MUTATING ∧ t.root = some r ∧ a ∈ c.args ∧
      Carries m (· ∈ free) a.walked := by
  rw [mutated]
  cases hc : c.target with
  | dot t method =>
      have hcond : (MUTATING.contains method && c.args.any fun a =>
        carries m free a.walked) = true ↔
          method ∈ MUTATING ∧ ∃ a ∈ c.args, Carries m (· ∈ free) a.walked := by
        simp only [Bool.and_eq_true, List.contains_eq_mem, decide_eq_true_iff, List.any_eq_true,
          carries_iff]
      dsimp only
      split
      · next hyes =>
        obtain ⟨hmethod, a, ha, hcarries⟩ := hcond.mp hyes
        rw [Option.mem_toList]
        constructor
        · exact fun hr => ⟨t, method, a, rfl, hmethod, hr, ha, hcarries⟩
        · rintro ⟨t', method', -, heq, -, hr, -, -⟩
          cases heq
          exact hr
      · next hno =>
        refine iff_of_false List.not_mem_nil ?_
        rintro ⟨t', method', a, heq, hmethod, -, ha, hcarries⟩
        cases heq
        exact hno (hcond.mpr ⟨hmethod, a, ha, hcarries⟩)
  | ident r => simp
  | importIdent r => simp
  | other => simp

theorem mem_argued {free : Finset Sym} {c : Call} {r : Sym} :
    r ∈ argued names elementImport m free c ↔ ∃ (i : ℕ) (a : Arg), c.args[i]? = some a ∧
      a.root = some r ∧ (¬ FreeCallee names elementImport m (· ∈ free) c.target ∨
        ∃ b ∈ c.args.eraseIdx i, Carries m (· ∈ free) b.walked) := by
  have hcond : ∀ i, (!c.target.free names elementImport m free ||
      (c.args.eraseIdx i).any fun b => carries m free b.walked) = true ↔
      ¬ FreeCallee names elementImport m (· ∈ free) c.target ∨
        ∃ b ∈ c.args.eraseIdx i, Carries m (· ∈ free) b.walked := fun i => by
    rw [Bool.or_eq_true, Bool.not_eq_true', ← Bool.not_eq_true, freeCallee_iff, List.any_eq_true]
    simp only [carries_iff]
  rw [argued, List.mem_flatMap]
  constructor
  · rintro ⟨⟨a, i⟩, ha, hr⟩
    rw [List.mem_zipIdx_iff_getElem?] at ha
    dsimp only at hr
    split at hr
    · next hyes => exact ⟨i, a, ha, Option.mem_toList.mp hr, (hcond i).mp hyes⟩
    · cases hr
  · rintro ⟨i, a, ha, hr, h⟩
    refine ⟨(a, i), List.mem_zipIdx_iff_getElem?.mpr ha, ?_⟩
    dsimp only
    rw [if_pos ((hcond i).mpr h)]
    exact Option.mem_toList.mpr hr

/-- The rules in one round: what is filled at once, and what a filled binding was made from. -/
theorem fills_iff {free s : Finset Sym} {k : Sym} :
    Fills names elementImport m (· ∈ free) s k ↔
      k ∈ base m ∪ direct names elementImport m free ∨ ∃ f ∈ m.flows, f.1 ∈ s ∧ f.2 = k := by
  have hcall : ∀ {c : Call}, c ∈ m.calls → ∀ {r : Sym},
      r ∈ callFills names elementImport m free c → r ∈ base m ∪ direct names elementImport m free :=
    fun hc _ hr => Finset.mem_union_right _ (List.mem_toFinset.mpr
      (List.mem_append_left _ (List.mem_flatMap.mpr ⟨_, hc, hr⟩)))
  constructor
  · intro h
    cases h with
    | written hr => exact .inl (Finset.mem_union_left _ (List.mem_toFinset.mpr hr))
    | mutates hc hread ht hmethod hr ha hcarries =>
        refine .inl (hcall hc ?_)
        rw [callFills, hread, if_neg Bool.false_ne_true]
        exact List.mem_append_left _ (mem_mutated.mpr ⟨_, _, _, ht, hmethod, hr, ha, hcarries⟩)
    | argument hc hread hi hr hor =>
        refine .inl (hcall hc ?_)
        rw [callFills, hread, if_neg Bool.false_ne_true]
        exact List.mem_append_right _ (mem_argued.mpr ⟨_, _, hi, hr, hor⟩)
    | @write w hw hcarries =>
        refine .inl (Finset.mem_union_right _ (List.mem_toFinset.mpr
          (List.mem_append_right _ (List.mem_flatMap.mpr ⟨w, hw, ?_⟩))))
        rw [writeFills, if_pos (carries_iff.mpr hcarries)]
        exact List.mem_singleton_self _
    | flow hf ht => exact .inr ⟨_, hf, ht, rfl⟩
  · rintro (h | ⟨f, hf, ht, rfl⟩)
    · rcases Finset.mem_union.mp h with hbase | hdirect
      · exact .written (List.mem_toFinset.mp hbase)
      rcases List.mem_append.mp (List.mem_toFinset.mp hdirect) with hmem | hmem
      · obtain ⟨c, hc, hk⟩ := List.mem_flatMap.mp hmem
        rw [callFills] at hk
        split at hk
        · cases hk
        next hread =>
        rcases List.mem_append.mp hk with hk | hk
        · obtain ⟨t, method, a, ht, hmethod, hr, ha, hcarries⟩ := mem_mutated.mp hk
          exact .mutates hc (Bool.not_eq_true _ ▸ hread) ht hmethod hr ha hcarries
        · obtain ⟨i, a, ha, hr, hor⟩ := mem_argued.mp hk
          exact .argument hc (Bool.not_eq_true _ ▸ hread) ha hr hor
      · obtain ⟨w, hw, hk⟩ := List.mem_flatMap.mp hmem
        rw [writeFills] at hk
        split at hk
        · next hcarries =>
          obtain rfl := List.mem_singleton.mp hk
          exact .write hw (carries_iff.mp hcarries)
        · cases hk
    · exact .flow hf ht

/-! ### Rounds -/

theorem flowed_isLeast (s : Finset Sym) :
    IsLeast {z | s ⊆ z ∧ Closed Prod.snd flowRule m.flows z} (flowed m s) := by
  have hrule : MonotoneRule flowRule := fun _ _ h _ hf => decide_eq_true (h (of_decide_eq_true hf))
  exact grow_isLeast hrule m.flows s

theorem flowed_mono : Monotone (flowed m) := by
  intro s t h
  exact (flowed_isLeast s).2 ⟨h.trans (flowed_isLeast t).1.1, (flowed_isLeast t).1.2⟩

theorem direct_anti {s t : Finset Sym} (h : s ⊆ t) :
    base m ∪ direct names elementImport m t ⊆ base m ∪ direct names elementImport m s := by
  intro k hk
  have hfills := (fills_iff (s := ∅).mpr (.inl hk)).mono (fun r hr => h hr) le_rfl
  rcases fills_iff.mp hfills with hdirect | ⟨f, -, hf, -⟩
  · exact hdirect
  · exact absurd hf (Finset.notMem_empty _)

/-- **A round of more filled bindings fills more.** -/
theorem round_mono : Monotone (round names elementImport m) := fun _ _ h =>
  flowed_mono (direct_anti (freeGiven_anti h))

theorem base_subset_round (s : Finset Sym) : base m ⊆ round names elementImport m s :=
  Finset.subset_union_left.trans (flowed_isLeast _).1.1

theorem fillable_of_root {c : Call} (hc : c ∈ m.calls) {r : Sym}
    (hr : c.target.root = some r ∨ ∃ a ∈ c.args, a.root = some r) : r ∈ fillable m := by
  refine List.mem_toFinset.mpr (List.mem_append_left _ (List.mem_append_left _
    (List.mem_append_right _ (List.mem_flatMap.mpr ⟨c, hc, List.reduceOption_mem_iff.mpr ?_⟩))))
  rcases hr with hr | ⟨a, ha, hr⟩
  · exact hr ▸ List.mem_cons_self ..
  · exact List.mem_cons_of_mem _ (List.mem_map.mpr ⟨a, ha, hr⟩)

theorem round_subset_fillable (s : Finset Sym) : round names elementImport m s ⊆ fillable m := by
  refine (flowed_isLeast _).2 ⟨fun k hk => ?_, fun f hf _ => ?_⟩
  · have hfills := fills_iff (s := ∅).mpr (.inl hk)
    cases hfills with
    | written hr =>
        exact List.mem_toFinset.mpr (List.mem_append_left _ (List.mem_append_left _
          (List.mem_append_left _ hr)))
    | mutates hc hread ht hmethod hr ha hcarries =>
        exact fillable_of_root hc (.inl (by rw [ht]; exact hr))
    | argument hc hread hi hr hor =>
        exact fillable_of_root hc (.inr ⟨_, List.mem_of_getElem? hi, hr⟩)
    | write hw hcarries =>
        exact List.mem_toFinset.mpr (List.mem_append_left _ (List.mem_append_right _
          (List.mem_map_of_mem hw)))
    | flow hf ht => exact absurd ht (Finset.notMem_empty _)
  · exact List.mem_toFinset.mpr (List.mem_append_right _ (List.mem_map_of_mem hf))

/-- The rounds from the written bindings end. -/
theorem filled_fixed : round names elementImport m (filled names elementImport m) =
    filled names elementImport m :=
  (settle_isLeast round_mono (base_subset_round _) (fun t _ => round_subset_fillable t)
    ((@base_subset_round names elementImport m _).trans
      (round_subset_fillable ∅)) (Finset.card_le_card Finset.sdiff_subset)).1

theorem Fills.congr {p q : Sym → Prop} (h : ∀ r, p r ↔ q r) {s : Finset Sym} {k : Sym} :
    Fills names elementImport m p s k ↔ Fills names elementImport m q s k :=
  ⟨Fills.mono (fun r => (h r).mpr) le_rfl, Fills.mono (fun r => (h r).mp) le_rfl⟩

/-- **The filled bindings of the last round are the least set closed under the rules.** -/
theorem filled_isLeast : IsLeast {s | ClosedFilled names elementImport m s}
    (filled names elementImport m) := by
  refine ⟨fun k hk => ?_, fun s hs => ?_⟩
  · rw [Fills.congr fun _ => free_iff, fills_iff] at hk
    rw [← filled_fixed]
    rcases hk with hk | ⟨f, hf, ht, rfl⟩
    · exact (flowed_isLeast _).1.1 hk
    · rw [← filled_fixed] at ht
      exact (flowed_isLeast _).1.2 f hf (decide_eq_true ht)
  · have hfills : ∀ k, Fills names elementImport m (· ∈ freeGiven names elementImport m s) s
      k → k ∈ s :=
      fun k hk => hs k ((Fills.congr fun _ => free_iff).mpr hk)
    refine (settle_isLeast round_mono (base_subset_round _) (fun t _ => round_subset_fillable t)
      ((@base_subset_round names elementImport m _).trans
        (round_subset_fillable ∅)) (Finset.card_le_card Finset.sdiff_subset)).2.2 ⟨?_, ?_⟩
    · exact fun k hk => hfills k (.written (List.mem_toFinset.mp hk))
    · exact (flowed_isLeast _).2 ⟨fun k hk => hfills k (fills_iff.mpr (.inl hk)),
        fun f hf ht => hfills _ (.flow hf (of_decide_eq_true ht))⟩

/-! ### The order of the module -/

/-- The same declarations, calls and writes in another order. -/
structure Reordered (m m' : Module) : Prop where
  decls : m.decls.Perm m'.decls
  assigned : m.assigned.Perm m'.assigned
  memberWritten : m.memberWritten.Perm m'.memberWritten
  opaqueWrite : m.opaqueWrite = m'.opaqueWrite
  calls : m.calls.Perm m'.calls
  memberWrites : m.memberWrites.Perm m'.memberWrites
  flows : m.flows.Perm m'.flows

variable {m' : Module}

theorem Reordered.symm (h : Reordered m m') : Reordered m' m :=
  ⟨h.decls.symm, h.assigned.symm, h.memberWritten.symm, h.opaqueWrite.symm, h.calls.symm,
    h.memberWrites.symm, h.flows.symm⟩

theorem Reordered.rows (h : Reordered m m') : m.rows.Perm m'.rows := by
  have hunknown : m.writesUnknown = m'.writesUnknown := by
    rw [Module.writesUnknown, Module.writesUnknown, h.opaqueWrite, h.calls.any_eq]
  rw [Module.rows, Module.rows, hunknown]
  exact h.decls.flatMap_right _

theorem Reordered.moduleKeys (h : Reordered m m') {r : Sym} (hr : r ∈ m.moduleKeys) :
    r ∈ m'.moduleKeys :=
  (h.rows.map _).mem_iff.mp hr

theorem Reordered.free (h : Reordered m m') {s : Finset Sym} {k : Sym}
    (hk : Free names elementImport m s k) : Free names elementImport m' s k := by
  induction hk with
  | always hk ha =>
      exact .always ((h.decls.flatMap_right _).mem_iff.mp hk) fun hmem =>
        ha (h.assigned.mem_iff.mpr hmem)
  | decl hrow ha hfilled hjsx himport _ hother ih =>
      exact .decl (h.rows.mem_iff.mp hrow) (fun hmem => ha (h.assigned.mem_iff.mpr hmem))
        hfilled hjsx
        himport (fun r hr hi hmem => ih r hr hi (h.symm.moduleKeys hmem))
        fun r hr hi hno => hother r hr hi fun hmem => hno (h.moduleKeys hmem)

theorem Reordered.carries (h : Reordered m m') {p : Sym → Prop} {w : Walked}
    (hw : Carries m p w) : Carries m' p w :=
  hw.imp id fun ⟨r, hr, hno⟩ => ⟨r, hr, fun hp => hno ⟨h.symm.moduleKeys hp.1, hp.2⟩⟩

theorem Reordered.freeCallee (h : Reordered m m') {p : Sym → Prop} {c : Callee}
    (hc : FreeCallee names elementImport m p c) : FreeCallee names elementImport m' p c := by
  cases c with
  | ident r => exact hc.imp (fun hr => ⟨h.moduleKeys hr.1, hr.2⟩) id
  | importIdent r => exact hc
  | dot t method => exact hc
  | other => exact hc

theorem Reordered.fills (h : Reordered m m') {p : Sym → Prop} {s : Finset Sym} {k : Sym}
    (hk : Fills names elementImport m p s k) : Fills names elementImport m' p s k := by
  cases hk with
  | written hr => exact .written (h.memberWritten.mem_iff.mp hr)
  | mutates hc hread ht hmethod hr ha hcarries =>
      exact .mutates (h.calls.mem_iff.mp hc) hread ht hmethod hr ha (h.carries hcarries)
  | argument hc hread hi hr hor =>
      exact .argument (h.calls.mem_iff.mp hc) hread hi hr
        (hor.imp (fun hno hfree => hno (h.symm.freeCallee hfree))
          fun ⟨b, hb, hcarries⟩ => ⟨b, hb, h.carries hcarries⟩)
  | write hw hcarries => exact .write (h.memberWrites.mem_iff.mp hw) (h.carries hcarries)
  | flow hf ht => exact .flow (h.flows.mem_iff.mp hf) ht

theorem Reordered.closedFilled (h : Reordered m m') {s : Finset Sym}
    (hs : ClosedFilled names elementImport m s) : ClosedFilled names elementImport m' s :=
  fun k hk => hs k ((h.symm.fills hk).mono (fun _ hfree => h.free hfree) le_rfl)

theorem Reordered.filled (h : Reordered m m') :
    filled names elementImport m = filled names elementImport m' :=
  le_antisymm (filled_isLeast.2 (h.symm.closedFilled filled_isLeast.1))
    (filled_isLeast.2 (h.closedFilled filled_isLeast.1))

/-- The names do not depend on the order of the declarations, calls and writes. -/
theorem elementFreeFns_perm (h : Reordered m m') :
    (elementFreeFns names elementImport m).Perm (elementFreeFns names elementImport m') := by
  have hfree : ∀ k, k ∈ freeGiven names elementImport m (ElementFree.filled names elementImport m) ↔
      k ∈ freeGiven names elementImport m' (ElementFree.filled names elementImport m') :=
        fun k => by
    rw [← free_iff, ← free_iff, h.filled]
    exact ⟨h.free, h.symm.free⟩
  rw [elementFreeFns, elementFreeFns]
  simp only [hfree]
  exact (h.rows.filter _).map _

variable (names elementImport m) in
/-- **The analysis ends at a least solution.**  The filled bindings only grow from round to round,
and after finitely many a round changes nothing; what is filled then is the least set closed under
the rules, the names returned are those free under it, and no order of the module matters. -/
theorem element_free_least :
    (∀ n, (round names elementImport m)^[n] (base m) ⊆
      (round names elementImport m)^[n + 1] (base m)) ∧
    (∃ n, (round names elementImport m)^[n] (base m) = filled names elementImport m ∧
      round names elementImport m (filled names elementImport m) = filled names elementImport m) ∧
    IsLeast {s | ClosedFilled names elementImport m s} (filled names elementImport m) ∧
    (∀ x, x ∈ elementFreeFns names elementImport m ↔ ∃ row ∈ m.rows, names.name row.1 = x ∧
      Free names elementImport m (filled names elementImport m) row.1) ∧
    ∀ m', Reordered m m' →
      (elementFreeFns names elementImport m).Perm (elementFreeFns names elementImport m') := by
  refine ⟨fun n => ?_, ⟨(fillable m).card, (settle_eq_iterate _ _ _).symm, filled_fixed⟩,
    filled_isLeast, fun x => ?_, fun m' h => elementFreeFns_perm h⟩
  · exact Monotone.monotone_iterate_of_le_map round_mono (base_subset_round _) (Nat.le_succ n)
  · rw [elementFreeFns, List.mem_map]
    constructor
    · rintro ⟨row, hrow, rfl⟩
      obtain ⟨hrow, hfree⟩ := List.mem_filter.mp hrow
      exact ⟨row, hrow, rfl, free_iff.mpr (of_decide_eq_true hfree)⟩
    · rintro ⟨row, hrow, rfl, hfree⟩
      exact ⟨row, List.mem_filter.mpr ⟨hrow, decide_eq_true (free_iff.mp hfree)⟩, rfl⟩

end
end Brust.Compiler.ElementFree
