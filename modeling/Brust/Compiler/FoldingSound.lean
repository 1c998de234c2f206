import Brust.Compiler.Folding
import Brust.Jinja.OperatorsAgree
import Brust.Support.Except

/-!
# Compiler — A folded constant is what JavaScript evaluates

The values that JavaScript gives the expressions that fold (`Evaluates`): names by their scope, a
module's constant by its initializer, operators as ECMAScript defines them, callbacks with the
arguments that `map` and `Array.from` call them with.  Whatever a session folded before, and failed
to, a value that it returns is that one (`fold_evaluates`), and an expression has no other
(`Evaluates.unique`).

Two things are outside: `__proto__` as a key of an object, which is no property in JavaScript, and a
third parameter of a callback of `Array.from`, which JavaScript calls with two arguments.
-/

namespace Brust.Compiler.Folding

open Jinja (Conversions Js units signText numberText)

/-! ### What JavaScript evaluates -/

mutual

/-- The value that the operators see. -/
def V.js : V → Js
  | .undefined => .undefined
  | .null => .null
  | .bool b => .bool b
  | .num n => .num n
  | .str s => .str s.toList
  | .arr items => .arr (jsAll items)
  | .obj props => .obj (props.map Prod.fst)

def jsAll : List V → List Js
  | [] => []
  | v :: vs => v.js :: jsAll vs

end

def V.primitive : V → Bool
  | .arr _ | .obj _ => false
  | _ => true

theorem js_inj {v w : V} (hv : v.primitive = true) (hw : w.primitive = true) (h : v.js = w.js) :
    v = w := by
  cases v <;> cases w <;> simp_all [V.js, V.primitive, String.toList_inj]

/-- The property of a value under a name. -/
inductive Gets : V → String → V → Prop
  | length (items : List V) {name : String} (h : name = "length") :
      Gets (.arr items) name (.num (Double.ofInt items.length))
  | units (s : String) {name : String} (h : name = "length") :
      Gets (.str s) name (.num (Double.ofInt (units s.toList).length))
  | own {props : List (String × V)} {k : String} {v : V} (h : props.lookup k = some v) :
      Gets (.obj props) k v
  | missing {props : List (String × V)} {k : String} (h : props.lookup k = none)
      (hproto : k ∉ PROTO_NAMES) : Gets (.obj props) k .undefined

/-- The number is a natural one. -/
def IsIndex : Double → ℕ → Prop
  | .fin a p, k => Double.signed a p = k
  | _, _ => False

section
variable [Conversions]

def jsUnary : UnOp → Js → Option Js
  | .not, x => some (.bool !x.toBoolean)
  | .neg, x => Js.unary Double.neg x
  | .pos, x => Js.unary id x
  | .typeof, _ => none

/-- The operators that evaluate both sides. -/
def jsBinary : BinOp → Js → Js → Option Js
  | .add, x, y => Js.add x y
  | .sub, x, y => Js.arith Double.sub x y
  | .mul, x, y => Js.arith Double.mul x y
  | .div, x, y => Js.arith Double.div x y
  | .rem, x, y => Js.arith Double.rem x y
  | .lt, x, y => (x.relation y .lt).map .bool
  | .le, x, y => (x.relation y .le).map .bool
  | .gt, x, y => (x.relation y .gt).map .bool
  | .ge, x, y => (x.relation y .ge).map .bool
  | .eq, x, y => (x.looseEq y).map .bool
  | .ne, x, y => (x.looseEq y).map fun e => .bool !e
  | .strictEq, x, y => some (.bool (x.strictEq y))
  | .strictNe, x, y => some (.bool !(x.strictEq y))
  | .and, _, _ | .or, _, _ | .nullish, _, _ => none

def global (name : String) : Option V :=
  if name = "undefined" then some .undefined
  else if name = "NaN" then some (.num .nan)
  else if name = "Infinity" then some (.num (.inf false))
  else none

/-- Parameters and their arguments; of those that are missing, `undefined`. -/
def arguments : List String → List V → List (String × V)
  | [], _ => []
  | p :: ps, [] => (p, .undefined) :: arguments ps []
  | p :: ps, a :: as => (p, a) :: arguments ps as

/-- **The values of expressions**, in a scope of parameters and over the constants of a module. -/
inductive Evaluates (consts : String → Option (RawExpr Double)) :
    List (String × V) → RawExpr Double → V → Prop
  | lit (scope : List (String × V)) (l : Literal Double) :
      Evaluates consts scope (.lit l) (ofLiteral l)
  | bound {scope : List (String × V)} {name : String} {v : V} (h : scope.lookup name = some v)
      (kind : IdentKind) : Evaluates consts scope (.ident name kind) v
  | const {scope : List (String × V)} {name : String} {init : RawExpr Double} {v : V}
      (h : scope.lookup name = none) (hinit : consts name = some init)
      (hv : Evaluates consts [] init v) : Evaluates consts scope (.ident name .localName) v
  | global {scope : List (String × V)} {name : String} {v : V} (h : scope.lookup name = none)
      (hv : global name = some v) : Evaluates consts scope (.ident name .globalName) v
  | member {scope : List (String × V)} {target : RawExpr Double} {name : String} {t v : V}
      (ht : Evaluates consts scope target t) (hv : Gets t name v) (optional : Bool) :
      Evaluates consts scope (.member target name optional) v
  | missed {scope : List (String × V)} {target : RawExpr Double} {name : String} {t : V}
      (ht : Evaluates consts scope target t) (h : t.nullish = true) :
      Evaluates consts scope (.member target name true) .undefined
  | item {scope : List (String × V)} {target i : RawExpr Double} {items : List V} {n : Double}
      {k : ℕ} (ht : Evaluates consts scope target (.arr items))
      (hi : Evaluates consts scope i (.num n)) (hk : IsIndex n k) :
      Evaluates consts scope (.index target i) (items[k]?.getD .undefined)
  | noItem {scope : List (String × V)} {target i : RawExpr Double} {items : List V} {n : Double}
      (ht : Evaluates consts scope target (.arr items))
      (hi : Evaluates consts scope i (.num n)) (hk : ∀ k, ¬ IsIndex n k) :
      Evaluates consts scope (.index target i) .undefined
  | keyed {scope : List (String × V)} {target i : RawExpr Double} {props : List (String × V)}
      {k : String} {v : V} (ht : Evaluates consts scope target (.obj props))
      (hi : Evaluates consts scope i (.str k)) (hv : Gets (.obj props) k v) :
      Evaluates consts scope (.index target i) v
  | unary {scope : List (String × V)} {op : UnOp} {e : RawExpr Double} {a v : V}
      (ha : Evaluates consts scope e a) (h : jsUnary op a.js = some v.js)
      (hv : v.primitive = true) : Evaluates consts scope (.unary op e) v
  | binary {scope : List (String × V)} {op : BinOp} {left right : RawExpr Double} {a b v : V}
      (ha : Evaluates consts scope left a) (hb : Evaluates consts scope right b)
      (hone : (a.primitive || b.primitive) = true) (h : jsBinary op a.js b.js = some v.js)
      (hv : v.primitive = true) : Evaluates consts scope (.binary op left right) v
  | decided {scope : List (String × V)} {op : BinOp} {left right : RawExpr Double} {a : V}
      (ha : Evaluates consts scope left a)
      (h : op = .and ∧ a.js.toBoolean = false ∨ op = .or ∧ a.js.toBoolean = true ∨
        op = .nullish ∧ a.nullish = false) : Evaluates consts scope (.binary op left right) a
  | passed {scope : List (String × V)} {op : BinOp} {left right : RawExpr Double} {a v : V}
      (ha : Evaluates consts scope left a)
      (h : op = .and ∧ a.js.toBoolean = true ∨ op = .or ∧ a.js.toBoolean = false ∨
        op = .nullish ∧ a.nullish = true)
      (hv : Evaluates consts scope right v) : Evaluates consts scope (.binary op left right) v
  | cond {scope : List (String × V)} {test yes no : RawExpr Double} {a v : V}
      (ha : Evaluates consts scope test a)
      (hv : Evaluates consts scope (if a.js.toBoolean then yes else no) v) :
      Evaluates consts scope (.cond test yes no) v
  | text (scope : List (String × V)) (head : String) :
      Evaluates consts scope (.template head []) (.str head)
  | hole {scope : List (String × V)} {head tail : String} {e : RawExpr Double}
      {parts : List (RawExpr Double × String)} {a : V} {s : List Char} {r : String}
      (ha : Evaluates consts scope e a) (hs : Js.toStr a.js = some s)
      (hr : Evaluates consts scope (.template tail parts) (.str r)) :
      Evaluates consts scope (.template head ((e, tail) :: parts))
        (.str (String.ofList (head.toList ++ s ++ r.toList)))
  | nil (scope : List (String × V)) : Evaluates consts scope (.array []) (.arr [])
  | cons {scope : List (String × V)} {e : RawExpr Double} {es : List (RawExpr Double)} {v : V}
      {vs : List V} (hv : Evaluates consts scope e v)
      (hvs : Evaluates consts scope (.array es) (.arr vs)) :
      Evaluates consts scope (.array (e :: es)) (.arr (v :: vs))
  | empty (scope : List (String × V)) : Evaluates consts scope (.object []) (.obj [])
  | define {scope : List (String × V)} {init props : List (String × RawExpr Double)} {k : String}
      {e : RawExpr Double} {out : List (String × V)} {v : V} (hprops : props = init ++ [(k, e)])
      (hout : Evaluates consts scope (.object init) (.obj out))
      (hv : Evaluates consts scope e v) (hk : k ≠ "__proto__") :
      Evaluates consts scope (.object props) (.obj (setProp out k v))
  | map {scope : List (String × V)} {target body : RawExpr Double} {name : String}
      {params : List String} {captures : Captures} {items vs : List V} (hname : name = "map")
      (ht : Evaluates consts scope target (.arr items)) (hlength : vs.length = items.length)
      (hvs : ∀ (i : ℕ) it v, items[i]? = some it → vs[i]? = some v → Evaluates consts
        ((arguments params [it, .num (Double.ofInt i), .arr items]).reverse ++ scope) body v) :
      Evaluates consts scope (.call (.member target name false) [.arrow params body captures])
        (.arr vs)
  | holes {scope : List (String × V)} {len : RawExpr Double} {array name k : String} {n : Double}
      {m : ℕ} (harray : array = "Array") (hname : name = "from") (hk : k = "length")
      (hlen : Evaluates consts scope len (.num n)) (hm : IsIndex n m) :
      Evaluates consts scope (.call (.member (.ident array .globalName) name false)
        [.object [(k, len)]]) (.arr (List.replicate m .undefined))
  | from {scope : List (String × V)} {len body : RawExpr Double} {array name k : String}
      {params : List String} {captures : Captures} {n : Double} {vs : List V}
      (harray : array = "Array") (hname : name = "from") (hk : k = "length")
      (hlen : Evaluates consts scope len (.num n)) (hm : IsIndex n vs.length)
      (hvs : ∀ (i : ℕ) v, vs[i]? = some v → Evaluates consts
        ((arguments params [.undefined, .num (Double.ofInt i)]).reverse ++ scope) body v) :
      Evaluates consts scope (.call (.member (.ident array .globalName) name false)
        [.object [(k, len)], .arrow params body captures]) (.arr vs)
  | trim {scope : List (String × V)} {target : RawExpr Double} {name s : String}
      (hname : name = "trim") (ht : Evaluates consts scope target (.str s)) :
      Evaluates consts scope (.call (.member target name false) [])
        (.str (String.ofList (trimMatches isJsSpace s.toList)))
  | toString {scope : List (String × V)} {target : RawExpr Double} {name s : String}
      (hname : name = "toString") (ht : Evaluates consts scope target (.str s)) :
      Evaluates consts scope (.call (.member target name false) []) (.str s)

end

/-! ### One value -/

theorem Gets.unique {t v w : V} {name : String} (h : Gets t name v) (h' : Gets t name w) :
    v = w := by
  cases h with
  | length | units =>
      cases h'
      rfl
  | own h =>
      cases h' with
      | own h' => exact Option.some.inj (h.symm.trans h')
      | missing h' =>
          rw [h] at h'
          cases h'
  | missing h =>
      cases h' with
      | own h' =>
          rw [h] at h'
          cases h'
      | missing => rfl

theorem Gets.not_nullish {t v : V} {name : String} (h : Gets t name v) : t.nullish = false := by
  cases h <;> rfl

theorem IsIndex.unique {n : Double} {k l : ℕ} (h : IsIndex n k) (h' : IsIndex n l) : k = l := by
  cases n with
  | fin a p => exact Nat.cast_inj.mp (h.symm.trans h')
  | _ => exact h.elim

/-- A side that decides is not passed. -/
theorem not_decided {op : BinOp} {a : V}
    (h : op = .and ∧ a.js.toBoolean = false ∨ op = .or ∧ a.js.toBoolean = true ∨
      op = .nullish ∧ a.nullish = false)
    (h' : op = .and ∧ a.js.toBoolean = true ∨ op = .or ∧ a.js.toBoolean = false ∨
      op = .nullish ∧ a.nullish = true) : False := by
  rcases h with ⟨rfl, h⟩ | ⟨rfl, h⟩ | ⟨rfl, h⟩ <;> simp [h] at h'

section
variable [Conversions] {consts : String → Option (RawExpr Double)}

/-- An expression has one value. -/
theorem Evaluates.unique {scope : List (String × V)} {e : RawExpr Double} {v w : V}
    (h : Evaluates consts scope e v) (h' : Evaluates consts scope e w) : v = w := by
  -- on the first derivation; a form that two rules fit is told apart by its premises
  induction h generalizing w with
  | lit => cases h'; rfl
  | bound h =>
      cases h' with
      | bound h' => exact Option.some.inj (h.symm.trans h')
      | const h' | global h' =>
          rw [h] at h'
          cases h'
  | const h hinit _ ih =>
      cases h' with
      | bound h' =>
          rw [h] at h'
          cases h'
      | const _ hinit' hv' =>
          obtain rfl := Option.some.inj (hinit.symm.trans hinit')
          exact ih hv'
  | global h hv =>
      cases h' with
      | bound h' =>
          rw [h] at h'
          cases h'
      | global _ hv' => exact Option.some.inj (hv.symm.trans hv')
  | member ht hv optional ih =>
      cases h' with
      | member ht' hv' =>
          obtain rfl := ih ht'
          exact hv.unique hv'
      | missed ht' hnullish =>
          obtain rfl := ih ht'
          rw [hv.not_nullish] at hnullish
          cases hnullish
  | missed ht hnullish ih =>
      cases h' with
      | member ht' hv' =>
          obtain rfl := ih ht'
          rw [hv'.not_nullish] at hnullish
          cases hnullish
      | missed => rfl
  | item ht hi hk iht ihi =>
      cases h' with
      | item ht' hi' hk' =>
          obtain rfl := V.arr.inj (iht ht')
          obtain rfl := V.num.inj (ihi hi')
          rw [hk.unique hk']
      | noItem ht' hi' hk' =>
          obtain rfl := V.num.inj (ihi hi')
          exact absurd hk (hk' _)
      | keyed ht' => cases iht ht'
  | noItem ht hi hk iht ihi =>
      cases h' with
      | item ht' hi' hk' =>
          obtain rfl := V.num.inj (ihi hi')
          exact absurd hk' (hk _)
      | noItem => rfl
      | keyed ht' => cases iht ht'
  | keyed ht hi hv iht ihi =>
      cases h' with
      | item ht' | noItem ht' => cases iht ht'
      | keyed ht' hi' hv' =>
          obtain rfl := V.obj.inj (iht ht')
          obtain rfl := V.str.inj (ihi hi')
          exact hv.unique hv'
  | unary ha h hv ih =>
      cases h' with
      | unary ha' h' hv' =>
          obtain rfl := ih ha'
          exact js_inj hv hv' (Option.some.inj (h.symm.trans h'))
  | binary ha hb hone h hv iha ihb =>
      cases h' with
      | binary ha' hb' hone' h' hv' =>
          obtain rfl := iha ha'
          obtain rfl := ihb hb'
          exact js_inj hv hv' (Option.some.inj (h.symm.trans h'))
      | decided ha' hop | passed ha' hop =>
          rcases hop with ⟨rfl, -⟩ | ⟨rfl, -⟩ | ⟨rfl, -⟩ <;> cases h
  | decided ha hop ih =>
      cases h' with
      | binary ha' hb' hone' h' =>
          rcases hop with ⟨rfl, -⟩ | ⟨rfl, -⟩ | ⟨rfl, -⟩ <;> cases h'
      | decided ha' => exact ih ha'
      | passed ha' hop' =>
          obtain rfl := ih ha'
          exact (not_decided hop hop').elim
  | passed ha hop hv iha ihv =>
      cases h' with
      | binary ha' hb' hone' h' =>
          rcases hop with ⟨rfl, -⟩ | ⟨rfl, -⟩ | ⟨rfl, -⟩ <;> cases h'
      | decided ha' hop' =>
          obtain rfl := iha ha'
          exact (not_decided hop' hop).elim
      | passed _ _ hv' => exact ihv hv'
  | cond ha hv iha ihv =>
      cases h' with
      | cond ha' hv' =>
          obtain rfl := iha ha'
          exact ihv hv'
  | text => cases h'; rfl
  | hole ha hs hr iha ihr =>
      cases h' with
      | hole ha' hs' hr' =>
          obtain rfl := iha ha'
          obtain rfl := Option.some.inj (hs.symm.trans hs')
          obtain rfl := V.str.inj (ihr hr')
          rfl
  | nil => cases h'; rfl
  | cons hv hvs ihv ihvs =>
      cases h' with
      | cons hv' hvs' => rw [ihv hv', V.arr.inj (ihvs hvs')]
  | empty =>
      cases h' with
      | empty => rfl
      | define hprops' => exact absurd hprops' (by simp)
  | define hprops hout hv hk ihout ihv =>
      cases h' with
      | empty => exact absurd hprops (by simp)
      | define hprops' hout' hv' hk' =>
          obtain ⟨rfl, hlast⟩ := List.append_inj' (hprops.symm.trans hprops') rfl
          cases hlast
          rw [V.obj.inj (ihout hout'), ihv hv']
  | map hname ht hlength hvs iht ihvs =>
      cases h' with
      | map hname' ht' hlength' hvs' =>
          obtain rfl := V.arr.inj (iht ht')
          refine congrArg V.arr (List.ext_getElem (hlength.trans hlength'.symm) fun i hi hi' => ?_)
          have hit := List.getElem?_eq_getElem (hlength ▸ hi)
          exact ihvs i _ _ hit (List.getElem?_eq_getElem hi)
            (hvs' i _ _ hit (List.getElem?_eq_getElem hi'))
  | holes harray hname hk hlen hm ih =>
      cases h' with
      | holes harray' hname' hk' hlen' hm' =>
          obtain rfl := V.num.inj (ih hlen')
          rw [hm.unique hm']
  | «from» harray hname hk hlen hm hvs ihlen ihvs =>
      cases h' with
      | «from» harray' hname' hk' hlen' hm' hvs' =>
          obtain rfl := V.num.inj (ihlen hlen')
          refine congrArg V.arr (List.ext_getElem (hm.unique hm') fun i hi hi' => ?_)
          exact ihvs i _ (List.getElem?_eq_getElem hi) (hvs' i _ (List.getElem?_eq_getElem hi'))
  | trim hname ht ih =>
      cases h' with
      | trim _ ht' => rw [V.str.inj (ih ht')]
      | toString hname' => exact absurd (hname.symm.trans hname') (by decide)
  | toString hname ht ih =>
      cases h' with
      | trim hname' => exact absurd (hname.symm.trans hname') (by decide)
      | toString _ ht' => rw [V.str.inj (ih ht')]

end

/-! ### The operators of the folder -/

theorem truthy_js (v : V) : v.truthy = v.js.toBoolean := by
  cases v with
  | str s =>
      have hempty : s = "" ↔ s.toList = [] := by rw [← String.toList_inj]; rfl
      by_cases h : s = ""
      · subst h
        rfl
      · have hne : s.toList ≠ [] := fun hs => h (hempty.mpr hs)
        have htruthy : (s != "") = true := bne_iff_ne.mpr h
        have hempty : s.toList.isEmpty = false := List.isEmpty_eq_false_iff.mpr hne
        rw [V.truthy, V.js, Js.toBoolean, htruthy, hempty]
        rfl
  | _ => rfl

theorem member_gets {t v : V} {name : String} {optional : Bool}
    (h : member t name optional = .ok v) :
    Gets t name v ∨ t.nullish = true ∧ optional = true ∧ v = .undefined := by
  unfold member at h
  split at h
  · next hnullish =>
    split at h
    · next hopt =>
      cases h
      exact .inr ⟨hnullish, hopt, rfl⟩
    · cases h
  cases t with
  | arr items =>
      dsimp only at h
      split at h
      · next hname =>
        cases h
        exact .inl (.length items hname)
      · cases h
  | str s =>
      dsimp only at h
      split at h
      · next hname =>
        cases h
        exact .inl (.units s hname)
      · cases h
  | obj props =>
      dsimp only at h
      split at h
      · next w hw =>
        cases h
        exact .inl (.own hw)
      · next hnone =>
        split at h
        · cases h
        · next hproto =>
          cases h
          exact .inl (.missing hnone hproto)
  | _ => cases h

/-- An index is the number that it is made of. -/
theorem isIndex_iff {n : Double} {k : ℕ} : toIndex n = some k ↔ IsIndex n k := by
  cases n with
  | fin a p =>
      rw [toIndex, IsIndex]
      constructor
      · intro h
        split at h
        · next hq =>
          obtain rfl := Option.some.inj h
          have hnum : 0 ≤ (Double.signed a p).num := Rat.num_nonneg.mpr hq.1
          calc Double.signed a p = ((Double.signed a p).num : ℚ) :=
                (Rat.coe_int_num_of_den_eq_one hq.2).symm
            _ = (((Double.signed a p).num.toNat : ℤ) : ℚ) := by rw [Int.toNat_of_nonneg hnum]
            _ = ((Double.signed a p).num.toNat : ℚ) := Int.cast_natCast _
        · cases h
      · intro h
        rw [h]
        simp
  | _ => exact ⟨(fun h => by cases h), fun h => h.elim⟩

section
variable [Conversions]

theorem jsNumStr_eq {n : Double} {s : List Char} (h : jsNumStr n = some s) : s = numberText n := by
  unfold jsNumStr at h
  split at h
  · cases h
  · cases h
  next a p hn =>
  rw [← Jinja.jsNumber_eq, Jinja.jsNumber, hn]
  dsimp only
  split at h
  next hzero =>
    cases h
    exact (if_pos hzero).symm
  next hzero =>
  rw [if_neg hzero]
  split at h
  · cases h
  next hrange =>
  rw [not_or, not_lt, not_le] at hrange
  rw [if_neg (not_not.mpr hrange), Jinja.stripSuffix_display, Option.getD_none]
  split at h
  next hint =>
    cases h
    have hrep := Jinja.f64_representable hn
    have hnonneg := Jinja.nonneg_of_representable hrep
    have hpos : 0 < p := lt_of_le_of_ne hnonneg (Ne.symm hzero)
    have hnum : ((p.num.toNat : ℕ) : ℚ) = p := by
      rw [← Int.cast_natCast, Int.toNat_of_nonneg (Rat.num_nonneg.mpr hnonneg)]
      exact Rat.coe_int_num_of_den_eq_one hint.1
    have hnat : 0 < p.num.toNat := by
      rw [← hnum] at hpos
      exact_mod_cast hpos
    have hlt : p.num.toNat < 10 ^ 15 := by
      have := hint.2
      rw [← hnum] at this
      exact_mod_cast this
    have hshort := Conversions.shortest_spec hrep hpos
    obtain ⟨hzeros, hdigits⟩ := hshort.toDigits_eq hnum.symm hnat hlt
    have hlen := (Conversions.shortest p).length_pos
    rw [Jinja.display, if_neg (by omega), if_neg (by omega), ← hdigits]
  next hfrac => exact (Option.some.inj h).symm

theorem toStr_js {v : V} {s : List Char} (h : v.toJsString = some s) : Js.toStr v.js = some s := by
  cases v with
  | num n =>
      rw [jsNumStr_eq h]
      rfl
  | arr | obj => cases h
  | _ => exact h

/-- A comparison is decided by an order. -/
theorem jsBinary_compares {x y : Js} {o : Option Ordering}
    (hxy : x.isLess y = some (o.map (· == .lt))) (hyx : y.isLess x = some (o.map (· == .gt)))
    {op : BinOp} (hop : op ∈ [.lt, .le, .gt, .ge]) :
    jsBinary op x y = some (.bool (compares op o)) := by
  simp only [List.mem_cons, List.not_mem_nil, or_false] at hop
  rcases hop with rfl | rfl | rfl | rfl
  · rw [jsBinary, Js.relation, hxy]
    cases o with
    | none => rfl
    | some ord => cases ord <;> rfl
  · rw [jsBinary, Js.relation, hyx]
    cases o with
    | none => rfl
    | some ord => cases ord <;> rfl
  · rw [jsBinary, Js.relation, hyx]
    cases o with
    | none => rfl
    | some ord => cases ord <;> rfl
  · rw [jsBinary, Js.relation, hxy]
    cases o with
    | none => rfl
    | some ord => cases ord <;> rfl

theorem compares_num (x y : Double) {op : BinOp} (hop : op ∈ [.lt, .le, .gt, .ge]) :
    jsBinary op (.num x) (.num y) = some (.bool (compares op (x.cmp y))) := by
  obtain ⟨hxy, hyx⟩ := Jinja.lessNumber_cmp x y
  have hlt : Js.isLess (.num x) (.num y) = some ((x.cmp y).map (· == .lt)) := congrArg some hxy
  exact jsBinary_compares hlt (congrArg some hyx) hop

theorem compares_str (s t : List Char) {op : BinOp} (hop : op ∈ [.lt, .le, .gt, .ge]) :
    jsBinary op (.str s) (.str t) =
      some (.bool (compares op (some (order (units s) (units t))))) := by
  have hlt : Js.isLess (.str s) (.str t) =
      some ((some (order (units s) (units t))).map (· == .lt)) := by
    rw [Option.map_some, order_eq_lt]
    rfl
  have hgt : Js.isLess (.str t) (.str s) =
      some ((some (order (units s) (units t))).map (· == .gt)) := by
    rw [Option.map_some, order_eq_gt]
    rfl
  exact jsBinary_compares hlt hgt hop

theorem equals_js {strict : Bool} {a b : V} {e : Bool} (h : equals strict a b = .ok e) :
    (a.primitive = true ∧ b.primitive = true) ∧
      if strict then a.js.strictEq b.js = e else a.js.looseEq b.js = some e := by
  cases a <;> cases b <;> cases strict <;>
    first
    | (cases h; exact ⟨⟨rfl, rfl⟩, rfl⟩)
    | (cases h; done)
    | (cases h; simp [V.primitive, V.js, Js.strictEq, Js.looseEq, String.toList_inj])

theorem refused_js {op : BinOp} {a b v : V} (hop : op ∈ [.and, .or, .nullish])
    (h : operate op a b = .ok v) : False := by
  simp only [List.mem_cons, List.not_mem_nil, or_false] at hop
  rcases hop with rfl | rfl | rfl <;> cases h

/-- The arithmetic of two numbers. -/
theorem operate_arith {op : BinOp} {a b v : V} (hop : op ∈ [.sub, .mul, .div, .rem])
    (h : operate op a b = .ok v) : ∃ x y, a = .num x ∧ b = .num y ∧
      jsBinary op (.num x) (.num y) = some v.js ∧ v.primitive = true := by
  simp only [List.mem_cons, List.not_mem_nil, or_false] at hop
  cases a with
  | num x =>
      cases b with
      | num y =>
          refine ⟨x, y, rfl, rfl, ?_⟩
          rcases hop with rfl | rfl | rfl | rfl <;>
            · cases h
              exact ⟨rfl, rfl⟩
      | _ => rcases hop with rfl | rfl | rfl | rfl <;> cases h
  | _ => rcases hop with rfl | rfl | rfl | rfl <;> cases h

/-- The comparison of two numbers or of two strings. -/
theorem operate_compares {op : BinOp} {a b v : V} (hop : op ∈ [.lt, .le, .gt, .ge])
    (h : operate op a b = .ok v) :
    (a.primitive || b.primitive) = true ∧ jsBinary op a.js b.js = some v.js ∧
      v.primitive = true := by
  have hcases := hop
  simp only [List.mem_cons, List.not_mem_nil, or_false] at hcases
  cases a with
  | num x =>
      cases b with
      | num y =>
          have hv : v = .bool (compares op (x.cmp y)) := by
            rcases hcases with rfl | rfl | rfl | rfl <;> exact (Except.ok.inj h).symm
          subst hv
          exact ⟨rfl, compares_num x y hop, rfl⟩
      | _ => rcases hcases with rfl | rfl | rfl | rfl <;> cases h
  | str s =>
      cases b with
      | str t =>
          have hv : v = .bool (compares op (some (order (units s.toList) (units t.toList)))) := by
            rcases hcases with rfl | rfl | rfl | rfl <;> exact (Except.ok.inj h).symm
          subst hv
          exact ⟨rfl, compares_str _ _ hop, rfl⟩
      | _ => rcases hcases with rfl | rfl | rfl | rfl <;> cases h
  | _ => rcases hcases with rfl | rfl | rfl | rfl <;> cases h

/-- A sum of texts is a text. -/
theorem add_text {x y : Js} {s t : List Char} (hx : x.toPrimitive = some x)
    (hy : y.toPrimitive = some y) (hs : x.toStr = some s) (ht : y.toStr = some t)
    (hstr : (x.isStr || y.isStr) = true) : jsBinary .add x y = some (.str (s ++ t)) := by
  rw [jsBinary, Js.add, hx, hy]
  simp only [Option.bind_eq_bind, Option.bind_some, hstr, if_true, hs, ht]

theorem operate_add {a b v : V} (h : operate .add a b = .ok v) :
    (a.primitive || b.primitive) = true ∧ jsBinary .add a.js b.js = some v.js ∧
      v.primitive = true := by
  have htext : ∀ {x y : V} {s t : List Char}, x.js.toPrimitive = some x.js →
      y.js.toPrimitive = some y.js → (x.js.isStr || y.js.isStr) = true →
      x.toJsString = some s → y.toJsString = some t →
      .ok (V.str (String.ofList (s ++ t))) = (.ok v : Except String V) →
      jsBinary .add x.js y.js = some v.js ∧ v.primitive = true := by
    intro x y s t hx hy hstr hs ht hv
    cases hv
    rw [add_text hx hy (toStr_js hs) (toStr_js ht) hstr, V.js, String.toList_ofList]
    exact ⟨rfl, rfl⟩
  cases a with
  | num x =>
      cases b with
      | num y =>
          cases h
          exact ⟨rfl, rfl, rfl⟩
      | str t =>
          rw [operate] at h
          split at h
          · next hs ht => exact ⟨rfl, htext rfl rfl rfl hs ht h⟩
          · cases h
      | _ => cases h
  | str s =>
      cases b with
      | num y | str t =>
          rw [operate] at h
          split at h
          · next hs ht => exact ⟨rfl, htext rfl rfl rfl hs ht h⟩
          · cases h
      | _ => cases h
  | _ => cases h

theorem operate_js {op : BinOp} {a b v : V} (h : operate op a b = .ok v) :
    (a.primitive || b.primitive) = true ∧ jsBinary op a.js b.js = some v.js ∧
      v.primitive = true := by
  have hequals : ∀ {strict : Bool} {f : Bool → V}, (equals strict a b).map f = .ok v →
      ∃ e, v = f e ∧ (a.primitive = true ∧ b.primitive = true) ∧
        if strict then a.js.strictEq b.js = e else a.js.looseEq b.js = some e := by
    intro strict f hmap
    cases he : equals strict a b with
    | error why =>
        rw [he] at hmap
        cases hmap
    | ok e =>
        rw [he] at hmap
        exact ⟨e, (Except.ok.inj hmap).symm, equals_js he⟩
  cases op with
  | add => exact operate_add h
  | sub | mul | div | rem =>
      obtain ⟨x, y, rfl, rfl, hjs, hv⟩ := operate_arith (by decide) h
      exact ⟨rfl, hjs, hv⟩
  | lt | le | gt | ge => exact operate_compares (by decide) h
  | eq =>
      obtain ⟨e, rfl, hprim, he⟩ := hequals h
      refine ⟨by rw [hprim.1]; rfl, ?_, rfl⟩
      rw [if_neg Bool.false_ne_true] at he
      rw [jsBinary, he]
      rfl
  | ne =>
      obtain ⟨e, rfl, hprim, he⟩ := hequals h
      refine ⟨by rw [hprim.1]; rfl, ?_, rfl⟩
      rw [if_neg Bool.false_ne_true] at he
      rw [jsBinary, he]
      rfl
  | strictEq =>
      obtain ⟨e, rfl, hprim, he⟩ := hequals h
      refine ⟨by rw [hprim.1]; rfl, ?_, rfl⟩
      rw [if_pos rfl] at he
      rw [jsBinary, he]
      rfl
  | strictNe =>
      obtain ⟨e, rfl, hprim, he⟩ := hequals h
      refine ⟨by rw [hprim.1]; rfl, ?_, rfl⟩
      rw [if_pos rfl] at he
      rw [jsBinary, he]
      rfl
  | and | or | nullish => exact (refused_js (by decide) h).elim

theorem unary_js {op : UnOp} {a v : V} (h : unary op a = .ok v) :
    jsUnary op a.js = some v.js ∧ v.primitive = true := by
  cases op with
  | not =>
      cases h
      rw [truthy_js]
      exact ⟨rfl, rfl⟩
  | neg | pos =>
      cases a with
      | num n =>
          cases h
          exact ⟨rfl, rfl⟩
      | _ => cases h
  | typeof => cases h

end

/-! ### A fold that succeeds -/

def arity : RawExpr Double → ℕ
  | .arrow params _ _ => params.length
  | _ => 0

def isFrom : RawExpr Double → Bool
  | .member target name false => isArray target && name = "from"
  | _ => false

theorem isArray_eq {e : RawExpr Double} (h : isArray e = true) :
    e = .ident "Array" .globalName := by
  unfold isArray at h
  split at h
  · rw [of_decide_eq_true h]
  · cases h

mutual

/-- No object has a key `__proto__`, and no callback of `Array.from` a third parameter. -/
def Plain : RawExpr Double → Prop
  | .lit _ | .ident _ _ | .block _ _ _ | .jsx | .opaqueJs _ _ _ => True
  | .member target _ _ => Plain target
  | .index target i => Plain target ∧ Plain i
  | .call callee args =>
    Plain callee ∧ AllPlain args ∧ (isFrom callee = true → ∀ cb ∈ args, arity cb ≤ 2)
  | .binary _ left right => Plain left ∧ Plain right
  | .unary _ value => Plain value
  | .cond test yes no => Plain test ∧ Plain yes ∧ Plain no
  | .template _ parts => PartsPlain parts
  | .array items => AllPlain items
  | .object props => PropsPlain props
  | .arrow _ body _ => Plain body

def AllPlain : List (RawExpr Double) → Prop
  | [] => True
  | e :: es => Plain e ∧ AllPlain es

def PartsPlain : List (RawExpr Double × String) → Prop
  | [] => True
  | (e, _) :: es => Plain e ∧ PartsPlain es

def PropsPlain : List (String × RawExpr Double) → Prop
  | [] => True
  | (k, e) :: es => k ≠ "__proto__" ∧ Plain e ∧ PropsPlain es

end

theorem plain_mem {es : List (RawExpr Double)} (h : AllPlain es) : ∀ e ∈ es, Plain e := by
  induction es with
  | nil => exact fun e he => by cases he
  | cons e es ih =>
      rw [AllPlain] at h
      exact List.forall_mem_cons.mpr ⟨h.1, ih h.2⟩

/-- Three arguments, of which a callback takes what it has parameters for. -/
theorem arguments_eq_zip {params : List String} (h : params.length ≤ 3) (a b c : V) :
    arguments params [a, b, c] = params.zip [a, b, c] := by
  match params, h with
  | [], _ => rfl
  | [_], _ => rfl
  | [_, _], _ => rfl
  | [_, _, _], _ => rfl

theorem arguments_eq_zip_two {params : List String} (h : params.length ≤ 2) (a b c : V) :
    arguments params [a, b] = params.zip [a, b, c] := by
  match params, h with
  | [], _ => rfl
  | [_], _ => rfl
  | [_, _], _ => rfl

section
variable [Conversions] {consts : String → Option (RawExpr Double)}

/-- What a module's constant is. -/
def ConstIs (consts : String → Option (RawExpr Double)) (name : String) (v : V) : Prop :=
  ∃ init, consts name = some init ∧ Evaluates consts [] init v

/-- The parameters in scope, and that what is remembered is right. -/
structure Holds (consts : String → Option (RawExpr Double)) (binds : List (String × V))
    (σ : FoldEnv) : Prop where
  binds : σ.binds = binds
  memo : ∀ name v, σ.memo.lookup name = some (.ok v) → ConstIs consts name v

open Fallible (Keeps)

variable {binds : List (String × V)}

theorem tick_keeps : Keeps (Holds consts binds) tick fun _ => True := by
  intro σ h
  refine ⟨?_, fun _ _ => trivial⟩
  by_cases hsteps : MAX_STEPS < σ.steps + 1
  · have htick : tick σ =
        (.error "a constant too large to fold", { σ with steps := σ.steps + 1 }) := by
      simp [tick, Bind.bind, Fallible.modify, Fallible.get, Fallible.fail, hsteps]
    rw [htick]
    exact ⟨h.binds, h.memo⟩
  · have htick : tick σ = (.ok (), { σ with steps := σ.steps + 1 }) := by
      simp [tick, Bind.bind, Fallible.modify, Fallible.get, Pure.pure, hsteps]
    rw [htick]
    exact ⟨h.binds, h.memo⟩

theorem withBinds_keeps {α : Type} {bs : List (String × V)} {x : Fold α} {Q : α → Prop}
    (h : Keeps (Holds consts (bs.reverse ++ binds)) x Q) :
    Keeps (Holds consts binds) (withBinds bs x) Q := by
  intro σ hσ
  obtain ⟨hx, hQ⟩ := h { σ with binds := bs.reverse ++ σ.binds } ⟨by rw [hσ.binds], hσ.memo⟩
  refine ⟨⟨?_, hx.memo⟩, hQ⟩
  change (x _).2.binds.drop bs.length = binds
  rw [hx.binds, ← List.length_reverse, List.drop_left]

theorem index_evaluates {target i : RawExpr Double} {t k v : V}
    (ht : Evaluates consts binds target t) (hk : Evaluates consts binds i k)
    (h : index t k = .ok v) : Evaluates consts binds (.index target i) v := by
  unfold index at h
  split at h
  · split at h
    · next n m hm =>
      cases h
      exact .item ht hk (isIndex_iff.mp hm)
    · next n hnone =>
      cases h
      refine .noItem ht hk fun m hm => ?_
      rw [isIndex_iff.mpr hm] at hnone
      cases hnone
  · next props key =>
    rcases member_gets h with hgets | ⟨hnullish, -, -⟩
    · exact .keyed ht hk hgets
    · cases hnullish
  · cases h

theorem array_evaluates {es : List (RawExpr Double)} {vs : List V}
    (h : List.Forall₂ (Evaluates consts binds) es vs) :
    Evaluates consts binds (.array es) (.arr vs) := by
  induction h with
  | nil => exact .nil binds
  | cons hv _ ih => exact .cons hv ih

section
variable {fold : RawExpr Double → Fold V}
  (hfold : ∀ e binds, Plain e → Keeps (Holds consts binds) (fold e) (Evaluates consts binds e))

include hfold

theorem moduleConst_keeps (hconsts : ∀ name init, consts name = some init → Plain init)
    (name : String) :
    Keeps (Holds consts binds) (moduleConst consts fold name) (ConstIs consts name) := by
  intro σ h
  unfold moduleConst
  split
  · next r hr => exact ⟨h, fun v hv => h.memo name v (hr.trans (congrArg some hv))⟩
  split
  · exact ⟨h, fun v hv => by cases hv⟩
  split
  · exact ⟨h, fun v hv => by cases hv⟩
  next init hinit =>
  obtain ⟨hout, hvalue⟩ := hfold init [] (hconsts name init hinit)
    { σ with binds := [], stack := name :: σ.stack } ⟨rfl, h.memo⟩
  have hconst : ∀ v, (fold init { σ with binds := [], stack := name :: σ.stack }).1.mapError
      (fun why => "`" ++ name ++ "` (" ++ why ++ ")") = .ok v → ConstIs consts name v :=
    fun v hv => ⟨init, hinit, hvalue v (mapError_eq_ok.mp hv)⟩
  refine ⟨⟨h.binds, fun n v hn => ?_⟩, hconst⟩
  dsimp only at hn
  rw [List.lookup_cons] at hn
  split at hn
  · next heq =>
    obtain rfl := beq_iff_eq.mp heq
    exact hconst v (Option.some.inj hn)
  · exact hout.memo n v hn

theorem ident_keeps (hconsts : ∀ name init, consts name = some init → Plain init) (name : String)
    (kind : IdentKind) :
    Keeps (Holds consts binds) (ident consts fold name kind)
      (Evaluates consts binds (.ident name kind)) := by
  refine .bind .get fun σ hσ => ?_
  split
  · next v hv =>
    rw [hσ.binds] at hv
    exact .pure (.bound hv kind)
  next hnone =>
  rw [hσ.binds] at hnone
  cases kind with
  | localName =>
      refine (moduleConst_keeps hfold hconsts name).mono fun v hv => ?_
      obtain ⟨init, hinit, hv⟩ := hv
      exact .const hnone hinit hv
  | globalName =>
      refine .ofExcept fun v hv => .global hnone ?_
      rw [globalValue] at hv
      rw [global]
      split at hv
      · next h => rw [if_pos h, Except.ok.inj hv]
      split at hv
      · next hne h => rw [if_neg hne, if_pos h, Except.ok.inj hv]
      split at hv
      · next hne₁ hne₂ h => rw [if_neg hne₁, if_neg hne₂, if_pos h, Except.ok.inj hv]
      · cases hv
  | _ => exact .fail _

theorem binary_keeps {op : BinOp} {left right : RawExpr Double} (hleft : Plain left)
    (hright : Plain right) :
    Keeps (Holds consts binds) (binary fold op left right)
      (Evaluates consts binds (.binary op left right)) := by
  refine .bind (hfold left binds hleft) fun a ha => ?_
  have htruthy := truthy_js a
  cases op with
  | and =>
      dsimp only
      split
      · next h =>
        exact (hfold right binds hright).mono fun v hv => .passed ha (.inl ⟨rfl, htruthy ▸ h⟩) hv
      · next h =>
        rw [Bool.not_eq_true, htruthy] at h
        exact .pure (.decided ha (.inl ⟨rfl, h⟩))
  | or =>
      dsimp only
      split
      · next h => exact .pure (.decided ha (.inr (.inl ⟨rfl, htruthy ▸ h⟩)))
      · next h =>
        rw [Bool.not_eq_true, htruthy] at h
        exact (hfold right binds hright).mono fun v hv => .passed ha (.inr (.inl ⟨rfl, h⟩)) hv
  | nullish =>
      dsimp only
      split
      · next h =>
        exact (hfold right binds hright).mono fun v hv => .passed ha (.inr (.inr ⟨rfl, h⟩)) hv
      · next h =>
        rw [Bool.not_eq_true] at h
        exact .pure (.decided ha (.inr (.inr ⟨rfl, h⟩)))
  | _ =>
      refine .bind (hfold right binds hright) fun b hb => .ofExcept fun v hv => ?_
      obtain ⟨hone, hjs, hprim⟩ := operate_js hv
      exact .binary ha hb hone hjs hprim

theorem foldParts_keeps {parts : List (RawExpr Double × String)} (h : PartsPlain parts)
    {s pre : List Char} {head : String} (hs : s = pre ++ head.toList) :
    Keeps (Holds consts binds) (foldParts fold s parts) fun t =>
      ∃ r : String, t = pre ++ r.toList ∧ Evaluates consts binds (.template head parts)
        (.str r) := by
  induction parts generalizing s pre head with
  | nil => exact .pure ⟨head, hs, .text _ _⟩
  | cons p parts ih =>
      obtain ⟨e, tail⟩ := p
      rw [PartsPlain] at h
      refine .bind (hfold e binds h.1) fun v hv => ?_
      split
      · next t ht =>
        refine (ih h.2 rfl).mono fun u hu => ?_
        obtain ⟨r, rfl, hr⟩ := hu
        refine ⟨String.ofList (head.toList ++ t ++ r.toList), ?_, .hole hv (toStr_js ht) hr⟩
        rw [hs, String.toList_ofList]
        simp
      · exact .fail _

theorem foldProps_keeps {props : List (String × RawExpr Double)} (h : PropsPlain props)
    {done : List (String × RawExpr Double)} {out : List (String × V)}
    (hdone : Evaluates consts binds (.object done) (.obj out)) :
    Keeps (Holds consts binds) (foldProps fold out props) fun out' =>
      Evaluates consts binds (.object (done ++ props)) (.obj out') := by
  induction props generalizing done out with
  | nil =>
      rw [List.append_nil]
      exact .pure hdone
  | cons p props ih =>
      obtain ⟨k, e⟩ := p
      rw [PropsPlain] at h
      refine .bind (hfold e binds h.2.1) fun v hv => ?_
      have hdefine : Evaluates consts binds (.object (done ++ [(k, e)])) (.obj (setProp out k v)) :=
        .define rfl hdone hv h.1
      have hnext := ih h.2.2 hdefine
      rwa [List.append_assoc] at hnext

theorem mapItems_keeps {params : List String} {body : RawExpr Double} (hbody : Plain body)
    (whole : V) (items : List V) (i : ℕ) :
    Keeps (Holds consts binds) (mapItems fold params body whole i items) fun vs =>
      vs.length = items.length ∧ ∀ (j : ℕ) it v, items[j]? = some it → vs[j]? = some v →
        Evaluates consts
          ((params.zip [it, .num (Double.ofInt (i + j : ℕ)), whole]).reverse ++ binds) body v := by
  induction items generalizing i with
  | nil => exact .pure ⟨rfl, fun j it v hit _ => by cases hit⟩
  | cons it items ih =>
      refine .bind (withBinds_keeps (hfold body _ hbody)) fun r hr => ?_
      refine .bind (ih (i + 1)) fun rs hrs =>
        .pure ⟨congrArg (· + 1) hrs.1, fun j it' v hit hv => ?_⟩
      cases j with
      | zero =>
          obtain rfl := Option.some.inj hit
          obtain rfl := Option.some.inj hv
          exact hr
      | succ j =>
          have hj := hrs.2 j it' v hit hv
          rwa [Nat.add_right_comm] at hj

/-- What a callback gives at each item of an array. -/
theorem map_keeps (items : List V) {cb : RawExpr Double} (h : Plain cb) :
    Keeps (Holds consts binds) (map fold items cb) fun v => ∃ params body captures vs,
      cb = .arrow params body captures ∧ params.length ≤ 3 ∧ v = .arr vs ∧
        vs.length = items.length ∧ ∀ (i : ℕ) it v, items[i]? = some it → vs[i]? = some v →
          Evaluates consts
            ((params.zip [it, .num (Double.ofInt i), .arr items]).reverse ++ binds) body v := by
  cases cb with
  | arrow params body captures =>
      rw [Plain] at h
      rw [map]
      split
      · exact .fail _
      · next hlength =>
        refine .bind (mapItems_keeps hfold h (.arr items) items 0) fun vs hvs => .pure ?_
        refine ⟨params, body, captures, vs, rfl, Nat.not_lt.mp hlength, rfl, hvs.1, ?_⟩
        intro i it v hit hv
        have hi := hvs.2 i it v hit hv
        rwa [Nat.zero_add] at hi
  | _ => exact .fail _

/-- The elements that `Array.from` makes, and what a callback makes of them. -/
theorem fromSpec_keeps {spec : RawExpr Double} {cb : Option (RawExpr Double)} (hspec : Plain spec)
    (hcb : ∀ e, cb = some e → Plain e ∧ arity e ≤ 2) :
    Keeps (Holds consts binds) (fromSpec fold spec cb) (Evaluates consts binds
      (.call (.member (.ident "Array" .globalName) "from" false) (spec :: cb.toList))) := by
  unfold fromSpec
  split
  · next k len =>
    rw [Plain, PropsPlain] at hspec
    split
    · next hk =>
      refine .bind (hfold len binds hspec.2.1) fun v hv => ?_
      split
      · next n =>
        split
        · exact .fail _
        · next m hm =>
          exact .pure (.holes rfl rfl hk hv (isIndex_iff.mp (Option.filter_eq_some_iff.mp hm).1))
        · next m e hm =>
          obtain ⟨he, harity⟩ := hcb e rfl
          refine (map_keeps hfold _ he).mono fun v hmap => ?_
          obtain ⟨params, body, captures, vs, rfl, -, rfl, hlength, hvs⟩ := hmap
          rw [List.length_replicate] at hlength
          subst hlength
          have hindex := isIndex_iff.mp (Option.filter_eq_some_iff.mp hm).1
          refine .from rfl rfl hk hv hindex fun i v hv => ?_
          rw [arguments_eq_zip_two harity]
          have hi : i < vs.length := (List.getElem?_eq_some_iff.mp hv).1
          exact hvs i .undefined v (List.getElem?_replicate_of_lt hi) hv
      · exact .fail _
    · exact .fail _
  · exact .fail _

theorem arrayFrom_keeps {args : List (RawExpr Double)} (h : AllPlain args)
    (harity : ∀ cb ∈ args, arity cb ≤ 2) :
    Keeps (Holds consts binds) (arrayFrom fold args)
      (Evaluates consts binds (.call (.member (.ident "Array" .globalName) "from" false)
        args)) := by
  have hplain := plain_mem h
  unfold arrayFrom
  split
  · next spec =>
    exact fromSpec_keeps hfold (hplain spec (.head _)) fun e he => by cases he
  · next spec cb =>
    refine fromSpec_keeps hfold (hplain spec (.head _)) fun e he => ?_
    obtain rfl := Option.some.inj he
    exact ⟨hplain cb (.tail _ (.head _)), harity cb (.tail _ (.head _))⟩
  · exact .fail _

theorem stringMethod_keeps {name : String} {target : RawExpr Double} (h : Plain target)
    (hname : name ∈ ["trim", "toString"]) :
    Keeps (Holds consts binds) (stringMethod fold name target)
      (Evaluates consts binds (.call (.member target name false) [])) := by
  refine .bind (hfold target binds h) fun t ht => ?_
  simp only [List.mem_cons, List.not_mem_nil, or_false] at hname
  cases t with
  | str s =>
      refine .pure ?_
      rcases hname with rfl | rfl
      · rw [if_pos rfl]
        exact .trim rfl ht
      · rw [if_neg (by decide)]
        exact .toString rfl ht
  | _ => exact .fail _

theorem call_keeps [Printer.Printed Double] {callee : RawExpr Double}
    {args : List (RawExpr Double)} (hcallee : Plain callee) (hargs : AllPlain args)
    (harity : isFrom callee = true → ∀ cb ∈ args, arity cb ≤ 2) :
    Keeps (Holds consts binds) (call fold callee args)
      (Evaluates consts binds (.call callee args)) := by
  unfold call
  split
  · next target name =>
    rw [Plain] at hcallee
    split
    · next h =>
      obtain ⟨htarget, rfl⟩ := h
      obtain rfl := isArray_eq htarget
      exact arrayFrom_keeps hfold hargs (harity rfl)
    split
    · next h =>
      obtain ⟨hname, rfl⟩ := h
      exact stringMethod_keeps hfold hcallee hname
    split
    · next hname =>
      refine .bind (hfold target binds hcallee) fun t ht => ?_
      split
      · next items =>
        split
        · refine (map_keeps hfold items (plain_mem hargs _ (.head _))).mono fun v hv => ?_
          obtain ⟨params, body, captures, vs, rfl, hparams, rfl, hlength, hvs⟩ := hv
          refine .map hname ht hlength fun i it v hit hv => ?_
          rw [arguments_eq_zip hparams]
          exact hvs i it v hit hv
        · exact .fail _
      · exact .fail _
    · exact .fail _
  · exact .fail _

theorem foldInner_keeps [Printer.Printed Double]
    (hconsts : ∀ name init, consts name = some init → Plain init) {e : RawExpr Double}
    (he : Plain e) :
    Keeps (Holds consts binds) (foldInner consts fold e) (Evaluates consts binds e) := by
  cases e with
  | lit l => exact .pure (.lit binds l)
  | ident name kind => exact ident_keeps hfold hconsts name kind
  | member target name optional =>
      rw [Plain] at he
      refine .bind (hfold target binds he) fun t ht => .ofExcept fun v hv => ?_
      rcases member_gets hv with hgets | ⟨hnullish, rfl, rfl⟩
      · exact .member ht hgets optional
      · exact .missed ht hnullish
  | index target i =>
      rw [Plain] at he
      refine .bind (hfold target binds he.1) fun t ht => ?_
      refine .bind (hfold i binds he.2) fun k hk => .ofExcept fun v hv => ?_
      exact index_evaluates ht hk hv
  | unary op value =>
      rw [Plain] at he
      refine .bind (hfold value binds he) fun a ha => .ofExcept fun v hv => ?_
      obtain ⟨hjs, hprim⟩ := unary_js hv
      exact .unary ha hjs hprim
  | binary op left right =>
      rw [Plain] at he
      exact binary_keeps hfold he.1 he.2
  | cond test yes no =>
      rw [Plain] at he
      refine .bind (hfold test binds he.1) fun a ha => ?_
      have htruthy := truthy_js a
      split
      · next h =>
        refine (hfold yes binds he.2.1).mono fun v hv => .cond ha ?_
        rwa [← htruthy, if_pos h]
      · next h =>
        refine (hfold no binds he.2.2).mono fun v hv => .cond ha ?_
        rwa [← htruthy, if_neg h]
  | template head parts =>
      rw [Plain] at he
      have hhead : head.toList = [] ++ head.toList := rfl
      refine .bind (foldParts_keeps hfold he hhead) fun t ht => .pure ?_
      obtain ⟨r, rfl, hr⟩ := ht
      rwa [List.nil_append, String.ofList_toList]
  | array items =>
      rw [Plain] at he
      have hitems : Keeps (Holds consts binds) (Fallible.mapAll fold items)
          fun vs => List.Forall₂ (Evaluates consts binds) items vs :=
        .mapAll fun e hmem => hfold e binds (plain_mem he e hmem)
      exact .bind hitems fun vs hvs => .pure (array_evaluates hvs)
  | object props =>
      rw [Plain] at he
      exact .bind (foldProps_keeps hfold he (.empty binds)) fun out hout => .pure hout
  | call callee args =>
      rw [Plain] at he
      exact call_keeps hfold he.1 he.2.1 he.2.2
  | _ => exact .fail _

end

theorem foldAt_keeps [Printer.Printed Double]
    (hconsts : ∀ name init, consts name = some init → Plain init) (d : ℕ) (e : RawExpr Double)
    (binds : List (String × V)) (he : Plain e) :
    Keeps (Holds consts binds) (foldAt consts d e) (Evaluates consts binds e) := by
  induction d generalizing e binds with
  | zero => exact .bind tick_keeps fun _ _ => .fail _
  | succ d ih => exact .bind tick_keeps fun _ _ => foldInner_keeps ih hconsts he

/-! ### Sessions -/

variable [Printer.Printed Double]

/-- A session, after any bindings and any folds that succeeded or failed. -/
inductive Session (consts : String → Option (RawExpr Double)) : FoldEnv → Prop
  | new : Session consts .new
  | bind {σ : FoldEnv} (s : Session consts σ) (name : String) (v : V) :
      Session consts (σ.bind name v)
  | unbind {σ : FoldEnv} (s : Session consts σ) (n : ℕ) : Session consts (σ.unbind n)
  | fold {σ : FoldEnv} (s : Session consts σ) {e : RawExpr Double} (he : Plain e) :
      Session consts (fold consts e σ).2

theorem Session.holds (hconsts : ∀ name init, consts name = some init → Plain init) {σ : FoldEnv}
    (s : Session consts σ) : Holds consts σ.binds σ := by
  induction s with
  | new => exact ⟨rfl, fun name v h => by cases h⟩
  | bind _ name v ih => exact ⟨rfl, ih.memo⟩
  | unbind _ n ih => exact ⟨rfl, ih.memo⟩
  | fold _ he ih => exact ⟨rfl, (foldAt_keeps hconsts MAX_DEPTH _ _ he _ ih).1.memo⟩

/-- **A folded constant is what JavaScript evaluates**, whatever the session folded before; and any
other session with these parameters that folds the expression folds it to the same. -/
theorem fold_evaluates (hconsts : ∀ name init, consts name = some init → Plain init) {σ : FoldEnv}
    (s : Session consts σ) {e : RawExpr Double} (he : Plain e) {v : V}
    (h : (fold consts e σ).1 = .ok v) :
    Evaluates consts σ.binds e v ∧ ∀ σ' w, Session consts σ' → σ'.binds = σ.binds →
      (fold consts e σ').1 = .ok w → w = v := by
  have hv := (foldAt_keeps hconsts MAX_DEPTH e _ he σ (s.holds hconsts)).2 v h
  refine ⟨hv, fun σ' w s' hbinds hw => ?_⟩
  have hw' := (foldAt_keeps hconsts MAX_DEPTH e _ he σ' (s'.holds hconsts)).2 w hw
  rw [hbinds] at hw'
  exact hw'.unique hv

end

abbrev oneDigit : Printer.Printed Double where
  isNaN := Double.isNaN
  isInfinite n := n == .inf true || n == .inf false
  negative n := n.cmp (.fin false 0) == some .lt
  digits _ := ['1']

/-- `["a", label].map((x) => x + "!")` -/
def shouted : RawExpr Double :=
  .call (.member (.array [.lit (.str "a"), .ident "label" .localName]) "map" false)
    [.arrow ["x"] (.binary .add (.ident "x" .unknown) (.lit (.str "!"))) []]

def labels (name : String) : Option (RawExpr Double) :=
  if name = "label" then some (.lit (.str "b")) else none

theorem fold_evaluates_shouted :
    @Evaluates Jinja.wordsOnly labels [] shouted (.arr [.str "a!", .str "b!"]) := by
  have hconsts : ∀ name init, labels name = some init → Plain init := by
    intro name init h
    rw [labels] at h
    split at h
    · obtain rfl := Option.some.inj h
      exact trivial
    · cases h
  have hplain : Plain shouted := by
    simp only [shouted, Plain, AllPlain]
    exact ⟨⟨trivial, trivial, trivial⟩, ⟨⟨trivial, trivial⟩, trivial⟩, fun h => by cases h⟩
  have hnew := @Session.new Jinja.wordsOnly oneDigit labels
  exact (@fold_evaluates Jinja.wordsOnly labels oneDigit hconsts _ hnew shouted hplain _ rfl).1

end Brust.Compiler.Folding
