import Brust.Jinja.Js
import Mathlib.Data.Option.Basic

/-!
# Jinja — the filters and the operators

The filters are JavaScript's operators but for two things: a whole result is made an integer, which
has no negative zero, and an object with a `toString` of its own is converted where JavaScript
throws (`operators_iff`).
-/

namespace Brust.Jinja

/-! ### What the values stand for -/

theorem isNullish_stands {v : Value Num} {x : Js} (h : stands v = some x) :
    x.isNullish = isNullish v := by
  cases v with
  | undefined | null | bool | str | map =>
      cases h
      rfl
  | num n =>
      rw [stands] at h
      split at h
      · cases h
        rfl
      · cases h
  | seq items =>
      rw [stands] at h
      obtain ⟨xs, -, rfl⟩ := Option.map_eq_some_iff.mp h
      rfl
  | other text => cases h

theorem stands_num {n : Num} {x : Js} (h : stands (.num n) = some x) :
    n.double.Nonneg ∧ x = .num n.double := by
  rw [stands] at h
  split at h
  · next hn =>
    cases h
    exact ⟨hn, rfl⟩
  · cases h

theorem standItems_cons {v : Value Num} {vs : List (Value Num)} {xs : List Js}
    (h : standItems (v :: vs) = some xs) :
    ∃ y ys, stands v = some y ∧ standItems vs = some ys ∧ xs = y :: ys := by
  rw [standItems] at h
  obtain ⟨y, hy, h⟩ := Option.bind_eq_some_iff.mp h
  obtain ⟨ys, hys, h⟩ := Option.bind_eq_some_iff.mp h
  cases h
  exact ⟨y, ys, hy, hys, rfl⟩

theorem isContainer_stands {v : Value Num} {x : Js} (h : stands v = some x) :
    x.isContainer = isContainer v := by
  cases v with
  | undefined | null | bool | str | map =>
      cases h
      rfl
  | num n =>
      obtain ⟨-, rfl⟩ := stands_num h
      rfl
  | seq items =>
      rw [stands] at h
      obtain ⟨xs, -, rfl⟩ := Option.map_eq_some_iff.mp h
      rfl
  | other text => cases h

/-- A value that stands for a primitive one is that one. -/
theorem stands_inv {v : Value Num} {x : Js} (h : stands v = some x) :
    match x with
    | .undefined => v = .undefined
    | .null => v = .null
    | .bool b => v = .bool b
    | .str s => v = .str s
    | .num d => ∃ n, v = .num n ∧ n.double = d
    | .arr _ => ∃ items, v = .seq items
    | .obj _ => ∃ kind entries, v = .map kind entries := by
  cases v with
  | undefined | null | bool | str =>
      cases h
      rfl
  | map kind entries =>
      cases h
      exact ⟨kind, entries, rfl⟩
  | num n =>
      obtain ⟨-, rfl⟩ := stands_num h
      exact ⟨n, rfl, rfl⟩
  | seq items =>
      rw [stands] at h
      obtain ⟨xs, -, rfl⟩ := Option.map_eq_some_iff.mp h
      exact ⟨items, rfl⟩
  | other text => cases h

theorem stands_str {v : Value Num} {s : List Char} (h : stands v = some (.str s)) : v = .str s :=
  stands_inv h

theorem converts_of_not_container {x : Js} (h : x.isContainer = false) : x.converts = true := by
  cases x <;> first | rfl | cases h

/-! ### Equality without conversions -/

theorem sameNumber_comm (m n : Double) : sameNumber m n = sameNumber n m := Double.cmp_comm_eq m n

/-- **`===`** -/
theorem strictEq_stands {v w : Value Num} {x y : Js} (hv : stands v = some x)
    (hw : stands w = some y) : jsStrictEq v w = x.strictEq y := by
  unfold jsStrictEq
  split
  · cases hv
    cases hw
    rfl
  · cases hv
    cases hw
    rfl
  · cases hv
    cases hw
    rfl
  · obtain ⟨-, rfl⟩ := stands_num hv
    obtain ⟨-, rfl⟩ := stands_num hw
    rfl
  · cases hv
    cases hw
    rfl
  · next hundefined hnull hbool hnum hstr =>
    have hv := stands_inv hv
    have hw := stands_inv hw
    unfold Js.strictEq
    split
    · exact (hundefined hv hw).elim
    · exact (hnull hv hw).elim
    · exact (hbool _ _ hv hw).elim
    · obtain ⟨m, hv, -⟩ := hv
      obtain ⟨n, hw, -⟩ := hw
      exact (hnum m n hv hw).elim
    · exact (hstr _ _ hv hw).elim
    · rfl

theorem jsStrictEq_comm (v w : Value Num) : jsStrictEq v w = jsStrictEq w v := by
  cases v <;> cases w <;>
    first
    | rfl
    | exact BEq.comm
    | exact sameNumber_comm _ _

theorem lessNumber_cmp (m n : Double) :
    Js.lessNumber m n = (m.cmp n).map (· == .lt) ∧
      Js.lessNumber n m = (m.cmp n).map (· == .gt) := by
  rw [Js.lessNumber, Js.lessNumber, Double.cmp]
  cases m.key with
  | none => exact ⟨rfl, by cases n.key <;> rfl⟩
  | some k =>
      cases n.key with
      | none => exact ⟨rfl, rfl⟩
      | some l => exact ⟨congrArg some (order_eq_lt k l).symm, congrArg some (order_eq_gt k l).symm⟩

/-! ### Conversions -/

section
variable [Conversions]

mutual

/-- **The string is JavaScript's**, of what converts; of what does not JavaScript throws. -/
theorem toStr_stands (v : Value Num) {x : Js} (h : stands v = some x) :
    x.toStr = if x.converts then some (jsString v) else none := by
  match v with
  | .undefined | .null | .bool _ | .str _ =>
      cases h
      rfl
  | .num n =>
      obtain ⟨-, rfl⟩ := stands_num h
      exact congrArg some (jsNumber_eq n.double).symm
  | .map kind entries =>
      cases h
      rw [Js.toStr, Js.converts]
      by_cases hmem : "toString" ∈ ((Value.map kind entries).mapEntries).map (·.1)
      · rw [if_pos hmem, if_neg (by simpa using hmem)]
      · rw [if_neg hmem, if_pos (by simpa using hmem)]
        rfl
  | .seq items =>
      rw [stands] at h
      obtain ⟨xs, hxs, rfl⟩ := Option.map_eq_some_iff.mp h
      rw [Js.toStr, Js.converts, joinTexts_stands items hxs, jsString]
      split
      · rfl
      · rfl
  | .other _ => cases h

theorem joinTexts_stands (vs : List (Value Num)) {xs : List Js} (h : standItems vs = some xs) :
    Js.joinTexts xs = if Js.convertItems xs then some (itemStrings vs) else none := by
  match vs with
  | [] =>
      cases h
      rfl
  | v :: vs =>
      obtain ⟨y, ys, hy, hys, rfl⟩ := standItems_cons h
      have hitem := toStr_stands v hy
      have hitems := joinTexts_stands vs hys
      have hnullish := isNullish_stands hy
      rw [Js.joinTexts, Js.convertItems, itemStrings, hitems, ← hnullish]
      cases hn : y.isNullish with
      | true =>
          have hconverts : y.converts = true := by
            cases y <;> first | rfl | cases hn
          rw [hconverts]
          cases Js.convertItems ys <;> rfl
      | false =>
          rw [hitem]
          cases y.converts <;> cases Js.convertItems ys <;> rfl

end

theorem toNumber_stands {v : Value Num} {x : Js} (h : stands v = some x) :
    x.toNumber = if x.converts then some (jsToNumber v) else none := by
  cases v with
  | undefined | null | bool | str =>
      cases h
      rfl
  | num n =>
      obtain ⟨-, rfl⟩ := stands_num h
      rfl
  | map kind entries =>
      have hstr := toStr_stands _ h
      cases h
      rw [Js.toNumber, hstr]
      split <;> rfl
  | seq items =>
      have hstr := toStr_stands _ h
      rw [stands] at h
      obtain ⟨xs, -, rfl⟩ := Option.map_eq_some_iff.mp h
      rw [Js.toNumber, hstr]
      split <;> rfl
  | other text => cases h

/-- The primitive value of what converts is what the filter goes on with. -/
theorem toPrimitive_stands {v : Value Num} {x : Js} (h : stands v = some x) :
    x.toPrimitive = if x.converts then stands (jsPrimitive v) else none := by
  cases v with
  | undefined | null | bool | str =>
      cases h
      rfl
  | num n =>
      obtain ⟨-, rfl⟩ := stands_num h
      exact h.symm
  | map kind entries =>
      have hstr := toStr_stands _ h
      cases h
      rw [Js.toPrimitive, hstr]
      split <;> rfl
  | seq items =>
      have hstr := toStr_stands _ h
      rw [stands] at h
      obtain ⟨xs, -, rfl⟩ := Option.map_eq_some_iff.mp h
      rw [Js.toPrimitive, hstr]
      split <;> rfl
  | other text => cases h

theorem nonneg_toNumber {v : Value Num} {x : Js} (h : stands v = some x) :
    (jsToNumber v).Nonneg := by
  cases v with
  | undefined => trivial
  | null => exact le_refl (0 : ℚ)
  | bool b =>
      cases b
      · exact le_refl (0 : ℚ)
      · exact zero_le_one
  | num n => exact (stands_num h).1
  | str | seq | map => exact Conversions.nonneg_toNumber _
  | other text => cases h

end

/-! ### Arithmetic -/

/-- The filter's value stands for the operator's, which does not throw. -/
def Answers (r : Value Num) (o : Option Js) : Prop := ∃ z, o = some z ∧ stands r = some z

theorem stands_numberValue_iff {r : Double} (hr : r.Nonneg) :
    stands (numberValue r) = some (.num r) ↔ r ≠ .negZero := by
  rw [numberValue]
  cases hw : r.whole with
  | some i =>
      have hstands : stands (.num (.int i)) = some (.num (.ofInt i)) :=
        if_pos (Double.nonneg_ofInt i)
      rw [← Double.ofInt_whole_iff hr hw]
      simp only [hstands, Option.some.injEq, Js.num.injEq]
  | none =>
      have hstands : stands (.num (.float r)) = some (.num r) := if_pos hr
      simp only [hstands, true_iff]
      rintro rfl
      cases hw

section
variable [Conversions] {v w : Value Num} {x y : Js}

/-- **Arithmetic loses negative zero**, and nothing else of what it may convert. -/
theorem arith_iff (hv : stands v = some x) (hw : stands w = some y)
    {f : Double → Double → Double}
    (hf : ∀ m n : Double, m.Nonneg → n.Nonneg → (f m n).Nonneg) :
    Answers (jsArith f v w) (Js.arith f x y) ↔
      x.converts = true ∧ y.converts = true ∧ f (jsToNumber v) (jsToNumber w) ≠ .negZero := by
  have hr := hf _ _ (nonneg_toNumber hv) (nonneg_toNumber hw)
  rw [Answers, Js.arith, toNumber_stands hv, toNumber_stands hw]
  cases x.converts with
  | false => simp
  | true =>
      cases y.converts with
      | false => simp
      | true =>
          rw [← stands_numberValue_iff hr, jsArith]
          simp

theorem unary_iff (hv : stands v = some x) {f : Double → Double}
    (hf : ∀ m : Double, m.Nonneg → (f m).Nonneg) :
    Answers (jsArith (fun m _ => f m) v (.num (.int 0))) (Js.unary f x) ↔
      x.converts = true ∧ f (jsToNumber v) ≠ .negZero := by
  have hzero : stands (.num (.int 0)) = some (.num (.ofInt 0)) := if_pos (Double.nonneg_ofInt 0)
  have harith : Js.arith (fun m _ => f m) x (.num (.ofInt 0)) = Js.unary f x := by
    rw [Js.arith, Js.unary]
    cases x.toNumber <;> rfl
  rw [← harith, arith_iff hv hzero fun m _ hm _ => hf m hm]
  simp [Js.converts]

/-- What a value that converts is made by `ToPrimitive`. -/
theorem primitive_stands (hv : stands v = some x) (hx : x.converts = true) :
    ∃ p, x.toPrimitive = some p ∧ stands (jsPrimitive v) = some p ∧ p.isStr = stringy v ∧
      p.toStr = some (jsString v) ∧ p.toNumber = some (jsToNumber v) ∧
      jsToNumber (jsPrimitive v) = jsToNumber v ∧ p.converts = true := by
  have hstr := toStr_stands v hv
  have hnumber := toNumber_stands hv
  have hprimitive := toPrimitive_stands hv
  rw [if_pos hx] at hstr hnumber hprimitive
  cases v with
  | undefined | null | bool | str =>
      cases hv
      exact ⟨_, rfl, rfl, rfl, rfl, rfl, rfl, rfl⟩
  | num n =>
      obtain ⟨-, rfl⟩ := stands_num hv
      exact ⟨_, rfl, hv, rfl, hstr, rfl, rfl, rfl⟩
  | seq | map => exact ⟨_, hprimitive, rfl, rfl, rfl, rfl, rfl, rfl⟩
  | other text => cases hv

theorem add_iff (hv : stands v = some x) (hw : stands w = some y) :
    Answers (jsAdd v w) (x.add y) ↔ x.converts = true ∧ y.converts = true ∧
      (stringy v = true ∨ stringy w = true ∨
        (jsToNumber v).add (jsToNumber w) ≠ .negZero) := by
  by_cases hx : x.converts = true
  · by_cases hy : y.converts = true
    · obtain ⟨p, hp, -, hpstr, hptext, hpnum, -⟩ := primitive_stands hv hx
      obtain ⟨q, hq, -, hqstr, hqtext, hqnum, -⟩ := primitive_stands hw hy
      rw [Js.add, hp, hq]
      by_cases hs : (stringy v || stringy w) = true
      · have hany : stringy v = true ∨ stringy w = true := Bool.or_eq_true_iff.mp hs
        have hadd : jsAdd v w = .str (jsString v ++ jsString w) := if_pos hs
        simp only [Option.bind_eq_bind, Option.bind_some, hpstr, hqstr, hs, if_true, hptext,
          hqtext, hadd, Answers]
        exact ⟨fun _ => ⟨hx, hy, hany.imp_right .inl⟩, fun _ => ⟨_, rfl, rfl⟩⟩
      · have hadd : jsAdd v w = jsArith .add v w := if_neg hs
        have hnone : stringy v = false ∧ stringy w = false := by simpa using hs
        have harith := arith_iff hv hw fun m n _ _ => Double.nonneg_add m n
        have heq : Js.arith .add p q = Js.arith .add x y := by
          rw [Js.arith, Js.arith, hpnum, hqnum, toNumber_stands hv, toNumber_stands hw, if_pos hx,
            if_pos hy]
        simp only [Option.bind_eq_bind, Option.bind_some, hpstr, hqstr, hadd, heq, hnone,
          Bool.false_eq_true, false_or]
        exact harith
    · rw [Js.add, toPrimitive_stands hw, if_neg hy]
      cases x.toPrimitive <;> simp [Answers, hy]
  · rw [Js.add, toPrimitive_stands hv, if_neg hx]
    simp [Answers, hx]

/-! ### Comparisons -/

theorem isLessPrimitive_stands {a b : Value Num} {p q : Js} (ha : stands a = some p)
    (hb : stands b = some q) (hp : p.converts = true) (hq : q.converts = true) :
    Js.isLessPrimitive p q = some ((ordering a b).map (· == .lt)) ∧
      Js.isLessPrimitive q p = some ((ordering a b).map (· == .gt)) := by
  by_cases hstr : ∃ s t, p = .str s ∧ q = .str t
  · obtain ⟨s, t, rfl, rfl⟩ := hstr
    obtain rfl := stands_str ha
    obtain rfl := stands_str hb
    exact ⟨congrArg (some ∘ some) (order_eq_lt _ _).symm,
      congrArg (some ∘ some) (order_eq_gt _ _).symm⟩
  · have hordering : ordering a b = (jsToNumber a).cmp (jsToNumber b) := by
      unfold ordering
      split
      · cases ha
        cases hb
        exact absurd ⟨_, _, rfl, rfl⟩ hstr
      · rfl
    have hnumbers : ∀ p q : Js, ¬ (∃ s t, p = .str s ∧ q = .str t) →
        p.isLessPrimitive q = (do some (Js.lessNumber (← p.toNumber) (← q.toNumber))) := by
      intro p q hne
      unfold Js.isLessPrimitive
      split
      · exact absurd ⟨_, _, rfl, rfl⟩ hne
      · rfl
    have hswap : ¬ ∃ s t, q = .str s ∧ p = .str t := fun ⟨s, t, hs, ht⟩ => hstr ⟨t, s, ht, hs⟩
    obtain ⟨hlt, hgt⟩ := lessNumber_cmp (jsToNumber a) (jsToNumber b)
    rw [hordering, ← hlt, ← hgt, hnumbers p q hstr, hnumbers q p hswap, toNumber_stands ha,
      toNumber_stands hb, if_pos hp, if_pos hq]
    exact ⟨rfl, rfl⟩

/-- **The comparisons are JavaScript's**, of what converts. -/
theorem relation_stands (hv : stands v = some x) (hw : stands w = some y) (op : Js.Rel) :
    x.relation y op =
      if x.converts = true ∧ y.converts = true then some (jsCmp v w op.text) else none := by
  by_cases h : x.converts = true ∧ y.converts = true
  · obtain ⟨hx, hy⟩ := h
    rw [if_pos ⟨hx, hy⟩]
    obtain ⟨p, hp, hvp, -, -, -, -, hpc⟩ := primitive_stands hv hx
    obtain ⟨q, hq, hwq, -, -, -, -, hqc⟩ := primitive_stands hw hy
    obtain ⟨hlt, hgt⟩ := isLessPrimitive_stands hvp hwq hpc hqc
    have hless : x.isLess y = some ((ordering (jsPrimitive v) (jsPrimitive w)).map (· == .lt)) := by
      rw [Js.isLess, hp, hq]
      exact hlt
    have hmore : y.isLess x = some ((ordering (jsPrimitive v) (jsPrimitive w)).map (· == .gt)) := by
      rw [Js.isLess, hp, hq]
      exact hgt
    unfold jsCmp
    cases op with
    | lt =>
        rw [Js.relation, hless]
        cases ordering (jsPrimitive v) (jsPrimitive w) with
        | none => rfl
        | some ord => cases ord <;> rfl
    | le =>
        rw [Js.relation, hmore]
        cases ordering (jsPrimitive v) (jsPrimitive w) with
        | none => rfl
        | some ord => cases ord <;> rfl
    | gt =>
        rw [Js.relation, hmore]
        cases ordering (jsPrimitive v) (jsPrimitive w) with
        | none => rfl
        | some ord => cases ord <;> rfl
    | ge =>
        rw [Js.relation, hless]
        cases ordering (jsPrimitive v) (jsPrimitive w) with
        | none => rfl
        | some ord => cases ord <;> rfl
  · have hnone : x.isLess y = none ∧ y.isLess x = none := by
      rw [Js.isLess, Js.isLess, toPrimitive_stands hv, toPrimitive_stands hw]
      rcases Classical.not_and_iff_not_or_not.mp h with hx | hy
      · rw [if_neg hx]
        exact ⟨rfl, by cases (if y.converts = true then stands (jsPrimitive w) else none) <;> rfl⟩
      · rw [if_neg hy]
        exact ⟨by cases (if x.converts = true then stands (jsPrimitive v) else none) <;> rfl, rfl⟩
    rw [if_neg h]
    cases op with
    | lt | ge =>
        rw [Js.relation, hnone.1]
        rfl
    | le | gt =>
        rw [Js.relation, hnone.2]
        rfl

/-! ### Equality -/

/-- What `==` makes of a number and a value that is neither `null` nor `undefined`. -/
theorem numberEq_stands (hw : stands w = some y) (hn : isNullish w = false) (m : Double) :
    y.numberEq m = if y.converts = true then some (sameNumber m (jsToNumber w)) else none := by
  have hy := isNullish_stands hw
  rw [hn] at hy
  have hleft : y.numberEq m = y.toNumber.map (sameNumber m) := by
    cases y <;> first | rfl | cases hy
  rw [hleft, toNumber_stands hw]
  split <;> rfl

/-- Where `==` converts an object, it can. -/
def Compares (x y : Js) : Prop :=
  x.isNullish = true ∨ y.isNullish = true ∨ (x.isContainer = true ∧ y.isContainer = true) ∨
    (x.converts = true ∧ y.converts = true)

theorem looseEq_nullish (x : Js) :
    Js.looseEq .undefined x = some x.isNullish ∧ Js.looseEq .null x = some x.isNullish ∧
      x.looseEq .undefined = some x.isNullish ∧ x.looseEq .null = some x.isNullish := by
  cases x <;> exact ⟨rfl, rfl, rfl, rfl⟩

/-- A number on the left. -/
theorem looseEq_num (hw : stands w = some y) (hn : isNullish w = false) (n : Num) :
    (Js.num n.double).looseEq y =
      if y.converts = true then some (jsLooseEq (.num n) w) else none := by
  have hy := isNullish_stands hw
  rw [hn] at hy
  have hleft : (Js.num n.double).looseEq y = y.numberEq n.double := by
    cases y <;> rfl
  have hcode : jsLooseEq (.num n) w = sameNumber n.double (jsToNumber w) := by
    unfold jsLooseEq
    rw [hn]
    cases w with
    | undefined | null => cases hn
    | bool | num | str | seq | map | other => rfl
  rw [hleft, numberEq_stands hw hn, hcode]

/-- A boolean on the left. -/
theorem looseEq_bool (hw : stands w = some y) (hn : isNullish w = false) (a : Bool) :
    (Js.bool a).looseEq y =
      if y.converts = true then some (jsLooseEq (.bool a) w) else none := by
  have hnumber := numberEq_stands hw hn (ofBool a)
  cases w with
  | undefined | null => cases hn
  | bool b =>
      cases hw
      rfl
  | num n =>
      obtain ⟨-, rfl⟩ := stands_num hw
      exact congrArg some (sameNumber_comm _ _)
  | str | map =>
      cases hw
      exact hnumber
  | seq items =>
      obtain ⟨xs, -, rfl⟩ := Option.map_eq_some_iff.mp hw
      exact hnumber
  | other text => cases hw

/-- A text on the left. -/
theorem looseEq_str (hw : stands w = some y) (hn : isNullish w = false) (s : List Char) :
    (Js.str s).looseEq y =
      if y.converts = true then some (jsLooseEq (.str s) w) else none := by
  have hstr := toStr_stands w hw
  cases w with
  | undefined | null => cases hn
  | bool b =>
      cases hw
      exact congrArg some (sameNumber_comm _ _)
  | num n =>
      obtain ⟨-, rfl⟩ := stands_num hw
      exact congrArg some (sameNumber_comm _ _)
  | str t =>
      cases hw
      rfl
  | map kind entries =>
      cases hw
      refine (congrArg (Option.map (s == ·)) hstr).trans ?_
      split <;> rfl
  | seq items =>
      obtain ⟨xs, -, rfl⟩ := Option.map_eq_some_iff.mp hw
      refine (congrArg (Option.map (s == ·)) hstr).trans ?_
      split <;> rfl
  | other text => cases hw

theorem jsLooseEq_comm (v w : Value Num) : jsLooseEq v w = jsLooseEq w v := by
  have hprimitive : ∀ a b : Value Num, looseEq a b = looseEq b a := by
    intro a b
    cases a <;> cases b <;>
      first
      | exact Bool.beq_comm
      | exact BEq.comm
      | exact sameNumber_comm _ _
  unfold jsLooseEq
  rw [Bool.or_comm, Bool.and_comm (isNullish v), Bool.and_comm (isContainer v), hprimitive]

/-- A container on the left is as one on the right. -/
theorem looseEq_container (hx : x.isContainer = true) : x.looseEq y = y.looseEq x := by
  have htext : ∀ (o : Option (List Char)) (t : List Char), o.map (· == t) = o.map (t == ·) := by
    intro o t
    cases o with
    | none => rfl
    | some s => exact congrArg some BEq.comm
  cases x with
  | arr | obj => cases y <;> first | rfl | exact htext _ _
  | undefined | null | bool | num | str => cases hx

/-- A primitive value that is neither `null` nor `undefined` on the left. -/
theorem looseEq_primitive (hv : stands v = some x) (hw : stands w = some y)
    (hn : isNullish v = false) (hm : isNullish w = false) (hc : isContainer v = false) :
    x.looseEq y = if y.converts = true then some (jsLooseEq v w) else none := by
  cases v with
  | undefined | null => cases hn
  | seq | map => cases hc
  | bool b =>
      cases hv
      exact looseEq_bool hw hm b
  | num n =>
      obtain ⟨-, rfl⟩ := stands_num hv
      exact looseEq_num hw hm n
  | str t =>
      cases hv
      exact looseEq_str hw hm t
  | other text => cases hv

/-- **`==`** -/
theorem looseEq_iff (hv : stands v = some x) (hw : stands w = some y) :
    x.looseEq y = some (jsLooseEq v w) ↔ Compares x y := by
  have hxn := isNullish_stands hv
  have hyn := isNullish_stands hw
  have hxc := isContainer_stands hv
  have hyc := isContainer_stands hw
  by_cases hn : isNullish v = true
  · have hcode : jsLooseEq v w = isNullish w := by
      simp [jsLooseEq, hn]
    have hspec : x.looseEq y = some y.isNullish := by
      cases v with
      | undefined =>
          cases hv
          exact (looseEq_nullish y).1
      | null =>
          cases hv
          exact (looseEq_nullish y).2.1
      | _ => cases hn
    rw [hspec, hcode, hyn]
    exact ⟨fun _ => .inl (hxn.trans hn), fun _ => rfl⟩
  · by_cases hm : isNullish w = true
    · have hcode : jsLooseEq v w = isNullish v := by
        simp [jsLooseEq, hm]
      have hspec : x.looseEq y = some x.isNullish := by
        cases w with
        | undefined =>
            cases hw
            exact (looseEq_nullish x).2.2.1
        | null =>
            cases hw
            exact (looseEq_nullish x).2.2.2
        | _ => cases hm
      rw [hspec, hcode, hxn]
      exact ⟨fun _ => .inr (.inl (hyn.trans hm)), fun _ => rfl⟩
    · rw [Bool.not_eq_true] at hn hm
      have hnx := hxn.trans hn
      have hny := hyn.trans hm
      by_cases hc : isContainer v = true
      · by_cases hd : isContainer w = true
        · have hcode : jsLooseEq v w = false := by
            simp [jsLooseEq, hn, hm, hc, hd]
          have hspec : x.looseEq y = some false := by
            have hx := hxc.trans hc
            have hy := hyc.trans hd
            cases x with
            | arr | obj => cases y <;> first | rfl | cases hy
            | undefined | null | bool | num | str => cases hx
          rw [hspec, hcode]
          exact ⟨fun _ => .inr (.inr (.inl ⟨hxc.trans hc, hyc.trans hd⟩)), fun _ => rfl⟩
        · rw [Bool.not_eq_true] at hd
          have hy := converts_of_not_container (hyc.trans hd)
          rw [looseEq_container (hxc.trans hc), looseEq_primitive hw hv hm hn hd,
            jsLooseEq_comm w v]
          simp [Compares, hnx, hny, hxc, hyc, hc, hd, hy]
      · rw [Bool.not_eq_true] at hc
        have hx := converts_of_not_container (hxc.trans hc)
        rw [looseEq_primitive hv hw hn hm hc]
        simp [Compares, hnx, hny, hxc, hyc, hc, hx]

/-! ### The operators -/

theorem truthy_stands (hv : stands v = some x) : v.truthy = x.toBoolean := by
  cases v with
  | undefined | null | bool | str | map =>
      cases hv
      rfl
  | num n =>
      obtain ⟨-, rfl⟩ := stands_num hv
      rfl
  | seq items =>
      rw [stands] at hv
      obtain ⟨xs, -, rfl⟩ := Option.map_eq_some_iff.mp hv
      rfl
  | other text => cases hv

theorem toStr_iff (hv : stands v = some x) :
    x.toStr = some (jsString v) ↔ x.converts = true := by
  rw [toStr_stands v hv]
  split
  · next h => exact ⟨fun _ => h, fun _ => rfl⟩
  · next h => exact ⟨fun he => (by cases he), fun hx => absurd hx h⟩

/-- **The operator filters are JavaScript's operators** exactly where no operand that is made a
primitive value has a `toString` of its own and the operation does not give negative zero; `js_seq`
and `truthy` are everywhere, and both equalities are symmetric. -/
theorem operators_iff (hv : stands v = some x) (hw : stands w = some y) :
    (Answers (jsAdd v w) (x.add y) ↔ x.converts = true ∧ y.converts = true ∧
      (stringy v = true ∨ stringy w = true ∨
        (jsToNumber v).add (jsToNumber w) ≠ .negZero)) ∧
    (Answers (jsSub v w) (x.arith .sub y) ↔ x.converts = true ∧ y.converts = true ∧
      (jsToNumber v).sub (jsToNumber w) ≠ .negZero) ∧
    (Answers (jsMul v w) (x.arith .mul y) ↔ x.converts = true ∧ y.converts = true ∧
      (jsToNumber v).mul (jsToNumber w) ≠ .negZero) ∧
    (Answers (jsDiv v w) (x.arith .div y) ↔ x.converts = true ∧ y.converts = true ∧
      (jsToNumber v).div (jsToNumber w) ≠ .negZero) ∧
    (Answers (jsMod v w) (x.arith .rem y) ↔ x.converts = true ∧ y.converts = true ∧
      (jsToNumber v).rem (jsToNumber w) ≠ .negZero) ∧
    (Answers (jsNeg v) (x.unary .neg) ↔ x.converts = true ∧ (jsToNumber v).neg ≠ .negZero) ∧
    (Answers (jsNum v) (x.unary id) ↔ x.converts = true ∧ jsToNumber v ≠ .negZero) ∧
    (∀ op : Js.Rel, x.relation y op = some (jsCmp v w op.text) ↔
      x.converts = true ∧ y.converts = true) ∧
    (x.looseEq y = some (jsLooseEq v w) ↔ Compares x y) ∧
    jsStrictEq v w = x.strictEq y ∧
    (x.toStr = some (jsString v) ↔ x.converts = true) ∧
    v.truthy = x.toBoolean ∧
    jsLooseEq v w = jsLooseEq w v ∧ jsStrictEq v w = jsStrictEq w v := by
  refine ⟨add_iff hv hw, arith_iff hv hw ?_, arith_iff hv hw ?_, arith_iff hv hw ?_,
    arith_iff hv hw ?_, unary_iff hv ?_, unary_iff hv ?_, fun op => ?_, looseEq_iff hv hw,
    strictEq_stands hv hw, toStr_iff hv, truthy_stands hv, jsLooseEq_comm v w,
    jsStrictEq_comm v w⟩
  · exact fun m n _ _ => Double.nonneg_add m n.neg
  · exact fun m n hm hn => Double.nonneg_mul hm hn
  · exact fun m n hm hn => Double.nonneg_div hm hn
  · exact fun m n hm hn => Double.nonneg_rem hm hn
  · exact fun m hm => Double.nonneg_neg hm
  · exact fun m hm => hm
  · rw [relation_stands hv hw]
    split
    · next h => exact ⟨fun _ => h, fun _ => rfl⟩
    · next h => exact ⟨fun he => (by cases he), fun hx => absurd hx h⟩

end

/-- No text is a number. -/
noncomputable abbrev wordsOnly : Conversions where
  shortest := shortestOf
  toNumber _ := .nan
  shortest_spec := shortestOf_spec
  nonneg_toNumber _ := trivial

theorem operators_iff_word :
    Answers (@jsAdd wordsOnly (.str ['a']) .null) (@Js.add wordsOnly (.str ['a']) .null) :=
  (@operators_iff wordsOnly (.str ['a']) .null _ _ rfl rfl).1.mpr ⟨rfl, rfl, .inl rfl⟩

/-- **Negation loses negative zero**: `-null` is one. -/
theorem neg_loses_zero : ¬ ∀ (c : Conversions) (v : Value Num) (x : Js), stands v = some x →
    Answers (@jsNeg c v) (@Js.unary c .neg x) := fun h =>
  ((@unary_iff wordsOnly .null .null rfl .neg fun _ hm => Double.nonneg_neg hm).mp
    (h wordsOnly .null .null rfl)).2 rfl

end Brust.Jinja
