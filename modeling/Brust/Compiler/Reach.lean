import Mathlib.Data.List.Count
import Brust.Compiler.Component

/-!
# Compiler — What a component's code reaches

`reach` ends with all the derived values that its roots read, themselves or through others
(`mem_reach_of_root`, `mem_reach_of_reach`), and `handlerNames` with all the derived values that
read a handler (`lateNames_closed`).  A source in which nothing is read too early is one in which
nothing reads itself (`not_evaluates_self`).
-/

namespace Brust.Compiler

variable {F : Type}

/-! ### Nothing reads itself -/

/-- A declaration of the source, of which an artifact prints no more. -/
def Covers (src : List Const) (c : Const) : Prop :=
  ∃ s ∈ src, s.name = c.name ∧ c.code ⊆ s.code ∧ (c.defers = false → s.defers = false)

theorem eq_of_name {src : List Const} (hnodup : (src.map Const.name).Nodup) {x y : Const}
    (hx : x ∈ src) (hy : y ∈ src) (h : x.name = y.name) : x = y :=
  List.inj_on_of_nodup_map hnodup hx hy h

/-- What is read while an artifact's initialiser is evaluated stands before it in the source, where
it is read by the declaration itself or by a computed value that is evaluated there. -/
theorem before_in_source {made : String → String → Prop} {src cs : List Const}
    (hsrc : Declared made src) (hnodup : (src.map Const.name).Nodup)
    (hcov : ∀ c ∈ cs, Covers src c) {d : Const} (hd : Covers src d) (hnow : d.defers = false)
    {s : Const} (hs : s ∈ src) (hname : s.name = d.name) {x : String}
    (hx : Evaluates made cs d x) :
    ∃ e ∈ src, e.defers = false ∧ (e = s ∨ [e, s].Sublist src) ∧ Evaluates made src e x := by
  have hsd : s.defers = false ∧ d.code ⊆ s.code := by
    obtain ⟨s', hs', hname', hcode, hdefers⟩ := hd
    obtain rfl := eq_of_name hnodup hs' hs (hname'.trans hname.symm)
    exact ⟨hdefers hnow, hcode⟩
  induction hx with
  | @own x hx hm => exact ⟨s, hs, hsd.1, .inl rfl, .own (hsd.2 hx) (hname ▸ hm)⟩
  | @run f x hf hmem hlazy hx hm ih =>
      obtain ⟨e, he, hen, hes, hev⟩ := ih
      obtain ⟨t, ht, htname, htcode, -⟩ := hcov f hmem
      cases htd : t.defers with
      | true => exact ⟨e, he, hen, hes, .run (htname ▸ hev) ht htd (htcode hx) (htname ▸ hm)⟩
      | false =>
          -- a value of the source that the artifact defers: it is evaluated at its own place
          obtain ⟨r, hr, hsub⟩ := hsrc e he hen f.name hev
          have hrsrc : r ∈ src := hsub.subset List.mem_cons_self
          obtain rfl := eq_of_name hnodup hrsrc ht (hr.trans htname.symm)
          refine ⟨r, ht, htd, .inr ?_, .own (htcode hx) (htname ▸ hm)⟩
          rcases hes with rfl | hes
          · exact hsub
          · exact before_trans hnodup.of_map hsub hes

theorem not_evaluates_self {made : String → String → Prop} {src cs : List Const}
    (hsrc : Declared made src) (hnodup : (src.map Const.name).Nodup)
    (hcov : ∀ c ∈ cs, Covers src c) {d : Const} (hd : Covers src d) (hnow : d.defers = false) :
    ¬ Evaluates made cs d d.name := by
  intro hx
  obtain ⟨s, hs, hname, -⟩ := id hd
  obtain ⟨e, he, hen, hes, hev⟩ := before_in_source hsrc hnodup hcov hd hnow hs hname hx
  obtain ⟨r, hr, hsub⟩ := hsrc e he hen d.name hev
  obtain rfl := eq_of_name hnodup (hsub.subset List.mem_cons_self) hs (hr.trans hname.symm)
  rcases hes with rfl | hes
  · exact ne_of_before hnodup.of_map hsub rfl
  · exact ne_of_before hnodup.of_map (before_trans hnodup.of_map hes hsub) rfl

namespace ComponentIR

variable {ir : ComponentIR F}

/-! ### Reached values -/

theorem names_nodup (ir : ComponentIR F) : (ir.source.map Const.name).Nodup := by
  have h := ir.distinct
  simpa [source, Function.comp_def] using h

theorem derived_nodup (ir : ComponentIR F) : (ir.derived.map DerivedDecl.name).Nodup := by
  have h := ir.distinct
  simp only [List.append_assoc] at h
  exact (List.nodup_append.mp (List.nodup_append.mp (List.nodup_append.mp h).2.1).2.1).1

theorem derivedRaw_eq {d : DerivedDecl F} (hd : d ∈ ir.derived) :
    ir.derivedRaw d.name = some d.raw.expr := by
  rw [derivedRaw]
  cases hf : ir.derived.find? (·.name = d.name) with
  | none => exact absurd (List.find?_eq_none.mp hf d hd) (by simp)
  | some d' =>
      have hname : d'.name = d.name := by simpa using List.find?_some hf
      obtain rfl := List.inj_on_of_nodup_map ir.derived_nodup
        (List.mem_of_find?_eq_some hf) hd hname
      rfl

theorem isDerived_iff {n : String} : ir.isDerived n = true ↔ ∃ d ∈ ir.derived, d.name = n := by
  simp [isDerived]

/-- The pushes that are left. -/
def left (ir : ComponentIR F) (seen : List String) : ℕ :=
  ((ir.derived.filter fun d => !seen.contains d.name).map fun d =>
    (localsIn d.raw.expr).length).sum

/-- What the loop ends with from a stack and what was seen. -/
structure Reaches (ir : ComponentIR F) (stack seen out : List String) : Prop where
  kept : seen ⊆ out
  pushed : ∀ n ∈ stack, ir.isDerived n = true → n ∈ out
  closed : ∀ d ∈ ir.derived, d.name ∈ out → d.name ∈ seen ∨
    ∀ n ∈ localsIn d.raw.expr, ir.isDerived n = true → n ∈ out

theorem left_cons {d : DerivedDecl F} (hd : d ∈ ir.derived) {seen : List String}
    (hs : d.name ∉ seen) :
    ir.left seen = (localsIn d.raw.expr).length + ir.left (d.name :: seen) := by
  have hnodup := ir.derived_nodup
  rw [left, left]
  generalize ir.derived = ds at hd hnodup
  induction ds with
  | nil => cases hd
  | cons d' ds ih =>
      obtain ⟨hnot, hnodup⟩ := List.nodup_cons.mp hnodup
      rcases List.mem_cons.mp hd with rfl | hd
      · have hrest : (ds.filter fun e => !(d.name :: seen).contains e.name) =
            ds.filter fun e => !seen.contains e.name := by
          refine List.filter_congr fun e he => ?_
          have hne : e.name ≠ d.name := fun h => hnot (h ▸ List.mem_map_of_mem he)
          simp [hne]
        rw [List.filter_cons_of_pos (by simpa using hs), List.filter_cons_of_neg (by simp), hrest]
        rfl
      · have hne : d'.name ≠ d.name := fun h => hnot (h ▸ List.mem_map_of_mem hd)
        have ih := ih hd hnodup
        by_cases hs' : d'.name ∈ seen
        · rw [List.filter_cons_of_neg (by simpa using hs'),
            List.filter_cons_of_neg (by simp [hs'])]
          exact ih
        · rw [List.filter_cons_of_pos (by simpa using hs'),
            List.filter_cons_of_pos (by simpa using ⟨hne, hs'⟩), List.map_cons, List.map_cons,
            List.sum_cons, List.sum_cons, ih]
          omega

theorem reachFrom_spec {f : ℕ} {stack seen : List String}
    (hf : stack.length + ir.left seen < f) : Reaches ir stack seen (ir.reachFrom f stack seen) := by
  induction f generalizing stack seen with
  | zero => exact absurd hf (Nat.not_lt_zero _)
  | succ f ih =>
      cases stack with
      | nil =>
          exact ⟨fun _ h => h, fun _ h => (by cases h), fun _ _ h => .inl h⟩
      | cons n stack =>
          rw [List.length_cons] at hf
          rw [reachFrom]
          split
          case isTrue hskip =>
            have hstack : stack.length + ir.left seen < f := by omega
            have h := ih hstack
            refine ⟨h.kept, fun m hm hd => ?_, h.closed⟩
            rcases List.mem_cons.mp hm with rfl | hm
            · rw [hd, Bool.not_true, Bool.false_or, List.contains_iff_mem] at hskip
              exact h.kept hskip
            · exact h.pushed m hm hd
          case isFalse hnew =>
            rw [Bool.or_eq_true, not_or, Bool.not_eq_true', Bool.not_eq_false,
              List.contains_iff_mem] at hnew
            obtain ⟨d, hd, rfl⟩ := isDerived_iff.mp hnew.1
            have hleft := left_cons hd hnew.2
            rw [derivedRaw_eq hd, Option.elim_some]
            have hstack : (localsIn d.raw.expr ++ stack).length + ir.left (d.name :: seen) < f := by
              rw [List.length_append]
              omega
            have h := ih hstack
            refine ⟨fun m hm => h.kept (List.mem_cons_of_mem _ hm), fun m hm hdm => ?_,
              fun e he hout => ?_⟩
            · rcases List.mem_cons.mp hm with rfl | hm
              · exact h.kept List.mem_cons_self
              · exact h.pushed m (List.mem_append_right _ hm) hdm
            · rcases h.closed e he hout with hseen | hreads
              · rcases List.mem_cons.mp hseen with hname | hseen
                · obtain rfl := List.inj_on_of_nodup_map ir.derived_nodup he hd hname
                  exact .inr fun m hm hdm => h.pushed m (List.mem_append_left _ hm) hdm
                · exact .inl hseen
              · exact .inr hreads

theorem reach_spec (ir : ComponentIR F) (roots : List (RawExpr F)) :
    Reaches ir (roots.flatMap localsIn) [] (ir.reach roots) := by
  refine reachFrom_spec ?_
  have hleft : ir.left [] = ir.pushes := by simp [left, pushes]
  omega

theorem mem_reach_of_root {roots : List (RawExpr F)} {e : RawExpr F} (he : e ∈ roots)
    {n : String} (hn : n ∈ localsIn e) (hd : ir.isDerived n = true) : n ∈ ir.reach roots :=
  (reach_spec ir roots).pushed n (List.mem_flatMap.mpr ⟨e, he, hn⟩) hd

theorem mem_reach_of_reach {roots : List (RawExpr F)} {d : DerivedDecl F} (hd : d ∈ ir.derived)
    (hr : d.name ∈ ir.reach roots) {n : String} (hn : n ∈ localsIn d.raw.expr)
    (hdn : ir.isDerived n = true) : n ∈ ir.reach roots :=
  ((reach_spec ir roots).closed d hd hr).resolve_left List.not_mem_nil n hn hdn

/-! ### Values that read a handler -/

theorem handlerNames_subset {f : ℕ} {names : List String} : names ⊆ ir.handlerNames f names := by
  induction f generalizing names with
  | zero => exact fun _ h => h
  | succ f ih =>
      rw [handlerNames]
      split
      · exact fun _ h => h
      · exact fun n hn => ih (List.mem_append_left _ hn)

/-- Derived values that are not among the names. -/
def others (ir : ComponentIR F) (names : List String) : ℕ :=
  ir.derived.countP fun d => !names.contains d.name

theorem others_append_lt {names more : List String} {d : DerivedDecl F} (hd : d ∈ ir.derived)
    (hn : d.name ∉ names) (hm : d.name ∈ more) : ir.others (names ++ more) < ir.others names := by
  have hsplit : ir.others (names ++ more) =
      (ir.derived.filter fun d => !names.contains d.name).countP
        fun d => !more.contains d.name := by
    rw [others, List.countP_filter]
    refine List.countP_congr fun e _ => ?_
    simp [and_comm]
  rw [hsplit, others, List.countP_eq_length_filter (l := ir.derived)]
  exact List.countP_lt_length_iff.mpr
    ⟨d, List.mem_filter.mpr ⟨hd, by simpa using hn⟩, by simpa using hm⟩

/-- A derived value that reads one of the names is one of them. -/
theorem handlerNames_closed {f : ℕ} {names : List String} (hf : ir.others names < f)
    {d : DerivedDecl F} (hd : d ∈ ir.derived)
    (hr : readsOf d.raw.expr (ir.handlerNames f names) ≠ []) :
    d.name ∈ ir.handlerNames f names := by
  induction f generalizing names with
  | zero => exact absurd hf (Nat.not_lt_zero _)
  | succ f ih =>
      rw [handlerNames] at hr ⊢
      split at hr
      case isTrue hmore =>
        rw [if_pos hmore]
        by_contra hnot
        have hmem : d ∈ ir.derived.filter fun d =>
            !names.contains d.name && !(readsOf d.raw.expr names).isEmpty := by
          refine List.mem_filter.mpr ⟨hd, ?_⟩
          simp [hnot, hr]
        rw [List.map_eq_nil_iff.mp hmore] at hmem
        cases hmem
      case isFalse hmore =>
        rw [if_neg hmore]
        refine ih (Nat.lt_of_lt_of_le ?_ (Nat.le_of_lt_succ hf)) hr
        obtain ⟨n, hn⟩ := List.exists_mem_of_ne_nil _ hmore
        obtain ⟨e, he, rfl⟩ := List.mem_map.mp hn
        obtain ⟨hed, hcond⟩ := List.mem_filter.mp he
        rw [Bool.and_eq_true, Bool.not_eq_true', ← Bool.not_eq_true, List.contains_iff_mem] at hcond
        exact others_append_lt hed hcond.1 hn

/-- A derived value that reads a handler, or another that does, is late. -/
theorem lateNames_closed {d : DerivedDecl F} (hd : d ∈ ir.derived)
    (hr : readsOf d.raw.expr ir.lateNames ≠ []) : d.name ∈ ir.lateNames :=
  handlerNames_closed (Nat.lt_succ_of_le (List.countP_le_length ..)) hd hr

theorem handler_mem_lateNames {h : HandlerDecl F} (hh : h ∈ ir.handlers) :
    h.name ∈ ir.lateNames :=
  handlerNames_subset (List.mem_map_of_mem hh)

end ComponentIR

end Brust.Compiler
