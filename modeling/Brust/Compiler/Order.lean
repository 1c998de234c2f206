import Mathlib.Data.List.Sort
import Mathlib.Data.List.Nodup

/-!
# Compiler — The order of declarations

`order_decls`: again and again the first declaration, by location, that reads none of those left;
where there is none, the first by location.  It returns all of them (`orderDecls_perm`).  One comes
before one that it reads exactly where it is the first, by location, of a knot: declarations each of
which reads another of them (`knot_of_before`, `before_of_knot`).
-/

namespace Brust.Compiler

variable {α : Type}

structure Decl (α : Type) where
  loc : ℕ
  name : String
  reads : List String
  item : α
deriving DecidableEq

/-- It reads none of the declarations that are left, itself apart. -/
def Decl.ready (pending : List (Decl α)) (d : Decl α) : Bool :=
  d.reads.all fun r => r = d.name ∨ r ∉ pending.map Decl.name

/-- `position(..).unwrap_or(0)` and `remove`: the declaration that comes next, and those left. -/
def next (ds : List (Decl α)) : Option (Decl α × List (Decl α)) :=
  match ds.find? (Decl.ready ds) with
  | some d => some (d, ds.eraseP (Decl.ready ds))
  | none => ds.head?.map fun d => (d, ds.tail)

/-- The loop, for as many rounds as there are declarations. -/
def emit : ℕ → List (Decl α) → List (Decl α)
  | 0, _ => []
  | n + 1, ds =>
    match next ds with
    | none => []
    | some (d, ds) => d :: emit n ds

def byLoc (ds : List (Decl α)) : List (Decl α) := ds.insertionSort fun a b => a.loc ≤ b.loc

def ordered (ds : List (Decl α)) : List (Decl α) := emit ds.length (byLoc ds)

/-- `order_decls` -/
def orderDecls (ds : List (Decl α)) : List α := (ordered ds).map Decl.item

/-! ### One round -/

variable {ds rest : List (Decl α)} {d : Decl α} {n : ℕ}

/-- What comes next stands somewhere in the list; it is ready, or it is the first and none is. -/
theorem next_eq_some (h : next ds = some (d, rest)) :
    ∃ before after, ds = before ++ d :: after ∧ rest = before ++ after ∧
      (∀ x ∈ before, Decl.ready ds x = false) ∧
      (Decl.ready ds d = true ∨ before = [] ∧ ∀ x ∈ ds, Decl.ready ds x = false) := by
  rw [next] at h
  split at h
  case h_1 d' hf =>
    cases h
    obtain ⟨hr, before, after, hds, hb⟩ := List.find?_eq_some_iff_append.mp hf
    have hbefore : ∀ x ∈ before, Decl.ready ds x = false := fun x hx => by simpa using hb x hx
    refine ⟨before, after, hds, ?_, hbefore, .inl hr⟩
    have hsplit : (before ++ d :: after).eraseP (Decl.ready ds) = before ++ after := by
      rw [List.eraseP_append_right _ fun x hx => Bool.eq_false_iff.mp (hbefore x hx),
        List.eraseP_cons_of_pos hr]
    rw [← hsplit, ← hds]
  case h_2 hf =>
    cases ds with
    | nil => cases h
    | cons d' ds =>
        cases h
        refine ⟨[], ds, rfl, rfl, fun _ hx => (by cases hx), .inr ⟨rfl, fun x hx => ?_⟩⟩
        simpa using List.find?_eq_none.mp hf x hx

theorem next_ne_none (h : ds ≠ []) : ∃ d rest, next ds = some (d, rest) := by
  rw [next]
  split
  · exact ⟨_, _, rfl⟩
  · obtain ⟨d, ds, rfl⟩ := List.exists_cons_of_ne_nil h
    exact ⟨_, _, rfl⟩

theorem perm_next (h : next ds = some (d, rest)) : (d :: rest).Perm ds := by
  obtain ⟨before, after, rfl, rfl, -, -⟩ := next_eq_some h
  exact List.perm_middle.symm

/-- One that is not ready reads another that is left. -/
theorem reads_of_not_ready (h : Decl.ready ds d = false) :
    ∃ y ∈ ds, y.name ≠ d.name ∧ y.name ∈ d.reads := by
  obtain ⟨r, hr, hne⟩ := List.all_eq_false.mp h
  rw [decide_eq_true_eq, not_or, not_not] at hne
  obtain ⟨y, hy, rfl⟩ := List.mem_map.mp hne.2
  exact ⟨y, hy, hne.1, hr⟩

theorem not_ready_of_reads {y : Decl α} (hy : y ∈ ds) (hne : y.name ≠ d.name)
    (hr : y.name ∈ d.reads) : Decl.ready ds d = false := by
  refine List.all_eq_false.mpr ⟨y.name, hr, ?_⟩
  rw [decide_eq_true_eq, not_or, not_not]
  exact ⟨hne, List.mem_map_of_mem hy⟩

/-! ### The loop -/

/-- **Nothing is lost, and the loop ends**: after as many rounds as there are declarations. -/
theorem emit_perm (hn : n = ds.length) : (emit n ds).Perm ds := by
  induction n generalizing ds with
  | zero => rw [List.length_eq_zero_iff.mp hn.symm, emit]
  | succ n ih =>
      obtain ⟨d, rest, h⟩ := next_ne_none (List.ne_nil_of_length_eq_add_one hn.symm)
      have hp := perm_next h
      rw [emit, h]
      refine ((ih ?_).cons d).trans hp
      have hlen := hp.length_eq
      rw [List.length_cons] at hlen
      omega

theorem ordered_perm (ds : List (Decl α)) : (ordered ds).Perm ds :=
  (emit_perm (List.length_insertionSort ..).symm).trans (List.perm_insertionSort _ _)

theorem orderDecls_perm (ds : List (Decl α)) : (orderDecls ds).Perm (ds.map Decl.item) :=
  (ordered_perm ds).map _

/-! ### One before another -/

theorem mem_of_pair_sublist {β : Type} {x y z : β} {l : List β} (h : [x, y].Sublist (z :: l)) :
    y ∈ l ∧ (x ≠ z → [x, y].Sublist l) := by
  rcases List.sublist_cons_iff.mp h with h | ⟨l', he, h⟩
  · exact ⟨h.subset (by simp), fun _ => h⟩
  · obtain ⟨rfl, rfl⟩ := List.cons.inj he
    exact ⟨List.singleton_sublist.mp h, fun hne => absurd rfl hne⟩

theorem before_or_after {β : Type} {x y : β} {l : List β} (hx : x ∈ l) (hy : y ∈ l)
    (hne : x ≠ y) : [x, y].Sublist l ∨ [y, x].Sublist l := by
  induction l with
  | nil => cases hx
  | cons z l ih =>
      rcases List.mem_cons.mp hx with rfl | hx'
      · have hy' := (List.mem_cons.mp hy).resolve_left hne.symm
        exact .inl ((List.singleton_sublist.mpr hy').cons_cons x)
      · rcases List.mem_cons.mp hy with rfl | hy'
        · exact .inr ((List.singleton_sublist.mpr hx').cons_cons y)
        · exact (ih hx' hy').imp (.cons z) (.cons z)

theorem before_trans {β : Type} {x y z : β} {l : List β} (hnodup : l.Nodup)
    (hxy : [x, y].Sublist l) (hyz : [y, z].Sublist l) : [x, z].Sublist l := by
  induction l with
  | nil => cases hxy
  | cons w l ih =>
      obtain ⟨hw, hnodup⟩ := List.nodup_cons.mp hnodup
      have hyz' := (mem_of_pair_sublist hyz).2 fun he => hw (he ▸ (mem_of_pair_sublist hxy).1)
      by_cases hx : x = w
      · subst hx
        have hz : z ∈ l := hyz'.subset (List.mem_cons_of_mem y List.mem_cons_self)
        exact (List.singleton_sublist.mpr hz).cons_cons x
      · exact .cons w (ih hnodup ((mem_of_pair_sublist hxy).2 hx) hyz')

theorem ne_of_before {β : Type} {x y : β} {l : List β} (hnodup : l.Nodup)
    (h : [x, y].Sublist l) : x ≠ y := by
  have hn := hnodup.sublist h
  rintro rfl
  simp at hn

/-! ### Knots -/

/-- Declarations, `d` the first of them, each of which reads another of them. -/
structure Knot (ds : List (Decl α)) (d : Decl α) (T : List (Decl α)) : Prop where
  sub : T ⊆ ds
  mem : d ∈ T
  reads : ∀ x ∈ T, ∃ y ∈ T, y.name ≠ x.name ∧ y.name ∈ x.reads
  first : ∀ x ∈ T, x = d ∨ [d, x].Sublist ds

theorem Knot.mono {ds' T : List (Decl α)} (h : Knot rest d T) (hs : rest.Sublist ds') :
    Knot ds' d T where
  sub _ hx := hs.subset (h.sub hx)
  mem := h.mem
  reads := h.reads
  first x hx := (h.first x hx).imp_right fun hd => hd.trans hs

theorem mem_of_mem_emit {x : Decl α} (h : x ∈ emit n ds) : x ∈ ds := by
  induction n generalizing ds with
  | zero => cases h
  | succ n ih =>
      rw [emit] at h
      split at h
      · cases h
      · rename_i d rest hn
        refine (perm_next hn).subset ?_
        exact (List.mem_cons.mp h).elim (fun he => he ▸ List.mem_cons_self) fun hx =>
          List.mem_cons_of_mem _ (ih hx)

/-- **Where a declaration comes too early.**  It comes before one that it reads: it is the first of
a knot, and all that come after it belong to that. -/
theorem knot_of_before {r : Decl α} (h : [d, r].Sublist (emit n ds)) (hne : r.name ≠ d.name)
    (hr : r.name ∈ d.reads) : ∃ T, Knot ds d T ∧ ∀ x, [d, x].Sublist (emit n ds) → x ∈ T := by
  induction n generalizing ds with
  | zero => cases h
  | succ n ih =>
      rw [emit] at h ⊢
      split at h
      · cases h
      · rename_i d' rest hn
        obtain ⟨before, after, rfl, rfl, -, hready⟩ := next_eq_some hn
        obtain ⟨hmem, htail⟩ := mem_of_pair_sublist h
        by_cases hd : d = d'
        · subst hd
          have hrest : ∀ x ∈ before ++ after, x ∈ before ++ d :: after := fun x hx =>
            (perm_next hn).subset (List.mem_cons_of_mem d hx)
          -- it is not ready, so nothing is
          have hnot := not_ready_of_reads (hrest r (mem_of_mem_emit hmem)) hne hr
          obtain ⟨rfl, hall⟩ := hready.resolve_left (by rw [hnot]; exact Bool.false_ne_true)
          refine ⟨d :: after, ⟨fun _ hx => hx, List.mem_cons_self, fun x hx => ?_, fun x hx => ?_⟩,
            fun x hx => ?_⟩
          · exact reads_of_not_ready (hall x hx)
          · rcases List.mem_cons.mp hx with rfl | hx
            · exact .inl rfl
            · exact .inr ((List.singleton_sublist.mpr hx).cons_cons d)
          · exact hrest x (mem_of_mem_emit (mem_of_pair_sublist hx).1)
        · obtain ⟨T, hT, hall⟩ := ih (htail hd)
          refine ⟨T, hT.mono ?_, fun x hx => hall x ((mem_of_pair_sublist hx).2 hd)⟩
          exact (List.sublist_cons_self d' after).append_left before

theorem sublist_without {l before after : List (Decl α)} (h : l.Sublist (before ++ d :: after))
    (hd : d ∉ l) : l.Sublist (before ++ after) := by
  obtain ⟨l₁, l₂, rfl, h₁, h₂⟩ := List.sublist_append_iff.mp h
  refine h₁.append ?_
  rcases List.sublist_cons_iff.mp h₂ with h₂ | ⟨l₂, rfl, -⟩
  · exact h₂
  · exact absurd (List.mem_append_right l₁ List.mem_cons_self) hd

/-- And where one is the first of a knot it comes before all others of it. -/
theorem before_of_knot {T : List (Decl α)} (hT : Knot ds d T) (hnodup : ds.Nodup)
    (hn : n = ds.length) : ∀ x ∈ T, x ≠ d → [d, x].Sublist (emit n ds) := by
  induction n generalizing ds with
  | zero =>
      rw [List.length_eq_zero_iff.mp hn.symm] at hT
      intro x hx
      cases hT.sub hx
  | succ n ih =>
      intro x hx hne
      obtain ⟨d', rest, hnext⟩ := next_ne_none (List.ne_nil_of_length_eq_add_one hn.symm)
      have hperm := perm_next hnext
      have hlen : n = rest.length := by
        have hl := hperm.length_eq
        rw [List.length_cons] at hl
        omega
      rw [emit, hnext]
      obtain ⟨before, after, rfl, rfl, -, hready⟩ := next_eq_some hnext
      by_cases hd' : d' ∈ T
      · -- it reads another of the knot, so it is the first of all
        obtain ⟨y, hy, hyne, hyr⟩ := hT.reads d' hd'
        have hnot := not_ready_of_reads (hT.sub hy) hyne hyr
        obtain ⟨rfl, -⟩ := hready.resolve_left (by rw [hnot]; exact Bool.false_ne_true)
        have hd : d' = d := by
          rcases hT.first d' hd' with h | h
          · exact h
          · exact absurd (mem_of_pair_sublist h).1 (List.nodup_cons.mp hnodup).1
        subst hd
        refine (List.singleton_sublist.mpr ((emit_perm hlen).mem_iff.mpr ?_)).cons_cons d'
        exact (List.mem_cons.mp (hT.sub hx)).resolve_left hne
      · refine .cons _ (ih ⟨fun y hy => ?_, hT.mem, hT.reads, fun y hy => ?_⟩ ?_ hlen x hx hne)
        · refine (List.mem_cons.mp (hperm.mem_iff.mpr (hT.sub hy))).resolve_left ?_
          rintro rfl
          exact hd' hy
        · refine (hT.first y hy).imp_right fun h => sublist_without h ?_
          simp only [List.mem_cons, List.not_mem_nil, or_false, not_or]
          exact ⟨fun he => hd' (he ▸ hT.mem), fun he => hd' (he ▸ hy)⟩
        · exact (List.nodup_cons.mp (hperm.nodup_iff.mpr hnodup)).2

/-! ### Locations -/

/-- `r` and all that it reads come at earlier locations than `d`, each read before its reader. -/
def Earlier (ds : List (Decl α)) (r d : Decl α) : Prop :=
  ∃ T : List (Decl α), r ∈ T ∧ ∀ x ∈ T, [x, d].Sublist ds ∧
    ∀ y ∈ ds, y.name ∈ x.reads → y.name ≠ x.name → y ∈ T ∧ [y, x].Sublist ds

theorem exists_first {T : List (Decl α)} (hnodup : ds.Nodup) {r : Decl α} (hr : r ∈ T)
    (hds : r ∈ ds) : ∃ t ∈ T, t ∈ ds ∧ ∀ y ∈ T, ¬ [y, t].Sublist ds := by
  induction ds with
  | nil => cases hds
  | cons d ds ih =>
      obtain ⟨hd, hnodup⟩ := List.nodup_cons.mp hnodup
      by_cases hdT : d ∈ T
      · exact ⟨d, hdT, List.mem_cons_self, fun y _ h => hd (mem_of_pair_sublist h).1⟩
      · have hne : ∀ y ∈ T, y ≠ d := fun y hy he => hdT (he ▸ hy)
        obtain ⟨t, ht, htds, hfirst⟩ :=
          ih hnodup ((List.mem_cons.mp hds).resolve_left (hne r hr))
        exact ⟨t, ht, List.mem_cons_of_mem d htds, fun y hy h =>
          hfirst y hy ((mem_of_pair_sublist h).2 (hne y hy))⟩

theorem mem_before {before after : List (Decl α)} {t : Decl α}
    (hnodup : (before ++ d :: after).Nodup) (h : [t, d].Sublist (before ++ d :: after)) :
    t ∈ before := by
  obtain ⟨-, hafter, hdisj⟩ := List.nodup_append.mp hnodup
  obtain ⟨l₁, l₂, he, h₁, h₂⟩ := List.sublist_append_iff.mp h
  cases l₁ with
  | nil =>
      subst he
      exact absurd (mem_of_pair_sublist h₂).1 (List.nodup_cons.mp hafter).1
  | cons x l₁ =>
      obtain ⟨rfl, -⟩ := List.cons.inj he
      exact h₁.subset List.mem_cons_self

/-- Locations decide where the earlier declaration, and all that it reads, come in order. -/
theorem before_of_earlier {r : Decl α} (h : Earlier ds r d) (hnodup : ds.Nodup)
    (hn : n = ds.length) (hds : d ∈ ds) : [r, d].Sublist (emit n ds) := by
  induction n generalizing ds with
  | zero =>
      rw [List.length_eq_zero_iff.mp hn.symm] at hds
      cases hds
  | succ n ih =>
      obtain ⟨T, hrT, hT⟩ := h
      obtain ⟨d', rest, hnext⟩ := next_ne_none (List.ne_nil_of_length_eq_add_one hn.symm)
      have hperm := perm_next hnext
      have hlen : n = rest.length := by
        have hl := hperm.length_eq
        rw [List.length_cons] at hl
        omega
      have hnodup' := hperm.nodup_iff.mpr hnodup
      rw [emit, hnext]
      obtain ⟨before, after, rfl, rfl, hbefore, hready⟩ := next_eq_some hnext
      -- the first of those is ready, so what comes next is not `d`
      obtain ⟨t, ht, htds, hfirst⟩ :=
        exists_first hnodup hrT ((hT r hrT).1.subset List.mem_cons_self)
      have htready : Decl.ready (before ++ d' :: after) t = true := by
        cases hr : Decl.ready (before ++ d' :: after) t with
        | true => rfl
        | false =>
            obtain ⟨y, hy, hne, hyr⟩ := reads_of_not_ready hr
            obtain ⟨hyT, hyt⟩ := (hT t ht).2 y hy hyr hne
            exact absurd hyt (hfirst y hyT)
      have hd : d' ≠ d := by
        rintro rfl
        rcases hready with - | ⟨-, hall⟩
        · have htb := mem_before hnodup (hT t ht).1
          exact absurd htready (Bool.eq_false_iff.mp (hbefore t htb))
        · exact absurd htready (Bool.eq_false_iff.mp (hall t htds))
      by_cases hr : d' = r
      · subst hr
        refine (List.singleton_sublist.mpr ((emit_perm hlen).mem_iff.mpr ?_)).cons_cons d'
        exact (List.mem_cons.mp (hperm.mem_iff.mpr hds)).resolve_left hd.symm
      · classical
        refine .cons _ (ih ⟨T.filter (· ≠ d'), ?_, fun x hx => ?_⟩ ?_ hlen ?_)
        · exact List.mem_filter.mpr ⟨hrT, decide_eq_true fun he => hr he.symm⟩
        · obtain ⟨hx, hxne⟩ := List.mem_filter.mp hx
          have hxne := of_decide_eq_true hxne
          refine ⟨sublist_without (hT x hx).1 ?_, fun y hy hyr hyne => ?_⟩
          · simpa using ⟨Ne.symm hxne, hd⟩
          · obtain ⟨hyT, hyx⟩ := (hT x hx).2 y (hperm.subset (List.mem_cons_of_mem d' hy)) hyr hyne
            have hyd : d' ≠ y := fun he => (List.nodup_cons.mp hnodup').1 (he ▸ hy)
            refine ⟨List.mem_filter.mpr ⟨hyT, decide_eq_true hyd.symm⟩, sublist_without hyx ?_⟩
            simpa using ⟨hyd, Ne.symm hxne⟩
        · exact (List.nodup_cons.mp hnodup').2
        · exact (List.mem_cons.mp (hperm.mem_iff.mpr hds)).resolve_left hd.symm

end Brust.Compiler
