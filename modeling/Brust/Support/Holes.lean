import Mathlib.Data.List.Basic
import Mathlib.Data.List.Infix
import Mathlib.Tactic.ByContra

/-!
# Support — texts with holes

A text's pieces with the same filler between them are `List.intercalate`.  `cutAt` takes such a text
apart again where it finds the filler, from the left and without overlap; it finds the pieces
(`cutAt_intercalate_of_alone`) where the filler stands in the holes only.  A filler that is longer
than every piece and starts with a letter it does not have again always does
(`cutAt_of_marked`).
-/

namespace Brust.Holes

variable {α : Type} [DecidableEq α]

/-- The pieces between the occurrences of `c`, after `skip` letters of one. -/
def cutAt (c : List α) : ℕ → List α → List (List α)
  | _, [] => [[]]
  | skip + 1, _ :: s => cutAt c skip s
  | 0, a :: s =>
    if c <+: a :: s then [] :: cutAt c (c.length - 1) s
    else (cutAt c 0 s).modifyHead (a :: ·)

/-! ### Cutting -/

attribute [local simp] cutAt in
theorem cutAt_ne_nil {c : List α} : ∀ {skip : ℕ} {s : List α}, cutAt c skip s ≠ []
  | _, [] => List.cons_ne_nil _ _
  | skip + 1, a :: s => by
      rw [cutAt]
      exact cutAt_ne_nil
  | 0, a :: s => by
      rw [cutAt]
      split
      · exact List.cons_ne_nil _ _
      · rw [ne_eq, List.modifyHead_eq_nil_iff]
        exact cutAt_ne_nil

/-- Inside an occurrence nothing is kept. -/
theorem cutAt_skip {c : List α} : ∀ (x : List α) (s : List α),
    cutAt c x.length (x ++ s) = cutAt c 0 s
  | [], _ => rfl
  | a :: x, s => by
      rw [List.length_cons, List.cons_append, cutAt]
      exact cutAt_skip x s

theorem cutAt_append {c : List α} (hc : c ≠ []) (s : List α) :
    cutAt c 0 (c ++ s) = [] :: cutAt c 0 s := by
  obtain ⟨a, x, rfl⟩ := List.exists_cons_of_ne_nil hc
  rw [List.cons_append, cutAt, ← List.cons_append, if_pos (List.prefix_append _ _),
    List.length_cons, Nat.add_sub_cancel, cutAt_skip]

theorem cutAt_cons {c s : List α} {a : α} (h : ¬ c <+: a :: s) :
    cutAt c 0 (a :: s) = (cutAt c 0 s).modifyHead (a :: ·) := by
  rw [cutAt, if_neg h]

/-- A piece that no occurrence starts in. -/
theorem cutAt_piece {c : List α} : ∀ {p t : List α},
    (∀ u v, p = u ++ v → v ≠ [] → ¬ c <+: v ++ t) →
    cutAt c 0 (p ++ t) = (cutAt c 0 t).modifyHead (p ++ ·)
  | [], t, _ => by
      obtain ⟨p, ps, hps⟩ := List.exists_cons_of_ne_nil (@cutAt_ne_nil _ _ c 0 t)
      rw [List.nil_append, hps, List.modifyHead_cons, List.nil_append]
  | a :: p, t, h => by
      have hrest : ∀ u v, p = u ++ v → v ≠ [] → ¬ c <+: v ++ t := fun u v hp hv =>
        h (a :: u) v (by rw [hp, List.cons_append]) hv
      have hfirst : ¬ c <+: a :: (p ++ t) := h [] (a :: p) rfl (List.cons_ne_nil _ _)
      rw [List.cons_append, cutAt_cons hfirst, cutAt_piece hrest, List.modifyHead_modifyHead]
      rfl

/-- **Filling the holes of a cut text gives the text.** -/
theorem intercalate_cutAt {c : List α} (hc : c ≠ []) (s : List α) :
    c.intercalate (cutAt c 0 s) = s := by
  induction hn : s.length using Nat.strong_induction_on generalizing s with
  | _ n ih =>
      subst hn
      cases s with
      | nil => rfl
      | cons a s =>
          by_cases h : c <+: a :: s
          · obtain ⟨t, ht⟩ := h
            rw [← ht, cutAt_append hc, List.intercalate_cons_of_ne_nil cutAt_ne_nil,
              List.nil_append, ih t.length _ t rfl]
            rw [← ht, List.length_append]
            have := List.length_pos_iff.mpr hc
            omega
          · have hs := ih s.length (Nat.lt_succ_self _) s rfl
            rw [cutAt_cons h]
            obtain ⟨p, ps, hps⟩ := List.exists_cons_of_ne_nil (@cutAt_ne_nil _ _ c 0 s)
            rw [hps] at hs ⊢
            rw [List.modifyHead_cons, List.intercalate_cons_cons_left, hs]

/-! ### Holes -/

/-- What stands before a hole. -/
def BeforeHole (own : List (List α)) (c u : List α) : Prop :=
  ∃ front back, own = front ++ back ∧ front ≠ [] ∧ back ≠ [] ∧ u = c.intercalate front

/-- The filler is somewhere in the text only where there is a hole. -/
structure Alone (own : List (List α)) (c : List α) : Prop where
  nonempty : c ≠ []
  holes : ∀ u v, c.intercalate own = u ++ (c ++ v) → BeforeHole own c u

omit [DecidableEq α] in
theorem BeforeHole.length_le {p c u : List α} {own : List (List α)}
    (h : BeforeHole (p :: own) c u) : p.length ≤ u.length := by
  obtain ⟨front, back, hown, hne, -, rfl⟩ := h
  obtain ⟨q, front, rfl⟩ := List.exists_cons_of_ne_nil hne
  obtain ⟨rfl, -⟩ := List.cons.inj hown
  cases front with
  | nil => rw [List.intercalate_singleton]
  | cons q front =>
      rw [List.intercalate_cons_cons, List.append_assoc, List.length_append]
      exact Nat.le_add_right _ _

omit [DecidableEq α] in
theorem Alone.tail {p q c : List α} {own : List (List α)} (h : Alone (p :: q :: own) c) :
    Alone (q :: own) c := by
  refine ⟨h.nonempty, fun u v hv => ?_⟩
  have hlong : c.intercalate (p :: q :: own) = (p ++ (c ++ u)) ++ (c ++ v) := by
    rw [List.intercalate_cons_cons, hv]
    simp only [List.append_assoc]
  obtain ⟨front, back, hown, hne, hback, hu⟩ := h.holes _ _ hlong
  obtain ⟨r, front, rfl⟩ := List.exists_cons_of_ne_nil hne
  obtain ⟨rfl, htail⟩ := List.cons.inj hown
  cases front with
  | nil =>
      rw [List.intercalate_singleton] at hu
      have hlength := congrArg List.length hu
      rw [List.length_append, List.length_append] at hlength
      have := List.length_pos_iff.mpr h.nonempty
      omega
  | cons s front =>
      refine ⟨s :: front, back, htail, List.cons_ne_nil _ _, hback, ?_⟩
      rw [List.intercalate_cons_cons, List.append_assoc] at hu
      exact List.append_cancel_left (List.append_cancel_left hu)

/-- **Where the filler stands in the holes only, cutting finds the pieces.** -/
theorem cutAt_intercalate_of_alone {c : List α} : ∀ {own : List (List α)}, own ≠ [] →
    Alone own c → cutAt c 0 (c.intercalate own) = own
  | [], hne, _ => absurd rfl hne
  | [p], _, h => by
      have hno : ∀ u v, p = u ++ v → v ≠ [] → ¬ c <+: v ++ [] := by
        rintro u v rfl - ⟨w, hw⟩
        rw [List.append_nil] at hw
        obtain ⟨front, back, hown, hfront, hback, -⟩ := h.holes u w (by
          rw [List.intercalate_singleton, hw])
        have hlength := congrArg List.length hown
        rw [List.length_append, List.length_singleton] at hlength
        have := List.length_pos_iff.mpr hfront
        have := List.length_pos_iff.mpr hback
        omega
      have hpiece := cutAt_piece hno
      rw [List.append_nil] at hpiece
      rw [List.intercalate_singleton, hpiece, cutAt, List.modifyHead_cons, List.append_nil]
  | p :: q :: own, _, h => by
      have hno : ∀ u v, p = u ++ v → v ≠ [] →
          ¬ c <+: v ++ (c ++ c.intercalate (q :: own)) := by
        rintro u v hp hv ⟨w, hw⟩
        have hhole := h.holes u w (by
          rw [List.intercalate_cons_cons, hp, List.append_assoc, List.append_assoc, hw])
        have hle := hhole.length_le
        rw [hp, List.length_append] at hle
        have := List.length_pos_iff.mpr hv
        omega
      rw [List.intercalate_cons_cons, List.append_assoc, cutAt_piece hno, cutAt_append h.nonempty,
        List.modifyHead_cons, List.append_nil,
        cutAt_intercalate_of_alone (List.cons_ne_nil _ _) h.tail]

/-! ### Marked fillers -/

/-- A filler that starts with a letter of its own and is longer than every piece is found where it
was put. -/
theorem cutAt_of_marked {x : α} {c : List α} (hx : x ∉ c) : ∀ {own : List (List α)}, own ≠ [] →
    (∀ p ∈ own, p.length ≤ c.length) → cutAt (x :: c) 0 ((x :: c).intercalate own) = own
  | [], hne, _ => absurd rfl hne
  | [p], _, hshort => by
      have hno : ∀ u v, p = u ++ v → v ≠ [] → ¬ x :: c <+: v ++ [] := by
        rintro u v rfl - hpre
        have hle := hpre.length_le
        rw [List.append_nil, List.length_cons] at hle
        have := hshort _ List.mem_cons_self
        rw [List.length_append] at this
        omega
      have hpiece := cutAt_piece hno
      rw [List.append_nil] at hpiece
      rw [List.intercalate_singleton, hpiece, cutAt, List.modifyHead_cons, List.append_nil]
  | p :: q :: own, _, hshort => by
      have hno : ∀ u v, p = u ++ v → v ≠ [] →
          ¬ x :: c <+: v ++ (x :: c ++ (x :: c).intercalate (q :: own)) := by
        rintro u v rfl hv ⟨w, hw⟩
        -- the filler's first letter would be one of its others
        have hle : (u ++ v).length ≤ c.length := hshort _ List.mem_cons_self
        rw [List.length_append] at hle
        obtain ⟨y, v, rfl⟩ := List.exists_cons_of_ne_nil hv
        rw [List.length_cons] at hle
        rw [List.cons_append, List.cons_append, List.cons.injEq, List.cons_append] at hw
        have hat : (c ++ w)[v.length]? = some x := by
          rw [hw.2, List.getElem?_append_right (Nat.le_refl _), Nat.sub_self]
          rfl
        rw [List.getElem?_append_left (by omega)] at hat
        exact hx (List.mem_of_getElem? hat)
      rw [List.intercalate_cons_cons, List.append_assoc, cutAt_piece hno,
        cutAt_append (List.cons_ne_nil _ _), List.modifyHead_cons, List.append_nil,
        cutAt_of_marked hx (List.cons_ne_nil _ _) fun p hp => hshort p (List.mem_cons_of_mem _ hp)]

end Brust.Holes
