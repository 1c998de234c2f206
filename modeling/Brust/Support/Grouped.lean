import Mathlib.Data.List.Basic
import Mathlib.Data.List.Induction
import Mathlib.Data.List.Chain

/-!
# Support — values by key, the keys in the order they came

`place` adds a value after the last of its key, or at the end; `group` does so with each pair of a
list.  What comes of it has the values of each key together (`grouped_group`), and so has every part
of it; such a list is its own group (`Grouped.group_eq`).  Leaving out keys can be done before or
after (`filter_place`).
-/

namespace Brust.Grouping

variable {κ β : Type} [DecidableEq κ]

def place (k : κ) (v : β) : List (κ × β) → List (κ × β)
  | [] => [(k, v)]
  | e :: l => if e.1 = k ∧ k ∉ l.map (·.1) then e :: (k, v) :: l else e :: place k v l

def group (l : List (κ × β)) : List (κ × β) := l.foldl (fun acc e => place e.1 e.2 acc) []

/-- Between two pairs of one key there is none of another. -/
def Grouped (l : List (κ × β)) : Prop :=
  ∀ a b c : κ, [a, b, c].Sublist (l.map (·.1)) → a = c → a = b

variable {k : κ} {v : β} {l : List (κ × β)}

theorem place_perm (k : κ) (v : β) (l : List (κ × β)) : (place k v l).Perm ((k, v) :: l) := by
  induction l with
  | nil => exact .refl _
  | cons e l ih =>
      rw [place]
      split
      · exact .swap ..
      · exact (ih.cons e).trans (.swap ..)

theorem length_place (k : κ) (v : β) (l : List (κ × β)) : (place k v l).length = l.length + 1 :=
  (place_perm k v l).length_eq

theorem mem_place {e : κ × β} : e ∈ place k v l ↔ e = (k, v) ∨ e ∈ l := by
  rw [(place_perm k v l).mem_iff, List.mem_cons]

theorem mem_group {e : κ × β} : e ∈ group l ↔ e ∈ l := by
  have hfold : ∀ acc : List (κ × β),
      e ∈ l.foldl (fun acc e => place e.1 e.2 acc) acc ↔ e ∈ acc ∨ e ∈ l := by
    induction l with
    | nil => simp
    | cons x l ih =>
        intro acc
        rw [List.foldl_cons, ih, mem_place, List.mem_cons]
        exact ⟨fun h => h.elim (fun h => h.elim (fun h => .inr (.inl h)) .inl) (.inr ∘ .inr),
          fun h => h.elim (fun h => .inl (.inr h)) fun h => h.elim (.inl ∘ .inl) .inr⟩
  exact (hfold []).trans (by simp)

omit [DecidableEq κ] in
theorem Grouped.of_sublist {l' : List (κ × β)} (h : Grouped l) (hs : l'.Sublist l) : Grouped l' :=
  fun a b c habc => h a b c (habc.trans (hs.map _))

theorem place_of_notMem (hk : k ∉ l.map (·.1)) : place k v l = l ++ [(k, v)] := by
  induction l with
  | nil => rfl
  | cons e l ih =>
      rw [List.map_cons, List.mem_cons, not_or] at hk
      rw [place, if_neg fun h => hk.1 h.1.symm, ih hk.2, List.cons_append]

/-- A pair that leaves the list grouped is placed at its end. -/
theorem place_of_grouped (h : Grouped (l ++ [(k, v)])) : place k v l = l ++ [(k, v)] := by
  by_cases hk : k ∈ l.map (·.1)
  · induction l with
    | nil => cases hk
    | cons e l ih =>
        rw [place]
        split
        case isTrue he =>
          -- the pair is the last of its key, so nothing is after it
          cases l with
          | nil => rfl
          | cons b l =>
              have hsub : [e.1, b.1, k].Sublist ((e :: b :: l ++ [(k, v)]).map (·.1)) := by
                simp only [List.map_append, List.map_cons, List.cons_append]
                refine (List.Sublist.cons_cons _ (List.Sublist.cons_cons _ ?_))
                exact (List.nil_sublist _).append (List.Sublist.refl _)
              have hb := h _ _ _ hsub he.1
              exact absurd (List.mem_cons.mpr (.inl (he.1.symm.trans hb))) he.2
        case isFalse hne =>
          have hrest : Grouped (l ++ [(k, v)]) := h.of_sublist (List.sublist_cons_self ..)
          by_cases hkl : k ∈ l.map (·.1)
          · rw [ih hrest hkl, List.cons_append]
          · rw [place_of_notMem hkl, List.cons_append]
  · exact place_of_notMem hk

/-- **A grouped list is its own group.** -/
theorem Grouped.group_eq (h : Grouped l) : group l = l := by
  induction l using List.reverseRecOn with
  | nil => rfl
  | append_singleton l e ih =>
      have hl : group l = l := ih (h.of_sublist (List.sublist_append_left ..))
      rw [group, List.foldl_append, List.foldl_cons, List.foldl_nil]
      change place e.1 e.2 (group l) = _
      rw [hl]
      exact place_of_grouped h

/-- Where the key is there already, a new pair of it makes no new change from key to key. -/
theorem sublist_of_place (hk : k ∈ l.map (·.1)) {s : List κ} (hs : s.IsChain (· ≠ ·))
    (h : s.Sublist ((place k v l).map (·.1))) : s.Sublist (l.map (·.1)) := by
  induction l generalizing s with
  | nil => cases hk
  | cons e l ih =>
      rw [place] at h
      split at h
      case isTrue he =>
        rw [List.map_cons, List.map_cons, he.1] at h
        rw [List.map_cons, he.1]
        cases h with
        | cons _ h => exact h
        | cons_cons _ h =>
            cases h with
            | cons _ h => exact h.cons_cons k
            | cons_cons _ h => exact absurd rfl (List.isChain_cons_cons.mp hs).1
      case isFalse hne =>
        have hkl : k ∈ l.map (·.1) := by
          by_contra hkl
          rcases List.mem_cons.mp hk with he | hk
          · exact hne ⟨he.symm, hkl⟩
          · exact hkl hk
        rw [List.map_cons] at h ⊢
        cases h with
        | cons _ h => exact (ih hkl hs h).cons _
        | cons_cons _ h => exact (ih hkl hs.tail h).cons_cons _

theorem grouped_place (h : Grouped l) : Grouped (place k v l) := by
  intro a b c habc hac
  by_contra hab
  by_cases hk : k ∈ l.map (·.1)
  · have hchain : [a, b, c].IsChain (· ≠ ·) := by
      subst hac
      simp [hab, Ne.symm hab]
    exact hab (h a b c (sublist_of_place hk hchain habc) hac)
  · rw [place_of_notMem hk, List.map_append] at habc
    obtain ⟨s, t, hst, hs, ht⟩ := List.sublist_append_iff.mp habc
    rcases List.sublist_singleton.mp ht with rfl | rfl
    · rw [List.append_nil] at hst
      exact hab (h a b c (hst ▸ hs) hac)
    · -- the new key is the last of the three, and the first is there already
      have hlast : [a, b] = s ∧ c = k := by
        have := List.append_inj' (show [a, b] ++ [c] = s ++ [k] from hst) rfl
        exact ⟨this.1, (List.cons.inj this.2).1⟩
      obtain ⟨rfl, rfl⟩ := hlast
      exact hk (hac ▸ hs.subset List.mem_cons_self)

theorem grouped_group (l : List (κ × β)) : Grouped (group l) := by
  have hfold : ∀ acc : List (κ × β), Grouped acc →
      Grouped (l.foldl (fun acc e => place e.1 e.2 acc) acc) := by
    induction l with
    | nil => exact fun _ h => h
    | cons x l ih => exact fun acc h => ih _ (grouped_place h)
  exact hfold [] fun _ _ _ h => by cases h

/-- Leaving out keys commutes with a pair of a key that stays. -/
theorem filter_place {p : κ → Bool} (hk : p k = true) :
    (place k v l).filter (fun e => p e.1) = place k v (l.filter fun e => p e.1) := by
  induction l with
  | nil => simp [place, hk]
  | cons e l ih =>
      have hkeys : k ∈ (l.filter fun e => p e.1).map (·.1) ↔ k ∈ l.map (·.1) := by
        simp only [List.mem_map, List.mem_filter]
        refine exists_congr fun e => ?_
        constructor
        · exact fun h => ⟨h.1.1, h.2⟩
        · exact fun h => ⟨⟨h.1, h.2.symm ▸ hk⟩, h.2⟩
      rw [place]
      split
      case isTrue he =>
        have hpe : p e.1 = true := he.1.symm ▸ hk
        rw [List.filter_cons, if_pos hpe, List.filter_cons, if_pos hk, List.filter_cons, if_pos hpe,
          place, if_pos ⟨he.1, fun h => he.2 (hkeys.mp h)⟩]
      case isFalse hne =>
        by_cases hpe : p e.1 = true
        · rw [List.filter_cons, if_pos hpe, List.filter_cons, if_pos hpe, ih, place,
            if_neg fun h => hne ⟨h.1, fun hk => h.2 (hkeys.mpr hk)⟩]
        · rw [List.filter_cons, if_neg hpe, List.filter_cons, if_neg hpe, ih]

theorem filter_place_of_out {p : κ → Bool} (hk : p k = false) :
    (place k v l).filter (fun e => p e.1) = l.filter fun e => p e.1 := by
  induction l with
  | nil => simp [place, hk]
  | cons e l ih =>
      rw [place]
      split
      · simp [List.filter_cons, hk]
      · rw [List.filter_cons, List.filter_cons, ih]

/-- **Leaving out keys commutes with grouping.** -/
theorem filter_group (p : κ → Bool) (l : List (κ × β)) :
    (group l).filter (fun e => p e.1) = group (l.filter fun e => p e.1) := by
  have hfold : ∀ acc : List (κ × β),
      (l.foldl (fun acc e => place e.1 e.2 acc) acc).filter (fun e => p e.1) =
        (l.filter fun e => p e.1).foldl (fun acc e => place e.1 e.2 acc)
          (acc.filter fun e => p e.1) := by
    induction l with
    | nil => exact fun _ => rfl
    | cons e l ih =>
        intro acc
        rw [List.foldl_cons, ih, List.filter_cons]
        by_cases he : p e.1 = true
        · rw [if_pos he, List.foldl_cons, filter_place he]
        · rw [if_neg he, filter_place_of_out (Bool.eq_false_iff.mpr he)]
  exact hfold []

omit [DecidableEq κ] in
theorem grouped_of_one (h : ∀ e ∈ l, e.1 = k) : Grouped l := by
  intro a b c habc _
  have hone : ∀ x ∈ l.map (·.1), x = k := fun x hx => by
    obtain ⟨e, he, rfl⟩ := List.mem_map.mp hx
    exact h e he
  rw [hone a (habc.subset List.mem_cons_self), hone b (habc.subset (.tail _ List.mem_cons_self))]

end Brust.Grouping
