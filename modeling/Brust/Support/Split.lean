import Mathlib.Data.String.Basic

/-!
# Support — splitting and joining texts

`String.splitOn` by one character is `List.splitOn` on the characters (`splitOn_singleton`).  So its
pieces do not have the character, and joining such pieces by it forgets nothing
(`intercalate_inj`).
-/

namespace Brust

/-- What is decided along a list that is written out. -/
theorem forall_mem_of_all {α : Type} {p : α → Prop} [DecidablePred p] {l : List α}
    (h : (l.all fun a => decide (p a)) = true) : ∀ a ∈ l, p a := fun a ha =>
  of_decide_eq_true (List.all_eq_true.mp h a ha)

open String

theorem splitOnAux_char (c : Char) (l m r : List Char) (acc : List String) :
    String.splitOnAux (ofList (l ++ m ++ r)) (singleton c) ⟨utf8Len l⟩
      ⟨utf8Len l + utf8Len m⟩ 0 acc =
      acc.reverse ++ (List.splitOnPPrepend (· == c) r m.reverse).map ofList := by
  induction r generalizing l m acc with
  | nil =>
      have hend : (⟨utf8Len l + utf8Len m⟩ : Pos.Raw).atEnd (ofList (l ++ m ++ [])) = true := by
        simp [-ofList_append]
      rw [String.splitOnAux, if_pos hend, extract_of_valid l m []]
      simp
  | cons d r ih =>
      have hend : ¬ (⟨utf8Len l + utf8Len m⟩ : Pos.Raw).atEnd
        (ofList (l ++ m ++ d :: r)) = true := by
        have := (atEnd_of_valid (l ++ m) (d :: r)).not.mpr (List.cons_ne_nil _ _)
        simpa [-ofList_append] using this
      have hget : (⟨utf8Len l + utf8Len m⟩ : Pos.Raw).get (ofList (l ++ m ++ d :: r)) = d := by
        simpa [-ofList_append] using get_of_valid (l ++ m) (d :: r)
      have hnext : (⟨utf8Len l + utf8Len m⟩ : Pos.Raw).next (ofList (l ++ m ++ d :: r)) =
          ⟨utf8Len l + utf8Len m + d.utf8Size⟩ := by
        simpa [-ofList_append] using next_of_valid (l ++ m) d r
      have hsep : (0 : Pos.Raw).get (singleton c) = c := by
        have := get_of_valid [] [c]
        simpa using this
      rw [String.splitOnAux, if_neg hend, hget, hsep]
      by_cases hd : d = c
      · subst hd
        have hsepNext : (0 : Pos.Raw).next (singleton d) = ⟨d.utf8Size⟩ := by
          simpa using next_of_valid [] d []
        have hsepEnd : ((0 : Pos.Raw).next (singleton d)).atEnd (singleton d) = true := by
          rw [hsepNext]
          simpa using (atEnd_of_valid [d] []).mpr rfl
        rw [if_pos (beq_self_eq_true d)]
        simp only [hnext, hsepEnd, if_true]
        have hback : (⟨utf8Len l + utf8Len m + d.utf8Size⟩ : Pos.Raw).unoffsetBy
            ((0 : Pos.Raw).next (singleton d)) = ⟨utf8Len l + utf8Len m⟩ := by
          rw [hsepNext, Pos.Raw.ext_iff]
          exact Nat.add_sub_cancel _ _
        rw [hback, extract_of_valid l m (d :: r)]
        have := ih (l ++ m ++ [d]) [] (ofList m :: acc)
        simpa [List.splitOnPPrepend_cons_eq_if, -ofList_append, Nat.add_assoc] using this
      · rw [if_neg (by simpa using hd)]
        have hback : (⟨utf8Len l + utf8Len m⟩ : Pos.Raw).unoffsetBy 0 = ⟨utf8Len l + utf8Len m⟩ :=
          rfl
        rw [hback, hnext]
        have := ih l (m ++ [d]) acc
        simpa [List.splitOnPPrepend_cons_eq_if, hd, -ofList_append, Nat.add_assoc] using this

/-- Splitting by one character splits the characters. -/
theorem splitOn_singleton (s : String) (c : Char) :
    s.splitOn (singleton c) = (s.toList.splitOn c).map ofList := by
  have hsep : (singleton c == "") = false := by simp
  rw [String.splitOn, hsep]
  have := splitOnAux_char c [] [] s.toList []
  simpa [List.splitOn_eq_splitOnP] using this

theorem notMem_of_mem_splitOn {c : Char} {p s : List Char} (h : p ∈ s.splitOn c) : c ∉ p := by
  induction s generalizing p with
  | nil =>
      rw [List.splitOn_nil, List.mem_singleton] at h
      rw [h]
      exact List.not_mem_nil
  | cons d s ih =>
      rw [List.splitOn_cons_eq_if_modifyHead] at h
      split at h
      · rcases List.mem_cons.mp h with rfl | h
        · exact List.not_mem_nil
        · exact ih h
      next hd =>
        have hne := List.splitOn_ne_nil c s
        cases hs : s.splitOn c with
        | nil => exact absurd hs hne
        | cons q qs =>
            rw [hs] at h ih
            rcases List.mem_cons.mp h with rfl | h
            · rw [List.mem_cons, not_or]
              exact ⟨fun e => hd (by simp [e]), ih (List.mem_cons_self ..)⟩
            · exact ih (List.mem_cons_of_mem _ h)

theorem splitOn_cons_self {α : Type} [DecidableEq α] (c : α) (s : List α) :
    (c :: s).splitOn c = [] :: s.splitOn c := by
  rw [List.splitOn_cons_eq_if_modifyHead, if_pos (beq_self_eq_true c)]

/-- A beginning without the separator is the beginning of the first piece. -/
theorem splitOn_append_of_notMem {α : Type} [DecidableEq α] {c : α} {p : List α} (h : c ∉ p)
    (s : List α) : (p ++ s).splitOn c = (s.splitOn c).modifyHead (p ++ ·) := by
  induction p with
  | nil =>
      rw [List.nil_append]
      cases s.splitOn c with
      | nil => rfl
      | cons q qs => rfl
  | cons d p ih =>
      rw [List.mem_cons, not_or] at h
      rw [List.cons_append, List.splitOn_cons_eq_if_modifyHead,
        if_neg (by simpa using fun e => h.1 e.symm), ih h.2, List.modifyHead_modifyHead]
      rfl

/-- An element of a piece is one of the list. -/
theorem mem_of_mem_splitOn {α : Type} [DecidableEq α] {c d : α} {p s : List α}
    (hp : p ∈ s.splitOn c) (hd : d ∈ p) : d ∈ s := by
  induction s generalizing p with
  | nil =>
      rw [List.splitOn_nil, List.mem_singleton] at hp
      exact hp ▸ hd
  | cons e s ih =>
      by_cases he : e = c
      · subst he
        rw [splitOn_cons_self] at hp
        rcases List.mem_cons.mp hp with rfl | hp
        · exact absurd hd List.not_mem_nil
        · exact List.mem_cons_of_mem _ (ih hp hd)
      · have hnot : c ∉ [e] := fun hmem => he (List.mem_singleton.mp hmem).symm
        have hcons := splitOn_append_of_notMem hnot s
        rw [List.singleton_append] at hcons
        rw [hcons] at hp
        cases hs : s.splitOn c with
        | nil => exact absurd hs (List.splitOn_ne_nil _ _)
        | cons q qs =>
            rw [hs, List.modifyHead_cons] at hp
            rw [hs] at ih
            rcases List.mem_cons.mp hp with rfl | hp
            · rcases List.mem_cons.mp hd with rfl | hd
              · exact List.mem_cons_self
              · exact List.mem_cons_of_mem _ (ih List.mem_cons_self hd)
            · exact List.mem_cons_of_mem _ (ih (List.mem_cons_of_mem _ hp) hd)

/-- An element that is not the separator is of a piece. -/
theorem mem_splitOn_of_mem {α : Type} [DecidableEq α] {c d : α} (hd : d ≠ c) {s : List α}
    (h : d ∈ s) : ∃ p ∈ s.splitOn c, d ∈ p := by
  induction s with
  | nil => exact absurd h List.not_mem_nil
  | cons e s ih =>
      by_cases he : e = c
      · subst he
        obtain ⟨p, hp, hdp⟩ := ih ((List.mem_cons.mp h).resolve_left hd)
        rw [splitOn_cons_self]
        exact ⟨p, List.mem_cons_of_mem _ hp, hdp⟩
      · have hnot : c ∉ [e] := fun hmem => he (List.mem_singleton.mp hmem).symm
        have hcons := splitOn_append_of_notMem hnot s
        rw [List.singleton_append] at hcons
        rw [hcons]
        cases hs : s.splitOn c with
        | nil => exact absurd hs (List.splitOn_ne_nil _ _)
        | cons q qs =>
            rw [List.modifyHead_cons]
            rcases List.mem_cons.mp h with rfl | h
            · exact ⟨d :: q, List.mem_cons_self, List.mem_cons_self⟩
            · obtain ⟨p, hp, hdp⟩ := ih h
              rw [hs] at hp
              rcases List.mem_cons.mp hp with rfl | hp
              · exact ⟨e :: p, List.mem_cons_self, List.mem_cons_of_mem _ hdp⟩
              · exact ⟨p, List.mem_cons_of_mem _ hp, hdp⟩

/-- **A join of pieces can be taken apart**: none is empty, and none has the separator. -/
theorem intercalate_inj {c : Char} {l l' : List String} (h : ∀ p ∈ l, p ≠ "" ∧ c ∉ p.toList)
    (h' : ∀ p ∈ l', p ≠ "" ∧ c ∉ p.toList)
    (he : String.intercalate (singleton c) l = String.intercalate (singleton c) l') : l = l' := by
  have hl := toList_split_intercalate (c := c) fun p hp => (h p hp).2
  have hl' := toList_split_intercalate (c := c) fun p hp => (h' p hp).2
  rw [he, hl'] at hl
  have hempty : ∀ l : List String, (∀ p ∈ l, p ≠ "" ∧ c ∉ p.toList) → l ≠ [""] := by
    rintro l h rfl
    exact (h "" (List.mem_singleton_self _)).1 rfl
  by_cases hn : l = [] <;> by_cases hn' : l' = []
  · rw [hn, hn']
  · rw [if_pos hn, if_neg hn'] at hl
    exact absurd hl (hempty l' h')
  · rw [if_neg hn, if_pos hn'] at hl
    exact absurd hl.symm (hempty l h)
  · rw [if_neg hn, if_neg hn'] at hl
    exact hl.symm

end Brust
