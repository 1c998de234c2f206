import Mathlib.Data.List.Nodup
import Mathlib.Data.List.Infix

/-!
# Support — Siblings

The children of one parent as a list without repetitions, and the operations that move one of them:
in front of a sibling, behind one, or first.  `sublist_place`: an element placed behind the last of
some that stand in order, and before others that do, keeps all of them in order.
-/

namespace Brust.Siblings

open scoped List

variable {α : Type*} [DecidableEq α]

/-- `x` in front of `ref`, or last where there is none. -/
def insertBefore (x : α) : Option α → List α → List α
  | none, l => l ++ [x]
  | some r, l => l.takeWhile (· ≠ r) ++ x :: l.dropWhile (· ≠ r)

def insertAfter (x p : α) : List α → List α
  | [] => []
  | a :: l => if a = p then a :: x :: l else a :: insertAfter x p l

def nextSibling (p : α) : List α → Option α
  | [] => none
  | a :: l => if a = p then l.head? else nextSibling p l

/-- The child behind `prev`, or the first one. -/
def following (prev : Option α) (l : List α) : Option α :=
  match prev with
  | some p => nextSibling p l
  | none => l.head?

/-- `x` taken from where it stands and put behind `prev`, or first. -/
def moveAfter (prev : Option α) (x : α) (l : List α) : List α :=
  match prev with
  | some p => insertAfter x p (l.erase x)
  | none => x :: l.erase x

/-- `x` behind `prev`: moved there where it is not already. -/
def place (prev : Option α) (x : α) (l : List α) : List α :=
  if following prev l = some x then l else moveAfter prev x l

variable {l : List α} {x y p : α} {prev : Option α}

/-! ### Where an element stands -/

theorem insertAfter_append {before after : List α} (h : p ∉ before) :
    insertAfter x p (before ++ p :: after) = before ++ p :: x :: after := by
  induction before with
  | nil => exact if_pos rfl
  | cons a before ih =>
      rw [List.mem_cons, not_or] at h
      rw [List.cons_append, insertAfter, if_neg (Ne.symm h.1), ih h.2]
      rfl

theorem nextSibling_append {before after : List α} (h : p ∉ before) :
    nextSibling p (before ++ p :: after) = after.head? := by
  induction before with
  | nil => exact if_pos rfl
  | cons a before ih =>
      rw [List.mem_cons, not_or] at h
      rw [List.cons_append, nextSibling, if_neg (Ne.symm h.1), ih h.2]

theorem split_at (h : p ∈ l) : ∃ before after, l = before ++ p :: after ∧
    nextSibling p l = after.head? ∧ ∀ x, insertAfter x p l = before ++ p :: x :: after := by
  obtain ⟨before, after, rfl, hp⟩ := List.eq_append_cons_of_mem h
  exact ⟨before, after, rfl, nextSibling_append hp, fun x => insertAfter_append hp⟩

/-- What a list without repetitions has on either side of `p`, of two sublists that `p` joins. -/
theorem sublist_split {before after P Q : List α} (hl : (before ++ p :: after).Nodup)
    (h : P ++ p :: Q <+ before ++ p :: after) : P <+ before ∧ Q <+ after := by
  obtain ⟨r, s, hrs, hP, hQ⟩ := List.append_sublist_iff.mp h
  obtain ⟨t, u, hs, hpt, hQu⟩ := List.cons_sublist_iff.mp hQ
  obtain ⟨v, w, rfl⟩ := List.append_of_mem hpt
  -- the two places of `p` are one
  have heq : before ++ p :: after = (r ++ v) ++ p :: (w ++ u) := by
    rw [hrs, hs]
    simp
  have hnot : p ∉ before := fun hb =>
    (List.nodup_append.mp hl).2.2 p hb p List.mem_cons_self rfl
  have hnot' : p ∉ r ++ v := fun hb => by
    rw [heq] at hl
    exact (List.nodup_append.mp hl).2.2 p hb p List.mem_cons_self rfl
  obtain ⟨rfl, htail⟩ := List.append_inj heq (by
    have := congrArg (List.idxOf p) heq
    rwa [List.idxOf_append_of_notMem hnot, List.idxOf_append_of_notMem hnot',
      List.idxOf_cons_self, List.idxOf_cons_self] at this)
  obtain rfl := (List.cons.inj htail).2
  exact ⟨hP.trans (List.sublist_append_left r v), hQu.trans (List.sublist_append_right w u)⟩

/-! ### Moving one element -/

theorem moveAfter_none : moveAfter none x l = x :: l.erase x := rfl

theorem moveAfter_spec (hp : p ∈ l) (hne : p ≠ x) : ∃ before after,
    l.erase x = before ++ p :: after ∧ moveAfter (some p) x l = before ++ p :: x :: after := by
  obtain ⟨before, after, hl, -, hinsert⟩ := split_at ((List.mem_erase_of_ne hne).mpr hp)
  exact ⟨before, after, hl, hinsert x⟩

/-- Where `prev` stands among the children, or the front is meant. -/
def Stands (prev : Option α) (x : α) (l : List α) : Prop := ∀ p ∈ prev, p ∈ l ∧ p ≠ x

theorem perm_moveAfter (h : Stands prev x l) : (moveAfter prev x l).Perm (x :: l.erase x) := by
  cases prev with
  | none => exact .refl _
  | some p =>
      obtain ⟨hp, hne⟩ := h p rfl
      obtain ⟨before, after, hl, hmove⟩ := moveAfter_spec hp hne
      rw [hmove, hl]
      exact ((List.Perm.swap x p after).append_left before).trans List.perm_middle

theorem following_mem (h : following prev l = some x) : x ∈ l := by
  cases prev with
  | none => exact List.mem_of_mem_head? h
  | some p =>
      by_cases hp : p ∈ l
      · obtain ⟨before, after, hl, hnext, -⟩ := split_at hp
        rw [following, hnext] at h
        rw [hl]
        exact List.mem_append_right _ (List.mem_cons_of_mem _ (List.mem_of_mem_head? h))
      · exfalso
        induction l with
        | nil => cases h
        | cons a l ih =>
            rw [List.mem_cons, not_or] at hp
            rw [following, nextSibling, if_neg (Ne.symm hp.1)] at h
            exact ih h hp.2

theorem perm_place (h : Stands prev x l) : (place prev x l).Perm (x :: l.erase x) := by
  rw [place]
  split
  · next hf => exact List.perm_cons_erase (following_mem hf)
  · exact perm_moveAfter h

theorem mem_place (h : Stands prev x l) : y ∈ place prev x l ↔ y = x ∨ y ∈ l := by
  rw [(perm_place h).mem_iff, List.mem_cons]
  by_cases hy : y = x
  · simp [hy]
  · rw [List.mem_erase_of_ne hy]

theorem nodup_place (h : Stands prev x l) (hl : l.Nodup) : (place prev x l).Nodup := by
  rw [(perm_place h).nodup_iff, List.nodup_cons]
  exact ⟨hl.not_mem_erase, hl.erase x⟩

/-- The elements beside the placed one stand as they stood. -/
theorem filter_place (h : Stands prev x l) {q : α → Bool} (hq : q x = false) :
    (place prev x l).filter q = l.filter q := by
  have herase : (l.erase x).filter q = l.filter q := by
    by_cases hx : x ∈ l
    · obtain ⟨r, s, -, hrs, he⟩ := List.exists_erase_eq hx
      rw [he, hrs]
      simp [hq]
    · rw [List.erase_of_not_mem hx]
  rw [place]
  split
  · rfl
  cases prev with
  | none => rw [moveAfter_none, List.filter_cons_of_neg (by simp [hq]), herase]
  | some p =>
      obtain ⟨hp, hne⟩ := h p rfl
      obtain ⟨before, after, hl, hmove⟩ := moveAfter_spec hp hne
      rw [hmove, ← herase, hl]
      simp [List.filter_append, List.filter_cons, hq]

/-- **Placement.** What stands in order stays so, with the placed element behind its first part. -/
theorem sublist_place {P Q : List α} (hl : l.Nodup) (h : P ++ Q <+ l) (hP : x ∉ P) (hQ : x ∉ Q) :
    P ++ x :: Q <+ place P.getLast? x l := by
  have herase : P ++ Q <+ l.erase x := by
    have := h.erase x
    rwa [List.erase_of_not_mem (by simp [hP, hQ])] at this
  rw [place]
  rcases List.eq_nil_or_concat P with rfl | ⟨P, p, rfl⟩
  · split
    · next hf =>
      -- the first child is the element itself
      rw [List.getLast?_nil, following] at hf
      obtain ⟨l, rfl⟩ := List.head?_eq_some_iff.mp hf
      rw [List.erase_cons_head] at herase
      exact herase.cons_cons x
    · exact herase.cons_cons x
  · rw [List.concat_eq_append] at hP h herase ⊢
    rw [List.getLast?_concat]
    rw [List.append_assoc, List.singleton_append] at h herase ⊢
    have hpx : p ≠ x := fun he => hP (by simp [he])
    have hp : p ∈ l := h.subset (by simp)
    split
    · next hf =>
      obtain ⟨before, after, rfl, hnext, -⟩ := split_at hp
      rw [following, hnext] at hf
      obtain ⟨after, rfl⟩ := List.head?_eq_some_iff.mp hf
      obtain ⟨hleft, hright⟩ := sublist_split hl h
      have hQ' : Q <+ after := by
        have := hright.erase x
        rwa [List.erase_of_not_mem hQ, List.erase_cons_head] at this
      exact hleft.append ((hQ'.cons_cons x).cons_cons p)
    · obtain ⟨before, after, he, hmove⟩ := moveAfter_spec hp hpx
      rw [hmove]
      rw [he] at herase
      obtain ⟨hleft, hright⟩ := sublist_split (he ▸ hl.erase x) herase
      exact hleft.append ((hright.cons_cons x).cons_cons p)

/-- A block of siblings that ends with `p` goes on with the element placed behind `p`. -/
theorem place_block {before block after : List α} (hl : (before ++ block ++ after).Nodup)
    (hp : block.getLast? = some p) (hx : x ∉ block) : ∃ before' after',
      place (some p) x (before ++ block ++ after) = before' ++ (block ++ [x]) ++ after' := by
  obtain ⟨init, rfl⟩ := List.getLast?_eq_some_iff.mp hp
  have hform : ∀ b a : List α, b ++ (init ++ [p]) ++ a = (b ++ init) ++ p :: a := fun b a => by
    simp
  have hnot : ∀ b a : List α, (b ++ (init ++ [p]) ++ a).Nodup → p ∉ b ++ init := by
    intro b a h hmem
    rw [hform] at h
    exact (List.nodup_append.mp h).2.2 p hmem p List.mem_cons_self rfl
  rw [place]
  split
  · next hf =>
    rw [hform, following, nextSibling_append (hnot _ _ hl)] at hf
    obtain ⟨after, rfl⟩ := List.head?_eq_some_iff.mp hf
    exact ⟨before, after, by simp⟩
  · -- the element goes from either side of the block
    obtain ⟨b, a, he⟩ : ∃ b a, (before ++ (init ++ [p]) ++ after).erase x =
        b ++ (init ++ [p]) ++ a := by
      by_cases hb : x ∈ before
      · refine ⟨before.erase x, after, ?_⟩
        rw [List.append_assoc before, List.erase_append_left _ hb, ← List.append_assoc]
      · refine ⟨before, after.erase x, ?_⟩
        rw [List.erase_append_right]
        simp only [List.mem_append, not_or] at hx ⊢
        exact ⟨hb, hx⟩
    refine ⟨b, a, ?_⟩
    rw [moveAfter, he, hform, insertAfter_append (hnot b a (he ▸ hl.erase x))]
    simp

/-! ### Inserting in front of a sibling -/

theorem insertBefore_split (ref : Option α) : ∃ before after, l = before ++ after ∧
    insertBefore x ref l = before ++ x :: after ∧ ∀ r ∈ ref, r ∈ l → after.head? = some r := by
  cases ref with
  | none => exact ⟨l, [], (List.append_nil l).symm, rfl, fun _ h => by cases h⟩
  | some r =>
      refine ⟨_, _, List.takeWhile_append_dropWhile.symm, rfl, ?_⟩
      intro r' hr' hr
      obtain rfl := Option.mem_some_iff.mp hr'
      induction l with
      | nil => cases hr
      | cons a l ih =>
          by_cases ha : a = r
          · simp [ha]
          · rw [List.dropWhile_cons_of_pos (by simpa using ha)]
            exact ih ((List.mem_cons.mp hr).resolve_left (Ne.symm ha))

/-- An element new to the list, put in front of the first of `Q`, stands between `P` and `Q`. -/
theorem sublist_insertBefore {P Q : List α} (hl : l.Nodup) (h : P ++ Q <+ l) :
    P ++ x :: Q <+ insertBefore x Q.head? l := by
  cases Q with
  | nil =>
      rw [List.append_nil] at h
      exact h.append (.refl [x])
  | cons q Q =>
      obtain ⟨before, after, rfl, hinsert, hhead⟩ :=
        insertBefore_split (l := l) (x := x) (some q)
      obtain ⟨after, rfl⟩ := List.head?_eq_some_iff.mp (hhead q rfl (h.subset (by simp)))
      obtain ⟨hleft, hright⟩ := sublist_split hl h
      rw [List.head?_cons, hinsert]
      exact hleft.append ((hright.cons_cons q).cons_cons x)

theorem perm_insertBefore {ref : Option α} : (insertBefore x ref l).Perm (x :: l) := by
  obtain ⟨before, after, rfl, hinsert, -⟩ := insertBefore_split (l := l) (x := x) ref
  rw [hinsert]
  exact List.perm_middle

theorem filter_insertBefore {ref : Option α} {q : α → Bool} (hq : q x = false) :
    (insertBefore x ref l).filter q = l.filter q := by
  obtain ⟨before, after, rfl, hinsert, -⟩ := insertBefore_split (l := l) (x := x) ref
  rw [hinsert, List.filter_append, List.filter_cons_of_neg (by simp [hq]), List.filter_append]

/-- A list without repetitions has any sublist of its as its elements of that list. -/
theorem filter_mem_of_sublist {w : List α} (hl : l.Nodup) (h : w <+ l) :
    l.filter (· ∈ w) = w := by
  induction h with
  | slnil => rfl
  | cons a h ih =>
      rw [List.nodup_cons] at hl
      rw [List.filter_cons_of_neg (by simpa using fun ha => hl.1 (h.subset ha)), ih hl.2]
  | cons_cons a h ih =>
      rw [List.nodup_cons] at hl
      rw [List.filter_cons_of_pos (by simp)]
      refine congrArg (a :: ·) (Eq.trans (List.filter_congr fun b hb => ?_) (ih hl.2))
      have hne : b ≠ a := fun he => hl.1 (he ▸ hb)
      simp [hne]

end Brust.Siblings
