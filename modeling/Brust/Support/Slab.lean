import Mathlib.Data.List.Basic
import Mathlib.Data.List.Count
import Mathlib.Data.Nat.Notation

/-!
# Support — Slabs

Slots with a list of the free ones: what is inserted goes to a free slot, the one freed last first,
or to a new one at the end.  The free list is exactly the empty slots and `live` counts the others
(`Slab.Exact`), so an insertion never touches an occupied slot (`get_insert_fresh`,
`get_insert_ne`).
-/

namespace Brust

/-- Slots, the indices of the free ones, and the number of the others. -/
structure Slab (α : Type*) where
  entries : List (Option α)
  free : List ℕ
  live : ℕ

namespace Slab

variable {α : Type*} (s : Slab α)

def empty : Slab α := ⟨[], [], 0⟩

def get (i : ℕ) : Option α := (s.entries[i]?).join

/-- The free list is the empty slots. -/
structure Exact : Prop where
  nodup : s.free.Nodup
  mem_free : ∀ i, i ∈ s.free ↔ s.entries[i]? = some none
  live : s.live = s.entries.countP Option.isSome

def insert (a : α) : Slab α × ℕ :=
  match s.free with
  | i :: free => (⟨s.entries.set i (some a), free, s.live + 1⟩, i)
  | [] => (⟨s.entries ++ [some a], [], s.live + 1⟩, s.entries.length)

def remove (i : ℕ) : Slab α := ⟨s.entries.set i none, i :: s.free, s.live - 1⟩

/-- Every entry changed in place. -/
def map (f : α → α) : Slab α := { s with entries := s.entries.map (Option.map f) }

def modify (i : ℕ) (f : α → α) : Slab α :=
  match s.get i with
  | some a => { s with entries := s.entries.set i (some (f a)) }
  | none => s

theorem exact_empty : (empty : Slab α).Exact :=
  ⟨.nil, fun i => by simp [empty], rfl⟩

variable {s}

theorem entries_of_get {i : ℕ} {a : α} (h : s.get i = some a) : s.entries[i]? = some (some a) := by
  rw [get] at h
  cases he : s.entries[i]? with
  | none => rw [he] at h; cases h
  | some o =>
      rw [he] at h
      exact congrArg some h

/-- Where nothing is live, nothing is found. -/
theorem Exact.get_of_live (h : s.Exact) (hlive : s.live = 0) (i : ℕ) : s.get i = none := by
  cases hi : s.get i with
  | none => rfl
  | some a =>
      have hmem := List.mem_of_getElem? (entries_of_get hi)
      rw [h.live] at hlive
      exact absurd (List.countP_eq_zero.mp hlive _ hmem) (by simp)

/-! ### Insertion -/

theorem get_insert_self (h : s.Exact) (a : α) : (s.insert a).1.get (s.insert a).2 = some a := by
  rw [insert]
  split
  · next i free hfree =>
    have hi := (h.mem_free i).mp (hfree ▸ .head _)
    simp [get, List.getElem?_set_self (List.getElem?_eq_some_iff.mp hi).1]
  · simp [get]

theorem get_insert_fresh (h : s.Exact) (a : α) : s.get (s.insert a).2 = none := by
  rw [insert]
  split
  · next i free hfree => simp [get, (h.mem_free i).mp (hfree ▸ .head _)]
  · simp [get]

theorem get_insert_ne {a : α} {j : ℕ} (hj : j ≠ (s.insert a).2) :
    (s.insert a).1.get j = s.get j := by
  rw [insert] at hj ⊢
  split
  · next i free hfree =>
    simp only [hfree] at hj
    rw [get, get, List.getElem?_set_ne hj.symm]
  · next hfree =>
    simp only [hfree] at hj
    rw [get, get, List.getElem?_append]
    split
    · rfl
    · next hlt =>
      rw [List.getElem?_singleton, if_neg (by omega), List.getElem?_eq_none (by omega)]

theorem Exact.insert (h : s.Exact) (a : α) : (s.insert a).1.Exact := by
  rw [Slab.insert]
  split
  · next i free hfree =>
    have hi := (h.mem_free i).mp (hfree ▸ .head _)
    have hlt := (List.getElem?_eq_some_iff.mp hi).1
    obtain ⟨hnot, hnodup⟩ := List.nodup_cons.mp (hfree ▸ h.nodup)
    refine ⟨hnodup, fun j => ?_, ?_⟩
    · by_cases hj : j = i
      · subst hj
        simp [hnot, List.getElem?_set_self hlt]
      · have hmem := h.mem_free j
        rw [hfree, List.mem_cons, or_iff_right hj] at hmem
        rw [hmem, List.getElem?_set_ne (Ne.symm hj)]
    · have hget : s.entries[i] = none := by
        simpa using (List.getElem?_eq_some_iff.mp hi).2
      rw [List.countP_set hlt, hget, h.live]
      simp
  · next hfree =>
    refine ⟨.nil, fun j => ?_, ?_⟩
    · have hmem := h.mem_free j
      rw [hfree] at hmem
      rw [List.getElem?_append]
      split
      · exact hmem
      · rw [List.getElem?_singleton]
        split <;> simp
    · rw [List.countP_append, h.live]
      rfl

/-! ### Removal -/

theorem get_remove_ne {i j : ℕ} (hj : j ≠ i) : (s.remove i).get j = s.get j := by
  rw [get, get, remove, List.getElem?_set_ne hj.symm]

theorem get_remove_self (i : ℕ) : (s.remove i).get i = none := by
  rw [get, remove, List.getElem?_set_self']
  cases s.entries[i]? <;> rfl

theorem Exact.remove (h : s.Exact) {i : ℕ} {a : α} (hi : s.get i = some a) :
    (s.remove i).Exact := by
  have hentry := entries_of_get hi
  have hlt := (List.getElem?_eq_some_iff.mp hentry).1
  have hnot : i ∉ s.free := fun hmem => by
    rw [(h.mem_free i).mp hmem] at hentry
    cases hentry
  refine ⟨List.nodup_cons.mpr ⟨hnot, h.nodup⟩, fun j => ?_, ?_⟩
  · by_cases hj : j = i
    · subst hj
      simp [Slab.remove, List.getElem?_set_self hlt]
    · rw [Slab.remove, List.mem_cons, or_iff_right hj, h.mem_free j,
        List.getElem?_set_ne (Ne.symm hj)]
  · have hget : s.entries[i] = some a := by
      simpa using (List.getElem?_eq_some_iff.mp hentry).2
    rw [Slab.remove, List.countP_set hlt, hget, h.live]
    simp

/-! ### Changes in place -/

theorem get_map (f : α → α) (i : ℕ) : (s.map f).get i = (s.get i).map f := by
  rw [get, get, map, List.getElem?_map]
  cases s.entries[i]? with
  | none => rfl
  | some o => rfl

theorem Exact.map (h : s.Exact) (f : α → α) : (s.map f).Exact := by
  refine ⟨h.nodup, fun i => ?_, ?_⟩
  · rw [Slab.map, h.mem_free i, List.getElem?_map]
    cases s.entries[i]? with
    | none => simp
    | some o => cases o <;> simp
  · rw [Slab.map, List.countP_map, h.live]
    congr 1
    funext o
    cases o <;> rfl

theorem get_modify_self (i : ℕ) (f : α → α) : (s.modify i f).get i = (s.get i).map f := by
  rw [modify]
  cases hi : s.get i with
  | none => exact hi
  | some a =>
      have hlt := (List.getElem?_eq_some_iff.mp (entries_of_get hi)).1
      simp [get, List.getElem?_set_self hlt]

theorem get_modify_ne {i j : ℕ} (hj : j ≠ i) (f : α → α) : (s.modify i f).get j = s.get j := by
  rw [modify]
  cases s.get i with
  | none => rfl
  | some a =>
      rw [get, get, List.getElem?_set_ne hj.symm]

theorem Exact.modify (h : s.Exact) (i : ℕ) (f : α → α) : (s.modify i f).Exact := by
  rw [Slab.modify]
  cases hi : s.get i with
  | none => exact h
  | some a =>
      have hentry := entries_of_get hi
      have hlt := (List.getElem?_eq_some_iff.mp hentry).1
      refine ⟨h.nodup, fun j => ?_, ?_⟩
      · by_cases hj : j = i
        · subst hj
          rw [h.mem_free j, hentry, List.getElem?_set_self hlt]
          simp
        · rw [h.mem_free j, List.getElem?_set_ne (Ne.symm hj)]
      · have hget : s.entries[i] = some a := by
          simpa using (List.getElem?_eq_some_iff.mp hentry).2
        have hpos : 0 < s.entries.countP Option.isSome :=
          List.countP_pos_iff.mpr ⟨some a, List.mem_of_getElem? hentry, rfl⟩
        rw [List.countP_set hlt, hget, h.live]
        simp only [Option.isSome_some, if_true]
        omega

end Slab

end Brust
