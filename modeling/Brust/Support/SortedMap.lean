import Mathlib.Data.List.Induction
import Mathlib.Data.List.Sort

/-!
# Support — sorted maps

A map as the list of its entries, in the order of their keys: the `BTreeMap`s of the source, with
`List.lookup` for a key's value.  `insert` keeps the order (`Sorted.insert`) and answers as a map
does (`lookup_insert`); a sorted list of keys is known by its members (`Sorted.keys_eq`).  Of keys
as they were written, `List.eraseDups` keeps the first occurrences.
-/

namespace Brust

namespace SortedMap

variable {κ β : Type}

def keys (m : List (κ × β)) : List κ := m.map (·.1)

@[simp] theorem keys_nil : keys ([] : List (κ × β)) = [] := rfl

@[simp] theorem keys_cons (e : κ × β) (m : List (κ × β)) : keys (e :: m) = e.1 :: keys m := rfl

@[simp] theorem length_keys (m : List (κ × β)) : (keys m).length = m.length := List.length_map _

variable [LinearOrder κ]

/-- `BTreeMap::insert`. -/
def insert (k : κ) (v : β) : List (κ × β) → List (κ × β)
  | [] => [(k, v)]
  | e :: m =>
    if k < e.1 then (k, v) :: e :: m
    else if k = e.1 then (k, v) :: m
    else e :: insert k v m

/-- The keys ascend. -/
def Sorted (m : List (κ × β)) : Prop := (keys m).Pairwise (· < ·)

/-! ### Lookup -/

theorem lookup_cons_if (k : κ) (e : κ × β) (m : List (κ × β)) :
    (e :: m).lookup k = if k = e.1 then some e.2 else m.lookup k := by
  by_cases h : k = e.1
  · rw [if_pos h, List.lookup_cons, h, beq_self_eq_true]
  · rw [if_neg h, List.lookup_cons, beq_eq_false_iff_ne.mpr h]

theorem lookup_eq_none_iff {k : κ} {m : List (κ × β)} : m.lookup k = none ↔ k ∉ keys m := by
  induction m with
  | nil => simp
  | cons e m ih =>
      rw [lookup_cons_if, keys_cons, List.mem_cons]
      by_cases h : k = e.1 <;> simp [h, ih]

theorem mem_keys_iff {k : κ} {m : List (κ × β)} : k ∈ keys m ↔ ∃ v, m.lookup k = some v := by
  rw [← Option.ne_none_iff_exists', ne_eq, lookup_eq_none_iff, not_not]

theorem mem_of_lookup {k : κ} {v : β} {m : List (κ × β)} (h : m.lookup k = some v) :
    (k, v) ∈ m := by
  induction m with
  | nil => simp at h
  | cons e m ih =>
      rw [lookup_cons_if] at h
      split at h
      next hk =>
        cases h
        rw [hk]
        exact List.mem_cons_self ..
      next => exact List.mem_cons_of_mem _ (ih h)

/-- Where no key is there twice, an entry is what its key answers. -/
theorem lookup_iff_mem {k : κ} {v : β} {m : List (κ × β)} (h : (keys m).Nodup) :
    m.lookup k = some v ↔ (k, v) ∈ m := by
  refine ⟨mem_of_lookup, fun hmem => ?_⟩
  induction m with
  | nil => simp at hmem
  | cons e m ih =>
      obtain ⟨hnot, hnodup⟩ := List.nodup_cons.mp h
      rw [lookup_cons_if]
      rcases List.mem_cons.mp hmem with rfl | hmem
      · exact if_pos rfl
      · have hk : k ∈ keys m := List.mem_map_of_mem hmem
        have hne : k ≠ e.1 := by
          rintro rfl
          exact hnot hk
        rw [if_neg hne]
        exact ih hnodup hmem

/-! ### Insertion -/

attribute [local simp] insert in
theorem lookup_insert (k k' : κ) (v : β) (m : List (κ × β)) :
    (insert k v m).lookup k' = if k' = k then some v else m.lookup k' := by
  induction m with
  | nil => rw [insert, lookup_cons_if]
  | cons e m ih =>
      rw [insert]
      split
      next => rw [lookup_cons_if]
      next =>
        split
        next h =>
          rw [lookup_cons_if, lookup_cons_if, ← h]
          by_cases hk : k' = k <;> simp [hk]
        next hlt hne =>
          rw [lookup_cons_if, ih, lookup_cons_if]
          by_cases hk : k' = e.1
          · rw [if_pos hk, if_neg fun h => hne (h.symm.trans hk), if_pos hk]
          · rw [if_neg hk, if_neg hk]

theorem insert_of_lt {k a : κ} (h : k < a) (v w : β) (m : List (κ × β)) :
    insert k v ((a, w) :: m) = (k, v) :: (a, w) :: m := by
  rw [insert, if_pos h]

theorem insert_of_eq (k : κ) (v w : β) (m : List (κ × β)) :
    insert k v ((k, w) :: m) = (k, v) :: m := by
  rw [insert, if_neg (lt_irrefl k), if_pos rfl]

theorem insert_of_gt {k a : κ} (h : a < k) (v w : β) (m : List (κ × β)) :
    insert k v ((a, w) :: m) = (a, w) :: insert k v m := by
  rw [insert, if_neg h.asymm, if_neg h.ne']

theorem insert_insert (k : κ) (v w : β) (m : List (κ × β)) :
    insert k v (insert k w m) = insert k v m := by
  induction m with
  | nil => exact insert_of_eq k v w []
  | cons e m ih =>
      obtain ⟨a, x⟩ := e
      rcases lt_trichotomy k a with h | rfl | h
      · rw [insert_of_lt h, insert_of_eq, insert_of_lt h]
      · rw [insert_of_eq, insert_of_eq, insert_of_eq]
      · rw [insert_of_gt h, insert_of_gt h, insert_of_gt h, ih]

theorem insert_comm_of_lt {k k' : κ} (hlt : k < k') (v w : β) (m : List (κ × β)) :
    insert k v (insert k' w m) = insert k' w (insert k v m) := by
  induction m with
  | nil => exact (insert_of_lt hlt v w []).trans (insert_of_gt hlt w v []).symm
  | cons e m ih =>
      obtain ⟨a, x⟩ := e
      rcases lt_trichotomy k a with h | rfl | h
      · rw [insert_of_lt h, insert_of_gt hlt]
        rcases lt_trichotomy k' a with h' | rfl | h'
        · rw [insert_of_lt h', insert_of_lt hlt]
        · rw [insert_of_eq, insert_of_lt hlt]
        · rw [insert_of_gt h', insert_of_lt h]
      · rw [insert_of_eq, insert_of_gt hlt, insert_of_gt hlt, insert_of_eq]
      · have h' := h.trans hlt
        rw [insert_of_gt h', insert_of_gt h, insert_of_gt h, insert_of_gt h', ih]

/-- Insertions at two keys may be swapped. -/
theorem insert_comm {k k' : κ} (hne : k ≠ k') (v w : β) (m : List (κ × β)) :
    insert k v (insert k' w m) = insert k' w (insert k v m) := by
  rcases lt_or_gt_of_ne hne with h | h
  · exact insert_comm_of_lt h v w m
  · exact (insert_comm_of_lt h w v m).symm

theorem mem_keys_insert {k k' : κ} {v : β} {m : List (κ × β)} :
    k' ∈ keys (insert k v m) ↔ k' = k ∨ k' ∈ keys m := by
  rw [mem_keys_iff, mem_keys_iff, lookup_insert]
  by_cases h : k' = k <;> simp [h]

theorem Sorted.insert {k : κ} {v : β} {m : List (κ × β)} (h : Sorted m) :
    Sorted (insert k v m) := by
  induction m with
  | nil => exact List.pairwise_singleton ..
  | cons e m ih =>
      obtain ⟨hhead, htail⟩ := List.pairwise_cons.mp h
      rw [SortedMap.insert]
      split
      next hlt =>
        refine List.pairwise_cons.mpr ⟨fun k' hk' => ?_, h⟩
        rcases List.mem_cons.mp hk' with rfl | hk'
        · exact hlt
        · exact hlt.trans (hhead k' hk')
      next hlt =>
        split
        next heq =>
          rw [Sorted, keys_cons, heq]
          exact h
        next hne =>
          refine List.pairwise_cons.mpr ⟨fun k' hk' => ?_, ih htail⟩
          rcases mem_keys_insert.mp hk' with rfl | hk'
          · exact lt_of_le_of_ne (not_lt.mp hlt) (Ne.symm hne)
          · exact hhead k' hk'

theorem Sorted.nodup {m : List (κ × β)} (h : Sorted m) : (keys m).Nodup :=
  List.Pairwise.imp (fun hlt => hlt.ne) h

/-- Ascending keys are known by their members. -/
theorem Sorted.keys_eq {m : List (κ × β)} (h : Sorted m) {l : List κ} (hl : l.Pairwise (· < ·))
    (hmem : ∀ k, k ∈ l ↔ k ∈ keys m) : keys m = l :=
  ((List.perm_ext_iff_of_nodup (hl.imp fun hlt => hlt.ne) h.nodup).mpr hmem).symm.eq_of_pairwise
    (fun _ _ _ _ hab hba => absurd hab hba.asymm) h hl

/-- A sorted map is known by its lookups. -/
theorem Sorted.ext {m m' : List (κ × β)} (h : Sorted m) (h' : Sorted m')
    (hlookup : ∀ k, m.lookup k = m'.lookup k) : m = m' := by
  have hperm : m.Perm m' := by
    refine (List.perm_ext_iff_of_nodup h.nodup.of_map h'.nodup.of_map).mpr fun e => ?_
    rw [← lookup_iff_mem h.nodup, ← lookup_iff_mem h'.nodup, hlookup]
  rw [Sorted, keys, List.pairwise_map] at h h'
  exact hperm.eq_of_pairwise (fun _ _ _ _ hab hba => absurd hab hba.asymm) h h'

end SortedMap

/-! ### First occurrences -/

section FirstOccurrences

variable {κ : Type} [DecidableEq κ]

theorem eraseDups_concat (l : List κ) (a : κ) :
    (l ++ [a]).eraseDups = if a ∈ l then l.eraseDups else l.eraseDups ++ [a] := by
  rw [List.eraseDups_append]
  by_cases h : a ∈ l <;> simp [h, List.removeAll, List.eraseDups_cons]

theorem eraseDups_sublist (l : List κ) : l.eraseDups.Sublist l := by
  induction l using List.reverseRecOn with
  | nil => simp
  | append_singleton l a ih =>
      rw [eraseDups_concat]
      split
      · exact ih.trans (List.sublist_append_left ..)
      · exact ih.append (List.Sublist.refl _)

theorem nodup_eraseDups (l : List κ) : l.eraseDups.Nodup := by
  induction l using List.reverseRecOn with
  | nil => simp
  | append_singleton l a ih =>
      rw [eraseDups_concat]
      split
      · exact ih
      next h =>
        rw [List.nodup_append]
        exact ⟨ih, List.nodup_singleton a, fun b hb c hc e => by simp_all⟩

theorem eraseDups_eq_self {l : List κ} (h : l.Nodup) : l.eraseDups = l := by
  induction l using List.reverseRecOn with
  | nil => simp
  | append_singleton l a ih =>
      rw [List.nodup_append] at h
      have ha : a ∉ l := fun hmem => h.2.2 a hmem a (List.mem_singleton_self a) rfl
      rw [eraseDups_concat, if_neg ha, ih h.1]

/-- As long as it was, without repeats: there were none. -/
theorem eq_eraseDups_of_length {l : List κ} (h : l.length = l.eraseDups.length) :
    l.eraseDups = l := (eraseDups_sublist l).eq_of_length h.symm

end FirstOccurrences

end Brust
