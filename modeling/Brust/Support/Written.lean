import Brust.Support.SortedMap

/-!
# Support — entries as they were written

A text of entries makes a map in two ways: sorted (`collect`, what a `BTreeMap` is built of), and in
place, a key that was there keeping its place (`putAll`).  Both hold every key once, with the value
written last (`lookup_collect`, `lookup_putAll`); a map without repeats is known by the order of its
keys (`eq_inOrder`).
-/

namespace Brust

namespace SortedMap

variable {κ β : Type}

section
variable [DecidableEq κ]

/-- The value a key has in the end. -/
def lastWritten (text : List (κ × β)) (k : κ) : Option β := text.reverse.lookup k

/-- An assignment: a new key goes last, one that is there keeps its place. -/
def put (k : κ) (v : β) : List (κ × β) → List (κ × β)
  | [] => [(k, v)]
  | e :: m => if k = e.1 then (k, v) :: m else e :: put k v m

def putAll (text : List (κ × β)) : List (κ × β) := text.foldl (fun m e => put e.1 e.2 m) []

/-- The entries of some keys, in that order. -/
def inOrder (ks : List κ) (text : List (κ × β)) : List (κ × β) :=
  ks.filterMap fun k => (lastWritten text k).map (k, ·)

end

/-- Entries collected into a `BTreeMap`. -/
def collect [LinearOrder κ] (text : List (κ × β)) : List (κ × β) :=
  text.foldl (fun m e => insert e.1 e.2 m) []

/-! ### In place -/

section
variable [DecidableEq κ]

theorem keys_put (k : κ) (v : β) (m : List (κ × β)) :
    keys (put k v m) = if k ∈ keys m then keys m else keys m ++ [k] := by
  induction m with
  | nil => rfl
  | cons e m ih =>
      rw [put]
      by_cases h : k = e.1
      · rw [if_pos h, if_pos (by rw [h, keys_cons]; exact List.mem_cons_self), keys_cons, keys_cons,
          h]
      · rw [if_neg h, keys_cons, ih, keys_cons]
        by_cases hk : k ∈ keys m
        · rw [if_pos hk, if_pos (List.mem_cons_of_mem _ hk)]
        · rw [if_neg hk, if_neg (by rw [List.mem_cons, not_or]; exact ⟨h, hk⟩), List.cons_append]

theorem putAll_concat (text : List (κ × β)) (e : κ × β) :
    putAll (text ++ [e]) = put e.1 e.2 (putAll text) := by
  rw [putAll, List.foldl_append]
  rfl

theorem keys_putAll (text : List (κ × β)) : keys (putAll text) = (keys text).eraseDups := by
  induction text using List.reverseRecOn with
  | nil => rfl
  | append_singleton text e ih =>
      have hkeys : keys (text ++ [e]) = keys text ++ [e.1] := List.map_append
      rw [putAll_concat, keys_put, ih, hkeys, eraseDups_concat]
      simp only [List.mem_eraseDups]

theorem mem_of_mem_put {k : κ} {v : β} {m : List (κ × β)} {e : κ × β} (h : e ∈ put k v m) :
    e = (k, v) ∨ e ∈ m := by
  induction m with
  | nil => exact .inl (List.mem_singleton.mp h)
  | cons f m ih =>
      rw [put] at h
      split at h
      · rcases List.mem_cons.mp h with h | h
        · exact .inl h
        · exact .inr (List.mem_cons_of_mem _ h)
      · rcases List.mem_cons.mp h with h | h
        · exact .inr (h ▸ List.mem_cons_self)
        · exact (ih h).imp_right (List.mem_cons_of_mem _)

/-- What was put was written. -/
theorem mem_of_mem_putAll {text : List (κ × β)} {e : κ × β} (h : e ∈ putAll text) : e ∈ text := by
  induction text using List.reverseRecOn with
  | nil => exact h
  | append_singleton text f ih =>
      rw [putAll_concat] at h
      rcases mem_of_mem_put h with rfl | h
      · exact List.mem_append_right _ List.mem_cons_self
      · exact List.mem_append_left _ (ih h)

end

variable [LinearOrder κ]

theorem lastWritten_concat (text : List (κ × β)) (e : κ × β) (k : κ) :
    lastWritten (text ++ [e]) k = if k = e.1 then some e.2 else lastWritten text k := by
  rw [lastWritten, List.reverse_append, List.reverse_singleton, List.singleton_append,
    lookup_cons_if, lastWritten]

theorem lastWritten_ne_none_iff {text : List (κ × β)} {k : κ} :
    lastWritten text k ≠ none ↔ k ∈ keys text := by
  rw [lastWritten, ne_eq, lookup_eq_none_iff, not_not, keys, List.map_reverse, List.mem_reverse,
    keys]

theorem lastWritten_of_nodup {text : List (κ × β)} (h : (keys text).Nodup) (k : κ) :
    lastWritten text k = text.lookup k := by
  have hreverse : (keys text.reverse).Nodup := by
    rw [keys, List.map_reverse]
    exact List.nodup_reverse.mpr h
  refine Option.ext fun v => ?_
  rw [lastWritten, lookup_iff_mem hreverse, List.mem_reverse, lookup_iff_mem h]

/-! ### Sorted -/

theorem collect_concat (text : List (κ × β)) (e : κ × β) :
    collect (text ++ [e]) = insert e.1 e.2 (collect text) := by
  rw [collect, List.foldl_append]
  rfl

theorem sorted_collect (text : List (κ × β)) : Sorted (collect text) := by
  induction text using List.reverseRecOn with
  | nil => exact .nil
  | append_singleton text e ih =>
      rw [collect_concat]
      exact ih.insert

theorem lookup_collect (text : List (κ × β)) (k : κ) :
    (collect text).lookup k = lastWritten text k := by
  induction text using List.reverseRecOn with
  | nil => rfl
  | append_singleton text e ih => rw [collect_concat, lookup_insert, lastWritten_concat, ih]

/-! ### Lookups in place -/

theorem lookup_put (k k' : κ) (v : β) (m : List (κ × β)) :
    (put k v m).lookup k' = if k' = k then some v else m.lookup k' := by
  induction m with
  | nil => rw [put, lookup_cons_if]
  | cons e m ih =>
      rw [put]
      by_cases h : k = e.1
      · rw [if_pos h, lookup_cons_if, lookup_cons_if]
        by_cases hk : k' = k
        · rw [if_pos hk, if_pos hk]
        · rw [if_neg hk, if_neg hk, if_neg (h ▸ hk)]
      · rw [if_neg h, lookup_cons_if, lookup_cons_if, ih]
        by_cases hk : k' = e.1
        · rw [if_pos hk, if_pos hk, if_neg fun heq : k' = k => h (heq ▸ hk)]
        · rw [if_neg hk, if_neg hk]

theorem lookup_putAll (text : List (κ × β)) (k : κ) :
    (putAll text).lookup k = lastWritten text k := by
  induction text using List.reverseRecOn with
  | nil => rfl
  | append_singleton text e ih => rw [putAll_concat, lookup_put, lastWritten_concat, ih]

/-! ### In an order -/

theorem keys_inOrder {ks : List κ} {text : List (κ × β)} (h : ∀ k ∈ ks, k ∈ keys text) :
    keys (inOrder ks text) = ks := by
  induction ks with
  | nil => rfl
  | cons k ks ih =>
      obtain ⟨v, hv⟩ := Option.ne_none_iff_exists'.mp
        (lastWritten_ne_none_iff.mpr (h k List.mem_cons_self))
      rw [inOrder, List.filterMap_cons, hv, Option.map_some, keys_cons, ← inOrder,
        ih fun k hk => h k (List.mem_cons_of_mem _ hk)]

/-- **A map without repeats is its keys' order and what was written last.** -/
theorem eq_inOrder {m text : List (κ × β)} (h : (keys m).Nodup)
    (hlookup : ∀ k, m.lookup k = lastWritten text k) : m = inOrder (keys m) text := by
  have hentries : ∀ l : List (κ × β), (∀ e ∈ l, e ∈ m) → l = inOrder (keys l) text := by
    intro l hl
    induction l with
    | nil => rfl
    | cons e l ih =>
        have hlast : lastWritten text e.1 = some e.2 := by
          rw [← hlookup, lookup_iff_mem h]
          exact hl e List.mem_cons_self
        rw [keys_cons, inOrder, List.filterMap_cons, hlast, Option.map_some, ← inOrder,
          ← ih fun e he => hl e (List.mem_cons_of_mem _ he)]
  exact hentries m fun _ he => he

theorem collect_eq (text : List (κ × β)) : collect text = inOrder (keys (collect text)) text :=
  eq_inOrder (sorted_collect text).nodup (lookup_collect text)

theorem mem_keys_collect {text : List (κ × β)} {k : κ} :
    k ∈ keys (collect text) ↔ k ∈ keys text := by
  rw [mem_keys_iff, ← Option.ne_none_iff_exists', lookup_collect, lastWritten_ne_none_iff]

theorem inOrder_self {text : List (κ × β)} (h : (keys text).Nodup) :
    inOrder (keys text) text = text :=
  (eq_inOrder h fun k => (lastWritten_of_nodup h k).symm).symm

/-- Collecting entries changes nothing exactly when their keys ascend. -/
theorem collect_eq_self_iff {text : List (κ × β)} : collect text = text ↔ Sorted text := by
  refine ⟨fun h => h ▸ sorted_collect text, fun h => ?_⟩
  have hkeys : keys (collect text) = keys text :=
    (sorted_collect text).keys_eq h fun _ => mem_keys_collect.symm
  rw [collect_eq, hkeys, inOrder_self h.nodup]

/-- Collecting what was put in place is collecting what was written. -/
theorem collect_putAll (text : List (κ × β)) : collect (putAll text) = collect text := by
  have hnodup : (keys (putAll text)).Nodup := keys_putAll text ▸ nodup_eraseDups _
  have hlookup : ∀ k, (collect (putAll text)).lookup k = lastWritten text k := fun k => by
    rw [lookup_collect, lastWritten_of_nodup hnodup, lookup_putAll]
  have hkeys : keys (collect (putAll text)) = keys (collect text) := by
    refine (sorted_collect _).keys_eq (sorted_collect _) fun k => ?_
    rw [mem_keys_collect, mem_keys_collect, keys_putAll, List.mem_eraseDups]
  rw [eq_inOrder (sorted_collect _).nodup hlookup, hkeys, ← collect_eq]

end SortedMap

end Brust
