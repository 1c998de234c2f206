import Mathlib.Data.List.AList
import Mathlib.Algebra.GroupWithZero.Nat

/-!
# Support — finite maps

`Map α β` is Mathlib's association list with distinct keys, at a constant value type: the
`HashMap`s of the source, with `AList.lookup`, `insert`, `erase` and `keys` under Mathlib's
names.  Added here: the two lookup equations with the key test written out, and the restriction
of a map to the keys a test selects (`HashMap::retain`, and the clearing of one shard).
-/

namespace Brust

/-- A finite map from `α` to `β`. -/
abbrev Map (α β : Type) := AList fun _ : α => β

namespace Map

variable {α β : Type} [DecidableEq α]

theorem lookup_insert_if (m : Map α β) (k k' : α) (v : β) :
    (m.insert k v).lookup k' = if k' = k then some v else m.lookup k' := by
  by_cases h : k' = k
  · subst h; simp
  · simp [h]

theorem lookup_erase_if (m : Map α β) (k k' : α) :
    (m.erase k).lookup k' = if k' = k then none else m.lookup k' := by
  by_cases h : k' = k
  · subst h; simp
  · simp [h]

theorem lookup_replace_if (m : Map α β) (k k' : α) (v : β) :
    (AList.replace k v m).lookup k' =
      if k' = k ∧ (m.lookup k).isSome then some v else m.lookup k' := by
  have hlist : ∀ l : List (Sigma fun _ : α => β), (List.kreplace k v l).dlookup k' =
      if k' = k ∧ (l.dlookup k).isSome then some v else l.dlookup k' := by
    intro l
    induction l with
    | nil => simp [List.kreplace]
    | cons e l ih =>
        obtain ⟨k₀, v₀⟩ := e
        by_cases h₀ : k = k₀
        · subst h₀
          have hcons : List.kreplace k v (⟨k, v₀⟩ :: l) = ⟨k, v⟩ :: l :=
            List.lookmap_cons_some _ _ (if_pos rfl)
          rw [hcons]
          by_cases h : k' = k
          · subst h; simp
          · rw [List.dlookup_cons_ne l ⟨k, v⟩ h, List.dlookup_cons_ne l ⟨k, v₀⟩ h]
            simp [h]
        · have hcons : List.kreplace k v (⟨k₀, v₀⟩ :: l) = ⟨k₀, v₀⟩ :: List.kreplace k v l :=
            List.lookmap_cons_none _ _ (if_neg h₀)
          rw [hcons, List.dlookup_cons_ne l ⟨k₀, v₀⟩ h₀]
          by_cases h : k' = k₀
          · subst h
            simp [Ne.symm h₀]
          · rw [List.dlookup_cons_ne (List.kreplace k v l) ⟨k₀, v₀⟩ h,
              List.dlookup_cons_ne l ⟨k₀, v₀⟩ h]
            exact ih
  exact hlist m.entries
/-- The keys of a map are those it answers at. -/
theorem mem_keys_iff {m : Map α β} {k : α} : k ∈ m.keys ↔ ∃ v, m.lookup k = some v := by
  rw [← AList.mem_keys, ← AList.lookup_isSome, Option.isSome_iff_exists]

/-- A property of every value a map answers is one of its entries. -/
theorem forall_lookup_iff {m : Map α β} {p : β → Prop} :
    (∀ k v, m.lookup k = some v → p v) ↔ ∀ e ∈ m.entries, p e.2 :=
  ⟨fun h e he => h e.1 e.2 (AList.mem_lookup_iff.mpr he),
    fun h _ _ hk => h _ (AList.mem_lookup_iff.mp hk)⟩

theorem lookup_of_notMem_keys {m : Map α β} {k : α} (h : k ∉ m.keys) : m.lookup k = none :=
  AList.lookup_eq_none.mpr fun hk => h (AList.mem_keys.mp hk)

/-- The sum of a measure over the values. -/
def total (m : Map α β) (f : β → ℕ) : ℕ := (m.entries.map fun e => f e.2).sum

theorem total_erase {m : Map α β} {k : α} {v : β} (h : m.lookup k = some v) (f : β → ℕ) :
    total m f = f v + total (m.erase k) f := by
  have hk : k ∈ m.entries.keys := AList.mem_keys.mp (mem_keys_iff.mpr ⟨v, h⟩)
  obtain ⟨b, l₁, l₂, hnot, he, hkerase⟩ := List.exists_of_kerase hk
  have hb : (⟨k, b⟩ : Sigma fun _ : α => β) ∈ m.entries := by simp [he]
  have hbv : b = v := Option.some.inj ((AList.mem_lookup_iff.mpr hb).symm.trans h)
  have herase : (m.erase k).entries = l₁ ++ l₂ := hkerase
  rw [total, total, he, herase, hbv]
  simp only [List.map_append, List.map_cons, List.sum_append, List.sum_cons]
  omega

theorem total_insert (m : Map α β) (k : α) (v : β) (f : β → ℕ) :
    total (m.insert k v) f = f v + total (m.erase k) f := by
  rw [total, AList.entries_insert, List.map_cons, List.sum_cons]
  rfl

theorem erase_of_lookup_none {m : Map α β} {k : α} (h : m.lookup k = none) : m.erase k = m :=
  AList.ext (List.kerase_of_notMem_keys fun hk => AList.lookup_eq_none.mp h (AList.mem_keys.mpr hk))

theorem eq_empty_of_lookup {m : Map α β} (h : ∀ k, m.lookup k = none) : m = ∅ := by
  refine AList.ext (List.eq_nil_iff_forall_not_mem.mpr fun e he => ?_)
  have hl := AList.mem_lookup_iff.mpr he
  rw [h] at hl
  cases hl

/-- The entries whose key `p` selects. -/
def restrict (m : Map α β) (p : α → Bool) : Map α β :=
  ⟨m.entries.filter fun e => p e.1,
    (List.filter_sublist.map Sigma.fst).nodup m.nodupKeys⟩

omit [DecidableEq α] in
theorem mem_keys_restrict {m : Map α β} {p : α → Bool} {k : α} :
    k ∈ (m.restrict p).keys ↔ k ∈ m.keys ∧ p k = true := by
  simp only [restrict, AList.keys, List.keys, List.mem_map, List.mem_filter]
  constructor
  · rintro ⟨e, ⟨he, hp⟩, rfl⟩; exact ⟨⟨e, he, rfl⟩, hp⟩
  · rintro ⟨⟨e, he, rfl⟩, hp⟩; exact ⟨e, ⟨he, hp⟩, rfl⟩

theorem lookup_restrict (m : Map α β) (p : α → Bool) (k : α) :
    (m.restrict p).lookup k = if p k then m.lookup k else none := by
  split
  · next hp =>
    ext v
    simp only [← Option.mem_def, AList.mem_lookup_iff, restrict, List.mem_filter, hp, and_true]
  · next hp =>
    exact lookup_of_notMem_keys fun h => hp (mem_keys_restrict.mp h).2

theorem kerase_eq_filter {a : α} {l : List (Sigma fun _ : α => β)} (h : l.NodupKeys) :
    l.kerase a = l.filter fun e => decide (e.1 ≠ a) := by
  induction l with
  | nil => rfl
  | cons e l ih =>
      obtain ⟨he, hl⟩ := List.nodupKeys_cons.mp h
      by_cases ha : a = e.1
      · have hrest : l.filter (fun e => decide (e.1 ≠ a)) = l :=
          List.filter_eq_self.mpr fun e' he' => decide_eq_true fun heq =>
            he (ha ▸ heq ▸ List.mem_keys_of_mem he')
        rw [List.kerase_cons_eq ha, List.filter_cons_of_neg (by simp [ha]), hrest]
      · rw [List.kerase_cons_ne ha, ih hl, List.filter_cons_of_pos (by simpa using Ne.symm ha)]

theorem erase_eq_restrict (m : Map α β) (k : α) : m.erase k = m.restrict fun a => decide (a ≠ k) :=
  AList.ext (kerase_eq_filter m.nodupKeys)

/-- Distinct entries are taken out of a map: it is smaller by as many. -/
theorem length_restrict_notMem {m : Map α β} {old : List (Sigma fun _ : α => β)}
    (hsub : old ⊆ m.entries) (hnodup : old.Nodup) :
    (m.restrict fun k => decide (k ∉ old.map (·.1))).keys.length + old.length = m.keys.length := by
  have hmem : ∀ e, e ∈ m.entries.filter (fun e => decide (e.1 ∈ old.map (·.1))) ↔ e ∈ old := by
    intro e
    rw [List.mem_filter, decide_eq_true_iff, List.mem_map]
    constructor
    · rintro ⟨he, o, ho, heq⟩
      exact m.nodupKeys.eq_of_fst_eq (hsub ho) he heq ▸ ho
    · exact fun he => ⟨hsub he, e, he, rfl⟩
  have hperm : (m.entries.filter fun e => decide (e.1 ∈ old.map (·.1))).Perm old :=
    (List.perm_ext_iff_of_nodup (m.nodupKeys.nodup.filter _) hnodup).mpr hmem
  have hsplit : m.entries.length = _ :=
    List.length_eq_length_filter_add fun e => decide (e.1 ∈ old.map (·.1))
  have hrest : (m.entries.filter fun e => decide (e.1 ∉ old.map (·.1))) =
      m.entries.filter fun e => !decide (e.1 ∈ old.map (·.1)) := by
    simp only [decide_not]
  rw [hperm.length_eq] at hsplit
  show ((m.entries.filter _).map Sigma.fst).length + _ = (m.entries.map Sigma.fst).length
  rw [List.length_map, List.length_map, hrest, hsplit, Nat.add_comm]

end Map

end Brust
