import Brust.Support.Map
import Mathlib.Data.List.Lattice

/-!
# Cache — the generation-stamped name index

`TagIndex N K` maps an index name (a tag, or a `cache({key})` value) to the keys indexed under
it, each with the generation of the insert that indexed it.  The four operations are the
helpers both native caches share: `indexTags` overwrites an older generation, `pruneTags` (the
eviction listener's body) drops a key only at the evicted value's generation, and `takeTagged`
and `takeTaggedWhere` remove names, or one part of their keys, and return the distinct keys.

Everything later reads the index through `genAt`, the generation a key holds under a name; each
operation has one equation for `genAt`, and a take has one for the keys it returns.
-/

namespace Brust.Cache

/-- name → (key → generation of the insert that indexed it). -/
abbrev TagIndex (N K : Type) := Map N (Map K ℕ)

variable {N K : Type} [DecidableEq N] [DecidableEq K]

namespace TagIndex

/-- The generation `k` is indexed at under `n`. -/
def genAt (idx : TagIndex N K) (n : N) (k : K) : Option ℕ :=
  (idx.lookup n).bind (·.lookup k)

/-- Store `set` under `n`; an emptied set is dropped. -/
def put (idx : TagIndex N K) (n : N) (set : Map K ℕ) : TagIndex N K :=
  if set.keys = [] then idx.erase n else idx.insert n set

@[simp] theorem genAt_empty (n : N) (k : K) : genAt (∅ : TagIndex N K) n k = none := rfl

theorem genAt_insert (idx : TagIndex N K) (n n' : N) (set : Map K ℕ) (k : K) :
    genAt (idx.insert n set) n' k = if n' = n then set.lookup k else genAt idx n' k := by
  unfold genAt
  rw [Map.lookup_insert_if]
  split <;> rfl

theorem genAt_erase (idx : TagIndex N K) (n n' : N) (k : K) :
    genAt (idx.erase n) n' k = if n' = n then none else genAt idx n' k := by
  unfold genAt
  rw [Map.lookup_erase_if]
  split <;> rfl

theorem genAt_put (idx : TagIndex N K) (n n' : N) (set : Map K ℕ) (k : K) :
    genAt (put idx n set) n' k = if n' = n then set.lookup k else genAt idx n' k := by
  unfold put
  split
  · next h =>
    rw [genAt_erase, Map.lookup_of_notMem_keys (m := set) (k := k) (by simp [h])]
  · exact genAt_insert idx n n' set k

theorem genAt_of_lookup {idx : TagIndex N K} {n : N} {set : Map K ℕ} (h : idx.lookup n = some set)
    (k : K) : genAt idx n k = set.lookup k := by
  simp [genAt, h]

theorem genAt_of_lookup_none {idx : TagIndex N K} {n : N} (h : idx.lookup n = none) (k : K) :
    genAt idx n k = none := by
  simp [genAt, h]

end TagIndex

open TagIndex

/-! ### Indexing and pruning -/

/-- Index `key` under one name at `generation`. -/
def indexTag (idx : TagIndex N K) (key : K) (tag : N) (generation : ℕ) : TagIndex N K :=
  idx.insert tag (((idx.lookup tag).getD ∅).insert key generation)

/-- Index `key` under `tags` at `generation` (overwrites an older generation). -/
def indexTags (idx : TagIndex N K) (key : K) (tags : List N) (generation : ℕ) : TagIndex N K :=
  tags.foldl (fun idx tag => indexTag idx key tag generation) idx

/-- Drop `key` from one name while the slot still belongs to `generation`. -/
def pruneTag (idx : TagIndex N K) (key : K) (tag : N) (generation : ℕ) : TagIndex N K :=
  match idx.lookup tag with
  | none => idx
  | some set => put idx tag (if set.lookup key = some generation then set.erase key else set)

/-- The eviction listener's body. -/
def pruneTags (idx : TagIndex N K) (key : K) (tags : List N) (generation : ℕ) : TagIndex N K :=
  tags.foldl (fun idx tag => pruneTag idx key tag generation) idx

theorem genAt_indexTag (idx : TagIndex N K) (key k : K) (tag n : N) (g : ℕ) :
    genAt (indexTag idx key tag g) n k = if n = tag ∧ k = key then some g else genAt idx n k := by
  unfold indexTag
  rw [genAt_insert, Map.lookup_insert_if]
  by_cases hn : n = tag
  · subst hn
    by_cases hk : k = key
    · simp [hk]
    · simp only [hk, and_false, if_true, if_false]
      cases h : idx.lookup n with
      | none => simp [genAt_of_lookup_none h]
      | some set => simp [genAt_of_lookup h]
  · simp [hn]

theorem genAt_indexTags (idx : TagIndex N K) (key k : K) (tags : List N) (n : N) (g : ℕ) :
    genAt (indexTags idx key tags g) n k =
      if n ∈ tags ∧ k = key then some g else genAt idx n k := by
  unfold indexTags
  induction tags generalizing idx with
  | nil => simp
  | cons t ts ih =>
    rw [List.foldl_cons, ih, genAt_indexTag]
    by_cases hk : k = key
    · by_cases hn : n = t <;> simp [hk, hn]
    · simp [hk]

theorem genAt_pruneTag (idx : TagIndex N K) (key k : K) (tag n : N) (g : ℕ) :
    genAt (pruneTag idx key tag g) n k =
      if n = tag ∧ k = key ∧ genAt idx n k = some g then none else genAt idx n k := by
  unfold pruneTag
  cases h : idx.lookup tag with
  | none =>
    by_cases hn : n = tag
    · subst hn; simp [genAt_of_lookup_none h]
    · simp [hn]
  | some set =>
    simp only [genAt_put]
    by_cases hn : n = tag
    · subst hn
      simp only [genAt_of_lookup h, true_and, if_true]
      by_cases hk : k = key
      · subst hk; split <;> simp_all
      · split <;> simp [hk]
    · simp [hn]

theorem genAt_pruneTags (idx : TagIndex N K) (key k : K) (tags : List N) (n : N) (g : ℕ) :
    genAt (pruneTags idx key tags g) n k =
      if n ∈ tags ∧ k = key ∧ genAt idx n k = some g then none else genAt idx n k := by
  unfold pruneTags
  induction tags generalizing idx with
  | nil => simp
  | cons t ts ih =>
    rw [List.foldl_cons, ih, genAt_pruneTag]
    by_cases hn : n = t <;> by_cases hk : k = key <;> by_cases hg : genAt idx n k = some g <;>
      simp_all

/-! ### Taking names out of the index -/

/-- The keys indexed under one name. -/
def taggedKeys (idx : TagIndex N K) (tag : N) : List K :=
  ((idx.lookup tag).map AList.keys).getD []

/-- Remove every name in `tags` and return the distinct keys they held. -/
def takeTagged (idx : TagIndex N K) : List N → TagIndex N K × List K
  | [] => (idx, [])
  | t :: ts =>
    let (idx', out) := takeTagged (idx.erase t) ts
    (idx', taggedKeys idx t ∪ out)

/-- As `takeTagged`, but only the keys `keep` selects: they leave the index, every other key of
those names stays; emptied sets are dropped. -/
def takeTaggedWhere (idx : TagIndex N K) (keep : K → Bool) : List N → TagIndex N K × List K
  | [] => (idx, [])
  | t :: ts =>
    match idx.lookup t with
    | none => takeTaggedWhere idx keep ts
    | some set =>
      let (idx', out) := takeTaggedWhere (put idx t (set.restrict fun k => !keep k)) keep ts
      (idx', (set.restrict keep).keys ∪ out)

/-- The take an invalidation makes: every key of its names, or the part a test selects. -/
def take (idx : TagIndex N K) (tags : List N) : Option (K → Bool) → TagIndex N K × List K
  | none => takeTagged idx tags
  | some keep => takeTaggedWhere idx keep tags

/-- The keys a take selects. -/
def keeps (keep : Option (K → Bool)) (k : K) : Bool := keep.all (· k)

theorem mem_taggedKeys {idx : TagIndex N K} {tag : N} {k : K} :
    k ∈ taggedKeys idx tag ↔ (genAt idx tag k).isSome := by
  unfold taggedKeys
  cases h : idx.lookup tag with
  | none => simp [genAt_of_lookup_none h]
  | some set =>
    rw [genAt_of_lookup h, Option.isSome_iff_exists, ← Map.mem_keys_iff]
    simp

/-- A take leaves the index as it was but for the keys it selects under its names. -/
theorem genAt_take (idx : TagIndex N K) (tags : List N) (keep : Option (K → Bool)) (n : N) (k : K) :
    genAt (take idx tags keep).1 n k =
      if n ∈ tags ∧ keeps keep k = true then none else genAt idx n k := by
  cases keep with
  | none =>
    simp only [take, keeps, Option.all_none, and_true]
    induction tags generalizing idx with
    | nil => simp [takeTagged]
    | cons t ts ih =>
      simp only [takeTagged, ih, genAt_erase]
      by_cases hn : n = t <;> simp [hn]
  | some keep =>
    simp only [take, keeps, Option.all_some]
    induction tags generalizing idx with
    | nil => simp [takeTaggedWhere]
    | cons t ts ih =>
      unfold takeTaggedWhere
      cases h : idx.lookup t with
      | none =>
        by_cases hn : n = t
        · subst hn; simp [ih, genAt_of_lookup_none h]
        · rw [ih]; simp only [List.mem_cons, hn, false_or]; congr
      | some set =>
        simp only [ih, genAt_put, Map.lookup_restrict]
        by_cases hn : n = t
        · subst hn
          by_cases hk : keep k = true <;> simp [hk, genAt_of_lookup h]
        · simp [hn]

omit [DecidableEq N] in
/-- A name asked first need not be asked again. -/
theorem exists_mem_cons_ne {p : N → Prop} {t : N} {ts : List N} :
    (p t ∨ ∃ n ∈ ts, n ≠ t ∧ p n) ↔ ∃ n ∈ t :: ts, p n := by
  constructor
  · rintro (h | ⟨n, hn, -, h⟩)
    · exact ⟨t, List.mem_cons_self, h⟩
    · exact ⟨n, List.mem_cons_of_mem _ hn, h⟩
  · rintro ⟨n, hn, h⟩
    by_cases e : n = t
    · exact .inl (e ▸ h)
    · exact .inr ⟨n, (List.mem_cons.mp hn).resolve_left e, e, h⟩

/-- The keys a take returns: those it selects that some of its names held. -/
theorem mem_take (idx : TagIndex N K) (tags : List N) (keep : Option (K → Bool)) (k : K) :
    k ∈ (take idx tags keep).2 ↔
      keeps keep k = true ∧ ∃ n ∈ tags, (genAt idx n k).isSome := by
  cases keep with
  | none =>
    simp only [take, keeps, Option.all_none, true_and]
    induction tags generalizing idx with
    | nil => simp [takeTagged]
    | cons t ts ih =>
      rw [← exists_mem_cons_ne (p := fun n => (genAt idx n k).isSome)]
      simp only [takeTagged, List.mem_union_iff, ih, mem_taggedKeys, genAt_erase]
      refine or_congr Iff.rfl (exists_congr fun n => and_congr_right fun _ => ?_)
      by_cases hn : n = t <;> simp [hn]
  | some keep =>
    simp only [take, keeps, Option.all_some]
    induction tags generalizing idx with
    | nil => simp [takeTaggedWhere]
    | cons t ts ih =>
      rw [← exists_mem_cons_ne (p := fun n => (genAt idx n k).isSome)]
      unfold takeTaggedWhere
      cases h : idx.lookup t with
      | none =>
        simp only [ih, genAt_of_lookup_none h, Option.isSome_none, Bool.false_eq_true, false_or]
        refine and_congr_right fun _ => exists_congr fun n => and_congr_right fun _ => ?_
        by_cases hn : n = t <;> simp [hn, genAt_of_lookup_none h]
      | some set =>
        have hset : k ∈ (set.restrict keep).keys ↔ keep k = true ∧ (genAt idx t k).isSome := by
          rw [Map.mem_keys_restrict, Map.mem_keys_iff, genAt_of_lookup h,
            Option.isSome_iff_exists, and_comm]
        simp only [List.mem_union_iff, ih, hset, genAt_put, Map.lookup_restrict, and_or_left]
        refine or_congr Iff.rfl (and_congr_right fun hk => ?_)
        refine exists_congr fun n => and_congr_right fun _ => ?_
        by_cases hn : n = t <;> simp [hn, hk]

/-- The keys a take returns are distinct. -/
theorem nodup_take (idx : TagIndex N K) (tags : List N) (keep : Option (K → Bool)) :
    (take idx tags keep).2.Nodup := by
  cases keep with
  | none =>
    simp only [take]
    induction tags generalizing idx with
    | nil => exact List.nodup_nil
    | cons t ts ih => exact (ih _).union _
  | some keep =>
    simp only [take]
    induction tags generalizing idx with
    | nil => exact List.nodup_nil
    | cons t ts ih =>
      unfold takeTaggedWhere
      cases idx.lookup t with
      | none => exact ih _
      | some set => exact (ih _).union _

end Brust.Cache
