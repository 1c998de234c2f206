import Brust.Support.Map

/-!
# Core — the local indexes

The tag and user-key indexes of a local store: from names to sets of keys, with no empty set kept.
`Indexed` says which pairs an index holds, and every operation has one equation for it.
-/

namespace Brust.Core.Local

/-- A `HashSet`. -/
abbrev KeySet (K : Type) := Map K Unit

abbrev Index (K : Type) := Map String (KeySet K)

variable {K : Type} [DecidableEq K]

def unindex (index : Index K) (name : String) (k : K) : Index K :=
  match index.lookup name with
  | none => index
  | some set =>
    let set := set.erase k
    if set.keys = [] then index.erase name else index.insert name set

def unindexAll (index : Index K) (names : List String) (k : K) : Index K :=
  names.foldl (fun index name => unindex index name k) index

/-- Index `k` under a name. -/
def indexUnder (index : Index K) (name : String) (k : K) : Index K :=
  index.insert name (((index.lookup name).getD ∅).insert k ())

def indexAll (index : Index K) (names : List String) (k : K) : Index K :=
  names.foldl (fun index name => indexUnder index name k) index

/-- Take names out of an index, and their keys. -/
def takeNames (index : Index K) : List String → Index K × KeySet K
  | [] => (index, ∅)
  | n :: names =>
    match index.lookup n with
    | some set =>
      let (index, keys) := takeNames (index.erase n) names
      (index, set ∪ keys)
    | none => takeNames index names

/-- The keys under names that `keep` selects. -/
def collect (index : Index K) (names : List String) (keep : K → Bool) : KeySet K :=
  names.foldr (fun n keys => ((index.lookup n).getD ∅).restrict keep ∪ keys) ∅

/-! ### What an index holds -/

def Indexed (index : Index K) (name : String) (k : K) : Prop :=
  ∃ set, index.lookup name = some set ∧ k ∈ set

/-- No set is empty. -/
def Clean (index : Index K) : Prop := ∀ name set, index.lookup name = some set → set.keys ≠ []

theorem indexed_unindex {index : Index K} {n n' : String} {k k' : K} :
    Indexed (unindex index n k) n' k' ↔ Indexed index n' k' ∧ ¬ (n' = n ∧ k' = k) := by
  unfold unindex Indexed
  cases h : index.lookup n with
  | none =>
      refine ⟨fun ⟨set, hs, hk⟩ => ⟨⟨set, hs, hk⟩, fun e => ?_⟩, And.left⟩
      rw [← e.1, hs] at h
      cases h
  | some set =>
      by_cases hn : n' = n
      · subst hn
        by_cases he : (set.erase k).keys = []
        · -- the set held `k` at most
          simp only [he, if_true, AList.lookup_erase, h, true_and]
          refine ⟨fun ⟨_, hs, _⟩ => (by cases hs), fun ⟨⟨set', hs, hk⟩, hne⟩ => ?_⟩
          cases hs
          have hmem : k' ∈ set.erase k := AList.mem_erase.mpr ⟨hne, hk⟩
          rw [AList.mem_keys, he] at hmem
          cases hmem
        · simp only [he, if_false, AList.lookup_insert, h, true_and]
          constructor
          · rintro ⟨_, ⟨⟩, hk⟩
            obtain ⟨hne, hk⟩ := AList.mem_erase.mp hk
            exact ⟨⟨set, rfl, hk⟩, hne⟩
          · rintro ⟨⟨_, ⟨⟩, hk⟩, hne⟩
            exact ⟨_, rfl, AList.mem_erase.mpr ⟨hne, hk⟩⟩
      · have hl : (if (set.erase k).keys = [] then index.erase n else
            index.insert n (set.erase k)).lookup n' = index.lookup n' := by
          split
          · rw [AList.lookup_erase_ne hn]
          · rw [AList.lookup_insert_ne hn]
        simp only [hl, hn, false_and, not_false_eq_true, and_true]

theorem clean_unindex {index : Index K} (h : Clean index) (n : String) (k : K) :
    Clean (unindex index n k) := by
  intro n' set hs
  unfold unindex at hs
  cases hl : index.lookup n with
  | none => rw [hl] at hs; exact h n' set hs
  | some set' =>
      rw [hl] at hs
      simp only at hs
      split at hs
      next =>
        rw [Map.lookup_erase_if] at hs
        split at hs
        · cases hs
        · exact h n' set hs
      next hne =>
        rw [Map.lookup_insert_if] at hs
        split at hs
        · cases hs; exact hne
        · exact h n' set hs

theorem indexed_unindexAll {index : Index K} {names : List String} {n : String} {k k' : K} :
    Indexed (unindexAll index names k) n k' ↔ Indexed index n k' ∧ ¬ (n ∈ names ∧ k' = k) := by
  induction names generalizing index with
  | nil => simp [unindexAll]
  | cons m names ih =>
      refine ih.trans ?_
      rw [indexed_unindex, List.mem_cons, or_and_right, not_or, and_assoc]

theorem clean_unindexAll {index : Index K} (h : Clean index) (names : List String) (k : K) :
    Clean (unindexAll index names k) := by
  induction names generalizing index with
  | nil => exact h
  | cons m names ih => exact ih (clean_unindex h m k)

theorem indexed_indexUnder {index : Index K} {n n' : String} {k k' : K} :
    Indexed (indexUnder index n k) n' k' ↔ (n' = n ∧ k' = k) ∨ Indexed index n' k' := by
  unfold indexUnder Indexed
  by_cases hn : n' = n
  · subst hn
    simp only [AList.lookup_insert, true_and, Option.some.injEq, exists_eq_left', AList.mem_insert]
    refine or_congr Iff.rfl ?_
    cases index.lookup n' with
    | none => simp
    | some set => simp
  · rw [AList.lookup_insert_ne hn]
    simp [hn]

theorem clean_indexUnder {index : Index K} (h : Clean index) (n : String) (k : K) :
    Clean (indexUnder index n k) := by
  intro n' set hs
  rw [indexUnder, Map.lookup_insert_if] at hs
  split at hs
  · cases hs
    simp [AList.keys_insert]
  · exact h n' set hs

theorem indexed_indexAll {index : Index K} {names : List String} {n : String} {k k' : K} :
    Indexed (indexAll index names k) n k' ↔ (n ∈ names ∧ k' = k) ∨ Indexed index n k' := by
  induction names generalizing index with
  | nil => simp [indexAll]
  | cons m names ih =>
      refine ih.trans ?_
      rw [indexed_indexUnder, List.mem_cons, or_and_right]
      tauto

theorem clean_indexAll {index : Index K} (h : Clean index) (names : List String) (k : K) :
    Clean (indexAll index names k) := by
  induction names generalizing index with
  | nil => exact h
  | cons m names ih => exact ih (clean_indexUnder h m k)

omit [DecidableEq K] in
theorem indexed_erase {index : Index K} {n n' : String} {k : K} :
    Indexed (index.erase n) n' k ↔ n' ≠ n ∧ Indexed index n' k := by
  unfold Indexed
  by_cases hn : n' = n
  · subst hn; simp
  · rw [AList.lookup_erase_ne hn]; simp [hn]

theorem takeNames_spec {index : Index K} (names : List String) :
    (∀ n k, Indexed (takeNames index names).1 n k ↔ n ∉ names ∧ Indexed index n k) ∧
    (Clean index → Clean (takeNames index names).1) ∧
    ∀ k, k ∈ (takeNames index names).2 ↔ ∃ n ∈ names, Indexed index n k := by
  induction names generalizing index with
  | nil => exact ⟨fun n k => by simp [takeNames], id, fun k => by simp [takeNames]⟩
  | cons m names ih =>
      cases hm : index.lookup m with
      | none =>
          have hnot : ∀ k, ¬ Indexed index m k := by
            rintro k ⟨set, hs, -⟩
            rw [hm] at hs
            cases hs
          obtain ⟨h₁, h₂, h₃⟩ := @ih index
          simp only [takeNames, hm]
          refine ⟨fun n k => ?_, h₂, fun k => ?_⟩
          · rw [h₁, List.mem_cons, not_or]
            refine ⟨fun ⟨hn, hi⟩ => ⟨⟨?_, hn⟩, hi⟩, fun ⟨⟨_, hn⟩, hi⟩ => ⟨hn, hi⟩⟩
            rintro rfl
            exact hnot k hi
          · rw [h₃]
            simp [hnot]
      | some set =>
          obtain ⟨h₁, h₂, h₃⟩ := @ih (index.erase m)
          simp only [takeNames, hm]
          refine ⟨fun n k => ?_, fun hc => h₂ fun n' set' hs => ?_, fun k => ?_⟩
          · rw [h₁, indexed_erase, List.mem_cons, not_or]
            tauto
          · rw [Map.lookup_erase_if] at hs
            split at hs
            · cases hs
            · exact hc n' set' hs
          · rw [AList.mem_union, h₃]
            have hset : k ∈ set ↔ Indexed index m k :=
              ⟨fun hk => ⟨set, hm, hk⟩, fun ⟨set', hs, hk⟩ => by rw [hm] at hs; cases hs; exact hk⟩
            constructor
            · rintro (hk | ⟨n, hn, hi⟩)
              · exact ⟨m, .head _, hset.mp hk⟩
              · exact ⟨n, .tail _ hn, (indexed_erase.mp hi).2⟩
            · rintro ⟨n, hn, hi⟩
              by_cases hnm : n = m
              · subst hnm; exact .inl (hset.mpr hi)
              · rcases List.mem_cons.mp hn with rfl | hn
                · exact absurd rfl hnm
                · exact .inr ⟨n, hn, indexed_erase.mpr ⟨hnm, hi⟩⟩

theorem mem_collect {index : Index K} {names : List String} {keep : K → Bool} {k : K} :
    k ∈ collect index names keep ↔ (∃ n ∈ names, Indexed index n k) ∧ keep k = true := by
  induction names with
  | nil => simp [collect]
  | cons m names ih =>
      have hset : k ∈ ((index.lookup m).getD ∅).restrict keep ↔ Indexed index m k ∧
        keep k = true := by
        rw [AList.mem_keys, Map.mem_keys_restrict]
        refine and_congr_left fun _ => ?_
        unfold Indexed
        cases index.lookup m with
        | none => simp
        | some set => simp [AList.mem_keys]
      have hcons : collect index (m :: names) keep =
          ((index.lookup m).getD ∅).restrict keep ∪ collect index names keep := rfl
      rw [hcons, AList.mem_union, hset, ih]
      simp only [List.mem_cons, or_and_right, exists_or, exists_eq_left]

end Brust.Core.Local
