import Brust.Core.Local.Isolate
import Mathlib.Data.List.Dedup

/-!
# Core — least recently used

The keys of a local store in the order of their ticks are its keys in the order of their last uses
(`used_step`).  An insert takes its key out of that order and puts it last; of the others the
expired near the front go, and then the shortest prefix that leaves room for the entry
(`insert_lru`).  `inserts_evict_prefix` is both for the stores of an isolate, in every state of
every run.
-/

namespace Brust.Core.Local

namespace Store

variable {K V : Type} [DecidableEq K] {s s' : Store K V}

/-- The keys, least recently used first. -/
def order (s : Store K V) : List K := s.byTick.map (·.2)

def tickOf (s : Store K V) (k : K) : ℕ := (s.entries.lookup k).elim 0 (·.tick)

def size (s : Store K V) (k : K) : ℕ := (s.entries.lookup k).elim 0 (·.bytes)

def has (s : Store K V) (k : K) : Bool := (s.entries.lookup k).isSome

/-! ### The order -/

theorem tickOf_of_lookup {k : K} {slot : Slot V} (h : s.entries.lookup k = some slot) :
    s.tickOf k = slot.tick := by
  rw [tickOf, h]
  rfl

theorem has_iff {k : K} : s.has k = true ↔ ∃ slot, s.entries.lookup k = some slot :=
  Option.isSome_iff_exists

theorem mem_order (h : s.Rep) {k : K} : k ∈ s.order ↔ s.has k = true := by
  rw [order, List.mem_map, has_iff]
  constructor
  · rintro ⟨e, he, rfl⟩
    have hlookup := AList.mem_lookup_iff.mpr (List.mem_mergeSort.mp he)
    obtain ⟨slot, hslot, -⟩ := (h.recency _ _).mp hlookup
    exact ⟨slot, hslot⟩
  · rintro ⟨slot, hslot⟩
    refine ⟨⟨slot.tick, k⟩, List.mem_mergeSort.mpr ?_, rfl⟩
    exact AList.mem_lookup_iff.mp ((h.recency _ _).mpr ⟨slot, hslot, rfl⟩)

/-- The ticks ascend. -/
theorem order_ascends (h : s.Rep) : s.order.Pairwise fun a b => s.tickOf a < s.tickOf b := by
  have htick : ∀ e ∈ s.byTick, s.tickOf e.2 = e.1 := fun e he => by
    obtain ⟨slot, hslot, ht⟩ :=
      (h.recency _ _).mp (AList.mem_lookup_iff.mpr (List.mem_mergeSort.mp he))
    rw [tickOf_of_lookup hslot, ht]
  have hsorted : s.byTick.Pairwise fun a b => a.1 ≤ b.1 := by
    have hle : s.byTick.Pairwise fun a b => decide (a.1 ≤ b.1) = true := by
      refine List.pairwise_mergeSort (fun a b c hab hbc => ?_) (fun a b => ?_) _
      · exact decide_eq_true ((of_decide_eq_true hab).trans (of_decide_eq_true hbc))
      · simpa using le_total a.1 b.1
    exact hle.imp fun hab => of_decide_eq_true hab
  have hnodup : s.byTick.Pairwise fun a b => a.1 ≠ b.1 := by
    have hkeys : (s.byTick.map Sigma.fst).Nodup :=
      ((List.mergeSort_perm _ _).map Sigma.fst).nodup_iff.mpr s.recency.nodupKeys
    exact List.pairwise_map.mp hkeys
  refine List.pairwise_map.mpr ((hsorted.and hnodup).imp_of_mem fun ha hb hab => ?_)
  rw [htick _ ha, htick _ hb]
  exact lt_of_le_of_ne hab.1 hab.2

theorem nodup_order (h : s.Rep) : s.order.Nodup :=
  (order_ascends h).imp fun hab he => by
    rw [he] at hab
    exact lt_irrefl _ hab

/-- There is one list of the entries' keys whose ticks ascend. -/
theorem order_eq (h : s.Rep) {l : List K} (hl : l.Pairwise fun a b => s.tickOf a < s.tickOf b)
    (hmem : ∀ k, k ∈ l ↔ s.has k = true) : s.order = l := by
  have hnodup : l.Nodup := hl.imp fun hab he => by
    rw [he] at hab
    exact lt_irrefl _ hab
  have hperm : s.order.Perm l := (List.perm_ext_iff_of_nodup (nodup_order h) hnodup).mpr fun k =>
    (mem_order h).trans (hmem k).symm
  exact hperm.eq_of_pairwise (fun a b _ _ hab hba => absurd hba hab.asymm) (order_ascends h) hl

/-- Removal keeps the order of what is left. -/
theorem order_of_le (h : s.Rep) (h' : s'.Rep)
    (hle : ∀ k slot, s'.entries.lookup k = some slot → s.entries.lookup k = some slot) :
    s'.order = s.order.filter s'.has := by
  have htick : ∀ k, s'.has k = true → s'.tickOf k = s.tickOf k := fun k hk => by
    obtain ⟨slot, hslot⟩ := has_iff.mp hk
    rw [tickOf_of_lookup hslot, tickOf_of_lookup (hle k slot hslot)]
  refine order_eq h' (((order_ascends h).filter _).imp_of_mem fun ha hb hab => ?_) fun k => ?_
  · rwa [htick _ (List.mem_filter.mp ha).2, htick _ (List.mem_filter.mp hb).2]
  · rw [List.mem_filter, mem_order h, and_iff_right_iff_imp]
    intro hk
    obtain ⟨slot, hslot⟩ := has_iff.mp hk
    exact has_iff.mpr ⟨slot, hle k slot hslot⟩

theorem order_remove (h : s.Rep) (k : K) : (s.remove k).order = s.order.filter (· ≠ k) := by
  rw [order_of_le h (h.remove k) fun k' slot hk' => ?_]
  · refine List.filter_congr fun k' hk' => ?_
    rw [has, lookup_remove]
    split
    · next he => simp [he]
    · next hne =>
      rw [decide_eq_true hne]
      exact (mem_order h).mp hk'
  · rw [lookup_remove] at hk'
    split at hk'
    · cases hk'
    · exact hk'

theorem order_removeAll (h : s.Rep) (keys : List K) :
    (s.removeAll keys).order = s.order.filter (· ∉ keys) := by
  rw [order_of_le h (h.removeAll keys) fun k' slot hk' => (lookup_removeAll_some.mp hk').2]
  refine List.filter_congr fun k' hk' => ?_
  rw [has, lookup_removeAll]
  split
  · next he => simp [he]
  · next hne =>
    rw [decide_eq_true hne]
    exact (mem_order h).mp hk'

/-- A key whose tick is past all others' stands last. -/
theorem order_last (h : s.Rep) (h' : s'.Rep) {k : K} (hk : s'.has k = true)
    (hle : ∀ k' slot, k' ≠ k → s'.entries.lookup k' = some slot →
      s.entries.lookup k' = some slot ∧ slot.tick < s'.tickOf k) :
    s'.order = s.order.filter (fun k' => k' ≠ k && s'.has k') ++ [k] := by
  have hmem : ∀ k', k' ∈ s.order.filter (fun k' => k' ≠ k && s'.has k') ↔
      k' ≠ k ∧ s'.has k' = true := fun k' => by
    rw [List.mem_filter, mem_order h, Bool.and_eq_true, decide_eq_true_iff, and_iff_right_iff_imp]
    rintro ⟨hne, hk'⟩
    obtain ⟨slot, hslot⟩ := has_iff.mp hk'
    exact has_iff.mpr ⟨slot, (hle k' slot hne hslot).1⟩
  have htick : ∀ k', k' ≠ k → s'.has k' = true →
      s'.tickOf k' = s.tickOf k' ∧ s'.tickOf k' < s'.tickOf k := fun k' hne hk' => by
    obtain ⟨slot, hslot⟩ := has_iff.mp hk'
    obtain ⟨hold, hlt⟩ := hle k' slot hne hslot
    rw [tickOf_of_lookup hslot, tickOf_of_lookup hold]
    exact ⟨rfl, hlt⟩
  refine order_eq h' (List.pairwise_append.mpr ⟨?_, List.pairwise_singleton _ _, ?_⟩) fun k' => ?_
  · refine ((order_ascends h).filter _).imp_of_mem fun {a b} ha hb hab => ?_
    obtain ⟨hane, ha⟩ := (hmem a).mp ha
    obtain ⟨hbne, hb⟩ := (hmem b).mp hb
    rwa [(htick a hane ha).1, (htick b hbne hb).1]
  · intro a ha b hb
    obtain ⟨hane, ha⟩ := (hmem a).mp ha
    rw [List.mem_singleton.mp hb]
    exact (htick a hane ha).2
  · rw [List.mem_append, hmem, List.mem_singleton]
    by_cases he : k' = k
    · simp [he, hk]
    · simp [he]

/-! ### Eviction -/

theorem first_of_order (h : s.Rep) {k : K} {l : List K} (ho : s.order = k :: l) :
    ∃ lru, s.first = some lru ∧ lru.2 = k := by
  obtain ⟨slot, hslot⟩ := has_iff.mp ((mem_order h).mp (ho ▸ List.mem_cons_self))
  have hk := AList.mem_lookup_iff.mp ((h.recency _ _).mpr ⟨slot, hslot, rfl⟩)
  cases hf : s.first with
  | none =>
      rw [List.argmin_eq_none.mp hf] at hk
      cases hk
  | some lru =>
      refine ⟨lru, rfl, ?_⟩
      have hle : lru.1 ≤ slot.tick := List.le_of_mem_argmin hk hf
      obtain ⟨slot', hslot', htick⟩ :=
        (h.recency _ _).mp (AList.mem_lookup_iff.mpr (List.argmin_mem hf))
      have hmem : lru.2 ∈ k :: l := ho ▸ (mem_order h).mpr (has_iff.mpr ⟨slot', hslot'⟩)
      -- the keys behind the first one have greater ticks
      rcases List.mem_cons.mp hmem with he | hmem
      · exact he
      · have hasc := order_ascends h
        rw [ho, List.pairwise_cons] at hasc
        have hlt := hasc.1 _ hmem
        rw [tickOf_of_lookup hslot, tickOf_of_lookup hslot', htick] at hlt
        exact absurd hle (not_le.mpr hlt)

omit [DecidableEq K] in
theorem recency_nil_of_order (ho : s.order = []) : s.recency.keys = [] := by
  have hnil : s.byTick = [] := List.map_eq_nil_iff.mp ho
  have hperm : s.byTick.Perm s.recency.entries := List.mergeSort_perm _ _
  rw [hnil] at hperm
  rw [AList.keys, hperm.nil_eq.symm]
  rfl

/-- **What is evicted**: the shortest prefix of the order that leaves the store within its limits,
at any fuel that is enough. -/
theorem evict_prefix {n : ℕ} (capacity maxBytes : ℕ) (h : s.Rep) (hn : s.recency.keys.length ≤ n) :
    ∃ m, evict capacity maxBytes n s = s.removeAll (s.order.take m) ∧
      ∀ m' < m, ¬ (s.removeAll (s.order.take m')).Within capacity maxBytes := by
  have hstop : ∃ m, s = s.removeAll (s.order.take m) ∧
      ∀ m' < m, ¬ (s.removeAll (s.order.take m')).Within capacity maxBytes :=
    ⟨0, by rw [List.take_zero]; rfl, fun _ hm => absurd hm (Nat.not_lt_zero _)⟩
  induction n generalizing s with
  | zero => exact hstop
  | succ n ih =>
      rw [evict]
      split
      · next hpast =>
        cases ho : s.order with
        | nil =>
            have hw := within_of_recency_nil h (recency_nil_of_order ho) capacity maxBytes
            exact absurd hpast (not_or.mpr ⟨not_lt.mpr hw.1, not_lt.mpr hw.2⟩)
        | cons k l =>
            obtain ⟨lru, hf, rfl⟩ := first_of_order h ho
            obtain ⟨hsame, hless⟩ := remove_first h hf
            simp only [hf, hsame]
            have hrest : (s.remove lru.2).order = l := by
              have hnodup := nodup_order h
              rw [ho, List.nodup_cons] at hnodup
              rw [order_remove h, ho, List.filter_cons_of_neg (by simp), List.filter_eq_self]
              exact fun k' hk' => decide_eq_true fun he => hnodup.1 (he ▸ hk')
            obtain ⟨m, hm, hshort⟩ := ih (h.remove lru.2) (by omega)
              ⟨0, by rw [List.take_zero]; rfl, fun _ hm => absurd hm (Nat.not_lt_zero _)⟩
            refine ⟨m + 1, ?_, fun m' hm' => ?_⟩
            · rw [hm, hrest]
              rfl
            · cases m' with
              | zero =>
                  intro hw
                  exact absurd hpast (not_or.mpr ⟨not_lt.mpr hw.1, not_lt.mpr hw.2⟩)
              | succ m' =>
                  have := hshort m' (by omega)
                  rwa [hrest] at this
      · exact hstop

/-! ### Limits -/

/-- Entries of these sizes are within the limits. -/
def Fits (sizes : List ℕ) (capacity maxBytes : ℕ) : Prop :=
  sizes.length ≤ capacity ∧ sizes.sum ≤ maxBytes

theorem order_perm_keys (h : s.Rep) : s.order.Perm s.entries.keys := by
  refine (List.perm_ext_iff_of_nodup (nodup_order h) (AList.keys_nodup _)).mpr fun k => ?_
  rw [mem_order h, has_iff, Map.mem_keys_iff]

theorem within_iff_fits (h : s.Rep) {capacity maxBytes : ℕ} :
    s.Within capacity maxBytes ↔ Fits (s.order.map s.size) capacity maxBytes := by
  have hsizes : s.entries.keys.map s.size = s.entries.entries.map fun e => e.2.bytes := by
    rw [AList.keys, List.keys, List.map_map]
    refine List.map_congr_left fun e he => ?_
    rw [Function.comp_apply, size, AList.mem_lookup_iff.mpr he]
    rfl
  rw [Within, Fits, List.length_map, (order_perm_keys h).length_eq, h.bytes, Map.total, ← hsizes,
    ((order_perm_keys h).map s.size).sum_nat]

theorem size_removeAll {keys : List K} {k : K} (hk : k ∉ keys) :
    (s.removeAll keys).size k = s.size k := by
  rw [size, lookup_removeAll, if_neg hk]
  rfl

/-- What is behind a prefix of the order that goes. -/
theorem order_removeAll_take (h : s.Rep) (m : ℕ) :
    (s.removeAll (s.order.take m)).order = s.order.drop m := by
  have hnodup := nodup_order h
  rw [order_removeAll h]
  conv_lhs => rw [← List.take_append_drop m s.order]
  rw [List.filter_append, List.take_append_drop, List.filter_eq_nil_iff.mpr, List.nil_append,
    List.filter_eq_self]
  · intro k hk
    refine decide_eq_true fun hk' => ?_
    rw [← List.take_append_drop m s.order, List.nodup_append] at hnodup
    exact hnodup.2.2 k hk' k hk rfl
  · intro k hk
    simp [hk]

theorem within_removeAll_take (h : s.Rep) (m : ℕ) {capacity maxBytes : ℕ} :
    (s.removeAll (s.order.take m)).Within capacity maxBytes ↔
      Fits ((s.order.drop m).map s.size) capacity maxBytes := by
  have hnodup := nodup_order h
  rw [within_iff_fits (h.removeAll _), order_removeAll_take h]
  refine iff_of_eq (congrArg (Fits · capacity maxBytes) (List.map_congr_left fun k hk => ?_))
  refine size_removeAll fun hk' => ?_
  rw [← List.take_append_drop m s.order, List.nodup_append] at hnodup
  exact hnodup.2.2 k hk' k hk rfl

theorem Fits.drop {sizes : List ℕ} {capacity maxBytes : ℕ} (h : Fits sizes capacity maxBytes)
    (m : ℕ) : Fits (sizes.drop m) capacity maxBytes := by
  refine ⟨(List.drop_sublist m sizes).length_le.trans h.1, le_trans ?_ h.2⟩
  conv_rhs => rw [← List.take_append_drop m sizes, List.sum_append]
  exact Nat.le_add_left ..

/-! ### An insert -/

/-- The keys that a write of `k` finds: without `k`, and without the expired among the least
recently used. -/
def survivors (s : Store K V) (k : K) (now : ℕ) : List K :=
  let left := s.order.filter (· ≠ k)
  left.filter (· ∉ (left.take SWEEP).filter (s.dead now))

/-- `s'` is `s` with `k` last, and without the first `n` keys that a write of `k` finds: the
fewest that leave room for an entry of this size. -/
structure Written (s s' : Store K V) (k : K) (bytes now capacity maxBytes n : ℕ) : Prop where
  order : s'.order = (s.survivors k now).drop n ++ [k]
  keeps : ∀ k' ∈ (s.survivors k now).drop n, s'.entries.lookup k' = s.entries.lookup k'
  shortest : ∀ m ≤ (s.survivors k now).length,
    Fits (((s.survivors k now).drop m).map s.size ++ [bytes]) capacity maxBytes ↔ n ≤ m

section
variable {k : K} {value : V} {expiresNs userKey : _} {tags : List String}
  {bytes now capacity maxBytes : ℕ}

/-- The store that the eviction of an insert starts from. -/
def pushed (s : Store K V) (k : K) (value : V) (expiresNs : Option ℕ) (tags : List String)
    (userKey : Option String) (bytes now : ℕ) : Store K V :=
  ((s.remove k).sweep now).push k value expiresNs tags userKey bytes

theorem lookup_swept (k k' : K) (now : ℕ) : ((s.remove k).sweep now).entries.lookup k' =
    if k' = k ∨ k' ∈ (((s.remove k).order.take SWEEP).filter ((s.remove k).dead now)) then none
    else s.entries.lookup k' := by
  rw [sweep, ← order, lookup_removeAll, lookup_remove]
  split
  · next hmem => rw [if_pos (.inr hmem)]
  · next hmem => exact if_congr (by simp [hmem]) rfl rfl

theorem order_swept (h : s.Rep) (k : K) (now : ℕ) :
    ((s.remove k).sweep now).order = s.survivors k now := by
  rw [sweep, ← order, order_removeAll (h.remove k), order_remove h, survivors]
  refine List.filter_congr fun k' _ => ?_
  have hdead : (((s.order.filter (· ≠ k)).take SWEEP).filter ((s.remove k).dead now)) =
      ((s.order.filter (· ≠ k)).take SWEEP).filter (s.dead now) := by
    refine List.filter_congr fun a ha => ?_
    have hne := of_decide_eq_true (List.mem_filter.mp (List.mem_of_mem_take ha)).2
    rw [dead, dead, lookup_remove, if_neg hne]
  rw [hdead]

theorem pushed_rep (h : s.Rep) : (s.pushed k value expiresNs tags userKey bytes now).Rep := by
  refine Rep.push ((h.remove k).removeAll _) ?_ ..
  exact (lookup_swept k k now).trans (if_pos (.inl rfl))

theorem order_pushed (h : s.Rep) : (s.pushed k value expiresNs tags userKey bytes now).order =
    s.survivors k now ++ [k] := by
  have hswept : ((s.remove k).sweep now).Rep := (h.remove k).removeAll _
  have hnone : ((s.remove k).sweep now).entries.lookup k = none :=
    (lookup_swept k k now).trans (if_pos (.inl rfl))
  have hlookup : ∀ k', k' ≠ k → (s.pushed k value expiresNs tags userKey bytes now).entries.lookup
      k' = ((s.remove k).sweep now).entries.lookup k' := fun k' hne =>
    (Map.lookup_insert_if ..).trans (if_neg hne)
  have hself : (s.pushed k value expiresNs tags userKey bytes now).entries.lookup k =
      some ⟨value, expiresNs, tags, userKey, ((s.remove k).sweep now).nextTick, bytes⟩ :=
    AList.lookup_insert ..
  rw [order_last hswept (pushed_rep h) (has_iff.mpr ⟨_, hself⟩) fun k' slot hne hk' => ?_]
  · rw [← order_swept h, List.filter_eq_self.mpr]
    intro k' hk'
    have hhas := (mem_order hswept).mp hk'
    have hne : k' ≠ k := by
      rintro rfl
      rw [has, hnone] at hhas
      cases hhas
    rw [has, hlookup k' hne, Bool.and_eq_true]
    exact ⟨decide_eq_true hne, hhas⟩
  · rw [hlookup k' hne] at hk'
    rw [tickOf_of_lookup hself]
    exact ⟨hk', hswept.ticks hk'⟩

theorem lookup_pushed_survivor (h : s.Rep) {k' : K} (hk' : k' ∈ s.survivors k now) :
    (s.pushed k value expiresNs tags userKey bytes now).entries.lookup k' =
      s.entries.lookup k' := by
  have hne : k' ≠ k := of_decide_eq_true (List.mem_filter.mp (List.mem_filter.mp hk').1).2
  have hhas := (mem_order ((h.remove k).removeAll _)).mp (order_swept h k now ▸ hk')
  refine (Map.lookup_insert_if ..).trans ((if_neg hne).trans ?_)
  have := lookup_swept (s := s) k k' now
  split at this
  · exact absurd (this ▸ hhas : (none : Option (Slot V)).isSome = true) Bool.false_ne_true
  · exact this

/-- **An insert**, when the limits allow one entry of its size. -/
theorem insert_lru (h : s.Rep) (hc : 1 ≤ capacity) (hb : bytes ≤ maxBytes) :
    ∃ n ≤ (s.survivors k now).length,
      s.Written (s.insert k value expiresNs tags userKey bytes now capacity maxBytes) k bytes now
        capacity maxBytes n := by
  let p := s.pushed k value expiresNs tags userKey bytes now
  have hp : p.Rep := pushed_rep h
  have horder : p.order = s.survivors k now ++ [k] := order_pushed h
  have hself : p.size k = bytes := by
    rw [size, show p.entries.lookup k = some _ from AList.lookup_insert ..]
    rfl
  have hsizes : ∀ m ≤ (s.survivors k now).length, (p.order.drop m).map p.size =
      ((s.survivors k now).drop m).map s.size ++ [bytes] := fun m hm => by
    rw [horder, List.drop_append_of_le_length hm, List.map_append, List.map_singleton, hself]
    refine congrArg (· ++ [bytes]) (List.map_congr_left fun k' hk' => ?_)
    rw [size, size, lookup_pushed_survivor h (List.mem_of_mem_drop hk')]
  obtain ⟨n, hn, hshort⟩ := evict_prefix capacity maxBytes hp le_rfl
  have hinsert : s.insert k value expiresNs tags userKey bytes now capacity maxBytes =
      p.removeAll (p.order.take n) := hn
  -- the entry itself is within the limits, so the prefix ends before it
  have hle : n ≤ (s.survivors k now).length := by
    by_contra hlt
    refine hshort _ (not_le.mp hlt) ((within_removeAll_take hp _).mpr ?_)
    rw [hsizes _ le_rfl, List.drop_length, List.map_nil, List.nil_append]
    exact ⟨hc, by rwa [List.sum_singleton]⟩
  have hfits : Fits ((p.order.drop n).map p.size) capacity maxBytes := by
    rw [← within_removeAll_take hp, ← hinsert]
    exact (insert_spec h ..).2
  refine ⟨n, hle, ?_, fun k' hk' => ?_, fun m hm => ?_⟩
  · rw [hinsert, order_removeAll_take hp, horder, List.drop_append_of_le_length hle]
  · have hdrop : k' ∈ (p.removeAll (p.order.take n)).order := by
      rw [order_removeAll_take hp, horder, List.drop_append_of_le_length hle]
      exact List.mem_append_left _ hk'
    rw [order_removeAll hp, List.mem_filter] at hdrop
    rw [hinsert, lookup_removeAll, if_neg (of_decide_eq_true hdrop.2)]
    exact lookup_pushed_survivor h (List.mem_of_mem_drop hk')
  · rw [← hsizes m hm]
    constructor
    · intro hm
      by_contra hlt
      exact hshort m (not_le.mp hlt) ((within_removeAll_take hp m).mpr hm)
    · intro hnm
      have hdrop : (p.order.drop m).map p.size = ((p.order.drop n).map p.size).drop (m - n) := by
        rw [← List.map_drop, List.drop_drop]
        congr 2
        omega
      rw [hdrop]
      exact hfits.drop _

/-- Any fuel that is enough gives the same store. -/
theorem evict_fuel (h : s.Rep) {n n' : ℕ} (hn : s.recency.keys.length ≤ n)
    (hn' : s.recency.keys.length ≤ n') :
    evict capacity maxBytes n s = evict capacity maxBytes n' s := by
  obtain ⟨m, hm, hshort⟩ := evict_prefix capacity maxBytes h hn
  obtain ⟨m', hm', hshort'⟩ := evict_prefix capacity maxBytes h hn'
  have hw := (evict_spec capacity maxBytes h hn).2
  have hw' := (evict_spec capacity maxBytes h hn').2
  rw [hm] at hw
  rw [hm'] at hw'
  have : m = m' := le_antisymm (not_lt.mp fun hlt => hshort m' hlt hw')
    (not_lt.mp fun hlt => hshort' m hlt hw)
  rw [hm, hm', this]

/-- What an insert does: its value is there, the fewest of the least recently used went for it, and
the loop that evicts them ends. -/
structure Inserts (s s' : Store K V) (k : K) (value : V) (expiresNs : Option ℕ)
    (tags : List String) (userKey : Option String) (bytes now capacity maxBytes : ℕ) : Prop where
  present : ∃ slot, s'.entries.lookup k = some slot ∧ slot.value = value ∧
    slot.expiresNs = expiresNs
  written : ∃ n ≤ (s.survivors k now).length, s.Written s' k bytes now capacity maxBytes n
  within : s'.Within capacity maxBytes
  ends : ∀ fuel, (s.pushed k value expiresNs tags userKey bytes now).recency.keys.length ≤ fuel →
    (s.pushed k value expiresNs tags userKey bytes now).evict capacity maxBytes fuel = s'

theorem inserts_insert (h : s.Rep) (hc : 1 ≤ capacity) (hb : bytes ≤ maxBytes) :
    s.Inserts (s.insert k value expiresNs tags userKey bytes now capacity maxBytes) k
      value expiresNs
      tags userKey bytes now capacity maxBytes where
  present := lookup_insert_self h hc hb
  written := insert_lru h hc hb
  within := (insert_spec h ..).2
  ends _ hfuel := evict_fuel (pushed_rep h) hfuel le_rfl

end

/-! ### Uses -/

/-- The entries stand in the order of the last uses of their keys. -/
def UsedAs (s : Store K V) (uses : List K) : Prop := s.order = uses.dedup.filter s.has

theorem dedup_concat (uses : List K) (k : K) :
    (uses ++ [k]).dedup = uses.dedup.filter (· ≠ k) ++ [k] := by
  induction uses with
  | nil => rfl
  | cons a uses ih =>
      rw [List.cons_append]
      by_cases ha : a ∈ uses
      · rw [List.dedup_cons_of_mem (List.mem_append_left _ ha), ih, List.dedup_cons_of_mem ha]
      · rw [List.dedup_cons_of_notMem ha]
        by_cases hk : a = k
        · rw [List.dedup_cons_of_mem (by simp [hk]), ih, List.filter_cons_of_neg (by simp [hk])]
        · rw [List.dedup_cons_of_notMem (by simp [ha, hk]), ih, List.filter_cons_of_pos
            (by simp [hk])]
          rfl

variable {uses : List K}

/-- A removal is no use. -/
theorem UsedAs.drops (hu : s.UsedAs uses) (h : s.Rep) (h' : s'.Rep)
    (hle : ∀ k slot, s'.entries.lookup k = some slot → s.entries.lookup k = some slot) :
    s'.UsedAs uses := by
  rw [UsedAs, order_of_le h h' hle, hu, List.filter_filter]
  refine List.filter_congr fun k _ => ?_
  cases hk : s'.has k with
  | false => rfl
  | true =>
      obtain ⟨slot, hslot⟩ := has_iff.mp hk
      rw [Bool.true_and]
      exact has_iff.mpr ⟨slot, hle k slot hslot⟩

theorem UsedAs.use (hu : s.UsedAs uses) (h : s.Rep) (h' : s'.Rep) {k : K} (hk : s'.has k = true)
    (hle : ∀ k' slot, k' ≠ k → s'.entries.lookup k' = some slot →
      s.entries.lookup k' = some slot ∧ slot.tick < s'.tickOf k) : s'.UsedAs (uses ++ [k]) := by
  rw [UsedAs, order_last h h' hk hle, hu, dedup_concat, List.filter_append, List.filter_filter,
    List.filter_filter, List.filter_cons_of_pos hk, List.filter_nil]
  refine congrArg (· ++ [k]) (List.filter_congr fun k' _ => ?_)
  by_cases he : k' = k
  · simp [he]
  · cases hk' : s'.has k' with
    | false => simp
    | true =>
        obtain ⟨slot, hslot⟩ := has_iff.mp hk'
        simp [he, has_iff.mpr ⟨slot, (hle k' slot he hslot).1⟩]

theorem UsedAs.insert (hu : s.UsedAs uses) (h : s.Rep) {k : K} {value : V} {expiresNs userKey : _}
    {tags : List String} {bytes now capacity maxBytes : ℕ} (hc : 1 ≤ capacity)
    (hb : bytes ≤ maxBytes) :
    (s.insert k value expiresNs tags userKey bytes now capacity maxBytes).UsedAs (uses ++ [k]) := by
  obtain ⟨n, hn, hw⟩ : ∃ n ≤ (s.survivors k now).length,
      s.Written (s.insert k value expiresNs tags userKey bytes now capacity maxBytes) k bytes now
        capacity maxBytes n := insert_lru h hc hb
  have h' := (insert_spec h k value expiresNs tags userKey bytes now capacity maxBytes).1
  generalize s.insert k value expiresNs tags userKey bytes now capacity maxBytes = s' at hw h' ⊢
  have hasc := order_ascends h'
  rw [hw.order, List.pairwise_append] at hasc
  refine hu.use h h' ?_ fun k' slot hne hk' => ?_
  · rw [← mem_order h', hw.order]
    exact List.mem_append_right _ (List.mem_singleton_self k)
  · have hmem := (mem_order h').mpr (has_iff.mpr ⟨slot, hk'⟩)
    rw [hw.order, List.mem_append, List.mem_singleton] at hmem
    have hmem := hmem.resolve_right hne
    refine ⟨hw.keeps k' hmem ▸ hk', ?_⟩
    rw [← tickOf_of_lookup hk']
    exact hasc.2.2 k' hmem k (List.mem_singleton_self k)

/-- A read that finds a live entry uses its key. -/
theorem UsedAs.get (hu : s.UsedAs uses) (h : s.Rep) (k : K) (now : ℕ) :
    (s.get k now).1.UsedAs (uses ++ if (s.get k now).2.isSome then [k] else []) := by
  cases hk : s.entries.lookup k with
  | none =>
      simp only [Store.get, hk]
      rwa [Option.isSome_none, if_neg Bool.false_ne_true, List.append_nil]
  | some slot =>
      cases hlive : slot.live now with
      | true =>
          rw [get_of_live h hk hlive, Option.isSome_some, if_pos rfl]
          refine hu.use h (h.touch hk) (has_iff.mpr ⟨_, AList.lookup_insert ..⟩)
            fun k' slot' hne hk' => ?_
          have hk' := (Map.lookup_insert_if ..).symm.trans hk'
          rw [if_neg hne] at hk'
          refine ⟨hk', ?_⟩
          rw [tickOf_of_lookup (AList.lookup_insert ..)]
          exact h.ticks hk'
      | false =>
          simp only [Store.get, hk, hlive, Bool.false_eq_true, if_false, Option.isSome_none,
            List.append_nil]
          refine hu.drops h (h.remove k) fun k' slot' hk' => ?_
          rw [lookup_remove] at hk'
          split at hk'
          · cases hk'
          · exact hk'

theorem Drops.le {p : K → Slot V → Bool} (h : s.Drops s' p) (k : K) (slot : Slot V)
    (hk : s'.entries.lookup k = some slot) : s.entries.lookup k = some slot := by
  rw [h] at hk
  exact (Option.filter_eq_some_iff.mp hk).1

theorem remove_le (k k' : K) (slot : Slot V) (hk : (s.remove k).entries.lookup k' = some slot) :
    s.entries.lookup k' = some slot := by
  rw [lookup_remove] at hk
  split at hk
  · cases hk
  · exact hk

end Store

/-! ### The stores of an isolate -/

namespace Isolate

variable {B V : Type} (cfg : Config B)

/-- The page whose entry a call uses. -/
def pageUse (s : Isolate B V) : Op B V → List CacheKey
  | .insertPage a _ =>
    if s.l1.invalidatedSince cfg.pages a.key a.tags a.since = false ∧
      cfg.htmlLen a.body ≤ s.l1.maxBytes then [a.key] else []
  | .getPage key now => if (s.l1.get key now).2.isSome then [key] else []
  | _ => []

/-- The job whose entry a call uses. -/
def jobUse (s : Isolate B V) : Op B V → List JobKey
  | .insertJob a _ =>
      if s.jobs.invalidatedSince cfg.jobs a.tags a.userKey a.since = false then [a.key] else []
  | .getJob k now => if (s.jobs.get k now).2.isSome then [k] else []
  | _ => []

/-- The keys that the calls of a run use, in order. -/
def uses {K : Type} (use : Isolate B V → Op B V → List K) : Isolate B V → List (Op B V) → List K
  | _, [] => []
  | s, op :: ops => use s op ++ uses use (s.step cfg op) ops

variable {cfg} {s : Isolate B V}

theorem used_pages {us : List CacheKey} (hs : s.Inv cfg) (hu : s.l1.store.UsedAs us) (op : Op B V) :
    (s.step cfg op).l1.store.UsedAs (us ++ pageUse cfg s op) := by
  cases op with
  | insertPage a now =>
      cases hr : s.l1.invalidatedSince cfg.pages a.key a.tags a.since with
      | true => simpa only [step, LocalL1.insert, pageUse, hr, if_true, reduceCtorEq, false_and,
          if_false, List.append_nil] using hu
      | false =>
          by_cases hb : cfg.htmlLen a.body > s.l1.maxBytes
          · simp only [step, LocalL1.insert, pageUse, hr, hb, Bool.false_eq_true, if_false, if_true,
              not_le.mpr hb, and_false, List.append_nil]
            exact hu.drops hs.pages_rep (hs.pages_rep.remove _) fun _ _ => Store.remove_le _ _ _
          · simp only [step, LocalL1.insert, pageUse, hr, hb, Bool.false_eq_true, if_false, if_true,
              not_lt.mp hb, and_self]
            exact hu.insert hs.pages_rep (hs.pages_limits.1 ▸ le_max_right ..) (not_lt.mp hb)
  | getPage key now => exact hu.get hs.pages_rep key now
  | insertJob a now | getJob k now | invalidateKey k =>
      rw [pageUse, List.append_nil]
      · exact hu
      all_goals simp
  | invalidate i now =>
      rw [pageUse, List.append_nil]
      · cases i with
        | job i => exact hu
        | page i =>
            have hrem := (s.l1.invalidate_spec (h := cfg.pages) hs.pages_rep (s.clock + 1) now i).1
            exact hu.drops hs.pages_rep (hrem.rep hs.pages_rep) hrem.drops.le
      all_goals simp
  | stats now =>
      rw [pageUse, List.append_nil]
      · exact hu.drops hs.pages_rep (hs.pages_rep.removeAll _) (Store.drops_reap _ now).le
      all_goals simp

theorem used_jobs {us : List JobKey} (hs : s.Inv cfg) (hu : s.jobs.store.UsedAs us) (op : Op B V) :
    (s.step cfg op).jobs.store.UsedAs (us ++ jobUse cfg s op) := by
  cases op with
  | insertJob a now =>
      cases hr : s.jobs.invalidatedSince cfg.jobs a.tags a.userKey a.since with
      | true => simpa only [step, LocalJobs.insert, jobUse, hr, if_true, reduceCtorEq, if_false,
          List.append_nil] using hu
      | false =>
          simp only [step, LocalJobs.insert, jobUse, hr, Bool.false_eq_true, if_false, if_true]
          exact hu.insert hs.jobs_rep (hs.jobs_limits ▸ le_max_right ..) (Nat.zero_le _)
  | getJob k now => exact hu.get hs.jobs_rep k now
  | insertPage a now | getPage key now =>
      rw [jobUse, List.append_nil]
      · exact hu
      all_goals simp
  | invalidateKey k =>
      rw [jobUse, List.append_nil]
      · exact hu.drops hs.jobs_rep (hs.jobs_rep.remove k) fun _ _ => Store.remove_le _ _ _
      all_goals simp
  | invalidate i now =>
      rw [jobUse, List.append_nil]
      · cases i with
        | page i => exact hu
        | job i =>
            have hrem := s.jobs.invalidate_spec (h := cfg.jobs) hs.jobs_rep (s.clock + 1) i
            exact hu.drops hs.jobs_rep (hrem.rep hs.jobs_rep) hrem.drops.le
      all_goals simp
  | stats now =>
      rw [jobUse, List.append_nil]
      · exact hu.drops hs.jobs_rep (hs.jobs_rep.removeAll _) (Store.drops_reap _ now).le
      all_goals simp

theorem usedAs_new {K : Type} [DecidableEq K] : (Store.new : Store K V).UsedAs [] := by
  simp [Store.UsedAs, Store.order, Store.byTick, Store.new]

/-- In every state of a run the entries stand in the order of their last uses. -/
theorem used_run (ops : List (Op B V)) {ps : List CacheKey} {js : List JobKey} (hs : s.Inv cfg)
    (hp : s.l1.store.UsedAs ps) (hj : s.jobs.store.UsedAs js) :
    (ops.foldl (step cfg) s).l1.store.UsedAs (ps ++ uses cfg (pageUse cfg) s ops) ∧
      (ops.foldl (step cfg) s).jobs.store.UsedAs (js ++ uses cfg (jobUse cfg) s ops) := by
  induction ops generalizing s ps js with
  | nil =>
      rw [uses, uses, List.append_nil, List.append_nil]
      exact ⟨hp, hj⟩
  | cons op ops ih =>
      rw [uses, uses, ← List.append_assoc, ← List.append_assoc]
      exact ih (hs.step op) (used_pages hs hp op) (used_jobs hs hj op)

/-- **What an insert evicts.**  In every state of every run, in either store: the entries stand in
the order of the last inserts and reads of their keys; and after an insert the entry is there, its
key is last, and of the others the expired among the eight least recently used went, and then the
shortest prefix that leaves room. -/
theorem inserts_evict_prefix (cfg : Config B) (ops : List (Op B V)) :
    let s := run cfg ops
    (s.l1.store.UsedAs (uses cfg (pageUse cfg) (new cfg) ops) ∧
      s.jobs.store.UsedAs (uses cfg (jobUse cfg) (new cfg) ops)) ∧
    (∀ a now, s.l1.invalidatedSince cfg.pages a.key a.tags a.since = false →
      cfg.htmlLen a.body ≤ cfg.maxBytes →
      s.l1.store.Inserts (s.step cfg (.insertPage a now)).l1.store a.key a.body (deadline now a.ttl)
        a.tags none (cfg.htmlLen a.body) now (max cfg.l1Capacity 1) cfg.maxBytes) ∧
    ∀ a now, s.jobs.invalidatedSince cfg.jobs a.tags a.userKey a.since = false →
      s.jobs.store.Inserts (s.step cfg (.insertJob a now)).jobs.store a.key a.value
        (a.ttl.bind (deadline now)) a.tags a.userKey 0 now (max cfg.jobCapacity 1) USIZE_MAX := by
  intro s
  have hs : s.Inv cfg := inv_run cfg ops
  refine ⟨used_run ops inv_new usedAs_new usedAs_new, fun a now hr hb => ?_,
    fun a now hr => ?_⟩
  · rw [← hs.pages_limits.2] at hb
    simp only [step, LocalL1.insert, hr, not_lt.mpr hb, Bool.false_eq_true, if_false]
    rw [← hs.pages_limits.1, ← hs.pages_limits.2]
    exact Store.inserts_insert hs.pages_rep (hs.pages_limits.1 ▸ le_max_right ..) hb
  · simp only [step, LocalJobs.insert, hr, Bool.false_eq_true, if_false]
    rw [← hs.jobs_limits]
    exact Store.inserts_insert hs.jobs_rep (hs.jobs_limits ▸ le_max_right ..) (Nat.zero_le _)

/-- A page that stays, one that expires after 1 ns, and a third, in a store with room for all. -/
def roomy : Config ℕ := ⟨.zero, fun _ => 0, fun _ => 1, 3, 10, 2⟩

def lasting (path : String) : PageInsert ℕ := ⟨⟨"", "GET", path, ""⟩, 0, 100, [], 0⟩

/-- An expired entry goes, though one used before it stays. -/
theorem insert_takes_no_prefix : ¬ ∀ (cfg : Config ℕ) (ops : List (Op ℕ ℕ)) (a : PageInsert ℕ)
    (now : ℕ), let s := run cfg ops
    let others := s.l1.store.order.filter (· ≠ a.key)
    s.l1.invalidatedSince cfg.pages a.key a.tags a.since = false →
      cfg.htmlLen a.body ≤ cfg.maxBytes →
      ∃ n, others.filter (fun k => !(s.step cfg (.insertPage a now)).l1.store.has k) =
        others.take n := by
  intro hall
  let ops : List (Op ℕ ℕ) := [.insertPage (lasting "/a") 0, .insertPage brief 0]
  have hs : (run roomy ops).Inv roomy := inv_run roomy ops
  obtain ⟨n, hn⟩ := hall roomy ops (lasting "/b") 5 (by decide +kernel) (by decide)
  have horder : (run roomy ops).l1.store.order = [(lasting "/a").key, brief.key] := by
    have hnew : (new roomy : Isolate ℕ ℕ).Inv roomy := inv_new
    have hu := (used_run ops hnew usedAs_new usedAs_new).1
    exact hu.trans (by decide +kernel)
  have hleft : (run roomy ops).l1.store.survivors (lasting "/b").key 5 = [(lasting "/a").key] := by
    rw [Store.survivors, horder]
    decide +kernel
  -- there is room for the three of them, so nothing is evicted
  obtain ⟨m, -, hw⟩ : ∃ m ≤ ((run roomy ops).l1.store.survivors (lasting "/b").key 5).length,
      (run roomy ops).l1.store.Written ((run roomy ops).l1.store.insert (lasting "/b").key
        (lasting "/b").body (deadline 5 (lasting "/b").ttl) (lasting "/b").tags none 1 5 3 10)
        (lasting "/b").key 1 5 3 10 m :=
    Store.insert_lru hs.pages_rep (by decide) (by decide)
  have hm : m ≤ 0 := (hw.shortest 0 (Nat.zero_le _)).mp (by
    rw [hleft, Store.Fits, List.length_append, List.length_map]
    decide +kernel)
  obtain rfl := Nat.le_zero.mp hm
  have hafter := hw.order
  rw [hleft] at hafter
  have hrep := (Store.insert_spec hs.pages_rep (lasting "/b").key (lasting "/b").body
    (deadline 5 (lasting "/b").ttl) (lasting "/b").tags none 1 5 3 10).1
  have hbrief : ((run roomy ops).step roomy (.insertPage (lasting "/b") 5)).l1.store.has brief.key =
      false := by
    rw [Bool.eq_false_iff]
    intro hhas
    have := (Store.mem_order hrep).mpr hhas
    rw [hafter] at this
    exact absurd this (by decide)
  have ha : ((run roomy ops).step roomy (.insertPage (lasting "/b") 5)).l1.store.has
      (lasting "/a").key = true := by
    refine (Store.mem_order hrep).mp ?_
    rw [hafter]
    decide
  rw [horder] at hn
  simp only [show [(lasting "/a").key, brief.key].filter (· ≠ (lasting "/b").key) =
    [(lasting "/a").key, brief.key] by decide] at hn
  rw [List.filter_cons_of_neg (by rw [ha]; decide), List.filter_cons_of_pos (by rw [hbrief]; rfl),
    List.filter_nil] at hn
  rcases n with _ | _ | n
  · exact absurd hn (by decide)
  · exact absurd hn (by decide)
  · exact absurd (congrArg List.length hn) (by simp)

end Isolate

end Brust.Core.Local
