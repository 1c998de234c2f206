import Brust.Core.Local.Store

/-!
# Core — what the local store's operations remove and keep

Every bulk removal takes out the entries a test selects, and its count is a count of those
(`takeTags_spec`, `takeUser_spec`, `takeTaggedWhere_spec`, `removeWhere_spec`).  After an insert the
store holds what it held before under other keys, or part of it (`lookup_insert_some`), and the
inserted value, when the limits allow one entry of its size (`lookup_insert_self`).
-/

namespace Brust.Core.Local

variable {K V : Type} [DecidableEq K]

namespace Store

variable {s : Store K V}

/-! ### What a removal selects -/

/-- The keys of the entries a test selects. -/
def selected (s : Store K V) (p : K → Slot V → Bool) : List K :=
  s.entries.keys.filter fun k => (s.entries.lookup k).any (p k)

/-- The entries without those a test selects. -/
def Drops (s s' : Store K V) (p : K → Slot V → Bool) : Prop :=
  ∀ k, s'.entries.lookup k = (s.entries.lookup k).filter fun slot => !p k slot

theorem mem_selected {p : K → Slot V → Bool} {k : K} :
    k ∈ s.selected p ↔ (s.entries.lookup k).any (p k) = true := by
  rw [selected, List.mem_filter, Map.mem_keys_iff, and_iff_right_iff_imp]
  cases s.entries.lookup k with
  | none => simp
  | some slot => simp

theorem nodup_selected (s : Store K V) (p : K → Slot V → Bool) : (s.selected p).Nodup :=
  s.entries.keys_nodup.filter _

theorem drops_removeAll {p : K → Slot V → Bool} {keys : List K}
    (h : ∀ k, k ∈ keys ↔ (s.entries.lookup k).any (p k) = true) : s.Drops (s.removeAll keys) p := by
  intro k
  rw [lookup_removeAll]
  cases hk : s.entries.lookup k with
  | none => simp
  | some slot =>
      have hmem : k ∈ keys ↔ p k slot = true := by rw [h, hk, Option.any_some]
      rw [Option.filter_some]
      cases hp : p k slot with
      | true => rw [if_pos (hmem.mpr hp)]; rfl
      | false => rw [if_neg fun hm => by rw [hmem.mp hm] at hp; cases hp]; rfl

theorem length_eq_selected {p : K → Slot V → Bool} {keys : List K} (hnodup : keys.Nodup)
    (h : ∀ k, k ∈ keys ↔ (s.entries.lookup k).any (p k) = true) :
    keys.length = (s.selected p).length :=
  ((List.perm_ext_iff_of_nodup hnodup (s.nodup_selected p)).mpr
    fun k => (h k).trans mem_selected.symm).length_eq

/-- Whether an entry has one of the tags. -/
def tagged (names : List String) (_ : K) (slot : Slot V) : Bool :=
  names.any fun n => slot.tags.contains n

omit [DecidableEq K] in
theorem any_tagged_iff {names : List String} {k : K} {o : Option (Slot V)} :
    o.any (tagged names k) = true ↔ ∃ n ∈ names, ∃ slot, o = some slot ∧ n ∈ slot.tags := by
  cases o with
  | none => simp
  | some slot => simp [tagged]

theorem takeTags_spec (h : s.Rep) (names : List String) :
    s.Drops (s.takeIndexed false names).1 (tagged names) ∧
      (s.takeIndexed false names).2 = (s.selected (tagged names)).length := by
  have hkeys : ∀ k, k ∈ (takeNames s.tags names).2.keys ↔
      (s.entries.lookup k).any (tagged names k) = true := by
    intro k
    rw [← AList.mem_keys, (takeNames_spec names).2.2, any_tagged_iff]
    simp only [h.tags, List.not_mem_nil, not_false_eq_true, true_and]
  exact ⟨drops_removeAll (s := { s with tags := (takeNames s.tags names).1 }) hkeys,
    length_eq_selected (AList.keys_nodup _) hkeys⟩

theorem takeUser_spec (h : s.Rep) (name : String) :
    s.Drops (s.takeIndexed true [name]).1 (fun _ slot => slot.userKey == some name) ∧
      (s.takeIndexed true [name]).2 =
        (s.selected fun _ slot => slot.userKey == some name).length := by
  have hkeys : ∀ k, k ∈ (takeNames s.users [name]).2.keys ↔
      (s.entries.lookup k).any (fun slot => slot.userKey == some name) = true := by
    intro k
    rw [← AList.mem_keys, (takeNames_spec [name]).2.2]
    simp only [h.users, List.not_mem_nil, not_false_eq_true, true_and, List.mem_singleton,
      exists_eq_left]
    cases s.entries.lookup k with
    | none => simp
    | some slot => simp
  exact ⟨drops_removeAll (s := { s with users := (takeNames s.users [name]).1 }) hkeys,
    length_eq_selected (AList.keys_nodup _) hkeys⟩

theorem takeTaggedWhere_spec (h : s.Rep) (names : List String) (keep : K → Bool) :
    s.Drops (s.takeTaggedWhere names keep).1 (fun k slot => tagged names k slot && keep k) ∧
      (s.takeTaggedWhere names keep).2 =
        (s.selected fun k slot => tagged names k slot && keep k).length := by
  have hkeys : ∀ k, k ∈ (collect s.tags names keep).keys ↔
      (s.entries.lookup k).any (fun slot => tagged names k slot && keep k) = true := by
    intro k
    rw [← AList.mem_keys, mem_collect]
    have hany : (s.entries.lookup k).any (fun slot => tagged names k slot && keep k) = true ↔
        (s.entries.lookup k).any (tagged names k) = true ∧ keep k = true := by
      cases s.entries.lookup k with
      | none => simp
      | some slot => simp
    rw [hany, any_tagged_iff]
    simp only [h.tags, List.not_mem_nil, not_false_eq_true, true_and]
  exact ⟨drops_removeAll hkeys, length_eq_selected (AList.keys_nodup _) hkeys⟩

theorem removeWhere_spec (s : Store K V) (now : ℕ) (hit : K → Bool) :
    s.Drops (s.removeWhere now hit).1 (fun k _ => hit k) ∧
      (s.removeWhere now hit).2 =
        ((s.selected fun k _ => hit k).filter fun k => !s.dead now k).length := by
  have hkeys : s.entries.keys.filter hit = s.selected fun k _ => hit k := by
    refine List.filter_congr fun k hk => ?_
    obtain ⟨slot, hk⟩ := Map.mem_keys_iff.mp hk
    rw [hk, Option.any_some]
  constructor
  · refine drops_removeAll fun k => ?_
    rw [hkeys, mem_selected]
  · show List.countP _ (s.entries.keys.filter hit) = _
    rw [hkeys, List.countP_eq_length_filter]

theorem drops_reap (s : Store K V) (now : ℕ) :
    s.Drops (s.reap now) (fun _ slot => !slot.live now) :=
  drops_removeAll fun _ => mem_selected

theorem liveLen_eq (s : Store K V) (now : ℕ) :
    s.liveLen now = ((s.selected fun _ _ => true).filter fun k => !s.dead now k).length := by
  have hkeys : s.selected (fun _ _ => true) = s.entries.keys := by
    refine List.filter_eq_self.mpr fun k hk => ?_
    obtain ⟨slot, hk⟩ := Map.mem_keys_iff.mp hk
    rw [hk, Option.any_some]
  rw [hkeys, liveLen, List.countP_eq_length_filter]

theorem drops_clear (s : Store K V) : s.Drops s.clear (fun _ _ => true) := by
  intro k
  cases s.entries.lookup k <;> rfl

/-- Every entry of `s'` is one of `s`, at another tick perhaps. -/
def Kept (s s' : Store K V) : Prop :=
  ∀ {k slot'}, s'.entries.lookup k = some slot' → ∃ slot, s.entries.lookup k = some slot ∧
    slot'.value = slot.value ∧ slot'.tags = slot.tags ∧ slot'.userKey = slot.userKey

theorem Drops.kept {s' : Store K V} {p : K → Slot V → Bool} (h : s.Drops s' p) : s.Kept s' := by
  intro k slot' hk
  rw [h] at hk
  exact ⟨slot', (Option.filter_eq_some_iff.mp hk).1, rfl, rfl, rfl⟩

theorem kept_remove (s : Store K V) (k : K) : s.Kept (s.remove k) := by
  intro k' slot' hk'
  rw [lookup_remove] at hk'
  split at hk'
  · cases hk'
  · exact ⟨slot', hk', rfl, rfl, rfl⟩

/-- A read gives the value of an entry. -/
theorem get_kept (h : s.Rep) (k : K) (now : ℕ) :
    s.Kept (s.get k now).1 ∧ ∀ v, (s.get k now).2 = some v →
      ∃ slot, s.entries.lookup k = some slot ∧ slot.value = v := by
  cases hk : s.entries.lookup k with
  | none =>
      rw [get, hk]
      exact ⟨fun hk' => ⟨_, hk', rfl, rfl, rfl⟩, fun v hv => by cases hv⟩
  | some slot =>
      cases hlive : slot.live now with
      | true =>
          rw [get_of_live h hk hlive]
          refine ⟨fun {k' slot'} hk' => ?_, fun v hv => ⟨slot, rfl, Option.some.inj hv⟩⟩
          have hk' := (Map.lookup_insert_if ..).symm.trans hk'
          split at hk'
          next e =>
            cases hk'
            exact ⟨slot, e ▸ hk, rfl, rfl, rfl⟩
          next => exact ⟨slot', hk', rfl, rfl, rfl⟩
      | false =>
          simp only [get, hk, hlive, Bool.false_eq_true, if_false]
          exact ⟨kept_remove s k, fun v hv => by cases hv⟩

/-! ### What an insert keeps -/

/-- Eviction adds nothing. -/
theorem lookup_evict_some {n capacity maxBytes : ℕ} {k : K} {slot : Slot V} (h : s.Rep)
    (hk : (evict capacity maxBytes n s).entries.lookup k = some slot) :
    s.entries.lookup k = some slot := by
  induction n generalizing s with
  | zero => exact hk
  | succ n ih =>
      rw [evict] at hk
      split at hk
      · cases hf : s.first with
        | none =>
            rw [hf] at hk
            exact hk
        | some lru =>
            rw [hf] at hk
            simp only [(remove_first h hf).1] at hk
            have hk := ih (h.remove _) hk
            rw [lookup_remove] at hk
            split at hk
            · cases hk
            · exact hk
      · exact hk

/-- The most recent entry stays, when the limits allow one entry of its size. -/
theorem lookup_evict_last {n capacity maxBytes : ℕ} {k : K} {slot : Slot V} (h : s.Rep)
    (hk : s.entries.lookup k = some slot) (hc : 1 ≤ capacity) (hb : slot.bytes ≤ maxBytes)
    (hlast : ∀ {k' slot'}, s.entries.lookup k' = some slot' → slot'.tick ≤ slot.tick) :
    (evict capacity maxBytes n s).entries.lookup k = some slot := by
  induction n generalizing s with
  | zero => exact hk
  | succ n ih =>
      rw [evict]
      split
      next hpast =>
        cases hf : s.first with
        | none => exact hk
        | some lru =>
            simp only [(remove_first h hf).1]
            have hne : k ≠ lru.2 := by
              rintro rfl
              -- its own tick is the least, so it is the only entry, and within the limits
              obtain ⟨slot', hslot', htick⟩ :=
                (h.recency _ _).mp (AList.mem_lookup_iff.mpr (List.argmin_mem hf))
              rw [hk] at hslot'
              cases hslot'
              have honly : ∀ k' slot', s.entries.lookup k' = some slot' → k' = lru.2 := by
                intro k' slot' hk'
                have hr := (h.recency _ _).mpr ⟨slot', hk', rfl⟩
                have hle : lru.1 ≤ slot'.tick :=
                  List.le_of_mem_argmin (AList.mem_lookup_iff.mp hr) hf
                have heq : slot'.tick = slot.tick := le_antisymm (hlast hk') (htick ▸ hle)
                rw [heq, (h.recency _ _).mpr ⟨slot, hk, rfl⟩] at hr
                exact (Option.some.inj hr).symm
              have hempty : s.entries.erase lru.2 = ∅ := by
                refine Map.eq_empty_of_lookup fun k' => ?_
                rw [Map.lookup_erase_if]
                split
                · rfl
                · next hne =>
                  cases hk' : s.entries.lookup k' with
                  | none => rfl
                  | some slot' => exact absurd (honly k' slot' hk') hne
              have hlen : s.entries.keys.length = 1 := by
                have hmem : lru.2 ∈ s.entries.keys := Map.mem_keys_iff.mpr ⟨slot, hk⟩
                have := congrArg List.length (AList.keys_erase lru.2 s.entries)
                rw [hempty, List.length_erase_of_mem hmem] at this
                have hpos := List.length_pos_of_mem hmem
                have h0 : (∅ : Map K (Slot V)).keys.length = 0 := rfl
                omega
              have hbytes : s.bytes = slot.bytes := by
                rw [h.bytes, Map.total_erase hk, hempty]
                rfl
              omega
            refine ih (h.remove _) ?_ fun {k' slot'} hk' => ?_
            · rw [lookup_remove, if_neg hne, hk]
            · rw [lookup_remove] at hk'
              split at hk'
              · cases hk'
              · exact hlast hk'
      next => exact hk

section
variable {k : K} {value : V} {expiresNs userKey : _} {tags : List String}
  {bytes now capacity maxBytes : ℕ}

/-- What is there after an insert is the inserted value, or was there before under another key. -/
theorem lookup_insert_some (h : s.Rep) {k' : K} {slot : Slot V}
    (hk : (s.insert k value expiresNs tags userKey bytes now capacity maxBytes).entries.lookup k' =
      some slot) :
    (k' = k ∧ slot.value = value ∧ slot.expiresNs = expiresNs ∧ slot.tags = tags ∧
        slot.userKey = userKey) ∨
      (k' ≠ k ∧ s.entries.lookup k' = some slot) := by
  have hrep : ((s.remove k).sweep now).Rep := (h.remove k).removeAll _
  have hnone : ((s.remove k).sweep now).entries.lookup k = none := by
    refine (lookup_removeAll ..).trans ?_
    rw [lookup_remove, if_pos rfl, ite_self]
  have hk := lookup_evict_some (hrep.push hnone ..) hk
  have hk := (Map.lookup_insert_if ..).symm.trans hk
  split at hk
  next e =>
    cases hk
    exact .inl ⟨e, rfl, rfl, rfl, rfl⟩
  next hne =>
    have hk := (lookup_removeAll_some.mp hk).2
    rw [lookup_remove, if_neg hne] at hk
    exact .inr ⟨hne, hk⟩

/-- **The inserted value is stored**, when the limits allow one entry of its size. -/
theorem lookup_insert_self (h : s.Rep) (hc : 1 ≤ capacity) (hb : bytes ≤ maxBytes) :
    ∃ slot, (s.insert k value expiresNs tags userKey bytes now capacity maxBytes).entries.lookup k =
      some slot ∧ slot.value = value ∧ slot.expiresNs = expiresNs := by
  have hrep : ((s.remove k).sweep now).Rep := (h.remove k).removeAll _
  have hnone : ((s.remove k).sweep now).entries.lookup k = none := by
    refine (lookup_removeAll ..).trans ?_
    rw [lookup_remove, if_pos rfl, ite_self]
  have hpush := hrep.push hnone value expiresNs tags userKey bytes
  refine ⟨_, lookup_evict_last hpush (AList.lookup_insert ..) hc hb fun {k' slot'} hk' => ?_, rfl,
    rfl⟩
  exact Nat.le_of_lt_succ (hpush.ticks hk')

/-- An insert into a store of live entries, within the limits, adds its entry and no more. -/
theorem insert_quiet (hlive : ∀ k' slot, s.entries.lookup k' = some slot → slot.live now = true)
    (hw : ((s.remove k).push k value expiresNs tags userKey bytes).Within capacity maxBytes) :
    s.insert k value expiresNs tags userKey bytes now capacity maxBytes =
      (s.remove k).push k value expiresNs tags userKey bytes := by
  have hsweep : (s.remove k).sweep now = s.remove k := by
    have hnone : (((s.remove k).byTick.map (·.2)).take SWEEP).filter
      ((s.remove k).dead now) = [] := by
      refine List.filter_eq_nil_iff.mpr fun k' _ => ?_
      rw [Bool.not_eq_true, dead, Option.any_eq_false]
      intro slot hslot
      rw [lookup_remove] at hslot
      split at hslot
      · cases hslot
      · rw [hlive k' slot hslot, Bool.not_true]
    rw [sweep, hnone]
    rfl
  have hevict : ∀ (n : ℕ) {s : Store K V}, s.Within capacity maxBytes →
      s.evict capacity maxBytes n = s := by
    intro n s hw
    cases n with
    | zero => rfl
    | succ n => rw [evict, if_neg (not_or.mpr ⟨not_lt.mpr hw.1, not_lt.mpr hw.2⟩)]
  rw [insert, hsweep]
  exact hevict _ hw

end

end Store

end Brust.Core.Local
