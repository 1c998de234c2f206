import Brust.Core.Local.Index
import Mathlib.Data.List.MinMax
import Mathlib.Data.List.Sort
import Mathlib.Data.Nat.Notation

/-!
# Core — the local store

The LRU store of a host without threads: entries, their recency, the indexes of tags and of user
keys, and a count of bytes.  Every operation keeps the five in step (`Rep`): the recency map is the
entries by their ticks, an index holds the names of the entries and no empty set, and the bytes are
their sizes.  An insert leaves the store within its limits (`insert_within`).
-/

namespace Brust.Core.Local

/-- Expired entries an insert inspects from the LRU end. -/
def SWEEP : ℕ := 8

structure Slot (V : Type) where
  value : V
  expiresNs : Option ℕ
  tags : List String
  userKey : Option String
  tick : ℕ
  bytes : ℕ

def Slot.live {V : Type} (slot : Slot V) (now : ℕ) : Bool := slot.expiresNs.all fun e =>
    decide (now < e)

structure Store (K V : Type) where
  entries : Map K (Slot V)
  recency : Map ℕ K
  tags : Index K
  users : Index K
  nextTick : ℕ
  bytes : ℕ

section
variable {K V : Type} [DecidableEq K]

namespace Store

def new : Store K V := ⟨∅, ∅, ∅, ∅, 0, 0⟩

/-- The one removal path.  The slot it returns is the one it finds. -/
def remove (s : Store K V) (k : K) : Store K V :=
  match s.entries.lookup k with
  | none => s
  | some slot =>
    { s with
      entries := s.entries.erase k
      recency := s.recency.erase slot.tick
      tags := unindexAll s.tags slot.tags k
      users := unindexAll s.users slot.userKey.toList k
      bytes := s.bytes - slot.bytes }

def removeAll (s : Store K V) (keys : List K) : Store K V := keys.foldl remove s

/-- `BTreeMap` keys in order. -/
def byTick (s : Store K V) : List (Sigma fun _ : ℕ => K) :=
  s.recency.entries.mergeSort fun a b => a.1 ≤ b.1

/-- The least recently used key. -/
def first (s : Store K V) : Option (Sigma fun _ : ℕ => K) := s.recency.entries.argmin (·.1)

def dead (s : Store K V) (now : ℕ) (k : K) : Bool := (s.entries.lookup k).any fun slot =>
    !slot.live now

/-- Drop expired entries among the `SWEEP` least recently used. -/
def sweep (s : Store K V) (now : ℕ) : Store K V :=
  s.removeAll (((s.byTick.map (·.2)).take SWEEP).filter (s.dead now))

/-- Drop every expired entry. -/
def reap (s : Store K V) (now : ℕ) : Store K V := s.removeAll (s.entries.keys.filter (s.dead now))

/-- Drop least recently used entries while the store is past its limits.  Each turn shortens the
recency map, so its length is fuel enough. -/
def evict (capacity maxBytes : ℕ) : ℕ → Store K V → Store K V
  | 0, s => s
  | n + 1, s =>
    if s.entries.keys.length > capacity ∨ s.bytes > maxBytes then
      match s.first with
      | none => s
      | some lru => evict capacity maxBytes n
          ({ s with recency := s.recency.erase lru.1 }.remove lru.2)
    else s

/-- A new entry at the next tick: in the entries, the recency, both indexes and the bytes. -/
def push (s : Store K V) (k : K) (value : V) (expiresNs : Option ℕ) (tags : List String)
    (userKey : Option String) (bytes : ℕ) : Store K V where
  entries := s.entries.insert k ⟨value, expiresNs, tags, userKey, s.nextTick, bytes⟩
  recency := s.recency.insert s.nextTick k
  tags := indexAll s.tags tags k
  users := indexAll s.users userKey.toList k
  nextTick := s.nextTick + 1
  bytes := s.bytes + bytes

/-- Store a value, replacing any entry, then evict entries past the limits. -/
def insert (s : Store K V) (k : K) (value : V) (expiresNs : Option ℕ) (tags : List String)
    (userKey : Option String) (bytes now capacity maxBytes : ℕ) : Store K V :=
  let s := ((s.remove k).sweep now).push k value expiresNs tags userKey bytes
  s.evict capacity maxBytes s.recency.keys.length

/-- The live entry's value, its recency bumped; an expired one is removed. -/
def get (s : Store K V) (k : K) (now : ℕ) : Store K V × Option V :=
  match s.entries.lookup k with
  | none => (s, none)
  | some slot =>
    if slot.live now then
      ({ s with
        entries := s.entries.insert k { slot with tick := s.nextTick }
        recency := match s.recency.lookup slot.tick with
          | some rk => (s.recency.erase slot.tick).insert s.nextTick rk
          | none => s.recency
        nextTick := s.nextTick + 1 }, some slot.value)
    else (s.remove k, none)

def liveLen (s : Store K V) (now : ℕ) : ℕ := s.entries.keys.countP fun k => !s.dead now k

/-- Remove every key indexed under names; the distinct count. -/
def takeIndexed (s : Store K V) (users : Bool) (names : List String) : Store K V × ℕ :=
  let (index, keys) := takeNames (if users then s.users else s.tags) names
  let s := if users then { s with users := index } else { s with tags := index }
  (s.removeAll keys.keys, keys.keys.length)

/-- Remove the tagged keys that `keep` selects; the distinct count. -/
def takeTaggedWhere (s : Store K V) (names : List String) (keep : K → Bool) : Store K V × ℕ :=
  let keys := collect s.tags names keep
  (s.removeAll keys.keys, keys.keys.length)

/-- Remove every entry `hit` selects; the number of live ones.  The keys are distinct, so each
removal finds the slot the store has now. -/
def removeWhere (s : Store K V) (now : ℕ) (hit : K → Bool) : Store K V × ℕ :=
  let hits := s.entries.keys.filter hit
  (s.removeAll hits, hits.countP fun k => !s.dead now k)

def clear (s : Store K V) : Store K V := ⟨∅, ∅, ∅, ∅, s.nextTick, 0⟩

/-! ### The invariant -/

/-- The five structures say the same, but for names that are being taken out of an index. -/
structure RepUpTo (s : Store K V) (takenTags takenUsers : List String) : Prop where
  recency : ∀ t k, s.recency.lookup t = some k ↔ ∃ slot, s.entries.lookup k = some slot ∧
    slot.tick = t
  ticks : ∀ {k slot}, s.entries.lookup k = some slot → slot.tick < s.nextTick
  tags : ∀ n k, Indexed s.tags n k ↔
    n ∉ takenTags ∧ ∃ slot, s.entries.lookup k = some slot ∧ n ∈ slot.tags
  users : ∀ n k, Indexed s.users n k ↔
    n ∉ takenUsers ∧ ∃ slot, s.entries.lookup k = some slot ∧ slot.userKey = some n
  tags_clean : Clean s.tags
  users_clean : Clean s.users
  bytes : s.bytes = Map.total s.entries (·.bytes)

/-- The five structures say the same. -/
abbrev Rep (s : Store K V) : Prop := s.RepUpTo [] []

/-- The store is within its limits. -/
def Within (s : Store K V) (capacity maxBytes : ℕ) : Prop :=
  s.entries.keys.length ≤ capacity ∧ s.bytes ≤ maxBytes

theorem rep_new : (new : Store K V).Rep where
  recency _ _ := by simp [new]
  ticks h := by simp [new] at h
  tags _ _ := by simp [new, Indexed]
  users _ _ := by simp [new, Indexed]
  tags_clean _ _ h := by simp [new] at h
  users_clean _ _ h := by simp [new] at h
  bytes := rfl

section
variable {s : Store K V} {takenTags takenUsers : List String}

/-! ### Removal -/

theorem lookup_remove (s : Store K V) (k k' : K) :
    (s.remove k).entries.lookup k' = if k' = k then none else s.entries.lookup k' := by
  cases h : s.entries.lookup k with
  | none =>
      rw [remove, h]
      by_cases hk : k' = k
      · rw [if_pos hk, hk, h]
      · rw [if_neg hk]
  | some slot =>
      rw [remove, h]
      exact Map.lookup_erase_if ..

/-- What is left of an index when a key leaves the names it was under. -/
theorem indexed_after {index : Index K} {taken names : List String} {k : K}
    {held : String → K → Prop} (h : ∀ n k', Indexed index n k' ↔ n ∉ taken ∧ held n k')
    (hnames : ∀ n, n ∈ names ↔ held n k) (n : String) (k' : K) :
    Indexed (unindexAll index names k) n k' ↔ n ∉ taken ∧ k' ≠ k ∧ held n k' := by
  rw [indexed_unindexAll, h]
  constructor
  · rintro ⟨⟨hn, hh⟩, hne⟩
    refine ⟨hn, fun e => ?_, hh⟩
    subst e
    exact hne ⟨(hnames n).mpr hh, rfl⟩
  · rintro ⟨hn, hne, hh⟩
    exact ⟨⟨hn, hh⟩, fun e => hne e.2⟩

theorem RepUpTo.remove (h : s.RepUpTo takenTags takenUsers) (k : K) :
    (s.remove k).RepUpTo takenTags takenUsers := by
  cases hk : s.entries.lookup k with
  | none =>
      have : s.remove k = s := by rw [Store.remove, hk]
      rwa [this]
  | some slot =>
      have hlookup : ∀ {k' slot'}, (s.entries.erase k).lookup k' = some slot' ↔
          k' ≠ k ∧ s.entries.lookup k' = some slot' := by
        intro k' slot'
        rw [Map.lookup_erase_if]
        split
        next e => simp [e]
        next hne => simp [hne]
      have hs : s.remove k =
          { s with
            entries := s.entries.erase k
            recency := s.recency.erase slot.tick
            tags := unindexAll s.tags slot.tags k
            users := unindexAll s.users slot.userKey.toList k
            bytes := s.bytes - slot.bytes } := by
        rw [Store.remove, hk]
      rw [hs]
      constructor
      case recency =>
          intro t k'
          rw [Map.lookup_erase_if]
          by_cases ht : t = slot.tick
          · subst ht
            rw [if_pos rfl]
            refine ⟨fun e => (by cases e), fun ⟨slot', hk', ht⟩ => ?_⟩
            obtain ⟨hne, hk'⟩ := hlookup.mp hk'
            -- two entries would share the tick
            have hr := (h.recency _ _).mpr ⟨slot', hk', ht⟩
            rw [(h.recency _ _).mpr ⟨slot, hk, rfl⟩] at hr
            exact absurd (Option.some.inj hr).symm hne
          · rw [if_neg ht, h.recency]
            constructor
            · rintro ⟨slot', hk', rfl⟩
              refine ⟨slot', hlookup.mpr ⟨fun e => ?_, hk'⟩, rfl⟩
              subst e
              exact ht (by rw [hk] at hk'; cases hk'; rfl)
            · rintro ⟨slot', hk', ht⟩
              exact ⟨slot', (hlookup.mp hk').2, ht⟩
      case ticks => exact fun hk' => h.ticks (hlookup.mp hk').2
      case tags =>
          intro n k'
          refine (indexed_after h.tags (fun n => ?_) n k').trans (and_congr Iff.rfl ?_)
          · simp [hk]
          · simp only [hlookup, and_assoc, exists_and_left]
      case users =>
          intro n k'
          refine (indexed_after h.users (fun n => ?_) n k').trans (and_congr Iff.rfl ?_)
          · simp [hk]
          · simp only [hlookup, and_assoc, exists_and_left]
      case tags_clean => exact clean_unindexAll h.tags_clean _ _
      case users_clean => exact clean_unindexAll h.users_clean _ _
      case bytes =>
          have := Map.total_erase hk (·.bytes)
          show s.bytes - slot.bytes = _
          rw [h.bytes, this, Nat.add_sub_cancel_left]

theorem RepUpTo.removeAll (h : s.RepUpTo takenTags takenUsers) (keys : List K) :
    (s.removeAll keys).RepUpTo takenTags takenUsers := by
  induction keys generalizing s with
  | nil => exact h
  | cons k keys ih => exact ih (h.remove k)

theorem lookup_removeAll (s : Store K V) (keys : List K) (k : K) :
    (s.removeAll keys).entries.lookup k = if k ∈ keys then none else s.entries.lookup k := by
  induction keys generalizing s with
  | nil => simp [removeAll]
  | cons k' keys ih =>
      refine (ih (s.remove k')).trans ?_
      rw [lookup_remove]
      by_cases hk : k ∈ keys
      · simp [hk]
      · by_cases he : k = k' <;> simp [hk, he]

theorem lookup_removeAll_some {keys : List K} {k : K} {slot : Slot V} :
    (s.removeAll keys).entries.lookup k = some slot ↔
      k ∉ keys ∧ s.entries.lookup k = some slot := by
  rw [lookup_removeAll]
  by_cases hk : k ∈ keys
  · simp [hk]
  · simp [hk]

/-! ### Taking names -/

/-- No entry left has a taken name. -/
theorem RepUpTo.rep (h : s.RepUpTo takenTags takenUsers)
    (htags : ∀ {k slot n}, s.entries.lookup k = some slot → n ∈ slot.tags → n ∉ takenTags)
    (husers : ∀ {k slot n}, s.entries.lookup k = some slot → slot.userKey = some n →
      n ∉ takenUsers) : s.Rep where
  recency := h.recency
  ticks := h.ticks
  tags n k := by
    rw [h.tags]
    refine ⟨fun ⟨_, hs⟩ => ⟨by simp, hs⟩, fun ⟨_, slot, hk, hn⟩ => ⟨htags hk hn, slot, hk, hn⟩⟩
  users n k := by
    rw [h.users]
    refine ⟨fun ⟨_, hs⟩ => ⟨by simp, hs⟩, fun ⟨_, slot, hk, hn⟩ => ⟨husers hk hn, slot, hk, hn⟩⟩
  tags_clean := h.tags_clean
  users_clean := h.users_clean
  bytes := h.bytes

theorem Rep.takeIndexed (h : s.Rep) (users : Bool) (names : List String) :
    (s.takeIndexed users names).1.Rep := by
  cases users with
  | false =>
      obtain ⟨hindexed, hclean, hkeys⟩ := @takeNames_spec K _ s.tags names
      have hs : ({ s with tags := (takeNames s.tags names).1 } : Store K V).RepUpTo names [] :=
        { h with
          tags := fun n k => by rw [hindexed, h.tags]; simp
          tags_clean := hclean h.tags_clean }
      refine (hs.removeAll _).rep (fun {k slot n} hk hn hmem => ?_) (by simp)
      obtain ⟨hnot, hk⟩ := lookup_removeAll_some.mp hk
      exact hnot (AList.mem_keys.mp ((hkeys k).mpr
        ⟨n, hmem, (h.tags n k).mpr ⟨by simp, slot, hk, hn⟩⟩))
  | true =>
      obtain ⟨hindexed, hclean, hkeys⟩ := @takeNames_spec K _ s.users names
      have hs : ({ s with users := (takeNames s.users names).1 } : Store K V).RepUpTo [] names :=
        { h with
          users := fun n k => by rw [hindexed, h.users]; simp
          users_clean := hclean h.users_clean }
      refine (hs.removeAll _).rep (by simp) (fun {k slot n} hk hn hmem => ?_)
      obtain ⟨hnot, hk⟩ := lookup_removeAll_some.mp hk
      exact hnot (AList.mem_keys.mp ((hkeys k).mpr
        ⟨n, hmem, (h.users n k).mpr ⟨by simp, slot, hk, hn⟩⟩))

theorem rep_clear (s : Store K V) : s.clear.Rep :=
  { rep_new with ticks := fun h => by simp [clear] at h }

/-! ### Insertion and eviction -/

/-- The key under the least tick goes with its recency. -/
theorem remove_first (h : s.Rep) {lru : Sigma fun _ : ℕ => K} (hf : s.first = some lru) :
    { s with recency := s.recency.erase lru.1 }.remove lru.2 = s.remove lru.2 ∧
      (s.remove lru.2).recency.keys.length < s.recency.keys.length := by
  have hmem := List.argmin_mem hf
  obtain ⟨slot, hslot, htick⟩ := (h.recency _ _).mp (AList.mem_lookup_iff.mpr hmem)
  have hkey : lru.1 ∈ s.recency.keys := List.mem_map_of_mem hmem
  have hr : s.remove lru.2 = { s with
      entries := s.entries.erase lru.2
      recency := s.recency.erase lru.1
      tags := unindexAll s.tags slot.tags lru.2
      users := unindexAll s.users slot.userKey.toList lru.2
      bytes := s.bytes - slot.bytes } := by
    rw [remove, hslot, ← htick]
  constructor
  · rw [hr, remove]
    simp only [hslot, htick]
    rw [Map.erase_of_lookup_none (AList.lookup_erase ..)]
  · rw [hr]
    show (s.recency.erase lru.1).keys.length < _
    rw [AList.keys_erase, List.length_erase_of_mem hkey]
    have := List.length_pos_of_mem hkey
    omega

theorem within_of_recency_nil (h : s.Rep) (hnil : s.recency.keys = []) (capacity maxBytes : ℕ) :
    s.Within capacity maxBytes := by
  have he : s.entries = ∅ := by
    refine Map.eq_empty_of_lookup fun k => ?_
    cases hk : s.entries.lookup k with
    | none => rfl
    | some slot =>
        have hm := Map.mem_keys_iff.mpr ⟨k, (h.recency _ _).mpr ⟨slot, hk, rfl⟩⟩
        rw [hnil] at hm
        cases hm
  constructor
  · simp [he]
  · rw [h.bytes, he]
    exact Nat.zero_le _

/-- What eviction leaves is in step and within the limits. -/
theorem evict_spec {n : ℕ} (capacity maxBytes : ℕ) (h : s.Rep) (hn : s.recency.keys.length ≤ n) :
    (evict capacity maxBytes n s).Rep ∧ (evict capacity maxBytes n s).Within capacity maxBytes := by
  induction n generalizing s with
  | zero =>
      exact ⟨h, within_of_recency_nil h (List.length_eq_zero_iff.mp (Nat.le_zero.mp hn)) ..⟩
  | succ n ih =>
      rw [evict]
      split
      · cases hf : s.first with
        | none =>
            refine ⟨h, within_of_recency_nil h ?_ ..⟩
            rw [AList.keys, List.argmin_eq_none.mp hf]
            rfl
        | some lru =>
            obtain ⟨hsame, hless⟩ := remove_first h hf
            simp only [hsame]
            exact ih (h.remove _) (by omega)
      · next hwithin =>
        rw [not_or, not_lt, not_lt] at hwithin
        exact ⟨h, hwithin⟩

theorem Rep.push (h : s.Rep) {k : K} (hk : s.entries.lookup k = none) (value : V)
    (expiresNs : Option ℕ) (tags : List String) (userKey : Option String) (bytes : ℕ) :
    (s.push k value expiresNs tags userKey bytes).Rep := by
  have hlookup : ∀ {k' slot'},
      (s.push k value expiresNs tags userKey bytes).entries.lookup k' = some slot' ↔
        (k' = k ∧ ⟨value, expiresNs, tags, userKey, s.nextTick, bytes⟩ = slot') ∨
          s.entries.lookup k' = some slot' := by
    intro k' slot'
    refine (Eq.congr_left (Map.lookup_insert_if ..)).trans ?_
    by_cases he : k' = k
    · subst he
      simp only [if_true, hk, true_and, Option.some.injEq, reduceCtorEq, or_false]
    · simp only [he, if_false, false_and, false_or]
  constructor
  case recency =>
      intro t k'
      refine (Eq.congr_left (Map.lookup_insert_if ..)).trans ?_
      simp only [hlookup]
      by_cases ht : t = s.nextTick
      · subst ht
        rw [if_pos rfl]
        constructor
        · rintro ⟨⟩
          exact ⟨_, .inl ⟨rfl, rfl⟩, rfl⟩
        · rintro ⟨slot', ⟨rfl, -⟩ | hk', ht⟩
          · rfl
          · exact absurd (h.ticks hk') (by omega)
      · rw [if_neg ht, h.recency]
        constructor
        · rintro ⟨slot', hk', ht'⟩
          exact ⟨slot', .inr hk', ht'⟩
        · rintro ⟨slot', ⟨-, rfl⟩ | hk', ht'⟩
          · exact absurd ht'.symm ht
          · exact ⟨slot', hk', ht'⟩
  case ticks =>
      intro k' slot' hk'
      show _ < s.nextTick + 1
      rcases hlookup.mp hk' with ⟨-, rfl⟩ | hk'
      · exact Nat.lt_succ_self _
      · exact Nat.lt_succ_of_lt (h.ticks hk')
  case tags =>
      intro n k'
      refine indexed_indexAll.trans ?_
      rw [h.tags]
      simp only [hlookup, List.not_mem_nil, not_false_eq_true, true_and]
      constructor
      · rintro (⟨hn, rfl⟩ | ⟨slot', hk', hn⟩)
        · exact ⟨_, .inl ⟨rfl, rfl⟩, hn⟩
        · exact ⟨slot', .inr hk', hn⟩
      · rintro ⟨slot', ⟨rfl, rfl⟩ | hk', hn⟩
        · exact .inl ⟨hn, rfl⟩
        · exact .inr ⟨slot', hk', hn⟩
  case users =>
      intro n k'
      refine indexed_indexAll.trans ?_
      rw [h.users]
      simp only [hlookup, List.not_mem_nil, not_false_eq_true, true_and, Option.mem_toList]
      constructor
      · rintro (⟨hn, rfl⟩ | ⟨slot', hk', hn⟩)
        · exact ⟨_, .inl ⟨rfl, rfl⟩, hn⟩
        · exact ⟨slot', .inr hk', hn⟩
      · rintro ⟨slot', ⟨rfl, rfl⟩ | hk', hn⟩
        · exact .inl ⟨hn, rfl⟩
        · exact .inr ⟨slot', hk', hn⟩
  case tags_clean => exact clean_indexAll h.tags_clean _ _
  case users_clean => exact clean_indexAll h.users_clean _ _
  case bytes =>
      refine Eq.trans ?_ (Map.total_insert ..).symm
      rw [Map.erase_of_lookup_none hk, ← h.bytes]
      exact Nat.add_comm ..

theorem insert_spec (h : s.Rep) (k : K) (value : V) (expiresNs : Option ℕ) (tags : List String)
    (userKey : Option String) (bytes now capacity maxBytes : ℕ) :
    (s.insert k value expiresNs tags userKey bytes now capacity maxBytes).Rep ∧
    (s.insert k value expiresNs tags userKey bytes now capacity maxBytes).Within
      capacity maxBytes := by
  refine evict_spec _ _ (Rep.push ((h.remove k).removeAll _) ?_ ..) le_rfl
  rw [lookup_removeAll, lookup_remove, if_pos rfl, ite_self]

/-! ### Reading -/

/-- A live entry moves to the next tick; nothing else changes. -/
theorem Rep.touch (h : s.Rep) {k : K} {slot : Slot V} (hk : s.entries.lookup k = some slot) :
    ({ s with
      entries := s.entries.insert k { slot with tick := s.nextTick }
      recency := (s.recency.erase slot.tick).insert s.nextTick k
      nextTick := s.nextTick + 1 } : Store K V).Rep := by
  have hlookup : ∀ {k' slot'},
      (s.entries.insert k { slot with tick := s.nextTick }).lookup k' = some slot' ↔
        (k' = k ∧ { slot with tick := s.nextTick } = slot') ∨
          (k' ≠ k ∧ s.entries.lookup k' = some slot') := by
    intro k' slot'
    rw [Map.lookup_insert_if]
    by_cases he : k' = k
    · simp only [he, if_true, true_and, Option.some.injEq, ne_eq, not_true_eq_false, false_and,
        or_false]
    · simp only [he, if_false, false_and, false_or, ne_eq, not_false_eq_true, true_and]
  -- only the tick is new
  have hsame : ∀ (p : Slot V → Prop), (∀ t slot', p { slot' with tick := t } ↔ p slot') → ∀ k',
      (∃ slot', (s.entries.insert k { slot with tick := s.nextTick }).lookup k' = some slot' ∧
        p slot') ↔ ∃ slot', s.entries.lookup k' = some slot' ∧ p slot' := by
    intro p hp k'
    simp only [hlookup]
    constructor
    · rintro ⟨slot', ⟨rfl, rfl⟩ | ⟨-, hk'⟩, hs⟩
      · exact ⟨slot, hk, (hp _ _).mp hs⟩
      · exact ⟨slot', hk', hs⟩
    · rintro ⟨slot', hk', hs⟩
      by_cases he : k' = k
      · subst he
        rw [hk] at hk'
        cases hk'
        exact ⟨_, .inl ⟨rfl, rfl⟩, (hp _ _).mpr hs⟩
      · exact ⟨slot', .inr ⟨he, hk'⟩, hs⟩
  constructor
  case recency =>
      intro t k'
      simp only [hlookup]
      rw [Map.lookup_insert_if, Map.lookup_erase_if]
      by_cases ht : t = s.nextTick
      · subst ht
        rw [if_pos rfl]
        constructor
        · rintro ⟨⟩
          exact ⟨_, .inl ⟨rfl, rfl⟩, rfl⟩
        · rintro ⟨slot', ⟨rfl, -⟩ | ⟨-, hk'⟩, ht⟩
          · rfl
          · exact absurd (h.ticks hk') (by omega)
      · rw [if_neg ht]
        by_cases ho : t = slot.tick
        · subst ho
          rw [if_pos rfl]
          refine ⟨fun e => (by cases e), ?_⟩
          rintro ⟨slot', ⟨-, rfl⟩ | ⟨hne, hk'⟩, ht'⟩
          · exact absurd ht'.symm ht
          · have hr := (h.recency _ _).mpr ⟨slot', hk', ht'⟩
            rw [(h.recency _ _).mpr ⟨slot, hk, rfl⟩] at hr
            exact absurd (Option.some.inj hr).symm hne
        · rw [if_neg ho, h.recency]
          constructor
          · rintro ⟨slot', hk', rfl⟩
            refine ⟨slot', .inr ⟨fun e => ?_, hk'⟩, rfl⟩
            subst e
            rw [hk] at hk'
            cases hk'
            exact ho rfl
          · rintro ⟨slot', ⟨-, rfl⟩ | ⟨-, hk'⟩, ht'⟩
            · exact absurd ht'.symm ht
            · exact ⟨slot', hk', ht'⟩
  case ticks =>
      intro k' slot' hk'
      rcases hlookup.mp hk' with ⟨-, rfl⟩ | ⟨-, hk'⟩
      · exact Nat.lt_succ_self _
      · exact Nat.lt_succ_of_lt (h.ticks hk')
  case tags =>
      intro n k'
      refine Iff.trans (h.tags n k') (and_congr Iff.rfl ?_)
      exact (hsame (fun slot' => n ∈ slot'.tags) (fun _ _ => Iff.rfl) k').symm
  case users =>
      intro n k'
      refine Iff.trans (h.users n k') (and_congr Iff.rfl ?_)
      exact (hsame (fun slot' => slot'.userKey = some n) (fun _ _ => Iff.rfl) k').symm
  case tags_clean => exact h.tags_clean
  case users_clean => exact h.users_clean
  case bytes =>
      refine Eq.trans h.bytes ?_
      rw [Map.total_insert, Map.total_erase hk]

/-- A read of a live entry, at the entry it finds. -/
theorem get_of_live (h : s.Rep) {k : K} {slot : Slot V} {now : ℕ}
    (hk : s.entries.lookup k = some slot) (hlive : slot.live now = true) :
    s.get k now = ({ s with
      entries := s.entries.insert k { slot with tick := s.nextTick }
      recency := (s.recency.erase slot.tick).insert s.nextTick k
      nextTick := s.nextTick + 1 }, some slot.value) := by
  have hr := (h.recency _ _).mpr ⟨slot, hk, rfl⟩
  simp only [get, hk, hlive, if_true, hr]

/-! ### The limits -/

section
variable {capacity maxBytes : ℕ}

theorem Within.remove (hw : s.Within capacity maxBytes) (k : K) :
    (s.remove k).Within capacity maxBytes := by
  cases hk : s.entries.lookup k with
  | none =>
      rw [Store.remove, hk]
      exact hw
  | some slot =>
      rw [Store.remove, hk]
      refine ⟨le_trans ?_ hw.1, (Nat.sub_le ..).trans hw.2⟩
      show (s.entries.erase k).keys.length ≤ _
      rw [AList.keys_erase]
      exact List.length_erase_le

theorem Within.removeAll (hw : s.Within capacity maxBytes) (keys : List K) :
    (s.removeAll keys).Within capacity maxBytes := by
  induction keys generalizing s with
  | nil => exact hw
  | cons k keys ih => exact ih (hw.remove k)

theorem Within.takeIndexed (hw : s.Within capacity maxBytes) (users : Bool)
    (names : List String) : (s.takeIndexed users names).1.Within capacity maxBytes := by
  cases users with
  | false => exact Within.removeAll (s := { s with tags := (takeNames s.tags names).1 }) hw _
  | true => exact Within.removeAll (s := { s with users := (takeNames s.users names).1 }) hw _

theorem get_spec (h : s.Rep) (hw : s.Within capacity maxBytes) (k : K) (now : ℕ) :
    (s.get k now).1.Rep ∧ (s.get k now).1.Within capacity maxBytes := by
  cases hk : s.entries.lookup k with
  | none =>
      rw [get, hk]
      exact ⟨h, hw⟩
  | some slot =>
      cases hlive : slot.live now with
      | true =>
          rw [get_of_live h hk hlive]
          refine ⟨h.touch hk, ?_, hw.2⟩
          have hmem : k ∈ s.entries.keys := Map.mem_keys_iff.mpr ⟨slot, hk⟩
          have hpos := List.length_pos_of_mem hmem
          show (s.entries.insert k _).keys.length ≤ capacity
          rw [AList.keys_insert, List.length_cons, List.length_erase_of_mem hmem]
          have := hw.1
          omega
      | false =>
          simp only [get, hk, hlive, Bool.false_eq_true, if_false]
          exact ⟨h.remove k, hw.remove k⟩

end

end

end Store

end

end Brust.Core.Local
