import Brust.Cache.Outcome
import Brust.Core.Local.Isolate

/-!
# Server — the two page caches agree

`L1Cache` in sequential use and `LocalL1`, on one history of calls.  `Same` relates their states:
what the front serves of each key is what the local store holds, under the same tags, and no name of
the history tells their slots apart.  Every call keeps it and answers alike (`same_call`), so
`same_answers`: as long as nothing expires or is evicted, the answers are the same.
-/

namespace Brust.Server

open Brust.Core Brust.Core.Local Brust.Cache TagIndex

/-- A call of a page cache. -/
inductive PageCall (B : Type) where
  | insert (a : PageInsert B)
  | get (key : CacheKey)
  | invalidate (i : PageInval)
  | stats

inductive Answer (B : Type) where
  | body (body : Option B)
  | stored (ok : Bool)
  | count (n : ℕ)
  deriving DecidableEq

/-! ### Names and slots -/

/-- What a slot stands for. -/
inductive SlotName where
  | cleared
  | path (method p : String)
  | keyPrefix (p : String)
  | tag (t : String)
  deriving DecidableEq

def SlotName.slot (h : Hasher) : SlotName → L1.SlotRef
  | .cleared => .clearedAt
  | .path method p => L1.pathSlot h method p
  | .keyPrefix p => L1.keyPrefixSlot h p
  | .tag t => L1.tagSlot h t

def insertNames (key : CacheKey) (tags : List String) : List SlotName :=
  .cleared :: .path key.method key.path :: .keyPrefix key.keyPrefix :: tags.map .tag

def invalNames : PageInval → List SlotName
  | .invalidateTags tags _ => tags.map .tag
  | .invalidatePath method path _ => [.path method path]
  | .invalidatePrefix p _ => [.keyPrefix p]
  | .clear => [.cleared]

def PageCall.names {B : Type} : PageCall B → List SlotName
  | .insert a => insertNames a.key a.tags
  | .get _ => []
  | .invalidate i => invalNames i
  | .stats => []

/-- No two of the names share a slot. -/
def NoShared (h : Hasher) (names : List SlotName) : Prop :=
  ∀ x ∈ names, ∀ y ∈ names, x.slot h = y.slot h → x = y

theorem checked_eq (h : Hasher) (key : CacheKey) (tags : List String) :
    L1.checked h key tags = (insertNames key tags).map (SlotName.slot h) := by
  simp only [L1.checked, insertNames, List.map_cons, List.map_map]
  rfl

theorem refs_eq (h : Hasher) (i : PageInval) :
    (L1.inval h i).refs = (invalNames i).map (SlotName.slot h) := by
  cases i with
  | invalidateTags tags p =>
      simp only [L1.inval, Inval.refs, invalNames, List.map_map]
      rfl
  | _ => rfl

/-! ### The two caches -/

section
variable {B : Type} (h h' : Hasher) (limit : ℕ) (htmlLen : B → ℕ)

abbrev L1Mem (B : Type) := Mem CacheKey String L1.SlotRef B (PageInsert B) PageInval

/-- A call of `L1Cache`, with the listener drained. -/
def L1.call (m : L1Mem B) : PageCall B → L1Mem B × Answer B
  | .insert a => let (m, ok) := (l1 h limit B).insertAlone m a; (m, .stored ok)
  | .get key => (m, .body (m.get key))
  | .invalidate i => let (m, n) := (l1 h limit B).invalAlone m i; (m, .count n)
  | .stats => (m, .count m.moka.keys.length)

/-- A `LocalL1` with its clocks. -/
structure LocalHost (B : Type) where
  now : ℕ
  clock : ℕ
  cache : LocalL1 B

def LocalHost.call (s : LocalHost B) : PageCall B → LocalHost B × Answer B
  | .insert a =>
      let (c, ok) := s.cache.insert h' htmlLen a s.now; ({ s with cache := c }, .stored ok)
  | .get key => let (c, body) := s.cache.get key s.now; ({ s with cache := c }, .body body)
  | .invalidate i =>
    let (c, n) := s.cache.invalidate h' (s.clock + 1) s.now i
    ({ s with clock := s.clock + 1, cache := c }, .count n)
  | .stats => let (c, n) := s.cache.stats s.now; ({ s with cache := c }, .count n)

/-- A history: each call, and how long after the one before it. -/
abbrev History (B : Type) := List (ℕ × PageCall B)

def History.names (history : History B) : List SlotName := history.flatMap (·.2.names)

def L1.answers (m : L1Mem B) : History B → List (Answer B)
  | [] => []
  | (d, call) :: history =>
    let (m, answer) := L1.call h limit { m with now := m.now + d } call
    answer :: answers m history

def LocalHost.answers (s : LocalHost B) : History B → List (Answer B)
  | [] => []
  | (d, call) :: history =>
    let (s, answer) := LocalHost.call h' htmlLen { s with now := s.now + d } call
    answer :: answers s history

/-- No entry has expired, in either cache, and an insert that lands is within the limits. -/
def Quietly (m : L1Mem B) (s : LocalHost B) (call : PageCall B) : Prop :=
  (∀ k e, m.front.lookup k = some e → e.live m.now = true) ∧
  (∀ k slot, s.cache.store.entries.lookup k = some slot → slot.live s.now = true) ∧
  ∀ a, call = .insert a → s.cache.invalidatedSince h' a.key a.tags a.since = false →
    ((s.cache.store.remove a.key).push a.key a.body (deadline s.now a.ttl) a.tags none
      (htmlLen a.body)).Within s.cache.capacity s.cache.maxBytes

/-- A history in which no entry expires or is evicted. -/
def Undisturbed (m : L1Mem B) (s : LocalHost B) : History B → Prop
  | [] => True
  | (d, call) :: history =>
    let m := { m with now := m.now + d }
    let s := { s with now := s.now + d }
    Quietly h' htmlLen m s call ∧
      Undisturbed (L1.call h limit m call).1 (LocalHost.call h' htmlLen s call).1 history

/-! ### The relation -/

/-- A front entry and an entry of the local store are of one insert's body and tags. -/
def Alike (landed : ℕ → Option (PageInsert B)) (o : Option (FrontEntry B))
    (o' : Option (Local.Slot B)) : Prop :=
  (o = none ∧ o' = none) ∨ ∃ e slot a, o = some e ∧ o' = some slot ∧ e.body = slot.value ∧
    landed e.generation = some a ∧ slot.tags = a.tags

/-- The two caches hold the same. -/
structure Same (names : List SlotName) (m : L1Mem B) (s : LocalHost B) : Prop where
  now : m.now = s.now
  clock : m.clock = s.clock
  held : ∀ k, Alike m.landed (m.front.lookup k) (s.cache.store.entries.lookup k)
  slots : ∀ x ∈ names, m.slots (x.slot h) = s.cache.slots (x.slot h')
  slots_le : ∀ r, s.cache.slots r ≤ s.clock
  rep : s.cache.store.Rep
  reach : Reach (l1 h limit B).Init (l1 h limit B).Step anyStep ((l1 h limit B).alone m .idle)
  drained : m.dropped = []

end

variable {B : Type} {h h' : Hasher} {limit : ℕ} {htmlLen : B → ℕ} {names : List SlotName}
  {m m' : L1Mem B} {s : LocalHost B}

theorem Same.tick (hs : Same h h' limit names m s) (d : ℕ) :
    Same h h' limit names { m with now := m.now + d } { s with now := s.now + d } :=
  { hs with
    now := congrArg (· + d) hs.now
    reach := Store.reach_works hs.reach (Store.Works.move (.tick d) .refl) }

/-! ### The slots -/

theorem Same.after_eq (hs : Same h h' limit names m s) {key : CacheKey} {tags : List String}
    (hn : insertNames key tags ⊆ names) (since : ℕ) :
    Stamps.after m.slots (L1.checked h key tags) since =
      Stamps.after s.cache.slots (L1.checked h' key tags) since := by
  rw [Bool.eq_iff_iff]
  simp only [checked_eq, Stamps.after, List.any_map, List.any_eq_true, Function.comp_apply]
  refine exists_congr fun x => and_congr_right fun hx => ?_
  rw [hs.slots x (hn hx)]

/-- A publish reaches the slots of its own names. -/
theorem publish_slot {g : Hasher} (hg : NoShared g names) {ns : List SlotName} (hn : ns ⊆ names)
    (slots : L1.SlotRef → ℕ) (seq : ℕ) {x : SlotName} (hx : x ∈ names) :
    Stamps.publish slots (ns.map (SlotName.slot g)) seq (x.slot g) =
      if x ∈ ns then max (slots (x.slot g)) seq else slots (x.slot g) := by
  have hmem : x.slot g ∈ ns.map (SlotName.slot g) ↔ x ∈ ns := by
    rw [List.mem_map]
    exact ⟨fun ⟨y, hy, e⟩ => hg y (hn hy) x hx e ▸ hy, fun hy => ⟨x, hy, rfl⟩⟩
  rw [Stamps.publish_apply]
  simp only [hmem]

/-! ### The index -/

/-- With nothing in flight a key is indexed under its tags. -/
theorem Same.indexed_iff (hs : Same h h' limit names m s) (t : String) (k : CacheKey) :
    (genAt m.index t k).isSome = true ↔
      ∃ slot, s.cache.store.entries.lookup k = some slot ∧ t ∈ slot.tags := by
  have hq := Store.quiet_alone (S := l1 h limit B) hs.drained
  have hgen := Store.genAt_eq hs.reach hq t k
  have hfront := Store.front_iff_moka hs.reach hq k
  replace hgen : genAt m.index t k = (m.moka.lookup k).bind fun slot =>
    if t ∈ slot.groups.flatten then some slot.generation else none := hgen
  rcases hs.held k with ⟨hf, he⟩ | ⟨e, slot, a, hf, he, -, ha, ht⟩
  · have hm : m.moka.lookup k = none := by
      cases hm : m.moka.lookup k with
      | none => rfl
      | some ms =>
          obtain ⟨e, he, -⟩ := (hfront ms.generation).mpr ⟨ms, hm, rfl⟩
          exact absurd (hf.symm.trans he) (by simp)
    rw [hgen, hm, he]
    simp
  · obtain ⟨ms, hm, hg⟩ := (hfront e.generation).mp ⟨e, hf, rfl⟩
    replace hm : m.moka.lookup k = some ms := hm
    obtain ⟨b, hb, -, hgroups⟩ := (Store.ordered hs.reach).gens.moka hm
    replace hb : m.landed ms.generation = some b := hb
    rw [hg, ha] at hb
    cases hb
    have hnames : ms.groups.flatten = slot.tags := by
      rw [← hgroups, ht]
      simp [l1, L1.insert]
    rw [hgen, hm, he, Option.bind_some, hnames]
    by_cases htag : t ∈ slot.tags <;> simp [htag]

theorem Same.mem_moka_iff (hs : Same h h' limit names m s) (k : CacheKey) :
    k ∈ m.moka.keys ↔ ∃ slot, s.cache.store.entries.lookup k = some slot := by
  have hfront := Store.front_iff_moka hs.reach (Store.quiet_alone hs.drained) k
  rw [Map.mem_keys_iff]
  rcases hs.held k with ⟨hf, he⟩ | ⟨e, slot, a, hf, he, -⟩
  · rw [he]
    refine ⟨fun ⟨ms, hm⟩ => ?_, fun ⟨_, h⟩ => nomatch h⟩
    obtain ⟨e, he', -⟩ := (hfront ms.generation).mpr ⟨ms, hm, rfl⟩
    exact absurd (hf.symm.trans he') (by simp)
  · obtain ⟨ms, hm, -⟩ := (hfront e.generation).mp ⟨e, hf, rfl⟩
    exact ⟨fun _ => ⟨slot, he⟩, fun _ => ⟨ms, hm⟩⟩

/-! ### One call -/

/-- An invalidation: both caches lose the entries it selects. -/
theorem Same.removed (hs : Same h h' limit names m s) (hn : NoShared h names)
    (hn' : NoShared h' names) {i : PageInval} (hi : invalNames i ⊆ names) {p : CacheKey → Bool}
    (hm : Store.Cleared (m.issue i (L1.inval h i).refs) m' p) (hdrained : m'.dropped = [])
    (hp : ∀ k slot, s.cache.store.entries.lookup k = some slot → p k = pageHits i k slot.tags)
    (hreach : Reach (l1 h limit B).Init (l1 h limit B).Step anyStep
      ((l1 h limit B).alone m' .idle)) :
    Same h h' limit names m'
      { s with
        clock := s.clock + 1
        cache := (s.cache.invalidate h' (s.clock + 1) s.now i).1 } := by
  obtain ⟨hrem, -⟩ := s.cache.invalidate_spec (h := h') hs.rep (s.clock + 1) s.now i
  have hle : ∀ r, s.cache.slots r ≤ s.clock + 1 := fun r => (hs.slots_le r).trans (Nat.le_succ _)
  have hslots := s.cache.slots_invalidate (h := h') hle s.now i
  generalize (s.cache.invalidate h' (s.clock + 1) s.now i).1 = c at hrem hslots ⊢
  constructor
  case now => exact hm.now.trans hs.now
  case clock => exact hm.clock.trans (congrArg (· + 1) hs.clock)
  case held =>
      intro k
      have hfront : m'.front.lookup k = if p k then none else m.front.lookup k := hm.front k
      have hlanded : m'.landed = m.landed := hm.landed
      rw [hfront, hrem.drops k, hlanded]
      rcases hs.held k with ⟨hf, he⟩ | ⟨e, slot, a, hf, he, hb, ha, ht⟩
      · rw [hf, he, ite_self]
        exact .inl ⟨rfl, rfl⟩
      · rw [hf, he, hp k slot he]
        cases hq : pageHits i k slot.tags with
        | true => exact .inl ⟨rfl, by simp [hq]⟩
        | false => exact .inr ⟨e, slot, a, rfl, by simp [hq], hb, ha, ht⟩
  case slots =>
      intro x hx
      have hms : m'.slots = Stamps.publish m.slots (L1.inval h i).refs (m.clock + 1) := hm.slots
      rw [hms, hslots, refs_eq, refs_eq, publish_slot hn hi _ _ hx, publish_slot hn' hi _ _ hx,
        hs.slots x hx, hs.clock]
  case slots_le =>
      intro r
      rw [hslots, Stamps.publish_apply]
      have := hs.slots_le r
      split
      · exact max_le (this.trans (Nat.le_succ _)) le_rfl
      · exact this.trans (Nat.le_succ _)
  case rep => exact hrem.rep hs.rep
  case reach => exact hreach
  case drained => exact hdrained

/-- What an invalidation counts when everything is live: the entries it selects. -/
theorem Same.count_eq (hs : Same h h' limit names m s) {i : PageInval}
    (hlive : ∀ k slot, s.cache.store.entries.lookup k = some slot → slot.live s.now = true)
    {keys : List CacheKey} (hnd : keys.Nodup)
    (hk : ∀ k, k ∈ keys ↔
      ∃ slot, s.cache.store.entries.lookup k = some slot ∧ pageHits i k slot.tags = true) :
    keys.length = (s.cache.invalidate h' (s.clock + 1) s.now i).2 := by
  obtain ⟨-, hcount⟩ := s.cache.invalidate_spec (h := h') hs.rep (s.clock + 1) s.now i
  have hdead : ∀ k, s.cache.store.dead s.now k = false := by
    intro k
    rw [Store.dead, Option.any_eq_false]
    intro slot hslot
    rw [hlive k slot hslot, Bool.not_true]
  have hsel : keys.length =
      (s.cache.store.selected fun key slot => pageHits i key slot.tags).length :=
    Store.length_eq_selected hnd fun k => by rw [hk, Option.any_eq_true]
  rw [hcount, hsel]
  unfold pageCount
  cases i <;> simp [hdead]

theorem Same.invalidate (hs : Same h h' limit names m s) (hn : NoShared h names)
    (hn' : NoShared h' names) {i : PageInval} (hi : invalNames i ⊆ names)
    (hlive : ∀ k e, m.front.lookup k = some e → e.live m.now = true)
    (hlive' : ∀ k slot, s.cache.store.entries.lookup k = some slot → slot.live s.now = true) :
    Same h h' limit names ((l1 h limit B).invalAlone m i).1
      { s with clock := s.clock + 1, cache := (s.cache.invalidate h' (s.clock + 1) s.now i).1 } ∧
    ((l1 h limit B).invalAlone m i).2 = (s.cache.invalidate h' (s.clock + 1) s.now i).2 := by
  have hreach := Store.reach_invalAlone hs.reach i
  -- the keys the front scan hits
  have hscan : ∀ hit : CacheKey → Bool, (∀ k tags, pageHits i k tags = hit k) → ∀ k,
      k ∈ m.front.keys.filter (fun k => hit k && (m.front.lookup k).any (·.live m.now)) ↔
        ∃ slot, s.cache.store.entries.lookup k = some slot ∧ pageHits i k slot.tags = true := by
    intro hit hhit k
    rw [List.mem_filter, Map.mem_keys_iff, Bool.and_eq_true]
    rcases hs.held k with ⟨hf, he⟩ | ⟨e, slot, a, hf, he, -⟩
    · simp [hf, he]
    · simp [hf, he, hhit, hlive k e hf]
  have hscanned : ∀ {hit : CacheKey → Bool},
      (l1 h limit B).inval i = .scan hit (L1.inval h i).refs →
      (∀ k tags, pageHits i k tags = hit k) →
      Same h h' limit names ((l1 h limit B).invalAlone m i).1
        { s with clock := s.clock + 1, cache := (s.cache.invalidate h' (s.clock + 1) s.now i).1 } ∧
      ((l1 h limit B).invalAlone m i).2 = (s.cache.invalidate h' (s.clock + 1) s.now i).2 := by
    intro hit hinval hhit
    obtain ⟨hc, hdrop, hcount⟩ := Store.scan_spec hs.drained hinval
    refine ⟨hs.removed hn hn' hi hc hdrop (fun k slot _ => (hhit k _).symm) hreach, ?_⟩
    rw [hcount, List.countP_eq_length_filter]
    exact hs.count_eq hlive' (m.front.keys_nodup.filter _) (hscan hit hhit)
  cases i with
  | invalidateTags ts q =>
      obtain ⟨hc, hdrop, hcount⟩ := Store.indexed_spec (S := l1 h limit B) hs.drained
        (i := .invalidateTags ts q) rfl
      have hkeys : ∀ k, k ∈ (take m.index ts (q.map fun p k => k.keyPrefix == p)).2 ↔
          ∃ slot, s.cache.store.entries.lookup k = some slot ∧
            pageHits (.invalidateTags ts q) k slot.tags = true := by
        intro k
        have hkeep : keeps (q.map fun p k => k.keyPrefix == p) k = q.all (k.keyPrefix == ·) := by
          cases q <;> rfl
        simp only [mem_take, hs.indexed_iff, pageHits, Bool.and_eq_true, List.any_eq_true,
          List.contains_iff_mem, hkeep]
        constructor
        · rintro ⟨hq, t, ht, slot, hslot, hmem⟩
          exact ⟨slot, hslot, ⟨t, ht, hmem⟩, hq⟩
        · rintro ⟨slot, hslot, ⟨t, ht, hmem⟩, hq⟩
          exact ⟨hq, t, ht, slot, hslot, hmem⟩
      refine ⟨hs.removed hn hn' hi hc hdrop (fun k slot hslot => ?_) hreach, ?_⟩
      · rw [Bool.eq_iff_iff, List.contains_iff_mem, hkeys]
        constructor
        · rintro ⟨slot', hslot', hp⟩
          rw [hslot] at hslot'
          cases hslot'
          exact hp
        · exact fun hp => ⟨slot, hslot, hp⟩
      · rw [hcount]
        exact hs.count_eq hlive' (nodup_take ..) hkeys
  | invalidatePath method path q => exact hscanned rfl fun _ _ => rfl
  | invalidatePrefix p method => exact hscanned rfl fun _ _ => rfl
  | clear =>
      obtain ⟨hc, hdrop, hcount⟩ := Store.clear_spec (S := l1 h limit B) (m := m) (i := .clear) rfl
      refine ⟨hs.removed hn hn' hi hc hdrop (fun _ _ _ => rfl) hreach, ?_⟩
      rw [hcount]
      refine hs.count_eq hlive' m.moka.keys_nodup fun k => ?_
      rw [hs.mem_moka_iff]
      simp only [pageHits, and_true]

theorem Same.insert (hs : Same h h' limit names m s) {a : PageInsert B}
    (hn : insertNames a.key a.tags ⊆ names) (hq : Quietly h' htmlLen m s (.insert a)) :
    Same h h' limit names ((l1 h limit B).insertAlone m a).1
      { s with cache := (s.cache.insert h' htmlLen a s.now).1 } ∧
    ((l1 h limit B).insertAlone m a).2 = (s.cache.insert h' htmlLen a s.now).2 := by
  have hreach := Store.reach_insertAlone hs.reach a
  cases hr : s.cache.invalidatedSince h' a.key a.tags a.since with
  | true =>
      have hr' : Stamps.after m.slots ((l1 h limit B).insert a).refs ((l1 h limit B).insert a).since
          = true := (hs.after_eq hn a.since).trans hr
      simp only [Store.insertAlone, hr', LocalL1.insert, hr, if_true]
      exact ⟨hs, trivial⟩
  | false =>
      have hr' : Stamps.after m.slots ((l1 h limit B).insert a).refs ((l1 h limit B).insert a).since
          = false := (hs.after_eq hn a.since).trans hr
      obtain ⟨hfront, hlanded, hnow, hclock, hslots, hdrop, hok⟩ :=
        Store.insertAlone_spec hs.reach hs.drained hr'
      replace hfront : ∀ k, ((l1 h limit B).insertAlone m a).1.front.lookup k =
        if k = a.key then some ⟨a.body, checkedAdd limit m.now a.ttl, m.nextGeneration⟩
        else m.front.lookup k := hfront
      obtain ⟨-, hlive, hwithin⟩ := hq
      have hw := hwithin a rfl hr
      have hb : ¬ htmlLen a.body > s.cache.maxBytes :=
        not_lt.mpr ((Nat.le_add_left ..).trans hw.2)
      simp only [LocalL1.insert, hr, hb, Bool.false_eq_true, if_false,
        Store.insert_quiet hlive hw]
      refine ⟨{ hs with
        now := hnow.trans hs.now
        clock := hclock.trans hs.clock
        held := fun k => ?_
        slots := fun x hx => (congrFun hslots _).trans (hs.slots x hx)
        rep := Store.Rep.push (hs.rep.remove a.key) (by rw [Store.lookup_remove, if_pos rfl]) ..
        reach := hreach
        drained := hdrop }, hok⟩
      have hentry := (Map.lookup_insert_if (s.cache.store.remove a.key).entries a.key k
        (⟨a.body, deadline s.now a.ttl, a.tags, none, (s.cache.store.remove a.key).nextTick,
          htmlLen a.body⟩ : Local.Slot B))
      rw [Store.lookup_remove] at hentry
      refine (congrArg₂ _ (hfront k) hentry).mpr ?_
      rw [hlanded]
      by_cases hk : k = a.key
      · rw [if_pos hk, if_pos hk]
        exact .inr ⟨_, _, a, rfl, rfl, rfl, Function.update_self .., rfl⟩
      · rw [if_neg hk, if_neg hk, if_neg hk]
        rcases hs.held k with hnone | ⟨e, slot, b, hf, he, hbody, hb, ht⟩
        · exact .inl hnone
        · refine .inr ⟨e, slot, b, hf, he, hbody, ?_, ht⟩
          -- an earlier generation
          have hlt : e.generation < m.nextGeneration := (Store.ordered hs.reach).gens.bound hb
          rw [Function.update_of_ne (Nat.ne_of_lt hlt), hb]

theorem Same.get (hs : Same h h' limit names m s) (key : CacheKey)
    (hq : Quietly h' htmlLen m s (.get key)) :
    Same h h' limit names m { s with cache := (s.cache.get key s.now).1 } ∧
      m.get key = (s.cache.get key s.now).2 := by
  obtain ⟨hlive, hlive', -⟩ := hq
  rcases hs.held key with ⟨hf, he⟩ | ⟨e, slot, a, hf, he, hb, ha, ht⟩
  · have hget : s.cache.store.get key s.now = (s.cache.store, none) := by
      rw [Store.get, he]
    simp only [LocalL1.get, hget]
    refine ⟨hs, ?_⟩
    simp [Mem.get, Mem.served, hf]
  · have hget := Store.get_of_live hs.rep he (hlive' key slot he)
    simp only [LocalL1.get, hget]
    refine ⟨{ hs with
      held := fun k => ?_
      rep := hs.rep.touch he }, ?_⟩
    · rw [Map.lookup_insert_if]
      by_cases hk : k = key
      · subst hk
        rw [if_pos rfl, hf]
        exact .inr ⟨e, _, a, rfl, rfl, hb, ha, ht⟩
      · rw [if_neg hk]
        exact hs.held k
    · simp [Mem.get, Mem.served, hf, hlive key e hf, hb]

theorem Same.stats (hs : Same h h' limit names m s) (hq : Quietly h' htmlLen m s .stats) :
    Same h h' limit names m { s with cache := (s.cache.stats s.now).1 } ∧
      m.moka.keys.length = (s.cache.stats s.now).2 := by
  obtain ⟨-, hlive, -⟩ := hq
  have hsame : ∀ k, (s.cache.store.reap s.now).entries.lookup k =
      s.cache.store.entries.lookup k := by
    intro k
    rw [Store.drops_reap]
    cases he : s.cache.store.entries.lookup k with
    | none => rfl
    | some slot => simp [hlive k slot he]
  refine ⟨{ hs with
    held := fun k => ?_
    rep := hs.rep.removeAll _ }, ?_⟩
  · simp only [LocalL1.stats, hsame]
    exact hs.held k
  · refine ((List.perm_ext_iff_of_nodup m.moka.keys_nodup (AList.keys_nodup _)).mpr
      fun k => ?_).length_eq
    rw [hs.mem_moka_iff, Map.mem_keys_iff, hsame]

/-- **One call answers alike** and leaves the caches the same. -/
theorem same_call (hs : Same h h' limit names m s) (hn : NoShared h names)
    (hn' : NoShared h' names) {call : PageCall B} (hc : call.names ⊆ names)
    (hq : Quietly h' htmlLen m s call) :
    Same h h' limit names (L1.call h limit m call).1 (LocalHost.call h' htmlLen s call).1 ∧
      (L1.call h limit m call).2 = (LocalHost.call h' htmlLen s call).2 := by
  cases call with
  | insert a =>
      obtain ⟨hs', hok⟩ := hs.insert hc hq
      exact ⟨hs', congrArg Answer.stored hok⟩
  | get key =>
      obtain ⟨hs', hbody⟩ := hs.get key hq
      exact ⟨hs', congrArg Answer.body hbody⟩
  | invalidate i =>
      obtain ⟨hs', hcount⟩ := hs.invalidate hn hn' hc hq.1 hq.2.1
      exact ⟨hs', congrArg Answer.count hcount⟩
  | stats =>
      obtain ⟨hs', hcount⟩ := hs.stats hq
      exact ⟨hs', congrArg Answer.count hcount⟩

/-! ### A history -/

theorem Same.answers (hs : Same h h' limit names m s) (hn : NoShared h names)
    (hn' : NoShared h' names) {history : History B} (hnames : history.names ⊆ names)
    (hu : Undisturbed h h' limit htmlLen m s history) :
    L1.answers h limit m history = LocalHost.answers h' htmlLen s history := by
  induction history generalizing m s with
  | nil => rfl
  | cons x history ih =>
      obtain ⟨d, call⟩ := x
      obtain ⟨hq, hu⟩ := hu
      rw [History.names, List.flatMap_cons, List.append_subset] at hnames
      obtain ⟨hs', hanswer⟩ := same_call (hs.tick d) hn hn' hnames.1 hq
      exact congrArg₂ _ hanswer (ih hs' hnames.2 hu)

/-- Empty caches. -/
def LocalHost.new (capacity maxBytes : ℕ) : LocalHost B := ⟨0, 0, .withLimits capacity maxBytes⟩

theorem same_init (names : List SlotName) (capacity maxBytes : ℕ) :
    Same h h' limit names (.init : L1Mem B) (.new capacity maxBytes) where
  now := rfl
  clock := rfl
  held _ := .inl ⟨rfl, rfl⟩
  slots _ _ := rfl
  slots_le _ := le_rfl
  rep := Store.rep_new
  reach := .init (Store.init_idle 1)
  drained := rfl

/-- **The two page caches agree.**  On every history whose names share no slot and in which no
entry expires or is evicted, `L1Cache`, its listener drained after each call, and `LocalL1` give the
same answers: what each get returns, whether each insert lands, and every count. -/
theorem same_answers (h h' : Hasher) (limit capacity maxBytes : ℕ) (htmlLen : B → ℕ)
    (history : History B) (hn : NoShared h history.names) (hn' : NoShared h' history.names)
    (hu : Undisturbed h h' limit htmlLen .init (.new capacity maxBytes) history) :
    L1.answers h limit .init history =
      LocalHost.answers h' htmlLen (.new capacity maxBytes) history :=
  (same_init history.names capacity maxBytes).answers hn hn' (List.Subset.refl _) hu

instance (h : Hasher) (names : List SlotName) : Decidable (NoShared h names) :=
  inferInstanceAs (Decidable (∀ x ∈ names, ∀ y ∈ names, x.slot h = y.slot h → x = y))

instance (m : L1Mem B) (s : LocalHost B) (call : PageCall B) :
    Decidable (Quietly h' htmlLen m s call) :=
  have hfront : Decidable (∀ k e, m.front.lookup k = some e → e.live m.now = true) :=
    decidable_of_iff _ Map.forall_lookup_iff.symm
  have hstore : Decidable
      (∀ k slot, s.cache.store.entries.lookup k = some slot → slot.live s.now = true) :=
    decidable_of_iff _ Map.forall_lookup_iff.symm
  have hwithin (a : PageInsert B) : Decidable
      (s.cache.invalidatedSince h' a.key a.tags a.since = false →
        ((s.cache.store.remove a.key).push a.key a.body (deadline s.now a.ttl) a.tags none
          (htmlLen a.body)).Within s.cache.capacity s.cache.maxBytes) :=
    inferInstanceAs (Decidable (_ → _ ∧ _))
  have : Decidable (∀ a, call = .insert a →
      s.cache.invalidatedSince h' a.key a.tags a.since = false →
      ((s.cache.store.remove a.key).push a.key a.body (deadline s.now a.ttl) a.tags none
        (htmlLen a.body)).Within s.cache.capacity s.cache.maxBytes) :=
    match call with
    | .insert a => decidable_of_iff _
        ⟨fun hw b e => by cases e; exact hw, fun hw => hw a rfl⟩
    | .get _ => .isTrue fun _ e => nomatch e
    | .invalidate _ => .isTrue fun _ e => nomatch e
    | .stats => .isTrue fun _ e => nomatch e
  inferInstanceAs (Decidable (_ ∧ _ ∧ _))

def decideUndisturbed (h h' : Hasher) (limit : ℕ) (htmlLen : B → ℕ) (m : L1Mem B)
    (s : LocalHost B) :
    (history : History B) → Decidable (Undisturbed h h' limit htmlLen m s history)
  | [] => .isTrue trivial
  | (d, call) :: history =>
    have := decideUndisturbed h h' limit htmlLen
      (L1.call h limit { m with now := m.now + d } call).1
      (LocalHost.call h' htmlLen { s with now := s.now + d } call).1 history
    inferInstanceAs (Decidable (Quietly h' htmlLen { m with now := m.now + d }
      { s with now := s.now + d } call ∧ _))

instance (m : L1Mem B) (s : LocalHost B) (history : History B) :
    Decidable (Undisturbed h h' limit htmlLen m s history) :=
  decideUndisturbed h h' limit htmlLen m s history

/-- A hasher by length, and one by the last character. -/
def byLength : Hasher := ⟨fun _ => 0, fun x => x.2.length, String.length⟩

def byLast : Hasher :=
  ⟨fun _ => 7, fun x => (x.2.toList.getLast?.map Char.toNat).getD 0,
    fun x => (x.toList.getLast?.map Char.toNat).getD 0⟩

/-- A page of `/a` or `/bb`, under tags. -/
def tagged (path : String) (tags : List String) (body since : ℕ) : PageCall ℕ :=
  .insert ⟨⟨"", "GET", path, ""⟩, body, 100, tags, since⟩

/-- A key overwritten with other tags, a page under two tags, one of them invalidated and then
both, a stale insert, a path, a clear. -/
def overwrites : History ℕ :=
  [(0, tagged "/a" ["t"] 1 0), (1, tagged "/a" ["uv"] 2 0), (1, tagged "/bb" ["t", "uv"] 3 0),
    (1, .invalidate (.invalidateTags ["t"] none)), (0, .get ⟨"", "GET", "/a", ""⟩),
    (1, tagged "/bb" ["t"] 4 0), (1, tagged "/bb" ["t", "uv"] 5 1),
    (1, .invalidate (.invalidateTags ["t", "uv"] (some ""))), (0, .get ⟨"", "GET", "/a", ""⟩),
    (1, tagged "/a" [] 6 2), (1, .invalidate (.invalidatePath "GET" "/a" none)),
    (1, tagged "/bb" [] 7 3), (1, .stats), (1, .invalidate .clear)]

theorem same_answers_overwrites :
    L1.answers byLength 1000 .init overwrites =
      LocalHost.answers byLast (fun _ => 1) (.new 8 100) overwrites ∧
    L1.answers byLength 1000 .init overwrites =
      [.stored true, .stored true, .stored true, .count 1, .body (some 2), .stored false,
        .stored true, .count 2, .body none, .stored true, .count 1, .stored true, .count 1,
        .count 1] :=
  ⟨same_answers byLength byLast 1000 8 100 (fun _ => 1) overwrites (by decide +kernel)
    (by decide +kernel) (by decide +kernel), by decide +kernel⟩

end Brust.Server
