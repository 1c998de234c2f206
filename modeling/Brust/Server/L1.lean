import Brust.Cache.Agreement
import Brust.Cache.Contract
import Brust.Cache.Script
import Brust.Core.Invalidate

/-!
# Server — L1, the response cache

L1 as a store: entries are indexed under their tags, an insert checks `cleared_at`, its
(method, path) slot, its key prefix's slot and one slot for each tag, and an invalidation is by
tags (of one key prefix, or of all), by path, by key prefix, or a clear.  The hash functions are
arbitrary, so distinct names may share a slot.

`PageInval.covers` says which inserts an invalidation is about.  `get_page_fresh` is freshness for
every run whose tag invalidations do not fall into a listener's gap; `get_page_stale` is a run that
does, and serves a covered page after the invalidation returned.  `front_moka_index` is the
agreement of the three structures.
-/

namespace Brust.Server

open Brust.Core Brust.Cache TagIndex

def SHARDS : ℕ := 64

def INVAL_SLOTS : ℕ := 256

/-- `RandomState`: what it makes of a key, of a (method, path) and of a name. -/
structure Hasher where
  key : CacheKey → ℕ
  path : String × String → ℕ
  name : String → ℕ

/-- Every hash is zero. -/
def Hasher.zero : Hasher := ⟨fun _ => 0, fun _ => 0, fun _ => 0⟩

namespace L1

/-- The published slots. -/
inductive SlotRef where
  | clearedAt
  | pathInval (slot : ℕ)
  | keyPrefixInval (slot : ℕ)
  | tagInval (slot : ℕ)
  deriving DecidableEq

variable (h : Hasher)

def pathSlot (method path : String) : SlotRef := .pathInval (h.path (method, path) % INVAL_SLOTS)

def keyPrefixSlot (p : String) : SlotRef := .keyPrefixInval (h.name p % INVAL_SLOTS)

def tagSlot (t : String) : SlotRef := .tagInval (h.name t % INVAL_SLOTS)

/-- The slots `invalidated_since` loads, in order. -/
def checked (key : CacheKey) (tags : List String) : List SlotRef :=
  .clearedAt :: pathSlot h key.method key.path :: keyPrefixSlot h key.keyPrefix ::
    tags.map (tagSlot h)

def shardOf (k : CacheKey) : ℕ := h.key k % SHARDS

def insert {B : Type} (a : PageInsert B) : Cache.Insert CacheKey String SlotRef B where
  key := a.key
  body := a.body
  ttl := some a.ttl
  groups := [a.tags]
  refs := checked h a.key a.tags
  since := a.since

def inval : PageInval → Cache.Inval CacheKey String SlotRef
  | .invalidateTags tags p =>
      .indexed tags (p.map fun p k => k.keyPrefix == p) (tags.map (tagSlot h))
  | .invalidatePath method path p =>
    .scan (fun k => k.method == method && k.path == path && p.all (k.keyPrefix == ·))
      [pathSlot h method path]
  | .invalidatePrefix p method =>
    .scan (fun k => k.keyPrefix == p && method.all (k.method == ·)) [keyPrefixSlot h p]
  | .clear => .clear [.clearedAt]

/-- `clear`: the index, moka, then the front shard by shard. -/
def clears : List (Wipe String) :=
  .index (fun _ => true) :: .moka :: (List.range SHARDS).map .front

theorem moka_notMem_fronts : Wipe.moka ∉ (List.range SHARDS).map (Wipe.front (N := String)) := by
  simp

theorem clears_order (n : ℕ) (rest : List (Wipe String)) (hs : .front n :: rest <:+ clears) :
    .moka ∉ rest := by
  have hne : ∀ {w : Wipe String} {ws}, .front n :: rest <:+ w :: ws → w ≠ .front n →
      .front n :: rest <:+ ws := by
    intro w ws hs hw
    rcases List.suffix_cons_iff.mp hs with e | hs
    · exact absurd (List.cons.inj e).1.symm hw
    · exact hs
  have hs := hne (hne hs (by simp)) (by simp)
  exact fun hm => moka_notMem_fronts (hs.subset (List.mem_cons_of_mem _ hm))

end L1

/-- L1 with `Instant`s up to `limit`. -/
def l1 (h : Hasher) (limit : ℕ) (B : Type) :
    Store CacheKey String L1.SlotRef B (PageInsert B) PageInval where
  insert := L1.insert h
  inval := L1.inval h
  shards := SHARDS
  shardOf := L1.shardOf h
  shardOf_lt k := Nat.mod_lt _ (by decide)
  wipe := L1.clears
  wipe_front n hn := by simp [L1.clears, hn]
  wipe_moka := by simp [L1.clears]
  wipe_order := L1.clears_order
  limit := limit

namespace L1

variable {h : Hasher} {limit : ℕ} {B : Type}

/-- What covers an insert looks for its entry and publishes a slot it checks. -/
theorem outdates_of_covers {i : PageInval} {a : PageInsert B} (hc : i.covers a.key a.tags) :
    ((l1 h limit B).inval i).outdates ((l1 h limit B).insert a) := by
  cases i with
  | invalidateTags tags p =>
      obtain ⟨⟨t, ht, hta⟩, hp⟩ := hc
      refine ⟨⟨⟨t, ht, by simpa [l1, insert, Cache.Insert.names] using hta⟩, ?_⟩,
        tagSlot h t, ?_, ?_⟩
      · cases p with
        | none => rfl
        | some q => simpa [keeps, l1, insert] using hp q rfl
      · exact List.mem_map_of_mem ht
      · simp only [l1, insert, checked, List.mem_cons]
        exact .inr (.inr (.inr (List.mem_map_of_mem hta)))
  | invalidatePath method path p =>
      obtain ⟨rfl, rfl, hp⟩ := hc
      refine ⟨?_, pathSlot h a.key.method a.key.path, List.mem_singleton_self _, ?_⟩
      · cases p with
        | none => simp [Cache.Inval.finds, l1, inval, insert]
        | some q => simpa [Cache.Inval.finds, l1, inval, insert] using hp q rfl
      · simp [l1, insert, checked]
  | invalidatePrefix p method =>
      obtain ⟨rfl, hm⟩ := hc
      refine ⟨?_, keyPrefixSlot h a.key.keyPrefix, List.mem_singleton_self _, ?_⟩
      · cases method with
        | none => simp [Cache.Inval.finds, l1, inval, insert]
        | some q => simpa [Cache.Inval.finds, l1, inval, insert] using hm q rfl
      · simp [l1, insert, checked]
  | clear => exact ⟨trivial, .clearedAt, List.mem_singleton_self _, by simp [l1, insert, checked]⟩

abbrev State (h : Hasher) (limit : ℕ) (B : Type) := (l1 h limit B).State

/-- **L1 keeps the contract of a guarded cache**, for the pages an invalidation covers. -/
theorem refines {s s' : State h limit B}
    (r : Reach (l1 h limit B).Init (l1 h limit B).Step (l1 h limit B).TakesWhole s) {t : ℕ}
    (hs : (l1 h limit B).Step s t s') (hok : (l1 h limit B).TakesWhole s t) :
    Tier.Steps (fun (i : PageInval) (a : PageInsert B) => i.covers a.key a.tags) (·.since)
      ((l1 h limit B).tier s) ((l1 h limit B).tier s') :=
  (Store.refines r hs hok).mono fun _ _ => outdates_of_covers

/-! ### Freshness -/

/-- **L1 freshness.**  In every run in which no tag invalidation takes the index while the listener
is between pruning one of its tags and dropping that front entry, what `get` returns is the body of
an insert whose stamp no returned invalidation that covers it came after. -/
theorem get_page_fresh {s : State h limit B}
    (r : Reach (l1 h limit B).Init (l1 h limit B).Step (l1 h limit B).TakesWhole s)
    {k : CacheKey} {e : FrontEntry B} (hk : s.mem.served k = some e) :
    ∃ a, s.mem.landed e.generation = some a ∧ a.key = k ∧ a.body = e.body ∧
      ∀ i seq, (l1 h limit B).Returned s i seq → i.covers a.key a.tags → seq ≤ a.since := by
  obtain ⟨a, ha, hkey, hbody, hfresh⟩ := Store.get_fresh r hk
  exact ⟨a, ha, hkey, hbody, fun i seq hret hc => hfresh i seq hret (outdates_of_covers hc)⟩

/-- The page `/p`, tagged `t`. -/
def page (body since : ℕ) : PageInsert ℕ := ⟨⟨"", "GET", "/p", ""⟩, body, 10, ["t"], since⟩

/-- The tag is invalidated, and the page inserted by a render that began after it. -/
def freshRun : List (ℕ × Choice CacheKey (PageInsert ℕ) PageInval) :=
  List.flatten [(1, .start (.invalidateTags ["t"] none)) :: Choice.goes 1 5,
    (0, .gate (page 1 1)) :: Choice.goes 0 10]

theorem get_page_fresh_served : ∃ (s : State .zero 100 ℕ) (e : FrontEntry ℕ),
    s.mem.served (page 1 1).key = some e ∧
    (l1 .zero 100 ℕ).Returned s (.invalidateTags ["t"] none) 1 ∧
    ∃ a, s.mem.landed e.generation = some a ∧ a.key = (page 1 1).key ∧ a.body = e.body ∧
      ∀ i seq, (l1 .zero 100 ℕ).Returned s i seq → i.covers a.key a.tags → seq ≤ a.since := by
  obtain ⟨m, l, r, hp⟩ := Store.script_reaches (S := l1 .zero 100 ℕ)
    Store.takesWhole_of_noListener 2 freshRun
    (fun r => (r.1.served (page 1 1).key).isSome &&
      decide ((PageInval.invalidateTags ["t"] none, 1) ∈ r.1.issued) &&
      r.2.all fun c => !Store.inside (.invalidateTags ["t"] none) 1 c) (by decide +kernel)
  simp only [Bool.and_eq_true, decide_eq_true_eq] at hp
  obtain ⟨e, he⟩ := Option.isSome_iff_exists.mp hp.1.1
  exact ⟨_, e, he, Store.returned_ofList hp.1.2 hp.2, get_page_fresh r he⟩

/-- Thread 0 inserts the page, and then invalidates its path as far as moka; thread 1 runs the
listener on the dropped value as far as the index; thread 2 invalidates the page's tag and
returns. -/
def gapRun : List (ℕ × Choice CacheKey (PageInsert ℕ) PageInval) :=
  List.flatten [(0, .gate (page 1 0)) :: Choice.goes 0 10,
    (0, .start (.invalidatePath "GET" "/p" none)) :: Choice.goes 0 5,
    (1, .notify 0) :: Choice.goes 1 1,
    (2, .start (.invalidateTags ["t"] none)) :: Choice.goes 2 5]

/-- **Freshness fails in the gap.**  The tag invalidation has returned, and `get` serves the page
it covers, inserted under an earlier stamp. -/
theorem get_page_stale : ¬ ∀ (h : Hasher) (limit : ℕ) (B : Type) (s : State h limit B),
    Reach (l1 h limit B).Init (l1 h limit B).Step anyStep s →
    ∀ (k : CacheKey) (e : FrontEntry B) (a : PageInsert B), s.mem.served k = some e →
      s.mem.landed e.generation = some a →
      ∀ i seq, (l1 h limit B).Returned s i seq → i.covers a.key a.tags → seq ≤ a.since := by
  intro hall
  obtain ⟨m, l, r, hp⟩ := Store.script_reaches (S := l1 .zero 100 ℕ)
    Store.anyStep_anywhere 3 gapRun
    (fun r => (r.1.served (page 1 0).key).any (fun e => r.1.landed e.generation = page 1 0) &&
      decide ((PageInval.invalidateTags ["t"] none, 2) ∈ r.1.issued) &&
      r.2.all fun c => !Store.inside (.invalidateTags ["t"] none) 2 c) (by decide +kernel)
  simp only [Bool.and_eq_true, decide_eq_true_eq] at hp
  obtain ⟨e, he, ha⟩ := (Option.any_eq_true ..).mp hp.1.1
  have := hall .zero 100 ℕ _ r _ e (page 1 0) he (of_decide_eq_true ha) _ _
    (Store.returned_ofList hp.1.2 hp.2) ⟨⟨"t", by simp, by simp [page]⟩, by simp⟩
  simp [page] at this

/-! ### The front, moka and the tag index -/

/-- **The three structures agree.**  With nothing in flight and every notification delivered, the
front and moka hold the same generation of each key, and a key moka holds is indexed, at that
generation, under exactly the tags of the insert that stored it.  And whatever is in flight, the
listener of one generation leaves the front entries and the index entries of all others alone. -/
theorem front_moka_index {s : State h limit B}
    (r : Reach (l1 h limit B).Init (l1 h limit B).Step anyStep s) :
    ((l1 h limit B).Quiet s →
      (∀ k g, (∃ e, s.mem.front.lookup k = some e ∧ e.generation = g) ↔
        ∃ slot, s.mem.moka.lookup k = some slot ∧ slot.generation = g) ∧
      ∀ k slot, s.mem.moka.lookup k = some slot →
        ∃ a, s.mem.landed slot.generation = some a ∧ a.key = k ∧
          ∀ t, genAt s.mem.index t k = if t ∈ a.tags then some slot.generation else none) ∧
    ∀ t s', (l1 h limit B).Step s t s' → ∀ k slot n, s.threads t = .listen k slot n →
      (∀ k' e, s.mem.front.lookup k' = some e → (k' = k → e.generation ≠ slot.generation) →
        s'.mem.front.lookup k' = some e) ∧
      ∀ tag k' g, genAt s.mem.index tag k' = some g → (k' = k → g ≠ slot.generation) →
        genAt s'.mem.index tag k' = some g := by
  refine ⟨fun hq => ⟨fun k g => Store.front_iff_moka r hq k g, fun k slot hk => ?_⟩,
    fun t s' hs k slot n hc => Store.listener_guarded hs hc⟩
  obtain ⟨a, ha, hkey, hgr⟩ := (Store.ordered r).gens.moka hk
  refine ⟨a, ha, hkey, fun t => ?_⟩
  have hnames : slot.groups.flatten = a.tags := by rw [← hgr]; simp [l1, insert]
  rw [Store.genAt_eq r hq, hk, Option.bind_some, hnames]

/-- The page is inserted twice, dropped by capacity, and inserted again before the listener has run
on the first two values. -/
def lateRun : List (ℕ × Choice CacheKey (PageInsert ℕ) PageInval) :=
  List.flatten [(0, .gate (page 1 0)) :: Choice.goes 0 10,
    (0, .gate (page 2 0)) :: Choice.goes 0 10,
    [(1, .evict (page 2 0).key)],
    (0, .gate (page 3 0)) :: Choice.goes 0 10,
    (1, .notify 0) :: Choice.goes 1 2,
    (1, .notify 0) :: Choice.goes 1 2]

theorem front_moka_index_late : ∃ (s : State .zero 100 ℕ) (slot : Slot String),
    (l1 .zero 100 ℕ).Quiet s ∧ s.mem.moka.lookup (page 3 0).key = some slot ∧
    (∃ e, s.mem.front.lookup (page 3 0).key = some e ∧ e.generation = slot.generation) ∧
    ∃ a, s.mem.landed slot.generation = some a ∧ a.key = (page 3 0).key ∧
      ∀ t, genAt s.mem.index t (page 3 0).key =
        if t ∈ a.tags then some slot.generation else none := by
  obtain ⟨m, l, r, hp⟩ := Store.script_reaches (S := l1 .zero 100 ℕ)
    Store.anyStep_anywhere 2 lateRun
    (fun r => (r.1.moka.lookup (page 3 0).key).isSome && r.2.all Store.isIdle &&
      r.1.dropped.isEmpty) (by decide +kernel)
  simp only [Bool.and_eq_true] at hp
  obtain ⟨slot, hk⟩ := Option.isSome_iff_exists.mp hp.1.1
  have hq := Store.quiet_ofList (S := l1 .zero 100 ℕ) hp.1.2 hp.2
  obtain ⟨hfront, hidx⟩ := (front_moka_index r).1 hq
  exact ⟨_, slot, hq, hk, (hfront _ _).mpr ⟨slot, hk, rfl⟩, hidx _ _ hk⟩

end L1

end Brust.Server
