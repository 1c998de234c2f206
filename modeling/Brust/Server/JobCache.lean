import Brust.Server.L1

/-!
# Server — the job cache

The job cache as a store: a value is indexed under its tags and, in an index of its own, under its
user key; an insert checks `cleared_at`, its user key's slot and one slot for each tag.  An
invalidation is by tags, by user key, or a clear; `invalidate_key` removes one key and publishes
nothing.  A clear wipes moka and the front before the two indexes, the other way round from L1.

`get_job_fresh` and `get_job_stale` are as for L1; here the listener's gap needs no second
invalidation, as no invalidation waits for moka's maintenance.
-/

namespace Brust.Server

open Brust.Core Brust.Cache TagIndex

namespace Jobs

/-- The names of the two indexes. -/
inductive Name where
  | tag (t : String)
  | userKey (u : String)
  deriving DecidableEq

inductive SlotRef where
  | clearedAt
  | keyInval (slot : ℕ)
  | tagInval (slot : ℕ)
  deriving DecidableEq

/-- What `Core` calls, and the removal of one key. -/
inductive Inval where
  | call (i : JobInval)
  | invalidateKey (k : JobKey)
  deriving DecidableEq

/-- One hasher for keys and names, which are all strings. -/
abbrev Hasher := String → ℕ

variable (h : Hasher)

def keySlot (u : String) : SlotRef := .keyInval (h u % INVAL_SLOTS)

def tagSlot (t : String) : SlotRef := .tagInval (h t % INVAL_SLOTS)

/-- The slots `invalidated_since` loads, in order. -/
def checked (tags : List String) (userKey : Option String) : List SlotRef :=
  .clearedAt :: (userKey.toList.map (keySlot h) ++ tags.map (tagSlot h))

def shardOf (k : JobKey) : ℕ := h k % SHARDS

def insert {V : Type} (a : JobInsert V) : Cache.Insert JobKey Name SlotRef V where
  key := a.key
  body := a.value
  ttl := a.ttl
  groups := [a.tags.map .tag, a.userKey.toList.map .userKey]
  refs := checked h a.tags a.userKey
  since := a.since

def inval : Inval → Cache.Inval JobKey Name SlotRef
  | .call (.invalidateTags tags) => .indexed (tags.map .tag) none (tags.map (tagSlot h))
  | .call (.invalidateUserKey u) => .indexed [.userKey u] none [keySlot h u]
  | .call .clear => .clear [.clearedAt]
  | .invalidateKey k => .key k

def Name.isTag : Name → Bool
  | .tag _ => true
  | .userKey _ => false

/-- `clear`: moka, the front shard by shard, then the two indexes. -/
def clears : List (Wipe Name) :=
  .moka :: ((List.range SHARDS).map .front ++ [.index Name.isTag, .index fun x => !x.isTag])

theorem clears_order (n : ℕ) (rest : List (Wipe Name)) (hs : .front n :: rest <:+ clears) :
    .moka ∉ rest := by
  rcases List.suffix_cons_iff.mp hs with e | hs
  · exact absurd (List.cons.inj e).1 (by simp)
  · intro hm
    have := hs.subset (List.mem_cons_of_mem _ hm)
    simp at this

end Jobs

/-- The job cache with `Instant`s up to `limit`. -/
def jobCache (h : Jobs.Hasher) (limit : ℕ) (V : Type) :
    Store JobKey Jobs.Name Jobs.SlotRef V (JobInsert V) Jobs.Inval where
  insert := Jobs.insert h
  inval := Jobs.inval h
  shards := SHARDS
  shardOf := Jobs.shardOf h
  shardOf_lt k := Nat.mod_lt _ (by decide)
  wipe := Jobs.clears
  wipe_front n hn := by simp [Jobs.clears, hn]
  wipe_moka := by simp [Jobs.clears]
  wipe_order := Jobs.clears_order
  limit := limit

namespace Jobs

variable {h : Hasher} {limit : ℕ} {V : Type}

/-- What covers an insert looks for its entry and publishes a slot it checks. -/
theorem outdates_of_covers {i : JobInval} {a : JobInsert V} (hc : i.covers a.userKey a.tags) :
    ((jobCache h limit V).inval (.call i)).outdates ((jobCache h limit V).insert a) := by
  cases i with
  | invalidateTags tags =>
      obtain ⟨t, ht, hta⟩ := hc
      refine ⟨⟨⟨.tag t, List.mem_map_of_mem ht, ?_⟩, rfl⟩, tagSlot h t, List.mem_map_of_mem ht, ?_⟩
      · simp [jobCache, insert, Cache.Insert.names, hta]
      · simp only [jobCache, insert, checked, List.mem_cons, List.mem_append]
        exact .inr (.inr (List.mem_map_of_mem hta))
  | invalidateUserKey u =>
      replace hc : a.userKey = some u := hc
      refine ⟨⟨⟨.userKey u, List.mem_singleton_self _, ?_⟩, rfl⟩, keySlot h u,
        List.mem_singleton_self _, ?_⟩
      · simp [jobCache, insert, Cache.Insert.names, hc]
      · simp [jobCache, insert, checked, hc]
  | clear =>
      exact ⟨trivial, .clearedAt, List.mem_singleton_self _, by simp [jobCache, insert, checked]⟩

abbrev State (h : Hasher) (limit : ℕ) (V : Type) := (jobCache h limit V).State

/-- **Job cache freshness.**  In every run in which no invalidation takes an index while the
listener is between pruning one of its names and dropping that front entry, what `get` returns is
the value of an insert whose stamp no returned invalidation that covers it came after.  And the
moves of an insert that is refused leave the whole store as it was. -/
theorem get_job_fresh {s : State h limit V}
    (r : Reach (jobCache h limit V).Init (jobCache h limit V).Step
      (jobCache h limit V).TakesWhole s) :
    (∀ k e, s.mem.served k = some e →
      ∃ a, s.mem.landed e.generation = some a ∧ a.key = k ∧ a.value = e.body ∧
        ∀ i seq, (jobCache h limit V).Returned s (.call i) seq → i.covers a.userKey a.tags →
          seq ≤ a.since) ∧
    ∀ t s', (jobCache h limit V).Step s t s' → ∀ a pc,
      (pc = .stripe ∨ (∃ rest, pc = .check rest) ∨ pc = .done false) →
      (s'.threads t = .insert a pc ∨ (s.threads t = .insert a pc ∧ pc = .done false)) →
      s'.mem = s.mem := by
  constructor
  · intro k e hk
    obtain ⟨a, ha, hkey, hbody, hfresh⟩ := Store.get_fresh r hk
    exact ⟨a, ha, hkey, hbody, fun i seq hret hc => hfresh _ seq hret (outdates_of_covers hc)⟩
  · intro t s' hs a pc hpc hc
    obtain ⟨hm, -⟩ := hs
    rw [Pool.set_self] at hc
    exact hm.refused hpc hc

/-- The value of a job tagged `t`, under the user key `u`. -/
def value (v since : ℕ) : JobInsert ℕ := ⟨"k:c/j/u", v, none, ["t"], some "u", since⟩

/-- The user key is invalidated, a request that began before it is refused, and the value of one
that began after it lands. -/
def freshRun : List (ℕ × Choice JobKey (JobInsert ℕ) Inval) :=
  List.flatten [(1, .start (.call (.invalidateUserKey "u"))) :: Choice.goes 1 5,
    (0, .gate (value 1 0)) :: Choice.goes 0 4,
    (0, .gate (value 2 1)) :: Choice.goes 0 10]

theorem get_job_fresh_served : ∃ (s : State (fun _ => 0) 100 ℕ) (e : FrontEntry ℕ),
    s.mem.served (value 2 1).key = some e ∧
    (jobCache (fun _ => 0) 100 ℕ).Returned s (.call (.invalidateUserKey "u")) 1 ∧
    ∃ a, s.mem.landed e.generation = some a ∧ a.key = (value 2 1).key ∧ a.value = e.body ∧
      ∀ i seq, (jobCache (fun _ => 0) 100 ℕ).Returned s (.call i) seq → i.covers a.userKey a.tags →
        seq ≤ a.since := by
  obtain ⟨m, l, r, hp⟩ := Store.script_reaches (S := jobCache (fun _ => 0) 100 ℕ)
    Store.takesWhole_of_noListener 2 freshRun
    (fun r => (r.1.served (value 2 1).key).isSome &&
      decide ((Inval.call (.invalidateUserKey "u"), 1) ∈ r.1.issued) &&
      r.2.all fun c => !Store.inside (.call (.invalidateUserKey "u")) 1 c) (by decide +kernel)
  simp only [Bool.and_eq_true, decide_eq_true_eq] at hp
  obtain ⟨e, he⟩ := Option.isSome_iff_exists.mp hp.1.1
  exact ⟨_, e, he, Store.returned_ofList hp.1.2 hp.2, (get_job_fresh r).1 _ e he⟩

/-- A value is stored; capacity drops it, and the listener prunes both indexes; then its tag is
invalidated, and the invalidation returns. -/
def gapRun : List (ℕ × Choice JobKey (JobInsert ℕ) Inval) :=
  List.flatten [(0, .gate (value 1 0)) :: Choice.goes 0 10,
    [(0, .evict (value 1 0).key)],
    (0, .notify 0) :: Choice.goes 0 2,
    (1, .start (.call (.invalidateTags ["t"]))) :: Choice.goes 1 5]

/-- **Freshness fails in the gap.** -/
theorem get_job_stale : ¬ ∀ (h : Hasher) (limit : ℕ) (V : Type) (s : State h limit V),
    Reach (jobCache h limit V).Init (jobCache h limit V).Step anyStep s →
    ∀ (k : JobKey) (e : FrontEntry V) (a : JobInsert V), s.mem.served k = some e →
      s.mem.landed e.generation = some a →
      ∀ i seq, (jobCache h limit V).Returned s (.call i) seq → i.covers a.userKey a.tags →
        seq ≤ a.since := by
  intro hall
  obtain ⟨m, l, r, hp⟩ := Store.script_reaches (S := jobCache (fun _ => 0) 100 ℕ)
    Store.anyStep_anywhere 2 gapRun
    (fun r => (r.1.served (value 1 0).key).any (fun e => r.1.landed e.generation = value 1 0) &&
      decide ((Inval.call (.invalidateTags ["t"]), 1) ∈ r.1.issued) &&
      r.2.all fun c => !Store.inside (.call (.invalidateTags ["t"])) 1 c) (by decide +kernel)
  simp only [Bool.and_eq_true, decide_eq_true_eq] at hp
  obtain ⟨e, he, ha⟩ := (Option.any_eq_true ..).mp hp.1.1
  have := hall _ 100 ℕ _ r _ e (value 1 0) he (of_decide_eq_true ha) _ _
    (Store.returned_ofList hp.1.2 hp.2) ⟨"t", by simp, by simp [value]⟩
  simp [value] at this

end Jobs

end Brust.Server
