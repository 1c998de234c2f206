import Brust.Cache.Stamps
import Brust.Core.Local.Effects
import Brust.Server.JobCache

/-!
# Core — the local caches

`LocalL1` and `LocalJobs`, the page cache and the job cache of a host without threads.  Each is a
local store with the slots of its native counterpart, and every method is one step: an isolate
interleaves requests only between them.  The clock value an invalidation takes (`seq`) and the time
(`now`) are arguments here; the isolate holds the clock.
-/

namespace Brust.Core.Local

open Brust.Cache Brust.Server

def U64 : ℕ := 2 ^ 64

/-- `usize::MAX` of wasm32. -/
def USIZE_MAX : ℕ := 2 ^ 32 - 1

/-- `now + ttl` in ns; none (never expires) when it does not fit. -/
def deadline (now ttl : ℕ) : Option ℕ :=
  if ttl < U64 ∧ now + ttl < U64 then some (now + ttl) else none

/-! ### The page cache -/

structure LocalL1 (B : Type) where
  store : Store CacheKey B
  slots : L1.SlotRef → ℕ
  capacity : ℕ
  maxBytes : ℕ

namespace LocalL1

variable {B : Type} (h : Server.Hasher) (htmlLen : B → ℕ)

/-- `capacity` entries (at least 1) and `maxBytes` of bodies. -/
def withLimits (capacity maxBytes : ℕ) : LocalL1 B :=
  ⟨.new, fun _ => 0, max capacity 1, maxBytes⟩

/-- A covering invalidation (`clear`, this key's method and path, its prefix, one of `tags`) came
after `since`. -/
def invalidatedSince (c : LocalL1 B) (key : CacheKey) (tags : List String) (since : ℕ) : Bool :=
  Stamps.after c.slots (L1.checked h key tags) since

/-- `get_with`, at the body it reads. -/
def get (c : LocalL1 B) (key : CacheKey) (now : ℕ) : LocalL1 B × Option B :=
  let (store, body) := c.store.get key now
  ({ c with store := store }, body)

def insert (c : LocalL1 B) (a : PageInsert B) (now : ℕ) : LocalL1 B × Bool :=
  if c.invalidatedSince h a.key a.tags a.since then (c, false)
  else
    let bytes := htmlLen a.body
    -- not stored; an older entry under the key goes too
    if bytes > c.maxBytes then ({ c with store := c.store.remove a.key }, true)
    else
      let store := c.store.insert a.key a.body (deadline now a.ttl) a.tags none bytes now
        c.capacity c.maxBytes
      ({ c with store := store }, true)

def invalidateTags (c : LocalL1 B) (seq : ℕ) (tags : List String) (keyPrefix : Option String) :
    LocalL1 B × ℕ :=
  let slots := Stamps.publish c.slots (tags.map (L1.tagSlot h)) seq
  let (store, n) :=
    match keyPrefix with
    | none => c.store.takeIndexed false tags
    | some p => c.store.takeTaggedWhere tags fun k => k.keyPrefix == p
  ({ c with slots := slots, store := store }, n)

def invalidatePath (c : LocalL1 B) (seq now : ℕ) (method path : String)
    (keyPrefix : Option String) : LocalL1 B × ℕ :=
  let slots := Stamps.publish c.slots [L1.pathSlot h method path] seq
  let (store, n) := c.store.removeWhere now fun k =>
    k.method == method && k.path == path && keyPrefix.all (k.keyPrefix == ·)
  ({ c with slots := slots, store := store }, n)

def invalidatePrefix (c : LocalL1 B) (seq now : ℕ) (keyPrefix : String) (method : Option String) :
    LocalL1 B × ℕ :=
  let slots := Stamps.publish c.slots [L1.keyPrefixSlot h keyPrefix] seq
  let (store, n) := c.store.removeWhere now fun k =>
    k.keyPrefix == keyPrefix && method.all (k.method == ·)
  ({ c with slots := slots, store := store }, n)

/-- Remove every entry; the number of live ones. -/
def clear (c : LocalL1 B) (seq now : ℕ) : LocalL1 B × ℕ :=
  ({ c with
    slots := Function.update c.slots .clearedAt seq
    store := c.store.clear }, c.store.liveLen now)

/-- `stats`, at its `len`. -/
def stats (c : LocalL1 B) (now : ℕ) : LocalL1 B × ℕ :=
  let store := c.store.reap now
  ({ c with store := store }, store.entries.keys.length)

def invalidate (c : LocalL1 B) (seq now : ℕ) : PageInval → LocalL1 B × ℕ
  | .invalidateTags tags p => c.invalidateTags h seq tags p
  | .invalidatePath method path p => c.invalidatePath h seq now method path p
  | .invalidatePrefix p method => c.invalidatePrefix h seq now p method
  | .clear => c.clear seq now

end LocalL1

/-! ### The job cache -/

structure LocalJobs (V : Type) where
  store : Store JobKey V
  slots : Jobs.SlotRef → ℕ
  capacity : ℕ

namespace LocalJobs

variable {V : Type} (h : Jobs.Hasher)

/-- `capacity` entries (at least 1). -/
def withLimits (capacity : ℕ) : LocalJobs V := ⟨.new, fun _ => 0, max capacity 1⟩

/-- A covering invalidation (`clear`, `user_key`, one of `tags`) came after `since`. -/
def invalidatedSince (c : LocalJobs V) (tags : List String) (userKey : Option String)
    (since : ℕ) : Bool :=
  Stamps.after c.slots (Jobs.checked h tags userKey) since

def get (c : LocalJobs V) (k : JobKey) (now : ℕ) : LocalJobs V × Option V :=
  let (store, value) := c.store.get k now
  ({ c with store := store }, value)

def insert (c : LocalJobs V) (a : JobInsert V) (now : ℕ) : LocalJobs V × Bool :=
  if c.invalidatedSince h a.tags a.userKey a.since then (c, false)
  else
    let store := c.store.insert a.key a.value (a.ttl.bind (deadline now)) a.tags a.userKey 0 now
      c.capacity USIZE_MAX
    ({ c with store := store }, true)

/-- Remove one key without an invalidation. -/
def invalidateKey (c : LocalJobs V) (k : JobKey) : LocalJobs V × Bool :=
  ({ c with store := c.store.remove k }, (c.store.entries.lookup k).isSome)

def invalidateTags (c : LocalJobs V) (seq : ℕ) (tags : List String) : LocalJobs V × ℕ :=
  let slots := Stamps.publish c.slots (tags.map (Jobs.tagSlot h)) seq
  let (store, n) := c.store.takeIndexed false tags
  ({ c with slots := slots, store := store }, n)

def invalidateUserKey (c : LocalJobs V) (seq : ℕ) (userKey : String) : LocalJobs V × ℕ :=
  let slots := Stamps.publish c.slots [Jobs.keySlot h userKey] seq
  let (store, n) := c.store.takeIndexed true [userKey]
  ({ c with slots := slots, store := store }, n)

def clear (c : LocalJobs V) (seq : ℕ) : LocalJobs V :=
  { c with
    slots := Function.update c.slots .clearedAt seq
    store := c.store.clear }

/-- `stats`, at its `len`. -/
def stats (c : LocalJobs V) (now : ℕ) : LocalJobs V × ℕ :=
  let store := c.store.reap now
  ({ c with store := store }, store.entries.keys.length)

def invalidate (c : LocalJobs V) (seq : ℕ) : JobInval → LocalJobs V
  | .invalidateTags tags => (c.invalidateTags h seq tags).1
  | .invalidateUserKey userKey => (c.invalidateUserKey h seq userKey).1
  | .clear => c.clear seq

end LocalJobs

/-! ### What an invalidation removes -/

/-- The test of each page invalidation. -/
def pageHits : PageInval → CacheKey → List String → Bool
  | .invalidateTags ts p, key, tags => (ts.any (tags.contains ·)) && p.all (key.keyPrefix == ·)
  | .invalidatePath method path p, key, _ =>
    key.method == method && key.path == path && p.all (key.keyPrefix == ·)
  | .invalidatePrefix p method, key, _ => key.keyPrefix == p && method.all (key.method == ·)
  | .clear, _, _ => true

theorem pageHits_iff {i : PageInval} {key : CacheKey} {tags : List String} :
    pageHits i key tags = true ↔ i.covers key tags := by
  have hall : ∀ (o : Option String) (q : String),
      o.all (q == ·) = true ↔ ∀ p, o = some p → q = p := by
    intro o q
    cases o <;> simp
  cases i with
  | invalidateTags ts p =>
      simp only [pageHits, PageInval.covers, Bool.and_eq_true, hall, List.any_eq_true,
        List.contains_iff_mem]
  | invalidatePath method path p =>
      simp only [pageHits, PageInval.covers, Bool.and_eq_true, hall, beq_iff_eq, and_assoc]
  | invalidatePrefix p method =>
      simp only [pageHits, PageInval.covers, Bool.and_eq_true, hall, beq_iff_eq]
  | clear => simp only [pageHits, PageInval.covers]

def jobHits : JobInval → Option String → List String → Bool
  | .invalidateTags ts, _, tags => ts.any (tags.contains ·)
  | .invalidateUserKey u, userKey, _ => userKey == some u
  | .clear, _, _ => true

theorem jobHits_iff {i : JobInval} {userKey : Option String} {tags : List String} :
    jobHits i userKey tags = true ↔ i.covers userKey tags := by
  cases i with
  | invalidateTags ts =>
      simp only [jobHits, JobInval.covers, List.any_eq_true, List.contains_iff_mem]
  | invalidateUserKey u => simp only [jobHits, JobInval.covers, beq_iff_eq]
  | clear => simp only [jobHits, JobInval.covers]

/-- The entries of `s` and of `s'`, but for those a test selects. -/
structure Removed {K V : Type} [DecidableEq K] (s s' : Store K V) (p : K → Slot V →
    Bool) : Prop where
  drops : s.Drops s' p
  rep : s.Rep → s'.Rep
  within {capacity maxBytes : ℕ} : s.Within capacity maxBytes → s'.Within capacity maxBytes

/-- How many entries the page invalidation `i` counts. -/
def pageCount {B : Type} (s : Store CacheKey B) (now : ℕ) (i : PageInval) : ℕ :=
  let keys := s.selected fun key slot => pageHits i key slot.tags
  match i with
  | .invalidateTags .. => keys.length
  | _ => (keys.filter fun k => !s.dead now k).length

namespace LocalL1

variable {B : Type} {h : Server.Hasher}

theorem invalidate_spec (c : LocalL1 B) (hrep : c.store.Rep) (seq now : ℕ) (i : PageInval) :
    Removed c.store (c.invalidate h seq now i).1.store (fun key slot => pageHits i key slot.tags) ∧
      (c.invalidate h seq now i).2 = pageCount c.store now i := by
  cases i with
  | invalidateTags ts p =>
      cases p with
      | none =>
          obtain ⟨hdrops, hcount⟩ := Store.takeTags_spec hrep ts
          have hp : (fun (key : CacheKey) (slot : Slot B) =>
              pageHits (.invalidateTags ts none) key slot.tags) = Store.tagged ts := by
            funext key slot
            simp [pageHits, Store.tagged]
          refine ⟨⟨?_, fun _ => hrep.takeIndexed .., fun hw => hw.takeIndexed ..⟩, ?_⟩
          · rw [hp]; exact hdrops
          · rw [pageCount, hp]; exact hcount
      | some q =>
          obtain ⟨hdrops, hcount⟩ := Store.takeTaggedWhere_spec hrep ts (·.keyPrefix == q)
          exact ⟨⟨hdrops, fun _ => hrep.removeAll .., fun hw => hw.removeAll ..⟩, hcount⟩
  | invalidatePath method path p =>
      obtain ⟨hdrops, hcount⟩ := c.store.removeWhere_spec now fun k =>
        k.method == method && k.path == path && p.all (k.keyPrefix == ·)
      exact ⟨⟨hdrops, fun _ => hrep.removeAll .., fun hw => hw.removeAll ..⟩, hcount⟩
  | invalidatePrefix p method =>
      obtain ⟨hdrops, hcount⟩ := c.store.removeWhere_spec now fun k =>
        k.keyPrefix == p && method.all (k.method == ·)
      exact ⟨⟨hdrops, fun _ => hrep.removeAll .., fun hw => hw.removeAll ..⟩, hcount⟩
  | clear =>
      refine ⟨⟨c.store.drops_clear, fun _ => Store.rep_clear _, fun _ => ?_⟩,
        c.store.liveLen_eq now⟩
      exact ⟨Nat.zero_le _, Nat.zero_le _⟩

/-- An insert is refused by the check only. -/
theorem insert_stored (c : LocalL1 B) (htmlLen : B → ℕ) (a : PageInsert B) (now : ℕ) :
    (c.insert h htmlLen a now).2 = !c.invalidatedSince h a.key a.tags a.since := by
  unfold insert
  cases c.invalidatedSince h a.key a.tags a.since with
  | true => rfl
  | false =>
      simp only [Bool.false_eq_true, if_false]
      split <;> rfl

theorem limits_invalidate (c : LocalL1 B) (seq now : ℕ) (i : PageInval) :
    (c.invalidate h seq now i).1.capacity = c.capacity ∧
      (c.invalidate h seq now i).1.maxBytes = c.maxBytes := by
  cases i <;> exact ⟨rfl, rfl⟩

/-- The slots after an invalidation, at a clock value that no slot is past. -/
theorem slots_invalidate (c : LocalL1 B) {seq : ℕ} (hseq : ∀ r, c.slots r ≤ seq) (now : ℕ)
    (i : PageInval) :
    (c.invalidate h seq now i).1.slots = Stamps.publish c.slots (L1.inval h i).refs seq := by
  cases i with
  | clear =>
      show Function.update c.slots .clearedAt seq =
        Function.update c.slots .clearedAt (max (c.slots .clearedAt) seq)
      rw [max_eq_right (hseq _)]
  | _ => rfl

end LocalL1

namespace LocalJobs

variable {V : Type} {h : Jobs.Hasher}

theorem invalidate_spec (c : LocalJobs V) (hrep : c.store.Rep) (seq : ℕ) (i : JobInval) :
    Removed c.store (c.invalidate h seq i).store
      (fun _ slot => jobHits i slot.userKey slot.tags) := by
  cases i with
  | invalidateTags ts =>
      exact ⟨(Store.takeTags_spec hrep ts).1, fun _ => hrep.takeIndexed ..,
        fun hw => hw.takeIndexed ..⟩
  | invalidateUserKey u =>
      exact ⟨(Store.takeUser_spec hrep u).1, fun _ => hrep.takeIndexed true [u],
        fun hw => hw.takeIndexed true [u]⟩
  | clear =>
      exact ⟨c.store.drops_clear, fun _ => Store.rep_clear _,
        fun _ => ⟨Nat.zero_le _, Nat.zero_le _⟩⟩

theorem insert_stored (c : LocalJobs V) (a : JobInsert V) (now : ℕ) :
    (c.insert h a now).2 = !c.invalidatedSince h a.tags a.userKey a.since := by
  unfold insert
  cases c.invalidatedSince h a.tags a.userKey a.since <;> rfl

theorem capacity_invalidate (c : LocalJobs V) (seq : ℕ) (i : JobInval) :
    (c.invalidate h seq i).capacity = c.capacity := by
  cases i <;> rfl

theorem slots_invalidate (c : LocalJobs V) {seq : ℕ} (hseq : ∀ r, c.slots r ≤ seq)
    (i : JobInval) :
    (c.invalidate h seq i).slots = Stamps.publish c.slots (Jobs.inval h (.call i)).refs seq := by
  cases i with
  | clear =>
      show Function.update c.slots .clearedAt seq =
        Function.update c.slots .clearedAt (max (c.slots .clearedAt) seq)
      rw [max_eq_right (hseq _)]
  | _ => rfl

end LocalJobs

end Brust.Core.Local
