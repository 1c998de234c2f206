import Brust.Support.Pool
import Brust.Cache.TagIndex
import Mathlib.Data.Option.Basic

/-!
# Cache — a read front over an evicting store

L1 and the job cache of the native host are one design: a front map that every read is served
from, an evicting store behind it (moka) whose listener reports each value it drops, an index from
names to keys, and a clock whose values every covering invalidation publishes in hashed slots.  A
`Store` says what one of the two is made of: the names and slots of an insert, what an invalidation
looks for, and the order a clear wipes in.  The machine below runs both.

A move is one locked section or one atomic load or store of the source, taken by one thread; a
move that starts a locked section takes the lock.  The evicting store is modelled by what it
promises: it may drop any value at any time (`evict`: capacity, admission, expiry), and every value
it drops, for whatever cause, is reported to the listener once, arbitrarily late and in any order
(`dropped`, `notify`).  `issued` and `landed` are history: the clock value each invalidation took,
and the insert that took each generation.
-/

namespace Brust.Cache

/-- `Instant::checked_add`: an instant past the clock's range is none. -/
def checkedAdd (limit now ttl : ℕ) : Option ℕ :=
  if now + ttl ≤ limit then some (now + ttl) else none

/-! ### What a store is made of -/

/-- An insert: the groups of names it is indexed under, one group an index, and the slots it
checks, in order. -/
structure Insert (K N R B : Type) where
  key : K
  body : B
  ttl : Option ℕ
  groups : List (List N)
  refs : List R
  since : ℕ

/-- What an invalidation publishes and what it removes: the keys indexed under names (those `keep`
selects), the keys a test hits, every key, or one key without publishing. -/
inductive Inval (K N R : Type) where
  | indexed (names : List N) (keep : Option (K → Bool)) (refs : List R)
  | scan (hit : K → Bool) (refs : List R)
  | clear (refs : List R)
  | key (k : K)

/-- One thing a clear wipes. -/
inductive Wipe (N : Type) where
  | index (sel : N → Bool)
  | moka
  | front (shard : ℕ)

/-- A store: how it reads its insert calls and invalidation calls, and what its clear wipes, in
order: the evicting store and every front shard, no shard before the store. -/
structure Store (K N R B A I : Type) where
  insert : A → Insert K N R B
  inval : I → Inval K N R
  shards : ℕ
  shardOf : K → ℕ
  shardOf_lt : ∀ k, shardOf k < shards
  wipe : List (Wipe N)
  wipe_front : ∀ n < shards, .front n ∈ wipe
  wipe_moka : .moka ∈ wipe
  wipe_order : ∀ n rest, .front n :: rest <:+ wipe → .moka ∉ rest
  limit : ℕ

variable {K N R B A I : Type}

def Insert.names (a : Insert K N R B) : List N := a.groups.flatten

def Inval.refs : Inval K N R → List R
  | .indexed _ _ refs => refs
  | .scan _ refs => refs
  | .clear refs => refs
  | .key _ => []

/-- Whether an invalidation holds the gate exclusively. -/
def Inval.gated : Inval K N R → Bool
  | .indexed .. => true
  | .clear _ => true
  | _ => false

/-- Whether an invalidation looks for the entry of `a`. -/
def Inval.finds (i : Inval K N R) (a : Insert K N R B) : Prop :=
  match i with
  | .indexed names keep _ => (∃ x ∈ names, x ∈ a.names) ∧ keeps keep a.key = true
  | .scan hit _ => hit a.key = true
  | .clear _ => True
  | .key _ => False

/-- An invalidation outdates an insert: it looks for its entry, and publishes a slot the insert
checks. -/
def Inval.outdates (i : Inval K N R) (a : Insert K N R B) : Prop :=
  i.finds a ∧ ∃ r ∈ i.refs, r ∈ a.refs

/-! ### The shared memory -/

/-- What the evicting store holds for a key. -/
structure Slot (N : Type) where
  ttl : Option ℕ
  groups : List (List N)
  generation : ℕ

structure FrontEntry (B : Type) where
  body : B
  expiresAt : Option ℕ
  generation : ℕ

structure Mem (K N R B A I : Type) where
  now : ℕ
  clock : ℕ
  slots : R → ℕ
  nextGeneration : ℕ
  index : TagIndex N K
  front : Map K (FrontEntry B)
  moka : Map K (Slot N)
  dropped : List (K × Slot N)
  landed : ℕ → Option A
  issued : List (I × ℕ)

def Mem.init : Mem K N R B A I where
  now := 0
  clock := 0
  slots := fun _ => 0
  nextGeneration := 0
  index := ∅
  front := ∅
  moka := ∅
  dropped := []
  landed := fun _ => none
  issued := []

/-- Whether an entry has not expired. -/
def FrontEntry.live (now : ℕ) (e : FrontEntry B) : Bool := e.expiresAt.all (now < ·)

section
variable [DecidableEq K]

/-- The entry `get` serves at `k`. -/
def Mem.served (m : Mem K N R B A I) (k : K) : Option (FrontEntry B) :=
  (m.front.lookup k).filter (·.live m.now)

/-- `get`: one read section of the front shard. -/
def Mem.get (m : Mem K N R B A I) (k : K) : Option B := (m.served k).map (·.body)

/-- Remove `key` from the front if it still holds the entry stamped `generation`. -/
def removeFront (front : Map K (FrontEntry B)) (key : K) (generation : ℕ) : Map K (FrontEntry B) :=
  if (front.lookup key).any (·.generation == generation) then front.erase key else front

/-- What a store drops when the value at `k` goes. -/
def droppedAt (moka : Map K (Slot N)) (k : K) : List (K × Slot N) :=
  ((moka.lookup k).map fun slot => (k, slot)).toList

/-- The evicting store forgets `k`; the listener is owed the value. -/
def Mem.unmoka (m : Mem K N R B A I) (k : K) : Mem K N R B A I :=
  { m with moka := m.moka.erase k, dropped := droppedAt m.moka k ++ m.dropped }

/-- The front forgets `k`. -/
def Mem.unfront (m : Mem K N R B A I) (k : K) : Mem K N R B A I :=
  { m with front := m.front.erase k }

/-- The insert's front write. -/
def Mem.putFront (m : Mem K N R B A I) (limit : ℕ) (a : Insert K N R B) (g : ℕ) :
    Mem K N R B A I :=
  { m with front := m.front.insert a.key ⟨a.body, a.ttl.bind (checkedAdd limit m.now), g⟩ }

/-- The insert's write to the evicting store; a replaced value is dropped. -/
def Mem.putMoka (m : Mem K N R B A I) (a : Insert K N R B) (g : ℕ) : Mem K N R B A I :=
  { m with
    moka := m.moka.insert a.key ⟨a.ttl, a.groups, g⟩
    dropped := droppedAt m.moka a.key ++ m.dropped }

/-- One wipe of a clear. -/
def Mem.wipe (m : Mem K N R B A I) (shardOf : K → ℕ) : Wipe N → Mem K N R B A I
  | .index sel => { m with index := m.index.restrict fun x => !sel x }
  | .moka => { m with
      moka := ∅
      dropped := m.moka.keys.flatMap (droppedAt m.moka) ++ m.dropped }
  | .front n => { m with front := m.front.restrict fun k => !(shardOf k == n) }

end

/-! ### Threads -/

inductive InsertPc (R : Type) where
  /-- Holds the gate shared, waits for its key's stripe. -/
  | stripe
  /-- Loads the slots one by one. -/
  | check (rest : List R)
  /-- Holds a generation; `n` groups are indexed. -/
  | index (generation n : ℕ)
  /-- The front is written, the evicting store is not. -/
  | moka (generation : ℕ)
  | done (ok : Bool)

inductive InvalPc (K N R : Type) where
  | next
  | publish (seq : ℕ) (rest : List R)
  | remove (seq n : ℕ) (keys : List K)
  | removeFront (seq n : ℕ) (k : K) (keys : List K)
  | scan (seq now live shard : ℕ)
  | scanMoka (seq now live shard : ℕ) (keys : List K)
  | scanFront (seq now live shard : ℕ) (k : K) (keys : List K)
  | wipe (seq : ℕ) (rest : List (Wipe N))
  | done (seq n : ℕ)

inductive Thread (K N R A I : Type) where
  | idle
  | insert (a : A) (pc : InsertPc R)
  | inval (i : I) (pc : InvalPc K N R)
  /-- The listener on one dropped value; `n` groups are pruned. -/
  | listen (k : K) (slot : Slot N) (n : ℕ)

def InvalPc.returned : InvalPc K N R → Bool
  | .done .. => true
  | _ => false

/-- The clock value an invalidation runs under. -/
def InvalPc.seq : InvalPc K N R → Option ℕ
  | .next => none
  | .publish seq _ => some seq
  | .remove seq _ _ => some seq
  | .removeFront seq _ _ _ => some seq
  | .scan seq _ _ _ => some seq
  | .scanMoka seq _ _ _ _ => some seq
  | .scanFront seq _ _ _ _ _ => some seq
  | .wipe seq _ => some seq
  | .done seq _ => some seq

namespace Store

variable (S : Store K N R B A I)

/-! ### Locks -/

def gateRead : Thread K N R A I → Bool
  | .insert _ (.done _) => false
  | .insert _ _ => true
  | _ => false

def gateWrite : Thread K N R A I → Bool
  | .inval i pc => (S.inval i).gated && !pc.returned
  | _ => false

/-- The stripe a thread holds. -/
def stripe : Thread K N R A I → Option ℕ
  | .insert _ .stripe => none
  | .insert _ (.done _) => none
  | .insert a _ => some (S.shardOf (S.insert a).key)
  | .inval _ (.removeFront _ _ k _) => some (S.shardOf k)
  | .inval _ (.scanMoka _ _ _ shard _) => some shard
  | .inval _ (.scanFront _ _ _ shard _ _) => some shard
  | _ => none

/-- Two threads may not hold the gate, one of them exclusively, or the same stripe. -/
def conflict (c d : Thread K N R A I) : Prop :=
  (S.gateWrite c = true ∧ (S.gateWrite d = true ∨ gateRead d = true)) ∨
  (gateRead c = true ∧ S.gateWrite d = true) ∨
  ∃ n, S.stripe c = some n ∧ S.stripe d = some n

theorem conflict_symm {c d : Thread K N R A I} (h : S.conflict c d) : S.conflict d c := by
  rcases h with ⟨h, h' | h'⟩ | ⟨h, h'⟩ | ⟨n, h, h'⟩
  · exact .inl ⟨h', .inl h⟩
  · exact .inr (.inl ⟨h', h⟩)
  · exact .inl ⟨h', .inr h⟩
  · exact .inr (.inr ⟨n, h', h⟩)

/-! ### Moves -/

variable [DecidableEq K] [DecidableEq N] [DecidableEq R]

/-- The keys of a shard that a scan hits. -/
def hits (m : Mem K N R B A I) (hit : K → Bool) (shard : ℕ) : List K :=
  m.front.keys.filter fun k => S.shardOf k == shard && hit k

/-- How many of them are live at `now`. -/
def liveHits (m : Mem K N R B A I) (hit : K → Bool) (shard now : ℕ) : ℕ :=
  (S.hits m hit shard).countP fun k => (m.front.lookup k).any (·.live now)

inductive Move : Mem K N R B A I → Thread K N R A I → Mem K N R B A I →
    Thread K N R A I → Prop where
  | tick {m : Mem K N R B A I} (d : ℕ) : Move m .idle { m with now := m.now + d } .idle
  | evict {m : Mem K N R B A I} (k : K) : Move m .idle (m.unmoka k) .idle
  | notify {m : Mem K N R B A I} {k : K} {slot : Slot N} {pre post : List (K × Slot N)}
      (h : m.dropped = pre ++ (k, slot) :: post) :
      Move m .idle { m with dropped := pre ++ post } (.listen k slot 0)
  | prune {m : Mem K N R B A I} {k : K} {slot : Slot N} {n : ℕ} {names : List N}
      (h : slot.groups[n]? = some names) :
      Move m (.listen k slot n) { m with index := pruneTags m.index k names slot.generation }
        (.listen k slot (n + 1))
  | unfront {m : Mem K N R B A I} {k : K} {slot : Slot N} {n : ℕ} (h : slot.groups[n]? = none) :
      Move m (.listen k slot n) { m with front := removeFront m.front k slot.generation } .idle
  -- insert
  | gate {m : Mem K N R B A I} (a : A) : Move m .idle m (.insert a .stripe)
  | stripe {m : Mem K N R B A I} {a : A} :
      Move m (.insert a .stripe) m (.insert a (.check (S.insert a).refs))
  | refuse {m : Mem K N R B A I} {a : A} {r : R} {rest : List R}
      (h : (S.insert a).since < m.slots r) :
      Move m (.insert a (.check (r :: rest))) m (.insert a (.done false))
  | pass {m : Mem K N R B A I} {a : A} {r : R} {rest : List R}
    (h : m.slots r ≤ (S.insert a).since) :
      Move m (.insert a (.check (r :: rest))) m (.insert a (.check rest))
  | stamp {m : Mem K N R B A I} {a : A} :
      Move m (.insert a (.check []))
        { m with
          nextGeneration := m.nextGeneration + 1
          landed := Function.update m.landed m.nextGeneration (some a) }
        (.insert a (.index m.nextGeneration 0))
  | index {m : Mem K N R B A I} {a : A} {g n : ℕ} {names : List N}
      (h : (S.insert a).groups[n]? = some names) :
      Move m (.insert a (.index g n)) { m with index := indexTags m.index (S.insert a).key names g }
        (.insert a (.index g (n + 1)))
  | front {m : Mem K N R B A I} {a : A} {g n : ℕ} (h : (S.insert a).groups[n]? = none) :
      Move m (.insert a (.index g n)) (m.putFront S.limit (S.insert a) g) (.insert a (.moka g))
  | moka {m : Mem K N R B A I} {a : A} {g : ℕ} :
      Move m (.insert a (.moka g)) (m.putMoka (S.insert a) g) (.insert a (.done true))
  | inserted {m : Mem K N R B A I} {a : A} {ok : Bool} : Move m (.insert a (.done ok)) m .idle
  -- invalidations: the clock value, then the slots
  | start {m : Mem K N R B A I} {i : I} (h : ∀ k, S.inval i ≠ .key k) :
      Move m .idle m (.inval i .next)
  | removeKey {m : Mem K N R B A I} {i : I} {k : K} (h : S.inval i = .key k) :
      Move m .idle m (.inval i (.remove 0 0 [k]))
  | next {m : Mem K N R B A I} {i : I} :
      Move m (.inval i .next)
        { m with clock := m.clock + 1, issued := (i, m.clock + 1) :: m.issued }
        (.inval i (.publish (m.clock + 1) (S.inval i).refs))
  | publish {m : Mem K N R B A I} {i : I} {seq : ℕ} {r : R} {rest : List R} :
      Move m (.inval i (.publish seq (r :: rest)))
        { m with slots := Function.update m.slots r (max (m.slots r) seq) }
        (.inval i (.publish seq rest))
  -- by the index
  | take {m : Mem K N R B A I} {i : I} {seq : ℕ} {names : List N} {keep : Option (K → Bool)}
      {refs : List R} (h : S.inval i = .indexed names keep refs) :
      Move m (.inval i (.publish seq []))
        { m with index := (take m.index names keep).1 }
        (.inval i (.remove seq (take m.index names keep).2.length (take m.index names keep).2))
  | removeMoka {m : Mem K N R B A I} {i : I} {seq n : ℕ} {k : K} {keys : List K} :
      Move m (.inval i (.remove seq n (k :: keys))) (m.unmoka k)
        (.inval i (.removeFront seq n k keys))
  | removeFront {m : Mem K N R B A I} {i : I} {seq n : ℕ} {k : K} {keys : List K} :
      Move m (.inval i (.removeFront seq n k keys)) (m.unfront k) (.inval i (.remove seq n keys))
  | removed {m : Mem K N R B A I} {i : I} {seq n : ℕ} :
      Move m (.inval i (.remove seq n [])) m (.inval i (.done seq n))
  -- by a scan
  | scan {m : Mem K N R B A I} {i : I} {seq : ℕ} {hit : K → Bool} {refs : List R}
      (h : S.inval i = .scan hit refs) :
      Move m (.inval i (.publish seq [])) m (.inval i (.scan seq m.now 0 0))
  | collect {m : Mem K N R B A I} {i : I} {seq now live shard : ℕ} {hit : K → Bool} {refs : List R}
      (h : S.inval i = .scan hit refs) (hs : shard < S.shards) :
      Move m (.inval i (.scan seq now live shard)) m
        (.inval i (.scanMoka seq now (live + S.liveHits m hit shard now) shard
          (S.hits m hit shard)))
  | scanMoka {m : Mem K N R B A I} {i : I} {seq now live shard : ℕ} {k : K} {keys : List K} :
      Move m (.inval i (.scanMoka seq now live shard (k :: keys))) (m.unmoka k)
        (.inval i (.scanFront seq now live shard k keys))
  | scanFront {m : Mem K N R B A I} {i : I} {seq now live shard : ℕ} {k : K} {keys : List K} :
      Move m (.inval i (.scanFront seq now live shard k keys)) (m.unfront k)
        (.inval i (.scanMoka seq now live shard keys))
  | nextShard {m : Mem K N R B A I} {i : I} {seq now live shard : ℕ} :
      Move m (.inval i (.scanMoka seq now live shard [])) m
        (.inval i (.scan seq now live (shard + 1)))
  | scanned {m : Mem K N R B A I} {i : I} {seq now live shard : ℕ} (hs : S.shards ≤ shard) :
      Move m (.inval i (.scan seq now live shard)) m (.inval i (.done seq live))
  -- by a clear
  | clear {m : Mem K N R B A I} {i : I} {seq : ℕ} {refs : List R} (h : S.inval i = .clear refs) :
      Move m (.inval i (.publish seq [])) m (.inval i (.wipe seq S.wipe))
  | wipe {m : Mem K N R B A I} {i : I} {seq : ℕ} {w : Wipe N} {rest : List (Wipe N)} :
      Move m (.inval i (.wipe seq (w :: rest))) (m.wipe S.shardOf w) (.inval i (.wipe seq rest))
  | wiped {m : Mem K N R B A I} {i : I} {seq : ℕ} :
      Move m (.inval i (.wipe seq [])) m (.inval i (.done seq 0))
  | returned {m : Mem K N R B A I} {i : I} {seq n : ℕ} : Move m (.inval i (.done seq n)) m .idle

abbrev State (_ : Store K N R B A I) := Pool (Mem K N R B A I) (Thread K N R A I)

abbrev Step : S.State → ℕ → S.State → Prop := Pool.Step S.Move S.conflict

/-- An empty store, every thread idle. -/
def Init (s : S.State) : Prop := s.mem = .init ∧ ∀ t, s.threads t = .idle

/-- An invalidation returned: it took its clock value, and no thread is inside it. -/
def Returned (s : S.State) (i : I) (seq : ℕ) : Prop :=
  (i, seq) ∈ s.mem.issued ∧ ∀ t pc, s.threads t = .inval i pc → pc.seq ≠ some seq

end Store

end Brust.Cache
