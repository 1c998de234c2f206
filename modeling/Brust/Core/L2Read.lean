import Brust.Core.Floor

/-!
# Core — reading the shared tier

`l2_read`, the adapter read on an L1 miss: what a lookup's answer becomes, which counter it moves
and what it puts into L1.  A hit is refused as floored when the floor rejects its stamp, and the
floor is asked for the path of the request target as it was sent, while the key of the page and
every raised name carry the normalised path.

So the floor agrees with what an invalidation covers exactly for the targets whose path is in
normal form (`l2_read_floors_iff`): in any other spelling an entry that a replayed invalidation of
its path covers is served (`l2_read_serves_covered`).  A replay raises the floor for arguments that
`Core::invalidate` refuses too, and then covers nothing.
-/

namespace Brust.Core

open Brust.Routing

/-- The route's `cache` block. -/
structure RouteCache where
  ttlSeconds : ℕ
  tags : List String

/-- A host's answer to one `l2_get`; a page is of any type. -/
inductive L2Lookup (P : Type) where
  | off
  | miss (stamp : Option ℕ)
  | floor (stamp : Option ℕ)
  | hit (page : P) (stamp entryStamp storedAtMs : Option ℕ)
  | timeout
  | failed (e : String)

/-- The counters `l2_read` moves. -/
inductive L2Counter where
  | hits
  | misses
  | rejectedFloor
  | timeouts
  | errors
  deriving DecidableEq

/-- Serve a page, or render; with `some`, write the render back under this key and stamp. -/
inductive L2Outcome (P : Type) where
  | served (page : P)
  | write (w : Option (CacheKey × Option ℕ))

/-- What `l2_read` did: its counter, its L1 insert (the page and its ttl) and its outcome. -/
structure L2Read (P : Type) where
  counter : Option L2Counter
  inserted : Option (P × ℕ)
  outcome : L2Outcome P

/-- The L1 TTL of a body read from L2, in milliseconds: what is left of `ttl` since it was stored,
at least a second. -/
def remainingTtl (ttl : ℕ) (storedAtMs : Option ℕ) (nowMs : ℕ) : Option ℕ :=
  match storedAtMs with
  | none => some ttl
  | some at_ =>
    if ttl ≤ nowMs - at_ then none else some (min (max (ttl - (nowMs - at_)) 1000) ttl)

def l2Read {P : Type} (floor : Floor) (k : CacheKey) (c : RouteCache) (full : String) (nowMs : ℕ) :
    L2Lookup P → L2Read P
  | .hit page stamp entryStamp storedAtMs =>
    if floor.rejects entryStamp k.keyPrefix (pathOf full) c.tags then
      ⟨some .rejectedFloor, none, .write (some (k, stamp))⟩
    else match remainingTtl (c.ttlSeconds * 1000) storedAtMs nowMs with
      | none => ⟨some .misses, none, .write (some (k, stamp))⟩
      | some ttl => ⟨some .hits, some (page, ttl), .served page⟩
  | .miss stamp => ⟨some .misses, none, .write (some (k, stamp))⟩
  | .floor stamp => ⟨some .rejectedFloor, none, .write (some (k, stamp))⟩
  | .timeout => ⟨some .timeouts, none, .write none⟩
  | .failed _ => ⟨some .errors, none, .write none⟩
  | .off => ⟨none, none, .write none⟩

/-- The entry was refused as floored. -/
def L2Read.floored {P : Type} (r : L2Read P) : Prop := r.counter = some .rejectedFloor

theorem floored_hit_iff {P : Type} (floor : Floor) (k : CacheKey) (c : RouteCache) (full : String)
    (nowMs : ℕ) (page : P) (stamp entryStamp storedAtMs : Option ℕ) :
    (l2Read floor k c full nowMs (.hit page stamp entryStamp storedAtMs)).floored ↔
      floor.rejects entryStamp k.keyPrefix (pathOf full) c.tags = true := by
  simp only [L2Read.floored, l2Read]
  split
  · next h => simp [h]
  · next h =>
    cases remainingTtl (c.ttlSeconds * 1000) storedAtMs nowMs with
    | none => simp [h]
    | some ttl => simp [h]

/-! ### The floor against what is covered -/

/-- A step of the floor outdates a page stamped `s`: a gap clear above `s`, or an invalidation above
`s` that covers the page. -/
def FloorOp.outdates (s : ℕ) (key : CacheKey) (tags : List String) : FloorOp → Prop
  | .raise args seq => s < seq ∧ args.covers key tags
  | .clearAt seq => s < seq

/-- After a run of the floor since its reset, it and the invalidations agree on the pages of a
request target: `l2_read` refuses an entry stamped `s` as floored exactly if some step of the run
outdates the page. -/
def FloorAgrees (full : String) (ops : List FloorOp) : Prop :=
  ∀ (px : String) (c : RouteCache) (s nowMs : ℕ) (P : Type) (page : P)
    (stamp storedAtMs : Option ℕ),
    (l2Read (Floor.run ops) (buildCacheKey "GET" full px) c full nowMs
      (.hit page stamp (some s) storedAtMs)).floored ↔
    ∃ op ∈ ops, op.outdates s (buildCacheKey "GET" full px) c.tags

/-- `Core::invalidate` takes the arguments, or they raise no name of a page of the target. -/
def Taken (full : String) (args : InvalidateArgs) : Prop :=
  args.valid = true ∨ ∀ px tags, ∀ n ∈ args.floorNames, n ∉ pageNames px (pathOf full) tags

theorem covers_valid {args : InvalidateArgs} {key : CacheKey} {tags : List String}
    (h : args.covers key tags) : args.valid = true := by
  by_contra hv
  obtain ⟨i, hi, -⟩ := h
  simp [InvalidateArgs.calls, hv] at hi

/-- The invalidation of a path, by whatever spelling. -/
def ofPath (path : String) : InvalidateArgs := ⟨none, [], some path, none, none⟩

/-- An invalidation of a path that is not in normal form floors none of its pages. -/
theorem rejects_ofPath {path : String} (h : normalizeRequestPath path ≠ path) (px : String) :
    (Floor.run [.raise (ofPath path) 1]).rejects (some 0) px path [] = false := by
  have hbelow : (Floor.run [.raise (ofPath path) 1]).below 0 (.path "GET" path) = false := by
    rw [← Bool.not_eq_true, Floor.below, Floor.run_names, Floor.lookup_raiseAll]
    · rintro ⟨p, hp, htext, -⟩
      obtain rfl : p = (.path "GET" (normalizeRequestPath path), 1) := List.mem_singleton.mp hp
      have := congrArg String.toList htext
      rw [FloorName.toList_text, FloorName.toList_text] at this
      exact h (String.toList_inj.mp (by simpa using this))
    · simp [FloorOp.raised, ofPath, InvalidateArgs.floorNames, FLOOR_NAMES]
  have hscoped : (Floor.run [.raise (ofPath path) 1]).hasScoped = false := rfl
  have hglobal : (Floor.run [.raise (ofPath path) 1]).global = none := rfl
  simp [Floor.rejects, hbelow, hscoped, hglobal]

/-- The run of one invalidation of the target's own path. -/
def ownPath (full : String) : List FloorOp := [.raise (ofPath (pathOf full)) 1]

/-- The invalidation covers those pages all the same. -/
theorem l2_read_serves_covered {full : String}
    (h : normalizeRequestPath (pathOf full) ≠ pathOf full) : ¬ FloorAgrees full (ownPath full) := by
  intro hall
  have hcov : (FloorOp.raise (ofPath (pathOf full)) 1).outdates 0 (buildCacheKey "GET" full "")
      [] := by
    refine ⟨Nat.zero_lt_one, (InvalidateArgs.covers_iff rfl _ _).mpr (.inr (.inl ?_))⟩
    exact ⟨pathOf full, rfl, rfl, rfl, by simp [ofPath]⟩
  have := (hall "" ⟨0, []⟩ 0 0 Unit () none none).mpr ⟨_, List.mem_singleton_self _, hcov⟩
  rw [floored_hit_iff, ownPath, rejects_ofPath h] at this
  cases this

theorem space_notMem_normal {full : String}
    (h : normalizeRequestPath (pathOf full) = pathOf full) : ' ' ∉ (pathOf full).toList := by
  rw [← h, normalizeRequestPath, String.toList_ofList]
  exact space_notMem_normalize _

/-- In the normal spelling what an invalidation raises of a page is what it covers, if it is
taken. -/
theorem floors_iff_covers_taken {full : String}
    (h : normalizeRequestPath (pathOf full) = pathOf full) {args : InvalidateArgs}
    (ht : Taken full args) (px : String) (tags : List String) :
    (∃ n ∈ args.floorNames, n ∈ pageNames px (pathOf full) tags) ↔
      args.covers (buildCacheKey "GET" full px) tags := by
  have hkey : (buildCacheKey "GET" full px).path = pathOf full := h
  by_cases hv : args.valid = true
  · have hn := floors_iff_covers hv (buildCacheKey "GET" full px) rfl tags
    rwa [hkey] at hn
  · constructor
    · rintro ⟨n, hn, hpage⟩
      exact absurd hpage ((ht.resolve_left hv) px tags n hn)
    · exact fun hcov => absurd (covers_valid hcov) hv

/-- In the normal spelling the floor agrees with what is covered. -/
theorem floorAgrees_of_normal {full : String}
    (h : normalizeRequestPath (pathOf full) = pathOf full) {ops : List FloorOp}
    (hnames : (namesOf ops).length ≤ FLOOR_NAMES)
    (htaken : ∀ args seq, .raise args seq ∈ ops → Taken full args) : FloorAgrees full ops := by
  intro px c s nowMs P page stamp storedAtMs
  rw [floored_hit_iff]
  refine (Floor.run_rejects_iff ops hnames s px (pathOf full) c.tags
    (space_notMem_normal h)).trans ?_
  constructor
  · rintro (⟨seq, hop, hlt⟩ | ⟨args, seq, hop, hlt, hn⟩)
    · exact ⟨_, hop, hlt⟩
    · exact ⟨_, hop, hlt, (floors_iff_covers_taken h (htaken _ _ hop) px c.tags).mp hn⟩
  · rintro ⟨op, hop, hout⟩
    cases op with
    | clearAt seq => exact .inl ⟨seq, hop, hout⟩
    | raise args seq =>
        have hn := (floors_iff_covers_taken h (htaken _ _ hop) px c.tags).mpr hout.2
        exact .inr ⟨args, seq, hop, hout.1, hn⟩

/-- Arguments that are not taken and raise a name of a page floor it and cover nothing. -/
theorem taken_of_floorAgrees {full : String}
    (h : normalizeRequestPath (pathOf full) = pathOf full) {args : InvalidateArgs}
    (hnames : (namesOf [.raise args 1]).length ≤ FLOOR_NAMES)
    (hagree : FloorAgrees full [.raise args 1]) : Taken full args := by
  refine or_iff_not_imp_left.mpr fun hv px tags n hn hpage => hv ?_
  have hrejects := (Floor.run_rejects_iff [.raise args 1] hnames 0 px (pathOf full) tags
    (space_notMem_normal h)).mpr
    (.inr ⟨args, 1, List.mem_singleton_self _, Nat.zero_lt_one, n, hn, hpage⟩)
  have hfloored := (floored_hit_iff (Floor.run [.raise args 1]) (buildCacheKey "GET" full px)
    ⟨0, tags⟩ full 0 () none (some 0) none).mpr hrejects
  obtain ⟨op, hop, hout⟩ := (hagree px ⟨0, tags⟩ 0 0 Unit () none none).mp hfloored
  cases List.mem_singleton.mp hop
  exact covers_valid hout.2

/-- **The floor agrees with what is covered exactly in the normal spelling** of the request path,
over the runs whose arguments are all taken; and of one raise, exactly if its arguments are. -/
theorem l2_read_floors_iff (full : String) :
    ((∀ ops : List FloorOp, (namesOf ops).length ≤ FLOOR_NAMES →
        (∀ args seq, .raise args seq ∈ ops → Taken full args) → FloorAgrees full ops) ↔
      normalizeRequestPath (pathOf full) = pathOf full) ∧
    (normalizeRequestPath (pathOf full) = pathOf full → ∀ args : InvalidateArgs,
      (namesOf [.raise args 1]).length ≤ FLOOR_NAMES →
        (FloorAgrees full [.raise args 1] ↔ Taken full args)) := by
  refine ⟨⟨fun hall => ?_, fun h ops => floorAgrees_of_normal h⟩, fun h args hnames =>
    ⟨taken_of_floorAgrees h hnames, fun ht => floorAgrees_of_normal h hnames ?_⟩⟩
  · by_contra hne
    refine l2_read_serves_covered hne (hall _ ?_ ?_)
    · simp [ownPath, namesOf, FloorOp.raised, ofPath, InvalidateArgs.floorNames, FLOOR_NAMES]
    · intro args seq hop
      cases List.mem_singleton.mp hop
      exact .inl rfl
  · intro args' seq hop
    cases List.mem_singleton.mp hop
    exact ht

/-- A lowercase percent escape: the page is covered, and its entry served. -/
theorem l2_read_stale_escape : ¬ ∀ full ops, (namesOf ops).length ≤ FLOOR_NAMES →
    (∀ args seq, .raise args seq ∈ ops → args.valid = true) → FloorAgrees full ops := by
  refine fun h => @l2_read_serves_covered "/caf%c3%a9" (by decide) (h _ _ (by decide) ?_)
  intro args seq hop
  cases List.mem_singleton.mp hop
  rfl

end Brust.Core
