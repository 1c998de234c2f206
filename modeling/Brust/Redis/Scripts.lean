import Brust.Adapter.Broadcast
import Brust.Redis.Keys
import Mathlib.Data.Finset.Union
import Mathlib.Data.Finset.Option
import Mathlib.Order.Lattice

/-!
# Redis — the two scripts

The state of one namespace on the server, and the two scripts that change it, each atomically:
`SET_LUA`, the guarded write of a page, and `INVAL_LUA`, which raises the markers of an
invalidation, takes its members out of the index sets and publishes its event.

Each script has one lemma for each part of the state it changes.  `mem_members` says which pages an
invalidation returns, and `Db.mem_sets_inval` that those it does not return stay indexed.
-/

namespace Brust.Redis

open Brust.Adapter Brust.Core

structure SetMeta where
  ttlMs : ℕ
  tags : List String
  method : String
  path : String
  keyPrefix : Option String
  stamp : Option ℕ

/-- A page as it is stored: its frame, and the key prefix it was set with. -/
structure Page (B : Type) where
  body : B
  entryStamp : Option ℕ
  storedAt : ℕ
  tags : List String
  method : String
  path : String
  keyPrefix : String

/-- A namespace: the sequence, the markers (zero if absent), the index sets, the pages, each with
its expiry, and what was published. -/
structure Db (B : Type) where
  now : ℕ
  seq : ℕ
  marks : Index → ℕ
  sets : Index → Finset String
  setExpires : Index → ℕ
  pages : String → Option (Page B × ℕ)
  channel : List Event

namespace Db

variable {B : Type}

def empty : Db B := ⟨0, 0, fun _ => 0, fun _ => ∅, fun _ => 0, fun _ => none, []⟩

/-- Time passes, and what has expired is gone. -/
def expire (db : Db B) (now : ℕ) : Db B :=
  { db with
    now := now
    sets := fun i => if db.setExpires i ≤ now then ∅ else db.sets i
    pages := fun k => (db.pages k).filter fun p => decide (now < p.2) }

def unlink (db : Db B) (ks : Finset String) : Db B :=
  { db with pages := fun k => if k ∈ ks then none else db.pages k }

/-! ### `SET_LUA` -/

/-- `SADD`, and `PEXPIRE` unless the set lives longer than the page. -/
def index (db : Db B) (k : String) (ttl : ℕ) (i : Index) : Db B :=
  { db with
    sets := Function.update db.sets i (insert k (db.sets i))
    setExpires := Function.update db.setExpires i
      (if db.sets i = ∅ ∨ db.setExpires i < db.now + ttl then db.now + ttl
        else db.setExpires i) }

/-- `SET_LUA`: refused (0) by a marker above the stamp, or lost (-1) with the staging key, or
written (1) and indexed. -/
def set (db : Db B) (stage : Option (Page B)) (k : String) (stamp : Option ℕ) (ttl : ℕ)
    (idx : List Index) : Db B × ℤ :=
  if stamp.any fun s => idx.any fun i => decide (s < db.marks i) then (db, 0)
  else match stage with
    | none => (db, -1)
    | some page =>
      (idx.foldl (fun db i => db.index k ttl i)
        { db with pages := Function.update db.pages k (some (page, db.now + ttl)) }, 1)

end Db

section
variable (upper : String → String)

/-- The index sets a page joins. -/
def SetMeta.idx (m : SetMeta) : List Index :=
  (newSet m.tags).map .tag ++
    [.path (pathName upper (some (upper m.method)) m.path), .pfx (m.keyPrefix.getD "")]

/-- The index sets a stored page is a member of. -/
def Page.idx {B : Type} (p : Page B) : List Index :=
  p.tags.map .tag ++ [.path (pathName upper (some p.method) p.path), .pfx p.keyPrefix]

/-- The frame `store.set` stages. -/
def framed {B : Type} (body : B) (m : SetMeta) (now : ℕ) : Page B :=
  ⟨body, m.stamp, now, newSet m.tags, upper m.method, m.path, m.keyPrefix.getD ""⟩

/-- The index sets an invalidation works on, and the one that filters them. -/
structure Targets where
  idx : List Index
  filter : Option Index

/-- The targets select a member: it is in one of the index sets, and in the filter. -/
def Targets.selects (t : Targets) (sets : Index → Finset String) (m : String) : Prop :=
  ∃ i ∈ t.idx, m ∈ sets i ∧ ∀ f, t.filter = some f → m ∈ sets f

/-- The sets of the tags and of the path. -/
def namedIdx (a : InvalidateArgs) : List Index :=
  (newSet a.tags).map .tag ++ a.path.toList.map fun p => .path (pathName upper a.method p)

/-- What `Pairing.exec` makes of the arguments. -/
def targets (a : InvalidateArgs) : Targets :=
  match a.keyPrefix with
  | none => ⟨namedIdx upper a, none⟩
  | some x =>
    if namedIdx upper a ≠ [] then ⟨namedIdx upper a, some (.pfx x)⟩
    else if a.method.all fun m => upper m = "GET" then ⟨[.pfx x], none⟩
    else ⟨[], none⟩

end

/-! ### `INVAL_LUA` -/

inductive Mode where
  | both
  | delete
  | publish
  deriving DecidableEq

structure InvalResult where
  seq : ℕ
  members : Finset String

namespace Db

variable {B : Type}

/-- `SET` the marker to `v`, unless it is above. -/
def mark (db : Db B) (v : ℕ) (i : Index) : Db B :=
  { db with
    marks := Function.update db.marks i (if db.marks i < v then v else db.marks i) }

/-- `SINTER` with the filter, and `SREM` from both. -/
def takeFiltered (f : Index) (acc : Db B × Finset String) (i : Index) : Db B × Finset String :=
  let ms := acc.1.sets i ∩ acc.1.sets f
  let sets := Function.update acc.1.sets i (acc.1.sets i \ ms)
  ({ acc.1 with sets := Function.update sets f (sets f \ ms) }, acc.2 ∪ ms)

/-- The members of the targets, taken out: by the filter, or `SUNION` and `DEL`. -/
def take (db : Db B) (t : Targets) : Db B × Finset String :=
  match t.filter with
  | some f => t.idx.foldl (takeFiltered f) (db, ∅)
  | none =>
    ({ db with sets := fun i => if i ∈ t.idx then ∅ else db.sets i },
      t.idx.foldl (fun ms i => ms ∪ db.sets i) ∅)

def inval (db : Db B) (mode : Mode) (t : Targets) (origin : String) (args : InvalidateArgs) :
    Db B × InvalResult :=
  let v := db.seq + 1
  let db := if mode = .delete then db else { db with seq := v }
  let db := t.idx.foldl (fun db i => db.mark v i) db
  let (db, members) := if mode = .publish then (db, ∅) else db.take t
  let db := if mode = .delete then db
    else { db with channel := db.channel ++ [⟨v, origin, args⟩] }
  (db, ⟨if mode = .delete then v - 1 else v, members⟩)

end Db

/-! ### What `SET_LUA` changes -/

namespace Db

variable {B : Type} {db : Db B}

theorem foldl_index (k : String) (ttl : ℕ) (idx : List Index) :
    let db' := idx.foldl (fun db i => db.index k ttl i) db
    (db'.now = db.now ∧ db'.seq = db.seq ∧ db'.marks = db.marks ∧ db'.pages = db.pages ∧
      db'.channel = db.channel) ∧
    (∀ i, db'.sets i = if i ∈ idx then insert k (db.sets i) else db.sets i) ∧
    (∀ i, db.sets i ≠ ∅ → db.setExpires i ≤ db'.setExpires i) ∧
    ∀ i ∈ idx, db.now + ttl ≤ db'.setExpires i := by
  induction idx using List.reverseRecOn with
  | nil => simp
  | append_singleton idx j ih =>
      obtain ⟨⟨hnow, hseq, hmarks, hpages, hchannel⟩, hsets, hold, hnew⟩ := ih
      rw [List.foldl_append]
      simp only [List.foldl_cons, List.foldl_nil]
      generalize idx.foldl (fun db i => db.index k ttl i) db = db₁ at *
      refine ⟨⟨hnow, hseq, hmarks, hpages, hchannel⟩, fun i => ?_, fun i hi => ?_, fun i hi => ?_⟩
      · by_cases e : i = j
        · subst e
          simp only [index, Function.update_self, List.mem_append, List.mem_singleton, or_true,
            if_true, hsets]
          split
          · rw [Finset.insert_idem]
          · rfl
        · simp [index, e, hsets]
      · refine le_trans (hold i hi) ?_
        by_cases e : i = j
        · subst e
          have hne : db₁.sets i ≠ ∅ := by
            rw [hsets]
            split
            · exact Finset.insert_ne_empty _ _
            · exact hi
          simp only [index, Function.update_self, hne, false_or]
          split
          · next h => exact le_of_lt h
          · exact le_rfl
        · simp [index, e]
      · by_cases e : i = j
        · subst e
          simp only [index, Function.update_self, ← hnow]
          split
          · exact le_rfl
          · next h => exact Nat.le_of_not_lt fun hlt => h (.inr hlt)
        · simp only [index, Function.update_of_ne e]
          exact hnew i ((List.mem_append.mp hi).resolve_right fun h => e (List.mem_singleton.mp h))

/-- `SET_LUA` changes nothing, or writes a page no marker outdates and indexes it. -/
theorem set_cases (stage : Option (Page B)) (k : String) (stamp : Option ℕ) (ttl : ℕ)
    (idx : List Index) :
    (db.set stage k stamp ttl idx).1 = db ∨ ∃ page db', stage = some page ∧
      (db.set stage k stamp ttl idx).1 = db' ∧
      (∀ s, stamp = some s → ∀ i ∈ idx, db.marks i ≤ s) ∧
      (db'.now = db.now ∧ db'.seq = db.seq ∧ db'.marks = db.marks ∧ db'.channel = db.channel) ∧
      db'.pages = Function.update db.pages k (some (page, db.now + ttl)) ∧
      (∀ i, db'.sets i = if i ∈ idx then insert k (db.sets i) else db.sets i) ∧
      (∀ i, db.sets i ≠ ∅ → db.setExpires i ≤ db'.setExpires i) ∧
      ∀ i ∈ idx, db.now + ttl ≤ db'.setExpires i := by
  unfold set
  split
  · exact .inl rfl
  · next hmarks =>
    cases stage with
    | none => exact .inl rfl
    | some page =>
        obtain ⟨⟨hnow, hseq, hm, hpages, hchannel⟩, hsets, hold, hnew⟩ := @foldl_index B
          { db with pages := Function.update db.pages k (some (page, db.now + ttl)) } k ttl idx
        refine .inr ⟨page, _, rfl, rfl, fun s hs i hi => ?_, ⟨hnow, hseq, hm, hchannel⟩, hpages,
          hsets, hold, hnew⟩
        by_contra hlt
        refine hmarks ?_
        simp only [hs, Option.any_some, List.any_eq_true, decide_eq_true_eq]
        exact ⟨i, hi, Nat.lt_of_not_le hlt⟩

/-! ### What `INVAL_LUA` changes -/

theorem foldl_mark (v : ℕ) (idx : List Index) :
    idx.foldl (fun db i => db.mark v i) db =
      { db with marks := fun i => if i ∈ idx then max v (db.marks i) else db.marks i } := by
  induction idx using List.reverseRecOn with
  | nil => simp
  | append_singleton idx j ih =>
      rw [List.foldl_append, ih]
      simp only [List.foldl_cons, List.foldl_nil, mark, Db.mk.injEq, true_and, and_true]
      funext i
      by_cases e : i = j
      · subst e
        simp only [Function.update_self, List.mem_append, List.mem_singleton, or_true, if_true]
        split <;> split <;> omega
      · simp [e]

theorem takeFiltered_sets (f : Index) (acc : Db B × Finset String) (i j : Index) (m : String) :
    (m ∈ (takeFiltered f acc i).1.sets j → m ∈ acc.1.sets j) ∧
    (m ∈ acc.1.sets j → ¬ (m ∈ acc.1.sets i ∧ m ∈ acc.1.sets f) →
      m ∈ (takeFiltered f acc i).1.sets j) := by
  by_cases hf : j = f
  · subst hf
    by_cases hi : j = i
    · subst hi; simp [takeFiltered]
    · simp [takeFiltered, hi]; tauto
  · by_cases hi : j = i
    · subst hi; simp [takeFiltered, hf]; tauto
    · simp [takeFiltered, hf, hi]; tauto

theorem foldl_takeFiltered (f : Index) (idx : List Index) :
    let r := idx.foldl (takeFiltered f) (db, ∅)
    r.1 = { db with sets := r.1.sets } ∧
    (∀ m, m ∈ r.2 ↔ ∃ i ∈ idx, m ∈ db.sets i ∧ m ∈ db.sets f) ∧
    (∀ i m, m ∈ r.1.sets i → m ∈ db.sets i) ∧
    ∀ i m, m ∈ db.sets i → m ∉ r.2 → m ∈ r.1.sets i := by
  induction idx using List.reverseRecOn with
  | nil => simp
  | append_singleton idx j ih =>
      obtain ⟨hdb, hmem, hsub, hkeep⟩ := ih
      rw [List.foldl_append]
      simp only [List.foldl_cons, List.foldl_nil]
      generalize idx.foldl (takeFiltered f) (db, ∅) = r at *
      have hmem' : ∀ m, m ∈ (takeFiltered f r j).2 ↔
          m ∈ r.2 ∨ m ∈ r.1.sets j ∧ m ∈ r.1.sets f := by
        simp [takeFiltered]
      refine ⟨?_, fun m => ?_, fun i m h => hsub i m ((takeFiltered_sets f r j i m).1 h),
        fun i m h hm => ?_⟩
      · rw [takeFiltered, hdb]
      · rw [hmem', hmem]
        simp only [List.mem_append, List.mem_singleton, or_and_right, exists_or, exists_eq_left]
        constructor
        · rintro (h | ⟨hj, hf⟩)
          · exact .inl h
          · exact .inr ⟨hsub j m hj, hsub f m hf⟩
        · rintro (h | ⟨hj, hf⟩)
          · exact .inl h
          · by_cases hm : m ∈ r.2
            · exact .inl ((hmem m).mp hm)
            · exact .inr ⟨hkeep j m hj hm, hkeep f m hf hm⟩
      · rw [hmem', not_or] at hm
        exact (takeFiltered_sets f r j i m).2 (hkeep i m h hm.1) hm.2

theorem take_spec (t : Targets) :
    (db.take t).1 = { db with sets := (db.take t).1.sets } ∧
    (∀ m, m ∈ (db.take t).2 ↔ t.selects db.sets m) ∧
    (∀ i m, m ∈ (db.take t).1.sets i → m ∈ db.sets i) ∧
    ∀ i m, m ∈ db.sets i → m ∉ (db.take t).2 → m ∈ (db.take t).1.sets i := by
  obtain ⟨idx, filter⟩ := t
  cases filter with
  | some f => simpa [Targets.selects, take] using @foldl_takeFiltered B db f idx
  | none =>
      have hmem : ∀ m, m ∈ idx.foldl (fun ms i => ms ∪ db.sets i) ∅ ↔ ∃ i ∈ idx, m ∈ db.sets i := by
        intro m
        induction idx using List.reverseRecOn with
        | nil => simp
        | append_singleton idx j ih => simp [List.foldl_append, ih, or_and_right, exists_or]
      refine ⟨rfl, fun m => by simp [take, hmem, Targets.selects], fun i m h => ?_,
        fun i m h hm => ?_⟩
      · simp only [take] at h
        split at h
        · simp at h
        · exact h
      · simp only [take]
        split
        · next hi => exact absurd ((hmem m).mpr ⟨i, hi, h⟩) hm
        · exact h

/-- The state the members are taken from: the markers raised, and the sequence unless the mode is
`delete`. -/
def marked (db : Db B) (mode : Mode) (t : Targets) : Db B :=
  { db with
    seq := if mode = .delete then db.seq else db.seq + 1
    marks := fun i => if i ∈ t.idx then max (db.seq + 1) (db.marks i) else db.marks i }

/-- What the members are: none for a publish. -/
def taken (db : Db B) (mode : Mode) (t : Targets) : Db B × Finset String :=
  if mode = .publish then (db.marked mode t, ∅) else (db.marked mode t).take t

theorem inval_eq (mode : Mode) (t : Targets) (origin : String) (args : InvalidateArgs) :
    db.inval mode t origin args =
      ({ (db.taken mode t).1 with
          channel := (db.taken mode t).1.channel ++
            if mode = .delete then [] else [⟨db.seq + 1, origin, args⟩] },
        ⟨if mode = .delete then db.seq else db.seq + 1, (db.taken mode t).2⟩) := by
  cases mode with
  | delete => simp [inval, foldl_mark, taken, marked]
  | both => simp [inval, foldl_mark, taken, marked]
  | publish => simp [inval, foldl_mark, taken, marked]

theorem taken_spec (mode : Mode) (t : Targets) :
    (db.taken mode t).1 = { db.marked mode t with sets := (db.taken mode t).1.sets } ∧
    (∀ m, m ∈ (db.taken mode t).2 ↔ mode ≠ .publish ∧ t.selects db.sets m) ∧
    (∀ i m, m ∈ (db.taken mode t).1.sets i → m ∈ db.sets i) ∧
    ∀ i m, m ∈ db.sets i → m ∉ (db.taken mode t).2 → m ∈ (db.taken mode t).1.sets i := by
  unfold taken
  split
  · next h => exact ⟨by simp [marked], by simp [h], fun i m h => h, fun i m h _ => h⟩
  · next h =>
    obtain ⟨hdb, hmem, hsub, hkeep⟩ := @take_spec B (db.marked mode t) t
    exact ⟨hdb, fun m => by rw [hmem]; simp [h, marked], hsub, hkeep⟩

/-- **What `INVAL_LUA` changes**: the sequence, the markers and the channel; and it takes out of the
index sets no member that it does not return. -/
theorem inval_spec (mode : Mode) (t : Targets) (origin : String) (args : InvalidateArgs) :
    let r := db.inval mode t origin args
    (r.1.now = db.now ∧ r.1.pages = db.pages ∧ r.1.setExpires = db.setExpires) ∧
    (r.1.seq = if mode = .delete then db.seq else db.seq + 1) ∧
    (∀ i, r.1.marks i = if i ∈ t.idx then max (db.seq + 1) (db.marks i) else db.marks i) ∧
    (r.1.channel = db.channel ++
      if mode = .delete then [] else [⟨db.seq + 1, origin, args⟩]) ∧
    (r.2.seq = if mode = .delete then db.seq else db.seq + 1) ∧
    (∀ m, m ∈ r.2.members ↔ mode ≠ .publish ∧ t.selects db.sets m) ∧
    (∀ i m, m ∈ r.1.sets i → m ∈ db.sets i) ∧
    ∀ i m, m ∈ db.sets i → m ∉ r.2.members → m ∈ r.1.sets i := by
  obtain ⟨hdb, hmem, hsub, hkeep⟩ := @taken_spec B db mode t
  rw [inval_eq]
  simp only
  refine ⟨?_, ?_, ?_, ?_, trivial, hmem, hsub, hkeep⟩
  · rw [hdb]; exact ⟨rfl, rfl, rfl⟩
  · rw [hdb]; rfl
  · rw [hdb]; exact fun i => rfl
  · rw [hdb]; rfl

end Db

/-! ### Targets and identity -/

section
variable {upper : String → String} {a b : InvalidateArgs}

theorem mem_namedIdx {i : Index} : i ∈ namedIdx upper a ↔
    (∃ t ∈ a.tags, i = .tag t) ∨ ∃ q, pathPart upper a = some q ∧
      i = .path (q.2 ++ " " ++ q.1) := by
  cases h : a.path with
  | none => simp [namedIdx, pathPart, h, eq_comm]
  | some p => simp [namedIdx, pathPart, pathName, h, eq_comm]

theorem namedIdx_of_canonical (h : canonical upper a = canonical upper b) (i : Index) :
    i ∈ namedIdx upper a ↔ i ∈ namedIdx upper b := by
  obtain ⟨htags, hpath, -⟩ := canonical_inj h
  simp only [mem_namedIdx, htags, hpath]

theorem path_eq_none_of_namedIdx (h : namedIdx upper a = []) : a.path = none := by
  simp only [namedIdx, List.append_eq_nil_iff, List.map_eq_nil_iff] at h
  cases hp : a.path with
  | none => rfl
  | some p => simp [hp] at h

/-- **Invalidations of one identity work on the same index sets**, through the same filter. -/
theorem targets_of_canonical (h : canonical upper a = canonical upper b) :
    (∀ i, i ∈ (targets upper a).idx ↔ i ∈ (targets upper b).idx) ∧
      (targets upper a).filter = (targets upper b).filter := by
  have hmem := namedIdx_of_canonical h
  have hnil : namedIdx upper a = [] ↔ namedIdx upper b = [] := by
    simp only [List.eq_nil_iff_forall_not_mem, hmem]
  obtain ⟨-, -, hpx⟩ := canonical_inj h
  unfold prefixPart at hpx
  unfold targets
  cases ha : a.keyPrefix with
  | none =>
      cases hb : b.keyPrefix with
      | none => exact ⟨hmem, rfl⟩
      | some y => simp [ha, hb] at hpx
  | some x =>
      cases hb : b.keyPrefix with
      | none => simp [ha, hb] at hpx
      | some y =>
          simp only [ha, hb, Option.map_some, Option.some.injEq, Prod.mk.injEq] at hpx
          obtain ⟨rfl, hmethod⟩ := hpx
          by_cases hn : namedIdx upper a = []
          · -- the prefix alone: the methods are alike
            rw [if_pos (path_eq_none_of_namedIdx hn),
              if_pos (path_eq_none_of_namedIdx (hnil.mp hn))] at hmethod
            have hget : (a.method.all fun m => decide (upper m = "GET")) =
                b.method.all fun m => decide (upper m = "GET") := by
              have := congrArg (Option.all fun m => decide (m = "GET")) hmethod
              simpa [Option.all_map, Function.comp_def] using this
            simp [hn, hnil.mp hn, hget]
          · simpa [hn, mt hnil.mpr hn] using hmem

theorem selects_of_canonical (h : canonical upper a = canonical upper b)
    (sets : Index → Finset String) (m : String) :
    (targets upper a).selects sets m ↔ (targets upper b).selects sets m := by
  obtain ⟨hidx, hfilter⟩ := targets_of_canonical h
  simp only [Targets.selects, hidx, hfilter]

end

end Brust.Redis
