import Brust.Adapter.Names
import Mathlib.Data.Finset.Card
import Mathlib.Data.Finset.Image

/-!
# Cloudflare — the Durable Object

`BrustCacheDO`: the markers of the invalidations it was told of, and, as a shard, the pages it
stores and their tags.  `bump` keeps at most `INVAL_CAP` markers, and raises one watermark over
those it drops, so the floor of a name never sinks (`floor_le_bump`).

The tags are those of the stored pages after every call (`Indexed.run`).  A shard that was told of
an invalidation is fenced against it (`fenced_invalidate`): it stores no page the invalidation
covers with a stamp below its mark, and no later call makes it store one (`Fenced.run`).
-/

namespace Brust.Cloudflare

open Brust.Core Brust.Adapter Brust.Adapter.Cloudflare

def INVAL_CAP : ℕ := 4096

/-! ### The markers -/

/-- `INSERT INTO inval ... ON CONFLICT(name) DO UPDATE SET seq = max(seq, excluded.seq)`. -/
def upsert (rows : Map String ℕ) (n : String) (seq : ℕ) : Map String ℕ :=
  match rows.lookup n with
  | none => rows.insert n seq
  | some q => AList.replace n (max q seq) rows

def upsertAll (rows : Map String ℕ) (names : List String) (seq : ℕ) : Map String ℕ :=
  names.foldl (fun rows n => upsert rows n seq) rows

/-- `SELECT name, seq FROM inval ORDER BY seq ASC LIMIT ?`, the rows of one `seq` as they were
made. -/
def lowest (rows : Map String ℕ) (limit : ℕ) : List (Sigma fun _ : String => ℕ) :=
  (rows.entries.reverse.mergeSort fun a b => decide (a.2 ≤ b.2)).take limit

/-- `DELETE FROM inval` of the rows `old`. -/
def dropRows (rows : Map String ℕ) (old : List (Sigma fun _ : String => ℕ)) : Map String ℕ :=
  rows.restrict fun n => decide (n ∉ old.map (·.1))

theorem dropRows_bounded (rows : Map String ℕ) :
    (dropRows rows (lowest rows (rows.keys.length - INVAL_CAP))).keys.length ≤ INVAL_CAP := by
  obtain ⟨excess, hexcess⟩ : ∃ excess, excess = rows.keys.length - INVAL_CAP := ⟨_, rfl⟩
  rw [← hexcess]
  obtain ⟨sorted, hsorted⟩ : ∃ l, l = rows.entries.reverse.mergeSort fun a b =>
    decide (a.2 ≤ b.2) :=
    ⟨_, rfl⟩
  have hperm : sorted.Perm rows.entries := by
    rw [hsorted]
    exact (List.mergeSort_perm _ _).trans (List.reverse_perm _)
  have hold : lowest rows excess = sorted.take excess := by rw [hsorted]; rfl
  have hlen : sorted.length = rows.keys.length := by
    rw [hperm.length_eq, AList.keys, List.keys, List.length_map]
  obtain ⟨keep, hkeep⟩ : ∃ keep : (Sigma fun _ : String => ℕ) → Bool,
      keep = fun e => decide (e.1 ∉ (sorted.take excess).map (·.1)) := ⟨_, rfl⟩
  have hkeys : (dropRows rows (lowest rows excess)).keys.length =
    (rows.entries.filter keep).length := by
    rw [hold, hkeep, AList.keys, List.keys, List.length_map]
    rfl
  have htake : (sorted.take excess).filter keep = [] := by
    rw [List.filter_eq_nil_iff, hkeep]
    intro e he
    simpa [List.map_take] using List.mem_map_of_mem (f := (·.1)) he
  have hdrop : ((sorted.drop excess).filter keep).length ≤ (sorted.drop excess).length :=
    List.length_filter_le ..
  rw [hkeys, ← (hperm.filter keep).length_eq, ← List.take_append_drop excess sorted,
    List.filter_append, htake, List.nil_append]
  refine hdrop.trans ?_
  rw [List.length_drop, hlen]
  omega

/-- The `inval` table, its newest row first, and the watermark over the rows dropped from it.
`invalCount` is the number of rows. -/
structure Table where
  rows : Map String ℕ
  evicted : ℕ
  bounded : rows.keys.length ≤ INVAL_CAP

namespace Table

def empty : Table := ⟨∅, 0, Nat.zero_le _⟩

/-- Raise the floors of `names` to at least `seq`; keep at most `INVAL_CAP` rows, raising `evicted`
by what is dropped. -/
def bump (t : Table) (names : List String) (seq : ℕ) : Table :=
  let rows := upsertAll t.rows names seq
  let old := lowest rows (rows.keys.length - INVAL_CAP)
  ⟨dropRows rows old, old.foldl (fun evicted o => max evicted o.2) t.evicted, dropRows_bounded rows⟩

/-- What a stamp of an entry with this name is held against. -/
def floor (t : Table) (n : String) : ℕ := max t.evicted ((t.rows.lookup n).getD 0)

end Table

theorem lookup_upsert (rows : Map String ℕ) (n n' : String) (seq : ℕ) :
    (upsert rows n seq).lookup n' =
      if n' = n then some (max ((rows.lookup n).getD 0) seq) else rows.lookup n' := by
  unfold upsert
  cases h : rows.lookup n with
  | none => simp [Map.lookup_insert_if]
  | some q => simp [Map.lookup_replace_if, h]

/-- Every name is raised to `seq`, and no other. -/
theorem lookup_upsertAll (rows : Map String ℕ) (names : List String) (seq : ℕ) (n : String) :
    (upsertAll rows names seq).lookup n =
      if n ∈ names then some (max ((rows.lookup n).getD 0) seq) else rows.lookup n := by
  unfold upsertAll
  induction names generalizing rows with
  | nil => rfl
  | cons n' names ih =>
      rw [List.foldl_cons, ih, lookup_upsert]
      by_cases h : n = n'
      · subst h
        by_cases hm : n ∈ names <;> simp [hm]
      · by_cases hm : n ∈ names <;> simp [hm, h]

theorem le_foldl_max (l : List (Sigma fun _ : String => ℕ)) (m : ℕ) :
    m ≤ l.foldl (fun m o => max m o.2) m ∧ ∀ o ∈ l, o.2 ≤ l.foldl (fun m o => max m o.2) m := by
  induction l generalizing m with
  | nil => exact ⟨le_rfl, fun o ho => nomatch ho⟩
  | cons o l ih =>
      obtain ⟨hm, hl⟩ := ih (max m o.2)
      refine ⟨(le_max_left ..).trans hm, fun o' ho => ?_⟩
      rcases List.mem_cons.mp ho with rfl | ho
      · exact (le_max_right ..).trans hm
      · exact hl o' ho

section
variable {t : Table} {names : List String} {seq : ℕ} {n : String}

theorem evicted_le_bump : t.evicted ≤ (t.bump names seq).evicted := by
  simp only [Table.bump]
  exact (le_foldl_max ..).1

/-- A row raised by `bump` is still there, or was dropped under the watermark. -/
theorem bump_row {q : ℕ} (h : (upsertAll t.rows names seq).lookup n = some q) :
    (t.bump names seq).rows.lookup n = some q ∨ q ≤ (t.bump names seq).evicted := by
  obtain ⟨rows, hrows⟩ : ∃ rows, rows = upsertAll t.rows names seq := ⟨_, rfl⟩
  rw [← hrows] at h
  obtain ⟨old, hold⟩ : ∃ old, old = lowest rows (rows.keys.length - INVAL_CAP) := ⟨_, rfl⟩
  have hdrop : (t.bump names seq).rows.lookup n =
      if n ∉ old.map (·.1) then rows.lookup n else none := by
    simp only [Table.bump, dropRows, Map.lookup_restrict, ← hrows, ← hold, decide_eq_true_eq]
  by_cases hn : n ∈ old.map (·.1)
  · right
    obtain ⟨o, ho, rfl⟩ := List.mem_map.mp hn
    have hmem : o ∈ rows.entries := by
      rw [hold] at ho
      have := List.mem_of_mem_take ho
      rwa [List.mem_mergeSort, List.mem_reverse] at this
    have hq : rows.lookup o.1 = some o.2 := AList.mem_lookup_iff.mpr hmem
    rw [hq] at h
    cases h
    have := (le_foldl_max old t.evicted).2 o ho
    simpa only [Table.bump, ← hrows, ← hold] using this
  · left
    rw [hdrop, if_pos hn, h]

theorem le_floor_of_row {q : ℕ} (h : (upsertAll t.rows names seq).lookup n = some q) :
    q ≤ (t.bump names seq).floor n := by
  unfold Table.floor
  rcases bump_row h with h | h
  · rw [h]
    exact le_max_right ..
  · exact h.trans (le_max_left ..)

/-- **Floors never sink.** -/
theorem floor_le_bump : t.floor n ≤ (t.bump names seq).floor n := by
  refine max_le (evicted_le_bump.trans (le_max_left ..)) ?_
  cases h : t.rows.lookup n with
  | none => exact Nat.zero_le _
  | some q =>
      by_cases hn : n ∈ names
      · have hrow := lookup_upsertAll t.rows names seq n
        rw [if_pos hn, h] at hrow
        exact (le_max_left ..).trans (le_floor_of_row hrow)
      · have hrow := lookup_upsertAll t.rows names seq n
        rw [if_neg hn, h] at hrow
        exact le_floor_of_row hrow

theorem le_floor_bump (hn : n ∈ names) : seq ≤ (t.bump names seq).floor n := by
  have hrow := lookup_upsertAll t.rows names seq n
  rw [if_pos hn] at hrow
  exact (le_max_right ..).trans (le_floor_of_row hrow)

end

/-! ### The shard -/

/-- A stamp, and the sequence number of the epoch when it was taken. -/
structure Stamp where
  value : ℕ
  takenAt : ℕ

/-- A row of `pages`. -/
structure Page (B : Type) where
  entry : Entry
  body : B
  stamp : Option Stamp
  expiresAt : ℕ

/-- The `mpath` column. -/
def Page.mpath {B : Type} (p : Page B) : String := pathName (some p.entry.method) p.entry.path

def Page.names {B : Type} (p : Page B) : List String :=
  entryNames p.entry.tags p.entry.method p.entry.path p.entry.keyPrefix

structure Shard (B : Type) where
  table : Table
  pages : Map String (Page B)
  tags : Finset (String × String)

inductive Rpc (B : Type) where
  | get (key : String) (now : ℕ)
  | set (key : String) (page : Page B)
  | invalidate (args : InvalidateArgs) (seq : ℕ)
  | alarm (now : ℕ)

namespace Shard

variable {B : Type}

def empty : Shard B := ⟨.empty, ∅, ∅⟩

def dropKeys (s : Shard B) (keys : Finset String) : Shard B :=
  { s with
    pages := s.pages.restrict fun k => decide (k ∉ keys)
    tags := s.tags.filter fun r => r.2 ∉ keys }

/-- `SELECT key FROM pages WHERE ...`. -/
def keysWhere (s : Shard B) (p : Page B → Bool) : Finset String :=
  (s.pages.keys.filter fun k => (s.pages.lookup k).any p).toFinset

def get (s : Shard B) (key : String) (now : ℕ) : Shard B × Option (Page B) :=
  match s.pages.lookup key with
  | none => (s, none)
  | some row => if row.expiresAt ≤ now then (s.dropKeys {key}, none) else (s, some row)

/-- An invalidation of the entry's names is newer than the stamp. -/
def refuses (s : Shard B) (stamp : ℕ) (names : List String) : Bool :=
  decide (stamp < s.table.evicted) ||
    names.any fun n => (s.table.rows.lookup n).any fun q => decide (stamp < q)

/-- `INSERT INTO pages`, and `INSERT OR IGNORE INTO tags` for each tag. -/
def put (s : Shard B) (key : String) (page : Page B) : Shard B :=
  { s with
    pages := s.pages.insert key page
    tags := s.tags ∪ page.entry.tags.toFinset.image (·, key) }

/-- A page without a stamp is an unguarded write. -/
def set (s : Shard B) (key : String) (page : Page B) : Shard B × Bool :=
  if page.stamp.any fun stamp => s.refuses stamp.value page.names then (s, false)
  else ((s.dropKeys {key}).put key page, true)

/-- The keys an invalidation deletes. -/
def selectKeys (s : Shard B) (a : InvalidateArgs) : Finset String :=
  let tagged := (s.tags.filter fun r => r.1 ∈ a.tags).image (·.2)
  match a.keyPrefix with
  | none => tagged ∪ a.path.elim ∅ fun p => s.keysWhere fun row => row.mpath == pathName a.method p
  | some pre =>
    if a.tags ≠ [] ∨ a.path ≠ none then
      -- only that prefix's pages; the other prefixes' rows and tag rows stay
      (tagged.filter fun k => (s.pages.lookup k).any fun row => row.entry.keyPrefix == pre) ∪
        a.path.elim ∅ fun p => s.keysWhere fun row =>
          row.mpath == pathName a.method p && row.entry.keyPrefix == pre
    else if a.method.all fun m => toUpperCase m == "GET" then
      s.keysWhere fun row => row.entry.keyPrefix == pre
    else ∅

def invalidate (s : Shard B) (a : InvalidateArgs) (seq : ℕ) : Shard B × ℕ :=
  let s := { s with table := s.table.bump (namesOf a) seq }
  let keys := s.selectKeys a
  (s.dropKeys keys, keys.card)

def alarm (s : Shard B) (now : ℕ) : Shard B :=
  s.dropKeys (s.keysWhere fun row => decide (row.expiresAt ≤ now))

def run (s : Shard B) : Rpc B → Shard B
  | .get key now => (s.get key now).1
  | .set key page => (s.set key page).1
  | .invalidate args seq => (s.invalidate args seq).1
  | .alarm now => s.alarm now

end Shard

/-! ### The tags of the stored pages -/

/-- The tags table holds the (tag, key) pairs of the stored pages. -/
def Indexed {B : Type} (s : Shard B) : Prop :=
  ∀ t k, (t, k) ∈ s.tags ↔ ∃ p, s.pages.lookup k = some p ∧ t ∈ p.entry.tags

section
variable {B : Type} {s : Shard B}

theorem lookup_dropKeys {keys : Finset String} {k : String} {p : Page B} :
    (s.dropKeys keys).pages.lookup k = some p ↔ k ∉ keys ∧ s.pages.lookup k = some p := by
  simp only [Shard.dropKeys, Map.lookup_restrict, decide_eq_true_eq]
  split
  next h => simp [h]
  next h => simp [h]

theorem mem_keysWhere {f : Page B → Bool} {k : String} :
    k ∈ s.keysWhere f ↔ ∃ p, s.pages.lookup k = some p ∧ f p = true := by
  rw [Shard.keysWhere, List.mem_toFinset, List.mem_filter, Map.mem_keys_iff, Option.any_eq_true]
  constructor
  · rintro ⟨-, p, hp, hf⟩
    exact ⟨p, hp, hf⟩
  · rintro ⟨p, hp, hf⟩
    exact ⟨⟨p, hp⟩, p, hp, hf⟩

theorem refuses_eq_false_iff {stamp : ℕ} {names : List String} :
    s.refuses stamp names = false ↔ s.table.evicted ≤ stamp ∧
      ∀ n ∈ names, s.table.floor n ≤ stamp := by
  rw [Shard.refuses, Bool.or_eq_false_iff, decide_eq_false_iff_not, Nat.not_lt,
    List.any_eq_false]
  refine and_congr_right fun hev => forall_congr' fun n => imp_congr_right fun _ => ?_
  rw [Table.floor, max_le_iff]
  cases h : s.table.rows.lookup n with
  | none => simp [hev]
  | some q => simp [hev]

/-- What a call does: nothing; or it drops pages, and raises floors; or it sets a page it does not
refuse. -/
theorem Shard.run_cases (s : Shard B) (r : Rpc B) :
    s.run r = s ∨
    (∃ (table : Table) (keys : Finset String), (∀ n, s.table.floor n ≤ table.floor n) ∧
      s.run r = { s with table := table }.dropKeys keys) ∨
    ∃ key page, (∀ stamp, page.stamp = some stamp → s.refuses stamp.value page.names = false) ∧
      s.run r = (s.dropKeys {key}).put key page := by
  cases r with
  | get key now =>
      cases h : s.pages.lookup key with
      | none => exact .inl (by simp only [run, get, h])
      | some row =>
          by_cases he : row.expiresAt ≤ now
          · exact .inr (.inl ⟨s.table, {key}, fun n => le_rfl, by simp only [run, get, h,
              he, if_true]⟩)
          · exact .inl (by simp only [run, get, h, he, if_false])
  | set key page =>
      by_cases h : (page.stamp.any fun stamp => s.refuses stamp.value page.names) = true
      · exact .inl (by simp only [run, set, h, if_true])
      · refine .inr (.inr ⟨key, page, fun stamp hs => ?_, by
          simp only [run, set, h, Bool.false_eq_true, if_false]⟩)
        simpa [hs] using h
  | invalidate args seq => exact .inr (.inl ⟨_, _, fun n => floor_le_bump, rfl⟩)
  | alarm now => exact .inr (.inl ⟨s.table, _, fun n => le_rfl, rfl⟩)

theorem Shard.get_stored {k : String} {now : ℕ} {p : Page B} (h : (s.get k now).2 = some p) :
    s.pages.lookup k = some p := by
  unfold Shard.get at h
  split at h
  · cases h
  · next row hrow =>
    split at h
    · cases h
    · cases h
      exact hrow

/-- A stored page was stored before, or is set. -/
theorem Shard.run_page (s : Shard B) {r : Rpc B} {k : String} {p : Page B}
    (h : (s.run r).pages.lookup k = some p) :
    s.pages.lookup k = some p ∨ ∃ key, r = .set key p := by
  cases r with
  | set key page =>
      simp only [run, set] at h
      split at h
      · exact .inl h
      · rw [put, Map.lookup_insert_if] at h
        split at h
        · cases h
          exact .inr ⟨key, rfl⟩
        · exact .inl (lookup_dropKeys.mp h).2
  | get key now =>
      simp only [run, get] at h
      split at h
      · exact .inl h
      · split at h
        · exact .inl (lookup_dropKeys.mp h).2
        · exact .inl h
  | invalidate args seq => exact .inl (lookup_dropKeys.mp h).2
  | alarm now => exact .inl (lookup_dropKeys.mp h).2

theorem Indexed.dropKeys (h : Indexed s) (keys : Finset String) : Indexed (s.dropKeys keys) := by
  intro t k
  simp only [lookup_dropKeys]
  simp only [Shard.dropKeys, Finset.mem_filter, h t k]
  constructor
  · rintro ⟨⟨p, hp, ht⟩, hk⟩
    exact ⟨p, ⟨hk, hp⟩, ht⟩
  · rintro ⟨p, ⟨hk, hp⟩, ht⟩
    exact ⟨⟨p, hp, ht⟩, hk⟩

/-- **The tags table follows the pages**, whatever is called. -/
theorem Indexed.run (h : Indexed s) (r : Rpc B) : Indexed (s.run r) := by
  rcases s.run_cases r with e | ⟨table, keys, -, e⟩ | ⟨key, page, -, e⟩
  · rwa [e]
  · rw [e]
    exact Indexed.dropKeys (s := { s with table := table }) h keys
  · rw [e]
    intro t k
    have hdrop := h.dropKeys {key} t k
    simp only [Shard.put, Finset.mem_union, Finset.mem_image, List.mem_toFinset, Prod.mk.injEq,
      Map.lookup_insert_if, hdrop]
    by_cases hk : k = key
    · subst hk
      simp [lookup_dropKeys]
    · simp [hk, Ne.symm hk]

/-! ### What an invalidation selects -/

theorem pathName_inj {method : Option String} {method' path path' : String} :
    pathName method path = pathName (some method') path' ↔
      method.getD "GET" ++ " " ++ path = method' ++ " " ++ path' := by
  rw [pathName, pathName, ← String.toList_inj, ← String.toList_inj]
  simp [String.toList_append]

/-- **An invalidation deletes the pages whose names it raises.** -/
theorem mem_selectKeys (h : Indexed s) (a : InvalidateArgs) (k : String) :
    k ∈ s.selectKeys a ↔ ∃ p, s.pages.lookup k = some p ∧ Meet (namesOf a) p.names := by
  have htagged : k ∈ (s.tags.filter fun r => r.1 ∈ a.tags).image (·.2) ↔
      ∃ p, s.pages.lookup k = some p ∧ ∃ t ∈ a.tags, t ∈ p.entry.tags := by
    simp only [Finset.mem_image, Finset.mem_filter, Prod.exists, exists_eq_right]
    constructor
    · rintro ⟨t, hk, ht⟩
      obtain ⟨p, hp, hpt⟩ := (h t k).mp hk
      exact ⟨p, hp, t, ht, hpt⟩
    · rintro ⟨p, hp, t, ht, hpt⟩
      exact ⟨t, (h t k).mpr ⟨p, hp, hpt⟩, ht⟩
  have hpath : ∀ (row : Page B) (p : String), row.mpath = pathName a.method p ↔
      a.method.getD "GET" ++ " " ++ p = row.entry.method ++ " " ++ row.entry.path :=
    fun row p => eq_comm.trans pathName_inj
  have helim : ∀ f : String → Finset String, k ∈ a.path.elim ∅ f ↔
      ∃ p, a.path = some p ∧ k ∈ f p := by
    intro f
    cases a.path <;> simp
  have hmeet : ∀ p : Page B, Meet (namesOf a) p.names ↔
      if a.keyPrefix.isSome ∧ a.tags = [] ∧ a.path = none then
        (a.method.all fun m => toUpperCase m == "GET") = true ∧ a.keyPrefix = some p.entry.keyPrefix
      else CoversAt a a.path p.entry := by
    intro p
    rw [cloudflare_namesOf, Page.names, cloudflare_entryNames, raised_meets]
  simp only [hmeet, CoversAt]
  cases hpre : a.keyPrefix with
  | none =>
      simp only [Shard.selectKeys, hpre, Finset.mem_union, htagged, helim, mem_keysWhere,
        beq_iff_eq, hpath]
      cases s.pages.lookup k <;> simp
  | some pre =>
      by_cases hnamed : a.tags ≠ [] ∨ a.path ≠ none
      · have halone : ¬ ((some pre).isSome = true ∧ a.tags = [] ∧ a.path = none) := by
          rintro ⟨-, ht, hp⟩
          rcases hnamed with h | h
          · exact h ht
          · exact h hp
        simp only [Shard.selectKeys, hpre, hnamed, halone, if_true, if_false, Finset.mem_union,
          Finset.mem_filter, htagged, helim, mem_keysWhere, Bool.and_eq_true, beq_iff_eq, hpath]
        cases s.pages.lookup k with
        | none => simp
        | some row =>
            by_cases hrow : row.entry.keyPrefix = pre
            · simp [hrow]
            · simp [hrow, Ne.symm hrow]
      · obtain ⟨ht, hp⟩ : a.tags = [] ∧ a.path = none := by
          rw [not_or, not_not, not_not] at hnamed
          exact hnamed
        by_cases hget : (a.method.all fun m => toUpperCase m == "GET") = true
        · simp only [Shard.selectKeys, hpre, ht, hp, hget, if_true, ne_eq, not_true_eq_false,
            or_self, if_false, mem_keysWhere, beq_iff_eq]
          simp only [Option.isSome_some, and_self, if_true, Option.some.injEq, true_and]
          exact exists_congr fun p => and_congr_right fun _ => eq_comm
        · simp [Shard.selectKeys, hpre, ht, hp, hget]

/-- What the `SELECT`s of `invalidate` say of a page. -/
def Covers (a : InvalidateArgs) (e : Entry) : Prop :=
  (∀ pre, a.keyPrefix = some pre → pre = e.keyPrefix) ∧
    ((∃ t ∈ a.tags, t ∈ e.tags) ∨
      (∃ p, a.path = some p ∧ pathName a.method p = pathName (some e.method) e.path) ∨
      Alone a ∧ (a.method.all fun m => toUpperCase m == "GET") = true)

/-- A covered page has a name that the invalidation raises. -/
theorem Covers.meet {a : InvalidateArgs} {p : Page B} (h : Covers a p.entry) :
    Meet (namesOf a) p.names := by
  obtain ⟨hpre, h⟩ := h
  rw [cloudflare_namesOf, Page.names, cloudflare_entryNames, raised_meets]
  by_cases halone : Alone a
  · obtain ⟨hsome, htags, hpath⟩ := halone
    rw [if_pos ⟨hsome, htags, hpath⟩]
    obtain ⟨pre, hp⟩ := Option.isSome_iff_exists.mp hsome
    refine ⟨?_, by rw [hp, hpre pre hp]⟩
    rcases h with ⟨t, ht, -⟩ | ⟨q, hq, -⟩ | ⟨-, hget⟩
    · rw [htags] at ht
      cases ht
    · rw [hpath] at hq
      cases hq
    · exact hget
  · rw [if_neg (show ¬ (a.keyPrefix.isSome = true ∧ a.tags = [] ∧ a.path = none) from halone)]
    refine ⟨hpre, h.imp id fun h => ?_⟩
    rcases h with ⟨q, hq, hname⟩ | ⟨h, -⟩
    · exact ⟨q, hq, (pathName_inj.mp hname)⟩
    · exact absurd h halone

/-! ### The fence -/

/-- The shard's floors are at the mark for every name of the invalidation, and no page it covers is
stored with a stamp below. -/
structure Fenced (a : InvalidateArgs) (mark : ℕ) (s : Shard B) : Prop where
  marked : ∀ n ∈ namesOf a, mark ≤ s.table.floor n
  clean : ∀ k p, s.pages.lookup k = some p → ∀ stamp, p.stamp = some stamp →
    Meet (namesOf a) p.names → mark ≤ stamp.value

variable {a : InvalidateArgs} {mark : ℕ}

/-- **The fence holds**, whatever is called. -/
theorem Fenced.run (h : Fenced a mark s) (r : Rpc B) : Fenced a mark (s.run r) := by
  rcases s.run_cases r with e | ⟨table, keys, hfloor, e⟩ | ⟨key, page, hset, e⟩
  · rwa [e]
  · rw [e]
    refine ⟨fun n hn => (h.marked n hn).trans (hfloor n), fun k p hp => ?_⟩
    exact h.clean k p (lookup_dropKeys.mp hp).2
  · rw [e]
    refine ⟨h.marked, fun k p hp stamp hs hmeet => ?_⟩
    rw [Shard.put, Map.lookup_insert_if] at hp
    split at hp
    · -- the set was not refused: the page's stamp is not below the floor of the name they share
      cases hp
      obtain ⟨n, hn, hnp⟩ := hmeet
      exact (h.marked n hn).trans ((refuses_eq_false_iff.mp (hset stamp hs)).2 n hnp)
    · exact h.clean k p (lookup_dropKeys.mp hp).2 stamp hs hmeet

/-- **A shard that was told of an invalidation is fenced against it.** -/
theorem fenced_invalidate (h : Indexed s) (a : InvalidateArgs) (mark : ℕ) :
    Fenced a mark (s.invalidate a mark).1 := by
  refine ⟨fun n hn => le_floor_bump hn, fun k p hp stamp _ hmeet => ?_⟩
  obtain ⟨hk, hp⟩ := lookup_dropKeys.mp hp
  exact absurd ((mem_selectKeys (s := { s with table := s.table.bump (namesOf a) mark }) h a k).mpr
    ⟨p, hp, hmeet⟩) hk

end

end Brust.Cloudflare
