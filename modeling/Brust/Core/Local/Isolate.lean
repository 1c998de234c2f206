import Brust.Core.Local.Caches

/-!
# Core — the two caches of one isolate

A page cache and a job cache on one invalidation clock, under the requests of one isolate: a run is
a list of method calls in any order, with any read stamps and any times.

* `stores_in_step`: in every state of every run both stores keep their invariant and their limits.
  It is about the entries a store holds, and an expired one is held until an operation removes it
  (`expired_indexed`); after `stats` all are live.
* `stamps_law`: what `get` returns was inserted under a stamp that no invalidation covering it came
  after; a refused insert changes nothing; an insert is refused only for an invalidation that covers
  it or shares a slot with it, and else it is stored.
-/

namespace Brust.Core.Local

open Brust.Cache Brust.Server

/-- The caches of an isolate and their clock.  `pages`, `values` and `issued` are history: the last
insert that was not refused for each key, and the clock value of each invalidation. -/
structure Isolate (B V : Type) where
  clock : ℕ
  l1 : LocalL1 B
  jobs : LocalJobs V
  pages : CacheKey → Option (PageInsert B)
  values : JobKey → Option (JobInsert V)
  issued : List (Call × ℕ)

/-- A method call, at a time. -/
inductive Op (B V : Type) where
  | insertPage (a : PageInsert B) (now : ℕ)
  | getPage (key : CacheKey) (now : ℕ)
  | insertJob (a : JobInsert V) (now : ℕ)
  | getJob (k : JobKey) (now : ℕ)
  | invalidate (i : Call) (now : ℕ)
  | invalidateKey (k : JobKey)
  | stats (now : ℕ)

/-- What an isolate is built with: the two hashers, the length of a body, and the limits. -/
structure Config (B : Type) where
  pages : Server.Hasher
  jobs : Jobs.Hasher
  htmlLen : B → ℕ
  l1Capacity : ℕ
  maxBytes : ℕ
  jobCapacity : ℕ

namespace Isolate

variable {B V : Type} (cfg : Config B)

def new : Isolate B V where
  clock := 0
  l1 := .withLimits cfg.l1Capacity cfg.maxBytes
  jobs := .withLimits cfg.jobCapacity
  pages := fun _ => none
  values := fun _ => none
  issued := []

def step (s : Isolate B V) : Op B V → Isolate B V
  | .insertPage a now =>
    let (l1, stored) := s.l1.insert cfg.pages cfg.htmlLen a now
    { s with l1 := l1, pages := if stored then Function.update s.pages a.key (some a) else s.pages }
  | .getPage key now => { s with l1 := (s.l1.get key now).1 }
  | .insertJob a now =>
    let (jobs, stored) := s.jobs.insert cfg.jobs a now
    { s with
      jobs := jobs
      values := if stored then Function.update s.values a.key (some a) else s.values }
  | .getJob k now => { s with jobs := (s.jobs.get k now).1 }
  | .invalidate (.page i) now =>
    let seq := s.clock + 1
    { s with
      clock := seq
      l1 := (s.l1.invalidate cfg.pages seq now i).1
      issued := (.page i, seq) :: s.issued }
  | .invalidate (.job i) _ =>
    let seq := s.clock + 1
    { s with
      clock := seq
      jobs := s.jobs.invalidate cfg.jobs seq i
      issued := (.job i, seq) :: s.issued }
  | .invalidateKey k => { s with jobs := (s.jobs.invalidateKey k).1 }
  | .stats now => { s with l1 := (s.l1.stats now).1, jobs := (s.jobs.stats now).1 }

def run (ops : List (Op B V)) : Isolate B V := ops.foldl (step cfg) (new cfg)

/-! ### The invariant -/

/-- The slots of the page cache that a call publishes. -/
def pageRefs (h : Server.Hasher) : Call → List L1.SlotRef
  | .page i => (L1.inval h i).refs
  | .job _ => []

def jobRefs (h : Jobs.Hasher) : Call → List Jobs.SlotRef
  | .page _ => []
  | .job i => (Jobs.inval h (.call i)).refs

structure Inv (s : Isolate B V) : Prop where
  pages_rep : s.l1.store.Rep
  pages_within : s.l1.store.Within s.l1.capacity s.l1.maxBytes
  pages_limits : s.l1.capacity = max cfg.l1Capacity 1 ∧ s.l1.maxBytes = cfg.maxBytes
  pages_published : Stamps.Published (pageRefs cfg.pages) s.l1.slots s.issued
  pages_fresh : ∀ {key slot}, s.l1.store.entries.lookup key = some slot →
    ∃ a, s.pages key = some a ∧ a.key = key ∧ slot.value = a.body ∧ slot.tags = a.tags ∧
      ∀ i seq, (.page i, seq) ∈ s.issued → i.covers a.key a.tags → seq ≤ a.since
  jobs_rep : s.jobs.store.Rep
  jobs_within : s.jobs.store.Within s.jobs.capacity USIZE_MAX
  jobs_limits : s.jobs.capacity = max cfg.jobCapacity 1
  jobs_published : Stamps.Published (jobRefs cfg.jobs) s.jobs.slots s.issued
  jobs_fresh : ∀ {k slot}, s.jobs.store.entries.lookup k = some slot →
    ∃ a, s.values k = some a ∧ a.key = k ∧ slot.value = a.value ∧ slot.tags = a.tags ∧
      slot.userKey = a.userKey ∧
      ∀ i seq, (.job i, seq) ∈ s.issued → i.covers a.userKey a.tags → seq ≤ a.since
  issued_le : ∀ {i seq}, (i, seq) ∈ s.issued → seq ≤ s.clock

variable {cfg} {s : Isolate B V}

theorem inv_new : (new cfg : Isolate B V).Inv cfg where
  pages_rep := Store.rep_new
  pages_within := ⟨Nat.zero_le _, Nat.zero_le _⟩
  pages_limits := ⟨rfl, rfl⟩
  pages_published := Stamps.published_init _
  pages_fresh h := by simp [new, LocalL1.withLimits, Store.new] at h
  jobs_rep := Store.rep_new
  jobs_within := ⟨Nat.zero_le _, Nat.zero_le _⟩
  jobs_limits := rfl
  jobs_published := Stamps.published_init _
  jobs_fresh h := by simp [new, LocalJobs.withLimits, Store.new] at h
  issued_le h := by simp [new] at h

/-- No slot is past the clock. -/
theorem slot_le {R : Type} {refs : Call → List R} {slots : R → ℕ}
    (hp : Stamps.Published refs slots s.issued)
    (hle : ∀ {i seq}, (i, seq) ∈ s.issued → seq ≤ s.clock) (r : R) : slots r ≤ s.clock + 1 := by
  rcases Nat.eq_zero_or_pos (slots r) with h0 | hpos
  · omega
  · obtain ⟨i, hi, -⟩ := hp.cause (by omega : slots r ≠ 0)
    exact (hle hi).trans (Nat.le_succ _)

/-- An insert that passes the check is not outdated by a page invalidation. -/
theorem Inv.since_ge (hs : s.Inv cfg) {a : PageInsert B}
    (hok : s.l1.invalidatedSince cfg.pages a.key a.tags a.since = false) {i : PageInval} {seq : ℕ}
    (hi : (.page i, seq) ∈ s.issued) (hc : i.covers a.key a.tags) : seq ≤ a.since := by
  by_contra hlt
  obtain ⟨-, r, hr, hr'⟩ := @L1.outdates_of_covers cfg.pages 0 _ _ _ hc
  have := hs.pages_published.after_iff.mpr ⟨_, seq, hi, not_le.mp hlt, r, hr, hr'⟩
  exact absurd (this.symm.trans hok) (by simp)

theorem Inv.since_ge_job (hs : s.Inv cfg) {a : JobInsert V}
    (hok : s.jobs.invalidatedSince cfg.jobs a.tags a.userKey a.since = false) {i : JobInval}
    {seq : ℕ} (hi : (.job i, seq) ∈ s.issued) (hc : i.covers a.userKey a.tags) :
    seq ≤ a.since := by
  by_contra hlt
  obtain ⟨-, r, hr, hr'⟩ := @Jobs.outdates_of_covers cfg.jobs 0 _ _ _ hc
  have := hs.jobs_published.after_iff.mpr ⟨_, seq, hi, not_le.mp hlt, r, hr, hr'⟩
  exact absurd (this.symm.trans hok) (by simp)

/-- The page cache moves to a store whose entries were there. -/
theorem Inv.pages (hs : s.Inv cfg) {store : Store CacheKey B} (hrep : store.Rep)
    (hw : store.Within s.l1.capacity s.l1.maxBytes) (hk : s.l1.store.Kept store) :
    { s with l1 := { s.l1 with store := store } }.Inv cfg :=
  { hs with
    pages_rep := hrep
    pages_within := hw
    pages_fresh := fun hk' => by
      obtain ⟨slot, hslot, hv, ht, -⟩ := hk hk'
      obtain ⟨a, ha, hkey, hbody, htags, hf⟩ := hs.pages_fresh hslot
      exact ⟨a, ha, hkey, hv.trans hbody, ht.trans htags, hf⟩ }

theorem Inv.jobs (hs : s.Inv cfg) {store : Store JobKey V} (hrep : store.Rep)
    (hw : store.Within s.jobs.capacity USIZE_MAX) (hk : s.jobs.store.Kept store) :
    { s with jobs := { s.jobs with store := store } }.Inv cfg :=
  { hs with
    jobs_rep := hrep
    jobs_within := hw
    jobs_fresh := fun hk' => by
      obtain ⟨slot, hslot, hv, ht, hu⟩ := hk hk'
      obtain ⟨a, ha, hkey, hbody, htags, huser, hf⟩ := hs.jobs_fresh hslot
      exact ⟨a, ha, hkey, hv.trans hbody, ht.trans htags, hu.trans huser, hf⟩ }

theorem Inv.insertPage (hs : s.Inv cfg) (a : PageInsert B) (now : ℕ) :
    (s.step cfg (.insertPage a now)).Inv cfg := by
  cases hr : s.l1.invalidatedSince cfg.pages a.key a.tags a.since with
  | true =>
      simp only [step, LocalL1.insert, hr, if_true, Bool.false_eq_true, if_false]
      exact hs
  | false =>
      -- the history moves with the key the insert replaces
      have hfresh : ∀ {store : Store CacheKey B},
          (∀ {key slot}, store.entries.lookup key = some slot →
            (key = a.key ∧ slot.value = a.body ∧ slot.tags = a.tags) ∨
              (key ≠ a.key ∧ s.l1.store.entries.lookup key = some slot)) →
          ∀ {key slot}, store.entries.lookup key = some slot →
            ∃ b, Function.update s.pages a.key (some a) key = some b ∧ b.key = key ∧
              slot.value = b.body ∧ slot.tags = b.tags ∧
              ∀ i seq, (.page i, seq) ∈ s.issued → i.covers b.key b.tags → seq ≤ b.since := by
        intro store hstore key slot hk
        rcases hstore hk with ⟨rfl, hv, ht⟩ | ⟨hne, hk⟩
        · exact ⟨a, Function.update_self .., rfl, hv, ht, fun i seq hi hc => hs.since_ge hr hi hc⟩
        · rw [Function.update_of_ne hne]
          exact hs.pages_fresh hk
      by_cases hb : cfg.htmlLen a.body > s.l1.maxBytes
      · simp only [step, LocalL1.insert, hr, hb, Bool.false_eq_true, if_false, if_true]
        refine { hs with
          pages_rep := hs.pages_rep.remove _
          pages_within := hs.pages_within.remove _
          pages_fresh := hfresh fun {key slot} hk => ?_ }
        rw [Store.lookup_remove] at hk
        split at hk
        · cases hk
        · next hne => exact .inr ⟨hne, hk⟩
      · simp only [step, LocalL1.insert, hr, hb, Bool.false_eq_true, if_false, if_true]
        obtain ⟨hrep, hw⟩ := Store.insert_spec hs.pages_rep a.key a.body (deadline now a.ttl) a.tags
          none (cfg.htmlLen a.body) now s.l1.capacity s.l1.maxBytes
        refine { hs with
          pages_rep := hrep
          pages_within := hw
          pages_fresh := hfresh fun {key slot} hk => ?_ }
        rcases Store.lookup_insert_some hs.pages_rep hk with ⟨e, hv, -, ht, -⟩ | hk
        · exact .inl ⟨e, hv, ht⟩
        · exact .inr hk

theorem Inv.insertJob (hs : s.Inv cfg) (a : JobInsert V) (now : ℕ) :
    (s.step cfg (.insertJob a now)).Inv cfg := by
  cases hr : s.jobs.invalidatedSince cfg.jobs a.tags a.userKey a.since with
  | true =>
      simp only [step, LocalJobs.insert, hr, if_true, Bool.false_eq_true, if_false]
      exact hs
  | false =>
      simp only [step, LocalJobs.insert, hr, Bool.false_eq_true, if_false, if_true]
      obtain ⟨hrep, hw⟩ := Store.insert_spec hs.jobs_rep a.key a.value (a.ttl.bind (deadline now))
        a.tags a.userKey 0 now s.jobs.capacity USIZE_MAX
      refine { hs with
        jobs_rep := hrep
        jobs_within := hw
        jobs_fresh := fun {k slot} hk => ?_ }
      rcases Store.lookup_insert_some hs.jobs_rep hk with ⟨rfl, hv, -, ht, hu⟩ | ⟨hne, hk⟩
      · exact ⟨a, Function.update_self .., rfl, hv, ht, hu,
          fun i seq hi hc => hs.since_ge_job hr hi hc⟩
      · obtain ⟨b, hb, hrest⟩ := hs.jobs_fresh hk
        exact ⟨b, (Function.update_of_ne hne ..).trans hb, hrest⟩

theorem Inv.invalidatePage (hs : s.Inv cfg) (i : PageInval) (now : ℕ) :
    (s.step cfg (.invalidate (.page i) now)).Inv cfg := by
  obtain ⟨hrem, -⟩ := s.l1.invalidate_spec (h := cfg.pages) hs.pages_rep (s.clock + 1) now i
  obtain ⟨hcap, hmax⟩ := s.l1.limits_invalidate (h := cfg.pages) (s.clock + 1) now i
  have hslots := s.l1.slots_invalidate (h := cfg.pages) (slot_le hs.pages_published hs.issued_le)
    now i
  simp only [step]
  generalize (s.l1.invalidate cfg.pages (s.clock + 1) now i).1 = c at hrem hcap hmax hslots ⊢
  constructor
  case pages_rep => exact hrem.rep hs.pages_rep
  case pages_within =>
      rw [hcap, hmax]
      exact hrem.within hs.pages_within
  case pages_limits => exact ⟨hcap.trans hs.pages_limits.1, hmax.trans hs.pages_limits.2⟩
  case pages_published =>
      rw [hslots]
      exact hs.pages_published.issue (.page i) _
  case pages_fresh =>
      intro key slot hk
      have hk := (hrem.drops key).symm.trans hk
      rw [Option.filter_eq_some_iff] at hk
      obtain ⟨a, ha, rfl, hbody, htags, hf⟩ := hs.pages_fresh hk.1
      refine ⟨a, ha, rfl, hbody, htags, fun j seq hj hc => ?_⟩
      rcases List.mem_cons.mp hj with e | hj
      · -- what it covers it removed
        cases e
        rw [← htags] at hc
        rw [pageHits_iff.mpr hc] at hk
        exact absurd hk.2 (by simp)
      · exact hf j seq hj hc
  case jobs_rep => exact hs.jobs_rep
  case jobs_within => exact hs.jobs_within
  case jobs_limits => exact hs.jobs_limits
  case jobs_published => exact hs.jobs_published.issue (.page i) _
  case jobs_fresh =>
      intro k slot hk
      obtain ⟨a, ha, hkey, hv, ht, hu, hf⟩ := hs.jobs_fresh hk
      refine ⟨a, ha, hkey, hv, ht, hu, fun j seq hj hc => ?_⟩
      rcases List.mem_cons.mp hj with e | hj
      · cases e
      · exact hf j seq hj hc
  case issued_le =>
      intro j seq hj
      rcases List.mem_cons.mp hj with e | hj
      · cases e; exact le_rfl
      · exact (hs.issued_le hj).trans (Nat.le_succ _)

theorem Inv.invalidateJob (hs : s.Inv cfg) (i : JobInval) (now : ℕ) :
    (s.step cfg (.invalidate (.job i) now)).Inv cfg := by
  have hrem := s.jobs.invalidate_spec (h := cfg.jobs) hs.jobs_rep (s.clock + 1) i
  have hcap := s.jobs.capacity_invalidate (h := cfg.jobs) (s.clock + 1) i
  have hslots := s.jobs.slots_invalidate (h := cfg.jobs) (slot_le hs.jobs_published hs.issued_le) i
  simp only [step]
  generalize s.jobs.invalidate cfg.jobs (s.clock + 1) i = c at hrem hcap hslots ⊢
  constructor
  case pages_rep => exact hs.pages_rep
  case pages_within => exact hs.pages_within
  case pages_limits => exact hs.pages_limits
  case pages_published => exact hs.pages_published.issue (.job i) _
  case pages_fresh =>
      intro key slot hk
      obtain ⟨a, ha, hkey, hbody, htags, hf⟩ := hs.pages_fresh hk
      refine ⟨a, ha, hkey, hbody, htags, fun j seq hj hc => ?_⟩
      rcases List.mem_cons.mp hj with e | hj
      · cases e
      · exact hf j seq hj hc
  case jobs_rep => exact hrem.rep hs.jobs_rep
  case jobs_within =>
      rw [hcap]
      exact hrem.within hs.jobs_within
  case jobs_limits => exact hcap.trans hs.jobs_limits
  case jobs_published =>
      rw [hslots]
      exact hs.jobs_published.issue (.job i) _
  case jobs_fresh =>
      intro k slot hk
      have hk := (hrem.drops k).symm.trans hk
      rw [Option.filter_eq_some_iff] at hk
      obtain ⟨a, ha, hkey, hv, ht, hu, hf⟩ := hs.jobs_fresh hk.1
      refine ⟨a, ha, hkey, hv, ht, hu, fun j seq hj hc => ?_⟩
      rcases List.mem_cons.mp hj with e | hj
      · cases e
        rw [← ht, ← hu] at hc
        rw [jobHits_iff.mpr hc] at hk
        exact absurd hk.2 (by simp)
      · exact hf j seq hj hc
  case issued_le =>
      intro j seq hj
      rcases List.mem_cons.mp hj with e | hj
      · cases e; exact le_rfl
      · exact (hs.issued_le hj).trans (Nat.le_succ _)

theorem Inv.step (hs : s.Inv cfg) (op : Op B V) : (s.step cfg op).Inv cfg := by
  cases op with
  | insertPage a now => exact hs.insertPage a now
  | insertJob a now => exact hs.insertJob a now
  | getPage key now =>
      obtain ⟨hrep, hw⟩ := Store.get_spec hs.pages_rep hs.pages_within key now
      exact hs.pages hrep hw (Store.get_kept hs.pages_rep key now).1
  | getJob k now =>
      obtain ⟨hrep, hw⟩ := Store.get_spec hs.jobs_rep hs.jobs_within k now
      exact hs.jobs hrep hw (Store.get_kept hs.jobs_rep k now).1
  | invalidate i now =>
      cases i with
      | page i => exact hs.invalidatePage i now
      | job i => exact hs.invalidateJob i now
  | invalidateKey k =>
      exact hs.jobs (hs.jobs_rep.remove k) (hs.jobs_within.remove k) (Store.kept_remove _ k)
  | stats now =>
      exact (hs.pages (hs.pages_rep.removeAll _) (hs.pages_within.removeAll _)
        (Store.drops_reap _ now).kept).jobs (hs.jobs_rep.removeAll _) (hs.jobs_within.removeAll _)
        (Store.drops_reap _ now).kept

theorem inv_run (cfg : Config B) (ops : List (Op B V)) : (run cfg ops).Inv cfg := by
  induction ops using List.reverseRecOn with
  | nil => exact inv_new
  | append_singleton ops op ih =>
      rw [run, List.foldl_append]
      exact ih.step op

/-! ### The stores -/

/-- **The stores stay in step.**  After any method calls, in either store: the recency map is the
entries by their ticks, the indexes hold the names of the entries and no empty set, the bytes are
the entries' sizes, and the limits hold.  `stats` leaves live entries only. -/
theorem stores_in_step (cfg : Config B) (ops : List (Op B V)) :
    let s := run cfg ops
    (s.l1.store.Rep ∧ s.l1.store.Within (max cfg.l1Capacity 1) cfg.maxBytes) ∧
    (s.jobs.store.Rep ∧ s.jobs.store.Within (max cfg.jobCapacity 1) USIZE_MAX) ∧
    ∀ now,
      (∀ key slot, (s.l1.stats now).1.store.entries.lookup key = some slot → slot.live now = true) ∧
      ∀ k slot, (s.jobs.stats now).1.store.entries.lookup k = some slot → slot.live now = true := by
  intro s
  have hs : s.Inv cfg := inv_run cfg ops
  refine ⟨⟨hs.pages_rep, ?_⟩, ⟨hs.jobs_rep, ?_⟩, fun now =>
    ⟨fun key slot hk => ?_, fun k slot hk => ?_⟩⟩
  · rw [← hs.pages_limits.1, ← hs.pages_limits.2]
    exact hs.pages_within
  · rw [← hs.jobs_limits]
    exact hs.jobs_within
  · rw [LocalL1.stats, Store.drops_reap, Option.filter_eq_some_iff] at hk
    simpa using hk.2
  · rw [LocalJobs.stats, Store.drops_reap, Option.filter_eq_some_iff] at hk
    simpa using hk.2

/-- The page `/p`, tagged `t`, that expires after 1 ns. -/
def brief : PageInsert ℕ := ⟨⟨"", "GET", "/p", ""⟩, 0, 1, ["t"], 0⟩

/-- Room for two. -/
def small : Config ℕ := ⟨.zero, fun _ => 0, fun _ => 1, 2, 10, 2⟩

/-- **An expired entry is held**: indexed, counted in the bytes and in the entries. -/
theorem expired_indexed : ¬ ∀ (cfg : Config ℕ) (ops : List (Op ℕ ℕ)) (key : CacheKey) (now : ℕ),
    let s := run cfg (ops ++ [.getPage key now])
    ∀ n k, Indexed s.l1.store.tags n k ↔
      ∃ slot, s.l1.store.entries.lookup k = some slot ∧ slot.live now = true ∧ n ∈ slot.tags := by
  intro hall
  have hexpired : ((run small [.insertPage brief 0, .getPage ⟨"", "GET", "/q", ""⟩ 5] :
      Isolate ℕ ℕ).l1.store.entries.lookup brief.key).any
      (fun slot => slot.tags.contains "t" && !slot.live 5) = true := by decide +kernel
  have hlive := hall small [.insertPage brief 0] ⟨"", "GET", "/q", ""⟩ 5 "t" brief.key
  have hinv := inv_run small [(.insertPage brief 0 : Op ℕ ℕ), .getPage ⟨"", "GET", "/q", ""⟩ 5]
  rw [List.singleton_append] at hlive
  generalize (run small [.insertPage brief 0, .getPage ⟨"", "GET", "/q", ""⟩ 5] :
    Isolate ℕ ℕ) = s at hexpired hlive hinv
  obtain ⟨slot, hk, hslot⟩ := (Option.any_eq_true ..).mp hexpired
  rw [Bool.and_eq_true, List.contains_iff_mem, Bool.not_eq_true'] at hslot
  obtain ⟨slot', hk', hl, -⟩ := hlive.mp
    ((hinv.pages_rep.tags _ _).mpr ⟨by simp, slot, hk, hslot.1⟩)
  rw [hk] at hk'
  cases hk'
  exact absurd (hl.symm.trans hslot.2) (by simp)

/-! ### The stamps -/

/-- **The law of the stamps.**  After any method calls, in either store: what `get` returns is of an
insert that no invalidation covering it came after; a refused insert changes nothing; and an insert
that no invalidation came after, of those that cover it and those that publish a slot it checks, is
stored. -/
theorem stamps_law (cfg : Config B) (ops : List (Op B V)) :
    let s := run cfg ops
    (∀ key now body, (s.l1.get key now).2 = some body →
      ∃ a, s.pages key = some a ∧ a.key = key ∧ a.body = body ∧
        ∀ i seq, (.page i, seq) ∈ s.issued → i.covers a.key a.tags → seq ≤ a.since) ∧
    (∀ k now value, (s.jobs.get k now).2 = some value →
      ∃ a, s.values k = some a ∧ a.key = k ∧ a.value = value ∧
        ∀ i seq, (.job i, seq) ∈ s.issued → i.covers a.userKey a.tags → seq ≤ a.since) ∧
    (∀ a now, (s.l1.insert cfg.pages cfg.htmlLen a now).2 = false →
      s.step cfg (.insertPage a now) = s) ∧
    (∀ a now, (s.jobs.insert cfg.jobs a now).2 = false → s.step cfg (.insertJob a now) = s) ∧
    (∀ a now,
      (∀ i seq, (.page i, seq) ∈ s.issued →
        (i.covers a.key a.tags ∨
          ∃ r ∈ (L1.inval cfg.pages i).refs, r ∈ L1.checked cfg.pages a.key a.tags) →
        seq ≤ a.since) →
      (s.l1.insert cfg.pages cfg.htmlLen a now).2 = true ∧
      (cfg.htmlLen a.body ≤ cfg.maxBytes →
        ∃ slot, (s.step cfg (.insertPage a now)).l1.store.entries.lookup a.key = some slot ∧
          slot.value = a.body ∧ slot.expiresNs = deadline now a.ttl)) ∧
    ∀ a now,
      (∀ i seq, (.job i, seq) ∈ s.issued →
        (i.covers a.userKey a.tags ∨
          ∃ r ∈ (Jobs.inval cfg.jobs (.call i)).refs, r ∈ Jobs.checked cfg.jobs a.tags a.userKey) →
        seq ≤ a.since) →
      (s.jobs.insert cfg.jobs a now).2 = true ∧
      ∃ slot, (s.step cfg (.insertJob a now)).jobs.store.entries.lookup a.key = some slot ∧
        slot.value = a.value ∧ slot.expiresNs = a.ttl.bind (deadline now) := by
  intro s
  have hs : s.Inv cfg := inv_run cfg ops
  refine ⟨fun key now body hb => ?_, fun k now value hv => ?_, fun a now hf => ?_,
    fun a now hf => ?_, fun a now hafter => ?_, fun a now hafter => ?_⟩
  · obtain ⟨slot, hk, rfl⟩ := (Store.get_kept hs.pages_rep key now).2 body hb
    obtain ⟨a, ha, hkey, hbody, -, hfresh⟩ := hs.pages_fresh hk
    exact ⟨a, ha, hkey, hbody.symm, hfresh⟩
  · obtain ⟨slot, hk, rfl⟩ := (Store.get_kept hs.jobs_rep k now).2 value hv
    obtain ⟨a, ha, hkey, hval, -, -, hfresh⟩ := hs.jobs_fresh hk
    exact ⟨a, ha, hkey, hval.symm, hfresh⟩
  · have hr := (LocalL1.insert_stored ..).symm.trans hf
    rw [Bool.not_eq_false'] at hr
    simp only [step, LocalL1.insert, hr, if_true, Bool.false_eq_true, if_false]
  · have hr := (LocalJobs.insert_stored ..).symm.trans hf
    rw [Bool.not_eq_false'] at hr
    simp only [step, LocalJobs.insert, hr, if_true, Bool.false_eq_true, if_false]
  · have hr : s.l1.invalidatedSince cfg.pages a.key a.tags a.since = false := by
      rw [Bool.eq_false_iff]
      intro hr
      obtain ⟨i, seq, hi, hlt, r, hir, hrc⟩ := hs.pages_published.after_iff.mp hr
      cases i with
      | page i => exact absurd (hafter i seq hi (.inr ⟨r, hir, hrc⟩)) (not_le.mpr hlt)
      | job i => cases hir
    have hcap : 1 ≤ s.l1.capacity := hs.pages_limits.1 ▸ le_max_right ..
    constructor
    · rw [LocalL1.insert_stored, hr, Bool.not_false]
    · intro hb
      have hb : ¬ cfg.htmlLen a.body > s.l1.maxBytes := by
        rw [hs.pages_limits.2]
        exact not_lt.mpr hb
      simp only [step, LocalL1.insert, hr, hb, Bool.false_eq_true, if_false]
      exact Store.lookup_insert_self hs.pages_rep hcap (not_lt.mp hb)
  · have hr : s.jobs.invalidatedSince cfg.jobs a.tags a.userKey a.since = false := by
      rw [Bool.eq_false_iff]
      intro hr
      obtain ⟨i, seq, hi, hlt, r, hir, hrc⟩ := hs.jobs_published.after_iff.mp hr
      cases i with
      | page i => cases hir
      | job i => exact absurd (hafter i seq hi (.inr ⟨r, hir, hrc⟩)) (not_le.mpr hlt)
    have hcap : 1 ≤ s.jobs.capacity := hs.jobs_limits ▸ le_max_right ..
    constructor
    · rw [LocalJobs.insert_stored, hr, Bool.not_false]
    · simp only [step, LocalJobs.insert, hr, Bool.false_eq_true, if_false]
      exact Store.lookup_insert_self hs.jobs_rep hcap (Nat.zero_le _)

end Isolate

end Brust.Core.Local
