import Brust.Redis.Scripts
import Brust.Support.Pool

/-!
# Redis — the store

Any number of processes read stamps, set pages, invalidate and publish.  A set stages its frame and
runs `SET_LUA`; an invalidation runs `INVAL_LUA`, which takes the members out of the index sets, and
then unlinks them batch by batch; it resolves when none is left.

Between the two a page is live and no longer indexed.  Any other live page is a member of each of
its index sets, which outlive it, and a page that a resolved invalidation should have removed is one
that an earlier invalidation has yet to unlink (`get_fresh_or_awaited`): a later invalidation does
not find it, and may resolve first (`get_stale_awaited`).
-/

namespace Brust.Redis

open Brust.Core

def STAGE_TTL_MS : ℕ := 30000

/-- A body, and how many invalidations had run their script when its stamp was read. -/
structure Stamped (B : Type) where
  body : B
  readAt : ℕ

/-- An invalidation that ran its script, the `no`th to do so, with marker value `v`. -/
structure RanInval where
  args : InvalidateArgs
  no : ℕ
  v : ℕ

structure StoreMem (B : Type) where
  db : Db (Stamped B)
  ran : List RanInval
  resolved : List (InvalidateArgs × ℕ)

inductive StoreTask (B : Type) where
  | idle
  | stamped (stamp readAt : ℕ)
  | staged (k : String) (m : SetMeta) (page : Page (Stamped B)) (expires : ℕ)
  | unlinking (args : InvalidateArgs) (no : ℕ) (members : Finset String)

variable (upper : String → String) {B : Type}

/-- The args an invalidation runs with are those of the call that made its entry. -/
inductive StoreTask.Move : StoreMem B → StoreTask B → StoreMem B → StoreTask B → Prop where
  | tick {m : StoreMem B} {now : ℕ} (h : m.db.now ≤ now) :
      Move m .idle { m with db := m.db.expire now } .idle
  -- get and set
  | getSeq {m : StoreMem B} : Move m .idle m (.stamped m.db.seq m.ran.length)
  | stage {m : StoreMem B} {stamp readAt : ℕ} (k : String) (meta' : SetMeta) (body : B)
      (storedAt : ℕ) (h : meta'.stamp = some stamp) :
      Move m (.stamped stamp readAt) m
        (.staged k meta' (framed upper ⟨body, readAt⟩ meta' storedAt) (m.db.now + STAGE_TTL_MS))
  | stageUnguarded {m : StoreMem B} (k : String) (meta' : SetMeta) (body : B) (storedAt : ℕ)
      (h : meta'.stamp = none) :
      Move m .idle m (.staged k meta' (framed upper ⟨body, m.ran.length⟩ meta' storedAt)
        (m.db.now + STAGE_TTL_MS))
  | set {m : StoreMem B} {k : String} {meta' : SetMeta} {page : Page (Stamped B)} {expires : ℕ} :
      Move m (.staged k meta' page expires)
        { m with
          db := (m.db.set (if m.db.now < expires then some page else none) k meta'.stamp
            (max 1 meta'.ttlMs) (meta'.idx upper)).1 } .idle
  -- invalidate and publish
  | script {m : StoreMem B} (args run : InvalidateArgs) (mode : Mode) (origin : String)
      (hid : canonical upper run = canonical upper args) (hmode : mode ≠ .publish) :
      Move m .idle
        { m with
          db := (m.db.inval mode (targets upper run) origin run).1
          ran := ⟨args, m.ran.length + 1, m.db.seq + 1⟩ :: m.ran }
        (.unlinking args (m.ran.length + 1)
          (m.db.inval mode (targets upper run) origin run).2.members)
  | publish {m : StoreMem B} (args : InvalidateArgs) (origin : String) :
      Move m .idle { m with db := (m.db.inval .publish (targets upper args) origin args).1 } .idle
  | unlink {m : StoreMem B} {args : InvalidateArgs} {no : ℕ} {members : Finset String}
      {batch : Finset String} (h : batch ⊆ members) :
      Move m (.unlinking args no members) { m with db := m.db.unlink batch }
        (.unlinking args no (members \ batch))
  | resolve {m : StoreMem B} {args : InvalidateArgs} {no : ℕ} :
      Move m (.unlinking args no ∅) { m with resolved := (args, no) :: m.resolved } .idle

abbrev StoreState (B : Type) := Pool (StoreMem B) (StoreTask B)

abbrev StoreStep : StoreState B → ℕ → StoreState B → Prop :=
  Pool.Step (StoreTask.Move upper) fun _ _ => False

def StoreInit (s : StoreState B) : Prop := s.mem = ⟨.empty, [], []⟩ ∧ ∀ t, s.threads t = .idle

abbrev StoreReach : StoreState B → Prop := Reach StoreInit (StoreStep upper) anyStep

/-! ### What an invalidation covers -/

/-- The page carries one of the tags, or has the path and the method, or the key prefix; and it has
the key prefix the invalidation is scoped to. -/
def CoversStored (a : InvalidateArgs) {C : Type} (p : Page C) : Prop :=
  (∀ x, a.keyPrefix = some x → p.keyPrefix = x) ∧
  ((∃ t ∈ a.tags, t ∈ p.tags) ∨
    (a.path = some p.path ∧ upper (a.method.getD "GET") = upper p.method) ∨
    (a.tags = [] ∧ a.path = none ∧ a.keyPrefix.isSome = true ∧
      a.method.all (fun m => decide (upper m = "GET")) = true))

section
variable {upper : String → String} {C : Type} {a b : InvalidateArgs} {p : Page C}

/-- A covered page is in one of the sets an invalidation works on, and in the filter. -/
theorem CoversStored.shares (h : CoversStored upper a p) : ∃ i ∈ (targets upper a).idx,
    i ∈ p.idx upper ∧ ∀ f, (targets upper a).filter = some f → f ∈ p.idx upper := by
  obtain ⟨hpx, h⟩ := h
  have hpfx : ∀ x, a.keyPrefix = some x → Index.pfx x ∈ p.idx upper := by
    intro x hx
    rw [← hpx x hx]
    simp [Page.idx]
  have hnamed : ∀ i ∈ namedIdx upper a, i ∈ (targets upper a).idx ∧
      ∀ f, (targets upper a).filter = some f → f ∈ p.idx upper := by
    intro i hi
    unfold targets
    cases hx : a.keyPrefix with
    | none => exact ⟨hi, fun f hf => by cases hf⟩
    | some x =>
        have hne : namedIdx upper a ≠ [] := List.ne_nil_of_mem hi
        simp only [hne, ne_eq, not_false_eq_true, if_true]
        exact ⟨hi, fun f hf => by cases hf; exact hpfx x hx⟩
  rcases h with ⟨t, ht, htp⟩ | ⟨hpath, hmethod⟩ | ⟨htags, hpath, hx, hmethod⟩
  · have hi : Index.tag t ∈ namedIdx upper a := by simp [namedIdx, ht]
    exact ⟨_, (hnamed _ hi).1, by simp [Page.idx, htp], (hnamed _ hi).2⟩
  · have hi : Index.path (pathName upper a.method p.path) ∈ namedIdx upper a := by
      simp [namedIdx, hpath]
    refine ⟨_, (hnamed _ hi).1, ?_, (hnamed _ hi).2⟩
    simp [Page.idx, pathName, hmethod]
  · obtain ⟨x, hx⟩ := Option.isSome_iff_exists.mp hx
    have ht : targets upper a = ⟨[.pfx x], none⟩ := by
      simp [targets, hx, namedIdx, htags, hpath, hmethod]
    rw [ht]
    exact ⟨_, List.mem_singleton_self _, hpfx x hx, fun f hf => by cases hf⟩

/-- A page in all of its sets is found by an invalidation that covers it. -/
theorem CoversStored.selects (h : CoversStored upper a p)
    (hid : canonical upper b = canonical upper a)
    {sets : Index → Finset String} {k : String} (hk : ∀ i ∈ p.idx upper, k ∈ sets i) :
    (targets upper b).selects sets k := by
  obtain ⟨i, hi, hip, hf⟩ := h.shares
  exact (selects_of_canonical hid sets k).mpr ⟨i, hi, hk i hip, fun f h => hk f (hf f h)⟩

end

/-! ### Numbers -/

/-- The number of the invalidation a task is unlinking for. -/
def StoreTask.no : StoreTask B → Option ℕ
  | .unlinking _ no _ => some no
  | _ => none

/-- Invalidations are numbered in the order of their scripts, and each is unlinked by one task,
until it resolves. -/
structure Numbered (s : StoreState B) : Prop where
  ran : ∀ {r}, r ∈ s.mem.ran → r.no ≤ s.mem.ran.length
  task : ∀ {t args no members}, s.threads t = .unlinking args no members →
    ∃ v, ⟨args, no, v⟩ ∈ s.mem.ran
  inj : ∀ {t u no}, (s.threads t).no = some no → (s.threads u).no = some no → t = u
  resolved : ∀ {args no}, (args, no) ∈ s.mem.resolved →
    (∃ v, ⟨args, no, v⟩ ∈ s.mem.ran) ∧ ∀ t, (s.threads t).no ≠ some no

section
variable {upper} {m m' : StoreMem B} {c c' : StoreTask B} {s s' : StoreState B} {t : ℕ}

/-- A move keeps the number of its task, or runs a script under the next one, or resolves. -/
theorem StoreTask.Move.no_cases (h : Move upper m c m' c') :
    (c'.no = c.no ∧ m'.ran = m.ran ∧ m'.resolved = m.resolved) ∨
    (c.no = none ∧ c'.no = some (m.ran.length + 1) ∧ m'.resolved = m.resolved ∧
      ∃ args members, c' = .unlinking args (m.ran.length + 1) members ∧
        m'.ran = ⟨args, m.ran.length + 1, m.db.seq + 1⟩ :: m.ran) ∨
    ∃ args no, c = .unlinking args no ∅ ∧ c'.no = none ∧ m'.ran = m.ran ∧
      m'.resolved = (args, no) :: m.resolved := by
  cases h with
  | script => exact .inr (.inl ⟨rfl, rfl, rfl, _, _, rfl, rfl⟩)
  | resolve => exact .inr (.inr ⟨_, _, rfl, rfl, rfl, rfl⟩)
  | _ => exact .inl ⟨rfl, rfl, rfl⟩

theorem StoreTask.Move.unlinking (h : Move upper m c m' c') {args : InvalidateArgs} {no : ℕ}
    {members : Finset String} (hc : c' = .unlinking args no members) :
    (∃ members', c = .unlinking args no members') ∨ ∃ v, ⟨args, no, v⟩ ∈ m'.ran := by
  cases h with
  | script => cases hc; exact .inr ⟨_, List.mem_cons_self ..⟩
  | unlink => cases hc; exact .inl ⟨_, rfl⟩
  | _ => cases hc

theorem StoreTask.Move.ran_subset (h : Move upper m c m' c') : m.ran ⊆ m'.ran := by
  cases h with
  | script => exact List.subset_cons_self ..
  | _ => exact List.Subset.refl _

theorem Numbered.step (hs : Numbered s) (h : StoreStep upper s t s') : Numbered s' := by
  obtain @⟨m', c', h, -⟩ := h
  -- only the thread that moves has another number
  have hno : ∀ u no, ((s.set t m' c').threads u).no = some no →
      (u ≠ t ∧ (s.threads u).no = some no) ∨ (u = t ∧ c'.no = some no) := by
    intro u no hu
    by_cases e : u = t
    · subst e
      rw [Pool.set_self] at hu
      exact .inr ⟨rfl, hu⟩
    · rw [Pool.set_other e] at hu
      exact .inl ⟨e, hu⟩
  have hbound : ∀ {u no}, (s.threads u).no = some no → no ≤ s.mem.ran.length := by
    intro u no hu
    cases hc : s.threads u with
    | unlinking args no' members =>
        rw [hc] at hu
        cases hu
        obtain ⟨v, hv⟩ := hs.task hc
        exact hs.ran hv
    | _ => rw [hc] at hu; cases hu
  refine ⟨?_, ?_, ?_, ?_⟩
  · intro r hr
    rcases h.no_cases with ⟨-, e, -⟩ | ⟨-, -, -, args, members, -, e⟩ | ⟨-, -, -, -, e, -⟩
    · rw [Pool.set_mem, e] at hr ⊢; exact hs.ran hr
    · rw [Pool.set_mem, e] at hr ⊢
      rw [List.length_cons]
      rcases List.mem_cons.mp hr with rfl | hr
      · exact le_rfl
      · exact Nat.le_succ_of_le (hs.ran hr)
    · rw [Pool.set_mem, e] at hr ⊢; exact hs.ran hr
  · intro u args no members hu
    by_cases e : u = t
    · subst e
      rw [Pool.set_self] at hu
      rcases h.unlinking hu with ⟨members', hc⟩ | hv
      · obtain ⟨v, hv⟩ := hs.task hc
        exact ⟨v, h.ran_subset hv⟩
      · exact hv
    · rw [Pool.set_other e] at hu
      obtain ⟨v, hv⟩ := hs.task hu
      exact ⟨v, h.ran_subset hv⟩
  · have hnew : ∀ {u no}, c'.no = some no → (s.threads u).no = some no → u = t := by
      intro u no hc hu
      rcases h.no_cases with ⟨e, -⟩ | ⟨-, e, -⟩ | ⟨-, -, -, e, -⟩
      · exact hs.inj hu (e ▸ hc)
      · rw [e] at hc
        cases hc
        exact absurd (hbound hu) (Nat.not_succ_le_self _)
      · rw [e] at hc; cases hc
    intro u w no hu hw
    rcases hno u no hu with ⟨hut, hu'⟩ | ⟨hut, hu'⟩
    · rcases hno w no hw with ⟨-, hw'⟩ | ⟨-, hw'⟩
      · exact hs.inj hu' hw'
      · exact absurd (hnew hw' hu') hut
    · rcases hno w no hw with ⟨hwt, hw'⟩ | ⟨hwt, -⟩
      · exact absurd (hnew hu' hw') hwt
      · rw [hut, hwt]
  · intro args no hr
    rcases h.no_cases with ⟨e, e₁, e₂⟩ | ⟨-, e, e₂, -⟩ | ⟨args', no', hc, e, e₁, e₂⟩
    · rw [Pool.set_mem, e₂] at hr
      obtain ⟨⟨v, hv⟩, hout⟩ := hs.resolved hr
      refine ⟨⟨v, h.ran_subset hv⟩, fun u hu => ?_⟩
      rcases hno u no hu with ⟨-, hu⟩ | ⟨-, hu⟩
      · exact hout u hu
      · exact hout t (e ▸ hu)
    · rw [Pool.set_mem, e₂] at hr
      obtain ⟨⟨v, hv⟩, hout⟩ := hs.resolved hr
      refine ⟨⟨v, h.ran_subset hv⟩, fun u hu => ?_⟩
      rcases hno u no hu with ⟨-, hu⟩ | ⟨-, hu⟩
      · exact hout u hu
      · rw [e] at hu
        cases hu
        exact absurd (hs.ran hv) (Nat.not_succ_le_self _)
    · rw [Pool.set_mem, e₂] at hr
      rcases List.mem_cons.mp hr with hr | hr
      · cases hr
        obtain ⟨v, hv⟩ := hs.task hc
        refine ⟨⟨v, h.ran_subset hv⟩, fun u hu => ?_⟩
        rcases hno u no hu with ⟨hut, hu⟩ | ⟨-, hu⟩
        · exact hut (hs.inj hu (by rw [hc]; rfl))
        · rw [e] at hu; cases hu
      · obtain ⟨⟨v, hv⟩, hout⟩ := hs.resolved hr
        refine ⟨⟨v, h.ran_subset hv⟩, fun u hu => ?_⟩
        rcases hno u no hu with ⟨-, hu⟩ | ⟨-, hu⟩
        · exact hout u hu
        · rw [e] at hu; cases hu

/-! ### Stamps and markers -/

/-- A stamp is not ahead of the sequence, and is below the marker value of every invalidation whose
script ran after it was read. -/
def Precedes (m : StoreMem B) (stamp readAt : ℕ) : Prop :=
  stamp ≤ m.db.seq ∧ ∀ r ∈ m.ran, readAt < r.no → stamp < r.v

def StoreTask.StampOk (upper : String → String) (m : StoreMem B) : StoreTask B → Prop
  | .stamped stamp readAt => Precedes m stamp readAt
  | .staged _ meta' page _ => page.idx upper = meta'.idx upper ∧ page.entryStamp = meta'.stamp ∧
      ∀ stamp, page.entryStamp = some stamp → Precedes m stamp page.body.readAt
  | _ => True

/-- Every marker of an invalidation is at its value, or above. -/
def Marked (upper : String → String) (m : StoreMem B) : Prop :=
  ∀ r ∈ m.ran, ∀ i ∈ (targets upper r.args).idx, r.v ≤ m.db.marks i

structure Guarded (upper : String → String) (s : StoreState B) : Prop where
  marked : Marked upper s.mem
  stamps : ∀ t, (s.threads t).StampOk upper s.mem

/-- The sequence and the markers only go up. -/
theorem StoreTask.Move.mono (h : Move upper m c m' c') :
    m.db.seq ≤ m'.db.seq ∧ ∀ i, m.db.marks i ≤ m'.db.marks i := by
  have hinval : ∀ mode t origin args, m.db.seq ≤ (m.db.inval mode t origin args).1.seq ∧
      ∀ i, m.db.marks i ≤ (m.db.inval mode t origin args).1.marks i := by
    intro mode t origin args
    obtain ⟨-, hseq, hmarks, -⟩ := @Db.inval_spec _ m.db mode t origin args
    refine ⟨?_, fun i => ?_⟩
    · rw [hseq]; split <;> omega
    · rw [hmarks]; split <;> omega
  cases h with
  | @set k meta' page expires =>
      rcases m.db.set_cases (if m.db.now < expires then some page else none) k meta'.stamp
        (max 1 meta'.ttlMs) (meta'.idx upper) with e | ⟨_, _, -, e, -, ⟨-, hs, hm, -⟩, -⟩
      · simp only [e]; exact ⟨le_rfl, fun i => le_rfl⟩
      · simp only [e, hs, hm]; exact ⟨le_rfl, fun i => le_rfl⟩
  | script => exact hinval ..
  | publish => exact hinval ..
  | _ => exact ⟨le_rfl, fun i => le_rfl⟩

/-- An invalidation that has run its script raised its markers to its value, which is above the
sequence. -/
theorem StoreTask.Move.ran_cases (h : Move upper m c m' c') {r : RanInval} (hr : r ∈ m'.ran) :
    r ∈ m.ran ∨ r.v = m.db.seq + 1 ∧
      ∀ i ∈ (targets upper r.args).idx, r.v ≤ m'.db.marks i := by
  cases h with
  | script args run mode origin hid hmode =>
      rcases List.mem_cons.mp hr with rfl | hr
      · obtain ⟨-, -, hmarks, -⟩ := @Db.inval_spec _ m.db mode (targets upper run) origin run
        refine .inr ⟨rfl, fun i hi => ?_⟩
        simp only [hmarks, ((targets_of_canonical hid).1 i).mpr hi, if_true]
        exact Nat.le_max_left _ _
      · exact .inl hr
  | _ => exact .inl hr

theorem Precedes.move (h : StoreTask.Move upper m c m' c') {stamp readAt : ℕ}
    (hs : Precedes m stamp readAt) : Precedes m' stamp readAt := by
  refine ⟨le_trans hs.1 h.mono.1, fun r hr hlt => ?_⟩
  rcases h.ran_cases hr with hr | ⟨hv, -⟩
  · exact hs.2 r hr hlt
  · exact hv ▸ Nat.lt_succ_of_le hs.1

theorem StoreTask.StampOk.move (h : StoreTask.Move upper m c m' c') {d : StoreTask B}
    (hs : d.StampOk upper m) : d.StampOk upper m' := by
  cases d with
  | stamped => exact Precedes.move h hs
  | staged => exact ⟨hs.1, hs.2.1, fun stamp e => (hs.2.2 stamp e).move h⟩
  | _ => trivial

theorem StoreTask.Move.stampOk (h : Move upper m c m' c')
    (hran : ∀ r ∈ m.ran, r.no ≤ m.ran.length) (hc : c.StampOk upper m) : c'.StampOk upper m' := by
  cases h with
  | getSeq => exact ⟨le_rfl, fun r hr hlt => absurd (hran r hr) (Nat.not_le_of_lt hlt)⟩
  | stage k meta' body storedAt h =>
      refine ⟨rfl, rfl, fun stamp e => ?_⟩
      cases h.symm.trans e
      exact hc
  | stageUnguarded k meta' body storedAt h =>
      exact ⟨rfl, rfl, fun stamp e => by cases h.symm.trans e⟩
  | _ => trivial

theorem Guarded.step (hn : Numbered s) (hs : Guarded upper s) (h : StoreStep upper s t s') :
    Guarded upper s' := by
  obtain @⟨m', c', h, -⟩ := h
  refine ⟨fun r hr i hi => ?_, Pool.forall_set hs.stamps (fun _ hd => hd.move h)
    (h.stampOk (fun _ => hn.ran) (hs.stamps t))⟩
  rcases h.ran_cases hr with hr | ⟨-, hm⟩
  · exact le_trans (hs.marked r hr i hi) (h.mono.2 i)
  · exact hm i hi

/-! ### Pages -/

/-- An invalidation whose script was the `no`th, or before, has yet to unlink the key. -/
def Awaited (s : StoreState B) (k : String) (no : ℕ) : Prop :=
  ∃ t args no' members, s.threads t = .unlinking args no' members ∧ k ∈ members ∧ no' ≤ no

/-- A page that no invalidation awaits is indexed, and outlived by its sets; one older than the
script of an invalidation that covers it is awaited. -/
structure Indexes (upper : String → String) (s : StoreState B) : Prop where
  indexed : ∀ {k p e}, s.mem.db.pages k = some (p, e) → (∀ no, ¬ Awaited s k no) →
    ∀ i ∈ p.idx upper, k ∈ s.mem.db.sets i ∧ e ≤ s.mem.db.setExpires i
  awaited : ∀ {r k p e stamp}, r ∈ s.mem.ran → s.mem.db.pages k = some (p, e) →
    CoversStored upper r.args p → p.entryStamp = some stamp → p.body.readAt < r.no →
    Awaited s k r.no

/-- A page that is there after a move was there, or was just set, in all of its sets and under no
marker above its stamp. -/
theorem StoreTask.Move.pages_cases (h : Move upper m c m' c') (hc : c.StampOk upper m)
    {k : String} {p : Page (Stamped B)} {e : ℕ} (hp : m'.db.pages k = some (p, e)) :
    (m.db.pages k = some (p, e) ∧ ∀ i, k ∈ m.db.sets i → e ≤ m.db.setExpires i →
      (k ∈ m'.db.sets i ∧ e ≤ m'.db.setExpires i) ∨
        ∃ args no members, c' = .unlinking args no members ∧ k ∈ members) ∨
    (∀ i ∈ p.idx upper, k ∈ m'.db.sets i ∧ e ≤ m'.db.setExpires i) ∧ m'.ran = m.ran ∧
      ∀ stamp, p.entryStamp = some stamp → Precedes m stamp p.body.readAt ∧
        ∀ i ∈ p.idx upper, m.db.marks i ≤ stamp := by
  have hinval : ∀ {mode t origin args}, (m.db.inval mode t origin args).1.pages k = some (p, e) →
      m.db.pages k = some (p, e) ∧ ∀ i, k ∈ m.db.sets i → e ≤ m.db.setExpires i →
        (k ∈ (m.db.inval mode t origin args).1.sets i ∧
          e ≤ (m.db.inval mode t origin args).1.setExpires i) ∨
        k ∈ (m.db.inval mode t origin args).2.members := by
    intro mode t origin args hp
    obtain ⟨⟨-, hpages, hexp⟩, -, -, -, -, -, -, hkeep⟩ := @Db.inval_spec _ m.db mode t origin args
    rw [hpages] at hp
    refine ⟨hp, fun i hi he => ?_⟩
    by_cases hk : k ∈ (m.db.inval mode t origin args).2.members
    · exact .inr hk
    · exact .inl ⟨hkeep i k hi hk, by rw [hexp]; exact he⟩
  cases h with
  | tick now =>
      simp only [Db.expire, Option.filter_eq_some_iff, decide_eq_true_eq] at hp
      refine .inl ⟨hp.1, fun i hi he => .inl ⟨?_, he⟩⟩
      simp only [Db.expire, if_neg (Nat.not_le_of_lt (lt_of_lt_of_le hp.2 he)), hi]
  | @set k' meta' page expires =>
      rcases m.db.set_cases (if m.db.now < expires then some page else none) k' meta'.stamp
        (max 1 meta'.ttlMs) (meta'.idx upper) with
        e' | ⟨page', db', hstage, e', hmarks, -, hpages, hsets, hold, hnew⟩
      · simp only [e'] at hp ⊢
        exact .inl ⟨hp, fun i hi he => .inl ⟨hi, he⟩⟩
      · simp only [e'] at hp ⊢
        obtain rfl : page = page' := by
          split at hstage
          · exact Option.some.inj hstage
          · cases hstage
        obtain ⟨hidx, hstamp, hprec⟩ := hc
        rw [hpages] at hp
        by_cases hk : k = k'
        · subst hk
          rw [Function.update_self] at hp
          cases hp
          refine .inr ⟨fun i hi => ?_, trivial, fun stamp hs => ⟨hprec stamp hs, fun i hi => ?_⟩⟩
          · rw [hidx] at hi
            exact ⟨by rw [hsets, if_pos hi]; exact Finset.mem_insert_self _ _, hnew i hi⟩
          · rw [hidx] at hi
            exact hmarks stamp (hstamp ▸ hs) i hi
        · rw [Function.update_of_ne hk] at hp
          refine .inl ⟨hp, fun i hi he =>
            .inl ⟨?_, le_trans he (hold i (Finset.ne_empty_of_mem hi))⟩⟩
          rw [hsets]
          split
          · exact Finset.mem_insert_of_mem hi
          · exact hi
  | script args run mode origin hid hmode =>
      obtain ⟨hp, hkeep⟩ := hinval hp
      exact .inl ⟨hp, fun i hi he => (hkeep i hi he).imp_right fun hk => ⟨_, _, _, rfl, hk⟩⟩
  | publish args origin =>
      obtain ⟨hp, hkeep⟩ := @hinval .publish _ _ _ hp
      obtain ⟨-, -, -, -, -, hmem, -⟩ :=
        @Db.inval_spec _ m.db .publish (targets upper args) origin args
      refine .inl ⟨hp, fun i hi he => .inl ((hkeep i hi he).resolve_right fun hk => ?_)⟩
      exact ((hmem k).mp hk).1 rfl
  | unlink =>
      simp only [Db.unlink] at hp
      split at hp
      · cases hp
      · exact .inl ⟨hp, fun i hi he => .inl ⟨hi, he⟩⟩
  | _ => exact .inl ⟨hp, fun i hi he => .inl ⟨hi, he⟩⟩

/-- A script that runs returns every page its invalidation covers that is in all of its sets. -/
theorem StoreTask.Move.script_members (h : Move upper m c m' c') {r : RanInval} (hr : r ∈ m'.ran) :
    r ∈ m.ran ∨ r.no = m.ran.length + 1 ∧ ∃ members, c' = .unlinking r.args r.no members ∧
      ∀ k (p : Page (Stamped B)), CoversStored upper r.args p →
        (∀ i ∈ p.idx upper, k ∈ m.db.sets i) → k ∈ members := by
  cases h with
  | script args run mode origin hid hmode =>
      rcases List.mem_cons.mp hr with rfl | hr
      · obtain ⟨-, -, -, -, -, hmem, -⟩ :=
          @Db.inval_spec _ m.db mode (targets upper run) origin run
        exact .inr ⟨rfl, _, rfl, fun k p hcov hk => (hmem k).mpr ⟨hmode, hcov.selects hid hk⟩⟩
      · exact .inl hr
  | _ => exact .inl hr

/-- A page that is awaited, and there after a move, goes on being awaited. -/
theorem Awaited.step (h : StoreStep upper s t s') {k : String} {no : ℕ} (ha : Awaited s k no)
    (hp : s'.mem.db.pages k ≠ none) : Awaited s' k no := by
  obtain @⟨m', c', h, -⟩ := h
  obtain ⟨u, args, no', members, hu, hk, hle⟩ := ha
  by_cases e : u = t
  · subst e
    rw [hu] at h
    cases h with
    | @unlink _ _ _ batch hb =>
        refine ⟨u, args, no', members \ batch, Pool.set_self .., ?_, hle⟩
        refine Finset.mem_sdiff.mpr ⟨hk, fun hkb => hp ?_⟩
        simp [Db.unlink, hkb]
    | resolve => simp at hk
  · exact ⟨u, args, no', members, (Pool.set_other e ..).trans hu, hk, hle⟩

theorem Indexes.step (hn : Numbered s) (hg : Guarded upper s) (hs : Indexes upper s)
    (h : StoreStep upper s t s') : Indexes upper s' := by
  have hkeep := fun k no (ha : Awaited s k no) => Awaited.step h ha
  obtain @⟨m', c', h, -⟩ := h
  have hthere : ∀ {k p e}, m'.db.pages k = some (p, e) → m'.db.pages k ≠ none := by
    intro k p e hp
    rw [hp]
    exact Option.some_ne_none _
  constructor
  · intro k p e hp hna
    rcases h.pages_cases (hg.stamps t) hp with ⟨hp', hold⟩ | ⟨hnew, -⟩
    · have hna' : ∀ no, ¬ Awaited s k no := fun no ha => hna no (hkeep k no ha (hthere hp))
      intro i hi
      obtain ⟨hk, he⟩ := hs.indexed hp' hna' i hi
      refine (hold i hk he).resolve_right ?_
      rintro ⟨args, no, members, rfl, hk⟩
      exact hna no ⟨t, args, no, members, Pool.set_self .., hk, le_rfl⟩
    · exact hnew
  · intro r k p e stamp hr hp hcov hstamp hlt
    rcases h.pages_cases (hg.stamps t) hp with ⟨hp', -⟩ | ⟨-, hran, hmarks⟩
    · rcases h.script_members hr with hr | ⟨hno, members, hc, hmem⟩
      · exact hkeep k _ (hs.awaited hr hp' hcov hstamp hlt) (hthere hp)
      · by_cases ha : ∃ no, Awaited s k no
        · -- an earlier script took it out of the index
          obtain ⟨no, u, args, no', members', hu, hk, hle⟩ := ha
          obtain ⟨v, hv⟩ := hn.task hu
          refine hkeep k r.no ⟨u, args, no', members', hu, hk, ?_⟩ (hthere hp)
          exact hno ▸ Nat.le_succ_of_le (hn.ran hv)
        · have hk := hmem k p hcov fun i hi =>
            (hs.indexed hp' (fun no ha' => ha ⟨no, ha'⟩) i hi).1
          exact ⟨t, _, _, members, (Pool.set_self ..).trans hc, hk, le_rfl⟩
    · -- a page just set under an older stamp would have been refused
      obtain ⟨i, hi, hip, -⟩ := hcov.shares
      obtain ⟨hprec, hm⟩ := hmarks stamp hstamp
      have hr' : r ∈ s.mem.ran := hran ▸ hr
      exact absurd (le_trans (hg.marked r hr' i hi) (hm i hip))
        (Nat.not_le_of_lt (hprec.2 r hr' hlt))

theorem indexes (r : StoreReach upper s) : Numbered s ∧ Guarded upper s ∧ Indexes upper s := by
  refine @Reach.inv _ _ _ _ _ (fun s => Numbered s ∧ Guarded upper s ∧ Indexes upper s) ?_
    (fun s t s' hs h _ => ⟨hs.1.step h, hs.2.1.step hs.1 h, hs.2.2.step hs.1 hs.2.1 h⟩) _ r
  rintro s ⟨hm, hth⟩
  refine ⟨⟨?_, ?_, ?_, ?_⟩, ⟨?_, ?_⟩, ⟨?_, ?_⟩⟩
  · intro r hr; rw [hm] at hr; cases hr
  · intro t args no members ht; rw [hth] at ht; cases ht
  · intro t u no ht; rw [hth] at ht; cases ht
  · intro args no hr; rw [hm] at hr; cases hr
  · intro r hr; rw [hm] at hr; cases hr
  · intro t; rw [hth]; trivial
  · intro k p e hp; rw [hm] at hp; cases hp
  · intro r k p e stamp hr; rw [hm] at hr; cases hr

/-! ### After an invalidation -/

/-- The page was set under a stamp read before the `no`th script ran. -/
def OlderThan (p : Page (Stamped B)) (no : ℕ) : Prop :=
  p.entryStamp.isSome = true ∧ p.body.readAt < no

/-- **After an invalidation has resolved** a page that it covers and that is older than its script
is one that an earlier invalidation has yet to unlink; **and every live page** that none has yet to
unlink is a member of each of its index sets, which outlive it. -/
theorem get_fresh_or_awaited (r : StoreReach upper s) :
    (∀ args no k p e, (args, no) ∈ s.mem.resolved → s.mem.db.pages k = some (p, e) →
      CoversStored upper args p → OlderThan p no →
      ∃ t args' no' members, s.threads t = .unlinking args' no' members ∧ k ∈ members ∧ no' < no) ∧
    ∀ k p e, s.mem.db.pages k = some (p, e) →
      (¬ ∃ t args no members, s.threads t = .unlinking args no members ∧ k ∈ members) →
      ∀ i ∈ p.idx upper, k ∈ s.mem.db.sets i ∧ e ≤ s.mem.db.setExpires i := by
  obtain ⟨hn, -, hs⟩ := indexes r
  constructor
  · rintro args no k p e hres hp hcov ⟨hstamp, hlt⟩
    obtain ⟨stamp, hstamp⟩ := Option.isSome_iff_exists.mp hstamp
    obtain ⟨⟨v, hv⟩, hout⟩ := hn.resolved hres
    obtain ⟨t, args', no', members, ht, hk, hle⟩ := hs.awaited hv hp hcov hstamp hlt
    refine ⟨t, args', no', members, ht, hk, lt_of_le_of_ne hle ?_⟩
    rintro rfl
    exact hout t (by rw [ht]; rfl)
  · intro k p e hp hna
    exact hs.indexed hp fun no ⟨t, args, no', members, ht, hk, _⟩ =>
      hna ⟨t, args, no', members, ht, hk⟩

end

/-! ### One page -/

theorem store_start (l : List (StoreTask B)) (h : ∀ c ∈ l, c = .idle) :
    StoreReach upper (Pool.ofList .idle ⟨.empty, [], []⟩ l) := by
  refine .init ⟨rfl, fun t => ?_⟩
  by_cases ht : t < l.length
  · simpa [Pool.ofList, ht] using h _ (List.getElem_mem ht)
  · simp [Pool.ofList, ht]

variable {upper} in
theorem store_move {m m' : StoreMem B} {l : List (StoreTask B)}
    (r : StoreReach upper (Pool.ofList .idle m l)) (t : ℕ) {c c' : StoreTask B}
    (h : StoreTask.Move upper m c m' c') (hc : l[t]? = some c) :
    StoreReach upper (Pool.ofList .idle m' (l.set t c')) :=
  r.step (.ofList hc h id fun _ _ _ => id) trivial

/-- A page of `/p` with the tag `t`, set under stamp zero. -/
def tagged : SetMeta := ⟨60000, ["t"], "GET", "/p", none, some 0⟩

def ofTag (t : String) : InvalidateArgs := ⟨none, [t], none, none, none⟩

/-- The state after one task has set the page. -/
def onePage : StoreMem Unit :=
  let db : Db (Stamped Unit) := .empty
  ⟨(db.set (if db.now < db.now + STAGE_TTL_MS then
    some (framed String.toUpper ⟨(), 0⟩ tagged 0) else none) "k" tagged.stamp (max 1 tagged.ttlMs)
    (tagged.idx String.toUpper)).1, [], []⟩

theorem onePage_reach : StoreReach String.toUpper (Pool.ofList .idle onePage [.idle, .idle]) := by
  have r := store_start (B := Unit) String.toUpper [.idle, .idle] (by simp)
  have r := store_move r 0 .getSeq rfl
  have r := store_move r 0 (.stage "k" tagged () 0 rfl) rfl
  exact store_move r 0 .set rfl

/-- An invalidation that unlinks the page and resolves. -/
theorem get_fresh_resolved : ∃ s : StoreState Unit, StoreReach String.toUpper s ∧
    (ofTag "t", 1) ∈ s.mem.resolved ∧ ∀ k p e, s.mem.db.pages k = some (p, e) →
      CoversStored String.toUpper (ofTag "t") p → ¬ OlderThan p 1 := by
  have r := onePage_reach
  have r := store_move r 0 (.script (ofTag "t") (ofTag "t") .delete "" rfl (by decide)) rfl
  have r := store_move r 0 (.unlink (Finset.Subset.refl _)) rfl
  rw [Finset.sdiff_self] at r
  have r := store_move r 0 .resolve rfl
  refine ⟨_, r, List.mem_cons_self .., fun k p e hp hcov hold => ?_⟩
  obtain ⟨t, args, no, members, ht, -⟩ :=
    (get_fresh_or_awaited r).1 _ _ k p e (List.mem_cons_self ..) hp hcov hold
  match t with
  | 0 => cases ht
  | 1 => cases ht
  | t + 2 => cases ht

/-- Two invalidations of one tag: the second finds the index empty, and resolves before the first
has unlinked the page. -/
theorem get_stale_awaited : ¬ ∀ s : StoreState Unit, StoreReach String.toUpper s →
    (∀ args no k p e, (args, no) ∈ s.mem.resolved → s.mem.db.pages k = some (p, e) →
      CoversStored String.toUpper args p → ¬ OlderThan p no) ∧
    ∀ k p e, s.mem.db.pages k = some (p, e) →
      ∀ i ∈ p.idx String.toUpper, k ∈ s.mem.db.sets i ∧ e ≤ s.mem.db.setExpires i := by
  intro h
  have r := onePage_reach
  have r := store_move r 0 (.script (ofTag "t") (ofTag "t") .delete "" rfl (by decide)) rfl
  have r := store_move r 1 (.script (ofTag "t") (ofTag "t") .delete "" rfl (by decide)) rfl
  have hnone : (((onePage.db.inval .delete (targets String.toUpper (ofTag "t")) ""
    (ofTag "t")).1.inval
      .delete (targets String.toUpper (ofTag "t")) "" (ofTag "t")).2.members) = ∅ := by
    decide +kernel
  simp only [hnone] at r
  have r := store_move r 1 .resolve rfl
  refine (h _ r).1 (ofTag "t") 2 "k" (framed String.toUpper ⟨(), 0⟩ tagged 0) 60000
    (List.mem_cons_self ..) rfl ?_ ⟨rfl, by decide⟩
  exact ⟨fun x hx => (by cases hx), .inl ⟨"t", by decide, by decide⟩⟩

end Brust.Redis
