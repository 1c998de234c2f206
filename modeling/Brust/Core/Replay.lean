import Brust.Cache.Contract
import Brust.Core.Eviction
import Brust.Core.L2Read
import Brust.Support.Pool

/-!
# Core — a shared-tier read against a replay

A request takes its read stamp, fetches an entry, checks the floor and inserts into L1; a replay
raises the floor and then runs the calls of `Core::invalidate`, each of which takes a clock value
and returns.  Any number of either run at once, next to whatever else goes on in L1.

Of L1 two things are asked, the contract of a guarded cache (`Tier.Step`): an insert lands only if
no call that returned outdates it, and a call returns only when no older page that it covers is
left.  The second is a condition on a run (`Task.Leaves`), for L1 does not keep it in a listener's
gap.

Two mechanisms close the window.  If the replay raised the floor before the request's check, the
check refuses the entry.  If it raised it after, its calls take their clock values after the
request's stamp, and L1 keeps the entry out, or removes it before the call returns.  So no entry
older than a returned replay that covers it is left (`replay_leaves_none`), as long as the floor is
asked for the path the keys use, and has been raised for no more names than it remembers.
`replay_leaves_evicted` is what happens past that.
-/

namespace Brust.Core

open Brust.Cache Brust.Routing

/-- Where a page in L1 comes from: an L2 entry read for a request target, or a render. -/
inductive Source where
  | l2 (full : String) (entryStamp : Option ℕ)
  | render

abbrev PageTier := Tier PageInval (PageInsert Source)

abbrev coversPage (i : PageInval) (a : PageInsert Source) : Prop := i.covers a.key a.tags

/-- L1, what the floor was made by since its reset, and the replays that returned. -/
structure L2Mem where
  tier : PageTier
  ops : List FloorOp
  replayed : List (InvalidateArgs × ℕ)

inductive Task where
  | idle
  | stamped (full px : String) (c : RouteCache) (since : ℕ)
  | fetched (full px : String) (c : RouteCache) (since : ℕ) (entryStamp storedAtMs : Option ℕ)
  | inserting (a : PageInsert Source)
  /-- A replay between two calls: those made, and those to make. -/
  | replay (args : InvalidateArgs) (seq : ℕ) (made rest : List Call)
  /-- A replay inside a call of L1, at its clock value. -/
  | calling (args : InvalidateArgs) (seq : ℕ) (made : List Call) (i : PageInval) (clock : ℕ)
      (rest : List Call)

/-- The page an answer to the lookup puts into L1. -/
def l2Insert (ops : List FloorOp) (full px : String) (c : RouteCache) (since nowMs : ℕ)
    (entryStamp storedAtMs : Option ℕ) : Option (PageInsert Source) :=
  (l2Read (Floor.run ops) (buildCacheKey "GET" full px) c full nowMs
    (.hit (Source.l2 full entryStamp) none entryStamp storedAtMs)).inserted.map fun p =>
      ⟨buildCacheKey "GET" full px, p.1, p.2, c.tags, since⟩

inductive Task.Move : L2Mem → Task → L2Mem → Task → Prop where
  /-- Whatever else goes on in L1: other invalidations, renders, evictions. -/
  | other {m : L2Mem} {tier : PageTier} (hclock : m.tier.clock ≤ tier.clock)
      (hissued : m.tier.issued ⊆ tier.issued) (hreturned : tier.returned = m.tier.returned)
      (hr : ∀ a ∈ tier.values, a ∈ m.tier.values ∨ a.body = .render) :
      Move m .idle { m with tier := tier } .idle
  | stamp {m : L2Mem} (full px : String) (c : RouteCache) :
      Move m .idle m (.stamped full px c m.tier.clock)
  | fetch {m : L2Mem} {full px : String} {c : RouteCache} {since : ℕ}
      (entryStamp storedAtMs : Option ℕ) :
      Move m (.stamped full px c since) m (.fetched full px c since entryStamp storedAtMs)
  | check {m : L2Mem} {full px : String} {c : RouteCache} {since nowMs : ℕ}
      {entryStamp storedAtMs : Option ℕ} {a : PageInsert Source}
      (h : l2Insert m.ops full px c since nowMs entryStamp storedAtMs = some a) :
      Move m (.fetched full px c since entryStamp storedAtMs) m (.inserting a)
  | refuse {m : L2Mem} {full px : String} {c : RouteCache} {since nowMs : ℕ}
      {entryStamp storedAtMs : Option ℕ}
      (h : l2Insert m.ops full px c since nowMs entryStamp storedAtMs = none) :
      Move m (.fetched full px c since entryStamp storedAtMs) m .idle
  | land {m : L2Mem} {a : PageInsert Source}
      (fresh : ∀ i seq, (i, seq) ∈ m.tier.returned → coversPage i a → seq ≤ a.since) :
      Move m (.inserting a)
        { m with tier := { m.tier with values := insert a m.tier.values } } .idle
  | outdated {m : L2Mem} {a : PageInsert Source} : Move m (.inserting a) m .idle
  /-- A gap clear raises the floor for every page. -/
  | gap {m : L2Mem} (seq : ℕ) : Move m .idle { m with ops := m.ops ++ [.clearAt seq] } .idle
  -- the replay
  | raise {m : L2Mem} (args : InvalidateArgs) (seq : ℕ) :
      Move m .idle { m with ops := m.ops ++ [.raise args seq] } (.replay args seq [] args.calls)
  | job {m : L2Mem} {args : InvalidateArgs} {seq : ℕ} {made rest : List Call} {i : JobInval} :
      Move m (.replay args seq made (.job i :: rest)) m (.replay args seq (made ++ [.job i]) rest)
  | call {m : L2Mem} {args : InvalidateArgs} {seq : ℕ} {made rest : List Call} {i : PageInval} :
      Move m (.replay args seq made (.page i :: rest)) { m with tier := m.tier.issue i }
        (.calling args seq made i (m.tier.clock + 1) rest)
  | callReturned {m : L2Mem} {args : InvalidateArgs} {seq clock : ℕ} {made rest : List Call}
      {i : PageInval} :
      Move m (.calling args seq made i clock rest)
        { m with tier := { m.tier with returned := insert (i, clock) m.tier.returned } }
        (.replay args seq (made ++ [.page i]) rest)
  | returned {m : L2Mem} {args : InvalidateArgs} {seq : ℕ} {made : List Call} :
      Move m (.replay args seq made []) { m with replayed := (args, seq) :: m.replayed } .idle

abbrev L2State := Pool L2Mem Task

abbrev L2Step : L2State → ℕ → L2State → Prop := Pool.Step Task.Move fun _ _ => False

def L2Init (s : L2State) : Prop := s.mem = ⟨.empty, [], []⟩ ∧ ∀ t, s.threads t = .idle

/-- A call that returns has left no older page that it covers in L1. -/
def Task.Leaves (m : L2Mem) : Task → Prop
  | .calling _ _ _ i clock _ => ∀ a ∈ m.tier.values, coversPage i a → clock ≤ a.since
  | _ => True

/-- The states of the runs in which every call of L1 returns so. -/
abbrev L2Reach : L2State → Prop := Reach L2Init L2Step fun s t => (s.threads t).Leaves s.mem

/-! ### What the check lets through -/

/-- A page read from L2 under a target in normal form, stamped `e`. -/
def FromL2 (a : PageInsert Source) (e : ℕ) : Prop :=
  ∃ full, a.body = .l2 full (some e) ∧ normalizeRequestPath (pathOf full) = pathOf full

/-- What passes the check is older than no raised invalidation that covers it. -/
theorem check_passes {ops : List FloorOp} (hops : (namesOf ops).length ≤ FLOOR_NAMES)
    {full px : String} {c : RouteCache} {since nowMs : ℕ} {entryStamp storedAtMs : Option ℕ}
    {a : PageInsert Source}
    (h : l2Insert ops full px c since nowMs entryStamp storedAtMs = some a) {e : ℕ}
    (hsrc : FromL2 a e) {args : InvalidateArgs} {seq : ℕ} (hraise : .raise args seq ∈ ops)
    (hc : args.covers a.key a.tags) : seq ≤ e := by
  obtain ⟨full', hbody, hnormal⟩ := hsrc
  unfold l2Insert l2Read at h
  simp only at h
  split at h
  · cases h
  next hrej =>
  split at h
  · cases h
  · simp only [Option.map_some, Option.some.injEq] at h
    subst h
    simp only [Source.l2.injEq] at hbody
    obtain ⟨rfl, rfl⟩ := hbody
    by_contra hlt
    -- the raise had the floor refuse the entry
    refine hrej ((Floor.run_rejects_iff ops hops e px (pathOf full) c.tags
      (space_notMem_normal hnormal)).mpr (.inr ?_))
    have hn := (floors_iff_covers (covers_valid hc) _ rfl _).mpr hc
    have hkey : (buildCacheKey "GET" full px).path = pathOf full := hnormal
    rw [hkey] at hn
    exact ⟨args, seq, hraise, Nat.lt_of_not_le hlt, hn⟩

/-! ### The invariant -/

/-- A page that passed the check: in L1, or about to be. -/
def Passed (s : L2State) (a : PageInsert Source) : Prop :=
  a ∈ s.mem.tier.values ∨ ∃ t, s.threads t = .inserting a

/-- The calls of a replay that cover the page took their clock values after its stamp. -/
def Behind (returned : Set (PageInval × ℕ)) (a : PageInsert Source) (made : List Call) : Prop :=
  ∀ i, .page i ∈ made → coversPage i a → ∃ q, a.since < q ∧ (i, q) ∈ returned

/-- A replay of `(args, seq)` at work is behind the page. -/
def Task.Late (returned : Set (PageInval × ℕ)) (a : PageInsert Source) (args : InvalidateArgs)
    (seq : ℕ) : Task → Prop
  | .replay args' seq' made _ => args' = args → seq' = seq → Behind returned a made
  | .calling args' seq' made _ clock _ =>
      args' = args → seq' = seq → Behind returned a made ∧ a.since < clock
  | _ => True

/-- A replay has raised the floor, its calls are those of its arguments, and the one it is in was
issued. -/
def Task.Replays (m : L2Mem) : Task → Prop
  | .replay args seq made rest => .raise args seq ∈ m.ops ∧ args.calls = made ++ rest
  | .calling args seq made i clock rest =>
      .raise args seq ∈ m.ops ∧ args.calls = made ++ .page i :: rest ∧ (i, clock) ∈ m.tier.issued
  | _ => True

/-- A stamp is not ahead of the clock. -/
def Task.StampLe (clock : ℕ) : Task → Prop
  | .stamped _ _ _ since => since ≤ clock
  | .fetched _ _ _ since _ _ => since ≤ clock
  | .inserting a => a.since ≤ clock
  | _ => True

structure L2Inv (s : L2State) : Prop where
  fresh : ∀ {a e}, a ∈ s.mem.tier.values → FromL2 a e → ∀ i seq, (i, seq) ∈ s.mem.tier.returned →
    coversPage i a → seq ≤ a.since
  stamps : ∀ t, (s.threads t).StampLe s.mem.tier.clock
  values : ∀ {a e}, a ∈ s.mem.tier.values → FromL2 a e → a.since ≤ s.mem.tier.clock
  replays : ∀ t, (s.threads t).Replays s.mem
  replayed : ∀ {args seq}, (args, seq) ∈ s.mem.replayed → .raise args seq ∈ s.mem.ops
  late : (namesOf s.mem.ops).length ≤ FLOOR_NAMES → ∀ {a e args seq}, Passed s a → FromL2 a e →
    e < seq → args.covers a.key a.tags →
    (∀ t, (s.threads t).Late s.mem.tier.returned a args seq) ∧
    ((args, seq) ∈ s.mem.replayed → ∃ i q, coversPage i a ∧ a.since < q ∧
      (i, q) ∈ s.mem.tier.returned)

/-! ### One move -/

section
variable {m m' : L2Mem} {c c' : Task}

/-- What a move cannot undo in L1. -/
theorem Task.Move.mono (h : Move m c m' c') :
    m.tier.clock ≤ m'.tier.clock ∧ m.tier.issued ⊆ m'.tier.issued ∧
      m.tier.returned ⊆ m'.tier.returned := by
  cases h with
  | other hclock hissued hreturned => exact ⟨hclock, hissued, hreturned.ge⟩
  | call => exact ⟨Nat.le_succ _, Set.subset_insert _ _, subset_rfl⟩
  | callReturned => exact ⟨le_rfl, subset_rfl, Set.subset_insert _ _⟩
  | _ => exact ⟨le_rfl, subset_rfl, subset_rfl⟩

/-- A move after which L1 has a page that a returned call outdates had it before. -/
theorem Task.Move.fresh (h : Move m c m' c') (hok : c.Leaves m) {a : PageInsert Source} {e : ℕ}
    (hsrc : FromL2 a e) (ha : a ∈ m'.tier.values)
    (hf : a ∈ m.tier.values → ∀ i seq, (i, seq) ∈ m.tier.returned → coversPage i a →
      seq ≤ a.since) :
    ∀ i seq, (i, seq) ∈ m'.tier.returned → coversPage i a → seq ≤ a.since := by
  intro i seq hr hc
  cases h with
  | other _ _ hreturned hvalues =>
      rcases hvalues a ha with ha | hrender
      · exact hf ha i seq (hreturned.subset hr) hc
      · obtain ⟨full, hbody, -⟩ := hsrc
        rw [hrender] at hbody
        cases hbody
  | land hland =>
      rcases Set.mem_insert_iff.mp ha with rfl | ha
      · exact hland i seq hr hc
      · exact hf ha i seq hr hc
  | callReturned =>
      rcases Set.mem_insert_iff.mp hr with heq | hr
      · cases heq
        exact hok a ha hc
      · exact hf ha i seq hr hc
  | _ => exact hf ha i seq hr hc

theorem Task.Move.ops_mono (h : Move m c m' c') : m.ops ⊆ m'.ops := by
  cases h with
  | gap => exact List.subset_append_left ..
  | raise => exact List.subset_append_left ..
  | _ => exact List.Subset.refl _

/-- A page from L2 that has passed the check passed it before, or passes it in this move. -/
theorem Task.Move.passed_cases (h : Move m c m' c') {a : PageInsert Source} {e : ℕ}
    (hsrc : FromL2 a e) (ha : a ∈ m'.tier.values ∨ c' = .inserting a) :
    a ∈ m.tier.values ∨ c = .inserting a ∨
      m' = m ∧ ∃ full px c since nowMs entryStamp storedAtMs,
        l2Insert m.ops full px c since nowMs entryStamp storedAtMs = some a := by
  cases h with
  | other _ _ _ hr =>
      rcases ha with ha | ha
      · rcases hr a ha with h | h
        · exact .inl h
        · obtain ⟨full, hbody, -⟩ := hsrc
          rw [h] at hbody
          cases hbody
      · cases ha
  | check h =>
      rcases ha with ha | ha
      · exact .inl ha
      · cases ha; exact .inr (.inr ⟨rfl, _, _, _, _, _, _, _, h⟩)
  | land =>
      rcases ha with ha | ha
      · rcases Set.mem_insert_iff.mp ha with rfl | ha
        · exact .inr (.inl rfl)
        · exact .inl ha
      · cases ha
  | _ => exact ha.elim .inl fun ha => by cases ha

theorem l2Insert_since {ops : List FloorOp} {full px : String} {c : RouteCache}
    {since nowMs : ℕ} {entryStamp storedAtMs : Option ℕ} {a : PageInsert Source}
    (h : l2Insert ops full px c since nowMs entryStamp storedAtMs = some a) : a.since = since := by
  obtain ⟨p, -, rfl⟩ := Option.map_eq_some_iff.mp h
  rfl

theorem Task.Move.stampLe (h : Move m c m' c') (hc : c.StampLe m.tier.clock) :
    c'.StampLe m'.tier.clock := by
  cases h with
  | stamp => exact le_rfl
  | fetch => exact hc
  | check h => exact (l2Insert_since h).trans_le hc
  | _ => trivial

theorem Task.StampLe.mono {p q : ℕ} (h : p ≤ q) (hc : c.StampLe p) : c.StampLe q := by
  cases c with
  | stamped => exact le_trans hc h
  | fetched => exact le_trans hc h
  | inserting => exact le_trans hc h
  | _ => trivial

theorem Task.Move.replays (h : Move m c m' c') (hc : c.Replays m) : c'.Replays m' := by
  cases h with
  | raise args seq => exact ⟨List.mem_append_right _ (List.mem_singleton_self _), rfl⟩
  | job => exact ⟨hc.1, by rw [hc.2, List.append_assoc]; rfl⟩
  | call => exact ⟨hc.1, hc.2, Set.mem_insert _ _⟩
  | callReturned => exact ⟨hc.1, by rw [hc.2.1, List.append_assoc]; rfl⟩
  | _ => trivial

theorem Task.Replays.mono (ho : m.ops ⊆ m'.ops) (hi : m.tier.issued ⊆ m'.tier.issued)
    (hc : c.Replays m) : c.Replays m' := by
  cases c with
  | replay => exact ⟨ho hc.1, hc.2⟩
  | calling => exact ⟨ho hc.1, hc.2.1, hi hc.2.2⟩
  | _ => trivial

theorem Behind.mono {r r' : Set (PageInval × ℕ)} (h : r ⊆ r') {a : PageInsert Source}
    {made : List Call} (hb : Behind r a made) : Behind r' a made := by
  intro i hi hc
  obtain ⟨q, hq, hr⟩ := hb i hi hc
  exact ⟨q, hq, h hr⟩

theorem Task.Late.mono {r r' : Set (PageInval × ℕ)} (h : r ⊆ r') {a : PageInsert Source}
    {args : InvalidateArgs} {seq : ℕ} (hc : c.Late r a args seq) : c.Late r' a args seq := by
  cases c with
  | replay => exact fun e e' => (hc e e').mono h
  | calling => exact fun e e' => ⟨(hc e e').1.mono h, (hc e e').2⟩
  | _ => trivial

/-- A replay stays behind a page whose stamp is not ahead of the clock. -/
theorem Task.Move.late (h : Move m c m' c') (hm : m.tier.returned ⊆ m'.tier.returned)
    {a : PageInsert Source} (ha : a.since ≤ m.tier.clock) {args : InvalidateArgs} {seq : ℕ}
    (hc : c.Late m.tier.returned a args seq) : c'.Late m'.tier.returned a args seq := by
  cases h with
  | raise => exact fun _ _ i hi => by cases hi
  | job =>
      intro e e' i hi
      rcases List.mem_append.mp hi with hi | hi
      · exact hc e e' i hi
      · simp at hi
  | call => exact fun e e' => ⟨hc e e', Nat.lt_succ_of_le ha⟩
  | callReturned =>
      intro e e' i hi hcov
      obtain ⟨hb, hlt⟩ := hc e e'
      rcases List.mem_append.mp hi with hi | hi
      · exact hb.mono hm i hi hcov
      · cases List.mem_singleton.mp hi
        exact ⟨_, hlt, Set.mem_insert _ _⟩
  | _ => trivial

/-- When a replay that is behind a page it covers returns, a call it made after the page's stamp
covers the page and has returned. -/
theorem Task.Move.replayed_cases (h : Move m c m' c') (hr : c.Replays m) {args : InvalidateArgs}
    {seq : ℕ} (hin : (args, seq) ∈ m'.replayed) :
    (args, seq) ∈ m.replayed ∨
      c = .replay args seq args.calls [] ∧ .raise args seq ∈ m.ops := by
  cases h with
  | returned =>
      rcases List.mem_cons.mp hin with e | hin
      · cases e
        obtain ⟨hop, hcalls⟩ := hr
        rw [List.append_nil] at hcalls
        exact .inr ⟨by rw [hcalls], hop⟩
      · exact .inl hin
  | _ => exact .inl hin

end

/-! ### Every move -/

theorem l2Inv_init {s : L2State} (h : L2Init s) : L2Inv s := by
  obtain ⟨hm, hth⟩ := h
  constructor
  · rw [hm]; exact fun ha => ha.elim
  · intro t; rw [hth]; trivial
  · rw [hm]; exact fun ha => ha.elim
  · intro t; rw [hth]; trivial
  · rw [hm]; exact fun ha => by cases ha
  · intro _ a e args seq ha
    rcases ha with ha | ⟨t, ha⟩
    · rw [hm] at ha; exact ha.elim
    · rw [hth] at ha; cases ha

theorem namesOf_mono {ops ops' : List FloorOp} (h : ops ⊆ ops')
    (h' : (namesOf ops').length ≤ FLOOR_NAMES) : (namesOf ops).length ≤ FLOOR_NAMES := by
  refine le_trans (List.Nodup.length_le_of_subset (List.nodup_dedup _) fun x hx => ?_) h'
  obtain ⟨p, hp, rfl⟩ := List.mem_map.mp (List.mem_dedup.mp hx)
  obtain ⟨op, hop, hp⟩ := List.mem_flatMap.mp hp
  exact List.mem_dedup.mpr (List.mem_map_of_mem (List.mem_flatMap.mpr ⟨op, h hop, hp⟩))

theorem Task.Replays.late_of_not_raised {m : L2Mem} {c : Task} (hc : c.Replays m)
    {args : InvalidateArgs} {seq : ℕ} (hno : .raise args seq ∉ m.ops) (r : Set (PageInval × ℕ))
    (a : PageInsert Source) : c.Late r a args seq := by
  cases c with
  | replay => rintro rfl rfl; exact absurd hc.1 hno
  | calling => rintro rfl rfl; exact absurd hc.1 hno
  | _ => trivial

theorem L2Inv.since_le {s : L2State} (hs : L2Inv s) {a : PageInsert Source} {e : ℕ}
    (hsrc : FromL2 a e) (ha : Passed s a) : a.since ≤ s.mem.tier.clock := by
  rcases ha with ha | ⟨u, ha⟩
  · exact hs.values ha hsrc
  · have := hs.stamps u
    rwa [ha] at this

/-- A page that has passed the check passed it before the step, or in this step. -/
theorem Passed.cases {s s' : L2State} {t : ℕ} (h : L2Step s t s') {a : PageInsert Source} {e : ℕ}
    (hsrc : FromL2 a e) (ha : Passed s' a) :
    Passed s a ∨ s'.mem = s.mem ∧ ∃ full px c since nowMs entryStamp storedAtMs,
      l2Insert s.mem.ops full px c since nowMs entryStamp storedAtMs = some a := by
  obtain ⟨h, -⟩ := h
  have key : _ → Passed s a ∨ _ := fun ha =>
    (h.passed_cases hsrc ha).elim (.inl ∘ .inl) fun h => h.elim (fun h => .inl (.inr ⟨t, h⟩)) .inr
  rcases ha with ha | ⟨u, ha⟩
  · exact key (.inl ha)
  · by_cases e : u = t
    · subst e
      rw [Pool.set_self] at ha
      exact key (.inr ha)
    · rw [Pool.set_other e] at ha
      exact .inl (.inr ⟨u, ha⟩)

theorem l2Inv_step {s s' : L2State} {t : ℕ} (hs : L2Inv s) (h : L2Step s t s')
    (hok : (s.threads t).Leaves s.mem) : L2Inv s' := by
  have hpassed := fun a e => @Passed.cases s s' t h a e
  obtain @⟨m', c', h, -⟩ := h
  have hr := hs.replays t
  obtain ⟨hclock, hissued, hreturned⟩ := h.mono
  have hreplays : ∀ u, ((s.set t m' c').threads u).Replays m' := Pool.forall_set (hs.replays ·)
    (fun _ hc => hc.mono h.ops_mono hissued) (h.replays hr)
  have hreplayed : ∀ {args seq}, (args, seq) ∈ m'.replayed → .raise args seq ∈ m'.ops := fun hin =>
    (h.replayed_cases hr hin).elim (fun hin => h.ops_mono (hs.replayed hin))
      fun hin => h.ops_mono hin.2
  refine ⟨?_, Pool.forall_set (hs.stamps ·) (fun _ hc => hc.mono hclock) (h.stampLe (hs.stamps t)),
    ?_, hreplays, hreplayed, ?_⟩
  · intro a e ha hsrc
    exact h.fresh hok hsrc ha fun hin => hs.fresh hin hsrc
  · intro a e ha hsrc
    rcases hpassed a e hsrc (.inl ha) with ha | ⟨e, -⟩
    · exact le_trans (hs.since_le hsrc ha) hclock
    · rw [e] at ha ⊢
      exact hs.values ha hsrc
  · intro hnames a e args seq ha hsrc hlt hcov
    have hnames' := namesOf_mono h.ops_mono hnames
    rcases hpassed a e hsrc ha with ha | ⟨e, _, _, _, _, _, _, _, hpass⟩
    · -- the check was before the raise, so the calls come after the stamp
      obtain ⟨hlate, hret⟩ := hs.late hnames' ha hsrc hlt hcov
      refine ⟨Pool.forall_set hlate (fun _ hc => hc.mono hreturned)
        (h.late hreturned (hs.since_le hsrc ha) (hlate t)), fun hin => ?_⟩
      rcases h.replayed_cases hr hin with hin | ⟨hc, -⟩
      · obtain ⟨i, q, hi, hq, hr⟩ := hret hin
        exact ⟨i, q, hi, hq, hreturned hr⟩
      · have hbehind := hlate t
        rw [hc] at hbehind
        obtain ⟨i, hi, hic⟩ := hcov
        obtain ⟨q, hq, hr⟩ := hbehind rfl rfl i hi hic
        exact ⟨i, q, hic, hq, hreturned hr⟩
    · -- the raise was before the check, which lets the page through
      have hno : .raise args seq ∉ s.mem.ops := fun hop =>
        absurd (check_passes hnames' hpass hsrc hop hcov) (Nat.not_le_of_lt hlt)
      rw [← e] at hno
      exact ⟨fun u => (hreplays u).late_of_not_raised hno _ a,
        fun hin => absurd (hreplayed hin) hno⟩

theorem l2Inv {s : L2State} (r : L2Reach s) : L2Inv s := by
  induction r with
  | init h => exact l2Inv_init h
  | step _ h hok ih => exact l2Inv_step ih h hok

/-! ### After a replay -/

/-- **No page read from L2 outlives a replay that covers it**, in every interleaving of requests and
replays in which a call of L1 leaves no older page that it covers: for pages read under a target in
normal form, while the floor has been raised for no more names than it remembers. -/
theorem replay_leaves_none {s : L2State} (r : L2Reach s)
    (hnames : (namesOf s.mem.ops).length ≤ FLOOR_NAMES) {a : PageInsert Source} {full : String}
    {e : ℕ} (hbody : a.body = .l2 full (some e))
    (hnormal : normalizeRequestPath (pathOf full) = pathOf full) {args : InvalidateArgs} {seq : ℕ}
    (hreplayed : (args, seq) ∈ s.mem.replayed) (hlt : e < seq)
    (hcov : args.covers a.key a.tags) : a ∉ s.mem.tier.values := by
  intro ha
  obtain ⟨-, hret⟩ := (l2Inv r).late hnames (.inl ha) ⟨full, hbody, hnormal⟩ hlt hcov
  obtain ⟨i, q, hi, hq, hr⟩ := hret hreplayed
  exact absurd ((l2Inv r).fresh ha ⟨full, hbody, hnormal⟩ i q hr hi) (Nat.not_le_of_lt hq)

theorem l2_start (l : List Task) (h : ∀ c ∈ l, c = .idle) :
    L2Reach (Pool.ofList .idle ⟨.empty, [], []⟩ l) := by
  refine .init ⟨rfl, fun t => ?_⟩
  by_cases ht : t < l.length
  · simpa [Pool.ofList, ht] using h _ (List.getElem_mem ht)
  · simp [Pool.ofList, ht]

theorem L2Reach.move {m m' : L2Mem} {l : List Task} (r : L2Reach (Pool.ofList .idle m l)) (t : ℕ)
    {c c' : Task} (h : Task.Move m c m' c') (hc : l[t]? = some c) (hok : c.Leaves m) :
    L2Reach (Pool.ofList .idle m' (l.set t c')) := by
  refine r.step (.ofList hc h id fun _ _ _ => id) ?_
  have hthread : (Pool.ofList .idle m l).threads t = c := by
    simp only [Pool.ofList, List.getD_eq_getElem?_getD, hc, Option.getD_some]
  rw [hthread]
  exact hok

/-- The page a request for `/p` with tag `t` puts into L1, read under `since` and stamped zero. -/
def pageOf (t : String) (since : ℕ) : PageInsert Source :=
  ⟨buildCacheKey "GET" "/p" "", .l2 "/p" (some 0), 60000, [t], since⟩

theorem covers_pageOf {ts : List String} {t : String} (ht : t ∈ ts) (since : ℕ) :
    coversPage (.invalidateTags ts none) (pageOf t since) := by
  simp [coversPage, PageInval.covers, pageOf, ht]

theorem l2Insert_pageOf {ops : List FloorOp} {t : String}
    (h : (Floor.run ops).rejects (some 0) "" "/p" [t] = false) (since : ℕ) :
    l2Insert ops "/p" "" ⟨60, [t]⟩ since 0 (some 0) none = some (pageOf t since) := by
  have hpath : pathOf "/p" = "/p" := by decide
  simp only [l2Insert, l2Read, buildCacheKey, hpath, h, Bool.false_eq_true, if_false]
  rfl

/-- A request that passed the check before the replay raised the floor is kept out by its stamp. -/
theorem replay_leaves_none_raced : ∃ s, L2Reach s ∧
    (ofTags ["t"], 1) ∈ s.mem.replayed ∧ pageOf "t" 0 ∉ s.mem.tier.values := by
  have r := l2_start [.idle, .idle] (by simp)
  have r := r.move 0 (.stamp "/p" "" ⟨60, ["t"]⟩) rfl trivial
  have r := r.move 0 (.fetch (some 0) none) rfl trivial
  have r := r.move 0 (.check (l2Insert_pageOf rfl 0)) rfl trivial
  have r := r.move 1 (.raise (ofTags ["t"]) 1) rfl trivial
  have r := r.move 1 .call rfl trivial
  have r := r.move 1 .callReturned rfl fun a ha => ha.elim
  have r := r.move 1 .job rfl trivial
  have r := r.move 1 .returned rfl trivial
  have r := r.move 0 .outdated rfl trivial
  refine ⟨_, r, by simp [Pool.ofList], ?_⟩
  exact replay_leaves_none r (by decide) rfl (by decide) (List.mem_singleton_self _)
    Nat.zero_lt_one ⟨_, List.mem_cons_self .., covers_pageOf (List.mem_singleton_self _) 0⟩

/-! ### One name too many -/

/-- A replay of one tag more than the floor remembers names, and a request that reads its stamp
after it. -/
theorem replay_leaves_evicted : ¬ ∀ s, L2Reach s → ∀ (a : PageInsert Source) (full : String)
    (e : ℕ) (args : InvalidateArgs) (seq : ℕ), a.body = .l2 full (some e) →
    (args, seq) ∈ s.mem.replayed → e < seq → args.covers a.key a.tags →
    a ∉ s.mem.tier.values := by
  intro h
  have hmem : tagNo 0 ∈ manyTags := List.mem_cons_self ..
  have hpage : .page (.invalidateTags manyTags none) ∈ (ofTags manyTags).calls :=
    List.mem_cons_self ..
  have r := l2_start [.idle] (by simp)
  have r := r.move 0 (.raise (ofTags manyTags) 1) rfl trivial
  have r := r.move 0 .call rfl trivial
  have r := r.move 0 .callReturned rfl fun a ha => ha.elim
  have r := r.move 0 .job rfl trivial
  have r := r.move 0 .returned rfl trivial
  have r := r.move 0 (.stamp "/p" "" ⟨60, [tagNo 0]⟩) rfl trivial
  have r := r.move 0 (.fetch (some 0) none) rfl trivial
  have r := r.move 0 (.check (l2Insert_pageOf rejects_manyTags 1)) rfl trivial
  have r := r.move 0 (.land ?_) rfl trivial
  · exact h _ r _ "/p" 0 (ofTags manyTags) 1 rfl (List.mem_singleton_self _) Nat.zero_lt_one
      ⟨_, hpage, covers_pageOf hmem 1⟩ (Set.mem_insert _ _)
  · intro i seq hr _
    rcases hr with hr | hr
    · cases hr; exact le_rfl
    · exact hr.elim

end Brust.Core
