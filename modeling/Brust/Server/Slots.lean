import Brust.Server.WorkerPool

/-!
# Server — slots and claims

An idle slot is as a new worker's, and a slot that is not idle has one claim, which knows what is
cleared of it.  So a claim starts on a clean slot (`slots_exclusive_and_clean`), in every order of
claims, drops, puts and takes, and of workers that come and go.
-/

namespace Brust.Server.Workers

variable {P B : Type}

/-! ### What a claim knows of its slot -/

/-- How many steps of a drop the slot is behind. -/
def Stage.cleared : Stage → ℕ
  | .taken | .counted | .uncounted => 6
  | .held _ => 0
  | .dropping k => k

/-- In `in_flight`. -/
def Stage.inFlight : Stage → Bool
  | .taken | .uncounted => false
  | .counted | .held _ | .dropping _ => true

/-- The claim is its holder's: returned, and not being dropped. -/
def Stage.live : Stage → Bool
  | .held _ => true
  | _ => false

/-- A claimed slot after `k` steps of a drop; only a streaming claim has a sender. -/
structure Clean (lane : Option ℕ) (k : ℕ) (s : Slot P B) : Prop where
  idle : s.idle = false
  plan : 1 ≤ k → s.plan = none
  jobsSince : 2 ≤ k → s.jobsSince = none
  heapReply : 3 ≤ k → s.heapReply = none
  deadlineMs : 4 ≤ k → s.deadlineMs = 0
  deadlineWaker : 5 ≤ k → s.deadlineWaker = none
  renderSlot : lane = none ∨ 6 ≤ k → s.renderSlot = none

theorem Clean.mono {lane : Option ℕ} {k k' : ℕ} {s : Slot P B} (h : Clean lane k s)
    (hk : k' ≤ k) : Clean lane k' s :=
  ⟨h.idle, fun h' => h.plan (h'.trans hk), fun h' => h.jobsSince (h'.trans hk),
    fun h' => h.heapReply (h'.trans hk), fun h' => h.deadlineMs (h'.trans hk),
    fun h' => h.deadlineWaker (h'.trans hk), fun h' => h.renderSlot (h'.imp_right fun h =>
      h.trans hk)⟩

theorem clean_take (lane : Option ℕ) : Clean lane 6 (Slot.free (P := P) (B := B)).take :=
  ⟨rfl, fun _ => rfl, fun _ => rfl, fun _ => rfl, fun _ => rfl, fun _ => rfl, fun _ => rfl⟩

/-- All is cleared: the slot is as it was taken. -/
theorem Clean.eq_take {lane : Option ℕ} {s : Slot P B} (h : Clean lane 6 s) :
    s = Slot.take Slot.free := by
  obtain ⟨idle, renderSlot, plan, jobsSince, deadlineMs, deadlineWaker, heapReply⟩ := s
  obtain rfl : idle = false := h.idle
  obtain rfl : plan = none := h.plan (by decide)
  obtain rfl : jobsSince = none := h.jobsSince (by decide)
  obtain rfl : heapReply = none := h.heapReply (by decide)
  obtain rfl : deadlineMs = 0 := h.deadlineMs (by decide)
  obtain rfl : deadlineWaker = none := h.deadlineWaker (by decide)
  obtain rfl : renderSlot = none := h.renderSlot (Or.inr (by decide))
  rfl

theorem Clean.install {lane : Option ℕ} {s : Slot P B} (h : Clean lane 6 s) :
    Clean lane 0 (Slot.install lane s) := by
  cases lane with
  | none => exact h.mono (Nat.zero_le 6)
  | some tx => refine ⟨h.idle, ?_, ?_, ?_, ?_, ?_, ?_⟩ <;> simp

theorem Clean.use {lane : Option ℕ} {s : Slot P B} (h : Clean lane 0 s) (op : SlotOp P B) :
    Clean lane 0 (op.apply s) := by
  have hkeep : ∀ s' : Slot P B, s'.idle = s.idle → s'.renderSlot = s.renderSlot →
      Clean lane 0 s' := fun s' hidle hrender =>
    ⟨hidle.trans h.idle, by simp, by simp, by simp, by simp, by simp,
      fun hk => hrender.trans (h.renderSlot hk)⟩
  cases op with
  | planCell p | stampJobsPhase now | putHeapReply b =>
      rw [SlotOp.apply]
      split
      · exact h
      · exact hkeep _ rfl rfl
  | _ => exact hkeep _ rfl rfl

theorem Clean.sweep {lane : Option ℕ} {k : ℕ} {s : Slot P B} (h : Clean lane k s) (now : ℕ) :
    Clean lane k (s.sweep now) := by
  rw [Slot.sweep]
  split
  · exact ⟨h.idle, h.plan, h.jobsSince, h.heapReply, h.deadlineMs, fun _ => rfl, h.renderSlot⟩
  · exact h

/-- One step of a drop. -/
theorem Clean.drop {lane : Option ℕ} {k : ℕ} {f : Slot P B → Slot P B}
    (hf : (Slot.dropSteps lane)[k]? = some f) {s : Slot P B} (h : Clean lane k s) :
    Clean lane (k + 1) (f s) := by
  have hsender : k < 5 → lane = none ∨ 6 ≤ k + 1 → s.renderSlot = none := fun hk hl =>
    h.renderSlot (hl.imp_right fun h6 => by omega)
  match k, hf with
  | 0, rfl | 1, rfl | 2, rfl | 3, rfl | 4, rfl =>
      refine ⟨h.idle, ?_, ?_, ?_, ?_, ?_, hsender (by decide)⟩ <;> intro hk <;>
        first
          | rfl
          | exact absurd hk (by decide)
          | exact h.plan (by decide)
          | exact h.jobsSince (by decide)
          | exact h.heapReply (by decide)
          | exact h.deadlineMs (by decide)
  | 5, rfl =>
      cases lane with
      | none =>
          exact ⟨h.idle, fun _ => h.plan (by decide), fun _ => h.jobsSince (by decide),
            fun _ => h.heapReply (by decide), fun _ => h.deadlineMs (by decide),
            fun _ => h.deadlineWaker (by decide), fun _ => h.renderSlot (Or.inl rfl)⟩
      | some tx =>
          exact ⟨h.idle, fun _ => h.plan (by decide), fun _ => h.jobsSince (by decide),
            fun _ => h.heapReply (by decide), fun _ => h.deadlineMs (by decide),
            fun _ => h.deadlineWaker (by decide), fun _ => rfl⟩

/-! ### The invariant -/

namespace Thread

/-- The claim and its stage, if the thread has one. -/
def claimed : Thread → Option (RenderClaim × Stage)
  | .claim c a => some (c, a)
  | _ => none

def Holds (w i : ℕ) (t : Thread) : Prop := ∃ c a, t = .claim c a ∧ c.worker = w ∧ c.slot = i

def InFlight (w : ℕ) (t : Thread) : Prop :=
  ∃ c a, t = .claim c a ∧ c.worker = w ∧ a.inFlight = true

end Thread

abbrev State (P B : Type) := Pool (WorkerPool P B) Thread

/-- The threads whose claim is in a worker's `in_flight`. -/
def inFlightOn (s : State P B) (w : ℕ) : Set ℕ := {t | (s.threads t).InFlight w}

structure Inv (s : State P B) : Prop where
  /-- A claim's slot is cleared as far as its stage says. -/
  held : ∀ t c a, s.threads t = .claim c a →
    ∃ slot, s.mem.slot? c.worker c.slot = some slot ∧ Clean c.lane a.cleared slot
  /-- A slot has one claim. -/
  unique : ∀ t u w i, (s.threads t).Holds w i → (s.threads u).Holds w i → t = u
  free : ∀ w i slot, s.mem.slot? w i = some slot → slot.idle = true → slot = .free
  counts : ∀ w n, s.mem.inFlight? w = some n →
    (inFlightOn s w).Finite ∧ (inFlightOn s w).ncard = n

/-! ### One thread's move -/

section Moves
variable {s : State P B} {t : ℕ} {m : WorkerPool P B} {x : Thread}

/-- A thread that only holds what no other does. -/
theorem Inv.unique_set (hi : Inv s)
    (hx : ∀ w i, x.Holds w i → ∀ u, (s.threads u).Holds w i → u = t) :
    ∀ u v w i, ((s.set t m x).threads u).Holds w i → ((s.set t m x).threads v).Holds w i →
      u = v := by
  intro u v w i hu hv
  by_cases hut : u = t <;> by_cases hvt : v = t
  · rw [hut, hvt]
  · subst hut
    rw [Pool.set_self] at hu
    rw [Pool.set_other hvt] at hv
    exact (hx w i hu v hv).symm
  · subst hvt
    rw [Pool.set_self] at hv
    rw [Pool.set_other hut] at hu
    exact hx w i hv u hu
  · rw [Pool.set_other hut] at hu
    rw [Pool.set_other hvt] at hv
    exact hi.unique u v w i hu hv

theorem holds_claim {c : RenderClaim} {a : Stage} {w i : ℕ} :
    (Thread.claim c a).Holds w i ↔ c.worker = w ∧ c.slot = i := by
  constructor
  · rintro ⟨c', a', h, hw⟩
    cases h
    exact hw
  · exact fun hw => ⟨c, a, rfl, hw⟩

theorem not_holds_out {r : Option Refusal} {w i : ℕ} : ¬ (Thread.out r).Holds w i := by
  rintro ⟨c, a, h, -⟩
  cases h

/-- The counts of a move that leaves the thread in flight, or out of it. -/
theorem inFlightOn_set {w : ℕ} (h : x.InFlight w ↔ (s.threads t).InFlight w) :
    inFlightOn (s.set t m x) w = inFlightOn s w := by
  ext u
  by_cases hu : u = t
  · subst hu
    simp [inFlightOn, h]
  · simp [inFlightOn, Pool.set_other hu]

theorem inFlightOn_insert {w : ℕ} (h : x.InFlight w) :
    inFlightOn (s.set t m x) w = insert t (inFlightOn s w) := by
  ext u
  by_cases hu : u = t
  · subst hu
    simp [inFlightOn, h]
  · simp [inFlightOn, Pool.set_other hu, hu]

theorem inFlightOn_remove {w : ℕ} (h : ¬ x.InFlight w) :
    inFlightOn (s.set t m x) w = inFlightOn s w \ {t} := by
  ext u
  by_cases hu : u = t
  · subst hu
    simp [inFlightOn, h]
  · simp [inFlightOn, Pool.set_other hu, hu]

theorem inFlight_claim {c : RenderClaim} {a : Stage} {w : ℕ} :
    (Thread.claim c a).InFlight w ↔ c.worker = w ∧ a.inFlight = true := by
  constructor
  · rintro ⟨c', a', h, hw⟩
    cases h
    exact hw
  · exact fun hw => ⟨c, a, rfl, hw⟩

/-- A thread without a claim goes on without one: every claimed slot is as clean as before, and a
worker that was not there has nothing in flight. -/
theorem Inv.world (hi : Inv s) (ht : (s.threads t).claimed = none) (hx : x.claimed = none)
    (hslots : ∀ w i slot, s.mem.slot? w i = some slot → ∃ slot', m.slot? w i = some slot' ∧
      ∀ lane k, Clean lane k slot → Clean lane k slot')
    (hfree : ∀ w i slot, m.slot? w i = some slot → slot.idle = true → slot = .free)
    (hcounts : ∀ w n, m.inFlight? w = some n →
      s.mem.inFlight? w = some n ∨ n = 0 ∧ ∀ i, s.mem.slot? w i = none) : Inv (s.set t m x) := by
  have hnot : ∀ {y : Thread} {c a}, y.claimed = none → y ≠ .claim c a := by
    rintro y c a hy rfl
    cases hy
  refine ⟨?_, ?_, hfree, ?_⟩
  · intro u c a hu
    by_cases hut : u = t
    · subst hut
      rw [Pool.set_self] at hu
      exact absurd hu (hnot hx)
    · rw [Pool.set_other hut] at hu
      obtain ⟨slot, hslot, hclean⟩ := hi.held u c a hu
      obtain ⟨slot', hslot', hkeep⟩ := hslots _ _ _ hslot
      exact ⟨slot', hslot', hkeep _ _ hclean⟩
  · refine hi.unique_set fun w i hholds => ?_
    obtain ⟨c, a, hc, -⟩ := hholds
    exact absurd hc (hnot hx)
  · intro w n hn
    have hstay : inFlightOn (s.set t m x) w = inFlightOn s w := by
      refine inFlightOn_set ⟨?_, ?_⟩
      · rintro ⟨c, a, hc, -⟩
        exact absurd hc (hnot hx)
      · rintro ⟨c, a, hc, -⟩
        exact absurd hc (hnot ht)
    rw [hstay]
    rcases hcounts w n hn with h | ⟨rfl, hnone⟩
    · exact hi.counts w n h
    · have hempty : inFlightOn s w = ∅ := by
        refine Set.eq_empty_of_forall_notMem fun u hu => ?_
        obtain ⟨c, a, hc, rfl, -⟩ := hu
        obtain ⟨slot, hslot, -⟩ := hi.held u c a hc
        rw [hnone] at hslot
        cases hslot
      rw [hempty]
      exact ⟨Set.finite_empty, Set.ncard_empty ℕ⟩

/-- Nothing changes of the slots. -/
theorem Inv.wait (hi : Inv s) (ht : (s.threads t).claimed = none) (hx : x.claimed = none)
    (hslot : ∀ w i, m.slot? w i = s.mem.slot? w i)
    (hcount : ∀ w, m.inFlight? w = s.mem.inFlight? w) : Inv (s.set t m x) := by
  refine hi.world ht hx (fun w i slot h => ⟨slot, by rw [hslot, h], fun _ _ h => h⟩)
    (fun w i slot h => ?_) (fun w n h => Or.inl (by rw [← hcount, h]))
  rw [hslot] at h
  exact hi.free w i slot h

/-- A claim goes on to another stage, with an edit of its own slot. -/
theorem Inv.edit (hi : Inv s) {c : RenderClaim} {a : Stage} (a' : Stage)
    (ht : s.threads t = .claim c a)
    {f : Slot P B → Slot P B}
    (hf : ∀ slot, Clean c.lane a.cleared slot → Clean c.lane a'.cleared (f slot))
    (hflight : a'.inFlight = a.inFlight) :
    Inv (s.set t (s.mem.editSlot c.worker c.slot f) (.claim c a')) := by
  have hown : (s.threads t).Holds c.worker c.slot := by rw [ht, holds_claim]; exact ⟨rfl, rfl⟩
  refine ⟨?_, ?_, ?_, ?_⟩
  · intro u c' b hu
    by_cases hut : u = t
    · subst hut
      rw [Pool.set_self] at hu
      cases hu
      obtain ⟨slot, hslot, hclean⟩ := hi.held u c a ht
      exact ⟨f slot, WorkerPool.slot?_editSlot_self hslot f, hf slot hclean⟩
    · rw [Pool.set_other hut] at hu
      obtain ⟨slot, hslot, hclean⟩ := hi.held u c' b hu
      refine ⟨slot, ?_, hclean⟩
      rw [Pool.set_mem, WorkerPool.slot?_editSlot_other _ (fun he => hut ?_), hslot]
      exact hi.unique u t c.worker c.slot (by rw [hu, holds_claim]; exact he) hown
  · refine hi.unique_set fun w i hx u hu => hi.unique u t w i hu ?_
    rw [holds_claim] at hx
    rw [← hx.1, ← hx.2]
    exact hown
  · intro w i slot hslot hidle
    rw [Pool.set_mem] at hslot
    by_cases he : w = c.worker ∧ i = c.slot
    · obtain ⟨rfl, rfl⟩ := he
      obtain ⟨slot', hslot', hclean⟩ := hi.held t c a ht
      rw [WorkerPool.slot?_editSlot_self hslot' f] at hslot
      cases hslot
      rw [(hf slot' hclean).idle] at hidle
      cases hidle
    · rw [WorkerPool.slot?_editSlot_other _ he] at hslot
      exact hi.free w i slot hslot hidle
  · intro w n hn
    rw [Pool.set_mem, WorkerPool.inFlight?_editSlot] at hn
    rw [inFlightOn_set (by rw [ht, inFlight_claim, inFlight_claim, hflight])]
    exact hi.counts w n hn

/-- The slot is taken: nobody holds an idle slot. -/
theorem Inv.take (hi : Inv s) (ht : (s.threads t).claimed = none) {w i : ℕ} {lane : Option ℕ}
    {slot : Slot P B} (hslot : s.mem.slot? w i = some slot) (hidle : slot.idle = true) :
    Inv (s.set t (s.mem.editSlot w i Slot.take) (.claim ⟨w, i, lane⟩ .taken)) := by
  obtain rfl := hi.free w i slot hslot hidle
  have hnobody : ∀ u, ¬ (s.threads u).Holds w i := by
    rintro u ⟨c, a, hc, rfl, rfl⟩
    obtain ⟨slot, hslot', hclean⟩ := hi.held u c a hc
    rw [hslot] at hslot'
    cases hslot'
    cases hclean.idle
  refine ⟨?_, ?_, ?_, ?_⟩
  · intro u c a hu
    by_cases hut : u = t
    · subst hut
      rw [Pool.set_self] at hu
      cases hu
      exact ⟨_, WorkerPool.slot?_editSlot_self hslot Slot.take, clean_take lane⟩
    · rw [Pool.set_other hut] at hu
      obtain ⟨slot, hslot', hclean⟩ := hi.held u c a hu
      refine ⟨slot, ?_, hclean⟩
      rw [Pool.set_mem, WorkerPool.slot?_editSlot_other _ (fun he => hnobody u ?_), hslot']
      rw [hu, holds_claim]
      exact he
  · refine hi.unique_set fun w' i' hx u hu => ?_
    rw [holds_claim] at hx
    obtain ⟨rfl, rfl⟩ := hx
    exact absurd hu (hnobody u)
  · intro w' i' slot' hslot' hidle'
    rw [Pool.set_mem] at hslot'
    by_cases he : w' = w ∧ i' = i
    · obtain ⟨rfl, rfl⟩ := he
      rw [WorkerPool.slot?_editSlot_self hslot] at hslot'
      cases hslot'
      cases hidle'
    · rw [WorkerPool.slot?_editSlot_other _ he] at hslot'
      exact hi.free w' i' slot' hslot' hidle'
  · intro w' n hn
    rw [Pool.set_mem, WorkerPool.inFlight?_editSlot] at hn
    rw [inFlightOn_set]
    · exact hi.counts w' n hn
    · rw [inFlight_claim]
      constructor
      · rintro ⟨-, h⟩
        cases h
      · rintro ⟨c, a, hc, -⟩
        rw [hc] at ht
        cases ht

/-- The slot is released: it is as a new worker's. -/
theorem Inv.release (hi : Inv s) {c : RenderClaim} (ht : s.threads t = .claim c .uncounted) :
    Inv (s.set t (s.mem.editSlot c.worker c.slot Slot.release) (.out none)) := by
  have hown : (s.threads t).Holds c.worker c.slot := by rw [ht, holds_claim]; exact ⟨rfl, rfl⟩
  obtain ⟨slot, hslot, hclean⟩ := hi.held t c _ ht
  obtain rfl := hclean.eq_take
  refine ⟨?_, ?_, ?_, ?_⟩
  · intro u c' a hu
    by_cases hut : u = t
    · subst hut
      rw [Pool.set_self] at hu
      cases hu
    · rw [Pool.set_other hut] at hu
      obtain ⟨slot, hslot', hclean'⟩ := hi.held u c' a hu
      refine ⟨slot, ?_, hclean'⟩
      rw [Pool.set_mem, WorkerPool.slot?_editSlot_other _ (fun he => hut ?_), hslot']
      exact hi.unique u t c.worker c.slot (by rw [hu, holds_claim]; exact he) hown
  · exact hi.unique_set fun w i hx => absurd hx not_holds_out
  · intro w i slot' hslot' hidle
    rw [Pool.set_mem] at hslot'
    by_cases he : w = c.worker ∧ i = c.slot
    · obtain ⟨rfl, rfl⟩ := he
      rw [WorkerPool.slot?_editSlot_self hslot] at hslot'
      cases hslot'
      rfl
    · rw [WorkerPool.slot?_editSlot_other _ he] at hslot'
      exact hi.free w i slot' hslot' hidle
  · intro w n hn
    rw [Pool.set_mem, WorkerPool.inFlight?_editSlot] at hn
    rw [inFlightOn_set]
    · exact hi.counts w n hn
    · rw [ht, inFlight_claim]
      constructor
      · rintro ⟨c', a, hc, -⟩
        cases hc
      · rintro ⟨-, h⟩
        cases h

/-- A claim counts itself, in or out. -/
theorem Inv.count (hi : Inv s) {c : RenderClaim} {a a' : Stage} (ht : s.threads t = .claim c a)
    {f : ℕ → ℕ} (hclean : a'.cleared ≤ a.cleared)
    (hf : a.inFlight = false ∧ a'.inFlight = true ∧ f = (· + 1) ∨
      a.inFlight = true ∧ a'.inFlight = false ∧ f = (· - 1)) :
    Inv (s.set t (s.mem.editInFlight c.worker f) (.claim c a')) := by
  have hown : ∀ {b w i}, (Thread.claim c b).Holds w i → (s.threads t).Holds w i := fun hx => by
    rw [ht, holds_claim]
    exact holds_claim.mp hx
  refine ⟨?_, hi.unique_set fun w i hx u hu => hi.unique u t w i hu (hown hx), ?_, ?_⟩
  · intro u c' b hu
    rw [Pool.set_mem, WorkerPool.slot?_editInFlight]
    by_cases hut : u = t
    · subst hut
      rw [Pool.set_self] at hu
      cases hu
      obtain ⟨slot, hslot, hslotClean⟩ := hi.held u c a ht
      exact ⟨slot, hslot, hslotClean.mono hclean⟩
    · rw [Pool.set_other hut] at hu
      exact hi.held u c' b hu
  · intro w i slot hslot
    rw [Pool.set_mem, WorkerPool.slot?_editInFlight] at hslot
    exact hi.free w i slot hslot
  · intro w n hn
    rw [Pool.set_mem] at hn
    by_cases hw : w = c.worker
    · subst hw
      obtain ⟨n', hn'⟩ : ∃ n', s.mem.inFlight? c.worker = some n' := by
        obtain ⟨slot, hslot, -⟩ := hi.held t c a ht
        obtain ⟨e, he, -⟩ := Option.bind_eq_some_iff.mp hslot
        exact ⟨e.inFlight, by rw [WorkerPool.inFlight?, he]; rfl⟩
      rw [WorkerPool.inFlight?_editInFlight_self hn'] at hn
      cases hn
      obtain ⟨hfin, hcard⟩ := hi.counts _ _ hn'
      rcases hf with ⟨hb, ha, rfl⟩ | ⟨hb, ha, rfl⟩
      · have hnot : t ∉ inFlightOn s c.worker := by
          intro h
          rw [inFlightOn, Set.mem_ofPred_eq, ht, inFlight_claim, hb] at h
          cases h.2
        rw [inFlightOn_insert (inFlight_claim.mpr ⟨rfl, ha⟩)]
        exact ⟨hfin.insert t, by rw [Set.ncard_insert_of_notMem hnot hfin, hcard]⟩
      · have hmem : t ∈ inFlightOn s c.worker := by
          rw [inFlightOn, Set.mem_ofPred_eq, ht, inFlight_claim]
          exact ⟨rfl, hb⟩
        rw [inFlightOn_remove (by rw [inFlight_claim, ha]; simp)]
        exact ⟨hfin.sdiff, by rw [Set.ncard_sdiff_singleton_of_mem hmem, hcard]⟩
    · rw [WorkerPool.inFlight?_editInFlight_other _ hw] at hn
      rw [inFlightOn_set]
      · exact hi.counts w n hn
      · rw [ht, inFlight_claim, inFlight_claim]
        constructor <;> exact fun h => absurd h.1.symm hw

end Moves

/-! ### Every run -/

theorem inv_init {s : State P B} (h : PoolInit s) : Inv s := by
  cases h
  refine ⟨fun t c a h => (by cases h), fun t u w i h => absurd h not_holds_out,
    fun w i slot h => (by cases h), fun w n h => (by cases h)⟩

theorem Inv.register {s : State P B} {t : ℕ} (hi : Inv s) (ht : (s.threads t).claimed = none)
    (k : ℕ) : Inv (s.set t (s.mem.register k) (.out none)) := by
  refine hi.world ht rfl (fun w i slot h => ⟨slot, ?_, fun _ _ h => h⟩) (fun w i slot h hidle => ?_)
    (fun w n h => ?_)
  · have hw : w ≠ s.mem.workers.length := by
      rintro rfl
      rw [WorkerPool.slot?_eq_none le_rfl] at h
      cases h
    rw [WorkerPool.slot?_register, if_neg hw, h]
  · rw [WorkerPool.slot?_register] at h
    split at h
    · exact List.eq_of_mem_replicate (List.mem_of_getElem? h)
    · exact hi.free w i slot h hidle
  · rw [WorkerPool.inFlight?_register] at h
    split at h
    next hw =>
      cases h
      exact Or.inr ⟨rfl, WorkerPool.slot?_eq_none hw.ge⟩
    next => exact Or.inl h

theorem Inv.sweep {s : State P B} {t : ℕ} {r : Option Refusal} (hi : Inv s)
    (ht : (s.threads t).claimed = none) (w i now : ℕ) :
    Inv (s.set t (s.mem.editSlot w i (Slot.sweep now)) (.out r)) := by
  refine hi.world ht rfl (fun w' i' slot h => ?_) (fun w' i' slot h hidle => ?_)
    (fun w' n h => Or.inl (by rwa [WorkerPool.inFlight?_editSlot] at h))
  · by_cases he : w' = w ∧ i' = i
    · obtain ⟨rfl, rfl⟩ := he
      exact ⟨_, WorkerPool.slot?_editSlot_self h _, fun _ _ hc => hc.sweep now⟩
    · exact ⟨slot, by rw [WorkerPool.slot?_editSlot_other _ he, h], fun _ _ hc => hc⟩
  · by_cases he : w' = w ∧ i' = i
    · obtain ⟨rfl, rfl⟩ := he
      rw [WorkerPool.slot?_editSlot] at h
      obtain ⟨slot', hslot', rfl⟩ := Option.map_eq_some_iff.mp h
      have hsame : (slot'.sweep now).idle = slot'.idle := by
        rw [Slot.sweep]
        split <;> rfl
      obtain rfl := hi.free w' i' slot' hslot' (hsame.symm.trans hidle)
      rfl
    · rw [WorkerPool.slot?_editSlot_other _ he] at h
      exact hi.free w' i' slot h hidle

/-- **Every move keeps the invariant.** -/
theorem Inv.step {s s' : State P B} {t : ℕ} (hi : Inv s) (h : PoolStep s t s') : Inv s' := by
  obtain ⟨hm, -⟩ := h
  generalize hx : s.threads t = x at hm
  have hnone : x.claimed = none → (s.threads t).claimed = none := fun h => by rw [hx, h]
  cases hm with
  | register k => exact hi.register (hnone rfl) k
  | remove id => exact hi.wait (hnone rfl) rfl (fun _ _ => rfl) fun _ => rfl
  | clear => exact hi.wait (hnone rfl) rfl (fun _ _ => rfl) fun _ => rfl
  | sweep w i now => exact hi.sweep (hnone rfl) w i now
  | poolEmpty h => exact hi.wait (hnone rfl) rfl (fun _ _ => rfl) fun _ => rfl
  | scan lane h => exact hi.wait (hnone rfl) rfl (fun _ _ => rfl) fun _ => rfl
  | busy h hs => exact hi.wait (hnone rfl) rfl (fun _ _ => rfl) fun _ => rfl
  | take h hs => exact hi.take (hnone rfl) h hs
  | allBusy => exact hi.wait (hnone rfl) rfl (fun _ _ => rfl) fun _ => rfl
  | count => exact hi.count hx le_rfl (Or.inl ⟨rfl, rfl, rfl⟩)
  | ret => exact hi.edit _ hx (fun _ hc => hc.install) rfl
  | use op h => exact hi.edit _ hx (fun _ hc => hc.use op) rfl
  | @call c =>
      have hedit := hi.edit (.held true) hx (f := id) (fun _ hc => hc) rfl
      rwa [WorkerPool.editSlot_id] at hedit
  | @settle c =>
      have hedit := hi.edit (.held false) hx (f := id) (fun _ hc => hc) rfl
      rwa [WorkerPool.editSlot_id] at hedit
  | @dropped c =>
      have hedit := hi.edit (.dropping 0) hx (f := id) (fun _ hc => hc) rfl
      rwa [WorkerPool.editSlot_id] at hedit
  | drop h => exact hi.edit _ hx (fun _ hc => hc.drop h) rfl
  | uncount => exact hi.count hx le_rfl (Or.inr ⟨rfl, rfl, rfl⟩)
  | release => exact hi.release hx

theorem inv_reach {s : State P B} (h : PoolReach s) : Inv s :=
  Reach.inv (P := Inv) (fun _ => inv_init) (fun _ _ _ hi hs _ => hi.step hs) h

/-- The threads that hold a claim of a worker, returned and not being dropped. -/
def liveOn (s : State P B) (w : ℕ) : Set ℕ :=
  {t | ∃ c a, s.threads t = .claim c a ∧ c.worker = w ∧ a.live = true}

/-- **A slot has one claim and a claim a clean slot**: in every run no two claims hold one slot; a
claim that is returned finds its own sender, if it streams, and nothing else in its slot; and a
worker's `in_flight` counts its claims, which are the live ones where none is half-way in its claim
or its drop. -/
theorem slots_exclusive_and_clean (s : State P B) (h : PoolReach s) :
    (∀ t u w i, (s.threads t).Holds w i → (s.threads u).Holds w i → t = u) ∧
    (∀ t s' c, PoolStep s t s' → s.threads t = .claim c .counted →
      s'.threads t = .claim c (.held false) → s'.mem.slot? c.worker c.slot =
        some { Slot.free with idle := false, renderSlot := c.lane }) ∧
    ∀ w n, s.mem.inFlight? w = some n →
      (inFlightOn s w).Finite ∧ (inFlightOn s w).ncard = n ∧
      ((∀ t c a, s.threads t = .claim c a → c.worker = w → a.live = true) →
        (liveOn s w).ncard = n) := by
  have hi := inv_reach h
  refine ⟨hi.unique, fun t s' c hs ht hheld => ?_, fun w n hn => ?_⟩
  · obtain ⟨slot, hslot, hclean⟩ := hi.held t c _ ht
    obtain rfl := hclean.eq_take
    obtain ⟨hm, -⟩ := hs
    rw [ht] at hm
    cases hm with
    | ret =>
        rw [Pool.set_mem, WorkerPool.slot?_editSlot_self hslot]
        obtain ⟨w, i, lane⟩ := c
        cases lane <;> rfl
  · obtain ⟨hfin, hcard⟩ := hi.counts w n hn
    refine ⟨hfin, hcard, fun hlive => ?_⟩
    have hsame : liveOn s w = inFlightOn s w := by
      ext t
      constructor
      · rintro ⟨c, a, hc, hw, ha⟩
        refine ⟨c, a, hc, hw, ?_⟩
        cases a <;> first | rfl | cases ha
      · rintro ⟨c, a, hc, hw, -⟩
        exact ⟨c, a, hc, hw, hlive t c a hc hw⟩
    rw [hsame, hcard]

/-! ### A slot claimed again -/

/-- One thread, and no other. -/
def solo (m : WorkerPool P B) (x : Thread) : State P B :=
  ⟨m, fun t => if t = 0 then x else .out none⟩

theorem solo_step {m m' : WorkerPool P B} {x x' : Thread} (h : Move m x m' x') :
    PoolStep (solo m x) 0 (solo m' x') := by
  have hset : solo m' x' = (solo m x).set 0 m' x' := by
    rw [solo, Pool.set, Pool.mk.injEq]
    refine ⟨rfl, ?_⟩
    funext t
    by_cases ht : t = 0
    · simp [ht]
    · simp [ht, solo]
  rw [hset]
  exact .mk (by simpa [solo] using h) fun _ _ hc => hc

theorem solo_reach {m : WorkerPool P B} (m' : WorkerPool P B) {x x' : Thread} (h : Move m x m' x')
    (r : PoolReach (solo m x)) : PoolReach (solo m' x') := .step r (solo_step h) trivial

/-- A worker of one slot. -/
def oneSlot (s : Slot ℕ ℕ) (inFlight : ℕ) : WorkerPool ℕ ℕ := ⟨[⟨0, inFlight, [s]⟩], [0], 1⟩

/-- A streaming claim that has a plan, a deadline and a reply is dropped, and a lock-free one takes
the slot: it finds none of them. -/
theorem slots_exclusive_and_clean_again : ∃ s s' : State ℕ ℕ, PoolReach s ∧ PoolStep s 0 s' ∧
    s'.threads 0 = .claim ⟨0, 0, none⟩ (.held false) ∧
    s'.mem.slot? 0 0 = some { Slot.free with idle := false } ∧ (inFlightOn s 0).ncard = 1 := by
  have start : PoolReach (solo (⟨[], [], 0⟩ : WorkerPool ℕ ℕ) (.out none)) :=
    .init (by simp [PoolInit, solo])
  -- the first claim
  have r := solo_reach (oneSlot .free 0) (.register 1) start
  have r := solo_reach _ (.scan (some 7) (by simp [oneSlot])) r
  have r := solo_reach (oneSlot Slot.free.take 0) (.take rfl rfl) r
  have r := solo_reach (oneSlot Slot.free.take 1) .count r
  have r := solo_reach (oneSlot (Slot.free.take.install (some 7)) 1) .ret r
  have r := solo_reach (oneSlot ⟨false, some 7, some 1, none, 0, none, none⟩ 1)
    (.use (.putPlan 1) (fun h => (by cases h))) r
  have r := solo_reach (oneSlot ⟨false, some 7, some 1, none, 9, none, none⟩ 1)
    (.use (.armDeadline 9) (fun h => (by cases h))) r
  have r := solo_reach _ .call r
  have r := solo_reach (oneSlot ⟨false, some 7, some 1, none, 9, none, some 2⟩ 1)
    (.use (.putHeapReply 2) fun _ => ⟨rfl, 0, rfl⟩) r
  have r := solo_reach _ .settle r
  -- its drop
  have r := solo_reach _ .dropped r
  have r := solo_reach (oneSlot ⟨false, some 7, none, none, 9, none, some 2⟩ 1)
    (.drop (f := fun s => { s with plan := none }) rfl) r
  have r := solo_reach (oneSlot ⟨false, some 7, none, none, 9, none, some 2⟩ 1)
    (.drop (f := fun s => { s with jobsSince := none }) rfl) r
  have r := solo_reach (oneSlot ⟨false, some 7, none, none, 9, none, none⟩ 1)
    (.drop (f := fun s => { s with heapReply := none }) rfl) r
  have r := solo_reach (oneSlot ⟨false, some 7, none, none, 0, none, none⟩ 1)
    (.drop (f := fun s => { s with deadlineMs := 0 }) rfl) r
  have r := solo_reach (oneSlot ⟨false, some 7, none, none, 0, none, none⟩ 1)
    (.drop (f := fun s => { s with deadlineWaker := none }) rfl) r
  have r := solo_reach (oneSlot Slot.free.take 1)
    (.drop (f := fun s => if true then { s with renderSlot := none } else s) rfl) r
  have r := solo_reach (oneSlot Slot.free.take 0) .uncount r
  have r := solo_reach (oneSlot .free 0) .release r
  -- the next claim
  have r := solo_reach _ (.scan none (by simp [oneSlot])) r
  have r := solo_reach (oneSlot Slot.free.take 0) (.take rfl rfl) r
  have r := solo_reach (oneSlot Slot.free.take 1) .count r
  have hret := solo_step (.ret (m := oneSlot Slot.free.take 1) (c := ⟨0, 0, none⟩))
  obtain ⟨-, hclean, hcount⟩ := slots_exclusive_and_clean _ r
  exact ⟨_, _, r, hret, rfl, hclean 0 _ ⟨0, 0, none⟩ hret rfl rfl, (hcount 0 1 rfl).2.1⟩

end Brust.Server.Workers
