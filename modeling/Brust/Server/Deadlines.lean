import Brust.Server.WorkerPool

/-!
# Server — call deadlines

The sweeper of the worker pool.  A deadline is armed as milliseconds since an epoch, rounded up, and
a sweep compares it with the whole milliseconds that have passed; it takes the waker that is parked
with it.  Instants are nanoseconds.

In every run a slot has the deadline that was last armed for it, or 0 if it was disarmed since
(`deadlineMs_run`), so a sweep returns a slot exactly when that deadline, rounded, has been reached
and a waker is parked (`mem_collectExpired`).  The rounding tells in the millisecond of the deadline
only: a sweep there may come early or late (`collect_expired_exact_iff`).
-/

namespace Brust.Server.Workers

variable {P B : Type}

/-! ### Instants -/

/-- The unit of an instant is a nanosecond. -/
def MILLI : ℕ := 1000000

/-- `saturating_duration_since(*EPOCH)`. -/
def sinceEpoch (epoch instant : ℕ) : ℕ := instant - epoch

/-- `as_micros().div_ceil(1000) as u64`, never 0. -/
def epochMsCeil (epoch instant : ℕ) : ℕ :=
  max ((sinceEpoch epoch instant / 1000 + 999) / 1000 % 2 ^ 64) 1

/-- `as_millis() as u64`. -/
def nowMs (epoch now : ℕ) : ℕ := sinceEpoch epoch now / MILLI % 2 ^ 64

/-! ### The sweeper's calls -/

namespace Slot

def expired (nowMs : ℕ) (s : Slot P B) : Bool := s.deadlineMs != 0 && decide (s.deadlineMs ≤ nowMs)

/-- What a drop does to a deadline. -/
def disarm (s : Slot P B) : Slot P B := { s with deadlineMs := 0, deadlineWaker := none }

end Slot

namespace WorkerPool

variable (epoch : ℕ) (m : WorkerPool P B)

def armDeadline (w i instant : ℕ) : WorkerPool P B :=
  m.editSlot w i (SlotOp.apply (.armDeadline (epochMsCeil epoch instant)))

def parkDeadlineWaker (w i waker : ℕ) : WorkerPool P B :=
  m.editSlot w i (SlotOp.apply (.parkDeadlineWaker waker))

def disarmDeadline (w i : ℕ) : WorkerPool P B := m.editSlot w i Slot.disarm

/-- The wakers that a sweep takes, each with its slot, and the pool after it.  A worker that nothing
keeps alive has no claim, and so no deadline. -/
def collectExpired (now : ℕ) : List ((ℕ × ℕ) × ℕ) × WorkerPool P B :=
  (m.workers.zipIdx.flatMap fun e => e.1.slots.zipIdx.filterMap fun s =>
      if s.1.expired (nowMs epoch now) then s.1.deadlineWaker.map ((e.2, s.2), ·) else none,
    { m with workers := m.workers.map fun e =>
        { e with slots := e.slots.map (Slot.sweep (nowMs epoch now)) } })

end WorkerPool

/-- A call. -/
inductive DeadlineOp where
  | arm (w i instant : ℕ)
  | park (w i waker : ℕ)
  | disarm (w i : ℕ)
  | collect (now : ℕ)

namespace DeadlineOp

variable (epoch : ℕ)

def apply : DeadlineOp → WorkerPool P B → WorkerPool P B
  | .arm w i instant, m => m.armDeadline epoch w i instant
  | .park w i waker, m => m.parkDeadlineWaker w i waker
  | .disarm w i, m => m.disarmDeadline w i
  | .collect now, m => (m.collectExpired epoch now).2

/-- The pool after a sequence of calls. -/
def run (m : WorkerPool P B) (ops : List DeadlineOp) : WorkerPool P B :=
  ops.foldl (fun m op => op.apply epoch m) m

/-- The deadline that is armed for a slot after one more call. -/
def armed (w i : ℕ) : DeadlineOp → Option ℕ → Option ℕ
  | .arm w' i' instant, last => if w' = w ∧ i' = i then some instant else last
  | .disarm w' i', last => if w' = w ∧ i' = i then none else last
  | _, last => last

/-- The deadline last armed for a slot and not disarmed since. -/
def lastArmed (w i : ℕ) (ops : List DeadlineOp) : Option ℕ :=
  ops.foldl (fun last op => op.armed w i last) none

end DeadlineOp

/-! ### The slots of a run -/

/-- What a slot has of the deadline that is armed for it. -/
def Shows (epoch : ℕ) (last : Option ℕ) (s : Slot P B) : Prop :=
  s.deadlineMs = (last.map (epochMsCeil epoch)).getD 0

namespace WorkerPool

variable {epoch : ℕ} {m : WorkerPool P B}

theorem slot?_collectExpired (now w i : ℕ) :
    (m.collectExpired epoch now).2.slot? w i =
      (m.slot? w i).map (Slot.sweep (nowMs epoch now)) := by
  simp only [slot?, collectExpired, List.getElem?_map]
  cases m.workers[w]? with
  | none => rfl
  | some e => simp

/-- A slot is returned when it has expired and a waker is parked. -/
theorem mem_collected {now w i waker : ℕ} :
    ((w, i), waker) ∈ (m.collectExpired epoch now).1 ↔
      ∃ s, m.slot? w i = some s ∧ s.expired (nowMs epoch now) = true ∧
        s.deadlineWaker = some waker := by
  simp only [collectExpired, List.mem_flatMap, List.mem_filterMap, Prod.exists,
    List.mk_mem_zipIdx_iff_getElem?]
  constructor
  · rintro ⟨e, w', he, s, i', hs, hfound⟩
    split at hfound
    · next hexpired =>
      obtain ⟨waker', hwaker, heq⟩ := Option.map_eq_some_iff.mp hfound
      obtain ⟨⟨rfl, rfl⟩, rfl⟩ : (w' = w ∧ i' = i) ∧ waker' = waker := by simpa using heq
      exact ⟨s, by rw [slot?, he, Option.bind_some, hs], hexpired, hwaker⟩
    · cases hfound
  · rintro ⟨s, hs, hexpired, hwaker⟩
    obtain ⟨e, he, hslot⟩ := Option.bind_eq_some_iff.mp hs
    exact ⟨e, w, he, s, i, hslot, by rw [if_pos hexpired, hwaker, Option.map_some]⟩

/-- A slot after an edit is one that was edited, or one that was there. -/
theorem slot?_of_edit {w i w' i' : ℕ} {f : Slot P B → Slot P B} {s : Slot P B}
    (h : (m.editSlot w' i' f).slot? w i = some s) :
    (w' = w ∧ i' = i ∧ ∃ s₀, m.slot? w i = some s₀ ∧ s = f s₀) ∨
      (¬ (w' = w ∧ i' = i) ∧ m.slot? w i = some s) := by
  by_cases hk : w' = w ∧ i' = i
  · obtain ⟨rfl, rfl⟩ := hk
    rw [slot?_editSlot] at h
    obtain ⟨s₀, hs₀, rfl⟩ := Option.map_eq_some_iff.mp h
    exact .inl ⟨rfl, rfl, s₀, hs₀, rfl⟩
  · rw [slot?_editSlot_other m fun hk' => hk ⟨hk'.1.symm, hk'.2.symm⟩] at h
    exact .inr ⟨hk, h⟩

end WorkerPool

theorem deadlineMs_sweep (now : ℕ) (s : Slot P B) : (s.sweep now).deadlineMs = s.deadlineMs := by
  rw [Slot.sweep]
  split <;> rfl

theorem epochMsCeil_pos (epoch instant : ℕ) : 1 ≤ epochMsCeil epoch instant :=
  Nat.le_max_right _ _

/-- What one call does to the deadline of a slot. -/
theorem shows_apply {epoch w i : ℕ} {m : WorkerPool P B} {last : Option ℕ} (op : DeadlineOp)
    (h : ∀ s, m.slot? w i = some s → Shows epoch last s) :
    ∀ s, (op.apply epoch m).slot? w i = some s → Shows epoch (op.armed w i last) s := by
  intro s hs
  cases op with
  | arm w' i' instant =>
      rw [DeadlineOp.armed]
      rcases WorkerPool.slot?_of_edit hs with ⟨rfl, rfl, s₀, -, rfl⟩ | ⟨hother, hs⟩
      · rw [if_pos ⟨rfl, rfl⟩]
        exact Nat.max_eq_left (epochMsCeil_pos epoch instant)
      · rw [if_neg hother]
        exact h s hs
  | park w' i' waker =>
      rcases WorkerPool.slot?_of_edit hs with ⟨rfl, rfl, s₀, hs₀, rfl⟩ | ⟨-, hs⟩
      · exact h s₀ hs₀
      · exact h s hs
  | disarm w' i' =>
      rw [DeadlineOp.armed]
      rcases WorkerPool.slot?_of_edit hs with ⟨rfl, rfl, s₀, -, rfl⟩ | ⟨hother, hs⟩
      · rw [if_pos ⟨rfl, rfl⟩]
        rfl
      · rw [if_neg hother]
        exact h s hs
  | collect now =>
      rw [DeadlineOp.apply, WorkerPool.slot?_collectExpired] at hs
      obtain ⟨s₀, hs₀, rfl⟩ := Option.map_eq_some_iff.mp hs
      rw [Shows, deadlineMs_sweep]
      exact h s₀ hs₀

/-- **A slot has the deadline that was last armed for it**, in every run from unarmed slots. -/
theorem deadlineMs_run {epoch w i : ℕ} {m : WorkerPool P B}
    (hm : ∀ s, m.slot? w i = some s → s.deadlineMs = 0) (ops : List DeadlineOp) :
    ∀ s, (DeadlineOp.run epoch m ops).slot? w i = some s →
      Shows epoch (DeadlineOp.lastArmed w i ops) s := by
  have hfold : ∀ (last : Option ℕ) (m : WorkerPool P B),
      (∀ s, m.slot? w i = some s → Shows epoch last s) →
      ∀ s, (DeadlineOp.run epoch m ops).slot? w i = some s →
        Shows epoch (ops.foldl (fun last op => op.armed w i last) last) s := by
    induction ops with
    | nil => exact fun last m h => h
    | cons op ops ih => exact fun last m h => ih (op.armed w i last) _ (shows_apply op h)
  exact hfold none m hm

/-- **A sweep returns a slot** when the deadline that is armed for it, rounded, has been reached and
a waker is parked. -/
theorem mem_collectExpired {epoch w i waker : ℕ} {m : WorkerPool P B}
    (hm : ∀ s, m.slot? w i = some s → s.deadlineMs = 0) (ops : List DeadlineOp) (now : ℕ) :
    ((w, i), waker) ∈ ((DeadlineOp.run epoch m ops).collectExpired epoch now).1 ↔
      ∃ s instant, (DeadlineOp.run epoch m ops).slot? w i = some s ∧
        s.deadlineWaker = some waker ∧ DeadlineOp.lastArmed w i ops = some instant ∧
        epochMsCeil epoch instant ≤ nowMs epoch now := by
  have hexpired : ∀ s, (DeadlineOp.run epoch m ops).slot? w i = some s →
      (s.expired (nowMs epoch now) = true ↔ ∃ instant, DeadlineOp.lastArmed w i ops = some instant ∧
        epochMsCeil epoch instant ≤ nowMs epoch now) := by
    intro s hs
    have hshows : s.deadlineMs = _ := deadlineMs_run hm ops s hs
    rw [Slot.expired, Bool.and_eq_true, bne_iff_ne, decide_eq_true_iff, hshows]
    cases DeadlineOp.lastArmed w i ops with
    | none => exact ⟨fun h => absurd rfl h.1, fun ⟨_, h, _⟩ => by cases h⟩
    | some instant =>
        have hpos := epochMsCeil_pos epoch instant
        exact ⟨fun h => ⟨instant, rfl, h.2⟩, fun ⟨_, h, hle⟩ =>
          ⟨Nat.ne_of_gt hpos, by cases h; exact hle⟩⟩
  rw [WorkerPool.mem_collected]
  constructor
  · rintro ⟨s, hs, hdue, hwaker⟩
    obtain ⟨instant, hlast, hreached⟩ := (hexpired s hs).mp hdue
    exact ⟨s, instant, hs, hwaker, hlast, hreached⟩
  · rintro ⟨s, instant, hs, hwaker, hlast, hreached⟩
    exact ⟨s, hs, (hexpired s hs).mpr ⟨instant, hlast, hreached⟩, hwaker⟩

/-! ### Rounding -/

/-- An instant that is counted in 64 bits of milliseconds. -/
def Counted (epoch instant : ℕ) : Prop := sinceEpoch epoch instant ≤ (2 ^ 64 - 1) * MILLI

theorem epochMsCeil_of_counted {epoch instant : ℕ} (h : Counted epoch instant) :
    epochMsCeil epoch instant = max ((sinceEpoch epoch instant / 1000 + 999) / 1000) 1 := by
  rw [Counted, MILLI] at h
  rw [epochMsCeil, Nat.mod_eq_of_lt (by omega)]

theorem nowMs_of_counted {epoch now : ℕ} (h : Counted epoch now) :
    nowMs epoch now = sinceEpoch epoch now / MILLI := by
  rw [Counted, MILLI] at h
  rw [nowMs, MILLI, Nat.mod_eq_of_lt (by omega)]

/-- A deadline from the first millisecond on that lies less than a microsecond after a whole one. -/
def JustPast (epoch instant : ℕ) : Prop :=
  MILLI ≤ sinceEpoch epoch instant ∧ sinceEpoch epoch instant % MILLI < 1000

/-- A deadline counts as reached in its own millisecond if it lies in the first microsecond of it,
and in the next one otherwise. -/
theorem reached_iff {epoch instant now : ℕ} (hcounted : Counted epoch instant)
    (hnow : Counted epoch now) :
    epochMsCeil epoch instant ≤ nowMs epoch now ↔
      sinceEpoch epoch instant / MILLI < sinceEpoch epoch now / MILLI ∨
        sinceEpoch epoch instant / MILLI = sinceEpoch epoch now / MILLI ∧
          JustPast epoch instant := by
  rw [epochMsCeil_of_counted hcounted, nowMs_of_counted hnow, JustPast, MILLI]
  omega

/-! ### Sweeps -/

/-- A pool of new workers, each with its slots. -/
def registered (counts : List ℕ) : WorkerPool P B := counts.foldl WorkerPool.register ⟨[], [], 0⟩

theorem registered_unarmed (counts : List ℕ) (w i : ℕ) (s : Slot P B)
    (h : (registered counts).slot? w i = some s) : s.deadlineMs = 0 := by
  have hfold : ∀ (counts : List ℕ) (m : WorkerPool P B),
      (∀ s, m.slot? w i = some s → s.deadlineMs = 0) →
      ∀ s, (counts.foldl WorkerPool.register m).slot? w i = some s → s.deadlineMs = 0 := by
    intro counts
    induction counts with
    | nil => exact fun m hm => hm
    | cons k counts ih =>
        refine fun m hm => ih _ fun s hs => ?_
        rw [WorkerPool.slot?_register] at hs
        split at hs
        · have hmem := List.mem_of_getElem? hs
          rw [List.eq_of_mem_replicate hmem]
          rfl
        · exact hm s hs
  exact hfold counts _ (fun s hs => by cases hs) s h

/-! ### Exactness -/

variable {epoch : ℕ}

/-- What a sweep should do for a slot: return it if and only if the deadline last armed for it and
not disarmed since has come. -/
def ExactAt (epoch : ℕ) (m : WorkerPool P B) (ops : List DeadlineOp) (now w i : ℕ) : Prop :=
  (∃ waker, ((w, i), waker) ∈ ((DeadlineOp.run epoch m ops).collectExpired epoch now).1) ↔
    ∃ instant, DeadlineOp.lastArmed w i ops = some instant ∧ instant ≤ now

/-- A waker is parked in a slot. -/
def WorkerPool.Parked (m : WorkerPool P B) (w i : ℕ) : Prop :=
  ∃ s, m.slot? w i = some s ∧ s.deadlineWaker.isSome

/-- The sweep comes before a deadline, in the millisecond whose first microsecond it lies in. -/
def ComesEarly (epoch instant now : ℕ) : Prop :=
  now < instant ∧ sinceEpoch epoch instant / MILLI = sinceEpoch epoch now / MILLI ∧
    JustPast epoch instant

/-- The sweep comes at or after a deadline, in its own millisecond and past the first
microsecond. -/
def ComesLate (epoch instant now : ℕ) : Prop :=
  instant ≤ now ∧ sinceEpoch epoch instant / MILLI = sinceEpoch epoch now / MILLI ∧
    ¬ JustPast epoch instant

/-- A sweep that finds a waker parked tells whether the deadline has come, but in the deadline's own
millisecond. -/
theorem reached_iff_le {instant now : ℕ} (hcounted : Counted epoch instant)
    (hnow : Counted epoch now) :
    (epochMsCeil epoch instant ≤ nowMs epoch now ↔ instant ≤ now) ↔
      ¬ ComesEarly epoch instant now ∧ ¬ ComesLate epoch instant now := by
  have hbelow : sinceEpoch epoch instant / MILLI < sinceEpoch epoch now / MILLI →
    instant ≤ now := by
    intro h
    rw [sinceEpoch, sinceEpoch, MILLI] at h
    omega
  have habove : instant ≤ now →
      sinceEpoch epoch instant / MILLI ≤ sinceEpoch epoch now / MILLI := fun h =>
    Nat.div_le_div_right (Nat.sub_le_sub_right h epoch)
  rw [reached_iff hcounted hnow, ComesEarly, ComesLate]
  by_cases hle : instant ≤ now
  · have hms := habove hle
    by_cases hjust : JustPast epoch instant
    · simp only [hle, hjust, not_lt.mpr hle, iff_true, and_true, not_true, and_false, false_and,
        not_false_eq_true]
      omega
    · simp only [hle, hjust, not_lt.mpr hle, iff_true, and_false, or_false, true_and,
        not_false_eq_true, and_true]
      omega
  · have hms : ¬ sinceEpoch epoch instant / MILLI < sinceEpoch epoch now / MILLI := mt hbelow hle
    simp only [hle, hms, not_le.mp hle, iff_false, false_or, true_and, false_and, not_false_eq_true,
      and_true]

/-- **The sweeper is exact unless a sweep and a deadline share a millisecond**: in every run a sweep
returns a slot if and only if its deadline has come, exactly where the sweep neither comes before a
deadline in the first microsecond of its own millisecond, nor comes after one that lies later in it,
nor finds that no waker is parked for a deadline that has come. -/
theorem collect_expired_exact_iff (epoch : ℕ) (counts : List ℕ) (ops : List DeadlineOp)
    (now w i : ℕ) (hnow : Counted epoch now)
    (hcounted : ∀ instant, DeadlineOp.lastArmed w i ops = some instant → Counted epoch instant) :
    ExactAt epoch (registered (P := P) (B := B) counts) ops now w i ↔
      ∀ instant, DeadlineOp.lastArmed w i ops = some instant →
        ((DeadlineOp.run epoch (registered (P := P) (B := B) counts) ops).Parked w i →
          ¬ ComesEarly epoch instant now ∧ ¬ ComesLate epoch instant now) ∧
        (instant ≤ now →
          (DeadlineOp.run epoch (registered (P := P) (B := B) counts) ops).Parked w i) := by
  have hreturned : (∃ waker, ((w, i), waker) ∈
      ((DeadlineOp.run epoch (registered (P := P) (B := B) counts) ops).collectExpired
        epoch now).1) ↔
      (DeadlineOp.run epoch (registered (P := P) (B := B) counts) ops).Parked w i ∧
        ∃ instant, DeadlineOp.lastArmed w i ops = some instant ∧
          epochMsCeil epoch instant ≤ nowMs epoch now := by
    simp only [mem_collectExpired (registered_unarmed counts w i) ops now, WorkerPool.Parked,
      Option.isSome_iff_exists]
    constructor
    · rintro ⟨waker, s, instant, hs, hwaker, hlast, hreached⟩
      exact ⟨⟨s, hs, waker, hwaker⟩, instant, hlast, hreached⟩
    · rintro ⟨⟨s, hs, waker, hwaker⟩, instant, hlast, hreached⟩
      exact ⟨waker, s, instant, hs, hwaker, hlast, hreached⟩
  rw [ExactAt, hreturned]
  cases hlast : DeadlineOp.lastArmed w i ops with
  | none => simp
  | some instant =>
      simp only [Option.some.injEq, exists_eq_left', forall_eq',
        ← reached_iff_le (hcounted instant hlast) hnow]
      tauto

/-- Two slots are armed, one for just before ten milliseconds and one for half a millisecond
later. -/
def armedTwice : List DeadlineOp :=
  [.arm 0 0 9999000, .park 0 0 7, .arm 0 1 10500000, .park 0 1 8]

theorem collect_expired_exact_armed :
    ExactAt 0 (registered (P := ℕ) (B := ℕ) [2]) armedTwice 10700000 0 0 := by
  refine (collect_expired_exact_iff 0 [2] armedTwice 10700000 0 0 ?_ ?_).mpr ?_
  · rw [Counted]
    decide
  · intro instant h
    cases h
    rw [Counted]
    decide
  · intro instant h
    cases h
    refine ⟨fun _ => ?_, fun _ => ⟨_, rfl, rfl⟩⟩
    rw [ComesEarly, ComesLate, JustPast]
    decide

/-- A deadline half a microsecond after a millisecond is returned by a sweep at that millisecond. -/
theorem sweeper_comes_early :
    ¬ ExactAt 0 (registered (P := ℕ) (B := ℕ) [1]) [.arm 0 0 10000500,
      .park 0 0 7] 10000000 0 0 := by
  intro h
  obtain ⟨instant, hlast, hle⟩ := h.mp ⟨7, by decide⟩
  cases hlast
  exact absurd hle (by decide)

end Brust.Server.Workers
