import Brust.Support.Pool
import Mathlib.Data.Set.Card

/-!
# Server — the worker pool

The render slots of the workers, and what a request does with one: it scans the registered workers
for an idle slot and takes it, puts and takes its data there while the worker answers its call, and
clears the slot when the claim is dropped.  The accesses of `try_claim_render` and of the drop are
moves of their own, so that claims and drops of other requests come in between.  A scan's read lock
is left out: the workers may change under a scan, too.

A claim is not dropped while its call is pending; the slot's own documentation asks this of every
dispatcher, and what a worker puts into a slot is put inside of such a call.
-/

namespace Brust.Server.Workers

/-! ### Slots -/

/-- `P` is what a plan cell holds and `B` a reply; a chunk sender and a waker are numbers. -/
structure Slot (P B : Type) where
  idle : Bool
  renderSlot : Option ℕ
  plan : Option P
  jobsSince : Option ℕ
  /-- 0 if not armed. -/
  deadlineMs : ℕ
  deadlineWaker : Option ℕ
  heapReply : Option B

variable {P B : Type}

namespace Slot

/-- A slot of a new worker. -/
def free : Slot P B := ⟨true, none, none, none, 0, none, none⟩

/-- The `compare_exchange` of a claim. -/
def take (s : Slot P B) : Slot P B := { s with idle := false }

/-- A streaming claim stores its sender. -/
def install (lane : Option ℕ) (s : Slot P B) : Slot P B :=
  match lane with
  | some tx => { s with renderSlot := some tx }
  | none => s

/-- The sweeper takes the waker of a deadline that has passed. -/
def sweep (now : ℕ) (s : Slot P B) : Slot P B :=
  if s.deadlineMs ≠ 0 ∧ s.deadlineMs ≤ now then { s with deadlineWaker := none } else s

/-- What a drop clears, in order; a lock-free claim leaves the sender alone. -/
def dropSteps (lane : Option ℕ) : List (Slot P B → Slot P B) :=
  [fun s => { s with plan := none }, fun s => { s with jobsSince := none },
    fun s => { s with heapReply := none }, fun s => { s with deadlineMs := 0 },
    fun s => { s with deadlineWaker := none },
    fun s => if lane.isSome then { s with renderSlot := none } else s]

/-- The last store of a drop. -/
def release (s : Slot P B) : Slot P B := { s with idle := true }

end Slot

/-- What is done with a claimed slot: by the claim's holder, and by the worker in the call. -/
inductive SlotOp (P B : Type) where
  | putPlan (p : P)
  | takePlan
  | takeHeapReply
  /-- Rounded up to a millisecond, never 0. -/
  | armDeadline (ms : ℕ)
  | parkDeadlineWaker (w : ℕ)
  /-- The plan cell, under its lock. -/
  | planCell (p : Option P)
  | stampJobsPhase (now : ℕ)
  /-- A second put is declined. -/
  | putHeapReply (b : B)

namespace SlotOp

def apply : SlotOp P B → Slot P B → Slot P B
  | .putPlan p, s => { s with plan := some p }
  | .takePlan, s => { s with plan := none }
  | .takeHeapReply, s => { s with heapReply := none }
  | .armDeadline ms, s => { s with deadlineMs := max ms 1 }
  | .parkDeadlineWaker w, s => { s with deadlineWaker := some w }
  | .planCell p, s => if s.idle then s else { s with plan := p }
  | .stampJobsPhase now, s => if s.idle then s else { s with jobsSince := some now }
  | .putHeapReply b, s =>
    if s.idle || s.heapReply.isSome then s else { s with heapReply := some b }

def ofWorker : SlotOp P B → Bool
  | .planCell _ | .stampJobsPhase _ | .putHeapReply _ => true
  | _ => false

end SlotOp

/-! ### Workers -/

structure WorkerEntry (P B : Type) where
  id : ℕ
  inFlight : ℕ
  slots : List (Slot P B)

/-- Every worker that was ever registered, which a claim keeps alive; those still in the pool, in
order; and the next id. -/
structure WorkerPool (P B : Type) where
  workers : List (WorkerEntry P B)
  entries : List ℕ
  nextId : ℕ

namespace WorkerPool

def slot? (m : WorkerPool P B) (w i : ℕ) : Option (Slot P B) :=
  m.workers[w]?.bind (·.slots[i]?)

def inFlight? (m : WorkerPool P B) (w : ℕ) : Option ℕ := m.workers[w]?.map (·.inFlight)

def editSlot (m : WorkerPool P B) (w i : ℕ) (f : Slot P B → Slot P B) : WorkerPool P B :=
  { m with workers := m.workers.modify w fun e => { e with slots := e.slots.modify i f } }

def editInFlight (m : WorkerPool P B) (w : ℕ) (f : ℕ → ℕ) : WorkerPool P B :=
  { m with workers := m.workers.modify w fun e => { e with inFlight := f e.inFlight } }

/-- `k` is the dispatch's `slot_count`. -/
def register (m : WorkerPool P B) (k : ℕ) : WorkerPool P B where
  workers := m.workers ++ [⟨m.nextId, 0, List.replicate (max k 1) .free⟩]
  entries := m.entries ++ [m.workers.length]
  nextId := (m.nextId + 1) % 2 ^ 32

def hasId (m : WorkerPool P B) (id w : ℕ) : Bool := m.workers[w]?.any (·.id == id)

def entry (m : WorkerPool P B) (id : ℕ) : Option ℕ := m.entries.find? (m.hasId id)

def remove (m : WorkerPool P B) (id : ℕ) : WorkerPool P B :=
  { m with entries := m.entries.filter fun w => !m.hasId id w }

def clear (m : WorkerPool P B) : WorkerPool P B := { m with entries := [] }

/-- The slots in the order a scan tries them. -/
def attempts (m : WorkerPool P B) : List (ℕ × ℕ) :=
  m.entries.flatMap fun w =>
    (List.range ((m.workers[w]?.map (·.slots.length)).getD 0)).map (w, ·)

/-! A slot and a count after an edit. -/

@[simp] theorem slot?_editInFlight (m : WorkerPool P B) (w : ℕ) (f : ℕ → ℕ) (w' i : ℕ) :
    (m.editInFlight w f).slot? w' i = m.slot? w' i := by
  simp only [slot?, editInFlight, List.getElem?_modify]
  cases m.workers[w']? with
  | none => rfl
  | some e => by_cases h : w = w' <;> simp [h]

@[simp] theorem inFlight?_editSlot (m : WorkerPool P B) (w i : ℕ) (f : Slot P B → Slot P B)
    (w' : ℕ) : (m.editSlot w i f).inFlight? w' = m.inFlight? w' := by
  simp only [inFlight?, editSlot, List.getElem?_modify]
  cases m.workers[w']? with
  | none => rfl
  | some e => by_cases h : w = w' <;> simp [h]

theorem slot?_editSlot (m : WorkerPool P B) (w i : ℕ) (f : Slot P B → Slot P B) :
    (m.editSlot w i f).slot? w i = (m.slot? w i).map f := by
  simp only [slot?, editSlot, List.getElem?_modify]
  cases m.workers[w]? with
  | none => rfl
  | some e => simp

theorem slot?_editSlot_self {m : WorkerPool P B} {w i : ℕ} {s : Slot P B}
    (h : m.slot? w i = some s) (f : Slot P B → Slot P B) :
    (m.editSlot w i f).slot? w i = some (f s) := by rw [slot?_editSlot, h, Option.map_some]

theorem slot?_editSlot_other (m : WorkerPool P B) {w i w' i' : ℕ} (h : ¬ (w' = w ∧ i' = i))
    (f : Slot P B → Slot P B) : (m.editSlot w i f).slot? w' i' = m.slot? w' i' := by
  simp only [slot?, editSlot, List.getElem?_modify]
  cases m.workers[w']? with
  | none => rfl
  | some e =>
      by_cases hw : w = w'
      · have hi : i ≠ i' := fun hi => h ⟨hw.symm, hi.symm⟩
        simp [hw, hi]
      · simp [hw]

theorem inFlight?_editInFlight_self {m : WorkerPool P B} {w n : ℕ} (h : m.inFlight? w = some n)
    (f : ℕ → ℕ) : (m.editInFlight w f).inFlight? w = some (f n) := by
  obtain ⟨e, he, rfl⟩ := Option.map_eq_some_iff.mp h
  simp [inFlight?, editInFlight, he]

theorem inFlight?_editInFlight_other (m : WorkerPool P B) {w w' : ℕ} (h : w' ≠ w) (f : ℕ → ℕ) :
    (m.editInFlight w f).inFlight? w' = m.inFlight? w' := by
  simp only [inFlight?, editInFlight, List.getElem?_modify]
  cases m.workers[w']? with
  | none => rfl
  | some e => simp [h.symm]

/-- An edit that leaves the slot as it is. -/
theorem editSlot_id (m : WorkerPool P B) (w i : ℕ) : m.editSlot w i id = m := by
  have hid : (fun e : WorkerEntry P B => { e with slots := e.slots.modify i id }) = id := by
    funext e
    simp
  rw [editSlot, hid, List.modify_id]

theorem slot?_register (m : WorkerPool P B) (k w i : ℕ) : (m.register k).slot? w i =
    if w = m.workers.length then (List.replicate (max k 1) Slot.free)[i]? else m.slot? w i := by
  simp only [slot?, register, List.getElem?_append]
  rcases Nat.lt_trichotomy w m.workers.length with h | rfl | h
  · simp [h, h.ne]
  · simp
  · have hne : w - m.workers.length ≠ 0 := by omega
    simp [Nat.not_lt.mpr h.le, h.ne', hne]

theorem inFlight?_register (m : WorkerPool P B) (k w : ℕ) : (m.register k).inFlight? w =
    if w = m.workers.length then some 0 else m.inFlight? w := by
  simp only [inFlight?, register, List.getElem?_append]
  rcases Nat.lt_trichotomy w m.workers.length with h | rfl | h
  · simp [h, h.ne]
  · simp
  · have hne : w - m.workers.length ≠ 0 := by omega
    simp [Nat.not_lt.mpr h.le, h.ne', hne]

theorem slot?_eq_none {m : WorkerPool P B} {w : ℕ} (h : m.workers.length ≤ w) (i : ℕ) :
    m.slot? w i = none := by
  rw [slot?, List.getElem?_eq_none h]
  rfl

end WorkerPool

/-! ### Claims -/

/-- A worker's slot; the lane is the sender of a streaming claim, none if it is lock-free. -/
structure RenderClaim where
  worker : ℕ
  slot : ℕ
  lane : Option ℕ

/-- How far a claim is. -/
inductive Stage where
  /-- The slot is no longer idle. -/
  | taken
  /-- In flight, not yet returned. -/
  | counted
  /-- Returned; in a call or not. -/
  | held (calling : Bool)
  /-- The first `k` steps of its drop are done. -/
  | dropping (k : ℕ)
  /-- No longer in flight. -/
  | uncounted

/-- Why a claim was refused. -/
inductive Refusal where
  | poolEmpty
  | allBusy

/-- A request, the sweeper, or who registers and removes workers. -/
inductive Thread where
  | out (refused : Option Refusal)
  /-- `try_claim_render` with these slots to try. -/
  | scan (lane : Option ℕ) (rest : List (ℕ × ℕ))
  | claim (c : RenderClaim) (a : Stage)

open Thread in
inductive Move : WorkerPool P B → Thread → WorkerPool P B → Thread → Prop where
  | register {m r} (k : ℕ) : Move m (out r) (m.register k) (out none)
  | remove {m r} (id : ℕ) : Move m (out r) (m.remove id) (out none)
  | clear {m r} : Move m (out r) m.clear (out none)
  | sweep {m r} (w i now : ℕ) : Move m (out r) (m.editSlot w i (Slot.sweep now)) (out r)
  | poolEmpty {m r} (h : m.entries = []) : Move m (out r) m (out (some .poolEmpty))
  | scan {m r} (lane : Option ℕ) (h : m.entries ≠ []) : Move m (out r) m (scan lane m.attempts)
  | busy {m lane w i rest s} (h : m.slot? w i = some s) (hs : s.idle = false) :
      Move m (scan lane ((w, i) :: rest)) m (scan lane rest)
  | take {m lane w i rest s} (h : m.slot? w i = some s) (hs : s.idle = true) :
      Move m (scan lane ((w, i) :: rest)) (m.editSlot w i Slot.take) (claim ⟨w, i, lane⟩ .taken)
  | allBusy {m lane} : Move m (scan lane []) m (out (some .allBusy))
  | count {m c} : Move m (claim c .taken) (m.editInFlight c.worker (· + 1)) (claim c .counted)
  | ret {m c} : Move m (claim c .counted) (m.editSlot c.worker c.slot (Slot.install c.lane))
      (claim c (.held false))
  /-- The worker finds its own entry, and the slot, only in the claim's call. -/
  | use {m c calling} (op : SlotOp P B)
      (h : op.ofWorker = true → calling = true ∧ ∃ id, m.entry id = some c.worker) :
      Move m (claim c (.held calling)) (m.editSlot c.worker c.slot op.apply)
        (claim c (.held calling))
  | call {m c} : Move m (claim c (.held false)) m (claim c (.held true))
  | settle {m c} : Move m (claim c (.held true)) m (claim c (.held false))
  | dropped {m c} : Move m (claim c (.held false)) m (claim c (.dropping 0))
  | drop {m c k f} (h : (Slot.dropSteps c.lane)[k]? = some f) :
      Move m (claim c (.dropping k)) (m.editSlot c.worker c.slot f) (claim c (.dropping (k + 1)))
  | uncount {m c} : Move m (claim c (.dropping 6)) (m.editInFlight c.worker (· - 1))
      (claim c .uncounted)
  | release {m c} : Move m (claim c .uncounted) (m.editSlot c.worker c.slot Slot.release)
      (out none)

/-- Any thread's move. -/
abbrev PoolStep : Pool (WorkerPool P B) Thread → ℕ → Pool (WorkerPool P B) Thread → Prop :=
  Pool.Step Move fun _ _ => False

/-- No worker is registered, and nothing is claimed. -/
def PoolInit (s : Pool (WorkerPool P B) Thread) : Prop :=
  s = ⟨⟨[], [], 0⟩, fun _ => .out none⟩

abbrev PoolReach : Pool (WorkerPool P B) Thread → Prop := Reach PoolInit PoolStep anyStep

end Brust.Server.Workers
