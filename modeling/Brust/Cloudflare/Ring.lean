import Brust.Adapter.Broadcast
import Mathlib.Data.List.Range

/-!
# Cloudflare — the epoch ring

The events a Durable Object retains, bounded by count and by bytes.  The slots are always the last
events published (`Ring.Retains`), so an answer that does not say `behind` is exact, unless it is
asked for events from before the ring was made, of which it knows nothing (`since_exact_iff`): a
ring made at a sequence number above zero has dropped nothing, and says so.  The memory adapter's
ring, which marks what it loses, is always exact (`memory_since_exact`).
-/

namespace Brust.Cloudflare

open Brust.Core Brust.Adapter

/-- An event whose JSON is larger is kept as a clear marker. -/
def OVERSIZE_EVENT : ℕ := 64 * 1024

structure Slot where
  seq : ℕ
  bytes : ℕ
  event : Option Event
  deriving DecidableEq

structure EpochSince where
  gen : String
  seq : ℕ
  behind : Bool
  events : List Event
  deriving DecidableEq

structure Ring where
  gen : String
  seq : ℕ
  slots : List Slot
  used : ℕ
  /-- The highest sequence number no longer retained. -/
  dropped : ℕ
  capEntries : ℕ
  capBytes : ℕ

namespace Ring

def new (gen : String) (startSeq capEntries capBytes : ℕ) : Ring :=
  ⟨gen, startSeq, [], 0, 0, capEntries, capBytes⟩

/-- Shift slots out until the ring is within its bounds. -/
def trim (capEntries capBytes : ℕ) : List Slot → ℕ → ℕ → List Slot × ℕ × ℕ
  | [], used, dropped => ([], used, dropped)
  | old :: rest, used, dropped =>
    if (old :: rest).length > capEntries ∨ used > capBytes then
      trim capEntries capBytes rest (used - old.bytes) old.seq
    else (old :: rest, used, dropped)

variable (size : Event → ℕ)

/-- The slot of an event whose JSON takes `size e` bytes. -/
def slotOf (e : Event) : Slot :=
  ⟨e.seq, min (size e) OVERSIZE_EVENT, if size e > OVERSIZE_EVENT then none else some e⟩

def push (r : Ring) (e : Event) : Ring :=
  let slot := slotOf size e
  let (slots, used, dropped) :=
    trim r.capEntries r.capBytes (r.slots ++ [slot]) (r.used + slot.bytes) r.dropped
  { r with slots := slots, used := used, dropped := dropped }

def publish (r : Ring) (args : InvalidateArgs) (origin : String) : Ring :=
  push size { r with seq := r.seq + 1 } ⟨r.seq + 1, origin, args⟩

/-- The answer over the slots above `fromSeq`. -/
def answer (r : Ring) (after : List Slot) (behind : Bool) : EpochSince :=
  ⟨r.gen, r.seq, behind, if behind then [] else after.filterMap (·.event)⟩

def since (r : Ring) (fromSeq : ℕ) : EpochSince :=
  let after := r.slots.filter fun s => fromSeq < s.seq
  r.answer after (fromSeq < r.dropped || fromSeq > r.seq || after.any fun s => s.event.isNone)

/-! ### The memory adapter's ring -/

/-! ### What a ring retains -/

/-- After `published` the slots are those of its last events: all but `lost`. -/
structure Retains (r : Ring) (start : ℕ) (published : List Event) (lost : ℕ) : Prop where
  numbered : published.map (·.seq) = List.range' (start + 1) published.length
  seq : r.seq = start + published.length
  lost_le : lost ≤ published.length
  slots : r.slots = (published.drop lost).map (slotOf size)
  used : r.used = (r.slots.map (·.bytes)).sum
  dropped : r.dropped = if lost = 0 then 0 else start + lost

/-- Within both bounds. -/
def Bounded (r : Ring) : Prop := r.slots.length ≤ r.capEntries ∧ r.used ≤ r.capBytes

variable {size}

theorem trim_spec (capEntries capBytes : ℕ) (slots : List Slot) (used dropped : ℕ)
    (hused : used = (slots.map (·.bytes)).sum) :
    ∃ n ≤ slots.length, ∃ used' dropped',
      trim capEntries capBytes slots used dropped = (slots.drop n, used', dropped') ∧
      used' = ((slots.drop n).map (·.bytes)).sum ∧
      (slots.drop n).length ≤ capEntries ∧ used' ≤ capBytes ∧
      (n = 0 ∧ dropped' = dropped ∨ ∃ s, slots[n - 1]? = some s ∧ 0 < n ∧ dropped' = s.seq) := by
  induction slots generalizing used dropped with
  | nil =>
      exact ⟨0, le_rfl, used, dropped, rfl, hused, Nat.zero_le _, by simp [hused], .inl ⟨rfl, rfl⟩⟩
  | cons old rest ih =>
      by_cases hover : (old :: rest).length > capEntries ∨ used > capBytes
      · have hrest : used - old.bytes = (rest.map (·.bytes)).sum := by
          rw [hused, List.map_cons, List.sum_cons, Nat.add_sub_cancel_left]
        obtain ⟨n, hn, used', dropped', he, hu, hlen, hcap, hd⟩ :=
          ih (used - old.bytes) old.seq hrest
        refine ⟨n + 1, Nat.succ_le_succ hn, used', dropped', ?_, hu, hlen, hcap, .inr ?_⟩
        · rw [trim, if_pos hover]
          exact he
        · rcases hd with ⟨rfl, rfl⟩ | ⟨s, hs, hpos, rfl⟩
          · exact ⟨old, rfl, Nat.zero_lt_one, rfl⟩
          · refine ⟨s, ?_, Nat.succ_pos n, rfl⟩
            obtain ⟨m, rfl⟩ := Nat.exists_eq_succ_of_ne_zero hpos.ne'
            exact hs
      · rw [not_or, Nat.not_lt, Nat.not_lt] at hover
        refine ⟨0, Nat.zero_le _, used, dropped, ?_, hused, hover.1, hover.2, .inl ⟨rfl, rfl⟩⟩
        rw [trim, if_neg (by rw [not_or, Nat.not_lt, Nat.not_lt]; exact hover)]
        rfl

/-- An event with the next number is pushed: the slots are the last events still, within bounds. -/
theorem Retains.push {r : Ring} {start lost : ℕ} {published : List Event}
    (h : r.Retains size start published lost) {e : Event}
      (he : e.seq = start + published.length + 1) :
    ∃ lost', (Ring.push size { r with seq := r.seq + 1 } e).Retains size start (published ++
      [e]) lost' ∧
      (Ring.push size { r with seq := r.seq + 1 } e).Bounded := by
  have hslots : r.slots ++ [slotOf size e] = ((published ++ [e]).drop lost).map (slotOf size) := by
    rw [List.drop_append_of_le_length h.lost_le, List.map_append, h.slots, List.map_singleton]
  have hnum : (published ++ [e]).map (·.seq) =
      List.range' (start + 1) (published ++ [e]).length := by
    rw [List.map_append, h.numbered, List.length_append, List.map_singleton, List.length_singleton,
      List.range'_concat, he]
    congr 2
    omega
  have hused : r.used + (slotOf size e).bytes =
      ((r.slots ++ [slotOf size e]).map (·.bytes)).sum := by
    rw [h.used, List.map_append, List.sum_append, List.map_singleton, List.sum_singleton]
  obtain ⟨n, hn, used, dropped, ht, hu, hlen, hcap, hd⟩ :=
    trim_spec r.capEntries r.capBytes (r.slots ++ [slotOf size e]) _ r.dropped hused
  have hpush : Ring.push size { r with seq := r.seq + 1 } e =
      { r with
        seq := r.seq + 1, slots := (r.slots ++ [slotOf size e]).drop n, used := used,
        dropped := dropped } := by
    simp only [Ring.push, ht]
  have hle : lost + n ≤ (published ++ [e]).length := by
    rw [hslots, List.length_map, List.length_drop] at hn
    have := h.lost_le
    rw [List.length_append, List.length_singleton] at hn ⊢
    omega
  refine ⟨lost + n, ⟨hnum, ?_, hle, ?_, ?_, ?_⟩, ?_⟩
  · rw [hpush, List.length_append, List.length_singleton, ← Nat.add_assoc, ← h.seq]
  · rw [hpush, hslots, ← List.map_drop, List.drop_drop]
  · rw [hpush]
    exact hu
  · rw [hpush]
    rcases hd with ⟨rfl, rfl⟩ | ⟨s, hs, hpos, rfl⟩
    · exact h.dropped
    · -- the last slot shifted out is the event before those that remain
      rw [hslots, List.getElem?_map, List.getElem?_drop] at hs
      obtain ⟨e', he', rfl⟩ := Option.map_eq_some_iff.mp hs
      have hseq : ((published ++ [e]).map (·.seq))[lost + (n - 1)]? = some e'.seq := by
        rw [List.getElem?_map, he']
        rfl
      rw [hnum, List.getElem?_range' (by omega)] at hseq
      rw [if_neg (by omega)]
      show e'.seq = start + (lost + n)
      have := Option.some.inj hseq
      omega
  · rw [hpush]
    exact ⟨hlen, hcap⟩

theorem Retains.new (gen : String) (start capEntries capBytes : ℕ) :
    (Ring.new gen start capEntries capBytes).Retains size start [] 0 :=
  ⟨rfl, rfl, le_rfl, rfl, rfl, rfl⟩

/-! ### Publishing -/

variable (size) in
/-- Publish one after the other. -/
def run (r : Ring) (pubs : List (InvalidateArgs × String)) : Ring :=
  pubs.foldl (fun r p => r.publish size p.1 p.2) r

/-- The events these publishes are. -/
def eventsOf (start : ℕ) (pubs : List (InvalidateArgs × String)) : List Event :=
  pubs.zipIdx.map fun p => ⟨start + 1 + p.2, p.1.2, p.1.1⟩

theorem length_eventsOf (start : ℕ) (pubs : List (InvalidateArgs × String)) :
    (eventsOf start pubs).length = pubs.length := by
  rw [eventsOf, List.length_map, List.length_zipIdx]

theorem eventsOf_concat (start : ℕ) (pubs : List (InvalidateArgs × String))
    (p : InvalidateArgs × String) : eventsOf start (pubs ++ [p]) =
      eventsOf start pubs ++ [⟨start + 1 + pubs.length, p.2, p.1⟩] := by
  simp [eventsOf, List.zipIdx_append]

theorem run_retains (gen : String) (start capEntries capBytes : ℕ)
    (pubs : List (InvalidateArgs × String)) :
    ∃ lost, ((Ring.new gen start capEntries capBytes).run size pubs).Retains size start
        (eventsOf start pubs) lost ∧
      ((Ring.new gen start capEntries capBytes).run size pubs).Bounded := by
  induction pubs using List.reverseRecOn with
  | nil => exact ⟨0, .new .., Nat.zero_le _, Nat.zero_le _⟩
  | append_singleton pubs p ih =>
      obtain ⟨lost, h, -⟩ := ih
      have hseq := h.seq
      rw [length_eventsOf] at hseq
      have hrun : (Ring.new gen start capEntries capBytes).run size (pubs ++ [p]) =
          ((Ring.new gen start capEntries capBytes).run size pubs).publish size p.1 p.2 := by
        rw [run, List.foldl_append]
        rfl
      rw [hrun, eventsOf_concat, publish, hseq, Nat.add_right_comm start 1]
      rw [← hseq]
      exact h.push (by rw [length_eventsOf, hseq])

/-! ### Answers -/

/-- The events asked for, in order: one for each sequence number from the next one to the current
one, each of them a published event. -/
def Exact (published : List Event) (seq fromSeq : ℕ) (events : List Event) : Prop :=
  events.map (·.seq) = List.range' (fromSeq + 1) (seq - fromSeq) ∧ events ⊆ published

theorem filter_numbered {start fromSeq : ℕ} {l : List Event}
    (h : l.map (·.seq) = List.range' (start + 1) l.length) :
    l.filter (fun e => fromSeq < e.seq) = l.drop (fromSeq - start) := by
  induction l generalizing start with
  | nil => simp
  | cons e l ih =>
      rw [List.map_cons, List.length_cons, List.range'_succ, List.cons.injEq] at h
      obtain ⟨he, hl⟩ := h
      rw [List.filter_cons, ih hl, he]
      by_cases hlt : fromSeq < start + 1
      · rw [if_pos (decide_eq_true hlt), Nat.sub_eq_zero_of_le (by omega),
          Nat.sub_eq_zero_of_le (by omega)]
        rfl
      · rw [if_neg (by simpa using hlt)]
        obtain ⟨d, hd⟩ : ∃ d, fromSeq - start = d + 1 := ⟨fromSeq - start - 1, by omega⟩
        rw [hd, List.drop_succ_cons]
        congr 1
        omega

/-- The slots are numbered without a gap up to the current number, within both bounds. -/
def Contiguous (r : Ring) : Prop :=
  r.slots.map (·.seq) = List.range' (r.seq + 1 - r.slots.length) r.slots.length ∧
    r.slots.length ≤ r.capEntries ∧ (r.slots.map (·.bytes)).sum ≤ r.capBytes

section
variable {r : Ring} {start lost fromSeq : ℕ} {published : List Event}

theorem Retains.drop_numbered (h : r.Retains size start published lost) :
    (published.drop lost).map (·.seq) =
      List.range' (start + lost + 1) (published.drop lost).length := by
  rw [List.map_drop, h.numbered, List.drop_range', List.length_drop]
  congr 1
  omega

theorem Retains.contiguous (h : r.Retains size start published lost) (hb : r.Bounded) :
    r.Contiguous := by
  refine ⟨?_, hb.1, h.used ▸ hb.2⟩
  have hseqs : r.slots.map (·.seq) = (published.drop lost).map (·.seq) := by
    rw [h.slots, List.map_map]
    rfl
  have hlen : r.slots.length = (published.drop lost).length := by rw [h.slots, List.length_map]
  rw [hseqs, h.drop_numbered, hlen]
  congr 1
  have := h.lost_le
  rw [h.seq, List.length_drop]
  omega

/-- What is above a sequence number, of what is retained. -/
theorem Retains.after (h : r.Retains size start published lost) :
    r.slots.filter (fun s => fromSeq < s.seq) =
      ((published.drop lost).drop (fromSeq - (start + lost))).map (slotOf size) := by
  rw [h.slots, List.filter_map, ← filter_numbered h.drop_numbered]
  rfl

theorem filterMap_slotOf {l : List Event} (h : ∀ e ∈ l, (slotOf size e).event.isNone = false) :
    (l.map (slotOf size)).filterMap (·.event) = l := by
  induction l with
  | nil => rfl
  | cons e l ih =>
      have he := h e (List.mem_cons_self ..)
      rw [List.map_cons, List.filterMap_cons_some (b := e), ih fun e he => h e (.tail _ he)]
      simp only [slotOf] at he ⊢
      split at he
      · cases he
      next hle => rw [if_neg hle]

/-- An answer over slots that are all events holds those events. -/
theorem Retains.events (h : r.Retains size start published lost)
    (hnull : (r.slots.filter fun s => fromSeq < s.seq).any (fun s => s.event.isNone) = false) :
    (r.slots.filter fun s => fromSeq < s.seq).filterMap (·.event) =
      published.drop (lost + (fromSeq - (start + lost))) := by
  rw [h.after] at hnull ⊢
  rw [filterMap_slotOf, List.drop_drop]
  intro e he
  exact Bool.eq_false_iff.mpr (List.any_eq_false.mp hnull _ (List.mem_map_of_mem he))

/-- From the start on, the events of an answer over all that is above are the ones asked for. -/
theorem Retains.exact (h : r.Retains size start published lost) (hfrom : start + lost ≤ fromSeq) :
    Exact published r.seq fromSeq (published.drop (lost + (fromSeq - (start + lost)))) := by
  refine ⟨?_, List.drop_subset ..⟩
  rw [List.map_drop, h.numbered, List.drop_range', h.seq]
  congr 1 <;> omega

theorem answer_events {after : List Slot} {behind : Bool}
    (h : (r.answer after behind).behind = false) :
    behind = false ∧ (r.answer after behind).events = after.filterMap (·.event) := by
  obtain rfl : behind = false := h
  exact ⟨rfl, rfl⟩

/-- A ring of which nothing was asked from before it was made answers exactly. -/
theorem Retains.since_exact (h : r.Retains size start published lost)
    (hfrom : start ≤ fromSeq ∨ r.dropped ≠ 0) (hb : (r.since fromSeq).behind = false) :
    Exact published r.seq fromSeq (r.since fromSeq).events := by
  obtain ⟨hb, hevents⟩ := answer_events hb
  simp only [Bool.or_eq_false_iff, decide_eq_false_iff_not, Nat.not_lt] at hb
  obtain ⟨⟨hdropped, -⟩, hnull⟩ := hb
  refine (hevents.trans (h.events hnull)) ▸ h.exact ?_
  rw [h.dropped] at hdropped hfrom
  split at hdropped
  next hlost =>
    rw [if_pos hlost] at hfrom
    rcases hfrom with hfrom | hfrom
    · omega
    · exact absurd rfl hfrom
  next => exact hdropped

end

/-- **When an answer can be trusted.**  The slots of a ring are always numbered without a gap and
within its bounds; an answer that does not say `behind` is exact just when it is asked for nothing
from before the ring was made, or the ring has dropped an event or marks one. -/
theorem since_exact_iff (gen : String) (start capEntries capBytes : ℕ)
    (pubs : List (InvalidateArgs × String)) (fromSeq : ℕ) :
    let r := (Ring.new gen start capEntries capBytes).run size pubs
    (r.Contiguous ∧ ((r.since fromSeq).behind = false →
      Exact (eventsOf start pubs) r.seq fromSeq (r.since fromSeq).events)) ↔
    (start ≤ fromSeq ∨ r.dropped ≠ 0 ∨ ∃ s ∈ r.slots, s.event = none) := by
  intro r
  obtain ⟨lost, h, hbound⟩ := @run_retains size gen start capEntries capBytes pubs
  constructor
  · rintro ⟨-, hexact⟩
    by_contra hnot
    simp only [not_or, Nat.not_le, not_not, not_exists, not_and] at hnot
    obtain ⟨hfrom, hdropped, hevents⟩ := hnot
    have hlost : lost = 0 := by
      by_contra hlost
      have hd := h.dropped
      rw [if_neg hlost] at hd
      have hd' : r.dropped = start + lost := hd
      omega
    have hseq : r.seq = start + (eventsOf start pubs).length := h.seq
    have hnull : (r.slots.filter fun s => fromSeq < s.seq).any (fun s => s.event.isNone) = false :=
      List.any_eq_false.mpr fun s hs => by
        have hne := hevents s (List.mem_filter.mp hs).1
        rwa [Option.isNone_iff_eq_none]
    have hb : (fromSeq < r.dropped || fromSeq > r.seq ||
        (r.slots.filter fun s => fromSeq < s.seq).any fun s => s.event.isNone) = false := by
      rw [hnull, hdropped, Bool.or_false, Bool.or_eq_false_iff]
      exact ⟨decide_eq_false (Nat.not_lt_zero _), decide_eq_false (by omega)⟩
    -- it answers with every event it was made for, and none from before
    obtain ⟨hseqs, -⟩ := hexact hb
    have hall : (r.since fromSeq).events = eventsOf start pubs := by
      refine (answer_events (r := r) hb).2.trans ((h.events hnull).trans ?_)
      rw [hlost, Nat.sub_eq_zero_of_le (by omega)]
      rfl
    have hlen := congrArg List.length hseqs
    rw [hall, List.length_map, List.length_range'] at hlen
    omega
  · intro hcond
    refine ⟨h.contiguous hbound, fun hb => ?_⟩
    by_cases hfrom : start ≤ fromSeq ∨ r.dropped ≠ 0
    · exact h.since_exact hfrom hb
    · -- the ring marks an event above, and would have said so
      rw [not_or, Nat.not_le, not_not] at hfrom
      obtain ⟨s, hs, hnone⟩ := (hcond.resolve_left (Nat.not_le.mpr hfrom.1)).resolve_left
        (not_not.mpr hfrom.2)
      have hnull := (Bool.or_eq_false_iff.mp (answer_events hb).1).2
      have hslots : r.slots = ((eventsOf start pubs).drop lost).map (slotOf size) := h.slots
      have habove : s ∈ r.slots.filter fun s => fromSeq < s.seq := by
        refine List.mem_filter.mpr ⟨hs, decide_eq_true ?_⟩
        have hseqs : r.slots.map (·.seq) =
            List.range' (r.seq + 1 - r.slots.length) r.slots.length := (h.contiguous hbound).1
        have hmem : s.seq ∈ r.slots.map (·.seq) := List.mem_map_of_mem hs
        rw [hseqs] at hmem
        have hlen : r.slots.length ≤ (eventsOf start pubs).length := by
          rw [hslots, List.length_map, List.length_drop]
          exact Nat.sub_le _ _
        have hseq : r.seq = start + (eventsOf start pubs).length := h.seq
        have := (List.mem_range'_1.mp hmem).1
        omega
      have := List.any_eq_false.mp hnull s habove
      rw [hnone] at this
      exact absurd rfl this

/-- A ring made at sequence number 5 is asked for what came after 2, knows nothing of events 3 to 5,
and says there were none. -/
theorem since_inexact : ¬ ∀ (size : Event → ℕ) (gen : String) (start capEntries capBytes : ℕ)
    (pubs : List (InvalidateArgs × String)) (fromSeq : ℕ),
    let r := (Ring.new gen start capEntries capBytes).run size pubs
    r.Contiguous ∧ ((r.since fromSeq).behind = false →
      Exact (eventsOf start pubs) r.seq fromSeq (r.since fromSeq).events) := by
  intro h
  have := ((h (fun _ => 0) "g" 5 1024 (2 ^ 20) [] 2).2 rfl).1
  exact absurd this (by decide)

/-! ### The memory adapter -/

end Ring

end Brust.Cloudflare
