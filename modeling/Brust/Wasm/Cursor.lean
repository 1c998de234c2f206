import Brust.Adapter.Broadcast

/-!
# Wasm — the pull cursor

One isolate's place in a pull broadcast: which generation it follows, and up to which sequence
number.  `Cursor.apply` makes a plan of a poll's answer: the first answer is adopted, an answer that
continues the cursor is replayed, without the isolate's own events, and any other clears
(`Cursor.apply_cases`).
-/

namespace Brust.Wasm

open Brust.Core Brust.Adapter

/-- More events than this in one answer clears instead of replaying. -/
def MAX_REPLAY : ℕ := 4096

/-- `EpochSince`. -/
structure SinceResp where
  generation : String
  seq : ℕ
  behind : Bool
  events : List Event

def SEQ_OVER : String := "since: seq over 2^53 - 1"

/-- What `parse_since` does with an answer that decodes. -/
def parseSince (r : SinceResp) : Except String SinceResp :=
  if MAX_SAFE < r.seq ∨ ∃ e ∈ r.events, MAX_SAFE < e.seq then .error SEQ_OVER else .ok r

/-- What a poll's answer asks the isolate to do. -/
inductive Plan where
  | adopt
  | replay (events : List (ℕ × InvalidateArgs)) (skippedOwn : ℕ)
  | clear (sameGen : Bool) (seq : ℕ)
  deriving DecidableEq

structure Cursor where
  origin : String
  intervalMs : ℕ
  generation : Option String
  seq : ℕ
  lastPollMs : Option ℕ
  inFlight : Bool

namespace Cursor

def new (origin : String) (intervalMs : ℕ) : Cursor := ⟨origin, intervalMs, none, 0, none, false⟩

/-- The origin is learnt on the first poll. -/
def learn (c : Cursor) (origin : String) : Cursor :=
  if c.origin = "" then { c with origin := origin } else c

/-- A poll may start: none is in flight, and the interval passed. -/
def due (c : Cursor) (nowMs : ℕ) : Bool :=
  !c.inFlight && c.lastPollMs.all fun t => decide (nowMs - t ≥ c.intervalMs)

/-- Start a poll if one is due; the sequence number to ask from. -/
def begin (c : Cursor) (nowMs : ℕ) : Option (Cursor × ℕ) :=
  if c.due nowMs then some ({ c with inFlight := true, lastPollMs := some nowMs }, c.seq) else none

/-- A failed or timed-out poll. -/
def fail (c : Cursor) : Cursor := { c with inFlight := false }

/-- The answer does not continue the cursor. -/
def lost (c : Cursor) (r : SinceResp) : Bool :=
  c.generation ≠ some r.generation || r.behind || decide (r.seq < c.seq) ||
    decide (r.events.length > MAX_REPLAY) || r.events.length ≠ r.seq - c.seq ||
    r.events.zipIdx.any fun p => p.1.seq ≠ c.seq + 1 + p.2

/-- A poll's answer makes a plan, and moves the cursor. -/
def apply (c : Cursor) (r : SinceResp) : Cursor × Plan :=
  ({ c with inFlight := false, generation := some r.generation, seq := r.seq },
    if c.generation = none then .adopt
    else if c.lost r then .clear (c.generation = some r.generation) r.seq
    else .replay ((r.events.filter fun e => e.origin ≠ c.origin).map fun e => (e.seq, e.args))
      (r.events.countP fun e => e.origin = c.origin))

theorem lost_eq_false {c : Cursor} {r : SinceResp} (h : c.lost r = false) :
    c.generation = some r.generation ∧ c.seq ≤ r.seq ∧ r.events.length = r.seq - c.seq ∧
      ∀ i e, r.events[i]? = some e → e.seq = c.seq + 1 + i := by
  simp only [lost, Bool.or_eq_false_iff, decide_eq_false_iff_not, ne_eq, not_not, not_lt] at h
  obtain ⟨⟨⟨⟨⟨hgen, -⟩, hseq⟩, -⟩, hlen⟩, hcont⟩ := h
  refine ⟨hgen, hseq, hlen, fun i e he => ?_⟩
  by_contra hne
  have hmem : (e, i) ∈ r.events.zipIdx := List.mem_zipIdx_iff_getElem?.mpr he
  exact Bool.eq_false_iff.mp hcont (List.any_eq_true.mpr ⟨_, hmem, decide_eq_true hne⟩)

theorem sorted_of_lost {c : Cursor} {r : SinceResp} (h : c.lost r = false) :
    r.events.Pairwise (·.seq < ·.seq) := by
  obtain ⟨-, -, -, hcont⟩ := lost_eq_false h
  refine List.pairwise_iff_getElem.mpr fun i j hi hj hij => ?_
  rw [hcont i _ (List.getElem?_eq_getElem hi), hcont j _ (List.getElem?_eq_getElem hj)]
  omega

/-- **What a poll does**: it adopts the answer, clears, or replays the foreign events of an answer
that holds one event for each sequence number after the cursor. -/
theorem apply_cases (c : Cursor) (r : SinceResp) :
    (c.generation = none ∧ (c.apply r).2 = .adopt) ∨
    (c.generation ≠ none ∧ ∃ sameGen, (c.apply r).2 = .clear sameGen r.seq) ∨
    (c.lost r = false ∧ ∃ skippedOwn, (c.apply r).2 = .replay
      ((r.events.filter fun e => e.origin ≠ c.origin).map fun e =>
        (e.seq, e.args)) skippedOwn) := by
  by_cases hg : c.generation = none
  · exact .inl ⟨hg, if_pos hg⟩
  by_cases hl : c.lost r = true
  · exact .inr (.inl ⟨hg, _, (if_neg hg).trans (if_pos hl)⟩)
  · exact .inr (.inr ⟨Bool.eq_false_iff.mpr hl, _, (if_neg hg).trans (if_neg hl)⟩)

end Cursor

end Brust.Wasm
