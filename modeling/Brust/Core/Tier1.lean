import Brust.Cache.Contract
import Brust.Core.Floor

/-!
# Core — tier 1

The response cache and the job cache of one instance, under their one clock, and the floor that
guards what comes from L2.  A call of `Core::invalidate` goes to one of the caches and covers
entries of that cache only (`Call.covers`).  `Tier1.l2Replay` is `Core::l2_replay`, and
`Tier1.clearLocal` is `Core::clear_local`.
-/

namespace Brust.Core

open Brust.Cache

/-- What tier 1 holds: a page, or a job's value. -/
inductive Entry (P V : Type) where
  | page (a : PageInsert P)
  | job (a : JobInsert V)

variable {P V A : Type}

def Entry.since : Entry P V → ℕ
  | .page a => a.since
  | .job a => a.since

def Call.covers : Call → Entry P V → Prop
  | .page i, .page a => i.covers a.key a.tags
  | .job i, .job a => i.covers a.userKey a.tags
  | _, _ => False

/-- One of the calls of the invalidation covers the entry. -/
def InvalidateArgs.coversEntry (args : InvalidateArgs) (x : Entry P V) : Prop :=
  ∃ i ∈ args.calls, i.covers x

/-- The calls of `Core::clear_local`. -/
def clearCalls : List Call := [.page .clear, .job .clear]

theorem clearCalls_cover (x : Entry P V) : ∃ i ∈ clearCalls, i.covers x := by
  cases x with
  | page a => exact ⟨.page .clear, .head _, trivial⟩
  | job a => exact ⟨.job .clear, .tail _ (.head _), trivial⟩

/-- The two caches as one tier, whose values `entry` reads as entries, and the floor. -/
structure Tier1 (A : Type) where
  caches : Tier Call A
  floor : Floor

namespace Tier1

variable (entry : A → Entry P V)

/-- `Core::invalidate`. -/
def invalidate (l : Tier1 A) (args : InvalidateArgs) : Tier1 A :=
  { l with caches := l.caches.invalidateAll (fun i a => i.covers (entry a)) args.calls }

/-- `Core::l2_replay`. -/
def l2Replay (l : Tier1 A) (args : InvalidateArgs) (seq : Option ℕ) : Tier1 A :=
  Tier1.invalidate entry
    (match seq with
      | some seq => { l with floor := l.floor.raise args seq }
      | none => l) args

/-- `Core::clear_local`. -/
def clearLocal (l : Tier1 A) : Tier1 A :=
  { l with caches := l.caches.invalidateAll (fun i a => i.covers (entry a)) clearCalls }

/-- The tier after replays in a row. -/
theorem caches_l2Replay (l : Tier1 A) (events : List (ℕ × InvalidateArgs)) :
    (events.foldl (fun l e => l.l2Replay entry e.2 (some e.1)) l).caches =
      l.caches.invalidateAll (fun i a => i.covers (entry a)) (events.flatMap fun e =>
        e.2.calls) := by
  induction events generalizing l with
  | nil => rfl
  | cons e events ih =>
      rw [List.foldl_cons, ih, List.flatMap_cons, Tier.invalidateAll_append]
      rfl

end Tier1

end Brust.Core
