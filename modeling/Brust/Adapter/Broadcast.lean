import Brust.Core.Invalidate

/-!
# Adapter — broadcast

The events of a broadcast, and what a reader of them does to tier 1: it replays an event, or clears.
An event is handled when it was replayed as it was published, or a clear was ordered after it was
(`Handled`).
-/

namespace Brust.Adapter

open Brust.Core

/-- JavaScript numbers are exact up to here. -/
def MAX_SAFE : ℕ := 2 ^ 53 - 1

/-- `InvalidationEvent`. -/
structure Event where
  seq : ℕ
  origin : String
  args : InvalidateArgs
  deriving DecidableEq

/-- What a reader orders: the replay of an event, the `place`th published, or a clear, when `seen`
events had been published. -/
inductive Order where
  | replay (place seq : ℕ) (args : InvalidateArgs)
  | clear (seen : ℕ)
  deriving DecidableEq

def Order.place : Order → Option ℕ
  | .replay place _ _ => some place
  | .clear _ => none

/-- The event at a place was replayed, or a clear came after it. -/
def Handled (orders : List Order) (place : ℕ) (e : Event) : Prop :=
  .replay place e.seq e.args ∈ orders ∨ ∃ seen, .clear seen ∈ orders ∧ place < seen

theorem Handled.mono {orders orders' : List Order} (h : orders ⊆ orders') {place : ℕ} {e : Event}
    (hh : Handled orders place e) : Handled orders' place e :=
  hh.imp (fun hr => h hr) fun ⟨seen, hc, hlt⟩ => ⟨seen, h hc, hlt⟩

end Brust.Adapter
