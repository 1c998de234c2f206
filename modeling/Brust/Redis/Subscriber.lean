import Brust.Adapter.Broadcast
import Brust.Support.Pool

/-!
# Redis — the push subscriber

A process follows the invalidations of the others over a connection of its own, which a link opens
again whenever it is lost.  On every new subscription the subscriber compares the server's sequence
number with the last one it knows, and the runtime clears tier 1 when it is told of a gap or sees
one between two events.

Here are the parts as the source has them, and the machine of their runs (`step`): attempts to
connect that overlap, messages in flight on every connection, losses, and restarts of the server
that lose the sequence key.  A loss and its notice are one step.
-/

namespace Brust.Redis.Push

open Brust.Core Brust.Adapter

/-- A message in flight: an event, and its place among all that were published. -/
abbrev Message := ℕ × Event

/-! ### The runtime's half -/

/-- What the runtime keeps: the number of the last event, and what it ordered so far. -/
structure Replayer where
  last : Option ℕ
  orders : List Order

namespace Replayer

/-- `on`, when `seen` events had been published. -/
def on (own : String) (seen : ℕ) (m : Message) (r : Replayer) : Replayer :=
  if r.last.any fun last => decide (m.2.seq ≤ last) then r
  else
    let orders :=
      if r.last.any fun last => decide (last + 1 < m.2.seq) then r.orders ++ [.clear seen]
      else r.orders
    { last := some m.2.seq
      orders := if m.2.origin = own then orders else orders ++ [.replay m.1 m.2.seq m.2.args] }

def onGap (seen : ℕ) (r : Replayer) : Replayer :=
  { last := none, orders := r.orders ++ [.clear seen] }

end Replayer

/-! ### The adapter's half -/

/-- `SubscriberState`, and the runtime behind its handlers. -/
structure Subscriber where
  subscribed : Bool
  last : Option ℕ
  replayer : Replayer

namespace Subscriber

/-- What the listener does with a message: a number that is not safe makes it malformed. -/
def listener (own : String) (seen : ℕ) (m : Message) (s : Subscriber) : Subscriber :=
  if MAX_SAFE < m.2.seq then s
  else
    { s with
      last := some (max (s.last.getD 0) m.2.seq)
      replayer := s.replayer.on own seen m }

/-- What a new subscription does with the server's sequence number. -/
def check (seen seq : ℕ) (s : Subscriber) : Subscriber :=
  match s.last with
  | none => { s with last := some seq, subscribed := true }
  | some last =>
    if last < seq then
      { subscribed := true, last := some seq, replayer := s.replayer.onGap seen }
    else { s with subscribed := true }

end Subscriber

/-! ### Runs -/

/-- Where the `onUp` of an attempt waits. -/
inductive Wait where
  | subscribing
  | reading
  | replying (seq : ℕ)
deriving DecidableEq

/-- A connection that was opened: `onUp` may go on after it is lost. -/
structure Conn where
  isOpen : Bool
  wait : Option Wait
  /-- The messages on their way, of a connection that is subscribed. -/
  inflight : Option (List Message)

namespace Conn

def unused : Conn := ⟨false, none, none⟩

def push (m : Message) (c : Conn) : Conn := { c with inflight := c.inflight.map (· ++ [m]) }

end Conn

structure World where
  /-- The sequence key of the server. -/
  seq : ℕ
  published : List Event
  conns : ℕ → Conn
  /-- The connections from here on were never opened. -/
  next : ℕ
  client : Option ℕ
  timer : Bool
  /-- The attempts that have not connected yet. -/
  connecting : ℕ
  subscriber : Subscriber
  /-- How many events had been published when the process began to fill tier 1. -/
  filledFrom : Option ℕ

/-- The first attempt is under way. -/
def World.start (seq : ℕ) : World where
  seq := seq
  published := []
  conns := fun _ => .unused
  next := 0
  client := none
  timer := false
  connecting := 1
  subscriber := ⟨false, none, ⟨none, []⟩⟩
  filledFrom := none

inductive Act where
  | fill
  | connectFailed
  | connected
  | subscribe (c : ℕ)
  | read (c : ℕ)
  | reply (c : ℕ)
  /-- A command of `onUp` fails. -/
  | failed (c : ℕ)
  | lost (c : ℕ)
  | fire
  | publish (origin : String) (args : InvalidateArgs)
  | deliver (c : ℕ)
  /-- The server is back without its sequence key. -/
  | restart
deriving DecidableEq

namespace World

def setConn (w : World) (c : ℕ) (conn : Conn) : World :=
  { w with conns := Function.update w.conns c conn }

def isClosed (w : World) : Bool := (List.range w.next).all fun c => !(w.conns c).isOpen

/-- What an action makes of the world, in which this process publishes under `own`. -/
def step (own : String) (w : World) : Act → Option World
  | .fill =>
    if w.filledFrom.isNone then some { w with filledFrom := some w.published.length } else none
  | .connectFailed =>
    if w.connecting = 0 then none
    else some { w with connecting := w.connecting - 1, timer := true }
  | .connected =>
    if w.connecting = 0 then none
    else
      some { w with
        conns := Function.update w.conns w.next ⟨true, some .subscribing, none⟩
        next := w.next + 1
        client := some w.next
        connecting := w.connecting - 1
        subscriber := { w.subscriber with subscribed := false } }
  | .subscribe c =>
    if (w.conns c).isOpen ∧ (w.conns c).wait = some .subscribing then
      some (w.setConn c ⟨true, some .reading, some []⟩)
    else none
  | .read c =>
    if (w.conns c).wait = some .reading then
      some (w.setConn c { w.conns c with wait := some (.replying w.seq) })
    else none
  | .reply c =>
    match (w.conns c).wait with
    | some (.replying seq) =>
      some { w.setConn c { w.conns c with wait := none } with
        subscriber := w.subscriber.check w.published.length seq }
    | _ => none
  | .failed c =>
    if (w.conns c).wait.isSome then
      some { w.setConn c .unused with
        client := if w.client = some c then none else w.client
        timer := true }
    else none
  | .lost c =>
    if (w.conns c).isOpen then
      let w' := w.setConn c { w.conns c with isOpen := false, inflight := none }
      some (if w.client = some c then
        { w' with
          client := none
          subscriber := { w.subscriber with subscribed := false }
          timer := true }
      else w')
    else none
  | .fire =>
    if w.timer then some { w with timer := false, connecting := w.connecting + 1 } else none
  | .publish origin args =>
    let e : Event := ⟨w.seq + 1, origin, args⟩
    some { w with
      seq := w.seq + 1
      published := w.published ++ [e]
      conns := fun c => (w.conns c).push (w.published.length, e) }
  | .deliver c =>
    match (w.conns c).inflight with
    | some (m :: rest) =>
      some { w.setConn c { w.conns c with inflight := some rest } with
        subscriber := w.subscriber.listener own w.published.length m }
    | _ => none
  | .restart => if w.isClosed then some { w with seq := 0 } else none

/-- Several actions. -/
def steps (own : String) (w : World) : List Act → Option World
  | [] => some w
  | a :: as => (w.step own a).bind fun w' => w'.steps own as

end World

end Brust.Redis.Push
