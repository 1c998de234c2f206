import Brust.Redis.Subscriber

/-!
# Redis — what the push subscriber misses

An event of another process is owed to tier 1 until it is replayed or tier 1 is cleared after it,
and it is missed when it is not on its way either.  A subscribed process misses nothing, in every
run in which the numbers can show what is lost (`Detects`): a missed event keeps a number above the
last one that the subscriber knows.  The two numbers of the subscriber and of the runtime carry the
argument (`Keeps`).

The numbers show nothing before the first one is known.  `first_attempt_fails` is such a run.
-/

namespace Brust.Redis.Push

open Brust.Core Brust.Adapter

variable {own : String}

namespace World

/-! ### What is owed -/

/-- An event of another process since this one began to fill tier 1. -/
def Counted (own : String) (w : World) (m : Message) : Prop :=
  (∃ k, w.filledFrom = some k ∧ k ≤ m.1) ∧ w.published[m.1]? = some m.2 ∧ m.2.origin ≠ own

def Owed (own : String) (w : World) (m : Message) : Prop :=
  w.Counted own m ∧ ¬ Handled w.subscriber.replayer.orders m.1 m.2

def InFlight (w : World) (c : ℕ) (m : Message) : Prop :=
  ∃ q, (w.conns c).inflight = some q ∧ m ∈ q

def Missed (own : String) (w : World) (m : Message) : Prop :=
  w.Owed own m ∧ ∀ c, ¬ w.InFlight c m

/-- The number of the event is above the last one that the subscriber knows. -/
def Above (w : World) (m : Message) : Prop := ∃ last, w.subscriber.last = some last ∧ last < m.2.seq

/-- A subscribed process that no message is on its way to owes nothing to tier 1. -/
def Complete (own : String) (w : World) : Prop :=
  w.subscriber.subscribed = true → (∀ c m, ¬ w.InFlight c m) →
    ∀ m, w.Counted own m → Handled w.subscriber.replayer.orders m.1 m.2

/-! ### The runs that show their losses -/

/-- The last copy of a message on this connection that is still owed. -/
def OnlyOn (own : String) (w : World) (c : ℕ) (m : Message) : Prop :=
  w.Owed own m ∧ w.InFlight c m ∧ ∀ c' ≠ c, ¬ w.InFlight c' m

/-- **The condition on a step.**  What a step loses has a number above the last one known, and the
subscriber is not left in force; a first event that the runtime adopts is the first that is owed;
the answer to a check of a lost connection shows a gap or comes when nothing is missed; and the
sequence key is lost only before a number is known. -/
def Detects (own : String) (w : World) : Act → Prop
  | .publish origin _ => origin ≠ own → w.filledFrom ≠ none →
      w.seq < MAX_SAFE ∧ ((∃ c q, (w.conns c).inflight = some q) ∨
        w.subscriber.subscribed = false ∧ ∃ last, w.subscriber.last = some last ∧ last ≤ w.seq)
  | .lost c => ∀ m, w.OnlyOn own c m →
      w.Above m ∧ (w.client = some c ∨ w.subscriber.subscribed = false)
  | .failed c => ∀ m, w.OnlyOn own c m → w.Above m ∧ w.subscriber.subscribed = false
  | .deliver c => w.subscriber.replayer.last = none →
      ∀ m q, (w.conns c).inflight = some (m :: q) →
        ∀ m', w.Owed own m' → m' ≠ m → m.2.seq < m'.2.seq
  | .reply c => (w.conns c).isOpen = true ∨ (∀ m, ¬ w.Missed own m) ∨
      ∃ last seq, w.subscriber.last = some last ∧
        (w.conns c).wait = some (.replying seq) ∧ last < seq
  | .restart => w.seq = 0 ∨ w.subscriber.last = none
  | _ => True

/-! ### The invariant -/

/-- The messages on their way are those of an open connection that has subscribed. -/
structure Formed (conn : Conn) : Prop where
  closed : conn.isOpen = false → conn.inflight = none
  subscribing : conn.wait = some .subscribing → conn.inflight = none
  subscribed : conn.isOpen = true → conn.wait ≠ some .subscribing → conn.inflight ≠ none

/-- What holds in the runs that show their losses.  The events from `base` on are numbered without
a gap, and nothing before them is owed. -/
structure Keeps (own : String) (base : ℕ) (w : World) : Prop where
  le : base ≤ w.published.length
  numbers : ∀ p e, base ≤ p → w.published[p]? = some e →
    e.seq + w.published.length = w.seq + p + 1
  owed : ∀ m, w.Owed own m → base ≤ m.1 ∧ m.2.seq ≤ MAX_SAFE
  flight : ∀ c m, w.InFlight c m → base ≤ m.1 ∧ w.published[m.1]? = some m.2
  /-- The runtime's number is one that was given, below all that is owed. -/
  adopted : ∀ r, w.subscriber.replayer.last = some r →
    r ≤ w.seq ∧ (∃ last, w.subscriber.last = some last ∧ r ≤ last) ∧
      ∀ m, w.Owed own m → r < m.2.seq
  missed : ∀ m, w.Missed own m → w.Above m ∧ w.subscriber.subscribed = false
  /-- A check asked for its number after the events that its connection does not have. -/
  reply : ∀ c seq, (w.conns c).isOpen = true → (w.conns c).wait = some (.replying seq) →
    ∀ m, w.Owed own m → ¬ w.InFlight c m → m.2.seq ≤ seq
  formed : ∀ c, Formed (w.conns c)
  unused : ∀ c, w.next ≤ c → w.conns c = .unused

theorem start_keeps (seq : ℕ) : Keeps own 0 (start seq) where
  le := Nat.le_refl 0
  numbers := fun p e _ he => by cases he
  owed := fun m hm => by
    obtain ⟨⟨⟨k, hk, -⟩, -⟩, -⟩ := hm
    cases hk
  flight := fun c m hm => by
    obtain ⟨q, hq, -⟩ := hm
    cases hq
  adopted := fun r hr => by cases hr
  missed := fun m hm => by
    obtain ⟨⟨⟨⟨k, hk, -⟩, -⟩, -⟩, -⟩ := hm
    cases hk
  reply := fun c seq hopen => by cases hopen
  formed := fun c => ⟨fun _ => rfl, fun _ => rfl, fun hopen => by cases hopen⟩
  unused := fun c _ => rfl

theorem Owed.lt {w : World} {m : Message} (h : w.Owed own m) : m.1 < w.published.length :=
  (List.getElem?_eq_some_iff.mp h.1.2.1).1

/-- Two numbered events differ in their numbers. -/
theorem Keeps.place_eq {base : ℕ} {w : World} (h : Keeps own base w) {m m' : Message}
    (hm : base ≤ m.1 ∧ w.published[m.1]? = some m.2)
    (hm' : base ≤ m'.1 ∧ w.published[m'.1]? = some m'.2) (hseq : m.2.seq = m'.2.seq) : m = m' := by
  have h₁ := h.numbers _ _ hm.1 hm.2
  have h₂ := h.numbers _ _ hm'.1 hm'.2
  have hplace : m.1 = m'.1 := by omega
  have hevent : some m.2 = some m'.2 := by rw [← hm.2, ← hm'.2, hplace]
  exact Prod.ext hplace (Option.some.inj hevent)

theorem Keeps.seq_le {base : ℕ} {w : World} (h : Keeps own base w) {m : Message}
    (hm : base ≤ m.1 ∧ w.published[m.1]? = some m.2) : m.2.seq ≤ w.seq := by
  have hnum := h.numbers _ _ hm.1 hm.2
  have hlt := (List.getElem?_eq_some_iff.mp hm.2).1
  omega

theorem Keeps.of_owed {base : ℕ} {w : World} (h : Keeps own base w) {m : Message}
    (hm : w.Owed own m) : base ≤ m.1 ∧ w.published[m.1]? = some m.2 :=
  ⟨(h.owed m hm).1, hm.1.2.1⟩

/-- **The steps of the link.**  What stays is the history and what the two numbers are; messages are
only dropped, and what is dropped has been accounted for. -/
theorem Keeps.frame {base : ℕ} {w w' : World} (h : Keeps own base w) (hseq : w'.seq = w.seq)
    (hpublished : w'.published = w.published) (hfilled : w'.filledFrom = w.filledFrom)
    (hlast : w'.subscriber.last = w.subscriber.last)
    (hreplayer : w'.subscriber.replayer = w.subscriber.replayer)
    (hflight : ∀ c m, w'.InFlight c m → w.InFlight c m)
    (hmissed : ∀ m, w'.Missed own m → w.Above m ∧ w'.subscriber.subscribed = false)
    (hreply : ∀ c seq, (w'.conns c).isOpen = true → (w'.conns c).wait = some (.replying seq) →
      ∀ m, w.Owed own m → ¬ w'.InFlight c m → m.2.seq ≤ seq)
    (hformed : ∀ c, Formed (w'.conns c)) (hunused : ∀ c, w'.next ≤ c → w'.conns c = .unused) :
    Keeps own base w' := by
  have howed : ∀ m, w'.Owed own m → w.Owed own m := fun m hm => by
    rw [Owed, Counted, hfilled, hpublished, hreplayer] at hm
    exact hm
  refine ⟨?_, ?_, ?_, ?_, ?_, ?_, ?_, hformed, hunused⟩
  · rw [hpublished]
    exact h.le
  · rw [hpublished, hseq]
    exact h.numbers
  · exact fun m hm => h.owed m (howed m hm)
  · intro c m hm
    rw [hpublished]
    exact h.flight c m (hflight c m hm)
  · intro r hr
    rw [hreplayer] at hr
    obtain ⟨hle, hknown, hbelow⟩ := h.adopted r hr
    rw [hseq, hlast]
    exact ⟨hle, hknown, fun m hm => hbelow m (howed m hm)⟩
  · intro m hm
    rw [Above, hlast]
    exact hmissed m hm
  · exact fun c seq hopen hwait m hm => hreply c seq hopen hwait m (howed m hm)

/-- A message on its way to a connection in its new state. -/
def Carries (conn : Conn) (m : Message) : Prop := ∃ q, conn.inflight = some q ∧ m ∈ q

/-- **A step of one connection**, which takes messages off it. -/
theorem Keeps.oneConn {base : ℕ} {w w' : World} (h : Keeps own base w) {c : ℕ} {conn : Conn}
    (hconns : w'.conns = Function.update w.conns c conn) (hseq : w'.seq = w.seq)
    (hpublished : w'.published = w.published) (hfilled : w'.filledFrom = w.filledFrom)
    (hlast : w'.subscriber.last = w.subscriber.last)
    (hreplayer : w'.subscriber.replayer = w.subscriber.replayer)
    (hflight : ∀ m, Carries conn m → w.InFlight c m)
    (hlost : ∀ m, w.OnlyOn own c m → ¬ Carries conn m →
      w.Above m ∧ w'.subscriber.subscribed = false)
    (hsub : w.subscriber.subscribed = false → w'.subscriber.subscribed = false)
    (hreply : ∀ seq, conn.isOpen = true → conn.wait = some (.replying seq) →
      ∀ m, w.Owed own m → ¬ Carries conn m → m.2.seq ≤ seq)
    (hformed : Formed conn) (hnext : w.next ≤ w'.next) (hused : c < w'.next) :
    Keeps own base w' := by
  have hself : w'.conns c = conn := by rw [hconns, Function.update_self]
  have hother : ∀ c' ≠ c, w'.conns c' = w.conns c' := fun c' hne => by
    rw [hconns, Function.update_of_ne hne]
  have howed : ∀ m, w'.Owed own m → w.Owed own m := fun m hm => by
    rw [Owed, Counted, hfilled, hpublished, hreplayer] at hm
    exact hm
  refine h.frame hseq hpublished hfilled hlast hreplayer ?_ ?_ ?_ ?_ ?_
  · intro c' m hm
    by_cases hc : c' = c
    · rw [hc, InFlight, hself] at hm
      rw [hc]
      exact hflight m hm
    · rwa [InFlight, hother c' hc] at hm
  · rintro m ⟨hm, hnone⟩
    have hm := howed m hm
    have hrest : ∀ c' ≠ c, ¬ w.InFlight c' m := fun c' hc hfl => by
      refine hnone c' ?_
      rwa [InFlight, hother c' hc]
    have hcarries : ¬ Carries conn m := fun hfl => by
      refine hnone c ?_
      rwa [InFlight, hself]
    by_cases hfl : w.InFlight c m
    · exact hlost m ⟨hm, hfl, hrest⟩ hcarries
    · have hmissed : w.Missed own m := ⟨hm, fun c' => by
        by_cases hc : c' = c
        · rwa [hc]
        · exact hrest c' hc⟩
      obtain ⟨habove, hsubscribed⟩ := h.missed m hmissed
      exact ⟨habove, hsub hsubscribed⟩
  · intro c' seq hopen hwait m hm hnot
    by_cases hc : c' = c
    · rw [hc, hself] at hopen hwait
      rw [hc, InFlight, hself] at hnot
      exact hreply seq hopen hwait m hm hnot
    · rw [hother c' hc] at hopen hwait
      rw [InFlight, hother c' hc] at hnot
      exact h.reply c' seq hopen hwait m hm hnot
  · intro c'
    by_cases hc : c' = c
    · rw [hc, hself]
      exact hformed
    · rw [hother c' hc]
      exact h.formed c'
  · intro c' hc'
    have hc : c' ≠ c := by omega
    rw [hother c' hc]
    exact h.unused c' (hnext.trans hc')

/-- A connection that was opened. -/
theorem Keeps.lt_next {base : ℕ} {w : World} (h : Keeps own base w) {c : ℕ}
    (hc : w.conns c ≠ .unused) : c < w.next := by
  by_contra hge
  exact hc (h.unused c (Nat.not_lt.mp hge))

theorem ne_unused_of_wait {w : World} {c : ℕ} {wait : Wait} (h : (w.conns c).wait = some wait) :
    w.conns c ≠ .unused := fun he => by
  rw [he] at h
  cases h

theorem ne_unused_of_open {w : World} {c : ℕ} (h : (w.conns c).isOpen = true) :
    w.conns c ≠ .unused := fun he => by
  rw [he] at h
  cases h

theorem not_carries_unused (m : Message) : ¬ Carries .unused m := fun ⟨_, hq, _⟩ => by cases hq

theorem formed_unused : Formed .unused :=
  ⟨fun _ => rfl, fun _ => rfl, fun hopen => by cases hopen⟩

/-! ### The steps of the link -/

theorem Keeps.fill {base : ℕ} {w : World} (h : Keeps own base w) :
    Keeps own base { w with filledFrom := some w.published.length } := by
  have hnone : ∀ m, ¬ Owed own { w with filledFrom := some w.published.length } m := by
    rintro m hm
    have hlt : m.1 < w.published.length := hm.lt
    obtain ⟨⟨⟨k, hk, hle⟩, -⟩, -⟩ := hm
    cases hk
    omega
  exact
    { le := h.le
      numbers := h.numbers
      owed := fun m hm => absurd hm (hnone m)
      flight := h.flight
      adopted := fun r hr =>
        ⟨(h.adopted r hr).1, (h.adopted r hr).2.1, fun m hm => absurd hm (hnone m)⟩
      missed := fun m hm => absurd hm.1 (hnone m)
      reply := fun c seq _ _ m hm => absurd hm (hnone m)
      formed := h.formed
      unused := h.unused }

theorem Keeps.connected {base : ℕ} {w : World} (h : Keeps own base w) (n : ℕ) :
    Keeps own base { w with
      conns := Function.update w.conns w.next ⟨true, some .subscribing, none⟩
      next := w.next + 1
      client := some w.next
      connecting := n
      subscriber := { w.subscriber with subscribed := false } } := by
  have hunused := h.unused w.next (Nat.le_refl _)
  refine h.oneConn (c := w.next) rfl rfl rfl rfl rfl rfl ?_ ?_ (fun _ => rfl) ?_ ?_ (by simp)
    (Nat.lt_succ_self _)
  · rintro m ⟨q, hq, -⟩
    cases hq
  · rintro m ⟨-, ⟨q, hq, -⟩, -⟩ -
    rw [hunused] at hq
    cases hq
  · intro seq _ hwait
    cases hwait
  · exact ⟨fun hclosed => (by cases hclosed), fun _ => rfl, fun _ hwait => absurd rfl hwait⟩

theorem Keeps.subscribe {base : ℕ} {w : World} (h : Keeps own base w) {c : ℕ}
    (hopen : (w.conns c).isOpen = true) (hwait : (w.conns c).wait = some .subscribing) :
    Keeps own base (w.setConn c ⟨true, some .reading, some []⟩) := by
  refine h.oneConn (c := c) rfl rfl rfl rfl rfl rfl ?_ ?_ id ?_ ?_ (Nat.le_refl _)
    (h.lt_next (ne_unused_of_open hopen))
  · rintro m ⟨q, hq, hm⟩
    cases hq
    cases hm
  · rintro m ⟨-, ⟨q, hq, -⟩, -⟩
    rw [(h.formed c).subscribing hwait] at hq
    cases hq
  · intro seq _ hwait'
    cases hwait'
  · exact ⟨fun hclosed => (by cases hclosed), fun hwait' => (by cases hwait'),
      fun _ _ => Option.some_ne_none _⟩

theorem Keeps.read {base : ℕ} {w : World} (h : Keeps own base w) {c : ℕ}
    (hwait : (w.conns c).wait = some .reading) :
    Keeps own base (w.setConn c { w.conns c with wait := some (.replying w.seq) }) := by
  refine h.oneConn (c := c) rfl rfl rfl rfl rfl rfl (fun m hm => hm) ?_ id ?_ ?_ (Nat.le_refl _)
    (h.lt_next (ne_unused_of_wait hwait))
  · exact fun m hm hnot => absurd hm.2.1 hnot
  · intro seq _ hseq m hm _
    cases hseq
    exact h.seq_le (h.of_owed hm)
  · refine ⟨(h.formed c).closed, fun he => (by cases he), fun hopen _ =>
      (h.formed c).subscribed hopen ?_⟩
    rw [hwait]
    exact fun he => by cases he

theorem Keeps.failed {base : ℕ} {w : World} (h : Keeps own base w) {c : ℕ}
    (hwait : (w.conns c).wait.isSome = true) (hok : w.Detects own (.failed c)) (client : Option ℕ)
    (timer : Bool) :
    Keeps own base { w.setConn c .unused with client := client, timer := timer } := by
  obtain ⟨wait, hwait⟩ := Option.isSome_iff_exists.mp hwait
  refine h.oneConn (c := c) rfl rfl rfl rfl rfl rfl ?_ ?_ id ?_ formed_unused (Nat.le_refl _)
    (h.lt_next (ne_unused_of_wait hwait))
  · exact fun m hm => absurd hm (not_carries_unused m)
  · exact fun m hm _ => hok m hm
  · intro seq hopen
    cases hopen

theorem Keeps.lost {base : ℕ} {w w' : World} (h : Keeps own base w) {c : ℕ}
    (hstep : w.step own (.lost c) = some w') (hok : w.Detects own (.lost c)) :
    Keeps own base w' := by
  rw [step] at hstep
  split at hstep
  · next hopen =>
    have hnot : ∀ m, ¬ Carries { w.conns c with isOpen := false, inflight := none } m :=
      fun m ⟨_, hq, _⟩ => by cases hq
    have hformed : Formed { w.conns c with isOpen := false, inflight := none } :=
      ⟨fun _ => rfl, fun _ => rfl, fun hopen => by cases hopen⟩
    have hlt := h.lt_next (ne_unused_of_open hopen)
    obtain rfl := Option.some.inj hstep
    split
    · refine h.oneConn (c := c) rfl rfl rfl rfl rfl rfl ?_ ?_ (fun _ => rfl) ?_ hformed
        (Nat.le_refl _) hlt
      · exact fun m hm => absurd hm (hnot m)
      · exact fun m hm _ => ⟨(hok m hm).1, rfl⟩
      · intro seq hopen
        cases hopen
    · next hclient =>
      refine h.oneConn (c := c) rfl rfl rfl rfl rfl rfl ?_ ?_ id ?_ hformed (Nat.le_refl _) hlt
      · exact fun m hm => absurd hm (hnot m)
      · exact fun m hm _ => ⟨(hok m hm).1, (hok m hm).2.resolve_left hclient⟩
      · intro seq hopen
        cases hopen
  · cases hstep

/-! ### An event is published -/

theorem Keeps.publish {base : ℕ} {w : World} (h : Keeps own base w) {origin : String}
    {args : InvalidateArgs} (hok : w.Detects own (.publish origin args)) :
    Keeps own base { w with
      seq := w.seq + 1
      published := w.published ++ [⟨w.seq + 1, origin, args⟩]
      conns := fun c => (w.conns c).push (w.published.length, ⟨w.seq + 1, origin, args⟩) } := by
  set e : Event := ⟨w.seq + 1, origin, args⟩ with he
  set w' : World := { w with
    seq := w.seq + 1
    published := w.published ++ [e]
    conns := fun c => (w.conns c).push (w.published.length, e) } with hw'
  have hflight : ∀ c m, w'.InFlight c m ↔ w.InFlight c m ∨
      m = (w.published.length, e) ∧ (w.conns c).inflight ≠ none := by
    intro c m
    simp only [InFlight, hw', Conn.push, Option.map_eq_some_iff]
    constructor
    · rintro ⟨_, ⟨q, hq, rfl⟩, hm⟩
      rcases List.mem_append.mp hm with hm | hm
      · exact .inl ⟨q, hq, hm⟩
      · exact .inr ⟨List.mem_singleton.mp hm, by rw [hq]; exact Option.some_ne_none q⟩
    · rintro (⟨q, hq, hm⟩ | ⟨rfl, hne⟩)
      · exact ⟨_, ⟨q, hq, rfl⟩, List.mem_append_left _ hm⟩
      · obtain ⟨q, hq⟩ := Option.ne_none_iff_exists'.mp hne
        exact ⟨_, ⟨q, hq, rfl⟩, List.mem_append_right _ (List.mem_singleton_self _)⟩
  -- what is owed now was owed before, or is the new event
  have howed : ∀ m, w'.Owed own m → w.Owed own m ∨ m = (w.published.length, e) ∧
      origin ≠ own ∧ w.filledFrom ≠ none := by
    rintro ⟨p, e'⟩ ⟨⟨⟨k, hk, hle⟩, hget, hne⟩, hnot⟩
    rcases Nat.lt_or_ge p w.published.length with hlt | hge
    · rw [List.getElem?_append_left hlt] at hget
      exact .inl ⟨⟨⟨k, hk, hle⟩, hget, hne⟩, hnot⟩
    · obtain ⟨hlt, -⟩ := List.getElem?_eq_some_iff.mp hget
      rw [List.length_append, List.length_singleton] at hlt
      obtain rfl : p = w.published.length := by omega
      rw [List.getElem?_concat_length] at hget
      obtain rfl := Option.some.inj hget
      have hsome : w.filledFrom ≠ none := fun hnone => by
        have hk : w.filledFrom = some k := hk
        rw [hnone] at hk
        cases hk
      exact .inr ⟨rfl, hne, hsome⟩
  refine
    { le := ?_
      numbers := ?_
      owed := ?_
      flight := ?_
      adopted := ?_
      missed := ?_
      reply := ?_
      formed := ?_
      unused := ?_ }
  · have := h.le
    simp only [hw', List.length_append, List.length_singleton]
    omega
  · intro p e' hbase hget
    simp only [hw', List.length_append, List.length_singleton] at hget ⊢
    rcases Nat.lt_or_ge p w.published.length with hlt | hge
    · rw [List.getElem?_append_left hlt] at hget
      have := h.numbers p e' hbase hget
      omega
    · obtain ⟨hlt, -⟩ := List.getElem?_eq_some_iff.mp hget
      rw [List.length_append, List.length_singleton] at hlt
      obtain rfl : p = w.published.length := by omega
      rw [List.getElem?_concat_length] at hget
      obtain rfl := Option.some.inj hget
      simp only [he]
      omega
  · intro m hm
    rcases howed m hm with hm | ⟨rfl, hne, hfill⟩
    · exact h.owed m hm
    · exact ⟨h.le, Nat.succ_le_of_lt (hok hne hfill).1⟩
  · intro c m hm
    rcases (hflight c m).mp hm with hm | ⟨rfl, -⟩
    · obtain ⟨hbase, hget⟩ := h.flight c m hm
      have hlt := (List.getElem?_eq_some_iff.mp hget).1
      refine ⟨hbase, ?_⟩
      simp only [hw']
      rw [List.getElem?_append_left hlt]
      exact hget
    · exact ⟨h.le, List.getElem?_concat_length⟩
  · intro r hr
    obtain ⟨hle, hknown, hbelow⟩ := h.adopted r hr
    refine ⟨Nat.le_succ_of_le hle, hknown, fun m hm => ?_⟩
    rcases howed m hm with hm | ⟨rfl, -, -⟩
    · exact hbelow m hm
    · exact Nat.lt_succ_of_le hle
  · rintro m ⟨hm, hnone⟩
    rcases howed m hm with hm | ⟨rfl, hne, hfill⟩
    · exact h.missed m ⟨hm, fun c hfl => hnone c ((hflight c m).mpr (.inl hfl))⟩
    · rcases (hok hne hfill).2 with ⟨c, q, hq⟩ | ⟨hsub, last, hlast, hle⟩
      · refine absurd ((hflight c _).mpr (.inr ⟨rfl, ?_⟩)) (hnone c)
        rw [hq]
        exact Option.some_ne_none q
      · exact ⟨⟨last, hlast, Nat.lt_succ_of_le hle⟩, hsub⟩
  · intro c seq hopen hwait m hm hnot
    have hnot' : ¬ w.InFlight c m := fun hfl => hnot ((hflight c m).mpr (.inl hfl))
    rcases howed m hm with hm | ⟨rfl, -, -⟩
    · exact h.reply c seq hopen hwait m hm hnot'
    · have hwait : (w.conns c).wait = some (.replying seq) := hwait
      refine absurd ((hflight c _).mpr (.inr ⟨rfl, ?_⟩)) hnot
      refine (h.formed c).subscribed hopen ?_
      rw [hwait]
      exact fun he => by cases he
  · intro c
    have hpush : (w.conns c).inflight = none ↔ (w'.conns c).inflight = none := by
      simp only [hw', Conn.push, Option.map_eq_none_iff]
    exact ⟨fun hclosed => hpush.mp ((h.formed c).closed hclosed),
      fun hwait => hpush.mp ((h.formed c).subscribing hwait),
      fun hopen hwait hnone => (h.formed c).subscribed hopen hwait (hpush.mpr hnone)⟩
  · intro c hc
    simp only [hw', h.unused c hc]
    rfl

/-! ### An event is delivered -/

theorem orders_on {own : String} {seen : ℕ} {m : Message} {r : Replayer} :
    r.orders ⊆ (r.on own seen m).orders := by
  intro o ho
  simp only [Replayer.on]
  split
  · exact ho
  · split <;> split
    · exact List.mem_append_left _ ho
    · exact ho
    · exact List.mem_append_left _ (List.mem_append_left _ ho)
    · exact List.mem_append_left _ ho

theorem on_of_le {own : String} {seen : ℕ} {m : Message} {r : Replayer} {last : ℕ}
    (hlast : r.last = some last) (hle : m.2.seq ≤ last) : r.on own seen m = r := by
  rw [Replayer.on, hlast]
  exact if_pos (decide_eq_true hle)

theorem not_any_le {r : Replayer} {n : ℕ} (h : ∀ last, r.last = some last → last < n) :
    ¬ (r.last.any fun last => decide (n ≤ last)) = true := by
  cases hlast : r.last with
  | none => simp
  | some last =>
      have := h last hlast
      simp only [Option.any_some, decide_eq_true_eq]
      omega

/-- An event above the runtime's number is adopted, and replayed unless it is its own. -/
theorem on_of_lt {own : String} {seen : ℕ} {m : Message} {r : Replayer}
    (h : ∀ last, r.last = some last → last < m.2.seq) :
    (r.on own seen m).last = some m.2.seq ∧
      (m.2.origin ≠ own → Handled (r.on own seen m).orders m.1 m.2) := by
  rw [Replayer.on, if_neg (not_any_le h)]
  refine ⟨rfl, fun hne => .inl ?_⟩
  dsimp only
  rw [if_neg hne]
  exact List.mem_append_right _ (List.mem_singleton_self _)

/-- An event that skips a number clears. -/
theorem on_of_skip {own : String} {seen : ℕ} {m : Message} {r : Replayer} {last : ℕ}
    (hlast : r.last = some last) (hskip : last + 1 < m.2.seq) :
    .clear seen ∈ (r.on own seen m).orders := by
  have hlt : ∀ l, r.last = some l → l < m.2.seq := fun l hl => by
    rw [hlast] at hl
    cases hl
    omega
  rw [Replayer.on, if_neg (not_any_le hlt)]
  have hany : (r.last.any fun last => decide (last + 1 < m.2.seq)) = true := by
    rw [hlast]
    exact decide_eq_true hskip
  dsimp only
  rw [if_pos hany]
  split
  · exact List.mem_append_right _ (List.mem_singleton_self _)
  · exact List.mem_append_left _ (List.mem_append_right _ (List.mem_singleton_self _))

/-- The message that is delivered is dropped where nothing comes of it. -/
theorem Keeps.drop {base : ℕ} {w w' : World} (h : Keeps own base w) {c : ℕ} {m : Message}
    {rest : List Message} (hq : (w.conns c).inflight = some (m :: rest)) (hm : ¬ w.Owed own m)
    (hconns : w'.conns = Function.update w.conns c { w.conns c with inflight := some rest })
    (hseq : w'.seq = w.seq) (hpublished : w'.published = w.published)
    (hfilled : w'.filledFrom = w.filledFrom) (hsubscriber : w'.subscriber = w.subscriber)
    (hnext : w'.next = w.next) : Keeps own base w' := by
  have hopen : w.conns c ≠ .unused := fun he => by
    rw [he] at hq
    cases hq
  refine h.oneConn hconns hseq hpublished hfilled (by rw [hsubscriber]) (by rw [hsubscriber])
    ?_ ?_ (by rw [hsubscriber]; exact id) ?_ ?_ (by rw [hnext])
    (by rw [hnext]; exact h.lt_next hopen)
  · rintro m' ⟨q, hq', hm'⟩
    cases hq'
    exact ⟨_, hq, List.mem_cons_of_mem _ hm'⟩
  · rintro m' ⟨howed, ⟨q, hq', hm'⟩, -⟩ hnot
    rw [hq] at hq'
    cases hq'
    rcases List.mem_cons.mp hm' with rfl | hm'
    · exact absurd howed hm
    · exact absurd ⟨rest, rfl, hm'⟩ hnot
  · intro seq hopen hwait m' howed hnot
    refine h.reply c seq hopen hwait m' howed ?_
    rintro ⟨q, hq', hm'⟩
    rw [hq] at hq'
    cases hq'
    rcases List.mem_cons.mp hm' with rfl | hm'
    · exact hm howed
    · exact hnot ⟨rest, rfl, hm'⟩
  · refine ⟨fun hclosed => ?_, fun hwait => ?_, fun _ _ => Option.some_ne_none _⟩
    · have hnone := (h.formed c).closed hclosed
      rw [hq] at hnone
      cases hnone
    · have hnone := (h.formed c).subscribing hwait
      rw [hq] at hnone
      cases hnone

/-- **An event is adopted.**  It is the first of all that are owed, so nothing that is still owed
has a number that the runtime will ignore. -/
theorem Keeps.adopt {base : ℕ} {w : World} (h : Keeps own base w) {c : ℕ} {m : Message}
    {rest : List Message} (hq : (w.conns c).inflight = some (m :: rest))
    (hok : w.Detects own (.deliver c))
    (hlt : ∀ r, w.subscriber.replayer.last = some r → r < m.2.seq) :
    Keeps own base { w.setConn c { w.conns c with inflight := some rest } with
      subscriber := { w.subscriber with
        last := some (max (w.subscriber.last.getD 0) m.2.seq)
        replayer := w.subscriber.replayer.on own w.published.length m } } := by
  set w' : World := { w.setConn c { w.conns c with inflight := some rest } with
    subscriber := { w.subscriber with
      last := some (max (w.subscriber.last.getD 0) m.2.seq)
      replayer := w.subscriber.replayer.on own w.published.length m } } with hw'
  have hm := h.flight c m ⟨_, hq, List.mem_cons_self ..⟩
  obtain ⟨hadopted, hreplayed⟩ :=
    @on_of_lt own w.published.length m w.subscriber.replayer hlt
  have hconn : w'.conns c = { w.conns c with inflight := some rest } := Function.update_self ..
  have hself : (w'.conns c).inflight = some rest := by rw [hconn]
  have hother : ∀ c' ≠ c, w'.conns c' = w.conns c' := fun c' hc => Function.update_of_ne hc ..
  -- what is owed then was owed before, and has a higher number
  have howed : ∀ m', w'.Owed own m' → w.Owed own m' ∧ m' ≠ m := by
    rintro m' ⟨hcounted, hnot⟩
    refine ⟨⟨hcounted, fun hh => hnot (hh.mono orders_on)⟩, ?_⟩
    rintro rfl
    exact hnot (hreplayed hcounted.2.2)
  have hbelow : ∀ m', w'.Owed own m' → m.2.seq < m'.2.seq := by
    intro m' hm'
    obtain ⟨hwas, hne⟩ := howed m' hm'
    cases hlast : w.subscriber.replayer.last with
    | none => exact hok hlast m rest hq m' hwas hne
    | some r =>
        -- a number that is skipped clears tier 1, and then nothing is owed
        rcases Nat.lt_or_ge (r + 1) m.2.seq with hskip | hnext
        · have hclear := @on_of_skip own w.published.length m _ _ hlast hskip
          exact absurd (.inr ⟨_, hclear, hwas.lt⟩) hm'.2
        · have hr := hlt r hlast
          have hr' := (h.adopted r hlast).2.2 m' hwas
          have hdiff : m'.2.seq ≠ m.2.seq := fun heq =>
            hne (h.place_eq (h.of_owed hwas) hm heq)
          omega
  have hflight : ∀ c' m', w'.InFlight c' m' → w.InFlight c' m' := by
    rintro c' m' ⟨q, hq', hm'⟩
    by_cases hc : c' = c
    · rw [hc, hself] at hq'
      cases hq'
      rw [hc]
      exact ⟨_, hq, List.mem_cons_of_mem _ hm'⟩
    · rw [hother c' hc] at hq'
      exact ⟨q, hq', hm'⟩
  have hflight' : ∀ c' m', w.InFlight c' m' → m' ≠ m → w'.InFlight c' m' := by
    rintro c' m' ⟨q, hq', hm'⟩ hne
    by_cases hc : c' = c
    · rw [hc, hq] at hq'
      cases hq'
      rw [hc]
      exact ⟨rest, hself, (List.mem_cons.mp hm').resolve_left hne⟩
    · exact ⟨q, by rw [hother c' hc]; exact hq', hm'⟩
  have hformed : Formed { w.conns c with inflight := some rest } := by
    refine ⟨fun hclosed => ?_, fun hwait => ?_, fun _ _ => Option.some_ne_none _⟩
    · have hnone := (h.formed c).closed hclosed
      rw [hq] at hnone
      cases hnone
    · have hnone := (h.formed c).subscribing hwait
      rw [hq] at hnone
      cases hnone
  refine
    { le := h.le
      numbers := h.numbers
      owed := fun m' hm' => h.owed m' (howed m' hm').1
      flight := fun c' m' hm' => h.flight c' m' (hflight c' m' hm')
      adopted := ?_
      missed := ?_
      reply := ?_
      formed := ?_
      unused := ?_ }
  · intro r hr
    obtain rfl : m.2.seq = r := Option.some.inj (hadopted.symm.trans hr)
    exact ⟨h.seq_le hm, ⟨_, rfl, le_max_right ..⟩, hbelow⟩
  · rintro m' ⟨hm', hnone⟩
    obtain ⟨hwas, hne⟩ := howed m' hm'
    have hmissed : w.Missed own m' := ⟨hwas, fun c' hfl => hnone c' (hflight' c' m' hfl hne)⟩
    obtain ⟨⟨last, hlast, habove⟩, hsub⟩ := h.missed m' hmissed
    refine ⟨⟨_, rfl, ?_⟩, hsub⟩
    rw [hlast]
    exact max_lt habove (hbelow m' hm')
  · intro c' seq hopen hwait m' hm' hnot
    obtain ⟨hwas, hne⟩ := howed m' hm'
    have hnot' : ¬ w.InFlight c' m' := fun hfl => hnot (hflight' c' m' hfl hne)
    by_cases hc : c' = c
    · rw [hc] at hopen hwait hnot'
      simp only [hw', setConn, Function.update_self] at hopen hwait
      exact h.reply c seq hopen hwait m' hwas hnot'
    · rw [hother c' hc] at hopen hwait
      exact h.reply c' seq hopen hwait m' hwas hnot'
  · intro c'
    by_cases hc : c' = c
    · simp only [hw', setConn, hc, Function.update_self]
      exact hformed
    · rw [hother c' hc]
      exact h.formed c'
  · intro c' hnext
    have hc : c' ≠ c := by
      rintro rfl
      have hunused := h.unused _ hnext
      rw [hunused] at hq
      cases hq
    rw [hother c' hc]
    exact h.unused c' hnext

theorem Keeps.deliver {base : ℕ} {w : World} (h : Keeps own base w) {c : ℕ} {m : Message}
    {rest : List Message} (hq : (w.conns c).inflight = some (m :: rest))
    (hok : w.Detects own (.deliver c)) :
    Keeps own base { w.setConn c { w.conns c with inflight := some rest } with
      subscriber := w.subscriber.listener own w.published.length m } := by
  by_cases hsafe : MAX_SAFE < m.2.seq
  · have hnot : ¬ w.Owed own m := fun howed => absurd (h.owed m howed).2 (Nat.not_le.mpr hsafe)
    exact h.drop hq hnot rfl rfl rfl rfl (by rw [Subscriber.listener, if_pos hsafe]) rfl
  · by_cases hold : ∃ r, w.subscriber.replayer.last = some r ∧ m.2.seq ≤ r
    · obtain ⟨r, hr, hle⟩ := hold
      obtain ⟨-, ⟨last, hlast, hrlast⟩, hbelow⟩ := h.adopted r hr
      have hnot : ¬ w.Owed own m := fun howed => absurd (hbelow m howed) (Nat.not_lt.mpr hle)
      refine h.drop hq hnot rfl rfl rfl rfl ?_ rfl
      have hmax : some (max (w.subscriber.last.getD 0) m.2.seq) = w.subscriber.last := by
        rw [hlast, Option.getD_some, max_eq_left (hle.trans hrlast)]
      simp only [Subscriber.listener, if_neg hsafe, hmax, on_of_le hr hle]
    · have hlt : ∀ r, w.subscriber.replayer.last = some r → r < m.2.seq := fun r hr =>
        Nat.not_le.mp fun hle => hold ⟨r, hr, hle⟩
      rw [Subscriber.listener, if_neg hsafe]
      exact h.adopt hq hok hlt

/-! ### A new subscription is checked -/

/-- Where nothing is missed, the subscription may be in force. -/
theorem Keeps.settle {base : ℕ} {w : World} (h : Keeps own base w) (hnone : ∀ m, ¬ w.Missed own m)
    {last : Option ℕ} (hlast : w.subscriber.replayer.last = none ∨ w.subscriber.last = last) :
    Keeps own base { w with
      subscriber := { w.subscriber with last := last, subscribed := true } } where
  le := h.le
  numbers := h.numbers
  owed := h.owed
  flight := h.flight
  adopted := fun r hr => by
    rcases hlast with hlast | rfl
    · exact absurd (hr.symm.trans hlast) (Option.some_ne_none r)
    · exact h.adopted r hr
  missed := fun m hm => absurd hm (hnone m)
  reply := h.reply
  formed := h.formed
  unused := h.unused

/-- A gap clears: nothing is owed any more. -/
theorem Keeps.gap {base : ℕ} {w : World} (h : Keeps own base w) (last : Option ℕ) :
    Keeps own base { w with
      subscriber := ⟨true, last, w.subscriber.replayer.onGap w.published.length⟩ } := by
  have hnone : ∀ m, ¬ Owed own { w with
      subscriber := ⟨true, last, w.subscriber.replayer.onGap w.published.length⟩ } m :=
    fun m hm => hm.2 (.inr ⟨w.published.length,
      List.mem_append_right _ (List.mem_singleton_self _), hm.lt⟩)
  exact
    { le := h.le
      numbers := h.numbers
      owed := fun m hm => absurd hm (hnone m)
      flight := h.flight
      adopted := fun r hr => by cases hr
      missed := fun m hm => absurd hm.1 (hnone m)
      reply := fun c seq _ _ m hm => absurd hm (hnone m)
      formed := h.formed
      unused := h.unused }

theorem Keeps.checked {base : ℕ} {w : World} (h : Keeps own base w) {c seq : ℕ}
    (hwait : (w.conns c).wait = some (.replying seq)) (hok : w.Detects own (.reply c)) :
    Keeps own base { w.setConn c { w.conns c with wait := none } with
      subscriber := w.subscriber.check w.published.length seq } := by
  set w' : World := w.setConn c { w.conns c with wait := none } with hw'
  have hformed : Formed { w.conns c with wait := none } := by
    refine ⟨(h.formed c).closed, fun he => (by cases he), fun hopen _ =>
      (h.formed c).subscribed hopen ?_⟩
    rw [hwait]
    exact fun he => by cases he
  have h' : Keeps own base w' := by
    refine h.oneConn (c := c) rfl rfl rfl rfl rfl rfl (fun m hm => hm) ?_ id ?_ hformed
      (Nat.le_refl _) (h.lt_next (ne_unused_of_wait hwait))
    · exact fun m hm hnot => absurd hm.2.1 hnot
    · intro seq' _ hnone
      cases hnone
  have hflight : ∀ c' m, w.InFlight c' m → w'.InFlight c' m := by
    intro c' m hfl
    by_cases hc : c' = c
    · rw [hc] at hfl ⊢
      simpa only [InFlight, hw', setConn, Function.update_self] using hfl
    · simpa only [InFlight, hw', setConn, Function.update_of_ne hc] using hfl
  have hmissed : ∀ m, w'.Missed own m → w.Missed own m := fun m hm =>
    ⟨hm.1, fun c' hfl => hm.2 c' (hflight c' m hfl)⟩
  cases hlast : w.subscriber.last with
  | none =>
      have hnone : ∀ m, ¬ w'.Missed own m := fun m hm => by
        obtain ⟨⟨last, hl, -⟩, -⟩ := h.missed m (hmissed m hm)
        rw [hlast] at hl
        cases hl
      have hreplayer : w.subscriber.replayer.last = none := by
        cases hr : w.subscriber.replayer.last with
        | none => rfl
        | some r =>
            obtain ⟨-, ⟨last, hl, -⟩, -⟩ := h.adopted r hr
            rw [hlast] at hl
            cases hl
      simp only [Subscriber.check, hlast]
      exact h'.settle hnone (.inl hreplayer)
  | some last =>
      by_cases hgap : last < seq
      · simp only [Subscriber.check, hlast, if_pos hgap]
        exact h'.gap (some seq)
      · have hnone : ∀ m, ¬ w'.Missed own m := fun m hm => by
          have hm := hmissed m hm
          obtain ⟨⟨l, hl, habove⟩, -⟩ := h.missed m hm
          rw [hlast] at hl
          cases hl
          rcases hok with hopen | hnothing | ⟨l, s, hl, hs, hlt⟩
          · have := h.reply c seq hopen hwait m hm.1 (hm.2 c)
            omega
          · exact hnothing m hm
          · rw [hlast] at hl
            rw [hwait] at hs
            cases hl
            cases hs
            exact hgap hlt
        simp only [Subscriber.check, hlast, if_neg hgap]
        exact h'.settle hnone (.inr hlast)

/-! ### The server restarts -/

theorem isClosed_iff {w : World} :
    w.isClosed = true ↔ ∀ c < w.next, (w.conns c).isOpen = false := by
  simp [isClosed, List.all_eq_true]

theorem Keeps.restart {base : ℕ} {w : World} (h : Keeps own base w) (hclosed : w.isClosed = true)
    (hok : w.Detects own .restart) : ∃ base', Keeps own base' { w with seq := 0 } := by
  rcases hok with hzero | hlast
  · refine ⟨base, ?_⟩
    rw [← hzero]
    exact h
  · have hall : ∀ c, (w.conns c).isOpen = false := fun c => by
      rcases Nat.lt_or_ge c w.next with hlt | hge
      · exact isClosed_iff.mp hclosed c hlt
      · rw [h.unused c hge]
        rfl
    have hempty : ∀ c m, ¬ w.InFlight c m := by
      rintro c m ⟨q, hq, -⟩
      rw [(h.formed c).closed (hall c)] at hq
      cases hq
    -- before a number is known nothing is missed, and nothing is on its way
    have hnone : ∀ m, ¬ w.Owed own m := fun m hm => by
      obtain ⟨⟨last, hl, -⟩, -⟩ := h.missed m ⟨hm, fun c => hempty c m⟩
      rw [hlast] at hl
      cases hl
    refine ⟨w.published.length,
      { le := Nat.le_refl _
        numbers := ?_
        owed := fun m hm => absurd hm (hnone m)
        flight := fun c m hm => absurd hm (hempty c m)
        adopted := ?_
        missed := fun m hm => absurd hm.1 (hnone m)
        reply := fun c seq _ _ m hm => absurd hm (hnone m)
        formed := h.formed
        unused := h.unused }⟩
    · intro p e hp hget
      have hlt := (List.getElem?_eq_some_iff.mp hget).1
      exact absurd hp (Nat.not_le.mpr hlt)
    · intro r hr
      obtain ⟨-, ⟨last, hl, -⟩, -⟩ := h.adopted r hr
      rw [hlast] at hl
      cases hl

/-! ### Every run -/

/-- **One step.** -/
theorem Keeps.step {base : ℕ} {w w' : World} (h : Keeps own base w) {a : Act}
    (hstep : w.step own a = some w') (hok : w.Detects own a) : ∃ base', Keeps own base' w' := by
  cases a with
  | lost c => exact ⟨base, h.lost hstep hok⟩
  | fill =>
      rw [World.step] at hstep
      split at hstep
      · obtain rfl := Option.some.inj hstep
        exact ⟨base, h.fill⟩
      · cases hstep
  | connectFailed =>
      rw [World.step] at hstep
      split at hstep
      · cases hstep
      · obtain rfl := Option.some.inj hstep
        exact ⟨base, h.frame rfl rfl rfl rfl rfl (fun _ _ hm => hm) h.missed h.reply h.formed
          h.unused⟩
  | connected =>
      rw [World.step] at hstep
      split at hstep
      · cases hstep
      · obtain rfl := Option.some.inj hstep
        exact ⟨base, h.connected _⟩
  | subscribe c =>
      rw [World.step] at hstep
      split at hstep
      · next hc =>
        obtain rfl := Option.some.inj hstep
        exact ⟨base, h.subscribe hc.1 hc.2⟩
      · cases hstep
  | read c =>
      rw [World.step] at hstep
      split at hstep
      · next hc =>
        obtain rfl := Option.some.inj hstep
        exact ⟨base, h.read hc⟩
      · cases hstep
  | reply c =>
      rw [World.step] at hstep
      split at hstep
      · next seq hc =>
        obtain rfl := Option.some.inj hstep
        exact ⟨base, h.checked hc hok⟩
      · cases hstep
  | failed c =>
      rw [World.step] at hstep
      split at hstep
      · next hc =>
        obtain rfl := Option.some.inj hstep
        exact ⟨base, h.failed hc hok _ _⟩
      · cases hstep
  | fire =>
      rw [World.step] at hstep
      split at hstep
      · obtain rfl := Option.some.inj hstep
        exact ⟨base, h.frame rfl rfl rfl rfl rfl (fun _ _ hm => hm) h.missed h.reply h.formed
          h.unused⟩
      · cases hstep
  | publish origin args =>
      rw [World.step] at hstep
      obtain rfl := Option.some.inj hstep
      exact ⟨base, h.publish hok⟩
  | deliver c =>
      rw [World.step] at hstep
      split at hstep
      · next m rest hc =>
        obtain rfl := Option.some.inj hstep
        exact ⟨base, h.deliver hc hok⟩
      · cases hstep
  | restart =>
      rw [World.step] at hstep
      split at hstep
      · next hc =>
        obtain rfl := Option.some.inj hstep
        exact h.restart hc hok
      · cases hstep

theorem Keeps.complete {base : ℕ} {w : World} (h : Keeps own base w) : w.Complete own := by
  intro hsub hempty m hm
  by_contra hnot
  have hunsub := (h.missed m ⟨⟨hm, hnot⟩, fun c => hempty c m⟩).2
  rw [hsub] at hunsub
  cases hunsub

/-- The runs of a process that publishes under `own`. -/
def Steps (own : String) (w : World) (a : Act) (w' : World) : Prop := w.step own a = some w'

def Starts (w : World) : Prop := ∃ seq, w = start seq

/-- **The push subscriber is complete** in every run whose steps show what they lose. -/
theorem subscriber_complete {w : World} (h : Reach Starts (Steps own) (Detects own) w) :
    w.Complete own := by
  obtain ⟨base, hkeeps⟩ : ∃ base, Keeps own base w := by
    refine h.inv (P := fun w => ∃ base, Keeps own base w) ?_ ?_
    · rintro w ⟨seq, rfl⟩
      exact ⟨0, start_keeps seq⟩
    · rintro w a w' ⟨base, hkeeps⟩ hstep hok
      exact hkeeps.step hstep hok
  exact hkeeps.complete

def someTag : InvalidateArgs := ⟨none, ["t"], none, none, none⟩

/-- A first subscription, an event of another process, and its delivery. -/
theorem subscriber_complete_delivered : ∃ w,
    (start 0).steps "a" [.connected, .subscribe 0, .read 0, .reply 0, .fill, .publish "b" someTag,
      .deliver 0] = some w ∧ w.Complete "a" := by
  refine ⟨_, rfl, subscriber_complete ?_⟩
  refine .step (a := .deliver 0) (.step (a := .publish "b" someTag) (.step (a := .fill)
    (.step (a := .reply 0) (.step (a := .read 0) (.step (a := .subscribe 0)
      (.step (a := .connected) (.init ⟨0, rfl⟩) rfl trivial) rfl trivial) rfl trivial) rfl
      (.inl rfl)) rfl trivial) rfl fun _ _ => ⟨by decide, .inl ⟨0, [], rfl⟩⟩) rfl ?_
  rintro - m q hq m' ⟨⟨-, hget, -⟩, -⟩ hne
  cases hq
  obtain ⟨hlt, hevent⟩ := List.getElem?_eq_some_iff.mp hget
  obtain ⟨p, e⟩ := m'
  obtain rfl : p = 0 := Nat.lt_one_iff.mp hlt
  exact (hne (Prod.ext rfl hevent.symm)).elim

/-- Actions one after another are a run. -/
theorem reach_steps {acts : List Act} {w w' : World} (h : Reach Starts (Steps own) anyStep w)
    (hsteps : w.steps own acts = some w') : Reach Starts (Steps own) anyStep w' := by
  induction acts generalizing w with
  | nil =>
      obtain rfl := Option.some.inj hsteps
      exact h
  | cons a acts ih =>
      obtain ⟨w₁, hstep, hsteps⟩ := Option.bind_eq_some_iff.mp hsteps
      exact ih (.step h hstep trivial) hsteps

/-- **No gap is seen on the first subscription**, however late it is: the first attempt fails, and
an event is published before the second. -/
theorem first_attempt_fails :
    ¬ ∀ w, Reach Starts (Steps "a") anyStep w → w.Complete "a" := by
  intro h
  obtain ⟨w, hw, hsub, hpublished, hfilled, hconns⟩ : ∃ w,
      (start 0).steps "a" [.connectFailed, .fill, .publish "b" someTag, .fire, .connected,
        .subscribe 0, .read 0, .reply 0] = some w ∧
      w.subscriber = ⟨true, some 1, ⟨none, []⟩⟩ ∧ w.published = [⟨1, "b", someTag⟩] ∧
      w.filledFrom = some 0 ∧ ∀ c q, (w.conns c).inflight = some q → q = [] := by
    refine ⟨_, rfl, rfl, rfl, rfl, fun c q hq => ?_⟩
    rcases c with - | c
    · exact (Option.some.inj hq).symm
    · cases hq
  have hempty : ∀ c m, ¬ w.InFlight c m := by
    rintro c m ⟨q, hq, hm⟩
    rw [hconns c q hq] at hm
    cases hm
  have hcounted : w.Counted "a" (0, ⟨1, "b", someTag⟩) :=
    ⟨⟨0, hfilled, Nat.le_refl 0⟩, by rw [hpublished]; rfl, by decide⟩
  have hhandled := h w (reach_steps (.init ⟨0, rfl⟩) hw) (by rw [hsub]) hempty _ hcounted
  rw [hsub] at hhandled
  rcases hhandled with hreplay | ⟨seen, hclear, -⟩
  · cases hreplay
  · cases hclear

end World

end Brust.Redis.Push
