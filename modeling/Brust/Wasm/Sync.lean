import Brust.Core.Tier1
import Brust.Support.Pool
import Brust.Wasm.Cursor

/-!
# Wasm — the epoch sync

An isolate polls a broadcast log between requests, which go on filling tier 1.  The log appends
events, by any origin, and may lose its history, which gives it a new generation.  A poll may fail
at any time; an answer is honest (`Log.Answers`), and is applied to tier 1 at once.

After every poll no entry is left that an event published since it was read covers, and the events
after the adopted answer have been replayed in order, once each, or cleared
(`poll_complete`), if first contact comes in time: no other isolate published between the first read
of what tier 1 then holds or is reading and the answer that is adopted (`ContactsInTime`).  The code
takes that for granted.  `poll_adopts_stale` is a first poll that failed.
-/

namespace Brust.Wasm

open Brust.Cache Brust.Core Brust.Adapter

variable {P V : Type}

/-! ### The log -/

structure Log where
  generation : String
  seq : ℕ
  /-- Every event published, with the generation it was published in. -/
  history : List (String × Event)
  /-- The generations so far. -/
  used : List String

namespace Log

def publish (log : Log) (origin : String) (args : InvalidateArgs) : Log :=
  { log with
    seq := log.seq + 1
    history := log.history ++ [(log.generation, ⟨log.seq + 1, origin, args⟩)] }

/-- The events of this generation above a sequence number, in order. -/
def after (log : Log) (fromSeq : ℕ) : List Event :=
  (log.history.filter fun p => p.1 = log.generation && fromSeq < p.2.seq).map (·.2)

/-- An honest answer: the events retained, all of them unless it says `behind`. -/
def Answers (log : Log) (fromSeq : ℕ) (r : SinceResp) : Prop :=
  r.generation = log.generation ∧ r.seq = log.seq ∧ r.events.Sublist (log.after fromSeq) ∧
    (r.behind = false → r.events = log.after fromSeq)

end Log

/-! ### The isolate -/

/-- An entry, and how many events had been published when it was read. -/
structure Held (P V : Type) where
  entry : Entry P V
  pos : ℕ

/-- The poll under way.  `seen` is how many events had been published when it was answered. -/
inductive Poll where
  | idle
  | asked (fromSeq : ℕ)
  | answered (r : SinceResp) (seen : ℕ)

/-- `sync::apply`. -/
def applyPlan (plan : Plan) (l : Tier1 (Held P V)) : Tier1 (Held P V) :=
  match plan with
  | .adopt => l
  | .replay events _ => events.foldl (fun l e => l.l2Replay Held.entry e.2 (some e.1)) l
  | .clear sameGen seq =>
    let l := l.clearLocal Held.entry
    { l with floor := if sameGen then l.floor.clearAt seq else .init }

/-- What a plan orders, when the answer's last event was the `seen`th published. -/
def ordersOf (seen seq : ℕ) : Plan → List Order
  | .adopt => []
  | .replay events _ => events.map fun e => .replay (seen + e.1 - (seq + 1)) e.1 e.2
  | .clear _ _ => [.clear seen]

structure World (P V : Type) where
  log : Log
  cursor : Cursor
  tier1 : Tier1 (Held P V)
  /-- The entries whose content is being read. -/
  reading : Set (Held P V)
  poll : Poll
  /-- What was ordered so far, and how many events had been published at the answer that was
  adopted, and at the last answer. -/
  orders : List Order
  adopted : ℕ
  reached : ℕ

/-- The world after an answer was applied. -/
def World.applied (w : World P V) (r : SinceResp) (seen : ℕ) : World P V :=
  let (cursor, plan) := w.cursor.apply r
  { w with
    cursor := cursor
    tier1 := applyPlan plan w.tier1
    poll := .idle
    orders := w.orders ++ ordersOf seen r.seq plan
    adopted := if w.cursor.generation = none then seen else w.adopted
    reached := seen }

inductive Act where
  | log | request | invalidate | poll | apply
  deriving DecidableEq

variable (own : String)

inductive Step : World P V → Act → World P V → Prop where
  | publish {w : World P V} (origin : String) (args : InvalidateArgs) :
      Step w .log { w with log := w.log.publish origin args }
  /-- The history is lost: a generation never used before, from any sequence number. -/
  | regen {w : World P V} {generation : String} (seq : ℕ) (h : generation ∉ w.log.used) :
      Step w .log { w with log := { w.log with
        generation := generation, seq := seq, used := generation :: w.log.used } }
  | read {w : World P V} (h : Held P V) (hs : h.entry.since = w.tier1.caches.clock)
      (hp : h.pos = w.log.history.length) :
      Step w .request { w with reading := insert h w.reading }
  | land {w : World P V} {h : Held P V} (hr : h ∈ w.reading)
      (fresh : ∀ i seq, (i, seq) ∈ w.tier1.caches.returned → i.covers h.entry →
        seq ≤ h.entry.since) :
      Step w .request { w with tier1.caches.values := insert h w.tier1.caches.values }
  /-- Entries leave, and reads end. -/
  | drop {w : World P V} {values reading : Set (Held P V)} (hv : values ⊆ w.tier1.caches.values)
      (hr : reading ⊆ w.reading) :
      Step w .request { w with tier1.caches.values := values, reading := reading }
  /-- This isolate invalidates. -/
  | invalidate {w : World P V} (args : InvalidateArgs) :
      Step w .invalidate { w with tier1 := w.tier1.invalidate Held.entry args }
  | begin {w : World P V} {cursor : Cursor} {fromSeq : ℕ} (nowMs : ℕ) (hp : w.poll = .idle)
      (h : (w.cursor.learn own).begin nowMs = some (cursor, fromSeq)) :
      Step w .poll { w with cursor := cursor, poll := .asked fromSeq }
  | answer {w : World P V} {fromSeq : ℕ} (r : SinceResp) (hp : w.poll = .asked fromSeq)
      (h : w.log.Answers fromSeq r) :
      Step w .poll { w with poll := .answered r w.log.history.length }
  | fail {w : World P V} (hp : w.poll ≠ .idle) :
      Step w .poll { w with cursor := w.cursor.fail, poll := .idle }
  | apply {w : World P V} {r : SinceResp} {seen : ℕ} (hp : w.poll = .answered r seen)
      (hr : parseSince r = .ok r) : Step w .apply (w.applied r seen)

def Init (w : World P V) : Prop :=
  (∃ generation seq, w.log = ⟨generation, seq, [], [generation]⟩) ∧
  (∃ intervalMs, w.cursor = .new "" intervalMs) ∧ w.tier1 = ⟨.empty, .init⟩ ∧ w.reading = ∅ ∧
  w.poll = .idle ∧ w.orders = [] ∧ w.adopted = 0 ∧ w.reached = 0

/-- A foreign event at a place of the log. -/
def Foreign (w : World P V) (place : ℕ) (g : String) (e : Event) : Prop :=
  w.log.history[place]? = some (g, e) ∧ e.origin ≠ own

/-- **The condition**: from the first read of what tier 1 holds or is reading to the answer that is
adopted, no other isolate published. -/
def ContactsInTime (w : World P V) (a : Act) : Prop :=
  a = .apply → w.cursor.generation = none → ∀ r seen, w.poll = .answered r seen →
    ∀ h, h ∈ w.tier1.caches.values ∨ h ∈ w.reading → ∀ place g e, Foreign own w place g e →
      h.pos ≤ place → seen ≤ place

/-- The last applied answer counts the event. -/
def Counted (w : World P V) (place : ℕ) (g : String) (e : Event) : Prop :=
  place < w.reached ∨ w.cursor.generation = some g ∧ e.seq ≤ w.cursor.seq

/-- What the polls of an isolate leave behind. -/
structure Complete (w : World P V) : Prop where
  /-- No entry is left that a counted event covers that was published after it was read. -/
  fresh : ∀ h ∈ w.tier1.caches.values, ∀ place g e, Foreign own w place g e → Counted w place g e →
    h.pos ≤ place → ¬ e.args.coversEntry h.entry
  /-- Each event counted since the adopted answer was replayed, or a clear was ordered after it. -/
  handled : ∀ place g e, Foreign own w place g e → Counted w place g e → w.adopted ≤ place →
    Handled w.orders place e
  /-- Replays are in order, and none is repeated. -/
  ordered : (w.orders.filterMap Order.place).Pairwise (· < ·)
  /-- What is replayed is an event as it was published, and another isolate's. -/
  replayed : ∀ place seq args, .replay place seq args ∈ w.orders →
    ∃ g e, Foreign own w place g e ∧ e.seq = seq ∧ e.args = args

/-! ### The log, from a mark on -/

/-- A log whose generation is the last one used. -/
structure LogOk (log : Log) : Prop where
  used : log.generation ∈ log.used
  gens : ∀ p ∈ log.history, p.1 ∈ log.used
  seqs : ∀ e, (log.generation, e) ∈ log.history → e.seq ≤ log.seq

/-- When `seen` events had been published, `seq` was the last of the generation: the events of the
generation before are not above it, those since have the numbers that follow, and while the
generation lasts there are no others. -/
structure Mark (log : Log) (generation : String) (seq seen : ℕ) : Prop where
  used : generation ∈ log.used
  le : seen ≤ log.history.length
  before : ∀ place e, log.history[place]? = some (generation, e) → place < seen → e.seq ≤ seq
  since : ∀ place e, log.history[place]? = some (generation, e) → seen ≤ place →
    e.seq + seen = seq + 1 + place
  lasts : generation = log.generation → log.seq + seen = seq + log.history.length ∧
    ∀ place p, log.history[place]? = some p → seen ≤ place → p.1 = generation

theorem getElem?_append_cases {α : Type*} {l : List α} {a b : α} {i : ℕ}
    (h : (l ++ [a])[i]? = some b) : l[i]? = some b ∨ i = l.length ∧ b = a := by
  rcases lt_trichotomy i l.length with hlt | rfl | hgt
  · rw [List.getElem?_append_left hlt] at h
    exact .inl h
  · simp at h
    exact .inr ⟨rfl, h.symm⟩
  · rw [List.getElem?_eq_none (by simp; omega)] at h
    cases h

variable {log : Log}

theorem LogOk.publish (h : LogOk log) (origin : String) (args : InvalidateArgs) :
    LogOk (log.publish origin args) where
  used := h.used
  gens p hp := by
    rcases List.mem_append.mp hp with hp | hp
    · exact h.gens p hp
    · cases List.mem_singleton.mp hp
      exact h.used
  seqs e he := by
    rcases List.mem_append.mp he with he | he
    · exact Nat.le_succ_of_le (h.seqs e he)
    · cases List.mem_singleton.mp he
      exact le_rfl

theorem LogOk.regen (h : LogOk log) {generation : String} (hg : generation ∉ log.used) (seq : ℕ) :
    LogOk { log with generation := generation, seq := seq, used := generation :: log.used } where
  used := List.mem_cons_self ..
  gens p hp := List.mem_cons_of_mem _ (h.gens p hp)
  seqs _ he := absurd (h.gens _ he) hg

theorem LogOk.mark (h : LogOk log) : Mark log log.generation log.seq log.history.length where
  used := h.used
  le := le_rfl
  before _ e he _ := h.seqs e (List.mem_of_getElem? he)
  since _ _ he hle := by
    rw [List.getElem?_eq_none hle] at he
    cases he
  lasts _ := ⟨rfl, fun _ _ he hle => by rw [List.getElem?_eq_none hle] at he; cases he⟩

theorem Mark.publish {g : String} {seq seen : ℕ} (h : Mark log g seq seen) (origin : String)
    (args : InvalidateArgs) : Mark (log.publish origin args) g seq seen where
  used := h.used
  le := h.le.trans (by simp [Log.publish])
  before place e he hlt := by
    rcases getElem?_append_cases he with he | ⟨rfl, -⟩
    · exact h.before place e he hlt
    · exact absurd h.le (Nat.not_le_of_lt hlt)
  since place e he hle := by
    rcases getElem?_append_cases he with he | ⟨rfl, heq⟩
    · exact h.since place e he hle
    · cases heq
      have := (h.lasts rfl).1
      simp only
      omega
  lasts hg := by
    obtain ⟨hseq, hgen⟩ := h.lasts hg
    refine ⟨by simp [Log.publish]; omega, fun place p hp hle => ?_⟩
    rcases getElem?_append_cases hp with hp | ⟨-, rfl⟩
    · exact hgen place p hp hle
    · exact hg.symm

theorem Mark.regen {g : String} {seq seen : ℕ} (h : Mark log g seq seen) {generation : String}
    (hg : generation ∉ log.used) (start : ℕ) :
    Mark { log with generation := generation, seq := start, used := generation :: log.used }
      g seq seen where
  used := List.mem_cons_of_mem _ h.used
  le := h.le
  before := h.before
  since := h.since
  lasts hold := by
    obtain rfl : g = generation := hold
    exact absurd h.used hg

/-! ### The invariant -/

/-- The answer under way, which holds events of the log, against the cursor: if it is of the
cursor's generation, the events between the two are too. -/
structure Answered (w : World P V) (r : SinceResp) (seen : ℕ) : Prop where
  mark : Mark w.log r.generation r.seq seen
  reached_le : w.reached ≤ seen
  events : ∀ e ∈ r.events, ∃ place, w.log.history[place]? = some (r.generation, e) ∧ place < seen
  between : w.cursor.generation = some r.generation → r.seq + w.reached = w.cursor.seq + seen ∧
    ∀ place p, w.log.history[place]? = some p → w.reached ≤ place → place < seen →
      p.1 = r.generation

structure Inv (w : World P V) : Prop where
  log : LogOk w.log
  mark : ∀ g, w.cursor.generation = some g → Mark w.log g w.cursor.seq w.reached
  reached_le : w.reached ≤ w.log.history.length
  first : w.cursor.generation = none → w.reached = 0 ∧ w.orders = []
  origin : w.cursor.origin = own ∨ w.cursor.origin = "" ∧ w.poll = .idle
  answered : ∀ r seen, w.poll = .answered r seen → Answered w r seen
  stamps : ∀ h ∈ w.reading, h.entry.since ≤ w.tier1.caches.clock
  /-- A read that an event overtook will not land. -/
  reading : ∀ h ∈ w.reading, ∀ place g e, Foreign own w place g e → h.pos ≤ place →
    place < w.reached → e.args.coversEntry h.entry →
    ∃ i seq, i.covers h.entry ∧ h.entry.since < seq ∧ (i, seq) ∈ w.tier1.caches.returned
  fresh : ∀ h ∈ w.tier1.caches.values, ∀ place g e, Foreign own w place g e → h.pos ≤ place →
    place < w.reached → ¬ e.args.coversEntry h.entry
  places : ∀ place ∈ w.orders.filterMap Order.place, place < w.reached
  handled : ∀ place g e, Foreign own w place g e → w.adopted ≤ place → place < w.reached →
    Handled w.orders place e
  ordered : (w.orders.filterMap Order.place).Pairwise (· < ·)
  replayed : ∀ place seq args, .replay place seq args ∈ w.orders →
    ∃ g e, Foreign own w place g e ∧ e.seq = seq ∧ e.args = args

section
variable {own} {w w' : World P V}

/-- A log that grows, and keeps the marks. -/
theorem Inv.log_step (hs : Inv own w) {log : Log} (hlog : LogOk log)
    (hmark : ∀ {g seq seen}, Mark w.log g seq seen → Mark log g seq seen)
    (hold : ∀ {place : ℕ} {p : String × Event}, w.log.history[place]? = some p →
      log.history[place]? = some p)
    (hnew : ∀ {place : ℕ} {p : String × Event}, log.history[place]? = some p →
      place < w.log.history.length → w.log.history[place]? = some p) :
        Inv own { w with log := log } := by
  have hle : w.reached ≤ log.history.length := by
    rcases hg : w.cursor.generation with - | g
    · rw [(hs.first hg).1]; exact Nat.zero_le _
    · exact (hmark (hs.mark g hg)).le
  have hforeign : ∀ {place g e}, Foreign own { w with log := log } place g e → place < w.reached →
      Foreign own w place g e :=
    fun h hlt => ⟨hnew h.1 (hlt.trans_le hs.reached_le), h.2⟩
  constructor
  case log => exact hlog
  case mark => exact fun g hg => hmark (hs.mark g hg)
  case reached_le => exact hle
  case first => exact hs.first
  case origin => exact hs.origin
  case stamps => exact hs.stamps
  case places => exact hs.places
  case ordered => exact hs.ordered
  case answered =>
      intro r seen hp
      have ha := hs.answered r seen hp
      refine ⟨hmark ha.mark, ha.reached_le, fun e he => ?_, fun hg => ?_⟩
      · obtain ⟨place, hpl, hlt⟩ := ha.events e he
        exact ⟨place, hold hpl, hlt⟩
      · obtain ⟨hseq, hgen⟩ := ha.between hg
        exact ⟨hseq, fun place p hpl hle hlt =>
          hgen place p (hnew hpl (hlt.trans_le ha.mark.le)) hle hlt⟩
  case reading =>
      intro h hh place g e hf hpos hlt
      exact hs.reading h hh place g e (hforeign hf hlt) hpos hlt
  case fresh =>
      intro h hh place g e hf hpos hlt
      exact hs.fresh h hh place g e (hforeign hf hlt) hpos hlt
  case handled =>
      intro place g e hf ha hlt
      exact hs.handled place g e (hforeign hf hlt) ha hlt
  case replayed =>
      intro place seq args hr
      obtain ⟨g, e, ⟨hpl, ho⟩, he⟩ := hs.replayed place seq args hr
      exact ⟨g, e, ⟨hold hpl, ho⟩, he⟩

/-- What goes on in tier 1 between polls. -/
theorem Inv.tier_step (hs : Inv own w) {tier1 : Tier1 (Held P V)} {reading : Set (Held P V)}
    (hclock : w.tier1.caches.clock ≤ tier1.caches.clock)
    (hret : w.tier1.caches.returned ⊆ tier1.caches.returned)
    (hvalues : ∀ h ∈ tier1.caches.values, h ∈ w.tier1.caches.values ∨ h ∈ w.reading ∧
      ∀ i seq, (i, seq) ∈ w.tier1.caches.returned → i.covers h.entry → seq ≤ h.entry.since)
    (hreading : ∀ h ∈ reading, h ∈ w.reading ∨
      h.entry.since = w.tier1.caches.clock ∧ h.pos = w.log.history.length) :
    Inv own { w with tier1 := tier1, reading := reading } := by
  constructor
  case log => exact hs.log
  case mark => exact hs.mark
  case reached_le => exact hs.reached_le
  case first => exact hs.first
  case origin => exact hs.origin
  case answered =>
      intro r seen hp
      have ha := hs.answered r seen hp
      exact ⟨ha.mark, ha.reached_le, ha.events, ha.between⟩
  case stamps =>
      intro h hh
      rcases hreading h hh with hh | ⟨hsince, -⟩
      · exact (hs.stamps h hh).trans hclock
      · exact hsince.trans_le hclock
  case places => exact hs.places
  case handled => exact hs.handled
  case ordered => exact hs.ordered
  case replayed => exact hs.replayed
  case reading =>
      intro h hh place g e hf hpos hlt hc
      rcases hreading h hh with hh | ⟨-, hnew⟩
      · obtain ⟨i, seq, hi, hlt, hr⟩ := hs.reading h hh place g e hf hpos hlt hc
        exact ⟨i, seq, hi, hlt, hret hr⟩
      · -- nothing published is younger than a read that just began
        exact absurd (hlt.trans_le hs.reached_le) (by omega)
  case fresh =>
      intro h hh place g e hf hpos hlt hc
      rcases hvalues h hh with hh | ⟨hh, hland⟩
      · exact hs.fresh h hh place g e hf hpos hlt hc
      · obtain ⟨i, seq, hi, hsince, hr⟩ := hs.reading h hh place g e hf hpos hlt hc
        exact absurd (hland i seq hr hi) (Nat.not_le_of_lt hsince)

/-- A poll begins, is answered or fails: the cursor stays where it is. -/
theorem Inv.poll_step (hs : Inv own w) {cursor : Cursor} {poll : Poll}
    (hgen : cursor.generation = w.cursor.generation) (hseq : cursor.seq = w.cursor.seq)
    (horigin : cursor.origin = own ∨ cursor.origin = "" ∧ poll = .idle)
    (hans : ∀ r seen, poll = .answered r seen → Answered w r seen) :
    Inv own { w with cursor := cursor, poll := poll } := by
  constructor
  case log => exact hs.log
  case mark => exact fun g hg => hseq ▸ hs.mark g (hgen ▸ hg)
  case reached_le => exact hs.reached_le
  case first => exact fun hg => hs.first (hgen ▸ hg)
  case origin => exact horigin
  case answered =>
      intro r seen hp
      have ha := hans r seen hp
      exact ⟨ha.mark, ha.reached_le, ha.events, fun hg => hseq ▸ ha.between (hgen ▸ hg)⟩
  case stamps => exact hs.stamps
  case reading => exact hs.reading
  case fresh => exact hs.fresh
  case places => exact hs.places
  case handled => exact hs.handled
  case ordered => exact hs.ordered
  case replayed => exact hs.replayed

/-- What an honest answer says of the log is so. -/
theorem Inv.answered_honest (hs : Inv own w) {fromSeq : ℕ} {r : SinceResp}
    (h : w.log.Answers fromSeq r) : Answered w r w.log.history.length := by
  obtain ⟨hgen, hseq, hsub, -⟩ := h
  refine ⟨?_, hs.reached_le, fun e he => ?_, fun hg => ?_⟩
  · rw [hgen, hseq]
    exact hs.log.mark
  · obtain ⟨p, hp, rfl⟩ := List.mem_map.mp (hsub.subset he)
    obtain ⟨hmem, hg⟩ := List.mem_filter.mp hp
    simp only [Bool.and_eq_true, decide_eq_true_eq] at hg
    obtain ⟨place, hlt, hpl⟩ := List.getElem_of_mem hmem
    refine ⟨place, ?_, hlt⟩
    rw [List.getElem?_eq_getElem hlt, hpl, hgen, ← hg.1]
  · obtain ⟨hlast, hsame⟩ := (hs.mark _ hg).lasts hgen
    exact ⟨by omega, fun place p hp hle _ => hsame place p hp hle⟩

/-! ### Applying an answer -/

/-- An event that is replayed is one of the log's, after the cursor, at the place ordered. -/
theorem Inv.replayed_at (hs : Inv own w) {r : SinceResp} {seen : ℕ} (ha : Answered w r seen)
    (hl : w.cursor.lost r = false) {e : Event} (he : e ∈ r.events) :
    ∃ place, w.log.history[place]? = some (r.generation, e) ∧ w.reached ≤ place ∧ place < seen ∧
      place + (r.seq + 1) = seen + e.seq := by
  obtain ⟨hgen, -, -, hcont⟩ := Cursor.lost_eq_false hl
  obtain ⟨i, hi⟩ := List.getElem?_of_mem he
  obtain ⟨place, hpl, hlt⟩ := ha.events e he
  have hm := hs.mark _ hgen
  have hseq := hcont i e hi
  have hle : w.reached ≤ place := by
    by_contra hlt'
    have := hm.before place e hpl (Nat.lt_of_not_le hlt')
    omega
  have hnum := hm.since place e hpl hle
  have hbetween := (ha.between hgen).1
  exact ⟨place, hpl, hle, hlt, by omega⟩

/-- Every event since the last answer is among those of an answer that is replayed. -/
theorem Inv.replayed_of_place (hs : Inv own w) {r : SinceResp} {seen : ℕ} (ha : Answered w r seen)
    (hl : w.cursor.lost r = false) {place : ℕ} {g : String} {e : Event}
    (hpl : w.log.history[place]? = some (g, e)) (hle : w.reached ≤ place) (hlt : place < seen) :
    e ∈ r.events ∧ place + (r.seq + 1) = seen + e.seq := by
  obtain ⟨hgen, hfrom, hlen, hcont⟩ := Cursor.lost_eq_false hl
  obtain ⟨hbetween, hsame⟩ := ha.between hgen
  obtain rfl : g = r.generation := hsame place _ hpl hle hlt
  have hnum := (hs.mark _ hgen).since place e hpl hle
  -- the answer has an event of that number, and it is at that place
  have hi : place - w.reached < r.events.length := by omega
  have hseq := hcont _ _ (List.getElem?_eq_getElem hi)
  obtain ⟨place', hpl', -, -, hat⟩ := hs.replayed_at ha hl (List.getElem_mem hi)
  obtain rfl : place' = place := by omega
  rw [hpl] at hpl'
  have heq : e = r.events[place' - w.reached] := (Prod.mk.inj (Option.some.inj hpl')).2
  exact ⟨heq ▸ List.getElem_mem hi, by omega⟩

/-- What applying an answer has to leave behind. -/
theorem Inv.applied (hs : Inv own w) {r : SinceResp} {seen : ℕ} (ha : Answered w r seen)
    (hclock : w.tier1.caches.clock ≤ (w.applied r seen).tier1.caches.clock)
    (hreading : ∀ h ∈ w.reading, ∀ place g e, Foreign own w place g e → h.pos ≤ place →
      place < seen → e.args.coversEntry h.entry → ∃ i seq, i.covers h.entry ∧
        h.entry.since < seq ∧ (i, seq) ∈ (w.applied r seen).tier1.caches.returned)
    (hfresh : ∀ h ∈ (w.applied r seen).tier1.caches.values, ∀ place g e, Foreign own w place g e →
      h.pos ≤ place → place < seen → ¬ e.args.coversEntry h.entry)
    (hplaces : ∀ place ∈ (w.applied r seen).orders.filterMap Order.place, place < seen)
    (hhandled : ∀ place g e, Foreign own w place g e → (w.applied r seen).adopted ≤ place →
      place < seen → Handled (w.applied r seen).orders place e)
    (hordered : ((w.applied r seen).orders.filterMap Order.place).Pairwise (· < ·))
    (hreplayed : ∀ place seq args, .replay place seq args ∈ (w.applied r seen).orders →
      ∃ g e, Foreign own w place g e ∧ e.seq = seq ∧ e.args = args)
    (hpoll : w.poll ≠ .idle) : Inv own (w.applied r seen) := by
  constructor
  case log => exact hs.log
  case mark =>
      intro g hg
      obtain rfl : r.generation = g := Option.some.inj hg
      exact ha.mark
  case reached_le => exact ha.mark.le
  case first => exact fun hg => by cases hg
  case origin => exact .inl (hs.origin.resolve_right fun h => hpoll h.2)
  case answered => exact fun _ _ hp => by cases hp
  case stamps => exact fun h hh => (hs.stamps h hh).trans hclock
  case reading => exact hreading
  case fresh => exact hfresh
  case places => exact hplaces
  case handled => exact hhandled
  case ordered => exact hordered
  case replayed => exact hreplayed

theorem Inv.adopt (hs : Inv own w) {r : SinceResp} {seen : ℕ} (hp : w.poll = .answered r seen)
    (hg : w.cursor.generation = none) (hplan : (w.cursor.apply r).2 = .adopt)
    (hok : ContactsInTime own w .apply) : Inv own (w.applied r seen) := by
  have htier : (w.applied r seen).tier1 = w.tier1 := by
    simp only [World.applied, hplan, applyPlan]
  have horders : (w.applied r seen).orders = [] := by
    simp only [World.applied, hplan, ordersOf, (hs.first hg).2, List.append_nil]
  have hadopted : (w.applied r seen).adopted = seen := if_pos hg
  refine hs.applied (hs.answered r seen hp) (by rw [htier]) ?_ ?_ ?_ ?_ ?_ ?_ (by rw [hp]; nofun)
  · exact fun h hh place g e hf hpos hlt _ =>
      absurd hlt (Nat.not_lt_of_le (hok rfl hg r seen hp h (.inr hh) place g e hf hpos))
  · rw [htier]
    exact fun h hh place g e hf hpos hlt _ =>
      Nat.not_lt_of_le (hok rfl hg r seen hp h (.inl hh) place g e hf hpos) hlt
  · rw [horders]; nofun
  · rw [hadopted]
    exact fun place g e _ hle hlt => absurd hlt (Nat.not_lt_of_le hle)
  · rw [horders]; exact .nil
  · rw [horders]; nofun

theorem Inv.clear (hs : Inv own w) {r : SinceResp} {seen : ℕ} (hp : w.poll = .answered r seen)
    {sameGen : Bool} (hplan : (w.cursor.apply r).2 = .clear sameGen r.seq) :
    Inv own (w.applied r seen) := by
  have ha := hs.answered r seen hp
  have hcaches : (w.applied r seen).tier1.caches =
      w.tier1.caches.invalidateAll (fun i h => i.covers h.entry) clearCalls := by
    simp only [World.applied, hplan, applyPlan, Tier1.clearLocal]
  have horders : (w.applied r seen).orders = w.orders ++ [.clear seen] := by
    simp only [World.applied, hplan, ordersOf]
  have hplaces : (w.applied r seen).orders.filterMap Order.place =
      w.orders.filterMap Order.place := by
    rw [horders]
    simp [Order.place]
  refine hs.applied ha (hcaches ▸ Tier.clock_le_invalidateAll ..) ?_ ?_ ?_ ?_ ?_ ?_
    (by rw [hp]; nofun)
  · intro h hh _ _ _ _ _ _ _
    obtain ⟨i, hi, hc⟩ := clearCalls_cover h.entry
    obtain ⟨seq, hlt, hr⟩ := Tier.returned_invalidateAll hi
    exact ⟨i, seq, hc, (hs.stamps h hh).trans_lt hlt, hcaches ▸ hr⟩
  · intro h hh
    obtain ⟨i, hi, hc⟩ := clearCalls_cover h.entry
    rw [hcaches] at hh
    exact absurd hc ((Tier.mem_invalidateAll.mp hh).2 i hi)
  · rw [hplaces]
    exact fun place hm => (hs.places place hm).trans_le ha.reached_le
  · rw [horders]
    exact fun place g e _ _ hlt => .inr ⟨seen, List.mem_append_right _ (.head _), hlt⟩
  · rw [hplaces]; exact hs.ordered
  · intro place seq args hr
    rw [horders] at hr
    exact hs.replayed place seq args (by simpa using hr)

theorem Inv.replay (hs : Inv own w) {r : SinceResp} {seen skippedOwn : ℕ}
    (hp : w.poll = .answered r seen) (hl : w.cursor.lost r = false)
    (hplan : (w.cursor.apply r).2 = .replay
      ((r.events.filter fun e => e.origin ≠ w.cursor.origin).map fun e => (e.seq, e.args))
      skippedOwn) : Inv own (w.applied r seen) := by
  have ha := hs.answered r seen hp
  have hpoll : w.poll ≠ .idle := by rw [hp]; nofun
  have horigin := hs.origin.resolve_right fun h => hpoll h.2
  have hgen := (Cursor.lost_eq_false hl).1
  set foreign := r.events.filter fun e => e.origin ≠ w.cursor.origin with hforeign
  have hmem : ∀ {e}, e ∈ foreign ↔ e ∈ r.events ∧ e.origin ≠ own := by
    simp [hforeign, horigin]
  have hcaches : (w.applied r seen).tier1.caches =
      w.tier1.caches.invalidateAll (fun i h => i.covers h.entry)
        (foreign.flatMap fun e => e.args.calls) := by
    simp only [World.applied, hplan, applyPlan, Tier1.caches_l2Replay, List.flatMap_map]
  have horders : (w.applied r seen).orders = w.orders ++
      foreign.map fun e => .replay (seen + e.seq - (r.seq + 1)) e.seq e.args := by
    simp only [World.applied, hplan, ordersOf, List.map_map]
    rfl
  have hplaces : (w.applied r seen).orders.filterMap Order.place = w.orders.filterMap Order.place ++
      foreign.map fun e => seen + e.seq - (r.seq + 1) := by
    rw [horders, List.filterMap_append, List.filterMap_map]
    congr 1
    exact congrFun List.filterMap_eq_map foreign
  have hadopted : (w.applied r seen).adopted = w.adopted := if_neg (by rw [hgen]; nofun)
  refine hs.applied ha (hcaches ▸ Tier.clock_le_invalidateAll ..) ?_ ?_ ?_ ?_ ?_ ?_ hpoll
  · -- what is being read, and is overtaken
    intro h hh place g e hf hpos hlt hc
    rw [hcaches]
    by_cases hold : place < w.reached
    · obtain ⟨i, seq, hi, hsince, hr⟩ := hs.reading h hh place g e hf hpos hold hc
      exact ⟨i, seq, hi, hsince, Tier.returned_subset_invalidateAll _ _ hr⟩
    · obtain ⟨he, -⟩ := hs.replayed_of_place ha hl hf.1 (Nat.le_of_not_lt hold) hlt
      obtain ⟨i, hi, hcov⟩ := hc
      have hi : i ∈ foreign.flatMap fun e => e.args.calls :=
        List.mem_flatMap.mpr ⟨e, hmem.mpr ⟨he, hf.2⟩, hi⟩
      obtain ⟨seq, hsince, hr⟩ := Tier.returned_invalidateAll hi
      exact ⟨i, seq, hcov, (hs.stamps h hh).trans_lt hsince, hr⟩
  · -- what is held
    intro h hh place g e hf hpos hlt hc
    rw [hcaches] at hh
    obtain ⟨hh, hnot⟩ := Tier.mem_invalidateAll.mp hh
    by_cases hold : place < w.reached
    · exact hs.fresh h hh place g e hf hpos hold hc
    · obtain ⟨he, -⟩ := hs.replayed_of_place ha hl hf.1 (Nat.le_of_not_lt hold) hlt
      obtain ⟨i, hi, hcov⟩ := hc
      exact hnot i (List.mem_flatMap.mpr ⟨e, hmem.mpr ⟨he, hf.2⟩, hi⟩) hcov
  · intro place hm
    rw [hplaces, List.mem_append] at hm
    rcases hm with hm | hm
    · exact (hs.places place hm).trans_le ha.reached_le
    · obtain ⟨e, he, rfl⟩ := List.mem_map.mp hm
      obtain ⟨place, -, -, hlt, hat⟩ := hs.replayed_at ha hl (hmem.mp he).1
      omega
  · rw [hadopted, horders]
    intro place g e hf hle hlt
    by_cases hold : place < w.reached
    · exact (hs.handled place g e hf hle hold).mono (List.subset_append_left ..)
    · obtain ⟨he, hat⟩ := hs.replayed_of_place ha hl hf.1 (Nat.le_of_not_lt hold) hlt
      refine .inl (List.mem_append_right _ (List.mem_map.mpr ⟨e, hmem.mpr ⟨he, hf.2⟩, ?_⟩))
      congr 1
      omega
  · rw [hplaces, List.pairwise_append]
    refine ⟨hs.ordered, ?_, ?_⟩
    · have hsorted := (Cursor.sorted_of_lost hl).sublist (List.filter_sublist (p := fun e =>
        e.origin ≠ w.cursor.origin))
      refine List.pairwise_map.mpr (hsorted.imp_of_mem fun he he' hlt => ?_)
      obtain ⟨_, -, -, -, hat⟩ := hs.replayed_at ha hl (hmem.mp he).1
      obtain ⟨_, -, -, -, hat'⟩ := hs.replayed_at ha hl (hmem.mp he').1
      omega
    · intro old hold new hnew
      obtain ⟨e, he, rfl⟩ := List.mem_map.mp hnew
      obtain ⟨place, -, hle, -, hat⟩ := hs.replayed_at ha hl (hmem.mp he).1
      have := hs.places old hold
      omega
  · intro place seq args hr
    rw [horders, List.mem_append] at hr
    rcases hr with hr | hr
    · exact hs.replayed place seq args hr
    · obtain ⟨e, he, heq⟩ := List.mem_map.mp hr
      obtain ⟨he, ho⟩ := hmem.mp he
      obtain ⟨place', hpl, -, -, hat⟩ := hs.replayed_at ha hl he
      cases heq
      obtain rfl : place' = seen + e.seq - (r.seq + 1) := by omega
      exact ⟨_, e, ⟨hpl, ho⟩, rfl, rfl⟩

theorem Inv.init (h : Init w) : Inv own w := by
  obtain ⟨⟨g, seq, hlog⟩, ⟨ms, hcur⟩, htier, hread, hpoll, horders, -, hreached⟩ := h
  constructor
  case log =>
      rw [hlog]
      exact ⟨List.mem_singleton_self _, by nofun, by nofun⟩
  case mark => intro g hg; rw [hcur] at hg; cases hg
  case reached_le => rw [hreached]; exact Nat.zero_le _
  case first => exact fun _ => ⟨hreached, horders⟩
  case origin => exact .inr ⟨by rw [hcur]; rfl, hpoll⟩
  case answered => intro r seen hp; rw [hpoll] at hp; cases hp
  case stamps => intro h hh; rw [hread] at hh; exact hh.elim
  case reading => intro h hh; rw [hread] at hh; exact hh.elim
  case fresh => intro h hh; rw [htier] at hh; exact hh.elim
  case places => rw [horders]; nofun
  case handled =>
    intro place g e _ _ hlt
    rw [hreached] at hlt
    exact absurd hlt (Nat.not_lt_zero _)
  case ordered => rw [horders]; exact .nil
  case replayed => rw [horders]; nofun

theorem Cursor.learn_fields (c : Cursor) (origin : String) :
    (c.learn origin).generation = c.generation ∧ (c.learn origin).seq = c.seq := by
  unfold Cursor.learn
  split <;> exact ⟨rfl, rfl⟩

theorem Cursor.learn_origin {c : Cursor} (h : c.origin = own ∨ c.origin = "") :
    (c.learn own).origin = own := by
  unfold Cursor.learn
  split
  next => rfl
  next hne => exact h.resolve_right hne

theorem Cursor.begin_fields {c c' : Cursor} {nowMs fromSeq : ℕ}
    (h : c.begin nowMs = some (c', fromSeq)) :
    c'.generation = c.generation ∧ c'.seq = c.seq ∧ c'.origin = c.origin := by
  unfold Cursor.begin at h
  split at h
  · cases h; exact ⟨rfl, rfl, rfl⟩
  · cases h

theorem Inv.step (hs : Inv own w) {a : Act} (h : Step own w a w') (hok : ContactsInTime own w a) :
    Inv own w' := by
  cases h with
  | publish origin args =>
      refine hs.log_step (hs.log.publish origin args) (fun hm => hm.publish origin args)
        (fun hp => List.getElem?_append_left (List.getElem?_eq_some_iff.mp hp).1 ▸ hp)
        fun hp hlt => ?_
      exact (List.getElem?_append_left hlt).symm.trans hp
  | regen seq hg =>
      exact hs.log_step (hs.log.regen hg seq) (fun hm => hm.regen hg seq) id fun hp _ => hp
  | read _ hsince hpos =>
      refine hs.tier_step le_rfl subset_rfl (fun h hh => .inl hh) fun h hh => ?_
      rcases Set.mem_insert_iff.mp hh with rfl | hh
      · exact .inr ⟨hsince, hpos⟩
      · exact .inl hh
  | land hr fresh =>
      refine hs.tier_step le_rfl subset_rfl (fun h hh => ?_) fun h hh => .inl hh
      rcases Set.mem_insert_iff.mp hh with rfl | hh
      · exact .inr ⟨hr, fresh⟩
      · exact .inl hh
  | drop hv hr =>
      exact hs.tier_step le_rfl subset_rfl (fun h hh => .inl (hv hh)) fun h hh => .inl (hr hh)
  | invalidate args =>
      exact hs.tier_step (Tier.clock_le_invalidateAll ..) (Tier.returned_subset_invalidateAll ..)
        (fun h hh => .inl (Tier.mem_invalidateAll.mp hh).1) fun h hh => .inl hh
  | begin nowMs hp hb =>
      obtain ⟨hgen, hseq, ho⟩ := Cursor.begin_fields hb
      obtain ⟨hgen', hseq'⟩ := Cursor.learn_fields w.cursor own
      have horigin := Cursor.learn_origin (hs.origin.imp_right And.left)
      exact hs.poll_step (hgen.trans hgen') (hseq.trans hseq') (.inl (ho.trans horigin)) nofun
  | answer r hp ha =>
      refine hs.poll_step rfl rfl (.inl (hs.origin.resolve_right fun h => ?_)) fun r seen e => ?_
      · rw [hp] at h; cases h.2
      · cases e; exact hs.answered_honest ha
  | fail hp =>
      exact hs.poll_step rfl rfl (.inl (hs.origin.resolve_right fun h => hp h.2)) nofun
  | @apply r seen hp hr =>
      rcases w.cursor.apply_cases r with ⟨hg, hplan⟩ | ⟨-, sameGen, hplan⟩ | ⟨hl, skipped, hplan⟩
      · exact hs.adopt hp hg hplan hok
      · exact hs.clear hp hplan
      · exact hs.replay hp hl hplan

/-- A counted event is one of those up to the last applied answer. -/
theorem Inv.counted (hs : Inv own w) {place : ℕ} {g : String} {e : Event}
    (hf : Foreign own w place g e)
    (hc : Counted w place g e) : place < w.reached := by
  rcases hc with hlt | ⟨hg, hseq⟩
  · exact hlt
  · by_contra hle
    have hle := Nat.le_of_not_lt hle
    have := (hs.mark g hg).since place e hf.1 hle
    omega

theorem Inv.complete (hs : Inv own w) : Complete own w where
  fresh h hh place g e hf hc hpos := hs.fresh h hh place g e hf hpos (hs.counted hf hc)
  handled place g e hf hc ha := hs.handled place g e hf ha (hs.counted hf hc)
  ordered := hs.ordered
  replayed := hs.replayed

end

/-- **After every poll tier 1 is clear of the events it counted**, which were replayed in order and
once each, or cleared, and are another isolate's, in every run whose first contact is in time. -/
theorem poll_complete {own : String} {w : World P V}
    (r : Reach Init (Step own) (ContactsInTime own) w) : Complete own w :=
  (Reach.inv (P := Inv own) (fun _ h => .init h) (fun _ a _ hs h hok =>
    hs.step (a := a) h hok) r).complete

/-! ### A first poll -/

def start : World Unit Unit where
  log := ⟨"g", 0, [], ["g"]⟩
  cursor := .new "" 1000
  tier1 := ⟨.empty, .init⟩
  reading := ∅
  poll := .idle
  orders := []
  adopted := 0
  reached := 0

theorem start_init : Init start :=
  ⟨⟨_, _, rfl⟩, ⟨_, rfl⟩, rfl, rfl, rfl, rfl, rfl, rfl⟩

def tagArgs : InvalidateArgs := ⟨none, ["t"], none, none, none⟩

/-- A page with the tag, read before anything was published. -/
def taggedPage : Held Unit Unit := ⟨.page ⟨⟨"", "GET", "/p", ""⟩, (), 60, ["t"], 0⟩, 0⟩

theorem tagArgs_cover : tagArgs.coversEntry taggedPage.entry :=
  ⟨.page (.invalidateTags ["t"] none), by decide, ⟨"t", by decide, by decide⟩, nofun⟩

def tagEvent : Event := ⟨1, "other", tagArgs⟩

/-- An isolate that was in touch when the page was read. -/
theorem poll_complete_replayed : ∃ w : World Unit Unit,
    Reach Init (Step "me") (ContactsInTime "me") w ∧ w.orders = [.replay 0 1 tagArgs] ∧
      Complete "me" w := by
  have r : Reach Init (Step "me") (ContactsInTime "me") start := .init start_init
  have r := r.step (.begin 0 rfl rfl) nofun
  have r := r.step (.answer ⟨"g", 0, false, []⟩ rfl ⟨rfl, rfl, .slnil, fun _ => rfl⟩) nofun
  have r := r.step (.apply rfl rfl) fun _ _ _ _ _ h hh => hh.elim False.elim False.elim
  have r := r.step (.read taggedPage rfl rfl) nofun
  have r := r.step (.land (Set.mem_insert _ _) nofun) nofun
  have r := r.step (.publish "other" tagArgs) nofun
  have r := r.step (.begin 1000 rfl rfl) nofun
  have r := r.step (.answer ⟨"g", 1, false, [tagEvent]⟩ rfl ⟨rfl, rfl, .refl _, fun _ => rfl⟩) nofun
  have r := r.step (.apply rfl rfl) fun _ h => by cases h
  exact ⟨_, r, rfl, poll_complete r⟩

/-- A first poll that fails: the request goes on and fills tier 1, and the next poll adopts an
answer that counts an event that covers the page. -/
theorem poll_adopts_stale : ¬ ∀ w : World Unit Unit, Reach Init (Step "me") anyStep w →
    Complete "me" w := by
  intro h
  have r : Reach Init (Step "me") anyStep start := .init start_init
  have r := r.step (.begin 0 rfl rfl) trivial
  have r := r.step (.fail nofun) trivial
  have r := r.step (.read taggedPage rfl rfl) trivial
  have r := r.step (.land (Set.mem_insert _ _) nofun) trivial
  have r := r.step (.publish "other" tagArgs) trivial
  have r := r.step (.begin 1000 rfl rfl) trivial
  have r := r.step (.answer ⟨"g", 1, false, [tagEvent]⟩ rfl ⟨rfl, rfl, .refl _, fun _ =>
    rfl⟩) trivial
  have r := r.step (.apply rfl rfl) trivial
  exact (h _ r).fresh taggedPage (Set.mem_insert _ _) 0 "g" tagEvent ⟨rfl, by decide⟩
    (.inl Nat.zero_lt_one) le_rfl tagArgs_cover

end Brust.Wasm
