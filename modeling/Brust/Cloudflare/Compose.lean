import Brust.Cloudflare.Floors
import Brust.Support.Pool

/-!
# Cloudflare — the composed store

`combine`: the KV store, which deletes nothing, judged by floors that one isolate keeps in memory.
The floors are seeded from the epoch object, and raised by what is replayed, published or
invalidated here; the number the isolate knows of goes into the stamps of its pages.

A floor must not sink, and a number must not be taken over while an event below it is unknown here.
Three steps can break that, each of which takes over what the epoch answered some time ago: the seed
clears floors that were raised since, a publish of this isolate takes its number, and events are
taken as all there is after a number that was never reached here.  Runs in which these steps find
nothing they would lose keep both (`never_unhides`); `unhides` is a run of each kind that does not.
-/

namespace Brust.Cloudflare

open Brust.Core Brust.Adapter Brust.Adapter.Cloudflare

/-- The shared promise of `seed`. -/
inductive Seeding where
  | asked
  | answered (f : FloorsPayload)

/-- A call that the epoch has answered. -/
inductive Task where
  | idle
  | published (args : InvalidateArgs) (seq : ℕ)
  | since (fromSeq : ℕ) (r : EpochSince)

/-- The epoch and one isolate.  `stamps` are those its gets returned, and `raises` what it raised
for an `invalidate`, an event or a publish of its own. -/
structure Combined where
  source : Source
  floors : Floors
  gen : Option String
  lastSeq : ℕ
  seeded : Bool
  seeding : Option Seeding
  tasks : ℕ → Task
  stamps : List ℕ
  raises : List (InvalidateArgs × ℕ)

inductive Act where
  -- the epoch object
  | restart (gen : String)
  | foreign (args : InvalidateArgs) (origin : String)
  -- the seed: asked for by a get or a set, answered, applied
  | wait
  | answer
  | seeded
  | seedFailed
  -- the isolate
  | stamp
  | invalidate (args : InvalidateArgs)
  | publish (c : ℕ) (args : InvalidateArgs) (origin : String)
  | published (c : ℕ)
  | since (c fromSeq : ℕ)
  | sinced (c : ℕ)
  | lose (c : ℕ)

namespace Combined

def setTask (s : Combined) (c : ℕ) (t : Task) : Combined :=
  { s with tasks := Function.update s.tasks c t }

/-- `seed()`: one promise for all that await it. -/
def seed (s : Combined) : Combined := { s with seeding := some (s.seeding.getD .asked) }

def raise (s : Combined) (a : InvalidateArgs) (seq : ℕ) : Combined :=
  { s with floors := s.floors.raiseArgs a seq, raises := (a, seq) :: s.raises }

def raiseEvents (s : Combined) (events : List Event) : Combined :=
  events.foldl (fun s e => s.raise e.args e.seq) s

def needsSeed (s : Combined) (r : EpochSince) : Bool :=
  !s.seeded || s.gen != some r.gen || r.behind

/-- What a get makes of a hit with this entry stamp. -/
def judge (s : Combined) (e : Entry) (entryStamp : Option ℕ) : Bool :=
  match entryStamp with
  | none => false
  | some v => !decide (v < s.floors.floorOf e)

/-- The stamp a set stores its page under, if it does. -/
def set (s : Combined) (e : Entry) (metaStamp : Option ℕ) : Option ℕ :=
  let stamp := metaStamp.getD s.lastSeq
  if metaStamp.isSome && decide (stamp < s.floors.floorOf e) then none else some stamp

variable (size : Event → ℕ)

def run (s : Combined) : Act → Combined
  | .restart gen => { s with source := s.source.restart gen }
  | .foreign args origin => { s with source := s.source.publish size args origin }
  | .wait => if s.seeded then s else s.seed
  | .answer =>
    match s.seeding with
    | some .asked => { s with seeding := some (.answered s.source.floors) }
    | _ => s
  | .seeded =>
    match s.seeding with
    | some (.answered f) =>
      { s with
        floors := .seed f
        gen := some f.gen
        lastSeq := max s.lastSeq f.seq
        seeded := true
        seeding := none }
    | _ => s
  | .seedFailed => { s with seeding := none }
  | .stamp => if s.seeded then { s with stamps := s.lastSeq :: s.stamps } else s
  | .invalidate args => s.raise args (s.lastSeq + 1)
  | .publish c args origin =>
    match s.tasks c with
    | .idle =>
      { s with source := s.source.publish size args origin }.setTask c
        (.published args (s.source.ring.seq + 1))
    | _ => s
  | .published c =>
    match s.tasks c with
    | .published args seq =>
      { s.raise args seq with lastSeq := max s.lastSeq seq }.setTask c .idle
    | _ => s
  | .since c fromSeq =>
    match s.tasks c with
    | .idle => s.setTask c (.since fromSeq (s.source.ring.since fromSeq))
    | _ => s
  | .sinced c =>
    match s.tasks c with
    | .since _ r =>
      if s.needsSeed r then s.seed.setTask c .idle
      else
        { s.raiseEvents r.events with lastSeq := max s.lastSeq r.seq }.setTask c .idle
    | _ => s
  | .lose c => s.setTask c .idle

/-- An epoch that published nothing, and an isolate that asked for nothing. -/
def Init (s : Combined) : Prop :=
  ∃ gen capEntries capBytes,
    s = ⟨.init gen capEntries capBytes, .empty, none, 0, false, none, fun _ => .idle, [], []⟩

abbrev Reach (ok : Combined → Act → Prop) : Combined → Prop :=
  Brust.Reach Init (fun s a s' => s' = s.run size a) ok

/-! ### Hidden entries and claimed events -/

/-- What was raised stays raised, so a get serves no entry under a floor that was raised over it;
and a set claims no event whose floors are not raised. -/
structure Hides (s : Combined) : Prop where
  floors : ∀ r ∈ s.raises, Raised s.floors r.1 r.2
  hidden : ∀ r ∈ s.raises, ∀ e stamp,
    Meet (namesOf r.1) (entryNames e.tags e.method e.path e.keyPrefix) →
    s.judge e stamp = true → ∃ v, stamp = some v ∧ r.2 ≤ v
  claims : s.seeded = true → ∀ e stamp v, (∀ w, stamp = some w → w ∈ s.stamps) →
    s.set e stamp = some v → ∀ ev ∈ s.source.published, ev.seq ≤ v → Raised s.floors ev.args ev.seq

end Combined

/-- An answer of `floors` has a floor of the entry at `k`. -/
def FloorsPayload.Holds (f : FloorsPayload) (e : Entry) (k : ℕ) : Prop :=
  k ≤ f.evicted ∨ ∃ o ∈ f.names, o.1 ∈ entryNames e.tags e.method e.path e.keyPrefix ∧ k ≤ o.2

theorem le_floorOf_seed {f : FloorsPayload} {e : Entry} {k : ℕ} (h : f.Holds e k) :
    k ≤ (Floors.seed f).floorOf e := by
  obtain ⟨-, hev, hrow⟩ := foldl_raise f.names ⟨∅, f.evicted⟩
  refine le_floorOf_iff.mpr ?_
  rcases h with h | ⟨o, ho, hname, hle⟩
  · exact .inl (h.trans hev)
  · exact .inr ⟨o.1, hname, hle.trans (hrow o ho)⟩

namespace Combined

/-- Every event numbered from `lo` to `hi` is raised here, but for entries that `more` is about to
raise. -/
def Known (s : Combined) (lo hi : ℕ) (more : List InvalidateArgs) : Prop :=
  ∀ ev ∈ s.source.published, lo < ev.seq → ev.seq ≤ hi → ∀ e : Entry,
    Meet (namesOf ev.args) (entryNames e.tags e.method e.path e.keyPrefix) →
    ev.seq ≤ s.floors.floorOf e ∨
      ∃ a ∈ more, Meet (namesOf a) (entryNames e.tags e.method e.path e.keyPrefix)

/-- What is taken over loses nothing: the seed has every floor of this isolate, and every event that
this isolate claims already; every event before an own publish is known; and so is every event up to
the number that a since asked from. -/
def Sound (s : Combined) : Act → Prop
  | .seeded => ∀ f, s.seeding = some (.answered f) →
      (∀ e, f.Holds e (s.floors.floorOf e)) ∧
      ∀ ev ∈ s.source.published, f.seq < ev.seq → ev.seq ≤ s.lastSeq → ∀ e : Entry,
        Meet (namesOf ev.args) (entryNames e.tags e.method e.path e.keyPrefix) → f.Holds e ev.seq
  | .published c => ∀ args seq, s.tasks c = .published args seq → s.seeded = true →
      s.Known s.lastSeq seq [args]
  | .sinced c => ∀ fromSeq r, s.tasks c = .since fromSeq r → s.needsSeed r = false →
      s.Known s.lastSeq fromSeq (r.events.map (·.args))
  | _ => True

end Combined

/-! ### The source moves on -/

/-- Numbers go up, no `gen` is forgotten, and what is published gets a number of its own. -/
structure Source.Grows (s s' : Source) : Prop where
  seq : s.ring.seq ≤ s'.ring.seq
  gens : s.gens ⊆ s'.gens
  published : ∀ e ∈ s'.published, e ∈ s.published ∨ s.ring.seq < e.seq

variable {size : Event → ℕ}

theorem publish_grows (s : Source) (a : InvalidateArgs) (origin : String) :
    s.Grows (s.publish size a origin) := by
  refine ⟨Nat.le_succ _, List.Subset.refl _, fun e he => ?_⟩
  rcases List.mem_append.mp he with he | he
  · exact .inl he
  · rw [List.mem_singleton.mp he]
    exact .inr (Nat.lt_succ_self _)

theorem restart_grows (s : Source) (gen : String) : s.Grows (s.restart gen) := by
  unfold Source.restart
  split
  · exact ⟨le_rfl, List.Subset.refl _, fun e he => .inl he⟩
  · exact ⟨le_rfl, List.subset_cons_self .., fun e he => .inl he⟩

/-- What `floors` answered: every event up to its number. -/
structure FloorsPayload.Honest (f : FloorsPayload) (s : Source) : Prop where
  seq : f.seq ≤ s.ring.seq
  gen : ∃ start, (f.gen, start) ∈ s.gens ∧ start ≤ f.seq
  raised : ∀ e ∈ s.published, e.seq ≤ f.seq → Raised (.seed f) e.args e.seq

/-- What the epoch answered a call: a number it took, or the events asked for. -/
def Task.Honest (s : Source) : Task → Prop
  | .idle => True
  | .published _ seq => seq ≤ s.ring.seq
  | .since fromSeq r => r.seq ≤ s.ring.seq ∧ (r.behind = false →
      (∀ e ∈ r.events, fromSeq < e.seq) ∧ ∃ start, (r.gen, start) ∈ s.gens ∧
        ∀ e ∈ s.published, start < e.seq → fromSeq < e.seq → e.seq ≤ r.seq → e ∈ r.events)

/-- An answer stays honest: later events have later numbers. -/
theorem FloorsPayload.Honest.grow {f : FloorsPayload} {s s' : Source} (h : f.Honest s)
    (hg : s.Grows s') : f.Honest s' := by
  obtain ⟨start, hgen, hle⟩ := h.gen
  refine ⟨h.seq.trans hg.seq, ⟨start, hg.gens hgen, hle⟩, fun e he hseq => ?_⟩
  rcases hg.published e he with he | hlt
  · exact h.raised e he hseq
  · exact absurd (hseq.trans h.seq) (Nat.not_le.mpr hlt)

theorem Task.Honest.grow {t : Task} {s s' : Source} (h : t.Honest s) (hg : s.Grows s') :
    t.Honest s' := by
  cases t with
  | idle => trivial
  | published a seq => exact le_trans h hg.seq
  | since fromSeq r =>
      refine ⟨h.1.trans hg.seq, fun hb => ?_⟩
      obtain ⟨habove, start, hgen, hall⟩ := h.2 hb
      refine ⟨habove, start, hg.gens hgen, fun e he hstart hfrom hseq => ?_⟩
      rcases hg.published e he with he | hlt
      · exact hall e he hstart hfrom hseq
      · exact absurd (hseq.trans h.1) (Nat.not_le.mpr hlt)

theorem Source.Ok.floors_answer {s : Source} (h : s.Ok size) : s.floors.Honest s := by
  obtain ⟨start, -, -, -, -, -, hgen, -⟩ := h.ring
  exact ⟨le_rfl, ⟨start, hgen, h.gens _ hgen⟩, fun e he _ => h.floors_honest he⟩

theorem Source.Ok.since_answer {s : Source} (h : s.Ok size) (fromSeq : ℕ) :
    (Task.since fromSeq (s.ring.since fromSeq)).Honest s := by
  refine ⟨le_rfl, fun hb => ?_⟩
  obtain ⟨habove, start, hgen, hall⟩ := h.since_honest hb
  exact ⟨habove, start, hgen, fun e he hstart hfrom _ => hall e he hstart hfrom⟩

/-! ### The invariant -/

namespace Combined

/-- The number this isolate knows of is the epoch's, once; its ring was made at or before it; and
every event up to it is raised. -/
structure Inv (size : Event → ℕ) (s : Combined) : Prop where
  source : s.source.Ok size
  seeding : ∀ f, s.seeding = some (.answered f) → f.Honest s.source
  tasks : ∀ c, (s.tasks c).Honest s.source
  lastSeq : s.lastSeq ≤ s.source.ring.seq
  stamps : ∀ v ∈ s.stamps, v ≤ s.lastSeq
  gen : s.seeded = true → ∃ g start, s.gen = some g ∧ (g, start) ∈ s.source.gens ∧ start ≤ s.lastSeq
  raised : ∀ r ∈ s.raises, Raised s.floors r.1 r.2
  claims : s.seeded = true → ∀ ev ∈ s.source.published, ev.seq ≤ s.lastSeq →
    Raised s.floors ev.args ev.seq

variable {s : Combined}

theorem Inv.hides (h : s.Inv size) : s.Hides where
  floors := h.raised
  hidden r hr e stamp hmeet hj := by
    cases stamp with
    | none => cases hj
    | some v =>
        simp only [judge, Bool.not_eq_true', decide_eq_false_iff_not, Nat.not_lt] at hj
        exact ⟨v, rfl, (h.raised r hr e hmeet).trans hj⟩
  claims hseeded e stamp v hstamp hset ev hev hle := by
    refine h.claims hseeded ev hev (hle.trans ?_)
    simp only [set] at hset
    split at hset
    · cases hset
    · cases hset
      cases stamp with
      | none => exact le_rfl
      | some w => exact h.stamps w (hstamp w rfl)

theorem Inv.grow (h : s.Inv size) {source : Source} (hok : source.Ok size)
    (hg : s.source.Grows source) : Inv size { s with source := source } :=
  { source := hok
    seeding := fun f hf => (h.seeding f hf).grow hg
    tasks := fun c => (h.tasks c).grow hg
    lastSeq := h.lastSeq.trans hg.seq
    stamps := h.stamps
    gen := fun hs => by
      obtain ⟨g, start, he, hmem, hle⟩ := h.gen hs
      exact ⟨g, start, he, hg.gens hmem, hle⟩
    raised := h.raised
    claims := fun hs ev hev hle => by
      rcases hg.published ev hev with hev | hlt
      · exact h.claims hs ev hev hle
      · exact absurd (hle.trans h.lastSeq) (Nat.not_le.mpr hlt) }

theorem Inv.setTask (h : s.Inv size) (c : ℕ) {t : Task} (ht : t.Honest s.source) :
    (s.setTask c t).Inv size := by
  refine { h with tasks := fun d => ?_ }
  by_cases hd : d = c
  · subst hd
    simpa only [Combined.setTask, Function.update_self] using ht
  · simpa only [Combined.setTask, Function.update_of_ne hd] using h.tasks d

theorem Inv.raise (h : s.Inv size) (a : InvalidateArgs) (seq : ℕ) : (s.raise a seq).Inv size := by
  have hle := floorOf_le_raiseArgs s.floors a seq
  refine { h with raised := fun r hr => ?_, claims := fun hs ev hev hseq => ?_ }
  · rcases List.mem_cons.mp hr with rfl | hr
    · exact raised_raiseArgs s.floors a seq
    · exact (h.raised r hr).mono hle
  · exact (h.claims hs ev hev hseq).mono hle

theorem Inv.seed (h : s.Inv size) : s.seed.Inv size := by
  refine { h with seeding := fun f hf => h.seeding f ?_ }
  simp only [Combined.seed, Option.some.injEq] at hf
  cases hs : s.seeding with
  | none => rw [hs] at hf; cases hf
  | some p => rw [hs] at hf; exact congrArg some hf

/-- A number is taken over, when every event up to it is raised. -/
theorem Inv.advance (h : s.Inv size) {seq : ℕ} (hle : seq ≤ s.source.ring.seq)
    (hclaims : s.seeded = true → ∀ ev ∈ s.source.published, s.lastSeq < ev.seq → ev.seq ≤ seq →
      Raised s.floors ev.args ev.seq) : Inv size { s with lastSeq := max s.lastSeq seq } := by
  refine { h with
    lastSeq := max_le h.lastSeq hle
    stamps := fun v hv => (h.stamps v hv).trans (le_max_left ..)
    gen := fun hs => ?_
    claims := fun hs ev hev hseq => ?_ }
  · obtain ⟨g, start, he, hmem, hstart⟩ := h.gen hs
    exact ⟨g, start, he, hmem, hstart.trans (le_max_left ..)⟩
  · by_cases hlast : ev.seq ≤ s.lastSeq
    · exact h.claims hs ev hev hlast
    · exact hclaims hs ev hev (Nat.lt_of_not_le hlast)
        ((le_max_iff.mp hseq).resolve_left hlast)

/-- Events raised one after the other: no floor is lower, and each is as high as its event. -/
theorem raiseEvents_frame (events : List Event) (s : Combined) :
    ∃ floors raises, s.raiseEvents events = { s with floors := floors, raises := raises } ∧
      (∀ e, s.floors.floorOf e ≤ floors.floorOf e) ∧
      ∀ ev ∈ events, Raised floors ev.args ev.seq := by
  induction events generalizing s with
  | nil => exact ⟨s.floors, s.raises, rfl, fun e => le_rfl, fun ev h => nomatch h⟩
  | cons ev events ih =>
      obtain ⟨floors, raises, e, hle, hall⟩ := ih (s.raise ev.args ev.seq)
      refine ⟨floors, raises, e, fun e => (floorOf_le_raiseArgs ..).trans (hle e), fun ev' h => ?_⟩
      rcases List.mem_cons.mp h with rfl | h
      · exact (raised_raiseArgs s.floors ev'.args ev'.seq).mono hle
      · exact hall ev' h

theorem Inv.raiseEvents (h : s.Inv size) (events : List Event) :
    (s.raiseEvents events).Inv size := by
  induction events generalizing s with
  | nil => exact h
  | cons ev events ih => exact ih (h.raise ev.args ev.seq)

/-- The seed takes effect, when it loses nothing. -/
theorem Inv.seeded (h : s.Inv size) {f : FloorsPayload} (hf : s.seeding = some (.answered f))
    (hsound : s.Sound .seeded) :
    Inv size { s with
      floors := .seed f
      gen := some f.gen
      lastSeq := max s.lastSeq f.seq
      seeded := true
      seeding := none } := by
  obtain ⟨hfloors, hclaimed⟩ := hsound f hf
  have hhonest := h.seeding f hf
  obtain ⟨start, hgen, hstart⟩ := hhonest.gen
  have hle : ∀ e, s.floors.floorOf e ≤ (Floors.seed f).floorOf e :=
    fun e => le_floorOf_seed (hfloors e)
  refine { h with
    seeding := fun f hf => by cases hf
    lastSeq := max_le h.lastSeq hhonest.seq
    stamps := fun v hv => (h.stamps v hv).trans (le_max_left ..)
    gen := fun _ => ⟨f.gen, start, rfl, hgen, hstart.trans (le_max_right ..)⟩
    raised := fun r hr => (h.raised r hr).mono hle
    claims := fun _ ev hev hseq => ?_ }
  by_cases hf : ev.seq ≤ f.seq
  · exact hhonest.raised ev hev hf
  · exact fun e he => le_floorOf_seed (hclaimed ev hev (Nat.lt_of_not_le hf)
      ((le_max_iff.mp hseq).resolve_right hf) e he)

/-- A publish of this isolate is answered. -/
theorem Inv.published (h : s.Inv size) {c seq : ℕ} {a : InvalidateArgs}
    (hc : s.tasks c = .published a seq) (hsound : s.Sound (.published c)) :
    Inv size { s.raise a seq with lastSeq := max s.lastSeq seq } := by
  have hhonest : seq ≤ s.source.ring.seq := by
    have := h.tasks c
    rwa [hc] at this
  refine (h.raise a seq).advance hhonest fun hs ev hev hlt hle e he => ?_
  rcases hsound a seq hc hs ev hev hlt hle e he with hknown | ⟨a', ha', hmeet⟩
  · exact hknown.trans (floorOf_le_raiseArgs ..)
  · rw [List.mem_singleton.mp ha'] at hmeet
    exact hle.trans (raised_raiseArgs s.floors a seq e hmeet)

/-- The events of an answer are raised. -/
theorem Inv.sinced (h : s.Inv size) {c fromSeq : ℕ} {r : EpochSince}
    (hc : s.tasks c = .since fromSeq r) (hneeds : s.needsSeed r = false)
    (hsound : s.Sound (.sinced c)) :
    Inv size { s.raiseEvents r.events with lastSeq := max s.lastSeq r.seq } := by
  have hknown := hsound fromSeq r hc hneeds
  obtain ⟨hseq, hanswer⟩ : (Task.since fromSeq r).Honest s.source := hc ▸ h.tasks c
  simp only [needsSeed, Bool.or_eq_false_iff, Bool.not_eq_false', bne_eq_false_iff_eq] at hneeds
  obtain ⟨⟨hseeded, hgen⟩, hbehind⟩ := hneeds
  obtain ⟨habove, start, hstart, hall⟩ := hanswer hbehind
  obtain ⟨g, start', hg, hstart', hle'⟩ := h.gen hseeded
  -- the ring that answered is of the generation this isolate was seeded from
  obtain rfl : r.gen = g := Option.some.inj (hgen.symm.trans hg)
  obtain rfl : start = start' :=
    congrArg Prod.snd (List.inj_on_of_nodup_map h.source.distinct hstart hstart' rfl)
  have hinv := h.raiseEvents r.events
  obtain ⟨floors, raises, e, hle, hraised⟩ := raiseEvents_frame r.events s
  rw [e] at hinv ⊢
  refine hinv.advance hseq fun _ ev hev hlt hseq entry hmeet => ?_
  by_cases hfrom : fromSeq < ev.seq
  · exact hraised ev (hall ev hev (hle'.trans_lt hlt) hfrom hseq) entry hmeet
  · rcases hknown ev hev hlt (Nat.le_of_not_lt hfrom) entry hmeet with hk | ⟨a, ha, hmeet'⟩
    · exact hk.trans (hle entry)
    · obtain ⟨ev', hev', rfl⟩ := List.mem_map.mp ha
      exact (Nat.le_of_not_lt hfrom).trans
        ((habove ev' hev').le.trans (hraised ev' hev' entry hmeet'))

theorem Inv.run (h : s.Inv size) {a : Act} (hsound : s.Sound a) : (s.run size a).Inv size := by
  cases a with
  | restart gen => exact h.grow (h.source.restart gen) (restart_grows ..)
  | foreign args origin => exact h.grow (h.source.publish args origin) (publish_grows ..)
  | wait =>
      simp only [Combined.run]
      split
      · exact h
      · exact h.seed
  | answer =>
      simp only [Combined.run]
      split
      · exact { h with seeding := fun f hf => by cases hf; exact h.source.floors_answer }
      · exact h
  | seeded =>
      simp only [Combined.run]
      split
      next f hf => exact h.seeded hf hsound
      · exact h
  | seedFailed => exact { h with seeding := fun f hf => by cases hf }
  | stamp =>
      simp only [Combined.run]
      split
      · refine { h with stamps := fun v hv => ?_ }
        rcases List.mem_cons.mp hv with rfl | hv
        · exact le_rfl
        · exact h.stamps v hv
      · exact h
  | invalidate args => exact h.raise args _
  | publish c args origin =>
      simp only [Combined.run]
      split
      · exact (h.grow (h.source.publish args origin) (publish_grows ..)).setTask c (le_refl _)
      · exact h
  | published c =>
      simp only [Combined.run]
      split
      next args seq hc => exact (h.published hc hsound).setTask c trivial
      · exact h
  | since c fromSeq =>
      simp only [Combined.run]
      split
      · exact h.setTask c (h.source.since_answer fromSeq)
      · exact h
  | sinced c =>
      simp only [Combined.run]
      split
      next fromSeq r hc =>
        split
        · exact h.seed.setTask c trivial
        next hneeds =>
          exact (h.sinced hc (Bool.eq_false_iff.mpr hneeds) hsound).setTask c trivial
      · exact h
  | lose c => exact h.setTask c trivial

/-- **The composed store never un-hides**, in a run that loses nothing when it takes over an answer
of the epoch. -/
theorem never_unhides (r : Combined.Reach size Combined.Sound s) : s.Hides := by
  refine (Brust.Reach.inv (P := Inv size) ?_ ?_ r).hides
  · rintro s ⟨gen, capEntries, capBytes, rfl⟩
    exact
      { source := Source.ok_init gen capEntries capBytes
        seeding := fun f hf => by cases hf
        tasks := fun c => trivial
        lastSeq := le_rfl
        stamps := fun v hv => nomatch hv
        gen := fun hs => by cases hs
        raised := fun r hr => nomatch hr
        claims := fun hs => by cases hs }
  · rintro s a s' h rfl hsound
    exact h.run hsound

/-! ### What is lost -/

def start : Combined :=
  ⟨.init "g" 1024 0, .empty, none, 0, false, none, fun _ => .idle, [], []⟩

theorem reach_start {ok : Combined → Act → Prop} : Combined.Reach size ok start :=
  .init ⟨_, _, _, rfl⟩

theorem Reach.act {ok : Combined → Act → Prop} (r : Combined.Reach size ok s) (a : Act)
    (h : ok s a) : Combined.Reach size ok (s.run size a) := r.step rfl h

theorem floorOf_empty (e : Entry) : Floors.empty.floorOf e = 0 := by
  refine Nat.eq_zero_of_not_pos fun h => ?_
  rcases le_floorOf_iff.mp h with h | ⟨n, -, h⟩
  · cases h
  · simp [Floors.floor, Floors.empty] at h

/-- A first seed loses nothing, when nothing was raised before. -/
theorem sound_seeded (hfloors : s.floors = .empty) (hlast : s.lastSeq = 0) : s.Sound .seeded := by
  refine fun f _ => ⟨fun e => .inl ?_, fun ev _ hlt hle => ?_⟩
  · rw [hfloors, floorOf_empty]
    exact Nat.zero_le _
  · omega

theorem sound_sinced_unseeded (h : s.seeded = false) (c : ℕ) : s.Sound (.sinced c) := by
  intro fromSeq r _ hneeds
  simp [needsSeed, h] at hneeds

def byTag (t : String) : InvalidateArgs := ⟨none, [t], none, none, none⟩

def tagged (t : String) : Entry := ⟨[t], "GET", "/p", ""⟩

/-- The invalidation and the publish of an isolate that was seeded. -/
theorem never_unhides_published : ∃ s, Combined.Reach (fun _ => 0) Combined.Sound s ∧ s.Hides ∧
    s.seeded = true ∧ s.raises = [(byTag "t", 1), (byTag "t", 1)] := by
  have r := @reach_start (fun _ => 0) Combined.Sound
  have r := r.act .wait trivial
  have r := r.act .answer trivial
  have r := r.act .seeded (sound_seeded rfl rfl)
  have r := r.act (.invalidate (byTag "t")) trivial
  have r := r.act (.publish 0 (byTag "t") "a") trivial
  have r := r.act (.published 0) ?_
  · exact ⟨_, r, never_unhides r, rfl, rfl⟩
  · intro args seq hc _ ev hev _ _ e hmeet
    cases hc
    cases List.mem_singleton.mp hev
    exact .inr ⟨byTag "t", List.mem_singleton_self _, hmeet⟩

/-- **None of the three can be left out.**  A seed that was answered before an `invalidate` clears
its floors; a publish claims the event of another isolate that came before it; and a since that
joined a seed asks, the next time, from a number that the seed did not reach. -/
theorem unhides :
    (¬ ∀ s, Combined.Reach (fun _ => 0) (fun s a => a = .seeded ∨ s.Sound a) s → s.Hides) ∧
    (¬ ∀ s, Combined.Reach (fun _ => 0) (fun s a => (∃ c, a = .published c) ∨ s.Sound a) s →
      s.Hides) ∧
    ¬ ∀ s, Combined.Reach (fun _ => 0) (fun s a => (∃ c, a = .sinced c) ∨ s.Sound a) s →
      s.Hides := by
  refine ⟨fun h => ?_, fun h => ?_, fun h => ?_⟩
  · have r := @reach_start (fun _ => 0) (fun s a => a = .seeded ∨ s.Sound a)
    have r := r.act .wait (.inr trivial)
    have r := r.act .answer (.inr trivial)
    have r := r.act (.invalidate (byTag "t")) (.inr trivial)
    have r := r.act .seeded (.inl rfl)
    have hraised := (h _ r).floors (byTag "t", 1) (by decide +kernel) (tagged "t")
      (by decide +kernel)
    exact absurd hraised (by decide +kernel)
  · have r := @reach_start (fun _ => 0) (fun s a => (∃ c, a = .published c) ∨ s.Sound a)
    have r := r.act .wait (.inr trivial)
    have r := r.act .answer (.inr trivial)
    have r := r.act .seeded (.inr (sound_seeded rfl rfl))
    have r := r.act (.foreign (byTag "t") "b") (.inr trivial)
    have r := r.act (.publish 0 (byTag "u") "a") (.inr trivial)
    have r := r.act (.published 0) (.inl ⟨0, rfl⟩)
    have hraised := (h _ r).claims rfl (tagged "t") none 2 (fun _ hw => nomatch hw)
      (by decide +kernel) ⟨1, "b", byTag "t"⟩ (by decide +kernel) (by decide) (tagged "t")
      (by decide +kernel)
    exact absurd hraised (by decide +kernel)
  · have r := @reach_start (fun _ => 0) (fun s a => (∃ c, a = .sinced c) ∨ s.Sound a)
    have r := r.act .wait (.inr trivial)
    have r := r.act .answer (.inr trivial)
    have r := r.act (.foreign (byTag "t") "b") (.inr trivial)
    have r := r.act (.since 0 0) (.inr trivial)
    have r := r.act (.sinced 0) (.inr (sound_sinced_unseeded rfl 0))
    have r := r.act .seeded (.inr (sound_seeded rfl rfl))
    have r := r.act (.foreign (byTag "u") "b") (.inr trivial)
    have r := r.act (.since 0 1) (.inr trivial)
    have r := r.act (.sinced 0) (.inl ⟨0, rfl⟩)
    have hraised := (h _ r).claims rfl (tagged "t") none 2 (fun _ hw => nomatch hw)
      (by decide +kernel) ⟨1, "b", byTag "t"⟩ (by decide +kernel) (by decide) (tagged "t")
      (by decide +kernel)
    exact absurd hraised (by decide +kernel)

end Combined

end Brust.Cloudflare
