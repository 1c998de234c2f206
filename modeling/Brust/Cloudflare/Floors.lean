import Brust.Cloudflare.Object
import Brust.Cloudflare.Ring

/-!
# Cloudflare — floors

The floors an isolate keeps in memory, and the epoch object that it asks for events and for the
floors that object has persisted.

A raise never lowers the floor of an entry, whatever it pushes out (`floorOf_le_raise`).  What the
epoch answers is honest: the floors it answers with hold every event up to their number
(`Source.floors_honest`), and an answer that does not say `behind` has every event above the number
asked for, back to where the ring was made (`Source.since_honest`).
-/

namespace Brust.Cloudflare

open Brust.Core Brust.Adapter Brust.Adapter.Cloudflare

/-! ### The floors of an isolate -/

/-- The `cap` of `new Floors()`. -/
def FLOORS_CAP : ℕ := 4096

/-- `m`, the name raised last first, and the watermark over what was pushed out. -/
structure Floors where
  m : Map String ℕ
  evicted : ℕ

namespace Floors

def empty : Floors := ⟨∅, 0⟩

/-- Push out the names raised longest ago, until `FLOORS_CAP` are left. -/
def evict (f : Floors) : Floors :=
  let old := f.m.entries.drop FLOORS_CAP
  ⟨f.m.restrict fun n => decide (n ∉ old.map (·.1)),
    old.foldl (fun evicted o => max evicted o.2) f.evicted⟩

def raise (f : Floors) (name : String) (seq : ℕ) : Floors :=
  { f with m := f.m.insert name (max ((f.m.lookup name).getD 0) seq) }.evict

def raiseArgs (f : Floors) (a : InvalidateArgs) (seq : ℕ) : Floors :=
  (namesOf a).foldl (fun f n => f.raise n seq) f

/-- The highest floor over an entry's names; a name never seen is only as safe as `evicted`. -/
def floorOf (f : Floors) (e : Entry) : ℕ :=
  (entryNames e.tags e.method e.path e.keyPrefix).foldl
    (fun floor n => max floor ((f.m.lookup n).getD 0)) f.evicted

end Floors

structure FloorsPayload where
  gen : String
  seq : ℕ
  names : List (Sigma fun _ : String => ℕ)
  evicted : ℕ

/-- `seed`: what the floors are made of anew. -/
def Floors.seed (s : FloorsPayload) : Floors :=
  s.names.foldl (fun f o => f.raise o.1 o.2) ⟨∅, s.evicted⟩

/-- The floor of one name. -/
def Floors.floor (f : Floors) (n : String) : ℕ := max f.evicted ((f.m.lookup n).getD 0)

section
variable {f : Floors} {e : Entry} {n n' : String} {seq : ℕ}

theorem le_floorOf_iff {k : ℕ} : k ≤ f.floorOf e ↔
    k ≤ f.evicted ∨ ∃ n ∈ entryNames e.tags e.method e.path e.keyPrefix, k ≤ f.floor n := by
  have hfold : ∀ (l : List String) (b : ℕ),
      k ≤ l.foldl (fun floor n => max floor ((f.m.lookup n).getD 0)) b ↔
        k ≤ b ∨ ∃ n ∈ l, k ≤ (f.m.lookup n).getD 0 := by
    intro l
    induction l with
    | nil => simp
    | cons n l ih =>
        intro b
        rw [List.foldl_cons, ih, le_max_iff]
        simp only [List.mem_cons, exists_eq_or_imp, or_assoc]
  rw [Floors.floorOf, hfold]
  simp only [Floors.floor, le_max_iff]
  constructor
  · rintro (h | ⟨n, hn, h⟩)
    · exact .inl h
    · exact .inr ⟨n, hn, .inr h⟩
  · rintro (h | ⟨n, hn, h | h⟩)
    · exact .inl h
    · exact .inl h
    · exact .inr ⟨n, hn, h⟩

theorem evicted_le_evict (f : Floors) : f.evicted ≤ f.evict.evicted := by
  simpa only [Floors.evict] using (le_foldl_max (f.m.entries.drop FLOORS_CAP) f.evicted).1

/-- Nothing sinks when names are pushed out. -/
theorem floor_le_evict (f : Floors) (n : String) : f.floor n ≤ f.evict.floor n := by
  refine max_le ((evicted_le_evict f).trans (le_max_left ..)) ?_
  cases h : f.m.lookup n with
  | none => exact Nat.zero_le _
  | some q =>
      by_cases hn : n ∈ (f.m.entries.drop FLOORS_CAP).map (·.1)
      · obtain ⟨o, ho, rfl⟩ := List.mem_map.mp hn
        have hq : f.m.lookup o.1 = some o.2 :=
          AList.mem_lookup_iff.mpr (List.mem_of_mem_drop ho)
        rw [hq] at h
        cases h
        exact ((le_foldl_max (f.m.entries.drop FLOORS_CAP) f.evicted).2 o ho).trans (le_max_left ..)
      · refine le_trans ?_ (le_max_right ..)
        simp only [Floors.evict, Map.lookup_restrict, hn, not_false_eq_true,
          decide_true, if_true, h,
          le_refl]

theorem evicted_le_raise : f.evicted ≤ (f.raise n seq).evicted :=
  evicted_le_evict ⟨f.m.insert n (max ((f.m.lookup n).getD 0) seq), f.evicted⟩

theorem floor_le_raise : f.floor n' ≤ (f.raise n seq).floor n' := by
  refine le_trans ?_ (floor_le_evict _ n')
  refine max_le_max le_rfl ?_
  rw [Map.lookup_insert_if]
  split
  next h =>
    rw [h]
    exact le_max_left ..
  next => exact le_rfl

theorem le_floor_raise : seq ≤ (f.raise n seq).floor n := by
  refine le_trans ?_ (floor_le_evict _ n)
  refine le_trans ?_ (le_max_right ..)
  rw [Map.lookup_insert_if, if_pos rfl]
  exact le_max_right ..

/-- **A raise lowers no floor.** -/
theorem floorOf_le_raise : f.floorOf e ≤ (f.raise n seq).floorOf e := by
  rcases le_floorOf_iff.mp (le_refl (f.floorOf e)) with h | ⟨n', hn, h⟩
  · exact le_floorOf_iff.mpr (.inl (h.trans evicted_le_raise))
  · exact le_floorOf_iff.mpr (.inr ⟨n', hn, h.trans floor_le_raise⟩)

/-- The floors after a list of raises: none is lower, and each is as high as it was raised. -/
theorem foldl_raise (l : List (Sigma fun _ : String => ℕ)) (f : Floors) :
    (∀ n, f.floor n ≤ (l.foldl (fun f o => f.raise o.1 o.2) f).floor n) ∧
    (f.evicted ≤ (l.foldl (fun f o => f.raise o.1 o.2) f).evicted) ∧
    ∀ o ∈ l, o.2 ≤ (l.foldl (fun f o => f.raise o.1 o.2) f).floor o.1 := by
  induction l generalizing f with
  | nil => exact ⟨fun n => le_rfl, le_rfl, fun o ho => nomatch ho⟩
  | cons o l ih =>
      obtain ⟨hfloor, hev, hl⟩ := ih (f.raise o.1 o.2)
      refine ⟨fun n => floor_le_raise.trans (hfloor n),
        evicted_le_raise.trans hev, fun o' ho => ?_⟩
      rcases List.mem_cons.mp ho with rfl | ho
      · exact le_floor_raise.trans (hfloor _)
      · exact hl o' ho

end

/-! ### Raised floors -/

/-- The floors hold an invalidation: every entry it has a name of has its floor there. -/
def Raised (f : Floors) (a : InvalidateArgs) (seq : ℕ) : Prop :=
  ∀ e : Entry, Meet (namesOf a) (entryNames e.tags e.method e.path e.keyPrefix) → seq ≤ f.floorOf e

section
variable {f f' : Floors} {a : InvalidateArgs} {seq : ℕ}

theorem raised_of_floor (h : ∀ n ∈ namesOf a, seq ≤ f.floor n) : Raised f a seq :=
  fun _ ⟨n, hn, hne⟩ => le_floorOf_iff.mpr (.inr ⟨n, hne, h n hn⟩)

theorem Raised.mono (h : Raised f a seq) (hle : ∀ e, f.floorOf e ≤ f'.floorOf e) :
    Raised f' a seq := fun e he => (h e he).trans (hle e)

theorem raiseArgs_eq (f : Floors) (a : InvalidateArgs) (seq : ℕ) :
    f.raiseArgs a seq = ((namesOf a).map (Sigma.mk · seq)).foldl (fun f o =>
      f.raise o.1 o.2) f := by
  rw [Floors.raiseArgs, List.foldl_map]

theorem floorOf_le_raiseArgs (f : Floors) (a : InvalidateArgs) (seq : ℕ) (e : Entry) :
    f.floorOf e ≤ (f.raiseArgs a seq).floorOf e := by
  unfold Floors.raiseArgs
  induction namesOf a generalizing f with
  | nil => exact le_rfl
  | cons n l ih => exact floorOf_le_raise.trans (ih (f.raise n seq))

/-- **What was raised is raised.** -/
theorem raised_raiseArgs (f : Floors) (a : InvalidateArgs) (seq : ℕ) :
    Raised (f.raiseArgs a seq) a seq := by
  refine raised_of_floor fun n hn => ?_
  rw [raiseArgs_eq]
  exact (foldl_raise _ f).2.2 ⟨n, seq⟩ (List.mem_map_of_mem hn)

end

/-! ### The epoch object -/

/-- The epoch object: its ring, which a restart makes anew under another `gen`, and its table, which
persists.  Kept beside them: every event it published, and where the ring of each `gen` began. -/
structure Source where
  ring : Ring
  table : Table
  published : List Event
  gens : List (String × ℕ)

namespace Source

variable (size : Event → ℕ)

def publish (s : Source) (a : InvalidateArgs) (origin : String) : Source :=
  { s with
    ring := s.ring.publish size a origin
    table := s.table.bump (namesOf a) (s.ring.seq + 1)
    published := s.published ++ [⟨s.ring.seq + 1, origin, a⟩] }

/-- A restart; every `gen` is new. -/
def restart (s : Source) (gen : String) : Source :=
  if gen ∈ s.gens.map (·.1) then s
  else
    { s with
      ring := .new gen s.ring.seq s.ring.capEntries s.ring.capBytes
      gens := (gen, s.ring.seq) :: s.gens }

/-- `floors`: `SELECT name, seq FROM inval ORDER BY seq DESC LIMIT ?`. -/
def floors (s : Source) : FloorsPayload :=
  ⟨s.ring.gen, s.ring.seq,
    (s.table.rows.entries.mergeSort fun a b => decide (b.2 ≤ a.2)).take INVAL_CAP, s.table.evicted⟩

def init (gen : String) (capEntries capBytes : ℕ) : Source :=
  ⟨.new gen 0 capEntries capBytes, .empty, [], [(gen, 0)]⟩

/-- The ring has the events published since it was made, the table the floors of all. -/
structure Ok (s : Source) : Prop where
  ring : ∃ start lost old recent, s.published = old ++ recent ∧
    s.ring.Retains size start recent lost ∧ (s.ring.gen, start) ∈ s.gens ∧ ∀ e ∈ old, e.seq ≤ start
  published : ∀ e ∈ s.published, e.seq ≤ s.ring.seq ∧ ∀ n ∈ namesOf e.args, e.seq ≤ s.table.floor n
  gens : ∀ g ∈ s.gens, g.2 ≤ s.ring.seq
  distinct : (s.gens.map (·.1)).Nodup

variable {size} {s : Source}

theorem ok_init (gen : String) (capEntries capBytes : ℕ) :
    (init gen capEntries capBytes).Ok size where
  ring := ⟨0, 0, [], [], rfl, .new .., List.mem_singleton_self _, fun _ h => nomatch h⟩
  published := fun _ h => nomatch h
  gens := fun g hg => by rw [List.mem_singleton.mp hg]; exact le_rfl
  distinct := List.nodup_singleton _

theorem Ok.publish (h : s.Ok size) (a : InvalidateArgs) (origin : String) :
    (s.publish size a origin).Ok size := by
  obtain ⟨start, lost, old, recent, hpub, hret, hgen, hold⟩ := h.ring
  obtain ⟨lost', hret', -⟩ := hret.push (e := ⟨s.ring.seq + 1, origin, a⟩)
    (congrArg (· + 1) hret.seq)
  have hseq : (s.publish size a origin).ring.seq = s.ring.seq + 1 := by
    rw [Source.publish, Ring.publish, hret'.seq, hret.seq, List.length_append,
      List.length_singleton]
    rfl
  have hring : (s.publish size a origin).ring.Retains size start
      (recent ++ [(⟨s.ring.seq + 1, origin, a⟩ : Event)]) lost' := hret'
  refine ⟨⟨start, lost', old, _, ?_, hring, hgen, hold⟩, ?_, ?_, h.distinct⟩
  · rw [Source.publish, hpub, List.append_assoc]
  · intro e he
    rw [hseq]
    rcases List.mem_append.mp he with he | he
    · obtain ⟨hle, hfloor⟩ := h.published e he
      exact ⟨Nat.le_succ_of_le hle, fun n hn => (hfloor n hn).trans floor_le_bump⟩
    · rw [List.mem_singleton.mp he]
      exact ⟨le_rfl, fun n hn => le_floor_bump hn⟩
  · intro g hg
    rw [hseq]
    exact Nat.le_succ_of_le (h.gens g hg)

theorem Ok.restart (h : s.Ok size) (gen : String) : (s.restart gen).Ok size := by
  unfold Source.restart
  split
  · exact h
  next hnew =>
    refine ⟨⟨s.ring.seq, 0, s.published, [], (List.append_nil _).symm, .new ..,
      List.mem_cons_self ..,
      fun e he => (h.published e he).1⟩, h.published, fun g hg => ?_, List.nodup_cons.mpr
        ⟨hnew, h.distinct⟩⟩
    rcases List.mem_cons.mp hg with rfl | hg
    · exact le_rfl
    · exact h.gens g hg

/-- **The floors the epoch answers with hold every event.** -/
theorem Ok.floors_honest (h : s.Ok size) {e : Event} (he : e ∈ s.published) :
    Raised (.seed s.floors) e.args e.seq := by
  obtain ⟨-, hev, hrow⟩ := foldl_raise s.floors.names ⟨∅, s.floors.evicted⟩
  refine raised_of_floor fun n hn => ((h.published e he).2 n hn).trans (max_le ?_ ?_)
  · exact hev.trans (le_max_left ..)
  · cases hq : s.table.rows.lookup n with
    | none => exact Nat.zero_le _
    | some q =>
        refine hrow ⟨n, q⟩ ?_
        have hlen : (s.table.rows.entries.mergeSort fun a b => decide (b.2 ≤ a.2)).length ≤
          INVAL_CAP := by
          have := s.table.bounded
          rwa [AList.keys, List.keys, List.length_map, ← List.length_mergeSort] at this
        rw [Source.floors, List.take_of_length_le hlen, List.mem_mergeSort]
        exact AList.mem_lookup_iff.mp hq

/-- **An answer that does not say `behind` has every event asked for**, back to where the ring was
made, and no other. -/
theorem Ok.since_honest (h : s.Ok size) {fromSeq : ℕ} (hb : (s.ring.since fromSeq).behind = false) :
    (∀ e ∈ (s.ring.since fromSeq).events, fromSeq < e.seq) ∧
    ∃ start, (s.ring.gen, start) ∈ s.gens ∧ ∀ e ∈ s.published, start < e.seq → fromSeq < e.seq →
      e ∈ (s.ring.since fromSeq).events := by
  obtain ⟨start, lost, old, recent, hpub, hret, hgen, hold⟩ := h.ring
  obtain ⟨hb, hevents⟩ := Ring.answer_events hb
  simp only [Bool.or_eq_false_iff, decide_eq_false_iff_not, Nat.not_lt] at hb
  obtain ⟨⟨hdropped, -⟩, hnull⟩ := hb
  have hdrop : lost + (fromSeq - (start + lost)) = fromSeq - start := by
    rw [hret.dropped] at hdropped
    split at hdropped <;> omega
  have hall : (s.ring.since fromSeq).events = recent.filter fun e => fromSeq < e.seq := by
    rw [Ring.filter_numbered hret.numbered, ← hdrop]
    exact hevents.trans (hret.events hnull)
  rw [hall]
  refine ⟨fun e he => of_decide_eq_true (List.mem_filter.mp he).2, start, hgen,
    fun e he hstart hfrom => List.mem_filter.mpr ⟨?_, decide_eq_true hfrom⟩⟩
  rw [hpub] at he
  rcases List.mem_append.mp he with he | he
  · exact absurd (hold e he) (Nat.not_le.mpr hstart)
  · exact he

end Source

end Brust.Cloudflare
