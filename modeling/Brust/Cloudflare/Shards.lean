import Brust.Cloudflare.Object
import Brust.Support.Pool
import Mathlib.Data.Fintype.Basic

/-!
# Cloudflare — the sharded store

The Durable Object adapter with `store: true`: one epoch object counts the invalidations, sixteen
shards hold the pages, and any number of isolates call them, each with the last sequence number it
saw.  `invalidate` reads the epoch's head and marks every shard at the number after it; `publish`
takes a number, and marks every shard again if it is another one.  A get takes for its stamp what
its isolate saw last, however long ago.

A stamp is never ahead of the epoch, and a shard that was marked is fenced, so once both have
resolved no page the invalidation covers is served with a stamp that was taken before
(`get_fresh_sharded`).
-/

namespace Brust.Cloudflare

open Brust.Core Brust.Adapter Brust.Adapter.Cloudflare

abbrev SHARDS : ℕ := 16

/-- `Number.parseInt(c, 16)` of one character. -/
def parseHex (c : Char) : Option ℕ :=
  if c.isDigit then some (c.toNat - 0x30)
  else if 'a' ≤ c ∧ c ≤ 'f' then some (c.toNat - 0x57)
  else if 'A' ≤ c ∧ c ≤ 'F' then some (c.toNat - 0x37)
  else none

/-- The shard of a key: its last hex digit, or else a hash of it. -/
def shardIndex (key : String) : Fin SHARDS :=
  match key.toList.getLast?.bind parseHex with
  | some n => Fin.ofNat 16 n
  | none =>
    Fin.ofNat 16
      ((codeUnits key).foldl (fun h c => (h ^^^ c) * 0x01000193 % 2 ^ 32) 0x811c9dc5)

structure Epoch where
  seq : ℕ
  table : Table

def Epoch.publish (e : Epoch) (a : InvalidateArgs) : Epoch :=
  ⟨e.seq + 1, e.table.bump (namesOf a) (e.seq + 1)⟩

/-! ### Calls -/

/-- An invalidation as an isolate issues it: `pending` knows it by its args object. -/
structure Call where
  args : InvalidateArgs
  object : ℕ
  isolate : ℕ

/-- The shards told of `mark` that have yet to answer, and whether no call to one was rejected. -/
structure Fanout where
  mark : ℕ
  rest : Finset (Fin SHARDS)
  ok : Bool

def fanout (mark : ℕ) : Fanout := ⟨mark, Finset.univ, true⟩

inductive Inval where
  | idle
  | headed (head : ℕ)
  | marking (f : Fanout)
  | settled (mark : ℕ) (ok : Bool)
  | failed

/-- `resolved` says whether the shards were marked again, and if they were, whether no call to one
was rejected. -/
inductive Publish where
  | idle
  | retrying
  | published (seq : ℕ)
  | marking (f : Fanout)
  | resolved (seq : ℕ) (remarked : Option Bool)
  | failed

structure Cluster (B : Type) where
  epoch : Epoch
  shards : Fin SHARDS → Shard B
  /-- The sequence numbers the epoch answered with. -/
  answers : List ℕ
  lastSeq : ℕ → Option ℕ
  stamps : List Stamp
  pending : ℕ → Option ℕ
  invals : ℕ → Inval
  publishes : ℕ → Publish

variable {B : Type}

namespace Cluster

/-- `seen`. -/
def see (s : Cluster B) (isolate v : ℕ) : Cluster B :=
  { s with
    lastSeq := Function.update s.lastSeq isolate (some (max ((s.lastSeq isolate).getD 0) v)) }

/-- `pending.set`. -/
def remember (s : Cluster B) (object seq : ℕ) : Cluster B :=
  { s with pending := Function.update s.pending object (some seq) }

def call (s : Cluster B) (i : Fin SHARDS) (r : Rpc B) : Cluster B :=
  { s with shards := Function.update s.shards i ((s.shards i).run r) }

def setInval (s : Cluster B) (c : ℕ) (i : Inval) : Cluster B :=
  { s with invals := Function.update s.invals c i }

def setPublish (s : Cluster B) (c : ℕ) (p : Publish) : Cluster B :=
  { s with publishes := Function.update s.publishes c p }

end Cluster

/-- One call of a fan-out: it is answered, or it is rejected, whether or not the shard ran it. -/
inductive Fanout.Turn (a : InvalidateArgs) :
    Cluster B → Fanout → Cluster B → Fanout → Prop where
  | answered {s : Cluster B} {f : Fanout} {i : Fin SHARDS} (h : i ∈ f.rest) :
      Turn a s f (s.call i (.invalidate a f.mark)) { f with rest := f.rest.erase i }
  | lost {s : Cluster B} {f : Fanout} {i : Fin SHARDS} (h : i ∈ f.rest) :
      Turn a s f (s.call i (.invalidate a f.mark)) ⟨f.mark, f.rest.erase i, false⟩
  | rejected {s : Cluster B} {f : Fanout} {i : Fin SHARDS} (h : i ∈ f.rest) :
      Turn a s f s ⟨f.mark, f.rest.erase i, false⟩

/-- What an isolate does. -/
inductive Cluster.Step (calls : ℕ → Call) : Cluster B → Unit → Cluster B → Prop where
  -- `head`, `since` and `floors` answer with the epoch's number; an answer arrives any time later
  | answer {s : Cluster B} : Step calls s () { s with answers := s.epoch.seq :: s.answers }
  | seen {s : Cluster B} (isolate : ℕ) {v : ℕ} (h : v ∈ s.answers) :
    Step calls s () (s.see isolate v)
  -- get and set
  | stamp {s : Cluster B} (isolate : ℕ) {v : ℕ} (h : s.lastSeq isolate = some v) :
      Step calls s () { s with stamps := ⟨v, s.epoch.seq⟩ :: s.stamps }
  | get {s : Cluster B} (key : String) (now : ℕ) :
      Step calls s () (s.call (shardIndex key) (.get key now))
  | set {s : Cluster B} (key : String) (page : Page B)
      (h : ∀ stamp, page.stamp = some stamp → stamp ∈ s.stamps) :
      Step calls s () (s.call (shardIndex key) (.set key page))
  | alarm {s : Cluster B} (i : Fin SHARDS) (now : ℕ) : Step calls s () (s.call i (.alarm now))
  -- invalidate
  | head {s : Cluster B} {c : ℕ} (h : s.invals c = .idle) :
      Step calls s () (s.setInval c (.headed s.epoch.seq))
  | headFailed {s : Cluster B} {c : ℕ} (h : s.invals c = .idle) :
      Step calls s () (s.setInval c .failed)
  | mark {s : Cluster B} {c head : ℕ} (h : s.invals c = .headed head) :
      Step calls s ()
        (((s.see (calls c).isolate head).remember (calls c).object (head + 1)).setInval c
          (.marking (fanout (head + 1))))
  | marks {s s' : Cluster B} {c : ℕ} {f f' : Fanout} (h : s.invals c = .marking f)
      (turn : f.Turn (calls c).args s s' f') : Step calls s () (s'.setInval c (.marking f'))
  | settle {s : Cluster B} {c mark : ℕ} {ok : Bool} (h : s.invals c = .marking ⟨mark, ∅, ok⟩) :
      Step calls s () (s.setInval c (.settled mark ok))
  -- publish, once more if the first fails
  | publish {s : Cluster B} {c : ℕ} (h : s.publishes c = .idle ∨ s.publishes c = .retrying) :
      Step calls s ()
        ({ s with epoch := s.epoch.publish (calls c).args }.setPublish c
          (.published (s.epoch.seq + 1)))
  | publishLost {s : Cluster B} {c : ℕ} (h : s.publishes c = .idle ∨ s.publishes c = .retrying) :
      Step calls s ()
        ({ s with epoch := s.epoch.publish (calls c).args }.setPublish c
          (match s.publishes c with | .idle => .retrying | _ => .failed))
  | publishFailed {s : Cluster B} {c : ℕ} (h : s.publishes c = .idle ∨ s.publishes c = .retrying) :
      Step calls s ()
        (s.setPublish c (match s.publishes c with | .idle => .retrying | _ => .failed))
  | skip {s : Cluster B} {c seq : ℕ} (h : s.publishes c = .published seq)
      (hpending : s.pending (calls c).object = some seq) :
      Step calls s () ((s.see (calls c).isolate seq).setPublish c (.resolved seq none))
  | remark {s : Cluster B} {c seq : ℕ} (h : s.publishes c = .published seq)
      (hpending : s.pending (calls c).object ≠ some seq) :
      Step calls s () ((s.see (calls c).isolate seq).setPublish c (.marking (fanout seq)))
  | remarks {s s' : Cluster B} {c : ℕ} {f f' : Fanout} (h : s.publishes c = .marking f)
      (turn : f.Turn (calls c).args s s' f') : Step calls s () (s'.setPublish c (.marking f'))
  | resolve {s : Cluster B} {c mark : ℕ} {ok : Bool} (h : s.publishes c = .marking ⟨mark, ∅, ok⟩) :
      Step calls s () (s.setPublish c (.resolved mark (some ok)))

/-- An epoch and shards that were never called. -/
def Cluster.Init (s : Cluster B) : Prop :=
  s = ⟨⟨0, .empty⟩, fun _ => .empty, [], fun _ => none, [], fun _ => none, fun _ => .idle,
    fun _ => .idle⟩

abbrev Cluster.Reach (calls : ℕ → Call) : Cluster B → Prop :=
  Brust.Reach Cluster.Init (Cluster.Step calls) anyStep

/-! ### What a step does to the shards -/

section
variable {calls : ℕ → Call} {s s' : Cluster B}

/-- A shard is left alone, or runs a call; a page is set under a stamp that was taken. -/
def Evolves (stamps : List Stamp) (shard shard' : Shard B) : Prop :=
  shard' = shard ∨ ∃ r, shard' = shard.run r ∧ ∀ key page, r = .set key page →
    ∀ stamp, page.stamp = some stamp → stamp ∈ stamps

theorem evolves_call {i : Fin SHARDS} {r : Rpc B} (h : ∀ key page, r = .set key page →
    ∀ stamp, page.stamp = some stamp → stamp ∈ s.stamps) (j : Fin SHARDS) :
    Evolves s.stamps (s.shards j) ((s.call i r).shards j) := by
  by_cases hj : j = i
  · subst hj
    exact .inr ⟨r, by simp [Cluster.call], h⟩
  · exact .inl (by simp [Cluster.call, hj])

/-- A call of a fan-out touches the shards only, and keeps the mark. -/
theorem Fanout.Turn.effect {a : InvalidateArgs} {f f' : Fanout} (h : f.Turn a s s' f') :
    s' = { s with shards := s'.shards } ∧ f'.mark = f.mark ∧
      ∀ j, Evolves s.stamps (s.shards j) (s'.shards j) := by
  cases h with
  | answered => exact ⟨rfl, rfl, evolves_call fun _ _ e => by cases e⟩
  | lost => exact ⟨rfl, rfl, evolves_call fun _ _ e => by cases e⟩
  | rejected => exact ⟨rfl, rfl, fun j => .inl rfl⟩

theorem Cluster.Step.shards (h : Step calls s () s') (j : Fin SHARDS) :
    Evolves s.stamps (s.shards j) (s'.shards j) := by
  cases h with
  | get key now => exact evolves_call (fun _ _ e => by cases e) j
  | set key page h => exact evolves_call (fun _ _ e => by cases e; exact h) j
  | alarm i now => exact evolves_call (fun _ _ e => by cases e) j
  | marks h turn => exact turn.effect.2.2 j
  | remarks h turn => exact turn.effect.2.2 j
  | _ => exact .inl rfl

/-! ### Stamps -/

/-- No number is ahead of the epoch, and no stamp is ahead of when it was taken. -/
structure Clocked (s : Cluster B) : Prop where
  answers : ∀ v ∈ s.answers, v ≤ s.epoch.seq
  lastSeq : ∀ i v, s.lastSeq i = some v → v ≤ s.epoch.seq
  headed : ∀ c head, s.invals c = .headed head → head ≤ s.epoch.seq
  published : ∀ c seq, s.publishes c = .published seq → seq ≤ s.epoch.seq
  stamps : ∀ stamp ∈ s.stamps, stamp.value ≤ stamp.takenAt
  pages : ∀ i k p, (s.shards i).pages.lookup k = some p → ∀ stamp, p.stamp = some stamp →
    stamp.value ≤ stamp.takenAt

theorem Clocked.see (h : Clocked s) (isolate : ℕ) {v : ℕ} (hv : v ≤ s.epoch.seq) :
    Clocked (s.see isolate v) := by
  refine { h with lastSeq := fun i w hw => ?_ }
  by_cases hi : i = isolate
  · subst hi
    simp only [Cluster.see, Function.update_self, Option.some.injEq] at hw
    subst hw
    refine max_le ?_ hv
    cases hl : s.lastSeq i with
    | none => exact Nat.zero_le _
    | some u => exact h.lastSeq i u hl
  · simp only [Cluster.see, Function.update_of_ne hi] at hw
    exact h.lastSeq i w hw

theorem Clocked.setInval (h : Clocked s) (c : ℕ) {i : Inval}
    (hi : ∀ head, i = .headed head → head ≤ s.epoch.seq) : Clocked (s.setInval c i) := by
  refine { h with headed := fun d head hd => ?_ }
  by_cases hc : d = c
  · subst hc
    simp only [Cluster.setInval, Function.update_self] at hd
    exact hi head hd
  · simp only [Cluster.setInval, Function.update_of_ne hc] at hd
    exact h.headed d head hd

theorem Clocked.setPublish (h : Clocked s) (c : ℕ) {p : Publish}
    (hp : ∀ seq, p = .published seq → seq ≤ s.epoch.seq) : Clocked (s.setPublish c p) := by
  refine { h with published := fun d seq hd => ?_ }
  by_cases hc : d = c
  · subst hc
    simp only [Cluster.setPublish, Function.update_self] at hd
    exact hp seq hd
  · simp only [Cluster.setPublish, Function.update_of_ne hc] at hd
    exact h.published d seq hd

theorem Clocked.publish (h : Clocked s) (a : InvalidateArgs) :
    Clocked { s with epoch := s.epoch.publish a } :=
  { answers := fun v hv => (h.answers v hv).trans (Nat.le_succ _)
    lastSeq := fun i v hv => (h.lastSeq i v hv).trans (Nat.le_succ _)
    headed := fun c head hc => (h.headed c head hc).trans (Nat.le_succ _)
    published := fun c seq hc => (h.published c seq hc).trans (Nat.le_succ _)
    stamps := h.stamps
    pages := h.pages }

theorem Clocked.shards (h : Clocked s) {shards : Fin SHARDS → Shard B}
    (he : ∀ j, Evolves s.stamps (s.shards j) (shards j)) : Clocked { s with shards := shards } := by
  refine { h with pages := fun i k p hp stamp hs => ?_ }
  rcases he i with e | ⟨r, e, hset⟩
  · simp only [e] at hp
    exact h.pages i k p hp stamp hs
  · simp only [e] at hp
    rcases (s.shards i).run_page hp with hp | ⟨key, hr⟩
    · exact h.pages i k p hp stamp hs
    · exact h.stamps stamp (hset key p hr stamp hs)

theorem Clocked.step (hs : Clocked s) (h : Cluster.Step calls s () s') : Clocked s' := by
  cases h with
  | answer =>
      refine { hs with answers := fun v hv => ?_ }
      rcases List.mem_cons.mp hv with rfl | hv
      · exact le_rfl
      · exact hs.answers v hv
  | seen isolate hv => exact hs.see isolate (hs.answers _ hv)
  | stamp isolate h =>
      refine { hs with stamps := fun stamp hm => ?_ }
      rcases List.mem_cons.mp hm with rfl | hm
      · exact hs.lastSeq _ _ h
      · exact hs.stamps stamp hm
  | get key now => exact hs.shards (evolves_call fun _ _ e => by cases e)
  | set key page h => exact hs.shards (evolves_call fun _ _ e => by cases e; exact h)
  | alarm i now => exact hs.shards (evolves_call fun _ _ e => by cases e)
  | head h => exact hs.setInval _ fun _ e => by cases e; exact le_rfl
  | headFailed h => exact hs.setInval _ fun _ e => by cases e
  | @mark c head h =>
      have hsee := hs.see (calls c).isolate (hs.headed c head h)
      have hrem : Clocked ((s.see (calls c).isolate head).remember (calls c).object (head + 1)) :=
        { hsee with }
      exact hrem.setInval _ fun _ e => by cases e
  | marks h turn =>
      obtain ⟨e, -, he⟩ := turn.effect
      rw [e]
      exact (hs.shards he).setInval _ fun _ e => by cases e
  | settle h => exact hs.setInval _ fun _ e => by cases e
  | publish h => exact (hs.publish _).setPublish _ fun _ e => by cases e; exact le_rfl
  | publishLost h => exact (hs.publish _).setPublish _ fun _ e => by split at e <;> cases e
  | publishFailed h => exact hs.setPublish _ fun _ e => by split at e <;> cases e
  | skip h _ => exact (hs.see _ (hs.published _ _ h)).setPublish _ fun _ e => by cases e
  | remark h _ => exact (hs.see _ (hs.published _ _ h)).setPublish _ fun _ e => by cases e
  | remarks h turn =>
      obtain ⟨e, -, he⟩ := turn.effect
      rw [e]
      exact (hs.shards he).setPublish _ fun _ e => by cases e
  | resolve h => exact hs.setPublish _ fun _ e => by cases e

/-! ### Fences -/

/-- Every shard that answered is fenced, unless a call was rejected. -/
def Fanout.Fences (f : Fanout) (a : InvalidateArgs) (shards : Fin SHARDS → Shard B) : Prop :=
  f.ok = true → ∀ j, j ∉ f.rest → Fenced a f.mark (shards j)

def Inval.Fences (a : InvalidateArgs) (shards : Fin SHARDS → Shard B) : Inval → Prop
  | .marking f => f.Fences a shards
  | .settled mark ok => ok = true → ∀ j, Fenced a mark (shards j)
  | _ => True

def Publish.Fences (a : InvalidateArgs) (shards : Fin SHARDS → Shard B) : Publish → Prop
  | .marking f => f.Fences a shards
  | .resolved seq remarked => remarked = some true → ∀ j, Fenced a seq (shards j)
  | _ => True

structure Fences (calls : ℕ → Call) (s : Cluster B) : Prop where
  indexed : ∀ j, Indexed (s.shards j)
  invals : ∀ c, (s.invals c).Fences (calls c).args s.shards
  publishes : ∀ c, (s.publishes c).Fences (calls c).args s.shards

theorem Evolves.indexed {stamps : List Stamp} {shard shard' : Shard B}
    (he : Evolves stamps shard shard') (h : Indexed shard) : Indexed shard' := by
  rcases he with rfl | ⟨r, rfl, -⟩
  · exact h
  · exact h.run r

theorem Evolves.fenced {stamps : List Stamp} {shard shard' : Shard B}
    (he : Evolves stamps shard shard') {a : InvalidateArgs} {mark : ℕ} (h : Fenced a mark shard) :
    Fenced a mark shard' := by
  rcases he with rfl | ⟨r, rfl, -⟩
  · exact h
  · exact h.run r

/-- The shard of a call that was answered is fenced; the others evolve. -/
theorem Fanout.Turn.fences {a : InvalidateArgs} {f f' : Fanout} (h : f.Turn a s s' f')
    (hi : ∀ j, Indexed (s.shards j)) (hf : f.Fences a s.shards) : f'.Fences a s'.shards := by
  have he := h.effect.2.2
  cases h with
  | @answered i hrest =>
      intro hok j hj
      by_cases hji : j = i
      · subst hji
        have hcall : (s.call j (.invalidate a f.mark)).shards j =
            ((s.shards j).invalidate a f.mark).1 := by
          simp only [Cluster.call, Function.update_self]
          rfl
        rw [hcall]
        exact fenced_invalidate (hi j) a f.mark
      · refine (he j).fenced (hf hok j fun hmem => hj ?_)
        exact Finset.mem_erase.mpr ⟨hji, hmem⟩
  | lost => exact fun hok => nomatch hok
  | rejected => exact fun hok => nomatch hok

/-- The shards evolve, and no call gets further. -/
theorem Fences.evolve (h : Fences calls s) (he : ∀ j, Evolves s.stamps (s.shards j) (s'.shards j))
    (hi : s'.invals = s.invals) (hp : s'.publishes = s.publishes) : Fences calls s' := by
  have hfan : ∀ (a : InvalidateArgs) (f : Fanout), f.Fences a s.shards → f.Fences a s'.shards :=
    fun a f hf hok j hj => (he j).fenced (hf hok j hj)
  refine ⟨fun j => (he j).indexed (h.indexed j), fun c => ?_, fun c => ?_⟩
  · have hc := h.invals c
    rw [hi]
    cases hs : s.invals c with
    | marking f =>
        rw [hs] at hc
        exact hfan _ f hc
    | settled mark ok =>
        rw [hs] at hc
        exact fun hok j => (he j).fenced (hc hok j)
    | _ => exact trivial
  · have hc := h.publishes c
    rw [hp]
    cases hs : s.publishes c with
    | marking f =>
        rw [hs] at hc
        exact hfan _ f hc
    | resolved seq remarked =>
        rw [hs] at hc
        exact fun hok j => (he j).fenced (hc hok j)
    | _ => exact trivial

theorem Fences.setInval (h : Fences calls s) (c : ℕ) {i : Inval}
    (hi : i.Fences (calls c).args s.shards) : Fences calls (s.setInval c i) := by
  refine { h with invals := fun d => ?_ }
  by_cases hd : d = c
  · subst hd
    simpa only [Cluster.setInval, Function.update_self] using hi
  · simpa only [Cluster.setInval, Function.update_of_ne hd] using h.invals d

theorem Fences.setPublish (h : Fences calls s) (c : ℕ) {p : Publish}
    (hp : p.Fences (calls c).args s.shards) : Fences calls (s.setPublish c p) := by
  refine { h with publishes := fun d => ?_ }
  by_cases hd : d = c
  · subst hd
    simpa only [Cluster.setPublish, Function.update_self] using hp
  · simpa only [Cluster.setPublish, Function.update_of_ne hd] using h.publishes d

/-- Nothing is fenced by a fan-out that starts. -/
theorem fences_fanout (a : InvalidateArgs) (mark : ℕ) (shards : Fin SHARDS → Shard B) :
    (fanout mark).Fences a shards := fun _ j hj => absurd (Finset.mem_univ j) hj

theorem Fences.step (hs : Fences calls s) (h : Cluster.Step calls s () s') : Fences calls s' := by
  have hsame : ∀ j, Evolves s.stamps (s.shards j) (s.shards j) := fun j => .inl rfl
  cases h with
  | answer => exact hs.evolve hsame rfl rfl
  | seen isolate hv => exact hs.evolve hsame rfl rfl
  | stamp isolate h => exact hs.evolve hsame rfl rfl
  | get key now => exact hs.evolve (@Cluster.Step.get B calls s key now).shards rfl rfl
  | set key page h => exact hs.evolve (@Cluster.Step.set B calls s key page h).shards rfl rfl
  | alarm i now => exact hs.evolve (@Cluster.Step.alarm B calls s i now).shards rfl rfl
  | head h => exact hs.setInval _ trivial
  | headFailed h => exact hs.setInval _ trivial
  | @mark c head h =>
      have hrem : Fences calls ((s.see (calls c).isolate head).remember (calls c).object
        (head + 1)) :=
        hs.evolve hsame rfl rfl
      exact hrem.setInval _ (fences_fanout _ _ _)
  | @marks s₁ c f f' h turn =>
      obtain ⟨e, -, he⟩ := turn.effect
      have hf := hs.invals c
      rw [h] at hf
      exact (hs.evolve he (by rw [e]) (by rw [e])).setInval _ (turn.fences hs.indexed hf)
  | @settle c mark ok h =>
      have hf := hs.invals c
      rw [h] at hf
      exact hs.setInval _ fun hok j => hf hok j (Finset.notMem_empty j)
  | @publish c h =>
      have hpub : Fences calls { s with epoch := s.epoch.publish (calls c).args } :=
        hs.evolve hsame rfl rfl
      exact hpub.setPublish _ trivial
  | @publishLost c h =>
      have hpub : Fences calls { s with epoch := s.epoch.publish (calls c).args } :=
        hs.evolve hsame rfl rfl
      exact hpub.setPublish _ (by split <;> trivial)
  | publishFailed h => exact hs.setPublish _ (by split <;> trivial)
  | @skip c seq h _ =>
      have hsee : Fences calls (s.see (calls c).isolate seq) := hs.evolve hsame rfl rfl
      exact hsee.setPublish _ fun hok => nomatch hok
  | @remark c seq h _ =>
      have hsee : Fences calls (s.see (calls c).isolate seq) := hs.evolve hsame rfl rfl
      exact hsee.setPublish _ (fences_fanout _ _ _)
  | @remarks s₁ c f f' h turn =>
      obtain ⟨e, -, he⟩ := turn.effect
      have hf := hs.publishes c
      rw [h] at hf
      exact (hs.evolve he (by rw [e]) (by rw [e])).setPublish _ (turn.fences hs.indexed hf)
  | @resolve c mark ok h =>
      have hf := hs.publishes c
      rw [h] at hf
      refine hs.setPublish _ fun hok j => hf ?_ j (Finset.notMem_empty j)
      exact Option.some.inj hok

/-! ### Which number a publish is held against -/

/-- No other call has this one's args object. -/
def Owns (calls : ℕ → Call) (c : ℕ) : Prop := ∀ d, d ≠ c → (calls d).object ≠ (calls c).object

/-- The number the shards are marked at. -/
def Inval.mark : Inval → Option ℕ
  | .marking f => some f.mark
  | .settled mark _ => some mark
  | _ => none

/-- What `pending` holds for an args object is what its call marks the shards at, and a publish that
marks nothing took that number. -/
structure Remembers (calls : ℕ → Call) (s : Cluster B) : Prop where
  pending : ∀ c, Owns calls c → s.pending (calls c).object = (s.invals c).mark
  skipped : ∀ c, Owns calls c → ∀ seq, s.publishes c = .resolved seq none →
    (s.invals c).mark = some seq

theorem setInval_mark {c : ℕ} {i : Inval} (h : i.mark = (s.invals c).mark) (d : ℕ) :
    ((s.setInval c i).invals d).mark = (s.invals d).mark := by
  by_cases hd : d = c
  · subst hd
    simpa only [Cluster.setInval, Function.update_self] using h
  · simp only [Cluster.setInval, Function.update_of_ne hd]

/-- A step keeps every mark, or it is the one that chooses it. -/
theorem Cluster.Step.mark_cases (h : Cluster.Step calls s () s') :
    (s'.pending = s.pending ∧ ∀ c, (s'.invals c).mark = (s.invals c).mark) ∨
    ∃ c head, s.invals c = .headed head ∧ s'.publishes = s.publishes ∧
      s'.pending = Function.update s.pending (calls c).object (some (head + 1)) ∧
      s'.invals = Function.update s.invals c (.marking (fanout (head + 1))) := by
  cases h with
  | head h => exact .inl ⟨rfl, setInval_mark (by rw [h]; rfl)⟩
  | headFailed h => exact .inl ⟨rfl, setInval_mark (by rw [h]; rfl)⟩
  | @mark c head h => exact .inr ⟨c, head, h, rfl, rfl, rfl⟩
  | @marks s₁ c f f' h turn =>
      obtain ⟨e, hm, -⟩ := turn.effect
      refine .inl ⟨by rw [e]; rfl, fun d => ?_⟩
      have hinvals : s₁.invals = s.invals := by rw [e]
      rw [setInval_mark (by rw [hinvals, h]; exact congrArg some hm), hinvals]
  | settle h => exact .inl ⟨rfl, setInval_mark (by rw [h]; rfl)⟩
  | remarks h turn =>
      obtain ⟨e, -, -⟩ := turn.effect
      exact .inl ⟨by rw [e]; rfl, fun d => by rw [e]; rfl⟩
  | _ => exact .inl ⟨rfl, fun c => rfl⟩

/-- A publish that marks nothing found its number in `pending`. -/
theorem Cluster.Step.skipped (h : Cluster.Step calls s () s') {c seq : ℕ}
    (hc : s'.publishes c = .resolved seq none) :
    s.publishes c = .resolved seq none ∨ s.pending (calls c).object = some seq := by
  have hset : ∀ (s₀ : Cluster B) (d : ℕ) (p : Publish), s₀.publishes = s.publishes →
      (∀ seq, p ≠ .resolved seq none) → (s₀.setPublish d p).publishes c = .resolved seq none →
      s.publishes c = .resolved seq none := by
    intro s₀ d p hs hp h
    by_cases hd : c = d
    · subst hd
      simp only [Cluster.setPublish, Function.update_self] at h
      exact absurd h (hp seq)
    · simpa only [Cluster.setPublish, Function.update_of_ne hd, hs] using h
  cases h with
  | marks h turn =>
      obtain ⟨e, -, -⟩ := turn.effect
      rw [e] at hc
      exact .inl hc
  | publish h => exact .inl (hset _ _ _ rfl (fun _ e => by cases e) hc)
  | publishLost h => exact .inl (hset _ _ _ rfl (fun _ e => by split at e <;> cases e) hc)
  | publishFailed h => exact .inl (hset _ _ _ rfl (fun _ e => by split at e <;> cases e) hc)
  | @skip d seq' h hpending =>
      by_cases hd : c = d
      · subst hd
        simp only [Cluster.setPublish, Function.update_self, Publish.resolved.injEq] at hc
        exact .inr (hc.1 ▸ hpending)
      · simp only [Cluster.setPublish, Function.update_of_ne hd] at hc
        exact .inl hc
  | remark h _ => exact .inl (hset _ _ _ rfl (fun _ e => by cases e) hc)
  | remarks h turn =>
      obtain ⟨e, -, -⟩ := turn.effect
      exact .inl (hset _ _ _ (by rw [e]) (fun _ e => by cases e) hc)
  | resolve h => exact .inl (hset _ _ _ rfl (fun _ e => by cases e) hc)
  | _ => exact .inl hc

theorem Remembers.step (hs : Remembers calls s) (h : Cluster.Step calls s () s') :
    Remembers calls s' := by
  rcases h.mark_cases with ⟨hp, hm⟩ | ⟨d, head, hd, hpub, hp, hi⟩
  · refine ⟨fun c hc => by rw [hp, hm, hs.pending c hc], fun c hc seq hseq => ?_⟩
    rw [hm]
    rcases h.skipped hseq with hseq | hseq
    · exact hs.skipped c hc seq hseq
    · rw [← hs.pending c hc, hseq]
  · have hother : ∀ c, Owns calls c → c ≠ d → s'.pending (calls c).object =
        s.pending (calls c).object ∧ s'.invals c = s.invals c := by
      intro c hc hcd
      rw [hp, hi, Function.update_of_ne (fun e => hc d hcd.symm e.symm), Function.update_of_ne hcd]
      exact ⟨rfl, rfl⟩
    refine ⟨fun c hc => ?_, fun c hc seq hseq => ?_⟩
    · by_cases hcd : c = d
      · subst hcd
        rw [hp, hi, Function.update_self, Function.update_self]
        rfl
      · rw [(hother c hc hcd).1, (hother c hc hcd).2, hs.pending c hc]
    · rw [hpub] at hseq
      have hmark := hs.skipped c hc seq hseq
      by_cases hcd : c = d
      · subst hcd
        rw [hd] at hmark
        cases hmark
      · rw [(hother c hc hcd).2, hmark]

/-! ### Freshness -/

theorem Cluster.Reach.inv (r : Cluster.Reach calls s) :
    Clocked s ∧ Fences calls s ∧ Remembers calls s := by
  refine Brust.Reach.inv (P := fun s => Clocked s ∧ Fences calls s ∧ Remembers calls s) ?_ ?_ r
  · rintro s rfl
    refine ⟨⟨?_, ?_, ?_, ?_, ?_, ?_⟩, ⟨?_, fun c => trivial, fun c => trivial⟩, fun c _ => rfl, ?_⟩
    · exact fun v hv => nomatch hv
    · exact fun i v hv => nomatch hv
    · exact fun c head hc => nomatch hc
    · exact fun c seq hc => nomatch hc
    · exact fun stamp hm => nomatch hm
    · intro i k p hp
      simp [Shard.empty] at hp
    · intro i t k
      simp [Shard.empty]
    · exact fun c _ seq hc => nomatch hc
  · rintro s ⟨⟩ s' ⟨hc, hf, hr⟩ h -
    exact ⟨hc.step h, hf.step h, hr.step h⟩

/-- **No get serves a page that was set under a stamp taken before the invalidation.**  Its mark is
above the number the epoch was at when it was called.  Nor one taken before its publish, if no other
call has its args object and no shard rejected the marks of the publish.  And the tags are those of
the stored pages. -/
theorem get_fresh_sharded (r : Cluster.Reach calls s) :
    (∀ c mark seq remarked, s.invals c = .settled mark true →
      s.publishes c = .resolved seq remarked →
      ∀ key now page, ((s.shards (shardIndex key)).get key now).2 = some page →
      Covers (calls c).args page.entry → ∀ stamp, page.stamp = some stamp →
      mark ≤ stamp.takenAt ∧
        (Owns calls c → remarked ≠ some false → seq ≤ stamp.takenAt)) ∧
    ∀ i, Indexed (s.shards i) := by
  obtain ⟨hclock, hfence, hrem⟩ := r.inv
  refine ⟨fun c mark seq remarked hi hp key now page hget hcov stamp hstamp => ?_, hfence.indexed⟩
  have hpage := Shard.get_stored hget
  have htaken : stamp.value ≤ stamp.takenAt := hclock.pages _ key page hpage stamp hstamp
  have hmark : ∀ j, Fenced (calls c).args mark (s.shards j) := by
    have h := hfence.invals c
    rw [hi] at h
    exact h rfl
  refine ⟨((hmark _).clean key page hpage stamp hstamp hcov.meet).trans htaken, fun hown hre => ?_⟩
  have hseq : ∀ j, Fenced (calls c).args seq (s.shards j) := by
    match remarked with
    | none =>
        -- the shards were not marked again: the publish took the number they are marked at
        have h := hrem.skipped c hown seq hp
        rw [hi] at h
        cases h
        exact hmark
    | some true =>
        have h := hfence.publishes c
        rw [hp] at h
        exact h rfl
    | some false => exact absurd rfl hre
  exact ((hseq _).clean key page hpage stamp hstamp hcov.meet).trans htaken

/-! ### One page -/

/-- A fan-out whose calls are all answered. -/
theorem Cluster.Reach.marks_all (r : Cluster.Reach calls s) {c mark : ℕ} {ok : Bool}
    (rest : Finset (Fin SHARDS)) (h : s.invals c = .marking ⟨mark, rest, ok⟩) :
    ∃ shards : Fin SHARDS → Shard B, Cluster.Reach calls
      ({ s with shards := shards }.setInval c (.marking ⟨mark, ∅, ok⟩)) := by
  induction rest using Finset.induction generalizing s with
  | empty =>
      refine ⟨s.shards, ?_⟩
      have hsame : s.setInval c (.marking ⟨mark, ∅, ok⟩) = s := by
        rw [Cluster.setInval, ← h, Function.update_eq_self]
      rw [hsame]
      exact r
  | insert i rest hi ih =>
      have r' := r.step (.marks h (.answered (Finset.mem_insert_self i rest))) trivial
      simp only [Finset.erase_insert hi] at r'
      obtain ⟨shards, r'⟩ := ih r' (by simp only [Cluster.setInval, Function.update_self])
      refine ⟨shards, ?_⟩
      simpa only [Cluster.setInval, Cluster.call, Function.update_idem] using r'

/-- A page set under stamp zero, and an invalidation of its tag that is published. -/
theorem get_fresh_marked : ∃ (calls : ℕ → Call) (s : Cluster Unit), Cluster.Reach calls s ∧
    s.invals 0 = .settled 1 true ∧ s.publishes 0 = .resolved 1 none ∧
    ∀ key now page, ((s.shards (shardIndex key)).get key now).2 = some page →
      Covers ⟨none, ["t"], none, none, none⟩ page.entry → ∀ stamp, page.stamp = some stamp →
      1 ≤ stamp.takenAt := by
  let calls : ℕ → Call := fun c => ⟨⟨none, ["t"], none, none, none⟩, c, 0⟩
  have r : Brust.Reach Cluster.Init (Cluster.Step (B := Unit) calls) anyStep _ := .init rfl
  have r := r.step .answer trivial
  have r := r.step (.seen 0 (List.mem_singleton_self 0)) trivial
  have r := r.step (.stamp 0 rfl) trivial
  have r := r.step (.set "k" ⟨⟨["t"], "GET", "/p", ""⟩, (), some ⟨0, 0⟩, 60⟩
    fun stamp h => by cases h; exact List.mem_singleton_self _) trivial
  have r := r.step (.head (c := 0) rfl) trivial
  have r := r.step (.mark (c := 0) rfl) trivial
  obtain ⟨shards, r⟩ := Cluster.Reach.marks_all r (c := 0) Finset.univ rfl
  have r := r.step (.settle (c := 0) rfl) trivial
  have r := r.step (.publish (c := 0) (.inl rfl)) trivial
  have r := r.step (.skip (c := 0) rfl rfl) trivial
  refine ⟨calls, _, r, rfl, rfl, fun key now page hget hcov stamp hstamp => ?_⟩
  exact ((get_fresh_sharded r).1 0 1 1 none rfl rfl key now page hget hcov stamp hstamp).1

end

end Brust.Cloudflare
