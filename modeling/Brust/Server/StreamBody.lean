import Brust.Support.Pool
import Mathlib.Data.List.Basic
import Mathlib.Logic.Relation
import Mathlib.Algebra.Group.Nat.Defs

/-!
# Server — streamed request bodies

The body of a streamed action call: the app pulls it a chunk at a time, the call's deadline may note
that it is slow, and what is left unread is taken out after the answer.  A pull takes the body's
lock, looks whether the stream has failed, waits for a first frame and joins what hyper already
holds; a deadline is noted between any two of its accesses, and a body is taken while no pull holds
the lock.

**Exactness** (`pull_end_exact`): a pull answers the end only if every byte was handed over in
chunks or is in the body that was taken out, within the ceiling and of the declared length, and,
unless a deadline was noted after that pull looked, nothing failed.  Once a reason is noted, a pull
that had not looked by then reports it.  A body that is taken out unread leaves the stream at its
end (`taken_body_ends`).
-/

namespace Brust.Server.Streaming

/-! ### The stream -/

inductive ReadErr where
  | tooLarge
  | io
  | slow
  deriving DecidableEq

/-- A frame of the hyper body, or the error in place of one. -/
inductive Frame where
  | data (d : List UInt8)
  | trailers
  | failed

inductive Pull where
  | chunk (d : List UInt8)
  /-- `Pull::End`. -/
  | ended
  | abort (e : ReadErr)

/-- The `max_stream_bytes`, and the declared `Content-Length`. -/
structure Limits where
  max : ℕ
  declared : Option ℕ

/-- `StreamBody`, with a record of what its pulls have handed over and of what was taken out. -/
structure StreamBody where
  /-- None once ended, aborted or taken. -/
  body : Option (List Frame)
  seen : ℕ
  abort : Option ReadErr
  done : Bool
  delivered : List UInt8
  taken : List Frame

def PULL_CHUNK_BYTES : ℕ := 2 ^ 20

namespace StreamBody

def new (frames : List Frame) : StreamBody := ⟨some frames, 0, none, false, [], []⟩

/-- The first reason stays. -/
def note (why : ReadErr) (s : StreamBody) : StreamBody :=
  { s with abort := some (s.abort.getD why) }

def fail (why : ReadErr) (s : StreamBody) : StreamBody × Pull :=
  (s.note why, .abort (s.abort.getD why))

/-- `end`: the body ended, short of the declared length or not. -/
def atEnd (lim : Limits) (s : StreamBody) : StreamBody × Pull :=
  if lim.declared.any (s.seen ≠ ·) then s.fail .io else ({ s with done := true }, .ended)

/-- Count `d` against the ceiling and the declared length. -/
def count (lim : Limits) (d : List UInt8) (s : StreamBody) : StreamBody × Option ReadErr :=
  let s := { s with seen := s.seen + d.length }
  if lim.max < s.seen then (s.note .tooLarge, some .tooLarge)
  else if lim.declared.any (· < s.seen) then (s.note .io, some .io)
  else (s, none)

end StreamBody

/-! ### Pulls -/

inductive Thread where
  /-- Between its calls, with the last pull's answer. -/
  | out (answer : Option Pull)
  /-- A pull that waits for the lock. -/
  | waiting
  /-- A pull that has the lock. -/
  | locked
  /-- A pull that found no reason noted. -/
  | looked
  /-- A pull with its chunk so far; it waits for the first frame while that is empty. -/
  | reading (chunk : List UInt8)
  /-- `take_body` with the lock. -/
  | taking
  /-- `note_deadline` that found the body not ended. -/
  | noting

namespace Thread

/-- Has the body's lock. -/
def locks : Thread → Bool
  | .locked | .looked | .reading _ | .taking => true
  | _ => false

/-- The chunk so far of a pull that has looked whether the stream failed. -/
def past : Thread → Option (List UInt8)
  | .looked => some []
  | .reading chunk => some chunk
  | _ => none

end Thread

/-- The lock is one thread's. -/
def conflict (c d : Thread) : Prop := c.locks = true ∧ d.locks = true

instance (c d : Thread) : Decidable (conflict c d) :=
  inferInstanceAs (Decidable (c.locks = true ∧ d.locks = true))

/-- A frame that a pull reads, `rest` behind it. -/
def onFrame (lim : Limits) (rest : List Frame) (chunk : List UInt8) (s : StreamBody) :
    Frame → StreamBody × Thread
  | .failed =>
    let r := { s with body := none }.fail .io
    (r.1, .out (some r.2))
  | .trailers => ({ s with body := some rest }, .reading chunk)
  | .data d =>
    if chunk = [] ∧ d = [] then ({ s with body := some rest }, .reading chunk)
    else match s.count lim d with
      | (s, none) => ({ s with body := some rest }, .reading (chunk ++ d))
      | (s, some e) =>
        -- past the ceiling the body is kept for `take_body`
        let r := { s with body := if e = ReadErr.tooLarge then some rest else none }.fail e
        (r.1, .out (some r.2))

open Thread in
inductive Move (lim : Limits) : StreamBody → Thread → StreamBody → Thread → Prop where
  | pull {s r} : Move lim s (out r) s waiting
  | lock {s} : Move lim s waiting s locked
  | failed {s e} (h : s.abort = some e) : Move lim s locked s (out (some (.abort e)))
  | looked {s} (h : s.abort = none) : Move lim s locked s looked
  | closed {s} (hb : s.body = none) :
      Move lim s looked (s.atEnd lim).1 (out (some (s.atEnd lim).2))
  | read {s b} (hb : s.body = some b) : Move lim s looked s (reading [])
  /-- No frame within `stream_idle_ms`. -/
  | idle {s} : Move lim s (reading []) ({ s with body := none }.fail .slow).1
      (out (some ({ s with body := none }.fail .slow).2))
  | frame {s chunk f rest} (hb : s.body = some (f :: rest)) (hc : chunk.length < PULL_CHUNK_BYTES) :
      Move lim s (reading chunk) (onFrame lim rest chunk s f).1 (onFrame lim rest chunk s f).2
  | ended {s} (hb : s.body = some []) :
      Move lim s (reading []) ({ s with body := none }.atEnd lim).1
        (out (some ({ s with body := none }.atEnd lim).2))
  /-- A short body still hands over what came; the next pull reports it. -/
  | lastChunk {s chunk} (hb : s.body = some []) (hc : chunk ≠ []) :
      Move lim s (reading chunk)
        ({ s with body := none, delivered := s.delivered ++ chunk }.atEnd lim).1
        (out (some (.chunk chunk)))
  /-- The chunk is full, or hyper holds no more. -/
  | give {s chunk} (hc : chunk ≠ []) :
      Move lim s (reading chunk) { s with delivered := s.delivered ++ chunk }
        (out (some (.chunk chunk)))
  /-- The pull's future is dropped at an await. -/
  | dropWaiting {s} : Move lim s waiting s (out none)
  | dropReading {s} : Move lim s (reading []) s (out none)
  | take {s r} : Move lim s (out r) s taking
  | taken {s b} (hb : s.body = some b) :
      Move lim s taking { s with body := none, taken := b } (out none)
  | untaken {s} (hb : s.body = none) : Move lim s taking s (out none)
  | deadline {s r} (h : s.done = false) : Move lim s (out r) s noting
  | noted {s} : Move lim s noting (s.note .slow) (out none)

abbrev State := Pool StreamBody Thread

abbrev StreamStep (lim : Limits) : State → ℕ → State → Prop := Pool.Step (Move lim) conflict

/-- The stream of a body that no thread has touched. -/
def StreamInit (frames : List Frame) (s : State) : Prop := s = ⟨.new frames, fun _ => .out none⟩

abbrev StreamReach (lim : Limits) (frames : List Frame) : State → Prop :=
  Reach (StreamInit frames) (StreamStep lim) anyStep

/-! ### What is counted -/

/-- The bytes of a body's data frames. -/
def dataOf (frames : List Frame) : List UInt8 :=
  frames.flatMap fun
    | .data d => d
    | _ => []

/-- The stream with a chunk that is being read: what was handed over, the chunk and what is unread
are the body's bytes, and they are counted within both bounds. -/
structure Whole (lim : Limits) (bytes : List UInt8) (s : StreamBody) (chunk : List UInt8) :
    Prop where
  data : s.delivered ++ chunk ++ dataOf (s.body.getD s.taken) = bytes
  seen : s.seen = (s.delivered ++ chunk).length
  max : s.seen ≤ lim.max
  declared : ∀ n ∈ lim.declared, s.seen ≤ n
  unread : s.body.isSome → s.taken = []

/-- Nothing failed but for a deadline. -/
def Quiet (s : StreamBody) : Prop := s.abort = none ∨ s.abort = some .slow

section Count
variable {lim : Limits} {bytes : List UInt8} {s s' : StreamBody} {chunk : List UInt8}

theorem Whole.congr (h : Whole lim bytes s chunk) (hbody : s'.body = s.body)
    (hseen : s'.seen = s.seen) (hdelivered : s'.delivered = s.delivered)
    (htaken : s'.taken = s.taken) : Whole lim bytes s' chunk :=
  ⟨by rw [hbody, hdelivered, htaken]; exact h.data, by rw [hseen, hdelivered]; exact h.seen,
    by rw [hseen]; exact h.max, by rw [hseen]; exact h.declared,
    by rw [hbody, htaken]; exact h.unread⟩

/-- The body is empty, and is let go. -/
theorem Whole.close (h : Whole lim bytes s chunk) (hb : s.body = some []) :
    Whole lim bytes { s with body := none } chunk := by
  have htaken := h.unread (by rw [hb]; rfl)
  refine ⟨?_, h.seen, h.max, h.declared, fun hs => by cases hs⟩
  have hdata := h.data
  rw [hb] at hdata
  rw [← hdata]
  simp [htaken]

/-- The chunk is handed over. -/
theorem Whole.give (h : Whole lim bytes s chunk) :
    Whole lim bytes { s with delivered := s.delivered ++ chunk } [] :=
  ⟨by rw [List.append_nil]; exact h.data, by rw [List.append_nil]; exact h.seen, h.max, h.declared,
    h.unread⟩

/-- A frame without data. -/
theorem Whole.skip {f : Frame} {rest : List Frame} (h : Whole lim bytes s chunk)
    (hb : s.body = some (f :: rest)) (hf : dataOf [f] = []) :
    Whole lim bytes { s with body := some rest } chunk := by
  refine ⟨?_, h.seen, h.max, h.declared, fun _ => h.unread (by rw [hb]; rfl)⟩
  have hdata := h.data
  rw [hb] at hdata
  rw [← hdata]
  simp only [dataOf, List.flatMap_cons, List.flatMap_nil, List.append_nil] at hf
  simp [dataOf, List.flatMap_cons, hf]

/-- A frame that is counted is within the bounds. -/
theorem Whole.count {d : List UInt8} {rest : List Frame} (h : Whole lim bytes s chunk)
    (hb : s.body = some (.data d :: rest)) (hc : s.count lim d = (s', none)) :
    Whole lim bytes { s' with body := some rest } (chunk ++ d) ∧ s'.abort = s.abort := by
  rw [StreamBody.count] at hc
  split at hc
  · cases hc
  next hmax =>
  split at hc
  · cases hc
  next hdeclared =>
  cases hc
  refine ⟨⟨?_, ?_, Nat.le_of_not_lt hmax, ?_, fun _ => h.unread (by rw [hb]; rfl)⟩, rfl⟩
  · have hdata := h.data
    rw [hb] at hdata
    rw [← hdata]
    simp [dataOf]
  · rw [h.seen]
    simp [Nat.add_assoc]
  · intro n hn
    rw [Option.mem_def] at hn
    simpa [hn] using hdeclared

/-- What is unread is taken out. -/
theorem Whole.take {b : List Frame} (h : Whole lim bytes s chunk) (hb : s.body = some b) :
    Whole lim bytes { s with body := none, taken := b } chunk :=
  ⟨by rw [← h.data, hb]; rfl, h.seen, h.max, h.declared, fun hs => by cases hs⟩

theorem Whole.atEnd (h : Whole lim bytes s chunk) : Whole lim bytes (s.atEnd lim).1 chunk := by
  rw [StreamBody.atEnd]
  split
  · exact h.congr rfl rfl rfl rfl
  · exact h.congr rfl rfl rfl rfl

/-- At the end the count is the declared length. -/
theorem atEnd_ended (he : (s.atEnd lim).2 = .ended) :
    (∀ n ∈ lim.declared, s.seen = n) ∧ (s.atEnd lim).1.abort = s.abort := by
  rw [StreamBody.atEnd] at he ⊢
  split at he
  · cases he
  next hn =>
    rw [if_neg hn]
    refine ⟨fun n hmem => ?_, rfl⟩
    rw [Option.mem_def] at hmem
    simpa [hmem] using hn

/-- A frame is read on in the chunk, or the pull fails. -/
theorem Whole.onFrame {f : Frame} {rest : List Frame} (h : Whole lim bytes s chunk)
    (hq : Quiet s) (hb : s.body = some (f :: rest)) :
    (∃ chunk', (onFrame lim rest chunk s f).2 = .reading chunk' ∧
      Whole lim bytes (onFrame lim rest chunk s f).1 chunk' ∧
        Quiet (onFrame lim rest chunk s f).1) ∨
    ∃ e, (onFrame lim rest chunk s f).2 = .out (some (.abort e)) ∧
      (onFrame lim rest chunk s f).1.abort = some e := by
  cases f with
  | failed => exact Or.inr ⟨_, rfl, rfl⟩
  | trailers => exact Or.inl ⟨chunk, rfl, h.skip hb rfl, hq⟩
  | data d =>
      rw [Streaming.onFrame]
      split
      next hempty => exact Or.inl ⟨chunk, rfl, h.skip hb (by rw [hempty.2]; rfl), hq⟩
      next =>
        split
        next s' hc =>
          obtain ⟨hwhole, habort⟩ := h.count hb hc
          exact Or.inl ⟨_, rfl, hwhole, by rw [Quiet]; exact habort ▸ hq⟩
        next => exact Or.inr ⟨_, rfl, rfl⟩

end Count

/-! ### Every run -/

structure Inv (lim : Limits) (bytes : List UInt8) (s : State) : Prop where
  lock : Pool.Exclusive conflict s
  reading : ∀ t, ∀ chunk ∈ (s.threads t).past, Whole lim bytes s.mem chunk ∧ Quiet s.mem
  free : s.mem.abort = none → (∀ t, (s.threads t).past = none) → Whole lim bytes s.mem []

section Run
variable {lim : Limits} {bytes : List UInt8} {s s' : State} {t : ℕ} {m : StreamBody} {x : Thread}

theorem conflict_symm (c d : Thread) (h : conflict c d) : conflict d c := ⟨h.2, h.1⟩

theorem locks_of_past {c : Thread} {chunk : List UInt8} (h : c.past = some chunk) :
    c.locks = true := by
  cases c with
  | looked | reading => rfl
  | out | waiting | locked | taking | noting => cases h

/-- Nobody is past its look but who has the lock. -/
theorem Inv.alone (hi : Inv lim bytes s) (ht : (s.threads t).locks = true) {u : ℕ} (hu : u ≠ t) :
    (s.threads u).past = none :=
  Option.eq_none_iff_forall_ne_some.mpr fun _ h => hi.lock u t hu ⟨locks_of_past h, ht⟩

/-- A move of the thread that has the lock. -/
theorem Inv.held (hi : Inv lim bytes s) (hlock : Pool.Exclusive conflict (s.set t m x))
    (ht : (s.threads t).locks = true)
    (hread : ∀ chunk ∈ x.past, Whole lim bytes m chunk ∧ Quiet m)
    (hfree : m.abort = none → x.past = none → Whole lim bytes m []) :
    Inv lim bytes (s.set t m x) := by
  refine ⟨hlock, fun u chunk hu => ?_, fun habort hnone => hfree habort ?_⟩
  · by_cases hut : u = t
    · subst hut
      rw [Pool.set_self] at hu
      exact hread chunk hu
    · rw [Pool.set_other hut, hi.alone ht hut] at hu
      cases hu
  · have hx := hnone t
    rwa [Pool.set_self] at hx

/-- A move that only notes a deadline, if it changes the stream at all. -/
theorem Inv.aside (hi : Inv lim bytes s) (hlock : Pool.Exclusive conflict (s.set t m x))
    (ht : (s.threads t).past = none) (hx : x.past = none)
    (hm : m = s.mem ∨ m = s.mem.note .slow) : Inv lim bytes (s.set t m x) := by
  have hwhole : ∀ chunk, Whole lim bytes s.mem chunk → Whole lim bytes m chunk := by
    rcases hm with rfl | rfl
    · exact fun _ h => h
    · exact fun _ h => h.congr rfl rfl rfl rfl
  have hquiet : Quiet s.mem → Quiet m := by
    rcases hm with rfl | rfl
    · exact id
    · rintro (h | h)
      · exact Or.inr (by rw [StreamBody.note, h]; rfl)
      · exact Or.inr (by rw [StreamBody.note, h]; rfl)
  refine ⟨hlock, fun u chunk hu => ?_, fun habort hnone => ?_⟩
  · by_cases hut : u = t
    · subst hut
      rw [Pool.set_self, hx] at hu
      cases hu
    · rw [Pool.set_other hut] at hu
      obtain ⟨hw, hq⟩ := hi.reading u chunk hu
      exact ⟨hwhole chunk hw, hquiet hq⟩
  · have habort' : s.mem.abort = none := by
      rcases hm with rfl | rfl
      · exact habort
      · cases habort
    refine hwhole [] (hi.free habort' fun u => ?_)
    by_cases hut : u = t
    · subst hut
      exact ht
    · have hu := hnone u
      rwa [Pool.set_other hut] at hu

/-- **Every move keeps the invariant.** -/
theorem Inv.step (hi : Inv lim bytes s) (h : StreamStep lim s t s') : Inv lim bytes s' := by
  have hlock := h.exclusive conflict_symm hi.lock
  obtain ⟨hm, -⟩ := h
  generalize hx : s.threads t = x at hm
  have hpast : x.past = none → (s.threads t).past = none := fun h => (congrArg _ hx).trans h
  have hlocks : x.locks = true → (s.threads t).locks = true := fun h => (congrArg _ hx).trans h
  have hnobody : x.locks = true → x.past = none → ∀ u, (s.threads u).past = none :=
    fun hl hr u => by
      by_cases hut : u = t
      · subst hut
        exact hpast hr
      · exact hi.alone (hlocks hl) hut
  cases hm with
  | pull | lock | dropWaiting | take | deadline => exact hi.aside hlock (hpast rfl) rfl (Or.inl rfl)
  | failed h => exact hi.aside hlock (hpast rfl) rfl (Or.inl rfl)
  | noted => exact hi.aside hlock (hpast rfl) rfl (Or.inr rfl)
  | untaken hb => exact hi.aside hlock (hpast rfl) rfl (Or.inl rfl)
  | looked h =>
      refine hi.held hlock (hlocks rfl) (fun chunk hc => ?_) fun _ hno => by cases hno
      cases hc
      exact ⟨hi.free h (hnobody rfl rfl), Or.inl h⟩
  | closed hb =>
      obtain ⟨hwhole, -⟩ := hi.reading t [] (by rw [hx]; rfl)
      exact hi.held hlock (hlocks rfl) (fun _ hc => by cases hc) fun _ _ => hwhole.atEnd
  | read hb =>
      refine hi.held hlock (hlocks rfl) (fun chunk hc => ?_) fun _ hno => by cases hno
      cases hc
      exact hi.reading t [] (by rw [hx]; rfl)
  | idle => exact hi.held hlock (hlocks rfl) (fun _ hc => by cases hc) fun h => by cases h
  | frame hb hc =>
      obtain ⟨hwhole, hquiet⟩ := hi.reading t _ (by rw [hx]; rfl)
      rcases hwhole.onFrame hquiet hb with ⟨chunk', hread, hwhole', hquiet'⟩ | ⟨e, hout, habort⟩
      · refine hi.held hlock (hlocks rfl) (fun chunk hc => ?_) fun _ hno => ?_
        · rw [hread] at hc
          cases hc
          exact ⟨hwhole', hquiet'⟩
        · rw [hread] at hno
          cases hno
      · refine hi.held hlock (hlocks rfl) (fun chunk hc => ?_) fun hnone => ?_
        · rw [hout] at hc
          cases hc
        · rw [habort] at hnone
          cases hnone
  | ended hb =>
      obtain ⟨hwhole, -⟩ := hi.reading t _ (by rw [hx]; rfl)
      exact hi.held hlock (hlocks rfl) (fun _ hc => by cases hc) fun _ _ => (hwhole.close hb).atEnd
  | lastChunk hb hc =>
      obtain ⟨hwhole, -⟩ := hi.reading t _ (by rw [hx]; rfl)
      exact hi.held hlock (hlocks rfl) (fun _ hc => by cases hc)
        fun _ _ => (hwhole.close hb).give.atEnd
  | give hc =>
      obtain ⟨hwhole, -⟩ := hi.reading t _ (by rw [hx]; rfl)
      exact hi.held hlock (hlocks rfl) (fun _ hc => by cases hc) fun _ _ => hwhole.give
  | dropReading =>
      obtain ⟨hwhole, -⟩ := hi.reading t _ (by rw [hx]; rfl)
      exact hi.held hlock (hlocks rfl) (fun _ hc => by cases hc) fun _ _ => hwhole
  | taken hb =>
      refine hi.held hlock (hlocks rfl) (fun _ hc => by cases hc) fun habort _ => ?_
      exact (hi.free habort (hnobody rfl rfl)).take hb

theorem inv_init {frames : List Frame} (h : StreamInit frames s) : Inv lim (dataOf frames) s := by
  cases h
  refine ⟨fun t u _ h => ?_, fun t chunk hc => (by cases hc), fun _ _ => ?_⟩
  · cases h.1
  · exact ⟨rfl, rfl, Nat.zero_le _, fun n _ => Nat.zero_le n, fun _ => rfl⟩

theorem inv_reach {frames : List Frame} (h : StreamReach lim frames s) :
    Inv lim (dataOf frames) s :=
  Reach.inv (P := Inv lim (dataOf frames)) (fun _ => inv_init) (fun _ _ _ hi hs _ => hi.step hs) h

/-! ### Once a reason is noted -/

/-- The states of a run from here on. -/
abbrev Later (lim : Limits) : State → State → Prop :=
  Relation.ReflTransGen fun s s' => ∃ t, StreamStep lim s t s'

theorem note_of_abort {e why : ReadErr} {m : StreamBody} (h : m.abort = some e) :
    (m.note why).abort = some e := by rw [StreamBody.note, h]; rfl

theorem atEnd_abort {e : ReadErr} {m : StreamBody} (h : m.abort = some e) :
    (m.atEnd lim).1.abort = some e := by
  rw [StreamBody.atEnd]
  split
  · exact note_of_abort h
  · exact h

theorem onFrame_abort {e : ReadErr} {m : StreamBody} (h : m.abort = some e) (rest : List Frame)
    (chunk : List UInt8) (f : Frame) : (onFrame lim rest chunk m f).1.abort = some e := by
  cases f with
  | failed => exact note_of_abort h
  | trailers => exact h
  | data d =>
      rw [onFrame]
      split
      · exact h
      · have hcount : (m.count lim d).1.abort = some e := by
          rw [StreamBody.count]
          split
          · exact note_of_abort h
          · split
            · exact note_of_abort h
            · exact h
        generalize m.count lim d = r at hcount
        obtain ⟨m', _ | e'⟩ := r
        · exact hcount
        · exact note_of_abort hcount

/-- A reason stays, and nobody gets past its look any more. -/
theorem step_abort {e : ReadErr} (h : StreamStep lim s t s') (he : s.mem.abort = some e) :
    s'.mem.abort = some e ∧ ∀ u, (s.threads u).past = none → (s'.threads u).past = none := by
  obtain ⟨hm, -⟩ := h
  rename_i m x
  have hmove : m.abort = some e ∧ ((s.threads t).past = none → x.past = none) := by
    generalize s.threads t = y at hm
    cases hm with
    | pull | lock | failed | give | dropWaiting | dropReading | take | taken | untaken | deadline =>
        exact ⟨he, fun _ => rfl⟩
    | looked h => rw [h] at he; cases he
    | read hb => exact ⟨he, fun h => by cases h⟩
    | closed hb => exact ⟨atEnd_abort he, fun _ => rfl⟩
    | idle | noted => exact ⟨note_of_abort he, fun _ => rfl⟩
    | frame hb hc => exact ⟨onFrame_abort he _ _ _, fun h => by cases h⟩
    | ended hb | lastChunk hb hc => exact ⟨atEnd_abort he, fun _ => rfl⟩
  refine ⟨hmove.1, fun u hu => ?_⟩
  by_cases hut : u = t
  · subst hut
    rw [Pool.set_self]
    exact hmove.2 hu
  · rwa [Pool.set_other hut]

theorem later_abort {e : ReadErr} (h : Later lim s s') (he : s.mem.abort = some e) :
    s'.mem.abort = some e ∧ ∀ u, (s.threads u).past = none → (s'.threads u).past = none := by
  induction h with
  | refl => exact ⟨he, fun _ => id⟩
  | tail _ hs ih =>
      obtain ⟨t, hs⟩ := hs
      obtain ⟨habort, hpast⟩ := step_abort hs ih.1
      exact ⟨habort, fun u hu => hpast u (ih.2 u hu)⟩

/-! ### Answers -/

/-- A pull that ends with a frame fails. -/
theorem onFrame_out {rest : List Frame} {chunk : List UInt8} {f : Frame} {p : Pull}
    (h : (onFrame lim rest chunk m f).2 = .out (some p)) : ∃ e, p = .abort e := by
  cases f with
  | failed =>
      cases h
      exact ⟨_, rfl⟩
  | trailers => cases h
  | data d =>
      rw [onFrame] at h
      split at h
      · cases h
      · split at h
        · cases h
        · cases h
          exact ⟨_, rfl⟩

/-- The end is answered for a body that is gone, or by the pull that reads its end. -/
theorem Move.ended_cases {m' : StreamBody} {y : Thread} (h : Move lim m x m' y)
    (hy : y = .out (some .ended)) : ∃ m₀ : StreamBody,
    (x = .looked ∧ m.body = none ∧ m₀ = m ∨
      x = .reading [] ∧ m.body = some [] ∧ m₀ = { m with body := none }) ∧
    m' = (m₀.atEnd lim).1 ∧ (m₀.atEnd lim).2 = .ended := by
  cases h with
  | closed hb =>
      simp only [Thread.out.injEq, Option.some.injEq] at hy
      exact ⟨m, Or.inl ⟨rfl, hb, rfl⟩, rfl, hy⟩
  | ended hb =>
      simp only [Thread.out.injEq, Option.some.injEq] at hy
      exact ⟨_, Or.inr ⟨rfl, hb, rfl⟩, rfl, hy⟩
  | frame hb hc =>
      obtain ⟨e, he⟩ := onFrame_out hy
      cases he
  | _ => cases hy

/-- A pull that answers without having looked before reports the reason that is noted. -/
theorem Move.reports {m' : StreamBody} {y : Thread} (h : Move lim m x m' y) {e : ReadErr}
    (he : m.abort = some e) (hx : x.past = none) {p : Pull} (hy : y = .out (some p)) :
    p = .abort e := by
  cases h with
  | failed h =>
      rw [he] at h
      cases h
      cases hy
      rfl
  | closed | idle | frame | ended | lastChunk | give => cases hx
  | _ => cases hy

/-- A stream whose body is gone, with nothing half read, is counted to its end. -/
theorem Whole.exact (h : Whole lim bytes m []) (hb : m.body = none)
    (he : (m.atEnd lim).2 = .ended) :
    m.delivered ++ dataOf m.taken = bytes ∧ m.delivered.length ≤ lim.max ∧
      ∀ n ∈ lim.declared, m.delivered.length = n := by
  have hdata := h.data
  have hseen := h.seen
  rw [hb, List.append_nil] at hdata
  rw [List.append_nil] at hseen
  exact ⟨hdata, hseen ▸ h.max, fun n hn => hseen ▸ (atEnd_ended he).1 n hn⟩

/-- **A pull that ends is exact**: every byte was handed over in chunks before, or is in the body
that was taken out; what was handed over is within the ceiling and of the declared length; and no
reason is noted, but a deadline after that pull looked.  **Once a reason is noted**, every pull that
has not looked yet reports it. -/
theorem pull_end_exact (lim : Limits) (frames : List Frame) (s : State)
    (h : StreamReach lim frames s) :
    (∀ t s', StreamStep lim s t s' → s'.threads t = .out (some .ended) →
      s.mem.delivered ++ dataOf s.mem.taken = dataOf frames ∧
      s.mem.delivered.length ≤ lim.max ∧ (∀ n ∈ lim.declared, s.mem.delivered.length = n) ∧
      (s'.mem.abort = none ∨ (s.threads t).past = some [] ∧ s'.mem.abort = some .slow)) ∧
    ∀ e, s.mem.abort = some e → ∀ u v t, Later lim s u → (s.threads t).past = none →
      StreamStep lim u t v → ∀ p, v.threads t = .out (some p) → p = .abort e := by
  have hi := inv_reach h
  constructor
  · rintro t s' ⟨hm, -⟩ hended
    rw [Pool.set_self] at hended
    obtain ⟨m₀, hfrom, rfl, he⟩ := hm.ended_cases hended
    have hpast : (s.threads t).past = some [] ∧ m₀.abort = s.mem.abort := by
      rcases hfrom with ⟨hx, -, rfl⟩ | ⟨hx, -, rfl⟩
      · exact ⟨by rw [hx]; rfl, rfl⟩
      · exact ⟨by rw [hx]; rfl, rfl⟩
    obtain ⟨hwhole, hquiet⟩ := hi.reading t [] hpast.1
    have hexact : m₀.delivered ++ dataOf m₀.taken = dataOf frames ∧
        m₀.delivered.length ≤ lim.max ∧ ∀ n ∈ lim.declared, m₀.delivered.length = n := by
      rcases hfrom with ⟨-, hb, rfl⟩ | ⟨-, hb, rfl⟩
      · exact hwhole.exact hb he
      · exact (hwhole.close hb).exact rfl he
    have hsame : m₀.delivered = s.mem.delivered ∧ m₀.taken = s.mem.taken := by
      rcases hfrom with ⟨-, -, rfl⟩ | ⟨-, -, rfl⟩ <;> exact ⟨rfl, rfl⟩
    rw [hsame.1, hsame.2] at hexact
    refine ⟨hexact.1, hexact.2.1, hexact.2.2, ?_⟩
    have habort := (atEnd_ended he).2.trans hpast.2
    rcases hquiet with hq | hq
    · exact Or.inl (habort.trans hq)
    · exact Or.inr ⟨hpast.1, habort.trans hq⟩
  · rintro e he u v t hlater ht ⟨hm, -⟩ p hp
    rw [Pool.set_self] at hp
    obtain ⟨habort, hpast⟩ := later_abort hlater he
    exact hm.reports habort (hpast t ht) hp

end Run

/-! ### Runs of two threads -/

/-- Two threads, and no other. -/
def duo (m : StreamBody) (x y : Thread) : State := Pool.ofList (.out none) m [x, y]

theorem duo_left {lim : Limits} {m m' : StreamBody} {x x' y : Thread} (h : Move lim m x m' x')
    (hfree : ¬ conflict x' y) : StreamStep lim (duo m x y) 0 (duo m' x' y) := by
  refine Pool.Step.ofList (c := x) rfl h (fun hc => by cases hc.2) fun u hu hne hc => ?_
  obtain rfl : u = 1 := by
    simp only [List.length_cons, List.length_nil] at hu
    omega
  exact hfree hc

theorem duo_right {lim : Limits} {m m' : StreamBody} {x y y' : Thread} (h : Move lim m y m' y')
    (hfree : ¬ conflict y' x) : StreamStep lim (duo m x y) 1 (duo m' x y') := by
  refine Pool.Step.ofList (c := y) rfl h (fun hc => by cases hc.2) fun u hu hne hc => ?_
  obtain rfl : u = 0 := by
    simp only [List.length_cons, List.length_nil] at hu
    omega
  exact hfree hc

theorem duo_new (lim : Limits) (frames : List Frame) :
    StreamReach lim frames (duo (.new frames) (.out none) (.out none)) := by
  refine .init ?_
  rw [StreamInit, duo, Pool.ofList, Pool.mk.injEq]
  refine ⟨rfl, ?_⟩
  funext t
  rcases t with _ | _ | t
  · rfl
  · rfl
  · rfl

/-- An upload of the declared length, in one chunk. -/
theorem pull_end_exact_upload : ∃ s s' : State,
    StreamReach ⟨4, some 3⟩ [.data [1, 2], .trailers, .data [3]] s ∧ StreamStep ⟨4, some 3⟩ s 0 s' ∧
    s'.threads 0 = .out (some .ended) ∧ s.mem.delivered.length = 3 ∧ s'.mem.abort = none := by
  have r := duo_new ⟨4, some 3⟩ [.data [1, 2], .trailers, .data [3]]
  have r := Reach.step r (duo_left .pull (by decide)) trivial
  have r := Reach.step r (duo_left .lock (by decide)) trivial
  have r := Reach.step r (duo_left (.looked rfl) (by decide)) trivial
  have r := Reach.step r (duo_left (.read rfl) (by decide)) trivial
  have r := Reach.step r (duo_left (.frame rfl (by decide)) (by decide)) trivial
  have r := Reach.step r (duo_left (.frame rfl (by decide)) (by decide)) trivial
  have r := Reach.step r (duo_left (.frame rfl (by decide)) (by decide)) trivial
  have r : StreamReach ⟨4, some 3⟩ _ (duo ⟨none, 3, none, true, [1, 2, 3], []⟩ (.out _)
    (.out none)) :=
    Reach.step r (duo_left (.lastChunk rfl (by decide)) (by decide)) trivial
  have r := Reach.step r (duo_left .pull (by decide)) trivial
  have r := Reach.step r (duo_left .lock (by decide)) trivial
  have r := Reach.step r (duo_left (.looked rfl) (by decide)) trivial
  have hs : StreamStep ⟨4, some 3⟩ (duo ⟨none, 3, none, true, [1, 2, 3], []⟩ .looked (.out none)) 0
      (duo ⟨none, 3, none, true, [1, 2, 3], []⟩ (.out (some .ended)) (.out none)) :=
    duo_left (.closed rfl) (by decide)
  obtain ⟨-, -, hlen, habort | ⟨-, hslow⟩⟩ := (pull_end_exact _ _ _ r).1 0 _ hs rfl
  · exact ⟨_, _, r, hs, rfl, hlen 3 rfl, habort⟩
  · cases hslow

/-- **A body that is taken out unread leaves the stream at its end**, and a pull that reads the end
after a deadline was noted answers it. -/
theorem taken_body_ends :
    (¬ ∀ lim frames s t s', StreamReach lim frames s → StreamStep lim s t s' →
      s'.threads t = .out (some .ended) → s.mem.delivered = dataOf frames) ∧
    ¬ ∀ lim frames s t s', StreamReach lim frames s → StreamStep lim s t s' →
      s'.threads t = .out (some .ended) → s'.mem.abort = none := by
  constructor
  · intro h
    have r := duo_new ⟨4, none⟩ [.data [1]]
    have r := Reach.step r (duo_left .take (by decide)) trivial
    have r := Reach.step r (duo_left (.taken rfl) (by decide)) trivial
    have r := Reach.step r (duo_left .pull (by decide)) trivial
    have r := Reach.step r (duo_left .lock (by decide)) trivial
    have r := Reach.step r (duo_left (.looked rfl) (by decide)) trivial
    have hs : StreamStep ⟨4, none⟩ (duo ⟨none, 0, none, false, [], [.data [1]]⟩ .looked
      (.out none)) 0
        (duo ⟨none, 0, none, true, [], [.data [1]]⟩ (.out (some .ended)) (.out none)) :=
      duo_left (.closed rfl) (by decide)
    cases h _ _ _ _ _ r hs rfl
  · intro h
    have r := duo_new ⟨4, none⟩ []
    have r := Reach.step r (duo_left .pull (by decide)) trivial
    have r := Reach.step r (duo_left .lock (by decide)) trivial
    have r := Reach.step r (duo_left (.looked rfl) (by decide)) trivial
    have r := Reach.step r (duo_left (.read rfl) (by decide)) trivial
    have r := Reach.step r (duo_right (.deadline rfl) (by decide)) trivial
    have r := Reach.step r (duo_right .noted (by decide)) trivial
    have hs : StreamStep ⟨4, none⟩
        (duo ⟨some [], 0, some .slow, false, [], []⟩ (.reading []) (.out none)) 0
        (duo ⟨none, 0, some .slow, true, [], []⟩ (.out (some .ended)) (.out none)) :=
      duo_left (.ended rfl) (by decide)
    cases h _ _ _ _ _ r hs rfl

end Brust.Server.Streaming
