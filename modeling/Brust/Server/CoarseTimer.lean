import Brust.Support.Pool
import Brust.Support.Slab

/-!
# Server — the coarse timer

A sleep that is polled before its deadline puts its waker into a slot of one shard; a ticker goes
over the shards, takes the wakers of the entries whose deadline has passed, and wakes them with the
shard unlocked.  Only the sleep removes its entry, so a key is never another sleep's
(`Timer.slots_exclusive`).

A waker that a poll left is woken by every pass that begins afterwards, at the deadline or later
(`Timer.woken_by_pass`): it is in its entry, or due, or woken since the poll began (`Waits`).
-/

namespace Brust.Server.Timer

/-- A pending sleep in its shard. -/
structure Entry (W : Type) where
  deadline : ℕ
  /-- Taken by the ticker when it wakes the entry; refreshed by a later pending poll. -/
  waker : Option W

abbrev Shard (W : Type) := Slab (Entry W)

def SHARDS : ℕ := 64

structure CoarseSleep (W : Type) where
  deadline : ℕ
  /-- Shard and slab index while registered. -/
  key : Option (ℕ × ℕ)
  /-- The waker last stored in the entry, to skip the lock when it is unchanged. -/
  waker : Option W

/-- Where the owner of a sleep is: it does not wait for it, is in a poll that read the clock before
the deadline, or had `Pending` from one.  With the waker of the poll, how many wakes there had been
when the poll began, and how many passes when it ended. -/
inductive Phase (W : Type) where
  | idle
  | polling (w : W) (since : ℕ)
  | pending (w : W) (since pass : ℕ)

/-- The ticker between passes, or in one: its clock reading, the shards to come and the wakers that
it took and has yet to wake. -/
inductive Ticker (W : Type) where
  | waiting
  | firing (now : ℕ) (rest : List ℕ) (due : List W)

namespace Ticker

variable {W : Type}

def due : Ticker W → List W
  | waiting => []
  | firing _ _ due => due

end Ticker

/-- The timer and its sleeps; the wakes so far, how many passes have begun, and the number and the
clock reading of the last one that ended. -/
structure State (W : Type) where
  shards : ℕ → Shard W
  sleeps : ℕ → Option (CoarseSleep W × Phase W)
  clock : ℕ
  ticker : Ticker W
  woken : List W
  pass : ℕ
  last : Option (ℕ × ℕ)

variable {W : Type}

/-! ### The operations -/

def init : State W := ⟨fun _ => .empty, fun _ => none, 0, .waiting, [], 0, none⟩

namespace State

variable (σ : State W)

def setSleep (id : ℕ) (x : Option (CoarseSleep W × Phase W)) : State W :=
  { σ with sleeps := Function.update σ.sleeps id x }

@[simp] theorem setSleep_self (id : ℕ) (x : Option (CoarseSleep W × Phase W)) :
    (σ.setSleep id x).sleeps id = x := Function.update_self ..

def setShard (s : ℕ) (g : Shard W) : State W :=
  { σ with shards := Function.update σ.shards s g }

/-- `unregister`, on the shard. -/
def unregister (sl : CoarseSleep W) : State W :=
  match sl.key with
  | some (s, i) => σ.setShard s ((σ.shards s).remove i)
  | none => σ

end State

/-- `unregister`, on the sleep. -/
def CoarseSleep.unregistered (sl : CoarseSleep W) : CoarseSleep W :=
  { sl with key := none, waker := none }

/-- What the ticker does to an expired entry. -/
def Entry.take (now : ℕ) (e : Entry W) : Entry W :=
  if e.deadline ≤ now then { e with waker := none } else e

/-- The wakers that the ticker takes from a shard. -/
def dueIn (now : ℕ) (g : Shard W) : List W :=
  g.entries.filterMap fun o => o.bind fun e => if e.deadline ≤ now then e.waker else none

/-- What a poll does under the lock, or without it where the waker is the one last stored. -/
def State.register [DecidableEq W] (σ : State W) (sl : CoarseSleep W) (w : W) (shard : ℕ) :
    State W × CoarseSleep W :=
  match sl.key with
  | none =>
    let r := (σ.shards shard).insert ⟨sl.deadline, some w⟩
    (σ.setShard shard r.1, { sl with key := some (shard, r.2), waker := some w })
  | some (s, i) =>
    if sl.waker = some w then (σ, sl)
    else
      (σ.setShard s ((σ.shards s).modify i fun e => { e with waker := some w }),
        { sl with waker := some w })

/-- The steps of the tasks and of the ticker; each takes one lock at most. -/
inductive Step [DecidableEq W] : State W → Unit → State W → Prop where
  | time {σ : State W} {clock : ℕ} (h : σ.clock ≤ clock) : Step σ () { σ with clock := clock }
  -- the sleeps
  | sleepAt {σ : State W} {id : ℕ} (deadline : ℕ) (h : σ.sleeps id = none) :
      Step σ () (σ.setSleep id (some (⟨deadline, none, none⟩, .idle)))
  | ready {σ : State W} {id : ℕ} {sl : CoarseSleep W} {ph : Phase W}
      (h : σ.sleeps id = some (sl, ph)) (hph : ∀ w n, ph ≠ .polling w n)
      (hdue : sl.deadline ≤ σ.clock) :
      Step σ () ((σ.unregister sl).setSleep id (some (sl.unregistered, .idle)))
  | poll {σ : State W} {id : ℕ} {sl : CoarseSleep W} {ph : Phase W} (w : W)
      (h : σ.sleeps id = some (sl, ph)) (hph : ∀ w n, ph ≠ .polling w n)
      (hearly : σ.clock < sl.deadline) :
      Step σ () (σ.setSleep id (some (sl, .polling w σ.woken.length)))
  | pend {σ : State W} {id : ℕ} {sl : CoarseSleep W} {w : W} {since : ℕ} {shard : ℕ}
      (h : σ.sleeps id = some (sl, .polling w since)) (hshard : shard < SHARDS) :
      Step σ () ((σ.register sl w shard).1.setSleep id
        (some ((σ.register sl w shard).2, .pending w since σ.pass)))
  | reset {σ : State W} {id : ℕ} {sl : CoarseSleep W} {ph : Phase W} (deadline : ℕ)
      (h : σ.sleeps id = some (sl, ph)) (hph : ∀ w n, ph ≠ .polling w n) :
      Step σ () ((σ.unregister sl).setSleep id
        (some ({ sl.unregistered with deadline := deadline }, .idle)))
  | drop {σ : State W} {id : ℕ} {sl : CoarseSleep W} {ph : Phase W}
      (h : σ.sleeps id = some (sl, ph)) (hph : ∀ w n, ph ≠ .polling w n) :
      Step σ () ((σ.unregister sl).setSleep id none)
  -- the ticker
  | fire {σ : State W} (h : σ.ticker = .waiting) :
      Step σ () { σ with ticker := .firing σ.clock (List.range SHARDS) [], pass := σ.pass + 1 }
  | skip {σ : State W} {now s : ℕ} {rest : List ℕ} (h : σ.ticker = .firing now (s :: rest) [])
      (hlive : (σ.shards s).live = 0) : Step σ () { σ with ticker := .firing now rest [] }
  | scan {σ : State W} {now s : ℕ} {rest : List ℕ} (h : σ.ticker = .firing now (s :: rest) [])
      (hlive : (σ.shards s).live ≠ 0) :
      Step σ () { σ.setShard s ((σ.shards s).map (Entry.take now)) with
        ticker := .firing now rest (dueIn now (σ.shards s)) }
  | wake {σ : State W} {now : ℕ} {rest : List ℕ} {w : W} {due : List W}
      (h : σ.ticker = .firing now rest (w :: due)) :
      Step σ () { σ with ticker := .firing now rest due, woken := σ.woken ++ [w] }
  | finish {σ : State W} {now : ℕ} (h : σ.ticker = .firing now [] []) :
      Step σ () { σ with ticker := .waiting, last := some (σ.pass, now) }

def Init (σ : State W) : Prop := σ = init

abbrev Run [DecidableEq W] : State W → Prop := Reach (Init (W := W)) Step anyStep

/-! ### The invariant -/

/-- The waker is in the entry, or was taken after `since` wakes, and is due or was woken. -/
structure Waits (σ : State W) (e : Entry W) (w : W) (since : ℕ) : Prop where
  since_le : since ≤ σ.woken.length
  held : e.waker = some w ∨ e.waker = none ∧ (w ∈ σ.ticker.due ∨ w ∈ σ.woken.drop since)

/-- What passes that began after the poll have done. -/
structure Passed (σ : State W) (shard deadline : ℕ) (e : Entry W) (w : W) (since pass : ℕ) :
    Prop where
  pass_le : pass ≤ σ.pass
  scanned : ∀ now rest due, σ.ticker = .firing now rest due → pass < σ.pass → shard ∉ rest →
    deadline ≤ now → e.waker = none
  ended : ∀ p now, σ.last = some (p, now) → pass < p → deadline ≤ now → w ∈ σ.woken.drop since

/-- The entry at the key of a sleep. -/
def Holds (σ : State W) (sl : CoarseSleep W) (s i : ℕ) (e : Entry W) : Prop :=
  sl.key = some (s, i) ∧ s < SHARDS ∧ (σ.shards s).get i = some e ∧ e.deadline = sl.deadline

def Sound (σ : State W) (sl : CoarseSleep W) : Phase W → Prop
  | .idle => sl.key = none
  | .polling _ since => since ≤ σ.woken.length ∧ (sl.key = none ∨
      ∃ s i e w, Holds σ sl s i e ∧ sl.waker = some w ∧ Waits σ e w since)
  | .pending w since pass => ∃ s i e, Holds σ sl s i e ∧ sl.waker = some w ∧ Waits σ e w since ∧
      Passed σ s sl.deadline e w since pass

structure Inv (σ : State W) : Prop where
  exact : ∀ s, (σ.shards s).Exact
  sound : ∀ id sl ph, σ.sleeps id = some (sl, ph) → Sound σ sl ph
  apart : ∀ id id' sl sl' ph ph' k, σ.sleeps id = some (sl, ph) → σ.sleeps id' = some (sl', ph') →
    sl.key = some k → sl'.key = some k → id = id'
  owner : ∀ s i e, (σ.shards s).get i = some e →
    ∃ id sl ph, σ.sleeps id = some (sl, ph) ∧ sl.key = some (s, i)
  taken : ∀ s i e, (σ.shards s).get i = some e → e.waker = none → e.deadline ≤ σ.clock
  reading : ∀ now rest due, σ.ticker = .firing now rest due → now ≤ σ.clock
  last : ∀ p now, σ.last = some (p, now) → p ≤ σ.pass ∧ (σ.ticker ≠ .waiting → p < σ.pass)

/-! ### Steps of a sleep -/

theorem Waits.of_eq {σ σ' : State W} {e : Entry W} {w : W} {since : ℕ}
    (hticker : σ'.ticker = σ.ticker) (hwoken : σ'.woken = σ.woken) (h : Waits σ e w since) :
    Waits σ' e w since :=
  ⟨hwoken ▸ h.since_le, by rw [hticker, hwoken]; exact h.held⟩

/-- A sleep is as before where its entry and the ticker are. -/
theorem Sound.frame {σ σ' : State W} {sl : CoarseSleep W} {ph : Phase W}
    (hticker : σ'.ticker = σ.ticker) (hwoken : σ'.woken = σ.woken) (hpass : σ'.pass = σ.pass)
    (hlast : σ'.last = σ.last)
    (hget : ∀ s i, sl.key = some (s, i) → (σ'.shards s).get i = (σ.shards s).get i)
    (h : Sound σ sl ph) : Sound σ' sl ph := by
  have hholds : ∀ {s i e}, Holds σ sl s i e → Holds σ' sl s i e := fun ⟨hk, hs, he, hd⟩ =>
    ⟨hk, hs, (hget _ _ hk).trans he, hd⟩
  cases ph with
  | idle => exact h
  | polling w since =>
      obtain ⟨hle, hkey⟩ := h
      refine ⟨hwoken ▸ hle, hkey.imp_right ?_⟩
      rintro ⟨s, i, e, w', he, hw, hwaits⟩
      exact ⟨s, i, e, w', hholds he, hw, hwaits.of_eq hticker hwoken⟩
  | pending w since pass =>
      obtain ⟨s, i, e, he, hw, hwaits, hpassed⟩ := h
      refine ⟨s, i, e, hholds he, hw, hwaits.of_eq hticker hwoken, ?_⟩
      refine ⟨hpass ▸ hpassed.pass_le, ?_, ?_⟩
      · rw [hticker, hpass]
        exact hpassed.scanned
      · rw [hlast, hwoken]
        exact hpassed.ended

variable {σ : State W}

theorem Inv.holds (h : Inv σ) {id : ℕ} {sl : CoarseSleep W} {ph : Phase W}
    (hid : σ.sleeps id = some (sl, ph)) {s i : ℕ} (hkey : sl.key = some (s, i)) :
    ∃ e, Holds σ sl s i e := by
  have hsound := h.sound id sl ph hid
  cases ph with
  | idle =>
      rw [hsound] at hkey
      cases hkey
  | polling w since =>
      rcases hsound.2 with hnone | ⟨s', i', e, -, he, -⟩
      · rw [hnone] at hkey
        cases hkey
      · obtain ⟨rfl, rfl⟩ := Prod.mk.inj (Option.some.inj (he.1.symm.trans hkey))
        exact ⟨e, he⟩
  | pending w since pass =>
      obtain ⟨s', i', e, he, -⟩ := hsound
      obtain ⟨rfl, rfl⟩ := Prod.mk.inj (Option.some.inj (he.1.symm.trans hkey))
      exact ⟨e, he⟩

/-- What a step of one sleep has to keep. -/
theorem Inv.task (h : Inv σ) (id : ℕ) {shards' : ℕ → Shard W}
    {x' : Option (CoarseSleep W × Phase W)} (hexact : ∀ s, (shards' s).Exact)
    (hothers : ∀ id' sl' ph', id' ≠ id → σ.sleeps id' = some (sl', ph') → ∀ s i,
      sl'.key = some (s, i) → (shards' s).get i = (σ.shards s).get i)
    (hsound : ∀ sl' ph', x' = some (sl', ph') → Sound { σ with shards := shards' } sl' ph')
    (hapart : ∀ sl' ph' k, x' = some (sl', ph') → sl'.key = some k → ∀ id' sl'' ph'', id' ≠ id →
      σ.sleeps id' = some (sl'', ph'') → sl''.key ≠ some k)
    (howner : ∀ s i e, (shards' s).get i = some e →
      (∃ sl' ph', x' = some (sl', ph') ∧ sl'.key = some (s, i)) ∨
        (σ.shards s).get i = some e ∧
          ∀ sl ph, σ.sleeps id = some (sl, ph) → sl.key ≠ some (s, i))
    (htaken : ∀ s i e, (shards' s).get i = some e → e.waker = none → e.deadline ≤ σ.clock) :
    Inv { σ with shards := shards', sleeps := Function.update σ.sleeps id x' } := by
  refine ⟨hexact, fun id' sl' ph' hid' => ?_, fun id₁ id₂ sl₁ sl₂ ph₁ ph₂ k h₁ h₂ hk₁ hk₂ => ?_,
    fun s i e he => ?_, htaken, h.reading, h.last⟩
  · change Function.update σ.sleeps id x' id' = _ at hid'
    by_cases hne : id' = id
    · subst hne
      rw [Function.update_self] at hid'
      exact Sound.frame (σ := { σ with shards := shards' }) rfl rfl rfl rfl (fun _ _ _ => rfl)
        (hsound sl' ph' hid')
    · rw [Function.update_of_ne hne] at hid'
      exact Sound.frame (σ := σ) rfl rfl rfl rfl (hothers id' sl' ph' hne hid')
        (h.sound id' sl' ph' hid')
  · change Function.update σ.sleeps id x' id₁ = _ at h₁
    change Function.update σ.sleeps id x' id₂ = _ at h₂
    by_cases hne₁ : id₁ = id
    · by_cases hne₂ : id₂ = id
      · rw [hne₁, hne₂]
      · rw [hne₁, Function.update_self] at h₁
        rw [Function.update_of_ne hne₂] at h₂
        exact absurd hk₂ (hapart sl₁ ph₁ k h₁ hk₁ id₂ sl₂ ph₂ hne₂ h₂)
    · rw [Function.update_of_ne hne₁] at h₁
      by_cases hne₂ : id₂ = id
      · rw [hne₂, Function.update_self] at h₂
        exact absurd hk₁ (hapart sl₂ ph₂ k h₂ hk₂ id₁ sl₁ ph₁ hne₁ h₁)
      · rw [Function.update_of_ne hne₂] at h₂
        exact h.apart id₁ id₂ sl₁ sl₂ ph₁ ph₂ k h₁ h₂ hk₁ hk₂
  · rcases howner s i e he with ⟨sl', ph', hx, hkey⟩ | ⟨hold, hnot⟩
    · exact ⟨id, sl', ph', (Function.update_self ..).trans hx, hkey⟩
    · obtain ⟨id', sl', ph', hid', hkey⟩ := h.owner s i e hold
      have hne : id' ≠ id := by
        rintro rfl
        exact hnot sl' ph' hid' hkey
      exact ⟨id', sl', ph', (Function.update_of_ne hne ..).trans hid', hkey⟩

/-- A sleep that is gone, or that has no key any more, leaves its slot empty. -/
theorem Inv.unregister (h : Inv σ) {id : ℕ} {sl : CoarseSleep W} {ph : Phase W}
    (hid : σ.sleeps id = some (sl, ph)) {x' : Option (CoarseSleep W × Phase W)}
    (hx : ∀ sl' ph', x' = some (sl', ph') → sl'.key = none ∧ ph' = .idle) :
    Inv ((σ.unregister sl).setSleep id x') := by
  have hshards : ∃ shards', σ.unregister sl = { σ with shards := shards' } ∧
      (∀ s, (shards' s).Exact) ∧
      (∀ s i, sl.key ≠ some (s, i) → (shards' s).get i = (σ.shards s).get i) ∧
      ∀ s i, sl.key = some (s, i) → (shards' s).get i = none := by
    rw [State.unregister]
    cases hkey : sl.key with
    | none => exact ⟨σ.shards, rfl, h.exact, fun _ _ _ => rfl, fun _ _ hk => by cases hk⟩
    | some k =>
        obtain ⟨s, i⟩ := k
        obtain ⟨e, he⟩ := h.holds hid hkey
        refine ⟨_, rfl, fun s' => ?_, fun s' i' hk => ?_, fun s' i' hk => ?_⟩
        · by_cases hs : s' = s
          · subst hs
            rw [Function.update_self]
            exact (h.exact s').remove he.2.2.1
          · rw [Function.update_of_ne hs]
            exact h.exact s'
        · by_cases hs : s' = s
          · subst hs
            rw [Function.update_self]
            refine Slab.get_remove_ne ?_
            rintro rfl
            exact hk rfl
          · rw [Function.update_of_ne hs]
        · obtain ⟨rfl, rfl⟩ := Prod.mk.inj (Option.some.inj hk)
          rw [Function.update_self]
          exact Slab.get_remove_self _
  obtain ⟨shards', heq, hexact, hkeep, hgone⟩ := hshards
  rw [heq]
  refine h.task id hexact (fun id' sl' ph' hne hid' s i hk => ?_) (fun sl' ph' he => ?_)
    (fun sl' ph' k he hk => ?_) (fun s i e he => .inr ?_) fun s i e he hw => ?_
  · refine hkeep s i fun hk' => hne ?_
    exact h.apart id' id sl' sl ph' ph (s, i) hid' hid hk hk'
  · obtain ⟨hnone, rfl⟩ := hx sl' ph' he
    exact hnone
  · rw [(hx sl' ph' he).1] at hk
    cases hk
  · have hnot : sl.key ≠ some (s, i) := fun hk => by
      rw [hgone s i hk] at he
      cases he
    refine ⟨(hkeep s i hnot).symm.trans he, fun sl₁ ph₁ hid₁ => ?_⟩
    obtain ⟨rfl, rfl⟩ := Prod.mk.inj (Option.some.inj (hid₁.symm.trans hid))
    exact hnot
  · have hnot : sl.key ≠ some (s, i) := fun hk => by
      rw [hgone s i hk] at he
      cases he
    exact h.taken s i e ((hkeep s i hnot).symm.trans he) hw

/-- A step that changes neither a shard nor a key. -/
theorem Inv.keepKey (h : Inv σ) {id : ℕ} {sl : CoarseSleep W} {ph ph' : Phase W}
    (hid : σ.sleeps id = some (sl, ph)) (hsound : Sound σ sl ph') :
    Inv (σ.setSleep id (some (sl, ph'))) := by
  refine h.task id h.exact (fun _ _ _ _ _ _ _ _ => rfl) (fun sl₁ ph₁ he => ?_)
    (fun sl₁ ph₁ k he hk id' sl' ph'' hne hid' hk' => hne ?_) (fun s i e he => ?_) h.taken
  · obtain ⟨rfl, rfl⟩ := Prod.mk.inj (Option.some.inj he)
    exact hsound
  · obtain ⟨rfl, rfl⟩ := Prod.mk.inj (Option.some.inj he)
    exact h.apart id' id sl' sl ph'' ph k hid' hid hk' hk
  · by_cases hk : sl.key = some (s, i)
    · exact .inl ⟨sl, ph', rfl, hk⟩
    · refine .inr ⟨he, fun sl₁ ph₁ hid₁ => ?_⟩
      obtain ⟨rfl, rfl⟩ := Prod.mk.inj (Option.some.inj (hid₁.symm.trans hid))
      exact hk

/-- A poll that begins before the deadline finds the waker that the last one left. -/
theorem Inv.poll (h : Inv σ) {id : ℕ} {sl : CoarseSleep W} {ph : Phase W} (w : W)
    (hid : σ.sleeps id = some (sl, ph)) (hph : ∀ w n, ph ≠ .polling w n)
    (hearly : σ.clock < sl.deadline) :
    Inv (σ.setSleep id (some (sl, .polling w σ.woken.length))) := by
  refine h.keepKey hid ⟨Nat.le_refl _, ?_⟩
  have hsound := h.sound id sl ph hid
  cases ph with
  | idle => exact .inl hsound
  | polling w' n => exact absurd rfl (hph w' n)
  | pending w' since pass =>
      obtain ⟨s, i, e, he, hw, hwaits, -⟩ := hsound
      refine .inr ⟨s, i, e, w', he, hw, Nat.le_refl _, ?_⟩
      rcases hwaits.held with hheld | ⟨hnone, -⟩
      · exact .inl hheld
      · have := h.taken s i e he.2.2.1 hnone
        rw [he.2.2.2] at this
        exact absurd this (Nat.not_le.mpr hearly)

/-- No pass has begun since a poll that ends now. -/
theorem passed_now (h : Inv σ) (shard deadline : ℕ) (e : Entry W) (w : W) (since : ℕ) :
    Passed σ shard deadline e w since σ.pass :=
  ⟨Nat.le_refl _, fun _ _ _ _ hlt => absurd hlt (Nat.lt_irrefl _),
    fun p now hlast hlt => absurd hlt (Nat.not_lt.mpr (h.last p now hlast).1)⟩

/-- A new entry of a sleep that had none. -/
theorem Inv.insert (h : Inv σ) {id : ℕ} {sl : CoarseSleep W} {w : W} {since shard : ℕ}
    (hid : σ.sleeps id = some (sl, .polling w since)) (hshard : shard < SHARDS)
    (hnone : sl.key = none) {g : Shard W} {i : ℕ}
    (hinsert : (σ.shards shard).insert ⟨sl.deadline, some w⟩ = (g, i)) :
    Inv ((σ.setShard shard g).setSleep id
      (some ({ sl with key := some (shard, i), waker := some w }, .pending w since σ.pass))) := by
  have hexact := (h.exact shard).insert ⟨sl.deadline, some w⟩
  have hfresh := Slab.get_insert_fresh (h.exact shard) ⟨sl.deadline, some w⟩
  have hself := Slab.get_insert_self (h.exact shard) ⟨sl.deadline, some w⟩
  have hne : ∀ j, j ≠ i → g.get j = (σ.shards shard).get j := fun j hj => by
    have hget := Slab.get_insert_ne (s := σ.shards shard) (a := ⟨sl.deadline, some w⟩) (j := j)
    rw [hinsert] at hget
    exact hget hj
  rw [hinsert] at hexact hfresh hself
  have hkeep : ∀ s j, (s, j) ≠ (shard, i) →
      (Function.update σ.shards shard g s).get j = (σ.shards s).get j := by
    intro s j hj
    by_cases hs : s = shard
    · subst hs
      rw [Function.update_self]
      exact hne j fun heq => hj (by rw [heq])
    · rw [Function.update_of_ne hs]
  have hnew : (Function.update σ.shards shard g shard).get i = some ⟨sl.deadline, some w⟩ := by
    rw [Function.update_self]
    exact hself
  have hfree : ∀ id' sl' ph', σ.sleeps id' = some (sl', ph') → sl'.key ≠ some (shard, i) := by
    intro id' sl' ph' hid' hk
    obtain ⟨e, he⟩ := h.holds hid' hk
    rw [he.2.2.1] at hfresh
    cases hfresh
  refine h.task id (fun s => ?_) (fun id' sl' ph' _ hid' s j hk => ?_) (fun sl' ph' he => ?_)
    (fun sl' ph' k he hk id' sl'' ph'' _ hid' hk' => ?_) (fun s j e he => ?_) fun s j e he hw => ?_
  · change (Function.update σ.shards shard g s).Exact
    by_cases hs : s = shard
    · subst hs
      rw [Function.update_self]
      exact hexact
    · rw [Function.update_of_ne hs]
      exact h.exact s
  · refine hkeep s j ?_
    rintro heq
    rw [heq] at hk
    exact hfree id' sl' ph' hid' hk
  · obtain ⟨rfl, rfl⟩ := Prod.mk.inj (Option.some.inj he)
    refine ⟨shard, i, _, ⟨rfl, hshard, hnew, rfl⟩, rfl, ?_, ?_⟩
    · exact ⟨(h.sound id sl _ hid).1, .inl rfl⟩
    · have hpassed := passed_now h shard sl.deadline ⟨sl.deadline, some w⟩ w since
      exact ⟨hpassed.pass_le, hpassed.scanned, hpassed.ended⟩
  · obtain ⟨rfl, rfl⟩ := Prod.mk.inj (Option.some.inj he)
    obtain rfl := Option.some.inj hk
    exact hfree id' sl'' ph'' hid' hk'
  · by_cases hj : (s, j) = (shard, i)
    · obtain ⟨rfl, rfl⟩ := Prod.mk.inj hj
      exact .inl ⟨_, _, rfl, rfl⟩
    · refine .inr ⟨(hkeep s j hj).symm.trans he, fun sl₁ ph₁ hid₁ => ?_⟩
      obtain ⟨rfl, rfl⟩ := Prod.mk.inj (Option.some.inj (hid₁.symm.trans hid))
      rw [hnone]
      exact fun hk => by cases hk
  · by_cases hj : (s, j) = (shard, i)
    · obtain ⟨rfl, rfl⟩ := Prod.mk.inj hj
      obtain rfl := Option.some.inj (hnew.symm.trans he)
      cases hw
    · exact h.taken s j e ((hkeep s j hj).symm.trans he) hw

/-- The entry of a sleep gets the waker of a later poll. -/
theorem Inv.refresh (h : Inv σ) {id : ℕ} {sl : CoarseSleep W} {w : W} {since s i : ℕ}
    (hid : σ.sleeps id = some (sl, .polling w since)) (hkey : sl.key = some (s, i)) :
    Inv ((σ.setShard s ((σ.shards s).modify i fun e => { e with waker := some w })).setSleep id
      (some ({ sl with waker := some w }, .pending w since σ.pass))) := by
  obtain ⟨e, hholds⟩ := h.holds hid hkey
  have hkeep : ∀ s' j, (s', j) ≠ (s, i) →
      (Function.update σ.shards s
        ((σ.shards s).modify i fun e => { e with waker := some w }) s').get j =
        (σ.shards s').get j := by
    intro s' j hj
    by_cases hs : s' = s
    · subst hs
      rw [Function.update_self]
      exact Slab.get_modify_ne (fun heq => hj (by rw [heq])) _
    · rw [Function.update_of_ne hs]
  have hnew : (Function.update σ.shards s
      ((σ.shards s).modify i fun e => { e with waker := some w }) s).get i =
      some { e with waker := some w } := by
    rw [Function.update_self, Slab.get_modify_self, hholds.2.2.1, Option.map_some]
  refine h.task id (fun s' => ?_) (fun id' sl' ph' hne hid' s' j hk => ?_) (fun sl' ph' he => ?_)
    (fun sl' ph' k he hk id' sl'' ph'' hne hid' hk' => hne ?_) (fun s' j e' he => ?_)
    fun s' j e' he hw => ?_
  · change (Function.update σ.shards s
      ((σ.shards s).modify i fun e => { e with waker := some w }) s').Exact
    by_cases hs : s' = s
    · subst hs
      rw [Function.update_self]
      exact (h.exact s').modify i _
    · rw [Function.update_of_ne hs]
      exact h.exact s'
  · refine hkeep s' j fun heq => hne ?_
    exact h.apart id' id sl' sl ph' _ (s', j) hid' hid hk (heq ▸ hkey)
  · obtain ⟨rfl, rfl⟩ := Prod.mk.inj (Option.some.inj he)
    refine ⟨s, i, _, ⟨hkey, hholds.2.1, hnew, hholds.2.2.2⟩, rfl, ?_, ?_⟩
    · exact ⟨(h.sound id sl _ hid).1, .inl rfl⟩
    · have hpassed := passed_now h s sl.deadline { e with waker := some w } w since
      exact ⟨hpassed.pass_le, hpassed.scanned, hpassed.ended⟩
  · obtain ⟨rfl, rfl⟩ := Prod.mk.inj (Option.some.inj he)
    exact h.apart id' id sl'' sl ph'' _ k hid' hid hk' hk
  · by_cases hj : (s', j) = (s, i)
    · obtain ⟨rfl, rfl⟩ := Prod.mk.inj hj
      exact .inl ⟨_, _, rfl, hkey⟩
    · refine .inr ⟨(hkeep s' j hj).symm.trans he, fun sl₁ ph₁ hid₁ hk => hj ?_⟩
      obtain ⟨rfl, rfl⟩ := Prod.mk.inj (Option.some.inj (hid₁.symm.trans hid))
      exact Option.some.inj (hk.symm.trans hkey)
  · by_cases hj : (s', j) = (s, i)
    · obtain ⟨rfl, rfl⟩ := Prod.mk.inj hj
      obtain rfl := Option.some.inj (hnew.symm.trans he)
      cases hw
    · exact h.taken s' j e' ((hkeep s' j hj).symm.trans he) hw

theorem Inv.register [DecidableEq W] (h : Inv σ) {id : ℕ} {sl : CoarseSleep W} {w : W}
    {since shard : ℕ} (hid : σ.sleeps id = some (sl, .polling w since)) (hshard : shard < SHARDS) :
    Inv ((σ.register sl w shard).1.setSleep id
      (some ((σ.register sl w shard).2, .pending w since σ.pass))) := by
  rw [State.register]
  split
  · next hnone => exact h.insert hid hshard hnone rfl
  · next s i hkey =>
    split
    · next hw =>
      -- the waker is the one of the entry, or was taken since the poll began
      refine h.keepKey hid ?_
      rcases (h.sound id sl _ hid).2 with hnone | ⟨s', i', e, w', he, hw', hwaits⟩
      · rw [hnone] at hkey
        cases hkey
      · obtain rfl := Option.some.inj (hw'.symm.trans hw)
        exact ⟨s', i', e, he, hw, hwaits, passed_now h _ _ _ _ _⟩
    · exact h.refresh hid hkey

/-! ### Steps of the ticker -/

/-- What a step of the ticker has to keep of an entry. -/
structure Kept (σ σ' : State W) (s : ℕ) (e e' : Entry W) : Prop where
  deadline : e'.deadline = e.deadline
  waits : ∀ w since, Waits σ e w since → Waits σ' e' w since
  passed : ∀ w since pass, Waits σ e w since → Passed σ s e.deadline e w since pass →
    Passed σ' s e.deadline e' w since pass

theorem Sound.kept {σ' : State W} {sl : CoarseSleep W} {ph : Phase W}
    (hwoken : σ.woken.length ≤ σ'.woken.length)
    (hkept : ∀ s i e, s < SHARDS → (σ.shards s).get i = some e →
      ∃ e', (σ'.shards s).get i = some e' ∧ Kept σ σ' s e e')
    (h : Sound σ sl ph) : Sound σ' sl ph := by
  cases ph with
  | idle => exact h
  | polling w since =>
      refine ⟨Nat.le_trans h.1 hwoken, h.2.imp_right ?_⟩
      rintro ⟨s, i, e, w', ⟨hk, hs, he, hd⟩, hw, hwaits⟩
      obtain ⟨e', he', hkeep⟩ := hkept s i e hs he
      exact ⟨s, i, e', w', ⟨hk, hs, he', hkeep.deadline.trans hd⟩, hw, hkeep.waits _ _ hwaits⟩
  | pending w since pass =>
      obtain ⟨s, i, e, ⟨hk, hs, he, hd⟩, hw, hwaits, hpassed⟩ := h
      obtain ⟨e', he', hkeep⟩ := hkept s i e hs he
      refine ⟨s, i, e', ⟨hk, hs, he', hkeep.deadline.trans hd⟩, hw, hkeep.waits _ _ hwaits, ?_⟩
      rw [← hd] at hpassed ⊢
      exact hkeep.passed _ _ _ hwaits hpassed

/-- A step of the ticker that leaves every slot as it is, occupied or not. -/
theorem Inv.ticks (h : Inv σ) {σ' : State W} (hsleeps : σ'.sleeps = σ.sleeps)
    (hexact : ∀ s, (σ'.shards s).Exact) (hwoken : σ.woken.length ≤ σ'.woken.length)
    (hkept : ∀ s i e, s < SHARDS → (σ.shards s).get i = some e →
      ∃ e', (σ'.shards s).get i = some e' ∧ Kept σ σ' s e e')
    (hslot : ∀ s i e', (σ'.shards s).get i = some e' → ∃ e, (σ.shards s).get i = some e ∧
      (e'.waker = none → e.waker = none ∨ e.deadline ≤ σ'.clock) ∧ e'.deadline = e.deadline)
    (hclock : σ.clock ≤ σ'.clock)
    (hreading : ∀ now rest due, σ'.ticker = .firing now rest due → now ≤ σ'.clock)
    (hlast : ∀ p now, σ'.last = some (p, now) →
      p ≤ σ'.pass ∧ (σ'.ticker ≠ .waiting → p < σ'.pass)) :
    Inv σ' := by
  refine ⟨hexact, fun id sl ph hid => ?_, ?_, fun s i e' he' => ?_, fun s i e' he' hw => ?_,
    hreading, hlast⟩
  · rw [hsleeps] at hid
    exact (h.sound id sl ph hid).kept hwoken hkept
  · rw [hsleeps]
    exact h.apart
  · obtain ⟨e, he, -⟩ := hslot s i e' he'
    rw [hsleeps]
    exact h.owner s i e he
  · obtain ⟨e, he, htaken, hd⟩ := hslot s i e' he'
    rw [hd]
    exact (htaken hw).elim (fun hnone => Nat.le_trans (h.taken s i e he hnone) hclock) id

/-- A step of the ticker that changes no shard. -/
theorem Inv.sameShards (h : Inv σ) {σ' : State W} (hsleeps : σ'.sleeps = σ.sleeps)
    (hshards : σ'.shards = σ.shards) (hwoken : σ.woken.length ≤ σ'.woken.length)
    (hkept : ∀ s i e, s < SHARDS → (σ.shards s).get i = some e → Kept σ σ' s e e)
    (hclock : σ.clock ≤ σ'.clock)
    (hreading : ∀ now rest due, σ'.ticker = .firing now rest due → now ≤ σ'.clock)
    (hlast : ∀ p now, σ'.last = some (p, now) →
      p ≤ σ'.pass ∧ (σ'.ticker ≠ .waiting → p < σ'.pass)) :
    Inv σ' := by
  refine h.ticks hsleeps (hshards ▸ h.exact) hwoken (fun s i e hs he => ?_) (fun s i e he => ?_)
    hclock hreading hlast
  · exact ⟨e, hshards ▸ he, hkept s i e hs he⟩
  · exact ⟨e, hshards ▸ he, .inl, rfl⟩

theorem Inv.time (h : Inv σ) {clock : ℕ} (hle : σ.clock ≤ clock) :
    Inv { σ with clock := clock } := by
  refine h.sameShards rfl rfl (Nat.le_refl _) (fun s i e hs he => ?_) hle
    (fun now rest due hfiring => Nat.le_trans (h.reading now rest due hfiring) hle) h.last
  exact ⟨rfl, fun w since hw => ⟨hw.since_le, hw.held⟩,
    fun w since pass _ hp => ⟨hp.pass_le, hp.scanned, hp.ended⟩⟩

theorem Inv.fire (h : Inv σ) (hwaiting : σ.ticker = .waiting) :
    Inv { σ with ticker := .firing σ.clock (List.range SHARDS) [], pass := σ.pass + 1 } := by
  refine h.sameShards rfl rfl (Nat.le_refl _) (fun s i e hs he => ?_) (Nat.le_refl _) ?_ ?_
  · refine ⟨rfl, fun w since hw => ⟨hw.since_le, ?_⟩, fun w since pass _ hp => ?_⟩
    · have hheld := hw.held
      rw [hwaiting] at hheld
      exact hheld
    · refine ⟨Nat.le_succ_of_le hp.pass_le, fun now rest due hfiring _ hnot _ => ?_, hp.ended⟩
      -- every shard is still to come
      injection hfiring with _ hrest _
      rw [← hrest] at hnot
      exact absurd (List.mem_range.mpr hs) hnot
  · intro now rest due hfiring
    injection hfiring with hnow _ _
    exact Nat.le_of_eq hnow.symm
  · intro p now hlast
    have hle := (h.last p now hlast).1
    exact ⟨Nat.le_succ_of_le hle, fun _ => Nat.lt_succ_of_le hle⟩

/-- **A shard with no live entry holds nothing to wake.** -/
theorem Inv.skip (h : Inv σ) {now s : ℕ} {rest : List ℕ}
    (hticker : σ.ticker = .firing now (s :: rest) []) (hlive : (σ.shards s).live = 0) :
    Inv { σ with ticker := .firing now rest [] } := by
  refine h.sameShards rfl rfl (Nat.le_refl _) (fun s' i e hs he => ?_) (Nat.le_refl _) ?_ ?_
  · have hne : s' ≠ s := by
      rintro rfl
      rw [(h.exact s').get_of_live hlive i] at he
      cases he
    refine ⟨rfl, fun w since hw => ⟨hw.since_le, ?_⟩, fun w since pass _ hp => ?_⟩
    · have hheld := hw.held
      rw [hticker] at hheld
      exact hheld
    · refine ⟨hp.pass_le, fun now' rest' due hfiring hlt hnot hle => ?_, hp.ended⟩
      injection hfiring with hnow hrest _
      subst hnow hrest
      exact hp.scanned now _ _ hticker hlt (fun hmem => (List.mem_cons.mp hmem).elim hne hnot) hle
  · intro now' rest' due hfiring
    injection hfiring with hnow _ _
    exact hnow ▸ h.reading now _ _ hticker
  · intro p now' hlast
    have hp := h.last p now' hlast
    exact ⟨hp.1, fun _ => hp.2 (by rw [hticker]; exact fun heq => by cases heq)⟩

@[simp] theorem Entry.take_deadline (now : ℕ) (e : Entry W) :
    (e.take now).deadline = e.deadline := by
  rw [Entry.take]
  split <;> rfl

theorem Entry.take_waker (now : ℕ) (e : Entry W) :
    (e.take now).waker = if e.deadline ≤ now then none else e.waker := by
  rw [Entry.take]
  split <;> rfl

theorem mem_dueIn {now : ℕ} {g : Shard W} {i : ℕ} {e : Entry W} {w : W} (he : g.get i = some e)
    (hle : e.deadline ≤ now) (hw : e.waker = some w) : w ∈ dueIn now g := by
  refine List.mem_filterMap.mpr ⟨some e, List.mem_of_getElem? (Slab.entries_of_get he), ?_⟩
  rw [Option.bind_some, if_pos hle, hw]

/-- The wakers of the expired entries of a shard are taken and are due. -/
theorem Inv.scan (h : Inv σ) {now s : ℕ} {rest : List ℕ}
    (hticker : σ.ticker = .firing now (s :: rest) []) :
    Inv { σ.setShard s ((σ.shards s).map (Entry.take now)) with
      ticker := .firing now rest (dueIn now (σ.shards s)) } := by
  have hreading := h.reading now _ _ hticker
  have hself : ∀ i, (Function.update σ.shards s ((σ.shards s).map (Entry.take now)) s).get i =
      ((σ.shards s).get i).map (Entry.take now) := fun i => by
    rw [Function.update_self]
    exact Slab.get_map _ i
  have hother : ∀ s', s' ≠ s →
      Function.update σ.shards s ((σ.shards s).map (Entry.take now)) s' = σ.shards s' :=
    fun s' hs => Function.update_of_ne hs ..
  refine h.ticks rfl (fun s' => ?_) (Nat.le_refl _) (fun s' i e hs he => ?_) (fun s' i e he => ?_)
    (Nat.le_refl _) ?_ ?_
  · change (Function.update σ.shards s ((σ.shards s).map (Entry.take now)) s').Exact
    by_cases hs : s' = s
    · rw [hs, Function.update_self]
      exact (h.exact s).map _
    · rw [hother s' hs]
      exact h.exact s'
  · by_cases hss : s' = s
    · subst hss
      refine ⟨e.take now, (hself i).trans (by rw [he]; rfl), e.take_deadline now,
        fun w since hw => ⟨hw.since_le, ?_⟩, fun w since pass _ hp => ?_⟩
      · rw [Entry.take_waker]
        have hheld := hw.held
        rw [hticker] at hheld
        rcases hheld with hsome | ⟨hnone, hdue | hwoken⟩
        · split
          · next hle => exact .inr ⟨rfl, .inl (mem_dueIn he hle hsome)⟩
          · exact .inl hsome
        · cases hdue
        · refine .inr ⟨?_, .inr hwoken⟩
          split
          · rfl
          · exact hnone
      · refine ⟨hp.pass_le, fun now' rest' due hfiring _ _ hle => ?_, hp.ended⟩
        injection hfiring with hnow _ _
        subst hnow
        rw [Entry.take_waker, if_pos hle]
    · refine ⟨e, (congrArg (Slab.get · i) (hother s' hss)).trans he, rfl,
        fun w since hw => ⟨hw.since_le, ?_⟩, fun w since pass _ hp => ?_⟩
      · have hheld := hw.held
        rw [hticker] at hheld
        rcases hheld with hsome | ⟨hnone, hdue | hwoken⟩
        · exact .inl hsome
        · cases hdue
        · exact .inr ⟨hnone, .inr hwoken⟩
      · refine ⟨hp.pass_le, fun now' rest' due hfiring hlt hnot hle => ?_, hp.ended⟩
        injection hfiring with hnow hrest _
        subst hnow hrest
        exact hp.scanned now _ _ hticker hlt
          (fun hmem => (List.mem_cons.mp hmem).elim hss hnot) hle
  · by_cases hss : s' = s
    · subst hss
      obtain ⟨e₀, he₀, rfl⟩ := Option.map_eq_some_iff.mp ((hself i).symm.trans he)
      refine ⟨e₀, he₀, fun hw => ?_, e₀.take_deadline now⟩
      rw [Entry.take_waker] at hw
      split at hw
      · next hle => exact .inr (Nat.le_trans hle hreading)
      · exact .inl hw
    · exact ⟨e, (congrArg (Slab.get · i) (hother s' hss)).symm.trans he, .inl, rfl⟩
  · intro now' rest' due hfiring
    injection hfiring with hnow _ _
    exact hnow ▸ hreading
  · intro p now' hlast
    have hp := h.last p now' hlast
    exact ⟨hp.1, fun _ => hp.2 (by rw [hticker]; exact fun heq => by cases heq)⟩

theorem mem_drop_append {l m : List W} {n : ℕ} (hn : n ≤ l.length) {w : W} :
    w ∈ (l ++ m).drop n ↔ w ∈ l.drop n ∨ w ∈ m := by
  rw [List.drop_append_of_le_length hn, List.mem_append]

/-- The wake of one waker that is due. -/
theorem Inv.wake (h : Inv σ) {now : ℕ} {rest : List ℕ} {w : W} {due : List W}
    (hticker : σ.ticker = .firing now rest (w :: due)) :
    Inv { σ with ticker := .firing now rest due, woken := σ.woken ++ [w] } := by
  have hlength : σ.woken.length ≤ (σ.woken ++ [w]).length := by
    rw [List.length_append]
    exact Nat.le_add_right ..
  refine h.sameShards rfl rfl hlength (fun s i e hs he => ?_) (Nat.le_refl _) ?_ ?_
  · refine ⟨rfl, fun w' since hw => ⟨Nat.le_trans hw.since_le hlength, ?_⟩,
      fun w' since pass hw hp => ?_⟩
    · have hheld := hw.held
      rw [hticker] at hheld
      refine hheld.imp_right (And.imp_right fun hor => ?_)
      rw [mem_drop_append hw.since_le]
      rcases hor with hdue | hwoken
      · rcases List.mem_cons.mp hdue with rfl | hdue
        · exact .inr (.inr (.head _))
        · exact .inl hdue
      · exact .inr (.inl hwoken)
    · refine ⟨hp.pass_le, fun now' rest' due' hfiring hlt hnot hle => ?_,
        fun p now' hl hlt hle => ?_⟩
      · injection hfiring with hnow hrest _
        subst hnow hrest
        exact hp.scanned now _ _ hticker hlt hnot hle
      · exact (mem_drop_append hw.since_le).mpr (.inl (hp.ended p now' hl hlt hle))
  · intro now' rest' due' hfiring
    injection hfiring with hnow _ _
    exact hnow ▸ h.reading now _ _ hticker
  · intro p now' hlast
    have hp := h.last p now' hlast
    exact ⟨hp.1, fun _ => hp.2 (by rw [hticker]; exact fun heq => by cases heq)⟩

/-- A pass that ends has woken what was due when it began. -/
theorem Inv.finish (h : Inv σ) {now : ℕ} (hticker : σ.ticker = .firing now [] []) :
    Inv { σ with ticker := .waiting, last := some (σ.pass, now) } := by
  refine h.sameShards rfl rfl (Nat.le_refl _) (fun s i e hs he => ?_) (Nat.le_refl _)
    (fun _ _ _ hfiring => by cases hfiring) ?_
  · refine ⟨rfl, fun w since hw => ⟨hw.since_le, ?_⟩, fun w since pass hw hp => ?_⟩
    · have hheld := hw.held
      rw [hticker] at hheld
      exact hheld
    · refine ⟨hp.pass_le, (fun _ _ _ hfiring => by cases hfiring), fun p now' hl hlt hle => ?_⟩
      obtain ⟨rfl, rfl⟩ := Prod.mk.inj (Option.some.inj hl)
      have hnone := hp.scanned _ _ _ hticker hlt List.not_mem_nil hle
      have hheld := hw.held
      rw [hticker, hnone] at hheld
      rcases hheld with hsome | ⟨-, hdue | hwoken⟩
      · cases hsome
      · cases hdue
      · exact hwoken
  · intro p now' hl
    obtain ⟨rfl, rfl⟩ := Prod.mk.inj (Option.some.inj hl)
    exact ⟨Nat.le_refl _, fun hne => absurd rfl hne⟩

/-! ### Runs -/

theorem inv_init : Inv (init (W := W)) := by
  refine ⟨fun s => Slab.exact_empty, ?_, ?_, ?_, ?_, ?_, ?_⟩
  · exact fun _ _ _ h => by cases h
  · exact fun _ _ _ _ _ _ _ h => by cases h
  · exact fun _ _ _ h => by cases h
  · exact fun _ _ _ h => by cases h
  · exact fun _ _ _ h => by cases h
  · exact fun _ _ h => by cases h

theorem Inv.step [DecidableEq W] {σ' : State W} (h : Inv σ) (hstep : Step σ () σ') : Inv σ' := by
  cases hstep with
  | time hle => exact h.time hle
  | sleepAt deadline hnone =>
      refine h.task _ h.exact (fun _ _ _ _ _ _ _ _ => rfl) (fun sl' ph' he => ?_)
        (fun sl' ph' k he hk => ?_) (fun s i e he => .inr ⟨he, fun sl ph hid => ?_⟩) h.taken
      · obtain ⟨rfl, rfl⟩ := Prod.mk.inj (Option.some.inj he)
        rfl
      · obtain ⟨rfl, rfl⟩ := Prod.mk.inj (Option.some.inj he)
        cases hk
      · rw [hnone] at hid
        cases hid
  | ready hid hph hdue =>
      refine h.unregister hid fun sl' ph' he => ?_
      obtain ⟨rfl, rfl⟩ := Prod.mk.inj (Option.some.inj he)
      exact ⟨rfl, rfl⟩
  | poll w hid hph hearly => exact h.poll w hid hph hearly
  | pend hid hshard => exact h.register hid hshard
  | reset deadline hid hph =>
      refine h.unregister hid fun sl' ph' he => ?_
      obtain ⟨rfl, rfl⟩ := Prod.mk.inj (Option.some.inj he)
      exact ⟨rfl, rfl⟩
  | drop hid hph => exact h.unregister hid fun _ _ he => by cases he
  | fire hwaiting => exact h.fire hwaiting
  | skip hticker hlive => exact h.skip hticker hlive
  | scan hticker hlive => exact h.scan hticker
  | wake hticker => exact h.wake hticker
  | finish hticker => exact h.finish hticker

theorem Run.inv [DecidableEq W] (r : Run σ) : Inv σ :=
  Reach.inv (fun _ h => h ▸ inv_init) (fun _ _ _ h hstep _ => h.step hstep) r

/-- **Wake-up.** The waker of the last pending poll was woken since that poll began, once a pass
that began after it, at the deadline or later, has ended. -/
theorem woken_by_pass [DecidableEq W] (r : Run σ) {id : ℕ} {sl : CoarseSleep W} {w : W}
    {since pass : ℕ} (hid : σ.sleeps id = some (sl, .pending w since pass)) {p now : ℕ}
    (hlast : σ.last = some (p, now)) (hpass : pass < p) (hdue : sl.deadline ≤ now) :
    w ∈ σ.woken.drop since := by
  obtain ⟨s, i, e, -, -, -, hpassed⟩ := r.inv.sound id sl _ hid
  exact hpassed.ended p now hlast hpass hdue

/-- A pass leaves the shards with no live entry alone. -/
theorem Run.skips [DecidableEq W] {σ : State W} (r : Run σ) {now : ℕ} {rest : List ℕ}
    (hticker : σ.ticker = .firing now rest []) (hlive : ∀ s ∈ rest, (σ.shards s).live = 0) :
    Run { σ with ticker := .firing now [] [] } := by
  induction rest generalizing σ with
  | nil => exact hticker ▸ r
  | cons s rest ih =>
      have r' : Run { σ with ticker := .firing now rest [] } :=
        r.step (.skip hticker (hlive s (.head _))) trivial
      have hrun := ih r' rfl fun s' hs => hlive s' (.tail _ hs)
      exact hrun

/-- A poll at 0 for a deadline at 1, and the pass at 1. -/
theorem woken_by_pass_one : ∃ σ : State ℕ, Run σ ∧
    σ.sleeps 0 = some (⟨1, some (0, 0), some 7⟩, .pending 7 0 0) ∧ 7 ∈ σ.woken.drop 0 := by
  have hpoll : ∀ (w : ℕ) n, Phase.idle ≠ .polling w n := fun _ _ heq => by cases heq
  have r₁ : Run (init.setSleep 0 (some (⟨1, none, none⟩, Phase.idle (W := ℕ)))) :=
    (Reach.init rfl : Run init).step (.sleepAt 1 rfl) trivial
  have r₂ := r₁.step (.poll 7 (State.setSleep_self ..) hpoll Nat.zero_lt_one) trivial
  have r₃ := r₂.step (.pend (State.setSleep_self ..) (by decide : 0 < SHARDS)) trivial
  have r₄ := (r₃.step (.time (Nat.zero_le 1)) trivial).step (.fire rfl) trivial
  have r₅ := r₄.step (.scan rfl (by decide)) trivial
  have r₆ := Run.skips (r₅.step (.wake rfl) trivial) rfl (by decide +kernel)
  have r₇ := r₆.step (.finish rfl) trivial
  have hwoken : ∀ σ : State ℕ, Run σ →
      σ.sleeps 0 = some (⟨1, some (0, 0), some 7⟩, .pending 7 0 0) → σ.last = some (1, 1) →
      7 ∈ σ.woken.drop 0 :=
    fun _ r hid hlast => woken_by_pass r hid hlast Nat.zero_lt_one (Nat.le_refl 1)
  exact ⟨_, r₇, rfl, hwoken _ r₇ rfl rfl⟩

/-- **Exclusive slots.** An occupied slot is the slot of one sleep and has its deadline; no other
sleep has that key, an empty one is in the free list once, and `live` counts the others. -/
theorem slots_exclusive [DecidableEq W] (r : Run σ) (s : ℕ) :
    (σ.shards s).Exact ∧ ∀ i e, (σ.shards s).get i = some e →
      ∃ id sl ph, σ.sleeps id = some (sl, ph) ∧ sl.key = some (s, i) ∧
        e.deadline = sl.deadline ∧ ∀ id' sl' ph', σ.sleeps id' = some (sl', ph') →
          sl'.key = some (s, i) → id' = id := by
  refine ⟨r.inv.exact s, fun i e he => ?_⟩
  obtain ⟨id, sl, ph, hid, hkey⟩ := r.inv.owner s i e he
  obtain ⟨e', hk, -, he', hd⟩ := r.inv.holds hid hkey
  obtain rfl := Option.some.inj (he.symm.trans he')
  exact ⟨id, sl, ph, hid, hkey, hd, fun id' sl' ph' hid' hk' =>
    r.inv.apart id' id sl' sl ph' ph _ hid' hid hk' hkey⟩

theorem slots_exclusive_one : ∃ σ : State ℕ, (∃ e, (σ.shards 3).get 0 = some e) ∧
    ((σ.shards 3).Exact ∧ ∀ i e, (σ.shards 3).get i = some e →
      ∃ id sl ph, σ.sleeps id = some (sl, ph) ∧ sl.key = some (3, i) ∧
        e.deadline = sl.deadline ∧ ∀ id' sl' ph', σ.sleeps id' = some (sl', ph') →
          sl'.key = some (3, i) → id' = id) := by
  have hpoll : ∀ (w : ℕ) n, Phase.idle ≠ .polling w n := fun _ _ heq => by cases heq
  have r₁ : Run (init.setSleep 0 (some (⟨1, none, none⟩, Phase.idle (W := ℕ)))) :=
    (Reach.init rfl : Run init).step (.sleepAt 1 rfl) trivial
  have r₂ := r₁.step (.poll 7 (State.setSleep_self ..) hpoll Nat.zero_lt_one) trivial
  have r₃ := r₂.step (.pend (State.setSleep_self ..) (by decide : 3 < SHARDS)) trivial
  exact ⟨_, ⟨_, rfl⟩, slots_exclusive r₃ 3⟩

end Brust.Server.Timer
