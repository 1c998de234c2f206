import Mathlib.Data.List.Infix
import Mathlib.Data.List.Count
import Brust.Instances.Machine

/-!
# Instances — Cleanups of effects

A cleanup that a run returned is the effect's until it is executed (`Orderly`).  A step keeps this
where a run that goes on after the cleanup of the run before finds the effect neither disposed nor
with another cleanup, and one that ends stores its cleanup neither over another nor on an effect
that is disposed (`Orderly.step`).
-/

namespace Brust.Instances.State

/-- What effects returned, executed and started. -/
structure Orderly (σ : State) : Prop where
  once : ∀ e c, σ.log.count (.returned e c) = σ.log.count (.executed e c) +
    (σ.effects e).cleanup.toList.count c
  unique : ∀ e c, σ.log.count (.returned e c) ≤ 1
  fresh : ∀ e c, σ.nCleanups ≤ c → .returned e c ∉ σ.log
  gone : ∀ e, (σ.effects e).disposed = true → (σ.effects e).cleanup = none
  marked : ∀ e, .disposed e ∈ σ.log → (σ.effects e).disposed = true
  started : ∀ e l, .started e :: l <:+ σ.log →
    .disposed e ∉ l ∧ ∀ c, .returned e c ∈ l → .executed e c ∈ l

namespace Orderly

variable {σ σ' : State} {e i : ℕ}

theorem init : Orderly State.init := by
  refine ⟨fun _ _ => rfl, fun _ _ => Nat.zero_le _, ?_, fun _ h => (by cases h), ?_, ?_⟩
  · rintro _ _ _ ⟨⟩
  · rintro _ ⟨⟩
  · intro e l h
    cases List.suffix_nil.mp h

/-- What it does not look at. -/
theorem same (h : σ.Orderly) (heffects : σ'.effects = σ.effects)
    (hfresh : σ'.nCleanups = σ.nCleanups) (hlog : σ'.log = σ.log) : σ'.Orderly := by
  obtain ⟨once, unique, fresh, gone, marked, started⟩ := h
  exact ⟨heffects ▸ hlog ▸ once, hlog ▸ unique, hfresh ▸ hlog ▸ fresh, heffects ▸ gone,
    heffects ▸ hlog ▸ marked, hlog ▸ started⟩

/-- An effect that has no cleanup left has executed those that it returned. -/
theorem executed (h : σ.Orderly) (hc : (σ.effects e).cleanup = none) {c : ℕ}
    (hr : .returned e c ∈ σ.log) : .executed e c ∈ σ.log := by
  have honce := h.once e c
  rw [hc, Option.toList_none, List.count_nil, Nat.add_zero] at honce
  exact List.count_pos_iff.mp (honce ▸ List.count_pos_iff.mpr hr)

/-- An event that is none of the effects'. -/
theorem emit (h : σ.Orderly) {ev : Event} (hev : ∀ e c, ev ≠ .returned e c ∧ ev ≠ .executed e c ∧
    ev ≠ .disposed e ∧ ev ≠ .started e) : (σ.emit ev).Orderly := by
  refine ⟨fun e c => ?_, fun e c => ?_, fun e c hc hmem => ?_, h.gone, fun e he => ?_,
    fun e l hl => ?_⟩
  · simp only [State.emit, List.count_cons_of_ne (hev e c).1,
      List.count_cons_of_ne (hev e c).2.1]
    exact h.once e c
  · simp only [State.emit, List.count_cons_of_ne (hev e c).1]
    exact h.unique e c
  · rcases List.mem_cons.mp hmem with hmem | hmem
    · exact (hev e c).1 hmem.symm
    · exact h.fresh e c hc hmem
  · rcases List.mem_cons.mp he with he | he
    · exact absurd he.symm (hev e 0).2.2.1
    · exact h.marked e he
  · rcases List.suffix_cons_iff.mp hl with hl | hl
    · cases hl
      exact absurd rfl (hev e 0).2.2.2
    · exact h.started e l hl

/-- A run starts: the cleanups of the runs before were executed. -/
theorem start (h : σ.Orderly) (hd : (σ.effects e).disposed = false)
    (hc : (σ.effects e).cleanup = none) : (σ.start e).Orderly := by
  have hstarted : (σ.emit (.started e)).Orderly := by
    refine ⟨fun e' c => ?_, fun e' c => ?_, fun e' c hc hmem => ?_, h.gone, fun e' he => ?_,
      fun e' l hl => ?_⟩
    · simpa [State.emit] using h.once e' c
    · simpa [State.emit] using h.unique e' c
    · have hmem : .returned e' c ∈ σ.log := by simpa [State.emit] using hmem
      exact h.fresh e' c hc hmem
    · have he : .disposed e' ∈ σ.log := by simpa [State.emit] using he
      exact h.marked e' he
    · rcases List.suffix_cons_iff.mp hl with hl | hl
      · cases hl
        refine ⟨fun hmem => ?_, fun c hr => h.executed hc hr⟩
        rw [h.marked e hmem] at hd
        cases hd
      · exact h.started e' l hl
  unfold State.start
  dsimp only
  split
  · exact hstarted.same rfl rfl rfl
  · split
    · exact hstarted.same rfl rfl rfl
    · exact hstarted.same rfl rfl rfl

/-- An effect's cleanup is called, as the effect is disposed or runs again. -/
theorem execute (h : σ.Orderly) {c : ℕ} (hc : (σ.effects e).cleanup = some c) {x : Effect}
    (hx : x.cleanup = none) (hd : (σ.effects e).disposed = true → x.disposed = true) :
    ((σ.setEffect e x).emit (.executed e c)).Orderly := by
  refine ⟨fun e' c' => ?_, fun e' c' => ?_, fun e' c' hc' hmem => ?_, fun e' he => ?_,
    fun e' he => ?_, fun e' l hl => ?_⟩
  · have honce := h.once e' c'
    change (.executed e c :: σ.log).count (.returned e' c') =
      (.executed e c :: σ.log).count (.executed e' c') +
        ((σ.setEffect e x).effects e').cleanup.toList.count c'
    by_cases he : e' = e
    · subst he
      rw [hc] at honce
      rw [setEffect_self, hx]
      by_cases hcc : c' = c
      · subst hcc
        simpa using honce
      · simpa [Ne.symm hcc] using honce
    · rw [setEffect_of_ne _ he]
      simpa [Ne.symm he] using honce
  · simpa [State.emit, State.setEffect] using h.unique e' c'
  · have hmem : .returned e' c' ∈ σ.log := by simpa [State.emit, State.setEffect] using hmem
    exact h.fresh e' c' hc' hmem
  · change ((σ.setEffect e x).effects e').disposed = true at he
    change ((σ.setEffect e x).effects e').cleanup = none
    by_cases heq : e' = e
    · rw [heq, setEffect_self]
      exact hx
    · rw [setEffect_of_ne _ heq] at he ⊢
      exact h.gone e' he
  · have hmarked := h.marked e' (by simpa [State.emit, State.setEffect] using he)
    change ((σ.setEffect e x).effects e').disposed = true
    by_cases heq : e' = e
    · rw [heq, setEffect_self]
      exact hd (heq ▸ hmarked)
    · rw [setEffect_of_ne _ heq]
      exact hmarked
  · rcases List.suffix_cons_iff.mp hl with hl | hl
    · cases hl
    · exact h.started e' l hl

/-- An effect without a cleanup is another one without, as disposed as before or more. -/
theorem setEffect (h : σ.Orderly) {x : Effect} (hc : x.cleanup = (σ.effects e).cleanup)
    (hd : (σ.effects e).disposed = true → x.disposed = true)
    (hgone : x.disposed = true → x.cleanup = none) : (σ.setEffect e x).Orderly := by
  have hcleanup : ∀ e', ((σ.setEffect e x).effects e').cleanup = (σ.effects e').cleanup := by
    intro e'
    by_cases he : e' = e
    · rw [he, setEffect_self, hc]
    · rw [setEffect_of_ne _ he]
  refine ⟨fun e' c => ?_, h.unique, h.fresh, fun e' he => ?_, fun e' he => ?_, h.started⟩
  · rw [hcleanup]
    exact h.once e' c
  · by_cases heq : e' = e
    · rw [heq, setEffect_self] at he ⊢
      exact hgone he
    · rw [setEffect_of_ne _ heq] at he ⊢
      exact h.gone e' he
  · by_cases heq : e' = e
    · rw [heq, setEffect_self]
      exact hd (heq ▸ h.marked e' he)
    · rw [setEffect_of_ne _ heq]
      exact h.marked e' he

/-- A disposed effect is marked as such. -/
theorem mark (h : σ.Orderly) (hd : (σ.effects e).disposed = true) :
    (σ.emit (.disposed e)).Orderly := by
  refine ⟨fun e' c => ?_, fun e' c => ?_, fun e' c hc hmem => ?_, h.gone, fun e' he => ?_,
    fun e' l hl => ?_⟩
  · simpa [State.emit] using h.once e' c
  · simpa [State.emit] using h.unique e' c
  · exact h.fresh e' c hc (by simpa [State.emit] using hmem)
  · rcases List.mem_cons.mp he with he | he
    · cases he
      exact hd
    · exact h.marked e' he
  · rcases List.suffix_cons_iff.mp hl with hl | hl
    · cases hl
    · exact h.started e' l hl

/-- A run's cleanup is kept, as the effect has no other and is not disposed. -/
theorem keep (h : σ.Orderly) (hc : (σ.effects e).cleanup = none)
    (hd : (σ.effects e).disposed = false) :
    (({ σ with nCleanups := σ.nCleanups + 1 }.setEffect e
      { σ.effects e with cleanup := some σ.nCleanups }).emit
        (.returned e σ.nCleanups)).Orderly := by
  have hnew : ∀ e, σ.log.count (.returned e σ.nCleanups) = 0 := fun e =>
    List.count_eq_zero.mpr (h.fresh e _ (Nat.le_refl _))
  refine ⟨fun e' c => ?_, fun e' c => ?_, fun e' c hc' hmem => ?_, fun e' he => ?_,
    fun e' he => ?_, fun e' l hl => ?_⟩
  · have honce := h.once e' c
    change (.returned e σ.nCleanups :: σ.log).count (.returned e' c) =
      (.returned e σ.nCleanups :: σ.log).count (.executed e' c) +
        ((σ.setEffect e _).effects e').cleanup.toList.count c
    by_cases he : e' = e
    · subst he
      rw [hc] at honce
      rw [setEffect_self]
      by_cases hcc : c = σ.nCleanups
      · subst hcc
        simpa using honce
      · simpa [Ne.symm hcc] using honce
    · rw [setEffect_of_ne _ he]
      simpa [Ne.symm he] using honce
  · change (.returned e σ.nCleanups :: σ.log).count (.returned e' c) ≤ 1
    have hunique := h.unique e' c
    rw [List.count_cons]
    split
    · next heq =>
      cases eq_of_beq heq
      rw [hnew]
    · exact hunique
  · rcases List.mem_cons.mp hmem with heq | hmem
    · cases heq
      exact Nat.not_succ_le_self _ hc'
    · exact h.fresh e' c (Nat.le_of_succ_le hc') hmem
  · change ((σ.setEffect e _).effects e').disposed = true at he
    change ((σ.setEffect e _).effects e').cleanup = none
    by_cases heq : e' = e
    · rw [heq, setEffect_self, hd] at he
      cases he
    · rw [setEffect_of_ne _ heq] at he ⊢
      exact h.gone e' he
  · have hmarked := h.marked e' (by simpa [State.emit, State.setEffect] using he)
    change ((σ.setEffect e _).effects e').disposed = true
    by_cases heq : e' = e
    · rw [heq, setEffect_self]
      exact heq ▸ hmarked
    · rw [setEffect_of_ne _ heq]
      exact hmarked
  · rcases List.suffix_cons_iff.mp hl with hl | hl
    · cases hl
    · exact h.started e' l hl

/-! ### Calls -/

theorem runEffect (h : σ.Orderly) : (σ.runEffect e).Orderly := by
  unfold State.runEffect
  split
  · exact h.same rfl rfl rfl
  · next hd =>
    split
    · next c hc =>
      have hgone := h.execute (e := e) (x := { σ.effects e with cleanup := none }) hc rfl id
      exact hgone.same rfl rfl rfl
    · next hc => exact h.start (Bool.eq_false_iff.mpr hd) hc

theorem disposeEffect (h : σ.Orderly) : (σ.disposeEffect e).Orderly := by
  unfold State.disposeEffect
  split
  · exact h.same rfl rfl rfl
  · dsimp only
    split
    · next c hc =>
      have hgone := h.execute (e := e) (x := { σ.effects e with disposed := true, cleanup := none })
        hc rfl fun _ => rfl
      exact (hgone.mark (congrArg Effect.disposed (setEffect_self ..))).same rfl rfl rfl
    · next hc =>
      have hgone := h.setEffect (e := e)
        (x := { σ.effects e with disposed := true, cleanup := none })
        hc.symm (fun _ => rfl) fun _ => rfl
      exact (hgone.mark (congrArg Effect.disposed (setEffect_self ..))).same rfl rfl rfl

theorem effect (h : σ.Orderly) {body : Body} : (σ.effect body).Orderly := by
  have hnew := h.setEffect (e := σ.nEffects) (x := { σ.effects σ.nEffects with body }) rfl id
    (h.gone σ.nEffects)
  exact runEffect (hnew.same rfl rfl rfl)

theorem setCleanup (h : σ.Orderly) {cleanup : Bool} (hc : (σ.effects e).cleanup = none)
    (hd : cleanup = true → (σ.effects e).disposed = false) :
    (σ.setCleanup e cleanup).Orderly := by
  unfold State.setCleanup
  split
  · next hcleanup => exact (h.keep hc (hd hcleanup)).same rfl rfl rfl
  · have hsame := h.setEffect (e := e) (x := { σ.effects e with cleanup := none }) hc.symm id
      fun _ => rfl
    exact hsame.same rfl rfl rfl

theorem register (h : σ.Orderly) {fn : Fn} : (σ.register i fn).Orderly :=
  (((h.same rfl rfl rfl : (σ.setInst i _).Orderly)).emit (by simp)).same rfl rfl rfl

theorem call (h : σ.Orderly) {fn : Fn} : (σ.call i fn).Orderly := by
  have hcalled : (σ.emit (.called i fn)).Orderly := h.emit (by simp)
  cases fn with
  | effect e => exact hcalled.disposeEffect
  | cleanup c => exact hcalled.same rfl rfl rfl
  | remove p => exact hcalled.same rfl rfl rfl

theorem disposeInst (h : σ.Orderly) : (σ.disposeInst i).Orderly := by
  unfold State.disposeInst
  split
  · exact h.same rfl rfl rfl
  · exact h.same rfl rfl rfl

theorem forgetChild (h : σ.Orderly) : (σ.forgetChild i).Orderly := by
  unfold State.forgetChild
  split
  · exact h.same rfl rfl rfl
  · exact h

theorem returned (h : σ.Orderly) (cleanup : Bool) {f : Frame} (hwell : σ.ReturnsWell cleanup f) :
    (σ.returned cleanup f).Orderly := by
  cases f with
  | user => exact h.same rfl rfl rfl
  | branch p => exact h.same rfl rfl rfl
  | rows p next => exact h.same rfl rfl rfl
  | tail => exact h.same rfl rfl rfl
  | rerun e => exact h.start hwell.1 hwell.2
  | body e => exact h.setCleanup hwell.1 hwell.2
  | first e => exact h.same rfl rfl rfl
  | rethrow => exact h.same rfl rfl rfl
  | owner i e => exact h.register
  | children i rest =>
      cases rest with
      | nil => exact (h.forgetChild (i := i)).same rfl rfl rfl
      | cons c rest => exact disposeInst (h.same rfl rfl rfl)
  | disposers i rest =>
      cases rest with
      | nil => exact h.same rfl rfl rfl
      | cons fn rest =>
          have hpush : (σ.push (.disposers i rest) .run).Orderly := h.same rfl rfl rfl
          exact hpush.call
  | cleanups i rest =>
      cases rest with
      | nil => exact h.same rfl rfl rfl
      | cons fn rest =>
          have hpush : (σ.push (.cleanups i rest) .run).Orderly := h.same rfl rfl rfl
          exact hpush.call
  | capture i p s prev next =>
      cases next with
      | none => exact h.same rfl rfl rfl
      | some next => exact h.same rfl rfl rfl
  | drops p rest next =>
      cases rest with
      | nil =>
          cases next with
          | none =>
              simp only [State.returned]
              split
              · exact h.same rfl rfl rfl
              · exact h.same rfl rfl rfl
          | some next => exact h.same rfl rfl rfl
      | cons s rest => exact h.same rfl rfl rfl
  | dropping p s rest next => exact h.same rfl rfl rfl
  | binder i p => exact h.register

theorem threw (h : σ.Orderly) {f : Frame} (hwell : σ.ThrowsWell f) : (σ.threw f).Orderly := by
  cases f with
  | first e => exact disposeEffect (h.same rfl rfl rfl)
  | cleanups i rest => exact h.returned false (f := .cleanups i rest) trivial
  | drops p rest next => exact h.returned false (f := .drops p rest next) hwell
  | dropping p s rest next =>
      exact h.returned false (f := .dropping p s rest next) hwell
  | _ => exact h.same rfl rfl rfl

theorem mount (h : σ.Orderly) {parent : Option ℕ} : (σ.mount parent).Orderly := by
  unfold State.mount
  dsimp only
  split
  · exact h.same rfl rfl rfl
  · exact h.same rfl rfl rfl

theorem instEffect (h : σ.Orderly) {body : Body} : (σ.instEffect i body).Orderly := by
  have hpush : (σ.push (.owner i σ.nEffects) .run).Orderly := h.same rfl rfl rfl
  exact hpush.effect

theorem bind (h : σ.Orderly) {isRows : Bool} : (σ.bind i isRows).Orderly := by
  have hnew : ((σ.newPart i isRows).push (.binder i σ.nParts) .run).Orderly := by
    cases isRows with
    | true => exact h.same rfl rfl rfl
    | false => exact h.same rfl rfl rfl
  exact hnew.instEffect

/-- A cleanup has a new number. -/
theorem onCleanup (h : σ.Orderly) {c : ℕ} :
    (({ σ with nCleanups := σ.nCleanups + 1 }.push .user .run).register i
      (.cleanup c)).Orderly := by
  have hnew : ({ σ with nCleanups := σ.nCleanups + 1 }.push .user .run).Orderly :=
    ⟨h.once, h.unique, fun e c hc => h.fresh e c (Nat.le_of_succ_le hc), h.gone, h.marked,
      h.started⟩
  exact hnew.register

theorem act (h : σ.Orderly) {f : Frame} {a : Act} (hact : σ.act f a = some σ') : σ'.Orderly := by
  have hpush : (σ.push .user .run).Orderly := h.same rfl rfl rfl
  unfold State.act at hact
  split at hact
  all_goals try split at hact
  all_goals try split at hact
  all_goals cases hact
  · exact hpush.runEffect
  · exact hpush.disposeEffect
  · exact hpush.effect
  · exact hpush.instEffect
  · exact hpush.bind
  · exact h.onCleanup
  · exact hpush.mount
  · exact hpush.disposeInst
  all_goals exact h.same rfl rfl rfl

/-- **One step keeps the cleanups of effects.** -/
theorem step (h : σ.Orderly) {a : Act} (hwell : σ.Well a) (hstep : σ.step a = some σ') :
    σ'.Orderly := by
  rcases step_cases hwell hstep with ⟨-, rfl⟩ | ⟨f, st, hstack, hgoes⟩
  · exact h.same rfl rfl rfl
  · have hpop : { σ with stack := st }.Orderly := h.same rfl rfl rfl
    cases hgoes with
    | act a well hact => exact hpop.act hact
    | returned cleanup well heq => exact heq ▸ hpop.returned _ well
    | threw well heq => exact heq ▸ hpop.threw well

end Orderly

end Brust.Instances.State
