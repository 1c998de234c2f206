import Mathlib.Algebra.BigOperators.Group.Finset.Piecewise
import Mathlib.Algebra.GroupWithZero.Nat
import Mathlib.Algebra.BigOperators.Group.Finset.Basic
import Mathlib.Data.List.Count
import Brust.Instances.Machine

/-!
# Instances — Registered, held and called

What was registered on an instance is held until it is called: in the instance's own lists, in its
sink or one that a capture put aside, in the slot of a branch or a row, or in a call that goes
through such a list (`State.held`).  No step loses or doubles one (`Balanced.returned`,
`Balanced.threw`, `Balanced.act`).
-/

namespace Brust.Instances

/-- What is held for one instance only. -/
def only (i : ℕ) (fns : List Fn) (j : ℕ) : List Fn := if j = i then fns else []

@[simp] theorem only_self (i : ℕ) (fns : List Fn) : only i fns i = fns := if_pos rfl

theorem only_of_ne {i j : ℕ} (h : j ≠ i) (fns : List Fn) : only i fns j = [] := if_neg h

@[simp] theorem only_nil (i j : ℕ) : only i [] j = [] := ite_self _

def Inst.held (x : Inst) : List Fn := x.disposers ++ x.cleanups ++ x.sink.getD []

/-- What a call under way has still to call, or will put back. -/
def Frame.held : Frame → ℕ → List Fn
  | .disposers i rest | .cleanups i rest => only i rest
  | .capture i _ _ prev _ => only i (prev.getD [])
  | _ => fun _ => []

def Slot.held (x : Slot) : ℕ → List Fn := only x.inst x.own

namespace State

variable {σ σ' : State} {extra extra' : ℕ → List Fn} {i s : ℕ} {fn : Fn}

/-- How often the state holds a function for an instance. -/
def held (σ : State) (i : ℕ) (fn : Fn) : ℕ :=
  (σ.insts i).held.count fn + (σ.stack.map fun f => (f.held i).count fn).sum +
    ∑ s ∈ Finset.range σ.nSlots, ((σ.slots s).held i).count fn

/-- What was registered is called, held, or about to be put somewhere. -/
def Balanced (σ : State) (extra : ℕ → List Fn) : Prop :=
  ∀ i fn, σ.log.count (.registered i fn) =
    σ.log.count (.called i fn) + (σ.held i fn + (extra i).count fn)

def nothing : ℕ → List Fn := fun _ => []

namespace Balanced

theorem init : State.init.Balanced nothing := fun _ _ => by
  simp [State.init, State.held, Inst.held, nothing]

/-- What it does not look at. -/
theorem same (h : σ.Balanced extra) (hinsts : σ'.insts = σ.insts) (hstack : σ'.stack = σ.stack)
    (hslots : σ'.slots = σ.slots) (hnSlots : σ'.nSlots = σ.nSlots) (hlog : σ'.log = σ.log) :
    σ'.Balanced extra := by
  intro i fn
  rw [State.held, hinsts, hstack, hslots, hnSlots, hlog]
  exact h i fn

theorem push (h : σ.Balanced extra) {f : Frame} {ctrl : Ctrl}
    (hextra : ∀ i fn, (extra i).count fn = (f.held i).count fn + (extra' i).count fn) :
    (σ.push f ctrl).Balanced extra' := by
  intro i fn
  have hbal := h i fn
  rw [hextra] at hbal
  simp only [State.held, State.push, List.map_cons, List.sum_cons] at hbal ⊢
  omega

/-- A call that holds nothing. -/
theorem enter (h : σ.Balanced extra) {f : Frame} {ctrl : Ctrl} (hf : f.held = nothing) :
    (σ.push f ctrl).Balanced extra :=
  h.push fun i fn => by rw [hf, nothing, List.count_nil, Nat.zero_add]

theorem setInst (h : σ.Balanced extra) {x : Inst}
    (hx : ∀ fn, x.held.count fn + (extra' i).count fn =
      (σ.insts i).held.count fn + (extra i).count fn)
    (hextra : ∀ j, j ≠ i → extra' j = extra j) : (σ.setInst i x).Balanced extra' := by
  intro j fn
  have hbal := h j fn
  simp only [State.held] at hbal ⊢
  by_cases hj : j = i
  · subst hj
    rw [setInst_self]
    have := hx fn
    simp only [State.setInst] at hbal ⊢
    omega
  · rw [setInst_of_ne _ hj, hextra j hj]
    exact hbal

theorem sum_setOwn (hs : s < σ.nSlots) (own : List Fn) (j : ℕ) (fn : Fn) :
    ∑ t ∈ Finset.range σ.nSlots, (((σ.setOwn s own).slots t).held j).count fn +
        (only (σ.slots s).inst (σ.slots s).own j).count fn =
      ∑ t ∈ Finset.range σ.nSlots, ((σ.slots t).held j).count fn +
        (only (σ.slots s).inst own j).count fn := by
  have hmem : s ∈ Finset.range σ.nSlots := Finset.mem_range.mpr hs
  have hrest : ∑ t ∈ (Finset.range σ.nSlots).erase s, (((σ.setOwn s own).slots t).held j).count fn =
      ∑ t ∈ (Finset.range σ.nSlots).erase s, ((σ.slots t).held j).count fn :=
    Finset.sum_congr rfl fun t ht => by rw [setOwn_of_ne _ (Finset.ne_of_mem_erase ht)]
  rw [← Finset.add_sum_erase _ _ hmem, ← Finset.add_sum_erase (Finset.range σ.nSlots)
    (fun t => ((σ.slots t).held j).count fn) hmem, hrest, setOwn_self]
  simp only [Slot.held]
  omega

theorem setOwn (h : σ.Balanced extra) (hs : s < σ.nSlots) {own : List Fn}
    (hown : ∀ fn, own.count fn + (extra' (σ.slots s).inst).count fn =
      (σ.slots s).own.count fn + (extra (σ.slots s).inst).count fn)
    (hextra : ∀ j, j ≠ (σ.slots s).inst → extra' j = extra j) :
    (σ.setOwn s own).Balanced extra' := by
  intro j fn
  have hbal := h j fn
  have hsum := sum_setOwn hs own j fn
  simp only [State.held] at hbal ⊢
  change σ.log.count _ = σ.log.count _ + ((σ.insts j).held.count fn +
    (σ.stack.map fun f => (f.held j).count fn).sum +
      ∑ t ∈ Finset.range σ.nSlots, (((σ.setOwn s own).slots t).held j).count fn +
        (extra' j).count fn)
  by_cases hj : j = (σ.slots s).inst
  · have := hown fn
    rw [hj, only_self, only_self] at hsum
    rw [hj] at hbal ⊢
    omega
  · rw [only_of_ne hj, only_of_ne hj] at hsum
    rw [hextra j hj]
    omega

theorem setKind (h : σ.Balanced extra) {p : ℕ} {kind : Kind} :
    (σ.setKind p kind).Balanced extra :=
  h.same rfl rfl rfl rfl rfl

/-- An event that is nothing of the instances'. -/
theorem emit (h : σ.Balanced extra) (ev : Event)
    (hev : ∀ i fn, ev ≠ .registered i fn ∧ ev ≠ .called i fn) : (σ.emit ev).Balanced extra := by
  intro i fn
  simp only [State.emit, List.count_cons_of_ne (hev i fn).1, List.count_cons_of_ne (hev i fn).2]
  exact h i fn

/-- A function that is about to be called is called. -/
theorem called (h : σ.Balanced (only i [fn])) : (σ.emit (.called i fn)).Balanced nothing := by
  intro j fn'
  have hbal := h j fn'
  by_cases hj : j = i
  · subst hj
    rw [only_self] at hbal
    simp only [State.emit, State.held, nothing, List.count_cons, List.count_nil] at hbal ⊢
    by_cases hfn : fn = fn'
    · subst hfn
      simp at hbal ⊢
      omega
    · simpa [hfn] using hbal
  · rw [only_of_ne hj] at hbal
    simpa [State.emit, State.held, nothing, Ne.symm hj] using hbal

/-- The next function of a list is taken. -/
theorem take (i : ℕ) (fn : Fn) (rest : List Fn) (j : ℕ) (fn' : Fn) :
    (only i (fn :: rest) j).count fn' =
      (only i rest j).count fn' + (only i [fn] j).count fn' := by
  by_cases hj : j = i
  · rw [hj, only_self, only_self, only_self, List.count_cons, List.count_singleton]
  · simp only [only_of_ne hj, List.count_nil]

/-! ### Calls -/

theorem start (h : σ.Balanced extra) {e : ℕ} : (σ.start e).Balanced extra := by
  have hbody : ((σ.emit (.started e)).push (.body e) .run).Balanced extra :=
    (h.emit _ (by simp)).enter rfl
  unfold State.start
  dsimp only
  split
  · exact hbody.enter rfl
  · split
    · exact hbody.enter rfl
    · exact hbody.enter rfl

theorem runEffect (h : σ.Balanced extra) {e : ℕ} : (σ.runEffect e).Balanced extra := by
  unfold State.runEffect
  split
  · exact h.same rfl rfl rfl rfl rfl
  · split
    · next c _ =>
      have hgone : ((σ.setEffect e { σ.effects e with cleanup := none }).emit
          (.executed e c)).Balanced extra :=
        Balanced.emit (h.same rfl rfl rfl rfl rfl) _ (by simp)
      exact (hgone.enter rfl).enter rfl
    · exact h.start

theorem disposeEffect (h : σ.Balanced extra) {e : ℕ} : (σ.disposeEffect e).Balanced extra := by
  unfold State.disposeEffect
  split
  · exact h.same rfl rfl rfl rfl rfl
  · have hgone : (σ.setEffect e { σ.effects e with disposed := true, cleanup := none }).Balanced
        extra := h.same rfl rfl rfl rfl rfl
    dsimp only
    split
    · exact ((hgone.emit _ (by simp)).emit _ (by simp)).enter rfl
    · exact Balanced.same (hgone.emit (.disposed e) (by simp)) rfl rfl rfl rfl rfl

theorem effect (h : σ.Balanced extra) {body : Body} : (σ.effect body).Balanced extra := by
  have hnew : ({ σ with
      effects := Function.update σ.effects σ.nEffects { σ.effects σ.nEffects with body }
      nEffects := σ.nEffects + 1 } : State).Balanced extra := h.same rfl rfl rfl rfl rfl
  exact (hnew.enter rfl).runEffect

theorem instEffect (h : σ.Balanced extra) {body : Body} : (σ.instEffect i body).Balanced extra :=
  (h.enter rfl).effect

theorem setCleanup (h : σ.Balanced extra) {e : ℕ} {cleanup : Bool} :
    (σ.setCleanup e cleanup).Balanced extra := by
  unfold State.setCleanup
  split
  · have hnew : ({ σ with nCleanups := σ.nCleanups + 1 }.setEffect e
        { σ.effects e with cleanup := some σ.nCleanups }).Balanced extra :=
      h.same rfl rfl rfl rfl rfl
    have hlog := hnew.emit (.returned e σ.nCleanups) (by simp)
    exact hlog.same rfl rfl rfl rfl rfl
  · exact h.same rfl rfl rfl rfl rfl

theorem call (h : σ.Balanced (only i [fn])) : (σ.call i fn).Balanced nothing := by
  cases fn with
  | effect e => exact h.called.disposeEffect
  | cleanup c => exact h.called.enter rfl
  | remove p => exact h.called.enter rfl

theorem disposeInst (h : σ.Balanced extra) : (σ.disposeInst i).Balanced extra := by
  unfold State.disposeInst
  split
  · have hinst : (σ.setInst i { σ.insts i with phase := .children }).Balanced extra :=
      h.setInst (fun _ => rfl) fun _ _ => rfl
    exact hinst.enter rfl
  · exact h.same rfl rfl rfl rfl rfl

theorem forgetChild (h : σ.Balanced extra) : (σ.forgetChild i).Balanced extra := by
  unfold State.forgetChild
  split
  · exact h.setInst (fun _ => rfl) fun _ _ => rfl
  · exact h

theorem register (h : σ.Balanced nothing) : (σ.register i fn).Balanced nothing := by
  have hput : ∀ x : Inst, (∀ fn', x.held.count fn' = (σ.insts i).held.count fn' +
      [fn].count fn') → (((σ.setInst i x).emit (.registered i fn)).ret).Balanced nothing := by
    intro x hx j fn'
    have hbal := h j fn'
    simp only [State.held, nothing, List.count_nil, State.ret, State.emit,
      List.count_cons] at hbal ⊢
    by_cases hj : j = i
    · subst hj
      have hsum := hx fn'
      rw [setInst_self]
      simp only [State.setInst, List.count_cons, List.count_nil] at hsum ⊢
      by_cases hfn : fn = fn'
      · subst hfn
        simp at hsum ⊢
        omega
      · simp [hfn] at hsum ⊢
        omega
    · rw [setInst_of_ne _ hj]
      simpa [State.setInst, Ne.symm hj] using hbal
  unfold State.register
  dsimp only
  split
  · next hsink =>
    refine hput _ fun fn' => ?_
    simp only [Inst.held, hsink, Option.getD_some, List.count_append]
    omega
  · next e hsink =>
    refine hput _ fun fn' => ?_
    simp only [Inst.held, List.count_append]
    omega
  · refine hput _ fun fn' => ?_
    simp only [Inst.held, List.count_append]
    omega

theorem mount (h : σ.Balanced extra) {parent : Option ℕ} : (σ.mount parent).Balanced extra := by
  have hnew : (σ.setInst σ.nInsts { σ.insts σ.nInsts with parent }).Balanced extra :=
    h.setInst (fun _ => rfl) fun _ _ => rfl
  have hnew : ({ σ with
      insts := Function.update σ.insts σ.nInsts { σ.insts σ.nInsts with parent }
      nInsts := σ.nInsts + 1 } : State).Balanced extra := hnew.same rfl rfl rfl rfl rfl
  unfold State.mount
  dsimp only
  split
  · exact hnew.setInst (fun _ => rfl) fun _ _ => rfl
  · exact hnew

/-! ### Directives -/

/-- What is bound from here on goes to a sink of its own. -/
theorem capture (h : σ.Balanced extra) {p : ℕ} {next : Option (List ℕ)} :
    (σ.capture p s next).Balanced extra := by
  have hinst : (σ.setInst (σ.parts p).inst
    { σ.insts (σ.parts p).inst with sink := some [] }).Balanced
      fun j => only (σ.parts p).inst ((σ.insts (σ.parts p).inst).sink.getD []) j ++ extra j := by
    refine h.setInst (fun fn => ?_) fun j hj => ?_
    · simp only [Inst.held, only_self, Option.getD_some, List.count_append, List.count_nil]
      omega
    · simp only [only_of_ne hj, List.nil_append]
  exact (hinst.push fun i fn => List.count_append).enter rfl

/-- A new slot has nothing. -/
theorem newSlot (h : σ.Balanced extra) {p : ℕ} (hnew : (σ.slots σ.nSlots).own = []) :
    (σ.newSlot p).Balanced extra := by
  intro j fn
  have hbal := h j fn
  have hsum : ∑ t ∈ Finset.range σ.nSlots, (((σ.newSlot p).slots t).held j).count fn =
      ∑ t ∈ Finset.range σ.nSlots, ((σ.slots t).held j).count fn :=
    Finset.sum_congr rfl fun t ht => by
      have hslot : (σ.newSlot p).slots t = σ.slots t :=
        Function.update_of_ne (Nat.ne_of_lt (Finset.mem_range.mp ht)) ..
      rw [hslot]
  have hlast : ((σ.newSlot p).slots σ.nSlots).held j = [] := by
    simp [State.newSlot, Slot.held, hnew]
  simp only [State.held] at hbal ⊢
  rw [show (σ.newSlot p).nSlots = σ.nSlots + 1 from rfl, Finset.sum_range_succ, hsum, hlast]
  exact hbal

theorem newPart (h : σ.Balanced extra) {isRows : Bool} (hnew : (σ.slots σ.nSlots).own = []) :
    (σ.newPart i isRows).Balanced extra := by
  cases isRows with
  | true => exact h.same rfl rfl rfl rfl rfl
  | false =>
      have hpart : ({ σ with
          parts := Function.update σ.parts σ.nParts ⟨i, .branch σ.nSlots false⟩
          nParts := σ.nParts + 1 } : State).Balanced extra := h.same rfl rfl rfl rfl rfl
      exact hpart.newSlot hnew

theorem bind (h : σ.Balanced extra) {isRows : Bool} (hnew : (σ.slots σ.nSlots).own = []) :
    (σ.bind i isRows).Balanced extra :=
  ((h.newPart hnew).enter rfl).instEffect

end Balanced

/-! ### Going on -/

/-- The slots that a call has are there, and the instance of a capture is that of its slot. -/
def Slotted (σ : State) : Frame → Prop
  | .capture i _ s _ _ => s < σ.nSlots ∧ (σ.slots s).inst = i
  | .drops _ rest _ => ∀ s ∈ rest, s < σ.nSlots
  | .dropping _ s _ _ => s < σ.nSlots
  | _ => True

namespace Balanced

/-- What a slot has goes to a call that goes through it. -/
theorem drop (h : σ.Balanced nothing) {p : ℕ} {rest : List ℕ} {next : Option (List ℕ)}
    (hs : s < σ.nSlots) : (σ.returned false (.drops p (s :: rest) next)).Balanced nothing := by
  have hown : (σ.setOwn s []).Balanced (only (σ.slots s).inst (σ.slots s).own) := by
    refine h.setOwn hs (fun fn => ?_) fun j hj => only_of_ne hj _
    simp [nothing]
  exact ((hown.enter rfl).push fun i fn => by simp [Frame.held, nothing])

theorem empty (h : σ.Balanced nothing) (hs : s < σ.nSlots) (hown : (σ.slots s).own = []) :
    (σ.setOwn s []).Balanced nothing :=
  h.setOwn hs (fun fn => by rw [hown]) fun _ _ => rfl

theorem returned {f : Frame} (h : σ.Balanced f.held) (hf : σ.Slotted f) (cleanup : Bool)
    (hwell : σ.ReturnsWell cleanup f) : (σ.returned cleanup f).Balanced nothing := by
  cases f with
  | user => exact h.enter rfl
  | branch p => exact h.enter rfl
  | rows p next => exact h.enter rfl
  | tail => exact h.enter rfl
  | rerun e => exact h.start
  | body e => exact h.setCleanup
  | first e => exact h.same rfl rfl rfl rfl rfl
  | rethrow => exact h.same rfl rfl rfl rfl rfl
  | owner i e => exact h.register
  | binder i p => exact h.register
  | children i rest =>
      cases rest with
      | nil =>
          have htaken : ((σ.forgetChild i).setInst i
              { (σ.forgetChild i).insts i with disposers := [], phase := .disposers }).Balanced
              (only i ((σ.forgetChild i).insts i).disposers) := by
            refine h.forgetChild.setInst (fun fn => ?_) fun j hj => only_of_ne hj _
            simp only [Inst.held, only_self, Frame.held, List.count_append, List.count_nil]
            omega
          exact htaken.push fun i fn => by simp [Frame.held, nothing]
      | cons c rest =>
          exact (h.enter (f := .children i rest) rfl).disposeInst
  | disposers i rest =>
      cases rest with
      | nil =>
          have htaken : (σ.setInst i { σ.insts i with cleanups := [], phase := .over }).Balanced
              (only i (σ.insts i).cleanups) := by
            refine h.setInst (fun fn => ?_) fun j hj => ?_
            · simp only [Inst.held, only_self, Frame.held, List.count_append, List.count_nil]
              omega
            · rw [only_of_ne hj, Frame.held, only_of_ne hj]
          exact htaken.push fun i fn => by simp [Frame.held, nothing]
      | cons fn rest =>
          have hpush : (σ.push (.disposers i rest) .run).Balanced (only i [fn]) :=
            h.push (take i fn rest)
          exact hpush.call
  | cleanups i rest =>
      cases rest with
      | nil =>
          refine Balanced.same (σ := σ) (fun j fn => ?_) rfl rfl rfl rfl rfl
          simpa [Frame.held, nothing] using h j fn
      | cons fn rest =>
          have hpush : (σ.push (.cleanups i rest) .run).Balanced (only i [fn]) :=
            h.push (take i fn rest)
          exact hpush.call
  | capture i p s prev next =>
      obtain ⟨hs, hinst⟩ := hf
      have hown : (σ.slots s).own = [] := by
        cases next with
        | none => exact hwell.1
        | some next => exact hwell.1
      have hsink : (σ.setInst i { σ.insts i with sink := prev }).Balanced
          (only i ((σ.insts i).sink.getD [])) := by
        refine h.setInst (fun fn => ?_) fun j hj => ?_
        · simp only [Inst.held, only_self, Frame.held, List.count_append]
          omega
        · rw [only_of_ne hj, Frame.held, only_of_ne hj]
      have hput : ((σ.setInst i { σ.insts i with sink := prev }).setOwn s
          ((σ.insts i).sink.getD [])).Balanced nothing := by
        refine hsink.setOwn hs (fun fn => ?_) fun j hj => ?_
        · change _ = (σ.slots s).own.count fn + (only i _ (σ.slots s).inst).count fn
          simp [hown, hinst, nothing]
        · change j ≠ (σ.slots s).inst at hj
          rw [only_of_ne (hinst ▸ hj)]
          rfl
      cases next with
      | none => exact hput.enter rfl
      | some next => exact hput.enter rfl
  | drops p rest next =>
      cases rest with
      | nil =>
          cases next with
          | none =>
              simp only [State.returned]
              split
              · exact h.same rfl rfl rfl rfl rfl
              · exact h.same rfl rfl rfl rfl rfl
          | some next => exact h.setKind.enter rfl
      | cons s rest => exact h.drop (hf s (.head _))
  | dropping p s rest next => exact (h.empty hf hwell).enter rfl

theorem threw {f : Frame} (h : σ.Balanced f.held) (hf : σ.Slotted f) (hwell : σ.ThrowsWell f) :
    (σ.threw f).Balanced nothing := by
  have hover : ∀ i, σ.Balanced nothing →
      ((σ.setInst i { σ.insts i with phase := .over }).fail).Balanced nothing := fun i hnone =>
    Balanced.same (σ := σ.setInst i { σ.insts i with phase := .over })
      (hnone.setInst (fun _ => rfl) fun _ _ => rfl) rfl rfl rfl rfl rfl
  cases f with
  | user => exact h.enter rfl
  | first e => exact (h.enter (f := .rethrow) rfl).disposeEffect
  | children i rest => exact hover i h
  | disposers i rest =>
      have hnone : σ.Balanced nothing := by
        intro j fn
        simpa [Frame.held, nothing, hwell.1] using h j fn
      exact hover i hnone
  | capture i p s prev next =>
      have hsink : (σ.setInst i { σ.insts i with sink := prev }).Balanced nothing := by
        refine h.setInst (fun fn => ?_) fun j hj => ?_
        · simp only [Inst.held, Frame.held, only_self, List.count_append, hwell.1, nothing,
            List.count_nil]
          omega
        · rw [Frame.held, only_of_ne hj]
          rfl
      exact hsink.same rfl rfl rfl rfl rfl
  | cleanups i rest => exact h.returned (f := .cleanups i rest) hf false trivial
  | drops p rest next => exact h.returned (f := .drops p rest next) hf false hwell
  | dropping p s rest next =>
      exact h.returned (f := .dropping p s rest next) hf false hwell
  | _ => exact h.same rfl rfl rfl rfl rfl

theorem act {f : Frame} {a : Act} (h : σ.Balanced nothing) (hnew : (σ.slots σ.nSlots).own = [])
    (hact : σ.act f a = some σ') : σ'.Balanced nothing := by
  have hpush : (σ.push .user .run).Balanced nothing := h.enter rfl
  unfold State.act at hact
  split at hact
  all_goals try split at hact
  all_goals try split at hact
  all_goals cases hact
  · exact hpush.runEffect
  · exact hpush.disposeEffect
  · exact hpush.effect
  · exact hpush.instEffect
  · exact hpush.bind hnew
  · have hfresh : ({ σ with nCleanups := σ.nCleanups + 1 }.push .user .run).Balanced nothing :=
      hpush.same rfl rfl rfl rfl rfl
    exact hfresh.register
  · exact hpush.mount
  · exact hpush.disposeInst
  · exact h.same rfl rfl rfl rfl rfl
  · exact h.same rfl rfl rfl rfl rfl
  · exact (h.enter rfl).enter rfl
  · exact h.same rfl rfl rfl rfl rfl
  · exact h.setKind.capture
  · exact h.enter rfl
  · exact h.same rfl rfl rfl rfl rfl
  · exact (h.enter rfl).enter rfl
  · exact h.same rfl rfl rfl rfl rfl
  · exact h.setKind.enter rfl
  · exact (h.newSlot hnew).enter rfl
  · exact (h.newSlot hnew).capture
  · exact h.enter rfl
  · exact (h.enter rfl).enter rfl
  · exact h.same rfl rfl rfl rfl rfl

end Balanced
end State
end Brust.Instances
