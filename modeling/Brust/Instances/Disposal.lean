import Brust.Instances.Effects
import Brust.Instances.Sinks

/-!
# Instances — What disposal leaves

The four invariants of a run together (`Sound`), and what they say of an instance that was disposed
and has no call under way: all that was registered on it was called (`Sound.called_all`).  A run
whose steps lose nothing keeps every promise of cleanups and disposal (`cleanups_run_once`); an
effect that disposes itself as it runs and returns a cleanup loses that cleanup
(`self_disposal_loses`).
-/

namespace Brust.Instances.State

variable {σ σ' : State} {f : Frame} {e i p : ℕ}

/-- The effects that were disposed; one of them may be about to be. -/
structure GoneBut (σ : State) (e : Option ℕ) : Prop where
  marked : ∀ e, .disposed e ∈ σ.log ↔ (σ.effects e).disposed = true
  once : ∀ e, σ.log.count (.disposed e) ≤ 1
  called : ∀ i e', e ≠ some e' → .called i (.effect e') ∈ σ.log → .disposed e' ∈ σ.log

/-- An effect whose disposer an instance called was disposed, once. -/
def Gone (σ : State) : Prop := σ.GoneBut none

namespace Gone

theorem init : Gone State.init := by
  refine ⟨fun e => ⟨?_, ?_⟩, fun _ => Nat.zero_le _, ?_⟩
  · rintro ⟨⟩
  · intro h
    cases h
  · rintro i e _ ⟨⟩

/-- What it does not look at. -/
theorem same (h : σ.Gone) (hdisposed : ∀ e, (σ'.effects e).disposed = (σ.effects e).disposed)
    (hlog : σ'.log = σ.log) : σ'.Gone := by
  refine ⟨fun e => ?_, ?_, ?_⟩
  · rw [hdisposed, hlog]
    exact h.marked e
  · rw [hlog]
    exact h.once
  · rw [hlog]
    exact h.called

theorem emit (h : σ.Gone) (ev : Event)
    (hev : ∀ i e, ev ≠ .called i (.effect e) ∧ ev ≠ .disposed e) : (σ.emit ev).Gone := by
  refine ⟨fun e => ?_, fun e => ?_, fun i e he hc => ?_⟩
  · rw [State.emit, List.mem_cons, or_iff_right (hev 0 e).2.symm]
    exact h.marked e
  · rw [State.emit, List.count_cons_of_ne (hev 0 e).2]
    exact h.once e
  · exact .tail _ (h.called i e he ((List.mem_cons.mp hc).resolve_left (hev i e).1.symm))

theorem setEffect (h : σ.Gone) {x : Effect} (hx : x.disposed = (σ.effects e).disposed) :
    (σ.setEffect e x).Gone := by
  refine h.same (fun e' => ?_) rfl
  by_cases he : e' = e
  · rw [he, setEffect_self, hx]
  · rw [setEffect_of_ne _ he]

theorem start (h : σ.Gone) : (σ.start e).Gone := by
  have hemit := h.emit (.started e) (by simp)
  unfold State.start
  dsimp only
  split
  · exact hemit.same (fun _ => rfl) rfl
  · split
    · exact hemit.same (fun _ => rfl) rfl
    · exact hemit.same (fun _ => rfl) rfl

theorem runEffect (h : σ.Gone) : (σ.runEffect e).Gone := by
  unfold State.runEffect
  split
  · exact h.same (fun _ => rfl) rfl
  · split
    · next c _ =>
      have hset : (σ.setEffect e { σ.effects e with cleanup := none }).Gone := h.setEffect rfl
      exact Gone.same (hset.emit (.executed e c) (by simp)) (fun _ => rfl) rfl
    · exact h.start

/-- An effect is disposed that was not, and maybe its cleanup executed before. -/
theorem mark (h : σ.GoneBut (some e)) (hd : (σ.effects e).disposed = false) {l : List Event}
    (hl : ∀ ev ∈ l, ∃ c, ev = .executed e c) {x : Effect} (hx : x.disposed = true) :
    Gone { σ.setEffect e x with log := .disposed e :: (l ++ σ.log) } := by
  have hmem : ∀ ev, (∀ c, ev ≠ .executed e c) → (ev ∈ l ++ σ.log ↔ ev ∈ σ.log) := by
    intro ev hev
    refine List.mem_append.trans (or_iff_right fun hmem => ?_)
    obtain ⟨c, hc⟩ := hl ev hmem
    exact hev c hc
  have hnone : l.count (.disposed e) = 0 := by
    refine List.count_eq_zero.mpr fun hmem => ?_
    obtain ⟨c, hc⟩ := hl _ hmem
    cases hc
  refine ⟨fun e' => ?_, fun e' => ?_, fun i e' _ hc => ?_⟩
  · by_cases he : e' = e
    · subst he
      exact ⟨fun _ => by rw [setEffect_self, hx], fun _ => .head _⟩
    · rw [setEffect_of_ne _ he, ← h.marked e', List.mem_cons, hmem _ (by simp)]
      exact or_iff_right fun heq => he (Event.disposed.inj heq)
  · by_cases he : e' = e
    · subst he
      have hzero : σ.log.count (.disposed e') = 0 := by
        refine List.count_eq_zero.mpr fun hmem => ?_
        rw [(h.marked e').mp hmem] at hd
        cases hd
      simp only [List.count_cons_self, List.count_append, hnone, hzero]
      exact Nat.le_refl _
    · have hne : Event.disposed e ≠ .disposed e' := fun heq => he (Event.disposed.inj heq).symm
      have hzero : l.count (.disposed e') = 0 := by
        refine List.count_eq_zero.mpr fun hmem => ?_
        obtain ⟨c, hc⟩ := hl _ hmem
        cases hc
      simp only [List.count_cons_of_ne hne, List.count_append, hzero, Nat.zero_add]
      exact h.once e'
  · by_cases he : e' = e
    · exact he ▸ .head _
    · have hc := (hmem _ (by simp)).mp ((List.mem_cons.mp hc).resolve_left (by simp))
      have hdisposed := h.called i e' (fun heq => he (Option.some.inj heq).symm) hc
      exact .tail _ ((hmem _ (by simp)).mpr hdisposed)

theorem disposeEffect (h : σ.GoneBut (some e)) : (σ.disposeEffect e).Gone := by
  unfold State.disposeEffect
  split
  · next hd =>
    refine ⟨h.marked, h.once, fun i e' _ hc => ?_⟩
    by_cases he : e' = e
    · exact (h.marked e').mpr (he ▸ hd)
    · exact h.called i e' (fun heq => he (Option.some.inj heq).symm) hc
  · next hd =>
    have hd := Bool.eq_false_iff.mpr hd
    dsimp only
    split
    · next c _ =>
      have hmark := mark h hd (l := [.executed e c]) (by simp)
        (x := { σ.effects e with disposed := true, cleanup := none }) rfl
      exact hmark.same (fun _ => rfl) rfl
    · have hmark := mark h hd (l := []) (by simp)
        (x := { σ.effects e with disposed := true, cleanup := none }) rfl
      exact hmark.same (fun _ => rfl) rfl

theorem dispose (h : σ.Gone) : (σ.disposeEffect e).Gone :=
  disposeEffect ⟨h.marked, h.once, fun i e' _ => h.called i e' (by simp)⟩

theorem effect (h : σ.Gone) {body : Body} : (σ.effect body).Gone := by
  have hnew : (σ.setEffect σ.nEffects { σ.effects σ.nEffects with body }).Gone := h.setEffect rfl
  have hfirst : ({ σ with
      effects := Function.update σ.effects σ.nEffects { σ.effects σ.nEffects with body }
      nEffects := σ.nEffects + 1 }.push (.first σ.nEffects) .run).Gone :=
    hnew.same (fun _ => rfl) rfl
  exact hfirst.runEffect

theorem instEffect (h : σ.Gone) {body : Body} : (σ.instEffect i body).Gone := by
  have howner : (σ.push (.owner i σ.nEffects) .run).Gone := h.same (fun _ => rfl) rfl
  exact howner.effect

theorem setCleanup (h : σ.Gone) {cleanup : Bool} : (σ.setCleanup e cleanup).Gone := by
  unfold State.setCleanup
  split
  · have hset : (σ.setEffect e { σ.effects e with cleanup := some σ.nCleanups }).Gone :=
      h.setEffect rfl
    exact Gone.same (hset.emit (.returned e σ.nCleanups) (by simp)) (fun _ => rfl) rfl
  · have hset : (σ.setEffect e { σ.effects e with cleanup := none }).Gone := h.setEffect rfl
    exact hset.same (fun _ => rfl) rfl

theorem register (h : σ.Gone) {fn : Fn} : (σ.register i fn).Gone :=
  Gone.same (h.emit (.registered i fn) (by simp)) (fun _ => rfl) rfl

theorem call (h : σ.Gone) {fn : Fn} : (σ.call i fn).Gone := by
  cases fn with
  | effect e =>
      refine disposeEffect ⟨fun e' => ?_, fun e' => ?_, fun j e' hne hc => ?_⟩
      · rw [State.emit, List.mem_cons, or_iff_right (by simp)]
        exact h.marked e'
      · rw [State.emit, List.count_cons_of_ne (by simp)]
        exact h.once e'
      · refine .tail _ (h.called j e' (by simp) ((List.mem_cons.mp hc).resolve_left fun heq => ?_))
        exact hne (congrArg some (Fn.effect.inj (Event.called.inj heq).2).symm)
  | cleanup c => exact Gone.same (h.emit (.called i (.cleanup c)) (by simp)) (fun _ => rfl) rfl
  | remove p => exact Gone.same (h.emit (.called i (.remove p)) (by simp)) (fun _ => rfl) rfl

theorem disposeInst (h : σ.Gone) : (σ.disposeInst i).Gone := by
  unfold State.disposeInst
  split
  · exact h.same (fun _ => rfl) rfl
  · exact h.same (fun _ => rfl) rfl

theorem returned (h : σ.Gone) (cleanup : Bool) : (σ.returned cleanup f).Gone := by
  cases f with
  | rerun e => exact h.start
  | body e => exact h.setCleanup
  | owner i e => exact h.register
  | binder i p => exact h.register
  | children i rest =>
      cases rest with
      | nil =>
          have hforget : (σ.forgetChild i).Gone := by
            unfold State.forgetChild
            split
            · exact h.same (fun _ => rfl) rfl
            · exact h
          exact hforget.same (fun _ => rfl) rfl
      | cons c rest =>
          have hpush : (σ.push (.children i rest) .run).Gone := h.same (fun _ => rfl) rfl
          exact hpush.disposeInst
  | disposers i rest =>
      cases rest with
      | nil => exact h.same (fun _ => rfl) rfl
      | cons fn rest =>
          have hpush : (σ.push (.disposers i rest) .run).Gone := h.same (fun _ => rfl) rfl
          exact hpush.call
  | cleanups i rest =>
      cases rest with
      | nil => exact h.same (fun _ => rfl) rfl
      | cons fn rest =>
          have hpush : (σ.push (.cleanups i rest) .run).Gone := h.same (fun _ => rfl) rfl
          exact hpush.call
  | capture i p s prev next =>
      cases next with
      | none => exact h.same (fun _ => rfl) rfl
      | some next => exact h.same (fun _ => rfl) rfl
  | drops p rest next =>
      cases rest with
      | cons s rest => exact h.same (fun _ => rfl) rfl
      | nil =>
          cases next with
          | some next => exact h.same (fun _ => rfl) rfl
          | none =>
              simp only [State.returned]
              split
              · exact h.same (fun _ => rfl) rfl
              · exact h.same (fun _ => rfl) rfl
  | _ => exact h.same (fun _ => rfl) rfl

theorem threw (h : σ.Gone) : (σ.threw f).Gone := by
  cases f with
  | first e =>
      have hpush : (σ.push .rethrow .run).Gone := h.same (fun _ => rfl) rfl
      exact hpush.dispose
  | cleanups i rest => exact h.returned false
  | drops p rest next => exact h.returned false
  | dropping p s rest next => exact h.returned (f := .dropping p s rest next) false
  | _ => exact h.same (fun _ => rfl) rfl

theorem mount (h : σ.Gone) {parent : Option ℕ} : (σ.mount parent).Gone := by
  unfold State.mount
  dsimp only
  split
  · exact h.same (fun _ => rfl) rfl
  · exact h.same (fun _ => rfl) rfl

theorem bind (h : σ.Gone) {isRows : Bool} : (σ.bind i isRows).Gone := by
  have hnew : ((σ.newPart i isRows).push (.binder i σ.nParts) .run).Gone := by
    cases isRows with
    | true => exact h.same (fun _ => rfl) rfl
    | false => exact h.same (fun _ => rfl) rfl
  exact hnew.instEffect

theorem act (h : σ.Gone) {a : Act} (hact : σ.act f a = some σ') : σ'.Gone := by
  have hpush : (σ.push .user .run).Gone := h.same (fun _ => rfl) rfl
  have hnew : ({ σ with nCleanups := σ.nCleanups + 1 }.push .user .run).Gone :=
    h.same (fun _ => rfl) rfl
  unfold State.act at hact
  split at hact
  all_goals try split at hact
  all_goals try split at hact
  all_goals cases hact
  · exact hpush.runEffect
  · exact hpush.dispose
  · exact hpush.effect
  · exact hpush.instEffect
  · exact hpush.bind
  · exact hnew.register
  · exact hpush.mount
  · exact hpush.disposeInst
  all_goals exact h.same (fun _ => rfl) rfl

end Gone

/-! ### Runs -/

/-- Nothing was lost. -/
structure Sound (σ : State) : Prop where
  orderly : σ.Orderly
  balanced : σ.Balanced nothing
  keeps : σ.Keeps
  nests : σ.Nests
  gone : σ.Gone

theorem Sound.init : Sound State.init :=
  ⟨.init, .init, Kept.init, Nested.init, .init⟩

/-- A call that acts has no list to go through. -/
theorem act_held {a : Act} (hact : σ.act f a = some σ') : f.held = nothing := by
  unfold State.act at hact
  split at hact
  all_goals first
    | rfl
    | cases hact

theorem Fits.slotted (hfits : σ.Fits f) (hslots : ∀ s, s < σ.nSlots →
    (σ.slots s).part < σ.nParts ∧ (σ.slots s).inst = (σ.parts (σ.slots s).part).inst) :
    σ.Slotted f := by
  cases f with
  | capture i p s prev next =>
      obtain ⟨hlt, hpart⟩ := hfits.slot p rfl s rfl
      refine ⟨hlt, ?_⟩
      rw [(hslots s hlt).2, hpart]
      exact (hfits.owner p rfl i rfl).symm
  | drops p rest next =>
      exact fun s hs => (hfits.slots p rfl s (List.mem_append_left _ hs)).1
  | dropping p s rest next => exact (hfits.slot p rfl s rfl).1
  | _ => trivial

/-- **One step keeps them all.** -/
theorem Sound.step (h : σ.Sound) {a : Act} (hwell : σ.Well a) (hstep : σ.step a = some σ') :
    σ'.Sound := by
  obtain ⟨horderly, hbalanced, hkeeps, hnests, hgone⟩ := h
  have horderly' := horderly.step hwell hstep
  rcases step_cases hwell hstep with ⟨hstack, rfl⟩ | ⟨f, st, hstack, hgoes⟩
  · exact ⟨horderly', hbalanced.enter rfl, hkeeps.enter rfl, hnests.enter rfl,
      hgone.same (fun _ => rfl) rfl⟩
  · have hbal : State.Balanced { σ with stack := st } f.held := by
      intro i fn
      have hfn := hbalanced i fn
      simp only [State.held, hstack, List.map_cons, List.sum_cons, nothing, List.count_nil] at hfn ⊢
      omega
    have hkept : State.KeepsWith { σ with stack := st } f := by
      have hk : σ.Kept σ.stack := hkeeps
      rw [hstack] at hk
      exact hk.same rfl rfl rfl rfl (fun _ => rfl) fun _ _ => ⟨.rfl, .rfl⟩
    have hnest : State.NestsWith { σ with stack := st } f := by
      have hn : σ.Nested σ.stack := hnests
      rw [hstack] at hn
      exact hn.same rfl rfl
    have hg : State.Gone { σ with stack := st } := hgone.same (fun _ => rfl) rfl
    have hslotted := hkept.fits.slotted hkept.slots
    have hheld : ∀ i, ∀ fn ∈ f.held i, Event.registered i fn ∈ σ.log := by
      intro i fn hfn
      have hcount := hbal i fn
      have hpos := List.count_pos_iff.mpr hfn
      exact List.count_pos_iff.mp (by simp only at hcount; omega)
    cases hgoes with
    | act a well hact =>
        rw [act_held hact] at hbal
        exact ⟨horderly', hbal.act (hkept.new _ (Nat.le_refl _)) hact, hkept.act well hact,
          hnest.act hkept well hact, hg.act hact⟩
    | returned cleanup well heq =>
        subst heq
        exact ⟨horderly', hbal.returned hslotted cleanup well, hkept.returned hheld cleanup well,
          hnest.returned hkept.fits cleanup well, hg.returned cleanup⟩
    | threw well heq =>
        subst heq
        exact ⟨horderly', hbal.threw hslotted well, hkept.threw hheld well,
          hnest.threw hkept.fits well, hg.threw⟩

/-- **Every run whose steps lose nothing keeps them.** -/
theorem Sound.run {as : List Act} (hwell : State.init.Wells as)
    (hrun : State.init.run as = some σ) : σ.Sound :=
  run_induction (fun _ _ _ h hwell hstep => h.step hwell hstep) .init hwell hrun

/-! ### An instance that was disposed -/

/-- The instance whose lists or directives a call goes through. -/
def instOf (σ : State) : Frame → Option ℕ
  | .children i _ | .disposers i _ | .cleanups i _ | .capture i _ _ _ _ | .binder i _ => some i
  | .branch p | .rows p _ | .drops p _ _ | .dropping p _ _ _ => some (σ.parts p).inst
  | _ => none

/-- No call of the instance is under way. -/
def Away (σ : State) (i : ℕ) : Prop := ∀ f ∈ σ.stack, σ.instOf f ≠ some i

theorem Sinks.eq_none {sink : Option (List Fn)} {st : List Frame} (h : Sinks i sink st)
    (haway : ∀ f ∈ st, σ.instOf f ≠ some i) : sink = none := by
  induction st with
  | nil => exact h
  | cons f st ih =>
      have hrest : Sinks i sink st → sink = none := fun hst =>
        ih hst fun g hg => haway g (.tail _ hg)
      cases f with
      | capture j p s prev next =>
          have hj : j ≠ i := fun hj => haway _ (.head _) (congrArg some hj)
          rw [Sinks, if_neg hj] at h
          exact hrest h
      | _ => exact hrest h

theorem held_frame (hf : σ.instOf f ≠ some i) : f.held i = [] := by
  cases f with
  | disposers j rest => exact only_of_ne (fun hj => hf (congrArg some hj.symm)) _
  | cleanups j rest => exact only_of_ne (fun hj => hf (congrArg some hj.symm)) _
  | capture j p s prev next => exact only_of_ne (fun hj => hf (congrArg some hj.symm)) _
  | _ => rfl

theorem Fits.instOf {s : ℕ} (h : σ.Fits f) (hs : s ∈ f.slots) :
    σ.instOf f = some (σ.parts (σ.slots s).part).inst := by
  cases f with
  | rows p next => rw [(h.slots p rfl s hs).2]; rfl
  | drops p rest next => rw [(h.slots p rfl s hs).2]; rfl
  | dropping p t rest next => rw [(h.slots p rfl s hs).2]; rfl
  | capture j p t prev next =>
      rw [(h.slots p rfl s hs).2]
      exact congrArg some (h.owner p rfl j rfl)
  | _ => cases hs

namespace Sound

/-- The lists of the instance are empty. -/
theorem inst_held (h : σ.Sound) (hphase : (σ.insts i).phase ≠ .live) (haway : σ.Away i) :
    (σ.insts i).held = [] := by
  have hover : (σ.insts i).phase = .over := by
    have hactive : ∀ f ∈ σ.stack, ¬ Disposes i f := by
      intro f hf hi
      cases f with
      | children j rest => exact haway _ hf (congrArg some hi)
      | disposers j rest => exact haway _ hf (congrArg some hi)
      | _ => cases hi
    have hchildren : (σ.insts i).phase ≠ .children := fun hp =>
      (h.nests.active i (.inl hp)).elim fun f hf => hactive f hf.1 hf.2
    have hdisposers : (σ.insts i).phase ≠ .disposers := fun hp =>
      (h.nests.active i (.inr hp)).elim fun f hf => hactive f hf.1 hf.2
    generalize (σ.insts i).phase = phase at hphase hchildren hdisposers
    cases phase <;> first | rfl | contradiction
  rw [Inst.held, h.nests.ended i (.inr hover), h.nests.done i hover,
    (h.nests.sinks i).eq_none haway]
  rfl

theorem held_eq (h : σ.Sound) (hphase : (σ.insts i).phase ≠ .live) (haway : σ.Away i) (fn : Fn) :
    σ.held i fn = ∑ s ∈ Finset.range σ.nSlots, ((σ.slots s).held i).count fn := by
  have hstack : (σ.stack.map fun f => (f.held i).count fn).sum = 0 := by
    refine List.sum_eq_zero fun n hn => ?_
    obtain ⟨f, hf, rfl⟩ := List.mem_map.mp hn
    rw [held_frame (haway f hf), List.count_nil]
  rw [State.held, h.inst_held hphase haway, hstack, List.count_nil, Nat.zero_add]

/-- A slot of the instance that has something has a directive whose `remove` another slot has: by
induction on the directives there is none. -/
theorem slot_held (h : σ.Sound) (hphase : (σ.insts i).phase ≠ .live) (haway : σ.Away i) (p : ℕ) :
    ∀ s, (σ.slots s).inst = i → (σ.slots s).part = p → (σ.slots s).own = [] := by
  induction p using Nat.strong_induction_on with
  | _ p ih =>
    intro s hinst hpart
    by_contra hown
    have hlt : s < σ.nSlots := Nat.lt_of_not_le fun hge => hown (h.keeps.new s hge)
    have hi : (σ.parts p).inst = i := by
      rw [← hpart, ← (h.keeps.slots s hlt).2, hinst]
    rcases h.keeps.held s hown with ⟨f, hf, hs⟩ | ⟨-, hpromised, hcalled⟩
    · refine haway f hf ?_
      rw [(h.keeps.frames f hf).instOf hs, hpart, hi]
    · rw [hpart, hi] at hpromised hcalled
      rcases hpromised with hbinder | hregistered
      · exact haway _ hbinder rfl
      · have hcount := h.balanced i (.remove p)
        have hpos := List.count_pos_iff.mpr hregistered
        rw [List.count_eq_zero.mpr hcalled, h.held_eq hphase haway] at hcount
        have hsum : ∑ t ∈ Finset.range σ.nSlots, ((σ.slots t).held i).count (.remove p) ≠ 0 := by
          rw [nothing, List.count_nil] at hcount
          omega
        obtain ⟨t, -, ht⟩ := Finset.exists_ne_zero_of_sum_ne_zero hsum
        have hmem := List.count_pos_iff.mp (Nat.pos_of_ne_zero ht)
        by_cases hti : (σ.slots t).inst = i
        · rw [Slot.held, hti, only_self] at hmem
          have hempty := ih _ (h.nests.own t p hmem) t hti rfl
          rw [hempty] at hmem
          cases hmem
        · rw [Slot.held, only_of_ne (Ne.symm hti)] at hmem
          cases hmem

/-- **After `dispose` all that was registered was called**, as often as it was registered. -/
theorem called_all (h : σ.Sound) (hphase : (σ.insts i).phase ≠ .live) (haway : σ.Away i)
    (fn : Fn) : σ.log.count (.called i fn) = σ.log.count (.registered i fn) := by
  have hzero : σ.held i fn = 0 := by
    rw [h.held_eq hphase haway]
    refine Finset.sum_eq_zero fun s _ => ?_
    by_cases hi : (σ.slots s).inst = i
    · rw [Slot.held, hi, only_self, h.slot_held hphase haway _ s hi rfl, List.count_nil]
    · rw [Slot.held, only_of_ne (Ne.symm hi), List.count_nil]
  have hcount := h.balanced i fn
  rw [hzero, nothing, List.count_nil, Nat.add_zero] at hcount
  exact hcount.symm

end Sound

/-! ### The promise -/

/-- What is promised of cleanups and disposal. -/
structure Promise (σ : State) : Prop where
  /-- A cleanup that a run returned is executed at most once. -/
  once : ∀ e c, σ.log.count (.returned e c) ≤ 1 ∧
    σ.log.count (.executed e c) ≤ σ.log.count (.returned e c)
  /-- An effect runs only while it is not disposed and when its cleanups were executed. -/
  rerun : ∀ e l, .started e :: l <:+ σ.log →
    .disposed e ∉ l ∧ ∀ c, .returned e c ∈ l → .executed e c ∈ l
  /-- The cleanups of a disposed effect were executed. -/
  disposed : ∀ e c, .disposed e ∈ σ.log → .returned e c ∈ σ.log → .executed e c ∈ σ.log
  /-- What was registered on a disposed instance was called once for each time. -/
  inst : ∀ i, (σ.insts i).phase ≠ .live → σ.Away i → ∀ fn,
    σ.log.count (.called i fn) = σ.log.count (.registered i fn)
  /-- The effects among it were disposed, once. -/
  effects : ∀ i, (σ.insts i).phase ≠ .live → σ.Away i → ∀ e, .registered i (.effect e) ∈ σ.log →
    σ.log.count (.disposed e) = 1

theorem Sound.promise (h : σ.Sound) : σ.Promise where
  once e c := ⟨h.orderly.unique e c, by rw [h.orderly.once e c]; exact Nat.le_add_right _ _⟩
  rerun := h.orderly.started
  disposed e c he hc := h.orderly.executed (h.orderly.gone e (h.orderly.marked e he)) hc
  inst i hphase haway := h.called_all hphase haway
  effects i hphase haway e he := by
    have hcalled : .called i (.effect e) ∈ σ.log := by
      refine List.count_pos_iff.mp ?_
      rw [h.called_all hphase haway]
      exact List.count_pos_iff.mpr he
    have hpos := List.count_pos_iff.mpr (h.gone.called i e (by simp) hcalled)
    exact Nat.le_antisymm (h.gone.once e) hpos

/-- **A run whose steps lose nothing keeps the promise.** -/
theorem cleanups_run_once {as : List Act} (hwell : State.init.Wells as)
    (hrun : State.init.run as = some σ) : σ.Promise :=
  (Sound.run hwell hrun).promise

theorem Wells.cons {a : Act} {as : List Act} (hwell : σ.Well a) (hstep : σ.step a = some σ')
    (h : σ'.Wells as) : σ.Wells (a :: as) := by
  refine ⟨hwell, fun τ hτ => ?_⟩
  cases hstep.symm.trans hτ
  exact h

/-- A component is mounted, has an effect with a cleanup, and is disposed. -/
theorem cleanups_run_once_mounted : ∃ σ : State, State.init.run [.enter, .mount none,
      .effect (some 0), .ret true, .resume, .resume, .resume, .resume, .disposeInst 0, .resume,
      .resume, .ret false, .resume, .resume, .resume, .ret false] = some σ ∧ σ.Promise := by
  have hwell : State.init.Wells [.enter, .mount none, .effect (some 0), .ret true, .resume, .resume,
      .resume, .resume, .disposeInst 0, .resume, .resume, .ret false, .resume, .resume, .resume,
      .ret false] :=
    .cons trivial rfl <| .cons trivial rfl <| .cons trivial rfl <| .cons trivial rfl <|
      .cons ⟨rfl, fun _ => rfl⟩ rfl <| .cons trivial rfl <| .cons (.inr (.inl rfl)) rfl <|
      .cons trivial rfl <| .cons trivial rfl <| .cons trivial rfl <| .cons trivial rfl <|
      .cons trivial rfl <| .cons trivial rfl <| .cons trivial rfl <| .cons trivial rfl <|
      .cons trivial rfl trivial
  exact ⟨_, rfl, cleanups_run_once hwell rfl⟩

/-- **An effect that disposes itself as it runs loses the cleanup that the run returns.** -/
theorem self_disposal_loses : ¬ ∀ as (σ : State), State.init.run as = some σ → σ.Promise := by
  intro h
  have hlost := (h [.enter, .effect none, .ret false, .resume, .resume, .resume, .run 0,
    .dispose 0, .resume, .ret true, .resume] _ rfl).disposed 0 0 (by decide) (by decide)
  revert hlost
  decide

end Brust.Instances.State
