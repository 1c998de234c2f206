import Brust.Instances.Slots

/-!
# Instances — Sinks and disposal

Where an instance is in its `dispose` says which of its lists are empty, and its sink is there only
inside a capture (`Nested`).  What a capture has to remove is younger than its directive: the
directive whose `remove` it is was bound inside the branch or the row.
-/

namespace Brust.Instances.State

variable {σ σ' : State} {st : List Frame} {f g : Frame} {i p s : ℕ}

/-- The sink of an instance, and those that captures put aside: each is inside a capture, and what
it has to remove was bound in it. -/
def Sinks (i : ℕ) : Option (List Fn) → List Frame → Prop
  | sink, [] => sink = none
  | sink, .capture j p _ prev _ :: st =>
    if j = i then (∃ own, sink = some own ∧ ∀ q, .remove q ∈ own → p < q) ∧ Sinks i prev st
    else Sinks i sink st
  | sink, _ :: st => Sinks i sink st

/-- A call of an instance's `dispose`. -/
def Disposes (i : ℕ) : Frame → Prop
  | .children j _ | .disposers j _ => j = i
  | _ => False

structure Nested (σ : State) (st : List Frame) : Prop where
  ended : ∀ i, (σ.insts i).phase = .disposers ∨ (σ.insts i).phase = .over →
    (σ.insts i).disposers = []
  done : ∀ i, (σ.insts i).phase = .over → (σ.insts i).cleanups = []
  active : ∀ i, (σ.insts i).phase = .children ∨ (σ.insts i).phase = .disposers →
    ∃ f ∈ st, Disposes i f
  begun : ∀ i rest, .disposers i rest ∈ st →
    (σ.insts i).phase = .disposers ∨ (σ.insts i).phase = .over
  sinks : ∀ i, Sinks i (σ.insts i).sink st
  own : ∀ s q, .remove q ∈ (σ.slots s).own → (σ.slots s).part < q
  binders : st.Pairwise fun f g => ∀ i q, f = .binder i q → ∀ p ∈ g.part, p < q

theorem Sinks.add {own : List Fn} {fn : Fn} (h : Sinks i (some own) st)
    (hfn : ∀ q, fn = .remove q → ∀ f ∈ st, ∀ p ∈ f.part, p < q) :
      Sinks i (some (own ++ [fn])) st := by
  induction st with
  | nil => cases h
  | cons f st ih =>
      have hrest : Sinks i (some own) st → Sinks i (some (own ++ [fn])) st := fun hst =>
        ih hst fun q hq g hg => hfn q hq g (.tail _ hg)
      cases f with
      | capture j p s prev next =>
          unfold Sinks at h ⊢
          split at h
          · next hj =>
            rw [if_pos hj]
            obtain ⟨⟨own', heq, hyoung⟩, hprev⟩ := h
            cases heq
            refine ⟨⟨_, rfl, fun q hq => ?_⟩, hprev⟩
            rcases List.mem_append.mp hq with hq | hq
            · exact hyoung q hq
            · exact hfn q (List.mem_singleton.mp hq).symm _ (.head _) p rfl
          · next hj =>
            rw [if_neg hj]
            exact hrest h
      | _ => exact hrest h

theorem sinks_cons {sink : Option (List Fn)} (hf : ∀ i p s prev next,
    f ≠ .capture i p s prev next) :
    Sinks i sink (f :: st) ↔ Sinks i sink st := by
  cases f with
  | capture j p s prev next => exact absurd rfl (hf j p s prev next)
  | _ => exact .rfl

namespace Nested

theorem init : State.init.Nested [] := by
  refine ⟨fun _ _ => rfl, fun _ _ => rfl, ?_, ?_, fun _ => rfl, ?_, .nil⟩
  · rintro i (h | h)
    · cases h
    · cases h
  · rintro i rest ⟨⟩
  · rintro s q ⟨⟩

theorem same (h : σ.Nested st) (hinsts : σ'.insts = σ.insts) (hslots : σ'.slots = σ.slots) :
    σ'.Nested st := by
  obtain ⟨ended, done, active, begun, sinks, own, binders⟩ := h
  exact ⟨hinsts ▸ ended, hinsts ▸ done, hinsts ▸ active, hinsts ▸ begun, hinsts ▸ sinks,
    hslots ▸ own, binders⟩

/-- A call begins. -/
theorem push (h : σ.Nested st) (hf : ∀ i p s prev next, f ≠ .capture i p s prev next)
    (hbinder : ∀ i q, f = .binder i q → ∀ g ∈ st, ∀ p ∈ g.part, p < q)
    (hbegun : ∀ i rest, f = .disposers i rest →
      (σ.insts i).phase = .disposers ∨ (σ.insts i).phase = .over) : σ.Nested (f :: st) where
  ended := h.ended
  done := h.done
  active i hi := by
    obtain ⟨g, hg, hi⟩ := h.active i hi
    exact ⟨g, .tail _ hg, hi⟩
  begun i rest hi := by
    rcases List.mem_cons.mp hi with heq | hi
    · exact hbegun i rest heq.symm
    · exact h.begun i rest hi
  sinks i := (sinks_cons hf).mpr (h.sinks i)
  own := h.own
  binders := List.pairwise_cons.mpr ⟨fun g hg i q hq => hbinder i q hq g hg, h.binders⟩

/-- A call ends. -/
theorem pop (h : σ.Nested (f :: st)) (hf : ∀ i p s prev next, f ≠ .capture i p s prev next)
    (hactive : ∀ i, Disposes i f → (σ.insts i).phase = .over) : σ.Nested st where
  ended := h.ended
  done := h.done
  active i hi := by
    obtain ⟨g, hg, hgi⟩ := h.active i hi
    rcases List.mem_cons.mp hg with rfl | hg
    · rw [hactive i hgi] at hi
      rcases hi with hi | hi
      · cases hi
      · cases hi
    · exact ⟨g, hg, hgi⟩
  begun i rest hi := h.begun i rest (.tail _ hi)
  sinks i := (sinks_cons hf).mp (h.sinks i)
  own := h.own
  binders := (List.pairwise_cons.mp h.binders).2

/-- A `dispose` goes on. -/
theorem swap (h : σ.Nested (f :: st)) (hf : Disposes i f) (hg : Disposes i g)
    (hbegun : ∀ i rest, g = .disposers i rest →
      (σ.insts i).phase = .disposers ∨ (σ.insts i).phase = .over) : σ.Nested (g :: st) where
  ended := h.ended
  done := h.done
  active j hj := by
    obtain ⟨f', hf', hfj⟩ := h.active j hj
    rcases List.mem_cons.mp hf' with rfl | hf'
    · refine ⟨g, .head _, ?_⟩
      have hij : i = j := by
        cases f' with
        | children k rest => exact hf.symm.trans hfj
        | disposers k rest => exact hf.symm.trans hfj
        | _ => cases hf
      exact hij ▸ hg
    · exact ⟨f', .tail _ hf', hfj⟩
  begun j rest hj := by
    rcases List.mem_cons.mp hj with heq | hj
    · exact hbegun j rest heq.symm
    · exact h.begun j rest (.tail _ hj)
  sinks j := by
    have hsink := (sinks_cons (by rintro i p s prev next rfl; cases hf)).mp (h.sinks j)
    exact (sinks_cons (by rintro i p s prev next rfl; cases hg)).mpr hsink
  own := h.own
  binders := by
    refine List.pairwise_cons.mpr ⟨?_, (List.pairwise_cons.mp h.binders).2⟩
    rintro g' hg' i q rfl
    cases hg

/-- An instance goes on with its `dispose`, or its lists change. -/
theorem setInst (h : σ.Nested st) {x : Inst} (hsink : Sinks i x.sink st)
    (hover : x.phase = .disposers ∨ x.phase = .over → x.disposers = [])
    (hdone : x.phase = .over → x.cleanups = [])
    (hactive : x.phase = .children ∨ x.phase = .disposers → ∃ f ∈ st, Disposes i f)
    (hbegun : ∀ rest, .disposers i rest ∈ st → x.phase = .disposers ∨ x.phase = .over) :
    (σ.setInst i x).Nested st := by
  have hself : (σ.setInst i x).insts i = x := setInst_self ..
  have hne : ∀ j, j ≠ i → (σ.setInst i x).insts j = σ.insts j := fun j hj => setInst_of_ne _ hj _
  refine ⟨fun j => ?_, fun j => ?_, fun j => ?_, fun j => ?_, fun j => ?_, h.own, h.binders⟩
  all_goals by_cases hj : j = i
  · rw [hj, hself]
    exact hover
  · rw [hne j hj]
    exact h.ended j
  · rw [hj, hself]
    exact hdone
  · rw [hne j hj]
    exact h.done j
  · rw [hj, hself]
    exact hactive
  · rw [hne j hj]
    exact h.active j
  · rw [hj, hself]
    exact hbegun
  · rw [hne j hj]
    exact h.begun j
  · rw [hj, hself]
    exact hsink
  · rw [hne j hj]
    exact h.sinks j

theorem setOwn (h : σ.Nested st) {own : List Fn}
    (hown : ∀ q, .remove q ∈ own → (σ.slots s).part < q) : (σ.setOwn s own).Nested st where
  ended := h.ended
  done := h.done
  active := h.active
  begun := h.begun
  sinks := h.sinks
  own t q hq := by
    by_cases ht : t = s
    · subst ht
      rw [setOwn_self] at hq ⊢
      exact hown q hq
    · rw [setOwn_of_ne _ ht] at hq ⊢
      exact h.own t q hq
  binders := h.binders

theorem newSlot (h : σ.Nested st) (hnew : (σ.slots σ.nSlots).own = []) :
    (σ.newSlot p).Nested st where
  ended := h.ended
  done := h.done
  active := h.active
  begun := h.begun
  sinks := h.sinks
  own t q hq := by
    by_cases ht : t = σ.nSlots
    · subst ht
      have hslot : (σ.newSlot p).slots σ.nSlots = _ := Function.update_self ..
      rw [hslot] at hq
      change .remove q ∈ (σ.slots σ.nSlots).own at hq
      rw [hnew] at hq
      cases hq
    · have hslot : (σ.newSlot p).slots t = σ.slots t := Function.update_of_ne ht ..
      rw [hslot] at hq ⊢
      exact h.own t q hq
  binders := h.binders

/-- A capture begins: the sink of before is put aside. -/
theorem capture (h : σ.Nested st) {next : Option (List ℕ)} :
    (σ.setInst i { σ.insts i with sink := some [] }).Nested
      (.capture i p s (σ.insts i).sink next :: st) := by
  have hself : (σ.setInst i { σ.insts i with sink := some [] }).insts i = _ := setInst_self ..
  have hne : ∀ j, j ≠ i → (σ.setInst i { σ.insts i with sink := some [] }).insts j = σ.insts j :=
    fun j hj => setInst_of_ne _ hj _
  have hphase : ∀ j, ((σ.setInst i { σ.insts i with sink := some [] }).insts j).phase =
      (σ.insts j).phase ∧ ((σ.setInst i { σ.insts i with sink := some [] }).insts j).disposers =
      (σ.insts j).disposers ∧ ((σ.setInst i { σ.insts i with sink := some [] }).insts j).cleanups =
      (σ.insts j).cleanups := by
    intro j
    by_cases hj : j = i
    · rw [hj, hself]
      exact ⟨rfl, rfl, rfl⟩
    · rw [hne j hj]
      exact ⟨rfl, rfl, rfl⟩
  refine ⟨fun j => ?_, fun j => ?_, fun j hj => ?_, fun j rest hj => ?_, fun j => ?_, h.own,
    List.pairwise_cons.mpr ⟨?_, h.binders⟩⟩
  · rw [(hphase j).1, (hphase j).2.1]
    exact h.ended j
  · rw [(hphase j).1, (hphase j).2.2]
    exact h.done j
  · rw [(hphase j).1] at hj
    obtain ⟨f, hf, hfj⟩ := h.active j hj
    exact ⟨f, .tail _ hf, hfj⟩
  · rw [(hphase j).1]
    rcases List.mem_cons.mp hj with heq | hj
    · cases heq
    · exact h.begun j rest hj
  · unfold Sinks
    split
    · next hj =>
      subst hj
      rw [hself]
      refine ⟨⟨[], rfl, ?_⟩, h.sinks i⟩
      rintro q ⟨⟩
    · next hj =>
      rw [hne j (Ne.symm hj)]
      exact h.sinks j
  · rintro g _ i q ⟨⟩

/-- A capture ends: its sink is what was bound in it, and the one of before is back. -/
theorem captured {prev : Option (List Fn)} {next : Option (List ℕ)}
    (h : σ.Nested (.capture i p s prev next :: st)) :
    (σ.setInst i { σ.insts i with sink := prev }).Nested st ∧
      ∀ q, .remove q ∈ (σ.insts i).sink.getD [] → p < q := by
  have hi := h.sinks i
  rw [Sinks, if_pos rfl] at hi
  obtain ⟨⟨own, hown, hyoung⟩, hprev⟩ := hi
  have hself : (σ.setInst i { σ.insts i with sink := prev }).insts i = _ := setInst_self ..
  have hne : ∀ j, j ≠ i → (σ.setInst i { σ.insts i with sink := prev }).insts j = σ.insts j :=
    fun j hj => setInst_of_ne _ hj _
  have hactive : ∀ j, (σ.insts j).phase = .children ∨ (σ.insts j).phase = .disposers →
      ∃ f ∈ st, Disposes j f := by
    intro j hj
    obtain ⟨f, hf, hfj⟩ := h.active j hj
    rcases List.mem_cons.mp hf with rfl | hf
    · cases hfj
    · exact ⟨f, hf, hfj⟩
  refine ⟨⟨fun j => ?_, fun j => ?_, fun j => ?_, fun j rest hj => ?_, fun j => ?_, h.own,
    (List.pairwise_cons.mp h.binders).2⟩, ?_⟩
  · by_cases hj : j = i
    · rw [hj, hself]
      exact h.ended i
    · rw [hne j hj]
      exact h.ended j
  · by_cases hj : j = i
    · rw [hj, hself]
      exact h.done i
    · rw [hne j hj]
      exact h.done j
  · by_cases hj : j = i
    · rw [hj, hself]
      exact hactive i
    · rw [hne j hj]
      exact hactive j
  · have hphase := h.begun j rest (.tail _ hj)
    by_cases hji : j = i
    · rw [hji] at hphase
      rw [hji, hself]
      exact hphase
    · rw [hne j hji]
      exact hphase
  · by_cases hj : j = i
    · rw [hj, hself]
      exact hprev
    · rw [hne j hj]
      have hsink := h.sinks j
      rw [Sinks, if_neg (Ne.symm hj)] at hsink
      exact hsink
  · rw [hown]
    exact hyoung

end Nested

/-- As `Nested`, for the calls on the stack. -/
def Nests (σ : State) : Prop := σ.Nested σ.stack

/-- Calls that say nothing of an instance's lists. -/
def plain : Frame → Bool
  | .capture .. | .binder .. | .children .. | .disposers .. => false
  | _ => true

namespace Nests

theorem same (h : σ.Nests) (hstack : σ'.stack = σ.stack) (hinsts : σ'.insts = σ.insts)
    (hslots : σ'.slots = σ.slots) : σ'.Nests := by
  rw [Nests, hstack]
  exact Nested.same h hinsts hslots

theorem enter (h : σ.Nests) (hf : plain f = true) {ctrl : Ctrl} : (σ.push f ctrl).Nests := by
  refine Nested.same (Nested.push h ?_ ?_ ?_) rfl rfl
  · rintro i p s prev next rfl
    cases hf
  · rintro i q rfl
    cases hf
  · rintro i rest rfl
    cases hf

theorem start (h : σ.Nests) {e : ℕ} : (σ.start e).Nests := by
  have hemit : (σ.emit (.started e)).Nests := h.same rfl rfl rfl
  have hbody : ((σ.emit (.started e)).push (.body e) .run).Nests := hemit.enter rfl
  unfold State.start
  dsimp only
  split
  · exact hbody.enter rfl
  · split
    · exact hbody.enter rfl
    · exact hbody.enter rfl

theorem runEffect (h : σ.Nests) {e : ℕ} : (σ.runEffect e).Nests := by
  unfold State.runEffect
  split
  · exact h.same rfl rfl rfl
  · split
    · next c _ =>
      have hgone : ((σ.setEffect e { σ.effects e with cleanup := none }).emit
          (.executed e c)).Nests := h.same rfl rfl rfl
      have hrerun : (((σ.setEffect e { σ.effects e with cleanup := none }).emit
          (.executed e c)).push (.rerun e) .run).Nests := hgone.enter rfl
      exact hrerun.enter rfl
    · exact h.start

theorem disposeEffect (h : σ.Nests) {e : ℕ} : (σ.disposeEffect e).Nests := by
  unfold State.disposeEffect
  split
  · exact h.same rfl rfl rfl
  · dsimp only
    split
    · next c _ =>
      have hgone : (((σ.setEffect e { σ.effects e with disposed := true, cleanup := none }).emit
          (.executed e c)).emit (.disposed e)).Nests := h.same rfl rfl rfl
      exact hgone.enter rfl
    · exact h.same rfl rfl rfl

theorem effect (h : σ.Nests) {body : Body} : (σ.effect body).Nests := by
  have hnew : ({ σ with
      effects := Function.update σ.effects σ.nEffects { σ.effects σ.nEffects with body }
      nEffects := σ.nEffects + 1 } : State).Nests := h.same rfl rfl rfl
  have hfirst : ({ σ with
      effects := Function.update σ.effects σ.nEffects { σ.effects σ.nEffects with body }
      nEffects := σ.nEffects + 1 }.push (.first σ.nEffects) .run).Nests := hnew.enter rfl
  exact hfirst.runEffect

theorem instEffect (h : σ.Nests) {body : Body} : (σ.instEffect i body).Nests := by
  have howner : (σ.push (.owner i σ.nEffects) .run).Nests := h.enter rfl
  exact howner.effect

theorem setCleanup (h : σ.Nests) {e : ℕ} {cleanup : Bool} : (σ.setCleanup e cleanup).Nests := by
  unfold State.setCleanup
  split
  · exact h.same rfl rfl rfl
  · exact h.same rfl rfl rfl

/-- What is registered will be called, and a `remove` is younger than what is being bound. -/
theorem register (h : σ.Nests) {fn : Fn}
    (htakes : (∃ e, fn = .effect e) ∧ σ.TakesEffect i ∨ σ.TakesCleanup i ∧ ∀ e, fn ≠ .effect e)
    (hfn : ∀ q, fn = .remove q → ∀ f ∈ σ.stack, ∀ p ∈ f.part, p < q) :
    (σ.register i fn).Nests := by
  have hput : ∀ x : Inst, Sinks i x.sink σ.stack →
      (x.phase = .disposers ∨ x.phase = .over → x.disposers = []) →
      (x.phase = .over → x.cleanups = []) → x.phase = (σ.insts i).phase →
      (((σ.setInst i x).emit (.registered i fn)).ret).Nests := by
    intro x hsink hover hdone hphase
    refine Nested.same (σ := σ.setInst i x) (Nested.setInst h hsink hover hdone ?_ ?_) rfl rfl
    · rw [hphase]
      exact Nested.active h i
    · rw [hphase]
      exact Nested.begun h i
  unfold State.register
  dsimp only
  split
  · next own hsink =>
    refine hput _ ?_ (Nested.ended h i) (Nested.done h i) rfl
    have hsinks := Nested.sinks h i
    rw [hsink] at hsinks
    exact hsinks.add hfn
  · next e hsink =>
    refine hput _ (hsink ▸ Nested.sinks h i) (fun hphase => ?_) (Nested.done h i) rfl
    rcases htakes with ⟨-, htakes⟩ | ⟨-, hne⟩
    · rcases htakes with htakes | htakes | htakes
      · exact absurd hsink htakes
      · change (σ.insts i).phase = _ ∨ (σ.insts i).phase = _ at hphase
        rw [htakes] at hphase
        rcases hphase with hphase | hphase
        · cases hphase
        · cases hphase
      · change (σ.insts i).phase = _ ∨ (σ.insts i).phase = _ at hphase
        rw [htakes] at hphase
        rcases hphase with hphase | hphase
        · cases hphase
        · cases hphase
    · exact absurd rfl (hne e)
  · next hsink hne =>
    refine hput _ (hsink ▸ Nested.sinks h i) (Nested.ended h i) (fun hphase => ?_) rfl
    rcases htakes with ⟨⟨e, rfl⟩, -⟩ | ⟨htakes, -⟩
    · exact absurd rfl (hne e)
    · rcases htakes with htakes | htakes
      · exact absurd hsink htakes
      · exact absurd hphase htakes

theorem call (h : σ.Nests) {fn : Fn} : (σ.call i fn).Nests := by
  have hcalled : (σ.emit (.called i fn)).Nests := h.same rfl rfl rfl
  cases fn with
  | effect e => exact hcalled.disposeEffect
  | cleanup c => exact hcalled.enter rfl
  | remove p => exact hcalled.enter rfl

theorem disposeInst (h : σ.Nests) : (σ.disposeInst i).Nests := by
  unfold State.disposeInst
  split
  · next hlive =>
    have hpush : σ.Nested (.children i (σ.insts i).children :: σ.stack) :=
      Nested.push h (by simp) (by simp) (by simp)
    refine Nested.same (Nested.setInst hpush (x := { σ.insts i with phase := .children })
      (hpush.sinks i) ?_ ?_ ?_ ?_) rfl rfl
    · rintro (hphase | hphase)
      · cases hphase
      · cases hphase
    · intro hphase
      cases hphase
    · exact fun _ => ⟨_, .head _, rfl⟩
    · intro rest hrest
      have hphase := hpush.begun i rest hrest
      rw [hlive] at hphase
      rcases hphase with hphase | hphase
      · cases hphase
      · cases hphase
  · exact h.same rfl rfl rfl

/-- The children of an instance are not looked at. -/
theorem setChildren (h : σ.Nested st) (children : List ℕ) (parent : Option ℕ) :
    (σ.setInst i { σ.insts i with children, parent }).Nested st :=
  h.setInst (h.sinks i) (h.ended i) (h.done i) (h.active i) (h.begun i)

theorem forgetChild (h : σ.Nested st) : (σ.forgetChild i).Nested st := by
  unfold State.forgetChild
  split
  · exact setChildren h _ _
  · exact h

theorem mount (h : σ.Nests) {parent : Option ℕ} : (σ.mount parent).Nests := by
  have hnew : (σ.setInst σ.nInsts { σ.insts σ.nInsts with parent }).Nested σ.stack :=
    setChildren h _ _
  have hcount : ({ σ with
      insts := Function.update σ.insts σ.nInsts { σ.insts σ.nInsts with parent }
      nInsts := σ.nInsts + 1 } : State).Nests := hnew.same rfl rfl
  unfold State.mount
  dsimp only
  split
  · exact setChildren hcount _ _
  · exact hcount

/-- A branch or a row begins to be bound. -/
theorem capture (h : σ.Nests) {next : Option (List ℕ)} : (σ.capture p s next).Nests := by
  have hcapture : ((σ.setInst (σ.parts p).inst
    { σ.insts (σ.parts p).inst with sink := some [] }).push
      (.capture (σ.parts p).inst p s (σ.insts (σ.parts p).inst).sink next) .run).Nests :=
    (Nested.capture h).same rfl rfl
  exact hcapture.enter rfl

theorem newSlot (h : σ.Nests) (hnew : (σ.slots σ.nSlots).own = []) : (σ.newSlot p).Nests :=
  Nested.newSlot h hnew

theorem setKind (h : σ.Nests) {kind : Kind} : (σ.setKind p kind).Nests := h.same rfl rfl rfl

/-- A directive's `remove` is younger than all that is being bound. -/
theorem bind (h : σ.Nests) (hkept : σ.Keeps) {isRows : Bool} : (σ.bind i isRows).Nests := by
  have hnew : (σ.newPart i isRows).Nests := by
    have hpart : ({ σ with
        parts := Function.update σ.parts σ.nParts ⟨i, .branch σ.nSlots false⟩
        nParts := σ.nParts + 1 } : State).Nests := h.same rfl rfl rfl
    cases isRows with
    | true => exact h.same rfl rfl rfl
    | false => exact hpart.newSlot (hkept.new _ (Nat.le_refl _))
  have hstack : (σ.newPart i isRows).stack = σ.stack := by
    cases isRows with
    | true => rfl
    | false => rfl
  have hpush : ((σ.newPart i isRows).push (.binder i σ.nParts) .run).Nests := by
    refine Nested.same (Nested.push hnew (by simp) ?_ (by simp)) rfl rfl
    rintro j q hq g hg p hp
    cases hq
    rw [hstack] at hg
    exact (hkept.frames g hg).part p hp
  exact hpush.instEffect

end Nests

/-- It is as if the call were still on the stack. -/
def NestsWith (σ : State) (f : Frame) : Prop := σ.Nested (f :: σ.stack)

namespace NestsWith

theorem drop (h : σ.NestsWith f) (hf : plain f = true) : σ.Nests := by
  refine Nested.pop h ?_ ?_
  · rintro i p s prev next rfl
    cases hf
  · intro i hi
    cases f with
    | children j rest => cases hf
    | disposers j rest => cases hf
    | _ => cases hi

theorem push (h : σ.NestsWith f) {ctrl : Ctrl} : (σ.push f ctrl).Nests := h.same rfl rfl

/-- A `dispose` goes on. -/
theorem swap (h : σ.NestsWith f) (hf : Disposes i f) (hg : Disposes i g)
    (hbegun : ∀ i rest, g = .disposers i rest →
      (σ.insts i).phase = .disposers ∨ (σ.insts i).phase = .over) {ctrl : Ctrl} :
    (σ.push g ctrl).Nests :=
  (Nested.swap h hf hg hbegun).same rfl rfl

/-- The `remove` of a directive is registered by the call that bound it. -/
theorem older {q : ℕ} (h : σ.NestsWith (.binder i q)) : ∀ f ∈ σ.stack, ∀ p ∈ f.part, p < q :=
  fun g hg => (List.pairwise_cons.mp h.binders).1 g hg i q rfl

theorem setOwn (h : σ.Nests) {own : List Fn} (hown : ∀ q, .remove q ∈ own → (σ.slots s).part < q) :
    (σ.setOwn s own).Nests :=
  Nested.setOwn h hown

theorem returned (h : σ.NestsWith f) (hfits : σ.Fits f) (cleanup : Bool)
    (hwell : σ.ReturnsWell cleanup f) : (σ.returned cleanup f).Nests := by
  have hnone : ∀ s q, .remove q ∈ ([] : List Fn) → (σ.slots s).part < q := by
    rintro s q ⟨⟩
  cases f with
  | user => exact h.push
  | branch p => exact h.push
  | rows p next => exact h.push
  | tail => exact h.push
  | rerun e => exact (h.drop rfl).start
  | body e => exact (h.drop rfl).setCleanup
  | first e => exact (h.drop rfl).same rfl rfl rfl
  | rethrow => exact (h.drop rfl).same rfl rfl rfl
  | owner i e => exact (h.drop rfl).register (.inl ⟨⟨e, rfl⟩, hwell⟩) (by simp)
  | children i rest =>
      cases rest with
      | nil =>
          have hforget : (σ.forgetChild i).Nested (.children i [] :: σ.stack) := Nests.forgetChild h
          have hset : ((σ.forgetChild i).setInst i { (σ.forgetChild i).insts i with
              disposers := [], phase := .disposers }).Nested (.children i [] :: σ.stack) := by
            refine hforget.setInst (hforget.sinks i) (fun _ => rfl) ?_ (fun _ => ?_)
              fun _ _ => .inl rfl
            · intro hphase
              cases hphase
            · exact ⟨_, .head _, rfl⟩
          have hswap := hset.swap (i := i) (g := .disposers i ((σ.forgetChild i).insts i).disposers)
            rfl rfl fun j rest hj => ?_
          · have hstack : (σ.forgetChild i).stack = σ.stack := by
              unfold State.forgetChild
              split
              · rfl
              · rfl
            rw [← hstack] at hswap
            exact hswap.same rfl rfl
          · cases hj
            rw [setInst_self]
            exact .inl rfl
      | cons c rest =>
          have hpush : (σ.push (.children i rest) .run).Nests :=
            h.swap (g := .children i rest) (i := i) rfl rfl (by simp)
          exact hpush.disposeInst
  | disposers i rest =>
      have hbegun := Nested.begun h i rest (.head _)
      cases rest with
      | nil =>
          have hset : (σ.setInst i { σ.insts i with cleanups := [], phase := .over }).Nested
              (.disposers i [] :: σ.stack) := by
            refine Nested.setInst h (h.sinks i) (fun _ => h.ended i hbegun) (fun _ => rfl) ?_
              fun _ _ => .inr rfl
            rintro (hphase | hphase)
            · cases hphase
            · cases hphase
          have hpop : (σ.setInst i { σ.insts i with cleanups := [], phase := .over }).Nests := by
            refine hset.pop (by simp) fun j hj => ?_
            cases hj
            rw [setInst_self]
          exact hpop.enter rfl
      | cons fn rest =>
          have hpush : (σ.push (.disposers i rest) .run).Nests := by
            refine h.swap (g := .disposers i rest) (i := i) rfl rfl fun j rest hj => ?_
            cases hj
            exact hbegun
          exact hpush.call
  | cleanups i rest =>
      cases rest with
      | nil => exact (h.drop rfl).same rfl rfl rfl
      | cons fn rest =>
          have hpush : (σ.push (.cleanups i rest) .run).Nests := (h.drop rfl).enter rfl
          exact hpush.call
  | capture i p s prev next =>
      obtain ⟨hsink, hyoung⟩ := Nested.captured h
      have hput : ((σ.setInst i { σ.insts i with sink := prev }).setOwn s
          ((σ.insts i).sink.getD [])).Nests := by
        refine hsink.setOwn fun q hq => ?_
        change (σ.slots s).part < q
        rw [(hfits.slot p rfl s rfl).2]
        exact hyoung q hq
      cases next with
      | none => exact hput.enter rfl
      | some next => exact hput.enter rfl
  | drops p rest next =>
      have hdrop := h.drop rfl
      cases rest with
      | cons s rest =>
          have hown : (σ.setOwn s []).Nests := setOwn hdrop (hnone s)
          have hpush : ((σ.setOwn s []).push (.dropping p s rest next) .run).Nests := hown.enter rfl
          exact hpush.enter rfl
      | nil =>
          cases next with
          | some next => exact hdrop.setKind.enter rfl
          | none =>
              simp only [State.returned]
              split
              · exact hdrop.same rfl rfl rfl
              · exact hdrop.same rfl rfl rfl
  | dropping p s rest next =>
      have hown : (σ.setOwn s []).Nests := setOwn (h.drop rfl) (hnone s)
      exact hown.enter rfl
  | binder i p =>
      have hpop : σ.Nests := Nested.pop h (by simp) fun j hj => hj.elim
      refine hpop.register (.inr ⟨hwell, by simp⟩) fun q hq => ?_
      cases hq
      exact h.older

theorem threw (h : σ.NestsWith f) (hfits : σ.Fits f) (hwell : σ.ThrowsWell f) :
    (σ.threw f).Nests := by
  have hover : ∀ i, Disposes i f → (σ.insts i).disposers = [] → (σ.insts i).cleanups = [] →
      ((σ.setInst i { σ.insts i with phase := .over }).fail).Nests := by
    intro i hi hdisposers hcleanups
    have hset : (σ.setInst i { σ.insts i with phase := .over }).Nested (f :: σ.stack) := by
      refine Nested.setInst h (h.sinks i) (fun _ => hdisposers) (fun _ => hcleanups) ?_
        fun _ _ => .inr rfl
      rintro (hphase | hphase)
      · cases hphase
      · cases hphase
    refine Nested.same (Nested.pop hset ?_ fun j hj => ?_) rfl rfl
    · rintro j p s prev next rfl
      cases hi
    · have hij : j = i := by
        cases f with
        | children k rest => exact hj.symm.trans hi
        | disposers k rest => exact hj.symm.trans hi
        | _ => cases hi
      rw [hij, setInst_self]
  cases f with
  | user => exact h.push
  | first e =>
      have hpush : (σ.push .rethrow .run).Nests := (h.drop rfl).enter rfl
      exact hpush.disposeEffect
  | children i rest => exact hover i rfl hwell.1 hwell.2
  | disposers i rest =>
      exact hover i rfl (h.ended i (h.begun i rest (.head _))) hwell.2
  | capture i p s prev next => exact (Nested.captured h).1.same rfl rfl
  | cleanups i rest => exact h.returned hfits false trivial
  | drops p rest next => exact h.returned hfits false hwell
  | dropping p s rest next => exact h.returned hfits false hwell
  | binder i p =>
      have hpop : σ.Nests := Nested.pop h (by simp) fun j hj => hj.elim
      exact hpop.same rfl rfl rfl
  | _ => exact (h.drop rfl).same rfl rfl rfl

theorem act (h : σ.NestsWith f) (hkept : σ.KeepsWith f) {a : Act} (hwell : σ.ActsWell f a)
    (hact : σ.act f a = some σ') : σ'.Nests := by
  have hnew := hkept.new σ.nSlots (Nat.le_refl _)
  unfold State.act at hact
  split at hact
  all_goals try split at hact
  all_goals try split at hact
  all_goals cases hact
  · exact Nests.runEffect h.push
  · exact Nests.disposeEffect h.push
  · exact Nests.effect h.push
  · exact Nests.instEffect h.push
  · exact Nests.bind h.push hkept.push
  · have hpush : ({ σ with nCleanups := σ.nCleanups + 1 }.push .user .run).Nests :=
      h.same rfl rfl
    exact hpush.register (.inr ⟨hwell, by simp⟩) (by simp)
  · exact Nests.mount h.push
  · exact Nests.disposeInst h.push
  · exact (h.drop rfl).same rfl rfl rfl
  · exact (h.drop rfl).same rfl rfl rfl
  · exact Nests.enter h.push rfl
  · exact (h.drop rfl).same rfl rfl rfl
  · exact (h.drop rfl).setKind.capture
  · exact (h.drop rfl).enter rfl
  · exact (h.drop rfl).same rfl rfl rfl
  · exact Nests.enter h.push rfl
  · exact (h.drop rfl).same rfl rfl rfl
  · exact (h.drop rfl).setKind.enter rfl
  · exact ((h.drop rfl).newSlot hnew).enter rfl
  · exact ((h.drop rfl).newSlot hnew).capture
  · exact (h.drop rfl).enter rfl
  · exact Nests.enter h.push rfl
  · exact (h.drop rfl).same rfl rfl rfl

end NestsWith
end Brust.Instances.State
