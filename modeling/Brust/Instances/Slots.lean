import Mathlib.Data.List.Infix
import Brust.Instances.Ledger

/-!
# Instances — Slots of branches and rows

What a branch or a row bound is not lost: its slot is empty, or a call under way has it in hand, or
its directive keeps it and will be told to remove it (`Kept`).  The calls under way are given beside
the state, for the call that goes on is taken from the state's stack before it does.
-/

namespace Brust.Instances

def Kind.isRows : Kind → Bool
  | .branch .. => false
  | .rows .. => true

namespace Frame

/-- The directive that a call is of. -/
def part : Frame → Option ℕ
  | .binder _ p | .capture _ p _ _ _ | .branch p | .rows p _ | .drops p _ _ | .dropping p _ _ _ =>
    some p
  | _ => none

/-- The instance that a call says its directive is of. -/
def owner? : Frame → Option ℕ
  | .binder i _ | .capture i _ _ _ _ => some i
  | _ => none

/-- It is a call of an `x-for`. -/
def ofRows : Frame → Bool
  | .rows .. | .capture _ _ _ _ (some _) | .drops _ _ (some _) | .dropping _ _ _ (some _) => true
  | _ => false

/-- The slots that a call has in hand. -/
def slots : Frame → List ℕ
  | .rows _ next | .capture _ _ _ _ (some next) => next
  | .drops _ rest next | .dropping _ _ rest next => rest ++ next.getD []
  | _ => []

/-- The slot that a call is at. -/
def slot : Frame → Option ℕ
  | .capture _ _ s _ _ | .dropping _ s _ _ => some s
  | _ => none

/-- The slots left to drop. -/
def rest : Frame → List ℕ
  | .drops _ rest _ | .dropping _ _ rest _ => rest
  | _ => []

end Frame

namespace State

variable {σ σ' : State} {st : List Frame} {f g : Frame} {i p s : ℕ}

theorem setKind_self (σ : State) (p : ℕ) (k : Kind) :
    (σ.setKind p k).parts p = { σ.parts p with kind := k } :=
  Function.update_self ..

/-- The slot is one of the directive. -/
def Of (σ : State) (p s : ℕ) : Prop := s < σ.nSlots ∧ (σ.slots s).part = p

/-- The rows of before that are not in `rest` have nothing. -/
def Left (σ : State) (p : ℕ) (rest : List ℕ) : Prop :=
  ∀ s ∈ (σ.parts p).kind.kept, (σ.slots s).own ≠ [] → s ∈ rest

/-- What a call knows of its directive. -/
structure Fits (σ : State) (f : Frame) : Prop where
  part : ∀ p ∈ f.part, p < σ.nParts
  owner : ∀ p ∈ f.part, ∀ i ∈ f.owner?, i = (σ.parts p).inst
  slot : ∀ p ∈ f.part, ∀ s ∈ f.slot, σ.Of p s
  slots : ∀ p ∈ f.part, ∀ s ∈ f.slots, σ.Of p s
  rows : ∀ p ∈ f.part, f.ofRows = true → (σ.parts p).kind.isRows = true
  branch : ∀ i p s prev, f = .capture i p s prev none → ∃ current,
    (σ.parts p).kind = .branch s current
  left : ∀ p, Stale p f → σ.Left p f.rest

/-- A call has the slot in hand. -/
def InHand (st : List Frame) (s : ℕ) : Prop := ∃ f ∈ st, s ∈ f.slots

/-- The slot's directive keeps it, and will be told to remove it. -/
def Safe (σ : State) (st : List Frame) (s : ℕ) : Prop :=
  s ∈ (σ.parts (σ.slots s).part).kind.kept ∧ σ.Promised st (σ.slots s).part

/-- No slot that has something is lost. -/
structure Kept (σ : State) (st : List Frame) : Prop where
  new : ∀ s, σ.nSlots ≤ s → (σ.slots s).own = []
  slots : ∀ s, s < σ.nSlots → (σ.slots s).part < σ.nParts ∧
    (σ.slots s).inst = (σ.parts (σ.slots s).part).inst
  kept : ∀ p, ∀ s ∈ (σ.parts p).kind.kept, s ∈ (σ.parts p).kind.dropped
  dropped : ∀ p, ∀ s ∈ (σ.parts p).kind.dropped, σ.Of p s
  bodies : ∀ e p, (σ.effects e).body = .part p → p < σ.nParts
  removes : ∀ i p, .registered i (.remove p) ∈ σ.log → p < σ.nParts
  frames : ∀ f ∈ st, σ.Fits f
  stale : st.Pairwise fun f g => ∀ p, Stale p f → ¬ Stale p g
  held : ∀ s, (σ.slots s).own ≠ [] → InHand st s ∨ σ.Safe st s

/-- What is there stays, and is of the same kind. -/
structure Extends (σ σ' : State) : Prop where
  nParts : σ.nParts ≤ σ'.nParts
  nSlots : σ.nSlots ≤ σ'.nSlots
  inst : ∀ p, p < σ.nParts → (σ'.parts p).inst = (σ.parts p).inst
  isRows : ∀ p, p < σ.nParts → (σ'.parts p).kind.isRows = (σ.parts p).kind.isRows
  branch : ∀ p s c, p < σ.nParts → (σ.parts p).kind = .branch s c →
    ∃ c', (σ'.parts p).kind = .branch s c'
  part : ∀ s, s < σ.nSlots → (σ'.slots s).part = (σ.slots s).part

theorem Stale.part (h : Stale p f) : p ∈ f.part ∧ f.ofRows = true := by
  cases f with
  | drops q rest next =>
      cases next with
      | none => cases h
      | some next =>
          cases h
          exact ⟨rfl, rfl⟩
  | dropping q s rest next =>
      cases next with
      | none => cases h
      | some next =>
          cases h
          exact ⟨rfl, rfl⟩
  | _ => cases h

theorem Of.extend (h : σ.Of p s) (hext : σ.Extends σ') : σ'.Of p s :=
  ⟨Nat.lt_of_lt_of_le h.1 hext.nSlots, (hext.part s h.1).trans h.2⟩

theorem Fits.extend (h : σ.Fits f) (hext : σ.Extends σ')
    (hleft : ∀ p, Stale p f → σ.Left p f.rest → σ'.Left p f.rest) : σ'.Fits f where
  part p hp := Nat.lt_of_lt_of_le (h.part p hp) hext.nParts
  owner p hp i hi := (h.owner p hp i hi).trans (hext.inst p (h.part p hp)).symm
  slot p hp s hs := (h.slot p hp s hs).extend hext
  slots p hp s hs := (h.slots p hp s hs).extend hext
  rows p hp hf := (hext.isRows p (h.part p hp)).trans (h.rows p hp hf)
  branch i p s prev hf := by
    obtain ⟨c, hc⟩ := h.branch i p s prev hf
    exact hext.branch p s c (h.part p (hf ▸ rfl)) hc
  left p hp := hleft p hp (h.left p hp)

/-- A call that is of no directive. -/
theorem Fits.none (hf : f.part = .none) : σ.Fits f where
  part p hp := by
    rw [hf] at hp
    cases hp
  owner p hp := by
    rw [hf] at hp
    cases hp
  slot p hp := by
    rw [hf] at hp
    cases hp
  slots p hp := by
    rw [hf] at hp
    cases hp
  rows p hp := by
    rw [hf] at hp
    cases hp
  branch i p s prev hf' := by
    rw [hf'] at hf
    cases hf
  left p hp := by
    have := hp.part.1
    rw [hf] at this
    cases this

/-- A call of a directive. -/
theorem Fits.of (hf : f.part = some p) (hp : p < σ.nParts)
    (howner : ∀ i ∈ f.owner?, i = (σ.parts p).inst) (hslot : ∀ s ∈ f.slot, σ.Of p s)
    (hslots : ∀ s ∈ f.slots, σ.Of p s)
    (hrows : f.ofRows = true → (σ.parts p).kind.isRows = true)
    (hbranch : ∀ i s prev, f = .capture i p s prev .none → ∃ c, (σ.parts p).kind = .branch s c)
    (hleft : Stale p f → σ.Left p f.rest) : σ.Fits f := by
  have heq : ∀ q ∈ f.part, q = p := fun q hq => by
    rw [hf] at hq
    exact (Option.mem_some_iff.mp hq).symm
  refine ⟨fun q hq => ?_, fun q hq => ?_, fun q hq => ?_, fun q hq => ?_, fun q hq => ?_,
    fun i q s prev hc => ?_, fun q hq => ?_⟩
  · exact heq q hq ▸ hp
  · exact heq q hq ▸ howner
  · exact heq q hq ▸ hslot
  · exact heq q hq ▸ hslots
  · exact heq q hq ▸ hrows
  · obtain rfl := heq q (hc ▸ rfl)
    exact hbranch i s prev hc
  · obtain rfl := heq q hq.part.1
    exact hleft hq

theorem Fits.ofBranch (hp : p < σ.nParts) : σ.Fits (.branch p) :=
  .of rfl hp (by simp [Frame.owner?]) (by simp [Frame.slot]) (by simp [Frame.slots])
    (by simp [Frame.ofRows]) (by simp) fun h => h.elim

theorem Fits.ofRows {next : List ℕ} (hp : p < σ.nParts)
    (hrows : (σ.parts p).kind.isRows = true) (hnext : ∀ s ∈ next, σ.Of p s) :
    σ.Fits (.rows p next) :=
  .of rfl hp (by simp [Frame.owner?]) (by simp [Frame.slot]) hnext (fun _ => hrows) (by simp)
    fun h => h.elim

theorem Fits.ofDrops {rest : List ℕ} {next : Option (List ℕ)} (hp : p < σ.nParts)
    (hslots : ∀ s ∈ rest ++ next.getD [], σ.Of p s)
    (hrows : ∀ l, next = some l → (σ.parts p).kind.isRows = true ∧ σ.Left p rest) :
    σ.Fits (.drops p rest next) := by
  refine .of rfl hp (by simp [Frame.owner?]) (by simp [Frame.slot]) hslots (fun hf => ?_) (by simp)
    fun hs => ?_
  · cases next with
    | none => cases hf
    | some l => exact (hrows l rfl).1
  · cases next with
    | none => cases hs
    | some l => exact (hrows l rfl).2

theorem Fits.ofDropping {rest : List ℕ} {next : Option (List ℕ)} (hp : p < σ.nParts)
    (hs : σ.Of p s) (hslots : ∀ s ∈ rest ++ next.getD [], σ.Of p s)
    (hrows : ∀ l, next = some l → (σ.parts p).kind.isRows = true ∧ σ.Left p rest) :
    σ.Fits (.dropping p s rest next) := by
  refine .of rfl hp (by simp [Frame.owner?]) ?_ hslots (fun hf => ?_) (by simp) fun hs => ?_
  · intro t ht
    cases ht
    exact hs
  · cases next with
    | none => cases hf
    | some l => exact (hrows l rfl).1
  · cases next with
    | none => cases hs
    | some l => exact (hrows l rfl).2

theorem Fits.ofCapture {prev : Option (List Fn)} {next : Option (List ℕ)} (hp : p < σ.nParts)
    (hs : σ.Of p s) (hnext : ∀ t ∈ next.getD [], σ.Of p t)
    (hrows : ∀ l, next = some l → (σ.parts p).kind.isRows = true)
    (hbranch : next = .none → ∃ c, (σ.parts p).kind = .branch s c) :
    σ.Fits (.capture (σ.parts p).inst p s prev next) := by
  refine .of rfl hp ?_ ?_ ?_ (fun hf => ?_) (fun i t prev' hc => ?_) fun h => ?_
  · intro i hi
    cases hi
    rfl
  · intro t ht
    cases ht
    exact hs
  · cases next with
    | none => rintro t ⟨⟩
    | some l => exact hnext
  · cases next with
    | none => cases hf
    | some l => exact hrows l rfl
  · cases hc
    exact hbranch rfl
  · cases next with
    | none => cases h
    | some l => cases h

namespace Kept

theorem init : State.init.Kept [] := by
  refine ⟨fun _ _ => rfl, ?_, ?_, ?_, ?_, ?_, ?_, .nil, ?_⟩
  · intro s hs
    cases hs
  · rintro p s ⟨⟩
  · rintro p s ⟨⟩
  · rintro p s ⟨⟩
  · rintro e p ⟨⟩
  · rintro f ⟨⟩
  · intro s hs
    exact absurd rfl hs

/-- What it does not look at. -/
theorem same (h : σ.Kept st) (hparts : σ'.parts = σ.parts) (hslots : σ'.slots = σ.slots)
    (hnParts : σ'.nParts = σ.nParts) (hnSlots : σ'.nSlots = σ.nSlots)
    (hbodies : ∀ e, (σ'.effects e).body = (σ.effects e).body)
    (hlog : ∀ i p, (.registered i (.remove p) ∈ σ'.log ↔ .registered i (.remove p) ∈ σ.log) ∧
      (.called i (.remove p) ∈ σ'.log ↔ .called i (.remove p) ∈ σ.log)) : σ'.Kept st := by
  have hext : σ.Extends σ' := by
    refine ⟨hnParts ▸ Nat.le_refl _, hnSlots ▸ Nat.le_refl _, ?_, ?_, ?_, ?_⟩
    · exact fun p _ => by rw [hparts]
    · exact fun p _ => by rw [hparts]
    · exact fun p s c _ hc => ⟨c, hparts ▸ hc⟩
    · exact fun s _ => by rw [hslots]
  refine ⟨?_, ?_, ?_, ?_, ?_, ?_, ?_, h.stale, ?_⟩
  · rw [hnSlots, hslots]
    exact h.new
  · rw [hnSlots, hslots, hnParts, hparts]
    exact h.slots
  · rw [hparts]
    exact h.kept
  · rw [hparts]
    exact fun p s hs => (h.dropped p s hs).extend hext
  · intro e p he
    rw [hnParts]
    exact h.bodies e p (hbodies e ▸ he)
  · intro i p hp
    rw [hnParts]
    exact h.removes i p ((hlog i p).1.mp hp)
  · refine fun f hf => (h.frames f hf).extend hext fun p _ hleft => ?_
    rw [Left, hparts, hslots]
    exact hleft
  · intro s hs
    rw [hslots] at hs
    refine (h.held s hs).imp_right fun hsafe => ?_
    obtain ⟨hkept, hpromised, hcalled'⟩ := hsafe
    rw [Safe, Promised, hslots, hparts]
    exact ⟨hkept, hpromised.imp_right (hlog _ _).1.mpr, fun hc => hcalled' ((hlog _ _).2.mp hc)⟩

/-- A call begins. -/
theorem push (h : σ.Kept st) (hf : σ.Fits f) (hstale : ∀ p, Stale p f → ∀ g ∈ st, ¬ Stale p g) :
    σ.Kept (f :: st) where
  new := h.new
  slots := h.slots
  kept := h.kept
  dropped := h.dropped
  bodies := h.bodies
  removes := h.removes
  frames := List.forall_mem_cons.mpr ⟨hf, h.frames⟩
  stale := List.pairwise_cons.mpr ⟨fun g hg p hp => hstale p hp g hg, h.stale⟩
  held s hs := by
    rcases h.held s hs with ⟨g, hg, hsg⟩ | ⟨hkept, hpromised, hcalled⟩
    · exact .inl ⟨g, .tail _ hg, hsg⟩
    · exact .inr ⟨hkept, hpromised.imp_left (.tail _), hcalled⟩

/-- A call ends; the slots in its hand are safe. -/
theorem pop (h : σ.Kept (f :: st))
    (hslots : ∀ s ∈ f.slots, (σ.slots s).own ≠ [] → InHand st s ∨ σ.Safe st s)
    (hbinder : ∀ i p, f = .binder i p → .registered i (.remove p) ∈ σ.log ∨
      σ.Empty (σ.parts p).kind.kept) : σ.Kept st where
  new := h.new
  slots := h.slots
  kept := h.kept
  dropped := h.dropped
  bodies := h.bodies
  removes := h.removes
  frames := (List.forall_mem_cons.mp h.frames).2
  stale := (List.pairwise_cons.mp h.stale).2
  held s hs := by
    rcases h.held s hs with ⟨g, hg, hsg⟩ | ⟨hkept, hpromised, hcalled⟩
    · rcases List.mem_cons.mp hg with rfl | hg
      · exact hslots s hsg hs
      · exact .inl ⟨g, hg, hsg⟩
    · rcases hpromised with hmem | hregistered
      · rcases List.mem_cons.mp hmem with heq | hmem
        · rcases hbinder _ _ heq.symm with hregistered | hempty
          · exact .inr ⟨hkept, .inr hregistered, hcalled⟩
          · exact absurd (hempty s hkept) hs
        · exact .inr ⟨hkept, .inl hmem, hcalled⟩
      · exact .inr ⟨hkept, .inr hregistered, hcalled⟩

/-- A call ends that has no slot in hand. -/
theorem drop (h : σ.Kept (f :: st)) (hslots : f.slots = []) (hbinder : ∀ i p, f ≠ .binder i p) :
    σ.Kept st := by
  refine h.pop (fun s hs => ?_) fun i p hf => absurd hf (hbinder i p)
  rw [hslots] at hs
  cases hs

/-- A call goes on with the slots that it had. -/
theorem swap (h : σ.Kept (f :: st)) (hf : σ.Fits g)
    (hslots : ∀ s ∈ f.slots, (σ.slots s).own ≠ [] → s ∈ g.slots)
    (hstale : ∀ p, Stale p g → ∀ g' ∈ st, ¬ Stale p g') (hbinder : ∀ i p, f ≠ .binder i p) :
    σ.Kept (g :: st) where
  new := h.new
  slots := h.slots
  kept := h.kept
  dropped := h.dropped
  bodies := h.bodies
  removes := h.removes
  frames := List.forall_mem_cons.mpr ⟨hf, (List.forall_mem_cons.mp h.frames).2⟩
  stale := List.pairwise_cons.mpr ⟨fun g' hg' p hp => hstale p hp g' hg',
    (List.pairwise_cons.mp h.stale).2⟩
  held s hs := by
    rcases h.held s hs with ⟨g', hg', hsg⟩ | ⟨hkept, hpromised, hcalled⟩
    · rcases List.mem_cons.mp hg' with rfl | hg'
      · exact .inl ⟨g, .head _, hslots s hsg hs⟩
      · exact .inl ⟨g', .tail _ hg', hsg⟩
    · refine .inr ⟨hkept, hpromised.imp_left fun hmem => ?_, hcalled⟩
      rcases List.mem_cons.mp hmem with heq | hmem
      · exact absurd heq.symm (hbinder _ _)
      · exact .tail _ hmem

/-- A directive changes what it keeps. -/
theorem setKind (h : σ.Kept st) {k : Kind} (hrows : k.isRows = (σ.parts p).kind.isRows)
    (hbranch : ∀ s c, (σ.parts p).kind = .branch s c → ∃ c', k = .branch s c')
    (hdropped : ∀ s ∈ k.kept, s ∈ k.dropped) (hof : ∀ s ∈ k.dropped, σ.Of p s)
    (hstale : ∀ f ∈ st, ¬ Stale p f)
    (hkept : ∀ s ∈ (σ.parts p).kind.kept, (σ.slots s).own ≠ [] → s ∈ k.kept ∨ InHand st s) :
    (σ.setKind p k).Kept st := by
  have hself : ((σ.setKind p k).parts p) = { σ.parts p with kind := k } := setKind_self ..
  have hne : ∀ q, q ≠ p → (σ.setKind p k).parts q = σ.parts q := fun q hq =>
    Function.update_of_ne hq ..
  have hinst : ∀ q, ((σ.setKind p k).parts q).inst = (σ.parts q).inst := by
    intro q
    by_cases hq : q = p
    · rw [hq, hself]
    · rw [hne q hq]
  have hext : σ.Extends (σ.setKind p k) := by
    refine ⟨Nat.le_refl _, Nat.le_refl _, fun q _ => hinst q, fun q _ => ?_, fun q s c _ hc => ?_,
      fun _ _ => rfl⟩
    · by_cases hq : q = p
      · rw [hq, hself]
        exact hrows
      · rw [hne q hq]
    · by_cases hq : q = p
      · subst hq
        rw [hself]
        exact hbranch s c hc
      · exact ⟨c, hne q hq ▸ hc⟩
  refine ⟨h.new, fun s hs => ?_, fun q s hs => ?_, fun q s hs => ?_, h.bodies, h.removes,
    fun f hf => ?_, h.stale, fun s hs => ?_⟩
  · exact ⟨(h.slots s hs).1, (h.slots s hs).2.trans (hinst _).symm⟩
  · by_cases hq : q = p
    · subst hq
      rw [hself] at hs ⊢
      exact hdropped s hs
    · rw [hne q hq] at hs ⊢
      exact h.kept q s hs
  · by_cases hq : q = p
    · subst hq
      rw [hself] at hs
      exact hof s hs
    · rw [hne q hq] at hs
      exact h.dropped q s hs
  · refine (h.frames f hf).extend hext fun q hq hleft => ?_
    have hqp : q ≠ p := by
      rintro rfl
      exact hstale f hf hq
    rw [Left, hne q hqp]
    exact hleft
  · rcases h.held s hs with hin | ⟨hmem, hpromised⟩
    · exact .inl hin
    · have hp : (σ.setKind p k).Promised st (σ.slots s).part := by
        rw [Promised, hinst]
        exact hpromised
      by_cases hq : (σ.slots s).part = p
      · rw [hq] at hmem
        refine (hkept s hmem hs).symm.imp_right fun hk => ⟨?_, hp⟩
        change s ∈ ((σ.setKind p k).parts (σ.slots s).part).kind.kept
        rw [hq, hself]
        exact hk
      · refine .inr ⟨?_, hp⟩
        change s ∈ ((σ.setKind p k).parts (σ.slots s).part).kind.kept
        rw [hne _ hq]
        exact hmem

/-- An `x-if` has its branch, or has it no longer. -/
theorem setBranch {c : Bool} (h : σ.Kept st) (hkind : (σ.parts p).kind = .branch s c) (c' : Bool) :
    (σ.setKind p (.branch s c')).Kept st := by
  refine h.setKind ?_ ?_ (fun t ht => ht) ?_ ?_ ?_
  · rw [hkind]
    rfl
  · rw [hkind]
    rintro t c ⟨⟩
    exact ⟨c', rfl⟩
  · have hdropped := h.dropped p
    rw [hkind] at hdropped
    exact hdropped
  · intro f hf hstale
    have hrows := (h.frames f hf).rows p hstale.part.1 hstale.part.2
    rw [hkind] at hrows
    cases hrows
  · rw [hkind]
    exact fun t ht _ => .inl ht

/-- A slot is emptied, or filled where it is not lost. -/
theorem setOwn (h : σ.Kept st) (hs : s < σ.nSlots) (own : List Fn)
    (hown : own ≠ [] → (∀ f ∈ st, ¬ Stale (σ.slots s).part f) ∧ (InHand st s ∨ σ.Safe st s)) :
    (σ.setOwn s own).Kept st := by
  have hpart : ∀ t, ((σ.setOwn s own).slots t).part = (σ.slots t).part ∧
      ((σ.setOwn s own).slots t).inst = (σ.slots t).inst := by
    intro t
    by_cases ht : t = s
    · rw [ht, setOwn_self]
      exact ⟨rfl, rfl⟩
    · rw [setOwn_of_ne _ ht]
      exact ⟨rfl, rfl⟩
  have hext : σ.Extends (σ.setOwn s own) :=
    ⟨Nat.le_refl _, Nat.le_refl _, fun _ _ => rfl, fun _ _ => rfl, fun _ _ c _ hc => ⟨c, hc⟩,
      fun t _ => (hpart t).1⟩
  refine ⟨fun t ht => ?_, fun t ht => ?_, h.kept, fun q t ht => ?_, h.bodies, h.removes,
    fun f hf => ?_, h.stale, fun t ht => ?_⟩
  · rw [setOwn_of_ne _ (Nat.ne_of_gt (Nat.lt_of_lt_of_le hs ht))]
    exact h.new t ht
  · rw [(hpart t).1, (hpart t).2]
    exact h.slots t ht
  · exact (h.dropped q t ht).extend hext
  · refine (h.frames f hf).extend hext fun q hq hleft t ht hne => ?_
    by_cases hts : t = s
    · subst hts
      rw [setOwn_self] at hne
      have hpart := (h.dropped q t (h.kept q t ht)).2
      exact absurd (hpart ▸ hq) ((hown hne).1 f hf)
    · rw [setOwn_of_ne _ hts] at hne
      exact hleft t ht hne
  · have hsafe : σ.Safe st t → (σ.setOwn s own).Safe st t := fun hsafe => by
      rw [Safe, (hpart t).1]
      exact hsafe
    by_cases hts : t = s
    · subst hts
      rw [setOwn_self] at ht
      exact (hown ht).2.imp_right hsafe
    · rw [setOwn_of_ne _ hts] at ht
      exact (h.held t ht).imp_right hsafe

/-- A directive has a new slot. -/
theorem newSlot (h : σ.Kept st) (hp : p < σ.nParts) :
    (σ.newSlot p).Kept st ∧ (σ.newSlot p).Of p σ.nSlots ∧ σ.Extends (σ.newSlot p) := by
  have hself : (σ.newSlot p).slots σ.nSlots =
      { σ.slots σ.nSlots with inst := (σ.parts p).inst, part := p } := Function.update_self ..
  have hne : ∀ t, t ≠ σ.nSlots → (σ.newSlot p).slots t = σ.slots t := fun t ht =>
    Function.update_of_ne ht ..
  have hown : ∀ t, ((σ.newSlot p).slots t).own = (σ.slots t).own := by
    intro t
    by_cases ht : t = σ.nSlots
    · rw [ht, hself]
    · rw [hne t ht]
  have hext : σ.Extends (σ.newSlot p) :=
    ⟨Nat.le_refl _, Nat.le_succ _, fun _ _ => rfl, fun _ _ => rfl, fun _ _ c _ hc => ⟨c, hc⟩,
      fun t ht => by rw [hne t (Nat.ne_of_lt ht)]⟩
  refine ⟨⟨fun t ht => ?_, fun t ht => ?_, h.kept, fun q t ht => ?_, h.bodies, h.removes,
    fun f hf => ?_, h.stale, fun t ht => ?_⟩, ⟨Nat.lt_succ_self _, by rw [hself]⟩, hext⟩
  · rw [hown]
    exact h.new t (Nat.le_of_succ_le ht)
  · rcases Nat.lt_succ_iff_lt_or_eq.mp ht with ht | rfl
    · rw [hne t (Nat.ne_of_lt ht)]
      exact h.slots t ht
    · rw [hself]
      exact ⟨hp, rfl⟩
  · exact (h.dropped q t ht).extend hext
  · refine (h.frames f hf).extend hext fun q _ hleft t ht htown => ?_
    rw [hown] at htown
    exact hleft t ht htown
  · rw [hown] at ht
    have htn : t ≠ σ.nSlots := by
      rintro rfl
      exact ht (h.new _ (Nat.le_refl _))
    refine (h.held t ht).imp_right fun hsafe => ?_
    rw [Safe, hne t htn]
    exact hsafe

/-- A new directive has nothing bound. -/
theorem newPart (h : σ.Kept st) (i : ℕ) (isRows : Bool) : (σ.newPart i isRows).Kept st ∧
    σ.nParts < (σ.newPart i isRows).nParts ∧
      ((σ.newPart i isRows).parts σ.nParts).inst = i ∧ σ.Extends (σ.newPart i isRows) := by
  have hparts : ∀ q, q ≠ σ.nParts → (σ.newPart i isRows).parts q = σ.parts q := by
    intro q hq
    cases isRows with
    | true => exact Function.update_of_ne hq ..
    | false => exact Function.update_of_ne hq ..
  have hinst : ((σ.newPart i isRows).parts σ.nParts).inst = i := by
    cases isRows with
    | true => simp [State.newPart]
    | false => simp [State.newPart, State.newSlot]
  have hnParts : (σ.newPart i isRows).nParts = σ.nParts + 1 := by
    cases isRows with
    | true => rfl
    | false => rfl
  have hslots : ∀ t, t ≠ σ.nSlots → (σ.newPart i isRows).slots t = σ.slots t := by
    intro t ht
    cases isRows with
    | true => rfl
    | false => exact Function.update_of_ne ht ..
  have hnSlots : σ.nSlots ≤ (σ.newPart i isRows).nSlots ∧
      (σ.newPart i isRows).nSlots ≤ σ.nSlots + 1 := by
    cases isRows with
    | true => exact ⟨Nat.le_refl _, Nat.le_succ _⟩
    | false => exact ⟨Nat.le_succ _, Nat.le_refl _⟩
  have hown : ∀ t, ((σ.newPart i isRows).slots t).own = (σ.slots t).own := by
    intro t
    by_cases ht : t = σ.nSlots
    · cases isRows with
      | true => rfl
      | false =>
          subst ht
          simp [State.newPart, State.newSlot]
    · rw [hslots t ht]
  have hnew : σ.nSlots < (σ.newPart i isRows).nSlots →
      ((σ.newPart i isRows).slots σ.nSlots).part = σ.nParts ∧
        ((σ.newPart i isRows).slots σ.nSlots).inst = i := by
    cases isRows with
    | true => exact fun hlt => absurd hlt (Nat.lt_irrefl _)
    | false => simp [State.newPart, State.newSlot]
  have hkind : ∀ t ∈ ((σ.newPart i isRows).parts σ.nParts).kind.kept,
      t ∈ ((σ.newPart i isRows).parts σ.nParts).kind.dropped := by
    cases isRows with
    | true =>
        have hpart : (σ.newPart i true).parts σ.nParts = _ := Function.update_self ..
        rw [hpart]
        exact fun _ ht => ht
    | false =>
        have hpart : (σ.newPart i false).parts σ.nParts = _ := Function.update_self ..
        rw [hpart]
        exact fun _ ht => ht
  have hdropped : ∀ t ∈ ((σ.newPart i isRows).parts σ.nParts).kind.dropped,
      t = σ.nSlots ∧ σ.nSlots < (σ.newPart i isRows).nSlots := by
    cases isRows with
    | true =>
        have hpart : (σ.newPart i true).parts σ.nParts = _ := Function.update_self ..
        rw [hpart]
        rintro t ⟨⟩
    | false =>
        have hpart : (σ.newPart i false).parts σ.nParts = _ := Function.update_self ..
        rw [hpart]
        exact fun t ht => ⟨List.mem_singleton.mp ht, Nat.lt_succ_self _⟩
  have hlog : (σ.newPart i isRows).log = σ.log := by
    cases isRows with
    | true => rfl
    | false => rfl
  have heffects : (σ.newPart i isRows).effects = σ.effects := by
    cases isRows with
    | true => rfl
    | false => rfl
  generalize σ.newPart i isRows = σ' at *
  have hext : σ.Extends σ' := by
    refine ⟨hnParts ▸ Nat.le_succ _, hnSlots.1, fun q hq => ?_, fun q hq => ?_,
      fun q t c hq hc => ⟨c, ?_⟩, fun t ht => ?_⟩
    · rw [hparts q (Nat.ne_of_lt hq)]
    · rw [hparts q (Nat.ne_of_lt hq)]
    · rw [hparts q (Nat.ne_of_lt hq), hc]
    · rw [hslots t (Nat.ne_of_lt ht)]
  refine ⟨⟨fun t ht => ?_, fun t ht => ?_, fun q t ht => ?_, fun q t ht => ?_, fun e q he => ?_,
    fun j q hq => ?_, fun f hf => ?_, h.stale, fun t ht => ?_⟩, hnParts ▸ Nat.lt_succ_self _,
      hinst, hext⟩
  · rw [hown]
    exact h.new t (Nat.le_trans hnSlots.1 ht)
  · rcases Nat.lt_or_ge t σ.nSlots with hlt | hge
    · rw [hslots t (Nat.ne_of_lt hlt), hnParts]
      obtain ⟨hpart, hi⟩ := h.slots t hlt
      rw [hparts _ (Nat.ne_of_lt hpart)]
      exact ⟨Nat.lt_succ_of_lt hpart, hi⟩
    · have heq : t = σ.nSlots :=
        Nat.le_antisymm (Nat.le_of_lt_succ (Nat.lt_of_lt_of_le ht hnSlots.2)) hge
      subst heq
      obtain ⟨hpart, hi⟩ := hnew ht
      rw [hpart, hi, hinst, hnParts]
      exact ⟨Nat.lt_succ_self _, rfl⟩
  · by_cases hq : q = σ.nParts
    · subst hq
      exact hkind t ht
    · rw [hparts q hq] at ht ⊢
      exact h.kept q t ht
  · by_cases hq : q = σ.nParts
    · subst hq
      obtain ⟨rfl, hlt⟩ := hdropped t ht
      exact ⟨hlt, (hnew hlt).1⟩
    · rw [hparts q hq] at ht
      exact (h.dropped q t ht).extend hext
  · rw [hnParts]
    rw [heffects] at he
    exact Nat.lt_succ_of_lt (h.bodies e q he)
  · rw [hnParts]
    rw [hlog] at hq
    exact Nat.lt_succ_of_lt (h.removes j q hq)
  · refine (h.frames f hf).extend hext fun q hq hleft t ht htown => ?_
    have hlt := (h.frames f hf).part q hq.part.1
    rw [hparts q (Nat.ne_of_lt hlt)] at ht
    rw [hown] at htown
    exact hleft t ht htown
  · rw [hown] at ht
    have hlt : t < σ.nSlots := Nat.lt_of_not_le fun hge => ht (h.new t hge)
    refine (h.held t ht).imp_right fun hsafe => ?_
    rw [Safe, Promised, hslots t (Nat.ne_of_lt hlt), hlog,
      hparts _ (Nat.ne_of_lt (h.slots t hlt).1)]
    exact hsafe

/-- `remove` is called: what the directive keeps is in the hand of a call. -/
theorem called (h : σ.Kept st) (hkept : ∀ t ∈ (σ.parts p).kind.kept, (σ.slots t).own ≠ [] →
    InHand st t) : (σ.emit (.called i (.remove p))).Kept st where
  new := h.new
  slots := h.slots
  kept := h.kept
  dropped := h.dropped
  bodies := h.bodies
  removes j q hq := by
    rcases List.mem_cons.mp hq with heq | hq
    · cases heq
    · exact h.removes j q hq
  frames f hf := (h.frames f hf).extend ⟨Nat.le_refl _, Nat.le_refl _, fun _ _ => rfl,
    fun _ _ => rfl, fun _ _ c _ hc => ⟨c, hc⟩, fun _ _ => rfl⟩ fun _ _ hleft => hleft
  stale := h.stale
  held t ht := by
    rcases h.held t ht with hin | ⟨hmem, hpromised, hcalled⟩
    · exact .inl hin
    · by_cases hp : (σ.slots t).part = p
      · exact .inl (hkept t (hp ▸ hmem) ht)
      · refine .inr ⟨hmem, hpromised.imp_right (.tail _), fun hc => ?_⟩
        rcases List.mem_cons.mp hc with heq | hc
        · exact hp (Fn.remove.inj (Event.called.inj heq).2)
        · exact hcalled hc

/-- Something is registered. -/
theorem registered (h : σ.Kept st) (i : ℕ) {fn : Fn} (hfn : ∀ p, fn = .remove p → p < σ.nParts) :
    (σ.emit (.registered i fn)).Kept st where
  new := h.new
  slots := h.slots
  kept := h.kept
  dropped := h.dropped
  bodies := h.bodies
  removes j q hq := by
    rcases List.mem_cons.mp hq with heq | hq
    · exact hfn q (Event.registered.inj heq).2.symm
    · exact h.removes j q hq
  frames f hf := (h.frames f hf).extend ⟨Nat.le_refl _, Nat.le_refl _, fun _ _ => rfl,
    fun _ _ => rfl, fun _ _ c _ hc => ⟨c, hc⟩, fun _ _ => rfl⟩ fun _ _ hleft => hleft
  stale := h.stale
  held t ht := by
    refine (h.held t ht).imp_right fun ⟨hmem, hpromised, hcalled⟩ => ?_
    refine ⟨hmem, hpromised.imp_right (.tail _), fun hc => ?_⟩
    rcases List.mem_cons.mp hc with heq | hc
    · cases heq
    · exact hcalled hc

end Kept

/-! ### Calls -/

/-- No slot is lost by the calls on the stack. -/
def Keeps (σ : State) : Prop := σ.Kept σ.stack

namespace Keeps

/-- What it does not look at. -/
theorem same (h : σ.Keeps) (hstack : σ'.stack = σ.stack) (hparts : σ'.parts = σ.parts)
    (hslots : σ'.slots = σ.slots) (hnParts : σ'.nParts = σ.nParts) (hnSlots : σ'.nSlots = σ.nSlots)
    (hbodies : ∀ e, (σ'.effects e).body = (σ.effects e).body) (hlog : σ'.log = σ.log) :
    σ'.Keeps := by
  rw [Keeps, hstack]
  exact Kept.same h hparts hslots hnParts hnSlots hbodies fun _ _ => by simp [hlog]

theorem push (h : σ.Keeps) (hf : σ.Fits f) (hstale : ∀ p, Stale p f → ∀ g ∈ σ.stack, ¬ Stale p g)
    {ctrl : Ctrl} : (σ.push f ctrl).Keeps :=
  (Kept.push h hf hstale).same rfl rfl rfl rfl (fun _ => rfl) fun _ _ => ⟨.rfl, .rfl⟩

/-- A call that is of no directive. -/
theorem enter (h : σ.Keeps) (hf : f.part = none) {ctrl : Ctrl} : (σ.push f ctrl).Keeps := by
  refine h.push (.none hf) fun p hp => ?_
  have hpart := hp.part.1
  rw [hf] at hpart
  cases hpart

theorem emit (h : σ.Keeps) (ev : Event)
    (hev : ∀ i p, ev ≠ .registered i (.remove p) ∧ ev ≠ .called i (.remove p)) :
    (σ.emit ev).Keeps := by
  refine Kept.same h rfl rfl rfl rfl (fun _ => rfl) fun i p => ?_
  simp [State.emit, (hev i p).1.symm, (hev i p).2.symm]

theorem setEffect (h : σ.Keeps) {e : ℕ} {x : Effect} (hx : x.body = (σ.effects e).body) :
    (σ.setEffect e x).Keeps := by
  refine h.same rfl rfl rfl rfl rfl (fun e' => ?_) rfl
  by_cases he : e' = e
  · rw [he, setEffect_self, hx]
  · rw [setEffect_of_ne _ he]

theorem start (h : σ.Keeps) {e : ℕ} : (σ.start e).Keeps := by
  have hbody : ((σ.emit (.started e)).push (.body e) .run).Keeps := (h.emit _ (by simp)).enter rfl
  unfold State.start
  dsimp only
  split
  · exact hbody.enter rfl
  · next p hp =>
    have hlt := h.bodies e p hp
    split
    · exact hbody.push (.ofBranch hlt) fun _ hs => hs.elim
    · next rows order hkind =>
      refine hbody.push (.ofRows hlt ?_ (by simp)) fun _ hs => hs.elim
      exact congrArg Kind.isRows hkind

theorem runEffect (h : σ.Keeps) {e : ℕ} : (σ.runEffect e).Keeps := by
  unfold State.runEffect
  split
  · exact h.same rfl rfl rfl rfl rfl (fun _ => rfl) rfl
  · split
    · next c _ =>
      have hset : (σ.setEffect e { σ.effects e with cleanup := none }).Keeps := h.setEffect rfl
      have hgone := hset.emit (.executed e c) (by simp)
      exact (hgone.enter rfl).enter rfl
    · exact h.start

theorem disposeEffect (h : σ.Keeps) {e : ℕ} : (σ.disposeEffect e).Keeps := by
  have hgone : (σ.setEffect e { σ.effects e with disposed := true, cleanup := none }).Keeps :=
    h.setEffect rfl
  unfold State.disposeEffect
  split
  · exact h.same rfl rfl rfl rfl rfl (fun _ => rfl) rfl
  · dsimp only
    split
    · next c _ =>
      have hexecuted := hgone.emit (.executed e c) (by simp)
      have hdisposed := hexecuted.emit (.disposed e) (by simp)
      exact hdisposed.enter rfl
    · have hdisposed := hgone.emit (.disposed e) (by simp)
      exact hdisposed.same rfl rfl rfl rfl rfl (fun _ => rfl) rfl

theorem effect (h : σ.Keeps) {body : Body} (hbody : ∀ p, body = .part p → p < σ.nParts) :
    (σ.effect body).Keeps := by
  have hnew : ({ σ with
      effects := Function.update σ.effects σ.nEffects { σ.effects σ.nEffects with body }
      nEffects := σ.nEffects + 1 } : State).Keeps := by
    refine ⟨h.new, h.slots, h.kept, h.dropped, fun e p he => ?_, h.removes, fun f hf => ?_, h.stale,
      h.held⟩
    · by_cases heq : e = σ.nEffects
      · subst heq
        dsimp only at he
        rw [Function.update_self] at he
        exact hbody p he
      · dsimp only at he
        rw [Function.update_of_ne heq] at he
        exact h.bodies e p he
    · exact (h.frames f hf).extend ⟨Nat.le_refl _, Nat.le_refl _, fun _ _ => rfl, fun _ _ => rfl,
        fun _ _ c _ hc => ⟨c, hc⟩, fun _ _ => rfl⟩ fun _ _ hleft => hleft
  exact (hnew.enter rfl).runEffect

theorem instEffect (h : σ.Keeps) {body : Body} (hbody : ∀ p, body = .part p → p < σ.nParts) :
    (σ.instEffect i body).Keeps :=
  (h.enter rfl).effect hbody

theorem setCleanup (h : σ.Keeps) {e : ℕ} {cleanup : Bool} : (σ.setCleanup e cleanup).Keeps := by
  unfold State.setCleanup
  split
  · have hnew : ({ σ with nCleanups := σ.nCleanups + 1 } : State).Keeps :=
      h.same rfl rfl rfl rfl rfl (fun _ => rfl) rfl
    have hset : ({ σ with nCleanups := σ.nCleanups + 1 }.setEffect e
        { σ.effects e with cleanup := some σ.nCleanups }).Keeps := hnew.setEffect rfl
    have hreturned := hset.emit (.returned e σ.nCleanups) (by simp)
    exact hreturned.same rfl rfl rfl rfl rfl (fun _ => rfl) rfl
  · have hset : (σ.setEffect e { σ.effects e with cleanup := none }).Keeps := h.setEffect rfl
    exact hset.same rfl rfl rfl rfl rfl (fun _ => rfl) rfl

theorem register (h : σ.Keeps) {fn : Fn} (hfn : ∀ p, fn = .remove p → p < σ.nParts) :
    (σ.register i fn).Keeps :=
  Kept.same (Kept.registered h i hfn) rfl rfl rfl rfl (fun _ => rfl)
    fun _ _ => ⟨.rfl, .rfl⟩

theorem disposeInst (h : σ.Keeps) : (σ.disposeInst i).Keeps := by
  unfold State.disposeInst
  split
  · have hinst : (σ.setInst i { σ.insts i with phase := .children }).Keeps :=
      h.same rfl rfl rfl rfl rfl (fun _ => rfl) rfl
    exact hinst.enter rfl
  · exact h.same rfl rfl rfl rfl rfl (fun _ => rfl) rfl

theorem forgetChild (h : σ.Keeps) : (σ.forgetChild i).Keeps := by
  unfold State.forgetChild
  split
  · exact h.same rfl rfl rfl rfl rfl (fun _ => rfl) rfl
  · exact h

theorem mount (h : σ.Keeps) {parent : Option ℕ} : (σ.mount parent).Keeps := by
  unfold State.mount
  dsimp only
  split
  · exact h.same rfl rfl rfl rfl rfl (fun _ => rfl) rfl
  · exact h.same rfl rfl rfl rfl rfl (fun _ => rfl) rfl

theorem call (h : σ.Keeps) {fn : Fn} (hfn : ∀ p, fn = .remove p → p < σ.nParts) :
    (σ.call i fn).Keeps := by
  cases fn with
  | effect e => exact disposeEffect (h.emit _ (by simp))
  | cleanup c => exact enter (h.emit _ (by simp)) rfl
  | remove p =>
      have hpush : σ.Kept (.drops p (σ.parts p).kind.dropped none :: σ.stack) := by
        refine Kept.push h (.ofDrops (hfn p rfl) ?_ (by simp)) fun _ hs => hs.elim
        rw [Option.getD_none, List.append_nil]
        exact h.dropped p
      have hcalled := hpush.called (i := i) (p := p) fun t ht _ =>
        ⟨_, .head _, List.mem_append_left _ (h.kept p t ht)⟩
      exact hcalled.same rfl rfl rfl rfl (fun _ => rfl) fun _ _ => ⟨.rfl, .rfl⟩

theorem bind (h : σ.Keeps) {isRows : Bool} : (σ.bind i isRows).Keeps := by
  obtain ⟨hkept, hlt, hinst, -⟩ := Kept.newPart h i isRows
  have hstack : (σ.newPart i isRows).stack = σ.stack := by
    cases isRows with
    | true => rfl
    | false => rfl
  have hnew : (σ.newPart i isRows).Keeps := by
    rw [Keeps, hstack]
    exact hkept
  have hfits : (σ.newPart i isRows).Fits (.binder i σ.nParts) := by
    refine .of rfl hlt (fun j hj => ?_) (by simp [Frame.slot]) (by simp [Frame.slots])
      (by simp [Frame.ofRows]) (by simp) fun hs => hs.elim
    cases hj
    exact hinst.symm
  refine (hnew.push hfits fun _ hs => hs.elim).instEffect fun p hp => ?_
  cases hp
  exact hlt

/-- A branch begins to be bound. -/
theorem capture {c : Bool} (h : σ.Keeps) (hp : p < σ.nParts)
    (hkind : (σ.parts p).kind = .branch s c) : (σ.capture p s none).Keeps := by
  have hs : σ.Of p s := h.dropped p s (by simp [hkind, Kind.dropped])
  have hfits : σ.Fits (.capture (σ.parts p).inst p s (σ.insts (σ.parts p).inst).sink none) :=
    .ofCapture hp hs (by simp) (by simp) fun _ => ⟨c, hkind⟩
  have hpush : (σ.push (.capture (σ.parts p).inst p s (σ.insts (σ.parts p).inst).sink none)
      .run).Keeps := h.push hfits fun q hq => hq.elim
  have huser : ((σ.push (.capture (σ.parts p).inst p s (σ.insts (σ.parts p).inst).sink none)
      .run).push .user .run).Keeps := hpush.enter rfl
  exact huser.same rfl rfl rfl rfl rfl (fun _ => rfl) rfl

end Keeps

/-! ### Going on -/

variable {st : List Frame}

/-- It is as if the call were still on the stack. -/
def KeepsWith (σ : State) (f : Frame) : Prop := σ.Kept (f :: σ.stack)

namespace KeepsWith

/-- A call ends that has no slot in hand. -/
theorem drop (h : σ.KeepsWith f) (hslots : f.slots = []) (hbinder : ∀ i p, f ≠ .binder i p) :
    σ.Keeps :=
  Kept.drop h hslots hbinder

theorem fits (h : σ.KeepsWith f) : σ.Fits f := h.frames f (.head _)

/-- A call is on the stack again. -/
theorem push (h : σ.KeepsWith f) {ctrl : Ctrl} : (σ.push f ctrl).Keeps :=
  Kept.same h rfl rfl rfl rfl (fun _ => rfl) fun _ _ => ⟨.rfl, .rfl⟩

/-- The next slot is emptied, to be dropped. -/
theorem dropOne {rest : List ℕ} {next : Option (List ℕ)}
    (h : σ.KeepsWith (.drops p (s :: rest) next)) :
    ((σ.setOwn s []).push (.dropping p s rest next) .run).Keeps := by
  have hs := h.fits.slots p rfl s (.head _)
  have hempty := Kept.setOwn h hs.1 [] fun hne => absurd rfl hne
  have hfits := hempty.frames _ (.head _)
  have hslot : ((σ.setOwn s []).slots s).own = [] := by rw [setOwn_self]
  have hswap := hempty.swap (g := .dropping p s rest next) ?_ ?_ ?_ (by simp)
  · exact hswap.same rfl rfl rfl rfl (fun _ => rfl) fun _ _ => ⟨.rfl, .rfl⟩
  · refine .ofDropping (hfits.part p rfl) (hfits.slots p rfl s (.head _))
      (fun t ht => hfits.slots p rfl t (.tail _ ht)) fun l hl => ?_
    subst hl
    refine ⟨hfits.rows p rfl rfl, fun t ht hne => ?_⟩
    rcases List.mem_cons.mp (hfits.left p rfl t ht hne) with rfl | hmem
    · exact absurd hslot hne
    · exact hmem
  · intro t ht hne
    rcases List.mem_cons.mp ht with rfl | hmem
    · exact absurd hslot hne
    · exact hmem
  · intro q hq
    refine fun g hg => (List.pairwise_cons.mp hempty.stale).1 g hg q ?_
    cases next with
    | none => exact hq.elim
    | some l => exact hq

/-- The slot is done with. -/
theorem dropped {rest : List ℕ} {next : Option (List ℕ)}
    (h : σ.KeepsWith (.dropping p s rest next)) :
    ((σ.setOwn s []).push (.drops p rest next) (.ret false)).Keeps := by
  have hs := h.fits.slot p rfl s rfl
  have hempty := Kept.setOwn h hs.1 [] fun hne => absurd rfl hne
  have hfits := hempty.frames _ (.head _)
  have hswap := hempty.swap (g := .drops p rest next) ?_ (fun t ht _ => ht) ?_ (by simp)
  · exact hswap.same rfl rfl rfl rfl (fun _ => rfl) fun _ _ => ⟨.rfl, .rfl⟩
  · refine .ofDrops (hfits.part p rfl) (hfits.slots p rfl) fun l hl => ?_
    subst hl
    exact ⟨hfits.rows p rfl rfl, hfits.left p rfl⟩
  · intro q hq g hg
    refine (List.pairwise_cons.mp hempty.stale).1 g hg q ?_
    cases next with
    | none => exact hq.elim
    | some l => exact hq

/-- An `x-for` has its new rows. -/
theorem finished {next : List ℕ} (h : σ.KeepsWith (.drops p [] (some next)))
    (hnext : σ.Promised σ.stack p ∨ σ.Empty next) : (σ.setKind p (.rows next next)).Keeps := by
  have hrows := h.fits.rows p rfl rfl
  have hquiet := (List.pairwise_cons.mp h.stale).1
  have hof : ∀ t ∈ next, σ.Of p t := fun t ht => h.fits.slots p rfl t ht
  have hswap := Kept.swap h (g := .rows p next) (.ofRows (h.fits.part p rfl) hrows hof)
    (fun t ht _ => ht) (fun q hq => hq.elim) (by simp)
  have hkind := hswap.setKind (p := p) (k := .rows next next) hrows.symm ?_ (fun t ht =>
    ht) hof ?_ ?_
  · have hpop : (σ.setKind p (.rows next next)).Kept σ.stack := by
      refine hkind.pop (fun t ht hne => ?_) (by simp)
      rcases hnext with hpromised | hempty
      · have hpart : (σ.slots t).part = p := (hof t ht).2
        refine .inr ⟨?_, ?_⟩
        · change t ∈ ((σ.setKind p _).parts (σ.slots t).part).kind.kept
          rw [hpart]
          rw [setKind_self]
          exact ht
        · change (σ.setKind p _).Promised σ.stack (σ.slots t).part
          rw [hpart, Promised, setKind_self]
          exact hpromised
      · exact absurd (hempty t ht) hne
    exact hpop.same rfl rfl rfl rfl (fun _ => rfl) fun _ _ => ⟨.rfl, .rfl⟩
  · intro t c hc
    rw [hc] at hrows
    cases hrows
  · intro f hf
    rcases List.mem_cons.mp hf with rfl | hf
    · exact id
    · exact hquiet f hf p rfl
  · intro t ht hne
    cases h.fits.left p rfl t ht hne

/-- What a branch or a row bound goes to its slot. -/
theorem captured {prev : Option (List Fn)} {next : Option (List ℕ)}
    (h : σ.KeepsWith (.capture i p s prev next))
    {cleanup : Bool} (hwell : σ.ReturnsWell cleanup (.capture i p s prev next)) :
    (σ.returned cleanup (.capture i p s prev next)).Keeps := by
  have hs := h.fits.slot p rfl s rfl
  cases next with
  | none =>
      obtain ⟨c, hkind⟩ := h.fits.branch i p s prev rfl
      have hfill := Kept.setOwn (h.drop rfl (by simp)) hs.1 ((σ.insts i).sink.getD [])
        fun hne => ?_
      · have hput : ((σ.setInst i { σ.insts i with sink := prev }).setOwn s
            ((σ.insts i).sink.getD [])).Keeps :=
          hfill.same rfl rfl rfl rfl (fun _ => rfl) fun _ _ => ⟨.rfl, .rfl⟩
        exact hput.enter rfl
      · rw [hs.2]
        refine ⟨fun f hf hstale => ?_, .inr ⟨?_, ?_⟩⟩
        · have hrows := (h.frames f (.tail _ hf)).rows p hstale.part.1 hstale.part.2
          rw [hkind] at hrows
          cases hrows
        · rw [hs.2, hkind]
          exact .head _
        · rw [hs.2]
          exact hwell.2.resolve_left hne
  | some l =>
      have hof : ∀ t ∈ l ++ [s], σ.Of p t := fun t ht => by
        rcases List.mem_append.mp ht with ht | ht
        · exact h.fits.slots p rfl t ht
        · exact List.mem_singleton.mp ht ▸ hs
      have hswap := Kept.swap h (g := .rows p (l ++ [s]))
        (.ofRows (h.fits.part p rfl) (h.fits.rows p rfl rfl) hof)
        (fun t ht _ => List.mem_append_left _ ht) (fun q hq => hq.elim) (by simp)
      have hfill := hswap.setOwn hs.1 ((σ.insts i).sink.getD []) fun _ => ?_
      · exact hfill.same rfl rfl rfl rfl (fun _ => rfl) fun _ _ => ⟨.rfl, .rfl⟩
      · refine ⟨fun f hf => ?_, .inl ⟨_, .head _, List.mem_append_right _ (.head _)⟩⟩
        rw [hs.2]
        rcases List.mem_cons.mp hf with rfl | hf
        · exact id
        · exact hwell.2 f hf

theorem returned (h : σ.KeepsWith f) (hheld : ∀ i, ∀ fn ∈ f.held i, .registered i fn ∈ σ.log)
    (cleanup : Bool) (hwell : σ.ReturnsWell cleanup f) : (σ.returned cleanup f).Keeps := by
  have hremoves : ∀ i, ∀ fn ∈ f.held i, ∀ p, fn = .remove p → p < σ.nParts := by
    rintro i fn hfn p rfl
    exact h.removes i p (hheld i _ hfn)
  cases f with
  | user => exact h.push
  | branch p => exact h.push
  | rows p next => exact h.push
  | tail => exact h.push
  | rerun e => exact (h.drop rfl (by simp)).start
  | body e => exact (h.drop rfl (by simp)).setCleanup
  | first e => exact (h.drop rfl (by simp)).same rfl rfl rfl rfl rfl (fun _ => rfl) rfl
  | rethrow => exact (h.drop rfl (by simp)).same rfl rfl rfl rfl rfl (fun _ => rfl) rfl
  | owner i e => exact (h.drop rfl (by simp)).register (by simp)
  | children i rest =>
      cases rest with
      | nil =>
          have hforget := (h.drop rfl (by simp)).forgetChild (i := i)
          have hinst : ((σ.forgetChild i).setInst i { (σ.forgetChild i).insts i with
              disposers := [], phase := .disposers }).Keeps :=
            hforget.same rfl rfl rfl rfl rfl (fun _ => rfl) rfl
          exact hinst.enter rfl
      | cons c rest => exact ((h.drop rfl (by simp)).enter rfl).disposeInst
  | disposers i rest =>
      cases rest with
      | nil =>
          have hinst : (σ.setInst i { σ.insts i with cleanups := [], phase := .over }).Keeps :=
            (h.drop rfl (by simp)).same rfl rfl rfl rfl rfl (fun _ => rfl) rfl
          exact hinst.enter rfl
      | cons fn rest =>
          have hfn := hremoves i fn (by simp [Frame.held])
          exact Keeps.call ((h.drop rfl (by simp)).enter rfl) hfn
  | cleanups i rest =>
      cases rest with
      | nil => exact (h.drop rfl (by simp)).same rfl rfl rfl rfl rfl (fun _ => rfl) rfl
      | cons fn rest =>
          have hfn := hremoves i fn (by simp [Frame.held])
          exact Keeps.call ((h.drop rfl (by simp)).enter rfl) hfn
  | capture i p s prev next => exact h.captured hwell
  | drops p rest next =>
      cases rest with
      | cons s rest => exact h.dropOne.enter rfl
      | nil =>
          cases next with
          | some next => exact (h.finished hwell).enter rfl
          | none =>
              have hkeeps := h.drop rfl (by simp)
              simp only [State.returned]
              split
              · next drop current hkind =>
                have hset : (σ.setKind p (.branch drop false)).Keeps :=
                  Kept.same (Kept.setBranch hkeeps hkind false) rfl rfl rfl rfl (fun _ => rfl)
                    fun _ _ => ⟨.rfl, .rfl⟩
                exact hset.same rfl rfl rfl rfl rfl (fun _ => rfl) rfl
              · exact hkeeps.same rfl rfl rfl rfl rfl (fun _ => rfl) rfl
  | dropping p s rest next => exact h.dropped
  | binder i p =>
      have hlt := h.fits.part p rfl
      have hregistered : (σ.emit (.registered i (.remove p))).Kept _ :=
        Kept.registered h i fun q hq => by
        cases hq
        exact hlt
      have hpop := hregistered.pop (by simp [Frame.slots]) fun j q hq => by
        cases hq
        exact .inl (.head _)
      exact hpop.same rfl rfl rfl rfl (fun _ => rfl) fun _ _ => ⟨.rfl, .rfl⟩

/-- A call is left by a throw with nothing in hand that is not dropped. -/
theorem fail (h : σ.KeepsWith f) (hslots : σ.Empty f.slots)
    (hbinder : ∀ i p, f = .binder i p → σ.Empty (σ.parts p).kind.kept) : σ.fail.Keeps := by
  have hpop : σ.Kept σ.stack := Kept.pop h (fun s hs hne => absurd (hslots s hs) hne)
    fun i p hf => .inr (hbinder i p hf)
  exact hpop.same rfl rfl rfl rfl (fun _ => rfl) fun _ _ => ⟨.rfl, .rfl⟩

theorem threw (h : σ.KeepsWith f) (hheld : ∀ i, ∀ fn ∈ f.held i, .registered i fn ∈ σ.log)
    (hwell : σ.ThrowsWell f) : (σ.threw f).Keeps := by
  have hnone : ∀ s ∈ ([] : List ℕ), (σ.slots s).own = [] := by
    rintro s ⟨⟩
  cases f with
  | user => exact h.push
  | first e => exact ((h.drop rfl (by simp)).enter rfl).disposeEffect
  | children i rest =>
      exact (h.drop rfl (by simp)).same rfl rfl rfl rfl rfl (fun _ => rfl) rfl
  | disposers i rest =>
      exact (h.drop rfl (by simp)).same rfl rfl rfl rfl rfl (fun _ => rfl) rfl
  | capture i p s prev next =>
      have hslots : σ.Empty (Frame.capture i p s prev next).slots := by
        cases next with
        | none => exact hnone
        | some l => exact hwell.2
      exact (h.fail hslots (by simp)).same rfl rfl rfl rfl rfl (fun _ => rfl) rfl
  | cleanups i rest => exact h.returned hheld false trivial
  | drops p rest next => exact h.returned hheld false hwell
  | dropping p s rest next => exact h.returned hheld false hwell
  | rows p next => exact h.fail hwell (by simp)
  | binder i p =>
      refine h.fail hnone fun j q hq => ?_
      cases hq
      exact hwell
  | _ => exact h.fail hnone (by simp)

/-- A run has one row more. -/
theorem addRow {next : List ℕ} (h : σ.KeepsWith (.rows p next)) (hs : σ.Of p s) :
    σ.KeepsWith (.rows p (next ++ [s])) := by
  refine Kept.swap h (.ofRows (h.fits.part p rfl) (h.fits.rows p rfl rfl) fun t ht => ?_)
    (fun t ht _ => List.mem_append_left _ ht) (fun q hq => hq.elim) (by simp)
  rcases List.mem_append.mp ht with ht | ht
  · exact h.fits.slots p rfl t ht
  · exact List.mem_singleton.mp ht ▸ hs

/-- A run takes a row of the run before. -/
theorem reuse {next rows order : List ℕ} (h : σ.KeepsWith (.rows p next))
    (hkind : (σ.parts p).kind = .rows rows order) (hs : s ∈ rows) (hquiet : σ.Quiet p) :
    (σ.setKind p (.rows (rows.erase s) order)).KeepsWith (.rows p (next ++ [s])) := by
  have hkept := Kept.kept h p
  have hdropped := Kept.dropped h p
  rw [hkind] at hkept hdropped
  refine Kept.setKind (h.addRow (hdropped s (hkept s hs))) ?_ ?_
    (fun t ht => hkept t (List.mem_of_mem_erase ht)) hdropped ?_ ?_
  · rw [hkind]
    rfl
  · rw [hkind]
    rintro t c ⟨⟩
  · intro f hf
    rcases List.mem_cons.mp hf with rfl | hf
    · exact id
    · exact hquiet f hf
  · rw [hkind]
    intro t ht _
    by_cases hts : t = s
    · exact .inr ⟨_, .head _, List.mem_append_right _ (hts ▸ .head _)⟩
    · exact .inl ((List.mem_erase_of_ne hts).mpr ht)

/-- A row begins to be bound. -/
theorem captureRow {next : List ℕ} (h : σ.KeepsWith (.rows p next)) (hs : σ.Of p s) :
    (σ.capture p s (some next)).Keeps := by
  have hfits : σ.Fits
      (.capture (σ.parts p).inst p s (σ.insts (σ.parts p).inst).sink (some next)) :=
    .ofCapture (h.fits.part p rfl) hs (h.fits.slots p rfl) (fun _ _ => h.fits.rows p rfl rfl)
      (by simp)
  have hswap := Kept.swap h hfits (fun t ht _ => ht) (fun q hq => hq.elim) (by simp)
  have hpush : (σ.push (.capture (σ.parts p).inst p s (σ.insts (σ.parts p).inst).sink (some next))
      .run).Keeps := hswap.same rfl rfl rfl rfl (fun _ => rfl) fun _ _ => ⟨.rfl, .rfl⟩
  have huser : ((σ.push (.capture (σ.parts p).inst p s (σ.insts (σ.parts p).inst).sink (some next))
      .run).push .user .run).Keeps := hpush.enter rfl
  exact huser.same rfl rfl rfl rfl rfl (fun _ => rfl) rfl

/-- A run has all its rows, and drops those of before that it did not take. -/
theorem finish {next : List ℕ} (h : σ.KeepsWith (.rows p next)) (hquiet : σ.Quiet p) :
    σ.KeepsWith (.drops p (σ.parts p).kind.kept (some next)) := by
  refine Kept.swap h (.ofDrops (h.fits.part p rfl) (fun t ht => ?_) fun l _ => ?_)
    (fun t ht _ => List.mem_append_right _ ht) (fun q hq g hg => ?_) (by simp)
  · rcases List.mem_append.mp ht with ht | ht
    · exact Kept.dropped h p t (Kept.kept h p t ht)
    · exact h.fits.slots p rfl t ht
  · exact ⟨h.fits.rows p rfl rfl, fun t ht _ => ht⟩
  · cases hq
    exact hquiet g hg

theorem act (h : σ.KeepsWith f) {a : Act} (hwell : σ.ActsWell f a)
    (hact : σ.act f a = some σ') : σ'.Keeps := by
  unfold State.act at hact
  split at hact
  all_goals try split at hact
  all_goals try split at hact
  all_goals cases hact
  · exact Keeps.runEffect h.push
  · exact Keeps.disposeEffect h.push
  · exact Keeps.effect h.push (by simp)
  · exact Keeps.instEffect h.push (by simp)
  · exact Keeps.bind h.push
  · have hpush : (σ.push .user .run).Keeps := h.push
    have hnew : ({ σ with nCleanups := σ.nCleanups + 1 }.push .user .run).Keeps :=
      hpush.same rfl rfl rfl rfl rfl (fun _ => rfl) rfl
    exact hnew.register (by simp)
  · exact Keeps.mount h.push
  · exact Keeps.disposeInst h.push
  · exact (h.drop rfl (by simp)).same rfl rfl rfl rfl rfl (fun _ => rfl) rfl
  · exact (h.drop rfl (by simp)).same rfl rfl rfl rfl rfl (fun _ => rfl) rfl
  · exact Keeps.enter h.push rfl
  · exact (h.drop rfl (by simp)).same rfl rfl rfl rfl rfl (fun _ => rfl) rfl
  · next p _ _ drop hkind =>
    have hset : (σ.setKind p (.branch drop true)).Keeps :=
      Kept.same (Kept.setBranch (h.drop rfl (by simp)) hkind true) rfl rfl rfl rfl (fun _ => rfl)
        fun _ _ => ⟨.rfl, .rfl⟩
    exact hset.capture (h.fits.part p rfl) (congrArg Part.kind (setKind_self ..))
  · next p _ _ drop hkind =>
    have hkeeps := h.drop rfl (by simp)
    have hdrop : σ.Of p drop := Kept.dropped hkeeps p drop (by simp [hkind, Kind.dropped])
    have hfits : σ.Fits (.drops p [drop] none) :=
      .ofDrops (h.fits.part p rfl) (by simpa using hdrop) (by simp)
    exact hkeeps.push hfits fun _ hs => hs.elim
  · exact (h.drop rfl (by simp)).same rfl rfl rfl rfl rfl (fun _ => rfl) rfl
  · exact Keeps.enter h.push rfl
  · exact (h.drop rfl (by simp)).same rfl rfl rfl rfl rfl (fun _ => rfl) rfl
  · next p next s rows order hkind hs => exact (h.reuse hkind hs hwell).push
  · next p next _ _ =>
    obtain ⟨hkept, hof, -⟩ := Kept.newSlot h (h.fits.part p rfl)
    have hnew : (σ.newSlot p).KeepsWith (.rows p next) := hkept
    exact (hnew.addRow hof).push
  · next p next _ _ =>
    obtain ⟨hkept, hof, -⟩ := Kept.newSlot h (h.fits.part p rfl)
    have hnew : (σ.newSlot p).KeepsWith (.rows p next) := hkept
    exact hnew.captureRow hof
  · next p next => exact (h.finish hwell).push
  · exact Keeps.enter h.push rfl
  · exact (h.drop rfl (by simp)).same rfl rfl rfl rfl rfl (fun _ => rfl) rfl

end KeepsWith
end State
end Brust.Instances
