import Mathlib.Order.Basic

/-!
# Support — Partial actions

An action on a state that gives a value, or never does.  It is `Quiet` in what it gives and in the
state: the value is of a kind, and the state it leaves is above the one it began in.
-/

namespace Brust

/-- Where the action gives a value it is one of `P`, and nothing below the state is lost. -/
def Quiet {S α : Type} [Preorder S] (P : α → Prop) (a : StateT S Option α) : Prop :=
  ∀ s x t, a.run s = some (x, t) → P x ∧ s ≤ t

namespace Quiet

variable {S α β : Type} [Preorder S] {P : α → Prop} {Q : β → Prop} {a : StateT S Option α}

theorem mono {P' : α → Prop} (ha : Quiet P a) (h : ∀ x, P x → P' x) : Quiet P' a :=
  fun s x t hrun => ⟨h x (ha s x t hrun).1, (ha s x t hrun).2⟩

theorem pure {x : α} (h : P x) : Quiet P (Pure.pure x : StateT S Option α) := by
  rintro s _ _ ⟨⟩
  exact ⟨h, le_rfl⟩

theorem failure : Quiet P (Alternative.failure : StateT S Option α) := by
  rintro s _ _ ⟨⟩

theorem bind {f : α → StateT S Option β} (ha : Quiet P a) (hf : ∀ x, P x → Quiet Q (f x)) :
    Quiet Q (a >>= f) := by
  intro s y u hrun
  obtain ⟨⟨x, t⟩, hx, hy⟩ := Option.bind_eq_some_iff.mp hrun
  obtain ⟨hP, hst⟩ := ha s x t hx
  obtain ⟨hQ, htu⟩ := hf x hP t y u hy
  exact ⟨hQ, hst.trans htu⟩

theorem map {f : α → β} (ha : Quiet P a) (hf : ∀ x, P x → Q (f x)) : Quiet Q (f <$> a) := by
  rw [map_eq_pure_bind]
  exact ha.bind fun x hx => pure (hf x hx)

theorem elim {γ : Type} {o : Option γ} {b : StateT S Option β} {f : γ → StateT S Option β}
    (hnone : o = none → Quiet Q b) (hsome : ∀ x, o = some x → Quiet Q (f x)) :
    Quiet Q (o.elim b f) := by
  cases o with
  | none => exact hnone rfl
  | some x => exact hsome x rfl

theorem ite {p : Prop} [Decidable p] {b c : StateT S Option β} (hb : p → Quiet Q b)
    (hc : ¬ p → Quiet Q c) : Quiet Q (if p then b else c) := by
  split
  · next h => exact hb h
  · next h => exact hc h

end Quiet

end Brust
