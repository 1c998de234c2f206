import Mathlib.Data.List.Forall2

/-!
# Support — computations that fail and keep their state

`Fallible σ ε α`: a computation over a state `σ` that ends in a value or in an error, and in a state
either way.  `Keeps I x Q`: where the invariant `I` holds before, it holds after, and a value
satisfies `Q`; the rules say so of `pure`, `fail`, a bind and a traversal.  `Simulates R x y`: where
`x` ends in a value, `y` ends in a related one and in the same state.
-/

namespace Brust

/-- A computation over a state, which an error does not undo. -/
def Fallible (σ ε α : Type) : Type := σ → Except ε α × σ

namespace Fallible

variable {σ ε α β : Type}

instance : Monad (Fallible σ ε) where
  pure a := fun s => (.ok a, s)
  bind x f := fun s =>
    match x s with
    | (.ok a, s') => f a s'
    | (.error e, s') => (.error e, s')

def fail (e : ε) : Fallible σ ε α := fun s => (.error e, s)

def ofExcept (r : Except ε α) : Fallible σ ε α := fun s => (r, s)

def get : Fallible σ ε σ := fun s => (.ok s, s)

def modify (f : σ → σ) : Fallible σ ε Unit := fun s => (.ok (), f s)

theorem bind_ok {x : Fallible σ ε α} {f : α → Fallible σ ε β} {s s' : σ} {a : α}
    (h : x s = (.ok a, s')) : (x >>= f) s = f a s' := by
  change (match x s with
    | (.ok a, s') => f a s'
    | (.error e, s') => (.error e, s')) = _
  rw [h]

theorem bind_error {x : Fallible σ ε α} {f : α → Fallible σ ε β} {s s' : σ} {e : ε}
    (h : x s = (.error e, s')) : (x >>= f) s = (.error e, s') := by
  change (match x s with
    | (.ok a, s') => f a s'
    | (.error e, s') => (.error e, s')) = _
  rw [h]

instance : LawfulMonad (Fallible σ ε) := by
  refine .mk' _ (fun x => ?_) (fun _ _ => rfl) fun x f g => ?_
  · funext s
    cases h : x s with
    | mk r s' =>
        cases r with
        | ok a => exact bind_ok h
        | error e => exact bind_error h
  · funext s
    cases h : x s with
    | mk r s' =>
        cases r with
        | ok a =>
            rw [bind_ok h]
            change (match (x >>= f) s with
              | (.ok a, s') => g a s'
              | (.error e, s') => (.error e, s')) = _
            rw [bind_ok h]
            rfl
        | error e => rw [bind_error h, bind_error (bind_error h)]

/-- The values at the elements of a list, up to the first error. -/
def mapAll (f : α → Fallible σ ε β) : List α → Fallible σ ε (List β)
  | [] => pure []
  | a :: as => do
    let b ← f a
    let bs ← mapAll f as
    pure (b :: bs)

/-- An invariant is kept, whatever the outcome, and a value has a property. -/
def Keeps (I : σ → Prop) (x : Fallible σ ε α) (Q : α → Prop) : Prop :=
  ∀ s, I s → I (x s).2 ∧ ∀ a, (x s).1 = .ok a → Q a

variable {I : σ → Prop} {Q : α → Prop} {R : β → Prop}

theorem Keeps.pure {a : α} (h : Q a) : Keeps I (Pure.pure a : Fallible σ ε α) Q :=
  fun _ hs => ⟨hs, fun b hb => by cases hb; exact h⟩

theorem Keeps.fail (e : ε) : Keeps I (Fallible.fail e : Fallible σ ε α) Q :=
  fun _ hs => ⟨hs, fun b hb => by cases hb⟩

theorem Keeps.get : Keeps I (Fallible.get : Fallible σ ε σ) I :=
  fun s hs => ⟨hs, fun a ha => by cases ha; exact hs⟩

theorem Keeps.ofExcept {r : Except ε α} (h : ∀ a, r = .ok a → Q a) :
    Keeps I (Fallible.ofExcept r : Fallible σ ε α) Q :=
  fun _ hs => ⟨hs, h⟩

theorem Keeps.bind {x : Fallible σ ε α} {f : α → Fallible σ ε β} (hx : Keeps I x Q)
    (hf : ∀ a, Q a → Keeps I (f a) R) : Keeps I (x >>= f) R := by
  intro s hs
  obtain ⟨hs', hvalue⟩ := hx s hs
  cases hr : x s with
  | mk r s' =>
      rw [hr] at hs' hvalue
      cases r with
      | ok a =>
          rw [bind_ok hr]
          exact hf a (hvalue a rfl) s' hs'
      | error e =>
          rw [bind_error hr]
          exact ⟨hs', fun b hb => by cases hb⟩

theorem Keeps.mono {x : Fallible σ ε α} {Q' : α → Prop} (h : Keeps I x Q) (hQ : ∀ a, Q a → Q' a) :
    Keeps I x Q' :=
  fun s hs => ⟨(h s hs).1, fun a ha => hQ a ((h s hs).2 a ha)⟩

/-- The values of a traversal, each with the property of its element. -/
theorem Keeps.mapAll {f : α → Fallible σ ε β} {P : α → β → Prop} {as : List α}
    (h : ∀ a ∈ as, Keeps I (f a) (P a)) :
    Keeps I (Fallible.mapAll f as) fun bs => List.Forall₂ P as bs := by
  induction as with
  | nil => exact .pure .nil
  | cons a as ih =>
      refine .bind (h a (.head _)) fun b hb => ?_
      refine .bind (ih fun a' ha' => h a' (.tail _ ha')) fun bs hbs => ?_
      exact .pure (.cons hb hbs)

/-! ### One computation for another -/

section Simulates
variable {γ δ : Type}

/-- A computation that never ends in a value. -/
def Throws (x : Fallible σ ε α) : Prop := ∀ s a s', x s ≠ (.ok a, s')

/-- Where `x` ends in a value, `y` ends in a value related to it and in the same state. -/
def Simulates (R : α → β → Prop) (x : Fallible σ ε α) (y : Fallible σ ε β) : Prop :=
  ∀ s a s', x s = (.ok a, s') → ∃ b, y s = (.ok b, s') ∧ R a b

variable {R : α → β → Prop} {Q : γ → δ → Prop} {x : Fallible σ ε α} {y : Fallible σ ε β}

/-- A bind that ends in a value went through one. -/
theorem bind_eq_ok {f : α → Fallible σ ε γ} {s s' : σ} {c : γ} (h : (x >>= f) s = (.ok c, s')) :
    ∃ a t, x s = (.ok a, t) ∧ f a t = (.ok c, s') := by
  cases hx : x s with
  | mk r t =>
      cases r with
      | ok a => exact ⟨a, t, rfl, (bind_ok hx).symm.trans h⟩
      | error e =>
          rw [bind_error hx] at h
          cases h

theorem Throws.fail (e : ε) : Throws (Fallible.fail e : Fallible σ ε α) :=
  fun _ _ _ h => by cases h

theorem Throws.after {f : α → Fallible σ ε γ} (h : ∀ a, Throws (f a)) : Throws (x >>= f) := by
  intro s c s' hc
  obtain ⟨a, t, -, hf⟩ := bind_eq_ok hc
  exact h a t c s' hf

theorem Throws.bind {f : α → Fallible σ ε γ} (h : Throws x) : Throws (x >>= f) := by
  intro s c s' hc
  obtain ⟨a, t, hx, -⟩ := bind_eq_ok hc
  exact h s a t hx

theorem Throws.simulates (h : Throws x) : Simulates R x y := fun s a s' hx => absurd hx (h s a s')

theorem Simulates.refl {R : α → α → Prop} (h : ∀ a, R a a) (x : Fallible σ ε α) : Simulates R x x :=
  fun _ a _ hx => ⟨a, hx, h a⟩

theorem Simulates.pure {a : α} {b : β} (h : R a b) :
    Simulates R (Pure.pure a : Fallible σ ε α) (Pure.pure b) := by
  intro s _ s' ha
  cases ha
  exact ⟨b, rfl, h⟩

theorem Simulates.bind {f : α → Fallible σ ε γ} {g : β → Fallible σ ε δ} (h : Simulates R x y)
    (hf : ∀ a b, R a b → Simulates Q (f a) (g b)) : Simulates Q (x >>= f) (y >>= g) := by
  intro s c s' hc
  obtain ⟨a, t, hx, hfa⟩ := bind_eq_ok hc
  obtain ⟨b, hy, hR⟩ := h s a t hx
  obtain ⟨d, hg, hQ⟩ := hf a b hR t c s' hfa
  exact ⟨d, (bind_ok hy).trans hg, hQ⟩

theorem Simulates.map {f : α → γ} {g : β → δ} (h : Simulates R x y)
    (hf : ∀ a b, R a b → Q (f a) (g b)) : Simulates Q (f <$> x) (g <$> y) :=
  h.bind fun a b hab => .pure (hf a b hab)

end Simulates

end Fallible

end Brust
