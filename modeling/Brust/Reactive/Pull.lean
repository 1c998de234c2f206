import Brust.Reactive.Core

/-!
# Reactive — What a read answers

The value of a computed as a function of the signals' values (`denote`), and what must hold of the
computeds that are not dirty (`Ok`).  As long as no computed returns after it caught a throw, a read
answers the value and leaves what it read, and all that was clean, clean (`pull_spec`).
-/

namespace Brust.Reactive

variable {V : Type}

/-! ### Values -/

/-- What a function answers at the values of what it reads. -/
def Body.eval (ρ : Node → Option V) {c : ℕ} : Body V c → Option V
  | .ret v => some v
  | .throw => none
  | .read n k => (k (ρ n.node)).eval ρ

/-- The nodes that it reads there. -/
def Body.trail (ρ : Node → Option V) {c : ℕ} : Body V c → List Node
  | .ret _ => []
  | .throw => []
  | .read n k => n.node :: (k (ρ n.node)).trail ρ

def valueUpTo (g : Graph V) (sig : ℕ → V) : ℕ → ℕ → Option V
  | 0, _ => none
  | n + 1, c =>
    (g c).eval fun
      | .sig i => some (sig i)
      | .comp j => valueUpTo g sig n j

/-- A node's value at the signals' values; `none` for a computed whose function throws there. -/
def denote (g : Graph V) (sig : ℕ → V) : Node → Option V
  | .sig i => some (sig i)
  | .comp c => valueUpTo g sig (c + 1) c

theorem Body.eval_congr {ρ ρ' : Node → Option V} {c : ℕ} (b : Body V c)
    (h : ∀ n ∈ b.trail ρ, ρ n = ρ' n) : b.eval ρ = b.eval ρ' ∧ b.trail ρ = b.trail ρ' := by
  induction b with
  | ret v => exact ⟨rfl, rfl⟩
  | throw => exact ⟨rfl, rfl⟩
  | read n k ih =>
      have hn : ρ n.node = ρ' n.node := h _ (by rw [trail]; exact List.mem_cons_self)
      obtain ⟨he, ht⟩ := ih (ρ n.node) fun m hm => h m (by
        rw [trail]
        exact List.mem_cons_of_mem _ hm)
      rw [eval, eval, trail, trail, ← hn, he, ht]
      exact ⟨rfl, rfl⟩

/-- A computed reads computeds before it only. -/
theorem Body.lt_of_mem_trail {ρ : Node → Option V} {c j : ℕ} {b : Body V c}
    (h : Node.comp j ∈ b.trail ρ) : j < c := by
  induction b with
  | ret v => cases h
  | throw => cases h
  | read n k ih =>
      rw [trail] at h
      rcases List.mem_cons.mp h with h | h
      · cases n with
        | sig i => cases h
        | comp j' =>
            cases h
            exact j'.isLt
      · exact ih _ h

theorem valueUpTo_eq (g : Graph V) (sig : ℕ → V) {n c : ℕ} (h : c < n) :
    valueUpTo g sig n c = valueUpTo g sig (c + 1) c := by
  induction c using Nat.strongRecOn generalizing n with
  | ind c ih =>
      obtain ⟨n, rfl⟩ := Nat.exists_eq_add_of_lt h
      rw [valueUpTo, valueUpTo]
      refine (Body.eval_congr (g c) fun m hm => ?_).1
      cases m with
      | sig i => rfl
      | comp j =>
          have hj := Body.lt_of_mem_trail hm
          exact (ih j hj (by omega)).trans (ih j hj hj).symm

theorem denote_comp (g : Graph V) (sig : ℕ → V) (c : ℕ) :
    denote g sig (.comp c) = (g c).eval (denote g sig) := by
  rw [denote, valueUpTo]
  refine (Body.eval_congr (g c) fun m hm => ?_).1
  cases m with
  | sig i => rfl
  | comp j => exact valueUpTo_eq g sig (Body.lt_of_mem_trail hm)

/-! ### Clean computeds -/

/-- A clean computed has its value, is subscribed to what its function reads, and reads what is
clean. -/
structure CleanOk (g : Graph V) (σ : State V) (c : ℕ) : Prop where
  value : σ.value c = denote g σ.sig (.comp c)
  subs : ∀ n ∈ (g c).trail (denote g σ.sig), .comp c ∈ σ.subs n
  clean : ∀ j, .comp j ∈ (g c).trail (denote g σ.sig) → σ.dirty j = false

def Ok (g : Graph V) (σ : State V) : Prop := ∀ c, σ.dirty c = false → CleanOk g σ c

/-- What a read of computeds below `k` leaves: all but the subscriptions of dirty computeds below
`k`, and it makes none dirty. -/
structure Pulled (k : ℕ) (σ σ' : State V) : Prop where
  sig : σ'.sig = σ.sig
  caught : σ.caught <:+ σ'.caught
  clean : ∀ c, σ.dirty c = false → σ'.dirty c = false ∧ σ'.value c = σ.value c
  above : ∀ c, k ≤ c → σ'.dirty c = σ.dirty c
  subs : ∀ n s, s ∈ σ.subs n → (∀ c, s = .comp c → σ.dirty c = false ∨ k ≤ c) → s ∈ σ'.subs n

theorem Pulled.refl (k : ℕ) (σ : State V) : Pulled k σ σ :=
  ⟨rfl, List.suffix_rfl, fun _ h => ⟨h, rfl⟩, fun _ _ => rfl, fun _ _ h _ => h⟩

theorem Pulled.mono {k k' : ℕ} {σ σ' : State V} (h : Pulled k σ σ') (hk : k ≤ k') :
    Pulled k' σ σ' :=
  { h with
    above := fun c hc => h.above c (hk.trans hc)
    subs := fun n s hs hc => h.subs n s hs fun c e => (hc c e).imp_right hk.trans }

theorem Pulled.trans {k : ℕ} {σ σ₁ σ₂ : State V} (h₁ : Pulled k σ σ₁) (h₂ : Pulled k σ₁ σ₂) :
    Pulled k σ σ₂ where
  sig := h₂.sig.trans h₁.sig
  caught := h₁.caught.trans h₂.caught
  clean c hc := by
    obtain ⟨hd, hv⟩ := h₁.clean c hc
    exact ⟨(h₂.clean c hd).1, (h₂.clean c hd).2.trans hv⟩
  above c hc := (h₂.above c hc).trans (h₁.above c hc)
  subs n s hs hc := by
    refine h₂.subs n s (h₁.subs n s hs hc) fun c e => ?_
    exact (hc c e).imp_left fun hd => (h₁.clean c hd).1

/-- Where nothing was caught at the end, nothing was before. -/
theorem Pulled.quiet {k : ℕ} {σ σ' : State V} (h : Pulled k σ σ') (hq : σ'.caught = []) :
    σ.caught = [] := List.suffix_nil.mp (hq ▸ h.caught)

theorem mem_add {α : Type} [DecidableEq α] {x y : α} {xs : List α} :
    x ∈ add y xs ↔ x ∈ xs ∨ x = y := by
  rw [add]
  split
  case isTrue h => exact ⟨.inl, fun hx => hx.elim id fun e => e ▸ h⟩
  case isFalse => simp

theorem mem_subs_track {σ : State V} {s t : Sub} {n m : Node} :
    t ∈ (σ.track (some s) n).subs m ↔ t ∈ σ.subs m ∨ m = n ∧ t = s := by
  simp only [State.track, Function.update_apply]
  split
  case isTrue h => rw [mem_add, h]; simp
  case isFalse h => simp [h]

/-- Subscriptions that only come leave what is clean as it is. -/
theorem Ok.of_subs {g : Graph V} {σ σ' : State V} (h : Ok g σ) (hsig : σ'.sig = σ.sig)
    (hvalue : σ'.value = σ.value) (hdirty : σ'.dirty = σ.dirty)
    (hsubs : ∀ n c, σ.dirty c = false → .comp c ∈ σ.subs n → .comp c ∈ σ'.subs n) : Ok g σ' := by
  intro c hc
  rw [hdirty] at hc
  have hok := h c hc
  refine ⟨by rw [hvalue, hsig, hok.value], fun n hn => ?_, fun j hj => ?_⟩
  · rw [hsig] at hn
    exact hsubs n c hc (hok.subs n hn)
  · rw [hsig] at hj
    rw [hdirty]
    exact hok.clean j hj

theorem Ok.track {g : Graph V} {σ : State V} (h : Ok g σ) (s : Sub) (n : Node) :
    Ok g (σ.track (some s) n) :=
  h.of_subs rfl rfl rfl fun _ _ _ hs => mem_subs_track.mpr (.inl hs)

end Brust.Reactive
