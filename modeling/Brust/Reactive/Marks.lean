import Brust.Reactive.Pull

/-!
# Reactive — What a mark reaches

`notify` marks every subscriber of a node and, through each computed that becomes dirty, the
subscribers of that one (`notify_spec`).  So what it leaves unmarked reads nothing that changed
(`Notified.ok_set`).
-/

namespace Brust.Reactive

variable {V : Type}

def Marked (σ : State V) : Sub → Prop
  | .comp c => σ.dirty c = true
  | .eff e => e ∈ σ.pending

/-- What marking `xs` does. -/
structure Notified (xs : List Sub) (σ σ' : State V) : Prop where
  sig : σ'.sig = σ.sig
  value : σ'.value = σ.value
  subs : σ'.subs = σ.subs
  caught : σ'.caught = σ.caught
  dirty : ∀ c, σ.dirty c = true → σ'.dirty c = true
  pending : ∀ e ∈ σ.pending, e ∈ σ'.pending
  marked : ∀ s ∈ xs, Marked σ' s
  through : ∀ c, σ.dirty c = false → σ'.dirty c = true → ∀ s ∈ σ.subs (.comp c), Marked σ' s

variable {xs ys : List Sub} {σ σ₁ σ₂ : State V}

theorem Notified.mono (h : Notified xs σ σ₁) {s : Sub} (hs : Marked σ s) : Marked σ₁ s := by
  cases s with
  | comp c => exact h.dirty c hs
  | eff e => exact h.pending e hs

theorem Notified.nil (σ : State V) : Notified [] σ σ :=
  ⟨rfl, rfl, rfl, rfl, fun _ h => h, fun _ h => h, fun _ h => (by cases h),
    fun _ h h' => absurd (h.symm.trans h') Bool.false_ne_true⟩

theorem Notified.append (h₁ : Notified xs σ σ₁) (h₂ : Notified ys σ₁ σ₂) :
    Notified (xs ++ ys) σ σ₂ where
  sig := h₂.sig.trans h₁.sig
  value := h₂.value.trans h₁.value
  subs := h₂.subs.trans h₁.subs
  caught := h₂.caught.trans h₁.caught
  dirty c hc := h₂.dirty c (h₁.dirty c hc)
  pending e he := h₂.pending e (h₁.pending e he)
  marked s hs := (List.mem_append.mp hs).elim (fun hs => h₂.mono (h₁.marked s hs)) (h₂.marked s)
  through c hc hc' s hs := by
    cases hmid : σ₁.dirty c with
    | true => exact h₂.mono (h₁.through c hc hmid s hs)
    | false => exact h₂.through c hmid hc' s (h₁.subs ▸ hs)

/-- A mark of a clean computed: it becomes dirty, and its subscribers are marked. -/
theorem Notified.comp {c : ℕ} (hc : σ.dirty c = false)
    (h : Notified (σ.subs (.comp c))
      { σ with dirty := Function.update σ.dirty c true } σ₁) :
    Notified [.comp c] σ σ₁ where
  sig := h.sig
  value := h.value
  subs := h.subs
  caught := h.caught
  dirty c' hc' := h.dirty c' (by
    change Function.update σ.dirty c true c' = true
    rw [Function.update_apply]
    split
    · rfl
    · exact hc')
  pending := h.pending
  marked s hs := by
    obtain rfl := List.mem_singleton.mp hs
    exact h.dirty c (Function.update_self ..)
  through c' hc' hd s hs := by
    by_cases hcc : c' = c
    · subst hcc
      exact h.marked s hs
    · exact h.through c' ((Function.update_of_ne hcc ..).trans hc') hd s hs

theorem clean_of_clean (hn : Notified xs σ σ₁) {c : ℕ} (hc : σ₁.dirty c = false) :
    σ.dirty c = false := by
  cases hd : σ.dirty c with
  | false => rfl
  | true => exact absurd (hc.symm.trans (hn.dirty c hd)) Bool.false_ne_true

/-! ### A signal changes -/

section Set

variable {g : Graph V} {i : ℕ} {v : V}

/-- What is clean after the marks of a change reads nothing that the change reached. -/
theorem denote_kept (h : Ok g σ)
    (hn : Notified (σ.subs (.sig i)) { σ with sig := Function.update σ.sig i v } σ₁)
    {c : ℕ} (hc : σ₁.dirty c = false) :
    ∀ n ∈ (g c).trail (denote g σ.sig), denote g σ.sig n = denote g σ₁.sig n := by
  induction c using Nat.strongRecOn with
  | ind c ih =>
      have hold : σ.dirty c = false := clean_of_clean hn hc
      have hunmarked : ¬ Marked σ₁ (.comp c) := fun hm =>
        absurd (hc.symm.trans hm) Bool.false_ne_true
      intro n hmem
      cases n with
      | sig j =>
          have hji : j ≠ i := by
            rintro rfl
            exact hunmarked (hn.marked _ ((h c hold).subs _ hmem))
          rw [hn.sig]
          exact congrArg some (Function.update_of_ne hji ..).symm
      | comp j =>
          have hj : σ₁.dirty j = false := by
            cases hd : σ₁.dirty j with
            | false => rfl
            | true =>
                exact absurd (hn.through j ((h c hold).clean j hmem) hd _ ((h c hold).subs _ hmem))
                  hunmarked
          rw [denote_comp, denote_comp]
          exact (Body.eval_congr (g j) (ih j (Body.lt_of_mem_trail hmem) hj)).1

theorem denote_comp_kept (h : Ok g σ)
    (hn : Notified (σ.subs (.sig i)) { σ with sig := Function.update σ.sig i v } σ₁)
    {c : ℕ} (hc : σ₁.dirty c = false) :
    denote g σ₁.sig (.comp c) = denote g σ.sig (.comp c) := by
  rw [denote_comp, denote_comp]
  exact (Body.eval_congr (g c) (denote_kept h hn hc)).1.symm

theorem Ok.set (h : Ok g σ)
    (hn : Notified (σ.subs (.sig i)) { σ with sig := Function.update σ.sig i v } σ₁) :
    Ok g σ₁ := by
  intro c hc
  have hold : σ.dirty c = false := clean_of_clean hn hc
  have hok := h c hold
  have htrail := (Body.eval_congr (g c) (denote_kept h hn hc)).2
  refine ⟨?_, fun n hmem => ?_, fun j hmem => ?_⟩
  · rw [denote_comp_kept h hn hc, hn.value]
    exact hok.value
  · rw [← htrail] at hmem
    rw [hn.subs]
    exact hok.subs n hmem
  · rw [← htrail] at hmem
    cases hd : σ₁.dirty j with
    | false => rfl
    | true =>
        have hm := hn.through j (hok.clean j hmem) hd _ (hok.subs _ hmem)
        exact absurd (hc.symm.trans hm) Bool.false_ne_true

end Set

end Brust.Reactive
