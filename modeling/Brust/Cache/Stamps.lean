import Mathlib.Data.Nat.Notation
import Mathlib.Order.Nat
import Mathlib.Order.MinMax

/-!
# Cache — published stamps

Slots that invalidations publish their clock values in, and inserts check.  A slot holds the
greatest value published in it, so a check refuses exactly when one of the invalidations that
publish a checked slot took a later value than the insert's stamp (`after_iff`).
-/

namespace Brust.Cache.Stamps

variable {R I : Type} [DecidableEq R]

/-- Publish `seq` in slots (never lowering one). -/
def publish (slots : R → ℕ) (refs : List R) (seq : ℕ) : R → ℕ :=
  refs.foldl (fun slots r => Function.update slots r (max (slots r) seq)) slots

/-- Whether a slot of `checked` was published after `since`. -/
def after (slots : R → ℕ) (checked : List R) (since : ℕ) : Bool :=
  checked.any fun r => since < slots r

theorem publish_apply (slots : R → ℕ) (refs : List R) (seq : ℕ) (r : R) :
    publish slots refs seq r = if r ∈ refs then max (slots r) seq else slots r := by
  unfold publish
  induction refs generalizing slots with
  | nil => rfl
  | cons r' refs ih =>
      rw [List.foldl_cons, ih]
      by_cases he : r = r'
      · subst he
        by_cases hm : r ∈ refs <;> simp [hm]
      · by_cases hm : r ∈ refs <;> simp [hm, he]

/-- The slots hold what the issued invalidations published. -/
structure Published (refs : I → List R) (slots : R → ℕ) (issued : List (I × ℕ)) : Prop where
  le : ∀ {i seq r}, (i, seq) ∈ issued → r ∈ refs i → seq ≤ slots r
  cause : ∀ {r}, slots r ≠ 0 → ∃ i, (i, slots r) ∈ issued ∧ r ∈ refs i

variable {refs : I → List R} {slots : R → ℕ} {issued : List (I × ℕ)}

omit [DecidableEq R] in
theorem published_init (refs : I → List R) : Published refs (fun _ => 0) [] where
  le h _ := nomatch h
  cause h := absurd rfl h

/-- One more invalidation, at its clock value. -/
theorem Published.issue (h : Published refs slots issued) (i : I) (seq : ℕ) :
    Published refs (publish slots (refs i) seq) ((i, seq) :: issued) where
  le {i' seq' r} hi hr := by
    rw [publish_apply]
    rcases List.mem_cons.mp hi with e | hi
    · cases e
      rw [if_pos hr]
      exact le_max_right ..
    · have := h.le hi hr
      split
      · exact this.trans (le_max_left ..)
      · exact this
  cause {r} hr := by
    rw [publish_apply] at hr ⊢
    split
    next hm =>
      rcases max_choice (slots r) seq with e | e
      · rw [if_pos hm, e] at hr
        rw [e]
        obtain ⟨i', hi', hr'⟩ := h.cause hr
        exact ⟨i', .tail _ hi', hr'⟩
      · rw [e]
        exact ⟨i, .head _, hm⟩
    next hm =>
      rw [if_neg hm] at hr
      obtain ⟨i', hi', hr'⟩ := h.cause hr
      exact ⟨i', .tail _ hi', hr'⟩

omit [DecidableEq R] in
/-- **A check refuses exactly for a cause.** -/
theorem Published.after_iff (h : Published refs slots issued) {checked : List R} {since : ℕ} :
    after slots checked since = true ↔
      ∃ i seq, (i, seq) ∈ issued ∧ since < seq ∧ ∃ r ∈ refs i, r ∈ checked := by
  simp only [after, List.any_eq_true, decide_eq_true_eq]
  constructor
  · rintro ⟨r, hr, hlt⟩
    obtain ⟨i, hi, hir⟩ := h.cause (r := r) (by omega)
    exact ⟨i, _, hi, hlt, r, hir, hr⟩
  · rintro ⟨i, seq, hi, hlt, r, hir, hr⟩
    exact ⟨r, hr, lt_of_lt_of_le hlt (h.le hi hir)⟩

end Brust.Cache.Stamps
