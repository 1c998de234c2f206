import Mathlib.Data.List.Forall2

/-!
# Support — computations that fail

What a computation in `Except` that succeeds went through: a bind, a `mapM` over a list, whose
results are distinct where equal ones come of one element (`nodup_of_mapM_ok`); a `mapM` in
`Option` that never fails; and lists related element by element.
-/

namespace Brust

variable {ε α β γ : Type}

theorem bind_eq_ok {x : Except ε α} {f : α → Except ε β} {b : β} :
    (x >>= f) = .ok b ↔ ∃ a, x = .ok a ∧ f a = .ok b := by
  cases x with
  | error e =>
      constructor
      · intro h
        cases h
      · rintro ⟨_, h, _⟩
        cases h
  | ok a =>
      constructor
      · intro h
        exact ⟨a, rfl, h⟩
      · rintro ⟨_, h, hf⟩
        cases h
        exact hf

theorem mapError_eq_ok {ε' : Type} {g : ε → ε'} {x : Except ε α} {a : α} :
    x.mapError g = .ok a ↔ x = .ok a := by
  cases x with
  | error e => exact ⟨fun h => (by cases h), fun h => (by cases h)⟩
  | ok a =>
      refine ⟨fun h => ?_, fun h => ?_⟩
      · cases h
        rfl
      · cases h
        rfl

/-- A `mapM` that succeeds succeeds at each element. -/
theorem forall₂_of_mapM_ok {f : α → Except ε β} {l : List α} {ys : List β}
    (h : l.mapM f = .ok ys) : List.Forall₂ (fun x y => f x = .ok y) l ys := by
  induction l generalizing ys with
  | nil =>
      rw [List.mapM_nil] at h
      cases h
      exact .nil
  | cons x l ih =>
      rw [List.mapM_cons] at h
      obtain ⟨y, hy, h⟩ := bind_eq_ok.mp h
      obtain ⟨ys', hys, h⟩ := bind_eq_ok.mp h
      cases h
      exact .cons hy (ih hys)

theorem length_of_mapM_ok {f : α → Except ε β} {l : List α} {ys : List β}
    (h : l.mapM f = .ok ys) : ys.length = l.length :=
  (forall₂_of_mapM_ok h).length_eq.symm

theorem mem_of_mapM_ok {f : α → Except ε β} {l : List α} {ys : List β} (h : l.mapM f = .ok ys)
    {y : β} (hy : y ∈ ys) : ∃ x ∈ l, f x = .ok y := by
  obtain ⟨i, hi, rfl⟩ := List.getElem_of_mem hy
  have hl := length_of_mapM_ok h
  exact ⟨l.get ⟨i, hl ▸ hi⟩, List.get_mem _ _,
    (List.forall₂_iff_get.mp (forall₂_of_mapM_ok h)).2 i _ hi⟩

theorem exists_of_mapM_ok {f : α → Except ε β} {l : List α} {ys : List β} (h : l.mapM f = .ok ys)
    {x : α} (hx : x ∈ l) : ∃ y ∈ ys, f x = .ok y := by
  obtain ⟨i, hi, rfl⟩ := List.getElem_of_mem hx
  have hl := length_of_mapM_ok h
  exact ⟨ys.get ⟨i, hl.symm ▸ hi⟩, List.get_mem _ _,
    (List.forall₂_iff_get.mp (forall₂_of_mapM_ok h)).2 i hi _⟩

/-- Results of a `mapM` are distinct where equal ones come of one element. -/
theorem nodup_of_mapM_ok {f : α → Except ε β} {g : β → γ} : ∀ {l : List α} {ys : List β}, l.Nodup →
    l.mapM f = .ok ys → (∀ x ∈ l, ∀ x' ∈ l, ∀ y y', f x = .ok y → f x' = .ok y' → g y = g y' →
      x = x') → (ys.map g).Nodup
  | [], ys, _, h, _ => by
      cases h
      exact List.nodup_nil
  | x :: l, ys, hl, h, hsep => by
      rw [List.mapM_cons] at h
      obtain ⟨y, hy, h⟩ := bind_eq_ok.mp h
      obtain ⟨ys, hys, h⟩ := bind_eq_ok.mp h
      cases h
      rw [List.nodup_cons] at hl
      rw [List.map_cons, List.nodup_cons]
      refine ⟨fun hmem => ?_, nodup_of_mapM_ok hl.2 hys fun a ha a' ha' =>
        hsep a (List.mem_cons_of_mem _ ha) a' (List.mem_cons_of_mem _ ha')⟩
      obtain ⟨y', hy', he⟩ := List.mem_map.mp hmem
      obtain ⟨x', hx', hf⟩ := mem_of_mapM_ok hys hy'
      refine hl.1 ?_
      rw [hsep x List.mem_cons_self x' (List.mem_cons_of_mem _ hx') y y' hy hf he.symm]
      exact hx'

/-- The same for a `mapM` whose results are lists. -/
theorem nodup_flatten_of_mapM_ok {f : α → Except ε (List β)} {g : β → γ} :
    ∀ {l : List α} {yss : List (List β)}, l.Nodup → l.mapM f = .ok yss →
      (∀ x ∈ l, ∀ ys, f x = .ok ys → (ys.map g).Nodup) →
      (∀ x ∈ l, ∀ x' ∈ l, ∀ ys ys', f x = .ok ys → f x' = .ok ys' → ∀ y ∈ ys, ∀ y' ∈ ys',
        g y = g y' →
        x = x') → (yss.flatten.map g).Nodup
  | [], yss, _, h, _, _ => by
      cases h
      exact List.nodup_nil
  | x :: l, yss, hl, h, hnodup, hsep => by
      rw [List.mapM_cons] at h
      obtain ⟨ys, hys, h⟩ := bind_eq_ok.mp h
      obtain ⟨yss, hyss, h⟩ := bind_eq_ok.mp h
      cases h
      rw [List.nodup_cons] at hl
      rw [List.flatten_cons, List.map_append, List.nodup_append]
      refine ⟨hnodup x List.mem_cons_self ys hys, nodup_flatten_of_mapM_ok hl.2 hyss
        (fun a ha => hnodup a (List.mem_cons_of_mem _ ha)) fun a ha a' ha' =>
          hsep a (List.mem_cons_of_mem _ ha) a' (List.mem_cons_of_mem _ ha'), ?_⟩
      rintro b hb b' hb' rfl
      obtain ⟨y, hy, rfl⟩ := List.mem_map.mp hb
      obtain ⟨y', hy', he⟩ := List.mem_map.mp hb'
      obtain ⟨ys', hys', hy'⟩ := List.mem_flatten.mp hy'
      obtain ⟨x', hx', hf⟩ := mem_of_mapM_ok hyss hys'
      refine hl.1 ?_
      rw [hsep x List.mem_cons_self x' (List.mem_cons_of_mem _ hx') ys ys' hys hf y hy y'
        hy' he.symm]
      exact hx'

/-- A `mapM` that fails at no element. -/
theorem exists_mapM_ok {f : α → Except ε β} {l : List α} (h : ∀ x ∈ l, ∃ y, f x = .ok y) :
    ∃ ys, l.mapM f = .ok ys := by
  induction l with
  | nil => exact ⟨[], rfl⟩
  | cons x l ih =>
      obtain ⟨y, hy⟩ := h x List.mem_cons_self
      obtain ⟨ys, hys⟩ := ih fun x' hx' => h x' (List.mem_cons_of_mem _ hx')
      exact ⟨y :: ys, by rw [List.mapM_cons, hy, hys]; rfl⟩

/-- The same with what each element gives. -/
theorem mapM_eq_ok_map {f : α → Except ε β} {g : α → β} {l : List α}
    (h : ∀ x ∈ l, f x = .ok (g x)) : l.mapM f = .ok (l.map g) := by
  induction l with
  | nil => rfl
  | cons x l ih =>
      rw [List.mapM_cons, h x (by simp), ih fun y hy => h y (by simp [hy])]
      rfl

/-- A `mapM` over an image that answers an image answers it at each element. -/
theorem eq_some_of_mapM_map {f : β → Option γ} {g : α → β} {k : α → γ} {l : List α}
    (h : (l.map g).mapM f = some (l.map k)) : ∀ x ∈ l, f (g x) = some (k x) := by
  induction l with
  | nil => simp
  | cons x l ih =>
      rw [List.map_cons, List.mapM_cons] at h
      cases hx : f (g x) with
      | none => simp [hx] at h
      | some y =>
          cases hl : (l.map g).mapM f with
          | none => simp [hx, hl] at h
          | some ys =>
              rw [hx, hl] at h
              cases h
              intro z hz
              rcases List.mem_cons.mp hz with rfl | hz
              · exact hx
              · exact ih hl z hz

/-- A `mapM` that fails at no element of an image. -/
theorem mapM_map_eq_some {f : β → Option γ} {g : α → β} {k : α → γ} {l : List α}
    (h : ∀ x ∈ l, f (g x) = some (k x)) : (l.map g).mapM f = some (l.map k) := by
  induction l with
  | nil => rfl
  | cons x l ih =>
      rw [List.map_cons, List.mapM_cons, h x (by simp), ih fun y hy => h y (by simp [hy])]
      rfl

/-! ### Lists related element by element -/

theorem forall₂_imp_mem {α β : Type*} {R S : α → β → Prop} {l : List α} {l' : List β}
    (h : List.Forall₂ R l l') (himp : ∀ a ∈ l, ∀ b ∈ l', R a b → S a b) : List.Forall₂ S l l' := by
  induction h with
  | nil => exact .nil
  | cons hab _ ih =>
      exact .cons (himp _ List.mem_cons_self _ List.mem_cons_self hab)
        (ih fun a ha b hb => himp a (.tail _ ha) b (.tail _ hb))

theorem exists_of_forall₂ {α β : Type*} {R : α → β → Prop} {l : List α} {l' : List β}
    (h : List.Forall₂ R l l') {b : β} (hb : b ∈ l') : ∃ a ∈ l, R a b := by
  induction h with
  | nil => cases hb
  | cons hab _ ih =>
      rcases List.mem_cons.mp hb with rfl | hb
      · exact ⟨_, List.mem_cons_self, hab⟩
      · obtain ⟨a, ha, hR⟩ := ih hb
        exact ⟨a, .tail _ ha, hR⟩

theorem map_eq_of_forall₂ {α β γ : Type*} {f : α → γ} {g : β → γ} {l : List α} {l' : List β}
    (h : List.Forall₂ (fun a b => f a = g b) l l') : l.map f = l'.map g := by
  rw [← List.forall₂_eq_eq_eq, List.forall₂_map_left_iff, List.forall₂_map_right_iff]
  exact h

theorem forall₂_concat {α β : Type*} {R : α → β → Prop} {l : List α} {a : α} {l' : List β} :
    List.Forall₂ R (l ++ [a]) l' ↔ ∃ u b, R a b ∧ List.Forall₂ R l u ∧ l' = u ++ [b] := by
  rw [← List.forall₂_reverse_iff, List.reverse_append, List.reverse_singleton,
    List.singleton_append, List.forall₂_cons_left_iff]
  constructor
  · rintro ⟨b, u, hab, hu, he⟩
    refine ⟨u.reverse, b, hab, List.forall₂_reverse_iff.mp (by rwa [List.reverse_reverse]), ?_⟩
    rw [← List.reverse_cons, ← he, List.reverse_reverse]
  · rintro ⟨u, b, hab, hu, rfl⟩
    refine ⟨b, u.reverse, hab, List.forall₂_reverse_iff.mpr hu, ?_⟩
    rw [List.reverse_append, List.reverse_singleton, List.singleton_append]

end Brust
