import Brust.Cache.Fresh
import Mathlib.Data.Set.Insert
import Mathlib.Data.Set.Subsingleton
import Mathlib.Logic.Relation

/-!
# Cache — the contract of a guarded cache

What the rest of the system relies on, said without locks, slots or indexes.  A `Tier` is a clock,
the invalidations issued and returned so far, each at its clock value, and the values that can be
served.  A value may leave at any time.  It may land only if it is fresh against the invalidations
that have returned, and an invalidation may return only when every value is fresh against it
(`Tier.Step`); so what a tier serves is fresh (`Tier.Steps.fresh`).

`Store.refines` connects it to the machine: a step of a store is a few steps of its tier, in every
run that does not take the index in the listener's gap.
-/

namespace Brust.Cache

/-- A guarded cache, abstractly. -/
structure Tier (I A : Type) where
  clock : ℕ
  issued : Set (I × ℕ)
  returned : Set (I × ℕ)
  values : Set A

namespace Tier

variable {I A : Type}

def empty : Tier I A := ⟨0, ∅, ∅, ∅⟩

/-- An invalidation takes the next clock value. -/
def issue (t : Tier I A) (i : I) : Tier I A :=
  { t with clock := t.clock + 1, issued := insert (i, t.clock + 1) t.issued }

/-- The steps of a guarded cache, where `covers` says which values an invalidation is about and
`since` is the stamp a value was read under. -/
inductive Step (covers : I → A → Prop) (since : A → ℕ) : Tier I A → Tier I A → Prop where
  | issue (t : Tier I A) (i : I) : Step covers since t (t.issue i)
  | finish (t : Tier I A) {i : I} {seq : ℕ} (hi : (i, seq) ∈ t.issued)
      (fresh : ∀ a ∈ t.values, covers i a → seq ≤ since a) :
      Step covers since t { t with returned := insert (i, seq) t.returned }
  | land (t : Tier I A) {a : A} (fresh : ∀ i seq, (i, seq) ∈ t.returned → covers i a →
    seq ≤ since a) :
      Step covers since t { t with values := insert a t.values }
  | drop (t : Tier I A) {values : Set A} (h : values ⊆ t.values) :
      Step covers since t { t with values := values }

abbrev Steps (covers : I → A → Prop) (since : A → ℕ) : Tier I A → Tier I A → Prop :=
  Relation.ReflTransGen (Step covers since)

/-- Every value is fresh against every invalidation that returned. -/
def Fresh (covers : I → A → Prop) (since : A → ℕ) (t : Tier I A) : Prop :=
  ∀ a ∈ t.values, ∀ i seq, (i, seq) ∈ t.returned → covers i a → seq ≤ since a

variable {covers covers' : I → A → Prop} {since : A → ℕ} {t t' : Tier I A}

theorem Step.fresh (h : Step covers since t t') (hf : t.Fresh covers since) :
    t'.Fresh covers since := by
  cases h with
  | issue i => exact hf
  | @finish j q hi hfin =>
      intro a ha i seq hr hc
      rcases Set.mem_insert_iff.mp hr with e | hr
      · cases e; exact hfin a ha hc
      · exact hf a ha i seq hr hc
  | land hland =>
      intro a ha i seq hr hc
      rcases Set.mem_insert_iff.mp ha with rfl | ha
      · exact hland i seq hr hc
      · exact hf a ha i seq hr hc
  | drop hsub => exact fun a ha => hf a (hsub ha)

/-- **What a guarded cache serves is fresh.** -/
theorem Steps.fresh (h : Steps covers since empty t) : t.Fresh covers since := by
  induction h with
  | refl => exact fun a ha => ha.elim
  | tail _ h ih => exact h.fresh ih

/-- A cache that keeps a stronger rule keeps a weaker one. -/
theorem Step.mono (hc : ∀ i a, covers' i a → covers i a) (h : Step covers since t t') :
    Step covers' since t t' := by
  cases h with
  | issue i => exact .issue t i
  | finish hi hfin => exact .finish t hi fun a ha h => hfin a ha (hc _ _ h)
  | land hland => exact .land t fun i seq hr h => hland i seq hr (hc _ _ h)
  | drop hsub => exact .drop t hsub

theorem Steps.mono (hc : ∀ i a, covers' i a → covers i a) (h : Steps covers since t t') :
    Steps covers' since t t' := by
  induction h with
  | refl => exact .refl
  | tail _ h ih => exact ih.tail (h.mono hc)

/-- What happens to a tier whose clock does not move: at most one value more, any number fewer, and
at most one invalidation returned. -/
theorem steps_of_le (hclock : t'.clock = t.clock) (hissued : t'.issued = t.issued)
    (hvalues : (t'.values \ t.values).Subsingleton) (hreturned : t.returned ⊆ t'.returned)
    (hnew : (t'.returned \ t.returned).Subsingleton) (hr : t'.returned ⊆ t'.issued)
    (hf : t'.Fresh covers since) : Steps covers since t t' := by
  obtain ⟨c, is, rs, vs⟩ := t
  obtain ⟨c', is', rs', vs'⟩ := t'
  obtain rfl : c' = c := hclock
  obtain rfl : is' = is := hissued
  -- drop first, land next, return last
  have hdrop : Steps covers since ⟨c', is', rs, vs⟩ ⟨c', is', rs, vs ∩ vs'⟩ :=
    .single (.drop _ Set.inter_subset_left)
  have hland : Steps covers since ⟨c', is', rs, vs ∩ vs'⟩ ⟨c', is', rs, vs'⟩ := by
    by_cases h : vs' ⊆ vs
    · rw [Set.inter_eq_right.mpr h]
    · obtain ⟨a, hav, hna⟩ := Set.not_subset.mp h
      have hvs : insert a (vs ∩ vs') = vs' := by
        ext b
        constructor
        · rintro (rfl | hb)
          · exact hav
          · exact hb.2
        · intro hb
          by_cases hbv : b ∈ vs
          · exact .inr ⟨hbv, hb⟩
          · exact .inl (hvalues ⟨hb, hbv⟩ ⟨hav, hna⟩)
      have hstep : Step covers since ⟨c', is', rs, vs ∩ vs'⟩ ⟨c', is', rs, insert a (vs ∩ vs')⟩ :=
        .land _ fun i seq hr' hc => hf a hav i seq (hreturned hr') hc
      rw [hvs] at hstep
      exact .single hstep
  have hfinish : Steps covers since ⟨c', is', rs, vs'⟩ ⟨c', is', rs', vs'⟩ := by
    by_cases h : rs' ⊆ rs
    · rw [Set.Subset.antisymm h hreturned]
    · obtain ⟨p, hp, hnp⟩ := Set.not_subset.mp h
      have hrs : insert p rs = rs' := by
        refine Set.Subset.antisymm (Set.insert_subset hp hreturned) fun q hq => ?_
        by_cases hqr : q ∈ rs
        · exact .inr hqr
        · exact .inl (hnew ⟨hq, hqr⟩ ⟨hp, hnp⟩)
      have hstep : Step covers since ⟨c', is', rs, vs'⟩ ⟨c', is', insert p rs, vs'⟩ :=
        .finish _ (hr hp) fun a ha hc => hf a ha p.1 p.2 hp hc
      rw [hrs] at hstep
      exact .single hstep
  exact (hdrop.trans hland).trans hfinish

/-! #### An invalidation nothing interrupts -/

/-- An invalidation takes its clock value, drops what it covers and returns. -/
def invalidate (covers : I → A → Prop) (t : Tier I A) (i : I) : Tier I A where
  clock := t.clock + 1
  issued := insert (i, t.clock + 1) t.issued
  returned := insert (i, t.clock + 1) t.returned
  values := {a ∈ t.values | ¬ covers i a}

/-- Invalidations one after the other. -/
def invalidateAll (covers : I → A → Prop) (t : Tier I A) (is : List I) : Tier I A :=
  is.foldl (invalidate covers) t

theorem invalidate_steps (t : Tier I A) (i : I) :
    Steps covers since t (t.invalidate covers i) := by
  have hissue : Steps covers since t (t.issue i) := .single (.issue t i)
  have hdrop : Steps covers since (t.issue i)
      { t.issue i with values := {a ∈ t.values | ¬ covers i a} } :=
    .single (.drop _ fun _ ha => ha.1)
  have hfinish : Steps covers since { t.issue i with values := {a ∈ t.values | ¬ covers i a} }
      (t.invalidate covers i) :=
    .single (.finish _ (Set.mem_insert _ _) fun a ha hc => absurd hc ha.2)
  exact (hissue.trans hdrop).trans hfinish

theorem invalidateAll_append (t : Tier I A) (is js : List I) :
    t.invalidateAll covers (is ++ js) = (t.invalidateAll covers is).invalidateAll covers js :=
  List.foldl_append

theorem mem_invalidateAll {is : List I} {a : A} :
    a ∈ (t.invalidateAll covers is).values ↔ a ∈ t.values ∧ ∀ i ∈ is, ¬ covers i a := by
  induction is generalizing t with
  | nil => simp [invalidateAll]
  | cons i is ih =>
      refine ih.trans ?_
      simp only [invalidate, Set.mem_ofPred_eq, List.forall_mem_cons, and_assoc]

theorem clock_le_invalidateAll (t : Tier I A) (is : List I) :
    t.clock ≤ (t.invalidateAll covers is).clock := by
  induction is generalizing t with
  | nil => exact le_rfl
  | cons i is ih => exact (Nat.le_succ _).trans (ih (t.invalidate covers i))

theorem returned_subset_invalidateAll (t : Tier I A) (is : List I) :
    t.returned ⊆ (t.invalidateAll covers is).returned := by
  induction is generalizing t with
  | nil => exact subset_rfl
  | cons i is ih => exact (Set.subset_insert _ _).trans (ih (t.invalidate covers i))

/-- Each invalidation returned at a clock value of its own. -/
theorem returned_invalidateAll {is : List I} {i : I} (hi : i ∈ is) :
    ∃ seq, t.clock < seq ∧ (i, seq) ∈ (t.invalidateAll covers is).returned := by
  induction is generalizing t with
  | nil => cases hi
  | cons j is ih =>
      rcases List.mem_cons.mp hi with rfl | hi
      · exact ⟨t.clock + 1, Nat.lt_succ_self _,
          returned_subset_invalidateAll (t.invalidate covers i) is (Set.mem_insert _ _)⟩
      · obtain ⟨seq, hlt, hr⟩ := ih hi (t := t.invalidate covers j)
        exact ⟨seq, (Nat.lt_succ_self _).trans hlt, hr⟩

end Tier

/-! ### A store is a guarded cache -/

variable {K N R B A I : Type}

/-- A thread inside an invalidation that has taken its clock value. -/
def Inside (c : Thread K N R A I) (i : I) (seq : ℕ) : Prop :=
  ∃ pc, c = .inval i pc ∧ pc.seq = some seq

theorem Inside.unique {c : Thread K N R A I} {i j : I} {p q : ℕ} (h : Inside c i p)
    (h' : Inside c j q) : (i, p) = (j, q) := by
  obtain ⟨pc, rfl, hp⟩ := h
  obtain ⟨pc', hc, hq⟩ := h'
  cases hc
  rw [hp] at hq
  cases hq
  rfl

namespace Store

variable {S : Store K N R B A I} [DecidableEq K] [DecidableEq N] [DecidableEq R]

/-- The tier a store's state stands for. -/
def tier (S : Store K N R B A I) (s : S.State) : Tier I A where
  clock := s.mem.clock
  issued := {p | p ∈ s.mem.issued}
  returned := {p | S.Returned s p.1 p.2}
  values := {a | ∃ k e, s.mem.front.lookup k = some e ∧ s.mem.landed e.generation = some a}

/-- A thread comes to be inside an invalidation by taking the next clock value, or clock value
zero, which none takes. -/
theorem Move.inside_cases {m m' : Mem K N R B A I} {c c' : Thread K N R A I}
    (h : S.Move m c m' c') {i : I} {seq : ℕ} (hi : Inside c' i seq) :
    Inside c i seq ∨ seq = 0 ∨ seq = m.clock + 1 := by
  obtain ⟨pc, hc', hq⟩ := hi
  cases h with
  | removeKey => cases hc'; exact .inr (.inl (by simpa [InvalPc.seq] using hq.symm))
  | next => cases hc'; exact .inr (.inr (by simpa [InvalPc.seq] using hq.symm))
  | start => cases hc'; cases hq
  | publish | take | removeMoka | removeFront | removed | scan | collect | scanMoka | scanFront |
      nextShard | scanned | clear | wipe | wiped =>
      cases hc'; exact .inl ⟨_, rfl, hq⟩
  | _ => cases hc'

/-- Clock values are positive, and none is ahead of the clock. -/
theorem issued_bound {ok : S.State → ℕ → Prop} {s : S.State} (r : Reach S.Init S.Step ok s) :
    ∀ {i seq}, (i, seq) ∈ s.mem.issued → 0 < seq ∧ seq ≤ s.mem.clock := by
  induction r with
  | init h => intro i seq hi; simp [h.1, Mem.init] at hi
  | step _ h _ ih =>
      intro i seq hi
      obtain ⟨hm, -⟩ := h
      rcases hm.issued_cases with ⟨e, e'⟩ | ⟨j, -, e, e', -⟩
      · simp only [Pool.set_mem, e, e'] at hi ⊢
        exact ih hi
      · simp only [Pool.set_mem, e, e', List.mem_cons] at hi ⊢
        rcases hi with hi | hi
        · cases hi; exact ⟨Nat.succ_pos _, le_refl _⟩
        · exact ⟨(ih hi).1, Nat.le_succ_of_le (ih hi).2⟩

section
variable {ok : S.State → ℕ → Prop} {s s' : S.State} {t : ℕ}

theorem returned_mono (r : Reach S.Init S.Step ok s) (h : S.Step s t s') {i : I} {seq : ℕ}
    (hr : S.Returned s i seq) : S.Returned s' i seq := by
  obtain ⟨hi, hout⟩ := hr
  obtain ⟨hpos, hle⟩ := issued_bound r hi
  obtain ⟨hm, -⟩ := h
  refine ⟨?_, fun u pc hu hq => ?_⟩
  · rcases hm.issued_cases with ⟨e, -⟩ | ⟨j, -, e, -⟩
    · simpa [e] using hi
    · simp [e, hi]
  · by_cases hut : u = t
    · subst hut
      rw [Pool.set_self] at hu
      rcases hm.inside_cases ⟨pc, hu, hq⟩ with ⟨pc', hc, hq'⟩ | h | h
      · exact hout u pc' hc hq'
      · omega
      · omega
    · rw [Pool.set_other hut] at hu
      exact hout u pc hu hq

theorem returned_cases (h : S.Step s t s') {i : I} {seq : ℕ} (hi : (i, seq) ∈ s.mem.issued)
    (hr : S.Returned s' i seq) : S.Returned s i seq ∨ Inside (s.threads t) i seq := by
  by_cases hin : Inside (s.threads t) i seq
  · exact .inr hin
  · obtain ⟨-, -⟩ := h
    refine .inl ⟨hi, fun u pc hu hq => ?_⟩
    by_cases hut : u = t
    · subst hut; exact hin ⟨pc, hu, hq⟩
    · exact hr.2 u pc (by rw [Pool.set_other hut]; exact hu) hq

theorem tier_fresh (r : Reach S.Init S.Step S.TakesWhole s) :
    (S.tier s).Fresh (fun i a => (S.inval i).outdates (S.insert a)) fun a =>
      (S.insert a).since := by
  rintro a ⟨k, e, hk, ha⟩ i seq hret hout
  by_contra hlt
  exact ((fresh r).front hk ha hret.1 hout (Nat.lt_of_not_le hlt)).not_returned hret

/-- A value newly served is the one whose insert writes the front. -/
theorem tier_new_value (hs : S.Ordered s) (h : S.Step s t s') {a : A} (ha : a ∈ (S.tier s').values)
    (hna : a ∉ (S.tier s).values) : ∃ g n, s.threads t = .insert a (.index g n) := by
  obtain ⟨k, e, hk, ha⟩ := ha
  obtain ⟨hm, -⟩ := id h
  rcases hm.front_cases hk with hold | ⟨b, n, hc, -⟩
  · obtain ⟨b, hb, -⟩ := hs.gens.front hold
    have hab : b = a := by simpa using (landed_mono hs.gens h hb).symm.trans ha
    exact absurd ⟨k, e, hold, hab ▸ hb⟩ hna
  · have hb := landed_mono hs.gens h (hs.gens.inserting (.of_index hc))
    have hab : b = a := by simpa using hb.symm.trans ha
    exact ⟨_, n, hab ▸ hc⟩

theorem tier_next (r : Reach S.Init S.Step ok s) {i : I} (hc : s.threads t = .inval i .next)
    (h : S.Step s t s') : S.tier s' = (S.tier s).issue i := by
  obtain ⟨hm, -⟩ := id h
  generalize hcm : s.threads t = c at hm
  rw [hc] at hcm
  subst hcm
  cases hm
  simp only [tier, Tier.issue, Tier.mk.injEq]
  refine ⟨rfl, ?_, ?_, rfl⟩
  · ext p; simp
  · ext ⟨j, q⟩
    constructor
    · intro hp
      have hi : (j, q) ∈ s.mem.issued := by
        rcases List.mem_cons.mp hp.1 with e | hi
        · -- the thread is inside the invalidation it just issued
          cases e
          exact absurd rfl (hp.2 t _ (Pool.set_self ..))
        · exact hi
      rcases returned_cases h hi hp with hr | ⟨pc, hpc, hq⟩
      · exact hr
      · rw [hc] at hpc; cases hpc; cases hq
    · exact fun hp => returned_mono r h hp

/-- **A store is a guarded cache**: its steps are steps of its tier. -/
theorem refines (r : Reach S.Init S.Step S.TakesWhole s) (h : S.Step s t s')
    (hok : S.TakesWhole s t) :
    Tier.Steps (fun i a => (S.inval i).outdates (S.insert a)) (fun a => (S.insert a).since)
      (S.tier s) (S.tier s') := by
  have r' := r.step h hok
  have hs := ordered r
  obtain ⟨hm, -⟩ := id h
  rcases hm.issued_cases with ⟨e, e'⟩ | ⟨i, hc, -⟩
  · refine Tier.steps_of_le e' (by simp [tier, e]) ?_ (fun p hp => returned_mono r h hp) ?_
      (fun p hp => hp.1) (tier_fresh r')
    · rintro a ⟨ha, hna⟩ b ⟨hb, hnb⟩
      obtain ⟨g, n, hca⟩ := tier_new_value hs h ha hna
      obtain ⟨g', n', hcb⟩ := tier_new_value hs h hb hnb
      rw [hca] at hcb
      cases hcb
      rfl
    · rintro ⟨i, p⟩ ⟨hp, hnp⟩ ⟨j, q⟩ ⟨hq, hnq⟩
      have hip : (i, p) ∈ s.mem.issued := by simpa [e] using hp.1
      have hjq : (j, q) ∈ s.mem.issued := by simpa [e] using hq.1
      exact ((returned_cases h hip hp).resolve_left hnp).unique
        ((returned_cases h hjq hq).resolve_left hnq)
  · rw [tier_next r hc h]
    exact .single (.issue (S.tier s) i)

end

end Store

end Brust.Cache
