import Brust.Cache.Moves

/-!
# Cache — one place for each generation

A generation is stamped by one insert, under its key's stripe.  From then on its value is in one
place: in its insert's hands, held by the evicting store, or dropped and on its way through the
listener (`Spent`).  `Gens` says so for every reached state, and that what carries a generation
carries its insert's key, body and groups.
-/

namespace Brust.Cache

variable {K N R B A I : Type} {S : Store K N R B A I}

namespace Store

/-- `slot` at `k` is what its generation's insert stored. -/
def Stamped (S : Store K N R B A I) (m : Mem K N R B A I) (k : K) (slot : Slot N) : Prop :=
  ∃ a, m.landed slot.generation = some a ∧ (S.insert a).key = k ∧ (S.insert a).groups = slot.groups

/-- A generation's value was dropped, and the listener may not have finished with it. -/
def Spent (S : Store K N R B A I) (s : S.State) (k : K) (slot : Slot N) : Prop :=
  (k, slot) ∈ s.mem.dropped ∨ ∃ t, Listening (s.threads t) k slot

variable [DecidableEq K] [DecidableEq N] [DecidableEq R]

structure Gens (S : Store K N R B A I) (s : S.State) : Prop where
  bound : ∀ {g a}, s.mem.landed g = some a → g < s.mem.nextGeneration
  front : ∀ {k e}, s.mem.front.lookup k = some e →
    ∃ a, s.mem.landed e.generation = some a ∧ (S.insert a).key = k ∧ (S.insert a).body = e.body
  moka : ∀ {k slot}, s.mem.moka.lookup k = some slot → S.Stamped s.mem k slot
  spent : ∀ {k slot}, S.Spent s k slot → S.Stamped s.mem k slot
  inserting : ∀ {t a g}, Inserting (s.threads t) a g → s.mem.landed g = some a
  moka_not_spent : ∀ {k slot k' slot'}, s.mem.moka.lookup k = some slot → S.Spent s k' slot' →
    slot'.generation ≠ slot.generation
  inserting_not_moka : ∀ {t a g k slot}, Inserting (s.threads t) a g →
    s.mem.moka.lookup k = some slot → slot.generation ≠ g
  inserting_not_spent : ∀ {t a g k slot}, Inserting (s.threads t) a g → S.Spent s k slot →
    slot.generation ≠ g

/-! ### One step -/

section
variable {s s' : S.State} {t : ℕ}

theorem landed_mono (hg : S.Gens s) (h : S.Step s t s') {g : ℕ} {a : A}
    (hl : s.mem.landed g = some a) : s'.mem.landed g = some a := by
  obtain ⟨hm, -⟩ := h
  rcases hm.landed_cases with ⟨e, -⟩ | ⟨b, -, -, e, -⟩
  · exact e ▸ hl
  · have hlt := hg.bound hl
    simp only [Pool.set_mem, e]
    rw [Function.update_of_ne (Nat.ne_of_lt hlt)]
    exact hl

theorem Stamped.mono (hg : S.Gens s) (h : S.Step s t s') {k : K} {slot : Slot N}
    (hl : S.Stamped s.mem k slot) : S.Stamped s'.mem k slot := by
  obtain ⟨a, ha, hk⟩ := hl
  exact ⟨a, landed_mono hg h ha, hk⟩

/-- A value newly spent was held. -/
theorem spent_cases (h : S.Step s t s') {k : K} {slot : Slot N} (hs : S.Spent s' k slot) :
    S.Spent s k slot ∨ (s.mem.moka.lookup k = some slot ∧
      ∀ slot', s'.mem.moka.lookup k = some slot' →
        ∃ a, s.threads t = .insert a (.moka slot'.generation)) := by
  obtain ⟨hm, -⟩ := h
  rcases hs with hd | ⟨u, hu⟩
  · rcases hm.dropped_cases hd with hd | hd
    · exact .inl (.inl hd)
    · exact .inr hd
  · by_cases e : u = t
    · subst e
      rw [Pool.set_self] at hu
      rcases hm.listening_cases hu with hu | hd
      · exact .inl (.inr ⟨u, hu⟩)
      · exact .inl (.inl hd)
    · rw [Pool.set_other e] at hu
      exact .inl (.inr ⟨u, hu⟩)

/-- An insert at work after a step was at work before it, or took the next generation in it. -/
theorem inserting_step (h : S.Step s t s') {u : ℕ} {a : A} {g : ℕ}
    (hi : Inserting (s'.threads u) a g) :
    Inserting (s.threads u) a g ∨ (u = t ∧ s.threads t = .insert a (.check []) ∧
      g = s.mem.nextGeneration ∧
      s'.mem.landed = Function.update s.mem.landed s.mem.nextGeneration (some a)) := by
  obtain ⟨hm, -⟩ := h
  by_cases e : u = t
  · subst e
    rw [Pool.set_self] at hi
    rcases hm.inserting_cases hi with hi | ⟨hc, hg, hl⟩
    · exact .inl hi
    · exact .inr ⟨rfl, hc, hg, hl⟩
  · rw [Pool.set_other e] at hi
    exact .inl hi

theorem moka_step (h : S.Step s t s') {k : K} {slot : Slot N}
    (hs : s'.mem.moka.lookup k = some slot) : s.mem.moka.lookup k = some slot ∨
      ∃ a, s.threads t = .insert a (.moka slot.generation) ∧ s'.threads t = .insert a (.done true) ∧
        (S.insert a).key = k ∧ (S.insert a).groups = slot.groups := by
  obtain ⟨hm, -⟩ := h
  simpa using hm.moka_cases hs

omit [DecidableEq N] [DecidableEq R] in
/-- Two inserts at work on one generation are one. -/
theorem Gens.inserting_unique (hg : S.Gens s) (he : Pool.Exclusive S.conflict s) {u v : ℕ} {a b : A}
    {g : ℕ} (hu : Inserting (s.threads u) a g) (hv : Inserting (s.threads v) b g) : u = v := by
  by_contra e
  have hab : a = b := by
    have := (hg.inserting hu).symm.trans (hg.inserting hv)
    simpa using this
  subst hab
  exact he u v e (.inr (.inr ⟨_, hu.stripe, hv.stripe⟩))

omit [DecidableEq K] [DecidableEq N] [DecidableEq R] in
/-- One generation is stored under one key. -/
theorem Stamped.key_unique {m : Mem K N R B A I} {k k' : K} {slot slot' : Slot N}
    (h : S.Stamped m k slot) (h' : S.Stamped m k' slot')
    (e : slot'.generation = slot.generation) : k' = k := by
  obtain ⟨a, ha, hk, -⟩ := h
  obtain ⟨b, hb, hk', -⟩ := h'
  rw [e, ha] at hb
  cases hb
  exact hk'.symm.trans hk

theorem Gens.step (hg : S.Gens s) (he : Pool.Exclusive S.conflict s) (h : S.Step s t s') :
    S.Gens s' := by
  have hmono : ∀ {g a}, s.mem.landed g = some a → s'.mem.landed g = some a :=
    fun hl => landed_mono hg h hl
  have hspent : ∀ {k slot}, S.Spent s' k slot → S.Stamped s.mem k slot := by
    intro k slot hs
    rcases spent_cases h hs with hs | ⟨hs, -⟩
    · exact hg.spent hs
    · exact hg.moka hs
  -- a fresh generation is nowhere yet
  have hfresh : ∀ {k slot}, S.Stamped s.mem k slot → slot.generation ≠ s.mem.nextGeneration := by
    rintro k slot ⟨a, ha, -⟩
    exact Nat.ne_of_lt (hg.bound ha)
  refine ⟨?_, ?_, ?_, fun hs => (hspent hs).mono hg h, ?_, ?_, ?_, ?_⟩
  case refine_1 =>
    intro g a hl
    obtain ⟨hm, -⟩ := id h
    rcases hm.landed_cases with ⟨e, e'⟩ | ⟨b, -, -, e, e'⟩
    · simp only [Pool.set_mem, e, e'] at hl ⊢
      exact hg.bound hl
    · simp only [Pool.set_mem, e, e'] at hl ⊢
      by_cases hgn : g = s.mem.nextGeneration
      · omega
      · rw [Function.update_of_ne hgn] at hl
        exact Nat.lt_succ_of_lt (hg.bound hl)
  case refine_2 =>
    intro k e hk
    obtain ⟨hm, -⟩ := id h
    rcases hm.front_cases hk with hk | ⟨a, n, hc, -, -, hkey, hbody⟩
    · obtain ⟨a, ha, hrest⟩ := hg.front hk
      exact ⟨a, hmono ha, hrest⟩
    · exact ⟨a, hmono (hg.inserting (.of_index hc)), hkey, hbody⟩
  case refine_3 =>
    intro k slot hk
    rcases moka_step h hk with hk | ⟨a, hc, -, hkey, hgr⟩
    · exact (hg.moka hk).mono hg h
    · exact ⟨a, hmono (hg.inserting (.of_moka hc)), hkey, hgr⟩
  case refine_4 =>
    intro u a g hi
    rcases inserting_step h hi with hi | ⟨-, -, hgn, hl⟩
    · exact hmono (hg.inserting hi)
    · rw [hl, hgn, Function.update_self]
  case refine_5 =>
    intro k slot k' slot' hk hs hgen
    rcases moka_step h hk with hold | ⟨a, hc, -, hkey, hgr⟩
    · rcases spent_cases h hs with hs | ⟨hs, hnew⟩
      · exact hg.moka_not_spent hold hs hgen
      · -- the value just dropped is the one held at `k`, and nothing newer is of its generation
        have hkk := (hg.moka hold).key_unique (hg.moka hs) hgen
        subst hkk
        obtain ⟨a, hc⟩ := hnew slot hk
        exact hg.inserting_not_moka (.of_moka hc) hold rfl
    · have hi : Inserting (s.threads t) a slot.generation := .of_moka hc
      rcases spent_cases h hs with hs | ⟨hs, -⟩
      · exact hg.inserting_not_spent hi hs hgen
      · exact hg.inserting_not_moka hi hs hgen
  case refine_6 =>
    intro u a g k slot hi' hk hgen
    rcases moka_step h hk with hold | ⟨b, hc, hc', -, -⟩
    · rcases inserting_step h hi' with hi | ⟨-, -, hgn, -⟩
      · exact hg.inserting_not_moka hi hold hgen
      · exact hfresh (hg.moka hold) (hgen.trans hgn)
    · -- the insert that just finished held this generation alone
      have hb : Inserting (s.threads t) b slot.generation := .of_moka hc
      rcases inserting_step h hi' with hi | ⟨rfl, hu, -, -⟩
      · have e := hg.inserting_unique he (hgen ▸ hb) hi
        subst e
        rw [hc'] at hi'
        cases hi'
      · rw [hu] at hc; cases hc
  case refine_7 =>
    intro u a g k slot hi hs hgen
    rcases inserting_step h hi with hi | ⟨-, -, hgn, -⟩
    · rcases spent_cases h hs with hs | ⟨hs, -⟩
      · exact hg.inserting_not_spent hi hs hgen
      · exact hg.inserting_not_moka hi hs hgen
    · exact hfresh (hspent hs) (hgen.trans hgn)

end

end Store

end Brust.Cache
