import Brust.Cache.Indexed

/-!
# Cache — the three structures agree

The evicting store, the front and the index are written in different orders by every operation and
pruned late by the listener.  `Agree` says, in every reached state, what each of them holds in
terms of the others and of the work in flight: a front entry's generation is held, on its way
through the listener, or about to be stored; a held value's generation is in the front unless its
key is being overwritten; and an index entry is the work of one value that carries the name.  With
no operation in flight and every notification delivered the work in flight is gone, and what is
left is equality (`agreement`).
-/

namespace Brust.Cache

open TagIndex

variable {K N R B A I : Type} {S : Store K N R B A I}

/-- A removal between its two halves holds its key's stripe. -/
theorem Holding.stripe {c : Thread K N R A I} {k : K} (h : Holding c k) (hf : S.Fits c) :
    S.stripe c = some (S.shardOf k) := by
  cases h with
  | remove => rfl
  | scan => exact congrArg some (hf.2 _ List.mem_cons_self).symm

theorem mem_flatten_drop {groups : List (List N)} {n : ℕ} {names : List N}
    (h : groups[n]? = some names) {x : N} (hx : x ∈ (groups.drop n).flatten) :
    x ∈ names ∨ x ∈ (groups.drop (n + 1)).flatten := by
  rw [List.drop_eq_getElem?_toList_append, h] at hx
  simpa using hx

namespace Store

variable [DecidableEq K] [DecidableEq N]

/-- Whose index entry `k` under `x` at generation `g` is. -/
inductive Carried (S : Store K N R B A I) (s : S.State) (k : K) (g : ℕ) (x : N) : Prop where
  | held {slot : Slot N} (h : s.mem.moka.lookup k = some slot) (hg : slot.generation = g)
      (hx : x ∈ slot.groups.flatten)
  | dropped {slot : Slot N} (h : (k, slot) ∈ s.mem.dropped) (hg : slot.generation = g)
      (hx : x ∈ slot.groups.flatten)
  | listening {t : ℕ} {slot : Slot N} {n : ℕ} (h : s.threads t = .listen k slot n)
      (hg : slot.generation = g) (hx : x ∈ (slot.groups.drop n).flatten)
  | inserting {t : ℕ} {a : A} (h : Inserting (s.threads t) a g) (hk : (S.insert a).key = k)
      (hx : x ∈ (S.insert a).names)

structure Agree (S : Store K N R B A I) (s : S.State) : Prop where
  storing : ∀ {t a g}, s.threads t = .insert a (.moka g) →
    ∃ e, s.mem.front.lookup (S.insert a).key = some e ∧ e.generation = g
  holding : ∀ {t k}, Holding (s.threads t) k → s.mem.moka.lookup k = none
  wiping : ∀ {t i seq rest}, s.threads t = .inval i (.wipe seq rest) → .moka ∉ rest →
    ∀ k, s.mem.moka.lookup k = none
  front : ∀ {k e}, s.mem.front.lookup k = some e →
    (∃ slot, slot.generation = e.generation ∧
      (s.mem.moka.lookup k = some slot ∨ S.Spent s k slot)) ∨
    ∃ t a, s.threads t = .insert a (.moka e.generation) ∧ (S.insert a).key = k
  moka : ∀ {k slot}, s.mem.moka.lookup k = some slot →
    (∃ e, s.mem.front.lookup k = some e ∧ e.generation = slot.generation) ∨
    ∃ t a g, s.threads t = .insert a (.moka g) ∧ (S.insert a).key = k
  index : ∀ {k g x}, genAt s.mem.index x k = some g → S.Carried s k g x

variable [DecidableEq R] {s s' : S.State} {t : ℕ}

/-! ### One step -/

omit [DecidableEq R] in
/-- While an insert is at work nobody else touches its key: another thread does not hold the
stripe, nor the gate. -/
theorem Ordered.alone (hs : S.Ordered s) {u v : ℕ} (huv : u ≠ v) {a : A} {g : ℕ}
    (hu : Inserting (s.threads u) a g) :
    S.stripe (s.threads v) ≠ some (S.shardOf (S.insert a).key) ∧ S.gateWrite (s.threads v) ≠ true :=
  ⟨fun hv => hs.exclusive u v huv (.inr (.inr ⟨_, hu.stripe, hv⟩)),
    fun hv => hs.exclusive u v huv (.inr (.inl ⟨hu.gateRead, hv⟩))⟩

theorem Agree.storing_step (ha : S.Agree s) (hs : S.Ordered s) (h : S.Step s t s') {u : ℕ} {a : A}
    {g : ℕ} (hu : s'.threads u = .insert a (.moka g)) :
    ∃ e, s'.mem.front.lookup (S.insert a).key = some e ∧ e.generation = g := by
  obtain ⟨hm, -⟩ := h
  by_cases hut : u = t
  · subst hut
    rw [Pool.set_self] at hu
    subst hu
    obtain ⟨rfl, -⟩ := hm.of_moka
    exact ⟨_, AList.lookup_insert _, rfl⟩
  · rw [Pool.set_other hut] at hu
    obtain ⟨e, he, rfl⟩ := ha.storing hu
    obtain ⟨hstripe, hgate⟩ := hs.alone hut (.of_moka hu)
    rcases hm.front_kept he with he' | ⟨b, g, n, hc, -, hk⟩ | ⟨slot, n, hc, hg⟩ | hh |
      ⟨i, seq, rest, hc⟩
    · exact ⟨e, he', rfl⟩
    · exact absurd (by rw [hc, ← hk]; rfl) hstripe
    · exact absurd hg
        (hs.gens.inserting_not_spent (.of_moka hu) (.inr ⟨t, by rw [hc]; exact .mk ..⟩))
    · exact absurd (hh.stripe (hs.indexed.fits t)) hstripe
    · exact absurd (hc ▸ gateWrite_of_wipe (hc ▸ hs.indexed.fits t)) hgate

theorem Agree.holding_step (ha : S.Agree s) (hs : S.Ordered s) (h : S.Step s t s') {u : ℕ} {k : K}
    (hu : Holding (s'.threads u) k) : s'.mem.moka.lookup k = none := by
  obtain ⟨hm, -⟩ := id h
  by_cases hut : u = t
  · subst hut
    rw [Pool.set_self] at hu
    obtain rfl := hm.of_holding hu
    simp [Mem.unmoka]
  · rw [Pool.set_other hut] at hu
    rw [Option.eq_none_iff_forall_ne_some]
    intro slot hk
    rcases moka_step h hk with hk | ⟨a, hc, -, rfl, -⟩
    · rw [ha.holding hu] at hk; cases hk
    · exact (hs.alone (Ne.symm hut) (.of_moka hc)).1 (hu.stripe (hs.indexed.fits u))

theorem Agree.wiping_step (ha : S.Agree s) (hs : S.Ordered s) (h : S.Step s t s') {u : ℕ} {i : I}
    {seq : ℕ} {rest : List (Wipe N)} (hu : s'.threads u = .inval i (.wipe seq rest))
    (hw : .moka ∉ rest) (k : K) : s'.mem.moka.lookup k = none := by
  obtain ⟨hm, -⟩ := id h
  by_cases hut : u = t
  · subst hut
    rw [Pool.set_self] at hu
    subst hu
    rcases hm.of_wipe with ⟨rfl, -, -⟩ | ⟨w, hc, rfl⟩
    · exact absurd S.wipe_moka hw
    · cases w with
      | moka => rfl
      | index sel => exact ha.wiping hc (by simpa using hw) k
      | front n => exact ha.wiping hc (by simpa using hw) k
  · rw [Pool.set_other hut] at hu
    rw [Option.eq_none_iff_forall_ne_some]
    intro slot hk
    rcases moka_step h hk with hk | ⟨a, hc, -⟩
    · rw [ha.wiping hu hw] at hk; cases hk
    · exact (hs.alone (Ne.symm hut) (.of_moka hc)).2
        (hu ▸ gateWrite_of_wipe (hu ▸ hs.indexed.fits u))

theorem Agree.front_step (ha : S.Agree s) (h : S.Step s t s') {k : K} {e : FrontEntry B}
    (hk : s'.mem.front.lookup k = some e) :
    (∃ slot, slot.generation = e.generation ∧
      (s'.mem.moka.lookup k = some slot ∨ S.Spent s' k slot)) ∨
    ∃ t a, s'.threads t = .insert a (.moka e.generation) ∧ (S.insert a).key = k := by
  obtain ⟨hm, -⟩ := id h
  rcases hm.front_cases hk with hold | ⟨a, n, -, -, hc', hkey, -⟩
  swap
  · exact .inr ⟨t, a, by rw [Pool.set_self]; exact hc', hkey⟩
  rcases ha.front hold with ⟨slot, hg, hslot | hslot | ⟨u, hu⟩⟩ | ⟨u, a, hu, hkey⟩
  · rcases hm.moka_kept hslot with hslot | hslot
    · exact .inl ⟨slot, hg, .inl hslot⟩
    · exact .inl ⟨slot, hg, .inr (.inl hslot)⟩
  · rcases hm.dropped_kept hslot with hslot | hc'
    · exact .inl ⟨slot, hg, .inr (.inl hslot)⟩
    · exact .inl ⟨slot, hg, .inr (.inr ⟨t, by rw [Pool.set_self, hc']; exact .mk ..⟩)⟩
  · by_cases hut : u = t
    · subst hut
      generalize hc : s.threads u = c at hm hu
      cases hu with
      | mk n =>
          cases hm with
          | prune hn => exact .inl ⟨slot, hg, .inr (.inr ⟨u, by rw [Pool.set_self]; exact .mk ..⟩)⟩
          | unfront hn => simp [lookup_removeFront, hold, hg] at hk
    · exact .inl ⟨slot, hg, .inr (.inr ⟨u, by rwa [Pool.set_other hut]⟩)⟩
  · by_cases hut : u = t
    · subst hut
      rw [hu] at hm
      obtain rfl := hm.moka_move
      exact .inl ⟨⟨(S.insert a).ttl, (S.insert a).groups, e.generation⟩, rfl,
        .inl (by simp [Mem.putMoka, hkey])⟩
    · exact .inr ⟨u, a, by rwa [Pool.set_other hut], hkey⟩

theorem Agree.moka_step (ha : S.Agree s) (hs : S.Ordered s) (h : S.Step s t s') {k : K}
    {slot : Slot N} (hk : s'.mem.moka.lookup k = some slot) :
    (∃ e, s'.mem.front.lookup k = some e ∧ e.generation = slot.generation) ∨
    ∃ t a g, s'.threads t = .insert a (.moka g) ∧ (S.insert a).key = k := by
  obtain ⟨hm, -⟩ := id h
  by_cases hw : ∃ a g, s.threads t = .insert a (.moka g) ∧ (S.insert a).key = k
  · -- the value is the one its insert just stored
    obtain ⟨a, g, hc, rfl⟩ := hw
    obtain ⟨e, he, rfl⟩ := ha.storing hc
    rw [hc] at hm
    obtain rfl := hm.moka_move
    simp only [Pool.set_mem, Mem.putMoka, AList.lookup_insert, Option.some.injEq] at hk
    subst hk
    exact .inl ⟨e, he, rfl⟩
  rcases Store.moka_step h hk with hold | ⟨a, hc, -, hkey, -⟩
  swap
  · exact absurd ⟨a, _, hc, hkey⟩ hw
  rcases ha.moka hold with ⟨e, he, hg⟩ | ⟨u, a, g, hu, hkey⟩
  swap
  · have hut : u ≠ t := by rintro rfl; exact hw ⟨a, g, hu, hkey⟩
    exact .inr ⟨u, a, g, by rwa [Pool.set_other hut], hkey⟩
  rcases hm.front_kept he with he' | ⟨b, g, n, -, hc', hkey⟩ | ⟨slot', n, hc, hg'⟩ | hh |
    ⟨i, seq, rest, hc⟩
  · exact .inl ⟨e, he', hg⟩
  · exact .inr ⟨t, b, g, by rw [Pool.set_self]; exact hc', hkey⟩
  · exact absurd (hg'.trans hg)
      (hs.gens.moka_not_spent hold (.inr ⟨t, by rw [hc]; exact .mk ..⟩))
  · rw [ha.holding hh] at hold; cases hold
  · have hfits := hs.indexed.fits t
    rw [hc] at hfits
    have hno := S.wipe_order _ _ hfits.2
    rw [ha.wiping hc (by simpa using hno) k] at hold; cases hold

theorem Agree.index_step (ha : S.Agree s) (h : S.Step s t s') {k : K} {g : ℕ} {x : N}
    (hk : genAt s'.mem.index x k = some g) : S.Carried s' k g x := by
  obtain ⟨hm, -⟩ := id h
  rcases hm.genAt_cases x k with e | ⟨a, g', n, names, -, hc', hn, hx, hkey, e⟩ |
    ⟨_, _, _, _, _, _, _, _, e⟩ | ⟨_, _, _, _, _, _, _, _, _, _, _, _, e⟩ | ⟨_, _, _, _, _, _, _, e⟩
  · have hold : genAt s.mem.index x k = some g := e ▸ hk
    cases ha.index hold with
    | held hslot hg hx =>
        rcases hm.moka_kept hslot with hslot | hslot
        · exact .held hslot hg hx
        · exact .dropped hslot hg hx
    | dropped hslot hg hx =>
        rcases hm.dropped_kept hslot with hslot | hc'
        · exact .dropped hslot hg hx
        · exact .listening (t := t) (n := 0) (by rw [Pool.set_self]; exact hc') hg hx
    | @listening u slot n hu hg hx =>
        by_cases hut : u = t
        · subst hut
          rw [hu] at hm
          cases hm with
          | prune hn =>
              rcases mem_flatten_drop hn hx with hx | hx
              · simp [genAt_pruneTags, hx, hg, hold] at hk
              · exact .listening (t := u) (by rw [Pool.set_self]) hg hx
          | unfront hn =>
              rw [List.drop_eq_nil_of_le (by simpa using hn)] at hx
              simp at hx
        · exact .listening (by rwa [Pool.set_other hut]) hg hx
    | @inserting u a hu hkey hx =>
        by_cases hut : u = t
        · subst hut
          generalize hc : s.threads u = c at hm hu
          cases hu with
          | index n =>
              cases hm with
              | index hn =>
                  exact .inserting (t := u) (by rw [Pool.set_self]; exact .index ..) hkey hx
              | front hn =>
                  exact .inserting (t := u) (by rw [Pool.set_self]; exact .moka ..) hkey hx
          | moka =>
              obtain rfl := hm.moka_move
              have hslot : (s.mem.putMoka (S.insert a) g).moka.lookup k =
                  some ⟨(S.insert a).ttl, (S.insert a).groups, g⟩ := by
                simp [Mem.putMoka, hkey]
              exact .held hslot rfl hx
        · exact .inserting (by rwa [Pool.set_other hut]) hkey hx
  · obtain rfl : g' = g := by simpa using e.symm.trans hk
    refine .inserting (t := t) (by rw [Pool.set_self, hc']; exact .index ..) hkey ?_
    exact List.mem_flatten.mpr ⟨names, List.mem_of_getElem? hn, hx⟩
  all_goals exact absurd (e.symm.trans hk) (by simp)

theorem Agree.step (ha : S.Agree s) (hs : S.Ordered s) (h : S.Step s t s') : S.Agree s' where
  storing := ha.storing_step hs h
  holding := ha.holding_step hs h
  wiping := ha.wiping_step hs h
  front := ha.front_step h
  moka := ha.moka_step hs h
  index := ha.index_step h

omit [DecidableEq R] in
theorem Agree.init (h : S.Init s) : S.Agree s := by
  obtain ⟨hm, ht⟩ := h
  refine ⟨?_, ?_, ?_, ?_, ?_, ?_⟩
  · intro t a g h; rw [ht] at h; cases h
  · intro t k h; rw [ht] at h; cases h
  · intro t i seq rest h; rw [ht] at h; cases h
  · intro k e h; simp [hm, Mem.init] at h
  · intro k slot h; simp [hm, Mem.init] at h
  · intro k g x h; simp [hm, Mem.init] at h

/-- **In every reached state the three structures agree up to the work in flight.** -/
theorem agree {ok : S.State → ℕ → Prop} (r : Reach S.Init S.Step ok s) : S.Agree s := by
  induction r with
  | init h => exact .init h
  | step r h _ ih => exact ih.step (ordered r) h

/-- No operation is in flight and every notification is delivered. -/
def Quiet (S : Store K N R B A I) (s : S.State) : Prop :=
  (∀ t, s.threads t = .idle) ∧ s.mem.dropped = []

/-- **The front and the evicting store hold the same generations** once nothing is in flight. -/
theorem front_iff_moka {ok : S.State → ℕ → Prop} (r : Reach S.Init S.Step ok s) (hq : S.Quiet s)
    (k : K) (g : ℕ) :
    (∃ e, s.mem.front.lookup k = some e ∧ e.generation = g) ↔
      ∃ slot, s.mem.moka.lookup k = some slot ∧ slot.generation = g := by
  have ha := agree r
  obtain ⟨hidle, hd⟩ := hq
  constructor
  · rintro ⟨e, he, rfl⟩
    rcases ha.front he with ⟨slot, hg, hslot | hslot | ⟨u, hu⟩⟩ | ⟨u, a, hu, -⟩
    · exact ⟨slot, hslot, hg⟩
    · rw [hd] at hslot; cases hslot
    · rw [hidle] at hu; cases hu
    · rw [hidle] at hu; cases hu
  · rintro ⟨slot, hslot, rfl⟩
    rcases ha.moka hslot with he | ⟨u, a, g, hu, -⟩
    · exact he
    · rw [hidle] at hu; cases hu

/-- **A held value is indexed under exactly the names it carries, at its own generation** once
nothing is in flight; a key not held is not indexed. -/
theorem genAt_eq {ok : S.State → ℕ → Prop} (r : Reach S.Init S.Step ok s) (hq : S.Quiet s)
    (x : N) (k : K) :
    genAt s.mem.index x k = (s.mem.moka.lookup k).bind fun slot =>
      if x ∈ slot.groups.flatten then some slot.generation else none := by
  obtain ⟨hidle, hd⟩ := id hq
  have hcarried : ∀ g, genAt s.mem.index x k = some g →
      ∃ slot, s.mem.moka.lookup k = some slot ∧ slot.generation = g ∧ x ∈ slot.groups.flatten := by
    intro g hx
    cases (agree r).index hx with
    | held h hg hx => exact ⟨_, h, hg, hx⟩
    | dropped h => rw [hd] at h; cases h
    | listening h => rw [hidle] at h; cases h
    | inserting h => rw [hidle] at h; cases h
  cases hk : s.mem.moka.lookup k with
  | none =>
      rw [Option.bind_none, Option.eq_none_iff_forall_ne_some]
      intro g hx
      obtain ⟨slot, h, -⟩ := hcarried g hx
      rw [hk] at h; cases h
  | some slot =>
      rw [Option.bind_some]
      split
      · next hx =>
        obtain ⟨e, he, hg⟩ := (front_iff_moka r hq k slot.generation).mpr ⟨slot, hk, rfl⟩
        obtain ⟨a, hl, -, hgr⟩ := (ordered r).gens.moka hk
        have hxa : x ∈ (S.insert a).names := by rw [Insert.names, hgr]; exact hx
        cases (ordered r).indexed.front he (hg ▸ hl) x hxa with
        | indexed h => exact hg ▸ h
        | newer h => rw [hidle] at h; cases h
        | pruned h => rw [hidle] at h; cases h
        | removing h => rw [hidle] at h; cases h.1
      · next hx =>
        rw [Option.eq_none_iff_forall_ne_some]
        intro g hg
        obtain ⟨slot', h, -, hx'⟩ := hcarried g hg
        rw [hk] at h; cases h
        exact hx hx'

/-- **A late notification touches its own generation only.** -/
theorem listener_guarded (h : S.Step s t s') {k : K} {slot : Slot N} {n : ℕ}
    (hc : s.threads t = .listen k slot n) :
    (∀ k' e, s.mem.front.lookup k' = some e → (k' = k → e.generation ≠ slot.generation) →
      s'.mem.front.lookup k' = some e) ∧
    ∀ x k' g, genAt s.mem.index x k' = some g → (k' = k → g ≠ slot.generation) →
      genAt s'.mem.index x k' = some g := by
  obtain ⟨hm, -⟩ := h
  rw [hc] at hm
  cases hm with
  | prune hn =>
      refine ⟨fun k' e he _ => he, fun x k' g hx hne => ?_⟩
      simp only [Pool.set_mem, genAt_pruneTags]
      rw [if_neg]
      · exact hx
      · rintro ⟨-, rfl, h⟩
        exact hne rfl (by simpa using hx.symm.trans h)
  | unfront hn =>
      refine ⟨fun k' e he hne => ?_, fun x k' g hx _ => hx⟩
      simp only [Pool.set_mem, lookup_removeFront]
      rw [if_neg]
      · exact he
      · rintro ⟨rfl, h⟩
        exact hne rfl (by simpa [he] using h)

end Store

end Brust.Cache
