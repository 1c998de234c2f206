import Brust.Cache.Generations
import Mathlib.Data.List.TakeDrop

/-!
# Cache — every served entry is indexed

An entry of the front is indexed under each of its names at its own generation, but for three
kinds of work in flight: an insert of the same key that has indexed its newer generation and not
yet written the front, the listener between pruning a group and dropping the entry, and an
invalidation or a clear that holds the gate and has still to remove the key (`Found`).
-/

namespace Brust.Cache

open TagIndex

variable {K N R B A I : Type}

namespace Store

variable (S : Store K N R B A I)

/-- What an invalidation still has to remove under the gate. -/
def Pending : InvalPc K N R → K → Prop
  | .remove _ _ keys, k => k ∈ keys
  | .removeFront _ _ k' keys, k => k = k' ∨ k ∈ keys
  | .wipe _ rest, k => .front (S.shardOf k) ∈ rest
  | _, _ => False

/-- A thread that holds the gate and has still to remove `k`. -/
def Removes (c : Thread K N R A I) (k : K) : Prop :=
  S.gateWrite c = true ∧ ∃ i pc, c = .inval i pc ∧ S.Pending pc k

/-- Each invalidation runs its own kind's program. -/
def Fits : Thread K N R A I → Prop
  | .inval i (.wipe _ rest) => (∃ refs, S.inval i = .clear refs) ∧ rest <:+ S.wipe
  | .inval i (.scan ..) => ∃ hit refs, S.inval i = .scan hit refs
  | .inval i (.scanMoka _ _ _ shard keys) =>
      (∃ hit refs, S.inval i = .scan hit refs) ∧ ∀ k ∈ keys, S.shardOf k = shard
  | .inval i (.scanFront _ _ _ shard k keys) =>
      (∃ hit refs, S.inval i = .scan hit refs) ∧ ∀ k' ∈ k :: keys, S.shardOf k' = shard
  | _ => True

/-! ### The gate and the groups -/

section
variable {S}
/-- While an insert is at work, nobody holds the gate exclusively. -/
theorem not_gateWrite {s : S.State} (he : Pool.Exclusive S.conflict s) {u v : ℕ} {a : A}
    {pc : InsertPc R}
    (hu : s.threads u = .insert a pc) (hpc : gateRead (s.threads u) = true) :
    S.gateWrite (s.threads v) = false := by
  by_contra hv
  have hv : S.gateWrite (s.threads v) = true := by simpa using hv
  by_cases e : u = v
  · subst e; rw [hu] at hv; cases hv
  · exact he v u (Ne.symm e) (.inl ⟨hv, .inr hpc⟩)

theorem gateWrite_of_indexed {i : I} {seq : ℕ} {rest : List R} {names : List N}
    {keep : Option (K → Bool)} {refs : List R} (hi : S.inval i = .indexed names keep refs) :
    S.gateWrite (.inval i (.publish seq rest)) = true := by
  simp [gateWrite, hi, Inval.gated, InvalPc.returned]

theorem gateWrite_of_wipe {i : I} {seq : ℕ} {rest : List (Wipe N)}
    (hf : S.Fits (.inval i (.wipe seq rest))) : S.gateWrite (.inval i (.wipe seq rest)) = true := by
  obtain ⟨⟨refs, hi⟩, -⟩ := hf
  simp [gateWrite, hi, Inval.gated, InvalPc.returned]

theorem mem_flatten_take_succ {groups : List (List N)} {n : ℕ} {names : List N}
    (h : groups[n]? = some names) {x : N} :
    x ∈ (groups.take (n + 1)).flatten ↔ x ∈ (groups.take n).flatten ∨ x ∈ names := by
  rw [List.take_add_one, h]
  simp

theorem flatten_take_of_getElem? {groups : List (List N)} {n : ℕ} (h : groups[n]? = none) :
    groups.take n = groups :=
  List.take_of_length_le (by simpa using h)

end

variable [DecidableEq K] [DecidableEq N]

/-! ### What is indexed -/

/-- The index finds `k` under `x` on behalf of generation `g`, or somebody is at work on it. -/
inductive Found (s : S.State) (k : K) (g : ℕ) (x : N) : Prop where
  | indexed (h : genAt s.mem.index x k = some g)
  | newer {t : ℕ} {a : A} {g' n : ℕ} (ht : s.threads t = .insert a (.index g' n))
      (hk : (S.insert a).key = k) (h : genAt s.mem.index x k = some g')
  | pruned {t : ℕ} {slot : Slot N} {n : ℕ} (ht : s.threads t = .listen k slot n)
      (hg : slot.generation = g) (hx : x ∈ (slot.groups.take n).flatten)
  | removing {t : ℕ} (ht : S.Removes (s.threads t) k)

structure Indexed (s : S.State) : Prop where
  fits : ∀ t, S.Fits (s.threads t)
  wiped : ∀ {t i seq rest}, s.threads t = .inval i (.wipe seq rest) →
    ∀ {k e}, s.mem.front.lookup k = some e → .front (S.shardOf k) ∈ rest
  inserting : ∀ {t a g n}, s.threads t = .insert a (.index g n) →
    ∀ x ∈ ((S.insert a).groups.take n).flatten, genAt s.mem.index x (S.insert a).key = some g
  front : ∀ {k e a}, s.mem.front.lookup k = some e → s.mem.landed e.generation = some a →
    ∀ x ∈ (S.insert a).names, S.Found s k e.generation x

variable {S} [DecidableEq R]

/-! ### One move -/

section
variable {m m' : Mem K N R B A I} {c c' : Thread K N R A I}

theorem Fits.move (hf : S.Fits c) (h : S.Move m c m' c') : S.Fits c' := by
  cases h with
  | scan hi => exact ⟨_, _, hi⟩
  | collect hi _ =>
      refine ⟨⟨_, _, hi⟩, fun k hk => ?_⟩
      simp only [hits, List.mem_filter, Bool.and_eq_true, beq_iff_eq] at hk
      exact hk.2.1
  | scanMoka => exact hf
  | scanFront => exact ⟨hf.1, fun k hk => hf.2 k (List.mem_cons_of_mem _ hk)⟩
  | nextShard => exact hf.1
  | clear hi => exact ⟨⟨_, hi⟩, List.suffix_rfl⟩
  | wipe => exact ⟨hf.1, (List.suffix_cons _ _).trans hf.2⟩
  | _ => trivial

/-- What a thread has still to remove, it keeps or removes. -/
theorem Removes.move (h : S.Move m c m' c') {k : K} (hr : S.Removes c k) :
    S.Removes c' k ∨ m'.front.lookup k = none := by
  obtain ⟨hgate, i, pc, rfl, hp⟩ := hr
  cases h with
  | removeMoka =>
      refine .inl ⟨hgate, _, _, rfl, ?_⟩
      simpa [Pending] using hp
  | removeFront =>
      rcases hp with rfl | hp
      · exact .inr (by simp [Mem.unfront])
      · exact .inl ⟨hgate, _, _, rfl, hp⟩
  | removed => simp [Pending] at hp
  | @wipe _ seq w rest =>
      rcases List.mem_cons.mp hp with hw | hp
      · subst hw
        exact .inr (by simp [Mem.wipe, Map.lookup_restrict])
      · exact .inl ⟨hgate, _, _, rfl, hp⟩
  | wiped => simp [Pending] at hp
  | _ => exact hp.elim

end

/-! ### One step -/

section
variable {s s' : S.State} {t : ℕ}

/-- While an insert has indexed a name, the name stays at its generation. -/
theorem Indexed.genAt_inserting (hx : S.Indexed s) (hg : S.Gens s)
    (he : Pool.Exclusive S.conflict s) (h : S.Step s t s') {u : ℕ} {a : A} {g n : ℕ} {x : N}
    (hu : s.threads u = .insert a (.index g n))
    (h₀ : genAt s.mem.index x (S.insert a).key = some g) :
    genAt s'.mem.index x (S.insert a).key = some g := by
  obtain ⟨hm, -⟩ := h
  have hgate : ∀ v, S.gateWrite (s.threads v) = false := fun v =>
    not_gateWrite he hu (by rw [hu]; rfl)
  rcases hm.genAt_cases x (S.insert a).key with e | ⟨b, g', n', names, hc, -, -, -, hk, e⟩ |
    ⟨slot, n', names, hc, -, -, -, e, -⟩ | ⟨i, seq, names, keep, refs, keys, hc, hi, -⟩ |
    ⟨i, seq, sel, rest, hc, -⟩
  · exact e.trans h₀
  · -- the indexing thread holds the key's stripe, so it is `u`
    have hut : u = t := by
      by_contra hut
      refine he u t hut (.inr (.inr ⟨S.shardOf (S.insert a).key, ?_, ?_⟩))
      · rw [hu]; rfl
      · rw [hc, ← hk]; rfl
    subst hut
    rw [hu] at hc
    cases hc
    exact e
  · -- a generation still being inserted was never dropped
    have hgen : slot.generation = g := by rw [h₀] at e; simpa using e.symm
    exact absurd hgen (hg.inserting_not_spent (.of_index hu) (.inr ⟨t, by rw [hc]; exact .mk ..⟩))
  · have := hgate t
    rw [hc, gateWrite_of_indexed hi] at this
    cases this
  · have := hgate t
    have hf := hx.fits t
    rw [hc] at hf this
    rw [gateWrite_of_wipe hf] at this
    cases this

/-- Someone found at work on a name stays so, until the entry is gone. -/
theorem Found.step (hx : S.Indexed s) (hg : S.Gens s) (he : Pool.Exclusive S.conflict s)
    (h : S.Step s t s') {k : K} {e : FrontEntry B} {x : N} (hold : s.mem.front.lookup k = some e)
    (hnew : s'.mem.front.lookup k = some e) (hf : S.Found s k e.generation x) :
    S.Found s' k e.generation x := by
  obtain ⟨hm, free⟩ := id h
  cases hf with
  | indexed h₀ =>
      rcases hm.genAt_cases x k with e' | ⟨a, g, n, names, hc, hc', -, -, hk, e'⟩ |
        ⟨slot, n, names, hc, hc', hn, hxn, e', -⟩ |
        ⟨i, seq, names, keep, refs, keys, hc, hi, -, -, hc', hkeys, -⟩ |
        ⟨i, seq, sel, rest, hc, hc', -⟩
      · exact .indexed (e'.trans h₀)
      · exact .newer (by rw [Pool.set_self]; exact hc') hk e'
      · refine .pruned (t := t) (by rw [Pool.set_self]; exact hc') ?_ ?_
        · rw [h₀] at e'; simpa using e'.symm
        · exact (mem_flatten_take_succ hn).mpr (.inr hxn)
      · refine .removing (t := t) ⟨?_, i, _, by rw [Pool.set_self]; exact hc', ?_⟩
        · rw [Pool.set_self, hc']
          simp [gateWrite, hi, Inval.gated, InvalPc.returned]
        · exact hkeys (by rw [h₀]; rfl)
      · have hfits := hx.fits t
        rw [hc] at hfits
        refine .removing (t := t) ⟨?_, i, _, by rw [Pool.set_self]; exact hc', ?_⟩
        · rw [Pool.set_self, hc']
          have hrest : S.Fits (.inval i (.wipe seq rest)) :=
            ⟨hfits.1, (List.suffix_cons _ _).trans hfits.2⟩
          exact gateWrite_of_wipe hrest
        · simpa [Pending] using hx.wiped hc hold
  | @newer u a g' n hu hk h₀ =>
      subst hk
      have h₁ := hx.genAt_inserting hg he h hu h₀
      by_cases hut : u = t
      · subst hut
        rw [hu] at hm
        cases hm with
        | index hn => exact .newer (t := u) (by rw [Pool.set_self]) rfl h₁
        | front hn =>
            -- the entry now in the front is this insert's
            simp only [Pool.set_mem, Mem.putFront, AList.lookup_insert, Option.some.injEq] at hnew
            subst hnew
            exact .indexed h₁
      · exact .newer (by rw [Pool.set_other hut]; exact hu) rfl h₁
  | @pruned u slot n hu hgen hxn =>
      by_cases hut : u = t
      · subst hut
        rw [hu] at hm
        cases hm with
        | prune hn =>
            exact .pruned (t := u) (by rw [Pool.set_self]) hgen
              ((mem_flatten_take_succ hn).mpr (.inl hxn))
        | unfront hn =>
            simp [lookup_removeFront, hold, hgen] at hnew
      · exact .pruned (by rw [Pool.set_other hut]; exact hu) hgen hxn
  | @removing u hr =>
      by_cases hut : u = t
      · subst hut
        rcases hr.move hm with hr | hnone
        · exact .removing (t := u) (by rw [Pool.set_self]; exact hr)
        · rw [Pool.set_mem, hnone] at hnew; cases hnew
      · exact .removing (by rw [Pool.set_other hut]; exact hr)

theorem Indexed.step (hx : S.Indexed s) (hg : S.Gens s) (he : Pool.Exclusive S.conflict s)
    (h : S.Step s t s') : S.Indexed s' := by
  obtain ⟨hm, free⟩ := id h
  constructor
  case fits =>
    intro u
    by_cases e : u = t
    · subst e; rw [Pool.set_self]; exact (hx.fits u).move hm
    · rw [Pool.set_other e]; exact hx.fits u
  case wiped =>
    intro u i seq rest hu k e hk
    by_cases hut : u = t
    · subst hut
      rw [Pool.set_self] at hu
      subst hu
      rcases hm.of_wipe with ⟨rfl, rfl, -⟩ | ⟨w, hc, rfl⟩
      · exact S.wipe_front _ (S.shardOf_lt k)
      · cases w with
        | front n =>
            simp only [Pool.set_mem, Mem.wipe, Map.lookup_restrict] at hk
            split at hk
            · next hn => simpa [show S.shardOf k ≠ n by simpa using hn] using hx.wiped hc hk
            · cases hk
        | _ => simpa using hx.wiped hc hk
    · rw [Pool.set_other hut] at hu
      rcases hm.front_cases hk with hold | ⟨a, n, hc, -⟩
      · exact hx.wiped hu hold
      · -- no insert writes the front while a clear holds the gate
        have hw := not_gateWrite he hc (by rw [hc]; rfl) (v := u)
        rw [hu, gateWrite_of_wipe (hu ▸ hx.fits u)] at hw
        cases hw
  case inserting =>
    intro u a g n hu x hxn
    by_cases hut : u = t
    · subst hut
      rw [Pool.set_self] at hu
      subst hu
      rcases hm.of_index with rfl | ⟨n', names, rfl, hc, hn, hidx⟩
      · simp at hxn
      · simp only [Pool.set_mem, hidx, genAt_indexTags, and_true]
        rcases (mem_flatten_take_succ hn).mp hxn with hxn | hxn
        · split
          · rfl
          · exact hx.inserting hc x hxn
        · simp [hxn]
    · rw [Pool.set_other hut] at hu
      exact hx.genAt_inserting hg he h hu (hx.inserting hu x hxn)
  case front =>
    intro k e a hk hl x hxa
    rcases hm.front_cases hk with hold | ⟨b, n, hc, hn, hc', hkey, -⟩
    · obtain ⟨a', ha', -⟩ := hg.front hold
      have haa : a' = a := by
        have := (landed_mono hg h ha').symm.trans hl
        simpa using this
      subst haa
      exact (hx.front hold ha' x hxa).step hx hg he h hold hk
    · -- the entry is new: its insert has indexed every group
      have hb := landed_mono hg h (hg.inserting (.of_index hc))
      have hab : b = a := by simpa using hb.symm.trans hl
      subst hab hkey
      refine .indexed (hx.genAt_inserting hg he h hc (hx.inserting hc x ?_))
      rw [flatten_take_of_getElem? hn]
      exact hxa

omit [DecidableEq R] in
theorem Indexed.init (h : S.Init s) : S.Indexed s := by
  obtain ⟨hm, ht⟩ := h
  refine ⟨fun t => ?_, ?_, ?_, ?_⟩
  · rw [ht]; trivial
  · intro t i seq rest h; rw [ht] at h; cases h
  · intro t a g n h; rw [ht] at h; cases h
  · intro k e a h; simp [hm, Mem.init] at h

omit [DecidableEq N] [DecidableEq R] in
theorem Gens.init (h : S.Init s) : S.Gens s := by
  obtain ⟨hm, ht⟩ := h
  have hi : ∀ t a g, ¬ Inserting (s.threads t) a g := fun t a g h => by rw [ht] at h; cases h
  have hs : ∀ k slot, ¬ S.Spent s k slot := by
    rintro k slot (h | ⟨t, h⟩)
    · simp [hm, Mem.init] at h
    · rw [ht] at h; cases h
  refine ⟨?_, ?_, ?_, fun h => (hs _ _ h).elim, fun h => (hi _ _ _ h).elim, ?_,
    fun h => (hi _ _ _ h).elim, fun h => (hi _ _ _ h).elim⟩
  · intro g a h; simp [hm, Mem.init] at h
  · intro k e h; simp [hm, Mem.init] at h
  · intro k slot h; simp [hm, Mem.init] at h
  · intro k slot k' slot' h; simp [hm, Mem.init] at h

omit [DecidableEq K] [DecidableEq N] [DecidableEq R] in
theorem exclusive_init (h : S.Init s) : Pool.Exclusive S.conflict s := by
  intro u v _ hc
  rw [h.2 u, h.2 v] at hc
  rcases hc with ⟨h, -⟩ | ⟨h, -⟩ | ⟨n, h, -⟩ <;> cases h

end

/-- What holds in every reached state, whatever the steps. -/
structure Ordered (S : Store K N R B A I) (s : S.State) : Prop where
  exclusive : Pool.Exclusive S.conflict s
  gens : S.Gens s
  indexed : S.Indexed s

theorem Ordered.step {s s' : S.State} {t : ℕ} (h : S.Ordered s) (hs : S.Step s t s') :
    S.Ordered s' where
  exclusive := hs.exclusive (fun _ _ => S.conflict_symm) h.exclusive
  gens := h.gens.step h.exclusive hs
  indexed := h.indexed.step h.gens h.exclusive hs

/-- **Every reached state is ordered.** -/
theorem ordered {ok : S.State → ℕ → Prop} {s : S.State} (r : Reach S.Init S.Step ok s) :
    S.Ordered s :=
  r.inv (fun _ h => ⟨exclusive_init h, .init h, .init h⟩) fun _ _ _ h hs _ => h.step hs

end Store

end Brust.Cache
