import Brust.Cache.Indexed
import Mathlib.Order.Basic

/-!
# Cache — freshness

An invalidation that outdates a served entry is still at work on it: it has not yet read the index
or the entry's shard, or it has the key in hand (`Owes`).  That is the invariant `Fresh`, and it
holds whichever of the two critical sections ran first: an insert at its check sees the published
slot, or the invalidation that publishes after the check reads the index or the shard after the
insert has landed.

The listener breaks it.  It prunes the index and drops the front entry in two sections, and an
invalidation that takes the index between the two finds nothing and returns, the entry still
served.  So the step lemma asks that no invalidation takes the index there (`TakesWhole`), and
`fresh` is about the runs whose steps all meet that.
-/

namespace Brust.Cache

open TagIndex

variable {K N R B A I : Type}

namespace Store

variable (S : Store K N R B A I)

/-- A thread inside invalidation `(i, seq)` that has still to look for `k`, or to remove it. -/
def Owes (c : Thread K N R A I) (i : I) (seq : ℕ) (k : K) : Prop :=
  match c with
  | .inval j (.publish q _) => j = i ∧ q = seq
  | .inval j (.remove q _ keys) => j = i ∧ q = seq ∧ k ∈ keys
  | .inval j (.removeFront q _ k' keys) => j = i ∧ q = seq ∧ (k = k' ∨ k ∈ keys)
  | .inval j (.scan q _ _ shard) => j = i ∧ q = seq ∧ shard ≤ S.shardOf k
  | .inval j (.scanMoka q _ _ shard keys) => j = i ∧ q = seq ∧ (k ∈ keys ∨ shard < S.shardOf k)
  | .inval j (.scanFront q _ _ shard k' keys) =>
      j = i ∧ q = seq ∧ (k = k' ∨ k ∈ keys ∨ shard < S.shardOf k)
  | .inval j (.wipe q rest) => j = i ∧ q = seq ∧ .front (S.shardOf k) ∈ rest
  | _ => False

def Owed (s : S.State) (i : I) (seq : ℕ) (k : K) : Prop := ∃ t, S.Owes (s.threads t) i seq k

variable {S}

theorem Owes.running {c : Thread K N R A I} {i : I} {seq : ℕ} {k : K} (h : S.Owes c i seq k) :
    ∃ pc, c = .inval i pc ∧ pc.seq = some seq := by
  unfold Owes at h
  split at h
  case h_8 => exact h.elim
  all_goals
    obtain ⟨rfl, h⟩ := h
    first
      | exact ⟨_, rfl, congrArg some h⟩
      | exact ⟨_, rfl, congrArg some h.1⟩

/-- What an invalidation owes is lost to no return. -/
theorem Owed.not_returned {s : S.State} {i : I} {seq : ℕ} {k : K} (h : S.Owed s i seq k) :
    ¬ S.Returned s i seq := by
  rintro ⟨-, hr⟩
  obtain ⟨t, ht⟩ := h
  obtain ⟨pc, hc, hq⟩ := ht.running
  exact hr t pc hc hq

variable [DecidableEq K]

/-- Thread `t` does not take the index while the listener is between pruning one of its names and
dropping the front entry of the value it prunes. -/
def TakesWhole (s : S.State) (t : ℕ) : Prop :=
  ∀ i seq names keep refs, s.threads t = .inval i (.publish seq []) →
    S.inval i = .indexed names keep refs → ∀ u k slot n x, s.threads u = .listen k slot n →
    x ∈ names → x ∈ (slot.groups.take n).flatten → keeps keep k = true →
    ∀ e, s.mem.front.lookup k = some e → e.generation ≠ slot.generation

variable [DecidableEq N] [DecidableEq R]

structure Fresh (s : S.State) : Prop where
  slots : ∀ {i seq r}, (i, seq) ∈ s.mem.issued → r ∈ (S.inval i).refs →
    seq ≤ s.mem.slots r ∨ ∃ t rest, s.threads t = .inval i (.publish seq rest) ∧ r ∈ rest
  checking : ∀ {t a rest i seq}, s.threads t = .insert a (.check rest) → (i, seq) ∈ s.mem.issued →
    (S.inval i).outdates (S.insert a) → (S.insert a).since < seq →
    S.Owed s i seq (S.insert a).key ∨ ∃ r ∈ rest, seq ≤ s.mem.slots r
  inserting : ∀ {t a g i seq}, Inserting (s.threads t) a g → (i, seq) ∈ s.mem.issued →
    (S.inval i).outdates (S.insert a) → (S.insert a).since < seq → S.Owed s i seq (S.insert a).key
  front : ∀ {k e a i seq}, s.mem.front.lookup k = some e → s.mem.landed e.generation = some a →
    (i, seq) ∈ s.mem.issued → (S.inval i).outdates (S.insert a) → (S.insert a).since < seq →
    S.Owed s i seq k

/-! ### One move -/

/-- A move of the thread that owes `k` goes on owing it; or it removes `k` under a lock that keeps
`k`'s inserts out; or it reads the index, or `k`'s shard, and does not find `k`. -/
theorem Owes.move {m m' : Mem K N R B A I} {c c' : Thread K N R A I} (hf : S.Fits c)
    (h : S.Move m c m' c') {i : I} {seq : ℕ} {k : K} (ho : S.Owes c i seq k) :
    S.Owes c' i seq k ∨
    (m'.front.lookup k = none ∧
      (S.gateWrite c = true ∨ S.stripe c = some (S.shardOf k))) ∨
    (∃ names keep refs, c = .inval i (.publish seq []) ∧ S.inval i = .indexed names keep refs ∧
      (keeps keep k = true → ∀ x ∈ names, genAt m.index x k = none)) ∨
    (∃ hit refs, S.inval i = .scan hit refs ∧ S.stripe c' = some (S.shardOf k) ∧
      (hit k = true → m.front.lookup k = none)) := by
  cases h with
  | publish => exact .inl ho
  | @take i' seq' names keep refs hi =>
      obtain ⟨rfl, rfl⟩ := ho
      by_cases hk : k ∈ (take m.index names keep).2
      · exact .inl ⟨rfl, rfl, hk⟩
      · refine .inr (.inr (.inl ⟨names, keep, refs, rfl, hi, fun hkeep x hx => ?_⟩))
        by_contra hne
        exact hk ((mem_take ..).mpr ⟨hkeep, x, hx, Option.isSome_iff_ne_none.mpr hne⟩)
  | removeMoka =>
      obtain ⟨rfl, rfl, hk⟩ := ho
      exact .inl ⟨rfl, rfl, List.mem_cons.mp hk⟩
  | removeFront =>
      obtain ⟨rfl, rfl, rfl | hk⟩ := ho
      · exact .inr (.inl ⟨by simp [Mem.unfront], .inr rfl⟩)
      · exact .inl ⟨rfl, rfl, hk⟩
  | removed => exact absurd ho.2.2 List.not_mem_nil
  | scan => exact .inl ⟨ho.1, ho.2, Nat.zero_le _⟩
  | @collect i' seq' now live shard hit refs hi hs =>
      obtain ⟨rfl, rfl, hle⟩ := ho
      rcases Nat.lt_or_eq_of_le hle with hlt | rfl
      · exact .inl ⟨rfl, rfl, .inr hlt⟩
      by_cases hk : k ∈ S.hits m hit (S.shardOf k)
      · exact .inl ⟨rfl, rfl, .inl hk⟩
      · refine .inr (.inr (.inr ⟨hit, refs, hi, rfl, fun hhit => ?_⟩))
        refine Map.lookup_of_notMem_keys fun hmem => hk ?_
        simp [hits, hmem, hhit]
  | scanMoka =>
      obtain ⟨rfl, rfl, hk⟩ := ho
      refine .inl ⟨rfl, rfl, ?_⟩
      simpa [or_assoc] using hk
  | scanFront =>
      obtain ⟨rfl, rfl, rfl | hk⟩ := ho
      · exact .inr (.inl ⟨by simp [Mem.unfront],
          .inr (congrArg some (hf.2 _ List.mem_cons_self).symm)⟩)
      · exact .inl ⟨rfl, rfl, hk⟩
  | nextShard =>
      obtain ⟨rfl, rfl, hk⟩ := ho
      exact .inl ⟨rfl, rfl, hk.resolve_left List.not_mem_nil⟩
  | scanned hs =>
      have := S.shardOf_lt k
      have := ho.2.2
      omega
  | clear => exact .inl ⟨ho.1, ho.2, S.wipe_front _ (S.shardOf_lt k)⟩
  | @wipe _ _ w rest =>
      obtain ⟨rfl, rfl, hw⟩ := ho
      rcases List.mem_cons.mp hw with rfl | hw
      · exact .inr (.inl ⟨by simp [Mem.wipe, Map.lookup_restrict], .inl (gateWrite_of_wipe hf)⟩)
      · exact .inl ⟨rfl, rfl, hw⟩
  | wiped => exact absurd ho.2.2 List.not_mem_nil
  | _ => exact ho.elim

/-! ### One step -/

section
variable {s s' : S.State} {t : ℕ}

/-- What is owed to a key stays owed while one of its inserts holds the gate and the stripe. -/
theorem Owed.step_insert (hs : S.Ordered s) (h : S.Step s t s') {i : I} {seq : ℕ} {u : ℕ} {a : A}
    (hu : gateRead (s.threads u) = true)
    (hstripe : S.stripe (s.threads u) = some (S.shardOf (S.insert a).key))
    (ho : S.Owed s i seq (S.insert a).key) : S.Owed s' i seq (S.insert a).key := by
  obtain ⟨hm, free⟩ := h
  obtain ⟨v, hv⟩ := ho
  by_cases hvt : v = t
  · subst hvt
    have huv : u ≠ v := by
      rintro rfl
      obtain ⟨pc, hc, -⟩ := hv.running
      rw [hc] at hu; cases hu
    have hex := hs.exclusive v u (Ne.symm huv)
    have hgate : S.gateWrite (s.threads v) ≠ true := fun hw => hex (.inl ⟨hw, .inr hu⟩)
    rcases hv.move (hs.indexed.fits v) hm with hv | ⟨-, hw | hst⟩ | ⟨names, keep, refs, hc, hi, -⟩ |
      ⟨hit, refs, -, hst, -⟩
    · exact ⟨v, by rwa [Pool.set_self]⟩
    · exact absurd hw hgate
    · exact absurd (.inr (.inr ⟨_, hst, hstripe⟩)) hex
    · exact absurd (hc ▸ gateWrite_of_indexed hi) hgate
    · exact absurd (.inr (.inr ⟨_, hst, hstripe⟩)) (free u huv)
  · exact ⟨v, by rwa [Pool.set_other hvt]⟩

/-- What is owed to a key of the front stays owed, or the entry goes. -/
theorem Owed.step_front (hs : S.Ordered s) (h : S.Step s t s') (hok : S.TakesWhole s t) {i : I}
    {seq : ℕ} {k : K} {e : FrontEntry B} {a : A} (hold : s.mem.front.lookup k = some e)
    (hnew : s'.mem.front.lookup k = some e) (hl : s.mem.landed e.generation = some a)
    (hout : (S.inval i).finds (S.insert a)) (ho : S.Owed s i seq k) : S.Owed s' i seq k := by
  obtain ⟨hm, free⟩ := h
  obtain ⟨v, hv⟩ := ho
  by_cases hvt : v = t
  swap
  · exact ⟨v, by rwa [Pool.set_other hvt]⟩
  subst hvt
  have hkey : (S.insert a).key = k := by
    obtain ⟨a', ha', hk, -⟩ := hs.gens.front hold
    rw [hl] at ha'; cases ha'; exact hk
  rcases hv.move (hs.indexed.fits v) hm with hv | ⟨hnone, -⟩ | ⟨names, keep, refs, hc, hi, hmiss⟩ |
    ⟨hit, refs, hi, -, hmiss⟩
  · exact ⟨v, by rwa [Pool.set_self]⟩
  · rw [Pool.set_mem, hnone] at hnew; cases hnew
  · rw [hi] at hout
    obtain ⟨⟨x, hx, hxa⟩, hkeep⟩ := hout
    rw [hkey] at hkeep
    have hx₀ := hmiss hkeep x hx
    cases hs.indexed.front hold hl x hxa with
    | indexed h => rw [hx₀] at h; cases h
    | newer _ _ h => rw [hx₀] at h; cases h
    | pruned hu hg hxn =>
        exact absurd hg.symm (hok i seq names keep refs hc hi _ _ _ _ x hu hx hxn hkeep e hold)
    | @removing u hr =>
        exfalso
        by_cases huv : u = v
        · subst huv
          obtain ⟨-, j, pc, hj, hp⟩ := hr
          rw [hc] at hj; cases hj; exact hp
        · exact hs.exclusive v u (Ne.symm huv) (.inl ⟨hc ▸ gateWrite_of_indexed hi, .inl hr.1⟩)
  · rw [hi] at hout
    have := hmiss (hkey ▸ hout)
    rw [hold] at this; cases this

/-- An invalidation issued by a step is at its first slot. -/
theorem issued_step (h : S.Step s t s') {i : I} {seq : ℕ} (hi : (i, seq) ∈ s'.mem.issued) :
    (i, seq) ∈ s.mem.issued ∨ s'.threads t = .inval i (.publish seq (S.inval i).refs) := by
  obtain ⟨hm, -⟩ := h
  rcases hm.issued_cases with ⟨e, -⟩ | ⟨j, -, e, -, hc'⟩
  · exact .inl (by simpa [e] using hi)
  · simp only [Pool.set_mem, e, List.mem_cons] at hi
    rcases hi with hi | hi
    · cases hi; exact .inr (by rw [Pool.set_self]; exact hc')
    · exact .inl hi

theorem slots_step (h : S.Step s t s') (r : R) : s.mem.slots r ≤ s'.mem.slots r := by
  obtain ⟨hm, -⟩ := h
  exact hm.slots_le r

/-- What is owed stays owed through a step of another thread. -/
theorem Owed.step_other (h : S.Step s t s') {i : I} {seq : ℕ} {k : K}
    (ht : ¬ S.Owes (s.threads t) i seq k) (ho : S.Owed s i seq k) : S.Owed s' i seq k := by
  obtain ⟨hm, -⟩ := h
  obtain ⟨v, hv⟩ := ho
  have hvt : v ≠ t := by rintro rfl; exact ht hv
  exact ⟨v, by rwa [Pool.set_other hvt]⟩

theorem Fresh.slots_step (hf : S.Fresh s) (h : S.Step s t s') {i : I} {seq : ℕ} {r : R}
    (hi : (i, seq) ∈ s'.mem.issued) (hr : r ∈ (S.inval i).refs) :
    seq ≤ s'.mem.slots r ∨ ∃ u rest, s'.threads u = .inval i (.publish seq rest) ∧ r ∈ rest := by
  rcases issued_step h hi with hi | hc
  swap
  · exact .inr ⟨t, _, hc, hr⟩
  rcases hf.slots hi hr with hle | ⟨u, rest, hu, hrest⟩
  · exact .inl (hle.trans (Store.slots_step h r))
  · obtain ⟨hm, -⟩ := h
    by_cases hut : u = t
    · subst hut
      rw [hu] at hm
      rcases hm.publish_cases hrest with hle | ⟨rest', hc', hr'⟩
      · exact .inl hle
      · exact .inr ⟨u, rest', by rw [Pool.set_self]; exact hc', hr'⟩
    · exact .inr ⟨u, rest, by rw [Pool.set_other hut]; exact hu, hrest⟩

/-- An insert at its checks sees every outdating invalidation that is no longer at work on it. -/
theorem Fresh.checking_step (hf : S.Fresh s) (hs : S.Ordered s) (h : S.Step s t s') {u : ℕ} {a : A}
    {rest : List R} {i : I} {seq : ℕ} (hu : s'.threads u = .insert a (.check rest))
    (hi : (i, seq) ∈ s.mem.issued) (hout : (S.inval i).outdates (S.insert a))
    (hlt : (S.insert a).since < seq) :
    S.Owed s' i seq (S.insert a).key ∨ ∃ r ∈ rest, seq ≤ s'.mem.slots r := by
  obtain ⟨hm, free⟩ := id h
  by_cases hut : u = t
  swap
  · rw [Pool.set_other hut] at hu
    rcases hf.checking hu hi hout hlt with ho | ⟨r, hr, hle⟩
    · exact .inl (ho.step_insert hs h (by rw [hu]; rfl) (by rw [hu]; rfl))
    · exact .inr ⟨r, hr, hle.trans (Store.slots_step h r)⟩
  subst hut
  rw [Pool.set_self] at hu
  subst hu
  rcases hm.of_check with ⟨rfl, ⟨hc, rfl⟩ | ⟨r, hc, hpass⟩⟩
  · -- its slots are all to be loaded: the shared one is published, or about to be
    obtain ⟨-, r, hri, hra⟩ := hout
    rcases hf.slots hi hri with hle | ⟨v, rest, hv, -⟩
    · exact .inr ⟨r, hra, hle⟩
    · exact .inl (Owed.step_other h (by rw [hc]; exact id) ⟨v, by rw [hv]; exact ⟨rfl, rfl⟩⟩)
  · rcases hf.checking hc hi hout hlt with ho | ⟨r', hr', hle⟩
    · exact .inl (ho.step_other h (by rw [hc]; exact id))
    · rcases List.mem_cons.mp hr' with rfl | hr'
      · omega
      · exact .inr ⟨r', hr', hle⟩

theorem Fresh.inserting_step (hf : S.Fresh s) (hs : S.Ordered s) (h : S.Step s t s') {u : ℕ} {a : A}
    {g : ℕ} {i : I} {seq : ℕ} (hu : Inserting (s'.threads u) a g)
    (hi : (i, seq) ∈ s.mem.issued) (hout : (S.inval i).outdates (S.insert a))
    (hlt : (S.insert a).since < seq) : S.Owed s' i seq (S.insert a).key := by
  rcases Store.inserting_step h hu with hu | ⟨rfl, hc, -, -⟩
  · exact (hf.inserting hu hi hout hlt).step_insert hs h hu.gateRead hu.stripe
  · rcases hf.checking hc hi hout hlt with ho | ⟨r, hr, -⟩
    · exact ho.step_other h (by rw [hc]; exact id)
    · cases hr

theorem Fresh.front_step (hf : S.Fresh s) (hs : S.Ordered s) (h : S.Step s t s')
    (hok : S.TakesWhole s t) {k : K} {e : FrontEntry B} {a : A} {i : I} {seq : ℕ}
    (hk : s'.mem.front.lookup k = some e) (hl : s'.mem.landed e.generation = some a)
    (hi : (i, seq) ∈ s.mem.issued) (hout : (S.inval i).outdates (S.insert a))
    (hlt : (S.insert a).since < seq) : S.Owed s' i seq k := by
  obtain ⟨hm, -⟩ := id h
  rcases hm.front_cases hk with hold | ⟨b, n, hc, -, -, rfl, -⟩
  · obtain ⟨b, hb, -⟩ := hs.gens.front hold
    have hab : b = a := by simpa using (landed_mono hs.gens h hb).symm.trans hl
    subst hab
    exact (hf.front hold hb hi hout hlt).step_front hs h hok hold hk hb hout.1
  · have hins : Inserting (s.threads t) b e.generation := .of_index hc
    have hab : b = a := by
      simpa using (landed_mono hs.gens h (hs.gens.inserting hins)).symm.trans hl
    subst hab
    exact (hf.inserting hins hi hout hlt).step_other h (by rw [hc]; exact id)

theorem Fresh.step (hf : S.Fresh s) (hs : S.Ordered s) (h : S.Step s t s')
    (hok : S.TakesWhole s t) : S.Fresh s' := by
  have hpub : ∀ {i seq k}, s'.threads t = .inval i (.publish seq (S.inval i).refs) →
      S.Owed s' i seq k := fun hc => ⟨t, by rw [hc]; exact ⟨rfl, rfl⟩⟩
  constructor
  case slots => exact fun hi hr => hf.slots_step h hi hr
  case checking =>
    intro u a rest i seq hu hi hout hlt
    rcases issued_step h hi with hi | hc
    · exact hf.checking_step hs h hu hi hout hlt
    · exact .inl (hpub hc)
  case inserting =>
    intro u a g i seq hu hi hout hlt
    rcases issued_step h hi with hi | hc
    · exact hf.inserting_step hs h hu hi hout hlt
    · exact hpub hc
  case front =>
    intro k e a i seq hk hl hi hout hlt
    rcases issued_step h hi with hi | hc
    · exact hf.front_step hs h hok hk hl hi hout hlt
    · exact hpub hc

omit [DecidableEq N] [DecidableEq R] in
theorem Fresh.init (h : S.Init s) : S.Fresh s := by
  obtain ⟨hm, ht⟩ := h
  have hi : ∀ i seq, (i, seq) ∉ s.mem.issued := fun i seq h => by simp [hm, Mem.init] at h
  exact ⟨fun h => (hi _ _ h).elim, fun _ h => (hi _ _ h).elim, fun _ h => (hi _ _ h).elim,
    fun _ _ h => (hi _ _ h).elim⟩

end

/-- **An outdated entry of the front is still owed to an invalidation at work.** -/
theorem fresh {s : S.State} (r : Reach S.Init S.Step S.TakesWhole s) : S.Fresh s := by
  induction r with
  | init h => exact .init h
  | step r h hok ih => exact ih.step (ordered r) h hok

/-- **What `get` serves is fresh.**  The entry is that of one insert, and no invalidation that
outdates the insert, and took its clock value after the insert's stamp, has returned. -/
theorem get_fresh {s : S.State} (r : Reach S.Init S.Step S.TakesWhole s) {k : K}
    {e : FrontEntry B} (h : s.mem.served k = some e) :
    ∃ a, s.mem.landed e.generation = some a ∧ (S.insert a).key = k ∧ (S.insert a).body = e.body ∧
      ∀ i seq, S.Returned s i seq → (S.inval i).outdates (S.insert a) →
        seq ≤ (S.insert a).since := by
  have hk : s.mem.front.lookup k = some e := (Option.filter_eq_some_iff.mp h).1
  obtain ⟨a, ha, hkey, hbody⟩ := (ordered r).gens.front hk
  refine ⟨a, ha, hkey, hbody, fun i seq hret hout => ?_⟩
  by_contra hlt
  exact ((fresh r).front hk ha hret.1 hout (Nat.lt_of_not_le hlt)).not_returned hret

end Store

end Brust.Cache
