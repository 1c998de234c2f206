import Brust.Cache.Front

/-!
# Cache — what a move does

One lemma for each part of the shared memory: how a move can have changed it.  The invariants of
the next modules are proved from these, not from the moves.
-/

namespace Brust.Cache

open TagIndex

variable {K N R B A I : Type} {S : Store K N R B A I}

/-! ### The threads between two moves -/

/-- An insert that has taken generation `g` and not yet written the evicting store. -/
inductive Inserting : Thread K N R A I → A → ℕ → Prop where
  | index (a : A) (g n : ℕ) : Inserting (.insert a (.index g n)) a g
  | moka (a : A) (g : ℕ) : Inserting (.insert a (.moka g)) a g

/-- The listener at work on a dropped value. -/
inductive Listening : Thread K N R A I → K → Slot N → Prop where
  | mk (k : K) (slot : Slot N) (n : ℕ) : Listening (.listen k slot n) k slot

/-- A removal between the evicting store and the front. -/
inductive Holding : Thread K N R A I → K → Prop where
  | remove (i : I) (seq n : ℕ) (k : K) (keys : List K) :
      Holding (.inval i (.removeFront seq n k keys)) k
  | scan (i : I) (seq now live shard : ℕ) (k : K) (keys : List K) :
      Holding (.inval i (.scanFront seq now live shard k keys)) k

theorem Inserting.of_index {c : Thread K N R A I} {a : A} {g n : ℕ}
    (h : c = .insert a (.index g n)) : Inserting c a g := h ▸ .index a g n

theorem Inserting.of_moka {c : Thread K N R A I} {a : A} {g : ℕ}
    (h : c = .insert a (.moka g)) : Inserting c a g := h ▸ .moka a g

theorem Inserting.stripe {c : Thread K N R A I} {a : A} {g : ℕ} (h : Inserting c a g) :
    S.stripe c = some (S.shardOf (S.insert a).key) := by
  cases h <;> rfl

theorem Inserting.gateRead {c : Thread K N R A I} {a : A} {g : ℕ} (h : Inserting c a g) :
    Store.gateRead c = true := by
  cases h <;> rfl

variable [DecidableEq K]

/-! ### Lookups after the memory's operations -/

theorem lookup_removeFront (front : Map K (FrontEntry B)) (key k : K) (g : ℕ) :
    (removeFront front key g).lookup k =
      if k = key ∧ (front.lookup k).any (·.generation == g) = true then none
      else front.lookup k := by
  unfold removeFront
  by_cases hk : k = key
  · subst hk
    by_cases h : (front.lookup k).any (·.generation == g) = true <;> simp [h]
  · split <;> simp [hk]

theorem mem_droppedAt {moka : Map K (Slot N)} {k k' : K} {slot : Slot N} :
    (k', slot) ∈ droppedAt moka k ↔ k' = k ∧ moka.lookup k = some slot := by
  unfold droppedAt
  cases h : moka.lookup k with
  | none => simp
  | some slot' => simp [Prod.ext_iff, eq_comm]

theorem mem_droppedAll {moka : Map K (Slot N)} {k : K} {slot : Slot N} :
    (k, slot) ∈ moka.keys.flatMap (droppedAt moka) ↔ moka.lookup k = some slot := by
  simp only [List.mem_flatMap, mem_droppedAt]
  constructor
  · rintro ⟨k', -, rfl, h⟩; exact h
  · intro h; exact ⟨k, Map.mem_keys_iff.mpr ⟨slot, h⟩, rfl, h⟩

namespace Store.Move

variable [DecidableEq N] [DecidableEq R]
variable {m m' : Mem K N R B A I} {c c' : Thread K N R A I}

/-! ### Clock, slots and history -/

theorem slots_le (h : S.Move m c m' c') (r : R) : m.slots r ≤ m'.slots r := by
  cases h with
  | @publish i seq r' rest =>
      by_cases e : r = r'
      · subst e; simp only [Function.update_self]; exact le_max_left _ _
      · simp only [Function.update_of_ne e]; exact le_refl _
  | wipe => rename_i w _; cases w <;> exact le_refl _
  | _ => exact le_refl _

/-- Only the move that takes a clock value issues an invalidation. -/
theorem issued_cases (h : S.Move m c m' c') :
    (m'.issued = m.issued ∧ m'.clock = m.clock) ∨
      ∃ i, c = .inval i .next ∧ m'.issued = (i, m.clock + 1) :: m.issued ∧
        m'.clock = m.clock + 1 ∧ c' = .inval i (.publish (m.clock + 1) (S.inval i).refs) := by
  cases h with
  | next => exact .inr ⟨_, rfl, rfl, rfl, rfl⟩
  | wipe => rename_i w _; cases w <;> exact .inl ⟨rfl, rfl⟩
  | _ => exact .inl ⟨rfl, rfl⟩

/-- Only the move that passes an insert's last check takes a generation. -/
theorem landed_cases (h : S.Move m c m' c') :
    (m'.landed = m.landed ∧ m'.nextGeneration = m.nextGeneration) ∨
      ∃ a, c = .insert a (.check []) ∧ c' = .insert a (.index m.nextGeneration 0) ∧
        m'.landed = Function.update m.landed m.nextGeneration (some a) ∧
        m'.nextGeneration = m.nextGeneration + 1 := by
  cases h with
  | stamp => exact .inr ⟨_, rfl, rfl, rfl, rfl⟩
  | wipe => rename_i w _; cases w <;> exact .inl ⟨rfl, rfl⟩
  | _ => exact .inl ⟨rfl, rfl⟩

/-! ### The front -/

/-- A front entry was there before the move, unless the move is its insert's front write. -/
theorem front_cases (h : S.Move m c m' c') {k : K} {e : FrontEntry B}
    (he : m'.front.lookup k = some e) :
    m.front.lookup k = some e ∨
      ∃ a n, c = .insert a (.index e.generation n) ∧ (S.insert a).groups[n]? = none ∧
        c' = .insert a (.moka e.generation) ∧ (S.insert a).key = k ∧
          (S.insert a).body = e.body := by
  cases h with
  | unfront =>
      rw [lookup_removeFront] at he
      split at he
      · cases he
      · exact .inl he
  | @front a g n hn =>
      simp only [Mem.putFront, Map.lookup_insert_if] at he
      split at he
      · next hk => cases he; exact .inr ⟨a, n, rfl, hn, rfl, hk.symm, rfl⟩
      · exact .inl he
  | removeFront | scanFront =>
      simp only [Mem.unfront, Map.lookup_erase_if] at he
      split at he
      · cases he
      · exact .inl he
  | @wipe i seq w rest =>
      cases w with
      | front n =>
          simp only [Mem.wipe, Map.lookup_restrict] at he
          split at he
          · exact .inl he
          · cases he
      | _ => exact .inl he
  | _ => exact .inl he

/-- A front entry stays, unless its key is overwritten, its generation is dropped, or its key is
removed under a lock that keeps its inserts out. -/
theorem front_kept (h : S.Move m c m' c') {k : K} {e : FrontEntry B}
    (he : m.front.lookup k = some e) :
    m'.front.lookup k = some e ∨
    (∃ a g n, c = .insert a (.index g n) ∧ c' = .insert a (.moka g) ∧ (S.insert a).key = k) ∨
    (∃ slot n, c = .listen k slot n ∧ slot.generation = e.generation) ∨
    Holding c k ∨
    ∃ i seq rest, c = .inval i (.wipe seq (.front (S.shardOf k) :: rest)) := by
  cases h with
  | @unfront k' slot n hn =>
      by_cases hk : k = k' ∧ slot.generation = e.generation
      · obtain ⟨rfl, hg⟩ := hk
        exact .inr (.inr (.inl ⟨slot, n, rfl, hg⟩))
      · refine .inl ?_
        simp only [lookup_removeFront, he, Option.any_some, beq_iff_eq]
        rw [if_neg fun h => hk ⟨h.1, h.2.symm⟩]
  | @front a g n hn =>
      by_cases hk : (S.insert a).key = k
      · exact .inr (.inl ⟨a, g, n, rfl, rfl, hk⟩)
      · exact .inl (by simp [Mem.putFront, Ne.symm hk, he])
  | @removeFront i seq n k' keys =>
      by_cases hk : k = k'
      · subst hk; exact .inr (.inr (.inr (.inl (.remove ..))))
      · exact .inl (by simp [Mem.unfront, hk, he])
  | @scanFront i seq now live shard k' keys =>
      by_cases hk : k = k'
      · subst hk; exact .inr (.inr (.inr (.inl (.scan ..))))
      · exact .inl (by simp [Mem.unfront, hk, he])
  | @wipe i seq w rest =>
      cases w with
      | front n =>
          by_cases hn : S.shardOf k = n
          · subst hn; exact .inr (.inr (.inr (.inr ⟨i, seq, rest, rfl⟩)))
          · exact .inl (by simp [Mem.wipe, Map.lookup_restrict, hn, he])
      | _ => exact .inl he
  | _ => exact .inl he

/-! ### The index -/

/-- How a key's generation under a name changes: an insert indexes it, the listener prunes it, an
invalidation takes it, or a clear wipes it. -/
theorem genAt_cases (h : S.Move m c m' c') (x : N) (k : K) :
    genAt m'.index x k = genAt m.index x k ∨
    (∃ a g n names, c = .insert a (.index g n) ∧ c' = .insert a (.index g (n + 1)) ∧
      (S.insert a).groups[n]? = some names ∧ x ∈ names ∧ (S.insert a).key = k ∧
      genAt m'.index x k = some g) ∨
    (∃ slot n names, c = .listen k slot n ∧ c' = .listen k slot (n + 1) ∧
      slot.groups[n]? = some names ∧ x ∈ names ∧ genAt m.index x k = some slot.generation ∧
      genAt m'.index x k = none) ∨
    (∃ i seq names keep refs keys, c = .inval i (.publish seq []) ∧
      S.inval i = .indexed names keep refs ∧ x ∈ names ∧ keeps keep k = true ∧
      c' = .inval i (.remove seq keys.length keys) ∧ ((genAt m.index x k).isSome → k ∈ keys) ∧
      genAt m'.index x k = none) ∨
    (∃ i seq sel rest, c = .inval i (.wipe seq (.index sel :: rest)) ∧
      c' = .inval i (.wipe seq rest) ∧ sel x = true ∧ genAt m'.index x k = none) := by
  cases h with
  | @prune k' slot n names hn =>
      by_cases hx : x ∈ names ∧ k = k' ∧ genAt m.index x k = some slot.generation
      · obtain ⟨hx, rfl, hg⟩ := hx
        refine .inr (.inr (.inl ⟨slot, n, names, rfl, rfl, hn, hx, hg, ?_⟩))
        simp [genAt_pruneTags, hx, hg]
      · refine .inl ?_
        simp only [genAt_pruneTags, hx, if_false]
  | @index a g n names hn =>
      by_cases hx : x ∈ names ∧ k = (S.insert a).key
      · obtain ⟨hx, rfl⟩ := hx
        refine .inr (.inl ⟨a, g, n, names, rfl, rfl, hn, hx, rfl, ?_⟩)
        simp [genAt_indexTags, hx]
      · refine .inl ?_
        simp only [genAt_indexTags, hx, if_false]
  | @take i seq names keep refs hi =>
      by_cases hx : x ∈ names ∧ keeps keep k = true
      · refine .inr (.inr (.inr (.inl ⟨i, seq, names, keep, refs, _, rfl, hi, hx.1, hx.2, rfl,
          fun hs => ?_, ?_⟩)))
        · exact (mem_take ..).mpr ⟨hx.2, x, hx.1, hs⟩
        · simp [genAt_take, hx]
      · refine .inl ?_
        simp only [genAt_take, hx, if_false]
  | @wipe i seq w rest =>
      cases w with
      | index sel =>
          by_cases hx : sel x = true
          · refine .inr (.inr (.inr (.inr ⟨i, seq, sel, rest, rfl, rfl, hx, ?_⟩)))
            simp [Mem.wipe, genAt, Map.lookup_restrict, hx]
          · refine .inl ?_
            simp [Mem.wipe, genAt, Map.lookup_restrict, hx]
      | _ => exact .inl rfl
  | _ => exact .inl rfl

/-! ### The evicting store and its listener -/

/-- A held value was held before the move, unless the move is its insert's last write. -/
theorem moka_cases (h : S.Move m c m' c') {k : K} {slot : Slot N}
    (hs : m'.moka.lookup k = some slot) :
    m.moka.lookup k = some slot ∨
      ∃ a, c = .insert a (.moka slot.generation) ∧ c' = .insert a (.done true) ∧
        (S.insert a).key = k ∧ (S.insert a).groups = slot.groups := by
  cases h with
  | evict | removeMoka | scanMoka =>
      simp only [Mem.unmoka, Map.lookup_erase_if] at hs
      split at hs
      · cases hs
      · exact .inl hs
  | @moka a g =>
      simp only [Mem.putMoka, Map.lookup_insert_if] at hs
      split at hs
      · next hk => cases hs; exact .inr ⟨a, rfl, rfl, hk.symm, rfl⟩
      · exact .inl hs
  | @wipe i seq w rest =>
      cases w with
      | moka => simp [Mem.wipe] at hs
      | _ => exact .inl hs
  | _ => exact .inl hs

/-- A value newly dropped was held, and is no longer. -/
theorem dropped_cases (h : S.Move m c m' c') {k : K} {slot : Slot N}
    (hd : (k, slot) ∈ m'.dropped) :
    (k, slot) ∈ m.dropped ∨ (m.moka.lookup k = some slot ∧
      ∀ slot', m'.moka.lookup k = some slot' → ∃ a, c = .insert a (.moka slot'.generation)) := by
  cases h with
  | evict | removeMoka | scanMoka =>
      simp only [Mem.unmoka, List.mem_append, mem_droppedAt] at hd
      rcases hd with ⟨rfl, hd⟩ | hd
      · exact .inr ⟨hd, fun slot' h' => by simp [Mem.unmoka] at h'⟩
      · exact .inl hd
  | @moka a g =>
      simp only [Mem.putMoka, List.mem_append, mem_droppedAt] at hd
      rcases hd with ⟨rfl, hd⟩ | hd
      · refine .inr ⟨hd, fun slot' h' => ⟨a, ?_⟩⟩
        simp only [Mem.putMoka, AList.lookup_insert, Option.some.injEq] at h'
        subst h'; rfl
      · exact .inl hd
  | @wipe i seq w rest =>
      cases w with
      | moka =>
          simp only [Mem.wipe, List.mem_append, mem_droppedAll] at hd
          rcases hd with hd | hd
          · exact .inr ⟨hd, fun slot' h' => by simp [Mem.wipe] at h'⟩
          · exact .inl hd
      | _ => exact .inl hd
  | notify hp =>
      rw [hp]
      simp only [List.mem_append, List.mem_cons] at hd ⊢
      tauto
  | _ => exact .inl hd

/-- A held value is still held after a move, or it is dropped. -/
theorem moka_kept (h : S.Move m c m' c') {k : K} {slot : Slot N}
    (hs : m.moka.lookup k = some slot) :
    m'.moka.lookup k = some slot ∨ (k, slot) ∈ m'.dropped := by
  cases h with
  | @evict k' | @removeMoka _ _ _ k' _ | @scanMoka _ _ _ _ _ k' _ =>
      by_cases e : k = k'
      · subst e; exact .inr (by simp [Mem.unmoka, mem_droppedAt, hs])
      · exact .inl (by simp [Mem.unmoka, e, hs])
  | @moka a g =>
      by_cases e : k = (S.insert a).key
      · exact .inr (List.mem_append_left _ (mem_droppedAt.mpr ⟨e, e ▸ hs⟩))
      · exact .inl (by simp [Mem.putMoka, e, hs])
  | @wipe i seq w rest =>
      cases w with
      | moka => exact .inr (List.mem_append_left _ (mem_droppedAll.mpr hs))
      | _ => exact .inl hs
  | _ => exact .inl hs

/-- A dropped value is owed to the listener until the listener takes it. -/
theorem dropped_kept (h : S.Move m c m' c') {k : K} {slot : Slot N}
    (hd : (k, slot) ∈ m.dropped) :
    (k, slot) ∈ m'.dropped ∨ c' = .listen k slot 0 := by
  cases h with
  | @notify k' slot' pre post hp =>
      rw [hp, List.mem_append, List.mem_cons] at hd
      rcases hd with hd | hd | hd
      · exact .inl (List.mem_append_left _ hd)
      · cases hd; exact .inr rfl
      · exact .inl (List.mem_append_right _ hd)
  | evict | removeMoka | scanMoka | moka => exact .inl (List.mem_append_right _ hd)
  | @wipe i seq w rest =>
      cases w with
      | moka => exact .inl (List.mem_append_right _ hd)
      | _ => exact .inl hd
  | _ => exact .inl hd

/-- A listener at work started on a dropped value. -/
theorem listening_cases (h : S.Move m c m' c') {k : K} {slot : Slot N}
    (hl : Listening c' k slot) : Listening c k slot ∨ (k, slot) ∈ m.dropped := by
  cases h with
  | notify hp => cases hl; exact .inr (by simp [hp])
  | prune => cases hl; exact .inl (.mk _ _ _)
  | _ => cases hl

/-- An insert at work either was, or just took the next generation. -/
theorem inserting_cases (h : S.Move m c m' c') {a : A} {g : ℕ} (hi : Inserting c' a g) :
    Inserting c a g ∨ (c = .insert a (.check []) ∧ g = m.nextGeneration ∧
      m'.landed = Function.update m.landed m.nextGeneration (some a)) := by
  cases h with
  | stamp => cases hi; exact .inr ⟨rfl, rfl, rfl⟩
  | index => cases hi; exact .inl (.index _ _ _)
  | front => cases hi; exact .inl (.index _ _ _)
  | _ => cases hi

/-! ### A refused insert -/

/-- **A refused insert changes nothing**: none of its moves does, up to the check that refuses it
and the return. -/
theorem refused (h : S.Move m c m' c') {a : A} {pc : InsertPc R}
    (hpc : pc = .stripe ∨ (∃ rest, pc = .check rest) ∨ pc = .done false)
    (hc : c' = .insert a pc ∨ (c = .insert a pc ∧ pc = .done false)) : m' = m := by
  rcases hc with rfl | ⟨rfl, rfl⟩
  · rcases hpc with rfl | ⟨rest, rfl⟩ | rfl
    · cases h; rfl
    · cases h <;> rfl
    · cases h; rfl
  · cases h; rfl

/-! ### The move before -/

/-- An insert comes to index its `n`th group from the group before, or from its last check. -/
theorem of_index {a : A} {g n : ℕ} (h : S.Move m c m' (.insert a (.index g n))) :
    n = 0 ∨ ∃ n' names, n = n' + 1 ∧ c = .insert a (.index g n') ∧
      (S.insert a).groups[n']? = some names ∧
      m'.index = indexTags m.index (S.insert a).key names g := by
  cases h with
  | stamp => exact .inl rfl
  | index hn => exact .inr ⟨_, _, rfl, rfl, hn, rfl⟩

/-- An insert comes to a check from the check before, which it passed, or from its stripe. -/
theorem of_check {a : A} {rest : List R} (h : S.Move m c m' (.insert a (.check rest))) :
    m' = m ∧ ((c = .insert a .stripe ∧ rest = (S.insert a).refs) ∨
      ∃ r, c = .insert a (.check (r :: rest)) ∧ m.slots r ≤ (S.insert a).since) := by
  cases h with
  | stripe => exact ⟨rfl, .inl ⟨rfl, rfl⟩⟩
  | pass hr => exact ⟨rfl, .inr ⟨_, rfl, hr⟩⟩

/-- A slot still to publish is published, or is still to publish. -/
theorem publish_cases {i : I} {seq : ℕ} {rest : List R}
    (h : S.Move m (.inval i (.publish seq rest)) m' c') {r : R} (hr : r ∈ rest) :
    seq ≤ m'.slots r ∨ ∃ rest', c' = .inval i (.publish seq rest') ∧ r ∈ rest' := by
  cases h with
  | @publish _ _ r' rest' =>
      by_cases e : r = r'
      · subst e; simp only [Function.update_self]; exact .inl (le_max_right _ _)
      · exact .inr ⟨rest', rfl, (List.mem_cons.mp hr).resolve_left e⟩
  | _ => cases hr

/-- An insert comes to its last write from its front write. -/
theorem of_moka {a : A} {g : ℕ} (h : S.Move m c m' (.insert a (.moka g))) :
    m' = m.putFront S.limit (S.insert a) g ∧ ∃ n, c = .insert a (.index g n) := by
  cases h with
  | front => exact ⟨rfl, _, rfl⟩

/-- An insert's last write. -/
theorem moka_move {a : A} {g : ℕ} (h : S.Move m (.insert a (.moka g)) m' c') :
    m' = m.putMoka (S.insert a) g := by
  cases h with
  | moka => rfl

/-- A removal comes to the front from the evicting store, which no longer holds the key. -/
theorem of_holding {k : K} (h : S.Move m c m' c') (hk : Holding c' k) : m' = m.unmoka k := by
  cases h with
  | removeMoka => cases hk; rfl
  | scanMoka => cases hk; rfl
  | _ => cases hk

/-- A clear comes to its next wipe from the wipe before, or from its last slot. -/
theorem of_wipe {i : I} {seq : ℕ} {rest : List (Wipe N)}
    (h : S.Move m c m' (.inval i (.wipe seq rest))) :
    (rest = S.wipe ∧ m' = m ∧ ∃ refs, c = .inval i (.publish seq []) ∧ S.inval i = .clear refs) ∨
      ∃ w, c = .inval i (.wipe seq (w :: rest)) ∧ m' = m.wipe S.shardOf w := by
  cases h with
  | clear hi => exact .inl ⟨rfl, rfl, _, rfl, hi⟩
  | wipe => exact .inr ⟨_, rfl, rfl⟩

end Store.Move

end Brust.Cache
