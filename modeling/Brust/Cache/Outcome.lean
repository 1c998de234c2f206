import Brust.Cache.Alone

/-!
# Cache — the outcome of a call

What `insertAlone` and `invalAlone` make of a memory with nothing in flight: the front with the new
entry (`insertAlone_spec`), or the front without the keys an invalidation removes and the number it
counts (`indexed_spec`, `scan_spec`, `clear_spec`).
-/

namespace Brust.Cache

variable {K N R B A I : Type} [DecidableEq K] [DecidableEq N] [DecidableEq R]

namespace Store

variable {S : Store K N R B A I}

/-- `m'` is `m` without the front entries that a test selects; what it dropped more was selected. -/
structure Cleared (m m' : Mem K N R B A I) (p : K → Bool) : Prop where
  front : ∀ k, m'.front.lookup k = if p k then none else m.front.lookup k
  landed : m'.landed = m.landed
  now : m'.now = m.now
  clock : m'.clock = m.clock
  slots : m'.slots = m.slots
  dropped : ∀ x ∈ m'.dropped, p x.1 = true ∨ x ∈ m.dropped

section
variable {m m' m'' : Mem K N R B A I} {p q : K → Bool}

omit [DecidableEq N] [DecidableEq R] in
theorem cleared_self (m : Mem K N R B A I) : Cleared m m fun _ => false :=
  ⟨fun _ => rfl, rfl, rfl, rfl, rfl, fun _ hx => .inr hx⟩

omit [DecidableEq N] [DecidableEq R] in
theorem Cleared.trans (h : Cleared m m' p) (h' : Cleared m' m'' q) :
    Cleared m m'' fun k => p k || q k where
  front k := by
    rw [h'.front, h.front]
    cases p k <;> cases q k <;> rfl
  landed := h'.landed.trans h.landed
  now := h'.now.trans h.now
  clock := h'.clock.trans h.clock
  slots := h'.slots.trans h.slots
  dropped x hx := by
    rcases h'.dropped x hx with hq | hx
    · exact .inl (by simp [hq])
    · rcases h.dropped x hx with hp | hx
      · exact .inl (by simp [hp])
      · exact .inr hx

omit [DecidableEq R] in
/-- The listener leaves an entry of another generation. -/
theorem drain_spec (m : Mem K N R B A I)
    (h : ∀ x ∈ m.dropped, ∀ e, m.front.lookup x.1 = some e → e.generation ≠ x.2.generation) :
    m.drain.front = m.front ∧ m.drain.landed = m.landed ∧ m.drain.now = m.now ∧
      m.drain.clock = m.clock ∧ m.drain.slots = m.slots ∧ m.drain.dropped = [] := by
  have hall : ∀ (l : List (K × Slot N)) (m : Mem K N R B A I),
      (∀ x ∈ l, ∀ e, m.front.lookup x.1 = some e → e.generation ≠ x.2.generation) →
      let m' := l.foldl (fun m x => m.listen x.1 x.2) m
      m'.front = m.front ∧ m'.landed = m.landed ∧ m'.now = m.now ∧ m'.clock = m.clock ∧
        m'.slots = m.slots ∧ m'.dropped = m.dropped := by
    intro l
    induction l with
    | nil => exact fun m _ => ⟨rfl, rfl, rfl, rfl, rfl, rfl⟩
    | cons x l ih =>
        intro m h
        have hx : (m.listen x.1 x.2).front = m.front := by
          show removeFront m.front x.1 x.2.generation = m.front
          rw [removeFront, if_neg]
          rw [Option.any_eq_true]
          rintro ⟨e, he, hg⟩
          exact h x (.head _) e he (beq_iff_eq.mp hg)
        have := ih (m.listen x.1 x.2) fun y hy => by rw [hx]; exact h y (.tail _ hy)
        rw [hx] at this
        exact this
  exact hall m.dropped { m with dropped := [] } h

omit [DecidableEq R] in
theorem Cleared.drain (h : Cleared m m' p) (hd : m.dropped = []) :
    Cleared m m'.drain p ∧ m'.drain.dropped = [] := by
  obtain ⟨hfront, hlanded, hnow, hclock, hslots, hdrop⟩ := drain_spec m' fun x hx e he => by
    rcases h.dropped x hx with hp | hx
    · rw [h.front, if_pos hp] at he
      cases he
    · rw [hd] at hx
      cases hx
  exact ⟨⟨fun k => by rw [hfront, h.front], hlanded.trans h.landed, hnow.trans h.now,
    hclock.trans h.clock, hslots.trans h.slots, fun x hx => by rw [hdrop] at hx; cases hx⟩, hdrop⟩

omit [DecidableEq N] [DecidableEq R] in
theorem cleared_remove (m : Mem K N R B A I) (k : K) :
    Cleared m ((m.unmoka k).unfront k) (· == k) where
  front k' := by
    refine (Map.lookup_erase_if ..).trans ?_
    simp only [beq_iff_eq]
    rfl
  landed := rfl
  now := rfl
  clock := rfl
  slots := rfl
  dropped x hx := by
    rcases List.mem_append.mp hx with hx | hx
    · simp only [droppedAt, Option.mem_toList, Option.map_eq_some_iff] at hx
      obtain ⟨slot, -, rfl⟩ := hx
      exact .inl (beq_self_eq_true k)
    · exact .inr hx

omit [DecidableEq N] [DecidableEq R] in
theorem cleared_removeKeys (m : Mem K N R B A I) (keys : List K) :
    Cleared m (m.removeKeys keys) (keys.contains ·) := by
  induction keys generalizing m with
  | nil => exact cleared_self m
  | cons k keys ih =>
      have := (cleared_remove m k).trans (ih _)
      simp only [List.contains_cons]
      exact this

theorem countP_or {α : Type} {p q : α → Bool} {l : List α} (h : ∀ a ∈ l, p a = true → q a = false) :
    l.countP (fun a => p a || q a) = l.countP p + l.countP q := by
  induction l with
  | nil => rfl
  | cons a l ih =>
      have hl := ih fun b hb => h b (.tail _ hb)
      have ha := h a (.head _)
      rw [List.countP_cons, List.countP_cons, List.countP_cons, hl]
      cases hp : p a <;> cases hq : q a <;> simp_all <;> omega

end

/-! ### The scan -/

omit [DecidableEq N] [DecidableEq R] in
/-- The keys of a shard that the rest of the scan will hit are there after the shard before it. -/
theorem countP_removed {m m' : Mem K N R B A I} {p q : K → Bool} (h : Cleared m m' p)
    (hpq : ∀ k, q k = true → p k = false) (r : Option (FrontEntry B) → Bool) :
    m'.front.keys.countP (fun k => q k && r (m'.front.lookup k)) =
      m.front.keys.countP fun k => q k && r (m.front.lookup k) := by
  rw [List.countP_eq_length_filter, List.countP_eq_length_filter]
  refine ((List.perm_ext_iff_of_nodup (m'.front.keys_nodup.filter _)
    (m.front.keys_nodup.filter _)).mpr fun k => ?_).length_eq
  rw [List.mem_filter, List.mem_filter, Map.mem_keys_iff, Map.mem_keys_iff, h.front]
  cases hq : q k with
  | false => simp
  | true => rw [if_neg (by rw [hpq k hq]; simp)]

omit [DecidableEq N] [DecidableEq R] in
theorem scanAlone_spec (hit : K → Bool) (now : ℕ) (m : Mem K N R B A I) (live : ℕ)
    {shards : List ℕ} (hnd : shards.Nodup) :
    Cleared m (S.scanAlone hit now m live shards).1 (fun k =>
      shards.contains (S.shardOf k) && hit k) ∧
      (S.scanAlone hit now m live shards).2 = live + m.front.keys.countP fun k =>
        (shards.contains (S.shardOf k) && hit k) && (m.front.lookup k).any (·.live now) := by
  induction shards generalizing m live with
  | nil =>
      refine ⟨cleared_self m, ?_⟩
      simp [scanAlone]
  | cons n shards ih =>
      obtain ⟨hn, hnd⟩ := List.nodup_cons.mp hnd
      have hhits : ∀ k, (S.hits m hit n).contains k =
          (m.front.keys.contains k && (S.shardOf k == n && hit k)) := by
        intro k
        rw [Bool.eq_iff_iff]
        simp only [hits, List.contains_iff_mem, List.mem_filter, Bool.and_eq_true]
      -- a key the front does not hold is as good as hit
      have hclear : Cleared m (m.removeKeys (S.hits m hit n)) fun k =>
        S.shardOf k == n && hit k := by
        have h := cleared_removeKeys m (S.hits m hit n)
        refine { h with front := fun k => ?_, dropped := fun x hx => ?_ }
        · rw [h.front, hhits]
          by_cases hk : k ∈ m.front.keys
          · simp [hk]
          · rw [Map.lookup_of_notMem_keys hk, ite_self, ite_self]
        · refine (h.dropped x hx).imp_left fun hc => ?_
          rw [hhits, Bool.and_eq_true] at hc
          exact hc.2
      obtain ⟨hc, hcount⟩ := ih (m.removeKeys (S.hits m hit n)) (live + S.liveHits m hit n now) hnd
      have hor : ∀ k, ((n :: shards).contains (S.shardOf k) && hit k) =
          ((S.shardOf k == n && hit k) || (shards.contains (S.shardOf k) && hit k)) := by
        intro k
        rw [List.contains_cons, Bool.and_or_distrib_right]
      have hdisjoint : ∀ k, (shards.contains (S.shardOf k) && hit k) = true →
          (S.shardOf k == n && hit k) = false := by
        intro k hk
        rw [Bool.and_eq_true, List.contains_iff_mem] at hk
        rw [Bool.and_eq_false_iff]
        exact .inl (beq_eq_false_iff_ne.mpr fun e => hn (e ▸ hk.1))
      constructor
      · simp only [hor]
        exact hclear.trans hc
      · refine hcount.trans ?_
        rw [countP_removed hclear hdisjoint (fun o => o.any (·.live now))]
        have hsplit : m.front.keys.countP (fun k =>
              ((n :: shards).contains (S.shardOf k) && hit k) &&
                (m.front.lookup k).any (·.live now)) =
            S.liveHits m hit n now + m.front.keys.countP fun k =>
              (shards.contains (S.shardOf k) && hit k) && (m.front.lookup k).any (·.live now) := by
          rw [liveHits, hits, List.countP_filter, ← countP_or]
          · refine List.countP_congr fun k _ => ?_
            rw [hor, Bool.and_or_distrib_right, Bool.and_comm (x := S.shardOf k == n && hit k)]
          · intro k _ hk
            rw [Bool.and_eq_true] at hk
            rw [Bool.and_eq_false_iff]
            by_contra hne
            rw [not_or, Bool.not_eq_false] at hne
            rw [hdisjoint k hne.1] at hk
            exact absurd hk.2 (by simp)
        rw [hsplit, Nat.add_assoc]

/-! ### The clear -/

omit [DecidableEq N] [DecidableEq R] in
theorem wipes_spec (ws : List (Wipe N)) (m : Mem K N R B A I) :
    let m' := ws.foldl (Mem.wipe · S.shardOf) m
    (∀ k, (m.front.lookup k = none ∨ .front (S.shardOf k) ∈ ws) → m'.front.lookup k = none) ∧
      m'.landed = m.landed ∧ m'.now = m.now ∧ m'.clock = m.clock ∧ m'.slots = m.slots := by
  induction ws generalizing m with
  | nil => exact ⟨fun k hk => hk.resolve_right (by simp), rfl, rfl, rfl, rfl⟩
  | cons w ws ih =>
      obtain ⟨hfront, hlanded, hnow, hclock, hslots⟩ := ih (m.wipe S.shardOf w)
      have hsame : (m.wipe S.shardOf w).landed = m.landed ∧ (m.wipe S.shardOf w).now = m.now ∧
          (m.wipe S.shardOf w).clock = m.clock ∧ (m.wipe S.shardOf w).slots = m.slots := by
        cases w <;> exact ⟨rfl, rfl, rfl, rfl⟩
      refine ⟨fun k hk => hfront k ?_, hlanded.trans hsame.1, hnow.trans hsame.2.1,
        hclock.trans hsame.2.2.1, hslots.trans hsame.2.2.2⟩
      cases w with
      | index sel => exact hk.imp_right fun hm => (List.mem_cons.mp hm).resolve_left (by simp)
      | moka => exact hk.imp_right fun hm => (List.mem_cons.mp hm).resolve_left (by simp)
      | front n =>
          by_cases hn : S.shardOf k = n
          · refine .inl ((Map.lookup_restrict ..).trans ?_)
            simp [hn]
          · refine hk.imp (fun hk => ?_) fun hm => (List.mem_cons.mp hm).resolve_left ?_
            · refine (Map.lookup_restrict ..).trans ?_
              rw [hk, ite_self]
            · simpa using hn

/-! ### The calls -/

section
variable {m : Mem K N R B A I}

/-- An invalidation through the index, with nothing in flight. -/
theorem indexed_spec (hd : m.dropped = []) {i : I} {names : List N} {keep : Option (K → Bool)}
    {refs : List R} (hi : S.inval i = .indexed names keep refs) :
    Cleared (m.issue i refs) (S.invalAlone m i).1 ((take m.index names keep).2.contains ·) ∧
      (S.invalAlone m i).1.dropped = [] ∧
      (S.invalAlone m i).2 = (take m.index names keep).2.length := by
  simp only [invalAlone, hi]
  have h := cleared_removeKeys { m.issue i refs with index := (take m.index names keep).1 }
    (take m.index names keep).2
  obtain ⟨hc, hdrop⟩ := Cleared.drain (m := m.issue i refs) { h with } hd
  exact ⟨hc, hdrop, rfl⟩

/-- A scan, with nothing in flight. -/
theorem scan_spec (hd : m.dropped = []) {i : I} {hit : K → Bool} {refs : List R}
    (hi : S.inval i = .scan hit refs) :
    Cleared (m.issue i refs) (S.invalAlone m i).1 hit ∧ (S.invalAlone m i).1.dropped = [] ∧
      (S.invalAlone m i).2 =
        m.front.keys.countP fun k => hit k && (m.front.lookup k).any (·.live m.now) := by
  obtain ⟨hc, hcount⟩ := S.scanAlone_spec hit m.now (m.issue i refs) 0
    (List.nodup_range (n := S.shards))
  have hall : ∀ k, (List.range S.shards).contains (S.shardOf k) = true := fun k =>
    List.contains_iff_mem.mpr (List.mem_range.mpr (S.shardOf_lt k))
  simp only [hall, Bool.true_and] at hc hcount
  simp only [invalAlone, hi]
  obtain ⟨hc, hdrop⟩ := hc.drain hd
  exact ⟨hc, hdrop, hcount.trans (Nat.zero_add _)⟩

/-- A clear, with nothing in flight. -/
theorem clear_spec {i : I} {refs : List R} (hi : S.inval i = .clear refs) :
    Cleared (m.issue i refs) (S.invalAlone m i).1 (fun _ => true) ∧
      (S.invalAlone m i).1.dropped = [] ∧ (S.invalAlone m i).2 = m.moka.keys.length := by
  simp only [invalAlone, hi]
  obtain ⟨hfront, hlanded, hnow, hclock, hslots⟩ := S.wipes_spec S.wipe (m.issue i refs)
  have hnone := fun k => hfront k (.inr (S.wipe_front _ (S.shardOf_lt k)))
  obtain ⟨hfront', hlanded', hnow', hclock', hslots', hdrop⟩ :=
    drain_spec (S.wipe.foldl (Mem.wipe · S.shardOf) (m.issue i refs)) fun x _ e he => by
      rw [hnone] at he
      cases he
  refine ⟨⟨fun k => ?_, hlanded'.trans hlanded, hnow'.trans hnow, hclock'.trans hclock,
    hslots'.trans hslots, fun _ _ => .inl rfl⟩, hdrop, trivial⟩
  rw [hfront', hnone, if_pos rfl]

/-- An insert that is not refused, with nothing in flight. -/
theorem insertAlone_spec (r : Reach S.Init S.Step anyStep (S.alone m .idle)) (hd : m.dropped = [])
    {a : A} (hok : Stamps.after m.slots (S.insert a).refs (S.insert a).since = false) :
    (∀ k, (S.insertAlone m a).1.front.lookup k = if k = (S.insert a).key
      then some ⟨(S.insert a).body, (S.insert a).ttl.bind (checkedAdd S.limit m.now),
        m.nextGeneration⟩ else m.front.lookup k) ∧
    (S.insertAlone m a).1.landed = Function.update m.landed m.nextGeneration (some a) ∧
    (S.insertAlone m a).1.now = m.now ∧ (S.insertAlone m a).1.clock = m.clock ∧
    (S.insertAlone m a).1.slots = m.slots ∧ (S.insertAlone m a).1.dropped = [] ∧
    (S.insertAlone m a).2 = true := by
  have hgens := (ordered r).gens
  simp only [insertAlone, hok, Bool.false_eq_true, if_false]
  obtain ⟨hfront, hlanded, hnow, hclock, hslots, hdrop⟩ := drain_spec
    ((({ m with
      nextGeneration := m.nextGeneration + 1
      landed := Function.update m.landed m.nextGeneration (some a)
      index := (S.insert a).groups.foldl
        (fun index names => indexTags index (S.insert a).key names m.nextGeneration) m.index } :
      Mem K N R B A I).putFront S.limit (S.insert a) m.nextGeneration).putMoka
        (S.insert a) m.nextGeneration) fun x hx e he => by
    -- only the value the insert replaced was dropped, and it is older
    simp only [Mem.putMoka, Mem.putFront, hd, List.append_nil, droppedAt, Option.mem_toList,
      Option.map_eq_some_iff] at hx
    obtain ⟨slot, hslot, rfl⟩ := hx
    obtain ⟨b, hb, -⟩ := hgens.moka hslot
    have hlt : slot.generation < m.nextGeneration := hgens.bound hb
    replace he := (Map.lookup_insert_if ..).symm.trans he
    rw [if_pos rfl] at he
    cases he
    exact Nat.ne_of_gt hlt
  refine ⟨fun k => ?_, hlanded, hnow, hclock, hslots, hdrop, trivial⟩
  rw [hfront]
  exact Map.lookup_insert_if ..

end

end Store

end Brust.Cache
