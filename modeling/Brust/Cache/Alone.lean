import Brust.Cache.Script
import Brust.Cache.Stamps
import Mathlib.Logic.Relation

/-!
# Cache — one call at a time

The store in sequential use: a call runs from its start to its return with no other thread at work,
and then the listener runs on every value that was dropped.  `insertAlone` and `invalAlone` are such
calls as functions of the memory; the machine runs them (`reach_insertAlone`, `reach_invalAlone`),
so a memory they lead to has the machine's invariants, with nothing in flight.
-/

namespace Brust.Cache

variable {K N R B A I : Type} [DecidableEq K] [DecidableEq N] [DecidableEq R]

/-- The listener on one dropped value. -/
def Mem.listen (m : Mem K N R B A I) (k : K) (slot : Slot N) : Mem K N R B A I :=
  { m with
    index := slot.groups.foldl (fun index names => pruneTags index k names slot.generation) m.index
    front := removeFront m.front k slot.generation }

/-- The listener on every dropped value. -/
def Mem.drain (m : Mem K N R B A I) : Mem K N R B A I :=
  m.dropped.foldl (fun m x => m.listen x.1 x.2) { m with dropped := [] }

/-- Remove keys from the evicting store and the front. -/
def Mem.removeKeys (m : Mem K N R B A I) (keys : List K) : Mem K N R B A I :=
  keys.foldl (fun m k => (m.unmoka k).unfront k) m

/-- An invalidation takes its clock value and publishes it. -/
def Mem.issue (m : Mem K N R B A I) (i : I) (refs : List R) : Mem K N R B A I :=
  { m with
    clock := m.clock + 1
    issued := (i, m.clock + 1) :: m.issued
    slots := Stamps.publish m.slots refs (m.clock + 1) }

namespace Store

variable (S : Store K N R B A I)

/-- An insert, and whether it landed. -/
def insertAlone (m : Mem K N R B A I) (a : A) : Mem K N R B A I × Bool :=
  let i := S.insert a
  if Stamps.after m.slots i.refs i.since then (m, false)
  else
    let g := m.nextGeneration
    let m := { m with
      nextGeneration := g + 1
      landed := Function.update m.landed g (some a)
      index := i.groups.foldl (fun index names => indexTags index i.key names g) m.index }
    (((m.putFront S.limit i g).putMoka i g).drain, true)

/-- The scan of the shards, and how many live keys it hit. -/
def scanAlone (hit : K → Bool) (now : ℕ) (m : Mem K N R B A I) (live : ℕ) :
    List ℕ → Mem K N R B A I × ℕ
  | [] => (m, live)
  | n :: shards =>
    scanAlone hit now (m.removeKeys (S.hits m hit n)) (live + S.liveHits m hit n now) shards

/-- An invalidation and its count; the count of a clear is the evicting store's. -/
def invalAlone (m : Mem K N R B A I) (i : I) : Mem K N R B A I × ℕ :=
  match S.inval i with
  | .indexed names keep refs =>
    let m := m.issue i refs
    let (index, keys) := take m.index names keep
    ((({ m with index := index }).removeKeys keys).drain, keys.length)
  | .scan hit refs =>
    let m := m.issue i refs
    let (m, live) := S.scanAlone hit m.now m 0 (List.range S.shards)
    (m.drain, live)
  | .clear refs =>
    let n := m.moka.keys.length
    ((S.wipe.foldl (Mem.wipe · S.shardOf) (m.issue i refs)).drain, n)
  | .key k => ((m.removeKeys [k]).drain, 0)

/-! ### The machine runs them -/

/-- Thread 0 at work, every other idle. -/
def alone (m : Mem K N R B A I) (c : Thread K N R A I) : S.State := Pool.ofList .idle m [c]

/-- Moves of one thread in a row. -/
def Works : Mem K N R B A I × Thread K N R A I → Mem K N R B A I × Thread K N R A I → Prop :=
  Relation.ReflTransGen fun x y => S.Move x.1 x.2 y.1 y.2

variable {S}

theorem Works.move {m m' : Mem K N R B A I} {c c' : Thread K N R A I}
    {x : Mem K N R B A I × Thread K N R A I} (h : S.Move m c m' c') (w : S.Works (m', c') x) :
    S.Works (m, c) x := .head h w

theorem reach_works {m : Mem K N R B A I} {c : Thread K N R A I}
    {x : Mem K N R B A I × Thread K N R A I} (r : Reach S.Init S.Step anyStep (S.alone m c))
    (w : S.Works (m, c) x) : Reach S.Init S.Step anyStep (S.alone x.1 x.2) := by
  induction w with
  | refl => exact r
  | @tail y z _ h ih =>
      exact ih.step (a := 0) (Pool.Step.ofList (l := [y.2]) rfl h (not_conflict_idle _)
        fun u hu hne => absurd (Nat.lt_one_iff.mp hu) hne) trivial

omit [DecidableEq K] [DecidableEq N] [DecidableEq R] in
theorem quiet_alone {m : Mem K N R B A I} (h : m.dropped = []) : S.Quiet (S.alone m .idle) :=
  quiet_ofList rfl (by simp [h])

theorem works_prune (k : K) (slot : Slot N) (rest : List (List N)) {n : ℕ}
    (h : slot.groups.drop n = rest) (m : Mem K N R B A I) :
    S.Works (m, .listen k slot n)
      ({ m with
        index := rest.foldl (fun index names => pruneTags index k names slot.generation) m.index
        front := removeFront m.front k slot.generation }, .idle) := by
  induction rest generalizing n m with
  | nil =>
      have hn := List.getElem?_eq_none (List.drop_eq_nil_iff.mp h)
      exact Works.move (.unfront hn) .refl
  | cons names rest ih =>
      have hn : slot.groups[n]? = some names := by
        rw [← List.head?_drop, h, List.head?_cons]
      have hrest : slot.groups.drop (n + 1) = rest := by
        rw [← List.tail_drop, h, List.tail_cons]
      exact Works.move (.prune hn) (ih hrest _)

theorem works_drain (m : Mem K N R B A I) : S.Works (m, .idle) (m.drain, .idle) := by
  have hall : ∀ (l : List (K × Slot N)) (m : Mem K N R B A I), m.dropped = l →
      S.Works (m, .idle) (l.foldl (fun m x => m.listen x.1 x.2) { m with dropped := [] },
        .idle) := by
    intro l
    induction l with
    | nil =>
        intro m hm
        rw [List.foldl_nil, ← hm]
        exact .refl
    | cons x l ih =>
        intro m hm
        obtain ⟨k, slot⟩ := x
        have hm : m.dropped = [] ++ (k, slot) :: l := hm
        exact Works.move (.notify hm)
          ((works_prune (n := 0) k slot _ rfl _).trans (ih _ rfl))
  exact hall _ m rfl

theorem works_check (a : A) (rest : List R) (m : Mem K N R B A I) :
    S.Works (m, .insert a (.check rest))
      (if Stamps.after m.slots rest (S.insert a).since then (m, .insert a (.done false))
        else (m, .insert a (.check []))) := by
  induction rest with
  | nil => exact .refl
  | cons r rest ih =>
      by_cases hr : (S.insert a).since < m.slots r
      · have : Stamps.after m.slots (r :: rest) (S.insert a).since = true := by
          simp [Stamps.after, hr]
        rw [if_pos this]
        exact Works.move (.refuse hr) .refl
      · have : Stamps.after m.slots (r :: rest) (S.insert a).since =
            Stamps.after m.slots rest (S.insert a).since := by
          simp [Stamps.after, hr]
        rw [this]
        exact Works.move (.pass (not_lt.mp hr)) ih

theorem works_index (a : A) (g : ℕ) (rest : List (List N)) {n : ℕ}
    (h : (S.insert a).groups.drop n = rest) (m : Mem K N R B A I) :
    ∃ n', (S.insert a).groups[n']? = none ∧ S.Works (m, .insert a (.index g n))
      ({ m with
        index := rest.foldl (fun index names => indexTags index (S.insert a).key names g) m.index },
        .insert a (.index g n')) := by
  induction rest generalizing n m with
  | nil => exact ⟨n, List.getElem?_eq_none (List.drop_eq_nil_iff.mp h), .refl⟩
  | cons names rest ih =>
      have hn : (S.insert a).groups[n]? = some names := by
        rw [← List.head?_drop, h, List.head?_cons]
      have hrest : (S.insert a).groups.drop (n + 1) = rest := by
        rw [← List.tail_drop, h, List.tail_cons]
      obtain ⟨n', hn', w⟩ := ih hrest { m with index := indexTags m.index (S.insert a).key names g }
      exact ⟨n', hn', Works.move (.index hn) w⟩

/-- **The machine runs an insert.** -/
theorem reach_insertAlone {m : Mem K N R B A I} (r : Reach S.Init S.Step anyStep (S.alone m .idle))
    (a : A) :
    Reach S.Init S.Step anyStep (S.alone (S.insertAlone m a).1 .idle) := by
  refine reach_works (x := (_, .idle)) r
    (Works.move (.gate a) (Works.move .stripe ((works_check a _ m).trans ?_)))
  cases hc : Stamps.after m.slots (S.insert a).refs (S.insert a).since with
  | true =>
    simp only [insertAlone, hc, if_true]
    exact Works.move .inserted .refl
  | false =>
    simp only [insertAlone, hc, Bool.false_eq_true, if_false]
    obtain ⟨n, hn, w⟩ := works_index (n := 0) a m.nextGeneration (S.insert a).groups rfl
      { m with
        nextGeneration := m.nextGeneration + 1
        landed := Function.update m.landed m.nextGeneration (some a) }
    exact Works.move .stamp (w.trans (Works.move (.front hn) (Works.move .moka
      (Works.move .inserted (works_drain _)))))

theorem works_publish (i : I) (seq : ℕ) (rest : List R) (m : Mem K N R B A I) :
    S.Works (m, .inval i (.publish seq rest))
      ({ m with slots := Stamps.publish m.slots rest seq }, .inval i (.publish seq [])) := by
  induction rest generalizing m with
  | nil => exact .refl
  | cons r rest ih => exact Works.move .publish (ih _)

theorem works_remove (i : I) (seq n : ℕ) (keys : List K) (m : Mem K N R B A I) :
    S.Works (m, .inval i (.remove seq n keys)) (m.removeKeys keys, .inval i (.done seq n)) := by
  induction keys generalizing m with
  | nil => exact Works.move .removed .refl
  | cons k keys ih => exact Works.move .removeMoka (Works.move .removeFront (ih _))

theorem works_shard (i : I) (seq now live shard : ℕ) (keys : List K) (m : Mem K N R B A I) :
    S.Works (m, .inval i (.scanMoka seq now live shard keys))
      (m.removeKeys keys, .inval i (.scan seq now live (shard + 1))) := by
  induction keys generalizing m with
  | nil => exact Works.move .nextShard .refl
  | cons k keys ih => exact Works.move .scanMoka (Works.move .scanFront (ih _))

theorem works_scan {i : I} {hit : K → Bool} {refs : List R} (h : S.inval i = .scan hit refs)
    (seq now : ℕ) (n shard live : ℕ) (hn : shard + n = S.shards) (m : Mem K N R B A I) :
    S.Works (m, .inval i (.scan seq now live shard))
      ((S.scanAlone hit now m live (List.range' shard n)).1,
        .inval i (.done seq (S.scanAlone hit now m live (List.range' shard n)).2)) := by
  induction n generalizing shard live m with
  | zero => exact Works.move (.scanned (by omega)) .refl
  | succ n ih =>
      rw [List.range'_succ]
      exact Works.move (.collect h (by omega))
        ((works_shard ..).trans (ih (shard + 1) _ (by omega) _))

theorem works_wipe (i : I) (seq : ℕ) (rest : List (Wipe N)) (m : Mem K N R B A I) :
    S.Works (m, .inval i (.wipe seq rest))
      (rest.foldl (Mem.wipe · S.shardOf) m, .inval i (.done seq 0)) := by
  induction rest generalizing m with
  | nil => exact Works.move .wiped .refl
  | cons w rest ih => exact Works.move .wipe (ih _)

/-- **The machine runs an invalidation.** -/
theorem reach_invalAlone {m : Mem K N R B A I} (r : Reach S.Init S.Step anyStep (S.alone m .idle))
    (i : I) : Reach S.Init S.Step anyStep (S.alone (S.invalAlone m i).1 .idle) := by
  have hstart : ∀ {inval refs}, S.inval i = inval → inval.refs = refs → (∀ k, inval ≠ .key k) →
      S.Works (m, .idle) (m.issue i refs, .inval i (.publish (m.clock + 1) [])) := by
    rintro _ _ rfl rfl hk
    exact Works.move (.start hk) (Works.move .next (works_publish ..))
  refine reach_works (x := (_, .idle)) r ?_
  unfold invalAlone
  cases hi : S.inval i with
  | indexed names keep refs =>
      exact (hstart hi rfl (by simp)).trans (Works.move (.take hi) ((works_remove ..).trans
        (Works.move .returned (works_drain _))))
  | scan hit refs =>
      have w := works_scan hi (m.clock + 1) m.now S.shards 0 0 (Nat.zero_add _) (m.issue i refs)
      rw [← List.range_eq_range'] at w
      exact (hstart hi rfl (by simp)).trans (Works.move (.scan hi)
        (w.trans (Works.move .returned (works_drain _))))
  | clear refs =>
      exact (hstart hi rfl (by simp)).trans (Works.move (.clear hi) ((works_wipe ..).trans
        (Works.move .returned (works_drain _))))
  | key k =>
      exact Works.move (.removeKey hi) ((works_remove ..).trans
        (Works.move .returned (works_drain _)))

end Store

end Brust.Cache
