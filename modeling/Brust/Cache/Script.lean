import Brust.Cache.Agreement
import Brust.Cache.Fresh

/-!
# Cache — running the machine

The moves as a function: `exec` takes a thread's choice (which call to start, which dropped value
to report) and computes the move.  A `script` runs a list of choices on finitely many threads, and
what it reaches is reached by the machine (`script_sound`).  So a run of the machine is evaluated,
and its last state read off.
-/

namespace Brust.Cache

variable {K N R B A I : Type}

/-- What an idle thread does next; any other thread just goes on. -/
inductive Choice (K A I : Type) where
  | go
  | tick (d : ℕ)
  | evict (k : K)
  | notify (j : ℕ)
  | gate (a : A)
  | start (i : I)

/-- A thread that goes on for `n` moves. -/
def Choice.goes (t n : ℕ) : List (ℕ × Choice K A I) := List.replicate n (t, .go)

namespace Store

variable (S : Store K N R B A I) [DecidableEq K] [DecidableEq N] [DecidableEq R]

instance (c d : Thread K N R A I) : Decidable (S.conflict c d) :=
  decidable_of_iff
    ((S.gateWrite c = true ∧ (S.gateWrite d = true ∨ gateRead d = true)) ∨
      (gateRead c = true ∧ S.gateWrite d = true) ∨
      (S.stripe c = S.stripe d ∧ (S.stripe d).isSome = true)) (by
    refine or_congr Iff.rfl (or_congr Iff.rfl ?_)
    rw [Option.isSome_iff_exists]
    constructor
    · rintro ⟨e, n, hn⟩; exact ⟨n, e.trans hn, hn⟩
    · rintro ⟨n, hc, hd⟩; exact ⟨hc.trans hd.symm, n, hd⟩)

/-- One move of a thread, as a function of its choice. -/
def exec (ch : Choice K A I) (m : Mem K N R B A I) :
    Thread K N R A I → Option (Mem K N R B A I × Thread K N R A I)
  | .idle =>
    match ch with
    | .go => none
    | .tick d => some ({ m with now := m.now + d }, .idle)
    | .evict k => some (m.unmoka k, .idle)
    | .notify j =>
      match m.dropped[j]? with
      | none => none
      | some (k, slot) =>
        some ({ m with dropped := m.dropped.take j ++ m.dropped.drop (j + 1) }, .listen k slot 0)
    | .gate a => some (m, .insert a .stripe)
    | .start i =>
      match S.inval i with
      | .key k => some (m, .inval i (.remove 0 0 [k]))
      | _ => some (m, .inval i .next)
  | .listen k slot n =>
    match slot.groups[n]? with
    | some names =>
      some ({ m with index := pruneTags m.index k names slot.generation }, .listen k slot (n + 1))
    | none => some ({ m with front := removeFront m.front k slot.generation }, .idle)
  | .insert a .stripe => some (m, .insert a (.check (S.insert a).refs))
  | .insert a (.check (r :: rest)) =>
    if m.slots r ≤ (S.insert a).since then some (m, .insert a (.check rest))
    else some (m, .insert a (.done false))
  | .insert a (.check []) =>
    some ({ m with
      nextGeneration := m.nextGeneration + 1
      landed := Function.update m.landed m.nextGeneration (some a) },
      .insert a (.index m.nextGeneration 0))
  | .insert a (.index g n) =>
    match (S.insert a).groups[n]? with
    | some names =>
      some ({ m with index := indexTags m.index (S.insert a).key names g },
        .insert a (.index g (n + 1)))
    | none => some (m.putFront S.limit (S.insert a) g, .insert a (.moka g))
  | .insert a (.moka g) => some (m.putMoka (S.insert a) g, .insert a (.done true))
  | .insert _ (.done _) => some (m, .idle)
  | .inval i .next =>
    some ({ m with clock := m.clock + 1, issued := (i, m.clock + 1) :: m.issued },
      .inval i (.publish (m.clock + 1) (S.inval i).refs))
  | .inval i (.publish seq (r :: rest)) =>
    some ({ m with slots := Function.update m.slots r (max (m.slots r) seq) },
      .inval i (.publish seq rest))
  | .inval i (.publish seq []) =>
    match S.inval i with
    | .indexed names keep _ =>
      some ({ m with index := (take m.index names keep).1 },
        .inval i (.remove seq (take m.index names keep).2.length (take m.index names keep).2))
    | .scan _ _ => some (m, .inval i (.scan seq m.now 0 0))
    | .clear _ => some (m, .inval i (.wipe seq S.wipe))
    | .key _ => none
  | .inval i (.remove seq n (k :: keys)) => some (m.unmoka k, .inval i (.removeFront seq n k keys))
  | .inval i (.removeFront seq n k keys) => some (m.unfront k, .inval i (.remove seq n keys))
  | .inval i (.remove seq n []) => some (m, .inval i (.done seq n))
  | .inval i (.scan seq now live shard) =>
    match S.inval i with
    | .scan hit _ =>
      if shard < S.shards then
        some (m, .inval i (.scanMoka seq now (live + S.liveHits m hit shard now) shard
          (S.hits m hit shard)))
      else some (m, .inval i (.done seq live))
    | _ => none
  | .inval i (.scanMoka seq now live shard (k :: keys)) =>
    some (m.unmoka k, .inval i (.scanFront seq now live shard k keys))
  | .inval i (.scanFront seq now live shard k keys) =>
    some (m.unfront k, .inval i (.scanMoka seq now live shard keys))
  | .inval i (.scanMoka seq now live shard []) =>
      some (m, .inval i (.scan seq now live (shard + 1)))
  | .inval i (.wipe seq (w :: rest)) => some (m.wipe S.shardOf w, .inval i (.wipe seq rest))
  | .inval i (.wipe seq []) => some (m, .inval i (.done seq 0))
  | .inval _ (.done _ _) => some (m, .idle)

variable {S}

theorem exec_sound {ch : Choice K A I} {m m' : Mem K N R B A I} {c c' : Thread K N R A I}
    (h : S.exec ch m c = some (m', c')) : S.Move m c m' c' := by
  unfold exec at h
  split at h
  case h_1 =>
      split at h
      case h_1 => cases h
      case h_2 => cases h; exact .tick _
      case h_3 => cases h; exact .evict _
      case h_4 j =>
          split at h
          · cases h
          · next k slot hj =>
            cases h
            obtain ⟨hlt, hget⟩ := List.getElem?_eq_some_iff.mp hj
            have hsplit : m.dropped =
                m.dropped.take j ++ (k, slot) :: m.dropped.drop (j + 1) := by
              rw [← hget, ← List.drop_eq_getElem_cons hlt, List.take_append_drop]
            exact .notify hsplit
      case h_5 => cases h; exact .gate _
      case h_6 i =>
          split at h
          · next hi => cases h; exact .removeKey hi
          · next hi => cases h; exact .start hi
  case h_2 =>
      split at h
      · next hn => cases h; exact .prune hn
      · next hn => cases h; exact .unfront hn
  case h_3 => cases h; exact .stripe
  case h_4 =>
      split at h
      · next hr => cases h; exact .pass hr
      · next hr => cases h; exact .refuse (Nat.lt_of_not_le hr)
  case h_5 => cases h; exact .stamp
  case h_6 =>
      split at h
      · next hn => cases h; exact .index hn
      · next hn => cases h; exact .front hn
  case h_7 => cases h; exact .moka
  case h_8 => cases h; exact .inserted
  case h_9 => cases h; exact .next
  case h_10 => cases h; exact .publish
  case h_11 =>
      split at h
      · next hi => cases h; exact .take hi
      · next hi => cases h; exact .scan hi
      · next hi => cases h; exact .clear hi
      · cases h
  case h_12 => cases h; exact .removeMoka
  case h_13 => cases h; exact .removeFront
  case h_14 => cases h; exact .removed
  case h_15 =>
      split at h
      · next hi =>
        split at h
        · next hs => cases h; exact .collect hi hs
        · next hs => cases h; exact .scanned (Nat.le_of_not_lt hs)
      · cases h
  case h_16 => cases h; exact .scanMoka
  case h_17 => cases h; exact .scanFront
  case h_18 => cases h; exact .nextShard
  case h_19 => cases h; exact .wipe
  case h_20 => cases h; exact .wiped
  case h_21 => cases h; exact .returned

variable (S)

/-- Run a list of choices, each by its thread, on the threads of a list. -/
def script (guard : List (Thread K N R A I) → Bool) : List (ℕ × Choice K A I) →
    Mem K N R B A I → List (Thread K N R A I) → Option (Mem K N R B A I × List (Thread K N R A I))
  | [], m, l => some (m, l)
  | (t, ch) :: rest, m, l =>
    (l[t]?).bind fun c => (S.exec ch m c).bind fun mc =>
      if guard l = true ∧ ∀ u < l.length, u ≠ t → ¬ S.conflict mc.2 (l.getD u .idle) then
        script guard rest mc.1 (l.set t mc.2)
      else none

variable {S}

omit [DecidableEq K] [DecidableEq N] [DecidableEq R] in
theorem not_conflict_idle (c : Thread K N R A I) : ¬ S.conflict c .idle := by
  rintro (⟨-, h | h⟩ | ⟨-, h⟩ | ⟨n, -, h⟩) <;> cases h

/-- **A script reaches what the machine reaches.** -/
theorem script_sound {guard : List (Thread K N R A I) → Bool} {ok : S.State → ℕ → Prop}
    (hok : ∀ m l t, guard l = true → ok (Pool.ofList .idle m l) t)
    {cs : List (ℕ × Choice K A I)} {m m' : Mem K N R B A I} {l l' : List (Thread K N R A I)}
    (r : Reach S.Init S.Step ok (Pool.ofList .idle m l))
      (h : S.script guard cs m l = some (m', l')) :
    Reach S.Init S.Step ok (Pool.ofList .idle m' l') := by
  induction cs generalizing m l with
  | nil => cases h; exact r
  | cons tc cs ih =>
      obtain ⟨t, ch⟩ := tc
      simp only [script, Option.bind_eq_some_iff] at h
      obtain ⟨c, hc, ⟨m₁, c₁⟩, hx, h⟩ := h
      split at h
      · next hg =>
        refine ih (r.step (.ofList hc (exec_sound hx) (not_conflict_idle _) hg.2) ?_) h
        exact hok m l t hg.1
      · cases h

/-- A script may run anywhere. -/
def anywhere : List (Thread K N R A I) → Bool := fun _ => true

omit [DecidableEq K] [DecidableEq N] [DecidableEq R] in
theorem anyStep_anywhere (m : Mem K N R B A I) (l : List (Thread K N R A I)) (t : ℕ)
    (_ : anywhere l = true) : anyStep (Pool.ofList .idle m l : S.State) t := trivial

/-- No thread is a listener at work. -/
def noListener (l : List (Thread K N R A I)) : Bool :=
  l.all fun c => match c with
    | .listen .. => false
    | _ => true

omit [DecidableEq N] [DecidableEq R] in
theorem takesWhole_of_noListener (m : Mem K N R B A I) (l : List (Thread K N R A I)) (t : ℕ)
    (h : noListener l = true) : S.TakesWhole (Pool.ofList .idle m l) t := by
  intro i seq names keep refs _ _ u k slot n x hu
  exfalso
  simp only [Pool.ofList, List.getD_eq_getElem?_getD] at hu
  cases hl : l[u]? with
  | none => simp [hl] at hu
  | some c =>
      simp only [hl, Option.getD_some] at hu
      subst hu
      have := List.all_eq_true.mp h _ (List.mem_of_getElem? hl)
      cases this

omit [DecidableEq K] [DecidableEq N] [DecidableEq R] in
theorem init_idle (n : ℕ) : S.Init (Pool.ofList .idle .init (List.replicate n .idle)) :=
  ⟨rfl, fun t => by
    simp only [Pool.ofList, List.getD_eq_getElem?_getD, List.getElem?_replicate]
    split <;> rfl⟩

/-- A script run from the empty store reaches what the machine reaches. -/
theorem script_reaches {guard : List (Thread K N R A I) → Bool} {ok : S.State → ℕ → Prop}
    (hok : ∀ m l t, guard l = true → ok (Pool.ofList .idle m l) t) (n : ℕ)
    (cs : List (ℕ × Choice K A I)) (p : Mem K N R B A I × List (Thread K N R A I) → Bool)
    (h : (S.script guard cs .init (List.replicate n .idle)).any p = true) :
    ∃ m l, Reach S.Init S.Step ok (Pool.ofList .idle m l) ∧ p (m, l) = true := by
  rw [Option.any_eq_true] at h
  obtain ⟨⟨m, l⟩, hs, hp⟩ := h
  exact ⟨m, l, script_sound hok (.init (init_idle n)) hs, hp⟩

def isIdle : Thread K N R A I → Bool
  | .idle => true
  | _ => false

omit [DecidableEq K] [DecidableEq N] [DecidableEq R] in
theorem quiet_ofList {m : Mem K N R B A I} {l : List (Thread K N R A I)}
    (hl : l.all isIdle = true) (hd : m.dropped.isEmpty = true) :
    S.Quiet (Pool.ofList .idle m l) := by
  refine ⟨fun t => ?_, List.isEmpty_iff.mp hd⟩
  simp only [Pool.ofList, List.getD_eq_getElem?_getD]
  cases hc : l[t]? with
  | none => rfl
  | some c =>
      have := List.all_eq_true.mp hl _ (List.mem_of_getElem? hc)
      cases c with
      | idle => rfl
      | _ => cases this

/-- Whether a thread is inside invalidation `(i, seq)`. -/
def inside [DecidableEq I] (i : I) (seq : ℕ) : Thread K N R A I → Bool
  | .inval j pc => decide (j = i ∧ pc.seq = some seq)
  | _ => false

omit [DecidableEq K] [DecidableEq N] [DecidableEq R] in
theorem returned_ofList [DecidableEq I] {m : Mem K N R B A I} {l : List (Thread K N R A I)} {i : I}
    {seq : ℕ} (hi : (i, seq) ∈ m.issued) (hl : l.all (fun c => !inside i seq c) = true) :
    S.Returned (Pool.ofList .idle m l) i seq := by
  refine ⟨hi, fun t pc ht hq => ?_⟩
  simp only [Pool.ofList, List.getD_eq_getElem?_getD] at ht
  cases hc : l[t]? with
  | none => simp [hc] at ht
  | some c =>
      simp only [hc, Option.getD_some] at ht
      subst ht
      have := List.all_eq_true.mp hl _ (List.mem_of_getElem? hc)
      simp [inside, hq] at this

end Store

end Brust.Cache
