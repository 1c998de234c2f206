import Brust.Core.Floor

/-!
# Core — what a floor forgets

A floor remembers a bounded number of names, and drops the one raised least recently.  So a name
stays until `FLOOR_NAMES` other names are younger than it (`Kept`), and what the floor refuses on
its account stays refused until then; what it refuses for a gap clear stays refused
(`rejects_until_evicted`).  `rejects_forgotten` is a name that was dropped.
-/

namespace Brust.Core

/-- The tags of an invalidation. -/
def ofTags (ts : List String) : InvalidateArgs := ⟨none, ts, none, none, none⟩

/-! ### The name raised least recently -/

/-- Eviction leaves the table as it is, or drops its oldest name. -/
theorem evictOldest_cases (names : Map String (ℕ × ℕ)) :
    Floor.evictOldest names = names ∨ ∃ x v, names.lookup x = some v ∧
      FLOOR_NAMES < names.keys.length ∧ (∀ y w, names.lookup y = some w → v.2 ≤ w.2) ∧
      Floor.evictOldest names = names.erase x := by
  by_cases hfull : names.keys.length > FLOOR_NAMES
  · cases hold : names.entries.argmin fun e => e.2.2 with
    | none => exact .inl (by rw [Floor.evictOldest, if_pos hfull, Floor.oldest, hold]; rfl)
    | some e =>
        refine .inr ⟨e.1, e.2, AList.mem_lookup_iff.mpr (List.argmin_mem hold), hfull, ?_, ?_⟩
        · intro y w hy
          have hmem : (⟨y, w⟩ : Sigma fun _ : String => ℕ × ℕ) ∈ names.entries :=
            AList.mem_lookup_iff.mp hy
          exact List.le_of_mem_argmin (f := fun e : Sigma fun _ : String => ℕ × ℕ =>
            e.2.2) hmem hold
        · rw [Floor.evictOldest, if_pos hfull, Floor.oldest, hold]
          rfl
  · exact .inl (by rw [Floor.evictOldest, if_neg hfull])

namespace Floor

/-- Names were raised at different ticks, none after `tick`. -/
structure Ticks (names : Map String (ℕ × ℕ)) (tick : ℕ) : Prop where
  le : ∀ {y w}, names.lookup y = some w → w.2 ≤ tick
  inj : ∀ {y y' w w'}, names.lookup y = some w → names.lookup y' = some w' → w.2 = w'.2 → y = y'

/-- The floor of `x` is above `s`, and only names of `rivals` were raised after it. -/
def Kept (f : Floor) (x : String) (s : ℕ) (rivals : List String) : Prop :=
  ∃ v, f.names.lookup x = some v ∧ s < v.1 ∧
    ∀ y w, f.names.lookup y = some w → v.2 < w.2 → y ∈ rivals

/-- The names raised after `x`. -/
def younger (f : Floor) (x : String) : List String :=
  f.names.keys.filter fun y =>
    (f.names.lookup x).any fun v => (f.names.lookup y).any fun w => decide (v.2 < w.2)

/-- The other names that are younger than `x` after the operations. -/
def rivals (f : Floor) (x : String) (ops : List FloorOp) : List String :=
  ((f.younger x ++ (ops.flatMap FloorOp.raised).map fun p => p.1.text).filter (· ≠ x)).dedup

/-- The names the check asks for. -/
def consulted (f : Floor) (keyPrefix path : String) (tags : List String) : List FloorName :=
  tags.map .tag ++ [.path "GET" path] ++
    if f.hasScoped then
      [.keyPrefix keyPrefix, .prefixPath keyPrefix "GET" path] ++ tags.map (.prefixTag keyPrefix)
    else []

/-- An entry is refused for a gap clear, or for a name asked for. -/
theorem rejects_iff_consulted (f : Floor) (s : ℕ) (px path : String) (tags : List String) :
    f.rejects (some s) px path tags = true ↔
      f.global.any (fun g => decide (s < g)) = true ∨
      ∃ n ∈ f.consulted px path tags, f.below s n = true := by
  rw [rejects_some_iff]
  refine or_congr Iff.rfl ?_
  cases h : f.hasScoped with
  | false =>
      simp only [consulted, h, Bool.false_eq_true, if_false, List.append_nil, List.mem_append,
        List.mem_map, List.mem_singleton]
      constructor
      · rintro (⟨t, ht, hb⟩ | hb | ⟨hf, -⟩)
        · exact ⟨_, .inl ⟨t, ht, rfl⟩, hb⟩
        · exact ⟨_, .inr rfl, hb⟩
        · exact hf.elim
      · rintro ⟨n, ⟨t, ht, rfl⟩ | rfl, hb⟩
        · exact .inl ⟨t, ht, hb⟩
        · exact .inr (.inl hb)
  | true =>
      simp only [consulted, h, if_true, List.mem_append, List.mem_map, List.mem_cons,
        List.not_mem_nil, or_false, true_and]
      constructor
      · rintro (⟨t, ht, hb⟩ | hb | hb | hb | ⟨t, ht, hb⟩)
        · exact ⟨_, .inl (.inl ⟨t, ht, rfl⟩), hb⟩
        · exact ⟨_, .inl (.inr rfl), hb⟩
        · exact ⟨_, .inr (.inl (.inl rfl)), hb⟩
        · exact ⟨_, .inr (.inl (.inr rfl)), hb⟩
        · exact ⟨_, .inr (.inr ⟨t, ht, rfl⟩), hb⟩
      · rintro ⟨n, (⟨t, ht, rfl⟩ | rfl) | (rfl | rfl) | ⟨t, ht, rfl⟩, hb⟩
        · exact .inl ⟨t, ht, hb⟩
        · exact .inr (.inl hb)
        · exact .inr (.inr (.inl hb))
        · exact .inr (.inr (.inr (.inl hb)))
        · exact .inr (.inr (.inr (.inr ⟨t, ht, hb⟩)))

/-! ### One name -/

variable {f : Floor} {x : String} {s : ℕ} {rivals : List String}

/-- The table before it is bounded. -/
def written (f : Floor) (y : String) (seq : ℕ) : Map String (ℕ × ℕ) :=
  f.names.insert y (max ((f.names.lookup y).elim 0 (·.1)) seq, f.tick + 1)

theorem names_raiseName (f : Floor) (y : String) (seq : ℕ) :
    (f.raiseName y seq).names = evictOldest (f.written y seq) := rfl

theorem lookup_evictOldest {names : Map String (ℕ × ℕ)} {y : String} {w : ℕ × ℕ}
    (h : (evictOldest names).lookup y = some w) : names.lookup y = some w := by
  rcases evictOldest_cases names with he | ⟨x, v, -, -, -, he⟩
  · rwa [he] at h
  · rw [he, Map.lookup_erase_if] at h
    split at h
    · cases h
    · exact h

theorem lookup_written {y z : String} {seq : ℕ} {w : ℕ × ℕ}
    (h : (f.written y seq).lookup z = some w) :
    (z = y ∧ w.2 = f.tick + 1) ∨ (z ≠ y ∧ f.names.lookup z = some w) := by
  rw [written, Map.lookup_insert_if] at h
  split at h
  next hz => cases h; exact .inl ⟨hz, rfl⟩
  next hz => exact .inr ⟨hz, h⟩

theorem Ticks.written (h : Ticks f.names f.tick) (y : String) (seq : ℕ) :
    Ticks (f.written y seq) (f.tick + 1) where
  le hz := by
    rcases lookup_written hz with ⟨-, ht⟩ | ⟨-, hz⟩
    · exact ht.le
    · exact Nat.le_succ_of_le (h.le hz)
  inj hz hz' he := by
    rcases lookup_written hz with ⟨rfl, ht⟩ | ⟨-, hzold⟩
    · rcases lookup_written hz' with ⟨rfl, -⟩ | ⟨-, hold⟩
      · rfl
      · have := h.le hold
        omega
    · rcases lookup_written hz' with ⟨rfl, ht⟩ | ⟨-, hold⟩
      · have := h.le hzold
        omega
      · exact h.inj hzold hold he

theorem Ticks.raiseName (h : Ticks f.names f.tick) (y : String) (seq : ℕ) :
    Ticks (f.raiseName y seq).names (f.raiseName y seq).tick where
  le hz := (h.written y seq).le (lookup_evictOldest hz)
  inj hz hz' := (h.written y seq).inj (lookup_evictOldest hz) (lookup_evictOldest hz')

/-- A name outlives a raise that leaves fewer than `FLOOR_NAMES` names younger. -/
theorem Kept.raiseName (h : Kept f x s rivals) (ht : Ticks f.names f.tick)
    (hlen : rivals.length < FLOOR_NAMES) {y : String} (hy : y ≠ x → y ∈ rivals) (seq : ℕ) :
    Kept (f.raiseName y seq) x s rivals := by
  obtain ⟨v, hx, hs, hyounger⟩ := h
  have hticks := ht.written y seq
  -- first the table that is written, then its bound
  have hwritten : ∃ v', (f.written y seq).lookup x = some v' ∧ s < v'.1 ∧
      ∀ z w, (f.written y seq).lookup z = some w → v'.2 < w.2 → z ∈ rivals := by
    by_cases hxy : x = y
    · subst hxy
      refine ⟨_, AList.lookup_insert .., ?_, fun z w hz hlt => ?_⟩
      · rw [hx]
        exact lt_max_of_lt_left hs
      · exact absurd (hlt.trans_le (hticks.le hz)) (lt_irrefl _)
    · refine ⟨v, ?_, hs, fun z w hz hlt => ?_⟩
      · rw [written, Map.lookup_insert_if, if_neg hxy]
        exact hx
      · rcases lookup_written hz with ⟨rfl, -⟩ | ⟨-, hz⟩
        · exact hy (Ne.symm hxy)
        · exact hyounger z w hz hlt
  obtain ⟨v', hx', hs', hyounger'⟩ := hwritten
  refine ⟨v', ?_, hs', fun z w hz => hyounger' z w (lookup_evictOldest hz)⟩
  rw [names_raiseName]
  rcases evictOldest_cases (f.written y seq) with he | ⟨z, w, hz, hfull, hold, he⟩
  · rw [he]
    exact hx'
  · rw [he, Map.lookup_erase_if, if_neg]
    · exact hx'
    · -- were `x` the oldest, every other name would be a rival
      rintro rfl
      cases hz.symm.trans hx'
      refine absurd hfull (Nat.not_lt.mpr ?_)
      have hsub : (f.written y seq).keys ⊆ x :: rivals := by
        intro z hzk
        obtain ⟨w', hzw⟩ := Map.mem_keys_iff.mp hzk
        by_cases hzx : z = x
        · exact hzx ▸ List.mem_cons_self ..
        · have hne : v'.2 ≠ w'.2 := fun heq => hzx (hticks.inj hzw hz heq.symm)
          exact List.mem_cons_of_mem _ (hyounger' z w' hzw (lt_of_le_of_ne (hold z w' hzw) hne))
      exact (List.Nodup.length_le_of_subset (AList.keys_nodup _) hsub).trans hlen

theorem Ticks.raiseAll (h : Ticks f.names f.tick) (ps : List (FloorName × ℕ)) :
    Ticks (f.raiseAll ps).names (f.raiseAll ps).tick := by
  induction ps generalizing f with
  | nil => exact h
  | cons p ps ih => exact ih (h.raiseName p.1.text p.2)

theorem Kept.raiseAll (h : Kept f x s rivals) (ht : Ticks f.names f.tick)
    (hlen : rivals.length < FLOOR_NAMES) {ps : List (FloorName × ℕ)}
    (hps : ∀ p ∈ ps, p.1.text ≠ x → p.1.text ∈ rivals) : Kept (f.raiseAll ps) x s rivals := by
  induction ps generalizing f with
  | nil => exact h
  | cons p ps ih =>
      exact ih (h.raiseName ht hlen (hps p (.head _)) p.2) (ht.raiseName ..) fun q hq =>
        hps q (.tail _ hq)

/-! ### Runs -/

theorem Ticks.apply (h : Ticks f.names f.tick) (op : FloorOp) :
    Ticks (f.apply op).names (f.apply op).tick := by
  cases op with
  | raise args seq =>
      rw [Floor.apply, raise_eq]
      exact Ticks.raiseAll (f := { f with hasScoped := f.hasScoped || args.keyPrefix.isSome }) h _
  | clearAt seq => exact h

theorem Ticks.run (ops : List FloorOp) : Ticks (Floor.run ops).names (Floor.run ops).tick := by
  induction ops using List.reverseRecOn with
  | nil => exact ⟨fun h => by simp [Floor.run, init] at h, fun h => by simp [Floor.run, init] at h⟩
  | append_singleton ops op ih =>
      rw [run_append]
      exact ih.apply op

theorem Kept.apply (h : Kept f x s rivals) (ht : Ticks f.names f.tick)
    (hlen : rivals.length < FLOOR_NAMES) {op : FloorOp}
    (hop : ∀ p ∈ op.raised, p.1.text ≠ x → p.1.text ∈ rivals) : Kept (f.apply op) x s rivals := by
  cases op with
  | raise args seq =>
      rw [Floor.apply, raise_eq]
      exact Kept.raiseAll (f := { f with hasScoped := f.hasScoped || args.keyPrefix.isSome }) h ht
        hlen hop
  | clearAt seq => exact h

theorem Kept.foldl (h : Kept f x s rivals) (ht : Ticks f.names f.tick)
    (hlen : rivals.length < FLOOR_NAMES) {ops : List FloorOp}
    (hops : ∀ op ∈ ops, ∀ p ∈ op.raised, p.1.text ≠ x → p.1.text ∈ rivals) :
    Kept (ops.foldl Floor.apply f) x s rivals := by
  induction ops generalizing f with
  | nil => exact h
  | cons op ops ih =>
      exact ih (h.apply ht hlen (hops op (.head _))) (ht.apply op) fun op hop =>
        hops op (.tail _ hop)

/-- A gap clear's floor does not drop, and scoped names are asked for once one was raised. -/
theorem foldl_mono (f : Floor) (ops : List FloorOp) (s : ℕ) :
    (f.global.any (fun g => decide (s < g)) = true →
      (ops.foldl Floor.apply f).global.any (fun g => decide (s < g)) = true) ∧
    (f.hasScoped = true → (ops.foldl Floor.apply f).hasScoped = true) := by
  induction ops generalizing f with
  | nil => exact ⟨id, id⟩
  | cons op ops ih =>
      refine ⟨fun h => (ih (f.apply op)).1 ?_, fun h => (ih (f.apply op)).2 ?_⟩
      · cases op with
        | raise args seq =>
            rw [Floor.apply, raise_eq, (raiseAll_rest _ _).1]
            exact h
        | clearAt seq =>
            obtain ⟨g, hg, hlt⟩ := (Option.any_eq_true ..).mp h
            rw [Floor.apply, clearAt, hg]
            exact decide_eq_true (lt_max_of_lt_left (of_decide_eq_true hlt))
      · cases op with
        | raise args seq =>
            rw [Floor.apply, raise_eq, (raiseAll_rest _ _).2]
            simp [h]
        | clearAt seq => exact h

theorem consulted_mono {f f' : Floor} (h : f.hasScoped = true → f'.hasScoped = true)
    (px path : String) (tags : List String) :
      f.consulted px path tags ⊆ f'.consulted px path tags := by
  intro n hn
  rw [consulted, List.mem_append] at hn ⊢
  rcases hn with hn | hn
  · exact .inl hn
  · cases hf : f.hasScoped with
    | false => rw [hf] at hn; cases hn
    | true =>
        rw [hf, if_pos rfl] at hn
        rw [h hf, if_pos rfl]
        exact .inr hn

/-- What the refusal rests on is not dropped by the operations: a gap clear, or a name that fewer
than `FLOOR_NAMES` others are younger than. -/
def Remembers (f : Floor) (s : ℕ) (px path : String) (tags : List String) (ops : List FloorOp) :
    Prop :=
  f.global.any (fun g => decide (s < g)) = true ∨
    ∃ n ∈ f.consulted px path tags, f.below s n = true ∧ (f.rivals n.text ops).length < FLOOR_NAMES

/-- **A refusal lasts until its name is evicted.** -/
theorem rejects_until_evicted (ops ops' : List FloorOp) (s : ℕ) (px path : String)
    (tags : List String) (h : (Floor.run ops).Remembers s px path tags ops') :
    (Floor.run (ops ++ ops')).rejects (some s) px path tags = true := by
  have hrun : Floor.run (ops ++ ops') = ops'.foldl Floor.apply (Floor.run ops) := List.foldl_append
  obtain ⟨hglobal, hscoped⟩ := foldl_mono (Floor.run ops) ops' s
  rw [rejects_iff_consulted, hrun]
  rcases h with hg | ⟨n, hn, hb, hlen⟩
  · exact .inl (hglobal hg)
  · obtain ⟨v, hv, hlt⟩ := (Option.any_eq_true ..).mp hb
    have hkept : Kept (Floor.run ops) n.text s ((Floor.run ops).rivals n.text ops') := by
      refine ⟨v, hv, of_decide_eq_true hlt, fun y w hy hyw => ?_⟩
      have hne : y ≠ n.text := by
        rintro rfl
        cases hy.symm.trans hv
        exact lt_irrefl _ hyw
      refine List.mem_dedup.mpr (List.mem_filter.mpr ⟨List.mem_append_left _ ?_,
        decide_eq_true hne⟩)
      refine List.mem_filter.mpr ⟨Map.mem_keys_iff.mpr ⟨w, hy⟩, ?_⟩
      rw [hv, hy]
      exact decide_eq_true hyw
    have hops : ∀ op ∈ ops', ∀ p ∈ op.raised, p.1.text ≠ n.text →
        p.1.text ∈ (Floor.run ops).rivals n.text ops' := by
      intro op hop p hp hne
      refine List.mem_dedup.mpr (List.mem_filter.mpr ⟨List.mem_append_right _ ?_,
        decide_eq_true hne⟩)
      exact List.mem_map.mpr ⟨p, List.mem_flatMap.mpr ⟨op, hop, hp⟩, rfl⟩
    obtain ⟨v', hv', hlt', -⟩ := hkept.foldl (Ticks.run ops) hlen hops
    refine .inr ⟨n, consulted_mono hscoped px path tags hn, ?_⟩
    rw [below, hv']
    exact decide_eq_true hlt'

/-- The tag `a` is raised, and then another, and a gap clear comes. -/
theorem rejects_until_evicted_kept :
    (Floor.run ([.raise (ofTags ["a"]) 5] ++ [.raise (ofTags ["b"]) 7, .clearAt 2])).rejects
      (some 4)
      "" "/p" ["a"] = true := by
  refine rejects_until_evicted _ _ 4 "" "/p" ["a"] (.inr ⟨.tag "a", ?_, ?_, ?_⟩)
  · exact List.mem_append_left _ (List.mem_append_left _ (List.mem_singleton_self _))
  · decide
  · decide

end Floor

/-! ### One name too many -/

/-- Any number of distinct tags. -/
def tagNo (i : ℕ) : String := String.ofList (List.replicate i 'a')

theorem tagNo_injective : Function.Injective tagNo := by
  intro i j h
  simpa [tagNo] using congrArg (fun t => t.toList.length) h

/-- One tag more than the floor remembers names. -/
def manyTags : List String :=
  tagNo 0 :: (List.range' 1 (FLOOR_NAMES - 1)).map tagNo ++ [tagNo FLOOR_NAMES]

theorem nodup_ascending (n : ℕ) : (0 :: List.range' 1 n ++ [n + 1]).Nodup := by
  have h : 0 :: List.range' 1 n ++ [n + 1] = List.range' 0 (n + 2) := by
    rw [List.range'_concat, List.range'_succ]
    simp
  rw [h]
  exact List.nodup_range'

theorem nodup_manyTags : manyTags.Nodup := by
  have h : manyTags = (0 :: List.range' 1 (FLOOR_NAMES - 1) ++ [FLOOR_NAMES]).map tagNo := by
    simp only [manyTags, List.map_append, List.map_cons, List.map_nil]
  rw [h]
  exact List.Nodup.map tagNo_injective (nodup_ascending (FLOOR_NAMES - 1))

theorem rejects_of_manyTags {ops : List FloorOp}
    (hraised : ops.flatMap FloorOp.raised = (manyTags.map FloorName.tag).map (·, 1))
    (hclear : ∀ seq, .clearAt seq ∉ ops) :
    (Floor.run ops).rejects (some 0) "" "/p" [tagNo 0] = false := by
  have hnames : (Floor.run ops).names =
      (Floor.init.raiseAll ((manyTags.map FloorName.tag).map (·, 1))).names := by
    rw [Floor.run_names, hraised]
  -- no other name than the tags is in the table
  have hother : ∀ n : FloorName, n.Spaceless → (∀ t, n ≠ .tag t) →
      (Floor.run ops).below 0 n = false := by
    intro n hn hne
    rw [← Bool.not_eq_true, Floor.below, hnames, Option.any_eq_true]
    rintro ⟨v, h, -⟩
    obtain ⟨p, hp, htext⟩ :=
      List.mem_map.mp (Floor.mem_keys_raiseAll (Map.mem_keys_iff.mpr ⟨v, h⟩))
    simp only [List.map_map, List.mem_map, Function.comp_apply] at hp
    obtain ⟨t, -, rfl⟩ := hp
    exact hne t (@FloorName.text_inj (.tag t) _ trivial hn htext).symm
  have hforgot : (Floor.init.raiseAll ((manyTags.map FloorName.tag).map (·, 1))).names.lookup
      (FloorName.tag (tagNo 0)).text = none := by
    have hnodup : ((manyTags.map FloorName.tag).map FloorName.text).Nodup := by
      rw [List.map_map]
      refine List.Nodup.map (fun t t' h => ?_) nodup_manyTags
      exact FloorName.tag.inj (FloorName.text_inj trivial trivial h)
    rw [manyTags, List.map_append, List.map_cons] at hnodup ⊢
    exact Floor.raiseAll_forgets hnodup (by simp [FLOOR_NAMES])
  have hpath : (FloorName.path "GET" "/p").Spaceless := by simp [FloorName.Spaceless]
  have hprefixPath : (FloorName.prefixPath "" "GET" "/p").Spaceless := by simp [FloorName.Spaceless]
  rw [← Bool.not_eq_true, Floor.rejects_some_iff, Floor.run_global]
  rintro (⟨seq, h, -⟩ | ⟨t, ht, h⟩ | h | ⟨-, h | h | ⟨t, -, h⟩⟩)
  · exact hclear seq h
  · cases List.mem_singleton.mp ht
    rw [Floor.below, hnames, hforgot] at h
    cases h
  · rw [hother _ hpath (fun _ he => by cases he)] at h
    cases h
  · rw [hother (.keyPrefix "") trivial (fun _ he => by cases he)] at h
    cases h
  · rw [hother _ hprefixPath (fun _ he => by cases he)] at h
    cases h
  · rw [hother (.prefixTag "" t) trivial (fun _ he => by cases he)] at h
    cases h

theorem raised_ofTags (ts : List String) (seq : ℕ) :
    (FloorOp.raise (ofTags ts) seq).raised = (ts.map FloorName.tag).map (·, seq) := by
  simp [FloorOp.raised, InvalidateArgs.floorNames, ofTags]

/-- The floor of the first tag is forgotten. -/
theorem rejects_manyTags :
    (Floor.run [.raise (ofTags manyTags) 1]).rejects (some 0) "" "/p" [tagNo 0] = false := by
  refine rejects_of_manyTags ?_ (by simp)
  rw [List.flatMap_singleton, raised_ofTags]

/-- A tag is raised, and refuses an entry; then `FLOOR_NAMES` others are. -/
theorem rejects_forgotten : ¬ ∀ (ops ops' : List FloorOp) (s : ℕ) (px path : String)
    (tags : List String), (Floor.run ops).rejects (some s) px path tags = true →
      (Floor.run (ops ++ ops')).rejects (some s) px path tags = true := by
  intro h
  have hfirst : (Floor.run [.raise (ofTags [tagNo 0]) 1]).rejects (some 0) "" "/p"
    [tagNo 0] = true := by
    decide
  have hall := h _ [.raise (ofTags (manyTags.drop 1)) 1] _ _ _ _ hfirst
  rw [rejects_of_manyTags ?_ (by simp)] at hall
  · cases hall
  · simp only [List.singleton_append, List.flatMap_cons, List.flatMap_nil, List.append_nil,
      raised_ofTags, ← List.map_append]
    rfl

end Brust.Core
