import Brust.Cloudflare.Object
import Brust.Cloudflare.Ring
import Brust.Support.Rollback

/-!
# Cloudflare — publishing inside a transaction

`publish` of the epoch object: the ring takes the event, the `meta` row its sequence number, and the
`inval` table the names it raises, all inside `transactionSync`.  A statement that throws puts the
tables back; the ring and the counters are fields of the object and stay as they are then.

A publish whose statements all run leaves the ring, the sequence and the row count of the memory as
those of the tables, and the table that `Table.bump` makes (`publish_commits`).  A publish that one
of them threw in has moved the ring (`publish_interrupted`), so the memory is what the tables say
after every call exactly where none is interrupted (`publish_atomic_iff`).
-/

namespace Brust.Cloudflare.Durable

open Brust.Core Brust.Adapter Brust.Adapter.Cloudflare Brust.Rollback

/-- The fields of a `BrustCacheDO` that a publish changes. -/
structure Memory where
  ring : Ring
  evicted : ℕ
  invalCount : ℕ

/-- The `meta` rows and the `inval` table. -/
structure Tables where
  seq : ℕ
  evicted : ℕ
  inval : Map String ℕ

/-- The constructor: a new ring at the persisted sequence number. -/
def construct (gen : String) (capEntries capBytes : ℕ) (d : Tables) : Memory :=
  ⟨.new gen d.seq capEntries capBytes, d.evicted, d.inval.keys.length⟩

/-! ### `bump`, statement by statement -/

/-- `SELECT`. -/
def select : Body Memory Tables := statement id

/-- `setMeta('seq', ..)` and `setMeta('evicted', ..)`. -/
def setSeq (v : ℕ) : Body Memory Tables := statement fun d => { d with seq := v }

def setEvicted (v : ℕ) : Body Memory Tables := statement fun d => { d with evicted := v }

/-- One name of the loop over `names`. -/
def bumpName (seq : ℕ) (s : Live Memory Tables) (n : String) :
    Except (Live Memory Tables) (Live Memory Tables) := do
  let s ← select s
  let s ← update (fun m =>
    if (s.disk.inval.lookup n).isNone then { m with invalCount := m.invalCount + 1 } else m) s
  statement (fun d => { d with inval := upsert d.inval n seq }) s

/-- One row of the loop over `old`. -/
def evictRow (s : Live Memory Tables) (o : Sigma fun _ : String => ℕ) :
    Except (Live Memory Tables) (Live Memory Tables) := do
  let s ← statement (fun d => { d with inval := d.inval.erase o.1 }) s
  update (fun m => { m with evicted := max m.evicted o.2 }) s

/-- What is over the bound is dropped, under the watermark. -/
def evictOver (excess : ℕ) (s : Live Memory Tables) :
    Except (Live Memory Tables) (Live Memory Tables) := do
  let s ← select s
  let old := lowest s.disk.inval excess
  let s ← old.foldlM evictRow s
  let s ← update (fun m => { m with invalCount := m.invalCount - old.length }) s
  setEvicted s.mem.evicted s

/-- The `INVAL_CAP` branch. -/
def evictAny (s : Live Memory Tables) : Except (Live Memory Tables) (Live Memory Tables) :=
  if s.mem.invalCount - INVAL_CAP > 0 then evictOver (s.mem.invalCount - INVAL_CAP) s else .ok s

def bump (names : List String) (seq : ℕ) (s : Live Memory Tables) :
    Except (Live Memory Tables) (Live Memory Tables) := do
  let s ← names.foldlM (bumpName seq) s
  evictAny s

/-- A call of `publish`, and how many of its statements run before one throws, if one does. -/
structure Call where
  args : InvalidateArgs
  origin : String
  runs : Option ℕ

/-- The statements: the sequence number is recorded, and the names raised to it. -/
def record (args : InvalidateArgs) (s : Live Memory Tables) :
    Except (Live Memory Tables) (Live Memory Tables) := do
  let s ← setSeq s.mem.ring.seq s
  bump (namesOf args) s.mem.ring.seq s

/-- What `transactionSync` is given. -/
def publishBody (size : Event → ℕ) (args : InvalidateArgs) (origin : String)
    (s : Live Memory Tables) : Except (Live Memory Tables) (Live Memory Tables) := do
  let s ← update (fun m => { m with ring := m.ring.publish size args origin }) s
  record args s

/-- The memory, the tables, and whether the call threw. -/
def publish (size : Event → ℕ) (m : Memory) (d : Tables) (c : Call) : Memory × Tables × Bool :=
  transaction (publishBody size c.args c.origin) m d c.runs

/-! ### What a publish issues -/

/-- The rows that are over the bound once the names are raised. -/
def overflow (m : Memory) (d : Tables) (names : List String) (seq : ℕ) :
    List (Sigma fun _ : String => ℕ) :=
  let rows := upsertAll d.inval names seq
  lowest rows (m.invalCount + (rows.keys.length - d.inval.keys.length) - INVAL_CAP)

/-- The statements of a publish: `seq`, two for each name, and the eviction if there is one. -/
def statements (m : Memory) (d : Tables) (args : InvalidateArgs) : ℕ :=
  let names := namesOf args
  let rows := upsertAll d.inval names (m.ring.seq + 1)
  1 + (2 * names.length +
    if m.invalCount + (rows.keys.length - d.inval.keys.length) > INVAL_CAP then
      2 + (overflow m d names (m.ring.seq + 1)).length
    else 0)

/-! ### The loops -/

/-- What one name does to the count and to the table. -/
def nameStep (seq : ℕ) (s : Memory × Tables) (n : String) : Memory × Tables :=
  (if (s.2.inval.lookup n).isNone then { s.1 with invalCount := s.1.invalCount + 1 } else s.1,
    { s.2 with inval := upsert s.2.inval n seq })

def rowStep (s : Memory × Tables) (o : Sigma fun _ : String => ℕ) : Memory × Tables :=
  ({ s.1 with evicted := max s.1.evicted o.2 }, { s.2 with inval := s.2.inval.erase o.1 })

theorem issues_bumpName (seq : ℕ) (m : Memory) (d : Tables) (n : String) :
    Issues (bumpName seq · n) m d 2 (nameStep seq (m, d) n).1 (nameStep seq (m, d) n).2 := by
  have hraise := (issues_update (fun m : Memory =>
    if (d.inval.lookup n).isNone then { m with invalCount := m.invalCount + 1 } else m) m d).andThen
      (issues_statement (fun d : Tables => { d with inval := upsert d.inval n seq }) _ d)
  refine ((issues_statement id m d).andThen hraise).congr fun left => ?_
  match left with
  | none => rfl
  | some 0 => rfl
  | some (_ + 1) => rfl

theorem issues_evictRow (m : Memory) (d : Tables) (o : Sigma fun _ : String => ℕ) :
    Issues (evictRow · o) m d 1 (rowStep (m, d) o).1 (rowStep (m, d) o).2 := by
  have hrow := (issues_statement (fun d : Tables => { d with inval := d.inval.erase o.1 })
    m d).andThen
    (issues_update (fun m : Memory => { m with evicted := max m.evicted o.2 }) m _)
  exact hrow.congr fun _ => rfl

theorem length_keys_upsert (rows : Map String ℕ) (n : String) (seq : ℕ) :
    (upsert rows n seq).keys.length =
      rows.keys.length + if (rows.lookup n).isNone then 1 else 0 := by
  unfold upsert
  cases h : rows.lookup n with
  | none =>
      have hn : n ∉ rows.keys := fun hmem => by
        obtain ⟨v, hv⟩ := Map.mem_keys_iff.mp hmem
        rw [h] at hv
        cases hv
      have herase : rows.keys.erase n = rows.keys := List.erase_of_not_mem hn
      simp [AList.keys_insert, herase]
  | some q => simp [AList.keys_replace]

theorem le_length_upsertAll (rows : Map String ℕ) (names : List String) (seq : ℕ) :
    rows.keys.length ≤ (upsertAll rows names seq).keys.length := by
  unfold upsertAll
  induction names generalizing rows with
  | nil => exact le_rfl
  | cons n names ih =>
      refine le_trans ?_ (ih (upsert rows n seq))
      rw [length_keys_upsert]
      exact Nat.le_add_right ..

theorem foldl_nameStep (seq : ℕ) (names : List String) (m : Memory) (d : Tables) :
    names.foldl (nameStep seq) (m, d) =
      ({ m with invalCount := m.invalCount +
          ((upsertAll d.inval names seq).keys.length - d.inval.keys.length) },
        { d with inval := upsertAll d.inval names seq }) := by
  induction names generalizing m d with
  | nil => simp [upsertAll]
  | cons n names ih =>
      have hle := le_length_upsertAll (upsert d.inval n seq) names seq
      have hlen := length_keys_upsert d.inval n seq
      have hall : upsertAll d.inval (n :: names) seq = upsertAll (upsert d.inval n seq) names seq :=
        rfl
      rw [List.foldl_cons, nameStep, ih, hall]
      refine Prod.ext ?_ rfl
      cases hn : (d.inval.lookup n).isNone with
      | true =>
          rw [hn, if_pos rfl] at hlen
          refine congrArg (Memory.mk m.ring m.evicted) ?_
          show m.invalCount + 1 + _ = _
          dsimp only
          omega
      | false =>
          rw [hn, if_neg Bool.false_ne_true] at hlen
          refine congrArg (Memory.mk m.ring m.evicted) ?_
          show m.invalCount + _ = _
          dsimp only
          omega

theorem dropRows_cons (rows : Map String ℕ) (o : Sigma fun _ : String => ℕ)
    (old : List (Sigma fun _ : String => ℕ)) :
    dropRows (rows.erase o.1) old = dropRows rows (o :: old) := by
  rw [dropRows, Map.erase_eq_restrict]
  refine AList.ext ?_
  show ((rows.entries.filter _).filter _) = rows.entries.filter _
  rw [List.filter_filter]
  refine List.filter_congr fun e _ => ?_
  rw [List.map_cons, Bool.eq_iff_iff, Bool.and_eq_true, decide_eq_true_iff, decide_eq_true_iff,
    decide_eq_true_iff, List.mem_cons, not_or, and_comm]

theorem foldl_rowStep (old : List (Sigma fun _ : String => ℕ)) (m : Memory) (d : Tables) :
    old.foldl rowStep (m, d) =
      ({ m with evicted := old.foldl (fun evicted o => max evicted o.2) m.evicted },
        { d with inval := dropRows d.inval old }) := by
  induction old generalizing m d with
  | nil =>
      have hnone : dropRows d.inval [] = d.inval :=
        AList.ext (List.filter_eq_self.mpr fun _ _ => rfl)
      rw [hnone]
      rfl
  | cons o old ih =>
      rw [List.foldl_cons, rowStep, ih]
      show (_, { d with inval := dropRows (d.inval.erase o.1) old }) = _
      rw [dropRows_cons]
      rfl

/-! ### What a publish leaves -/

/-- After the rows of `old` are gone. -/
def evicted (m : Memory) (d : Tables) (old : List (Sigma fun _ : String => ℕ)) : Memory × Tables :=
  let mark := old.foldl (fun evicted o => max evicted o.2) m.evicted
  ({ m with evicted := mark, invalCount := m.invalCount - old.length },
    { d with evicted := mark, inval := dropRows d.inval old })

/-- After the names are raised. -/
def raised (m : Memory) (d : Tables) (names : List String) (seq : ℕ) : Memory × Tables :=
  let rows := upsertAll d.inval names seq
  ({ m with invalCount := m.invalCount + (rows.keys.length - d.inval.keys.length) },
    { d with inval := rows })

section
variable (m : Memory) (d : Tables) (old : List (Sigma fun _ : String => ℕ)) (names : List String)
  (seq : ℕ)

theorem evicted_ring : (evicted m d old).1.ring = m.ring := rfl

theorem evicted_seq : (evicted m d old).2.seq = d.seq := rfl

theorem evicted_count : (evicted m d old).1.invalCount = m.invalCount - old.length := rfl

theorem evicted_inval : (evicted m d old).2.inval = dropRows d.inval old := rfl

theorem raised_ring : (raised m d names seq).1.ring = m.ring := rfl

theorem raised_seq : (raised m d names seq).2.seq = d.seq := rfl

theorem raised_inval : (raised m d names seq).2.inval = upsertAll d.inval names seq := rfl

end

/-- The memory and the tables after `bump`. -/
def bumped (m : Memory) (d : Tables) (names : List String) (seq : ℕ) : Memory × Tables :=
  if (raised m d names seq).1.invalCount > INVAL_CAP then
    evicted (raised m d names seq).1 (raised m d names seq).2 (overflow m d names seq)
  else raised m d names seq

theorem issues_evictOver (excess : ℕ) (m : Memory) (d : Tables) :
    Issues (evictOver excess) m d (2 + (lowest d.inval excess).length)
      (evicted m d (lowest d.inval excess)).1 (evicted m d (lowest d.inval excess)).2 := by
  have hrows := issues_foldlM issues_evictRow (lowest d.inval excess) m d
  rw [foldl_rowStep] at hrows
  have hcount := issues_update
    (fun m : Memory => { m with invalCount := m.invalCount - (lowest d.inval excess).length })
    { m with
      evicted := (lowest d.inval excess).foldl (fun evicted o => max evicted o.2) m.evicted }
    { d with inval := dropRows d.inval (lowest d.inval excess) }
  have hmark := issues_statement
    (fun t : Tables => { t with
      evicted := (lowest d.inval excess).foldl (fun evicted o => max evicted o.2) m.evicted })
    (evicted m d (lowest d.inval excess)).1
      { d with inval := dropRows d.inval (lowest d.inval excess) }
  have hend : Issues (fun s => update (fun m : Memory =>
      { m with invalCount := m.invalCount - (lowest d.inval excess).length }) s >>=
        fun s => setEvicted s.mem.evicted s) _ _ (0 + 1) _ _ :=
    (hcount.andThen hmark).congr fun _ => rfl
  have hn : 2 + (lowest d.inval excess).length = 1 + (1 * (lowest d.inval excess).length +
    (0 + 1)) := by
    omega
  rw [hn]
  refine ((issues_statement id m d).andThen (hrows.andThen hend)).congr fun left => ?_
  match left with
  | none => rfl
  | some 0 => rfl
  | some (_ + 1) => rfl

theorem issues_bump (names : List String) (seq : ℕ) (m : Memory) (d : Tables) :
    Issues (bump names seq) m d
      (2 * names.length + if (raised m d names seq).1.invalCount > INVAL_CAP then
        2 + (overflow m d names seq).length else 0)
      (bumped m d names seq).1 (bumped m d names seq).2 := by
  have hnames := issues_foldlM (issues_bumpName seq) names m d
  rw [foldl_nameStep] at hnames
  have hevict : Issues evictAny (raised m d names seq).1 (raised m d names seq).2
      (if (raised m d names seq).1.invalCount > INVAL_CAP then
        2 + (overflow m d names seq).length else 0)
      (bumped m d names seq).1 (bumped m d names seq).2 := by
    rw [bumped]
    split
    · next hover =>
      exact (issues_evictOver _ _ _).congr fun _ => if_pos (Nat.sub_pos_of_lt hover)
    · next hover =>
      have hnone : (raised m d names seq).1.invalCount - INVAL_CAP = 0 :=
        Nat.sub_eq_zero_of_le (Nat.le_of_not_lt hover)
      refine (issues_update id _ _).congr fun _ => if_neg fun hpos => ?_
      exact absurd hnone (Nat.ne_of_gt hpos)
  exact (hnames.andThen hevict).congr fun _ => rfl

/-- The memory and the tables after a publish that is not interrupted. -/
def published (size : Event → ℕ) (m : Memory) (d : Tables) (args : InvalidateArgs)
    (origin : String) : Memory × Tables :=
  bumped { m with ring := m.ring.publish size args origin } { d with seq := m.ring.seq + 1 }
    (namesOf args) (m.ring.seq + 1)

theorem publish_seq (size : Event → ℕ) (r : Ring) (args : InvalidateArgs) (origin : String) :
    (r.publish size args origin).seq = r.seq + 1 := rfl

theorem issues_publishBody (size : Event → ℕ) (m : Memory) (d : Tables) (args : InvalidateArgs)
    (origin : String) :
    Issues (publishBody size args origin) m d (statements m d args)
      (published size m d args origin).1 (published size m d args origin).2 := by
  have hring := issues_update
    (fun m : Memory => { m with ring := m.ring.publish size args origin }) m d
  have hseq := issues_statement (fun d : Tables => { d with seq := m.ring.seq + 1 })
    { m with ring := m.ring.publish size args origin } d
  have hbump := issues_bump (namesOf args) (m.ring.seq + 1)
    { m with ring := m.ring.publish size args origin } { d with seq := m.ring.seq + 1 }
  have hrecord : Issues (record args) _ d _ _ _ :=
    (hseq.andThen hbump).congr fun left => match left with
      | none => rfl
      | some 0 => rfl
      | some (_ + 1) => rfl
  have hn : statements m d args = 0 + (1 + (2 * (namesOf args).length +
      if (raised { m with ring := m.ring.publish size args origin }
        { d with seq := m.ring.seq + 1 } (namesOf args) (m.ring.seq + 1)).1.invalCount > INVAL_CAP
      then 2 + (overflow m d (namesOf args) (m.ring.seq + 1)).length else 0)) := by
    rw [statements, Nat.zero_add]
    rfl
  rw [hn]
  exact (hring.andThen hrecord).congr fun _ => rfl

/-! ### What an interrupted publish leaves -/

/-- The ring is `r`. -/
def RingIs (r : Ring) (m : Memory) : Prop := m.ring = r

theorem keeps_bumpName (r : Ring) (seq : ℕ) (n : String) : Keeps (RingIs r) (bumpName seq · n) := by
  refine (keeps_statement id).andThen fun s hs => ?_
  have hupdate : Keeps (RingIs r) (update (D := Tables) fun m : Memory =>
      if (s.disk.inval.lookup n).isNone then { m with invalCount := m.invalCount + 1 } else m) := by
    refine keeps_update fun m hm => ?_
    split
    · exact hm
    · exact hm
  exact hupdate.andThen (keeps_statement _) s hs

theorem keeps_evictRow (r : Ring) (o : Sigma fun _ : String => ℕ) :
    Keeps (RingIs r) (evictRow · o) :=
  (keeps_statement _).andThen (keeps_update fun _ hm => hm)

theorem keeps_evictOver (r : Ring) (excess : ℕ) : Keeps (RingIs r) (evictOver excess) := by
  refine (keeps_statement id).andThen fun s hs => ?_
  have hcount : Keeps (RingIs r) (update (D := Tables) fun m : Memory =>
      { m with invalCount := m.invalCount - (lowest s.disk.inval excess).length }) :=
    keeps_update fun _ hm => hm
  have hmark : Keeps (RingIs r) fun s => setEvicted s.mem.evicted s :=
    fun s hs => keeps_statement _ s hs
  exact (keeps_foldlM (keeps_evictRow r) _).andThen (hcount.andThen hmark) s hs

theorem keeps_bump (r : Ring) (names : List String) (seq : ℕ) :
    Keeps (RingIs r) (bump names seq) := by
  have hevict : Keeps (RingIs r) evictAny := by
    intro s hs
    unfold evictAny
    split
    · exact keeps_evictOver r _ s hs
    · exact hs
  exact (keeps_foldlM (keeps_bumpName r seq) names).andThen hevict

theorem keeps_record (r : Ring) (args : InvalidateArgs) : Keeps (RingIs r) (record args) := by
  have hseq : Keeps (RingIs r) fun s => setSeq s.mem.ring.seq s :=
    fun s hs => keeps_statement _ s hs
  have hbump : Keeps (RingIs r) fun s => bump (namesOf args) s.mem.ring.seq s :=
    fun s hs => keeps_bump r _ _ s hs
  exact hseq.andThen hbump

/-- The ring is the first thing that a publish changes, and stays as it is then. -/
theorem publishBody_ring (size : Event → ℕ) (args : InvalidateArgs) (origin : String)
    (s : Live Memory Tables) :
    (final (publishBody size args origin s)).mem.ring = s.mem.ring.publish size args origin := by
  rw [publishBody, update_bind]
  exact keeps_record _ args _ rfl

/-! ### What holds between the memory and the tables -/

/-- The ring's sequence is the persisted one, and the count that of the rows. -/
structure Exact (m : Memory) (d : Tables) : Prop where
  seq : m.ring.seq = d.seq
  count : m.invalCount = d.inval.keys.length

theorem exact_construct (gen : String) (capEntries capBytes : ℕ) (d : Tables) :
    Exact (construct gen capEntries capBytes d) d := ⟨rfl, rfl⟩

theorem lowest_subset (rows : Map String ℕ) (limit : ℕ) :
    lowest rows limit ⊆ rows.entries ∧ (lowest rows limit).Nodup := by
  have hperm : (rows.entries.reverse.mergeSort fun a b => decide (a.2 ≤ b.2)).Perm rows.entries :=
    (List.mergeSort_perm _ _).trans (List.reverse_perm _)
  exact ⟨fun o ho => hperm.mem_iff.mp (List.mem_of_mem_take ho),
    (hperm.nodup_iff.mpr rows.nodupKeys.nodup).sublist (List.take_sublist _ _)⟩

theorem Exact.after_bump {m : Memory} {d : Tables} (h : Exact m d) (names : List String) (seq : ℕ) :
    Exact (bumped m d names seq).1 (bumped m d names seq).2 := by
  have hle := le_length_upsertAll d.inval names seq
  have hcount : (raised m d names seq).1.invalCount =
      (raised m d names seq).2.inval.keys.length := by
    show m.invalCount + _ = _
    rw [h.count]
    exact Nat.add_sub_cancel' hle
  unfold bumped
  split
  · obtain ⟨hsub, hnodup⟩ := lowest_subset (upsertAll d.inval names seq)
      (m.invalCount + ((upsertAll d.inval names seq).keys.length - d.inval.keys.length) - INVAL_CAP)
    have hlen := Map.length_restrict_notMem hsub hnodup
    refine ⟨?_, ?_⟩
    · rw [evicted_ring, evicted_seq, raised_ring, raised_seq]
      exact h.seq
    · rw [evicted_count, evicted_inval, hcount, raised_inval]
      exact Nat.sub_eq_of_eq_add hlen.symm
  · exact ⟨h.seq, hcount⟩

theorem Exact.after_publish {m : Memory} {d : Tables} (h : Exact m d) (size : Event → ℕ)
    (args : InvalidateArgs) (origin : String) :
    Exact (published size m d args origin).1 (published size m d args origin).2 := by
  have hnext : Exact { m with ring := m.ring.publish size args origin }
      { d with seq := m.ring.seq + 1 } := ⟨publish_seq size m.ring args origin, h.count⟩
  exact hnext.after_bump (namesOf args) (m.ring.seq + 1)

/-! ### A call -/

/-- No statement of the call throws. -/
def Spared (m : Memory) (d : Tables) (c : Call) : Prop := Fits c.runs (statements m d c.args)

/-- A call that threw left the memory as it was, and the memory is what the tables say. -/
structure Atomic (size : Event → ℕ) (m : Memory) (d : Tables) (c : Call) : Prop where
  kept : (publish size m d c).2.2 = true → (publish size m d c).1 = m
  exact : Exact (publish size m d c).1 (publish size m d c).2.1

variable (size : Event → ℕ) {m : Memory} {d : Tables} {c : Call}

theorem publish_commits (hspared : Spared m d c) :
    publish size m d c = ((published size m d c.args c.origin).1,
      (published size m d c.args c.origin).2, false) :=
  (issues_publishBody size m d c.args c.origin).commit hspared

theorem publish_interrupted (h : ¬ Spared m d c) :
    (publish size m d c).2 = (d, true) ∧
      (publish size m d c).1.ring = m.ring.publish size c.args c.origin := by
  have hback := (issues_publishBody size m d c.args c.origin).rollback h
  rw [publish, hback]
  exact ⟨rfl, publishBody_ring size c.args c.origin ⟨m, d, c.runs⟩⟩

theorem atomic_iff (h : Exact m d) : Atomic size m d c ↔ Spared m d c := by
  constructor
  · intro hatomic
    by_contra hnot
    obtain ⟨hback, hring⟩ := publish_interrupted size hnot
    have hkept := hatomic.kept (by rw [hback])
    rw [hkept] at hring
    have hseq : m.ring.seq = m.ring.seq + 1 :=
      (congrArg Ring.seq hring).trans (publish_seq size m.ring c.args c.origin)
    exact absurd hseq (Nat.ne_of_lt (Nat.lt_succ_self _))
  · intro hspared
    have hcommit := publish_commits size hspared
    refine ⟨fun hthrew => ?_, ?_⟩
    · rw [hcommit] at hthrew
      cases hthrew
    · rw [hcommit]
      exact h.after_publish size c.args c.origin

/-! ### A run -/

/-- `P` holds of every call of the run, where the calls before it left the object. -/
def Throughout (size : Event → ℕ) (P : Memory → Tables → Call → Prop) :
    Memory → Tables → List Call → Prop
  | _, _, [] => True
  | m, d, c :: cs =>
    P m d c ∧ Throughout size P (publish size m d c).1 (publish size m d c).2.1 cs

theorem throughout_atomic_iff (h : Exact m d) (calls : List Call) :
    Throughout size (Atomic size) m d calls ↔ Throughout size Spared m d calls := by
  induction calls generalizing m d with
  | nil => exact Iff.rfl
  | cons c calls ih =>
      rw [Throughout, Throughout, atomic_iff size h]
      refine and_congr_right fun hspared => ih ?_
      exact ((atomic_iff size h).mpr hspared).exact

/-- **The memory is that of the tables after every publish, and as before after one that threw,
exactly where no statement of any publish throws.** -/
theorem publish_atomic_iff (size : Event → ℕ) (gen : String) (capEntries capBytes : ℕ) (d : Tables)
    (calls : List Call) :
    Throughout size (Atomic size) (construct gen capEntries capBytes d) d calls ↔
      Throughout size Spared (construct gen capEntries capBytes d) d calls :=
  throughout_atomic_iff size (exact_construct gen capEntries capBytes d) calls

/-! ### Where one throws -/

def oneName : InvalidateArgs := ⟨none, ["a"], none, none, none⟩

/-- A new object with no rows, after a publish and its retry. -/
def retried (first second : Option ℕ) : Memory × Tables × Bool :=
  let s := publish (fun _ => 1) (construct "g" 1024 1048576 ⟨0, 0, ∅⟩) ⟨0, 0, ∅⟩
    ⟨oneName, "o", first⟩
  publish (fun _ => 1) s.1 s.2.1 ⟨oneName, "o", second⟩

/-- The `INSERT` of the name throws: the sequence is ahead of the persisted one, and the name is
counted once more when the adapter publishes again. -/
theorem publish_tears :
    ¬ Throughout (fun _ => 1) (Atomic fun _ => 1) (construct "g" 1024 1048576 ⟨0, 0, ∅⟩) ⟨0, 0, ∅⟩
      [⟨oneName, "o", some 2⟩, ⟨oneName, "o", none⟩] ∧
    (retried (some 2) none).1.invalCount = 2 ∧ (retried (some 2) none).2.1.inval.keys =
      ["t:a"] := by
  refine ⟨fun h => ?_, by decide, by decide⟩
  exact absurd h.1.exact.seq (by decide)

end Brust.Cloudflare.Durable
