import Brust.Adapter.Names
import Brust.Cache.Stamps
import Brust.Support.Pool

/-!
# Adapter — the memory store

The reference store: pages with what covers them, and for every marker name the highest number it
was marked at.  An invalidation marks its names at the number its publish will take and deletes
what it covers; a set is refused when a name of its page was marked above its stamp.

No page is served that an invalidation covers and whose stamp is older than the next publish after
it, nor one set after a publish that covers it with a stamp from before (`entry_fresh`); and a set
is refused for such a reason only (`set_refused_iff`).
-/

namespace Brust.Adapter.Memory

open Brust.Core Brust.Cache

/-! ### The store -/

/-- `Entry` -/
structure Stored (P : Type) where
  page : P
  entry : Entry
  entryStamp : Option ℕ
  storedAt : ℕ
  expiresAt : ℕ

structure SetMeta where
  ttlMs : ℕ
  tags : List String
  method : String
  path : String
  keyPrefix : Option String
  stamp : Option ℕ

def SetMeta.entry (m : SetMeta) : Entry := ⟨m.tags, m.method, m.path, m.keyPrefix.getD ""⟩

structure GetResult (P : Type) where
  page : Option P
  stamp : Option ℕ
  entryStamp : Option ℕ
  storedAt : Option ℕ

structure Options (P : Type) where
  /-- The mode is not `none`. -/
  guarded : Bool
  maxBodyBytes : ℕ
  bodyLength : P → ℕ

/-- What `memoryAdapter` closes over. -/
structure Store (P : Type) where
  entries : String → Option (Stored P)
  nameSeq : String → ℕ
  seq : ℕ

namespace Store

variable {P : Type} (o : Options P) (m : Store P)

def new : Store P := ⟨fun _ => none, fun _ => 0, 0⟩

def mark (args : InvalidateArgs) (s : ℕ) : Store P :=
  { m with nameSeq := Stamps.publish m.nameSeq (invalidationNames args) s }

def get (key : String) (now : ℕ) : Store P × GetResult P :=
  let stamp := if o.guarded then some m.seq else none
  match m.entries key with
  | none => (m, ⟨none, stamp, none, none⟩)
  | some e =>
    if e.expiresAt ≤ now then
      ({ m with entries := Function.update m.entries key none }, ⟨none, stamp, none, none⟩)
    else (m, ⟨some e.page, stamp, e.entryStamp, some e.storedAt⟩)

def set (key : String) (page : P) (meta' : SetMeta) (now : ℕ) : Store P × Bool :=
  if o.bodyLength page > o.maxBodyBytes then (m, false)
  else if meta'.stamp.any (Stamps.after m.nameSeq (entryNames meta'.entry)) then (m, false)
  else
    ({ m with
      entries := Function.update m.entries key
        (some ⟨page, meta'.entry, meta'.stamp, now, now + meta'.ttlMs⟩) }, true)

/-- The marker first, at the seq the matching publish will take; then the delete. -/
def invalidate (args : InvalidateArgs) : Store P :=
  let m := m.mark args (m.seq + 1)
  { m with entries := fun k => (m.entries k).filter fun e => !covers args e.entry }

def publish (args : InvalidateArgs) : Store P :=
  { m with seq := m.seq + 1 }.mark args (m.seq + 1)

end Store

/-! ### Runs -/

/-- What raises markers. -/
inductive Mark where
  | invalidated (args : InvalidateArgs)
  | published (args : InvalidateArgs)
  deriving DecidableEq

namespace Mark

def args : Mark → InvalidateArgs
  | invalidated a => a
  | published a => a

def isPublish : Mark → Bool
  | invalidated _ => false
  | published _ => true

end Mark

/-- A page, and how many marks there were when its stamp was read and when it was set. -/
structure Traced (B : Type) where
  body : B
  readAt : ℕ
  setAt : ℕ

/-- The store, the marks so far, and the stamps that were read, each with the number of marks
then. -/
structure State (B : Type) where
  store : Store (Traced B)
  log : List Mark
  stamps : List (ℕ × ℕ)

variable {B : Type}

/-- A call runs to its end without an await.  A set has the stamp of some get, or none. -/
inductive Step (o : Options (Traced B)) : State B → Unit → State B → Prop where
  | get {σ : State B} (key : String) (now : ℕ) :
      Step o σ () { σ with
        store := (σ.store.get o key now).1
        stamps := (σ.store.get o key now).2.stamp.toList.map (·, σ.log.length) ++ σ.stamps }
  | set {σ : State B} (key : String) (body : B) (meta' : SetMeta) (now : ℕ) {s n : ℕ}
      (hs : meta'.stamp = some s) (hn : (s, n) ∈ σ.stamps) :
      Step o σ () { σ with store := (σ.store.set o key ⟨body, n, σ.log.length⟩ meta' now).1 }
  | setUnguarded {σ : State B} (key : String) (page : Traced B) (meta' : SetMeta) (now : ℕ)
      (hs : meta'.stamp = none) :
      Step o σ () { σ with store := (σ.store.set o key page meta' now).1 }
  | invalidate {σ : State B} (args : InvalidateArgs) :
      Step o σ () { σ with
        store := σ.store.invalidate args
        log := σ.log ++ [.invalidated args] }
  | publish {σ : State B} (args : InvalidateArgs) :
      Step o σ () { σ with
        store := σ.store.publish args
        log := σ.log ++ [.published args] }

def Init (σ : State B) : Prop := σ = ⟨.new, [], []⟩

abbrev Run (o : Options (Traced B)) : State B → Prop := Reach Init (Step o) anyStep

/-! ### The numbers of the marks -/

/-- How many of the first `n` marks are publishes. -/
def pubs (log : List Mark) (n : ℕ) : ℕ := (log.take n).countP Mark.isPublish

/-- The marks with their numbers: each the one that the next publish takes, or itself takes. -/
def issued (log : List Mark) : List (Mark × ℕ) :=
  (List.range log.length).filterMap fun p => log[p]?.map (·, pubs log p + 1)

theorem pubs_mono (log : List Mark) {p n : ℕ} (h : p ≤ n) : pubs log p ≤ pubs log n :=
  ((List.take_prefix_take_left h).sublist).countP_le

theorem pubs_append (log rest : List Mark) {n : ℕ} (h : n ≤ log.length) :
    pubs (log ++ rest) n = pubs log n := by
  rw [pubs, pubs, List.take_append_of_le_length h]

theorem pubs_succ {log : List Mark} {p : ℕ} {k : Mark} (h : log[p]? = some k) :
    pubs log (p + 1) = pubs log p + if k.isPublish then 1 else 0 := by
  rw [pubs, pubs, List.take_add_one, h, Option.toList_some, List.countP_append,
    List.countP_singleton]

/-- There are more publishes between two places only if one stands between them. -/
theorem exists_publish {log : List Mark} {p n : ℕ} (h : pubs log p < pubs log n) :
    ∃ q args, p ≤ q ∧ q < n ∧ log[q]? = some (.published args) := by
  induction n with
  | zero => exact absurd h (by simp [pubs])
  | succ n ih =>
      by_cases hlt : pubs log p < pubs log n
      · obtain ⟨q, args, hpq, hqn, hq⟩ := ih hlt
        exact ⟨q, args, hpq, by omega, hq⟩
      · have hpn : p ≤ n := by
          by_contra hnp
          have := pubs_mono log (show n + 1 ≤ p by omega)
          omega
        cases hn : log[n]? with
        | none =>
            have hlen := List.getElem?_eq_none_iff.mp hn
            have htake : pubs log (n + 1) = pubs log n := by
              rw [pubs, pubs, List.take_of_length_le (by omega), List.take_of_length_le hlen]
            omega
        | some k =>
            rw [pubs_succ hn] at h
            cases k with
            | invalidated args =>
                simp only [Mark.isPublish, Bool.false_eq_true, if_false] at h
                omega
            | published args => exact ⟨n, args, hpn, by omega, hn⟩

theorem pubs_lt {log : List Mark} {p q n : ℕ} {args : InvalidateArgs} (hpq : p ≤ q) (hqn : q < n)
    (hq : log[q]? = some (.published args)) : pubs log p < pubs log n := by
  have hp := pubs_mono log hpq
  have hn := pubs_mono log (show q + 1 ≤ n by omega)
  rw [pubs_succ hq] at hn
  simp only [Mark.isPublish, if_true] at hn
  omega

theorem mem_issued {log : List Mark} {k : Mark} {v : ℕ} :
    (k, v) ∈ issued log ↔ ∃ p, log[p]? = some k ∧ v = pubs log p + 1 := by
  simp only [issued, List.mem_filterMap, List.mem_range, Option.map_eq_some_iff, Prod.mk.injEq]
  constructor
  · rintro ⟨p, -, k', hk, rfl, rfl⟩
    exact ⟨p, hk, rfl⟩
  · rintro ⟨p, hk, rfl⟩
    exact ⟨p, (List.getElem?_eq_some_iff.mp hk).1, k, hk, rfl, rfl⟩

theorem getElem?_concat {log : List Mark} {k k' : Mark} {p : ℕ}
    (h : (log ++ [k])[p]? = some k') : log[p]? = some k' ∨ p = log.length ∧ k' = k := by
  rw [List.getElem?_append] at h
  split at h
  · exact .inl h
  · next hp =>
    rw [List.getElem?_singleton] at h
    split at h
    · exact .inr ⟨by omega, (Option.some.inj h).symm⟩
    · cases h

theorem pubs_concat (log : List Mark) (k : Mark) : pubs (log ++ [k]) (log ++ [k]).length =
    pubs log log.length + if k.isPublish then 1 else 0 := by
  rw [List.length_append, List.length_singleton, pubs_succ (List.getElem?_concat_length ..),
    pubs_append _ _ le_rfl]

theorem mem_issued_concat {log : List Mark} {k : Mark} (x : Mark × ℕ) :
    x ∈ issued (log ++ [k]) ↔ x ∈ (k, pubs log log.length + 1) :: issued log := by
  obtain ⟨k', v⟩ := x
  rw [mem_issued, List.mem_cons, mem_issued, Prod.mk.injEq]
  constructor
  · rintro ⟨p, hp, rfl⟩
    rcases getElem?_concat hp with hp | ⟨rfl, rfl⟩
    · exact .inr ⟨p, hp, by rw [pubs_append _ _ (List.getElem?_eq_some_iff.mp hp).1.le]⟩
    · exact .inl ⟨rfl, by rw [pubs_append _ _ le_rfl]⟩
  · rintro (⟨rfl, rfl⟩ | ⟨p, hp, rfl⟩)
    · exact ⟨log.length, List.getElem?_concat_length .., by rw [pubs_append _ _ le_rfl]⟩
    · have hlt := (List.getElem?_eq_some_iff.mp hp).1
      exact ⟨p, by rw [List.getElem?_append_left hlt, hp], by rw [pubs_append _ _ hlt.le]⟩

/-! ### The invariant -/

abbrev Published (nameSeq : String → ℕ) (log : List Mark) : Prop :=
  Stamps.Published (fun k : Mark => invalidationNames k.args) nameSeq (issued log)

theorem Published.concat {nameSeq : String → ℕ} {log : List Mark} (h : Published nameSeq log)
    (k : Mark) : Published
      (Stamps.publish nameSeq (invalidationNames k.args) (pubs log log.length + 1))
      (log ++ [k]) := by
  have hissue := h.issue k (pubs log log.length + 1)
  exact ⟨fun hi hr => hissue.le ((mem_issued_concat _).mp hi) hr, fun hr =>
    (hissue.cause hr).imp fun _ hi => ⟨(mem_issued_concat _).mpr hi.1, hi.2⟩⟩

/-- A guarded entry: its stamp is the number of publishes when it was read, and no mark that covers
it and could have refused it is above. -/
structure Guarded (log : List Mark) (e : Stored (Traced B)) (s : ℕ) : Prop where
  readAt : e.page.readAt ≤ log.length
  setAt : e.page.setAt ≤ log.length
  stamp : s = pubs log e.page.readAt
  invalidated : ∀ p a, log[p]? = some (.invalidated a) → covers a e.entry = true →
    pubs log p < s
  published : ∀ p a, log[p]? = some (.published a) → covers a e.entry = true →
    p < e.page.setAt → pubs log p < s

structure Inv (σ : State B) : Prop where
  seq : σ.store.seq = pubs σ.log σ.log.length
  marks : Published σ.store.nameSeq σ.log
  stamps : ∀ s n, (s, n) ∈ σ.stamps → n ≤ σ.log.length ∧ s = pubs σ.log n
  entries : ∀ k e s, σ.store.entries k = some e → e.entryStamp = some s → Guarded σ.log e s

/-- Names of a covering invalidation meet the names of the entry. -/
theorem meet_of_covers {a : InvalidateArgs} {e : Entry} (h : covers a e = true) :
    Meet (invalidationNames a) (entryNames e) := by
  rw [memory_invalidationNames, memory_entryNames]
  exact (agrees_raised fun _ _ => rfl).1 h

theorem Guarded.concat {log : List Mark} {e : Stored (Traced B)} {s : ℕ} (h : Guarded log e s)
    (k : Mark) (hk : ∀ a, k = .invalidated a → covers a e.entry = false) :
    Guarded (log ++ [k]) e s := by
  have hlen : log.length ≤ (log ++ [k]).length := by simp
  refine ⟨h.readAt.trans hlen, h.setAt.trans hlen, ?_, fun p a hp hc => ?_, fun p a hp hc hlt => ?_⟩
  · rw [pubs_append _ _ h.readAt, h.stamp]
  · rcases getElem?_concat hp with hp | ⟨-, rfl⟩
    · rw [pubs_append _ _ (List.getElem?_eq_some_iff.mp hp).1.le]
      exact h.invalidated p a hp hc
    · rw [hk a rfl] at hc
      cases hc
  · rcases getElem?_concat hp with hp | ⟨rfl, -⟩
    · rw [pubs_append _ _ (List.getElem?_eq_some_iff.mp hp).1.le]
      exact h.published p a hp hc hlt
    · exact absurd h.setAt (by omega)

/-- A set is refused for a mark whose names meet the page's, at or after which no publish was seen
by the read of its stamp. -/
theorem Inv.after_iff {σ : State B} (h : Inv σ) {s n : ℕ} (hn : (s, n) ∈ σ.stamps) (e : Entry) :
    Stamps.after σ.store.nameSeq (entryNames e) s = true ↔
      ∃ p k, σ.log[p]? = some k ∧ Meet (invalidationNames k.args) (entryNames e) ∧
        ∀ q a, p ≤ q → q < n → σ.log[q]? ≠ some (.published a) := by
  obtain ⟨-, rfl⟩ := h.stamps s n hn
  rw [h.marks.after_iff]
  constructor
  · rintro ⟨k, v, hv, hlt, r, hr, hre⟩
    obtain ⟨p, hp, rfl⟩ := mem_issued.mp hv
    refine ⟨p, k, hp, ⟨r, hr, hre⟩, fun q a hpq hqn hq => ?_⟩
    have := pubs_lt hpq hqn hq
    omega
  · rintro ⟨p, k, hp, ⟨r, hr, hre⟩, hnone⟩
    refine ⟨k, _, mem_issued.mpr ⟨p, hp, rfl⟩, ?_, r, hr, hre⟩
    by_contra hlt
    have hpubs : pubs σ.log p < pubs σ.log n := by omega
    obtain ⟨q, a, hpq, hqn, hq⟩ := exists_publish hpubs
    exact hnone q a hpq hqn hq

variable {o : Options (Traced B)}

theorem Inv.get {σ : State B} (h : Inv σ) (key : String) (now : ℕ) : Inv { σ with
    store := (σ.store.get o key now).1
    stamps := (σ.store.get o key now).2.stamp.toList.map (·, σ.log.length) ++ σ.stamps } := by
  have hstore : (σ.store.get o key now).1.seq = σ.store.seq ∧
      (σ.store.get o key now).1.nameSeq = σ.store.nameSeq ∧
      (∀ k e, (σ.store.get o key now).1.entries k = some e → σ.store.entries k = some e) ∧
      ∀ s, (σ.store.get o key now).2.stamp = some s → s = σ.store.seq := by
    have hstamp : ∀ s, (if o.guarded then some σ.store.seq else none) = some s →
        s = σ.store.seq := by
      intro s hs
      split at hs
      · exact (Option.some.inj hs).symm
      · cases hs
    rw [Store.get]
    split
    · exact ⟨rfl, rfl, fun _ _ => id, hstamp⟩
    · split
      · refine ⟨rfl, rfl, fun k e he => ?_, hstamp⟩
        change Function.update σ.store.entries key none k = some e at he
        by_cases hk : k = key
        · subst hk
          rw [Function.update_self] at he
          cases he
        · rwa [Function.update_of_ne hk] at he
      · exact ⟨rfl, rfl, fun _ _ => id, hstamp⟩
  obtain ⟨hseq, hnames, hentries, hstamp⟩ := hstore
  refine ⟨hseq.trans h.seq, hnames ▸ h.marks, fun s n hn => ?_, fun k e s he => ?_⟩
  · rcases List.mem_append.mp hn with hn | hn
    · obtain ⟨s', hs', heq⟩ := List.mem_map.mp hn
      obtain ⟨rfl, rfl⟩ := Prod.mk.inj heq
      exact ⟨le_rfl, (hstamp s' (Option.mem_toList.mp hs')).trans h.seq⟩
    · exact h.stamps s n hn
  · exact h.entries k e s (hentries k e he)

/-- What a set does: nothing, or the page is in, for which no mark was above its stamp. -/
theorem Store.set_cases (o : Options (Traced B)) (m : Store (Traced B)) (key : String)
    (page : Traced B) (meta' : SetMeta) (now : ℕ) :
    (m.set o key page meta' now).1 = m ∨
      (∀ s, meta'.stamp = some s → Stamps.after m.nameSeq (entryNames meta'.entry) s = false) ∧
        (m.set o key page meta' now).1 = { m with
          entries := Function.update m.entries key
            (some ⟨page, meta'.entry, meta'.stamp, now, now + meta'.ttlMs⟩) } := by
  rw [Store.set]
  split
  · exact .inl rfl
  · split
    · exact .inl rfl
    · next hafter =>
      refine .inr ⟨fun s hs => ?_, rfl⟩
      rw [hs, Option.any_some, Bool.not_eq_true] at hafter
      exact hafter

theorem Inv.set {σ : State B} (h : Inv σ) (key : String) (page : Traced B) (meta' : SetMeta)
    (now : ℕ) (hguarded : ∀ s, meta'.stamp = some s → (s, page.readAt) ∈ σ.stamps ∧
      page.setAt = σ.log.length) :
    Inv { σ with store := (σ.store.set o key page meta' now).1 } := by
  rcases Store.set_cases o σ.store key page meta' now with heq | ⟨hafter, heq⟩
  · rw [heq]
    exact h
  · rw [heq]
    refine ⟨h.seq, h.marks, h.stamps, fun k e s he hs => ?_⟩
    change Function.update σ.store.entries key _ k = some e at he
    by_cases hk : k = key
    · subst hk
      rw [Function.update_self] at he
      obtain rfl := Option.some.inj he
      obtain ⟨hmem, hset⟩ := hguarded s hs
      obtain ⟨hle, hstamp⟩ := h.stamps s _ hmem
      have hlt : ∀ p k, σ.log[p]? = some k → covers k.args meta'.entry = true →
          pubs σ.log p < s := by
        intro p k hp hc
        obtain ⟨r, hr, hre⟩ := meet_of_covers hc
        by_contra hge
        have htrue := h.marks.after_iff.mpr ⟨k, _, mem_issued.mpr ⟨p, hp, rfl⟩,
          Nat.lt_succ_of_le (Nat.le_of_not_lt hge), r, hr, hre⟩
        rw [hafter s hs] at htrue
        cases htrue
      exact ⟨hle, hset.le, hstamp, fun p a hp hc => hlt p _ hp hc, fun p a hp hc _ => hlt p _ hp hc⟩
    · rw [Function.update_of_ne hk] at he
      exact h.entries k e s he hs

theorem Inv.invalidate {σ : State B} (h : Inv σ) (args : InvalidateArgs) : Inv { σ with
    store := σ.store.invalidate args
    log := σ.log ++ [.invalidated args] } := by
  refine ⟨?_, ?_, fun s n hn => ?_, fun k e s he hs => ?_⟩
  · rw [pubs_concat]
    exact h.seq
  · have hconcat := h.marks.concat (.invalidated args)
    rw [← h.seq] at hconcat
    exact hconcat
  · obtain ⟨hle, rfl⟩ := h.stamps s n hn
    exact ⟨hle.trans (by simp), (pubs_append _ _ hle).symm⟩
  · obtain ⟨he, hcovers⟩ := Option.filter_eq_some_iff.mp he
    refine (h.entries k e s he hs).concat _ fun a ha => ?_
    cases ha
    simpa using hcovers

theorem Inv.publish {σ : State B} (h : Inv σ) (args : InvalidateArgs) : Inv { σ with
    store := σ.store.publish args
    log := σ.log ++ [.published args] } := by
  refine ⟨?_, ?_, fun s n hn => ?_, fun k e s he hs => ?_⟩
  · rw [pubs_concat, ← h.seq]
    rfl
  · have hconcat := h.marks.concat (.published args)
    rw [← h.seq] at hconcat
    exact hconcat
  · obtain ⟨hle, rfl⟩ := h.stamps s n hn
    exact ⟨hle.trans (by simp), (pubs_append _ _ hle).symm⟩
  · exact (h.entries k e s he hs).concat _ fun a ha => by cases ha

theorem Run.inv {σ : State B} (r : Run o σ) : Inv σ := by
  refine Reach.inv (fun σ h => ?_) (fun σ _ σ' h hstep _ => ?_) r
  · obtain rfl : σ = ⟨.new, [], []⟩ := h
    refine ⟨rfl, Stamps.published_init _, fun s n hn => ?_, fun k e s he => ?_⟩
    · cases hn
    · cases he
  · cases hstep with
    | get key now => exact h.get key now
    | set key body meta' now hs hn =>
        refine h.set key _ meta' now fun s' hs' => ?_
        obtain rfl := Option.some.inj (hs.symm.trans hs')
        exact ⟨hn, rfl⟩
    | setUnguarded key page meta' now hs =>
        refine h.set key page meta' now fun s' hs' => ?_
        rw [hs] at hs'
        cases hs'
    | invalidate args => exact h.invalidate args
    | publish args => exact h.publish args

/-! ### What is served, and what is refused -/

/-- **No stale page.**  An entry that an invalidation covers is in the store only with a stamp that
was read after a publish that came after it; and one that a publish covers, and that was set after
it, only with a stamp that was read after it. -/
theorem entry_fresh {σ : State B} (r : Run o σ) {key : String} {e : Stored (Traced B)} {s : ℕ}
    (he : σ.store.entries key = some e) (hs : e.entryStamp = some s) {p : ℕ}
    {args : InvalidateArgs} (hcovers : covers args e.entry = true) :
    (σ.log[p]? = some (.invalidated args) →
      ∃ q args', p < q ∧ q < e.page.readAt ∧ σ.log[q]? = some (.published args')) ∧
    (σ.log[p]? = some (.published args) → p < e.page.setAt → p < e.page.readAt) := by
  have hguarded := r.inv.entries key e s he hs
  refine ⟨fun hp => ?_, fun hp hset => ?_⟩
  · have hlt := hguarded.invalidated p args hp hcovers
    rw [hguarded.stamp] at hlt
    obtain ⟨q, args', hpq, hqn, hq⟩ := exists_publish hlt
    refine ⟨q, args', lt_of_le_of_ne hpq ?_, hqn, hq⟩
    rintro rfl
    rw [hp] at hq
    cases hq
  · have hlt := hguarded.published p args hp hcovers hset
    rw [hguarded.stamp] at hlt
    by_contra hge
    have := pubs_mono σ.log (show e.page.readAt ≤ p by omega)
    omega

/-- An invalidation by tag and its publish, then a render that read its stamp after both. -/
theorem entry_fresh_tag :
    let o : Options (Traced Unit) := ⟨true, 10, fun _ => 1⟩
    let a : InvalidateArgs := ⟨none, ["t"], none, none, none⟩
    let σ : State Unit := ⟨(((Store.new.invalidate a).publish a).set o "k" ⟨(), 2, 2⟩
      ⟨5, ["t"], "GET", "/", none, some 1⟩ 0).1, [.invalidated a, .published a], [(1, 2)]⟩
    ∃ q args', 0 < q ∧ q < 2 ∧ σ.log[q]? = some (.published args') := by
  intro o a σ
  have r : Run o σ := (((Reach.init rfl : Run o ⟨.new, [], []⟩).step (.invalidate a) trivial).step
    (.publish a) trivial).step (.get "k" 0) trivial |>.step
      (.set "k" () ⟨5, ["t"], "GET", "/", none, some 1⟩ 0 rfl (.head _)) trivial
  have he : σ.store.entries "k" =
      some ⟨⟨(), 2, 2⟩, ⟨["t"], "GET", "/", ""⟩, some 1, 0, 5⟩ := rfl
  have hcovers : covers a ⟨["t"], "GET", "/", ""⟩ = true := by decide
  have hp : σ.log[0]? = some (.invalidated a) := rfl
  exact (entry_fresh r he rfl hcovers).1 hp

/-- **The stale-write guard is exact.**  A set is refused for its length, or for a mark that meets a
name of its page and that the read of its stamp had no publish after. -/
theorem set_refused_iff {σ : State B} (r : Run o σ) {s n : ℕ} (hn : (s, n) ∈ σ.stamps)
    (key : String) (page : Traced B) (meta' : SetMeta) (hs : meta'.stamp = some s) (now : ℕ) :
    (σ.store.set o key page meta' now).2 = false ↔
      o.maxBodyBytes < o.bodyLength page ∨
        ∃ p k, σ.log[p]? = some k ∧
          Meet (invalidationNames k.args) (entryNames meta'.entry) ∧
          ∀ q a, p ≤ q → q < n → σ.log[q]? ≠ some (.published a) := by
  rw [← r.inv.after_iff hn, Store.set, hs, Option.any_some]
  by_cases hlen : o.maxBodyBytes < o.bodyLength page
  · simp [hlen]
  · rw [if_neg hlen]
    by_cases hafter : Stamps.after σ.store.nameSeq (entryNames meta'.entry) s = true
    · simp [hafter]
    · simp [hlen, hafter]

/-- A render that read its stamp before an invalidation of its tag. -/
theorem set_refused_iff_tag :
    let o : Options (Traced Unit) := ⟨true, 10, fun _ => 1⟩
    let a : InvalidateArgs := ⟨none, ["t"], none, none, none⟩
    let m : SetMeta := ⟨5, ["t"], "GET", "/", none, some 0⟩
    ((Store.new.invalidate a).set o "k" ⟨(), 0, 1⟩ m 0).2 = false ↔
      10 < 1 ∨ ∃ p k, [Mark.invalidated a][p]? = some k ∧
        Meet (invalidationNames k.args) (entryNames m.entry) ∧
        ∀ q b, p ≤ q → q < 0 → [Mark.invalidated a][q]? ≠ some (.published b) := by
  intro o a m
  have r : Run o ⟨Store.new.invalidate a, [.invalidated a], [(0, 0)]⟩ :=
    ((Reach.init rfl : Run o ⟨.new, [], []⟩).step (.get "k" 0) trivial).step (.invalidate a) trivial
  exact set_refused_iff r (.head _) "k" ⟨(), 0, 1⟩ m rfl 0

end Brust.Adapter.Memory
