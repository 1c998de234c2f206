import Brust.Cloudflare.Frame

/-!
# Cloudflare — the KV store

`kvAdapter().store` over a KV namespace: `set` frames the page and puts it, unless the memo says
that the same isolate put one of the same print under that key less than a minute ago; `get` reads
the frame and judges its own expiry.  A location keeps what it read for a minute, and answers from
that whatever was put since.

What the memo says of a key, KV holds of it (`Store.Backed`): every entry is the print of a call
whose frame is still the one a read gives that no cached one hides.  So a `set` that answers true
leaves the page of its own call or of the call it was skipped for (`set_kept`), and where the two
have one body such a read before that call's expiry gives the page and the meta back.  The expiry
itself is not part of the print.
-/

namespace Brust.Cloudflare.Kv

open Brust.Core

/-! ### The namespace -/

/-- `cacheTtl` of the reads, in seconds. -/
def CACHE_TTL_S : ℕ := 60

/-- A KV namespace at a location: a read with its `cacheTtl`, which the location may answer from
what it read before and may keep; and a put with its `expirationTtl`, which may throw with a
message. -/
structure KVNamespace where
  State : Type
  get : State → String → ℕ → ℕ → Option (List UInt8) × State
  put : State → String → List UInt8 → ℕ → ℕ → State × Option String
  /-- At this time the location answers for the key with a read from before its last put. -/
  hides : State → String → ℕ → Prop

namespace KVNamespace

variable {kv : KVNamespace}

/-- Reads of the key at this time are alike in both states. -/
def SameAt (kv : KVNamespace) (k : String) (t : ℕ) (s s' : kv.State) : Prop :=
  (kv.get s' k CACHE_TTL_S t).1 = (kv.get s k CACHE_TTL_S t).1 ∧ (kv.hides s k t → kv.hides s' k t)

/-- KV for its only writer: a put is read until it expires, unless a cached read hides it; it
touches no other key, writes nothing if it throws, and takes 25 MiB at most.  A read leaves the
later ones as they are, and what it keeps does not end what is hidden. -/
structure Documented (kv : KVNamespace) : Prop where
  put_get {s s' : kv.State} {k : String} {v : List UInt8} {ttlS now : ℕ}
    (h : kv.put s k v ttlS now = (s', none)) {t : ℕ} (ht : t < now + ttlS * 1000)
    (hshown : ¬ kv.hides s' k t) : (kv.get s' k CACHE_TTL_S t).1 = some v
  put_other (s : kv.State) (k : String) (v : List UInt8) (ttlS now : ℕ) {k' : String}
    (hk : k' ≠ k) (t : ℕ) : kv.SameAt k' t s (kv.put s k v ttlS now).1
  put_thrown {s s' : kv.State} {k : String} {v : List UInt8} {ttlS now : ℕ} {message : String}
    (h : kv.put s k v ttlS now = (s', some message)) (t : ℕ) : kv.SameAt k t s s'
  put_size {s s' : kv.State} {k : String} {v : List UInt8} {ttlS now : ℕ}
    (h : kv.put s k v ttlS now = (s', none)) : v.length ≤ 25 * 2 ^ 20
  get_keeps {s : kv.State} {k : String} {v : List UInt8} {t r : ℕ} (hr : r ≤ t)
    (hshown : ¬ kv.hides s k t) (h : (kv.get s k CACHE_TTL_S t).1 = some v) (k' : String) :
    (kv.get (kv.get s k' CACHE_TTL_S r).2 k CACHE_TTL_S t).1 = some v
  get_hides {s : kv.State} {k : String} {t r : ℕ} (hr : r ≤ t) (h : kv.hides s k t) (k' : String) :
    kv.hides (kv.get s k' CACHE_TTL_S r).2 k t

end KVNamespace

/-! ### The store -/

def MIN_EXPIRATION_S : ℕ := 60
def MEMO_CAP : ℕ := 1024
def maxBodyBytes : ℕ := 8 * 1024 * 1024

structure SetMeta where
  ttlMs : ℕ
  tags : List String
  method : String
  path : String
  keyPrefix : Option String
  stamp : Option ℕ

/-- A `set` at a time. -/
structure SetCall where
  key : String
  page : StoredPage
  setMeta : SetMeta
  now : ℕ

/-- FNV-1a in 32 bits. -/
def fnv (u8 : List UInt8) : UInt32 :=
  u8.foldl (fun h b => (h ^^^ b.toUInt32) * 0x01000193) 0x811c9dc5

def fingerprint (u8 : List UInt8) : String := toString u8.length ++ ":" ++ toString (fnv u8).toNat

namespace SetCall

def keyPrefix (c : SetCall) : String := c.setMeta.keyPrefix.getD ""

/-- What the page is framed with. -/
def entryMeta (c : SetCall) : EntryMeta where
  tags := c.setMeta.tags
  method := c.setMeta.method
  path := c.setMeta.path
  keyPrefix := some c.keyPrefix
  entryStamp := c.setMeta.stamp
  storedAt := c.now
  expiresAt := c.now + c.setMeta.ttlMs

def frame (c : SetCall) : List UInt8 := encodeEntry c.page c.entryMeta

/-- What the print has besides the body's. -/
def fpMeta (c : SetCall) : JsonValue :=
  .arr [count c.page.status, headerPairs c.page.headers, texts c.setMeta.tags,
    .str c.setMeta.method,
    .str c.setMeta.path, .str c.keyPrefix, stampValue c.setMeta.stamp]

def fp (c : SetCall) : String := fingerprint c.page.body ++ ":" ++ String.ofList c.fpMeta.render

/-- `Math.max(MIN_EXPIRATION_S, Math.ceil(ttlMs / 1000))`. -/
def expirationTtl (c : SetCall) : ℕ := max MIN_EXPIRATION_S ((c.setMeta.ttlMs + 999) / 1000)

end SetCall

def wordChar (c : Char) : Bool := c.isAlphanum || c = '_'

/-- `\b429\b`, behind a character. -/
def says429 (before : Option Char) : List Char → Bool
  | [] => false
  | c :: rest =>
    (!before.any wordChar && "429".toList.isPrefixOf (c :: rest) &&
      !(rest.drop 2).head?.any wordChar) ||
      says429 (some c) rest

/-- The message is of a write that KV refused for its rate. -/
def rateLimited (message : String) : Bool :=
  let text := message.toList.map Char.toLower
  says429 none text ||
    text.tails.any fun rest =>
      "too many requests".toList.isPrefixOf rest || "rate limit".toList.isPrefixOf rest

/-- An entry of the memo, `at` being when its page was put. -/
structure MemoEntry where
  putAt : ℕ
  fp : String

/-- The memo in the order of its entries. -/
structure Store (kv : KVNamespace) where
  state : kv.State
  memo : List (String × MemoEntry)

inductive Answer where
  | answered (ok : Bool)
  | threw (message : String)
deriving DecidableEq

namespace Store

variable {kv : KVNamespace}

/-- The memo after a put: the key last, the oldest gone when there are too many. -/
def remember (memo : List (String × MemoEntry)) (key : String) (e : MemoEntry) :
    List (String × MemoEntry) :=
  let memo := memo.filter (fun old => old.1 ≠ key) ++ [(key, e)]
  if memo.length > MEMO_CAP then memo.tail else memo

/-- The memo has the print of this call, of less than a minute ago. -/
def skips (s : Store kv) (c : SetCall) : Bool :=
  (s.memo.lookup c.key).any fun prev => prev.fp = c.fp && c.now < prev.putAt + 60000

def set (minTtlS : ℕ) (s : Store kv) (c : SetCall) : Store kv × Answer :=
  if c.setMeta.ttlMs < minTtlS * 1000 then (s, .answered false)
  else if maxBodyBytes < c.page.body.length then (s, .answered false)
  else if s.skips c then (s, .answered true)
  else
    let put := kv.put s.state c.key c.frame c.expirationTtl c.now
    put.2.elim (⟨put.1, remember s.memo c.key ⟨c.now, c.fp⟩⟩, .answered true) fun message =>
      ({ s with state := put.1 }, if rateLimited message then .answered false else .threw message)

/-- A new isolate's store. -/
def start (state : kv.State) : Store kv := ⟨state, []⟩

/-! ### Reading -/

/-- The number of a numeral that `count` wrote. -/
def wholeNumber : JsonValue → Option ℕ
  | .num numeral => some (Nat.ofDigitChars 10 numeral 0)
  | _ => none

/-- `expiresAt <= now()`. -/
def expired (info : JsonValue) (t : ℕ) : Bool :=
  ((member info "expiresAt").bind wholeNumber).any fun expiresAt => expiresAt ≤ t

/-- A page as its frame gives it: the status and the headers are the meta's. -/
structure PageRead where
  status : Option JsonValue
  headers : Option JsonValue
  body : List UInt8

/-- The `GetResult` of a store without stamps of its own, and the entry's meta. -/
structure GetResult where
  page : Option PageRead
  stamp : Option ℕ
  entryStamp : Option JsonValue
  storedAt : Option JsonValue
  entryMeta : Option JsonValue

def GetResult.none : GetResult := ⟨.none, .none, .none, .none, .none⟩

/-- KV's answer, and the store behind it. -/
def read (s : Store kv) (key : String) (t : ℕ) : Option (List UInt8) × Store kv :=
  let read := kv.get s.state key CACHE_TTL_S t
  (read.1, { s with state := read.2 })

/-- A call of the store. -/
inductive Op where
  | set (c : SetCall)
  | get (key : String) (now : ℕ)

def step (minTtlS : ℕ) (s : Store kv) : Op → Store kv
  | .set c => (s.set minTtlS c).1
  | .get key now => (s.read key now).2

def run (minTtlS : ℕ) (s : Store kv) (ops : List Op) : Store kv := ops.foldl (step minTtlS) s

/-- The reads are not after a time. -/
def ReadBy (t : ℕ) (ops : List Op) : Prop := ∀ key r, .get key r ∈ ops → r ≤ t

/-- A page and its meta, as they are read. -/
def found (page : StoredPage) (m : EntryMeta) : GetResult :=
  ⟨some ⟨some (count page.status), some (headerPairs page.headers), page.body⟩, .none,
    some (stampValue m.entryStamp), some (count m.storedAt), some (m.toJson page)⟩

end Store

/-! ### The print -/

/-- One call's page and meta are the other's but for the TTL, and for the body as far as its length
and its 32-bit print go. -/
structure SetCall.Alike (w c : SetCall) : Prop where
  key : w.key = c.key
  print : fingerprint w.page.body = fingerprint c.page.body
  status : w.page.status = c.page.status
  headers : w.page.headers = c.page.headers
  tags : w.setMeta.tags = c.setMeta.tags
  method : w.setMeta.method = c.setMeta.method
  path : w.setMeta.path = c.setMeta.path
  keyPrefix : w.keyPrefix = c.keyPrefix
  stamp : w.setMeta.stamp = c.setMeta.stamp

namespace Store

variable {kv : KVNamespace} {minTtlS t : ℕ} {s : Store kv} {c d w : SetCall}

/-! ### What a set does -/

/-- A read of the call's key at a time before KV drops it gives its frame, if no cached one hides
it. -/
structure Holds (s : Store kv) (w : SetCall) (t : ℕ) : Prop where
  size : w.frame.length ≤ 25 * 2 ^ 20
  read : t < w.now + w.expirationTtl * 1000 → ¬ kv.hides s.state w.key t →
    (kv.get s.state w.key CACHE_TTL_S t).1 = some w.frame

theorem Holds.same {s' : Store kv} (hsame : kv.SameAt w.key t s.state s'.state) (h : s.Holds w t) :
    s'.Holds w t :=
  ⟨h.size, fun ht hshown => hsame.1.trans (h.read ht (mt hsame.2 hshown))⟩

/-- A set leaves the store as it is, or puts its page and remembers it, or its put threw. -/
theorem set_cases (hkv : kv.Documented) (s : Store kv) (c : SetCall) (t : ℕ) :
    (s.set minTtlS c).1 = s ∧
        ((s.set minTtlS c).2 = .answered true → s.skips c = true) ∨
      (s.set minTtlS c).1.memo = remember s.memo c.key ⟨c.now, c.fp⟩ ∧
        (s.set minTtlS c).1.Holds c t ∧
        (∀ k, k ≠ c.key → kv.SameAt k t s.state (s.set minTtlS c).1.state) ∨
      (s.set minTtlS c).1.memo = s.memo ∧ (s.set minTtlS c).2 ≠ .answered true ∧
        ∀ k, kv.SameAt k t s.state (s.set minTtlS c).1.state := by
  rw [set]
  split
  · exact .inl ⟨rfl, fun h => by cases h⟩
  split
  · exact .inl ⟨rfl, fun h => by cases h⟩
  split
  · next hskip => exact .inl ⟨rfl, fun _ => hskip⟩
  have hother : ∀ k, k ≠ c.key → kv.SameAt k t s.state
      (kv.put s.state c.key c.frame c.expirationTtl c.now).1 :=
    fun k hk => hkv.put_other s.state c.key c.frame c.expirationTtl c.now hk t
  cases hput : kv.put s.state c.key c.frame c.expirationTtl c.now with
  | mk state' thrown =>
      rw [hput] at hother
      cases thrown with
      | none =>
          exact .inr (.inl ⟨rfl, ⟨hkv.put_size hput, fun ht => hkv.put_get hput ht⟩, hother⟩)
      | some message =>
          refine .inr (.inr ⟨rfl, ?_, fun k => ?_⟩)
          · dsimp only [Option.elim]
            split
            · decide
            · exact fun h => by cases h
          · by_cases hk : k = c.key
            · subst hk
              exact hkv.put_thrown hput t
            · exact hother k hk

theorem mem_of_mem_remember {memo : List (String × MemoEntry)} {key : String} {e : MemoEntry}
    {x : String × MemoEntry} (h : x ∈ remember memo key e) : x = (key, e) ∨ x ∈ memo ∧
      x.1 ≠ key := by
  have hmem : x ∈ memo.filter (fun old => old.1 ≠ key) ++ [(key, e)] := by
    rw [remember] at h
    split at h
    · exact List.mem_of_mem_tail h
    · exact h
  rcases List.mem_append.mp hmem with hold | hnew
  · rw [List.mem_filter, decide_eq_true_iff] at hold
    exact .inr hold
  · exact .inl (List.mem_singleton.mp hnew)

/-- A set of another key, and a read that comes no later, leave what KV holds. -/
theorem Holds.step (hkv : kv.Documented) {op : Op} (hset : ∀ d, op = .set d → d.key ≠ w.key)
    (hget : ∀ key r, op = .get key r → r ≤ t) (h : s.Holds w t) :
      (s.step minTtlS op).Holds w t := by
  cases op with
  | set d =>
      rcases set_cases hkv s d t with ⟨heq, -⟩ | ⟨-, -, hsame⟩ | ⟨-, -, hsame⟩
      · rw [Store.step, heq]
        exact h
      · exact h.same (hsame w.key (Ne.symm (hset d rfl)))
      · exact h.same (hsame w.key)
  | get key r =>
      have hr := hget key r rfl
      refine ⟨h.size, fun ht hshown => ?_⟩
      have hbefore : ¬ kv.hides s.state w.key t :=
        fun hhides => hshown (hkv.get_hides hr hhides key)
      exact hkv.get_keeps hr hbefore (h.read ht hbefore) key

theorem Holds.run (hkv : kv.Documented) {later : List Op}
    (hlater : ∀ d, .set d ∈ later → d.key ≠ w.key) (hreads : ReadBy t later) (h : s.Holds w t) :
    (s.run minTtlS later).Holds w t := by
  induction later generalizing s with
  | nil => exact h
  | cons op later ih =>
      refine ih (fun d hd => hlater d (List.mem_cons_of_mem _ hd))
        (fun key r hr => hreads key r (List.mem_cons_of_mem _ hr)) (h.step hkv ?_ ?_)
      · rintro d rfl
        exact hlater d List.mem_cons_self
      · rintro key r rfl
        exact hreads key r List.mem_cons_self

/-! ### What the memo says -/

/-- Every entry of the memo is the print of one of the calls, whose frame KV still holds. -/
def Backed (s : Store kv) (ops : List Op) (t : ℕ) : Prop :=
  ∀ e ∈ s.memo, ∃ w, .set w ∈ ops ∧ e = (w.key, ⟨w.now, w.fp⟩) ∧ s.Holds w t

theorem Backed.step (hkv : kv.Documented) {ops : List Op} (h : s.Backed ops t) {op : Op}
    (hreads : ∀ key r, op = .get key r → r ≤ t) :
    (s.step minTtlS op).Backed (ops ++ [op]) t := by
  intro e he
  cases op with
  | get key r =>
      obtain ⟨w, hw, hew, hkept⟩ := h e he
      exact ⟨w, List.mem_append_left _ hw, hew, hkept.step hkv (fun d hd => by cases hd) hreads⟩
  | set c =>
      rw [Store.step] at he ⊢
      rcases set_cases hkv s c t with ⟨heq, -⟩ | ⟨hmemo, hholds, hsame⟩ | ⟨hmemo, -, hsame⟩
      · rw [heq] at he ⊢
        obtain ⟨w, hw, hew, hkept⟩ := h e he
        exact ⟨w, List.mem_append_left _ hw, hew, hkept⟩
      · rw [hmemo] at he
        rcases mem_of_mem_remember he with rfl | ⟨hold, hkey⟩
        · exact ⟨c, List.mem_append_right _ (List.mem_singleton_self _), rfl, hholds⟩
        · obtain ⟨w, hw, rfl, hkept⟩ := h e hold
          exact ⟨w, List.mem_append_left _ hw, rfl, hkept.same (hsame w.key hkey)⟩
      · rw [hmemo] at he
        obtain ⟨w, hw, hew, hkept⟩ := h e he
        exact ⟨w, List.mem_append_left _ hw, hew, hkept.same (hsame w.key)⟩

/-- The puts, the last first, each with when KV drops it. -/
abbrev Puts := List (String × List UInt8 × ℕ)

def Puts.read (s : Puts) (k : String) (t : ℕ) : Option (List UInt8) :=
  (s.lookup k).bind fun e => if t < e.2 then some e.1 else none

theorem Puts.read_of_le {s : Puts} {k : String} {v : List UInt8} {r t : ℕ} (hr : r ≤ t)
    (h : s.read k t = some v) : s.read k r = some v := by
  obtain ⟨e, he, hv⟩ := Option.bind_eq_some_iff.mp h
  split at hv
  · next ht => rw [read, he, Option.bind_some, if_pos (hr.trans_lt ht), hv]
  · cases hv

/-- The puts, and what the location read, each with how long it is kept. -/
structure Location where
  puts : Puts
  kept : List (String × Option (List UInt8) × ℕ)

namespace Location

/-- What is kept for the key and answers at a time. -/
def live (s : Location) (k : String) (t : ℕ) : Option (Option (List UInt8)) :=
  (s.kept.lookup k).bind fun e => if t < e.2 then some e.1 else none

def get (s : Location) (k : String) (cacheTtl t : ℕ) : Option (List UInt8) × Location :=
  match s.live k t with
  | some v => (v, s)
  | none =>
      (s.puts.read k t, { s with kept := (k, s.puts.read k t, t + cacheTtl * 1000) :: s.kept })

def put (s : Location) (k : String) (v : List UInt8) (ttlS now : ℕ) : Location × Option String :=
  if v.length ≤ 25 * 2 ^ 20 then ({ s with puts := (k, v, now + ttlS * 1000) :: s.puts }, none)
  else (s, some "KV PUT failed: 413 Value length exceeds the limit")

def hides (s : Location) (k : String) (t : ℕ) : Prop := ∃ v ∈ s.live k t, v ≠ s.puts.read k t

theorem get_of_shown {s : Location} {k : String} {t : ℕ} (h : ¬ s.hides k t) (cacheTtl : ℕ) :
    (s.get k cacheTtl t).1 = s.puts.read k t := by
  rw [get]
  split
  · next v hv => exact not_not.mp fun hne => h ⟨v, hv, hne⟩
  · rfl

theorem live_of_le {s : Location} {k : String} {v : Option (List UInt8)} {r t : ℕ} (hr : r ≤ t)
    (h : s.live k t = some v) : s.live k r = some v := by
  obtain ⟨e, he, hv⟩ := Option.bind_eq_some_iff.mp h
  split at hv
  · next ht => rw [live, he, Option.bind_some, if_pos (hr.trans_lt ht), hv]
  · cases hv

/-- What is kept after a read: as before, or what was read then. -/
theorem live_get (s : Location) (k k' : String) (cacheTtl : ℕ) {r t : ℕ} (hr : r ≤ t) :
    (s.get k' cacheTtl r).2.live k t = s.live k t ∨
      s.live k t = none ∧ ∀ v ∈ (s.get k' cacheTtl r).2.live k t, v = s.puts.read k r := by
  rw [get]
  split
  · exact .inl rfl
  next hnone =>
    by_cases hk : k = k'
    · subst hk
      refine .inr ⟨Option.eq_none_iff_forall_ne_some.mpr fun v hv => ?_, fun v hv => ?_⟩
      · rw [live_of_le hr hv] at hnone
        cases hnone
      · simp only [live, List.lookup_cons_self, Option.bind_some, Option.mem_def] at hv
        split at hv
        · exact (Option.some.inj hv).symm
        · cases hv
    · refine .inl ?_
      simp only [live, List.lookup_cons, beq_eq_false_iff_ne.mpr hk]

theorem puts_get (s : Location) (k : String) (cacheTtl t : ℕ) :
    (s.get k cacheTtl t).2.puts = s.puts := by
  rw [get]
  split <;> rfl

theorem get_keeps {s : Location} {k : String} {v : List UInt8} {t r : ℕ} (hr : r ≤ t)
    (hshown : ¬ s.hides k t) (h : (s.get k CACHE_TTL_S t).1 = some v) (k' : String) :
    ((s.get k' CACHE_TTL_S r).2.get k CACHE_TTL_S t).1 = some v := by
  have hread : s.puts.read k t = some v := (get_of_shown hshown CACHE_TTL_S).symm.trans h
  have hafter : ¬ (s.get k' CACHE_TTL_S r).2.hides k t := by
    rintro ⟨old, hlive, hne⟩
    rw [puts_get] at hne
    rcases live_get s k k' CACHE_TTL_S hr with heq | ⟨-, hold⟩
    · exact hshown ⟨old, heq ▸ hlive, hne⟩
    · exact hne ((hold old hlive).trans ((Puts.read_of_le hr hread).trans hread.symm))
  rw [get_of_shown hafter, puts_get, hread]

theorem get_hides {s : Location} {k : String} {t r : ℕ} (hr : r ≤ t) (h : s.hides k t)
    (k' : String) : (s.get k' CACHE_TTL_S r).2.hides k t := by
  obtain ⟨old, hlive, hne⟩ := h
  refine ⟨old, ?_, by rwa [puts_get]⟩
  rcases live_get s k k' CACHE_TTL_S hr with heq | ⟨hnone, -⟩
  · exact heq.trans hlive
  · rw [hnone] at hlive
    cases hlive

end Location

def empty : Location := ⟨[], []⟩

end Store
end Brust.Cloudflare.Kv
