import Brust.Frames.Slot

/-!
# Frames — the cache bridge

`runCache`: a worker answers the server's call of its adapter's store.  What the store does is an
outcome of its promise; every outcome is a frame in the call's slot, and a hit that is too large for
the slot leaves by heap, with a frame of its meta alone.

A frame that does not fit is replaced by `unfit`, which is put without looking at its size, so that
a slot can be too small for any answer (`runCache_get_answers_iff`).  An answer is read as what the
store returned (`runCache_get_faithful`).
-/

namespace Brust.Frames

open Brust.Core Brust.Core.Path Brust.Cloudflare.Kv

/-! ### The store -/

structure GetResult where
  page : Option StoredPage
  stamp : Option ℕ
  entryStamp : Option ℕ
  storedAt : Option ℕ

/-- How a promise of the store ends within the time it has. -/
inductive Outcome (α : Type) where
  | settled (a : α)
  | timedOut
  | rejected (text : String)

/-- An adapter's store; the meta of a `set` is handed on. -/
structure CacheStore where
  get : String → Outcome GetResult
  set : String → StoredPage → JsonValue → Outcome Bool

inductive CacheRequest where
  | get (key : String)
  | set (key : String) (status : ℕ) (headers : Headers) (info : JsonValue) (heap : ℕ)
  | other (op : String)

structure CacheBridgeDeps where
  store : Option CacheStore
  maxBodyBytes : ℕ

/-! ### The call -/

/-- What a call shares with the server: the view and the cells of its bodies. -/
structure Call where
  view : Bytes
  body : Option Bytes
  reply : Option Bytes

/-- `takeFetchBody` -/
def takeBody (c : Call) : Option Bytes × Call := (c.body, { c with body := none })

/-- `putFetchReply`: one reply, of at most `cap` bytes. -/
def putReply (cap : ℕ) (c : Call) (body : Bytes) : Bool × Call :=
  if body.length ≤ cap ∧ c.reply = none then (true, { c with reply := some body }) else (false, c)

section
variable (env : SlotEnv)

def out (c : Call) (info : JsonValue) (body : Bytes) : Except String ℕ × Call :=
  ((frame env c.view info body).1, { c with view := (frame env c.view info body).2 })

def errorMeta (text : String) : JsonValue := .obj [("error", .str text)]

def missMeta (stamp : Option ℕ) : JsonValue :=
  .obj [("hit", .bool false), ("stamp", stampValue stamp)]

/-- The meta of a hit; a heap that is undefined is left out. -/
def hitMeta (r : GetResult) (p : StoredPage) (heap : Option ℕ) : JsonValue :=
  .obj ([("hit", .bool true), ("status", count p.status), ("headers", headerPairs p.headers),
      ("stamp", stampValue r.stamp), ("entryStamp", stampValue r.entryStamp),
      ("storedAt", stampValue r.storedAt)] ++ heap.toList.map fun n => ("heap", count n))

def answerGet (maxBodyBytes cap : ℕ) (c : Call) : Outcome GetResult → Except String ℕ × Call
  | .rejected text => (.error text, c)
  | .timedOut => out env c (errorMeta "get timed out") []
  | .settled r =>
    match r.page with
    | none => out env c (missMeta r.stamp) []
    | some p =>
      if maxBodyBytes < p.body.length then out env c (missMeta r.stamp) []
      else if 4 + (encodeJson (hitMeta r p none)).length + p.body.length ≤ env.sub c.view then
        out env c (hitMeta r p none) p.body
      else
        match putReply cap c p.body with
        | (false, c) => out env c (missMeta r.stamp) []
        | (true, c) => out env c (hitMeta r p (some p.body.length)) []

def answerSet (store : CacheStore) (c : Call) (key : String) (status : ℕ) (headers : Headers)
    (info : JsonValue) (heap : ℕ) : Except String ℕ × Call :=
  match takeBody c with
  | (none, c) => out env c (errorMeta "set body missing bytes") []
  | (some body, c) =>
    if body.length ≠ heap then
      out env c (errorMeta
        ("set body " ++ toString body.length ++ " != " ++ toString heap ++ " bytes")) []
    else
      match store.set key ⟨status, headers, body⟩ info with
      | .rejected text => (.error text, c)
      | .timedOut => out env c (errorMeta "set timed out") []
      | .settled ok => out env c (.obj [("ok", .bool ok)]) []

/-- The answer before what it throws is caught. -/
def tryCache (deps : CacheBridgeDeps) (cap : ℕ) (request : Except String CacheRequest) (c : Call) :
    Except String ℕ × Call :=
  match deps.store with
  | none => out env c (errorMeta "no cache adapter store in this worker") []
  | some store =>
    match request with
    | .error text => (.error text, c)
    | .ok (.get key) => answerGet env deps.maxBodyBytes cap c (store.get key)
    | .ok (.set key status headers info heap) => answerSet env store c key status headers info heap
    | .ok (.other op) => out env c (errorMeta ("unknown cache op " ++ op)) []

/-- The answer of a call: how many bytes it has, or what it rejects with. -/
def runCache (deps : CacheBridgeDeps) (cap : ℕ) (request : Except String CacheRequest) (c : Call) :
    Except String ℕ × Call :=
  match tryCache env deps cap request c with
  | (.ok n, c) => (.ok n, c)
  | (.error text, c) => out env c (errorMeta text) []

end

/-! ### What an answer is read as -/

/-- The answer of a call as the server reads it: the bytes of the slot and the reply cell. -/
def Read (serde : JsonReader) (env : SlotEnv) (answered : Except String ℕ × Call)
    (lookup : L2Lookup) : Prop :=
  ∃ n c cell, answered = (.ok n, c) ∧
    decodeCacheGet serde (env.answer c.view n) c.reply = (.ok lookup, cell)

section
variable {env : SlotEnv} {c : Call} {info : JsonValue} {body : Bytes}

theorem out_ok (hin : env.Inside) (h : Fits env c.view info body ∨ Fits env c.view unfit []) :
    ∃ n view, out env c info body = (.ok n, { c with view }) ∧
      env.answer view n = framed Plan.leBytes (encodeJson (sent env c.view info body).1)
        (sent env c.view info body).2 := by
  obtain ⟨n, view, hframe, -, hanswer⟩ := frame_ok hin h
  exact ⟨n, view, by rw [out, hframe], hanswer⟩

theorem out_throws (hin : env.Inside) (h : ¬ Fits env c.view info body)
    (hunfit : ¬ Fits env c.view unfit []) : ∃ view, out env c info body =
      (.error env.rangeError, { c with view }) ∧ view.length = c.view.length := by
  obtain ⟨view, hframe, hlength⟩ := frame_throws hin h hunfit
  exact ⟨view, by rw [out, hframe], hlength⟩

end

theorem ofJson_errorMeta (text : String) : CacheReplyMeta.ofJson (errorMeta text) =
    some ⟨none, none, [], none, none, none, none, none, some text⟩ := rfl

theorem ofJson_missMeta {stamp : Option ℕ} (h : ∀ n ∈ stamp, n < 2 ^ 64) :
    CacheReplyMeta.ofJson (missMeta stamp) =
      some ⟨some false, none, [], stamp, none, none, none, none, none⟩ := by
  show (readOption (readUInt (2 ^ 64)) (stampValue stamp)).bind (fun stamp =>
    some (CacheReplyMeta.mk (some false) none [] stamp none none none none none)) = _
  rw [readOption_stampValue h, Option.bind_some]

/-- What a store returns has the server's types. -/
structure GetResult.Typed (r : GetResult) : Prop where
  status : ∀ p ∈ r.page, p.status < 2 ^ 16
  length : ∀ p ∈ r.page, p.body.length < 2 ^ 64
  stamp : ∀ n ∈ r.stamp, n < 2 ^ 64
  entryStamp : ∀ n ∈ r.entryStamp, n < 2 ^ 64
  storedAt : ∀ n ∈ r.storedAt, n < 2 ^ 64

theorem ofJson_hitMeta {r : GetResult} (hr : r.Typed) {p : StoredPage} (hp : r.page = some p)
    {heap : Option ℕ} (hheap : ∀ n ∈ heap, n < 2 ^ 64) :
    CacheReplyMeta.ofJson (hitMeta r p heap) = some ⟨some true, some p.status, p.headers, r.stamp,
      r.entryStamp, r.storedAt, heap, none, none⟩ := by
  have hstatus := readOption_count (hr.status p hp)
  have hheaders := readHeaders_headerPairs p.headers
  have hstamp := readOption_stampValue hr.stamp
  have hentry := readOption_stampValue hr.entryStamp
  have hstored := readOption_stampValue hr.storedAt
  cases heap with
  | none =>
      show (readOption (readUInt (2 ^ 16)) (count p.status)).bind (fun status =>
        (readHeaders (headerPairs p.headers)).bind fun headers =>
        (readOption (readUInt (2 ^ 64)) (stampValue r.stamp)).bind fun stamp =>
        (readOption (readUInt (2 ^ 64)) (stampValue r.entryStamp)).bind fun entryStamp =>
        (readOption (readUInt (2 ^ 64)) (stampValue r.storedAt)).bind fun storedAt =>
          some (CacheReplyMeta.mk (some true) status headers stamp entryStamp storedAt none none
            none)) = _
      simp only [hstatus, hheaders, hstamp, hentry, hstored, Option.bind_some]
  | some n =>
      have hn := readOption_count (hheap n rfl)
      show (readOption (readUInt (2 ^ 16)) (count p.status)).bind (fun status =>
        (readHeaders (headerPairs p.headers)).bind fun headers =>
        (readOption (readUInt (2 ^ 64)) (stampValue r.stamp)).bind fun stamp =>
        (readOption (readUInt (2 ^ 64)) (stampValue r.entryStamp)).bind fun entryStamp =>
        (readOption (readUInt (2 ^ 64)) (stampValue r.storedAt)).bind fun storedAt =>
        (readOption (readUInt (2 ^ 64)) (count n)).bind fun heap =>
          some (CacheReplyMeta.mk (some true) status headers stamp entryStamp storedAt heap none
            none)) = _
      simp only [hstatus, hheaders, hstamp, hentry, hstored, hn, Option.bind_some]

theorem simple_hitMeta {r : GetResult} (hr : r.Typed) {p : StoredPage} (hp : r.page = some p)
    {heap : Option ℕ} (hheap : ∀ n ∈ heap, n < 2 ^ 64) {entries : List (String × JsonValue)}
    (h : hitMeta r p heap = .obj entries) : ∀ e ∈ entries, Simple (2 ^ 64) e.2 := by
  cases h
  intro e he
  have hstatus := hr.status p hp
  simp only [List.cons_append, List.nil_append, List.mem_cons, List.mem_map,
    Option.mem_toList] at he
  rcases he with rfl | rfl | rfl | rfl | rfl | rfl | ⟨n, hn, rfl⟩
  · trivial
  · exact simple_count (by omega)
  · exact simple_headerPairs _ _
  · exact simple_stampValue hr.stamp
  · exact simple_stampValue hr.entryStamp
  · exact simple_stampValue hr.storedAt
  · exact simple_count (hheap n hn)

section
variable {serde : JsonReader} (hreads : serde.Reads (2 ^ 64)) {env : SlotEnv}
  (hin : env.Inside) {c : Call}
  (hview : c.view.length < 2 ^ 32)
include hreads hin hview

/-- The frame that is put is read with its meta and its body. -/
theorem read_out {info : JsonValue} {body b : Bytes} {entries : List (String × JsonValue)}
    {m : CacheReplyMeta} {lookup : L2Lookup}
    (h : Fits env c.view info body ∨ Fits env c.view unfit [])
    (hsent : sent env c.view info body = (.obj entries, b)) (hsimple : ∀ e ∈ entries,
      Simple (2 ^ 64) e.2)
    (hm : CacheReplyMeta.ofJson (.obj entries) = some m)
    (hlookup : ∀ bytes, frameParts serde CacheReplyMeta.ofJson bytes = .ok (m, b) →
      ∃ cell, decodeCacheGet serde bytes c.reply = (.ok lookup, cell)) :
    Read serde env (out env c info body) lookup := by
  obtain ⟨n, view, hout, hanswer⟩ := out_ok hin h
  have hfits := fits_sent h
  rw [hsent] at hanswer hfits
  have hroom : env.sub c.view ≤ c.view.length := Nat.div_le_self _ _
  have hlen : (encodeJson (.obj entries)).length < 2 ^ 32 := by
    rw [Fits] at hfits
    dsimp only at hfits
    omega
  have hparts : frameParts serde CacheReplyMeta.ofJson
      (framed Plan.leBytes (encodeJson (.obj entries)) b) = .ok (m, b) :=
    frameParts_framed hreads hsimple hm hlen
  rw [← hanswer] at hparts
  obtain ⟨cell, hcell⟩ := hlookup _ hparts
  exact ⟨n, _, cell, hout, hcell⟩

theorem read_error {text : String} (h : Fits env c.view (errorMeta text) []) :
    Read serde env (out env c (errorMeta text) []) (.failed text) := by
  refine read_out hreads hin hview (Or.inl h) (if_pos h)
    (List.forall_mem_singleton.mpr trivial) (ofJson_errorMeta text) fun bytes hparts => ?_
  rw [decodeCacheGet, hparts]
  exact ⟨_, rfl⟩

/-- What does not fit is answered as an error, where the replacement fits. -/
theorem read_unfit {info : JsonValue} {body : Bytes} (h : ¬ Fits env c.view info body)
    (hunfit : Fits env c.view unfit []) :
    Read serde env (out env c info body) (.failed "cache reply does not fit the slot") := by
  refine read_out hreads hin hview (Or.inr hunfit) (if_neg h)
    (List.forall_mem_singleton.mpr trivial) (ofJson_errorMeta _) fun bytes hparts => ?_
  rw [decodeCacheGet, hparts]
  exact ⟨_, rfl⟩

theorem read_miss {stamp : Option ℕ} (hstamp : ∀ n ∈ stamp, n < 2 ^ 64)
    (h : Fits env c.view (missMeta stamp) []) :
    Read serde env (out env c (missMeta stamp) []) (.miss stamp) := by
  have hsimple := simple_stampValue hstamp
  refine read_out hreads hin hview (Or.inl h) (if_pos h)
    (List.forall_mem_cons.mpr ⟨trivial, List.forall_mem_singleton.mpr hsimple⟩)
    (ofJson_missMeta hstamp) fun bytes hparts => ?_
  rw [decodeCacheGet, hparts]
  exact ⟨_, rfl⟩

/-- A hit in the slot. -/
theorem read_hit {r : GetResult} (hr : r.Typed) {p : StoredPage} (hp : r.page = some p)
    (h : Fits env c.view (hitMeta r p none) p.body) :
    Read serde env (out env c (hitMeta r p none) p.body)
      (.hit p.status p.headers p.body r.stamp r.entryStamp r.storedAt) := by
  refine read_out hreads hin hview (Or.inl h) (if_pos h)
    (simple_hitMeta hr hp (by simp) rfl) (ofJson_hitMeta hr hp (by simp))
    fun bytes hparts => ?_
  rw [decodeCacheGet, hparts]
  exact ⟨_, rfl⟩

/-- A hit whose body went by heap. -/
theorem read_heap {r : GetResult} (hr : r.Typed) {p : StoredPage} (hp : r.page = some p)
    (hreply : c.reply = some p.body)
    (h : Fits env c.view (hitMeta r p (some p.body.length)) []) :
    Read serde env (out env c (hitMeta r p (some p.body.length)) [])
      (.hit p.status p.headers p.body r.stamp r.entryStamp r.storedAt) := by
  have hlength : ∀ n ∈ some p.body.length, n < 2 ^ 64 := by
    rintro n ⟨⟩
    exact hr.length p hp
  refine read_out hreads hin hview (Or.inl h) (if_pos h)
    (simple_hitMeta hr hp hlength rfl) (ofJson_hitMeta hr hp hlength)
    fun bytes hparts => ?_
  rw [decodeCacheGet, hparts, hreply]
  exact ⟨none, by simp⟩

end

/-! ### Every outcome -/

/-- The page leaves by heap. -/
def ByHeap (env : SlotEnv) (cap : ℕ) (c : Call) (r : GetResult) (p : StoredPage) : Prop :=
  ¬ Fits env c.view (hitMeta r p none) p.body ∧ p.body.length ≤ cap ∧ c.reply = none

instance (env : SlotEnv) (cap : ℕ) (c : Call) (r : GetResult) (p : StoredPage) :
    Decidable (ByHeap env cap c r p) := inferInstanceAs (Decidable (_ ∧ _))

/-- The frame that is put first for an outcome. -/
def chosen (env : SlotEnv) (maxBodyBytes cap : ℕ) (c : Call) :
    Outcome GetResult → JsonValue × Bytes
  | .rejected text => (errorMeta text, [])
  | .timedOut => (errorMeta "get timed out", [])
  | .settled r =>
    match r.page with
    | none => (missMeta r.stamp, [])
    | some p =>
      if maxBodyBytes < p.body.length then (missMeta r.stamp, [])
      else if Fits env c.view (hitMeta r p none) p.body then (hitMeta r p none, p.body)
      else if p.body.length ≤ cap ∧ c.reply = none then (hitMeta r p (some p.body.length), [])
      else (missMeta r.stamp, [])

/-- What the server reads of a store's result: a hit is the page with its stamps and times, a miss
has the stamp, and what fits the slot, or by heap, is not answered as anything else. -/
structure Faithful (env : SlotEnv) (maxBodyBytes cap : ℕ) (c : Call) (r : GetResult)
    (lookup : L2Lookup) : Prop where
  hit : ∀ status headers body stamp entryStamp storedAt,
    lookup = .hit status headers body stamp entryStamp storedAt →
      r = ⟨some ⟨status, headers, body⟩, stamp, entryStamp, storedAt⟩
  miss : ∀ stamp, lookup = .miss stamp → stamp = r.stamp
  absent : r.page = none → Fits env c.view (missMeta r.stamp) [] → lookup = .miss r.stamp
  large : ∀ p, r.page = some p → maxBodyBytes < p.body.length →
    Fits env c.view (missMeta r.stamp) [] → lookup = .miss r.stamp
  inline : ∀ p, r.page = some p → p.body.length ≤ maxBodyBytes →
    Fits env c.view (hitMeta r p none) p.body →
      lookup = .hit p.status p.headers p.body r.stamp r.entryStamp r.storedAt
  heap : ∀ p, r.page = some p → p.body.length ≤ maxBodyBytes → ByHeap env cap c r p →
    Fits env c.view (hitMeta r p (some p.body.length)) [] →
      lookup = .hit p.status p.headers p.body r.stamp r.entryStamp r.storedAt

/-- What an outcome is answered as: a result faithfully, anything else as an error. -/
def AnsweredAs (env : SlotEnv) (maxBodyBytes cap : ℕ) (c : Call) :
    Outcome GetResult → L2Lookup → Prop
  | .settled r, lookup => Faithful env maxBodyBytes cap c r lookup
  | _, lookup => ∃ text, lookup = .failed text

section
variable {env : SlotEnv} {maxBodyBytes cap : ℕ} {c : Call} {r : GetResult}

/-- Where the first frame of a page depends on. -/
theorem chosen_page {p : StoredPage} (hp : r.page = some p) :
    chosen env maxBodyBytes cap c (.settled r) =
      if maxBodyBytes < p.body.length then (missMeta r.stamp, [])
      else if Fits env c.view (hitMeta r p none) p.body then (hitMeta r p none, p.body)
      else if p.body.length ≤ cap ∧ c.reply = none then (hitMeta r p (some p.body.length), [])
      else (missMeta r.stamp, []) := by
  rw [chosen, hp]

theorem chosen_absent (hp : r.page = none) :
    chosen env maxBodyBytes cap c (.settled r) = (missMeta r.stamp, []) := by
  rw [chosen, hp]

/-- The first frame is put into the view as the call found it, and a body that leaves by heap is
then in the cell. -/
theorem answerGet_eq (env : SlotEnv) (maxBodyBytes cap : ℕ) (c : Call) {o : Outcome GetResult}
    (ho : ∀ text, o ≠ .rejected text) :
    ∃ c', c'.view = c.view ∧ answerGet env maxBodyBytes cap c o =
      out env c' (chosen env maxBodyBytes cap c o).1 (chosen env maxBodyBytes cap c o).2 ∧
      ∀ r p, o = .settled r → r.page = some p → p.body.length ≤ maxBodyBytes →
        ByHeap env cap c r p → c'.reply = some p.body := by
  cases o with
  | rejected text => exact absurd rfl (ho text)
  | timedOut => exact ⟨c, rfl, rfl, by rintro r p ⟨⟩⟩
  | settled r =>
      cases hp : r.page with
      | none =>
          refine ⟨c, rfl, by rw [answerGet, hp, chosen_absent hp], ?_⟩
          rintro r p ⟨⟩ hp'
          rw [hp] at hp'
          cases hp'
      | some p =>
          rw [answerGet, hp, chosen_page hp]
          dsimp only
          by_cases hlarge : maxBodyBytes < p.body.length
          · rw [if_pos hlarge, if_pos hlarge]
            refine ⟨c, rfl, rfl, ?_⟩
            rintro r p ⟨⟩ hp' hsmall
            rw [hp] at hp'
            cases hp'
            omega
          rw [if_neg hlarge, if_neg hlarge]
          by_cases hfits : Fits env c.view (hitMeta r p none) p.body
          · have hsize : 4 + (encodeJson (hitMeta r p none)).length + p.body.length ≤
                env.sub c.view := hfits
            rw [if_pos hfits, if_pos hsize]
            refine ⟨c, rfl, rfl, ?_⟩
            rintro r p ⟨⟩ hp' - hheap
            rw [hp] at hp'
            cases hp'
            exact absurd hfits hheap.1
          have hsize : ¬ 4 + (encodeJson (hitMeta r p none)).length + p.body.length ≤
              env.sub c.view := hfits
          rw [if_neg hfits, if_neg hsize, putReply]
          by_cases hput : p.body.length ≤ cap ∧ c.reply = none
          · rw [if_pos hput, if_pos hput]
            refine ⟨{ c with reply := some p.body }, rfl, rfl, ?_⟩
            rintro r p ⟨⟩ hp' - -
            rw [hp] at hp'
            cases hp'
            rfl
          · rw [if_neg hput, if_neg hput]
            refine ⟨c, rfl, rfl, ?_⟩
            rintro r p ⟨⟩ hp' - hheap
            rw [hp] at hp'
            cases hp'
            exact absurd hheap.2 hput

/-- An error is faithful where the first frame does not fit. -/
theorem faithful_failed {text : String}
    (h : ¬ Fits env c.view (chosen env maxBodyBytes cap c (.settled r)).1
      (chosen env maxBodyBytes cap c (.settled r)).2) :
    Faithful env maxBodyBytes cap c r (.failed text) where
  hit := by
    intro _ _ _ _ _ _ hlookup
    cases hlookup
  miss := by
    intro _ hlookup
    cases hlookup
  absent hp hfits := by
    rw [chosen_absent hp] at h
    exact absurd hfits h
  large p hp hlarge hfits := by
    rw [chosen_page hp, if_pos hlarge] at h
    exact absurd hfits h
  inline p hp hsmall hfits := by
    rw [chosen_page hp, if_neg (by omega), if_pos hfits] at h
    exact absurd hfits h
  heap p hp hsmall hheap hfits := by
    rw [chosen_page hp, if_neg (by omega), if_neg hheap.1, if_pos hheap.2] at h
    exact absurd hfits h

theorem faithful_miss
    (hinline : ∀ p, r.page = some p → p.body.length ≤ maxBodyBytes →
      ¬ Fits env c.view (hitMeta r p none) p.body ∧ ¬ ByHeap env cap c r p) :
    Faithful env maxBodyBytes cap c r (.miss r.stamp) where
  hit := by
    intro _ _ _ _ _ _ hlookup
    cases hlookup
  miss := by
    intro _ hlookup
    cases hlookup
    rfl
  absent _ _ := rfl
  large _ _ _ _ := rfl
  inline p hp hsmall hfits := absurd hfits (hinline p hp hsmall).1
  heap p hp hsmall hheap _ := absurd hheap (hinline p hp hsmall).2

theorem faithful_hit {p : StoredPage} (hp : r.page = some p)
    (hsmall : p.body.length ≤ maxBodyBytes) :
    Faithful env maxBodyBytes cap c r
      (.hit p.status p.headers p.body r.stamp r.entryStamp r.storedAt) where
  hit := by
    intro _ _ _ _ _ _ hlookup
    cases hlookup
    rw [← hp]
  miss := by
    intro _ hlookup
    cases hlookup
  absent habsent := by
    rw [hp] at habsent
    cases habsent
  large q hq hlarge := by
    rw [hp] at hq
    cases hq
    omega
  inline q hq _ _ := by
    rw [hp] at hq
    cases hq
    rfl
  heap q hq _ _ _ := by
    rw [hp] at hq
    cases hq
    rfl

end

section
variable {serde : JsonReader} (hreads : serde.Reads (2 ^ 64)) {env : SlotEnv} (hin : env.Inside)
  {maxBodyBytes cap : ℕ} {c : Call} (hview : c.view.length < 2 ^ 32)
include hreads hin hview

/-- The first frame, where it fits, is read as what the store returned. -/
theorem read_chosen {r : GetResult} (hr : r.Typed) {c' : Call} (hc : c'.view = c.view)
    (hreply : ∀ p, r.page = some p → p.body.length ≤ maxBodyBytes → ByHeap env cap c r p →
      c'.reply = some p.body)
    (h : Fits env c.view (chosen env maxBodyBytes cap c (.settled r)).1
      (chosen env maxBodyBytes cap c (.settled r)).2) :
    ∃ lookup, Read serde env (out env c' (chosen env maxBodyBytes cap c (.settled r)).1
      (chosen env maxBodyBytes cap c (.settled r)).2) lookup ∧
        Faithful env maxBodyBytes cap c r lookup := by
  have hview' : c'.view.length < 2 ^ 32 := by rwa [hc]
  have hmiss : ∀ {p}, r.page = some p → (p.body.length ≤ maxBodyBytes →
      ¬ Fits env c.view (hitMeta r p none) p.body ∧ ¬ ByHeap env cap c r p) →
      ∀ q, r.page = some q → q.body.length ≤ maxBodyBytes →
        ¬ Fits env c.view (hitMeta r q none) q.body ∧ ¬ ByHeap env cap c r q := by
    intro p hp hnot q hq
    rw [hp] at hq
    cases hq
    exact hnot
  rw [← hc] at h
  cases hp : r.page with
  | none =>
      rw [hc, chosen_absent hp] at h
      rw [chosen_absent hp]
      rw [← hc] at h
      exact ⟨_, read_miss hreads hin hview' hr.stamp h, faithful_miss fun p hp' => by
        rw [hp] at hp'
        cases hp'⟩
  | some p =>
      rw [hc, chosen_page hp] at h
      rw [chosen_page hp]
      rw [← hc] at h
      by_cases hlarge : maxBodyBytes < p.body.length
      · rw [if_pos hlarge] at h ⊢
        exact ⟨_, read_miss hreads hin hview' hr.stamp h,
          faithful_miss (hmiss hp fun _ => by omega)⟩
      rw [if_neg hlarge] at h ⊢
      have hsmall : p.body.length ≤ maxBodyBytes := Nat.not_lt.mp hlarge
      by_cases hfits : Fits env c.view (hitMeta r p none) p.body
      · rw [if_pos (hc ▸ hfits)] at h
        rw [if_pos hfits]
        exact ⟨_, read_hit hreads hin hview' hr hp h, faithful_hit hp hsmall⟩
      rw [hc, if_neg hfits, ← hc] at h
      rw [if_neg hfits]
      by_cases hput : p.body.length ≤ cap ∧ c.reply = none
      · rw [if_pos hput] at h ⊢
        exact ⟨_, read_heap hreads hin hview' hr hp (hreply p hp hsmall ⟨hfits, hput⟩) h,
          faithful_hit hp hsmall⟩
      · rw [if_neg hput] at h ⊢
        exact ⟨_, read_miss hreads hin hview' hr.stamp h,
          faithful_miss (hmiss hp fun _ => ⟨hfits, fun hheap => hput hheap.2⟩)⟩

/-- **An answer** where the first frame fits, or its replacement. -/
theorem read_answerGet {o : Outcome GetResult} (ho : ∀ text, o ≠ .rejected text)
    (htyped : ∀ r, o = .settled r → r.Typed)
    (h : Fits env c.view (chosen env maxBodyBytes cap c o).1 (chosen env maxBodyBytes cap c o).2 ∨
      Fits env c.view unfit []) :
    ∃ lookup, Read serde env (answerGet env maxBodyBytes cap c o) lookup ∧
      AnsweredAs env maxBodyBytes cap c o lookup := by
  obtain ⟨c', hc, hget, hreply⟩ := answerGet_eq env maxBodyBytes cap c ho
  have hview' : c'.view.length < 2 ^ 32 := by rwa [hc]
  rw [hget]
  by_cases hfits : Fits env c.view (chosen env maxBodyBytes cap c o).1
      (chosen env maxBodyBytes cap c o).2
  · cases o with
    | rejected text => exact absurd rfl (ho text)
    | timedOut =>
        rw [← hc] at hfits
        exact ⟨_, read_error hreads hin hview' hfits, _, rfl⟩
    | settled r => exact read_chosen hreads hin hview (htyped r rfl) hc (hreply r · rfl) hfits
  · have hunfit := h.resolve_left hfits
    have hnot := hfits
    rw [← hc] at hnot hunfit
    refine ⟨_, read_unfit hreads hin hview' (hc ▸ hnot) hunfit, ?_⟩
    cases o with
    | rejected text => exact absurd rfl (ho text)
    | timedOut => exact ⟨_, rfl⟩
    | settled r => exact faithful_failed hfits

end

/-- Some frame that the call may answer with fits: the first, its replacement, or the one of what
the replacement throws. -/
def Answers (env : SlotEnv) (maxBodyBytes cap : ℕ) (c : Call) (o : Outcome GetResult) : Prop :=
  Fits env c.view (chosen env maxBodyBytes cap c o).1 (chosen env maxBodyBytes cap c o).2 ∨
    Fits env c.view unfit [] ∨
    (∀ text, o ≠ .rejected text) ∧ Fits env c.view (errorMeta env.rangeError) []

section
variable {serde : JsonReader} (hreads : serde.Reads (2 ^ 64)) {env : SlotEnv} (hin : env.Inside)
  {store : CacheStore} {maxBodyBytes cap : ℕ} {key : String} {c : Call}

/-- What was answered before anything was thrown is the answer. -/
theorem runCache_of_read {lookup : L2Lookup}
    (h : Read serde env (answerGet env maxBodyBytes cap c (store.get key)) lookup) :
    Read serde env (runCache env ⟨some store, maxBodyBytes⟩ cap (.ok (.get key)) c) lookup := by
  obtain ⟨n, c', cell, hget, hdecode⟩ := h
  refine ⟨n, c', cell, ?_, hdecode⟩
  rw [runCache, tryCache]
  dsimp only
  rw [hget]

/-- What was thrown is answered as an error. -/
theorem runCache_of_error {text : String} {c' : Call}
    (h : answerGet env maxBodyBytes cap c (store.get key) = (.error text, c')) :
    runCache env ⟨some store, maxBodyBytes⟩ cap (.ok (.get key)) c =
      out env c' (errorMeta text) [] := by
  rw [runCache, tryCache]
  dsimp only
  rw [h]

theorem not_read_of_throws {info : JsonValue} {body : Bytes} {lookup : L2Lookup}
    (hin : env.Inside) (h : ¬ Fits env c.view info body) (hunfit : ¬ Fits env c.view unfit []) :
    ¬ Read serde env (out env c info body) lookup := by
  rintro ⟨n, c', cell, hok, -⟩
  obtain ⟨view, hout, -⟩ := out_throws hin h hunfit
  rw [hout] at hok
  cases hok

include hreads hin

/-- **The cache bridge** answers a `get`, and its answer is read as what the store returned, exactly
where one of its frames fits the slot. -/
theorem runCache_get_iff (maxBodyBytes cap : ℕ) (hview : c.view.length < 2 ^ 32)
    (htyped : ∀ r, store.get key = .settled r → r.Typed) :
    (∃ lookup,
      Read serde env (runCache env ⟨some store, maxBodyBytes⟩ cap (.ok (.get key)) c) lookup ∧
        AnsweredAs env maxBodyBytes cap c (store.get key) lookup) ↔
      Answers env maxBodyBytes cap c (store.get key) := by
  rw [Answers]
  generalize hget : store.get key = o at htyped ⊢
  by_cases hrejected : ∃ text, o = .rejected text
  · obtain ⟨text, rfl⟩ := hrejected
    have herror : answerGet env maxBodyBytes cap c (store.get key) = (.error text, c) := by
      rw [hget, answerGet]
    rw [runCache_of_error herror]
    by_cases hfits : Fits env c.view (errorMeta text) []
    · exact ⟨fun _ => Or.inl hfits, fun _ => ⟨_, read_error hreads hin hview hfits, _, rfl⟩⟩
    by_cases hunfit : Fits env c.view unfit []
    · exact ⟨fun _ => Or.inr (Or.inl hunfit),
        fun _ => ⟨_, read_unfit hreads hin hview hfits hunfit, _, rfl⟩⟩
    constructor
    · rintro ⟨lookup, hread, -⟩
      exact absurd hread (not_read_of_throws hin hfits hunfit)
    · rintro (h | h | h)
      · exact absurd h hfits
      · exact absurd h hunfit
      · exact absurd rfl (h.1 text)
  · have ho : ∀ text, o ≠ .rejected text := fun text h => hrejected ⟨text, h⟩
    by_cases h : Fits env c.view (chosen env maxBodyBytes cap c o).1
        (chosen env maxBodyBytes cap c o).2 ∨ Fits env c.view unfit []
    · have hread := read_answerGet hreads hin hview ho htyped h
      obtain ⟨lookup, hread, hanswered⟩ := hread
      rw [← hget] at hread
      exact ⟨fun _ => h.imp_right Or.inl, fun _ => ⟨lookup, runCache_of_read hread, hanswered⟩⟩
    obtain ⟨hfits, hunfit⟩ := not_or.mp h
    obtain ⟨c', hc, hanswer, -⟩ := answerGet_eq env maxBodyBytes cap c ho
    obtain ⟨view, hout, hlength⟩ := out_throws (c := c') hin (hc ▸ hfits) (hc ▸ hunfit)
    have hlen : view.length = c.view.length := by rw [hlength, hc]
    have herror := hanswer.trans hout
    rw [← hget] at herror
    rw [runCache_of_error herror]
    by_cases hrange : Fits env c.view (errorMeta env.rangeError) []
    · have hfit : Fits env view (errorMeta env.rangeError) [] := (fits_congr hlen _ _).mpr hrange
      have hshort : view.length < 2 ^ 32 := by
        rw [hlen]
        exact hview
      have hread := read_error (c := ⟨view, c'.body, c'.reply⟩) hreads hin hshort hfit
      refine ⟨fun _ => Or.inr (Or.inr ⟨ho, hrange⟩), fun _ => ⟨_, hread, ?_⟩⟩
      cases o with
      | rejected text => exact absurd rfl (ho text)
      | timedOut => exact ⟨_, rfl⟩
      | settled r => exact faithful_failed hfits
    · constructor
      · rintro ⟨lookup, hread, -⟩
        refine absurd hread (not_read_of_throws hin ?_ ?_)
        · exact fun hfit => hrange ((fits_congr hlen _ _).mp hfit)
        · exact fun hfit => hunfit ((fits_congr hlen _ _).mp hfit)
      · rintro (h | h | h)
        · exact absurd h hfits
        · exact absurd h hunfit
        · exact absurd h.2 hrange

end

end Brust.Frames
