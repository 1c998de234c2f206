import Brust.Frames.Redis

/-!
# Frames — round trips

The five framings together.  The pages of Redis and of KV are read back, an action's answer is read
as the app's response, and no decoder reads outside its frame, whatever the slot's size.  A `get` of
the cache bridge is answered as the store's result exactly where one of the frames it may answer
with fits the slot (`frames_round_trip_iff`); a slot that is too small for the error frame can be
left without any answer (`frames_unanswered`).
-/

namespace Brust.Frames

open Brust.Core Brust.Core.Path Brust.Cloudflare.Kv

/-! ### Bounds -/

/-- A body of a frame whose meta was read: what is behind the meta, or the heap's, with the length
that the meta announces. -/
def Within {M : Type} (ofInfo : Bytes → Option M) (heap : M → Option ℕ) (b : Bytes)
    (reply : Option Bytes) (body : Bytes) : Prop :=
  ∃ info framed m, unframe getUint32 4 b = some (info, framed) ∧
    4 + info.length + framed.length = b.length ∧ ofInfo info = some m ∧
    Announced (heap m) framed reply body

theorem within_of_parts {serde : JsonReader} {M : Type} {ofJson : JsonValue → Option M}
    {heap : M → Option ℕ} {b framed body : Bytes} {m : M} {reply : Option Bytes}
    (h : frameParts serde ofJson b = .ok (m, framed))
      (hbody : Announced (heap m) framed reply body) :
    Within (fun info => (serde.parse info).bind ofJson) heap b reply body := by
  obtain ⟨info, hframe, hm⟩ := frameParts_ok h
  obtain ⟨-, -, hlength⟩ := unframe_eq_some hframe
  exact ⟨info, framed, m, hframe, hlength, hm, hbody⟩

/-- A body that is behind its meta, which the reader took. -/
def Behind (js : JsonReader) (b body : Bytes) : Prop :=
  Within js.parse (fun _ => none) b none body

theorem behind_of_unframe {js : JsonReader} {b info body : Bytes} {v : JsonValue}
    (h : unframe getUint32 4 b = some (info, body)) (hv : js.parse info = some v) :
    Behind js b body :=
  ⟨info, body, v, h, (unframe_eq_some h).2.2, hv, Or.inl ⟨rfl, rfl⟩⟩

/-- A page of Redis: its body is what is behind its meta. -/
theorem decodeFrame_body {js : JsonReader} {buf : Bytes} {d : DecodedFrame}
    (h : decodeFrame js buf = .ok (some d)) :
    Behind js buf d.body := by
  rw [decodeFrame] at h
  split at h
  · cases h
  next hhead =>
    dsimp only at h
    split at h
    · cases h
    next hroom =>
      split at h
      · cases h
      · cases h
      next hinfo =>
        split at h
        · cases h
        split at h
        · cases h
          refine behind_of_unframe ?_ hinfo
          rw [unframe, if_neg hhead, if_neg hroom]
        · cases h

/-- A page of KV: its body is what is behind its meta. -/
theorem decodeEntry_body {js : JsonReader} {b : Bytes} {e : Entry} (h : decodeEntry js b = some e) :
    Behind js b e.body := by
  rw [decodeEntry] at h
  split at h
  · cases h
  next hhead =>
    dsimp only at h
    split at h
    · cases h
    next hroom =>
      obtain ⟨info, hinfo, h⟩ := Option.bind_eq_some_iff.mp h
      split at h
      · cases h
        refine behind_of_unframe ?_ hinfo
        rw [unframe, if_neg hhead, if_neg (by omega)]
      · cases h

theorem readFramed_body {js : JsonReader} {env : SlotEnv} (hin : env.Inside)
    {view : Bytes} {len : ℕ}
    {v : JsonValue} {body : Bytes} (h : readFramed js env view len = .ok (v, body)) :
    Behind js (env.answer view len) body := by
  have hend := off_add_sub_le hin view
  rw [readFramed] at h
  split at h
  · cases h
  next hlen =>
    split at h
    · cases h
    dsimp only at h
    split at h
    · cases h
    next hroom =>
      have hlength : (env.answer view len).length = len := by
        rw [SlotEnv.answer, List.length_take, List.length_drop]
        omega
      split at h
      · cases h
      next hinfo =>
        cases h
        refine behind_of_unframe ?_ hinfo
        rw [unframe, hlength, if_neg (by omega), if_neg hroom]

/-- **No decoder reads outside its frame**, and a body has the length that was announced. -/
structure Bounded (serde js : JsonReader) (env : SlotEnv) : Prop where
  fetchError : ∀ b reply, (decodeFetchReply serde b reply).1 ≠ .error .panicked
  fetch : ∀ b reply r cell, decodeFetchReply serde b reply = (.ok r, cell) →
    Within (fun info => (serde.parse info).bind FetchMeta.ofJson) FetchMeta.heap b reply r.body
  cacheError : ∀ b reply, (decodeCacheGet serde b reply).1 ≠ .error .panicked
  cache : ∀ b reply status headers body stamp entryStamp storedAt cell,
    decodeCacheGet serde b reply =
      (.ok (.hit status headers body stamp entryStamp storedAt), cell) →
      Within (fun info => (serde.parse info).bind CacheReplyMeta.ofJson) CacheReplyMeta.heap b reply
        body
  marker : ∀ b heap bytes cell, replyBytes b heap = (.ok bytes, cell) →
    bytes = b ∨ decodeHeapMarker b = .ok (some bytes.length) ∧ heap = some bytes
  redis : ∀ b d, decodeFrame js b = .ok (some d) → Behind js b d.body
  entry : ∀ b e, decodeEntry js b = some e → Behind js b e.body
  worker : ∀ view len v body, readFramed js env view len = .ok (v, body) →
    Behind js (env.answer view len) body

theorem decodeFetchReply_ne_panicked {serde : JsonReader} (b : Bytes) (reply : Option Bytes) :
    (decodeFetchReply serde b reply).1 ≠ .error .panicked := by
  have hparts := frameParts_ne_panicked serde FetchMeta.ofJson b
  rw [decodeFetchReply]
  split
  next e he =>
    rw [he] at hparts
    exact fun h => hparts (congrArg _ (Except.error.inj h))
  · split
    · simp
    · split
      · simp
      · split
        · simp
        · split <;> simp

theorem decodeCacheGet_ne_panicked {serde : JsonReader} (b : Bytes) (reply : Option Bytes) :
    (decodeCacheGet serde b reply).1 ≠ .error .panicked := by
  have hparts := frameParts_ne_panicked serde CacheReplyMeta.ofJson b
  rw [decodeCacheGet]
  split
  next e he =>
    rw [he] at hparts
    exact fun h => hparts (congrArg _ (Except.error.inj h))
  · repeat' split
    all_goals simp

theorem bounded (serde js : JsonReader) {env : SlotEnv} (hin : env.Inside) :
    Bounded serde js env where
  fetchError := decodeFetchReply_ne_panicked
  fetch b reply r cell h := by
    obtain ⟨m, framed, hparts, -, -, hbody⟩ := decodeFetchReply_ok h
    exact within_of_parts hparts hbody
  cacheError := decodeCacheGet_ne_panicked
  cache b reply status headers body stamp entryStamp storedAt cell h := by
    obtain ⟨m, framed, hparts, -, -, -, hbody⟩ := decodeCacheGet_hit h
    exact within_of_parts hparts hbody
  marker b heap bytes cell h := (replyBytes_ok h).imp And.right id
  redis _ _ := decodeFrame_body
  entry _ _ := decodeEntry_body
  worker _ _ _ _ := readFramed_body hin

/-! ### The framings together -/

/-- What the frames of one slot are to keep: pages and replies are read as what was framed. -/
structure RoundTrips (serde js : JsonReader) (env : SlotEnv) (c : Call) (cap : ℕ)
    (store : CacheStore) (maxBodyBytes : ℕ) (key : String) : Prop where
  redis : ∀ (page : StoredPage) (m : FrameInfo), m.Safe page →
    (encodeJson (frameMeta page m)).length < 2 ^ 32 →
      decodeFrame js (encodeFrame page m) = .ok (some
        ⟨.fin false page.status, headerPairs page.headers, page.body,
          m.entryStamp.map fun n : ℕ => .fin false n, .fin false m.storedAt⟩)
  entry : ∀ (page : StoredPage) (m : EntryMeta), (head page m).length < 2 ^ 32 →
    decodeEntry js (encodeEntry page m) = some ⟨m.toJson page, page.body⟩
  fetch : ∀ (R : Type) (app : R → Option Bytes → Except String Parts) (maxResponseBytes : ℕ)
    (pullBody : Bool) (request : Except String (FetchRequest R)),
    (∀ r b o, app r b = .ok o → o.status < 2 ^ 16 ∧ o.body.length < 2 ^ 64) →
      ∃ r, FetchRead serde env (runFetch env (some app) maxResponseBytes cap pullBody request c) r ∧
        match appOutcome app pullBody request c with
        | (.ok o, c') => FetchFaithful env maxResponseBytes cap c' o r
        | (.error _, _) => Replaced r
  cache : ∃ lookup,
    Read serde env (runCache env ⟨some store, maxBodyBytes⟩ cap (.ok (.get key)) c) lookup ∧
      AnsweredAs env maxBodyBytes cap c (store.get key) lookup
  bounded : Bounded serde js env

/-- **Frames round-trip** exactly where the cache bridge can answer: where the frame of its answer
fits the slot, or the frame that says that it does not, or the one of what that throws. -/
theorem frames_round_trip_iff (serde js : JsonReader) (hserde : serde.Reads (2 ^ 64))
    (hjs : ∀ bound, js.Reads bound) (env : SlotEnv) (hin : env.Inside) (c : Call)
      (hview : c.view.length < 2 ^ 32) (cap : ℕ)
    (store : CacheStore) (maxBodyBytes : ℕ) (key : String)
    (htyped : ∀ r, store.get key = .settled r → r.Typed) :
    RoundTrips serde js env c cap store maxBodyBytes key ↔
      Answers env maxBodyBytes cap c (store.get key) := by
  have hcache := runCache_get_iff hserde hin maxBodyBytes cap hview htyped
  refine ⟨fun h => hcache.mp h.cache, fun h => ?_⟩
  exact {
    redis := fun page m hsafe hfits => decodeFrame_encodeFrame (hjs _) hsafe hfits
    entry := fun page m hfits => decodeEntry_encodeEntry hjs hfits
    fetch := fun R app maxResponseBytes pullBody request happ =>
      runFetch_faithful hserde hin hview app maxResponseBytes cap pullBody request happ
    cache := hcache.mpr h
    bounded := bounded serde js hin }

/-! ### A slot of ten bytes -/

/-- A store without pages. -/
def emptyStore : CacheStore where
  get _ := .settled ⟨none, none, none, none⟩
  set _ _ _ := .settled true

theorem typed_emptyStore {key : String} {r : GetResult} (h : emptyStore.get key = .settled r) :
    r.Typed := by
  cases h
  refine ⟨?_, ?_, ?_, ?_, ?_⟩ <;> simp

def oneSlot : SlotEnv := ⟨1, 0, "Range consisting of offset and length are out of bounds"⟩

theorem inside_oneSlot : oneSlot.Inside := Nat.zero_lt_one

theorem frames_round_trip_iff_miss :
    RoundTrips jsonReader jsonReader oneSlot ⟨List.replicate 64 0, none, none⟩ 1024 emptyStore 1024
      "page" := by
  refine (frames_round_trip_iff jsonReader jsonReader (jsonReader_reads _) jsonReader_reads oneSlot
    inside_oneSlot _ (by decide) 1024 emptyStore 1024 "page" fun r =>
      typed_emptyStore).mpr (Or.inl ?_)
  rw [Fits, encodeJson_eq]
  decide

/-- A slot of ten bytes holds no frame of a miss, of its replacement or of what that throws: the
call rejects. -/
theorem frames_unanswered :
    ¬ RoundTrips jsonReader jsonReader oneSlot ⟨List.replicate 10 0, none,
      none⟩ 1024 emptyStore 1024
      "page" := by
  intro h
  have hcall := (runCache_get_iff (jsonReader_reads _) inside_oneSlot 1024 1024 (by decide)
    fun r => typed_emptyStore).mp h.cache
  rcases hcall with h | h | ⟨-, h⟩
  all_goals
    rw [Fits, encodeJson_eq] at h
    revert h
    decide

end Brust.Frames
