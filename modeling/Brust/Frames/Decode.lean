import Brust.Cloudflare.Frame
import Brust.Support.Framing
import Brust.Support.Decimal

/-!
# Frames — what the server reads

The replies of a worker as `dispatch.rs` decodes them: a meta after its length, then a body, or a
marker for a reply that came by heap.  What serde accepts as JSON is a parameter (`parse`); how a
derived `Deserialize` walks a value is written out, an object by its names and a list by places.

No slice of a frame is out of bounds (`frameParts_ne_panicked`), and a body that is returned is what
is behind the meta, or the heap's, with the length that was announced (`decodeFetchReply_ok`,
`decodeCacheGet_hit`).
-/

namespace Brust.Frames

open Brust.Core Brust.Core.Path Brust.Cloudflare.Kv

abbrev Bytes := List UInt8

abbrev Headers := List (String × String)

/-! ### Slices -/

/-- `b.get(i..j)` -/
def getRange (b : Bytes) (i j : ℕ) : Option Bytes :=
  if i ≤ j ∧ j ≤ b.length then some ((b.drop i).take (j - i)) else none

/-- `b.get(i..)`, which is `&b[i..]` where that does not panic. -/
def getFrom (b : Bytes) (i : ℕ) : Option Bytes := if i ≤ b.length then some (b.drop i) else none

/-! ### Typed reads -/

/-- What a derived `Deserialize` finds for a field: in an object by its name, which is there at most
once, in a list by its place. -/
def fieldAt (v : JsonValue) (place : ℕ) (name : String) : Option (Option JsonValue) :=
  match v with
  | .obj entries =>
    match entries.filter fun e => e.1 = name with
    | [] => some none
    | [e] => some (some e.2)
    | _ => none
  | .arr xs => some xs[place]?
  | _ => none

/-- A list has no more items than there are fields. -/
def atMost (fields : ℕ) : JsonValue → Bool
  | .arr xs => xs.length ≤ fields
  | _ => true

def readBool : JsonValue → Option Bool
  | .bool b => some b
  | _ => none

def readStr : JsonValue → Option String
  | .str s => some s
  | _ => none

/-- A whole number below a bound; a number with a sign, a point or an exponent is none. -/
def readUInt (bound : ℕ) : JsonValue → Option ℕ
  | .num t =>
    if t ≠ [] ∧ t.all Char.isDigit ∧ Nat.ofDigitChars 10 t 0 < bound then
      some (Nat.ofDigitChars 10 t 0)
    else none
  | _ => none

def readOption {α : Type} (f : JsonValue → Option α) : JsonValue → Option (Option α)
  | .null => some none
  | v => (f v).map some

def readPair : JsonValue → Option (String × String)
  | .arr [k, v] => (readStr k).bind fun k => (readStr v).map fun v => (k, v)
  | _ => none

def readHeaders : JsonValue → Option Headers
  | .arr xs => xs.mapM readPair
  | _ => none

/-- A field with `#[serde(default)]`. -/
def defaulted {α : Type} (d : α) (f : JsonValue → Option α) : Option JsonValue → Option α
  | none => some d
  | some v => f v

structure FetchMeta where
  status : ℕ
  headers : Headers
  heap : Option ℕ
deriving DecidableEq

def FetchMeta.ofJson (v : JsonValue) : Option FetchMeta :=
  if atMost 3 v then
    (fieldAt v 0 "status").bind fun status =>
    (fieldAt v 1 "headers").bind fun headers =>
    (fieldAt v 2 "heap").bind fun heap =>
    (status.bind (readUInt (2 ^ 16))).bind fun status =>
    (defaulted [] readHeaders headers).bind fun headers =>
    (defaulted none (readOption (readUInt (2 ^ 64))) heap).map fun heap => ⟨status, headers, heap⟩
  else none

structure CacheReplyMeta where
  hit : Option Bool
  status : Option ℕ
  headers : Headers
  stamp : Option ℕ
  entryStamp : Option ℕ
  storedAt : Option ℕ
  heap : Option ℕ
  ok : Option Bool
  error : Option String
deriving DecidableEq

def CacheReplyMeta.ofJson (v : JsonValue) : Option CacheReplyMeta :=
  if atMost 9 v then
    (fieldAt v 0 "hit").bind fun hit =>
    (fieldAt v 1 "status").bind fun status =>
    (fieldAt v 2 "headers").bind fun headers =>
    (fieldAt v 3 "stamp").bind fun stamp =>
    (fieldAt v 4 "entryStamp").bind fun entryStamp =>
    (fieldAt v 5 "storedAt").bind fun storedAt =>
    (fieldAt v 6 "heap").bind fun heap =>
    (fieldAt v 7 "ok").bind fun ok =>
    (fieldAt v 8 "error").bind fun error =>
    (defaulted none (readOption readBool) hit).bind fun hit =>
    (defaulted none (readOption (readUInt (2 ^ 16))) status).bind fun status =>
    (defaulted [] readHeaders headers).bind fun headers =>
    (defaulted none (readOption (readUInt (2 ^ 64))) stamp).bind fun stamp =>
    (defaulted none (readOption (readUInt (2 ^ 64))) entryStamp).bind fun entryStamp =>
    (defaulted none (readOption (readUInt (2 ^ 64))) storedAt).bind fun storedAt =>
    (defaulted none (readOption (readUInt (2 ^ 64))) heap).bind fun heap =>
    (defaulted none (readOption readBool) ok).bind fun ok =>
    (defaulted none (readOption readStr) error).map fun error =>
      ⟨hit, status, headers, stamp, entryStamp, storedAt, heap, ok, error⟩
  else none

/-! ### Frames -/

/-- How a decoder fails; `panicked` is an index out of bounds. -/
inductive CallError where
  | badResponse (text : String)
  | panicked
deriving DecidableEq

section
variable (serde : JsonReader)

def frameParts {M : Type} (ofJson : JsonValue → Option M) (b : Bytes) :
    Except CallError (M × Bytes) :=
  match getRange b 0 4 with
  | none => .error (.badResponse "fetch frame shorter than 4 bytes")
  | some head =>
    let n := getUint32 head
    match getRange b 4 (4 + n) with
    | none => .error (.badResponse
        ("fetch frame meta_len " ++ toString n ++ " exceeds " ++ toString (b.length - 4)))
    | some info =>
      match (serde.parse info).bind ofJson with
      | none => .error (.badResponse ("fetch frame meta: " ++ serde.refusal info))
      | some m =>
        match getFrom b (4 + n) with
        | none => .error .panicked
        | some body => .ok (m, body)

structure FetchResponse where
  status : ℕ
  headers : Headers
  body : Bytes
deriving DecidableEq

/-- The reply cell is taken where the meta has a `heap`; it is returned as it is left. -/
def decodeFetchReply (b : Bytes) (reply : Option Bytes) :
    Except CallError FetchResponse × Option Bytes :=
  match frameParts serde FetchMeta.ofJson b with
  | .error e => (.error e, reply)
  | .ok (m, framed) =>
    match m.heap with
    | none => (.ok ⟨m.status, m.headers, framed⟩, reply)
    | some n =>
      if framed ≠ [] then (.error (.badResponse "heap reply frame carries a body"), reply)
      else
        match reply with
        | none => (.error (.badResponse "heap reply missing"), none)
        | some body =>
          if body.length ≠ n then
            (.error (.badResponse
              ("heap reply " ++ toString body.length ++ " != " ++ toString n)), none)
          else (.ok ⟨m.status, m.headers, body⟩, none)

/-- The answers of `decode_cache_get`. -/
inductive L2Lookup where
  | miss (stamp : Option ℕ)
  | hit (status : ℕ) (headers : Headers) (body : Bytes) (stamp entryStamp storedAt : Option ℕ)
  | failed (text : String)
deriving DecidableEq

def decodeCacheGet (b : Bytes) (reply : Option Bytes) :
    Except CallError L2Lookup × Option Bytes :=
  match frameParts serde CacheReplyMeta.ofJson b with
  | .error e => (.error e, reply)
  | .ok (m, framed) =>
    match m.error with
    | some e => (.ok (.failed e), reply)
    | none =>
      if m.hit ≠ some true then (.ok (.miss m.stamp), reply)
      else
        match m.status with
        | none => (.ok (.failed "cache hit without status"), reply)
        | some status =>
          match m.heap with
          | none =>
            (.ok (.hit status m.headers framed m.stamp m.entryStamp m.storedAt), reply)
          | some n =>
            if framed ≠ [] then (.ok (.failed "heap cache hit frame carries a body"), reply)
            else
              match reply with
              | some body =>
                if body.length = n then
                  (.ok (.hit status m.headers body m.stamp m.entryStamp m.storedAt), none)
                else
                  (.ok (.failed
                    ("heap cache hit " ++ toString body.length ++ " != " ++ toString n)), none)
              | none => (.ok (.failed "heap cache hit missing"), none)

/-- The marker of a reply that came by heap. -/
def decodeHeapMarker (b : Bytes) : Except CallError (Option ℕ) :=
  if b.head? ≠ some 0 then .ok none
  else
    match b with
    | [_, x, y, z, w] => .ok (some (getUint32 [x, y, z, w]))
    | _ => .error (.badResponse ("heap marker must be 5 bytes, got " ++ toString b.length))

/-- The bytes of a loader's reply: those of the slot, or the heap's. -/
def replyBytes (b : Bytes) (heap : Option Bytes) : Except CallError Bytes × Option Bytes :=
  match decodeHeapMarker b with
  | .error e => (.error e, heap)
  | .ok none => (.ok b, heap)
  | .ok (some n) =>
    match heap with
    | none => (.error (.badResponse "heap reply missing"), none)
    | some body =>
      if body.length ≠ n then
        (.error (.badResponse ("heap reply " ++ toString body.length ++ " != " ++ toString n)),
          none)
      else (.ok body, none)

end

/-! ### What a frame is read as -/

theorem lengthCode : LengthCode Plan.leBytes getUint32 4 (2 ^ 32) where
  width _ := rfl
  read _ hn rest := getUint32_leBytes hn rest

theorem getUint32_take {b : Bytes} (h : 4 ≤ b.length) : getUint32 (b.take 4) = getUint32 b := by
  match b, h with
  | x :: y :: z :: w :: rest, _ => rfl

section
variable {serde : JsonReader} {M : Type} {ofJson : JsonValue → Option M}

/-- A frame is cut where its length says. -/
theorem frameParts_of_unframe {b info body : Bytes}
    (h : unframe getUint32 4 b = some (info, body)) :
    frameParts serde ofJson b =
      match (serde.parse info).bind ofJson with
      | none => .error (.badResponse ("fetch frame meta: " ++ serde.refusal info))
      | some m => .ok (m, body) := by
  rw [unframe] at h
  split at h
  · cases h
  split at h
  · cases h
  next hhead hroom =>
    obtain ⟨rfl, rfl⟩ := Prod.mk.inj (Option.some.inj h)
    have hread : getUint32 (b.take 4) = getUint32 b := getUint32_take (by omega)
    have hfirst : getRange b 0 4 = some (b.take 4) := if_pos ⟨by omega, by omega⟩
    have hinfo : getRange b 4 (4 + getUint32 b) = some ((b.drop 4).take (getUint32 b)) := by
      rw [getRange, if_pos ⟨by omega, by omega⟩, Nat.add_sub_cancel_left]
    have hbody : getFrom b (4 + getUint32 b) = some (b.drop (4 + getUint32 b)) :=
      if_pos (by omega)
    rw [frameParts, hfirst]
    dsimp only
    rw [hread, hinfo]
    dsimp only
    rw [hbody]

/-- Any other text is refused. -/
theorem frameParts_of_none (serde : JsonReader) (ofJson : JsonValue → Option M) {b : Bytes}
    (h : unframe getUint32 4 b = none) :
    ∃ text, frameParts serde ofJson b = .error (.badResponse text) := by
  rw [unframe] at h
  rw [frameParts, getRange]
  by_cases hhead : b.length < 4
  · rw [if_neg (by omega)]
    exact ⟨_, rfl⟩
  · rw [if_neg hhead] at h
    have hread : getUint32 ((b.drop 0).take (4 - 0)) = getUint32 b := by
      rw [List.drop_zero]
      exact getUint32_take (by omega)
    rw [if_pos ⟨by omega, by omega⟩]
    dsimp only
    rw [hread, getRange]
    by_cases hroom : b.length < 4 + getUint32 b
    · rw [if_neg (by omega)]
      exact ⟨_, rfl⟩
    · rw [if_neg hroom] at h
      cases h

/-- What a frame was read as: its meta, and what is behind it. -/
theorem frameParts_ok {b body : Bytes} {m : M} (h : frameParts serde ofJson b = .ok (m, body)) :
    ∃ info, unframe getUint32 4 b = some (info, body) ∧
      (serde.parse info).bind ofJson = some m := by
  cases hb : unframe getUint32 4 b with
  | none =>
      obtain ⟨text, htext⟩ := frameParts_of_none serde ofJson hb
      rw [h] at htext
      cases htext
  | some parts =>
      obtain ⟨info, rest⟩ := parts
      rw [frameParts_of_unframe hb] at h
      split at h
      · cases h
      next m' hm =>
        cases h
        exact ⟨info, rfl, hm⟩

/-- **No slice is out of bounds.** -/
theorem frameParts_ne_panicked (serde : JsonReader) (ofJson : JsonValue → Option M) (b : Bytes) :
    frameParts serde ofJson b ≠ .error .panicked := by
  intro h
  cases hb : unframe getUint32 4 b with
  | none =>
      obtain ⟨text, htext⟩ := frameParts_of_none serde ofJson hb
      rw [h] at htext
      cases htext
  | some parts =>
      rw [frameParts_of_unframe hb] at h
      split at h <;> cases h

end

/-! ### Bodies -/

section
variable {serde : JsonReader}

/-- A frame that was read: the body is behind its meta, or came by heap with the length
announced. -/
def Announced (heap : Option ℕ) (framed : Bytes) (reply : Option Bytes) (body : Bytes) : Prop :=
  heap = none ∧ body = framed ∨ heap = some body.length ∧ framed = [] ∧ reply = some body

theorem decodeFetchReply_ok {b : Bytes} {reply cell : Option Bytes} {r : FetchResponse}
    (h : decodeFetchReply serde b reply = (.ok r, cell)) : ∃ m framed,
      frameParts serde FetchMeta.ofJson b = .ok (m, framed) ∧ r.status = m.status ∧
        r.headers = m.headers ∧ Announced m.heap framed reply r.body := by
  rw [decodeFetchReply] at h
  split at h
  · cases h
  next m framed hparts =>
    refine ⟨m, framed, hparts, ?_⟩
    split at h
    next hheap =>
      cases h
      exact ⟨rfl, rfl, Or.inl ⟨hheap, rfl⟩⟩
    next n hheap =>
      split at h
      · cases h
      next hframed =>
        split at h
        · cases h
        next body =>
          split at h
          · cases h
          next hlength =>
            cases h
            have hn : body.length = n := not_not.mp hlength
            exact ⟨rfl, rfl, Or.inr ⟨by rw [hheap, hn], not_not.mp hframed, rfl⟩⟩

theorem decodeCacheGet_hit {b : Bytes} {reply cell : Option Bytes} {status : ℕ} {headers : Headers}
    {body : Bytes} {stamp entryStamp storedAt : Option ℕ}
    (h : decodeCacheGet serde b reply =
      (.ok (.hit status headers body stamp entryStamp storedAt), cell)) : ∃ m framed,
      frameParts serde CacheReplyMeta.ofJson b = .ok (m, framed) ∧ m.hit = some true ∧
        m.status = some status ∧ headers = m.headers ∧ Announced m.heap framed reply body := by
  rw [decodeCacheGet] at h
  split at h
  · cases h
  next m framed hparts =>
    refine ⟨m, framed, hparts, ?_⟩
    split at h
    · cases h
    split at h
    · cases h
    next hhit =>
      split at h
      · cases h
      next st hstatus =>
        split at h
        next hheap =>
          cases h
          exact ⟨not_not.mp hhit, hstatus, rfl, Or.inl ⟨hheap, rfl⟩⟩
        next n hheap =>
          split at h
          · cases h
          next hframed =>
            split at h
            next bytes =>
              split at h
              next hlength =>
                cases h
                exact ⟨not_not.mp hhit, hstatus, rfl,
                  Or.inr ⟨by rw [hheap, hlength], not_not.mp hframed, rfl⟩⟩
              · cases h
            · cases h

/-- The marker's reply has the length that it announces. -/
theorem replyBytes_ok {b : Bytes} {heap cell : Option Bytes} {bytes : Bytes}
    (h : replyBytes b heap = (.ok bytes, cell)) :
    decodeHeapMarker b = .ok none ∧ bytes = b ∨
      decodeHeapMarker b = .ok (some bytes.length) ∧ heap = some bytes := by
  rw [replyBytes] at h
  split at h
  · cases h
  next hmarker =>
    cases h
    exact Or.inl ⟨hmarker, rfl⟩
  next n hmarker =>
    split at h
    · cases h
    next body =>
      split at h
      · cases h
      next hlength =>
        cases h
        rw [not_not.mp hlength]
        exact Or.inr ⟨hmarker, rfl⟩

end

end Brust.Frames
