import Brust.Frames.Decode

/-!
# Frames — what a worker writes into its slot

A slot is a part of the view that the calls of a worker share.  `put` writes the frame of a meta and
a body: where it fits, the slot begins with it (`put_fits`) and the server reads it; where it does
not, `set` throws (`put_throws`).

`writeFramed`, of the actions, replaces a frame that does not fit by one that says so, and writes
nothing where that does not fit either; `frame`, of the cache bridge, replaces it too, but puts the
replacement without looking at its size.
-/

namespace Brust.Frames

open Brust.Core Brust.Core.Path Brust.Cloudflare.Kv

/-! ### The view -/

/-- The bytes of `view` from `off` on are replaced. -/
def writeAt (view : Bytes) (off : ℕ) (bytes : Bytes) : Bytes :=
  view.take off ++ bytes ++ view.drop (off + bytes.length)

/-- A call's slot, and the text of the `RangeError`s of the runtime. -/
structure SlotEnv where
  slots : ℕ
  slot : ℕ
  rangeError : String

namespace SlotEnv
variable (env : SlotEnv)

/-- `Math.floor(view.byteLength / Math.max(1, slots))` -/
def sub (view : Bytes) : ℕ := view.length / max 1 env.slots

/-- Where the slot begins. -/
def off (view : Bytes) : ℕ := env.slot * env.sub view

/-- The length of `view.subarray(slot * sub, slot * sub + sub)`, which ends with the view. -/
def room (view : Bytes) : ℕ :=
  min view.length (env.off view + env.sub view) - min view.length (env.off view)

def setUint32 (view : Bytes) (n : ℕ) : Except String Bytes :=
  if env.off view + 4 ≤ view.length then .ok (writeAt view (env.off view) (Plan.leBytes n))
  else .error env.rangeError

/-- `dst.set(bytes, pos)` -/
def set (view : Bytes) (pos : ℕ) (bytes : Bytes) : Except String Bytes :=
  if pos + bytes.length ≤ env.room view then .ok (writeAt view (env.off view + pos) bytes)
  else .error env.rangeError

/-- A frame into the slot: how many bytes it has, and the view, which keeps what was written before
a throw. -/
def put (view info body : Bytes) : Except String ℕ × Bytes :=
  match env.setUint32 view info.length with
  | .error e => (.error e, view)
  | .ok v₁ =>
    match env.set v₁ 4 info with
    | .error e => (.error e, v₁)
    | .ok v₂ =>
      match env.set v₂ (4 + info.length) body with
      | .error e => (.error e, v₂)
      | .ok v₃ => (.ok (4 + info.length + body.length), v₃)

/-- What the server is handed of the view: the first `n` bytes of the slot. -/
def answer (view : Bytes) (n : ℕ) : Bytes := (view.drop (env.off view)).take n

end SlotEnv

/-! ### The two writers -/

def unfit : JsonValue := .obj [("error", .str "cache reply does not fit the slot")]

/-- The frame of the cache bridge. -/
def frame (env : SlotEnv) (view : Bytes) (info : JsonValue) (body : Bytes) :
    Except String ℕ × Bytes :=
  if env.sub view < 4 + (encodeJson info).length + body.length then
    env.put view (encodeJson unfit) []
  else env.put view (encodeJson info) body

def TEXT_PLAIN : Headers := [("content-type", "text/plain; charset=utf-8")]

/-- The meta of a response; a heap that is undefined is left out. -/
def fetchMeta (status : ℕ) (headers : Headers) (heap : Option ℕ) : JsonValue :=
  .obj ([("status", count status), ("headers", headerPairs headers)] ++
    heap.toList.map fun n => ("heap", count n))

/-- The frame of a response. -/
def writeFramed (env : SlotEnv) (view : Bytes) (status : ℕ) (headers : Headers) (body : Bytes)
    (heap : Option ℕ) : Except String ℕ × Bytes :=
  let info := encodeJson (fetchMeta status headers heap)
  if 4 + info.length + body.length ≤ env.sub view then env.put view info body
  else
    let m := encodeJson (fetchMeta 500 TEXT_PLAIN none)
    let b := utf8 ("brust: action response exceeds " ++ toString (env.sub view) ++ " bytes")
    if env.sub view < 4 + m.length + b.length then (.ok 0, view) else env.put view m b

/-- The reader of the worker's tests. -/
def readFramed (js : JsonReader) (env : SlotEnv) (view : Bytes) (len : ℕ) :
    Except String (JsonValue × Bytes) :=
  if len < 4 ∨ env.sub view < len then
    .error ("bad frame length " ++ toString len ++ " (slot " ++ toString (env.sub view) ++ ")")
  else if view.length < env.off view + 4 then .error env.rangeError
  else
    let src := env.answer view len
    let n := getUint32 src
    if len < 4 + n then
      .error ("bad frame: meta_len " ++ toString n ++ " > " ++ toString (len - 4))
    else
      match js.parse ((src.drop 4).take n) with
      | none => .error (js.refusal ((src.drop 4).take n))
      | some v => .ok (v, src.drop (4 + n))

/-! ### Writing -/

theorem length_writeAt {view bytes : Bytes} {off : ℕ} (h : off + bytes.length ≤ view.length) :
    (writeAt view off bytes).length = view.length := by
  rw [writeAt, List.length_append, List.length_append, List.length_take, List.length_drop]
  omega

/-- What is written behind what was written. -/
theorem writeAt_append {view a b : Bytes} {off : ℕ} (h : off ≤ view.length) :
    writeAt (writeAt view off a) (off + a.length) b = writeAt view off (a ++ b) := by
  have hlen : (view.take off ++ a).length = off + a.length := by
    rw [List.length_append, List.length_take]
    omega
  rw [writeAt, writeAt, writeAt, List.take_left' hlen, ← List.drop_drop, List.drop_left' hlen,
    List.drop_drop, List.length_append, List.append_assoc (view.take off), Nat.add_assoc]

theorem drop_writeAt {view bytes : Bytes} {off : ℕ} (h : off ≤ view.length) :
    ((writeAt view off bytes).drop off).take bytes.length = bytes := by
  have hlen : (view.take off).length = off := by
    rw [List.length_take]
    omega
  rw [writeAt, List.append_assoc, List.drop_left' hlen, List.take_left]

/-- A slot of the view. -/
def SlotEnv.Inside (env : SlotEnv) : Prop := env.slot < max 1 env.slots

section
variable {env : SlotEnv} (hin : env.Inside)
include hin

theorem off_add_sub_le (view : Bytes) : env.off view + env.sub view ≤ view.length := by
  have hmul : env.off view + env.sub view = (env.slot + 1) * env.sub view := by
    rw [SlotEnv.off, Nat.add_mul, Nat.one_mul]
  rw [hmul]
  calc (env.slot + 1) * env.sub view ≤ max 1 env.slots * env.sub view :=
        Nat.mul_le_mul_right _ hin
    _ ≤ view.length := Nat.mul_div_le _ _

theorem room_eq (view : Bytes) : env.room view = env.sub view := by
  have h := off_add_sub_le hin view
  rw [SlotEnv.room]
  omega

end

theorem sub_congr (env : SlotEnv) {view view' : Bytes} (h : view.length = view'.length) :
    env.sub view = env.sub view' ∧ env.off view = env.off view' := by
  rw [SlotEnv.off, SlotEnv.off, SlotEnv.sub, SlotEnv.sub, h]
  exact ⟨rfl, rfl⟩

section
variable {env : SlotEnv} (hin : env.Inside) {view : Bytes}
include hin

/-- **A frame that fits** is what the slot begins with. -/
theorem put_fits {info body : Bytes} (h : 4 + info.length + body.length ≤ env.sub view) :
    env.put view info body = (.ok (4 + info.length + body.length),
      writeAt view (env.off view) (framed Plan.leBytes info body)) := by
  have hend := off_add_sub_le hin view
  have hfour : (Plan.leBytes info.length).length = 4 := rfl
  have hlen₁ : (writeAt view (env.off view) (Plan.leBytes info.length)).length = view.length :=
    length_writeAt (by omega)
  have hlen₂ : (writeAt view (env.off view) (Plan.leBytes info.length ++ info)).length =
      view.length := length_writeAt (by rw [List.length_append]; omega)
  obtain ⟨hsub₁, hoff₁⟩ := sub_congr env hlen₁
  obtain ⟨hsub₂, hoff₂⟩ := sub_congr env hlen₂
  have hinfo : env.set (writeAt view (env.off view) (Plan.leBytes info.length)) 4 info =
      .ok (writeAt view (env.off view) (Plan.leBytes info.length ++ info)) := by
    rw [SlotEnv.set, room_eq hin, hsub₁, if_pos (by omega), hoff₁]
    exact congrArg Except.ok (writeAt_append (by omega))
  have hbody : env.set (writeAt view (env.off view) (Plan.leBytes info.length ++ info))
      (4 + info.length) body =
        .ok (writeAt view (env.off view) (framed Plan.leBytes info body)) := by
    have hpos : env.off view + (4 + info.length) =
        env.off view + (Plan.leBytes info.length ++ info).length := by
      rw [List.length_append, hfour]
    rw [SlotEnv.set, room_eq hin, hsub₂, if_pos (by omega), hoff₂, hpos]
    exact congrArg Except.ok (writeAt_append (by omega))
  rw [SlotEnv.put, SlotEnv.setUint32, if_pos (by omega)]
  dsimp only
  rw [hinfo]
  dsimp only
  rw [hbody]

/-- The server is handed the frame. -/
theorem answer_put {info body : Bytes} (h : 4 + info.length + body.length ≤ env.sub view) :
    env.answer (writeAt view (env.off view) (framed Plan.leBytes info body))
      (4 + info.length + body.length) = framed Plan.leBytes info body := by
  have hend := off_add_sub_le hin view
  have hlength := length_framed lengthCode info body
  have hlen : (writeAt view (env.off view) (framed Plan.leBytes info body)).length =
      view.length := length_writeAt (by omega)
  rw [SlotEnv.answer, (sub_congr env hlen).2, ← hlength]
  exact drop_writeAt (by omega)

/-- A frame that does not fit throws; of the view, the length at most is written. -/
theorem put_throws {info : Bytes} (h : env.sub view < 4 + info.length) :
    ∃ view', env.put view info [] = (.error env.rangeError, view') ∧
      view'.length = view.length := by
  rw [SlotEnv.put, SlotEnv.setUint32]
  by_cases hfour : env.off view + 4 ≤ view.length
  · have hlen : (writeAt view (env.off view) (Plan.leBytes info.length)).length = view.length :=
      length_writeAt hfour
    rw [if_pos hfour]
    dsimp only
    rw [SlotEnv.set, room_eq hin, (sub_congr env hlen).1, if_neg (by omega)]
    exact ⟨_, rfl, hlen⟩
  · rw [if_neg hfour]
    exact ⟨_, rfl, rfl⟩

end

/-! ### The bridge's frame -/

/-- The frame of a meta and a body fits the slot. -/
def Fits (env : SlotEnv) (view : Bytes) (info : JsonValue) (body : Bytes) : Prop :=
  4 + (encodeJson info).length + body.length ≤ env.sub view

instance (env : SlotEnv) (view : Bytes) (info : JsonValue) (body : Bytes) :
    Decidable (Fits env view info body) := inferInstanceAs (Decidable (_ ≤ _))

theorem encodeJson_eq (v : JsonValue) : encodeJson v = encoded v.render := by
  rw [encodeJson, utf8_eq, String.toList_ofList]

theorem fits_congr {env : SlotEnv} {view view' : Bytes} (h : view.length = view'.length)
    (info : JsonValue) (body : Bytes) : Fits env view info body ↔ Fits env view' info body := by
  rw [Fits, Fits, (sub_congr env h).1]

theorem fits_nil {env : SlotEnv} {view : Bytes} {info : JsonValue} :
    Fits env view info [] ↔ 4 + (encodeJson info).length ≤ env.sub view := by
  rw [Fits, List.length_nil, Nat.add_zero]

/-- What is put in place of a meta and a body. -/
def sent (env : SlotEnv) (view : Bytes) (info : JsonValue) (body : Bytes) : JsonValue × Bytes :=
  if Fits env view info body then (info, body) else (unfit, [])

theorem fits_sent {env : SlotEnv} {view : Bytes} {info : JsonValue} {body : Bytes}
    (h : Fits env view info body ∨ Fits env view unfit []) :
    Fits env view (sent env view info body).1 (sent env view info body).2 := by
  rw [sent]
  split
  next hfits => exact hfits
  next hfits => exact h.resolve_left hfits

section
variable {env : SlotEnv} (hin : env.Inside) {view : Bytes} {info : JsonValue} {body : Bytes}
include hin

theorem frame_ok (h : Fits env view info body ∨ Fits env view unfit []) : ∃ n view',
    frame env view info body = (.ok n, view') ∧ view'.length = view.length ∧
      env.answer view' n = framed Plan.leBytes (encodeJson (sent env view info body).1)
        (sent env view info body).2 := by
  have hput : ∀ {m b : Bytes}, 4 + m.length + b.length ≤ env.sub view → ∃ n view',
      env.put view m b = (.ok n, view') ∧ view'.length = view.length ∧
        env.answer view' n = framed Plan.leBytes m b := by
    intro m b hfits
    refine ⟨_, _, put_fits hin hfits, ?_, answer_put hin hfits⟩
    have hend := off_add_sub_le hin view
    have hlength := length_framed lengthCode m b
    exact length_writeAt (by omega)
  rw [frame, sent]
  by_cases hfits : Fits env view info body
  · rw [if_neg (Nat.not_lt.mpr hfits), if_pos hfits]
    exact hput hfits
  · rw [if_pos (Nat.not_le.mp hfits), if_neg hfits]
    exact hput (h.resolve_left hfits)

theorem frame_throws (h : ¬ Fits env view info body) (hunfit : ¬ Fits env view unfit []) :
    ∃ view', frame env view info body = (.error env.rangeError, view') ∧
      view'.length = view.length := by
  rw [frame, if_pos (Nat.not_le.mp h)]
  rw [fits_nil, Nat.not_le] at hunfit
  exact put_throws hin hunfit

end

/-! ### Metas that are read -/

theorem readUInt_count {bound n : ℕ} (h : n < bound) : readUInt bound (count n) = some n := by
  have hdigits : (toString n).toList = Nat.toDigits 10 n := String.toList_ofList
  have hne : Nat.toDigits 10 n ≠ [] := Nat.toDigits_ne_nil
  have hall : (Nat.toDigits 10 n).all Char.isDigit = true := List.all_eq_true.mpr fun c hc =>
    Nat.isDigit_of_mem_toDigits (by decide) (by decide) hc
  rw [count, readUInt, hdigits, Nat.ofDigitChars_ten_toDigits, if_pos ⟨hne, hall, h⟩]

theorem readOption_stampValue {bound : ℕ} {stamp : Option ℕ} (h : ∀ n ∈ stamp, n < bound) :
    readOption (readUInt bound) (stampValue stamp) = some stamp := by
  cases stamp with
  | none => rfl
  | some n => exact congrArg (Option.map some) (readUInt_count (h n rfl))

theorem readOption_count {bound n : ℕ} (h : n < bound) :
    readOption (readUInt bound) (count n) = some (some n) :=
  congrArg (Option.map some) (readUInt_count h)

theorem readHeaders_headerPairs (hs : Headers) : readHeaders (headerPairs hs) = some hs := by
  rw [Cloudflare.Kv.headerPairs, readHeaders]
  induction hs with
  | nil => rfl
  | cons h hs ih =>
      rw [List.map_cons, List.mapM_cons, ih]
      rfl

section
variable {serde : JsonReader} (hreads : serde.Reads (2 ^ 64)) {M : Type}
  {ofJson : JsonValue → Option M}
include hreads

/-- **A frame of such a meta is read.** -/
theorem frameParts_framed {entries : List (String × JsonValue)} {m : M} {body : Bytes}
    (hsimple : ∀ e ∈ entries, Simple (2 ^ 64) e.2) (hm : ofJson (.obj entries) = some m)
    (hlen : (encodeJson (.obj entries)).length < 2 ^ 32) :
    frameParts serde ofJson (framed Plan.leBytes (encodeJson (.obj entries)) body) =
      .ok (m, body) := by
  rw [frameParts_of_unframe (unframe_framed lengthCode hlen body), hreads.read entries hsimple,
    Option.bind_some, hm]

end

end Brust.Frames
