import Brust.Frames.Bridge

/-!
# Frames — the answer of an action

`runFetch`: a worker answers the server's request with its app's response.  A response that does not
fit the slot leaves by heap, with a frame of its meta alone; one that may not leave is answered by a
500 that says so.  Every call ends with a frame, or with none where the slot is too small for the
500 (`runFetch_faithful`).
-/

namespace Brust.Frames

open Brust.Core Brust.Core.Path Brust.Cloudflare.Kv

/-! ### The call -/

/-- Where the body of a request is. -/
inductive RequestBody where
  | inline
  | heap (length : ℕ)
  | stream

structure FetchRequest (R : Type) where
  request : R
  body : RequestBody

/-- What the app answered: `fetchParts`. -/
structure Parts where
  status : ℕ
  headers : Headers
  body : Bytes

section
variable {R : Type} (env : SlotEnv)

def writeOut (c : Call) (status : ℕ) (headers : Headers) (body : Bytes) (heap : Option ℕ) :
    Except String ℕ × Call :=
  ((writeFramed env c.view status headers body heap).1,
    { c with view := (writeFramed env c.view status headers body heap).2 })

def fail (c : Call) (text : String) : Except String ℕ × Call :=
  writeOut env c 500 TEXT_PLAIN (utf8 text) none

/-- The body that the app is handed; a stream is pulled by the app. -/
def requestBody (pullBody : Bool) (c : Call) : RequestBody → Except String (Option Bytes) × Call
  | .inline => (.ok none, c)
  | .heap n =>
    match takeBody c with
    | (none, c) => (.error "heap request body missing bytes (F82)", c)
    | (some body, c) =>
      if body.length ≠ n then
        (.error ("heap request body " ++ toString body.length ++ " != " ++ toString n ++
          " bytes (F82)"), c)
      else (.ok (some body), c)
  | .stream =>
    if pullBody then (.ok none, c)
    else (.error "streamed request body without a pull channel (F475)", c)

def answerFetch (maxResponseBytes cap : ℕ) (c : Call) (o : Parts) : Except String ℕ × Call :=
  if 4 + (encodeJson (fetchMeta o.status o.headers none)).length + o.body.length ≤
      env.sub c.view then
    writeOut env c o.status o.headers o.body none
  else if maxResponseBytes < o.body.length then
    writeOut env c 500 TEXT_PLAIN
      (utf8 ("brust: action response exceeds " ++ toString maxResponseBytes ++ " bytes")) none
  else if env.sub c.view <
      4 + (encodeJson (fetchMeta o.status o.headers (some o.body.length))).length then
    writeOut env c o.status o.headers o.body none
  else
    match putReply cap c o.body with
    | (false, c) => (.error "heap reply declined by the server (F82)", c)
    | (true, c) => writeOut env c o.status o.headers [] (some o.body.length)

def tryFetch (app : R → Option Bytes → Except String Parts) (maxResponseBytes cap : ℕ)
    (pullBody : Bool) (request : Except String (FetchRequest R)) (c : Call) :
    Except String ℕ × Call :=
  match request with
  | .error text => (.error text, c)
  | .ok fr =>
    match requestBody pullBody c fr.body with
    | (.error text, c) => (.error text, c)
    | (.ok body, c) =>
      match app fr.request body with
      | .error text => (.error text, c)
      | .ok o => answerFetch env maxResponseBytes cap c o

/-- What is thrown is logged, and answered by a 500. -/
def catchFetch : Except String ℕ × Call → Except String ℕ × Call
  | (.ok n, c) => (.ok n, c)
  | (.error _, c) => fail env c "brust: action failed"

/-- The answer of a call. -/
def runFetch (app : Option (R → Option Bytes → Except String Parts)) (maxResponseBytes cap : ℕ)
    (pullBody : Bool) (request : Except String (FetchRequest R)) (c : Call) :
    Except String ℕ × Call :=
  match app with
  | none => fail env c "brust: actions are not configured in this worker"
  | some app => catchFetch env (tryFetch env app maxResponseBytes cap pullBody request c)

end

/-! ### What a frame is read as -/

theorem ofJson_fetchMeta {status : ℕ} (hstatus : status < 2 ^ 16) (headers : Headers)
    {heap : Option ℕ} (hheap : ∀ n ∈ heap, n < 2 ^ 64) :
    FetchMeta.ofJson (fetchMeta status headers heap) = some ⟨status, headers, heap⟩ := by
  have hs := readUInt_count hstatus
  have hh := readHeaders_headerPairs headers
  cases heap with
  | none =>
      show (readUInt (2 ^ 16) (count status)).bind (fun status =>
        (readHeaders (headerPairs headers)).bind fun headers =>
          some (FetchMeta.mk status headers none)) = _
      simp only [hs, hh, Option.bind_some]
  | some n =>
      have hn := readOption_count (hheap n rfl)
      show (readUInt (2 ^ 16) (count status)).bind (fun status =>
        (readHeaders (headerPairs headers)).bind fun headers =>
        (readOption (readUInt (2 ^ 64)) (count n)).map fun heap =>
          FetchMeta.mk status headers heap) = _
      simp only [hs, hh, hn, Option.bind_some, Option.map_some]

theorem simple_fetchMeta {status : ℕ} (hstatus : status < 2 ^ 16) (headers : Headers)
    {heap : Option ℕ} (hheap : ∀ n ∈ heap, n < 2 ^ 64) {entries : List (String × JsonValue)}
    (h : fetchMeta status headers heap = .obj entries) : ∀ e ∈ entries, Simple (2 ^ 64) e.2 := by
  cases h
  intro e he
  simp only [List.cons_append, List.nil_append, List.mem_cons, List.mem_map,
    Option.mem_toList] at he
  rcases he with rfl | rfl | ⟨n, hn, rfl⟩
  · exact simple_count (by omega)
  · exact simple_headerPairs _ _
  · exact simple_count (hheap n hn)

/-- The answer of a fetch as the server reads it. -/
def FetchRead (serde : JsonReader) (env : SlotEnv) (answered : Except String ℕ × Call)
    (r : Except CallError FetchResponse) : Prop :=
  ∃ n c cell, answered = (.ok n, c) ∧
    decodeFetchReply serde (env.answer c.view n) c.reply = (r, cell)

/-- A response that is not the app's: a 500 that says why, or a frame that is refused. -/
def Replaced (r : Except CallError FetchResponse) : Prop :=
  (∃ text, r = .ok ⟨500, TEXT_PLAIN, utf8 text⟩) ∨ ∃ text, r = .error (.badResponse text)

section
variable {serde : JsonReader} (hreads : serde.Reads (2 ^ 64)) {env : SlotEnv}
  (hin : env.Inside) {c : Call}
  (hview : c.view.length < 2 ^ 32)
include hreads hin hview

theorem frameParts_put {status : ℕ} (hstatus : status < 2 ^ 16) {headers : Headers}
    {heap : Option ℕ} (hheap : ∀ n ∈ heap, n < 2 ^ 64) {body : Bytes}
    (h : Fits env c.view (fetchMeta status headers heap) body) : ∃ n view,
      env.put c.view (encodeJson (fetchMeta status headers heap)) body = (.ok n, view) ∧
        frameParts serde FetchMeta.ofJson (env.answer view n) =
          .ok (⟨status, headers, heap⟩, body) := by
  have hroom : env.sub c.view ≤ c.view.length := Nat.div_le_self _ _
  have hlen : (encodeJson (fetchMeta status headers heap)).length < 2 ^ 32 := by
    rw [Fits] at h
    omega
  refine ⟨_, _, put_fits hin h, ?_⟩
  rw [answer_put hin h]
  exact frameParts_framed hreads (simple_fetchMeta hstatus headers hheap rfl)
    (ofJson_fetchMeta hstatus headers hheap) hlen

/-- A frame that fits is read. -/
theorem writeOut_fits {status : ℕ} (hstatus : status < 2 ^ 16) {headers : Headers}
    {heap : Option ℕ} (hheap : ∀ n ∈ heap, n < 2 ^ 64) {body : Bytes}
    (h : Fits env c.view (fetchMeta status headers heap) body) : ∃ n view,
      writeOut env c status headers body heap = (.ok n, { c with view }) ∧
        frameParts serde FetchMeta.ofJson (env.answer view n) =
          .ok (⟨status, headers, heap⟩, body) := by
  obtain ⟨n, view, hput, hparts⟩ := frameParts_put hreads hin hview hstatus hheap h
  have hwrite : writeFramed env c.view status headers body heap = (.ok n, view) := by
    rw [← hput]
    exact if_pos h
  exact ⟨n, view, by rw [writeOut, hwrite], hparts⟩

theorem read_inline {status : ℕ} (hstatus : status < 2 ^ 16) {headers : Headers} {body : Bytes}
    (h : Fits env c.view (fetchMeta status headers none) body) :
    FetchRead serde env (writeOut env c status headers body none)
      (.ok ⟨status, headers, body⟩) := by
  obtain ⟨n, view, hwrite, hparts⟩ := writeOut_fits hreads hin hview hstatus (by simp) h
  refine ⟨n, _, c.reply, hwrite, ?_⟩
  rw [decodeFetchReply, hparts]

/-- A response whose body went by heap. -/
theorem read_heap_reply {status : ℕ} (hstatus : status < 2 ^ 16) {headers : Headers} {body : Bytes}
    (hlength : body.length < 2 ^ 64) (hreply : c.reply = some body)
    (h : Fits env c.view (fetchMeta status headers (some body.length)) []) :
    FetchRead serde env (writeOut env c status headers [] (some body.length))
      (.ok ⟨status, headers, body⟩) := by
  have hheap : ∀ n ∈ some body.length, n < 2 ^ 64 := by
    rintro n ⟨⟩
    exact hlength
  obtain ⟨n, view, hwrite, hparts⟩ := writeOut_fits hreads hin hview hstatus hheap h
  refine ⟨n, _, none, hwrite, ?_⟩
  rw [decodeFetchReply, hparts, hreply]
  simp

/-- A frame that does not fit is replaced. -/
theorem writeOut_replaced {status : ℕ} {headers : Headers} {body : Bytes} {heap : Option ℕ}
    (h : ¬ Fits env c.view (fetchMeta status headers heap) body) :
    ∃ r, FetchRead serde env (writeOut env c status headers body heap) r ∧ Replaced r := by
  by_cases hfits : Fits env c.view (fetchMeta 500 TEXT_PLAIN none)
      (utf8 ("brust: action response exceeds " ++ toString (env.sub c.view) ++ " bytes"))
  · obtain ⟨n, view, hput, hparts⟩ := frameParts_put hreads hin hview (by decide) (by simp) hfits
    have hwrite : writeFramed env c.view status headers body heap = (.ok n, view) := by
      rw [← hput]
      exact (if_neg h).trans (if_neg (Nat.not_lt.mpr hfits))
    refine ⟨_, ⟨n, _, c.reply, by rw [writeOut, hwrite], ?_⟩, Or.inl
      ⟨"brust: action response exceeds " ++ toString (env.sub c.view) ++ " bytes", rfl⟩⟩
    rw [decodeFetchReply, hparts]
  · have hwrite : writeFramed env c.view status headers body heap = (.ok 0, c.view) :=
      (if_neg h).trans (if_pos (Nat.not_le.mp hfits))
    refine ⟨_, ⟨0, _, c.reply, by rw [writeOut, hwrite], ?_⟩,
      Or.inr ⟨"fetch frame shorter than 4 bytes", rfl⟩⟩
    rw [SlotEnv.answer, List.take_zero]
    rfl

/-- A 500 of the worker's own is read as one, or replaced. -/
theorem read_own (text : String) : ∃ r,
    FetchRead serde env (writeOut env c 500 TEXT_PLAIN (utf8 text) none) r ∧ Replaced r := by
  by_cases h : Fits env c.view (fetchMeta 500 TEXT_PLAIN none) (utf8 text)
  · exact ⟨_, read_inline hreads hin hview (by decide) h, Or.inl ⟨text, rfl⟩⟩
  · exact writeOut_replaced hreads hin hview h

end

/-! ### Every response -/

/-- What the server reads of a response: the response, where it fits the slot or may leave by heap,
and otherwise the response or what replaces it. -/
structure FetchFaithful (env : SlotEnv) (maxResponseBytes cap : ℕ) (c : Call) (o : Parts)
    (r : Except CallError FetchResponse) : Prop where
  response : r = .ok ⟨o.status, o.headers, o.body⟩ ∨ Replaced r
  inline : Fits env c.view (fetchMeta o.status o.headers none) o.body →
    r = .ok ⟨o.status, o.headers, o.body⟩
  heap : o.body.length ≤ maxResponseBytes → o.body.length ≤ cap → c.reply = none →
    Fits env c.view (fetchMeta o.status o.headers (some o.body.length)) [] →
      r = .ok ⟨o.status, o.headers, o.body⟩

theorem catchFetch_of_read {serde : JsonReader} {env : SlotEnv} {answered : Except String ℕ × Call}
    {r : Except CallError FetchResponse}
    (h : FetchRead serde env answered r) : FetchRead serde env (catchFetch env answered) r := by
  obtain ⟨n, c, cell, rfl, hdecode⟩ := h
  exact ⟨n, c, cell, rfl, hdecode⟩

theorem faithful_response (env : SlotEnv) (maxResponseBytes cap : ℕ) (c : Call) (o : Parts) :
    FetchFaithful env maxResponseBytes cap c o (.ok ⟨o.status, o.headers, o.body⟩) :=
  ⟨Or.inl rfl, fun _ => rfl, fun _ _ _ _ => rfl⟩

section
variable {serde : JsonReader} (hreads : serde.Reads (2 ^ 64)) {env : SlotEnv}
  (hin : env.Inside) {c : Call}
  (hview : c.view.length < 2 ^ 32)
include hreads hin hview

theorem catchFetch_error (text : String) :
    ∃ r, FetchRead serde env (catchFetch env (.error text, c)) r ∧ Replaced r :=
  read_own hreads hin hview _

theorem answerFetch_faithful {maxResponseBytes cap : ℕ} {o : Parts} (hstatus : o.status < 2 ^ 16)
    (hlength : o.body.length < 2 ^ 64) : ∃ r,
      FetchRead serde env (catchFetch env (answerFetch env maxResponseBytes cap c o)) r ∧
        FetchFaithful env maxResponseBytes cap c o r := by
  rw [answerFetch]
  by_cases hinline : Fits env c.view (fetchMeta o.status o.headers none) o.body
  · have hsize : 4 + (encodeJson (fetchMeta o.status o.headers none)).length + o.body.length ≤
        env.sub c.view := hinline
    rw [if_pos hsize]
    exact ⟨_, catchFetch_of_read (read_inline hreads hin hview hstatus hinline),
      faithful_response env _ _ c o⟩
  have hsize : ¬ 4 + (encodeJson (fetchMeta o.status o.headers none)).length + o.body.length ≤
      env.sub c.view := hinline
  rw [if_neg hsize]
  by_cases hlarge : maxResponseBytes < o.body.length
  · rw [if_pos hlarge]
    obtain ⟨r, hread, hreplaced⟩ := read_own hreads hin hview
      ("brust: action response exceeds " ++ toString maxResponseBytes ++ " bytes")
    exact ⟨r, catchFetch_of_read hread, Or.inr hreplaced,
      fun hfits => absurd hfits hinline, fun hsmall => by omega⟩
  rw [if_neg hlarge]
  by_cases hheap : Fits env c.view (fetchMeta o.status o.headers (some o.body.length)) []
  · have hroom := hheap
    rw [fits_nil, ← Nat.not_lt] at hroom
    rw [if_neg hroom, putReply]
    by_cases hput : o.body.length ≤ cap ∧ c.reply = none
    · have hread : ∀ c' : Call, c'.view = c.view → c'.reply = some o.body →
          FetchRead serde env (writeOut env c' o.status o.headers [] (some o.body.length))
            (.ok ⟨o.status, o.headers, o.body⟩) := by
        intro c' hc hreply
        rw [← hc] at hview hheap
        exact read_heap_reply hreads hin hview hstatus hlength hreply hheap
      rw [if_pos hput]
      exact ⟨_, catchFetch_of_read (hread _ rfl rfl), faithful_response env _ _ c o⟩
    · rw [if_neg hput]
      obtain ⟨r, hread, hreplaced⟩ := catchFetch_error hreads hin hview
        "heap reply declined by the server (F82)"
      exact ⟨r, hread, Or.inr hreplaced, fun hfits => absurd hfits hinline,
        fun _ hcap hreply => absurd ⟨hcap, hreply⟩ hput⟩
  · have hroom := hheap
    rw [fits_nil, Nat.not_le] at hroom
    rw [if_pos hroom]
    obtain ⟨r, hread, hreplaced⟩ := writeOut_replaced hreads hin hview hinline
    exact ⟨r, catchFetch_of_read hread, Or.inr hreplaced,
      fun hfits => absurd hfits hinline, fun _ _ _ hfits => absurd hfits hheap⟩

end

/-- What the app answers to a request, when the request's body has been taken. -/
def appOutcome {R : Type} (app : R → Option Bytes → Except String Parts) (pullBody : Bool)
    (request : Except String (FetchRequest R)) (c : Call) : Except String Parts × Call :=
  match request with
  | .error text => (.error text, c)
  | .ok fr =>
    ((requestBody pullBody c fr.body).1.bind (app fr.request), (requestBody pullBody c fr.body).2)

theorem tryFetch_eq {R : Type} (env : SlotEnv) (app : R → Option Bytes → Except String Parts)
    (maxResponseBytes cap : ℕ) (pullBody : Bool) (request : Except String (FetchRequest R))
    (c : Call) : tryFetch env app maxResponseBytes cap pullBody request c =
      match appOutcome app pullBody request c with
      | (.error text, c) => (.error text, c)
      | (.ok o, c) => answerFetch env maxResponseBytes cap c o := by
  cases request with
  | error text => rfl
  | ok fr =>
      rw [tryFetch, appOutcome]
      obtain ⟨body, c'⟩ := requestBody pullBody c fr.body
      cases body with
      | error text => rfl
      | ok body =>
          dsimp only [Except.bind]
          cases app fr.request body <;> rfl

/-- The request's body is no part of the view. -/
theorem view_requestBody (pullBody : Bool) (c : Call) (b : RequestBody) :
    (requestBody pullBody c b).2.view = c.view := by
  cases b with
  | inline => rfl
  | heap n =>
      rw [requestBody, takeBody]
      cases c.body with
      | none => rfl
      | some body =>
          dsimp only
          split <;> rfl
  | stream =>
      rw [requestBody]
      split <;> rfl

theorem view_appOutcome {R : Type} (app : R → Option Bytes → Except String Parts) (pullBody : Bool)
    (request : Except String (FetchRequest R)) (c : Call) :
    (appOutcome app pullBody request c).2.view = c.view := by
  cases request with
  | error text => rfl
  | ok fr => exact view_requestBody pullBody c fr.body

theorem typed_appOutcome {R : Type} {app : R → Option Bytes → Except String Parts} {pullBody : Bool}
    {request : Except String (FetchRequest R)} {c c' : Call} {o : Parts}
    (htyped : ∀ r b o, app r b = .ok o → o.status < 2 ^ 16 ∧ o.body.length < 2 ^ 64)
    (h : appOutcome app pullBody request c = (.ok o, c')) :
    o.status < 2 ^ 16 ∧ o.body.length < 2 ^ 64 := by
  cases request with
  | error text => cases h
  | ok fr =>
      obtain ⟨body, -, hbody⟩ := bind_eq_ok.mp (Prod.mk.inj h).1
      exact htyped _ _ _ hbody

section
variable {serde : JsonReader} (hreads : serde.Reads (2 ^ 64)) {env : SlotEnv}
  (hin : env.Inside) {c : Call}
  (hview : c.view.length < 2 ^ 32)
include hreads hin hview

/-- **An action's answer** is read as the app's response; where there is none, a 500 or no frame
is. -/
theorem runFetch_faithful {R : Type} (app : R → Option Bytes → Except String Parts)
    (maxResponseBytes cap : ℕ) (pullBody : Bool) (request : Except String (FetchRequest R))
    (htyped : ∀ r b o, app r b = .ok o → o.status < 2 ^ 16 ∧ o.body.length < 2 ^ 64) :
    ∃ r, FetchRead serde env (runFetch env (some app) maxResponseBytes cap pullBody request c) r ∧
      match appOutcome app pullBody request c with
      | (.ok o, c') => FetchFaithful env maxResponseBytes cap c' o r
      | (.error _, _) => Replaced r := by
  have hsame := view_appOutcome app pullBody request c
  rw [runFetch, tryFetch_eq]
  cases houtcome : appOutcome app pullBody request c with
  | mk o c' =>
      rw [houtcome] at hsame
      have hview' : c'.view.length < 2 ^ 32 := by rwa [hsame]
      cases o with
      | error text => exact catchFetch_error hreads hin hview' text
      | ok o =>
          obtain ⟨hstatus, hlength⟩ := typed_appOutcome htyped houtcome
          exact answerFetch_faithful hreads hin hview' hstatus hlength

end

end Brust.Frames
