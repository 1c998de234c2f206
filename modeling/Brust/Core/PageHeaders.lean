import Brust.Core.L2Key
import Brust.Support.Grouped

/-!
# Core — the response of a page

A page's response is made three times: of the render (`page`), of its L1 entry (`hit_response`), and
of the page that the shared tier gave back (`page_from_l2`, `l2_hit_response`).  The last goes
through pairs of texts: a header whose value is no visible ASCII is left out on the way there
(`pairs_of`), and one that belongs to one response, `Vary` among them, on the way back.

So the three are of one page exactly where the render is `Plain` (`faithful_iff`).
-/

namespace Brust.Core

open Grouping

/-- A header map of the http crate, its names and its values: the names in the order in which they
came, and the values of each together. -/
structure Http (H X : Type) where
  /-- `HeaderName::from_bytes` and `as_str`. -/
  name : String → Option String
  name_lower : ∀ k n, name k = some n → n.toList = k.toList.map Char.toLower
  name_name : ∀ k n, name k = some n → name n = some n
  name_contentType : name "content-type" = some "content-type"
  /-- `HeaderValue::from_str` -/
  value : String → Option X
  /-- `HeaderValue::to_str` -/
  text : X → Option String
  value_text : ∀ x s, text x = some s → value s = some x
  /-- `HeaderValue::from_static` -/
  static : String → X
  text_html : text (static "text/html; charset=utf-8") = some "text/html; charset=utf-8"
  empty : H
  append : H → String → X → H
  iter : H → List (String × X)
  iter_empty : iter empty = []
  iter_append : ∀ h n x, iter (append h n x) = place n x (iter h)

/-- A gzip, and what a client makes of a body by its content codings, the last first. -/
structure Codings (X : Type) where
  gzip : List UInt8 → Option (List UInt8)
  decode : List X → List UInt8 → Option (List UInt8)

/-- Decoding what was made of a body as the last coding leaves the others. -/
def Codings.Undone {X : Type} (codings : Codings X) (gzip : X) : Prop :=
  ∀ cs b z, codings.gzip b = some z → codings.decode (cs ++ [gzip]) z = codings.decode cs b

section

variable {H X : Type} (http : Http H X) (codings : Codings X)

/-! ### The loader's headers -/

/-- Headers that a loader may not set. -/
def REFUSED_HEADERS : List String :=
  ["content-type", "content-length", "transfer-encoding", "connection", "location"]

/-- The tokens of a `Vary` or a `Cache-Control` value. -/
def tokens (v : String) : List String :=
  (v.toList.splitOn ',').map fun t => trim (String.ofList ((t.splitOn '=').headD []))

/-- A header that keeps a response from being stored. -/
def bars (k v : String) : Bool :=
  eqIgnoreAsciiCase k "set-cookie" ||
    (eqIgnoreAsciiCase k "vary" &&
      (tokens v).any fun t => !t.isEmpty && !eqIgnoreAsciiCase t "accept-encoding") ||
    (eqIgnoreAsciiCase k "cache-control" &&
      (tokens v).any fun t => eqIgnoreAsciiCase t "no-store" || eqIgnoreAsciiCase t "private")

/-- `loader_headers`: the headers that are sent, and whether the response may be stored. -/
def loaderHeaders : List (String × String) → List (String × String) × Bool
  | [] => ([], true)
  | (k, v) :: headers =>
    let (extra, cacheable) := loaderHeaders headers
    if REFUSED_HEADERS.any (eqIgnoreAsciiCase k) then (extra, cacheable)
    else if (http.name k).isNone || (http.value v).isNone then (extra, cacheable)
    else ((k, v) :: extra, !bars k v && cacheable)

/-! ### Building a response -/

def isFramingHeader (name : String) : Bool :=
  ["content-length", "transfer-encoding", "connection"].any (eqIgnoreAsciiCase name)

/-- A character that would end the header. -/
def isCut (c : Char) : Bool := c == '\r' || c == '\n' || c == '\x00'

/-- What `header_map` appends for an extra header. -/
def appended (h : String × String) : Option (String × X) :=
  if eqIgnoreAsciiCase h.1 "content-type" || isFramingHeader h.1 then none
  else if h.1.toList.any isCut || h.2.toList.any isCut then none
  else match http.name h.1, http.value h.2 with
    | some n, some x => some (n, x)
    | _, _ => none

/-- `header_map` for the page type. -/
def headerMap (extra : List (String × String)) : H :=
  extra.foldl (fun hm h => match appended http h with
      | some e => http.append hm e.1 e.2
      | none => hm)
    (http.append http.empty "content-type" (http.static "text/html; charset=utf-8"))

structure RenderedBody (H : Type) where
  status : ℕ
  headers : H
  html : List UInt8

structure Response (H : Type) where
  status : ℕ
  headers : H
  body : List UInt8

/-- Shorter bodies are not compressed. -/
def PAGE_GZIP_MIN : ℕ := 16 * 1024

/-- The bytes to send, and whether they are gzip. -/
def cachedBody (html : List UInt8) (acceptsGzip : Bool) : List UInt8 × Bool :=
  if acceptsGzip && decide (PAGE_GZIP_MIN ≤ html.length) then
    match codings.gzip html with
    | some gz => (gz, true)
    | none => (html, false)
  else (html, false)

def pageResponse (status : ℕ) (h : H) (htmlLen : ℕ) (sent : List UInt8 × Bool)
    (cacheHdr : Option String) : Response H :=
  let h := match cacheHdr with
    | some v => http.append h "x-brust-cache" (http.static v)
    | none => h
  let h := if sent.2 then http.append h "content-encoding" (http.static "gzip") else h
  let h := if PAGE_GZIP_MIN ≤ htmlLen then http.append h "vary"
    (http.static "Accept-Encoding") else h
  ⟨status, h, sent.1⟩

def response (b : RenderedBody H) (gz : Bool) (cacheHdr : Option String) : Response H :=
  pageResponse http b.status b.headers b.html.length (cachedBody codings b.html gz) cacheHdr

def hitResponse (b : RenderedBody H) (gz : Bool) : Response H :=
  response http codings b gz (some "HIT")

def l2HitResponse (b : RenderedBody H) (gz : Bool) : Response H :=
  response http codings b gz (some "HIT-L2")

/-! ### The shared tier's pages -/

/-- A page as an adapter stores it. -/
structure L2Page where
  status : ℕ
  headers : List (String × String)
  body : List UInt8

/-- A page's headers as pairs; a value that is no text is left out. -/
def pairsOf (h : H) : List (String × String) :=
  (http.iter h).filterMap fun e => (http.text e.2).map fun s => (e.1, s)

def toL2 (b : RenderedBody H) : L2Page := ⟨b.status, pairsOf http b.headers, b.html⟩

/-- Headers that belong to one response. -/
def PER_REQUEST : List String :=
  ["x-brust-cache", "content-encoding", "vary", "content-length", "transfer-encoding", "set-cookie"]

/-- What `page_from_l2` appends for a pair. -/
def restored (h : String × String) : Option (String × X) :=
  match http.name h.1, http.value h.2 with
  | some n, some x => if n ∈ PER_REQUEST then none else some (n, x)
  | _, _ => none

def pageFromL2 (p : L2Page) : RenderedBody H :=
  ⟨p.status, p.headers.foldl (fun hm h => match restored http h with
      | some e => http.append hm e.1 e.2
      | none => hm) http.empty, p.body⟩

/-! ### A render -/

/-- What a render came of: the status of its route, whether the loader's verdict was not found, the
loader's headers, whether a job insert was refused, and the document. -/
structure Render where
  routeStatus : ℕ
  notFound : Bool
  loader : List (String × String)
  refused : Bool
  html : List UInt8

namespace Render

variable (r : Render)

def status : ℕ := if r.notFound then 404 else r.routeStatus

def cacheable : Bool := !r.notFound && (loaderHeaders http r.loader).2 && !r.refused

/-- The render of a request with a key is stored. -/
def stores : Bool := decide (r.status = 200) && r.cacheable http

def body : RenderedBody H :=
  ⟨r.status, headerMap http (loaderHeaders http r.loader).1, r.html⟩

/-- The response of the render itself. -/
def answer (gz : Bool) (cacheHdr : Option String) : Response H :=
  response http codings (r.body http) gz cacheHdr

end Render

/-! ### What a response says -/

/-- The headers that a claim of one page leaves out. -/
def HIDDEN : List String := ["x-brust-cache", "content-encoding"]

def shown (h : H) : List (String × X) := (http.iter h).filter fun e => decide (e.1 ∉ HIDDEN)

def codingsOf (h : H) : List X :=
  ((http.iter h).filter fun e => decide (e.1 = "content-encoding")).map (·.2)

/-- Two responses are of one page. -/
structure SamePage (a b : Response H) : Prop where
  status : b.status = a.status
  body : codings.decode (codingsOf http b.headers) b.body =
    codings.decode (codingsOf http a.headers) a.body
  headers : shown http b.headers = shown http a.headers

namespace Render

variable (r : Render)

/-- What of the loader's headers gets into the response. -/
def entries : List (String × X) := (loaderHeaders http r.loader).1.filterMap (appended http)

/-- No header says that the page varies, every value is a text, and no coding of the loader's own
says anything of the body. -/
structure Plain : Prop where
  text : ∀ e ∈ r.entries http, e.1 ∉ HIDDEN → (http.text e.2).isSome = true
  vary : ∀ e ∈ r.entries http, e.1 ≠ "vary"
  body : codings.decode (((r.entries http).filter fun e => decide (e.1 = "content-encoding")).map
    (·.2)) r.html = codings.decode [] r.html

/-- Whatever the caches serve of a render is the page that it answered. -/
structure Faithful : Prop where
  l1 : ∀ gz gz', SamePage http codings (r.answer http codings gz (some "MISS"))
    (hitResponse http codings (r.body http) gz')
  l2 : ∀ gz gz', SamePage http codings (r.answer http codings gz (some "MISS"))
    (l2HitResponse http codings (pageFromL2 http (toL2 http (r.body http))) gz')
  l1OfL2 : ∀ gz gz', SamePage http codings (r.answer http codings gz (some "MISS"))
    (hitResponse http codings (pageFromL2 http (toL2 http (r.body http))) gz')

end Render

/-! ### Header maps -/

variable {http codings} {r : Render}

theorem iter_foldl {α : Type} (f : α → Option (String × X)) (l : List α) (hm : H) :
    http.iter (l.foldl (fun hm h => match f h with
      | some e => http.append hm e.1 e.2
      | none =>
          hm) hm) = (l.filterMap f).foldl (fun acc e => place e.1 e.2 acc) (http.iter hm) := by
  induction l generalizing hm with
  | nil => rfl
  | cons a l ih =>
      rw [List.foldl_cons, ih]
      cases hf : f a with
      | none => rw [List.filterMap_cons_none hf]
      | some e => rw [List.filterMap_cons_some hf, List.foldl_cons, http.iter_append]

theorem iter_body : http.iter (r.body http).headers =
    group (("content-type", http.static "text/html; charset=utf-8") :: r.entries http) := by
  rw [Render.body, headerMap, iter_foldl, http.iter_append, http.iter_empty]
  rfl

theorem mem_iter_body {e : String × X} : e ∈ http.iter (r.body http).headers ↔
    e = ("content-type", http.static "text/html; charset=utf-8") ∨ e ∈ r.entries http := by
  rw [iter_body, mem_group, List.mem_cons]

/-- A header that gets into the response: one of the loader's, by its name. -/
theorem appended_spec {h : String × String} {e : String × X} (he : appended http h = some e) :
    http.name h.1 = some e.1 ∧ isFramingHeader h.1 = false := by
  rw [appended] at he
  split at he
  · cases he
  · next hct =>
    split at he
    · cases he
    · split at he
      · next n x hn hx =>
        cases he
        rw [Bool.or_eq_true, not_or] at hct
        exact ⟨hn, Bool.eq_false_iff.mpr hct.2⟩
      · cases he

theorem mem_entries {e : String × X} (he : e ∈ r.entries http) :
    ∃ h ∈ (loaderHeaders http r.loader).1, http.name h.1 = some e.1 ∧
      isFramingHeader h.1 = false := by
  obtain ⟨h, hh, he⟩ := List.mem_filterMap.mp he
  exact ⟨h, hh, appended_spec he⟩

theorem name_of_iter {e : String × X} (he : e ∈ http.iter (r.body http).headers) :
    http.name e.1 = some e.1 := by
  rcases mem_iter_body.mp he with rfl | he
  · exact http.name_contentType
  · obtain ⟨h, -, hn, -⟩ := mem_entries he
    exact http.name_name _ _ hn

/-- What the shared tier keeps of a header. -/
def survives (http : Http H X) (e : String × X) : Bool :=
  (http.text e.2).isSome && decide (e.1 ∉ PER_REQUEST)

theorem iter_pageFromL2 : http.iter (pageFromL2 http (toL2 http (r.body http))).headers =
    (http.iter (r.body http).headers).filter (survives http) := by
  have hkept : ∀ l : List (String × X), (∀ e ∈ l, http.name e.1 = some e.1) →
      (l.filterMap fun e => (http.text e.2).map fun s => (e.1, s)).filterMap (restored http) =
        l.filter (survives http) := by
    intro l hl
    induction l with
    | nil => rfl
    | cons e l ih =>
        have hrest := ih fun e he => hl e (.tail _ he)
        cases ht : http.text e.2 with
        | none => simp [survives, ht, hrest]
        | some s =>
            have hv := http.value_text _ _ ht
            by_cases hper : e.1 ∈ PER_REQUEST
            · simp [survives, ht, hrest, restored, hl e List.mem_cons_self, hv, hper]
            · simp [survives, ht, hrest, restored, hl e List.mem_cons_self, hv, hper]
  have hgrouped : Grouped ((http.iter (r.body http).headers).filter (survives http)) := by
    rw [iter_body]
    exact (grouped_group _).of_sublist List.filter_sublist
  rw [pageFromL2, iter_foldl, http.iter_empty, toL2, pairsOf,
    hkept _ fun e he => name_of_iter he]
  exact hgrouped.group_eq

/-! ### One page -/

theorem shown_append {h : H} {n : String} {x : X} (hn : n ∉ HIDDEN) :
    shown http (http.append h n x) = place n x (shown http h) := by
  rw [shown, http.iter_append]
  exact filter_place (p := fun n => decide (n ∉ HIDDEN)) (decide_eq_true hn)

theorem shown_append_hidden {h : H} {n : String} {x : X} (hn : n ∈ HIDDEN) :
    shown http (http.append h n x) = shown http h := by
  rw [shown, http.iter_append]
  exact filter_place_of_out (p := fun n => decide (n ∉ HIDDEN))
    (decide_eq_false (not_not_intro hn))

theorem codingsOf_append {h : H} {n : String} {x : X} (hn : n ≠ "content-encoding") :
    codingsOf http (http.append h n x) = codingsOf http h := by
  rw [codingsOf, http.iter_append]
  exact congrArg _ (filter_place_of_out (p := fun n => decide (n = "content-encoding"))
    (decide_eq_false hn))

theorem codingsOf_append_self {h : H} {x : X} :
    codingsOf http (http.append h "content-encoding" x) = codingsOf http h ++ [x] := by
  have hplace := filter_place (p := fun n => decide (n = "content-encoding")) (v := x)
    (l := http.iter h) (decide_eq_true rfl)
  rw [codingsOf, http.iter_append, hplace, place_of_grouped, List.map_append]
  · rfl
  · refine grouped_of_one (k := "content-encoding") fun e he => ?_
    rcases List.mem_append.mp he with he | he
    · simpa using (List.mem_filter.mp he).2
    · rw [List.mem_singleton.mp he]

/-- What the server adds to a page that can be gzip. -/
def varied (http : Http H X) (htmlLen : ℕ) (headers : List (String × X)) : List (String × X) :=
  if PAGE_GZIP_MIN ≤ htmlLen then place "vary" (http.static "Accept-Encoding") headers else headers

theorem shown_response (b : RenderedBody H) (gz : Bool) (cacheHdr : Option String) :
    shown http (response http codings b gz cacheHdr).headers =
      varied http b.html.length (shown http b.headers) := by
  have hcache : shown http (match cacheHdr with
      | some v => http.append b.headers "x-brust-cache" (http.static v)
      | none => b.headers) = shown http b.headers := by
    cases cacheHdr with
    | none => rfl
    | some v => exact shown_append_hidden (by decide)
  have hcoded : ∀ h : H, shown http (if (cachedBody codings b.html gz).2 then
      http.append h "content-encoding" (http.static "gzip") else h) = shown http h := by
    intro h
    split
    · exact shown_append_hidden (by decide)
    · rfl
  unfold response pageResponse
  dsimp only
  rw [varied]
  split
  · rw [shown_append (by decide), hcoded, hcache]
  · rw [hcoded, hcache]

theorem decode_response (hundo : codings.Undone (http.static "gzip")) (b : RenderedBody H)
    (gz : Bool) (cacheHdr : Option String) :
    codings.decode (codingsOf http (response http codings b gz cacheHdr).headers)
        (response http codings b gz cacheHdr).body =
      codings.decode (codingsOf http b.headers) b.html := by
  have hcache : codingsOf http (match cacheHdr with
      | some v => http.append b.headers "x-brust-cache" (http.static v)
      | none => b.headers) = codingsOf http b.headers := by
    cases cacheHdr with
    | none => rfl
    | some v => exact codingsOf_append (by decide)
  have hvaried : ∀ h : H, codingsOf http (if PAGE_GZIP_MIN ≤ b.html.length then
      http.append h "vary" (http.static "Accept-Encoding") else h) = codingsOf http h := by
    intro h
    split
    · exact codingsOf_append (by decide)
    · rfl
  have hsent : (cachedBody codings b.html gz = (b.html, false)) ∨
      ∃ z, codings.gzip b.html = some z ∧ cachedBody codings b.html gz = (z, true) := by
    rw [cachedBody]
    split
    · split
      · next z hz => exact .inr ⟨z, hz, rfl⟩
      · exact .inl rfl
    · exact .inl rfl
  unfold response pageResponse
  dsimp only
  rw [hvaried]
  rcases hsent with hs | ⟨z, hz, hs⟩
  · rw [hs, if_neg Bool.false_ne_true, hcache]
  · rw [hs, if_pos rfl, codingsOf_append_self, hcache]
    exact hundo _ _ _ hz

/-- Responses of two bodies are of one page where the bodies are. -/
theorem samePage_iff (hundo : codings.Undone (http.static "gzip")) (b b' : RenderedBody H)
    (hstatus : b'.status = b.status) (hhtml : b'.html = b.html) (gz gz' : Bool)
    (hdr hdr' : Option String) :
    SamePage http codings (response http codings b gz hdr) (response http codings b' gz' hdr') ↔
      codings.decode (codingsOf http b'.headers) b.html =
        codings.decode (codingsOf http b.headers) b.html ∧
      varied http b.html.length (shown http b'.headers) =
        varied http b.html.length (shown http b.headers) := by
  constructor
  · rintro ⟨-, hbody, hheaders⟩
    rw [decode_response hundo, decode_response hundo, hhtml] at hbody
    rw [shown_response, shown_response, hhtml] at hheaders
    exact ⟨hbody, hheaders⟩
  · rintro ⟨hbody, hheaders⟩
    refine ⟨hstatus, ?_, ?_⟩
    · rw [decode_response hundo, decode_response hundo, hhtml]
      exact hbody
    · rw [shown_response, shown_response, hhtml]
      exact hheaders

/-- Where a part of the headers makes one page of all of them, it is all of them. -/
theorem varied_filter_iff {n : ℕ} {l : List (String × X)} {p : String × X → Bool} :
    varied http n (l.filter p) = varied http n l ↔ ∀ e ∈ l, p e = true := by
  constructor
  · intro h
    have hlen : (l.filter p).length = l.length := by
      have := congrArg List.length h
      rw [varied, varied] at this
      split at this
      · simpa only [length_place, Nat.add_right_cancel_iff] using this
      · exact this
    exact List.filter_eq_self.mp (List.filter_sublist.eq_of_length hlen)
  · intro h
    rw [List.filter_eq_self.mpr h]

theorem codingsOf_body : codingsOf http (r.body http).headers =
    ((r.entries http).filter fun e => decide (e.1 = "content-encoding")).map (·.2) := by
  rw [codingsOf, iter_body]
  have hgroup := filter_group (fun n => decide (n = "content-encoding"))
    (("content-type", http.static "text/html; charset=utf-8") :: r.entries http)
  have hct : ¬ decide ("content-type" = "content-encoding") = true := by decide
  rw [hgroup, List.filter_cons, if_neg hct, Grouped.group_eq]
  refine grouped_of_one (k := "content-encoding") fun e he => ?_
  simpa using (List.mem_filter.mp he).2

/-- What the headers of a page say where it may be stored. -/
theorem loaderHeaders_cacheable {headers : List (String × String)}
    (h : (loaderHeaders http headers).2 = true) :
    ∀ kv ∈ (loaderHeaders http headers).1, bars kv.1 kv.2 = false := by
  induction headers with
  | nil => exact fun _ hkv => by cases hkv
  | cons kv headers ih =>
      obtain ⟨k, v⟩ := kv
      simp only [loaderHeaders] at h ⊢
      split at h
      · next hr =>
        rw [if_pos hr]
        exact ih h
      · next hr =>
        rw [if_neg hr]
        split at h
        · next hv =>
          rw [if_pos hv]
          exact ih h
        · next hv =>
          rw [if_neg hv]
          rw [Bool.and_eq_true, Bool.not_eq_true'] at h
          intro kv hkv
          rcases List.mem_cons.mp hkv with rfl | hkv
          · exact h.1
          · exact ih h.2 kv hkv

theorem Render.stores_iff : r.stores http = true ↔ r.status = 200 ∧ r.notFound = false ∧
    (loaderHeaders http r.loader).2 = true ∧ r.refused = false := by
  simp only [Render.stores, Render.cacheable, Bool.and_eq_true, Bool.not_eq_true',
    decide_eq_true_eq,
    and_assoc]

/-- No header of a stored page is one that the shared tier leaves out, but for its `Vary`. -/
theorem perRequest_of_stores (hstores : r.stores http = true) {e : String × X}
    (he : e ∈ r.entries http) (hh : e.1 ∉ HIDDEN) (hper : e.1 ∈ PER_REQUEST) : e.1 = "vary" := by
  obtain ⟨h, hmem, hname, hframe⟩ := mem_entries he
  have hlower : ∀ s : String, s.toList.map Char.toLower = s.toList → e.1 = s →
      eqIgnoreAsciiCase h.1 s = true := by
    rintro s hs rfl
    rw [eqIgnoreAsciiCase, hs, http.name_lower _ _ hname, beq_self_eq_true]
  have hcookie : bars h.1 h.2 = false :=
    loaderHeaders_cacheable (Render.stores_iff.mp hstores).2.2.1 h hmem
  simp only [PER_REQUEST, List.mem_cons, List.not_mem_nil, or_false] at hper
  rcases hper with hx | hx | hx | hx | hx | hx
  · exact absurd (hx ▸ by decide) hh
  · exact absurd (hx ▸ by decide) hh
  · exact hx
  · have := hlower "content-length" (by decide) hx
    simp [isFramingHeader, this] at hframe
  · have := hlower "transfer-encoding" (by decide) hx
    simp [isFramingHeader, this] at hframe
  · have := hlower "set-cookie" (by decide) hx
    simp [bars, this] at hcookie

/-- **What the caches serve of a render is its page exactly where the render is plain.** -/
theorem faithful_iff (hundo : codings.Undone (http.static "gzip"))
    (hstores : r.stores http = true) : r.Faithful http codings ↔ r.Plain http codings := by
  have hcodings : codingsOf http (pageFromL2 http (toL2 http (r.body http))).headers = [] := by
    rw [codingsOf, iter_pageFromL2, List.filter_filter, List.map_eq_nil_iff, List.filter_eq_nil_iff]
    intro e _ hboth
    rw [Bool.and_eq_true, survives, Bool.and_eq_true] at hboth
    have hname := of_decide_eq_true hboth.1
    exact of_decide_eq_true hboth.2.2 (hname ▸ by decide)
  have hshown : shown http (pageFromL2 http (toL2 http (r.body http))).headers =
      (shown http (r.body http).headers).filter (survives http) := by
    rw [shown, shown, iter_pageFromL2, List.filter_filter, List.filter_filter]
    exact List.filter_congr fun e _ => Bool.and_comm _ _
  have hsurvive : (∀ e ∈ shown http (r.body http).headers, survives http e = true) ↔
      (∀ e ∈ r.entries http, e.1 ∉ HIDDEN → (http.text e.2).isSome = true) ∧
        ∀ e ∈ r.entries http, e.1 ≠ "vary" := by
    constructor
    · intro h
      have hentry : ∀ e ∈ r.entries http, e.1 ∉ HIDDEN → survives http e = true := fun e he hh =>
        h e (List.mem_filter.mpr ⟨mem_iter_body.mpr (.inr he), decide_eq_true hh⟩)
      refine ⟨fun e he hh => (Bool.and_eq_true _ _ ▸ hentry e he hh).1, fun e he hvary => ?_⟩
      have hs := hentry e he (hvary ▸ by decide)
      rw [survives, Bool.and_eq_true] at hs
      exact of_decide_eq_true hs.2 (hvary ▸ by decide)
    · rintro ⟨htext, hvary⟩ e he
      obtain ⟨he, hh⟩ := List.mem_filter.mp he
      have hh := of_decide_eq_true hh
      rw [survives, Bool.and_eq_true]
      rcases mem_iter_body.mp he with rfl | he
      · have hct : "content-type" ∉ PER_REQUEST := by decide
        refine ⟨?_, decide_eq_true hct⟩
        rw [http.text_html]
        rfl
      · refine ⟨htext e he hh, decide_eq_true fun hper => ?_⟩
        exact hvary e he (perRequest_of_stores hstores he hh hper)
  have hl2 : ∀ gz gz' hdr, SamePage http codings (r.answer http codings gz (some "MISS"))
      (response http codings (pageFromL2 http (toL2 http (r.body http))) gz' hdr) ↔
      r.Plain http codings := by
    intro gz gz' hdr
    rw [Render.answer, samePage_iff hundo (r.body http)
      (pageFromL2 http (toL2 http (r.body http))) rfl rfl,
      hcodings, codingsOf_body, hshown, varied_filter_iff, hsurvive]
    constructor
    · rintro ⟨hbody, htext, hvary⟩
      exact ⟨htext, hvary, hbody.symm⟩
    · rintro ⟨htext, hvary, hbody⟩
      exact ⟨hbody.symm, htext, hvary⟩
  constructor
  · intro h
    exact (hl2 false false _).mp (h.l2 false false)
  · intro h
    refine ⟨fun gz gz' => ?_, fun gz gz' => (hl2 gz gz' _).mpr h, fun gz gz' =>
      (hl2 gz gz' _).mpr h⟩
    rw [Render.answer, hitResponse, samePage_iff hundo (r.body http) (r.body http) rfl rfl]
    exact ⟨rfl, rfl⟩

end

end Brust.Core
