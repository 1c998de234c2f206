import Brust.Core.Request

/-!
# Core — the key of a page

`l1_decision`: whether a request's page is looked up in the response cache, and under which key.
The key spells the request as it came, its path normalised and its query sorted, while a loader sees
decoded parameters and a decoded query.  Equal keys are of one route, with the same parameters, the
same query as a map, and the same prefix (`l1_key_sound`); what the prefix is made of need not be
the same (`l1_key_merges`).
-/

namespace Brust.Core

open Brust.Routing

/-! ### The request's pairs -/

/-- `char::is_whitespace`. -/
def isWhitespace (c : Char) : Bool :=
  let n := c.toNat
  (0x09 ≤ n && n ≤ 0x0d) || n == 0x20 || n == 0x85 || n == 0xa0 || n == 0x1680 ||
    (0x2000 ≤ n && n ≤ 0x200a) || n == 0x2028 || n == 0x2029 || n == 0x202f || n == 0x205f ||
    n == 0x3000

def trim (s : String) : String :=
  String.ofList ((s.toList.dropWhile isWhitespace).reverse.dropWhile isWhitespace).reverse

/-- Header values, as texts if they are UTF-8; names are lowercase. -/
abbrev Headers := List (String × Option String)

def headerPairs (headers : Headers) : List (String × String) :=
  (headers.filter (·.1 ≠ "")).map fun h => (h.1, h.2.getD "")

/-- The cookies of every `Cookie` header. -/
def cookiePairs (headers : Headers) : List (String × String) :=
  (headerPairs headers).flatMap fun h =>
    if h.1 = "cookie" then
      (h.2.splitOn ";").filterMap fun pair =>
        (splitOnce '=' (trim pair)).map fun p => (trim p.1, trim p.2)
    else []

/-- Keep the last value of each name, in first-seen order. -/
def lastWins (pairs : List (String × String)) : List (String × String) :=
  pairs.foldl (fun out p =>
    if p.1 ∈ out.map (·.1) then out.map fun q => if q.1 = p.1 then p else q else out ++ [p]) []

/-- Two names are equal but for case. -/
def ciCollision : List (String × String) → Bool
  | [] => false
  | p :: rest => (rest.any fun q => eqIgnoreAsciiCase p.1 q.1) || ciCollision rest

/-! ### The decision -/

inductive CacheOutcome where
  | none
  | bypass
  | miss
  | hit
  deriving DecidableEq

/-- The routes, and which of them have a cache configuration. -/
structure Site where
  https : Bool
  routes : Routes
  cached : ℕ → Bool

/-- The request as a route's expressions read it. -/
def requestCtx (https : Bool) (full : String) (headers : Headers)
    (search params : List (String × String)) : EvalCtx :=
  let header := lastWins (headerPairs headers)
  { headers := header
    cookies := lastWins (cookiePairs headers)
    query := search
    params := params
    method := "GET"
    host := ((header.find? fun p => p.1 = "host").map (·.2)).getD ""
    scheme := if https then "https" else "http"
    path := pathOf full }

namespace Site

/-- The expressions of a route, if it has any. -/
def compiledFor (s : Site) (routeId : ℕ) : Option CompiledCache :=
  s.routes.compiledCaches[routeId]?.filter fun cc => cc.keyPrefix.isSome || cc.bypass.isSome

/-- `l1_decision`: the key, the outcome, and the decoded query. -/
def l1Decision (s : Site) (routeId : ℕ) (full : String) (headers : Headers)
    (params : List (String × String)) :
    Option CacheKey × CacheOutcome × Option (List (String × String)) :=
  if !s.cached routeId then (none, .none, none)
  else
    let query := queryOf full
    let search := if query = "" then none else some (decodeSearch query)
    let pairs := search.getD []
    if ¬ (pairs.map (·.1)).Nodup then (none, .bypass, search)
    else
      match s.compiledFor routeId with
      | none => (some (buildCacheKey "GET" full ""), .miss, search)
      | some cc =>
        let ctx := requestCtx s.https full headers pairs params
        if ciCollision ctx.headers || ciCollision ctx.cookies || ciCollision ctx.query then
          (none, .bypass, search)
        else if cc.bypass.any fun b => b.all fun e => e.eval ctx ≠ "" then (none, .bypass, search)
        else (some (buildCacheKey "GET" full ((cc.keyPrefix.map (·.eval ctx)).getD "")),
          .miss, search)

/-- What `page` looks up: the route is matched, and the decision made for it. -/
def pageKey (s : Site) (full : String) (headers : Headers) : Option CacheKey :=
  (s.routes.matchRoute full).bind fun m => (s.l1Decision m.routeId full headers m.params).1

/-! ### What a loader sees -/

/-- A pair list as the object it is parsed to. -/
def objectOf (pairs : List (String × String)) (name : String) : Option String :=
  (pairs.reverse.find? fun p => p.1 = name).map (·.2)

/-- The request, as the expressions of the route it matched read it. -/
def ctxOf (s : Site) (m : RouteMatch) (full : String) (headers : Headers) : EvalCtx :=
  requestCtx s.https full headers (decodeSearch (queryOf full)) m.params

/-- The value of the route's prefix expression. -/
def prefixValue (s : Site) (m : RouteMatch) (full : String) (headers : Headers) : String :=
  (((s.compiledFor m.routeId).bind (·.keyPrefix)).map (·.eval (s.ctxOf m full headers))).getD ""

/-- The route, its parameters, the query as a map, and the value of the prefix. -/
structure Seen where
  route : RouteMatch
  search : String → Option String
  keyPrefix : String

def seen (s : Site) (m : RouteMatch) (full : String) (headers : Headers) : Seen :=
  ⟨m, objectOf (decodeSearch (queryOf full)), s.prefixValue m full headers⟩

end Site

/-! ### The query -/

section
variable {q q' : String}

theorem splitOn_amp (q : String) : q.splitOn "&" = (q.toList.splitOn '&').map String.ofList :=
  splitOn_singleton q '&'

theorem mem_pieces {p : String} (h : p ∈ (q.splitOn "&").filter (· ≠ "")) :
    p ≠ "" ∧ '&' ∉ p.toList := by
  obtain ⟨hmem, hne⟩ := List.mem_filter.mp h
  refine ⟨of_decide_eq_true hne, ?_⟩
  rw [splitOn_amp] at hmem
  obtain ⟨l, hl, rfl⟩ := List.mem_map.mp hmem
  rw [String.toList_ofList]
  exact notMem_of_mem_splitOn hl

theorem sortQuery_eq (q : String) : sortQuery q =
    String.intercalate "&" (((q.splitOn "&").filter (· ≠ "")).mergeSort (· ≤ ·)) := by
  unfold sortQuery
  split
  next h =>
    subst h
    simp [splitOn_amp]
  next => rfl

/-- **Sorted queries are equal only if the pairs are the same.** -/
theorem perm_of_sortQuery (h : sortQuery q = sortQuery q') :
    (decodeSearch q).Perm (decodeSearch q') := by
  rw [sortQuery_eq, sortQuery_eq] at h
  have hsorted := intercalate_inj (c := '&')
    (fun p hp => mem_pieces ((List.mergeSort_perm _ _).mem_iff.mp hp))
    (fun p hp => mem_pieces ((List.mergeSort_perm _ _).mem_iff.mp hp)) h
  have hperm := (List.mergeSort_perm ((q.splitOn "&").filter (· ≠ "")) (· ≤ ·)).symm
  rw [hsorted] at hperm
  exact (hperm.trans (List.mergeSort_perm _ _)).map decodePair

end

/-- An object of pairs with distinct names has just these pairs. -/
theorem objectOf_eq_some_iff {pairs : List (String × String)} (hnd : (pairs.map (·.1)).Nodup)
    {n v : String} : Site.objectOf pairs n = some v ↔ (n, v) ∈ pairs := by
  rw [Site.objectOf, Option.map_eq_some_iff]
  constructor
  · rintro ⟨p, hp, rfl⟩
    have hmem := List.mem_reverse.mp (List.mem_of_find?_eq_some hp)
    have hname : p.1 = n := by simpa using List.find?_some hp
    rwa [← hname]
  · intro hmem
    have hsome : (pairs.reverse.find? fun p => p.1 = n).isSome := by
      rw [List.find?_isSome]
      exact ⟨(n, v), List.mem_reverse.mpr hmem, by simp⟩
    obtain ⟨p, hp⟩ := Option.isSome_iff_exists.mp hsome
    have hname : p.1 = n := by simpa using List.find?_some hp
    have hp' := List.mem_reverse.mp (List.mem_of_find?_eq_some hp)
    have he : p = (n, v) := List.inj_on_of_nodup_map hnd hp' hmem hname
    exact ⟨p, hp, by rw [he]⟩

theorem objectOf_perm {pairs pairs' : List (String × String)} (h : pairs.Perm pairs')
    (hnd : (pairs.map (·.1)).Nodup) : Site.objectOf pairs = Site.objectOf pairs' := by
  funext n
  ext v
  rw [objectOf_eq_some_iff hnd, objectOf_eq_some_iff ((h.map (·.1)).nodup_iff.mp hnd), h.mem_iff]

/-! ### Equal keys -/

section
variable {s : Site} {full full' : String} {headers headers' : Headers} {k : CacheKey}

/-- The pairs that are decided on are those of the query. -/
theorem search_getD (query : String) :
    (if query = "" then none else some (decodeSearch query)).getD [] = decodeSearch query := by
  split
  next h =>
    subst h
    simp [decodeSearch, splitOn_amp]
  next => rfl

/-- A request that gets a key has distinct names in its query, and the key is made of it and of its
prefix. -/
theorem l1Decision_key {m : RouteMatch}
    (h : (s.l1Decision m.routeId full headers m.params).1 = some k) :
    ((decodeSearch (queryOf full)).map (·.1)).Nodup ∧
      k = buildCacheKey "GET" full (s.prefixValue m full headers) := by
  unfold Site.l1Decision at h
  simp only [search_getD] at h
  split at h
  · cases h
  split at h
  · cases h
  next hnd =>
    refine ⟨not_not.mp hnd, ?_⟩
    split at h
    next hc =>
      rw [Site.prefixValue, hc]
      exact (Option.some.inj h).symm
    next cc hc =>
      split at h
      · cases h
      split at h
      · cases h
      · rw [Site.prefixValue, hc]
        exact (Option.some.inj h).symm

/-- A query that repeats a name after decoding gets no key: the page is bypassed. -/
theorem l1Decision_repeated {m : RouteMatch} (hcached : s.cached m.routeId = true)
    (h : ¬ ((decodeSearch (queryOf full)).map (·.1)).Nodup) :
    (s.l1Decision m.routeId full headers m.params).1 = none ∧
      (s.l1Decision m.routeId full headers m.params).2.1 = .bypass := by
  unfold Site.l1Decision
  simp only [hcached, search_getD, h, Bool.not_true, Bool.false_eq_true, if_false,
    not_false_eq_true,
    if_true, and_self]

/-- **Equal keys are of requests that a loader cannot tell apart**, by their route and its decoded
parameters, their query as a map, and the value of the prefix: a page that depends on nothing else
is the same page.  And a query that repeats a name is bypassed. -/
theorem l1_key_sound (s : Site) (full full' : String) (headers headers' : Headers) (k : CacheKey) :
    (s.pageKey full headers = some k → s.pageKey full' headers' = some k →
      ∃ m, s.routes.matchRoute full = some m ∧ s.routes.matchRoute full' = some m ∧
        s.seen m full headers = s.seen m full' headers' ∧
        ∀ {P : Type} (page : Site.Seen → P),
          page (s.seen m full headers) = page (s.seen m full' headers')) ∧
    ∀ m, s.routes.matchRoute full = some m → s.cached m.routeId = true →
      ¬ ((decodeSearch (queryOf full)).map (·.1)).Nodup →
      s.pageKey full headers = none ∧
        (s.l1Decision m.routeId full headers m.params).2.1 = .bypass := by
  constructor
  · intro h h'
    obtain ⟨m, hm, hk⟩ := Option.bind_eq_some_iff.mp h
    obtain ⟨m', hm', hk'⟩ := Option.bind_eq_some_iff.mp h'
    obtain ⟨hnd, he⟩ := l1Decision_key hk
    obtain ⟨-, he'⟩ := l1Decision_key hk'
    rw [he] at he'
    simp only [buildCacheKey, CacheKey.mk.injEq, true_and] at he'
    obtain ⟨hstart, hpath, hquery⟩ := he'
    -- the route is matched by what the key has for the path
    have hmm : m = m' := by
      rw [Routes.matchRoute, hpath] at hm
      exact Option.some.inj (hm.symm.trans hm')
    subst hmm
    have hseen : s.seen m full headers = s.seen m full' headers' := by
      rw [Site.seen, Site.seen, hstart, objectOf_perm (perm_of_sortQuery hquery) hnd]
    exact ⟨m, hm, hm', hseen, fun page => by rw [hseen]⟩
  · intro m hm hcached hrep
    obtain ⟨hnone, hout⟩ := @l1Decision_repeated s full headers m hcached hrep
    exact ⟨by rw [Site.pageKey, hm, Option.bind_some, hnone], hout⟩

/-- Two spellings of one path, and a query that repeats a name. -/
theorem l1_key_sound_spelled :
    let s : Site := ⟨true, ⟨fun p => some (0, [("id", p)]), [], []⟩, fun _ => true⟩
    (∃ m, s.routes.matchRoute "/caf%c3%a9" = some m ∧ s.routes.matchRoute "/café" = some m ∧
      s.seen m "/caf%c3%a9" [] = s.seen m "/café" []) ∧
    s.pageKey "/p?a=1&%61=2" [] = none := by
  intro s
  have hrep : ¬ ((decodeSearch (queryOf "/p?a=1&%61=2")).map (·.1)).Nodup := by
    simp only [decodeSearch, splitOn_amp]
    decide +kernel
  constructor
  · obtain ⟨m, hm, hm', hseen, -⟩ := (l1_key_sound s "/caf%c3%a9" "/café" [] []
      ⟨"", "GET", "/caf%C3%A9", ""⟩).1 (by decide +kernel) (by decide +kernel)
    exact ⟨m, hm, hm', hseen⟩
  · exact ((l1_key_sound s "/p?a=1&%61=2" "/" [] [] ⟨"", "", "", ""⟩).2
      ⟨0, false, [("id", "/p")]⟩ (by decide +kernel) rfl hrep).1

/-- **The fields of a prefix may be others**: a concatenation is the same text of two values. -/
theorem l1_key_merges : ¬ ∀ (s : Site) (full full' : String) (headers headers' : Headers)
    (k : CacheKey) (m : RouteMatch) (e : Expr), s.pageKey full headers = some k →
    s.pageKey full' headers' = some k → s.routes.matchRoute full = some m →
    (s.compiledFor m.routeId).bind (·.keyPrefix) = some e → ∀ f ∈ e.fields,
      f.eval (s.ctxOf m full headers) = f.eval (s.ctxOf m full' headers') := by
  intro h
  let e : Expr := .concat [.header "a", .header "b"]
  let s : Site := ⟨true, ⟨fun _ => some (0, []), [], [⟨some e, none⟩]⟩, fun _ => true⟩
  have := h s "/" "/" [("a", some "1"), ("b", some "23")] [("a", some "12"), ("b", some "3")]
    (buildCacheKey "GET" "/" "123") ⟨0, false, []⟩ e (by decide +kernel) (by decide +kernel) rfl rfl
    (.header "a") (by simp [e, Expr.fields, Expr.fieldsAll])
  revert this
  decide +kernel

end

end Brust.Core
