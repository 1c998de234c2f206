import Brust.Plan.Jobs
import Brust.Plan.Response

/-!
# Plan — planning inside the loader call

`plan_response` plans a page's jobs from the worker's response while the worker waits, and leaves a
row for each plan; `ownPath` is what the page does itself once the plan is declined: merge, plan,
look up, and build the request.

**They agree** (`planned_agrees`): on a response that is a text, from a manifest that a `u32` can
index, both give the same page or neither gives one, but for a `notFound` verdict, which is never
planned inside the call.
-/

namespace Brust.Plan

variable {E : Type}

/-! ### Merging the loader's data -/

/-- `str::rsplit_once`. -/
def rsplitOnce (c : Char) (s : List Char) : Option (List Char × List Char) :=
  if c ∈ s then
    some ((s.reverse.dropWhile (· ≠ c)).tail.reverse, (s.reverse.takeWhile (· ≠ c)).reverse)
  else none

def stripPrefix (p s : List Char) : Option (List Char) :=
  if p.isPrefixOf s then some (s.drop p.length) else none

def digits (s : List Char) : Bool := s ≠ [] && s.all Char.isDigit

/-- `__<name>_<8 hex>_<digits>`. -/
def isInstanceDict (k : List Char) : Bool :=
  (stripPrefix "__".toList k).any fun rest => (rsplitOnce '_' rest).any fun (id, ordinal) =>
    (rsplitOnce '_' id).any fun (_, hash) =>
      digits ordinal && hash.length == 8 &&
        hash.all fun c => c.isDigit || ('a' ≤ c && c ≤ 'f')

def isServerSlot (key : String) : Bool :=
  let k := key.toList
  key ∈ ["__outlet", "__children", "__own", "_props", STORE_KEY] || "_ssr_".toList.isPrefixOf k ||
    (stripPrefix "_s".toList k).any digits || (stripPrefix "_id".toList k).any digits ||
    "_fj_".toList.isPrefixOf k || isInstanceDict k

def mergeLoaderData (ctx : MapInner) : Node → MapInner
  | .map entries _ =>
    entries.foldl (fun ctx e => if isServerSlot e.1 then ctx else SortedMap.insert e.1 e.2 ctx) ctx
  | _ => ctx

/-- The data, then the store's snapshot if it is a map with entries. -/
def mergeLoaderResponse (ctx : MapInner) (data : Node) (snapshot : Option Node) : MapInner :=
  let ctx := mergeLoaderData ctx data
  match snapshot with
  | some (.map (e :: entries) order) => SortedMap.insert STORE_KEY (.map (e :: entries) order) ctx
  | _ => ctx

/-! ### Inside the call -/

section Paths

variable (crates : Crates E) (idx : PlanIndex E) (cache : String → Option Node)

/-- What `plan_response` leaves for the page. -/
structure PlannedCall where
  ctx : Node
  headers : Headers
  rows : List PlanRow
  lookup : Lookup
  callIds : List String

/-- The text of the misses' request and the ids of its calls, nothing if every job hit. -/
def missesRequest (plans : List JobPlan) (misses : List ℕ) : String × List String :=
  if misses = [] then ("", [])
  else
    let req := jobsRequest plans misses
    (requestText crates req, req.map (·.id))

/-- The plan, and the request of its misses; none declines. -/
def planResponse (route : RouteRecord) (base : MapInner) (bytes : ByteArray) :
    Option (PlannedCall × String) :=
  match (crates.fromSlice bytes).bind LoaderResponse.ofJson with
  | some (.ok true data headers snapshot) =>
    let ctx := Node.map (mergeLoaderResponse base data snapshot) none
    match collectJobs crates idx route.chain ctx with
    | .error _ => none
    | .ok plans =>
      let lookup := lookupJobs cache plans
      let req := missesRequest crates plans lookup.misses
      some (⟨ctx, headers, plans.map JobPlan.toRow, lookup, req.2⟩, req.1)
  | _ => none

/-! ### On the page's own -/

/-- How a page ends before its jobs are planned. -/
inductive Ended where
  | error500
  | verdict (v : Verdict)

/-- What the page has once its jobs are looked up, and the request it sends. -/
structure OwnPath where
  status : ℕ
  ctx : Node
  headers : Headers
  plans : List JobPlan
  lookup : Lookup
  request : List JobCall

/-- The response as the worker call reads it: a text first, then its JSON. -/
def callResponse (bytes : ByteArray) : Option LoaderResponse :=
  ((String.fromUTF8? bytes).bind crates.fromStr).bind LoaderResponse.ofJson

/-- The jobs of a context: planned, looked up, and the misses asked for. -/
def planOwn (route : RouteRecord) (status : ℕ) (ctx : MapInner) (headers : Headers) :
    Except Ended OwnPath :=
  let ctx := Node.map ctx none
  match collectJobs crates idx route.chain ctx with
  | .error _ => throw .error500
  | .ok plans =>
    let lookup := lookupJobs cache plans
    pure
      { status, ctx, headers, plans, lookup
        request := if lookup.misses = [] then [] else jobsRequest plans lookup.misses }

/-- `page` from a loader response without a plan. -/
def ownPath (route : RouteRecord) (status : ℕ) (base : MapInner) (bytes : ByteArray) :
    Except Ended OwnPath :=
  match callResponse crates bytes with
  | some (.ok true data headers snapshot) =>
    planOwn crates idx cache route status (mergeLoaderResponse base data snapshot) headers
  | some (.verdict (.notFound data snapshot headers)) =>
    planOwn crates idx cache route 404 (mergeLoaderResponse base data snapshot) headers
  | some (.verdict v) => throw (.verdict v)
  | some (.ok false _ _ _) => throw .error500
  | some (.planned _) => throw .error500
  | some (.error _) => throw .error500
  | none => throw .error500

end Paths

/-! ### Agreement -/

/-- A planned call, with the request of its misses, is the page that the own path has. -/
structure Agrees (crates : Crates E) (idx : PlanIndex E) (pc : PlannedCall) (misses : String)
    (own : OwnPath) : Prop where
  ctx : pc.ctx = own.ctx
  headers : pc.headers = own.headers
  plans : rehydrate idx pc.rows = some (own.plans.map JobPlan.withoutInputs)
  lookup : pc.lookup = own.lookup
  callIds : pc.callIds = own.request.map (·.id)
  misses : misses = if own.lookup.misses = [] then "" else requestText crates own.request

/-- The response is a `notFound` verdict. -/
def IsNotFound (crates : Crates E) (bytes : ByteArray) : Prop :=
  ∃ data snapshot headers,
    callResponse crates bytes = some (.verdict (.notFound data snapshot headers))

section Agreement

variable {crates : Crates E} {idx : PlanIndex E} {cache : String → Option Node}
  {route : RouteRecord} {base : MapInner} {status : ℕ}

/-- The two readers of a text. -/
theorem callResponse_utf8 (text : String) :
    callResponse crates text.toUTF8 = (crates.fromSlice text.toUTF8).bind
      LoaderResponse.ofJson := by
  have h : String.fromUTF8? text.toUTF8 = some text := by
    simp only [String.fromUTF8?, String.toUTF8_eq_toByteArray]
    rw [dif_pos text.isValidUTF8]
    rfl
  rw [callResponse, h, crates.fromSlice_utf8]
  rfl

/-- What a plan left for the page, against the page's own plans. -/
theorem agrees_of_collectJobs (hidx : idx.Fits) {ctx : MapInner} {headers : Headers}
    {plans : List JobPlan} (h : collectJobs crates idx route.chain (.map ctx none) = .ok plans)
    {lookup : Lookup} (hlookup : lookupJobs cache plans = lookup) :
    ∃ own, planOwn crates idx cache route status ctx headers = .ok own ∧ own.status = status ∧
      Agrees crates idx
        ⟨.map ctx none, headers, plans.map JobPlan.toRow, lookup,
          (missesRequest crates plans lookup.misses).2⟩
        (missesRequest crates plans lookup.misses).1 own := by
  refine ⟨_, by rw [planOwn, h]; rfl, rfl, rfl, rfl, rehydrate_rows hidx h, hlookup.symm, ?_, ?_⟩
  · rw [hlookup, missesRequest]
    split <;> simp_all
  · rw [hlookup, missesRequest]
    split <;> simp_all

/-- **The two paths agree**: on a text, a plan made inside the call is the page's own, and there is
none exactly if the page ends without one or answers a `notFound` verdict. -/
theorem planned_agrees {m : Manifest} (hm : m.Fits) (hidx : PlanIndex.new crates m = .ok idx)
    (text : String) :
    (∀ pc misses, planResponse crates idx cache route base text.toUTF8 = some (pc, misses) →
      ∃ own, ownPath crates idx cache route status base text.toUTF8 = .ok own ∧
        own.status = status ∧ Agrees crates idx pc misses own) ∧
    (planResponse crates idx cache route base text.toUTF8 = none ↔
      (∃ e, ownPath crates idx cache route status base text.toUTF8 = .error e) ∨
        IsNotFound crates text.toUTF8) := by
  have hfits := hm.index hidx
  have hread : callResponse crates text.toUTF8 = _ := callResponse_utf8 text
  unfold planResponse ownPath IsNotFound
  rw [hread]
  cases h : (crates.fromSlice text.toUTF8).bind LoaderResponse.ofJson with
  | none => simp [throw, throwThe, MonadExceptOf.throw]
  | some r =>
      cases r with
      | planned results => simp [throw, throwThe, MonadExceptOf.throw]
      | error e => simp [throw, throwThe, MonadExceptOf.throw]
      | verdict v => cases v <;> simp [throw, throwThe, MonadExceptOf.throw]
      | ok ok data headers snapshot =>
          cases ok with
          | false => simp [throw, throwThe, MonadExceptOf.throw]
          | true =>
              cases hplans : collectJobs crates idx route.chain
                  (.map (mergeLoaderResponse base data snapshot) none) with
              | error e => simp [planOwn, hplans, throw, throwThe, MonadExceptOf.throw]
              | ok plans =>
                  constructor
                  · intro pc misses hpc
                    simp only [hplans] at hpc
                    cases hpc
                    exact agrees_of_collectJobs hfits hplans rfl
                  · simp [planOwn, hplans, pure, Except.pure]

end Agreement

/-! ### A site with one card -/

section Card

/-- `{"ok":true,"data":{"name":"ann"}}`. -/
def annText : String := "\x7b\"ok\":true,\"data\":\x7b\"name\":\"ann\"\x7d\x7d"

/-- `{"ok":true,"data":{}}`. -/
def emptyText : String := "\x7b\"ok\":true,\"data\":\x7b\x7d\x7d"

/-- `{"verdict":"notFound"}`. -/
def notFoundText : String := "\x7b\"verdict\":\"notFound\"\x7d"

/-- `{"ok":true,"data":0,"x":"?"}`, with a byte that no text has in the string of `x`. -/
def garbled : ByteArray :=
  ⟨#[0x7b, 0x22, 0x6f, 0x6b, 0x22, 0x3a, 0x74, 0x72, 0x75, 0x65, 0x2c, 0x22, 0x64, 0x61, 0x74,
    0x61, 0x22, 0x3a, 0x30, 0x2c, 0x22, 0x78, 0x22, 0x3a, 0x22, 0xff, 0x22, 0x7d]⟩

theorem garbled_ne_utf8 (s : String) : s.toUTF8 ≠ garbled := by
  intro h
  have hs : garbled.IsValidUTF8 := by
    rw [← h]
    exact s.isValidUTF8
  exact absurd hs (by decide +kernel)

/-- serde_json on the three texts. -/
def cardRead (s : String) : Option Json :=
  if s = annText then some (.obj [("ok", .bool true), ("data", .obj [("name", .str "ann")])])
  else if s = emptyText then some (.obj [("ok", .bool true), ("data", .obj [])])
  else if s = notFoundText then some (.obj [("verdict", .str "notFound")])
  else none

/-- serde_json on the texts, and on bytes where a string that it ignores is no text. -/
def cardCrates : Crates Unit where
  compile _ := .error "no expressions"
  eval _ _ := .error "no expressions"
  fromStr := cardRead
  fromSlice bytes :=
    if bytes.data = garbled.data then
      some (.obj [("ok", .bool true), ("data", .num (.posInt 0)), ("x", .unreadable)])
    else (String.fromUTF8? bytes).bind cardRead
  fromSlice_utf8 s := by
    have h : String.fromUTF8? s.toUTF8 = some s := by
      simp only [String.fromUTF8?, String.toUTF8_eq_toByteArray]
      rw [dif_pos s.isValidUTF8]
      rfl
    rw [if_neg fun he => garbled_ne_utf8 s (ByteArray.ext he), h]
    rfl
  ryu _ := ""
  blake3 _ := ""

def cardJob (id : String) : JobRecord :=
  { id, kind := .precompute, inputs := ["name"], perInstance := none, cache := ⟨none, [], none⟩
    outputs := [], target := none, props := none }

/-- One component with the given jobs. -/
def cardSite (jobs : List JobRecord) : Manifest := ⟨[("card", ⟨jobs, []⟩)]⟩

def cardTpl (id : String) : JobTpl Unit :=
  { id, kind := .precompute, inputs := .project ⟨[([.key "name"], ["name"])], none⟩
    hasProps := false, perInstance := none, cacheKey := none, ttl := none, tags := []
    outputs := [], target := none }

def cardIndex (ids : List String) : PlanIndex Unit :=
  { comps := [⟨"card", ids.map cardTpl, ids.map fun id => "card" ++ "/" ++ id, []⟩]
    byId := [("card", 0)] }

def cardRoute : RouteRecord := ⟨"home", ["card"]⟩

theorem cardSite_index (ids : List String) :
    PlanIndex.new cardCrates (cardSite (ids.map cardJob)) = .ok (cardIndex ids) := by
  have hjobs : (ids.map cardJob).mapM (fun j => (jobTpl cardCrates j).mapError
    (jobError "card" j.id))
      = .ok ((ids.map cardJob).map fun j => cardTpl j.id) := by
    refine mapM_eq_ok_map fun j hj => ?_
    obtain ⟨id, -, rfl⟩ := List.mem_map.mp hj
    rfl
  have hcomp : compTpl cardCrates (cardSite (ids.map cardJob)) ("card", ⟨ids.map cardJob, []⟩)
      = .ok ⟨"card", ids.map cardTpl, ids.map fun id => "card" ++ "/" ++ id, []⟩ := by
    rw [compTpl, hjobs]
    simp only [List.map_map]
    rfl
  rw [PlanIndex.new, cardSite, List.mapM_cons]
  simp only [cardSite] at hcomp
  rw [hcomp]
  rfl

/-- The `i`-th job of the card, in a context without a name. -/
def cardPlan (j : (JobTpl Unit × String) × ℕ) : JobPlan :=
  { key := "", callPrefix := j.1.2, callRow := none, componentId := "card", jobId := j.1.1.id
    kind := .precompute, inputs := .map [] none, ttl := none, tags := [], userKey := none
    dest := .chain "card" none, outputs := [], target := none, src := ⟨0, UInt32.ofNat j.2, none⟩ }

/-- The card's jobs, numbered. -/
def cardJobs (ids : List String) : List ((JobTpl Unit × String) × ℕ) :=
  ((ids.map cardTpl).zip (ids.map fun id => "card" ++ "/" ++ id)).zipIdx

theorem card_collect (ids : List String) :
    collectJobs cardCrates (cardIndex ids) ["card"] (.map [] none) =
      .ok ((cardJobs ids).map cardPlan) := by
  have hown : ownPlans cardCrates
      ⟨"card", ids.map cardTpl, ids.map fun id => "card" ++ "/" ++ id, []⟩ 0 (.map [] none) none =
      .ok ((cardJobs ids).map cardPlan) := by
    have hjobs := mapM_eq_ok_map (ε := PlanError) (l := cardJobs ids) (g := fun j => [cardPlan j])
      (f := fun j => (ownRows j.1.1 (.map [] none)).mapM fun row =>
        planOne cardCrates "card" j.1.2 j.1.1 (.map [] none) (.chain "card" row) row
          ⟨UInt32.ofNat 0, UInt32.ofNat j.2, none⟩ none) (by
        intro j hj
        obtain ⟨hjob, -⟩ := getElem?_of_mem_zip_zipIdx hj
        rw [List.getElem?_map] at hjob
        obtain ⟨id, -, hid⟩ := Option.map_eq_some_iff.mp hjob
        obtain ⟨⟨tpl, callPrefix⟩, i⟩ := j
        cases hid
        rfl)
    have hflat : ((cardJobs ids).map fun j => [cardPlan j]).flatten =
      (cardJobs ids).map cardPlan := by
      rw [← List.flatMap_def]
      exact List.map_eq_flatMap.symm
    rw [ownPlans]
    exact (congrArg (· >>= fun plans => pure plans.flatten) hjobs).trans (congrArg Except.ok hflat)
  have hcomp : compPlans cardCrates (cardIndex ids) (.map [] none) none "card" =
      .ok ((cardJobs ids).map cardPlan) := by
    have hlookup : (cardIndex ids).byId.lookup "card" = some 0 := by simp [cardIndex]
    rw [compPlans, hlookup]
    simp only [cardIndex, List.getElem?_cons_zero] at hown ⊢
    rw [hown]
    simp [pure, Except.pure, bind, Except.bind]
  have hstore : (Node.map [] none).get STORE_KEY = none := by decide
  rw [collectJobs, hstore, List.mapM_cons, hcomp]
  simp [pure, Except.pure, bind, Except.bind]

/-- With `n` equal to 0 as a `u32`, the `n`-th job of a card comes back as its first. -/
theorem card_wraps {n : ℕ} (hn : UInt32.ofNat n = 0) (hpos : 0 < n) :
    rehydrate (cardIndex (List.replicate n "a" ++ ["b"]))
        (((cardJobs (List.replicate n "a" ++ ["b"])).map cardPlan).map JobPlan.toRow) ≠
      some (((cardJobs (List.replicate n "a" ++ ["b"])).map cardPlan).map
        JobPlan.withoutInputs) := by
  intro h
  have hmem : ((cardTpl "b", "card" ++ "/" ++ "b"), n) ∈
      cardJobs (List.replicate n "a" ++ ["b"]) := by
    refine List.mem_zipIdx_iff_getElem?.mpr ?_
    simp
  have hback := eq_some_of_mapM_map h _ (List.mem_map_of_mem hmem)
  simp [rehydrateRow, JobPlan.toRow, cardPlan, hn, cardIndex] at hback
  have hid := congrArg JobPlan.jobId hback
  simp [JobPlan.withoutInputs, List.getElem_append_left, hpos, cardTpl] at hid

/-- Nothing cached. -/
def cold : String → Option Node := fun _ => none

theorem read_emptyText :
    (cardCrates.fromSlice emptyText.toUTF8).bind LoaderResponse.ofJson =
      some (.ok true (.map [] none) [] none) := by
  rw [cardCrates.fromSlice_utf8]
  rfl

/-- What the call leaves of the given plans, in a context without a name. -/
def cardCall (plans : List JobPlan) : PlannedCall :=
  { ctx := .map [] none, headers := [], rows := plans.map JobPlan.toRow
    lookup := lookupJobs cold plans
    callIds := (missesRequest cardCrates plans (lookupJobs cold plans).misses).2 }

/-- The page's own, of the given plans. -/
def cardOwn (plans : List JobPlan) : OwnPath :=
  { status := 200, ctx := .map [] none, headers := [], plans, lookup := lookupJobs cold plans
    request := if (lookupJobs cold plans).misses = [] then []
      else jobsRequest plans (lookupJobs cold plans).misses }

/-- The card with one job more than a `u32` can number, on either path. -/
theorem card_parts {n : ℕ} (hn : UInt32.ofNat n = 0) (hpos : 0 < n) :
    ∃ m idx pc misses own, PlanIndex.new cardCrates m = .ok idx ∧
      planResponse cardCrates idx cold cardRoute [] emptyText.toUTF8 = some (pc, misses) ∧
      ownPath cardCrates idx cold cardRoute 200 [] emptyText.toUTF8 = .ok own ∧
      rehydrate idx pc.rows ≠ some (own.plans.map JobPlan.withoutInputs) := by
  have hplans := card_collect (List.replicate n "a" ++ ["b"])
  have hown : callResponse cardCrates emptyText.toUTF8 = some (.ok true (.map [] none)
    [] none) := by
    rw [callResponse_utf8, read_emptyText]
  let plans := (cardJobs (List.replicate n "a" ++ ["b"])).map cardPlan
  refine ⟨_, _, cardCall plans, (missesRequest cardCrates plans (lookupJobs cold plans).misses).1,
    cardOwn plans, cardSite_index (List.replicate n "a" ++ ["b"]), ?_, ?_, card_wraps hn hpos⟩
  · rw [planResponse, read_emptyText]
    simp only [mergeLoaderResponse, mergeLoaderData, List.foldl_nil, cardRoute, hplans]
    rfl
  · rw [ownPath, hown]
    simp only [planOwn, mergeLoaderResponse, mergeLoaderData, List.foldl_nil, cardRoute, hplans]
    rfl

/-- **Where the two paths part.**  A `notFound` verdict is declined, and the page plans its jobs
itself; bytes that are no text are planned, and the page cannot read them; and the plans of a
component with more jobs than a `u32` can number are not what they were. -/
theorem planned_parts :
    (planResponse cardCrates (cardIndex ["a"]) cold cardRoute [] notFoundText.toUTF8 = none ∧
      ∃ own, ownPath cardCrates (cardIndex ["a"]) cold cardRoute 200 [] notFoundText.toUTF8 =
        .ok own) ∧
    ((∃ p, planResponse cardCrates (cardIndex ["a"]) cold cardRoute [] garbled = some p) ∧
      ∃ e, ownPath cardCrates (cardIndex ["a"]) cold cardRoute 200 [] garbled = .error e) ∧
    ∃ m idx pc misses own, PlanIndex.new cardCrates m = .ok idx ∧
      planResponse cardCrates idx cold cardRoute [] emptyText.toUTF8 = some (pc, misses) ∧
      ownPath cardCrates idx cold cardRoute 200 [] emptyText.toUTF8 = .ok own ∧
      rehydrate idx pc.rows ≠ some (own.plans.map JobPlan.withoutInputs) := by
  have hnot : callResponse cardCrates notFoundText.toUTF8 =
      some (.verdict (.notFound .null none [])) := by
    rw [callResponse_utf8, cardCrates.fromSlice_utf8]
    rfl
  have hgarbled : callResponse cardCrates garbled = none := by
    have h : String.fromUTF8? garbled = none := by
      rw [String.fromUTF8?]
      exact dif_neg (by decide +kernel)
    rw [callResponse, h]
    rfl
  refine ⟨⟨?_, ?_⟩, ⟨?_, ?_⟩, ?_⟩
  · rw [callResponse_utf8] at hnot
    rw [planResponse, hnot]
  · rw [ownPath, hnot]
    exact ⟨_, rfl⟩
  · have h : cardCrates.fromSlice garbled =
        some (.obj [("ok", .bool true), ("data", .num (.posInt 0)), ("x", .unreadable)]) := by
      simp only [cardCrates, if_true]
    rw [planResponse, h]
    exact ⟨_, rfl⟩
  · rw [ownPath, hgarbled]
    exact ⟨_, rfl⟩
  · exact card_parts (n := 2 ^ 32) (by decide) (by decide)

theorem planned_agrees_card :
    ∃ pc misses own,
      planResponse cardCrates (cardIndex ["a"]) cold cardRoute [] annText.toUTF8 =
        some (pc, misses) ∧ pc.lookup.misses = [0] ∧
      ownPath cardCrates (cardIndex ["a"]) cold cardRoute 200 [] annText.toUTF8 = .ok own ∧
      Agrees cardCrates (cardIndex ["a"]) pc misses own := by
  have hfits : (cardSite (["a"].map cardJob)).Fits :=
    ⟨by decide, by intro c hc; rw [List.mem_singleton.mp hc]; decide,
      by intro c hc; rw [List.mem_singleton.mp hc]; decide⟩
  have hread : (cardCrates.fromSlice annText.toUTF8).bind LoaderResponse.ofJson =
      some (.ok true (.map [("name", .str "ann")] none) [] none) := by
    rw [cardCrates.fromSlice_utf8]
    rfl
  obtain ⟨pc, misses, hpc, hmisses⟩ : ∃ pc misses,
      planResponse cardCrates (cardIndex ["a"]) cold cardRoute [] annText.toUTF8 =
        some (pc, misses) ∧ pc.lookup.misses = [0] := by
    rw [planResponse, hread]
    exact ⟨_, _, rfl, rfl⟩
  obtain ⟨own, hown, -, hagrees⟩ : ∃ own, ownPath cardCrates (cardIndex ["a"]) cold cardRoute 200 []
      annText.toUTF8 = .ok own ∧ own.status = 200 ∧
        Agrees cardCrates (cardIndex ["a"]) pc misses own :=
    (planned_agrees hfits (cardSite_index ["a"]) annText).1 pc misses hpc
  exact ⟨pc, misses, own, hpc, hmisses, hown, hagrees⟩

end Card

end Brust.Plan
