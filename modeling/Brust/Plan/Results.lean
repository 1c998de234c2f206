import Brust.Core.Invalidate
import Brust.Plan.Jobs
import Brust.Plan.Response
import Brust.Support.Map

/-!
# Plan — the results of a jobs call

`apply_job_results`: the worker's results are put in request order, checked, stored and given to the
plans that wait for them.  A result that cannot be used fails the request before anything is
stored; else every plan has the value that the store answered or its key's first miss was replied
(`apply_job_results_spec`).  The store is asked once for each plan, so two plans of one key share a
value if it answered them alike (`equal_keys_differ`).
-/

namespace Brust.Plan

open Brust.Core (JobInsert)

/-- Why the results cannot be used; no position for an id the request never sent. -/
inductive JobResultError where
  | threw (id : String) (k : Option ℕ) (error : String)
  | noValue (id : String) (k : Option ℕ)
  | missing (k : ℕ)

/-- Where each id stands in the request. -/
def positions (ids : List String) : Map String ℕ :=
  ids.zipIdx.foldl (fun pos e => pos.insert e.1 e.2) ∅

/-- One pass over the results: a repeated id keeps its last value. -/
def placeResults (pos : Map String ℕ) :
    List JobResult → List (Option Node) → Except JobResultError (List (Option Node))
  | [], out => .ok out
  | res :: results, out =>
    match res.error, res.value with
    | some error, _ => .error (.threw res.id (pos.lookup res.id) error)
    | none, none => .error (.noValue res.id (pos.lookup res.id))
    | none, some v =>
      match pos.lookup res.id with
      | some k => placeResults pos results (out.set k (some v))
      | none => placeResults pos results out

def answered (e : Option Node × ℕ) : Except JobResultError Node :=
  match e.1 with
  | some v => .ok v
  | none => .error (.missing e.2)

def resultsInRequestOrder (ids : List String) (results : List JobResult) :
    Except JobResultError (List Node) := do
  let out ← placeResults (positions ids) results (List.replicate ids.length none)
  out.zipIdx.mapM answered

/-- A precompute result is an object, an ssr result a string; a plan of an older manifest is not
checked. -/
def checkValue (p : JobPlan) (v : Node) : Except String Unit :=
  if p.outputs = [] then .ok ()
  else
    match p.kind, v with
    | .precompute, .map _ _ => .ok ()
    | .precompute, _ => .error "precompute result is not an object"
    | .ssr, .str _ => .ok ()
    | .ssr, _ => .error "ssr result is not a string"

inductive JobsFailure where
  | result (e : JobResultError)
  | unfit (plan : ℕ) (error : String)
  /-- A position that is no plan's. -/
  | panics

/-- Each value with the plan that owns it. -/
def checkAll (plans : List JobPlan) :
    List (Node × ℕ) → Except JobsFailure (List (JobPlan × ℕ × Node))
  | [] => .ok []
  | (v, i) :: rest =>
    match plans[i]? with
    | none => .error .panics
    | some p =>
      match checkValue p v with
      | .error e => .error (.unfit i e)
      | .ok _ => (checkAll plans rest).map ((p, i, v) :: ·)

/-- `JobStore::insert`. -/
structure JobStore (S : Type) where
  insert : JobInsert Node → S → S × Bool

def jobInsert (p : JobPlan) (v : Node) (since : ℕ) : JobInsert Node :=
  ⟨p.key, v, p.ttl, p.tags, p.userKey, since⟩

structure Applied (S : Type) where
  store : S
  rejected : Bool
  values : List (Option Node)

def insertAll {S : Type} (store : JobStore S) (since : ℕ) :
    List (JobPlan × ℕ × Node) → Applied S → Applied S
  | [], a => a
  | (p, i, v) :: rest, a =>
    let (s, stored) := store.insert (jobInsert p v since) a.store
    insertAll store since rest ⟨s, a.rejected || !stored, a.values.set i (some v)⟩

/-- A plan without a value takes its owner's. -/
def fanOut (owner : List ℕ) (values : List (Option Node)) : List (Option Node) :=
  (List.range values.length).foldl (fun values i =>
    match values[i]?.join with
    | some _ => values
    | none => values.set i (owner[i]?.bind fun o => values[o]?.join)) values

/-- Whether an insert was rejected, and the values of the plans. -/
def applyJobResults {S : Type} (store : JobStore S) (plans : List JobPlan) (lookup : Lookup)
    (ids : List String) (results : List JobResult) (since : ℕ) (s : S) :
    S × Except JobsFailure (Bool × List (Option Node)) :=
  match resultsInRequestOrder ids results with
  | .error e => (s, .error (.result e))
  | .ok fresh =>
    match checkAll plans (fresh.zip lookup.misses) with
    | .error e => (s, .error e)
    | .ok owned =>
      let a := insertAll store since owned ⟨s, false, lookup.values⟩
      (a.store, .ok (a.rejected, fanOut lookup.owner a.values))

/-- A plan, and what the store answered when it was asked for it. -/
abbrev Asked := JobPlan × Option Node

/-- `lookup_jobs`, at the store's answers. -/
def lookupAnswered (asked : List Asked) : Lookup :=
  let (owner, misses) := owners 0 [] (asked.map fun a => (a.1.key, a.2))
  ⟨asked.map (·.2), owner, misses⟩

/-! ### The reference -/

/-- The last value replied for an id. -/
def replied (results : List JobResult) (id : String) : Option Node :=
  (results.reverse.find? fun r => r.id == id).bind (·.value)

/-- The first plan of a key that missed. -/
def owning (asked : List Asked) (key : String) : Option JobPlan :=
  (asked.find? fun a => a.1.key == key && a.2.isNone).map (·.1)

/-- The value of a plan: the store's, or what was replied to the plan that asked for its key. -/
def reference (asked : List Asked) (results : List JobResult) (a : Asked) : Option Node :=
  a.2.or ((owning asked a.1.key).bind fun p => replied results p.callId)

/-! ### Results in request order -/

theorem lookup_foldl_insert {l : List (String × ℕ)} {pos : Map String ℕ} {id : String} {k : ℕ}
    (h : (l.foldl (fun pos e => pos.insert e.1 e.2) pos).lookup id = some k) :
    (id, k) ∈ l ∨ pos.lookup id = some k := by
  induction l generalizing pos with
  | nil => exact .inr h
  | cons e l ih =>
      rcases ih h with hmem | hpos
      · exact .inl (List.mem_cons_of_mem _ hmem)
      · rw [Map.lookup_insert_if] at hpos
        split at hpos
        · next he =>
          cases hpos
          exact .inl (he ▸ List.mem_cons_self)
        · exact .inr hpos

theorem getElem?_of_positions {ids : List String} {id : String} {k : ℕ}
    (h : (positions ids).lookup id = some k) : ids[k]? = some id := by
  rcases lookup_foldl_insert h with hmem | hpos
  · exact List.mem_zipIdx_iff_getElem?.mp hmem
  · cases hpos

/-- The last value for a position. -/
def placed (pos : Map String ℕ) (results : List JobResult) (k : ℕ) : Option Node :=
  (results.reverse.find? fun r => pos.lookup r.id == some k).bind (·.value)

theorem placed_cons {pos : Map String ℕ} {res : JobResult} {results : List JobResult} {v : Node}
    (hv : res.value = some v) (hall : ∀ r ∈ results, r.value.isSome = true) (k : ℕ) :
    placed pos (res :: results) k =
      (placed pos results k).or (if pos.lookup res.id = some k then some v else none) := by
  rw [placed, placed, List.reverse_cons, List.find?_append]
  cases hf : results.reverse.find? fun r => pos.lookup r.id == some k with
  | some r =>
      obtain ⟨w, hw⟩ := Option.isSome_iff_exists.mp
        (hall r (List.mem_reverse.mp (List.mem_of_find?_eq_some hf)))
      rw [Option.some_or, Option.bind_some, hw]
      rfl
  | none =>
      rw [Option.none_or, Option.bind_none, Option.none_or, List.find?_cons]
      by_cases hk : pos.lookup res.id = some k
      · rw [if_pos hk, hk, beq_self_eq_true]
        exact hv
      · rw [if_neg hk, beq_eq_false_iff_ne.mpr hk]
        rfl

theorem placeResults_spec {pos : Map String ℕ} {results : List JobResult}
    {out out' : List (Option Node)} (h : placeResults pos results out = .ok out') :
    (∀ r ∈ results, r.value.isSome = true) ∧ out'.length = out.length ∧
      ∀ k < out.length, out'[k]? = some ((placed pos results k).or (out[k]?.join)) := by
  induction results generalizing out with
  | nil =>
      cases h
      refine ⟨fun _ hr => (by cases hr), rfl, fun k hk => ?_⟩
      rw [List.getElem?_eq_getElem hk]
      rfl
  | cons res results ih =>
      rw [placeResults] at h
      cases he : res.error with
      | some error => simp only [he, reduceCtorEq] at h
      | none =>
          cases hv : res.value with
          | none => simp only [he, hv, reduceCtorEq] at h
          | some v =>
              simp only [he, hv] at h
              have hstep : ∃ out₁, placeResults pos results out₁ = .ok out' ∧
                  out₁.length = out.length ∧ ∀ k < out.length, out₁[k]?.join =
                    (if pos.lookup res.id = some k then some v else none).or out[k]?.join := by
                cases hp : pos.lookup res.id with
                | none =>
                    rw [hp] at h
                    exact ⟨out, h, rfl, fun k _ => by simp⟩
                | some j =>
                    rw [hp] at h
                    refine ⟨_, h, List.length_set, fun k hk => ?_⟩
                    rw [List.getElem?_set]
                    by_cases hj : j = k
                    · subst hj
                      simp [hk]
                    · simp [hj]
              obtain ⟨out₁, h, hlen, hout₁⟩ := hstep
              obtain ⟨hall, hlen', hout'⟩ := ih h
              refine ⟨fun r hr => ?_, hlen'.trans hlen, fun k hk => ?_⟩
              · rcases List.mem_cons.mp hr with rfl | hr
                · rw [hv]; rfl
                · exact hall r hr
              · rw [hout' k (hlen ▸ hk), hout₁ k hk, placed_cons hv hall, Option.or_assoc]

/-- **In request order.**  Each value is the last one replied for its id. -/
theorem results_spec {ids : List String} {results : List JobResult} {fresh : List Node}
    (h : resultsInRequestOrder ids results = .ok fresh) :
    ids.map (replied results) = fresh.map some := by
  obtain ⟨out, hout, h⟩ := bind_eq_ok.mp h
  obtain ⟨hall, hlen, hplaced⟩ := placeResults_spec hout
  rw [List.length_replicate] at hlen hplaced
  have hfresh := forall₂_of_mapM_ok h
  have hflen : fresh.length = ids.length := by
    rw [← hfresh.length_eq, List.length_zipIdx, hlen]
  refine List.ext_getElem? fun k => ?_
  rw [List.getElem?_map, List.getElem?_map]
  by_cases hk : k < ids.length
  · have hkf : k < fresh.length := hflen ▸ hk
    rw [List.getElem?_eq_getElem hk, List.getElem?_eq_getElem hkf, Option.map_some,
      Option.map_some]
    -- the value at this position was placed there, by a result of its id
    have hv : placed (positions ids) results k = some fresh[k] := by
      have hat := (List.forall₂_iff_get.mp hfresh).2 k (by rw [List.length_zipIdx, hlen]; exact hk)
        hkf
      have hoptk := hplaced k hk
      rw [List.getElem?_replicate_of_lt hk, Option.join_some, Option.or_none,
        List.getElem?_eq_getElem (hlen ▸ hk)] at hoptk
      rw [← Option.some.inj hoptk]
      simp only [List.get_eq_getElem, List.getElem_zipIdx, answered] at hat
      split at hat
      · next v hv =>
        rw [hv, ← Except.ok.inj hat]
      · cases hat
    rw [← hv]
    have hpos : (positions ids).lookup ids[k] = some k := by
      rw [placed, Option.bind_eq_some_iff] at hv
      obtain ⟨r, hr, -⟩ := hv
      have hr : (positions ids).lookup r.id = some k :=
        beq_iff_eq.mp (List.find?_some (p := fun r : JobResult => (positions ids).lookup r.id ==
          some k) hr)
      have hid := getElem?_of_positions hr
      rw [List.getElem?_eq_getElem hk] at hid
      rw [Option.some.inj hid]
      exact hr
    rw [replied, placed]
    have hsame : (fun r : JobResult => r.id == ids[k]) =
        fun r => (positions ids).lookup r.id == some k := by
      funext r
      by_cases hr : r.id = ids[k]
      · rw [hr, hpos, beq_self_eq_true, beq_self_eq_true]
      · rw [beq_eq_false_iff_ne.mpr hr, eq_comm, beq_eq_false_iff_ne]
        intro hlookup
        have hid := getElem?_of_positions hlookup
        rw [List.getElem?_eq_getElem hk] at hid
        exact hr (Option.some.inj hid).symm
    rw [hsame]
  · rw [List.getElem?_eq_none (not_lt.mp hk), List.getElem?_eq_none (hflen ▸ not_lt.mp hk)]
    rfl

/-! ### Owners -/

/-- Whether the store missed this key here. -/
def missed (key : String) (e : String × Option Node) : Bool := e.1 == key && e.2.isNone

/-- The first miss of a key. -/
def firstMiss (key : String) (l : List (String × Option Node)) : ℕ := l.findIdx (missed key)

theorem firstMiss_cons (key : String) (e : String × Option Node) (l : List (String × Option Node)) :
    firstMiss key (e :: l) = if missed key e = true then 0 else firstMiss key l + 1 := by
  rw [firstMiss, List.findIdx_cons]
  cases missed key e <;> rfl

/-- Every plan that missed has the first miss of its key for its owner. -/
theorem owners_owner {l : List (String × Option Node)} {n : ℕ} {first : List (String × ℕ)} {j : ℕ}
    {key : String} (h : l[j]? = some (key, none)) :
    (owners n first l).1[j]? = some ((first.lookup key).getD (n + firstMiss key l)) := by
  induction l generalizing n first j with
  | nil => cases h
  | cons e l ih =>
      obtain ⟨key', v⟩ := e
      rw [firstMiss_cons]
      cases v with
      | some v =>
          rcases j with _ | j
          · cases h
          · rw [owners, List.getElem?_cons_succ, ih h, if_neg (by simp [missed])]
            congr 2
            omega
      | none =>
          rw [owners]
          cases hf : first.lookup key' with
          | some o =>
              rcases j with _ | j
              · cases h
                rw [hf]
                rfl
              · rw [List.getElem?_cons_succ, ih h]
                by_cases hk : key = key'
                · rw [hk, hf]
                  rfl
                · rw [if_neg (by simp [missed, Ne.symm hk])]
                  congr 2
                  omega
          | none =>
              rcases j with _ | j
              · cases h
                simp [hf, missed]
              · rw [List.getElem?_cons_succ, ih h, SortedMap.lookup_cons_if]
                by_cases hk : key = key'
                · subst hk
                  rw [if_pos rfl, hf, if_pos (by simp [missed])]
                  rfl
                · rw [if_neg hk, if_neg (by simp [missed, Ne.symm hk])]
                  congr 2
                  omega

theorem owners_misses {l : List (String × Option Node)} {n : ℕ}
    {first : List (String × ℕ)} {m : ℕ} :
    m ∈ (owners n first l).2 ↔ ∃ j key, m = n + j ∧ l[j]? = some (key, none) ∧
      first.lookup key = none ∧ firstMiss key l = j := by
  induction l generalizing n first with
  | nil => simp [owners]
  | cons e l ih =>
      obtain ⟨key', v⟩ := e
      -- an entry that is no miss of the key leaves the place of the first one
      have hshift : ∀ {key j}, missed key (key', v) = false →
          (firstMiss key ((key', v) :: l) = j + 1 ↔ firstMiss key l = j) := fun {key j} hm => by
        rw [firstMiss_cons, hm, if_neg Bool.false_ne_true, Nat.add_right_cancel_iff]
      cases v with
      | some v =>
          rw [owners, ih]
          constructor
          · rintro ⟨j, key, rfl, hj, hfirst, hmiss⟩
            exact ⟨j + 1, key, by omega, hj, hfirst, (hshift (by simp [missed])).mpr hmiss⟩
          · rintro ⟨j, key, rfl, hj, hfirst, hmiss⟩
            rcases j with _ | j
            · cases hj
            · exact ⟨j, key, by omega, hj, hfirst, (hshift (by simp [missed])).mp hmiss⟩
      | none =>
          rw [owners]
          cases hf : first.lookup key' with
          | some o =>
              rw [ih]
              constructor
              · rintro ⟨j, key, rfl, hj, hfirst, hmiss⟩
                have hne : key ≠ key' := by
                  rintro rfl
                  rw [hf] at hfirst
                  cases hfirst
                exact ⟨j + 1, key, by omega, hj, hfirst,
                  (hshift (by simp [missed, hne.symm])).mpr hmiss⟩
              · rintro ⟨j, key, rfl, hj, hfirst, hmiss⟩
                have hne : key ≠ key' := by
                  rintro rfl
                  rw [hf] at hfirst
                  cases hfirst
                rcases j with _ | j
                · cases hj
                  exact absurd rfl hne
                · exact ⟨j, key, by omega, hj, hfirst,
                    (hshift (by simp [missed, hne.symm])).mp hmiss⟩
          | none =>
              rw [List.mem_cons, ih]
              constructor
              · rintro (rfl | ⟨j, key, rfl, hj, hfirst, hmiss⟩)
                · exact ⟨0, key', rfl, rfl, hf, by simp [firstMiss_cons, missed]⟩
                · rw [SortedMap.lookup_cons_if] at hfirst
                  split at hfirst
                  · cases hfirst
                  · next hne =>
                    exact ⟨j + 1, key, by omega, hj, hfirst,
                      (hshift (by simp [missed, Ne.symm hne])).mpr hmiss⟩
              · rintro ⟨j, key, rfl, hj, hfirst, hmiss⟩
                rcases j with _ | j
                · exact .inl rfl
                · have hne : key ≠ key' := by
                    rintro rfl
                    rw [firstMiss_cons, if_pos (by simp [missed])] at hmiss
                    cases hmiss
                  refine .inr ⟨j, key, by omega, hj, ?_,
                    (hshift (by simp [missed, hne.symm])).mp hmiss⟩
                  rw [SortedMap.lookup_cons_if, if_neg hne]
                  exact hfirst

theorem owners_ascend (n : ℕ) (first : List (String × ℕ)) (l : List (String × Option Node)) :
    (owners n first l).2.Pairwise (· < ·) := by
  induction l generalizing n first with
  | nil => exact List.Pairwise.nil
  | cons e l ih =>
      obtain ⟨key, v⟩ := e
      cases v with
      | some v => exact ih (n + 1) first
      | none =>
          rw [owners]
          cases first.lookup key with
          | some o => exact ih (n + 1) first
          | none =>
              refine List.pairwise_cons.mpr ⟨fun m hm => ?_, ih (n + 1) _⟩
              obtain ⟨j, -, rfl, -⟩ := owners_misses.mp hm
              omega

/-! ### Checking and storing -/

theorem checkAll_spec {plans : List JobPlan} {l : List (Node × ℕ)}
    {owned : List (JobPlan × ℕ × Node)} (h : checkAll plans l = .ok owned) :
    owned.map (fun o => (o.2.2, o.2.1)) = l ∧ ∀ o ∈ owned, plans[o.2.1]? = some o.1 := by
  induction l generalizing owned with
  | nil =>
      cases h
      exact ⟨rfl, fun _ ho => by cases ho⟩
  | cons e l ih =>
      obtain ⟨v, i⟩ := e
      rw [checkAll] at h
      cases hp : plans[i]? with
      | none =>
          rw [hp] at h
          cases h
      | some p =>
          rw [hp] at h
          dsimp only at h
          cases hv : checkValue p v with
          | error e =>
              rw [hv] at h
              cases h
          | ok u =>
              rw [hv] at h
              dsimp only at h
              cases hrest : checkAll plans l with
              | error e =>
                  rw [hrest] at h
                  cases h
              | ok rest =>
                  rw [hrest] at h
                  cases h
                  obtain ⟨hl, hmem⟩ := ih hrest
                  refine ⟨by rw [List.map_cons, hl], fun o ho => ?_⟩
                  rcases List.mem_cons.mp ho with rfl | ho
                  · exact hp
                  · exact hmem o ho

section

variable {S : Type} {store : JobStore S} {since : ℕ}

/-- The inserts of the owners' values, in order. -/
def inserts (since : ℕ) (owned : List (JobPlan × ℕ × Node)) : List (JobInsert Node) :=
  owned.map fun o => jobInsert o.1 o.2.2 since

theorem insertAll_store (owned : List (JobPlan × ℕ × Node)) (a : Applied S) :
    (insertAll store since owned a).store =
      (inserts since owned).foldl (fun s i => (store.insert i s).1) a.store := by
  induction owned generalizing a with
  | nil => rfl
  | cons o owned ih => exact ih _

variable (store since) in
theorem insertAll_values {owned : List (JobPlan × ℕ × Node)} (hnodup : (owned.map (·.2.1)).Nodup)
    (a : Applied S) :
    (insertAll store since owned a).values.length = a.values.length ∧
      (∀ o ∈ owned, o.2.1 < a.values.length →
        (insertAll store since owned a).values[o.2.1]? = some (some o.2.2)) ∧
      ∀ i, i ∉ owned.map (·.2.1) → (insertAll store since owned a).values[i]? = a.values[i]? := by
  induction owned generalizing a with
  | nil => exact ⟨rfl, fun _ ho => (by cases ho), fun _ _ => rfl⟩
  | cons o owned ih =>
      obtain ⟨p, j, v⟩ := o
      rw [List.map_cons, List.nodup_cons] at hnodup
      obtain ⟨hlen, hown, hrest⟩ := ih hnodup.2
        ⟨(store.insert (jobInsert p v since) a.store).1,
          a.rejected || !(store.insert (jobInsert p v since) a.store).2, a.values.set j (some v)⟩
      refine ⟨hlen.trans List.length_set, fun o ho hlt => ?_, fun i hi => ?_⟩
      · rcases List.mem_cons.mp ho with rfl | ho
        · refine (hrest j hnodup.1).trans ?_
          rw [List.getElem?_set_self hlt]
        · exact hown o ho (by rw [List.length_set]; exact hlt)
      · rw [List.map_cons, List.mem_cons, not_or] at hi
        refine (hrest i hi.2).trans ?_
        rw [List.getElem?_set_ne (Ne.symm hi.1)]

end

/-! ### Fanning out -/

/-- A plan without a value is one whose owner has it. -/
theorem fanOut_eq {owner : List ℕ} {values values' : List (Option Node)}
    (hlen : values'.length = values.length)
    (hsome : ∀ (i : ℕ) v, values[i]? = some (some v) → values'[i]? = some (some v))
    (hnone : ∀ i : ℕ, values[i]? = some none → ∃ (o : ℕ) (v : Node), owner[i]? = some o ∧
      values[o]? = some (some v) ∧ values'[i]? = some (some v)) :
        fanOut owner values = values' := by
  -- up to `n` the plans have their values, behind it what they had
  have hprefix : ∀ n ≤ values.length, ∀ i : ℕ, ((List.range n).foldl (fun values i =>
      match values[i]?.join with
      | some _ => values
      | none => values.set i (owner[i]?.bind fun o => values[o]?.join)) values)[i]? =
        if i < n then values'[i]? else values[i]? := by
    intro n
    induction n with
    | zero => exact fun _ i => rfl
    | succ n ih =>
        intro hn i
        rw [List.range_succ, List.foldl_append, List.foldl_cons, List.foldl_nil]
        have ih := ih (Nat.le_of_succ_le hn)
        generalize (List.range n).foldl _ values = vs at ih ⊢
        have hvs : vs.length = values.length := by
          refine le_antisymm (not_lt.mp fun hlt => ?_) (not_lt.mp fun hlt => ?_)
          · have := ih values.length
            rw [if_neg (by omega), List.getElem?_eq_getElem hlt,
              List.getElem?_eq_none le_rfl] at this
            cases this
          · have := ih vs.length
            rw [List.getElem?_eq_none le_rfl] at this
            split at this
            · rw [List.getElem?_eq_getElem (hlen ▸ hlt)] at this
              cases this
            · rw [List.getElem?_eq_getElem hlt] at this
              cases this
        have hat := ih n
        rw [if_neg (lt_irrefl n)] at hat
        cases hv : values[n]? with
        | none => exact absurd (List.getElem?_eq_none_iff.mp hv) (by omega)
        | some x =>
            rw [hat, hv, Option.join_some]
            cases x with
            | some v =>
                dsimp only
                rw [ih i]
                rcases lt_trichotomy i n with hi | rfl | hi
                · rw [if_pos hi, if_pos (Nat.lt_succ_of_lt hi)]
                · rw [if_neg (lt_irrefl i), if_pos (Nat.lt_succ_self i), hv, hsome i v hv]
                · rw [if_neg (by omega), if_neg (by omega)]
            | none =>
                dsimp only
                obtain ⟨o, v, ho, hov, hnv⟩ := hnone n hv
                have hvo : vs[o]? = some (some v) := by
                  rw [ih o]
                  split
                  · exact hsome o v hov
                  · exact hov
                rw [ho, Option.bind_some, hvo, Option.join_some]
                rcases lt_trichotomy i n with hi | rfl | hi
                · rw [List.getElem?_set_ne (Nat.ne_of_gt hi), ih i, if_pos hi,
                    if_pos (Nat.lt_succ_of_lt hi)]
                · rw [List.getElem?_set_self (by omega), if_pos (Nat.lt_succ_self i), hnv]
                · rw [List.getElem?_set_ne (Nat.ne_of_lt hi), ih i, if_neg (by omega),
                    if_neg (by omega)]
  refine List.ext_getElem? fun i => ?_
  rw [fanOut, hprefix values.length le_rfl]
  split
  · rfl
  · next hi =>
    rw [List.getElem?_eq_none (not_lt.mp hi), List.getElem?_eq_none (hlen ▸ not_lt.mp hi)]

/-! ### All or nothing -/

section

variable {S : Type} {store : JobStore S} {asked : List Asked} {results : List JobResult} {since : ℕ}

def plansOf (asked : List Asked) : List JobPlan := asked.map (·.1)

/-- The ids of the request. -/
def requestIds (asked : List Asked) : List String :=
  (jobsRequest (plansOf asked) (lookupAnswered asked).misses).map (·.id)

/-- The first miss of a key, in the plans. -/
def ownerOf (asked : List Asked) (key : String) : ℕ :=
  firstMiss key (asked.map fun a => (a.1.key, a.2))

theorem owning_eq (key : String) : owning asked key = (asked[ownerOf asked key]?).map (·.1) := by
  rw [owning, ownerOf, firstMiss, List.findIdx_map, List.find?_eq_getElem?_findIdx]
  rfl

theorem getElem?_asked {i : ℕ} {key : String} :
    (asked.map fun a => (a.1.key, a.2))[i]? = some (key, none) ↔
      ∃ p : JobPlan, asked[i]? = some (p, none) ∧ p.key = key := by
  rw [List.getElem?_map]
  cases ha : asked[i]? with
  | none => simp
  | some a =>
      obtain ⟨p, v⟩ := a
      simp only [Option.map_some, Option.some.injEq, Prod.mk.injEq]
      constructor
      · rintro ⟨hkey, hv⟩
        exact ⟨p, ⟨rfl, hv⟩, hkey⟩
      · rintro ⟨q, ⟨rfl, hv⟩, hkey⟩
        exact ⟨hkey, hv⟩

theorem mem_misses {m : ℕ} : m ∈ (lookupAnswered asked).misses ↔
    ∃ p : JobPlan, asked[m]? = some (p, none) ∧ ownerOf asked p.key = m := by
  refine owners_misses.trans ?_
  simp only [Nat.zero_add, getElem?_asked]
  constructor
  · rintro ⟨j, -, rfl, ⟨p, hp, rfl⟩, -, hmiss⟩
    exact ⟨p, hp, hmiss⟩
  · rintro ⟨p, hp, hmiss⟩
    exact ⟨m, p.key, rfl, ⟨p, hp, rfl⟩, rfl, hmiss⟩

/-- The owner of a plan that missed is a miss of its key. -/
theorem ownerOf_spec {i : ℕ} {p : JobPlan} (h : asked[i]? = some (p, none)) :
    ∃ q : JobPlan, asked[ownerOf asked p.key]? = some (q, none) ∧ q.key = p.key := by
  have hmem : (p.key, none) ∈ asked.map fun a => (a.1.key, a.2) :=
    List.mem_of_getElem? (getElem?_asked.mpr ⟨p, h, rfl⟩)
  have hlt := List.findIdx_lt_length_of_exists ⟨_, hmem, show missed p.key (p.key, none) = true by
    simp [missed]⟩
  have hp := List.findIdx_getElem (w := hlt)
  refine getElem?_asked.mp ((List.getElem?_eq_getElem hlt).trans (congrArg some ?_))
  rw [missed, Bool.and_eq_true, beq_iff_eq, Option.isNone_iff_eq_none] at hp
  exact Prod.ext hp.1 hp.2

theorem getElem?_plansOf {i : ℕ} {a : Asked} (h : asked[i]? = some a) :
    (plansOf asked)[i]? = some a.1 := by
  rw [plansOf, List.getElem?_map, h]
  rfl

theorem map_eq_filterMap {α β : Type} {f : α → Option β} : ∀ {l : List α},
    (∀ x ∈ l, (f x).isSome = true) → l.map f = (l.filterMap f).map some
  | [], _ => rfl
  | x :: l, h => by
      obtain ⟨y, hy⟩ := Option.isSome_iff_exists.mp (h x List.mem_cons_self)
      rw [List.map_cons, List.filterMap_cons_some hy, List.map_cons, hy,
        map_eq_filterMap fun z hz => h z (List.mem_cons_of_mem _ hz)]

/-- One call for each miss, with its plan's id. -/
theorem requestIds_eq : (lookupAnswered asked).misses.map (fun i =>
    (plansOf asked)[i]?.map (·.callId)) = (requestIds asked).map some := by
  have hids : requestIds asked = (lookupAnswered asked).misses.filterMap fun i =>
      (plansOf asked)[i]?.map (·.callId) := by
    rw [requestIds, jobsRequest, List.map_filterMap]
    refine congrArg (List.filterMap · _) (funext fun i => ?_)
    cases (plansOf asked)[i]? <;> rfl
  rw [hids]
  refine map_eq_filterMap fun i hi => ?_
  obtain ⟨p, hp, -⟩ := mem_misses.mp hi
  rw [getElem?_plansOf hp]
  rfl

/-- Each owner's value is the last one replied for its call. -/
theorem owned_spec {fresh : List Node} {owned : List (JobPlan × ℕ × Node)}
    (hfresh : resultsInRequestOrder (requestIds asked) results = .ok fresh)
    (hchecked : checkAll (plansOf asked) (fresh.zip (lookupAnswered asked).misses) = .ok owned) :
    owned.map (·.2.1) = (lookupAnswered asked).misses ∧
      ∀ o ∈ owned, asked[o.2.1]? = some (o.1, none) ∧ replied results o.1.callId = some o.2.2 := by
  obtain ⟨hzip, hplans⟩ := checkAll_spec hchecked
  have hreplied := results_spec hfresh
  have hids : (lookupAnswered asked).misses.map (fun i => (plansOf asked)[i]?.map (·.callId)) =
      (requestIds asked).map some := requestIds_eq
  have hlen : (lookupAnswered asked).misses.length = fresh.length := by
    have h₁ := congrArg List.length hids
    have h₂ := congrArg List.length hreplied
    simp only [List.length_map] at h₁ h₂
    exact h₁.trans h₂
  have hmisses : owned.map (·.2.1) = (lookupAnswered asked).misses := by
    have := congrArg (List.map Prod.snd) hzip
    rw [List.map_map, List.map_snd_zip (le_of_eq hlen)] at this
    exact this
  refine ⟨hmisses, fun o ho => ?_⟩
  have hmem : (o.2.2, o.2.1) ∈ fresh.zip (lookupAnswered asked).misses :=
    hzip ▸ List.mem_map_of_mem ho
  obtain ⟨k, hk⟩ := List.getElem?_of_mem hmem
  rw [List.getElem?_zip_eq_some] at hk
  obtain ⟨p, hp, -⟩ := mem_misses.mp (List.mem_of_getElem? hk.2)
  have hplan := hplans o ho
  rw [getElem?_plansOf hp] at hplan
  obtain rfl := Option.some.inj hplan
  refine ⟨hp, ?_⟩
  have hid : (requestIds asked)[k]? = some o.1.callId := by
    have := congrArg (·[k]?) hids
    simp only [List.getElem?_map, hk.2, Option.map_some, getElem?_plansOf hp] at this
    cases hi : (requestIds asked)[k]? with
    | none => rw [hi] at this; cases this
    | some id =>
        rw [hi] at this
        exact (Option.some.inj this).symm
  have := congrArg (·[k]?) hreplied
  simp only [List.getElem?_map, hid, hk.1, Option.map_some] at this
  exact Option.some.inj this

section

variable {fresh : List Node} {owned : List (JobPlan × ℕ × Node)}

theorem reference_of_owned
    (howned : ∀ o ∈ owned, asked[o.2.1]? = some (o.1, none) ∧
      replied results o.1.callId = some o.2.2)
    {o : JobPlan × ℕ × Node} (ho : o ∈ owned) {p : JobPlan} (hown : ownerOf asked p.key = o.2.1) :
    reference asked results (p, none) = some o.2.2 := by
  obtain ⟨hasked, hreplied⟩ := howned o ho
  rw [reference, owning_eq, hown, hasked]
  exact hreplied

variable (store since) in
/-- The values before they are fanned out, and after. -/
theorem fanOut_reference (hpos : owned.map (·.2.1) = (lookupAnswered asked).misses)
    (howned : ∀ o ∈ owned, asked[o.2.1]? = some (o.1, none) ∧
      replied results o.1.callId = some o.2.2)
    (s : S) :
    fanOut (lookupAnswered asked).owner
        (insertAll store since owned ⟨s, false, (lookupAnswered asked).values⟩).values =
      asked.map (reference asked results) ∧
    ∀ v ∈ asked.map (reference asked results), v.isSome = true := by
  have hnodup : (owned.map (·.2.1)).Nodup := by
    rw [hpos]
    exact (owners_ascend _ _ _).imp fun h => Nat.ne_of_lt h
  obtain ⟨hlen, hown, hrest⟩ := insertAll_values store since hnodup
    ⟨s, false, (lookupAnswered asked).values⟩
  generalize (insertAll store since owned ⟨s, false, (lookupAnswered asked).values⟩).values = values
    at hlen hown hrest
  have hvalues : (lookupAnswered asked).values.length = asked.length := List.length_map ..
  have hlen := hlen.trans hvalues
  -- an owner's value is in its place
  have howner : ∀ {i : ℕ} {p : JobPlan}, asked[i]? = some (p, none) → ∃ o ∈ owned,
      ownerOf asked p.key = o.2.1 ∧ values[o.2.1]? = some (some o.2.2) := fun {i p} hi => by
    obtain ⟨q, hq, hkey⟩ := ownerOf_spec hi
    have hmem : ownerOf asked p.key ∈ owned.map (·.2.1) :=
      hpos ▸ mem_misses.mpr ⟨q, hq, by rw [hkey]⟩
    obtain ⟨o, ho, hoi⟩ := List.mem_map.mp hmem
    refine ⟨o, ho, hoi.symm, hown o ho ?_⟩
    rw [hvalues]
    exact (List.getElem?_eq_some_iff.mp (howned o ho).1).1
  have hasked : ∀ {i : ℕ} {x}, values[i]? = some x → ∃ p ans, asked[i]? = some (p, ans) ∧
      (x = ans ∨ ans = none ∧ ∃ o ∈ owned, o.2.1 = i ∧ x = some o.2.2) := fun {i x} hi => by
    have hlt : i < asked.length := hlen ▸ (List.getElem?_eq_some_iff.mp hi).1
    obtain ⟨⟨p, ans⟩, ha⟩ : ∃ a, asked[i]? = some a := ⟨_, List.getElem?_eq_getElem hlt⟩
    refine ⟨p, ans, ha, ?_⟩
    by_cases hm : i ∈ owned.map (·.2.1)
    · obtain ⟨o, ho, rfl⟩ := List.mem_map.mp hm
      rw [(howned o ho).1] at ha
      rw [hown o ho (by rw [hvalues]; exact hlt)] at hi
      cases ha
      exact .inr ⟨rfl, o, ho, rfl, (Option.some.inj hi).symm⟩
    · rw [hrest i hm, lookupAnswered, List.getElem?_map, ha] at hi
      exact .inl (Option.some.inj hi).symm
  have hsome : ∀ (i : ℕ) v, values[i]? = some (some v) →
      (asked.map (reference asked results))[i]? = some (some v) := fun i v hi => by
    obtain ⟨p, ans, ha, hx⟩ := hasked hi
    rw [List.getElem?_map, ha, Option.map_some]
    rcases hx with rfl | ⟨rfl, o, ho, rfl, hv⟩
    · rfl
    · obtain ⟨q, hq, hmiss⟩ := mem_misses.mp (hpos ▸ List.mem_map_of_mem ho)
      rw [ha] at hq
      cases hq
      rw [reference_of_owned howned ho hmiss, hv]
  have hnone : ∀ i : ℕ, values[i]? = some none → ∃ (o : ℕ) (v : Node),
      (lookupAnswered asked).owner[i]? = some o ∧ values[o]? = some (some v) ∧
        (asked.map (reference asked results))[i]? = some (some v) := fun i hi => by
    obtain ⟨p, ans, ha, hx⟩ := hasked hi
    rcases hx with rfl | ⟨-, o, -, -, hv⟩
    · obtain ⟨o, ho, hkey, hv⟩ := howner ha
      refine ⟨o.2.1, o.2.2, ?_, hv, ?_⟩
      · rw [← hkey, ownerOf]
        refine (owners_owner (getElem?_asked.mpr ⟨p, ha, rfl⟩)).trans ?_
        rw [List.lookup_nil, Option.getD_none, Nat.zero_add]
      · rw [List.getElem?_map, ha, Option.map_some, reference_of_owned howned ho hkey]
    · cases hv
  refine ⟨fanOut_eq ((List.length_map _).trans hlen.symm) hsome hnone, fun v hv => ?_⟩
  obtain ⟨i, hi⟩ := List.getElem?_of_mem hv
  have hlt : i < values.length := by
    rw [hlen]
    exact ((List.getElem?_eq_some_iff.mp hi).1).trans_eq (List.length_map _)
  have hx := List.getElem?_eq_getElem hlt
  cases hxi : values[i] with
  | some w =>
      rw [hxi] at hx
      rw [hsome i w hx] at hi
      cases hi
      rfl
  | none =>
      rw [hxi] at hx
      obtain ⟨o, w, -, -, hw⟩ := hnone i hx
      rw [hw] at hi
      cases hi
      rfl

/-- Each key that missed is inserted once, with the value its plans get. -/
theorem inserts_spec (hpos : owned.map (·.2.1) = (lookupAnswered asked).misses)
    (howned : ∀ o ∈ owned, asked[o.2.1]? = some (o.1, none) ∧
      replied results o.1.callId = some o.2.2) :
    ((inserts since owned).map (·.key)).Nodup ∧
      (∀ i ∈ inserts since owned, ∃ a ∈ asked, a.2 = none ∧ i = jobInsert a.1 i.value since ∧
        reference asked results a = some i.value) ∧
      ∀ a ∈ asked, a.2 = none → a.1.key ∈ (inserts since owned).map (·.key) := by
  have hmiss : ∀ o ∈ owned, ownerOf asked o.1.key = o.2.1 := fun o ho => by
    obtain ⟨p, hp, hmiss⟩ := mem_misses.mp (hpos ▸ List.mem_map_of_mem ho)
    rw [(howned o ho).1] at hp
    cases hp
    exact hmiss
  have hnodup : (owned.map (·.2.1)).Nodup := by
    rw [hpos]
    exact (owners_ascend _ _ _).imp fun h => Nat.ne_of_lt h
  have hkeys : (inserts since owned).map (·.key) = owned.map (·.1.key) := by
    rw [inserts, List.map_map]
    rfl
  refine ⟨?_, fun i hi => ?_, fun a ha hnone => ?_⟩
  · rw [hkeys]
    refine (List.Nodup.of_map _ hnodup).map_on fun o ho o' ho' hkey => ?_
    refine List.inj_on_of_nodup_map hnodup ho ho' ?_
    rw [← hmiss o ho, ← hmiss o' ho', hkey]
  · obtain ⟨o, ho, rfl⟩ := List.mem_map.mp hi
    exact ⟨(o.1, none), List.mem_of_getElem? (howned o ho).1, rfl, rfl,
      reference_of_owned howned ho (hmiss o ho)⟩
  · obtain ⟨p, ans⟩ := a
    obtain rfl : ans = none := hnone
    obtain ⟨i, hi⟩ := List.getElem?_of_mem ha
    obtain ⟨q, hq, hkey⟩ := ownerOf_spec hi
    have hmem : ownerOf asked p.key ∈ owned.map (·.2.1) :=
      hpos ▸ mem_misses.mpr ⟨q, hq, by rw [hkey]⟩
    obtain ⟨o, ho, hoi⟩ := List.mem_map.mp hmem
    rw [hkeys]
    refine List.mem_map.mpr ⟨o, ho, ?_⟩
    have := (howned o ho).1
    rw [hoi, hq] at this
    cases this
    exact hkey

end

/-- **All or nothing.**  A failure leaves the store as it was.  Else every plan has its value: what
the store answered for it, or what was last replied to the first plan that missed its key; and each
such key was inserted once, with that value. -/
theorem apply_job_results_spec (store : JobStore S) (asked : List Asked) (results : List JobResult)
    (since : ℕ) (s : S) :
    match applyJobResults store (plansOf asked) (lookupAnswered asked) (requestIds asked) results
      since s with
    | (s', .error _) => s' = s
    | (s', .ok (_, values)) =>
      values = asked.map (reference asked results) ∧ (∀ v ∈ values, v.isSome = true) ∧
      (∀ a ∈ asked, ∀ b ∈ asked, a.1.key = b.1.key → a.2 = b.2 →
        reference asked results a = reference asked results b) ∧
      ∃ ins : List (JobInsert Node), s' = ins.foldl (fun s i => (store.insert i s).1) s ∧
        (ins.map (·.key)).Nodup ∧
        (∀ i ∈ ins, ∃ a ∈ asked, a.2 = none ∧ i = jobInsert a.1 i.value since ∧
          reference asked results a = some i.value) ∧
        ∀ a ∈ asked, a.2 = none → a.1.key ∈ ins.map (·.key) := by
  rw [applyJobResults]
  cases hfresh : resultsInRequestOrder (requestIds asked) results with
  | error e => dsimp only
  | ok fresh =>
      dsimp only
      cases hchecked : checkAll (plansOf asked) (fresh.zip (lookupAnswered asked).misses) with
      | error e => dsimp only
      | ok owned =>
          obtain ⟨hpos, howned⟩ := owned_spec hfresh hchecked
          obtain ⟨hvalues, hall⟩ := fanOut_reference store since hpos howned s
          dsimp only
          rw [hvalues]
          refine ⟨rfl, hall, fun a _ b _ hkey hans => ?_, inserts since owned,
            insertAll_store owned _, inserts_spec hpos howned⟩
          rw [reference, reference, hkey, hans]

/-- A job of the component `c`, an older manifest's. -/
def plainPlan : JobPlan where
  key := "k"
  callPrefix := "c/j"
  callRow := none
  componentId := "c"
  jobId := "j"
  kind := .ssr
  inputs := .null
  ttl := none
  tags := []
  userKey := none
  dest := .chain "c" none
  outputs := []
  target := none
  src := ⟨0, 0, none⟩

/-- Two plans of one key, of which the store misses the first and then has the second. -/
theorem equal_keys_differ : ¬ ∀ (store : JobStore Unit) (asked : List Asked)
    (results : List JobResult) (rejected : Bool) (values : List (Option Node)),
    (applyJobResults store (plansOf asked) (lookupAnswered asked)
      (requestIds asked) results 0 ()).2 =
      .ok (rejected, values) →
    ∀ (i j : ℕ) (a b : Asked), asked[i]? = some a → asked[j]? = some b → a.1.key = b.1.key →
      values[i]? = values[j]? := by
  intro hall
  have := hall ⟨fun _ s => (s, true)⟩ [(plainPlan, none), (plainPlan, some (.str "old"))]
    [⟨"c/j", some (.str "new"), none⟩] false [some (.str "new"), some (.str "old")] rfl 0 1
    (plainPlan, none) (plainPlan, some (.str "old")) rfl rfl rfl
  exact absurd (Node.str.inj (Option.some.inj (Option.some.inj this))) (by decide)

end

end Brust.Plan
