import Brust.Plan.Projection
import Mathlib.Data.List.Pairwise
import Mathlib.Data.Option.Basic

/-!
# Plan — what a projection says

The paths that a projection keeps are the inputs that no other input is a proper prefix of, each
once (`mem_keptPaths`), so that the order and the repeats of the inputs only tell which path an
error names, and every input's value is found in the projection (`projection_faithful`).
-/

namespace Brust.Plan

/-! ### The paths that are kept -/

theorem covered_iff {paths : List Path} {i : ℕ} {p : Path} : covered paths i p = true ↔
    ∃ j q, paths[j]? = some q ∧ j ≠ i ∧ q <+: p ∧ (q.length < p.length ∨ j < i) := by
  unfold covered
  rw [List.any_eq_true]
  constructor
  · rintro ⟨⟨q, j⟩, hmem, h⟩
    simp only [Bool.and_eq_true, Bool.or_eq_true, decide_eq_true_eq,
      List.isPrefixOf_iff_prefix] at h
    exact ⟨j, q, List.mem_zipIdx_iff_getElem?.mp hmem, h.1, h.2.1.2, h.2.2⟩
  · rintro ⟨j, q, hq, hne, hpre, hless⟩
    refine ⟨(q, j), List.mem_zipIdx_iff_getElem?.mpr hq, ?_⟩
    simp only [Bool.and_eq_true, Bool.or_eq_true, decide_eq_true_eq, List.isPrefixOf_iff_prefix]
    exact ⟨hne, ⟨hpre.length_le, hpre⟩, hless⟩

/-- The paths of `Projection.new`, in order. -/
def keptPaths (paths : List Path) : List Path :=
  (paths.zipIdx.filter fun p => !covered paths p.2 p.1).map (·.1)

theorem mem_keptPaths_iff {paths : List Path} {p : Path} :
    p ∈ keptPaths paths ↔ ∃ i, paths[i]? = some p ∧ covered paths i p = false := by
  unfold keptPaths
  simp only [List.mem_map, List.mem_filter, Bool.not_eq_true']
  constructor
  · rintro ⟨⟨p, i⟩, ⟨hmem, hcovered⟩, rfl⟩
    exact ⟨i, List.mem_zipIdx_iff_getElem?.mp hmem, hcovered⟩
  · rintro ⟨i, hp, hcovered⟩
    exact ⟨(p, i), ⟨List.mem_zipIdx_iff_getElem?.mpr hp, hcovered⟩, rfl⟩

/-- **The paths that are kept**: no other input is a prefix of them. -/
theorem mem_keptPaths {paths : List Path} {p : Path} :
    p ∈ keptPaths paths ↔ p ∈ paths ∧ ∀ q ∈ paths, q <+: p → q = p := by
  rw [mem_keptPaths_iff]
  constructor
  · rintro ⟨i, hp, hcovered⟩
    refine ⟨List.mem_of_getElem? hp, fun q hq hpre => ?_⟩
    obtain ⟨j, hj⟩ := List.mem_iff_getElem?.mp hq
    by_contra hne
    have hshort : q.length < p.length :=
      lt_of_le_of_ne hpre.length_le fun heq => hne (hpre.eq_of_length heq)
    have hji : j ≠ i := by
      rintro rfl
      exact hne (Option.some.inj (hj.symm.trans hp))
    rw [covered_iff.mpr ⟨j, q, hj, hji, hpre, .inl hshort⟩] at hcovered
    cases hcovered
  · rintro ⟨hp, hmin⟩
    -- the first time it is there
    have hfirst : ∃ i, paths[i]? = some p := List.mem_iff_getElem?.mp hp
    refine ⟨Nat.find hfirst, Nat.find_spec hfirst, ?_⟩
    rw [← Bool.not_eq_true, covered_iff]
    rintro ⟨j, q, hq, -, hpre, hless⟩
    obtain rfl := hmin q (List.mem_of_getElem? hq) hpre
    rcases hless with hless | hless
    · exact lt_irrefl _ hless
    · exact Nat.find_min hfirst hless hq

theorem keptPaths_pairwise (paths : List Path) :
    (keptPaths paths).Pairwise fun p q => ¬ p <+: q ∧ ¬ q <+: p := by
  unfold keptPaths
  rw [List.pairwise_map]
  have hindices : paths.zipIdx.Pairwise fun a b => a.2 < b.2 := by
    have hrange := List.pairwise_lt_range' (s := 0) (n := paths.length)
    rw [← List.zipIdx_map_snd 0 paths, List.pairwise_map] at hrange
    exact hrange
  refine List.Pairwise.imp_of_mem ?_ (hindices.filter _)
  rintro ⟨p, i⟩ ⟨q, j⟩ hp hq hij
  rw [List.mem_filter, Bool.not_eq_true', List.mem_zipIdx_iff_getElem?] at hp hq
  have hapart : ∀ {p q : Path} {i j : ℕ}, paths[i]? = some p → covered paths j q = false → i ≠ j →
      (p.length = q.length → i < j) → ¬ p <+: q := by
    intro p q i j hp hcovered hne hless hpre
    have hor : p.length < q.length ∨ i < j :=
      (lt_or_eq_of_le hpre.length_le).imp_right hless
    rw [covered_iff.mpr ⟨i, p, hp, hne, hpre, hor⟩] at hcovered
    cases hcovered
  have hpq : ¬ p <+: q := hapart hp.1 hq.2 (Nat.ne_of_lt hij) fun _ => hij
  refine ⟨hpq, fun hpre => ?_⟩
  rcases lt_or_eq_of_le hpre.length_le with hlt | heq
  · have hor : q.length < p.length ∨ j < i := .inl hlt
    have hcovered := covered_iff.mpr ⟨j, q, hq.1, Nat.ne_of_gt hij, hpre, hor⟩
    rw [hp.2] at hcovered
    cases hcovered
  · have hqp : q = p := hpre.eq_of_length heq
    rw [hqp] at hpq
    exact hpq List.prefix_rfl

theorem keptPaths_nodup (paths : List Path) : (keptPaths paths).Nodup :=
  (keptPaths_pairwise paths).imp fun h heq => h.1 (by subst heq; exact List.prefix_rfl)

/-- Every input has a prefix that is kept. -/
theorem exists_kept_prefix {paths : List Path} {p : Path} (hp : p ∈ paths) :
    ∃ q ∈ keptPaths paths, q <+: p := by
  induction hn : p.length using Nat.strong_induction_on generalizing p with
  | _ n ih =>
      by_cases hmin : ∀ q ∈ paths, q <+: p → q = p
      · exact ⟨p, mem_keptPaths.mpr ⟨hp, hmin⟩, List.prefix_rfl⟩
      · simp only [not_forall] at hmin
        obtain ⟨q, hq, hpre, hne⟩ := hmin
        have hlt : q.length < n :=
          hn ▸ lt_of_le_of_ne hpre.length_le fun heq => hne (hpre.eq_of_length heq)
        obtain ⟨r, hr, hrq⟩ := ih q.length hlt hq rfl
        exact ⟨r, hr, hrq.trans hpre⟩

/-- The inputs alone decide which paths are kept. -/
theorem keptPaths_perm {paths paths' : List Path} (h : ∀ p, p ∈ paths ↔ p ∈ paths') :
    (keptPaths paths).Perm (keptPaths paths') := by
  rw [List.perm_ext_iff_of_nodup (keptPaths_nodup _) (keptPaths_nodup _)]
  intro p
  simp only [mem_keptPaths, h]

/-! ### Equality -/

/-- `Number`'s equality. -/
def Number.same : Number → Number → Bool
  | .posInt a, .posInt b => a == b
  | .negInt a, .negInt b => a == b
  | .float a, .float b => a == b
  | _, _ => false

mutual

/-- `Node`'s equality: of maps the content, not the order of a text. -/
def Node.same : Node → Node → Bool
  | .null, .null => true
  | .bool a, .bool b => a == b
  | .num a, .num b => a.same b
  | .str a, .str b => a == b
  | .arr xs, .arr ys => sameItems xs ys
  | .map m _, .map m' _ => sameEntries m m'
  | _, _ => false

def sameItems : List Node → List Node → Bool
  | [], [] => true
  | x :: xs, y :: ys => x.same y && sameItems xs ys
  | _, _ => false

def sameEntries : List (String × Node) → List (String × Node) → Bool
  | [], [] => true
  | (k, v) :: m, (k', v') :: m' => k == k' && v.same v' && sameEntries m m'
  | _, _ => false

end

/-- Related trees have related parts. -/
structure Observes (R : Node → Node → Prop) : Prop where
  get : ∀ {a b}, R a b → ∀ k, Option.Rel R (a.get k) (b.get k)
  index : ∀ {a b}, R a b → ∀ i, Option.Rel R (a.index i) (b.index i)

theorem observes_eq : Observes Eq := by
  have hrel : ∀ o : Option Node, Option.Rel Eq o o := by
    rintro (_ | n)
    · exact .none
    · exact .some rfl
  refine ⟨?_, ?_⟩
  · rintro a b rfl k
    exact hrel _
  · rintro a b rfl i
    exact hrel _

theorem sameItems_getElem? : ∀ {xs ys : List Node}, sameItems xs ys = true → ∀ i : ℕ,
    Option.Rel (fun a b => a.same b = true) xs[i]? ys[i]?
  | [], [], _, i => by
      rw [List.getElem?_nil]
      exact .none
  | x :: xs, y :: ys, h, i => by
      rw [sameItems, Bool.and_eq_true] at h
      cases i with
      | zero => exact .some h.1
      | succ i => exact sameItems_getElem? h.2 i

theorem sameEntries_lookup : ∀ {m m' : List (String × Node)}, sameEntries m m' = true →
    ∀ k, Option.Rel (fun a b => a.same b = true) (m.lookup k) (m'.lookup k)
  | [], [], _, k => .none
  | (l, v) :: m, (l', v') :: m', h, k => by
      rw [sameEntries, Bool.and_eq_true, Bool.and_eq_true, beq_iff_eq] at h
      obtain ⟨⟨rfl, hv⟩, hm⟩ := h
      rw [SortedMap.lookup_cons_if, SortedMap.lookup_cons_if]
      split
      · exact .some hv
      · exact sameEntries_lookup hm k

theorem observes_same : Observes fun a b => a.same b = true := by
  refine ⟨fun {a b} h k => ?_, fun {a b} h i => ?_⟩
  · cases a with
    | map m order =>
        cases b with
        | map m' order' => exact sameEntries_lookup h k
        | _ => cases h
    | _ =>
        cases b with
        | map m' order' => cases h
        | _ => exact .none
  · cases a with
    | arr xs =>
        cases b with
        | arr ys => exact sameItems_getElem? h i
        | _ => cases h
    | _ =>
        cases b with
        | arr ys => cases h
        | _ => exact .none

theorem rel_bind {R : Node → Node → Prop} {x y : Option Node} {f : Node → Option Node}
    (h : Option.Rel R x y) (hf : ∀ {a b}, R a b → Option.Rel R (f a) (f b)) :
    Option.Rel R (x.bind f) (y.bind f) := by
  cases h with
  | none => exact .none
  | some h => exact hf h

section
variable {R : Node → Node → Prop} (hR : Observes R)
include hR

theorem Observes.down {a b : Node} (h : R a b) : ∀ ks, Option.Rel R (a.down ks) (b.down ks)
  | [] => .some h
  | k :: ks => rel_bind (hR.get h k) fun hab => Observes.down hab ks

theorem Observes.step {a b : Node} (h : R a b) (idx : Option ℕ) (s : Seg) :
    Option.Rel R (Path.step idx a s) (Path.step idx b s) := by
  cases s with
  | key k => exact hR.get h k
  | index i => exact hR.index h i
  | idx =>
      cases idx with
      | none => exact .none
      | some i => exact hR.index h i

theorem Observes.find {a b : Node} (h : R a b) (idx : Option ℕ) : ∀ p : Path,
    Option.Rel R (p.find a idx) (p.find b idx)
  | [] => .some h
  | s :: p => rel_bind (hR.step h idx s) fun hab => Observes.find hab idx p

end

/-! ### Projections -/

/-- Why an object of inputs is not built. -/
inductive ProjectError where
  | path (e : PathError)
  | plan (e : PlanError)

/-- `project` -/
def project (ctx : Node) (inputs : List String) (idx : Option ℕ) : Except ProjectError Node := do
  let pr ← (Projection.new inputs).mapError .path
  (pr.eval ctx idx).mapError .plan

/-- The same object, or errors of one kind: a path that does not parse, a row where there is
none. -/
inductive SameOutcome : Except ProjectError Node → Except ProjectError Node → Prop
  | ok (n : Node) : SameOutcome (.ok n) (.ok n)
  | path (e e' : PathError) : SameOutcome (.error (.path e)) (.error (.path e'))
  | row (s s' : String) :
      SameOutcome (.error (.plan (.inputOutsideRow s))) (.error (.plan (.inputOutsideRow s')))

/-- A projection does not panic; the order and the repeats of its inputs are no matter, but for
which one an error names; and contexts with one projection have, at each input, the same value or
none. -/
structure FaithfulProjection (ctx : Node) (inputs : List String) (idx : Option ℕ) : Prop where
  panics : project ctx inputs idx ≠ .error (.plan .panics)
  order : ∀ inputs', (∀ s, s ∈ inputs' ↔ s ∈ inputs) →
    SameOutcome (project ctx inputs' idx) (project ctx inputs idx)
  equal : ∀ ctx' n, project ctx inputs idx = .ok n → project ctx' inputs idx = .ok n →
    ∀ s ∈ inputs, ∀ p, Path.parse s = .ok p → p.find ctx idx = p.find ctx' idx
  same : ∀ ctx' n n', project ctx inputs idx = .ok n → project ctx' inputs idx = .ok n' →
    n.same n' = true → ∀ s ∈ inputs, ∀ p, Path.parse s = .ok p →
      Option.Rel (fun a b => a.same b = true) (p.find ctx idx) (p.find ctx' idx)

def Parses (inputs : List String) : Prop := ∀ s ∈ inputs, ∃ p, Path.parse s = .ok p

/-- A text's path. -/
def pathOf (s : String) : Path := (Path.parse s).toOption.getD []

theorem pathOf_eq {s : String} {p : Path} (h : Path.parse s = .ok p) : pathOf s = p := by
  rw [pathOf, h]
  rfl

theorem parse_pathOf {s : String} (h : ∃ p, Path.parse s = .ok p) :
    Path.parse s = .ok (pathOf s) := by
  obtain ⟨p, hp⟩ := h
  rw [hp, pathOf_eq hp]

/-- The inputs of `Projection.new` in their places. -/
def keptInputs (inputs : List String) : List (Path × List String) :=
  (keptPaths (inputs.map pathOf)).map fun p => (p, p.map projKey)

/-- The first input with a row in its path. -/
def firstIdxOf (inputs : List String) : Option String :=
  (((inputs.map pathOf).zip inputs).find? fun p => p.1.hasIdx).map (·.2)

theorem new_eq {inputs : List String} (h : Parses inputs) :
    Projection.new inputs = .ok ⟨keptInputs inputs, firstIdxOf inputs⟩ := by
  have hpaths : inputs.mapM Path.parse = .ok (inputs.map pathOf) :=
    mapM_eq_ok_map fun s hs => parse_pathOf (h s hs)
  unfold Projection.new
  rw [hpaths]
  refine congrArg Except.ok ?_
  rw [keptInputs, keptPaths, List.map_map]
  rfl

theorem new_error {inputs : List String} (h : ¬ Parses inputs) :
    ∃ e, Projection.new inputs = .error e := by
  unfold Projection.new
  cases hpaths : inputs.mapM Path.parse with
  | error e => exact ⟨e, rfl⟩
  | ok paths =>
      refine absurd (fun s hs => ?_) h
      have hall := forall₂_of_mapM_ok hpaths
      obtain ⟨i, hi, rfl⟩ := List.getElem_of_mem hs
      have hlength := hall.length_eq
      exact ⟨paths[i], hall.get hi (hlength ▸ hi)⟩

theorem firstIdxOf_isSome {inputs : List String} :
    (firstIdxOf inputs).isSome = true ↔ ∃ s ∈ inputs, (pathOf s).hasIdx = true := by
  have hzip : ∀ l : List String, (l.map pathOf).zip l = l.map fun s => (pathOf s, s) := by
    intro l
    induction l with
    | nil => rfl
    | cons s l ih => rw [List.map_cons, List.zip_cons_cons, ih, List.map_cons]
  rw [firstIdxOf, hzip, Option.isSome_map, List.find?_isSome]
  constructor
  · rintro ⟨p, hp, hidx⟩
    obtain ⟨s, hs, rfl⟩ := List.mem_map.mp hp
    exact ⟨s, hs, hidx⟩
  · rintro ⟨s, hs, hidx⟩
    exact ⟨_, List.mem_map_of_mem hs, hidx⟩

theorem keptInputs_spec {inputs : List String} (h : Parses inputs) :
    (∀ p ∈ keptInputs inputs, Free [] p.2) ∧
      (keptInputs inputs).Pairwise fun p q => Apart p.2 q.2 := by
  have hparsed : ∀ p ∈ keptPaths (inputs.map pathOf), p.Parsed := by
    intro p hp
    obtain ⟨s, hs, rfl⟩ := List.mem_map.mp (mem_keptPaths.mp hp).1
    exact parse_parsed (parse_pathOf (h s hs))
  constructor
  · intro p hp
    obtain ⟨q, hq, rfl⟩ := List.mem_map.mp hp
    have hnothing : ∀ ks, ks ≠ [] → (Node.map [] none).down ks = none := by
      intro ks hks
      obtain ⟨k, ks, rfl⟩ := List.exists_cons_of_ne_nil hks
      rfl
    have hne : q.map projKey ≠ [] :=
      fun hnil => (hparsed q hq).nonempty (List.map_eq_nil_iff.mp hnil)
    refine ⟨hne, fun pre hpre _ n hn => ?_, hnothing _ hne⟩
    rw [hnothing pre hpre] at hn
    cases hn
  · rw [keptInputs, List.pairwise_map]
    refine List.Pairwise.imp_of_mem (fun {p q} hp hq hpq => ?_) (keptPaths_pairwise _)
    exact ⟨fun hpre => hpq.1 (prefix_of_keys (hparsed p hp).plain (hparsed q hq).plain hpre),
      fun hpre => hpq.2 (prefix_of_keys (hparsed q hq).plain (hparsed p hp).plain hpre)⟩

/-! ### The three outcomes -/

/-- An input is in a row, and there is none. -/
def Rowless (inputs : List String) (idx : Option ℕ) : Prop :=
  idx = none ∧ ∃ s ∈ inputs, (pathOf s).hasIdx = true

theorem project_unparsed (ctx : Node) {inputs : List String} (idx : Option ℕ)
    (h : ¬ Parses inputs) : ∃ e, project ctx inputs idx = .error (.path e) := by
  obtain ⟨e, he⟩ := new_error h
  refine ⟨e, ?_⟩
  rw [project, he]
  rfl

theorem project_rowless (ctx : Node) {inputs : List String} {idx : Option ℕ} (h : Parses inputs)
    (hrow : Rowless inputs idx) :
    ∃ s, project ctx inputs idx = .error (.plan (.inputOutsideRow s)) := by
  obtain ⟨rfl, hidx⟩ := hrow
  obtain ⟨s, hs⟩ := Option.isSome_iff_exists.mp (firstIdxOf_isSome.mpr hidx)
  refine ⟨s, ?_⟩
  rw [project, new_eq h, hs]
  rfl

theorem project_ok (ctx : Node) {inputs : List String} {idx : Option ℕ} (h : Parses inputs)
    (hrow : ¬ Rowless inputs idx) : project ctx inputs idx =
      .ok (.map ((keptInputs inputs).foldl (inputPlaced ctx idx) []) none) := by
  obtain ⟨hfree, hapart⟩ := keptInputs_spec h
  have hfold : (keptInputs inputs).foldlM (Projection.input ctx idx) [] =
      .ok ((keptInputs inputs).foldl (inputPlaced ctx idx) []) := (inputs_spec hfree hapart).1
  have heval : ∀ first, ¬ (idx = none ∧ ∃ s, first = some s) →
      Projection.eval ⟨keptInputs inputs, first⟩ ctx idx =
        .ok (.map ((keptInputs inputs).foldl (inputPlaced ctx idx) []) none) := by
    intro first hfirst
    unfold Projection.eval
    split
    · next s hsome => exact absurd ⟨rfl, s, hsome⟩ hfirst
    · rw [hfold]
      rfl
  have hfirst : ¬ (idx = none ∧ ∃ s, firstIdxOf inputs = some s) := fun ⟨hnone, hsome⟩ =>
    hrow ⟨hnone, firstIdxOf_isSome.mp (Option.isSome_iff_exists.mpr hsome)⟩
  rw [project, new_eq h]
  exact congrArg (Except.mapError ProjectError.plan) (heval _ hfirst)

theorem keptInputs_perm {inputs inputs' : List String} (h : ∀ s, s ∈ inputs' ↔ s ∈ inputs) :
    (keptInputs inputs').Perm (keptInputs inputs) := by
  refine (keptPaths_perm fun p => ?_).map _
  simp only [List.mem_map, h]

theorem project_order (ctx : Node) {inputs inputs' : List String} (idx : Option ℕ)
    (h : ∀ s, s ∈ inputs' ↔ s ∈ inputs) :
    SameOutcome (project ctx inputs' idx) (project ctx inputs idx) := by
  have hparses : Parses inputs' ↔ Parses inputs := by simp only [Parses, h]
  have hrows : Rowless inputs' idx ↔ Rowless inputs idx := by simp only [Rowless, h]
  by_cases hp : Parses inputs
  · by_cases hrow : Rowless inputs idx
    · obtain ⟨s, hs⟩ := project_rowless ctx hp hrow
      obtain ⟨s', hs'⟩ := project_rowless ctx (hparses.mpr hp) (hrows.mpr hrow)
      rw [hs, hs']
      exact .row s' s
    · obtain ⟨hfree, hapart⟩ := keptInputs_spec (hparses.mpr hp)
      have hsymm : Std.Symm fun p q : Path × List String => Apart p.2 q.2 := ⟨fun _ _ h => h.symm⟩
      rw [project_ok ctx hp hrow, project_ok ctx (hparses.mpr hp) (mt hrows.mp hrow),
        foldl_inputPlaced_perm (keptInputs_perm h) (fun p hp => (hfree p hp).nonempty)
          fun p hp q hq hne => hapart.forall hp hq hne]
      exact .ok _
  · obtain ⟨e, he⟩ := project_unparsed ctx idx hp
    obtain ⟨e', he'⟩ := project_unparsed ctx idx (mt hparses.mp hp)
    rw [he, he']
    exact .path e' e

/-! ### What a projection holds -/

theorem find_append (p q : Path) (ctx : Node) (idx : Option ℕ) :
    Path.find (p ++ q) ctx idx = (p.find ctx idx).bind fun n => q.find n idx :=
  List.foldlM_append ..

/-- A path that is kept finds what is under its keys. -/
theorem find_eq_down {ctx n : Node} {inputs : List String} {idx : Option ℕ}
    (hn : project ctx inputs idx = .ok n) {q : Path} (hq : q ∈ keptPaths (inputs.map pathOf)) :
    q.find ctx idx = n.down (q.map projKey) := by
  by_cases hp : Parses inputs
  · by_cases hrow : Rowless inputs idx
    · obtain ⟨s, hs⟩ := project_rowless ctx hp hrow
      rw [hs] at hn
      cases hn
    · rw [project_ok ctx hp hrow] at hn
      cases hn
      obtain ⟨hfree, hapart⟩ := keptInputs_spec hp
      exact ((inputs_spec hfree hapart).2.1 _ (List.mem_map_of_mem hq)).symm
  · obtain ⟨e, he⟩ := project_unparsed ctx idx hp
    rw [he] at hn
    cases hn

/-- Contexts with related projections have related values at every input. -/
theorem find_rel {R : Node → Node → Prop} (hR : Observes R) {ctx ctx' n n' : Node}
    {inputs : List String} {idx : Option ℕ} (hn : project ctx inputs idx = .ok n)
    (hn' : project ctx' inputs idx = .ok n') (h : R n n') {s : String} (hs : s ∈ inputs) {p : Path}
    (hp : Path.parse s = .ok p) : Option.Rel R (p.find ctx idx) (p.find ctx' idx) := by
  have hmem : p ∈ inputs.map pathOf := pathOf_eq hp ▸ List.mem_map_of_mem hs
  obtain ⟨q, hq, rest, rfl⟩ := exists_kept_prefix hmem
  rw [find_append, find_append, find_eq_down hn hq, find_eq_down hn' hq]
  exact rel_bind (hR.down h _) fun hab => hR.find hab idx rest

/-- **A projection is faithful**, for every context, inputs and row. -/
theorem projection_faithful (ctx : Node) (inputs : List String) (idx : Option ℕ) :
    FaithfulProjection ctx inputs idx := by
  refine ⟨?_, fun inputs' h => project_order ctx idx h, fun ctx' n hn hn' s hs p hp => ?_,
    fun ctx' n n' hn hn' h s hs p hp => find_rel observes_same hn hn' h hs hp⟩
  · by_cases hp : Parses inputs
    · by_cases hrow : Rowless inputs idx
      · obtain ⟨s, hs⟩ := project_rowless ctx hp hrow
        rw [hs]
        rintro ⟨⟩
      · rw [project_ok ctx hp hrow]
        rintro ⟨⟩
    · obtain ⟨e, he⟩ := project_unparsed ctx idx hp
      rw [he]
      rintro ⟨⟩
  · have hrel := find_rel observes_eq hn hn' rfl hs hp
    generalize p.find ctx idx = a at hrel
    generalize p.find ctx' idx = b at hrel
    cases hrel with
    | none => rfl
    | some h => rw [h]

/-- Which path an error names depends on the order. -/
theorem projection_error_order :
    project (.map [] none) ["a[idx]", "b[idx]"] none ≠
      project (.map [] none) ["b[idx]", "a[idx]"] none := by
  have hfirst : project (.map [] none) ["a[idx]", "b[idx]"] none =
      .error (.plan (.inputOutsideRow "a[idx]")) := by rfl
  have hsecond : project (.map [] none) ["b[idx]", "a[idx]"] none =
      .error (.plan (.inputOutsideRow "b[idx]")) := by rfl
  rw [hfirst, hsecond]
  intro h
  injection h with h
  injection h with h
  injection h with h
  exact absurd h (by decide)

end Brust.Plan
