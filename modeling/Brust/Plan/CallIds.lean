import Brust.Plan.Agree
import Brust.Plan.JobKey

/-!
# Plan — call ids

Every call of a request has an id: `<id>/<jobId>` of a chain component's job,
`<parentId>/<childId>_<k>/<jobId>` of a child's, and the row behind it.  Where ids have no `/` and
no job is named as an instance of a child beside it, the ids of one request are distinct
(`call_ids_distinct`); the slots of one component's children always are.
-/

namespace Brust.Plan

variable {E : Type}

/-! ### Segments -/

def segments (s : String) : List (List Char) := s.toList.splitOn '/'

theorem segments_slash (a b : String) : segments (a ++ "/" ++ b) = segments a ++ segments b := by
  rw [segments, String.toList_append, String.toList_append, List.append_assoc]
  exact List.splitOnP_append_cons _ _ (beq_self_eq_true '/')

theorem segments_of_notMem {s : String} (h : '/' ∉ s.toList) : segments s = [s.toList] :=
  List.splitOnP_eq_singleton fun _ hc => beq_eq_false_iff_ne.mpr fun he => h (he ▸ hc)

/-- The last segment of a row's call. -/
def rowSegments : Option ℕ → List (List Char)
  | some r => [(toString r).toList]
  | none => []

theorem toString_inj {m n : ℕ} (h : (toString m).toList = (toString n).toList) : m = n := by
  have hdigits : Nat.toDigits 10 m = Nat.toDigits 10 n := by
    rw [← show (toString m).toList = Nat.toDigits 10 m from String.toList_ofList, h]
    exact String.toList_ofList
  have hback (k : ℕ) : Nat.ofDigitChars 10 (Nat.toDigits 10 k) 0 = k :=
    Nat.ofDigitChars_toDigits (by decide) (by decide)
  rw [← hback m, hdigits, hback]

theorem rowSegments_inj {r r' : Option ℕ} (h : rowSegments r = rowSegments r') : r = r' := by
  cases r with
  | none =>
      cases r' with
      | none => rfl
      | some r' => cases h
  | some r =>
      cases r' with
      | none => cases h
      | some r' => rw [toString_inj (List.cons.inj h).1]

theorem segments_callId (p : JobPlan) :
    segments p.callId = segments p.callPrefix ++ rowSegments p.callRow := by
  rw [JobPlan.callId]
  cases p.callRow with
  | none => exact (List.append_nil _).symm
  | some r =>
      dsimp only
      rw [segments_slash, segments_of_notMem (digits_notMem (by decide) r)]
      rfl

theorem planOne_call {crates : Crates E} {cid callPrefix : String} {j : JobTpl E} {props : Node}
    {dest : Dest} {row : Option ℕ} {src : PlanSrc} {snapshot : Option Node} {p : JobPlan}
    (h : planOne crates cid callPrefix j props dest row src snapshot = .ok p) :
    segments p.callId = segments callPrefix ++ rowSegments row := by
  obtain ⟨projected, -, h⟩ := bind_eq_ok.mp h
  cases h
  exact segments_callId _

/-! ### The instances of a component's children -/

/-- The instance of the `i`-th child: its id and its ordinal among those of this id. -/
def instanceName (children : List ChildRecord) (ch : ChildRecord × ℕ) : String :=
  ch.1.id ++ "_" ++ toString ((children.take ch.2).countP (·.id == ch.1.id) + 1)

theorem numbered_inj {a b : String} {m n : ℕ}
    (h : a ++ "_" ++ toString m = b ++ "_" ++ toString n) : a = b ∧ m = n := by
  have hsplit (c : String) (k : ℕ) : (c ++ "_" ++ toString k).toList.splitOn '_' =
      c.toList.splitOn '_' ++ [(toString k).toList] := by
    rw [String.toList_append, String.toList_append, List.append_assoc]
    have hdigits : (toString k).toList.splitOn '_' = [(toString k).toList] :=
      List.splitOnP_eq_singleton fun d hd => beq_eq_false_iff_ne.mpr fun he =>
        digits_notMem (by decide) k (he ▸ hd)
    rw [← hdigits]
    exact List.splitOnP_append_cons _ _ (beq_self_eq_true '_')
  have hmn : m = n := by
    have := congrArg (fun s : String => s.toList.splitOn '_') h
    simp only [hsplit] at this
    exact toString_inj (List.cons.inj (List.append_inj_right' this rfl)).1
  subst hmn
  have hchars := congrArg String.toList h
  simp only [String.toList_append, List.append_assoc] at hchars
  exact ⟨String.toList_inj.mp (List.append_cancel_right hchars), rfl⟩

/-- The ordinals tell the children of one id apart. -/
theorem instanceName_inj {children : List ChildRecord} {ch ch' : ChildRecord × ℕ}
    (h : ch ∈ children.zipIdx) (h' : ch' ∈ children.zipIdx)
    (he : instanceName children ch = instanceName children ch') : ch.2 = ch'.2 := by
  obtain ⟨hid, hk⟩ := numbered_inj he
  rw [hid, Nat.add_right_cancel_iff] at hk
  -- the earlier child is counted before the later one
  have hlt : ∀ {i j : ℕ} {c : ChildRecord}, i < j → children[i]? = some c →
      (children.take i).countP (·.id == c.id) < (children.take j).countP (·.id == c.id) := by
    intro i j c hij hc
    have hi : children.take (i + 1) = children.take i ++ [c] := by
      rw [List.take_add_one, hc]
      rfl
    have hcount : (children.take (i + 1)).countP (·.id == c.id) =
        (children.take i).countP (·.id == c.id) + 1 := by
      rw [hi, List.countP_append, List.countP_singleton, if_pos (beq_self_eq_true c.id)]
    refine Nat.lt_of_lt_of_le (Nat.lt_of_lt_of_eq (Nat.lt_succ_self _) hcount.symm) ?_
    exact (List.take_prefix_take_left hij).sublist.countP_le
  have hget := List.mem_zipIdx_iff_getElem?.mp h
  have hget' := List.mem_zipIdx_iff_getElem?.mp h'
  rcases lt_trichotomy ch.2 ch'.2 with hij | hij | hij
  · have := hlt hij hget
    rw [hid] at this
    omega
  · exact hij
  · have := hlt hij hget'
    omega

/-! ### The calls of a component -/

/-- What the calls of a component are named by: its jobs, and the instances of its children with
theirs. -/
structure Shaped (c : CompTpl E) (jobs : List String) (children : List (String × List String)) :
    Prop where
  prefixes : c.callPrefixes = jobs.map fun j => c.id ++ "/" ++ j
  child_prefixes : c.children.map (·.callPrefixes) =
    children.map fun ch => ch.2.map fun j => c.id ++ "/" ++ ch.1 ++ "/" ++ j
  slots : c.children.map (·.slot) = children.map fun ch => "__" ++ ch.1
  id : '/' ∉ c.id.toList
  job : ∀ j ∈ jobs, '/' ∉ j.toList
  distinct : jobs.Nodup
  child : ∀ ch ∈ children, '/' ∉ ch.1.toList ∧ (∀ j ∈ ch.2, '/' ∉ j.toList) ∧ ch.2.Nodup
  instances : (children.map (·.1)).Nodup
  apart : ∀ j ∈ jobs, ∀ ch ∈ children, j ≠ ch.1

section

variable {crates : Crates E} {idx : PlanIndex E} {c : CompTpl E} {jobs : List String}
  {children : List (String × List String)} {ctx : Node} {snapshot : Option Node}

theorem nodup_zipIdx {α : Type} (l : List α) : l.zipIdx.Nodup := by
  refine List.Nodup.of_map Prod.snd ?_
  rw [List.zipIdx_map_snd]
  exact List.nodup_range'

theorem nodup_rows (n : ℕ) : ((List.range n).map some).Nodup :=
  List.nodup_range.map (Option.some_injective _)

theorem nodup_ownRows (j : JobTpl E) (ctx : Node) : (ownRows j ctx).Nodup := by
  rw [ownRows]
  cases j.perInstance with
  | none => exact List.nodup_singleton _
  | some list => exact nodup_rows _

theorem nodup_childRows (ch : ChildTpl E) (ctx : Node) : (childRows ch ctx).Nodup := by
  rw [childRows]
  cases ch.rows with
  | none => exact List.nodup_singleton _
  | some list => exact nodup_rows _

/-- Of one job the rows tell the calls apart. -/
theorem row_of_callId {p p' : JobPlan} {l : List (List Char)} {row row' : Option ℕ}
    (h : segments p.callId = l ++ rowSegments row) (h' : segments p'.callId = l ++ rowSegments row')
    (he : p.callId = p'.callId) : row = row' := by
  rw [he, h'] at h
  exact rowSegments_inj (List.append_cancel_left h).symm

theorem own_segments (hs : Shaped c jobs children) {j : (JobTpl E × String) × ℕ}
    (hj : j ∈ (c.jobs.zip c.callPrefixes).zipIdx) :
    ∃ job, jobs[j.2]? = some job ∧ segments j.1.2 = [c.id.toList, job.toList] := by
  have hget := (getElem?_of_mem_zip_zipIdx hj).2
  rw [hs.prefixes, List.getElem?_map, Option.map_eq_some_iff] at hget
  obtain ⟨job, hjob, he⟩ := hget
  refine ⟨job, hjob, ?_⟩
  rw [← he, segments_slash, segments_of_notMem hs.id,
    segments_of_notMem (hs.job job (List.mem_of_getElem? hjob))]
  rfl

/-- Equal entries of a list without repetitions stand at one place. -/
theorem eq_of_getElem? {α : Type} {l : List α} (h : l.Nodup) {i j : ℕ} {a : α}
    (hi : l[i]? = some a) (hj : l[j]? = some a) : i = j := by
  obtain ⟨hlt, hi⟩ := List.getElem?_eq_some_iff.mp hi
  obtain ⟨hlt', hj⟩ := List.getElem?_eq_some_iff.mp hj
  exact (List.Nodup.getElem_inj_iff h).mp (hi.trans hj.symm)

theorem mem_zipIdx_ext {α : Type} {l : List α} {x y : α × ℕ} (hx : x ∈ l.zipIdx) (hy : y ∈ l.zipIdx)
    (h : x.2 = y.2) : x = y := by
  have hx := List.mem_zipIdx_iff_getElem?.mp hx
  have hy := List.mem_zipIdx_iff_getElem?.mp hy
  rw [h, hy] at hx
  exact Prod.ext (Option.some.inj hx).symm h

/-- A chain component's own calls. -/
theorem ownPlans_callIds (hs : Shaped c jobs children) {ci : ℕ} {plans : List JobPlan}
    (h : ownPlans crates c ci ctx snapshot = .ok plans) :
    (plans.map (·.callId)).Nodup ∧ ∀ p ∈ plans, ∃ job ∈ jobs, ∃ row,
      segments p.callId = [c.id.toList, job.toList] ++ rowSegments row := by
  obtain ⟨perJob, hperJob, h⟩ := bind_eq_ok.mp h
  cases h
  have hplan : ∀ j ∈ (c.jobs.zip c.callPrefixes).zipIdx, ∀ ys,
      (ownRows j.1.1 ctx).mapM (fun row => planOne crates c.id j.1.2 j.1.1 ctx (.chain c.id row) row
        ⟨UInt32.ofNat ci, UInt32.ofNat j.2, none⟩ snapshot) = .ok ys → ∀ p ∈ ys, ∃ row,
      segments p.callId = segments j.1.2 ++ rowSegments row := fun j _ ys hys p hp => by
    obtain ⟨row, -, hplan⟩ := mem_of_mapM_ok hys hp
    exact ⟨row, planOne_call hplan⟩
  constructor
  · refine nodup_flatten_of_mapM_ok (nodup_zipIdx _) hperJob (fun j _ ys hys => ?_)
      fun j hj j' hj' ys ys' hys hys' p hp p' hp' he => ?_
    · exact nodup_of_mapM_ok (nodup_ownRows _ _) hys fun row _ row' _ p p' hp hp' he =>
        row_of_callId (planOne_call hp) (planOne_call hp') he
    · obtain ⟨row, hrow⟩ := hplan j hj ys hys p hp
      obtain ⟨row', hrow'⟩ := hplan j' hj' ys' hys' p' hp'
      obtain ⟨job, hjob, hseg⟩ := own_segments hs hj
      obtain ⟨job', hjob', hseg'⟩ := own_segments hs hj'
      rw [he, hrow', hseg, hseg'] at hrow
      have hname := String.toList_inj.mp (List.cons.inj (List.cons.inj hrow).2).1
      exact mem_zipIdx_ext hj hj' (eq_of_getElem? hs.distinct hjob (hname ▸ hjob'))
  · intro p hp
    obtain ⟨ys, hys, hp⟩ := List.mem_flatten.mp hp
    obtain ⟨j, hj, hrows⟩ := mem_of_mapM_ok hperJob hys
    obtain ⟨job, hjob, hseg⟩ := own_segments hs hj
    obtain ⟨row, hrow⟩ := hplan j hj ys hrows p hp
    exact ⟨job, List.mem_of_getElem? hjob, row, by rw [hrow, hseg]⟩

theorem child_segments (hs : Shaped c jobs children) {ch : ChildTpl E} {i : ℕ}
    (hch : c.children[i]? = some ch) : ∃ inst jobs', children[i]? = some (inst, jobs') ∧
      jobs'.Nodup ∧ ∀ (k : ℕ) pre, ch.callPrefixes[k]? = some pre → ∃ job : String,
        jobs'[k]? = some job ∧ segments pre = [c.id.toList, inst.toList, job.toList] := by
  have hget := congrArg (·[i]?) hs.child_prefixes
  simp only [List.getElem?_map, hch, Option.map_some] at hget
  obtain ⟨⟨inst, jobs'⟩, hi, he⟩ := Option.map_eq_some_iff.mp hget.symm
  obtain ⟨hinst, hslash, hnodup⟩ := hs.child _ (List.mem_of_getElem? hi)
  refine ⟨inst, jobs', hi, hnodup, fun k pre hk => ?_⟩
  rw [← he, List.getElem?_map, Option.map_eq_some_iff] at hk
  obtain ⟨job, hjob, rfl⟩ := hk
  refine ⟨job, hjob, ?_⟩
  rw [segments_slash, segments_slash, segments_of_notMem hs.id, segments_of_notMem hinst,
    segments_of_notMem (hslash job (List.mem_of_getElem? hjob))]
  rfl

/-- The calls of one child of a chain component. -/
theorem childPlans_callIds (hs : Shaped c jobs children) {ci : ℕ} {ch : ChildTpl E × ℕ}
    (hch : ch ∈ c.children.zipIdx) {plans : List JobPlan}
    (h : childPlans crates idx c ci ctx snapshot ch = .ok plans) :
    (plans.map (·.callId)).Nodup ∧ ∀ p ∈ plans, ∃ inst jobs', children[ch.2]? = some (inst, jobs') ∧
      ∃ job row, segments p.callId = [c.id.toList, inst.toList, job] ++ rowSegments row := by
  obtain ⟨inst, jobs', hinst, hnodup, hpre⟩ :=
    child_segments hs (List.mem_zipIdx_iff_getElem?.mp hch)
  rw [childPlans] at h
  cases hchild : idx.comps[ch.1.child]? with
  | none =>
      rw [hchild] at h
      cases h
  | some child =>
      rw [hchild] at h
      dsimp only at h
      split at h
      · cases h
        exact ⟨List.nodup_nil, fun _ hp => by cases hp⟩
      obtain ⟨perRow, hperRow, h⟩ := bind_eq_ok.mp h
      cases h
      -- the calls of one row
      have hrow : ∀ row ys, instancePlans crates c ci ch.2 ch.1 child ctx snapshot row = .ok ys →
          (ys.map (·.callId)).Nodup ∧ ∀ p ∈ ys, ∃ job,
            segments p.callId = [c.id.toList, inst.toList, job] ++ rowSegments row := by
        intro row ys hys
        rw [instancePlans] at hys
        split at hys
        · cases hys
          exact ⟨List.nodup_nil, fun _ hp => by cases hp⟩
        obtain ⟨props, -, hys⟩ := bind_eq_ok.mp hys
        constructor
        · refine nodup_of_mapM_ok (nodup_zipIdx _) hys fun j hj j' hj' p p' hp hp' he => ?_
          obtain ⟨job, hjob, hseg⟩ := hpre _ _ (getElem?_of_mem_zip_zipIdx hj).2
          obtain ⟨job', hjob', hseg'⟩ := hpre _ _ (getElem?_of_mem_zip_zipIdx hj').2
          have hcall := planOne_call hp
          rw [he, planOne_call hp', hseg, hseg'] at hcall
          have hname := String.toList_inj.mp
            (List.cons.inj (List.cons.inj (List.cons.inj hcall).2).2).1
          exact mem_zipIdx_ext hj hj' (eq_of_getElem? hnodup hjob (hname ▸ hjob'))
        · intro p hp
          obtain ⟨j, hj, hplan⟩ := mem_of_mapM_ok hys hp
          obtain ⟨job, -, hseg⟩ := hpre _ _ (getElem?_of_mem_zip_zipIdx hj).2
          exact ⟨job.toList, by rw [planOne_call hplan, hseg]⟩
      constructor
      · refine nodup_flatten_of_mapM_ok (nodup_childRows _ _) hperRow
          (fun row _ ys hys => (hrow row ys hys).1)
          fun row _ row' _ ys ys' hys hys' p hp p' hp' he => ?_
        obtain ⟨job, hseg⟩ := (hrow row ys hys).2 p hp
        obtain ⟨job', hseg'⟩ := (hrow row' ys' hys').2 p' hp'
        rw [he, hseg'] at hseg
        have htail := (List.cons.inj (List.cons.inj (List.cons.inj hseg).2).2).2
        exact (rowSegments_inj htail).symm
      · intro p hp
        obtain ⟨ys, hys, hp⟩ := List.mem_flatten.mp hp
        obtain ⟨row, -, hplans⟩ := mem_of_mapM_ok hperRow hys
        obtain ⟨job, hseg⟩ := (hrow row ys hplans).2 p hp
        exact ⟨inst, jobs', hinst, job, row, hseg⟩

/-- A chain component's calls: its own and its children's. -/
theorem calls_callIds (hs : Shaped c jobs children) {ci : ℕ} {own : List JobPlan}
    {inlined : List (List JobPlan)} (hown : ownPlans crates c ci ctx snapshot = .ok own)
    (hinlined : c.children.zipIdx.mapM (childPlans crates idx c ci ctx snapshot) = .ok inlined) :
    ((own ++ inlined.flatten).map (·.callId)).Nodup ∧
      ∀ p ∈ own ++ inlined.flatten, (segments p.callId).head? = some c.id.toList := by
  obtain ⟨hownNodup, hownSeg⟩ := ownPlans_callIds hs hown
  have hinlinedSeg : ∀ p ∈ inlined.flatten, ∃ ch ∈ children, ∃ job row,
      segments p.callId = [c.id.toList, ch.1.toList, job] ++ rowSegments row := fun p hp => by
    obtain ⟨ps, hps, hp⟩ := List.mem_flatten.mp hp
    obtain ⟨ch, hch, hplans⟩ := mem_of_mapM_ok hinlined hps
    obtain ⟨inst, jobs', hinst, job, row, hseg⟩ := (childPlans_callIds hs hch hplans).2 p hp
    exact ⟨_, List.mem_of_getElem? hinst, job, row, hseg⟩
  constructor
  · rw [List.map_append, List.nodup_append]
    refine ⟨hownNodup, nodup_flatten_of_mapM_ok (nodup_zipIdx _) hinlined
      (fun ch hch ys hys => (childPlans_callIds hs hch hys).1)
      fun ch hch ch' hch' ys ys' hys hys' p hp p' hp' he => ?_, ?_⟩
    · obtain ⟨inst, jobs', hinst, job, row, hseg⟩ := (childPlans_callIds hs hch hys).2 p hp
      obtain ⟨inst', jobs'', hinst', job', row', hseg'⟩ :=
        (childPlans_callIds hs hch' hys').2 p' hp'
      rw [he, hseg'] at hseg
      have hname := String.toList_inj.mp (List.cons.inj (List.cons.inj hseg).2).1
      refine mem_zipIdx_ext hch hch' (eq_of_getElem? hs.instances (a := inst) ?_ ?_)
      · rw [List.getElem?_map, hinst]
        rfl
      · rw [List.getElem?_map, hinst', ← hname]
        rfl
    · rintro a ha b hb rfl
      -- the second segment is a job's name, or an instance's
      obtain ⟨p, hp, rfl⟩ := List.mem_map.mp ha
      obtain ⟨p', hp', he⟩ := List.mem_map.mp hb
      obtain ⟨job, hjob, row, hseg⟩ := hownSeg p hp
      obtain ⟨ch, hch, job', row', hseg'⟩ := hinlinedSeg p' hp'
      rw [← he, hseg'] at hseg
      exact hs.apart job hjob ch hch
        (String.toList_inj.mp (List.cons.inj (List.cons.inj hseg).2).1).symm
  · intro p hp
    rcases List.mem_append.mp hp with hp | hp
    · obtain ⟨job, -, row, hseg⟩ := hownSeg p hp
      rw [hseg]
      rfl
    · obtain ⟨ch, -, job, row, hseg⟩ := hinlinedSeg p hp
      rw [hseg]
      rfl

end

/-! ### The calls of a request -/

/-- The names of a manifest: ids have no `/`, the jobs of one component differ, and none is named
as an instance of a child beside it. -/
structure Manifest.Named (m : Manifest) : Prop where
  component : ∀ c ∈ m.components, '/' ∉ c.1.toList
  job : ∀ c ∈ m.components, ∀ j ∈ c.2.jobs, '/' ∉ j.id.toList
  distinct : ∀ c ∈ m.components, (c.2.jobs.map (·.id)).Nodup
  apart : ∀ c ∈ m.components, ∀ j ∈ c.2.jobs, ∀ ch ∈ c.2.children, ∀ k : ℕ,
    j.id ≠ ch.id ++ "_" ++ toString k

section

variable {crates : Crates E} {m : Manifest}

/-- An id of the manifest and the component it stands for. -/
theorem getElem?_of_byId {id : String} {i : ℕ} (h : m.byId.lookup id = some i) :
    ∃ r, m.components[i]? = some (id, r) := by
  obtain ⟨c, hc, he⟩ := List.mem_map.mp (SortedMap.mem_of_lookup h)
  obtain ⟨rfl, rfl⟩ := Prod.mk.inj he
  exact ⟨c.1.2, List.mem_zipIdx_iff_getElem?.mp hc⟩

theorem childTpl_cases {id : String} {children : List ChildRecord} {ch : ChildRecord × ℕ}
    {t : ChildTpl E} (h : childTpl crates m id children ch = .ok t) :
    ∃ child rows props when, t =
      { child, rows, props, when
        slot := "__" ++ ch.1.id ++ "_" ++
          toString ((children.take ch.2).countP (·.id == ch.1.id) + 1)
        callPrefixes := (((m.components.lookup ch.1.id).map (·.jobs)).getD []).map fun j =>
          id ++ "/" ++ ch.1.id ++ "_" ++
            toString ((children.take ch.2).countP (·.id == ch.1.id) + 1) ++ "/" ++ j.id } := by
  cases hl : m.byId.lookup ch.1.id with
  | none =>
      simp only [childTpl, hl] at h
      cases h
  | some i =>
      cases hi : ch.1.instances with
      | static | perRowLiteral =>
          simp only [childTpl, hl, hi, pure_bind] at h
          obtain ⟨props, -, h⟩ := bind_eq_ok.mp h
          obtain ⟨when, -, h⟩ := bind_eq_ok.mp h
          exact ⟨_, _, props, when, (Except.ok.inj h).symm⟩
      | perRow list =>
          simp only [childTpl, hl, hi, pure_bind] at h
          obtain ⟨path, -, h⟩ := bind_eq_ok.mp h
          obtain ⟨props, -, h⟩ := bind_eq_ok.mp h
          obtain ⟨when, -, h⟩ := bind_eq_ok.mp h
          exact ⟨_, _, props, when, (Except.ok.inj h).symm⟩

/-- A child's template: the instance of its record, and the jobs of its component. -/
theorem childTpl_spec (hm : m.Named) {id : String} {children : List ChildRecord}
    {ch : ChildRecord × ℕ} {t : ChildTpl E} (h : childTpl crates m id children ch = .ok t) :
    t.slot = "__" ++ instanceName children ch ∧ '/' ∉ ch.1.id.toList ∧
      ∃ jobs : List String, t.callPrefixes = jobs.map (fun j =>
          id ++ "/" ++ instanceName children ch ++ "/" ++ j) ∧
        (∀ j ∈ jobs, '/' ∉ j.toList) ∧ jobs.Nodup := by
  have hid : '/' ∉ ch.1.id.toList := by
    cases hl : m.byId.lookup ch.1.id with
    | none =>
        simp only [childTpl, hl] at h
        cases h
    | some i =>
        obtain ⟨r, hr⟩ := getElem?_of_byId hl
        exact hm.component _ (List.mem_of_getElem? hr)
  obtain ⟨child, rows, props, when, rfl⟩ := childTpl_cases h
  refine ⟨by simp only [instanceName, String.append_assoc], hid,
    (((m.components.lookup ch.1.id).map (·.jobs)).getD []).map (·.id), ?_, ?_⟩
  · rw [List.map_map]
    refine List.map_congr_left fun j _ => ?_
    simp only [Function.comp_apply, instanceName, String.append_assoc]
  · cases hr : m.components.lookup ch.1.id with
    | none => exact ⟨fun _ hj => (by cases hj), List.nodup_nil⟩
    | some r =>
        have hmem := SortedMap.mem_of_lookup hr
        refine ⟨fun j hj => ?_, hm.distinct _ hmem⟩
        obtain ⟨rec, hrec, rfl⟩ := List.mem_map.mp hj
        exact hm.job _ hmem rec hrec

/-- The names of the calls of a component's children. -/
theorem names_of_childTpls (hm : m.Named) {id : String} {records : List ChildRecord}
    {l : List (ChildRecord × ℕ)} {children : List (ChildTpl E)}
    (h : List.Forall₂ (fun ch t => childTpl crates m id records ch = .ok t) l children) :
    ∃ names : List (String × List String),
      List.Forall₂ (fun (ch : ChildRecord × ℕ) n => n.1 = instanceName records ch ∧
        '/' ∉ ch.1.id.toList ∧ (∀ j ∈ n.2, '/' ∉ j.toList) ∧ n.2.Nodup) l names ∧
      List.Forall₂ (fun (t : ChildTpl E) n => t.slot = "__" ++ n.1 ∧
        t.callPrefixes = n.2.map fun j => id ++ "/" ++ n.1 ++ "/" ++ j) children names := by
  induction h with
  | nil => exact ⟨[], .nil, .nil⟩
  | cons hx _ ih =>
      obtain ⟨names, hleft, hright⟩ := ih
      obtain ⟨hslot, hid, jobs, hpre, hjobs, hnodup⟩ := childTpl_spec hm hx
      exact ⟨(_, jobs) :: names, .cons ⟨rfl, hid, hjobs, hnodup⟩ hleft,
        .cons ⟨hslot, hpre⟩ hright⟩

theorem shaped_of_compTpl (hm : m.Named) {c : String × ComponentRecord} (hc : c ∈ m.components)
    {t : CompTpl E} (h : compTpl crates m c = .ok t) :
    t.id = c.1 ∧ ∃ jobs children, Shaped t jobs children := by
  obtain ⟨jobs, -, h⟩ := bind_eq_ok.mp h
  obtain ⟨children, hchildren, h⟩ := bind_eq_ok.mp h
  cases h
  refine ⟨rfl, c.2.jobs.map (·.id), ?_⟩
  obtain ⟨names, hleft, hright⟩ := names_of_childTpls hm (forall₂_of_mapM_ok hchildren)
  have hinst : ∀ (i : ℕ) (n : String × List String), names[i]? = some n →
      ∃ ch, c.2.children.zipIdx[i]? = some ch ∧ n.1 = instanceName c.2.children ch ∧
      '/' ∉ ch.1.id.toList ∧ (∀ j ∈ n.2, '/' ∉ j.toList) ∧
      n.2.Nodup := fun i n hn => by
    obtain ⟨hlt, rfl⟩ := List.getElem?_eq_some_iff.mp hn
    have hlt' : i < c.2.children.zipIdx.length := hleft.length_eq ▸ hlt
    exact ⟨_, List.getElem?_eq_getElem hlt', (List.forall₂_iff_get.mp hleft).2 i hlt' hlt⟩
  refine ⟨names, ?_⟩
  constructor
  case prefixes => rw [List.map_map]; rfl
  case child_prefixes =>
      refine List.ext_get (by simp [hright.length_eq]) fun i h₁ h₂ => ?_
      simp only [List.length_map] at h₁ h₂
      simpa using ((List.forall₂_iff_get.mp hright).2 i h₁ h₂).2
  case slots =>
      refine List.ext_get (by simp [hright.length_eq]) fun i h₁ h₂ => ?_
      simp only [List.length_map] at h₁ h₂
      simpa using ((List.forall₂_iff_get.mp hright).2 i h₁ h₂).1
  case id => exact hm.component c hc
  case job =>
      intro j hj
      obtain ⟨rec, hrec, rfl⟩ := List.mem_map.mp hj
      exact hm.job c hc rec hrec
  case distinct => exact hm.distinct c hc
  case child =>
      intro n hn
      obtain ⟨i, hi⟩ := List.getElem?_of_mem hn
      obtain ⟨ch, -, hname, hid, hjobs, hnodup⟩ := hinst i n hi
      refine ⟨?_, hjobs, hnodup⟩
      rw [hname, instanceName]
      simp only [String.toList_append, List.mem_append, not_or]
      exact ⟨⟨hid, by decide⟩, digits_notMem (by decide) _⟩
  case instances =>
      rw [List.nodup_iff_getElem?_ne_getElem?]
      intro i j hij hj he
      rw [List.length_map] at hj
      have hi : i < names.length := hij.trans hj
      rw [List.getElem?_map, List.getElem?_map, List.getElem?_eq_getElem hi,
        List.getElem?_eq_getElem hj] at he
      obtain ⟨ch, hch, hname, -⟩ := hinst i _ (List.getElem?_eq_getElem hi)
      obtain ⟨ch', hch', hname', -⟩ := hinst j _ (List.getElem?_eq_getElem hj)
      have heq := instanceName_inj (List.mem_of_getElem? hch) (List.mem_of_getElem? hch')
        (hname.symm.trans ((Option.some.inj he).trans hname'))
      rw [List.getElem?_zipIdx, Option.map_eq_some_iff] at hch hch'
      obtain ⟨a, -, rfl⟩ := hch
      obtain ⟨b, -, rfl⟩ := hch'
      exact absurd heq (by simpa using hij.ne)
  case apart =>
      intro j hj n hn
      obtain ⟨rec, hrec, rfl⟩ := List.mem_map.mp hj
      obtain ⟨i, hi⟩ := List.getElem?_of_mem hn
      obtain ⟨ch, hch, hname, -⟩ := hinst i n hi
      rw [hname]
      exact hm.apart c hc rec hrec ch.1 (List.fst_mem_of_mem_zipIdx (List.mem_of_getElem? hch)) _

/-- The component that an id of the chain stands for. -/
theorem shaped_of_byId (hm : m.Named) {idx : PlanIndex E} (hidx : PlanIndex.new crates m = .ok idx)
    {id : String} {i : ℕ} {c : CompTpl E} (hi : idx.byId.lookup id = some i)
    (hc : idx.comps[i]? = some c) : c.id = id ∧ ∃ jobs children, Shaped c jobs children := by
  obtain ⟨comps, hcomps, hidx⟩ := bind_eq_ok.mp hidx
  cases hidx
  obtain ⟨r, hr⟩ := getElem?_of_byId hi
  obtain ⟨hlt, rfl⟩ := List.getElem?_eq_some_iff.mp hc
  have hlt' : i < m.components.length := length_of_mapM_ok hcomps ▸ hlt
  have hcomp := (List.forall₂_iff_get.mp (forall₂_of_mapM_ok hcomps)).2 i hlt' hlt
  obtain ⟨hid, hshaped⟩ := shaped_of_compTpl hm (List.get_mem _ _) hcomp
  rw [List.getElem?_eq_getElem hlt', Option.some.injEq] at hr
  refine ⟨hid.trans ?_, hshaped⟩
  rw [List.get_eq_getElem]
  exact congrArg Prod.fst hr

theorem compPlans_callIds (hm : m.Named) {idx : PlanIndex E}
    (hidx : PlanIndex.new crates m = .ok idx) {ctx : Node} {snapshot : Option Node} {id : String}
    {plans : List JobPlan} (h : compPlans crates idx ctx snapshot id = .ok plans) :
    (plans.map (·.callId)).Nodup ∧
      ∀ p ∈ plans, (segments p.callId).head? = some id.toList := by
  rw [compPlans] at h
  cases hi : idx.byId.lookup id with
  | none =>
      rw [hi] at h
      cases h
  | some i =>
      rw [hi] at h
      dsimp only at h
      cases hc : idx.comps[i]? with
      | none =>
          rw [hc] at h
          cases h
      | some c =>
          rw [hc] at h
          obtain ⟨own, hown, h⟩ := bind_eq_ok.mp h
          obtain ⟨inlined, hinlined, h⟩ := bind_eq_ok.mp h
          cases h
          obtain ⟨rfl, jobs, children, hs⟩ := shaped_of_byId hm hidx hi hc
          exact calls_callIds hs hown hinlined

/-- The slots of one component's children. -/
theorem slots_nodup {c : CompTpl E} {jobs : List String} {children : List (String × List String)}
    (hs : Shaped c jobs children) : (c.children.map (·.slot)).Nodup := by
  have hmap : c.children.map (·.slot) = (children.map (·.1)).map ("__" ++ ·) := by
    rw [hs.slots, List.map_map]
    rfl
  rw [hmap]
  refine hs.instances.map fun a b he => ?_
  have hchars := congrArg String.toList he
  simp only [String.toList_append] at hchars
  exact String.toList_inj.mp (List.append_cancel_left hchars)

end

/-- **Distinct results.** The calls that a request makes for the jobs of its chain have distinct
ids, whatever the page's context, and the children of one component have distinct slots. -/
theorem call_ids_distinct {crates : Crates E} {m : Manifest} (hm : m.Named) {idx : PlanIndex E}
    (hidx : PlanIndex.new crates m = .ok idx) :
    (∀ (chain : List String) (ctx : Node) (plans : List JobPlan), chain.Nodup →
      collectJobs crates idx chain ctx = .ok plans → (plans.map (·.callId)).Nodup) ∧
    ∀ c ∈ idx.comps, (c.children.map (·.slot)).Nodup := by
  constructor
  · intro chain ctx plans hchain h
    obtain ⟨perComp, hperComp, h⟩ := bind_eq_ok.mp h
    cases h
    refine nodup_flatten_of_mapM_ok hchain hperComp
      (fun id _ ys hys => (compPlans_callIds hm hidx hys).1)
      fun id _ id' _ ys ys' hys hys' p hp p' hp' he => ?_
    -- the first segment is the chain component's
    have hhead := (compPlans_callIds hm hidx hys).2 p hp
    rw [he, (compPlans_callIds hm hidx hys').2 p' hp'] at hhead
    exact String.toList_inj.mp (Option.some.inj hhead).symm
  · intro c hc
    obtain ⟨comps, hcomps, hidx⟩ := bind_eq_ok.mp hidx
    cases hidx
    obtain ⟨record, hrecord, hcomp⟩ := mem_of_mapM_ok hcomps hc
    obtain ⟨-, jobs, children, hs⟩ := shaped_of_compTpl hm hrecord hcomp
    exact slots_nodup hs

/-- A layout and a page, whose card stands once by itself and once for each of two rows. -/
def cardsSite : Manifest :=
  let job (id : String) : JobRecord := { cardJob id with inputs := [] }
  let card (instances : Instances) : ChildRecord :=
    { id := "card", instances, props := [], literals := ([] : MapInner), exprs := []
      rows := some (.arr [.null, .null]), when := none }
  ⟨[("layout", ⟨[job "a"], []⟩),
    ("page", ⟨[job "a", job "b"], [card .static, card .perRowLiteral]⟩),
    ("card", ⟨[job "a"], []⟩)]⟩

theorem cardsSite_named : cardsSite.Named where
  component := by decide
  job := by decide
  distinct := by decide
  apart c hc j hj ch hch k he := by
    have hall : ∀ c ∈ cardsSite.components, (∀ j ∈ c.2.jobs, j.id.length = 1) ∧
        ∀ ch ∈ c.2.children, ch.id.length = 4 := by decide
    have hlen := congrArg String.length he
    rw [String.length_append, String.length_append, (hall c hc).1 j hj, (hall c hc).2 ch hch]
      at hlen
    omega

theorem call_ids_distinct_card :
    ∃ idx plans, PlanIndex.new cardCrates cardsSite = .ok idx ∧
      collectJobs cardCrates idx ["layout", "page"] (.map [] none) = .ok plans ∧
      plans.map (·.callId) = ["layout/a", "page/a", "page/b", "page/card_1/a", "page/card_2/a/0",
        "page/card_2/a/1"] ∧
      (plans.map (·.callId)).Nodup ∧ ∀ c ∈ idx.comps, (c.children.map (·.slot)).Nodup := by
  have h := fun idx => @call_ids_distinct _ cardCrates _ cardsSite_named idx
  exact ⟨_, _, rfl, rfl, rfl, (h _ rfl).1 ["layout", "page"] _ _ (by decide) rfl, (h _ rfl).2⟩

end Brust.Plan
