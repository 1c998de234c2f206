import Mathlib.Data.List.Dedup
import Mathlib.Data.String.Basic
import Brust.Compiler.Reach

/-!
# Compiler — Initialisers

In each artifact the names that an initialiser reads when it is evaluated are declared earlier,
where the reads of the component are `Settled` (`consts_declared`); a default that reads a later
prop, a knot, a handler, and a hook's location each break it (`consts_not_declared`).
-/

namespace Brust.Compiler

namespace ComponentIR

variable {F : Type} {ir : ComponentIR F} {made : String → String → Prop}

/-! ### What the printed names are -/

theorem codeIn_subset {name name' : String → IdentKind → Option String} (e : RawExpr F)
    (h : ∀ n k x, name n k = some x → name' n k = some x) : codeIn name e ⊆ codeIn name' e := by
  intro x hx
  obtain ⟨⟨n, k⟩, hmem, hname⟩ := List.mem_filterMap.mp hx
  exact List.mem_filterMap.mpr ⟨(n, k), hmem, h n k x hname⟩

theorem sourceName_of_jobName {n x : String} {k : IdentKind} (h : ir.jobName n k = some x) :
    ir.sourceName n k = some x := by
  cases k <;> first | exact h | cases h

theorem sourceName_of_chunkName {n x : String} {k : IdentKind} (h : ir.chunkName n k = some x) :
    ir.sourceName n k = some x := by
  cases k with
  | store handle key =>
      cases key with
      | none => exact h
      | some key => cases h
  | _ => first | exact h | cases h

theorem eq_of_stateName {n x : String} (h : ir.stateName n = some x) :
    x ∈ ir.states.map StateDecl.name := by
  rw [stateName] at h
  split at h
  · cases h
    assumption
  · cases h

theorem eq_of_localName {n x : String} (h : ir.localName n = some x) : n = x ∧ x ∈ ir.locals := by
  rw [localName] at h
  split at h
  · cases h
    exact ⟨rfl, by assumption⟩
  · cases h

theorem eq_of_viewName {n x : String} (h : ir.viewName n = some x) :
    x ∈ ir.views.map Prod.snd := by
  rw [viewName] at h
  split at h
  · cases h
    assumption
  · cases h

theorem mem_of_setterOf {n x : String} (h : ir.setterOf n = some x) :
    x ∈ ir.states.map StateDecl.name := by
  obtain ⟨s, hs, rfl⟩ := Option.map_eq_some_iff.mp h
  exact List.mem_map_of_mem (List.mem_of_find?_eq_some hs)

theorem mem_of_propLocal {n x : String} (h : ir.propLocal n = some x) :
    ∃ p ∈ ir.props, p.name = n ∧ p.bound = x := by
  obtain ⟨p, hp, rfl⟩ := Option.map_eq_some_iff.mp h
  exact ⟨p, List.mem_of_find?_eq_some hp, by simpa using List.find?_some hp, rfl⟩

/-- What the source declares as one of them. -/
theorem isDerived_of_mem {x : String} (h : x ∈ ir.derived.map DerivedDecl.name) :
    ir.isDerived x = true := by
  obtain ⟨d, hd, rfl⟩ := List.mem_map.mp h
  exact isDerived_iff.mpr ⟨d, hd, rfl⟩

theorem not_mem_of_handler_or_derived {x : String}
    (h : x ∈ ir.handlers.map HandlerDecl.name ∨ ir.isDerived x = true) :
    ¬ (x ∈ ir.states.map StateDecl.name ∨ x ∈ ir.refs.map RefDecl.name ∨ x ∈ ir.idBindings ∨
      x ∈ ir.views.map Prod.snd) := by
  have hcount := List.nodup_iff_count_le_one.mp ir.distinct x
  simp only [List.count_append] at hcount
  have hone : 0 < (ir.handlers.map HandlerDecl.name).count x +
      (ir.derived.map DerivedDecl.name).count x := by
    rcases h with h | h
    · exact Nat.add_pos_left (List.count_pos_iff.mpr h) _
    · obtain ⟨d, hd, rfl⟩ := isDerived_iff.mp h
      exact Nat.add_pos_right _ (List.count_pos_iff.mpr (List.mem_map_of_mem hd))
  rintro (h | h | h | h) <;> have := List.count_pos_iff.mpr h <;> omega

theorem mem_localsIn {e : RawExpr F} {n : String} (h : (n, .localName) ∈ e.visitIdents) :
    n ∈ localsIn e := List.mem_filterMap.mpr ⟨(n, .localName), h, rfl⟩

/-- The names of the client: refs, handlers and `useId` values. -/
def clientNames (ir : ComponentIR F) : List String :=
  ir.refs.map RefDecl.name ++ ir.handlers.map HandlerDecl.name ++ ir.idBindings

theorem mem_locals {x : String} (h : x ∈ ir.locals) :
    x ∈ ir.derived.map DerivedDecl.name ∨ x ∈ ir.clientNames := by
  rw [locals, List.append_assoc, List.append_assoc, ← List.append_assoc (ir.refs.map _)] at h
  exact List.mem_append.mp h

/-! ### The source -/

theorem mem_source {c : Const} : c ∈ ir.source ↔
    (∃ p ∈ ir.props, ⟨p.bound, p.default.elim [] (codeIn ir.sourceName), false⟩ = c) ∨
    (∃ s ∈ ir.states, ⟨s.name, codeIn ir.sourceName (ir.stateInit s), false⟩ = c) ∨
    (∃ d ∈ ir.derived, ⟨d.name, codeIn ir.sourceName d.raw.expr, d.raw.expr.isFunctionRaw⟩ = c) ∨
    (∃ r ∈ ir.refs, ⟨r.name, codeIn ir.sourceName r.raw.expr, false⟩ = c) ∨
    (∃ h ∈ ir.handlers, ⟨h.name, codeIn ir.sourceName h.body, h.body.isFunctionRaw⟩ = c) ∨
    (∃ n ∈ ir.idBindings, ⟨n, [], false⟩ = c) ∨ ∃ v ∈ ir.views, ⟨v.2, [], false⟩ = c := by
  simp only [source, List.mem_append, List.mem_map, or_assoc]

theorem covers_state {s : StateDecl F} (hs : s ∈ ir.states) {code : List String}
    (hcode : code ⊆ codeIn ir.sourceName (ir.stateInit s)) (defers : Bool) :
    Covers ir.source ⟨s.name, code, defers⟩ :=
  ⟨_, mem_source.mpr (.inr (.inl ⟨s, hs, rfl⟩)), rfl, hcode, fun _ => rfl⟩

theorem covers_derived {d : DerivedDecl F} (hd : d ∈ ir.derived) {code : List String}
    (hcode : code ⊆ codeIn ir.sourceName d.raw.expr) {defers : Bool}
    (hdefers : defers = false → d.raw.expr.isFunctionRaw = false) :
    Covers ir.source ⟨d.name, code, defers⟩ :=
  ⟨_, mem_source.mpr (.inr (.inr (.inl ⟨d, hd, rfl⟩))), rfl, hcode, hdefers⟩

theorem covers_ref {r : RefDecl F} (hr : r ∈ ir.refs) {code : List String}
    (hcode : code ⊆ codeIn ir.sourceName r.raw.expr) (defers : Bool) :
    Covers ir.source ⟨r.name, code, defers⟩ :=
  ⟨_, mem_source.mpr (.inr (.inr (.inr (.inl ⟨r, hr, rfl⟩)))), rfl, hcode, fun _ => rfl⟩

/-! ### The precompute job -/

section Job

variable {slots : List (RawExpr F)}

theorem jobProps_perm (slots : List (RawExpr F)) :
    (ir.jobProps slots).Perm (ir.readProps slots) := by
  have hsplit := List.filter_append_perm (fun p : PropDecl F => p.name = "*") (ir.readProps slots)
  simp only [← decide_not] at hsplit
  exact ((List.perm_insertionSort _ _).append_left _).trans hsplit

/-- What one of the job's expressions reads: a prop that it destructures, a state, a derived value
that it declares, or a name of the client. -/
theorem job_reads {e : RawExpr F}
    (he : e ∈ slots ++ ir.inits ++ (ir.jobDerived slots).map fun d => d.raw.expr)
    (hlocal : ∀ n ∈ localsIn e, ir.isDerived n = true →
      n ∈ (ir.jobDerived slots).map DerivedDecl.name)
    {x : String} (hx : x ∈ codeIn ir.jobName e) :
    x ∈ (ir.jobProps slots).map PropDecl.bound ∨ x ∈ ir.states.map StateDecl.name ∨
      x ∈ (ir.jobDerived slots).map DerivedDecl.name ∨ x ∈ ir.clientNames := by
  obtain ⟨⟨n, k⟩, hmem, hname⟩ := List.mem_filterMap.mp hx
  cases k with
  | prop =>
      obtain ⟨p, hp, rfl, rfl⟩ := mem_of_propLocal hname
      refine .inl (List.mem_map_of_mem ?_)
      have hread : p ∈ ir.readProps slots := by
        refine List.mem_filter.mpr ⟨hp, List.contains_iff_mem.mpr ?_⟩
        exact List.mem_flatMap.mpr ⟨e, he, List.mem_filterMap.mpr ⟨(p.name, .prop), hmem, rfl⟩⟩
      exact (jobProps_perm slots).mem_iff.mpr hread
  | state => exact .inr (.inl (eq_of_stateName hname))
  | localName =>
      obtain ⟨rfl, hlocals⟩ := eq_of_localName hname
      rcases mem_locals hlocals with hd | hc
      · exact .inr (.inr (.inl (hlocal n (mem_localsIn hmem) (isDerived_of_mem hd))))
      · exact .inr (.inr (.inr hc))
  | _ => cases hname

theorem mem_reached {names : List String} {n : String} (hn : n ∈ names)
    (hd : ir.isDerived n = true) : n ∈ (ir.reached names).map DerivedDecl.name := by
  obtain ⟨d, hmem, rfl⟩ := isDerived_iff.mp hd
  exact List.mem_map_of_mem (List.mem_filter.mpr ⟨hmem, List.contains_iff_mem.mpr hn⟩)

theorem jobDerived_closed {e : RawExpr F}
    (he : e ∈ slots ++ ir.inits ++ (ir.jobDerived slots).map fun d => d.raw.expr) {n : String}
    (hn : n ∈ localsIn e) (hd : ir.isDerived n = true) :
    n ∈ (ir.jobDerived slots).map DerivedDecl.name := by
  refine mem_reached (List.mem_append_left _ ?_) hd
  rcases List.mem_append.mp he with he | he
  · exact mem_reach_of_root (List.mem_append_left _ he) hn hd
  · obtain ⟨d, hjob, rfl⟩ := List.mem_map.mp he
    obtain ⟨hder, hnames⟩ := List.mem_filter.mp hjob
    rcases List.mem_append.mp (List.contains_iff_mem.mp hnames) with hr | hr
    · exact mem_reach_of_reach hder hr hn hd
    · obtain ⟨d', hd', hname⟩ := List.mem_map.mp hr
      obtain rfl := List.inj_on_of_nodup_map ir.derived_nodup
        (List.mem_of_mem_filter hd') hder hname
      exact mem_reach_of_root (List.mem_append_right _ (List.mem_map_of_mem hd')) hn hd

/-- The declarations of the job's block, with the expressions that they print. -/
theorem mem_job_decls {d : Decl Const} (h : d ∈ (ir.job slots).decls) :
    d.item.name = d.name ∧
      (d.name ∈ ir.states.map StateDecl.name ∨
        d.name ∈ (ir.jobDerived slots).map DerivedDecl.name) ∧
      ∃ e ∈ slots ++ ir.inits ++ (ir.jobDerived slots).map fun d => d.raw.expr,
        d.item.code = codeIn ir.jobName e ∧ Covers ir.source d.item := by
  rcases List.mem_append.mp h with h | h
  · obtain ⟨s, hs, rfl⟩ := List.mem_map.mp h
    refine ⟨rfl, .inl (List.mem_map_of_mem hs), ir.stateInit s, ?_, rfl, ?_⟩
    · exact List.mem_append_left _ (List.mem_append_right _ (List.mem_map_of_mem hs))
    · exact covers_state hs (codeIn_subset _ fun _ _ _ => sourceName_of_jobName) false
  · obtain ⟨d, hd, rfl⟩ := List.mem_map.mp h
    refine ⟨rfl, .inr (List.mem_map_of_mem hd), d.raw.expr, ?_, rfl, ?_⟩
    · exact List.mem_append_right _ (List.mem_map_of_mem hd)
    · exact covers_derived (List.mem_of_mem_filter hd)
        (codeIn_subset _ fun _ _ _ => sourceName_of_jobName) id

theorem job_plain (slots : List (RawExpr F)) : (ir.job slots).Plain where
  distinct := by
    have hsub : ((ir.readProps slots).map PropDecl.bound ++ ir.states.map StateDecl.name ++
        (ir.jobDerived slots).map DerivedDecl.name).Sublist
        (ir.props.map PropDecl.bound ++ ir.states.map StateDecl.name ++
          ir.derived.map DerivedDecl.name) :=
      ((List.filter_sublist.map _).append_right _).append (List.filter_sublist.map _)
    have hnames := ir.distinct.of_append_left.of_append_left.of_append_left.of_append_left
    have hread : (ir.jobProps slots).Perm (ir.readProps slots) := jobProps_perm slots
    have hperm := ((hread.map PropDecl.bound).append_right
      (ir.states.map StateDecl.name)).append_right ((ir.jobDerived slots).map DerivedDecl.name)
    have hall := hperm.nodup_iff.mpr (hnames.sublist hsub)
    simpa [Block.consts, job, propConst, jobDecl, Function.comp_def] using hall
  named d hd := (mem_job_decls hd).1
  front d hd := by
    obtain ⟨p, -, rfl⟩ := List.mem_map.mp hd
    rfl
  back d hd := by cases hd

theorem job_covers {c : Const} (h : c ∈ (ir.job slots).consts) : Covers ir.source c := by
  rcases List.mem_append.mp h with h | h
  · rcases List.mem_append.mp h with h | h
    · obtain ⟨p, hp, rfl⟩ := List.mem_map.mp h
      have hp := List.mem_of_mem_filter ((jobProps_perm slots).subset hp)
      refine ⟨_, mem_source.mpr (.inl ⟨p, hp, rfl⟩), rfl, ?_, fun _ => rfl⟩
      rw [propConst]
      cases p.default with
      | none => exact fun _ hx => hx
      | some e => exact codeIn_subset e fun _ _ _ => sourceName_of_jobName
    · obtain ⟨d, hd, rfl⟩ := List.mem_map.mp h
      obtain ⟨-, -, -, -, -, hcov⟩ := mem_job_decls hd
      exact hcov
  · cases h

/-- What an initialiser of the job's block reads is declared in the job, or is the client's. -/
theorem job_known {d : Decl Const} (hd : d ∈ (ir.job slots).decls) {x : String}
    (hx : Evaluates made (ir.job slots).consts d.item x) :
    x ∈ (ir.job slots).front.map Const.name ∨ x ∈ (ir.job slots).decls.map Decl.name ∨
      x ∈ ir.clientNames := by
  have hreads : ∀ {e : Decl Const}, e ∈ (ir.job slots).decls → ∀ {y}, y ∈ e.item.code →
      y ∈ (ir.job slots).front.map Const.name ∨ y ∈ (ir.job slots).decls.map Decl.name ∨
        y ∈ ir.clientNames := by
    intro e he y hy
    obtain ⟨-, -, r, hr, hcode, -⟩ := mem_job_decls he
    rw [hcode] at hy
    rcases job_reads hr (fun n hn => jobDerived_closed hr hn) hy with h | h | h | h
    · left
      simpa [job, propConst, Function.comp_def] using h
    · right; left
      simp only [job, List.map_append, List.mem_append, List.map_map]
      exact .inl (by simpa [jobDecl, Function.comp_def] using h)
    · right; left
      simp only [job, List.map_append, List.mem_append, List.map_map]
      exact .inr (by simpa [jobDecl, Function.comp_def] using h)
    · exact .inr (.inr h)
  cases hx with
  | own hx _ => exact hreads hd hx
  | @run f _ _ hmem hlazy hx _ =>
      rcases List.mem_append.mp hmem with hmem | hmem
      · rcases List.mem_append.mp hmem with hmem | hmem
        · exact absurd (((job_plain slots).front f hmem).symm.trans hlazy) Bool.false_ne_true
        · obtain ⟨e, he, rfl⟩ := List.mem_map.mp hmem
          exact hreads he hx
      · cases hmem

/-- `q` is destructured before `p`. -/
def PropBefore (q p : PropDecl F) : Prop :=
  p.name ≠ "*" ∧ (q.name = "*" ∨ q.name ≠ "*" ∧ q.name < p.name)

theorem before_of_propBefore {p q : PropDecl F} (hp : p ∈ ir.jobProps slots)
    (hq : q ∈ ir.jobProps slots) (h : PropBefore q p) : [q, p].Sublist (ir.jobProps slots) := by
  have hp := (jobProps_perm slots).subset hp
  have hq := (jobProps_perm slots).subset hq
  have hps : p ∈ (ir.readProps slots).filter (·.name ≠ "*") :=
    List.mem_filter.mpr ⟨hp, decide_eq_true h.1⟩
  rcases h.2 with hstar | ⟨hstar, hlt⟩
  · refine (List.singleton_sublist.mpr (List.mem_filter.mpr ⟨hq, ?_⟩)).append
      (List.singleton_sublist.mpr ((List.mem_insertionSort _).mpr hps))
    exact decide_eq_true hstar
  · refine List.Sublist.trans ?_ (List.sublist_append_right ..)
    have hqs : q ∈ (ir.readProps slots).filter (·.name ≠ "*") :=
      List.mem_filter.mpr ⟨hq, decide_eq_true hstar⟩
    have hne : q ≠ p := fun h => absurd (h ▸ hlt) (lt_irrefl _)
    refine (before_or_after ((List.mem_insertionSort _).mpr hqs)
      ((List.mem_insertionSort _).mpr hps) hne).resolve_right fun hpq => ?_
    have hsorted := (List.pairwise_insertionSort (fun p q : PropDecl F => p.name ≤ q.name)
      ((ir.readProps slots).filter (·.name ≠ "*"))).sublist hpq
    have hle : p.name ≤ q.name := List.rel_of_pairwise_cons hsorted List.mem_cons_self
    exact absurd hlt (not_lt_of_ge hle)

/-- A default reads only props that the job destructures before. -/
def PropsInOrder (ir : ComponentIR F) (made : String → String → Prop) (slots : List (RawExpr F)) :
    Prop :=
  ∀ p ∈ ir.jobProps slots, ∀ x, Evaluates made (ir.job slots).consts (ir.propConst p) x →
    ∃ q ∈ ir.jobProps slots, q.bound = x ∧ PropBefore q p

/-- The job has none of the client's names. -/
def JobOnly (ir : ComponentIR F) (made : String → String → Prop) (slots : List (RawExpr F)) :
    Prop :=
  ∀ d ∈ (ir.job slots).decls, d.item.defers = false →
    ∀ x, Evaluates made (ir.job slots).consts d.item x → x ∉ ir.clientNames

theorem job_declared (hsrc : ir.InOrder made) (hprops : ir.PropsInOrder made slots)
    (honly : ir.JobOnly made slots) (hknots : (ir.job slots).Untangled made) :
    Declared made (ir.job slots).printed := by
  obtain ⟨src, hperm, hsrc⟩ := hsrc
  have hnodup : (src.map Const.name).Nodup := (hperm.map _).nodup_iff.mpr ir.names_nodup
  have hcov : ∀ c ∈ (ir.job slots).consts, Covers src c := fun c hc => by
    obtain ⟨s, hs, h⟩ := job_covers hc
    exact ⟨s, hperm.mem_iff.mpr hs, h⟩
  refine Block.Settled.declared ⟨fun d hd x hx => ?_, fun d hd hnow x hx => ?_, hknots⟩
    (job_plain slots) fun d hd hnow => ?_
  · obtain ⟨p, hp, rfl⟩ := List.mem_map.mp hd
    obtain ⟨q, hq, rfl, hbefore⟩ := hprops p hp x hx
    exact ⟨ir.propConst q, rfl, (before_of_propBefore hp hq hbefore).map ir.propConst⟩
  · rcases job_known hd hx with h | h | h
    · exact .inl h
    · exact .inr h
    · exact absurd h (honly d hd hnow x hx)
  · have hc : d.item ∈ (ir.job slots).consts :=
      List.mem_append_left _ (List.mem_append_right _ (List.mem_map_of_mem hd))
    rw [← (job_plain slots).named d hd]
    exact not_evaluates_self hsrc hnodup hcov (hcov _ hc) hnow

end Job

/-! ### The client chunk -/

section Chunk

variable {members : List (RawExpr F)} {events : List String}

/-- What the chunk's roots are. -/
def chunkRoots (ir : ComponentIR F) (members : List (RawExpr F)) : List (RawExpr F) :=
  ir.inits ++ ir.handlers.map HandlerDecl.body ++ ir.refs.map (fun r => r.raw.expr) ++ members

theorem chunkDerived_closed {n : String} (hd : ir.isDerived n = true)
    (hn : n ∈ ir.reach (ir.chunkRoots members)) :
    n ∈ (ir.chunkDerived members events).map DerivedDecl.name :=
  mem_reached (List.mem_append_left _ hn) hd

/-- The names of the chunk's block. -/
theorem chunk_names : (ir.chunk members events).decls.map Decl.name =
    ir.idBindings ++ ir.states.map StateDecl.name ++ ir.refs.map RefDecl.name ++
      (ir.chunkDerived members events).map DerivedDecl.name ++ ir.views.map Prod.snd := by
  have hrefs : ∀ r ∈ ir.refs, (if ir.isLate r then (r.raw.loc, [], ⟨r.name, [], false⟩)
      else (r.raw.loc, r.raw.expr.visitIdents.map Prod.fst,
        ⟨r.name, codeIn ir.chunkName r.raw.expr, false⟩) : ℕ × List String × Const).2.2.name =
        r.name := by
    intro r _
    split <;> rfl
  simpa [chunk, chunkDecls, Function.comp_def] using hrefs

/-- What the chunk's declarations print: an initialiser of its own is a state's or a ref's. -/
theorem mem_chunkDecls {l : ℕ} {reads : List String} {c : Const}
    (h : (l, reads, c) ∈ ir.chunkDecls members events) : Covers ir.source c ∧
    (c.code = [] ∧ c.defers = false ∨
    (∃ s ∈ ir.states, s.late = false ∧
      c = ⟨s.name, codeIn ir.chunkName (ir.stateInit s), false⟩) ∨
    (∃ r ∈ ir.refs, ir.isLate r = false ∧ c = ⟨r.name, codeIn ir.chunkName r.raw.expr, false⟩) ∨
    ∃ d ∈ ir.chunkDerived members events, c = ⟨d.name, codeIn ir.chunkName d.raw.expr, true⟩) := by
  have hcode : ∀ e : RawExpr F, codeIn ir.chunkName e ⊆ codeIn ir.sourceName e := fun e =>
    codeIn_subset e fun _ _ _ => sourceName_of_chunkName
  simp only [chunkDecls, List.mem_append, List.mem_map] at h
  rcases h with (((⟨n, hn, h⟩ | ⟨s, hs, h⟩) | ⟨r, hr, h⟩) | ⟨d, hd, h⟩) | ⟨v, hv, h⟩
  · cases h
    refine ⟨⟨_, mem_source.mpr ?_, rfl, fun _ hx => hx, fun _ => rfl⟩, .inl ⟨rfl, rfl⟩⟩
    exact .inr (.inr (.inr (.inr (.inr (.inl ⟨n, hn, rfl⟩)))))
  · cases h
    cases hlate : s.late with
    | true => exact ⟨covers_state hs (List.nil_subset _) false, .inl ⟨rfl, rfl⟩⟩
    | false => exact ⟨covers_state hs (hcode _) false, .inr (.inl ⟨s, hs, hlate, rfl⟩)⟩
  · split at h
    · cases h
      exact ⟨covers_ref hr (List.nil_subset _) false, .inl ⟨rfl, rfl⟩⟩
    · rename_i hlate
      cases h
      exact ⟨covers_ref hr (hcode _) false,
        .inr (.inr (.inl ⟨r, hr, Bool.eq_false_iff.mpr hlate, rfl⟩))⟩
  · cases h
    exact ⟨covers_derived (List.mem_of_mem_filter hd) (hcode _) fun h => (by cases h),
      .inr (.inr (.inr ⟨d, hd, rfl⟩))⟩
  · cases h
    refine ⟨⟨_, mem_source.mpr ?_, rfl, fun _ hx => hx, fun _ => rfl⟩, .inl ⟨rfl, rfl⟩⟩
    exact .inr (.inr (.inr (.inr (.inr (.inr ⟨v, hv, rfl⟩)))))

theorem chunk_plain (members : List (RawExpr F)) (events : List String) :
    (ir.chunk members events).Plain where
  distinct := by
    have hnames : ((ir.chunk members events).consts.map Const.name) =
        (ir.chunk members events).decls.map Decl.name ++ ir.handlers.map HandlerDecl.name := by
      simp [Block.consts, chunk, Function.comp_def]
    rw [hnames, chunk_names]
    have hsub : (ir.states.map StateDecl.name ++
        (ir.chunkDerived members events).map DerivedDecl.name ++ ir.refs.map RefDecl.name ++
        ir.handlers.map HandlerDecl.name ++ ir.idBindings ++ ir.views.map Prod.snd).Sublist
        (ir.props.map PropDecl.bound ++ ir.states.map StateDecl.name ++
          ir.derived.map DerivedDecl.name ++ ir.refs.map RefDecl.name ++
          ir.handlers.map HandlerDecl.name ++ ir.idBindings ++ ir.views.map Prod.snd) :=
      (((((List.sublist_append_right ..).append (List.filter_sublist.map _)).append_right
        _).append_right _).append_right _).append_right _
    refine (List.Perm.nodup_iff ?_).mpr (ir.distinct.sublist hsub)
    refine List.perm_iff_count.mpr fun n => ?_
    simp only [List.count_append]
    omega
  named d hd := by
    obtain ⟨p, -, rfl⟩ := List.mem_map.mp hd
    rfl
  front d hd := by cases hd
  back d hd := by
    obtain ⟨h, -, rfl⟩ := List.mem_map.mp hd
    rfl

/-- Every state is a declaration of the chunk, and so is every view. -/
theorem mem_chunk_names {x : String} (h : x ∈ ir.states.map StateDecl.name ∨
    x ∈ ir.refs.map RefDecl.name ∨ x ∈ ir.idBindings ∨ x ∈ ir.views.map Prod.snd ∨
      x ∈ (ir.chunkDerived members events).map DerivedDecl.name) :
    x ∈ (ir.chunk members events).decls.map Decl.name := by
  rw [chunk_names]
  simp only [List.mem_append]
  tauto

/-- What an expression reads in the chunk: a derived value or a handler it names, or what the block
declares anyway. -/
theorem chunk_reads {e : RawExpr F} {x : String} (hx : x ∈ codeIn ir.chunkName e) :
    x ∈ ir.states.map StateDecl.name ∨ x ∈ ir.refs.map RefDecl.name ∨ x ∈ ir.idBindings ∨
      x ∈ ir.views.map Prod.snd ∨ x ∈ localsIn e ∧ (ir.isDerived x = true ∨
        x ∈ ir.handlers.map HandlerDecl.name) := by
  obtain ⟨⟨n, k⟩, hmem, hname⟩ := List.mem_filterMap.mp hx
  cases k with
  | setter => exact .inl (mem_of_setterOf hname)
  | state => exact .inl (eq_of_stateName hname)
  | localName =>
      obtain ⟨rfl, hlocals⟩ := eq_of_localName hname
      have hin := mem_localsIn hmem
      rcases mem_locals hlocals with hd | hc
      · exact .inr (.inr (.inr (.inr ⟨hin, .inl (isDerived_of_mem hd)⟩)))
      · simp only [clientNames, List.mem_append] at hc
        tauto
  | store handle key =>
      cases key with
      | none => exact .inr (.inr (.inr (.inl (eq_of_viewName hname))))
      | some key => cases hname
  | _ => cases hname

theorem mem_chunk_decls {d : Decl Const} (h : d ∈ (ir.chunk members events).decls) :
    ∃ l reads, (l, reads, d.item) ∈ ir.chunkDecls members events := by
  obtain ⟨⟨l, reads, c⟩, hmem, rfl⟩ := List.mem_map.mp h
  exact ⟨l, reads, hmem⟩

theorem chunk_covers {c : Const} (h : c ∈ (ir.chunk members events).consts) :
    Covers ir.source c := by
  rcases List.mem_append.mp h with h | h
  · obtain ⟨d, hd, rfl⟩ := List.mem_map.mp ((List.mem_append.mp h).resolve_left List.not_mem_nil)
    obtain ⟨l, reads, hmem⟩ := mem_chunk_decls hd
    exact (mem_chunkDecls hmem).1
  · obtain ⟨handler, hh, rfl⟩ := List.mem_map.mp h
    refine ⟨_, mem_source.mpr (.inr (.inr (.inr (.inr (.inl ⟨handler, hh, rfl⟩))))), rfl,
      codeIn_subset _ fun _ _ _ => sourceName_of_chunkName, fun hn => by cases hn⟩

/-- What is read while an initialiser of the block is evaluated: all but a handler is declared in
the block, and a derived value is reached. -/
theorem chunk_evaluates {d : Decl Const} (hd : d ∈ (ir.chunk members events).decls)
    (hnow : d.item.defers = false)
    (hfree : ∀ x, Evaluates made (ir.chunk members events).consts d.item x →
      x ∉ ir.handlers.map HandlerDecl.name) {x : String}
    (hx : Evaluates made (ir.chunk members events).consts d.item x) :
    x ∈ (ir.chunk members events).decls.map Decl.name ∧
      (ir.isDerived x = true → x ∈ ir.reach (ir.chunkRoots members)) := by
  -- what an expression reads, of which the derived values are reached
  have hreads : ∀ {e : RawExpr F}, (∀ n ∈ localsIn e, ir.isDerived n = true →
      n ∈ ir.reach (ir.chunkRoots members)) → ∀ {y}, y ∈ codeIn ir.chunkName e →
      y ∉ ir.handlers.map HandlerDecl.name →
      y ∈ (ir.chunk members events).decls.map Decl.name ∧
        (ir.isDerived y = true → y ∈ ir.reach (ir.chunkRoots members)) := by
    intro e he y hy hnot
    rcases chunk_reads hy with h | h | h | h | ⟨hin, hd | hh⟩
    · exact ⟨mem_chunk_names (.inl h), fun hdn =>
        absurd (.inl h) (not_mem_of_handler_or_derived (.inr hdn))⟩
    · exact ⟨mem_chunk_names (.inr (.inl h)), fun hdn =>
        absurd (.inr (.inl h)) (not_mem_of_handler_or_derived (.inr hdn))⟩
    · exact ⟨mem_chunk_names (.inr (.inr (.inl h))), fun hdn =>
        absurd (.inr (.inr (.inl h))) (not_mem_of_handler_or_derived (.inr hdn))⟩
    · exact ⟨mem_chunk_names (.inr (.inr (.inr (.inl h)))), fun hdn =>
        absurd (.inr (.inr (.inr h))) (not_mem_of_handler_or_derived (.inr hdn))⟩
    · have hreach := he y hin hd
      exact ⟨mem_chunk_names (.inr (.inr (.inr (.inr (chunkDerived_closed hd hreach))))),
        fun _ => hreach⟩
    · exact absurd hh hnot
  induction hx with
  | @own x hx hm =>
      have hnot := hfree x (.own hx hm)
      obtain ⟨l, reads, hmem⟩ := mem_chunk_decls hd
      rcases (mem_chunkDecls hmem).2 with ⟨hnil, -⟩ | ⟨s, hs, -, hc⟩ | ⟨r, hr, -, hc⟩ | ⟨e, -, hdc⟩
      · rw [hnil] at hx
        cases hx
      · rw [hc] at hx
        refine hreads (fun n hn hdn => mem_reach_of_root ?_ hn hdn) hx hnot
        exact List.mem_append_left _ (List.mem_append_left _ (List.mem_append_left _
          (List.mem_map_of_mem hs)))
      · rw [hc] at hx
        refine hreads (fun n hn hdn => mem_reach_of_root ?_ hn hdn) hx hnot
        exact List.mem_append_left _ (List.mem_append_right _ (List.mem_map_of_mem hr))
      · rw [hdc] at hnow
        cases hnow
  | @run f x hf hmem hlazy hx hm ih =>
      have hnot := hfree x (.run hf hmem hlazy hx hm)
      rcases List.mem_append.mp hmem with hmem | hmem
      · obtain ⟨c, hc, rfl⟩ :=
          List.mem_map.mp ((List.mem_append.mp hmem).resolve_left List.not_mem_nil)
        obtain ⟨l, reads, hmem⟩ := mem_chunk_decls hc
        rcases (mem_chunkDecls hmem).2 with ⟨-, hn⟩ | ⟨s, hs, -, he⟩ | ⟨r, hr, -, he⟩ | ⟨e, he, hce⟩
        · exact absurd (hn.symm.trans hlazy) Bool.false_ne_true
        · rw [he] at hlazy
          cases hlazy
        · rw [he] at hlazy
          cases hlazy
        · rw [hce] at hx ih
          have hder := List.mem_of_mem_filter he
          have hreach := ih.2 (isDerived_of_mem (List.mem_map_of_mem hder))
          exact hreads (fun n hn hdn => mem_reach_of_reach hder hreach hn hdn) hx hnot
      · obtain ⟨h, hh, rfl⟩ := List.mem_map.mp hmem
        exact absurd (List.mem_map_of_mem hh) (hfree _ hf)

/-- A late name is a handler's or a derived value's. -/
theorem handlerNames_known {f : ℕ} {names : List String}
    (hn : ∀ n ∈ names, n ∈ ir.handlers.map HandlerDecl.name ∨ ir.isDerived n = true) :
    ∀ n ∈ ir.handlerNames f names,
      n ∈ ir.handlers.map HandlerDecl.name ∨ ir.isDerived n = true := by
  induction f generalizing names with
  | zero => exact hn
  | succ f ih =>
      rw [handlerNames]
      split
      · exact hn
      · refine ih fun n hmem => ?_
        rcases List.mem_append.mp hmem with hmem | hmem
        · exact hn n hmem
        · obtain ⟨d, hd, rfl⟩ := List.mem_map.mp hmem
          exact .inr (isDerived_of_mem (List.mem_map_of_mem (List.mem_of_mem_filter hd)))

theorem mem_readsOf {e : RawExpr F} {x : String} {names : List String} (hx : x ∈ localsIn e)
    (hn : x ∈ names) : readsOf e names ≠ [] := by
  obtain ⟨⟨n, k⟩, hmem, hname⟩ := List.mem_filterMap.mp hx
  have hnx : n = x := by
    dsimp only at hname
    split at hname
    · exact Option.some.inj hname
    · cases hname
  refine List.ne_nil_of_mem (a := x) (List.mem_dedup.mpr (List.mem_filter.mpr ⟨?_, ?_⟩))
  · exact hnx ▸ List.mem_map_of_mem hmem
  · exact List.contains_iff_mem.mpr hn

/-- **A ref that is not late reads no handler**, itself or through derived values. -/
theorem ref_reads_no_handler {d : Decl Const} {r : RefDecl F} (hlate : ir.isLate r = false)
    (hd : d.item = ⟨r.name, codeIn ir.chunkName r.raw.expr, false⟩) {x : String}
    (hx : Evaluates made (ir.chunk members events).consts d.item x) : x ∉ ir.lateNames := by
  -- what an expression reads that reads no late name
  have hreads : ∀ {e : RawExpr F}, readsOf e ir.lateNames = [] → ∀ {y},
      y ∈ codeIn ir.chunkName e → y ∉ ir.lateNames := by
    intro e he y hy hin
    have hknown := handlerNames_known (fun n hn => .inl hn) y hin
    have hnot := not_mem_of_handler_or_derived hknown
    rcases chunk_reads hy with h | h | h | h | ⟨hlocal, -⟩
    · exact hnot (.inl h)
    · exact hnot (.inr (.inl h))
    · exact hnot (.inr (.inr (.inl h)))
    · exact hnot (.inr (.inr (.inr h)))
    · exact mem_readsOf hlocal hin he
  induction hx with
  | own hx _ =>
      rw [hd] at hx
      refine hreads ?_ hx
      simpa [isLate] using hlate
  | @run f x _ hmem hlazy hx _ ih =>
      rcases List.mem_append.mp hmem with hmem | hmem
      · obtain ⟨c, hc, rfl⟩ :=
          List.mem_map.mp ((List.mem_append.mp hmem).resolve_left List.not_mem_nil)
        obtain ⟨l, reads, hmem⟩ := mem_chunk_decls hc
        rcases (mem_chunkDecls hmem).2 with ⟨-, hn⟩ | ⟨s, hs, -, he⟩ | ⟨r, hr, -, he⟩ | ⟨e, he, hce⟩
        · exact absurd (hn.symm.trans hlazy) Bool.false_ne_true
        · rw [he] at hlazy
          cases hlazy
        · rw [he] at hlazy
          cases hlazy
        · rw [hce] at hx ih
          refine hreads ?_ hx
          by_contra hne
          exact ih (lateNames_closed (List.mem_of_mem_filter he) hne)
      · obtain ⟨handler, hh, rfl⟩ := List.mem_map.mp hmem
        exact absurd (handler_mem_lateNames hh) ih

/-- No state's initial value reads a handler. -/
def StatesReadNoHandler (ir : ComponentIR F) (made : String → String → Prop)
    (members : List (RawExpr F)) (events : List String) : Prop :=
  ∀ s ∈ ir.states, s.late = false → ∀ x, Evaluates made (ir.chunk members events).consts
    ⟨s.name, codeIn ir.chunkName (ir.stateInit s), false⟩ x → x ∉ ir.handlers.map HandlerDecl.name

theorem not_evaluates_nil {cs : List Const} {d : Const} (hd : d.code = []) {x : String} :
    ¬ Evaluates made cs d x := by
  intro hx
  induction hx with
  | own hx _ =>
      rw [hd] at hx
      cases hx
  | run _ _ _ _ _ ih => exact ih

theorem chunk_declared (hsrc : ir.InOrder made)
    (hstates : ir.StatesReadNoHandler made members events)
    (hknots : (ir.chunk members events).Untangled made) :
    Declared made (ir.chunk members events).printed := by
  obtain ⟨src, hperm, hsrc⟩ := hsrc
  have hnodup : (src.map Const.name).Nodup := (hperm.map _).nodup_iff.mpr ir.names_nodup
  have hcov : ∀ c ∈ (ir.chunk members events).consts, Covers src c := fun c hc => by
    obtain ⟨s, hs, h⟩ := chunk_covers hc
    exact ⟨s, hperm.mem_iff.mpr hs, h⟩
  have hfree : ∀ d ∈ (ir.chunk members events).decls, d.item.defers = false →
      ∀ x, Evaluates made (ir.chunk members events).consts d.item x →
        x ∉ ir.handlers.map HandlerDecl.name := by
    intro d hd hnow x hx
    obtain ⟨l, reads, hmem⟩ := mem_chunk_decls hd
    rcases (mem_chunkDecls hmem).2 with ⟨hnil, -⟩ | ⟨s, hs, hs', hc⟩ | ⟨r, hr, hlate,
      hc⟩ | ⟨e, -, hc⟩
    · exact absurd hx (not_evaluates_nil hnil)
    · exact hstates s hs hs' x (hc ▸ hx)
    · intro hh
      obtain ⟨handler, hmem, rfl⟩ := List.mem_map.mp hh
      exact ref_reads_no_handler hlate hc hx (handler_mem_lateNames hmem)
    · rw [hc] at hnow
      cases hnow
  refine Block.Settled.declared ⟨fun d hd => (by cases hd), fun d hd hnow x hx => ?_, hknots⟩
    (chunk_plain members events) fun d hd hnow => ?_
  · exact .inr (chunk_evaluates hd hnow (hfree d hd hnow) hx).1
  · have hc : d.item ∈ (ir.chunk members events).consts :=
      List.mem_append_left _ (List.mem_append_right _ (List.mem_map_of_mem hd))
    rw [← (chunk_plain members events).named d hd]
    exact not_evaluates_self hsrc hnodup hcov (hcov _ hc) hnow

end Chunk

/-! ### The template preamble -/

theorem preamble_names : ir.preamble.decls.map Decl.name =
    ir.states.map StateDecl.name ++ ir.placedDerived.map DerivedDecl.name := by
  simp [preamble, Function.comp_def]

theorem preamble_plain (ir : ComponentIR F) : ir.preamble.Plain where
  distinct := by
    have hnames : ir.preamble.consts.map Const.name =
        ir.states.map StateDecl.name ++ ir.placedDerived.map DerivedDecl.name := by
      simp [Block.consts, preamble, Function.comp_def]
    rw [hnames]
    have hsub : (ir.states.map StateDecl.name ++
        ir.placedDerived.map DerivedDecl.name).Sublist
        (ir.props.map PropDecl.bound ++ ir.states.map StateDecl.name ++
          ir.derived.map DerivedDecl.name) :=
      (List.sublist_append_right ..).append (List.filter_sublist.map _)
    exact ir.distinct.of_append_left.of_append_left.of_append_left.of_append_left.sublist hsub
  named d hd := by
    rcases List.mem_append.mp hd with hd | hd <;> obtain ⟨_, -, rfl⟩ := List.mem_map.mp hd <;> rfl
  front d hd := by cases hd
  back d hd := by cases hd

theorem sourceName_of_templateName {n x : String} {k : IdentKind}
    (h : ir.templateName n k = some x) : ir.sourceName n k = some x := by
  cases k with
  | state => exact h
  | localName =>
      dsimp only [templateName] at h
      split at h
      · rename_i hd
        obtain ⟨d, hmem, rfl⟩ := isDerived_iff.mp hd
        cases h
        exact if_pos (List.mem_append_left _ (List.mem_append_left _ (List.mem_append_left _
          (List.mem_map_of_mem hmem))))
      · cases h
  | _ => cases h

theorem placedCode_subset {p : Placed F} {e : RawExpr F} (h : printed p ⊆ e.directIdents) :
    ir.placedCode p ⊆ codeIn ir.sourceName e := by
  intro x hx
  obtain ⟨⟨n, k⟩, hmem, hname⟩ := List.mem_filterMap.mp hx
  exact List.mem_filterMap.mpr
    ⟨(n, k), e.directIdents_sublist.subset (h hmem), sourceName_of_templateName hname⟩

/-- A function that is placed as a value reads nothing in the template. -/
theorem placedCode_function {p : Placed F} {e : RawExpr F} (h : printed p ⊆ e.directIdents)
    (he : e.isFunctionRaw = true) : ir.placedCode p = [] := by
  have hnone : e.directIdents = [] := by
    cases e <;> first | rfl | cases he
  rw [hnone] at h
  rw [placedCode, List.subset_nil.mp h, List.filterMap_nil]

theorem mem_preamble_decls {ir : PlacedIR F} {d : Decl Const} (h : d ∈ ir.preamble.decls) :
    d.item.defers = false ∧ (d.item.code = [] ∨ Covers ir.source d.item) ∧
      ∀ x ∈ d.item.code, x ∈ ir.preamble.decls.map Decl.name := by
  have hreads : ∀ p ∈ ir.states.map StateDecl.init ++ ir.derived.map DerivedDecl.expr,
      ∀ x ∈ ir.placedCode p, x ∈ ir.preamble.decls.map Decl.name := by
    intro p hp x hx
    rw [preamble_names]
    obtain ⟨⟨n, k⟩, hmem, hname⟩ := List.mem_filterMap.mp hx
    cases k with
    | state => exact List.mem_append_left _ (eq_of_stateName hname)
    | localName =>
        dsimp only [templateName] at hname
        split at hname
        · rename_i hd
          cases hname
          exact List.mem_append_right _ (ir.has_vars p hp _ hmem rfl hd)
        · cases hname
    | _ => cases hname
  rcases List.mem_append.mp h with h | h
  · obtain ⟨s, hs, rfl⟩ := List.mem_map.mp h
    exact ⟨rfl, .inr (covers_state hs (placedCode_subset (ir.state_reads s hs)) false),
      hreads _ (List.mem_append_left _ (List.mem_map_of_mem hs))⟩
  · obtain ⟨d, hd, rfl⟩ := List.mem_map.mp h
    have hder := List.mem_of_mem_filter hd
    have hprinted := ir.derived_reads d hder
    refine ⟨rfl, ?_, hreads _ (List.mem_append_right _ (List.mem_map_of_mem hder))⟩
    cases hfun : d.raw.expr.isFunctionRaw with
    | true => exact .inl (placedCode_function hprinted hfun)
    | false => exact .inr (covers_derived hder (placedCode_subset hprinted) fun _ => hfun)

theorem preamble_declared {ir : PlacedIR F} (hsrc : ir.InOrder made)
    (hknots : ir.preamble.Untangled made) : Declared made ir.preamble.printed := by
  obtain ⟨src, hperm, hsrc⟩ := hsrc
  have hnodup : (src.map Const.name).Nodup := (hperm.map _).nodup_iff.mpr ir.names_nodup
  -- nothing is deferred, so an initialiser evaluates what it reads itself
  have hown : ∀ d : Const, ∀ x, Evaluates made ir.preamble.consts d x →
      x ∈ d.code ∧ made d.name x := by
    intro d x hx
    cases hx with
    | own hx hm => exact ⟨hx, hm⟩
    | @run f _ _ hf hlazy _ _ =>
        have hf := (List.mem_append.mp hf).resolve_right List.not_mem_nil
        obtain ⟨e, he, rfl⟩ :=
          List.mem_map.mp ((List.mem_append.mp hf).resolve_left List.not_mem_nil)
        exact absurd ((mem_preamble_decls he).1.symm.trans hlazy) Bool.false_ne_true
  refine Block.Settled.declared ⟨fun d hd => (by cases hd), fun d hd _ x hx => ?_, hknots⟩
    (preamble_plain ir.toComponentIR) fun d hd hnow hself => ?_
  · exact .inr ((mem_preamble_decls hd).2.2 x (hown _ _ hx).1)
  · obtain ⟨hx, hm⟩ := hown _ _ hself
    obtain ⟨-, hnone | ⟨s, hs, hcov⟩, -⟩ := mem_preamble_decls hd
    · rw [hnone] at hx
      cases hx
    · have hnot : ¬ Evaluates made [] d.item d.item.name := not_evaluates_self hsrc hnodup
        (fun _ h => (by cases h)) ⟨s, hperm.mem_iff.mpr hs, hcov⟩ hnow
      rw [← (preamble_plain ir.toComponentIR).named d hd] at hx hm
      exact hnot (.own hx hm)

/-! ### The build-evaluation module -/

/-- What a constant reads stands at an earlier location, or at the same one and earlier in the
source's list. -/
def EvalInOrder (ir : ComponentIR F) (made : String → String → Prop)
    (chosen : List (RawExpr F)) : Prop :=
  ∀ d ∈ ir.evalDerived chosen, d.raw.expr.isFunctionRaw = false →
    ∀ x, Evaluates made ((ir.evalDerived chosen).map ir.evalConst) (ir.evalConst d) x →
      ∃ r ∈ ir.evalDerived chosen, r.name = x ∧ (r.raw.loc < d.raw.loc ∨
        r.raw.loc = d.raw.loc ∧ [r, d].Sublist (ir.evalDerived chosen))

theorem eval_declared_iff {chosen : List (RawExpr F)} :
    Declared made (ir.evalModule chosen) ↔ ir.EvalInOrder made chosen := by
  let sorted := (ir.evalDerived chosen).insertionSort fun a b => a.raw.loc ≤ b.raw.loc
  have hperm : sorted.Perm (ir.evalDerived chosen) := List.perm_insertionSort _ _
  have hnodup : (sorted.map DerivedDecl.name).Nodup :=
    ((hperm.map _).nodup_iff).mpr (ir.derived_nodup.sublist (List.filter_sublist.map _))
  have hinj : ∀ {a b}, a ∈ sorted → b ∈ sorted → a.name = b.name → a = b := fun ha hb h =>
    List.inj_on_of_nodup_map hnodup ha hb h
  -- the order of two constants
  have horder : ∀ {a b}, [a, b].Sublist sorted → a.raw.loc ≤ b.raw.loc := fun h =>
    List.rel_of_pairwise_cons ((List.pairwise_insertionSort _ _).sublist h) List.mem_cons_self
  have hevals : ∀ d x, Evaluates made (ir.evalModule chosen) d x ↔
      Evaluates made ((ir.evalDerived chosen).map ir.evalConst) d x := fun d x =>
    ⟨fun h => h.mono (hperm.map _).subset, fun h => h.mono (hperm.map _).symm.subset⟩
  constructor
  · intro h d hd hnow x hx
    have hds : d ∈ sorted := hperm.mem_iff.mpr hd
    obtain ⟨c, hname, hsub⟩ := h (ir.evalConst d) (List.mem_map_of_mem hds) hnow x
      ((hevals _ _).mpr hx)
    obtain ⟨l, hl, hmap⟩ := List.sublist_map_iff.mp hsub
    rcases l with _ | ⟨r, _ | ⟨d', _ | ⟨_, _⟩⟩⟩
    · cases hmap
    · cases hmap
    · obtain ⟨rfl, hrest⟩ := List.cons.inj hmap
      obtain rfl := hinj hds (hl.subset (by simp)) (congrArg Const.name (List.cons.inj hrest).1)
      have hr : r ∈ ir.evalDerived chosen := hperm.mem_iff.mp (hl.subset List.mem_cons_self)
      refine ⟨r, hr, hname, (lt_or_eq_of_le (horder hl)).imp_right fun heq => ⟨heq, ?_⟩⟩
      refine (before_or_after hr hd (ne_of_before hnodup.of_map hl)).resolve_right fun hdr => ?_
      have hback := List.pair_sublist_insertionSort (r := fun a b : DerivedDecl F =>
        a.raw.loc ≤ b.raw.loc) (ge_of_eq heq) hdr
      exact ne_of_before hnodup.of_map (before_trans hnodup.of_map hl hback) rfl
    · simp at hmap
  · intro h c hc hnow x hx
    obtain ⟨d, hd, rfl⟩ := List.mem_map.mp hc
    obtain ⟨r, hr, rfl, hloc⟩ := h d (hperm.mem_iff.mp hd) hnow x ((hevals _ _).mp hx)
    suffices hsub : [r, d].Sublist sorted from ⟨ir.evalConst r, rfl, hsub.map ir.evalConst⟩
    rcases hloc with hlt | ⟨heq, hsub⟩
    · have hne : r ≠ d := fun he => absurd (he ▸ hlt) (lt_irrefl _)
      refine (before_or_after (hperm.mem_iff.mpr hr) hd hne).resolve_right fun hdr => ?_
      exact absurd (horder hdr) (not_le_of_gt hlt)
    · exact List.pair_sublist_insertionSort (le_of_eq heq) hsub

/-! ### Every artifact -/

variable {slots chosen members : List (RawExpr F)} {events : List String}

/-- The reads of the component are settled: in each artifact. -/
structure Settled (ir : ComponentIR F) (made : String → String → Prop)
    (slots chosen members : List (RawExpr F)) (events : List String) : Prop where
  props : ir.PropsInOrder made slots
  jobOnly : ir.JobOnly made slots
  job : (ir.job slots).Untangled made
  eval : ir.EvalInOrder made chosen
  states : ir.StatesReadNoHandler made members events
  chunk : (ir.chunk members events).Untangled made
  preamble : ir.preamble.Untangled made

/-- In each artifact every name that an initialiser reads is declared earlier. -/
structure AllDeclared (ir : ComponentIR F) (made : String → String → Prop)
    (slots chosen members : List (RawExpr F)) (events : List String) : Prop where
  job : Declared made (ir.job slots).printed
  eval : Declared made (ir.evalModule chosen)
  chunk : Declared made (ir.chunk members events).printed
  preamble : Declared made ir.preamble.printed

/-- No knot starts at an initialiser that reads another of it. -/
def NoKnot (made : String → String → Prop) (b : Block) : Prop :=
  ∀ d ∈ b.decls, d.item.defers = false → ∀ r ∈ b.decls, r.name ∈ d.item.code →
    made d.name r.name → ∀ T, Knot (byLoc b.decls) d T → r ∉ T

/-- What must hold where every artifact is in order. -/
structure Needed (ir : ComponentIR F) (made : String → String → Prop)
    (slots chosen members : List (RawExpr F)) (events : List String) : Prop where
  eval : ir.EvalInOrder made chosen
  states : ir.StatesReadNoHandler made members events
  job : NoKnot made (ir.job slots)
  chunk : NoKnot made (ir.chunk members events)
  preamble : NoKnot made ir.preamble

theorem AllDeclared.needed (h : ir.AllDeclared made slots chosen members events) :
    ir.Needed made slots chosen members events where
  eval := eval_declared_iff.mp h.eval
  states s hs hlate x hx := by
    let d : Decl Const := ⟨s.raw.loc, s.name,
      ((((ir.stateInit s).visitIdents.map Prod.fst).filter
        ((ir.chunkDecls members events).map fun d => d.2.2.name).contains).dedup),
      ⟨s.name, codeIn ir.chunkName (ir.stateInit s), false⟩⟩
    have hd : d ∈ (ir.chunk members events).decls := by
      refine List.mem_map.mpr ⟨(s.raw.loc, (ir.stateInit s).visitIdents.map Prod.fst,
        ⟨s.name, codeIn ir.chunkName (ir.stateInit s), false⟩), ?_, rfl⟩
      simp only [chunkDecls, List.mem_append, List.mem_map]
      exact .inl (.inl (.inl (.inr ⟨s, hs, by rw [hlate]; rfl⟩)))
    have hnames : (ir.chunk members events).back.map Const.name =
        ir.handlers.map HandlerDecl.name := by
      rw [ComponentIR.chunk, List.map_map]
      rfl
    rw [← hnames]
    exact (Block.untangled_of_declared h.chunk (chunk_plain members events) hd rfl).2 x hx
  job _ hd hnow := (Block.untangled_of_declared h.job (job_plain slots) hd hnow).1
  chunk _ hd hnow := (Block.untangled_of_declared h.chunk (chunk_plain members events) hd hnow).1
  preamble _ hd hnow := (Block.untangled_of_declared h.preamble (preamble_plain ir) hd hnow).1

/-- **Names are declared before they are read.**  Where the reads are settled, in every artifact;
where they are in every artifact, no knot starts at a reader, no state reads a handler and locations
follow the build-evaluation module's reads.  And the loop that orders loses nothing. -/
theorem consts_declared {ir : PlacedIR F} (hsrc : ir.InOrder made) :
    (ir.Settled made slots chosen members events →
      ir.AllDeclared made slots chosen members events) ∧
    (ir.AllDeclared made slots chosen members events →
      ir.Needed made slots chosen members events) ∧
    ∀ ds : List (Decl Const), (orderDecls ds).Perm (ds.map Decl.item) := by
  refine ⟨fun h => ?_, AllDeclared.needed, orderDecls_perm⟩
  exact
    { job := job_declared hsrc h.props h.jobOnly h.job
      eval := eval_declared_iff.mpr h.eval
      chunk := chunk_declared hsrc h.states h.chunk
      preamble := preamble_declared hsrc h.preamble }

/-! ### Components -/

/-- `const [n, setN] = useState(1); const [m] = useState(n); const twice = n + n`, a ref of `n` and
a handler that sets it. -/
def seeded : PlacedIR ℕ where
  props := []
  states := [⟨"n", some "setN", .server (.lit (.num 1)), ⟨1, .lit (.num 1)⟩, false⟩,
    ⟨"m", none, .server (.ident "n" .state), ⟨2, .ident "n" .state⟩, false⟩]
  derived := [⟨"twice", .server (.binary .add (.ident "n" .state) (.ident "n" .state)),
    ⟨3, .binary .add (.ident "n" .state) (.ident "n" .state)⟩⟩]
  refs := [⟨"box", ⟨4, .ident "n" .state⟩⟩]
  handlers := [⟨"bump", .arrow [] (.call (.ident "setN" .setter) [.ident "m" .state])
    [("setN", .setter), ("m", .state)]⟩]
  idBindings := []
  views := []
  moduleFns := []
  distinct := by decide
  state_reads := by decide
  derived_reads := by decide
  has_vars := by decide

/-- `function C({ value, label = value })` -/
def defaulted : PlacedIR ℕ where
  props := [⟨"value", "value", none⟩, ⟨"label", "label", some (.ident "value" .prop)⟩]
  states := []
  derived := []
  refs := []
  handlers := []
  idBindings := []
  views := []
  moduleFns := []
  distinct := by decide
  state_reads := by decide
  derived_reads := by decide
  has_vars := by decide

/-- `const c = () => r; const r = () => n; const [n] = useState(typeof c())` -/
def knotted : PlacedIR ℕ where
  props := []
  states := [⟨"n", none, .precomputed "_s1",
    ⟨3, .unary .typeof (.call (.ident "c" .localName) [])⟩, false⟩]
  derived := [
    ⟨"c", .clientOnly, ⟨1, .arrow [] (.ident "r" .localName) [("r", .localName)]⟩⟩,
    ⟨"r", .clientOnly, ⟨2, .arrow [] (.ident "n" .state) [("n", .state)]⟩⟩]
  refs := []
  handlers := []
  idBindings := []
  views := []
  moduleFns := []
  distinct := by decide
  state_reads := by decide
  derived_reads := by decide
  has_vars := by decide

/-- `const load = useCallback(() => 1, []); const [n] = useState(load())` -/
def loaded : PlacedIR ℕ where
  props := []
  states := [⟨"n", none, .precomputed "_s1", ⟨2, .call (.ident "load" .localName) []⟩, false⟩]
  derived := []
  refs := []
  handlers := [⟨"load", .arrow [] (.lit (.num 1)) []⟩]
  idBindings := []
  views := []
  moduleFns := []
  distinct := by decide
  state_reads := by decide
  derived_reads := by decide
  has_vars := by decide

/-- `const n = format(2)`, and `const text = n` of a hook declared before the component. -/
def hooked : PlacedIR ℕ where
  props := []
  states := []
  derived := [⟨"n", .precomputed "_s1", ⟨100, .call (.ident "format" .globalName) [.lit (.num 2)]⟩⟩,
    ⟨"text", .server (.ident "n" .localName), ⟨5, .ident "n" .localName⟩⟩]
  refs := []
  handlers := []
  idBindings := []
  views := []
  moduleFns := []
  distinct := by decide
  state_reads := by decide
  derived_reads := by decide
  has_vars := by decide

def always (_ _ : String) : Prop := True

instance : ∀ x y, Decidable (always x y) := fun _ _ => isTrue trivial

/-- `c` calls `r`, whose own read is of a run that is never made. -/
def once (x y : String) : Prop := (x, y) ∈ [("n", "c"), ("c", "r")]

instance : ∀ x y, Decidable (once x y) := fun _ _ => inferInstanceAs (Decidable (_ ∈ _))

/-- Every declaration of a block is a value, and what one reads itself reads nothing. -/
theorem untangled_of_flat {b : Block} (hnow : ∀ d ∈ b.decls, d.item.defers = false)
    (h : ∀ d ∈ b.decls, ∀ r ∈ b.decls, r.name ∈ d.item.code →
      r.reads = [] ∧ [r, d].Sublist (byLoc b.decls)) : b.Untangled made := by
  intro d hd _ c hc hrun r hr hread _
  obtain rfl : c = d := hrun.resolve_right fun hlazy =>
    absurd ((hnow c hc).symm.trans hlazy.1) Bool.false_ne_true
  obtain ⟨hnone, hs⟩ := h c hc r hr hread
  refine .inr ⟨[r], List.mem_singleton_self r, fun x hx => ?_⟩
  obtain rfl := List.mem_singleton.mp hx
  exact ⟨hs, fun y _ hy => absurd (hnone ▸ hy) List.not_mem_nil⟩

theorem seeded_inOrder : seeded.InOrder always :=
  ⟨_, .refl _, declared_of_closed (fun d => if d.code = [] then [] else ["n"]) (by decide)⟩

theorem defaulted_inOrder : defaulted.InOrder always :=
  ⟨_, .refl _, declared_of_closed (fun d => if d.code = [] then [] else ["value"]) (by decide)⟩

theorem knotted_inOrder : knotted.InOrder once :=
  ⟨knotted.source.rotate 1, by decide,
    declared_of_closed (fun _ => ["c", "r"]) (by decide)⟩

theorem loaded_inOrder : loaded.InOrder always :=
  ⟨loaded.source.reverse, List.reverse_perm _, declared_of_closed (fun _ => ["load"]) (by decide)⟩

theorem hooked_inOrder : hooked.InOrder always :=
  ⟨_, .refl _, declared_of_closed (fun d => if d.code = [] then [] else ["n"]) (by decide)⟩

/-- Of a block in which nothing that is read is deferred, what its initialisers evaluate. -/
theorem evaluates_own {cs : List Const} {d : Const} {x : String}
    (h : Evaluates made cs d x) (hd : ∀ f ∈ cs, f.defers = true → f.name ∉ ["n"])
    (hcode : ∀ y ∈ d.code, y ∈ ["n"]) : x ∈ ["n"] :=
  h.mem_of_closed (fun y hy _ => hcode y hy) fun f hf hlazy hn => absurd hn (hd f hf hlazy)

theorem seeded_settled : seeded.Settled always [.ident "twice" .localName] []
    [.ident "m" .state] ["bump"] where
  props _ hp := by cases hp
  jobOnly d hd _ x hx := by
    have hcode : ∀ d ∈ (seeded.job [.ident "twice" .localName]).decls, ∀ y ∈ d.item.code,
        y ∈ ["n"] := by decide
    have hn := evaluates_own hx (by decide) (hcode d hd)
    exact fun hc => absurd hc (List.mem_singleton.mp hn ▸ by decide)
  job := untangled_of_flat (by decide) (by decide)
  eval _ hd := by cases hd
  states s hs _ x hx := by
    have hcode : ∀ s ∈ seeded.states, ∀ y ∈ codeIn seeded.chunkName (seeded.stateInit s),
        y ∈ ["n"] := by decide
    have hn := evaluates_own hx (by decide) (hcode s hs)
    exact fun hc => absurd hc (List.mem_singleton.mp hn ▸ by decide)
  chunk := untangled_of_flat (by decide) (by decide)
  preamble := untangled_of_flat (by decide) (by decide)

theorem consts_declared_seeded : seeded.AllDeclared always [.ident "twice" .localName] []
    [.ident "m" .state] ["bump"] :=
  (consts_declared seeded_inOrder).1 seeded_settled

/-- Components in order, of which an artifact reads a name before its initialiser: a default that
reads a prop that sorts later, a knot, a state that reads a handler, a hook's location. -/
theorem consts_not_declared :
    (defaulted.InOrder always ∧ ¬ Declared always
      (defaulted.job [.ident "label" .prop, .ident "value" .prop]).printed) ∧
    (knotted.InOrder once ∧ ¬ Declared once (knotted.job []).printed) ∧
    (loaded.InOrder always ∧ ¬ Declared always (loaded.chunk [] []).printed) ∧
    (hooked.InOrder always ∧ ¬ Declared always (hooked.evalModule [.ident "text" .localName])) := by
  refine ⟨⟨defaulted_inOrder, fun h => ?_⟩, ⟨knotted_inOrder, fun h => ?_⟩,
    ⟨loaded_inOrder, fun h => ?_⟩, ⟨hooked_inOrder, fun h => ?_⟩⟩
  · exact absurd h.own (by decide)
  · have hr : Evaluates once (knotted.job []).printed ⟨"n", ["c"], false⟩ "r" :=
      .run (f := ⟨"c", ["r"], true⟩) (.own (by decide) (by decide)) (by decide) rfl (by decide)
        (by decide)
    obtain ⟨r, hname, hs⟩ := h ⟨"n", ["c"], false⟩ (by decide) rfl "r" hr
    have hafter : ∀ r ∈ (knotted.job []).printed, r.name = "r" →
        ¬ [r, ⟨"n", ["c"], false⟩].Sublist (knotted.job []).printed := by decide
    exact hafter r (hs.subset List.mem_cons_self) hname hs
  · exact absurd h.own (by decide)
  · exact absurd h.own (by decide)

end ComponentIR

end Brust.Compiler
