import Brust.Compiler.Order

/-!
# Compiler — Constants and their initialisers

What the initialiser of a constant reads when it is evaluated: what it names itself, and what the
functions and computeds that it runs name (`Evaluates`).  Names declared around an ordered block are
declared before they are read where the reads of the block are `Settled` (`Settled.declared`).
-/

namespace Brust.Compiler

/-- A declaration as an artifact prints it: the component's names that its code names, and whether
evaluating it only makes a function or a computed. -/
structure Const where
  name : String
  code : List String
  defers : Bool
deriving DecidableEq

/-- The names read while the initialiser of `d` is evaluated, of the reads that a run makes. -/
inductive Evaluates (made : String → String → Prop) (cs : List Const) (d : Const) : String → Prop
  | own {x : String} (hx : x ∈ d.code) (hm : made d.name x) : Evaluates made cs d x
  | run {f : Const} {x : String} (hf : Evaluates made cs d f.name) (hmem : f ∈ cs)
      (hd : f.defers = true) (hx : x ∈ f.code) (hm : made f.name x) : Evaluates made cs d x

/-- Every name that an initialiser reads when it is evaluated is declared earlier. -/
def Declared (made : String → String → Prop) (cs : List Const) : Prop :=
  ∀ d ∈ cs, d.defers = false → ∀ x, Evaluates made cs d x → ∃ r, r.name = x ∧ [r, d].Sublist cs

theorem Evaluates.mono {made : String → String → Prop} {cs cs' : List Const} {d : Const}
    {x : String} (h : Evaluates made cs d x) (hs : cs ⊆ cs') : Evaluates made cs' d x := by
  induction h with
  | own hx hm => exact .own hx hm
  | run _ hmem hd hx hm ih => exact .run ih (hs hmem) hd hx hm

/-- What a declaration evaluates stays in a set that holds its reads and those of the functions in
it. -/
theorem Evaluates.mem_of_closed {made : String → String → Prop} {cs : List Const} {d : Const}
    {S : List String} (hown : ∀ x ∈ d.code, made d.name x → x ∈ S)
    (hrun : ∀ f ∈ cs, f.defers = true → f.name ∈ S → ∀ x ∈ f.code, made f.name x → x ∈ S)
    {x : String} (h : Evaluates made cs d x) : x ∈ S := by
  induction h with
  | own hx hm => exact hown _ hx hm
  | run _ hmem hd hx hm ih => exact hrun _ hmem hd ih _ hx hm

/-- Names are declared before they are read where those of such sets are. -/
theorem declared_of_closed {made : String → String → Prop} {cs : List Const}
    (S : Const → List String)
    (h : ∀ d ∈ cs, d.defers = false → (∀ x ∈ d.code, made d.name x → x ∈ S d) ∧
      (∀ f ∈ cs, f.defers = true → f.name ∈ S d → ∀ x ∈ f.code, made f.name x → x ∈ S d) ∧
      ∀ x ∈ S d, ∃ r ∈ cs, r.name = x ∧ [r, d].Sublist cs) : Declared made cs := by
  intro d hd hnow x hx
  obtain ⟨hown, hrun, hS⟩ := h d hd hnow
  obtain ⟨r, -, hr, hs⟩ := hS x (hx.mem_of_closed hown hrun)
  exact ⟨r, hr, hs⟩

/-- What an initialiser names itself is declared before it. -/
theorem Declared.own {made : String → String → Prop} {cs : List Const} (h : Declared made cs) :
    ∀ d ∈ cs, d.defers = false → ∀ x ∈ d.code, made d.name x →
      ∃ r ∈ cs, r.name = x ∧ [r, d].Sublist cs := by
  intro d hd hnow x hx hm
  obtain ⟨r, hr, hs⟩ := h d hd hnow x (.own hx hm)
  exact ⟨r, hs.subset List.mem_cons_self, hr, hs⟩

/-! ### An ordered block -/

/-- The declarations printed before, in, and after the ordered block. -/
structure Block where
  front : List Const
  decls : List (Decl Const)
  back : List Const

namespace Block

variable (b : Block) (made : String → String → Prop)

def consts : List Const := b.front ++ b.decls.map Decl.item ++ b.back

def printed : List Const := b.front ++ orderDecls b.decls ++ b.back

/-- The names are distinct, and what is printed around the block is plain. -/
structure Plain : Prop where
  distinct : (b.consts.map Const.name).Nodup
  named : ∀ d ∈ b.decls, d.item.name = d.name
  front : ∀ d ∈ b.front, d.defers = false
  back : ∀ d ∈ b.back, d.defers = true

/-- Where an initialiser reads a name of the block, itself or in a function that it runs, either no
knot starts at the reader to which both the initialiser and what is read belong, or what is read,
and all that that reads, stand at earlier locations. -/
def Untangled : Prop :=
  ∀ d ∈ b.decls, d.item.defers = false → ∀ c ∈ b.decls,
    c = d ∨ c.item.defers = true ∧ Evaluates made b.consts d.item c.name →
      ∀ r ∈ b.decls, r.name ∈ c.item.code → made c.name r.name →
        (r.name ∈ c.reads ∧ ∀ T, Knot (byLoc b.decls) c T → d ∈ T → r ∉ T) ∨
          Earlier (byLoc b.decls) r d

/-- What the block reads is declared before it or in it; before it, each name stands earlier. -/
structure Settled : Prop where
  front : ∀ d ∈ b.front, ∀ x, Evaluates made b.consts d x →
    ∃ r, r.name = x ∧ [r, d].Sublist b.front
  known : ∀ d ∈ b.decls, d.item.defers = false → ∀ x, Evaluates made b.consts d.item x →
    x ∈ b.front.map Const.name ∨ x ∈ b.decls.map Decl.name
  order : b.Untangled made

variable {b made}

theorem printed_perm (b : Block) : b.printed.Perm b.consts :=
  ((orderDecls_perm b.decls).append_left b.front).append_right b.back

theorem Plain.decl_inj (h : b.Plain) {x y : Decl Const} (hx : x ∈ b.decls) (hy : y ∈ b.decls)
    (hname : x.name = y.name) : x = y := by
  have hd := h.distinct
  rw [consts, List.map_append, List.map_append] at hd
  have hd := (List.nodup_append.mp (List.nodup_append.mp hd).1).2.1
  rw [List.map_map] at hd
  refine List.inj_on_of_nodup_map hd hx hy ?_
  rw [Function.comp_apply, Function.comp_apply, h.named x hx, h.named y hy, hname]

theorem Plain.nodup (h : b.Plain) : b.decls.Nodup := by
  have hd := h.distinct
  rw [consts, List.map_append, List.map_append] at hd
  have hd := (List.nodup_append.mp (List.nodup_append.mp hd).1).2.1
  rw [List.map_map] at hd
  exact hd.of_map

theorem Plain.not_back (h : b.Plain) {f : Const} (hf : f ∈ b.back) :
    f.name ∉ b.front.map Const.name ∧ f.name ∉ b.decls.map Decl.name := by
  have hd := h.distinct
  rw [consts, List.map_append] at hd
  have hdisj := (List.nodup_append.mp hd).2.2
  have hback : f.name ∈ b.back.map Const.name := List.mem_map_of_mem hf
  rw [List.map_append] at hdisj
  refine ⟨fun hin => hdisj _ (List.mem_append_left _ hin) _ hback rfl, fun hin => ?_⟩
  obtain ⟨D, hD, hname⟩ := List.mem_map.mp hin
  refine hdisj _ (List.mem_append_right _ ?_) _ hback rfl
  rw [← hname, ← h.named D hD]
  exact List.mem_map_of_mem (List.mem_map_of_mem hD)

/-- What an initialiser of the block reads of the block comes earlier in it. -/
theorem Settled.before (h : b.Settled made) (hp : b.Plain)
    (hself : ∀ d ∈ b.decls, d.item.defers = false → ¬ Evaluates made b.consts d.item d.name)
    {d : Decl Const} (hd : d ∈ b.decls) (hnow : d.item.defers = false) {x : String}
    (hx : Evaluates made b.consts d.item x) {r : Decl Const} (hr : r ∈ b.decls)
    (hname : r.name = x) : [r, d].Sublist (ordered b.decls) := by
  have hnodup : (byLoc b.decls).Nodup := (List.perm_insertionSort _ _).nodup_iff.mpr hp.nodup
  have hout : (ordered b.decls).Nodup := (ordered_perm b.decls).nodup_iff.mpr hp.nodup
  have hlen : b.decls.length = (byLoc b.decls).length := (List.length_insertionSort ..).symm
  have hin : ∀ {y}, y ∈ b.decls → y ∈ ordered b.decls := fun hy =>
    (ordered_perm b.decls).mem_iff.mpr hy
  have hearlier : ∀ {r}, Earlier (byLoc b.decls) r d → [r, d].Sublist (ordered b.decls) :=
    fun he => before_of_earlier he hnodup hlen ((List.mem_insertionSort _).mpr hd)
  induction hx generalizing r with
  | @own x hx hm =>
      subst hname
      have hne : r ≠ d := by
        rintro rfl
        exact hself r hd hnow (.own hx hm)
      have hm' : made d.name r.name := hp.named d hd ▸ hm
      rcases h.order d hd hnow d hd (.inl rfl) r hr hx hm' with ⟨hread, hknot⟩ | he
      · refine (before_or_after (hin hr) (hin hd) hne).resolve_right fun hbefore => ?_
        obtain ⟨T, hT, hall⟩ := knot_of_before hbefore
          (fun he => hne (hp.decl_inj hr hd he)) hread
        exact hknot T hT hT.mem (hall r hbefore)
      · exact hearlier he
  | @run f x hf hmem hlazy hx hm ih =>
      subst hname
      -- what it runs is a declaration of the block, which comes earlier
      obtain ⟨c, hc, rfl⟩ : ∃ c ∈ b.decls, c.item = f := by
        rcases List.mem_append.mp hmem with hmem | hmem
        · rcases List.mem_append.mp hmem with hmem | hmem
          · exact absurd ((hp.front f hmem).symm.trans hlazy) Bool.false_ne_true
          · exact List.mem_map.mp hmem
        · obtain ⟨hnf, hnd⟩ := hp.not_back hmem
          exact absurd (h.known d hd hnow f.name hf) (not_or.mpr ⟨hnf, hnd⟩)
      have hcd := ih hc (hp.named c hc).symm
      have hne : r ≠ d := by
        rintro rfl
        exact hself r hd hnow (.run hf hmem hlazy hx hm)
      have hm' : made c.name r.name := hp.named c hc ▸ hm
      have hf' : Evaluates made b.consts d.item c.name := hp.named c hc ▸ hf
      rcases h.order d hd hnow c hc (.inr ⟨hlazy, hf'⟩) r hr hx hm' with ⟨hread, hknot⟩ | he
      · refine (before_or_after (hin hr) (hin hd) hne).resolve_right fun hbefore => ?_
        have hcr := before_trans hout hcd hbefore
        obtain ⟨T, hT, hall⟩ := knot_of_before hcr
          (fun he => ne_of_before hout hcr (hp.decl_inj hc hr he.symm)) hread
        exact hknot T hT (hall d hcd) (hall r hcr)
      · exact hearlier he

/-- **Names are declared before they are read.** -/
theorem Settled.declared (h : b.Settled made) (hp : b.Plain)
    (hself : ∀ d ∈ b.decls, d.item.defers = false → ¬ Evaluates made b.consts d.item d.name) :
    Declared made b.printed := by
  intro d hd hnow x hx
  have hx : Evaluates made b.consts d x := hx.mono (printed_perm b).subset
  rcases List.mem_append.mp hd with hd | hd
  · rcases List.mem_append.mp hd with hd | hd
    · obtain ⟨r, hr, hsub⟩ := h.front d hd x hx
      exact ⟨r, hr, (hsub.trans (List.sublist_append_left ..)).trans (List.sublist_append_left ..)⟩
    · obtain ⟨D, hD, rfl⟩ := List.mem_map.mp hd
      have hD := (ordered_perm b.decls).mem_iff.mp hD
      rcases h.known D hD hnow x hx with hfront | hblock
      · obtain ⟨r, hr, rfl⟩ := List.mem_map.mp hfront
        refine ⟨r, rfl, List.Sublist.trans ?_ (List.sublist_append_left ..)⟩
        exact (List.singleton_sublist.mpr hr).append (List.singleton_sublist.mpr hd)
      · obtain ⟨r, hr, rfl⟩ := List.mem_map.mp hblock
        refine ⟨r.item, hp.named r hr, List.Sublist.trans ?_ (List.sublist_append_left ..)⟩
        refine List.Sublist.trans ?_ (List.sublist_append_right ..)
        exact (h.before hp hself hD hnow hx hr rfl).map Decl.item
  · exact absurd (hnow.symm.trans (hp.back d hd)) Bool.false_ne_true

/-- And so no knot starts at an initialiser that reads another of it, and none reads what is printed
after the block. -/
theorem untangled_of_declared (h : Declared made b.printed) (hp : b.Plain) {d : Decl Const}
    (hd : d ∈ b.decls) (hnow : d.item.defers = false) :
    (∀ r ∈ b.decls, r.name ∈ d.item.code → made d.name r.name →
      ∀ T, Knot (byLoc b.decls) d T → r ∉ T) ∧
    ∀ x, Evaluates made b.consts d.item x → x ∉ b.back.map Const.name := by
  have hnames : (b.printed.map Const.name).Nodup :=
    ((printed_perm b).map _).nodup_iff.mpr hp.distinct
  have hprinted : ∀ {e : Decl Const}, e ∈ b.decls → e.item ∈ orderDecls b.decls := fun he =>
    List.mem_map_of_mem ((ordered_perm b.decls).mem_iff.mpr he)
  have hin : d.item ∈ b.printed :=
    List.mem_append_left _ (List.mem_append_right _ (hprinted hd))
  -- whatever has the name stands earlier
  have hearlier : ∀ x, Evaluates made b.consts d.item x → ∀ c ∈ b.printed, c.name = x →
      [c, d.item].Sublist b.printed := by
    intro x hx c hc hname
    obtain ⟨r, hr, hsub⟩ := h d.item hin hnow x (hx.mono (printed_perm b).symm.subset)
    obtain rfl := List.inj_on_of_nodup_map hnames (hsub.subset List.mem_cons_self) hc
      (hr.trans hname.symm)
    exact hsub
  refine ⟨fun r hr hx hm T hT hrT => ?_, fun x hx hback => ?_⟩
  · have hx : Evaluates made b.consts d.item r.name := .own hx ((hp.named d hd).symm ▸ hm)
    have hrd := hearlier _ hx r.item
      (List.mem_append_left _ (List.mem_append_right _ (hprinted hr))) (hp.named r hr)
    have hne : r ≠ d := by
      rintro rfl
      exact ne_of_before hnames.of_map hrd rfl
    have hnodup : (byLoc b.decls).Nodup := (List.perm_insertionSort _ _).nodup_iff.mpr hp.nodup
    have hdr := (before_of_knot hT hnodup (List.length_insertionSort ..).symm r hrT hne).map
      Decl.item
    have hdr : [d.item, r.item].Sublist b.printed :=
      (hdr.trans (List.sublist_append_right ..)).trans (List.sublist_append_left ..)
    exact ne_of_before hnames.of_map (before_trans hnames.of_map hrd hdr) rfl
  · obtain ⟨c, hc, rfl⟩ := List.mem_map.mp hback
    have hcd := hearlier _ hx c (List.mem_append_right _ hc) rfl
    have hdc : [d.item, c].Sublist b.printed :=
      (List.singleton_sublist.mpr (List.mem_append_right _ (hprinted hd))).append
        (List.singleton_sublist.mpr hc)
    exact ne_of_before hnames.of_map (before_trans hnames.of_map hcd hdc) rfl

end Block

end Brust.Compiler
