import Mathlib.Data.Finset.Card
import Mathlib.Data.Set.Finite.Basic
import Mathlib.Data.Finset.Union
import Mathlib.Data.Set.Lattice
import Mathlib.Order.CompletePartialOrder
import Std.Data.String.ToNat

/-!
# Compiler — generated names

`lower/names.rs`: the allocator of one output.  A single name is recorded as it is, a family of
numbered names by its prefix alone, so a family's numbers are told apart from the names before it
but not from those after it.

Every step adds to the recorded names what it hands out (`taken_run`).  What a family hands out is
apart from everything recorded, and a single name from every recorded one; that leaves the names
which an earlier family spells (`distinct_push_iff`).  So a run's names are distinct if no call's
candidates are spelled by those of an earlier family, and two calls of which this fails hand out
names that meet from some seed (`names_distinct_iff`).
-/

namespace Brust.Compiler

/-- The names taken so far. -/
structure Names where
  taken : Finset String

namespace Names

/-- `base`, `base1`, `base2`, … -/
def numbered (base : String) (n : ℕ) : String := if n = 0 then base else base ++ toString n

/-- `t` is `p` followed by digits only, or by nothing. -/
def continues (p t : String) : Bool :=
  p.toList.isPrefixOf t.toList && (t.toList.drop p.toList.length).all Char.isDigit

/-- A taken name continues `p` with digits only. -/
def clashes (p : String) (taken : Finset String) : Bool :=
  decide (∃ t ∈ taken, continues p t = true)

theorem continues_iff {p t : String} :
    continues p t = true ↔ ∃ ds, t.toList = p.toList ++ ds ∧ ∀ c ∈ ds, c.isDigit = true := by
  rw [continues, Bool.and_eq_true, List.isPrefixOf_iff_prefix, List.all_eq_true]
  constructor
  · rintro ⟨⟨ds, hds⟩, hall⟩
    rw [← hds, List.drop_left] at hall
    exact ⟨ds, hds.symm, hall⟩
  · rintro ⟨ds, hds, hall⟩
    rw [hds, List.drop_left]
    exact ⟨List.prefix_append _ _, hall⟩

/-! ### A name that is left -/

theorem numbered_injective (base : String) : Function.Injective (numbered base) := by
  have hne : ∀ n, 0 < n → base ≠ base ++ toString n := by
    intro n _ h
    have hlen := congrArg (fun s => s.toList.length) h
    have hpos : 0 < (toString n).toList.length := by
      rw [show (toString n).toList = Nat.toDigits 10 n from String.toList_ofList]
      exact List.length_pos_of_ne_nil Nat.toDigits_ne_nil
    simp only [String.toList_append, List.length_append] at hlen
    omega
  intro m n h
  rw [numbered, numbered] at h
  split at h <;> split at h
  · omega
  · exact absurd h (hne n (by omega))
  · exact absurd h.symm (hne m (by omega))
  · have htext := congrArg String.toList h
    rw [String.toList_append, String.toList_append] at htext
    exact Nat.repr_injective (String.toList_inj.mp (List.append_cancel_left htext))

/-- Of infinitely many names one is outside a finite set. -/
theorem exists_numbered_notMem (base : String) (s : Finset String) : ∃ n, numbered base n ∉ s := by
  by_contra hall
  rw [not_exists] at hall
  exact Set.infinite_range_of_injective (numbered_injective base)
    (s.finite_toSet.subset (Set.range_subset_iff.mpr fun n => not_not.mp (hall n)))

/-- A name clashes with finitely many prefixes only. -/
theorem exists_numbered_free (base : String) (taken : Finset String) :
    ∃ n, clashes (numbered base n) taken = false := by
  obtain ⟨n, hn⟩ := exists_numbered_notMem base
    (taken.biUnion fun t => (t.toList.inits.map String.ofList).toFinset)
  refine ⟨n, decide_eq_false ?_⟩
  rintro ⟨t, ht, hcontinues⟩
  obtain ⟨ds, hds, -⟩ := continues_iff.mp hcontinues
  refine hn (Finset.mem_biUnion.mpr ⟨t, ht, List.mem_toFinset.mpr (List.mem_map.mpr
    ⟨(numbered base n).toList, ?_, String.ofList_toList⟩)⟩)
  rw [List.mem_inits, hds]
  exact List.prefix_append _ _

/-! ### The allocator -/

/-- `Names::new` -/
def new (seed : Finset String) : Names := ⟨seed⟩

def reserve (ns : Names) (name : String) : Names := ⟨insert name ns.taken⟩

/-- The first of `base`, `base1`, … that is not taken. -/
def firstFree (ns : Names) (base : String) : String :=
  numbered base (Nat.find (exists_numbered_notMem base ns.taken))

def fresh (ns : Names) (base : String) : Names × String :=
  (⟨insert (ns.firstFree base) ns.taken⟩, ns.firstFree base)

/-- The first of `base`, `base1`, … that no taken name continues with digits only. -/
def firstPrefix (ns : Names) (base : String) : String :=
  numbered base (Nat.find (exists_numbered_free base ns.taken))

def freshFamily (ns : Names) (base : String) : Names × String :=
  (⟨insert (ns.firstPrefix base) ns.taken⟩, ns.firstPrefix base)

/-! ### Runs -/

inductive Call where
  | reserve (name : String)
  | fresh (base : String)
  | freshFamily (base : String)

/-- What a call adds: a reserved name, a name handed out, or a family by its prefix. -/
inductive Given where
  | reserved (name : String)
  | name (name : String)
  | family (p : String)
deriving DecidableEq

/-- The names it stands for: a family is its prefix followed by digits. -/
def Given.spells : Given → Set String
  | reserved n => {n}
  | name n => {n}
  | family p => {t | ∃ ds, ds ≠ [] ∧ t.toList = p.toList ++ ds ∧ ∀ c ∈ ds, c.isDigit = true}

/-- What is recorded of it. -/
def Given.recorded : Given → String
  | reserved n => n
  | name n => n
  | family p => p

def Given.HandedOut : Given → Prop
  | reserved _ => False
  | _ => True

/-- An allocator and what its calls added, in their order. -/
structure Run where
  names : Names
  given : List Given

def Run.start (seed : Finset String) : Run := ⟨new seed, []⟩

def Run.push (r : Run) : Call → Run
  | .reserve n => ⟨r.names.reserve n, r.given ++ [.reserved n]⟩
  | .fresh base => ⟨(r.names.fresh base).1, r.given ++ [.name (r.names.fresh base).2]⟩
  | .freshFamily base =>
    ⟨(r.names.freshFamily base).1, r.given ++ [.family (r.names.freshFamily base).2]⟩

def run (seed : Finset String) (calls : List Call) : Run := calls.foldl Run.push (Run.start seed)

/-- Nothing handed out stands for a seed or for what was handed out or reserved before. -/
structure Distinct (seed : Finset String) (given : List Given) : Prop where
  before : given.Pairwise fun a b => b.HandedOut → Disjoint a.spells b.spells
  seeds : ∀ b ∈ given, b.HandedOut → ∀ s ∈ seed, s ∉ b.spells

/-- No candidate of the later call is one of an earlier family's followed by digits. -/
def Apart : Call → Call → Prop
  | .freshFamily earlier, .fresh base | .freshFamily earlier, .freshFamily base =>
      ∀ m n, numbered base n ∉ (Given.family (numbered earlier m)).spells
  | _, _ => True

/-! ### What is recorded -/

theorem taken_push (r : Run) (c : Call) : ∃ g, (r.push c).given = r.given ++ [g] ∧
    (r.push c).names.taken = insert g.recorded r.names.taken := by
  cases c with
  | reserve n => exact ⟨_, rfl, rfl⟩
  | fresh base => exact ⟨_, rfl, rfl⟩
  | freshFamily base => exact ⟨_, rfl, rfl⟩

/-- The taken names are the seeds and what the calls recorded. -/
theorem taken_run (seed : Finset String) (calls : List Call) (x : String) :
    x ∈ (run seed calls).names.taken ↔
      x ∈ seed ∨ ∃ g ∈ (run seed calls).given, g.recorded = x := by
  induction calls using List.reverseRecOn with
  | nil => simp [run, Run.start, new]
  | append_singleton calls c ih =>
      obtain ⟨g, hgiven, htaken⟩ := taken_push (run seed calls) c
      rw [run, List.foldl_append]
      change x ∈ ((run seed calls).push c).names.taken ↔
        x ∈ seed ∨ ∃ g ∈ ((run seed calls).push c).given, g.recorded = x
      rw [htaken, hgiven, Finset.mem_insert, ih]
      simp only [List.mem_append, List.mem_singleton, or_and_right, exists_or, exists_eq_left,
        eq_comm (a := x)]
      rw [or_comm, or_assoc]

/-! ### Families -/

theorem digits_append {p q ds es : List Char} (hds : ∀ c ∈ ds, c.isDigit = true)
    (hes : ∀ c ∈ es, c.isDigit = true) (h : p ++ ds = q ++ es) :
    (∃ xs, q = p ++ xs ∧ ∀ c ∈ xs, c.isDigit = true) ∨
      ∃ xs, p = q ++ xs ∧ ∀ c ∈ xs, c.isDigit = true := by
  rcases List.append_eq_append_iff.mp h with ⟨xs, hq, rfl⟩ | ⟨xs, hp, rfl⟩
  · exact .inl ⟨xs, hq, fun c hc => hds c (List.mem_append_left _ hc)⟩
  · exact .inr ⟨xs, hp, fun c hc => hes c (List.mem_append_left _ hc)⟩

/-- Two families of which neither continues the other, or of which the first spells the second's
prefix. -/
theorem disjoint_families {p q : String} (hno : continues q p = false) :
    Disjoint (Given.family p).spells (Given.family q).spells ↔ q ∉ (Given.family p).spells := by
  constructor
  · rintro hdisjoint ⟨ds, hne, hq, hds⟩
    have hzero : ∀ c ∈ ['0'], c.isDigit = true := List.forall_mem_singleton.mpr rfl
    have hp : q ++ "0" ∈ (Given.family p).spells := by
      refine ⟨ds ++ ['0'], by simp, ?_, ?_⟩
      · rw [String.toList_append, hq, List.append_assoc]
        rfl
      · intro c hc
        exact (List.mem_append.mp hc).elim (hds c) (hzero c)
    exact Set.disjoint_left.mp hdisjoint hp ⟨['0'], by simp, String.toList_append, hzero⟩
  · intro hq
    refine Set.disjoint_left.mpr ?_
    rintro t ⟨ds, -, ht, hds⟩ ⟨es, -, ht', hes⟩
    rw [ht] at ht'
    rcases digits_append hds hes ht' with ⟨xs, hxs, hdigits⟩ | ⟨xs, hxs, hdigits⟩
    · refine hq ⟨xs, ?_, hxs, hdigits⟩
      rintro rfl
      rw [List.append_nil] at hxs
      have hself : continues q p = true :=
        continues_iff.mpr ⟨[], by rw [hxs, List.append_nil], fun c hc => by cases hc⟩
      rw [hno] at hself
      cases hself
    · have hself : continues q p = true := continues_iff.mpr ⟨xs, hxs, hdigits⟩
      rw [hno] at hself
      cases hself

theorem recorded_notMem_spells {p : String} {taken : Finset String}
    (hno : clashes p taken = false) {t : String} (ht : t ∈ taken) :
    t ∉ (Given.family p).spells ∧ continues p t = false := by
  have hcontinues : continues p t = false := by
    by_contra hyes
    exact of_decide_eq_false hno ⟨t, ht, (Bool.not_eq_false _).mp hyes⟩
  refine ⟨?_, hcontinues⟩
  rintro ⟨ds, -, hds, hdigits⟩
  rw [continues_iff.mpr ⟨ds, hds, hdigits⟩] at hcontinues
  cases hcontinues

/-! ### A call -/

theorem firstFree_notMem (ns : Names) (base : String) : ns.firstFree base ∉ ns.taken :=
  Nat.find_spec (exists_numbered_notMem base ns.taken)

theorem firstPrefix_free (ns : Names) (base : String) :
    clashes (ns.firstPrefix base) ns.taken = false :=
  Nat.find_spec (exists_numbered_free base ns.taken)

theorem pairwise_concat {α : Type} {R : α → α → Prop} {l : List α} {b : α} :
    (l ++ [b]).Pairwise R ↔ l.Pairwise R ∧ ∀ a ∈ l, R a b := by
  rw [List.pairwise_append]
  simp

/-- What is added last, and the names before it. -/
theorem distinct_concat {seed : Finset String} {given : List Given} {b : Given} :
    Distinct seed (given ++ [b]) ↔ Distinct seed given ∧
      (b.HandedOut → (∀ a ∈ given, Disjoint a.spells b.spells) ∧ ∀ s ∈ seed, s ∉ b.spells) := by
  constructor
  · rintro ⟨hbefore, hseeds⟩
    obtain ⟨hpairs, hlast⟩ := pairwise_concat.mp hbefore
    exact ⟨⟨hpairs, fun g hg => hseeds g (List.mem_append_left _ hg)⟩, fun hb =>
      ⟨fun a ha => hlast a ha hb,
        hseeds b (List.mem_append_right _ (List.mem_singleton_self b)) hb⟩⟩
  · rintro ⟨⟨hbefore, hseeds⟩, hlast⟩
    refine ⟨pairwise_concat.mpr ⟨hbefore, fun a ha hb => (hlast hb).1 a ha⟩, fun g hg hout => ?_⟩
    rcases List.mem_append.mp hg with hg | hg
    · exact hseeds g hg hout
    · obtain rfl := List.mem_singleton.mp hg
      exact (hlast hout).2

/-- A name that is not taken is apart from all that is recorded, and from the families that do not
spell it. -/
theorem fresh_apart {seed : Finset String} {r : Run} {x : String}
    (hseed : ∀ s ∈ seed, s ∈ r.names.taken) (hgiven : ∀ g ∈ r.given, g.recorded ∈ r.names.taken)
    (hx : x ∉ r.names.taken) :
    ((∀ a ∈ r.given, Disjoint a.spells (Given.name x).spells) ∧
      ∀ s ∈ seed, s ∉ (Given.name x).spells) ↔
    ∀ p, .family p ∈ r.given → x ∉ (Given.family p).spells := by
  constructor
  · rintro ⟨hall, -⟩ p hp
    exact fun hxp => Set.disjoint_left.mp (hall _ hp) hxp rfl
  · intro hfamilies
    refine ⟨fun a ha => Set.disjoint_singleton_right.mpr ?_, fun s hs hsx => ?_⟩
    · cases a with
      | reserved n =>
          rintro rfl
          exact hx (hgiven _ ha)
      | name n =>
          rintro rfl
          exact hx (hgiven _ ha)
      | family p => exact hfamilies p ha
    · obtain rfl : s = x := hsx
      exact hx (hseed _ hs)

/-- A prefix that does not clash is apart from all that is recorded, and from the families that do
not spell it. -/
theorem family_apart {seed : Finset String} {r : Run} {q : String}
    (hseed : ∀ s ∈ seed, s ∈ r.names.taken) (hgiven : ∀ g ∈ r.given, g.recorded ∈ r.names.taken)
    (hq : clashes q r.names.taken = false) :
    ((∀ a ∈ r.given, Disjoint a.spells (Given.family q).spells) ∧
      ∀ s ∈ seed, s ∉ (Given.family q).spells) ↔
    ∀ p, .family p ∈ r.given → q ∉ (Given.family p).spells := by
  constructor
  · rintro ⟨hall, -⟩ p hp
    exact (disjoint_families (recorded_notMem_spells hq (hgiven _ hp)).2).mp (hall _ hp)
  · intro hfamilies
    refine ⟨fun a ha => ?_, fun s hs => (recorded_notMem_spells hq (hseed s hs)).1⟩
    have hrecorded := recorded_notMem_spells hq (hgiven a ha)
    cases a with
    | reserved n => exact Set.disjoint_singleton_left.mpr hrecorded.1
    | name n => exact Set.disjoint_singleton_left.mpr hrecorded.1
    | family p => exact (disjoint_families hrecorded.2).mpr (hfamilies p ha)

/-- The name or the prefix that a call answers. -/
def Run.answer (r : Run) : Call → Option String
  | .reserve _ => none
  | .fresh base => some (r.names.firstFree base)
  | .freshFamily base => some (r.names.firstPrefix base)

/-- A call keeps the names distinct exactly where no earlier family spells what it answers. -/
theorem distinct_push_iff {seed : Finset String} {r : Run}
    (hseed : ∀ s ∈ seed, s ∈ r.names.taken) (hgiven : ∀ g ∈ r.given, g.recorded ∈ r.names.taken)
    (c : Call) : Distinct seed (r.push c).given ↔ Distinct seed r.given ∧
      ∀ x ∈ r.answer c, ∀ p, .family p ∈ r.given → x ∉ (Given.family p).spells := by
  cases c with
  | reserve n =>
      rw [Run.push, distinct_concat]
      exact and_congr_right fun _ => iff_of_true (fun h => h.elim) fun x hx => by cases hx
  | fresh base =>
      simp only [Run.answer, Option.mem_some_iff, forall_eq']
      rw [← fresh_apart hseed hgiven (firstFree_notMem r.names base), Run.push, distinct_concat]
      exact and_congr_right fun _ => ⟨fun h => h trivial, fun h _ => h⟩
  | freshFamily base =>
      simp only [Run.answer, Option.mem_some_iff, forall_eq']
      rw [← family_apart hseed hgiven (firstPrefix_free r.names base), Run.push, distinct_concat]
      exact and_congr_right fun _ => ⟨fun h => h trivial, fun h _ => h⟩

theorem run_concat (seed : Finset String) (calls : List Call) (c : Call) :
    run seed (calls ++ [c]) = (run seed calls).push c := by
  rw [run, List.foldl_append]
  rfl

theorem distinct_run_concat {seed : Finset String} {calls : List Call} {c : Call} :
    Distinct seed (run seed (calls ++ [c])).given ↔ Distinct seed (run seed calls).given ∧
      ∀ x ∈ (run seed calls).answer c, ∀ p, .family p ∈ (run seed calls).given →
        x ∉ (Given.family p).spells := by
  rw [run_concat, distinct_push_iff (fun s hs => (taken_run seed calls s).mpr (.inl hs))
    fun g hg => (taken_run seed calls g.recorded).mpr (.inr ⟨g, hg, rfl⟩)]

/-- A family of the run is a candidate of a call that asked for one. -/
theorem family_of_run {seed : Finset String} {calls : List Call} {p : String}
    (h : .family p ∈ (run seed calls).given) :
    ∃ base m, .freshFamily base ∈ calls ∧ p = numbered base m := by
  induction calls using List.reverseRecOn with
  | nil => cases h
  | append_singleton calls c ih =>
      rw [run_concat] at h
      cases c with
      | reserve n | fresh base =>
          rcases List.mem_append.mp h with h | h
          · obtain ⟨base, m, hcall, hp⟩ := ih h
            exact ⟨base, m, List.mem_append_left _ hcall, hp⟩
          · cases List.mem_singleton.mp h
      | freshFamily base =>
          rcases List.mem_append.mp h with h | h
          · obtain ⟨base, m, hcall, hp⟩ := ih h
            exact ⟨base, m, List.mem_append_left _ hcall, hp⟩
          · cases List.mem_singleton.mp h
            exact ⟨base, _, List.mem_append_right _ (List.mem_singleton_self _), rfl⟩

/-- **Where no call's candidates are spelled by an earlier family's, all names are distinct.** -/
theorem distinct_of_apart {calls : List Call} (h : calls.Pairwise Apart) (seed : Finset String) :
    Distinct seed (run seed calls).given := by
  induction calls using List.reverseRecOn with
  | nil => exact ⟨List.Pairwise.nil, fun b hb => by cases hb⟩
  | append_singleton calls c ih =>
      obtain ⟨hcalls, hlast⟩ := pairwise_concat.mp h
      refine distinct_run_concat.mpr ⟨ih hcalls, fun x hx p hp => ?_⟩
      obtain ⟨earlier, m, hearlier, rfl⟩ := family_of_run hp
      have hapart := hlast _ hearlier
      cases c with
      | reserve n => cases hx
      | fresh base | freshFamily base =>
          obtain rfl := Option.mem_some_iff.mp hx
          exact hapart m _

/-! ### Two calls that meet -/

/-- A smaller number does not continue a larger one. -/
theorem numbered_of_lt {base : String} {k m : ℕ} (hk : k < m) {ds : List Char} :
    (numbered base k).toList ≠ (numbered base m).toList ++ ds := by
  have hm : m ≠ 0 := Nat.ne_of_gt (Nat.zero_lt_of_lt hk)
  have hdigits : ∀ n : ℕ, (toString n).toList = Nat.toDigits 10 n := fun n => String.toList_ofList
  intro h
  have hself := h
  rw [numbered, numbered, if_neg hm, String.toList_append, hdigits, List.append_assoc] at h
  split at h
  · -- the numeral of `m` has a digit
    have hlen := congrArg List.length h
    have hpos : 0 < (Nat.toDigits 10 m).length := Nat.length_toDigits_pos
    simp only [List.length_append] at hlen
    omega
  · rw [String.toList_append, hdigits] at h
    have hnumeral := List.append_cancel_left h
    have hle : (Nat.toDigits 10 k).length ≤ (Nat.toDigits 10 m).length := by
      rw [Nat.length_toDigits_le_iff (by decide) Nat.length_toDigits_pos]
      exact hk.trans ((Nat.length_toDigits_le_iff (by decide) Nat.length_toDigits_pos).mp le_rfl)
    have hlen := congrArg List.length hnumeral
    rw [List.length_append] at hlen
    have hnil : ds = [] := List.length_eq_zero_iff.mp (by omega)
    rw [hnil, List.append_nil] at hself
    exact Nat.ne_of_lt hk (numbered_injective base (String.toList_inj.mp hself))

/-- The seed that has a family call answer its `m`th candidate, and a later call its `n`th. -/
def meetingSeed (earlier base : String) (m n : ℕ) : Finset String :=
  ((Finset.range n).image (numbered base)).erase (numbered earlier m) ∪
    (Finset.range m).image (numbered earlier)

section Meeting

variable {earlier base : String} {m n : ℕ}
  (hn : numbered base n ∈ (Given.family (numbered earlier m)).spells)
  (hmin : ∀ k < n, ∀ j, numbered base k ∉ (Given.family (numbered earlier j)).spells)

include hmin in
/-- The family's prefix is the `m`th candidate. -/
theorem firstPrefix_meeting :
    (new (meetingSeed earlier base m n)).firstPrefix earlier = numbered earlier m := by
  refine congrArg (numbered earlier) ((Nat.find_eq_iff _).mpr ⟨decide_eq_false ?_, fun k hk => ?_⟩)
  · rintro ⟨t, ht, hcontinues⟩
    obtain ⟨ds, hds, hdigits⟩ := continues_iff.mp hcontinues
    rcases Finset.mem_union.mp ht with ht | ht
    · obtain ⟨hne, ht⟩ := Finset.mem_erase.mp ht
      obtain ⟨k, hk, rfl⟩ := Finset.mem_image.mp ht
      refine hmin k (Finset.mem_range.mp hk) m ⟨ds, ?_, hds, hdigits⟩
      rintro rfl
      exact hne (String.toList_inj.mp (by rw [hds, List.append_nil]))
    · obtain ⟨k, hk, rfl⟩ := Finset.mem_image.mp ht
      exact numbered_of_lt (Finset.mem_range.mp hk) hds
  · have hself : clashes (numbered earlier k) (meetingSeed earlier base m n) = true := by
      refine decide_eq_true ⟨numbered earlier k, Finset.mem_union_right _ ?_, ?_⟩
      · exact Finset.mem_image.mpr ⟨k, Finset.mem_range.mpr hk, rfl⟩
      · exact continues_iff.mpr ⟨[], (List.append_nil _).symm, fun c hc => by cases hc⟩
    rw [new, hself]
    exact Bool.noConfusion

include hn

/-- What the later call may not answer is recorded, and nothing recorded continues the `n`th
candidate. -/
theorem recorded_meeting :
    (∀ k < n, numbered base k ∈
      insert (numbered earlier m) (meetingSeed earlier base m n)) ∧
    ∀ t ∈ insert (numbered earlier m) (meetingSeed earlier base m n),
      ∀ ds, t.toList ≠ (numbered base n).toList ++ ds := by
  obtain ⟨es, hne, hes, -⟩ := hn
  constructor
  · intro k hk
    by_cases heq : numbered base k = numbered earlier m
    · exact heq ▸ Finset.mem_insert_self _ _
    · refine Finset.mem_insert_of_mem (Finset.mem_union_left _ (Finset.mem_erase.mpr ⟨heq, ?_⟩))
      exact Finset.mem_image.mpr ⟨k, Finset.mem_range.mpr hk, rfl⟩
  · intro t ht ds hds
    rcases Finset.mem_insert.mp ht with rfl | ht
    · -- the candidate is longer than the prefix
      rw [hes] at hds
      have hlen := congrArg List.length hds
      have hpos := List.length_pos_of_ne_nil hne
      simp only [List.length_append] at hlen
      omega
    rcases Finset.mem_union.mp ht with ht | ht
    · obtain ⟨k, hk, rfl⟩ := Finset.mem_image.mp (Finset.mem_of_mem_erase ht)
      exact numbered_of_lt (Finset.mem_range.mp hk) hds
    · obtain ⟨k, hk, rfl⟩ := Finset.mem_image.mp ht
      rw [hes, List.append_assoc] at hds
      exact numbered_of_lt (Finset.mem_range.mp hk) hds

theorem firstFree_meeting :
    (⟨insert (numbered earlier m) (meetingSeed earlier base m n)⟩ : Names).firstFree base =
      numbered base n := by
  obtain ⟨hbefore, hfree⟩ := recorded_meeting hn
  refine congrArg (numbered base) ((Nat.find_eq_iff _).mpr ⟨fun ht => ?_, fun k hk hnot => ?_⟩)
  · exact hfree _ ht [] (List.append_nil _).symm
  · exact hnot (hbefore k hk)

theorem firstPrefix_meeting_later :
    (⟨insert (numbered earlier m) (meetingSeed earlier base m n)⟩ : Names).firstPrefix base =
      numbered base n := by
  obtain ⟨hbefore, hfree⟩ := recorded_meeting hn
  refine congrArg (numbered base) ((Nat.find_eq_iff _).mpr ⟨decide_eq_false ?_,
    fun k hk hnot => ?_⟩)
  · rintro ⟨t, ht, hcontinues⟩
    obtain ⟨ds, hds, -⟩ := continues_iff.mp hcontinues
    exact hfree t ht ds hds
  · refine of_decide_eq_false hnot ⟨_, hbefore k hk, ?_⟩
    exact continues_iff.mpr ⟨[], (List.append_nil _).symm, fun c hc => by cases hc⟩

end Meeting

/-- Two calls of which an earlier family's candidates spell one of the later's meet from some
seed. -/
theorem exists_meeting {earlier base : String}
    (h : ¬ ∀ m n, numbered base n ∉ (Given.family (numbered earlier m)).spells) :
    ∃ seed, ¬ Distinct seed (run seed [.freshFamily earlier, .fresh base]).given ∧
      ¬ Distinct seed (run seed [.freshFamily earlier, .freshFamily base]).given := by
  classical
  have hsome : ∃ n m, numbered base n ∈ (Given.family (numbered earlier m)).spells := by
    by_contra hno
    exact h fun m n hm => hno ⟨n, m, hm⟩
  obtain ⟨m, hn⟩ := Nat.find_spec hsome
  have hmin : ∀ k < Nat.find hsome, ∀ j,
      numbered base k ∉ (Given.family (numbered earlier j)).spells :=
    fun k hk j hk' => Nat.find_min hsome hk ⟨j, hk'⟩
  generalize Nat.find hsome = n at hn hmin
  have hfirst := firstPrefix_meeting (m := m) hmin
  have hgiven : Given.family (numbered earlier m) ∈
      (run (meetingSeed earlier base m n) [.freshFamily earlier]).given :=
    List.mem_singleton.mpr (congrArg Given.family hfirst.symm)
  have hnames : (run (meetingSeed earlier base m n) [.freshFamily earlier]).names =
      ⟨insert (numbered earlier m) (meetingSeed earlier base m n)⟩ :=
    congrArg (fun p => (⟨insert p (meetingSeed earlier base m n)⟩ : Names)) hfirst
  have hconcat : ∀ {c : Call}, Distinct (meetingSeed earlier base m n)
      (run (meetingSeed earlier base m n) ([.freshFamily earlier] ++ [c])).given ↔ _ :=
    distinct_run_concat
  refine ⟨meetingSeed earlier base m n, fun hdistinct => ?_, fun hdistinct => ?_⟩
  · have hpush := (hconcat.mp hdistinct).2
    refine hpush (numbered base n) (Option.mem_some_iff.mpr ?_) _ hgiven hn
    rw [hnames, firstFree_meeting hn]
  · have hpush := (hconcat.mp hdistinct).2
    refine hpush (numbered base n) (Option.mem_some_iff.mpr ?_) _ hgiven hn
    rw [hnames, firstPrefix_meeting_later hn]

/-- **Generated names are distinct** from every seed, in every run of which no call's candidates are
spelled by those of an earlier family; and of two calls, from every seed exactly then. -/
theorem names_distinct_iff (calls : List Call) (c d : Call) :
    (calls.Pairwise Apart → ∀ seed, Distinct seed (run seed calls).given) ∧
    ((∀ seed, Distinct seed (run seed [c, d]).given) ↔ Apart c d) := by
  refine ⟨fun h seed => distinct_of_apart h seed, fun h => ?_, fun h seed => ?_⟩
  · by_contra hmeet
    cases c with
    | reserve n | fresh base => exact hmeet trivial
    | freshFamily earlier =>
        cases d with
        | reserve n => exact hmeet trivial
        | fresh base =>
            obtain ⟨seed, hseed, -⟩ := exists_meeting hmeet
            exact hseed (h seed)
        | freshFamily base =>
            obtain ⟨seed, -, hseed⟩ := exists_meeting hmeet
            exact hseed (h seed)
  · refine distinct_of_apart (List.pairwise_cons.mpr ⟨?_, List.pairwise_singleton _ _⟩) seed
    exact fun e he => List.mem_singleton.mp he ▸ h

theorem firstFree_self {ns : Names} {base : String} (h : base ∉ ns.taken) :
    ns.firstFree base = base := by
  rw [firstFree, (Nat.find_eq_zero (exists_numbered_notMem base ns.taken)).mpr h]
  rfl

theorem firstPrefix_self {ns : Names} {base : String} (h : clashes base ns.taken = false) :
    ns.firstPrefix base = base := by
  rw [firstPrefix, (Nat.find_eq_zero (exists_numbered_free base ns.taken)).mpr h]
  rfl

/-- The first number of a family is handed out again as a name of its own. -/
theorem names_collide : ¬ ∀ (seed : Finset String) (calls : List Call),
    Distinct seed (run seed calls).given := by
  intro h
  have hbefore := (h ∅ [.freshFamily "__f", .fresh "__f0"]).before
  have hfamily : (new ∅).firstPrefix "__f" = "__f" :=
    firstPrefix_self (decide_eq_false (by simp [new]))
  have hname : (⟨{"__f"}⟩ : Names).firstFree "__f0" = "__f0" := firstFree_self (by decide)
  have hgiven : (run ∅ [.freshFamily "__f", .fresh "__f0"]).given = [.family "__f",
    .name "__f0"] := by
    simp only [run, List.foldl_cons, List.foldl_nil, Run.start, Run.push, freshFamily,
      fresh, hfamily]
    rw [new, LawfulSingleton.insert_empty_eq, hname]
    rfl
  rw [hgiven, List.pairwise_cons] at hbefore
  have hdisjoint := hbefore.1 (.name "__f0") (List.mem_singleton_self _) trivial
  have hspelled : "__f0" ∈ (Given.family "__f").spells :=
    ⟨['0'], by decide, by decide, List.forall_mem_singleton.mpr rfl⟩
  exact Set.disjoint_left.mp hdisjoint hspelled rfl

end Names

end Brust.Compiler
