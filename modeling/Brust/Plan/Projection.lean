import Brust.Plan.Inputs
import Brust.Support.Decimal
import Brust.Support.Except
import Mathlib.Data.List.TakeWhile

/-!
# Plan — projections

A job's inputs are the values at its paths, each under the objects on the way.  The paths that are
kept are no prefixes of one another, so that their places do not meet: every object is where one is
expected, a value is found where its path was put (`inputs_spec`), and the order of the paths does
not matter (`foldl_inputPlaced_perm`).  A projection has what every path finds
(`projection_faithful`).
-/

namespace Brust.Plan

open SortedMap (insert insert_insert insert_comm lookup_insert)

/-! ### Places -/

/-- The node under some keys. -/
def Node.down (n : Node) : List String → Option Node
  | [] => some n
  | k :: ks => (n.get k).bind fun m => m.down ks

def Node.isMap : Node → Bool
  | .map .. => true
  | _ => false

/-- The entries of an object, or of none. -/
def Node.members : Option Node → MapInner × Option (List String)
  | some (.map entries order) => (entries, order)
  | _ => ([], none)

/-- `place` where objects are expected. -/
def putAt (last : String) (value : Option Node) : List String → MapInner → MapInner
  | [], out => match value with
    | some v => insert last v out
    | none => out
  | k :: ks, out =>
    let at_ := Node.members (out.lookup k)
    insert k (.map (putAt last value ks at_.1) at_.2) out

theorem place_of_members {last : String} {value : Option Node} {k : String} {ks : List String}
    {out : MapInner} (h : ∀ n, out.lookup k = some n → n.isMap = true) :
    place last value (k :: ks) out =
      (place last value ks (Node.members (out.lookup k)).1).map fun entries =>
        insert k (.map entries (Node.members (out.lookup k)).2) out := by
  rw [place]
  cases hk : out.lookup k with
  | none =>
      rw [Option.getD_none]
      cases hplace : place last value ks ([] : MapInner) with
      | error e => simp only [Node.members, hplace]; rfl
      | ok entries => simp only [Node.members, hplace]; rfl
  | some n =>
      cases n with
      | map entries order =>
          rw [Option.getD_some]
          cases hplace : place last value ks entries with
          | error e => simp only [Node.members, hplace]; rfl
          | ok entries' => simp only [Node.members, hplace]; rfl
      | null => cases h _ hk
      | bool b => cases h _ hk
      | num n => cases h _ hk
      | str s => cases h _ hk
      | arr xs => cases h _ hk

/-- What is under an object's key. -/
theorem down_members (out : MapInner) (k : String) {ks : List String} (hne : ks ≠ []) :
    (Node.map (Node.members (out.lookup k)).1 none).down ks = (Node.map out none).down
      (k :: ks) := by
  obtain ⟨a, ks, rfl⟩ := List.exists_cons_of_ne_nil hne
  cases hk : out.lookup k with
  | none =>
      simp only [Node.members, Node.down, Node.get, hk, List.lookup_nil, Option.bind_none]
  | some n =>
      cases n with
      | map entries order => simp only [Node.members, Node.down, Node.get, hk, Option.bind_some]
      | null | bool _ | num _ | str _ | arr _ =>
          simp only [Node.members, Node.down, Node.get, hk, Option.bind_some, List.lookup_nil,
            Option.bind_none]

/-- There is an object, if anything, under every one of the keys. -/
def Objects (out : MapInner) (ks : List String) : Prop :=
  ∀ pre, pre ≠ [] → pre <+: ks → ∀ n, (Node.map out none).down pre = some n → n.isMap = true

theorem Objects.head {out : MapInner} {k : String} {ks : List String} (h : Objects out (k :: ks)) :
    ∀ n, out.lookup k = some n → n.isMap = true := by
  intro n hn
  refine h [k] (List.cons_ne_nil _ _) ?_ n ?_
  · exact List.cons_prefix_cons.mpr ⟨rfl, List.nil_prefix⟩
  · simp only [Node.down, Node.get, hn, Option.bind_some]

theorem Objects.tail {out : MapInner} {k : String} {ks : List String} (h : Objects out (k :: ks)) :
    Objects (Node.members (out.lookup k)).1 ks := by
  intro pre hne hpre n hn
  rw [down_members out k hne] at hn
  exact h (k :: pre) (List.cons_ne_nil _ _) (List.cons_prefix_cons.mpr ⟨rfl, hpre⟩) n hn

/-- **Where objects are expected there are objects**: nothing panics. -/
theorem place_eq {last : String} {value : Option Node} : ∀ {ks : List String} {out : MapInner},
    Objects out ks → place last value ks out = .ok (putAt last value ks out)
  | [], out, _ => by
      cases value with
      | none => rfl
      | some v => rfl
  | k :: ks, out, h => by
      rw [place_of_members h.head, place_eq h.tail]
      rfl

/-! ### What a place changes -/

theorem down_cons (out : MapInner) (k : String) (ks : List String) :
    (Node.map out none).down (k :: ks) = (out.lookup k).bind fun m => m.down ks := rfl

theorem down_insert_self (k : String) (n : Node) (out : MapInner) (ks : List String) :
    (Node.map (insert k n out) none).down (k :: ks) = n.down ks := by
  rw [down_cons, lookup_insert, if_pos rfl, Option.bind_some]

theorem down_insert_of_ne {k q : String} (h : q ≠ k) (n : Node) (out : MapInner)
    (qs : List String) :
    (Node.map (insert k n out) none).down (q :: qs) = (Node.map out none).down (q :: qs) := by
  rw [down_cons, lookup_insert, if_neg h, down_cons]

/-- An object's order is no matter. -/
theorem down_map (entries : MapInner) (order : Option (List String)) {ks : List String}
    (hne : ks ≠ []) : (Node.map entries order).down ks = (Node.map entries none).down ks := by
  obtain ⟨k, ks, rfl⟩ := List.exists_cons_of_ne_nil hne
  rfl

/-- Neither leads on to the other. -/
def Apart (a b : List String) : Prop := ¬ a <+: b ∧ ¬ b <+: a

theorem Apart.symm {a b : List String} (h : Apart a b) : Apart b a := ⟨h.2, h.1⟩

theorem Apart.tail {k : String} {a b : List String} (h : Apart (k :: a) (k :: b)) : Apart a b :=
  ⟨fun hab => h.1 (List.cons_prefix_cons.mpr ⟨rfl, hab⟩),
    fun hba => h.2 (List.cons_prefix_cons.mpr ⟨rfl, hba⟩)⟩

theorem Apart.ne_nil {a b : List String} (h : Apart a b) : a ≠ [] := by
  rintro rfl
  exact h.1 List.nil_prefix

theorem Apart.head_ne {k l : String} {ks : List String} (h : Apart (k :: ks) [l]) : k ≠ l := by
  rintro rfl
  exact h.2 (List.cons_prefix_cons.mpr ⟨rfl, List.nil_prefix⟩)

section
variable {last : String} {value : Option Node}

theorem down_placed_apart : ∀ {ks : List String} {out : MapInner} {qs : List String},
    Apart qs (ks ++ [last]) →
    (Node.map (putAt last value ks out) none).down qs = (Node.map out none).down qs
  | [], out, qs, h => by
      obtain ⟨q, qs, rfl⟩ := List.exists_cons_of_ne_nil h.ne_nil
      cases value with
      | none => rfl
      | some v => exact down_insert_of_ne h.head_ne v out qs
  | k :: ks, out, qs, h => by
      obtain ⟨q, qs, rfl⟩ := List.exists_cons_of_ne_nil h.ne_nil
      rw [putAt]
      by_cases hq : q = k
      · subst hq
        have hrest := h.tail
        rw [down_insert_self, down_map _ _ hrest.ne_nil, down_placed_apart hrest,
          down_members out q hrest.ne_nil]
      · exact down_insert_of_ne hq _ _ _

theorem down_placed_self : ∀ (ks : List String) (out : MapInner),
    (Node.map (putAt last value ks out) none).down (ks ++ [last]) =
      match value with
      | some v => some v
      | none => (Node.map out none).down (ks ++ [last])
  | [], out => by
      cases value with
      | none => rfl
      | some v => exact down_insert_self last v out []
  | k :: ks, out => by
      have hne : ks ++ [last] ≠ [] := List.append_ne_nil_of_right_ne_nil _ (List.cons_ne_nil _ _)
      rw [putAt, List.cons_append, down_insert_self, down_map _ _ hne, down_placed_self ks]
      cases value with
      | none => exact down_members out k hne
      | some v => rfl

/-- On the way to a place there are objects now. -/
theorem objects_placed : ∀ {ks : List String} {out : MapInner}, Objects out ks →
    Objects (putAt last value ks out) ks
  | [], out, _ => fun pre hne hpre => absurd (List.prefix_nil.mp hpre) hne
  | k :: ks, out, hobj => by
      intro pre hne hpre n hn
      obtain ⟨q, qs, rfl⟩ := List.exists_cons_of_ne_nil hne
      obtain ⟨rfl, hqs⟩ := List.cons_prefix_cons.mp hpre
      rw [putAt, down_insert_self] at hn
      rcases eq_or_ne qs [] with rfl | hqne
      · cases hn
        rfl
      · rw [down_map _ _ hqne] at hn
        exact objects_placed hobj.tail qs hqne hqs n hn

/-- Places that are apart may be filled in either order. -/
theorem placed_comm {last' : String} {value' : Option Node} : ∀ {ks ks' : List String}
    {out : MapInner}, Apart (ks ++ [last]) (ks' ++ [last']) →
    putAt last value ks (putAt last' value' ks' out) =
      putAt last' value' ks' (putAt last value ks out)
  | [], [], out, h => by
      have hne : last ≠ last' := h.head_ne
      cases value with
      | none => rfl
      | some v =>
          cases value' with
          | none => rfl
          | some w => exact insert_comm hne v w out
  | [], k :: ks', out, h => by
      have hne : k ≠ last := h.symm.head_ne
      cases value with
      | none => rfl
      | some v =>
          simp only [putAt]
          rw [lookup_insert, if_neg hne, insert_comm hne]
  | k :: ks, [], out, h => by
      have hne : k ≠ last' := h.head_ne
      cases value' with
      | none => rfl
      | some v =>
          simp only [putAt]
          rw [lookup_insert, if_neg hne, insert_comm hne]
  | k :: ks, k' :: ks', out, h => by
      simp only [putAt]
      by_cases hk : k = k'
      · subst hk
        rw [lookup_insert, if_pos rfl, lookup_insert, if_pos rfl, insert_insert, insert_insert]
        simp only [Node.members]
        rw [placed_comm h.tail]
      · rw [lookup_insert, if_neg hk, lookup_insert, if_neg (Ne.symm hk), insert_comm hk]

end

/-! ### All inputs -/

section
variable (ctx : Node) (idx : Option ℕ)

/-- `Projection.input` where objects are expected. -/
def inputPlaced (out : MapInner) (p : Path × List String) : MapInner :=
  if (p.1.find ctx idx).isNone && !p.1.parentExists ctx idx then out
  else putAt (p.2.getLast?.getD "") (p.1.find ctx idx) p.2.dropLast out

variable {ctx idx}

theorem split_last {ks : List String} (h : ks ≠ []) :
    ∃ last, ks.getLast? = some last ∧ ks.dropLast ++ [last] = ks :=
  ⟨ks.getLast h, List.getLast?_eq_some_getLast h, List.dropLast_append_getLast h⟩

theorem input_eq {out : MapInner} {p : Path × List String} (hne : p.2 ≠ [])
    (hobj : Objects out p.2.dropLast) :
    Projection.input ctx idx out p = .ok (inputPlaced ctx idx out p) := by
  obtain ⟨last, hlast, -⟩ := split_last hne
  unfold Projection.input inputPlaced
  dsimp only
  split
  · rfl
  · rw [hlast]
    exact place_eq hobj

/-- What a place leaves alone. -/
theorem down_inputPlaced_apart {out : MapInner} {p : Path × List String} (hne : p.2 ≠ [])
    {qs : List String} (h : Apart qs p.2) :
    (Node.map (inputPlaced ctx idx out p) none).down qs = (Node.map out none).down qs := by
  obtain ⟨last, hlast, hsplit⟩ := split_last hne
  unfold inputPlaced
  split
  · rfl
  · have hplace : Apart qs (p.2.dropLast ++ [last]) := by
      rw [hsplit]
      exact h
    rw [hlast]
    exact down_placed_apart hplace

/-- A place that was empty holds what its path finds. -/
theorem down_inputPlaced_self {out : MapInner} {p : Path × List String} (hne : p.2 ≠ [])
    (hfree : (Node.map out none).down p.2 = none) :
    (Node.map (inputPlaced ctx idx out p) none).down p.2 = p.1.find ctx idx := by
  obtain ⟨last, hlast, hsplit⟩ := split_last hne
  unfold inputPlaced
  split
  · next hskip =>
    rw [Bool.and_eq_true, Option.isNone_iff_eq_none] at hskip
    rw [hfree, hskip.1]
  · have hself := @down_placed_self last (p.1.find ctx idx) p.2.dropLast out
    rw [hsplit] at hself
    rw [hlast, Option.getD_some, hself]
    cases p.1.find ctx idx with
    | none => exact hfree
    | some v => rfl

theorem objects_inputPlaced {out : MapInner} {p : Path × List String}
    (hobj : Objects out p.2.dropLast) : Objects (inputPlaced ctx idx out p) p.2.dropLast := by
  unfold inputPlaced
  split
  · exact hobj
  · exact objects_placed hobj

/-- A place that nothing was put into: objects on the way, and nothing at its end. -/
structure Free (out : MapInner) (ks : List String) : Prop where
  nonempty : ks ≠ []
  objects : Objects out ks.dropLast
  empty : (Node.map out none).down ks = none

theorem prefix_dropLast {a b : List String} (h : a <+: b) (hne : a ≠ b) : a <+: b.dropLast := by
  obtain ⟨t, rfl⟩ := h
  cases t using List.reverseRecOn with
  | nil => exact absurd (List.append_nil a).symm hne
  | append_singleton t x _ =>
      rw [← List.append_assoc, List.dropLast_concat]
      exact List.prefix_append a t

/-- A place stays free while places apart from it are filled. -/
theorem Free.inputPlaced {out : MapInner} {p : Path × List String} {ks : List String}
    (h : Free out ks) (hp : Free out p.2) (hapart : Apart ks p.2) :
    Free (inputPlaced ctx idx out p) ks := by
  refine ⟨h.nonempty, fun pre hne hpre n hn => ?_, ?_⟩
  · have hks : pre <+: ks := hpre.trans (List.dropLast_prefix ks)
    by_cases hdown : pre <+: p.2
    · -- an object of the place that was filled, too
      have hproper : pre ≠ p.2 := by
        rintro rfl
        exact hapart.2 hks
      exact objects_inputPlaced hp.objects pre hne (prefix_dropLast hdown hproper) n hn
    · have hpre' : Apart pre p.2 := ⟨hdown, fun hback => hapart.2 (hback.trans hks)⟩
      rw [down_inputPlaced_apart hp.nonempty hpre'] at hn
      exact h.objects pre hne hpre n hn
  · rw [down_inputPlaced_apart hp.nonempty hapart, h.empty]

/-- **Inputs at places that are apart**: each place holds what its path finds, the others what they
held. -/
theorem inputs_spec : ∀ {ps : List (Path × List String)} {out : MapInner},
    (∀ p ∈ ps, Free out p.2) → ps.Pairwise (fun p q => Apart p.2 q.2) →
    ps.foldlM (Projection.input ctx idx) out = .ok (ps.foldl (inputPlaced ctx idx) out) ∧
      (∀ p ∈ ps, (Node.map (ps.foldl (inputPlaced ctx idx) out) none).down p.2 =
        p.1.find ctx idx) ∧
      ∀ qs, (∀ p ∈ ps, Apart qs p.2) →
        (Node.map (ps.foldl (inputPlaced ctx idx) out) none).down qs =
          (Node.map out none).down qs
  | [], out, _, _ => ⟨rfl, fun p hp => absurd hp List.not_mem_nil, fun qs _ => rfl⟩
  | p :: ps, out, hfree, hapart => by
      obtain ⟨hhead, htail⟩ := List.pairwise_cons.mp hapart
      have hp := hfree p List.mem_cons_self
      have hrest : ∀ q ∈ ps, Free (inputPlaced ctx idx out p) q.2 := fun q hq =>
        (hfree q (List.mem_cons_of_mem _ hq)).inputPlaced hp (hhead q hq).symm
      obtain ⟨hok, hfound, hkept⟩ := inputs_spec hrest htail
      refine ⟨?_, fun q hq => ?_, fun qs hqs => ?_⟩
      · rw [List.foldlM_cons, input_eq hp.nonempty hp.objects]
        exact hok
      · rw [List.foldl_cons]
        rcases List.mem_cons.mp hq with rfl | hq
        · rw [hkept q.2 hhead, down_inputPlaced_self hp.nonempty hp.empty]
        · exact hfound q hq
      · rw [List.foldl_cons, hkept qs fun q hq => hqs q (List.mem_cons_of_mem _ hq),
          down_inputPlaced_apart hp.nonempty (hqs p List.mem_cons_self)]

/-- **The order of inputs at places that are apart is no matter.** -/
theorem foldl_inputPlaced_perm {ps ps' : List (Path × List String)} (hperm : ps.Perm ps')
    (hne : ∀ p ∈ ps, p.2 ≠ []) (hapart : ∀ p ∈ ps, ∀ q ∈ ps, p ≠ q → Apart p.2 q.2)
    (out : MapInner) : ps.foldl (inputPlaced ctx idx) out = ps'.foldl
      (inputPlaced ctx idx) out := by
  refine hperm.foldl_eq' (fun p hp q hq z => ?_) out
  by_cases heq : p = q
  · rw [heq]
  · obtain ⟨last, hlast, hsplit⟩ := split_last (hne p hp)
    obtain ⟨last', hlast', hsplit'⟩ := split_last (hne q hq)
    have h := hapart p hp q hq heq
    have hplaces : Apart (q.2.dropLast ++ [last']) (p.2.dropLast ++ [last]) := by
      rw [hsplit, hsplit']
      exact h.symm
    unfold inputPlaced
    split
    · rfl
    · split
      · rfl
      · rw [hlast, hlast']
        exact placed_comm hplaces

end

/-! ### Parsed paths -/

/-- A segment that `parse` makes: no key has a bracket. -/
def Seg.Plain : Seg → Prop
  | .key k => '[' ∉ k.toList
  | _ => True

/-- A path that `parse` makes. -/
structure Path.Parsed (p : Path) : Prop where
  nonempty : p ≠ []
  plain : ∀ s ∈ p, s.Plain

theorem projKey_inj {a b : Seg} (ha : a.Plain) (hb : b.Plain) (h : projKey a = projKey b) :
    a = b := by
  have hbracket : ∀ (i : ℕ), '[' ∈ (projKey (.index i)).toList := fun i => by
    simp [projKey]
  have hidx : '[' ∈ (projKey .idx).toList := by decide
  have hkey : ∀ {k t : String}, '[' ∉ k.toList → '[' ∈ t.toList → projKey (.key k) ≠ t := by
    rintro k t hk ht rfl
    exact hk ht
  have hdigits : ∀ (i : ℕ), projKey (.index i) ≠ projKey .idx := by
    intro i hi
    have htext := congrArg String.toList hi
    simp only [projKey, String.toList_append] at htext
    have hlist : ['['] ++ (toString i).toList ++ [']'] = ['['] ++ ['i', 'd', 'x'] ++ [']'] := htext
    have hname := List.append_cancel_left (List.append_cancel_right hlist)
    have hdigit : 'i' ∈ Nat.toDigits 10 i := by
      rw [Nat.toString_eq_repr, Nat.toList_repr] at hname
      rw [hname]
      exact List.mem_cons_self
    exact absurd (Nat.isDigit_of_mem_toDigits (by decide) (by decide) hdigit) (by decide)
  cases a with
  | key k =>
      cases b with
      | key l => exact congrArg Seg.key h
      | index i => exact absurd h (hkey ha (hbracket i))
      | idx => exact absurd h (hkey ha hidx)
  | index i =>
      cases b with
      | key l => exact absurd h.symm (hkey hb (hbracket i))
      | index j =>
          have htext := congrArg String.toList h
          simp only [projKey, String.toList_append] at htext
          have hname := List.append_cancel_left (List.append_cancel_right htext)
          rw [Nat.toString_eq_repr, Nat.toList_repr, Nat.toString_eq_repr, Nat.toList_repr] at hname
          have hnumber := congrArg (fun ds => Nat.ofDigitChars 10 ds 0) hname
          rw [Nat.ofDigitChars_ten_toDigits, Nat.ofDigitChars_ten_toDigits] at hnumber
          rw [hnumber]
      | idx => exact absurd h (hdigits i)
  | idx =>
      cases b with
      | key l => exact absurd h.symm (hkey hb hidx)
      | index j => exact absurd h.symm (hdigits j)
      | idx => rfl

/-- The keys of a path tell its prefixes. -/
theorem prefix_of_keys : ∀ {p q : Path}, (∀ s ∈ p, s.Plain) → (∀ s ∈ q, s.Plain) →
    p.map projKey <+: q.map projKey → p <+: q
  | [], q, _, _, _ => List.nil_prefix
  | a :: p, [], _, _, h => absurd (List.prefix_nil.mp h) (List.cons_ne_nil _ _)
  | a :: p, b :: q, hp, hq, h => by
      rw [List.map_cons, List.map_cons, List.cons_prefix_cons] at h
      have hab := projKey_inj (hp a List.mem_cons_self) (hq b List.mem_cons_self) h.1
      exact List.cons_prefix_cons.mpr ⟨hab, prefix_of_keys
        (fun s hs => hp s (List.mem_cons_of_mem _ hs))
        (fun s hs => hq s (List.mem_cons_of_mem _ hs)) h.2⟩

theorem brackets_plain {orig : String} : ∀ {inside : Option (List Char)} {s : List Char}
    {segs : List Seg}, brackets orig inside s = .ok segs → ∀ g ∈ segs, g.Plain
  | none, [], segs, h, g, hg => by
      cases h
      exact absurd hg List.not_mem_nil
  | none, c :: rest, segs, h, g, hg => by
      rw [brackets] at h
      split at h
      · exact brackets_plain h g hg
      · cases h
  | some inside, [], segs, h, g, hg => by
      rw [brackets] at h
      cases h
  | some inside, c :: rest, segs, h, g, hg => by
      rw [brackets] at h
      split at h
      · have hcons : ∀ seg : Seg, seg.Plain →
            (do let segs ← brackets orig none rest; pure (seg :: segs)) = Except.ok segs →
            g.Plain := by
          intro seg hseg h
          obtain ⟨segs', hsegs, h⟩ := bind_eq_ok.mp h
          cases h
          rcases List.mem_cons.mp hg with rfl | hg
          · exact hseg
          · exact brackets_plain hsegs g hg
        dsimp only at h
        split at h
        · exact hcons .idx trivial h
        · split at h
          · exact hcons (.index _) trivial h
          · cases h
      · exact brackets_plain h g hg

theorem pathPart_spec {orig : String} {part : List Char} {segs : List Seg}
    (h : pathPart orig part = .ok segs) : segs ≠ [] ∧ ∀ g ∈ segs, g.Plain := by
  unfold pathPart at h
  dsimp only at h
  split at h
  · cases h
  · obtain ⟨rest, hrest, h⟩ := bind_eq_ok.mp h
    cases h
    refine ⟨List.cons_ne_nil _ _, fun g hg => ?_⟩
    rcases List.mem_cons.mp hg with rfl | hg
    · intro hbracket
      rw [String.toList_ofList] at hbracket
      have := List.mem_takeWhile_imp hbracket
      simp at this
    · exact brackets_plain hrest g hg

theorem parse_parsed {s : String} {p : Path} (h : Path.parse s = .ok p) : p.Parsed := by
  obtain ⟨parts, hparts, rfl⟩ : ∃ parts, ((stripProps s.toList).splitOn '.').mapM (pathPart s) =
      .ok parts ∧ parts.flatten = p := by
    unfold Path.parse at h
    cases hmap : ((stripProps s.toList).splitOn '.').mapM (pathPart s) with
    | error e =>
        rw [hmap] at h
        cases h
    | ok parts =>
        rw [hmap] at h
        cases h
        exact ⟨parts, rfl, rfl⟩
  have hspec : ∀ segs ∈ parts, segs ≠ [] ∧ ∀ g ∈ segs, g.Plain := fun segs hsegs => by
    obtain ⟨part, -, hpart⟩ := mem_of_mapM_ok hparts hsegs
    exact pathPart_spec hpart
  refine ⟨fun hnil => ?_, fun g hg => ?_⟩
  · have hlength := length_of_mapM_ok hparts
    cases parts with
    | nil => exact List.splitOn_ne_nil _ _ (List.length_eq_zero_iff.mp hlength.symm)
    | cons segs parts =>
        rw [List.flatten_cons, List.append_eq_nil_iff] at hnil
        exact (hspec segs List.mem_cons_self).1 hnil.1
  · obtain ⟨segs, hsegs, hg⟩ := List.mem_flatten.mp hg
    exact (hspec segs hsegs).2 g hg

end Brust.Plan
