import Brust.Nav.Swap
import Brust.Support.Except
import Brust.Support.Siblings
import Brust.Support.SortedMap

/-!
# Nav — Reconciling the head

`planHead` matches the new head's elements to those shown and puts the stylesheets that cannot stay
where they are at their places; `applyHead` removes what is not wanted and places the rest.
`head_reconciled`: what then stands, in order, is the new head, with no stylesheet moved.  An
element is a node of either document; its children are their markup, and the text between elements
is left out.
-/

namespace Brust.Nav.Head

open Siblings
open scoped List

/-! ### Elements -/

abbrev Ref := ℕ

/-- The document that an element is of. -/
inductive Owner
  | document
  | fetched
deriving DecidableEq

/-- An element: its attributes have different names. -/
structure Element where
  owner : Owner
  localName : String
  attrs : List (String × String)
  innerHTML : String
  distinct : (attrs.map (·.1)).Nodup

def escapeAttr (s : String) : String :=
  s.toList.foldl (fun out c =>
    out ++ if c = '&' then "&amp;" else if c = '"' then "&quot;" else
      if c = Char.ofNat 160 then "&nbsp;" else c.toString) ""

def voidElements : List String :=
  ["area", "base", "basefont", "bgsound", "br", "col", "embed", "frame", "hr", "img", "input",
    "keygen", "link", "meta", "param", "source", "track", "wbr"]

namespace Element

/-- The markup that elements are compared by. -/
def outerHTML (e : Element) : String :=
  "<" ++ e.localName ++
    String.join (e.attrs.map fun a => " " ++ a.1 ++ "=\"" ++ escapeAttr a.2 ++ "\"") ++ ">" ++
    if e.localName ∈ voidElements then "" else e.innerHTML ++ "</" ++ e.localName ++ ">"

def getAttribute (e : Element) (name : String) : Option String := e.attrs.lookup name

/-- `link[rel~=stylesheet]` -/
def isSheet (e : Element) : Bool :=
  let space := [' ', '\t', '\n', '\r', Char.ofNat 12]
  e.localName = "link" ∧
    "stylesheet" ∈ (((e.getAttribute "rel").getD "").toList.splitOnP (· ∈ space)).map
      fun word => (String.ofList word).toLower

theorem names_setAttribute (attrs : List (String × String)) (a : String × String) :
    (setAttribute attrs a).map (·.1) =
      if (attrs.lookup a.1).isSome then attrs.map (·.1) else attrs.map (·.1) ++ [a.1] := by
  rw [setAttribute]
  split
  · rw [List.map_map]
    refine List.map_congr_left fun b _ => ?_
    by_cases hb : b.1 = a.1 <;> simp [hb]
  · rw [List.map_append]
    rfl

theorem notMem_of_lookup {attrs : List (String × String)} {name : String}
    (h : ¬ (attrs.lookup name).isSome) : name ∉ attrs.map (·.1) := by
  rw [Option.isSome_iff_ne_none, not_not, List.lookup_eq_none_iff] at h
  intro hmem
  obtain ⟨b, hb, rfl⟩ := List.mem_map.mp hmem
  simpa using h b hb

def setAttribute (e : Element) (name value : String) : Element :=
  { e with
    attrs := Nav.setAttribute e.attrs (name, value)
    distinct := by
      rw [names_setAttribute]
      split
      · exact e.distinct
      · next h =>
        rw [List.nodup_append]
        refine ⟨e.distinct, List.nodup_singleton _, ?_⟩
        rintro a ha b hb rfl
        rw [List.mem_singleton.mp hb] at ha
        exact notMem_of_lookup h ha }

def removeAttribute (e : Element) (name : String) : Element :=
  { e with
    attrs := e.attrs.filter (·.1 ≠ name)
    distinct := e.distinct.sublist (List.filter_sublist.map _) }

/-- `cloneNode()`: without the children. -/
def cloneNode (e : Element) : Element := { e with innerHTML := "" }

/-- The element is the document's from here on. -/
def adoptNode (e : Element) : Element := { e with owner := .document }

/-- `media` as it was. -/
def restoreMedia (e : Element) : Option String → Element
  | none => e.removeAttribute "media"
  | some m => e.setAttribute "media" m

end Element

/-! ### The head -/

/-- The head's children, every element by its node, and the nodes put into the head so far. -/
structure Page where
  children : List Ref
  element : Ref → Element
  created : ℕ
  inserted : List Ref

namespace Page

def set (p : Page) (el : Ref) (e : Element) : Page :=
  { p with element := Function.update p.element el e }

def cloneNode (p : Page) (el : Ref) : Ref × Page :=
  (p.created, { p.set p.created (p.element el).cloneNode with created := p.created + 1 })

def adoptNode (p : Page) (el : Ref) : Page := p.set el (p.element el).adoptNode

/-- `head.insertBefore(el, ref)` -/
def insertBefore (p : Page) (el : Ref) (ref : Option Ref) : Page :=
  { p with children := Siblings.insertBefore el ref p.children, inserted := p.inserted ++ [el] }

/-- `prev.after(el)` or `head.prepend(el)` -/
def moveAfter (p : Page) (prev : Option Ref) (el : Ref) : Page :=
  { p with children := Siblings.moveAfter prev el p.children, inserted := p.inserted ++ [el] }

def html (p : Page) (el : Ref) : String := (p.element el).outerHTML

end Page

/-! ### The plan -/

structure HeadPlan where
  want : List Ref
  fixed : List Ref
  sheets : List (Ref × Option String)

/-- `next.map((n) => pool.get(n.outerHTML)?.shift() ?? n)` -/
def takeKept (html : Ref → String) : (String → List Ref) → List Ref → List Ref
  | _, [] => []
  | pool, n :: next =>
    match pool (html n) with
    | [] => n :: takeKept html pool next
    | el :: rest => el :: takeKept html (Function.update pool (html n) rest) next

/-- The new head's elements, each by an unused one of the shown head with its markup. -/
def matched (p : Page) (next : List Ref) : List Ref :=
  takeKept p.html (fun k => p.children.filter (p.html · = k)) next

/-- The heaviest run that ends at a wanted element: the element's place in the shown head, the run's
weight and the wanted element before it. -/
structure Run where
  place : ℕ
  weight : ℕ
  prev : Option ℕ

def extend (runs : List (Option Run)) (v own : ℕ) : Run :=
  runs.zipIdx.foldl (fun r q =>
    match q.1 with
    | some q' =>
      if q'.place < v ∧ r.weight < q'.weight + own then ⟨v, q'.weight + own, some q.2⟩ else r
    | none => r) ⟨v, own, none⟩

/-- For each place, the heaviest run that ends there. -/
def heaviest (p : Page) (want : List Ref) : List (Option Run) :=
  want.foldl (fun runs el => runs ++ [(p.children.idxOf? el).map fun v =>
    extend runs v (if (p.element el).isSheet then 1000 else 1)]) []

/-- The heaviest run of all. -/
def best (runs : List (Option Run)) : Option ℕ :=
  (runs.zipIdx.foldl (fun (b : Option (ℕ × ℕ)) q =>
    match q.1, b with
    | none, _ => b
    | some r, none => some (q.2, r.weight)
    | some r, some (i, w) => if w < r.weight then some (q.2, r.weight) else some (i, w)) none).map
    (·.1)

/-- The run that ends at `i`, from its end on. -/
def follow (want : List Ref) (runs : List (Option Run)) : ℕ → ℕ → List Ref
  | 0, _ => []
  | fuel + 1, i =>
    match want[i]?, runs[i]? with
    | some el, some (some r) => el :: (r.prev.map (follow want runs fuel)).getD []
    | _, _ => []

/-- The elements that stay where they are. -/
def staying (p : Page) (want : List Ref) : List Ref :=
  ((best (heaviest p want)).map (follow want (heaviest p want) want.length)).getD []

/-- A stylesheet goes in, a clone where it is shown already. -/
def insertSheet (p : Page) (ref : Option Ref) (el : Ref) : Page × Ref × Option String :=
  let (s, p) := if (p.element el).owner = .document then p.cloneNode el else (el, p.adoptNode el)
  let media := (p.element s).getAttribute "media"
  ((p.set s ((p.element s).setAttribute "media" "not all")).insertBefore s ref, s, media)

/-- The stylesheets of `rest` that are not fixed go in. -/
def insertSheets (p : Page) (fixed done : List Ref) (sheets : List (Ref × Option String)) :
    List Ref → Page × HeadPlan
  | [] => (p, ⟨done, fixed, sheets⟩)
  | el :: rest =>
    if el ∈ fixed ∨ (p.element el).isSheet = false then
      insertSheets p fixed (done ++ [el]) sheets rest
    else
      let (p, s, media) := insertSheet p (rest.find? (· ∈ fixed)) el
      insertSheets p (s :: fixed) (done ++ [s]) (sheets ++ [(s, media)]) rest

def planHead (p : Page) (next : List Ref) : Page × HeadPlan :=
  let want := matched p next
  insertSheets p (staying p want) [] [] want

/-! ### The swap -/

/-- The stylesheets apply. -/
def restoreMedia (p : Page) (sheets : List (Ref × Option String)) : Page :=
  sheets.foldl (fun p s => p.set s.1 ((p.element s.1).restoreMedia s.2)) p

def placeWanted (fixed : List Ref) : Page → Option Ref → List Ref → List Ref → Page × List Ref
  | p, _, fresh, [] => (p, fresh)
  | p, prev, fresh, el :: want =>
    let (p, fresh) :=
      if (p.element el).owner ≠ .document then (p.adoptNode el, fresh ++ [el]) else (p, fresh)
    let p := if el ∉ fixed ∧ following prev p.children ≠ some el then p.moveAfter prev el else p
    placeWanted fixed p (some el) fresh want

/-- The page, and the elements new to it. -/
def applyHead (p : Page) (plan : HeadPlan) (served : Ref → Bool) : Page × List Ref :=
  placeWanted plan.fixed
    { p with children := p.children.filter fun el => el ∈ plan.want ∨ served el = false }
    none [] plan.want

/-- What a navigation makes of a head. -/
structure Reconciled where
  page : Page
  plan : HeadPlan
  fresh : List Ref

def reconcile (p : Page) (next : List Ref) (served : Ref → Bool) : Reconciled :=
  let (p, plan) := planHead p next
  let (page, fresh) := applyHead (restoreMedia p plan.sheets) plan served
  { page, plan, fresh }

/-- The elements that the server sent, as a navigation counts them from then on. -/
def Reconciled.served (r : Reconciled) (before : Ref → Bool) (el : Ref) : Bool :=
  before el || el ∈ r.plan.sheets.map (·.1) || el ∈ r.fresh

/-! ### The matched elements -/

section Matched

variable {html : Ref → String} {pool : String → List Ref} {next : List Ref}

/-- A pool of unused elements by their markup, none of them among the new ones. -/
structure Pooled (html : Ref → String) (pool : String → List Ref) (next : List Ref) : Prop where
  markup : ∀ k, ∀ el ∈ pool k, html el = k
  nodup : ∀ k, (pool k).Nodup
  distinct : next.Nodup
  apart : ∀ n ∈ next, ∀ k, n ∉ pool k

theorem mem_update {k k' : String} {rest : List Ref} {el : Ref} (hk : pool k = el :: rest) {e : Ref}
    (he : e ∈ Function.update pool k rest k') : e ∈ pool k' := by
  by_cases h : k' = k
  · subst h
    rw [Function.update_self] at he
    exact hk ▸ List.mem_cons_of_mem _ he
  · rwa [Function.update_of_ne h] at he

theorem Pooled.tail {n : Ref} (h : Pooled html pool (n :: next)) : Pooled html pool next :=
  ⟨h.markup, h.nodup, (List.nodup_cons.mp h.distinct).2, fun m hm => h.apart m (.tail _ hm)⟩

/-- One element of the pool is used. -/
theorem Pooled.shift {el n : Ref} {rest : List Ref} (h : Pooled html pool (n :: next))
    (hp : pool (html n) = el :: rest) : Pooled html (Function.update pool (html n) rest) next where
  markup k e he := h.markup k e (mem_update hp he)
  nodup k := by
    by_cases hk : k = html n
    · subst hk
      rw [Function.update_self]
      exact (List.nodup_cons.mp (hp ▸ h.nodup (html n))).2
    · rw [Function.update_of_ne hk]
      exact h.nodup k
  distinct := h.tail.distinct
  apart m hm k he := h.tail.apart m hm k (mem_update hp he)

/-- Every element stands for a new one of its markup. -/
theorem takeKept_forall₂ (h : Pooled html pool next) :
    List.Forall₂ (fun el n => html el = html n ∧ (el = n ∨ el ∈ pool (html n)))
      (takeKept html pool next) next := by
  induction next generalizing pool with
  | nil => exact .nil
  | cons n next ih =>
      rw [takeKept]
      split
      · exact .cons ⟨rfl, .inl rfl⟩ (ih h.tail)
      · next el rest hp =>
        have hel : el ∈ pool (html n) := hp ▸ List.mem_cons_self
        refine .cons ⟨h.markup _ el hel, .inr hel⟩ ((ih (h.shift hp)).imp fun e m he => ?_)
        exact ⟨he.1, he.2.imp_right (mem_update hp)⟩

theorem mem_takeKept (h : Pooled html pool next) {el : Ref} (hel : el ∈ takeKept html pool next) :
    el ∈ next ∨ ∃ k, el ∈ pool k := by
  obtain ⟨i, hi, rfl⟩ := List.getElem_of_mem hel
  have hall := takeKept_forall₂ h
  have hn : i < next.length := hall.length_eq ▸ hi
  obtain ⟨-, he | he⟩ := (List.forall₂_iff_get.mp hall).2 i hi hn
  · left
    rw [List.get_eq_getElem] at he
    exact he ▸ List.get_mem next ⟨i, hn⟩
  · exact .inr ⟨_, he⟩

/-- The used element is not used again. -/
theorem notMem_takeKept_shift {el n : Ref} {rest : List Ref} (h : Pooled html pool (n :: next))
    (hp : pool (html n) = el :: rest) :
    el ∉ takeKept html (Function.update pool (html n) rest) next := by
  have hel : el ∈ pool (html n) := hp ▸ List.mem_cons_self
  intro hmem
  rcases mem_takeKept (h.shift hp) hmem with hnext | ⟨k, hk⟩
  · exact h.tail.apart el hnext _ hel
  · have hmarkup := h.markup k el (mem_update hp hk)
    rw [h.markup _ el hel] at hmarkup
    subst hmarkup
    rw [Function.update_self] at hk
    exact (List.nodup_cons.mp (hp ▸ h.nodup (html n))).1 hk

theorem nodup_takeKept (h : Pooled html pool next) : (takeKept html pool next).Nodup := by
  induction next generalizing pool with
  | nil => exact List.nodup_nil
  | cons n next ih =>
      rw [takeKept]
      split
      · refine List.nodup_cons.mpr ⟨fun hmem => ?_, ih h.tail⟩
        rcases mem_takeKept h.tail hmem with hnext | ⟨k, hk⟩
        · exact (List.nodup_cons.mp h.distinct).1 hnext
        · exact h.apart n List.mem_cons_self k hk
      · next el rest hp =>
        exact List.nodup_cons.mpr ⟨notMem_takeKept_shift h hp, ih (h.shift hp)⟩

/-- Of one markup as many are kept as the new head has, the first ones. -/
theorem filter_takeKept (h : Pooled html pool next) (k : String) :
    (takeKept html pool next).filter (· ∈ pool k) =
      (pool k).take (next.countP (html · = k)) := by
  induction next generalizing pool with
  | nil => rfl
  | cons n next ih =>
      rw [takeKept]
      split
      · next hp =>
        have hn : n ∉ pool k := h.apart n List.mem_cons_self k
        rw [List.filter_cons_of_neg (by simpa using hn), ih h.tail]
        by_cases hk : html n = k
        · subst hk
          rw [hp, List.take_nil, List.take_nil]
        · rw [List.countP_cons_of_neg (by simpa using hk)]
      · next el rest hp =>
        have hmarkup : html el = html n := h.markup _ el (hp ▸ List.mem_cons_self)
        have hih := ih (h.shift hp)
        by_cases hk : html n = k
        · subst hk
          rw [List.countP_cons_of_pos (by simp), hp, List.take_succ_cons,
            List.filter_cons_of_pos (by simp)]
          rw [Function.update_self] at hih
          refine congrArg (el :: ·) (Eq.trans (List.filter_congr fun e he => ?_) hih)
          have hne : e ≠ el := fun h' => notMem_takeKept_shift h hp (h' ▸ he)
          simp [hne]
        · have hel : el ∉ pool k := fun hel => hk (hmarkup ▸ h.markup k el hel)
          rw [Function.update_of_ne (Ne.symm hk)] at hih
          rw [List.filter_cons_of_neg (by simpa using hel),
            List.countP_cons_of_neg (by simpa using hk), hih]

end Matched

/-! ### The run that stays -/

section Staying

variable {p : Page} {want : List Ref} {runs : List (Option Run)}

/-- A run's end, and the end of the run it goes on from: that one is found, and stands before. -/
structure Linked (runs : List (Option Run)) (r : Run) : Prop where
  prev : ∀ j ∈ r.prev, ∃ q, runs[j]? = some (some q) ∧ q.place < r.place

theorem extend_spec (runs : List (Option Run)) (v own : ℕ) :
    (extend runs v own).place = v ∧ Linked runs (extend runs v own) := by
  have hfold : ∀ (l : List (Option Run × ℕ)) (r : Run), l ⊆ runs.zipIdx →
      r.place = v ∧ Linked runs r →
      let r' := l.foldl (fun r q =>
        match q.1 with
        | some q' =>
          if q'.place < v ∧ r.weight < q'.weight + own then ⟨v, q'.weight + own, some q.2⟩ else r
        | none => r) r
      r'.place = v ∧ Linked runs r' := by
    intro l
    induction l with
    | nil => exact fun r _ hr => hr
    | cons q l ih =>
        intro r hl hr
        rw [List.foldl_cons]
        refine ih _ (fun x hx => hl (.tail _ hx)) ?_
        obtain ⟨q, i⟩ := q
        cases q with
        | none => exact hr
        | some q =>
            dsimp only
            split
            · next hlt =>
              refine ⟨rfl, ⟨fun j hj => ⟨q, ?_, hlt.1⟩⟩⟩
              obtain rfl := Option.mem_some_iff.mp hj
              exact List.mem_zipIdx_iff_getElem?.mp (hl List.mem_cons_self)
            · exact hr
  exact hfold runs.zipIdx ⟨v, own, none⟩ (List.Subset.refl _) ⟨rfl, ⟨fun _ h => by cases h⟩⟩

/-- The runs of the wanted elements: each at its element's place, linked to an earlier one. -/
structure Chained (old want : List Ref) (runs : List (Option Run)) : Prop where
  length : runs.length = want.length
  place : ∀ (i : ℕ) r, runs[i]? = some (some r) →
    ∃ el, want[i]? = some el ∧ old.idxOf? el = some r.place
  prev : ∀ (i : ℕ) r, runs[i]? = some (some r) → ∀ j ∈ r.prev,
    j < i ∧ ∃ q, runs[j]? = some (some q) ∧ q.place < r.place

theorem Chained.concat {old : List Ref} (h : Chained old want runs) (el : Ref) (own : ℕ) :
    Chained old (want ++ [el])
      (runs ++ [(old.idxOf? el).map fun v => extend runs v own]) := by
  have hlast : ∀ (i : ℕ) r, (runs ++ [(old.idxOf? el).map fun v => extend runs v own])[i]? =
      some (some r) → (runs[i]? = some (some r) ∧ i < runs.length) ∨
      (i = runs.length ∧ ∃ v, old.idxOf? el = some v ∧ r = extend runs v own) := by
    intro i r hr
    rcases Nat.lt_trichotomy i runs.length with hi | hi | hi
    · rw [List.getElem?_append_left hi] at hr
      exact .inl ⟨hr, hi⟩
    · subst hi
      rw [List.getElem?_concat_length, Option.some.injEq, Option.map_eq_some_iff] at hr
      obtain ⟨v, hv, rfl⟩ := hr
      exact .inr ⟨rfl, v, hv, rfl⟩
    · rw [List.getElem?_eq_none (by simp; omega)] at hr
      cases hr
  refine ⟨by simp [h.length], fun i r hr => ?_, fun i r hr j hj => ?_⟩
  · rcases hlast i r hr with ⟨hr, hi⟩ | ⟨rfl, v, hv, rfl⟩
    · rw [List.getElem?_append_left (h.length ▸ hi)]
      exact h.place i r hr
    · refine ⟨el, ?_, by rw [(extend_spec runs v own).1, hv]⟩
      rw [h.length, List.getElem?_concat_length]
  · rcases hlast i r hr with ⟨hr, hi⟩ | ⟨rfl, v, hv, rfl⟩
    · obtain ⟨hji, q, hq, hlt⟩ := h.prev i r hr j hj
      exact ⟨hji, q, by rw [List.getElem?_append_left (hji.trans hi), hq], hlt⟩
    · obtain ⟨q, hq, hlt⟩ := (extend_spec runs v own).2.prev j hj
      have hji := (List.getElem?_eq_some_iff.mp hq).1
      exact ⟨hji, q, by rw [List.getElem?_append_left hji, hq], hlt⟩

theorem heaviest_chained (p : Page) (want : List Ref) :
    Chained p.children want (heaviest p want) := by
  induction want using List.reverseRecOn with
  | nil => exact ⟨rfl, fun i r h => (by cases h), fun i r h => (by cases h)⟩
  | append_singleton want el ih =>
      rw [heaviest, List.foldl_append, List.foldl_cons, List.foldl_nil]
      exact ih.concat el _

/-- A run's elements, in the wanted order and in the shown one. -/
theorem follow_sublist {old : List Ref} (h : Chained old want runs) :
    ∀ (fuel i : ℕ) r, runs[i]? = some (some r) →
      (follow want runs fuel i).reverse <+ want.take (i + 1) ∧
      (follow want runs fuel i).reverse <+ old.take (r.place + 1) := by
  intro fuel
  induction fuel with
  | zero => exact fun i r _ => ⟨List.nil_sublist _, List.nil_sublist _⟩
  | succ fuel ih =>
      intro i r hr
      obtain ⟨el, hel, hplace⟩ := h.place i r hr
      have hold : old[r.place]? = some el := by
        obtain ⟨hlt, he, -⟩ := List.idxOf?_eq_some_iff.mp hplace
        rw [List.getElem?_eq_getElem hlt, he]
      have htail : ∃ l : List Ref, (r.prev.map (follow want runs fuel)).getD [] = l ∧
          l.reverse <+ want.take i ∧ l.reverse <+ old.take r.place := by
        cases hj : r.prev with
        | none => exact ⟨[], rfl, List.nil_sublist _, List.nil_sublist _⟩
        | some j =>
            obtain ⟨hji, q, hq, hlt⟩ := h.prev i r hr j hj
            obtain ⟨hwant, hshown⟩ := ih j q hq
            exact ⟨_, rfl, hwant.trans (List.take_prefix_take_left hji).sublist,
              hshown.trans (List.take_prefix_take_left hlt).sublist⟩
      obtain ⟨l, hl, hwant, hshown⟩ := htail
      simp only [follow, hel, hr, hl, List.reverse_cons]
      rw [List.take_add_one, List.take_add_one, hel, hold]
      exact ⟨hwant.append (.refl _), hshown.append (.refl _)⟩

theorem best_spec {runs : List (Option Run)} {i : ℕ} (h : best runs = some i) :
    ∃ r, runs[i]? = some (some r) := by
  have hfold : ∀ (l : List (Option Run × ℕ)) (b : Option (ℕ × ℕ)), l ⊆ runs.zipIdx →
      (∀ x ∈ b, ∃ r, runs[x.1]? = some (some r)) →
      ∀ x ∈ l.foldl (fun (b : Option (ℕ × ℕ)) q =>
        match q.1, b with
        | none, _ => b
        | some r, none => some (q.2, r.weight)
        | some r, some (i, w) => if w < r.weight then some (q.2, r.weight) else some (i, w)) b,
      ∃ r, runs[x.1]? = some (some r) := by
    intro l
    induction l with
    | nil => exact fun b _ hb => hb
    | cons q l ih =>
        intro b hl hb
        rw [List.foldl_cons]
        refine ih _ (fun x hx => hl (.tail _ hx)) ?_
        have hq := List.mem_zipIdx_iff_getElem?.mp (hl (List.mem_cons_self (a := q) (l := l)))
        obtain ⟨q, j⟩ := q
        cases q with
        | none => exact hb
        | some r =>
            have hnew : ∀ x ∈ some (j, r.weight), ∃ r, runs[x.1]? = some (some r) := fun x hx => by
              obtain rfl := Option.mem_some_iff.mp hx
              exact ⟨r, hq⟩
            cases b with
            | none => exact hnew
            | some b =>
                dsimp only
                split
                · exact hnew
                · exact hb
  obtain ⟨x, hx, rfl⟩ := Option.map_eq_some_iff.mp h
  exact hfold runs.zipIdx none (List.Subset.refl _) (fun _ h => by cases h) x hx

/-- **The staying run.** What stays stands in the wanted order already. -/
theorem staying_sublist (p : Page) (want : List Ref) :
    (staying p want).reverse <+ want ∧ (staying p want).reverse <+ p.children := by
  rw [staying]
  cases hb : best (heaviest p want) with
  | none => exact ⟨List.nil_sublist _, List.nil_sublist _⟩
  | some i =>
      obtain ⟨r, hr⟩ := best_spec hb
      obtain ⟨hwant, hshown⟩ := follow_sublist (heaviest_chained p want) want.length i r hr
      exact ⟨hwant.trans (List.take_sublist _ _), hshown.trans (List.take_sublist _ _)⟩

end Staying

/-! ### One stylesheet -/

theorem lookup_map_setAttribute {attrs : List (String × String)} {name v : String}
    (h : (attrs.lookup name).isSome) :
    ((setAttribute attrs (name, v)).lookup name) = some v := by
  rw [setAttribute, if_pos h]
  induction attrs with
  | nil => cases h
  | cons b attrs ih =>
      rw [List.map_cons]
      by_cases hb : b.1 = name
      · simp [hb]
      · rw [if_neg hb, SortedMap.lookup_cons_if, if_neg (Ne.symm hb)]
        refine ih ?_
        rwa [SortedMap.lookup_cons_if, if_neg (Ne.symm hb)] at h

/-- An attribute set and given back leaves the element as it was. -/
theorem Element.attrs_restoreMedia (e : Element) (v : String) :
    ((e.setAttribute "media" v).restoreMedia (e.getAttribute "media")).attrs = e.attrs := by
  cases hm : e.getAttribute "media" with
  | none =>
      have hnot : "media" ∉ e.attrs.map (·.1) :=
        notMem_of_lookup (by rw [show e.attrs.lookup "media" = none from hm]; simp)
      have hset : Nav.setAttribute e.attrs ("media", v) = e.attrs ++ [("media", v)] := by
        rw [Nav.setAttribute, show e.attrs.lookup "media" = none from hm]
        rfl
      simp only [restoreMedia, removeAttribute, setAttribute, hset, List.filter_append]
      rw [List.filter_eq_self.mpr fun b hb => ?_]
      · simp
      · simpa using fun h => hnot (List.mem_map.mpr ⟨b, hb, h⟩)
  | some m =>
      have hsome : (e.attrs.lookup "media").isSome := by
        rw [show e.attrs.lookup "media" = some m from hm]
        rfl
      have hmap : Nav.setAttribute e.attrs ("media", v) =
          e.attrs.map fun b => if b.1 = "media" then ("media", v) else b := if_pos hsome
      simp only [restoreMedia, setAttribute]
      rw [Nav.setAttribute, lookup_map_setAttribute hsome, if_pos (Option.isSome_some), hmap,
        List.map_map]
      refine (List.map_congr_left fun b hb => ?_).trans (List.map_id _)
      by_cases hbm : b.1 = "media"
      · simp only [Function.comp_apply, if_pos hbm, if_true, id]
        -- the attribute of this name is the one looked up
        obtain ⟨n, w⟩ := b
        obtain rfl : n = "media" := hbm
        have hw := (SortedMap.lookup_iff_mem e.distinct).mpr hb
        rw [show e.attrs.lookup "media" = some m from hm] at hw
        rw [Option.some.inj hw]
      · simp [hbm]

theorem Element.outerHTML_congr {e e' : Element} (hname : e.localName = e'.localName)
    (hattrs : e.attrs = e'.attrs)
    (hinner : e.localName ∈ voidElements ∨ e.innerHTML = e'.innerHTML) :
    e.outerHTML = e'.outerHTML := by
  rw [outerHTML, outerHTML, ← hname, ← hattrs]
  rcases hinner with hvoid | hinner
  · rw [if_pos hvoid, if_pos hvoid]
  · rw [hinner]

theorem Element.link_of_isSheet {e : Element} (h : e.isSheet = true) :
    e.localName ∈ voidElements := by
  rw [isSheet, decide_eq_true_eq] at h
  rw [h.1]
  decide

/-- What stands for a stylesheet, and what the page is then. -/
structure SheetIn (p : Page) (ref : Option Ref) (el : Ref) (p' : Page) (s : Ref)
    (media : Option String) : Prop where
  node : s = if (p.element el).owner = .document then p.created else el
  children : p'.children = Siblings.insertBefore s ref p.children
  inserted : p'.inserted = p.inserted ++ [s]
  created : p'.created = if (p.element el).owner = .document then p.created + 1 else p.created
  frame : ∀ r, r ≠ s → p'.element r = p.element r
  owner : (p'.element s).owner = .document
  markup : (p.element el).isSheet = true →
    ((p'.element s).restoreMedia media).outerHTML = p.html el

theorem localName_restoreMedia (e : Element) (m : Option String) :
    (e.restoreMedia m).localName = e.localName := by
  cases m <;> rfl

theorem insertSheet_spec (p : Page) (ref : Option Ref) (el : Ref) :
    SheetIn p ref el (insertSheet p ref el).1 (insertSheet p ref el).2.1
      (insertSheet p ref el).2.2 := by
  have hmarkup : ∀ e : Element, e.localName = (p.element el).localName →
      e.attrs = (p.element el).attrs → (p.element el).isSheet = true →
      ((e.setAttribute "media" "not all").restoreMedia (e.getAttribute "media")).outerHTML =
        p.html el := fun e hname hattrs hsheet => by
    have hlocal := (localName_restoreMedia (e.setAttribute "media" "not all")
      (e.getAttribute "media")).trans hname
    refine Element.outerHTML_congr hlocal ((e.attrs_restoreMedia _).trans hattrs) (.inl ?_)
    exact hlocal ▸ Element.link_of_isSheet hsheet
  by_cases howner : (p.element el).owner = .document
  · simp only [insertSheet, if_pos howner]
    constructor
    case node => rw [if_pos howner]; rfl
    case children => rfl
    case inserted => rfl
    case created => rw [if_pos howner]; rfl
    case frame =>
        intro r hr
        simp only [Page.insertBefore, Page.set, Page.cloneNode] at hr ⊢
        rw [Function.update_of_ne hr, Function.update_of_ne hr]
    case owner =>
        simp only [Page.insertBefore, Page.set, Page.cloneNode, Function.update_self]
        exact howner
    case markup =>
        simp only [Page.insertBefore, Page.set, Page.cloneNode, Function.update_self]
        exact hmarkup (p.element el).cloneNode rfl rfl
  · simp only [insertSheet, if_neg howner]
    constructor
    case node => rw [if_neg howner]
    case children => rfl
    case inserted => rfl
    case created => rw [if_neg howner]; rfl
    case frame =>
        intro r hr
        simp only [Page.insertBefore, Page.set, Page.adoptNode] at hr ⊢
        rw [Function.update_of_ne hr, Function.update_of_ne hr]
    case owner =>
        simp only [Page.insertBefore, Page.set, Page.adoptNode, Function.update_self]
        rfl
    case markup =>
        simp only [Page.insertBefore, Page.set, Page.adoptNode, Function.update_self]
        exact hmarkup (p.element el).adoptNode rfl rfl

/-! ### Every stylesheet -/

/-- Where an element of the new head stands from the plan on. -/
inductive Placed (p : Page) (fixed : List Ref) (el : Ref) : Ref → Prop
  | same (h : el ∈ fixed ∨ (p.element el).isSheet = false) : Placed p fixed el el
  | clone {s : Ref} (hfixed : el ∉ fixed) (hsheet : (p.element el).isSheet = true)
      (hshown : (p.element el).owner = .document) (hs : p.created ≤ s) : Placed p fixed el s
  | adopted (hfixed : el ∉ fixed) (hsheet : (p.element el).isSheet = true)
      (hshown : (p.element el).owner ≠ .document) : Placed p fixed el el

/-- The wanted elements that are fixed stand in the head in order. -/
structure Ready (p : Page) (fixed want : List Ref) : Prop where
  nodup : p.children.Nodup
  distinct : want.Nodup
  order : want.filter (· ∈ fixed) <+ p.children
  shown : ∀ el ∈ p.children, (p.element el).owner = .document
  children : ∀ el ∈ p.children, el < p.created
  created : ∀ el ∈ want, el < p.created

/-- What the stylesheets of `rest` leave: `tail` for `rest`, with `sheets` put in. -/
structure Inserts (p : Page) (fixed rest : List Ref) (p' : Page) (fixed' tail : List Ref)
    (sheets : List (Ref × Option String)) : Prop where
  placed : List.Forall₂ (Placed p fixed) rest tail
  added : ∀ s ∈ sheets.map (·.1), s ∈ tail ∧ s ∉ p.children
  distinct : (sheets.map (·.1)).Nodup
  mem_fixed : ∀ x, x ∈ fixed' ↔ x ∈ fixed ∨ x ∈ sheets.map (·.1)
  inserted : p'.inserted = p.inserted ++ sheets.map (·.1)
  frame : ∀ r < p.created, r ∉ sheets.map (·.1) → p'.element r = p.element r
  beside : ∀ q : Ref → Bool, (∀ s ∈ sheets.map (·.1), q s = false) →
    p'.children.filter q = p.children.filter q
  markup : List.Forall₂ (fun el s =>
    (s = el ∧ s ∉ sheets.map (·.1) ∧ p'.element s = p.element el) ∨
    ∃ m, (s, m) ∈ sheets ∧ ((p'.element s).restoreMedia m).outerHTML = p.html el) rest tail

section Sheets

variable {p p' : Page} {fixed fixed' done rest tail : List Ref} {el s : Ref}
  {media : Option String} {sheets : List (Ref × Option String)}

/-- The stylesheet's element is new to the head and to what is wanted beside it. -/
theorem SheetIn.fresh {ref : Option Ref} (h : SheetIn p ref el p' s media)
    (hr : Ready p fixed (done ++ el :: rest)) : s ∉ p.children ∧ s ∉ done ∧ s ∉ rest ∧
      s < p'.created ∧ (s = el ∨ s = p.created) := by
  have hnode := h.node
  have hcreated := h.created
  have hwant := List.nodup_middle.mp hr.distinct
  rw [List.nodup_cons, List.mem_append, not_or] at hwant
  split at hnode
  · next hdoc =>
    rw [if_pos hdoc] at hcreated
    have hne : ∀ x < p.created, s ≠ x := fun x hx he => (hx.trans_eq hnode.symm).ne he.symm
    refine ⟨fun hs => hne s (hr.children s hs) rfl, fun hs => ?_, fun hs => ?_, ?_, .inr hnode⟩
    · exact hne s (hr.created s (by simp [hs])) rfl
    · exact hne s (hr.created s (by simp [hs])) rfl
    · rw [hnode, hcreated]
      exact Nat.lt_succ_self _
  · next hdoc =>
    rw [if_neg hdoc] at hcreated
    rw [hnode]
    exact ⟨fun hs => hdoc (hr.shown el hs), hwant.1.1, hwant.1.2,
      hcreated ▸ hr.created el (by simp), .inl rfl⟩

theorem SheetIn.ready (h : SheetIn p (rest.find? (· ∈ fixed)) el p' s media)
    (hr : Ready p fixed (done ++ el :: rest)) : Ready p' (s :: fixed) ((done ++ [s]) ++ rest) := by
  obtain ⟨hchildren, hdone, hrest, hlt, hnode⟩ := h.fresh hr
  have hwant := (List.nodup_cons.mp (List.nodup_middle.mp hr.distinct)).2
  have hle : p.created ≤ p'.created := by
    have hcreated := h.created
    split at hcreated <;> omega
  have hperm : (insertBefore s (rest.find? (· ∈ fixed)) p.children).Perm (s :: p.children) :=
    perm_insertBefore
  have hskip : ∀ l : List Ref, s ∉ l → l.filter (· ∈ s :: fixed) = l.filter (· ∈ fixed) :=
    fun l hl => List.filter_congr fun x hx => by
      have hne : x ≠ s := fun he => hl (he ▸ hx)
      simp [hne]
  have hmem : ∀ x ∈ p'.children, x = s ∨ x ∈ p.children := fun x hx => by
    rw [h.children] at hx
    exact List.mem_cons.mp (hperm.subset hx)
  constructor
  case nodup => rw [h.children, hperm.nodup_iff, List.nodup_cons]; exact ⟨hchildren, hr.nodup⟩
  case distinct =>
      rw [List.append_assoc, List.singleton_append]
      refine List.nodup_middle.mpr (List.nodup_cons.mpr ⟨?_, hwant⟩)
      simp [hdone, hrest]
  case order =>
      rw [h.children, List.append_assoc, List.filter_append, List.singleton_append,
        List.filter_cons_of_pos (by simp), hskip done hdone, hskip rest hrest]
      rw [← List.head?_filter]
      refine sublist_insertBefore hr.nodup (.trans ?_ hr.order)
      rw [← List.filter_append]
      exact ((List.sublist_cons_self el rest).append_left done).filter _
  case shown =>
      intro x hx
      by_cases hxs : x = s
      · exact hxs ▸ h.owner
      · rw [h.frame x hxs]
        exact hr.shown x ((hmem x hx).resolve_left hxs)
  case children =>
      intro x hx
      rcases hmem x hx with rfl | hx
      · exact hlt
      · exact (hr.children x hx).trans_le hle
  case created =>
      intro x hx
      rw [List.append_assoc, List.singleton_append, List.mem_append, List.mem_cons] at hx
      rcases hx with hx | rfl | hx
      · exact (hr.created x (by simp [hx])).trans_le hle
      · exact hlt
      · exact (hr.created x (by simp [hx])).trans_le hle

/-- An element that is there and not among the wanted ones does not stand for one. -/
theorem notMem_placed {y : Ref} (h : List.Forall₂ (Placed p fixed) rest tail) (hy : y ∉ rest)
    (hlt : y < p.created) : y ∉ tail := fun hmem => by
  obtain ⟨x, hx, hplaced⟩ := exists_of_forall₂ h hmem
  cases hplaced with
  | same => exact hy hx
  | clone _ _ _ hs => exact absurd hlt hs.not_gt
  | adopted => exact hy hx

/-- One stylesheet before the others. -/
theorem Inserts.cons {p'' : Page} (ht : Inserts p' (s :: fixed) rest p'' fixed' tail sheets)
    (h : SheetIn p (rest.find? (· ∈ fixed)) el p' s media)
    (hr : Ready p fixed (done ++ el :: rest)) (hfixed : el ∉ fixed)
    (hsheet : (p.element el).isSheet = true) :
    Inserts p fixed (el :: rest) p'' fixed' (s :: tail) ((s, media) :: sheets) := by
  obtain ⟨hchildren, hdone, hrest, hlt, hnode⟩ := h.fresh hr
  have hle : p.created ≤ p'.created := by
    have hcreated := h.created
    split at hcreated <;> omega
  have hmem : ∀ x, x ∈ p'.children ↔ x = s ∨ x ∈ p.children := fun x => by
    rw [h.children, perm_insertBefore.mem_iff, List.mem_cons]
  have hold : ∀ x ∈ rest, p'.element x = p.element x := fun x hx =>
    h.frame x fun he => hrest (he ▸ hx)
  have hnew : ∀ t ∈ tail, t ≠ s := fun t htail he =>
    notMem_placed ht.placed hrest hlt (he ▸ htail)
  have hlater : s ∉ sheets.map (·.1) := fun hs => (ht.added s hs).2 ((hmem s).mpr (.inl rfl))
  constructor
  case placed =>
      refine .cons ?_ (forall₂_imp_mem ht.placed fun x hx t _ hplaced => ?_)
      · have hs := h.node
        split at hs
        · next hdoc => exact .clone hfixed hsheet hdoc (hs ▸ Nat.le_refl _)
        · next hdoc =>
          subst hs
          exact .adopted hfixed hsheet hdoc
      · have hne : x ≠ s := fun he => hrest (he ▸ hx)
        have hmemFixed : x ∈ s :: fixed ↔ x ∈ fixed := by simp [hne]
        have heq := hold x hx
        cases hplaced with
        | same h' => exact .same (heq ▸ h'.imp_left hmemFixed.mp)
        | clone hf hsh hd hs =>
            exact .clone (mt hmemFixed.mpr hf) (heq ▸ hsh) (heq ▸ hd) (hle.trans hs)
        | adopted hf hsh hd => exact .adopted (mt hmemFixed.mpr hf) (heq ▸ hsh) (heq ▸ hd)
  case added =>
      intro x hx
      rw [List.map_cons, List.mem_cons] at hx
      rcases hx with rfl | hx
      · exact ⟨List.mem_cons_self, hchildren⟩
      · obtain ⟨htail, hnot⟩ := ht.added x hx
        exact ⟨.tail _ htail, fun hc => hnot ((hmem x).mpr (.inr hc))⟩
  case distinct => exact List.nodup_cons.mpr ⟨hlater, ht.distinct⟩
  case mem_fixed =>
      intro x
      rw [ht.mem_fixed, List.map_cons, List.mem_cons, List.mem_cons]
      tauto
  case inserted =>
      rw [ht.inserted, h.inserted, List.append_assoc]
      rfl
  case frame =>
      intro r hrlt hnot
      rw [List.map_cons, List.mem_cons, not_or] at hnot
      rw [ht.frame r (hrlt.trans_le hle) hnot.2, h.frame r hnot.1]
  case beside =>
      intro q hq
      rw [ht.beside q fun x hx => hq x (.tail _ hx), h.children,
        filter_insertBefore (hq s (by simp))]
  case markup =>
      refine .cons (.inr ⟨media, List.mem_cons_self, ?_⟩)
        (forall₂_imp_mem ht.markup fun x hx t htail hmarkup => ?_)
      · rw [ht.frame s hlt hlater]
        exact h.markup hsheet
      · have heq := hold x hx
        rcases hmarkup with ⟨hsame, hnot, he⟩ | ⟨m, hm, he⟩
        · have hts := hnew t htail
          exact .inl ⟨hsame, by simpa [hts] using hnot, he.trans heq⟩
        · exact .inr ⟨m, .tail _ hm, by rw [he, Page.html, Page.html, heq]⟩

/-- An element that stays, or is no stylesheet, before the others. -/
theorem Inserts.skip (ht : Inserts p fixed rest p' fixed' tail sheets)
    (hr : Ready p fixed (done ++ el :: rest)) (h : el ∈ fixed ∨ (p.element el).isSheet = false) :
    Inserts p fixed (el :: rest) p' fixed' (el :: tail) sheets := by
  have hlt : el < p.created := hr.created el (by simp)
  have hrest : el ∉ rest := fun hmem => by
    have hwant := List.nodup_cons.mp (List.nodup_middle.mp hr.distinct)
    exact hwant.1 (List.mem_append_right _ hmem)
  have hnot : el ∉ sheets.map (·.1) := fun hs =>
    notMem_placed ht.placed hrest hlt (ht.added el hs).1
  exact { ht with
    placed := .cons (.same h) ht.placed
    added := fun s hs => ⟨.tail _ (ht.added s hs).1, (ht.added s hs).2⟩
    markup := .cons (.inl ⟨rfl, hnot, ht.frame el hlt hnot⟩) ht.markup }

/-- **The plan.** The stylesheets that cannot stay go in at their places. -/
theorem insertSheets_spec : ∀ {rest : List Ref} {p : Page} {fixed : List Ref} (done : List Ref)
    (sheets : List (Ref × Option String)), Ready p fixed (done ++ rest) →
      ∃ p' fixed' tail sheets', insertSheets p fixed done sheets rest =
          (p', ⟨done ++ tail, fixed', sheets ++ sheets'⟩) ∧
        Inserts p fixed rest p' fixed' tail sheets' ∧ Ready p' fixed' (done ++ tail)
  | [], p, fixed, done, sheets, hr => by
      refine ⟨p, fixed, [], [], by simp [insertSheets], ?_, hr⟩
      constructor <;> simp
  | el :: rest, p, fixed, done, sheets, hr => by
      by_cases h : el ∈ fixed ∨ (p.element el).isSheet = false
      · have hr' : Ready p fixed ((done ++ [el]) ++ rest) := by
          rwa [List.append_assoc]
        obtain ⟨p', fixed', tail, sheets', heq, ht, hready⟩ :=
          insertSheets_spec _ sheets hr'
        rw [List.append_assoc] at heq hready
        refine ⟨p', fixed', el :: tail, sheets', ?_, ht.skip hr h, hready⟩
        rw [insertSheets, if_pos h, heq]
        rfl
      · have hspec := insertSheet_spec p (rest.find? (· ∈ fixed)) el
        generalize hp' : insertSheet p (rest.find? (· ∈ fixed)) el = inserted at hspec
        obtain ⟨p', s, media⟩ := inserted
        obtain ⟨p'', fixed', tail, sheets', heq, ht, hready⟩ :=
          insertSheets_spec _ (sheets ++ [(s, media)]) (hspec.ready hr)
        rw [not_or, Bool.not_eq_false] at h
        rw [List.append_assoc] at hready
        refine ⟨p'', fixed', s :: tail, (s, media) :: sheets', ?_, ht.cons hspec hr h.1 h.2, hready⟩
        rw [insertSheets, if_neg (by simp [h]), hp']
        simp only [heq, List.append_assoc, List.singleton_append]

end Sheets

/-! ### Placing -/

section Placing

/-- An adopted element is what it was. -/
theorem html_adoptNode (p : Page) (el r : Ref) : (p.adoptNode el).html r = p.html r := by
  by_cases h : r = el
  · subst h
    simp only [Page.html, Page.adoptNode, Page.set, Function.update_self]
    rfl
  · simp only [Page.html, Page.adoptNode, Page.set, Function.update_of_ne h]

/-- What placing the wanted elements `rest` leaves. -/
structure Places (p : Page) (fixed rest : List Ref) (p' : Page) (fresh : List Ref) : Prop where
  nodup : p'.children.Nodup
  beside : ∀ q : Ref → Bool, (∀ x ∈ rest, q x = false) →
    p'.children.filter q = p.children.filter q
  html : ∀ r, p'.html r = p.html r
  inserted : ∃ moved, p'.inserted = p.inserted ++ moved ∧ ∀ x ∈ moved, x ∈ rest ∧ x ∉ fixed
  fresh : ∀ x, x ∈ fresh ↔ x ∈ rest ∧ (p.element x).owner ≠ .document

/-- One element's step. -/
theorem place_step {p : Page} {fixed done rest : List Ref} {el : Ref} (hl : p.children.Nodup)
    (hwant : (done ++ el :: rest).Nodup)
    (h : done ++ (el :: rest).filter (· ∈ fixed) <+ p.children) :
    let p' := if el ∉ fixed ∧ following done.getLast? p.children ≠ some el then
      p.moveAfter done.getLast? el else p
    p'.children.Nodup ∧ (done ++ [el]) ++ rest.filter (· ∈ fixed) <+ p'.children ∧
      (∀ q : Ref → Bool, q el = false → p'.children.filter q = p.children.filter q) ∧
      ∃ moved, p'.inserted = p.inserted ++ moved ∧ ∀ x ∈ moved, x = el ∧ x ∉ fixed := by
  have hnot : el ∉ done ∧ el ∉ rest := by
    have := (List.nodup_cons.mp (List.nodup_middle.mp hwant)).1
    simpa using this
  by_cases hfixed : el ∈ fixed
  · rw [List.filter_cons_of_pos (by simpa using hfixed)] at h
    intro p'
    have hp' : p' = p := if_neg fun hf => hf.1 hfixed
    rw [hp']
    refine ⟨hl, ?_, fun _ _ => rfl, [], (List.append_nil _).symm, fun x hx => by cases hx⟩
    rwa [List.append_assoc]
  · rw [List.filter_cons_of_neg (by simpa using hfixed)] at h
    have hstands : Stands done.getLast? el p.children := fun x hx => by
      have hmem := List.mem_of_getLast? hx
      exact ⟨h.subset (List.mem_append_left _ hmem), fun he => hnot.1 (he ▸ hmem)⟩
    have hchildren : (if el ∉ fixed ∧ following done.getLast? p.children ≠ some el then
        p.moveAfter done.getLast? el else p).children = place done.getLast? el p.children := by
      rw [place]
      by_cases hf : following done.getLast? p.children = some el
      · simp [hf]
      · rw [if_pos ⟨hfixed, hf⟩, if_neg hf]
        rfl
    refine ⟨hchildren ▸ nodup_place hstands hl, ?_, fun q hq => ?_, ?_⟩
    · rw [hchildren, List.append_assoc, List.singleton_append]
      refine sublist_place hl h hnot.1 fun hmem => hnot.2 (List.mem_of_mem_filter hmem)
    · rw [hchildren, filter_place hstands hq]
    · split
      · exact ⟨[el], rfl, fun x hx => ⟨List.mem_singleton.mp hx, List.mem_singleton.mp hx ▸ hfixed⟩⟩
      · exact ⟨[], (List.append_nil _).symm, fun x hx => by cases hx⟩

theorem placeWanted_spec {fixed : List Ref} :
    ∀ {rest : List Ref} {p : Page} (done fresh : List Ref), p.children.Nodup →
      (done ++ rest).Nodup → done ++ rest.filter (· ∈ fixed) <+ p.children →
      ∃ p' fresh', placeWanted fixed p done.getLast? fresh rest = (p', fresh ++ fresh') ∧
        Places p fixed rest p' fresh' ∧ done ++ rest <+ p'.children
  | [], p, done, fresh, hl, _, h => by
      refine ⟨p, [], by simp [placeWanted], ?_, by simpa using h⟩
      exact ⟨hl, fun _ _ => rfl, fun _ => rfl,
        ⟨[], (List.append_nil _).symm, fun x hx => by cases hx⟩, by simp⟩
  | el :: rest, p, done, fresh, hl, hwant, h => by
      have hrest : el ∉ rest := fun hmem =>
        (List.nodup_cons.mp (List.nodup_middle.mp hwant)).1 (List.mem_append_right _ hmem)
      -- the page with the element adopted, where it is new
      obtain ⟨p₁, new, hadopt, hchildren, hinserted, hhtml, hnew, howner⟩ : ∃ p₁ new,
          (if (p.element el).owner ≠ .document then (p.adoptNode el, fresh ++ [el])
            else (p, fresh)) = (p₁, fresh ++ new) ∧ p₁.children = p.children ∧
          p₁.inserted = p.inserted ∧
          (∀ r, p₁.html r = p.html r) ∧
          (∀ x, x ∈ new ↔ x = el ∧ (p.element x).owner ≠ .document) ∧
          ∀ x ∈ rest, (p₁.element x).owner = (p.element x).owner := by
        split
        · next hdoc =>
          refine ⟨_, _, rfl, rfl, rfl, html_adoptNode p el, fun x => ?_, fun x hx => ?_⟩
          · rw [List.mem_singleton]
            exact ⟨fun he => ⟨he, he ▸ hdoc⟩, And.left⟩
          · have hne : x ≠ el := fun he => hrest (he ▸ hx)
            simp only [Page.adoptNode, Page.set, Function.update_of_ne hne]
        · next hdoc =>
          refine ⟨p, [], by rw [List.append_nil], rfl, rfl, fun _ => rfl, fun x => ?_,
            fun _ _ => rfl⟩
          simp only [List.not_mem_nil, false_iff, not_and]
          rintro rfl
          exact hdoc
      have hstep := place_step (p := p₁) (hchildren ▸ hl) hwant (hchildren ▸ h)
      generalize hp₂ : (if el ∉ fixed ∧ following done.getLast? p₁.children ≠ some el then
        p₁.moveAfter done.getLast? el else p₁) = p₂ at hstep
      obtain ⟨hl₂, horder, hbeside, moved, hmoved, hmovedEl⟩ := hstep
      have hwant' : ((done ++ [el]) ++ rest).Nodup := by rwa [List.append_assoc]
      obtain ⟨p', fresh', heq, hplaces, hsub⟩ :=
        placeWanted_spec _ (fresh ++ new) hl₂ hwant' horder
      have helement : p₂.element = p₁.element := by
        rw [← hp₂]
        split <;> rfl
      refine ⟨p', new ++ fresh', ?_, ?_, by rwa [List.append_assoc] at hsub⟩
      · rw [placeWanted, hadopt]
        dsimp only
        rw [hp₂, ← List.append_assoc, ← heq, List.getLast?_concat]
      · constructor
        case nodup => exact hplaces.nodup
        case beside =>
            intro q hq
            rw [hplaces.beside q fun x hx => hq x (.tail _ hx),
              hbeside q (hq el List.mem_cons_self), hchildren]
        case html =>
            intro r
            rw [hplaces.html, Page.html, helement, ← hhtml]
            rfl
        case inserted =>
            obtain ⟨moved', hmoved', hrest'⟩ := hplaces.inserted
            refine ⟨moved ++ moved', ?_, fun x hx => ?_⟩
            · rw [hmoved', hmoved, hinserted, List.append_assoc]
            · rcases List.mem_append.mp hx with hx | hx
              · obtain ⟨rfl, hfixed⟩ := hmovedEl x hx
                exact ⟨List.mem_cons_self, hfixed⟩
              · exact ⟨.tail _ (hrest' x hx).1, (hrest' x hx).2⟩
        case fresh =>
            intro x
            rw [List.mem_append, hnew, hplaces.fresh, List.mem_cons, helement]
            constructor
            · rintro (⟨rfl, hx⟩ | ⟨hx, howned⟩)
              · exact ⟨.inl rfl, hx⟩
              · exact ⟨.inr hx, howner x hx ▸ howned⟩
            · rintro ⟨rfl | hx, howned⟩
              · exact .inl ⟨rfl, howned⟩
              · exact .inr ⟨hx, (howner x hx).symm ▸ howned⟩

end Placing

/-! ### The reconciled head -/

/-- A shown head and a fetched one. -/
structure Heads where
  page : Page
  next : List Ref
  distinct : (page.children ++ next).Nodup
  shown : ∀ el ∈ page.children, (page.element el).owner = .document
  fetched : ∀ el ∈ next, (page.element el).owner = .fetched
  created : ∀ el ∈ page.children ++ next, el < page.created
  inserted : page.inserted = []

namespace Heads

variable (h : Heads)

/-- The elements that stand for the new head's. -/
def want : List Ref := matched h.page h.next

theorem pooled :
    Pooled h.page.html (fun k => h.page.children.filter (h.page.html · = k)) h.next where
  markup _ _ hel := of_decide_eq_true (List.mem_filter.mp hel).2
  nodup _ := (List.nodup_append.mp h.distinct).1.filter _
  distinct := (List.nodup_append.mp h.distinct).2.1
  apart n hn _ hk :=
    (List.nodup_append.mp h.distinct).2.2 n (List.mem_of_mem_filter hk) n hn rfl

theorem mem_want {el : Ref} (hel : el ∈ h.want) : el ∈ h.page.children ∨ el ∈ h.next := by
  rcases mem_takeKept h.pooled hel with hnext | ⟨k, hk⟩
  · exact .inr hnext
  · exact .inl (List.mem_of_mem_filter hk)

theorem ready : Ready h.page (staying h.page h.want) h.want where
  nodup := (List.nodup_append.mp h.distinct).1
  distinct := nodup_takeKept h.pooled
  order := by
    obtain ⟨hwant, hshown⟩ := staying_sublist h.page h.want
    have hfilter := filter_mem_of_sublist (nodup_takeKept h.pooled) hwant
    simp only [List.mem_reverse] at hfilter
    exact (show h.want.filter (· ∈ staying h.page h.want) = _ from hfilter) ▸ hshown
  shown := h.shown
  children el hel := h.created el (List.mem_append_left _ hel)
  created el hel := h.created el (by
    rw [List.mem_append]
    exact h.mem_want hel)

end Heads

theorem restoreMedia_children (p : Page) (sheets : List (Ref × Option String)) :
    (restoreMedia p sheets).children = p.children ∧
      (restoreMedia p sheets).inserted = p.inserted := by
  induction sheets generalizing p with
  | nil => exact ⟨rfl, rfl⟩
  | cons s sheets ih => exact ih _

theorem restoreMedia_of_notMem {p : Page} {sheets : List (Ref × Option String)} {r : Ref}
    (hr : r ∉ sheets.map (·.1)) : (restoreMedia p sheets).element r = p.element r := by
  induction sheets generalizing p with
  | nil => rfl
  | cons s sheets ih =>
      rw [List.map_cons, List.mem_cons, not_or] at hr
      refine (ih hr.2).trans ?_
      simp only [Page.set, Function.update_of_ne hr.1]

theorem restoreMedia_of_mem {p : Page} {sheets : List (Ref × Option String)} {s : Ref}
    {m : Option String} (hn : (sheets.map (·.1)).Nodup) (hs : (s, m) ∈ sheets) :
    (restoreMedia p sheets).element s = (p.element s).restoreMedia m := by
  induction sheets generalizing p with
  | nil => cases hs
  | cons s' sheets ih =>
      rw [List.map_cons, List.nodup_cons] at hn
      rcases List.mem_cons.mp hs with rfl | hs
      · refine (restoreMedia_of_notMem hn.1).trans ?_
        simp only [Page.set, Function.update_self]
      · refine (ih hn.2 hs).trans ?_
        have hne : s ≠ s'.1 := fun he => hn.1 (he ▸ List.mem_map_of_mem hs)
        simp only [Page.set, Function.update_of_ne hne]

/-- What a navigation leaves of the plan and the placing. -/
theorem reconcile_spec (h : Heads) (served : Ref → Bool) :
    ∃ p fixed tail sheets, (reconcile h.page h.next served).plan = ⟨tail, fixed, sheets⟩ ∧
      Inserts h.page (staying h.page h.want) h.want p fixed tail sheets ∧
      Ready p fixed tail ∧
      Places { restoreMedia p sheets with
          children := p.children.filter fun el => el ∈ tail ∨ served el = false }
        fixed tail (reconcile h.page h.next served).page (reconcile h.page h.next served).fresh ∧
      tail <+ (reconcile h.page h.next served).page.children := by
  obtain ⟨p, fixed, tail, sheets, hplan, hinserts, hready⟩ :=
    insertSheets_spec [] [] h.ready
  simp only [List.nil_append] at hplan hready
  have hchildren := (restoreMedia_children p sheets).1
  have horder : tail.filter (· ∈ fixed) <+
      p.children.filter fun el => el ∈ tail ∨ served el = false := by
    have hfilter := hready.order.filter fun el => decide (el ∈ tail ∨ served el = false)
    rwa [List.filter_eq_self.mpr fun x hx => ?_] at hfilter
    simp [List.mem_of_mem_filter hx]
  obtain ⟨p', fresh, hplace, hplaces, hsub⟩ := placeWanted_spec [] []
    (p := { restoreMedia p sheets with
      children := p.children.filter fun el => el ∈ tail ∨ served el = false })
    (hready.nodup.filter _) hready.distinct horder
  have hreconcile : reconcile h.page h.next served = ⟨p', ⟨tail, fixed, sheets⟩, fresh⟩ := by
    rw [List.getLast?_nil, List.nil_append] at hplace
    rw [reconcile, show planHead h.page h.next = _ from hplan]
    dsimp only
    rw [applyHead, hchildren]
    exact congrArg (fun r : Page × List Ref => Reconciled.mk r.1 ⟨tail, fixed, sheets⟩ r.2) hplace
  rw [hreconcile]
  exact ⟨p, fixed, tail, sheets, rfl, hinserts, hready, hplaces, hsub⟩

/-- **The head.** Its children that stand for the new head's elements are these, in order and
markup; of each markup as many elements stay as both heads have, a stylesheet that is not fixed by a
clone; no fixed element and no stylesheet shown before is inserted; and what was added at runtime is
there still, in its order where no new element has its markup. -/
theorem head_reconciled (h : Heads) (served : Ref → Bool) :
    let r := reconcile h.page h.next served
    (r.page.children.filter (· ∈ r.plan.want) = r.plan.want ∧
      r.plan.want.map r.page.html = h.next.map h.page.html) ∧
    (∀ k, h.want.filter (fun el => el ∈ h.page.children ∧ h.page.html el = k) =
      (h.page.children.filter (h.page.html · = k)).take (h.next.countP (h.page.html · = k))) ∧
    List.Forall₂ (Placed h.page (staying h.page h.want)) h.want r.plan.want ∧
    (∀ el ∈ h.page.children, el ∈ r.page.inserted →
      el ∉ r.plan.fixed ∧ (h.page.element el).isSheet = false) ∧
    (∀ el ∈ h.page.children, served el = false → el ∈ r.page.children) ∧
    r.page.children.filter (· ∉ r.plan.want) =
      h.page.children.filter (fun el => el ∉ r.plan.want ∧ served el = false) ∧
    ((∀ el ∈ h.want, el ∈ h.page.children → served el = true) →
      r.page.children.filter (r.served served) = r.plan.want) := by
  obtain ⟨p, fixed, tail, sheets, hplan, hinserts, hready, hplaces, hsub⟩ :=
    reconcile_spec h served
  generalize reconcile h.page h.next served = r at hplan hplaces hsub
  obtain ⟨page, plan, fresh⟩ := r
  dsimp only at hplan hplaces hsub ⊢
  subst hplan
  dsimp only
  have hwant := filter_mem_of_sublist hplaces.nodup hsub
  -- the elements beside the wanted ones are those of the shown head
  have hbeside : page.children.filter (· ∉ tail) =
      h.page.children.filter (fun el => el ∉ tail ∧ served el = false) := by
    have hq : ∀ x ∈ tail, decide (x ∉ tail) = false := fun x hx => by simp [hx]
    rw [hplaces.beside _ hq, List.filter_filter]
    refine Eq.trans (List.filter_congr fun x _ => ?_) (hinserts.beside _ fun s hs => ?_)
    · by_cases hx : x ∈ tail <;> simp [hx]
    · simp [(hinserts.added s hs).1]
  have hhtml : List.Forall₂ (fun s el => page.html s = h.page.html el) tail h.want :=
    List.Forall₂.flip (hinserts.markup.imp fun el s hmarkup => by
      change page.html s = h.page.html el
      rw [hplaces.html, Page.html]
      dsimp only
      rcases hmarkup with ⟨-, hnot, he⟩ | ⟨m, hm, he⟩
      · rw [restoreMedia_of_notMem hnot, he]
        rfl
      · rw [restoreMedia_of_mem hinserts.distinct hm, he])
  refine ⟨⟨hwant, ?_⟩, fun k => ?_, hinserts.placed, fun el hel hins => ?_, fun el hel hs => ?_,
    hbeside, fun hserved => ?_⟩
  · rw [map_eq_of_forall₂ hhtml]
    exact map_eq_of_forall₂ ((takeKept_forall₂ h.pooled).imp fun el n he => he.1)
  · refine Eq.trans (List.filter_congr fun el _ => ?_) (filter_takeKept h.pooled k)
    simp [List.mem_filter]
  · obtain ⟨moved, hmoved, hspec⟩ := hplaces.inserted
    dsimp only at hmoved
    rw [hmoved, (restoreMedia_children p sheets).2, hinserts.inserted, h.inserted,
      List.nil_append] at hins
    rcases List.mem_append.mp hins with hsheet | hmem
    · exact absurd hel (hinserts.added el hsheet).2
    · obtain ⟨htail, hfixed⟩ := hspec el hmem
      refine ⟨hfixed, ?_⟩
      obtain ⟨x, -, hplaced⟩ := exists_of_forall₂ hinserts.placed htail
      cases hplaced with
      | same hx => exact hx.resolve_left fun hs => hfixed ((hinserts.mem_fixed el).mpr (.inl hs))
      | clone _ _ _ hs =>
          exact absurd (h.created el (List.mem_append_left _ hel)) hs.not_gt
      | adopted _ _ hdoc => exact absurd (h.shown el hel) hdoc
  · by_cases htail : el ∈ tail
    · exact hsub.subset htail
    · refine List.mem_of_mem_filter (p := (· ∉ tail)) ?_
      rw [hbeside]
      exact List.mem_filter.mpr ⟨hel, by simp [htail, hs]⟩
  · refine Eq.trans (List.filter_congr fun c hc => ?_) hwant
    by_cases htail : c ∈ tail
    · obtain ⟨el, hel, ⟨rfl, hnot, he⟩ | ⟨m, hm, -⟩⟩ := exists_of_forall₂ hinserts.markup htail
      · rcases h.mem_want hel with hold | hnew
        · simp [Reconciled.served, hserved c hel hold, htail]
        · have hfresh : c ∈ fresh := (hplaces.fresh c).mpr ⟨htail, by
            dsimp only
            rw [restoreMedia_of_notMem hnot, he, h.fetched c hnew]
            decide⟩
          simp [Reconciled.served, hfresh, htail]
      · simp [Reconciled.served, htail, List.mem_map_of_mem hm (f := (·.1))]
    · have hmem : c ∈ page.children.filter (· ∉ tail) := List.mem_filter.mpr ⟨hc, by simp [htail]⟩
      rw [hbeside, List.mem_filter, decide_eq_true_eq] at hmem
      have hsheet : c ∉ sheets.map (·.1) := fun hs => htail (hinserts.added c hs).1
      have hfresh : c ∉ fresh := fun hf => htail ((hplaces.fresh c).mp hf).1
      simp only [Reconciled.served, hmem.2.2, hsheet, hfresh, htail]
      rfl

/-- A head with one element, added at runtime, and a new head with one like it. -/
def theme (owner : Owner) : Element :=
  ⟨owner, "meta", [("name", "theme")], "", by decide⟩

def alike : Heads where
  page := ⟨[0], fun el => theme (if el = 0 then .document else .fetched), 2, []⟩
  next := [1]
  distinct := by decide
  shown := by decide
  fetched := by decide
  created := by decide
  inserted := rfl

/-- The element added at runtime stands for the new one, and is not the server's. -/
theorem served_head_misses :
    ¬ ∀ (h : Heads) (served : Ref → Bool),
      let r := reconcile h.page h.next served
      (r.page.children.filter (r.served served)).map r.page.html = h.next.map h.page.html := by
  intro hall
  have hlength := congrArg List.length (hall alike fun _ => false)
  revert hlength
  decide

end Brust.Nav.Head
