import Brust.Jinja.Attrs
import Brust.Jinja.Value
import Brust.Plan.OwnKeys

/-!
# Jinja — spread objects

A spread's segments make one object.  `obj_assign` keeps the order of JavaScript's own keys
(`mapEntries_objAssign`); `omit`, `omit_attrs` and `spread_merge` build a sorted map, and keep it
exactly where it is the sorted one (`spread_order_iff`).
-/

namespace Brust.Jinja

open SortedMap (keys put putAll collect inOrder lastWritten Sorted)

variable {F : Type}

/-! ### Segments -/

/-- `map_pairs` -/
def mapPairs (v : Value F) : List (String × Value F) := v.mapEntries

/-- `segment`: a name and its value, or the entries of a map. -/
def segment : Value F → List (String × Value F)
  | .seq [.str name, v] => [(String.ofList name, v)]
  | .seq _ => []
  | v => mapPairs v

/-- The entries of the segments, as they are written. -/
def written (segs : List (Value F)) : List (String × Value F) := segs.flatMap segment

/-- `merge` -/
def merge (segs : List (Value F)) : List (String × Value F) := putAll (written segs)

/-! ### Objects -/

/-- `d | omit([…])` -/
def omitNames (d : Value F) (names : List String) : Value F :=
  .map .plain (collect ((mapPairs d).filter fun e => !names.contains e.1))

/-- `d | omit_attrs([…])` -/
def omitAttrs (d : Value F) (names : List String) : Value F :=
  let attrKeys := names.map fun n => attrKey n.toList
  .map .plain (collect ((mapPairs d).filter fun e => !attrKeys.contains (attrKey e.1.toList)))

/-- `spread_merge(…)` -/
def spreadMerge (segs : List (Value F)) : Value F := .map .plain (collect (merge segs))

/-- `OrderedMap::set` -/
def setOrdered (entries : List (String × Value F)) (e : String × Value F) :
    List (String × Value F) :=
  if e.1 = "__proto__" then entries else put e.1 e.2 entries

/-- The characters of a string's UTF-16 units, one by one. -/
def utf16Lossy (s : List Char) : List Char :=
  s.flatMap fun c => if c.toNat < 2 ^ 16 then [c] else ['\ufffd', '\ufffd']

/-- What a source of `obj_assign` gives: the entries of a map, the indices of a list or a string. -/
def assignSource : Value F → List (String × Value F)
  | .seq items => items.zipIdx.map fun (v, i) => (toString i, v)
  | .str s => (utf16Lossy s).zipIdx.map fun (c, i) => (toString i, .str [c])
  | v => mapPairs v

/-- `obj_assign(…)` -/
def objAssign (sources : List (Value F)) : Value F :=
  .map .ordered ((sources.flatMap assignSource).foldl setOrdered [])

/-! ### `Object.assign` -/

/-- What `Object.assign` sets of some entries: not the prototype. -/
def assignable (text : List (String × Value F)) : List (String × Value F) :=
  text.filter fun e => e.1 != "__proto__"

/-- `Object.assign({}, …)` of entries: array indices ascending, then the other keys in the order
they were first set (`order_jsKeys`), each with the value set last. -/
def assigned (text : List (String × Value F)) : List (String × Value F) :=
  let set := assignable text
  inOrder (Plan.Node.jsKeys (keys set).eraseDups) set

/-- What a spread builds has the own keys in JavaScript's order. -/
structure KeepsOrder (d : Value F) (names : List String) (segs : List (Value F)) : Prop where
  omitNames : (omitNames d names).mapEntries = (mapPairs d).filter fun e => !names.contains e.1
  omitAttrs : (omitAttrs d names).mapEntries = (mapPairs d).filter fun e =>
    !(names.map fun n => attrKey n.toList).contains (attrKey e.1.toList)
  merge : (spreadMerge segs).mapEntries = assigned (written segs)

/-- The keys that are kept ascend, and no segment has a prototype's key. -/
structure KeysAscend (d : Value F) (names : List String) (segs : List (Value F)) : Prop where
  omitNames : Sorted ((mapPairs d).filter fun e => !names.contains e.1)
  omitAttrs : Sorted ((mapPairs d).filter fun e =>
    !(names.map fun n => attrKey n.toList).contains (attrKey e.1.toList))
  proto : "__proto__" ∉ keys (written segs)
  merge : (Plan.Node.jsKeys (keys (written segs)).eraseDups).Pairwise (· < ·)

/-! ### Assignments -/

theorem mem_jsKeys_eraseDups {text : List (String × Value F)} {k : String} :
    k ∈ Plan.Node.jsKeys (keys text).eraseDups ↔ k ∈ keys text :=
  (Plan.jsKeys_perm _).mem_iff.trans List.mem_eraseDups

theorem keys_assigned (text : List (String × Value F)) :
    keys (assigned text) = Plan.Node.jsKeys (keys (assignable text)).eraseDups :=
  SortedMap.keys_inOrder fun _ hk => mem_jsKeys_eraseDups.mp hk

theorem mem_keys_assignable {text : List (String × Value F)} {k : String} :
    k ∈ keys (assignable text) ↔ k ∈ keys text ∧ k ≠ "__proto__" := by
  simp only [keys, assignable, List.mem_map, List.mem_filter, bne_iff_ne, ne_eq]
  constructor
  · rintro ⟨e, ⟨he, hne⟩, rfl⟩
    exact ⟨⟨e, he, rfl⟩, hne⟩
  · rintro ⟨⟨e, he, rfl⟩, hne⟩
    exact ⟨e, ⟨he, hne⟩, rfl⟩

theorem assignable_eq_self {text : List (String × Value F)} (h : "__proto__" ∉ keys text) :
    assignable text = text := by
  refine List.filter_eq_self.mpr fun e he => ?_
  rw [bne_iff_ne]
  rintro heq
  exact h (heq ▸ List.mem_map_of_mem he)

theorem foldl_setOrdered (text : List (String × Value F)) :
    text.foldl setOrdered [] = putAll (assignable text) := by
  induction text using List.reverseRecOn with
  | nil => rfl
  | append_singleton text e ih =>
      have happend : assignable (text ++ [e]) =
          assignable text ++ [e].filter fun e => e.1 != "__proto__" := List.filter_append ..
      rw [List.foldl_append, List.foldl_cons, List.foldl_nil, ih, setOrdered, happend]
      by_cases h : e.1 = "__proto__"
      · have hdrop : [e].filter (fun e => e.1 != "__proto__") = [] := by
          rw [List.filter_cons_of_neg (by simp [h]), List.filter_nil]
        rw [if_pos h, hdrop, List.append_nil]
      · have hkeep : [e].filter (fun e => e.1 != "__proto__") = [e] := by
          rw [List.filter_cons_of_pos (by simp [h]), List.filter_nil]
        rw [if_neg h, hkeep, SortedMap.putAll_concat]

/-- **`obj_assign` gives the own keys that `Object.assign` gives, in their order.** -/
theorem mapEntries_objAssign (sources : List (Value F)) :
    (objAssign sources).mapEntries = assigned (sources.flatMap assignSource) := by
  have hentries : ∀ text : List (String × Value F),
      Value.orderedEntries (putAll text) = inOrder
        (Plan.Node.jsKeys (keys text).eraseDups) text := by
    intro text
    rw [Value.orderedEntries, SortedMap.keys_putAll, inOrder]
    refine (List.filterMap_eq_map_iff_forall_eq_some.mpr fun k hk => ?_).symm
    obtain ⟨v, hv⟩ := Option.ne_none_iff_exists'.mp
      (SortedMap.lastWritten_ne_none_iff.mpr (mem_jsKeys_eraseDups.mp hk))
    rw [SortedMap.lookup_putAll, hv]
    rfl
  rw [objAssign, Value.mapEntries, foldl_setOrdered, hentries]
  rfl

/-- `spread_merge` sorts what the segments set. -/
theorem mapEntries_spreadMerge (segs : List (Value F)) :
    (spreadMerge segs).mapEntries = collect (written segs) :=
  SortedMap.collect_putAll (written segs)

theorem spreadMerge_iff (segs : List (Value F)) :
    (spreadMerge segs).mapEntries = assigned (written segs) ↔
      "__proto__" ∉ keys (written segs) ∧
        (Plan.Node.jsKeys (keys (written segs)).eraseDups).Pairwise (· < ·) := by
  rw [mapEntries_spreadMerge]
  constructor
  · intro h
    have hkeys := congrArg keys h
    rw [keys_assigned] at hkeys
    have hproto : "__proto__" ∉ keys (written segs) := by
      intro hmem
      rw [← SortedMap.mem_keys_collect, hkeys, mem_jsKeys_eraseDups, mem_keys_assignable] at hmem
      exact hmem.2 rfl
    rw [assignable_eq_self hproto] at hkeys
    exact ⟨hproto, hkeys ▸ SortedMap.sorted_collect (written segs)⟩
  · rintro ⟨hproto, hsorted⟩
    have hkeys := (SortedMap.sorted_collect (written segs)).keys_eq hsorted fun k =>
      mem_jsKeys_eraseDups.trans SortedMap.mem_keys_collect.symm
    rw [SortedMap.collect_eq, hkeys, assigned, assignable_eq_self hproto]

/-- **A spread's objects keep the order of JavaScript's own keys exactly when that is the sorted
one.** -/
theorem spread_order_iff (d : Value F) (names : List String) (segs : List (Value F)) :
    KeepsOrder d names segs ↔ KeysAscend d names segs := by
  constructor
  · rintro ⟨homit, hattrs, hmerge⟩
    obtain ⟨hproto, hsorted⟩ := (spreadMerge_iff segs).mp hmerge
    exact ⟨SortedMap.collect_eq_self_iff.mp homit, SortedMap.collect_eq_self_iff.mp hattrs, hproto,
      hsorted⟩
  · rintro ⟨homit, hattrs, hproto, hsorted⟩
    exact ⟨SortedMap.collect_eq_self_iff.mpr homit, SortedMap.collect_eq_self_iff.mpr hattrs,
      (spreadMerge_iff segs).mpr ⟨hproto, hsorted⟩⟩

/-- The rest of `{"id":…,"title":…,"alt":…}` without its `id`: `title` was before `alt`. -/
theorem spread_order_rest :
    ¬ KeepsOrder (.map (.ctx (some ["id", "title", "alt"]))
      [("alt", .null), ("id", .null), ("title", .null)] : Value Unit) ["id"] [] := fun h =>
  absurd (congrArg keys h.omitNames) (by decide +kernel)

end Brust.Jinja
