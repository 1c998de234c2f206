import Brust.Core.Floor

/-!
# Adapter — marker names

The names an invalidation raises and the names that cover an entry, as the memory adapter, the
Durable Object and the core each write them, and the memory adapter's `covers`.  All three write the
same texts (`FloorName.text`), and a text says its kind, its prefix and the rest (`text_eq_iff`).
So names meet where the invalidation covers the entry (`names_meet`), but for what the adapters
leave out on purpose: the two that floor stored pages take every page for a GET page
(`names_miss_post`).
-/

namespace Brust.Adapter

open Brust.Core Brust.Routing

/-- What a store keeps of an entry besides its page. -/
structure Entry where
  tags : List String
  method : String
  path : String
  keyPrefix : String

def Meet (names names' : List String) : Prop := ∃ n ∈ names, n ∈ names'

instance (names names' : List String) : Decidable (Meet names names') :=
  inferInstanceAs (Decidable (∃ n ∈ names, n ∈ names'))

/-- `JSON.stringify` of a string. -/
def stringify (s : String) : String := String.ofList (jsonString s.toList)

/-! ### The memory adapter -/

namespace Memory

def pathName (method : Option String) (path : String) : String := method.getD "GET" ++ " " ++ path

def tagName (t : String) : String := "t:" ++ t

def pName (m : Option String) (p : String) : String := "p:" ++ pathName m p

def px (keyPrefix : String) : String := "px:" ++ stringify keyPrefix

def ptName (keyPrefix t : String) : String := "pt:" ++ stringify keyPrefix ++ t

def ppName (keyPrefix : String) (m : Option String) (p : String) : String :=
  "pp:" ++ stringify keyPrefix ++ pathName m p

/-- The marker names an invalidation raises.  `{ prefix }` alone ignores `method`. -/
def invalidationNames (a : InvalidateArgs) : List String :=
  match a.keyPrefix with
  | none => a.tags.map tagName ++ a.path.toList.map (pName a.method)
  | some pre =>
    if a.tags = [] ∧ a.path = none then [px pre]
    else a.tags.map (ptName pre) ++ a.path.toList.map (ppName pre a.method)

/-- Every marker name that covers an entry. -/
def entryNames (e : Entry) : List String :=
  e.tags.map tagName ++ [pName (some e.method) e.path, px e.keyPrefix] ++
    e.tags.map (ptName e.keyPrefix) ++ [ppName e.keyPrefix (some e.method) e.path]

/-- Does `a` delete `e`? -/
def covers (a : InvalidateArgs) (e : Entry) : Bool :=
  if a.keyPrefix.any fun pre => e.keyPrefix ≠ pre then false
  else if a.tags = [] ∧ a.path = none then
    a.keyPrefix.isSome && a.method.all (· == e.method)
  else
    (e.tags.any fun t => a.tags.contains t) ||
      a.path.any fun p => pathName (some e.method) e.path == pathName a.method p

end Memory

/-! ### The Durable Object's floors -/

namespace Cloudflare

def pathName (method : Option String) (path : String) : String :=
  "p:" ++ method.getD "GET" ++ " " ++ path

/-- `toUpperCase`, as far as a comparison with `GET` goes: no other character has one of its letters
for its uppercase. -/
def toUpperCase (s : String) : String := String.ofList (s.toList.map Char.toUpper)

/-- `.slice(2)`. -/
def slice2 (s : String) : String := String.ofList (s.toList.drop 2)

/-- The floor names an invalidation touches.  `{ prefix }` alone floors every page of that prefix
(GET pages only are stored). -/
def namesOf (a : InvalidateArgs) : List String :=
  match a.keyPrefix with
  | none => a.tags.map ("t:" ++ ·) ++ a.path.toList.map (pathName a.method)
  | some pre =>
    if a.tags = [] ∧ a.path = none then
      if a.method.all fun m => toUpperCase m == "GET" then ["px:" ++ stringify pre] else []
    else
      a.tags.map (fun t => "pt:" ++ stringify pre ++ t) ++
        a.path.toList.map fun p => "pp:" ++ stringify pre ++ slice2 (pathName a.method p)

/-- Every floor name that covers an entry. -/
def entryNames (tags : List String) (method path keyPrefix : String) : List String :=
  let p := stringify keyPrefix
  tags.map ("t:" ++ ·) ++ [pathName (some method) path, "px:" ++ p] ++
    tags.map (fun t => "pt:" ++ p ++ t) ++ ["pp:" ++ p ++ slice2 (pathName (some method) path)]

end Cloudflare

/-! ### A text says what it names -/

/-- The kind of a name, its key prefix, and the rest of it. -/
def parts : FloorName → ℕ × String × String
  | .tag t => (0, "", t)
  | .path m p => (1, "", m ++ " " ++ p)
  | .keyPrefix px => (2, px, "")
  | .prefixTag px t => (3, px, t)
  | .prefixPath px m p => (4, px, m ++ " " ++ p)

/-- **Names of different kinds, prefixes and tags never coincide.** -/
theorem text_eq_iff (n n' : FloorName) : n.text = n'.text ↔ parts n = parts n' := by
  rw [← String.toList_inj, n.toList_text, n'.toList_text]
  have hpath : ∀ m p m' p' : String, m.toList ++ ' ' :: p.toList = m'.toList ++ ' ' :: p'.toList ↔
      m ++ " " ++ p = m' ++ " " ++ p' := by
    intro m p m' p'
    rw [← String.toList_inj]
    simp [String.toList_append]
  have hjson : ∀ (px px' : String) (u v : List Char),
      jsonString px.toList ++ u = jsonString px'.toList ++ v ↔ px = px' ∧ u = v := by
    intro px px' u v
    refine ⟨fun h => ?_, fun h => by rw [h.1, h.2]⟩
    obtain ⟨hpx, hu⟩ := jsonString_append_inj h
    exact ⟨String.toList_inj.mp hpx, hu⟩
  have hjson' : ∀ px px' : String, jsonString px.toList = jsonString px'.toList ↔ px = px' := by
    intro px px'
    have := hjson px px' [] []
    simpa using this
  cases n <;> cases n' <;>
    simp [parts, String.toList_inj, hpath, hjson, hjson']

/-! ### Names meet where the invalidation covers -/

/-- The names of an invalidation, for one reading of its path; `{ prefix }` alone has one if
`alone`. -/
def raised (alone : Bool) (a : InvalidateArgs) (path : Option String) : List FloorName :=
  match a.keyPrefix with
  | none => a.tags.map .tag ++ path.toList.map (.path (a.method.getD "GET"))
  | some pre =>
    if a.tags = [] ∧ path = none then if alone then [.keyPrefix pre] else []
    else a.tags.map (.prefixTag pre) ++ path.toList.map (.prefixPath pre (a.method.getD "GET"))

def Entry.names (e : Entry) : List FloorName :=
  e.tags.map .tag ++ [.path e.method e.path, .keyPrefix e.keyPrefix] ++
    e.tags.map (.prefixTag e.keyPrefix) ++ [.prefixPath e.keyPrefix e.method e.path]

theorem memory_invalidationNames (a : InvalidateArgs) :
    Memory.invalidationNames a = (raised true a a.path).map FloorName.text := by
  obtain ⟨key, tags, path, method, pre⟩ := a
  cases pre with
  | none => cases path <;> simp [Memory.invalidationNames, raised, Memory.pName, Memory.pathName,
      Memory.tagName, FloorName.text, Function.comp_def, String.append_assoc]
  | some pre =>
      by_cases h : tags = [] ∧ path = none
      · simp [Memory.invalidationNames, raised, h, Memory.px, stringify, FloorName.text, prefixPart]
      · simp only [Memory.invalidationNames, raised, h, if_false]
        cases path <;> simp [Memory.ptName, Memory.ppName, Memory.pathName, stringify,
          FloorName.text, prefixPart, Function.comp_def, String.append_assoc]

theorem memory_entryNames (e : Entry) : Memory.entryNames e = e.names.map FloorName.text := by
  have hp : Memory.pName (some e.method) e.path = (FloorName.path e.method e.path).text := by
    simp [Memory.pName, Memory.pathName, FloorName.text, String.append_assoc]
  have hpp : Memory.ppName e.keyPrefix (some e.method) e.path =
      (FloorName.prefixPath e.keyPrefix e.method e.path).text := by
    simp [Memory.ppName, Memory.pathName, stringify, FloorName.text, prefixPart,
      String.append_assoc]
  simp only [Memory.entryNames, Entry.names, hp, hpp, List.map_append, List.map_map, List.map_cons,
    List.map_nil]
  rfl

theorem slice2_pathName (method : Option String) (path : String) :
    Cloudflare.slice2 (Cloudflare.pathName method path) = method.getD "GET" ++ " " ++ path := by
  rw [← String.toList_inj]
  simp [Cloudflare.slice2, Cloudflare.pathName, String.toList_append]

theorem cloudflare_namesOf (a : InvalidateArgs) : Cloudflare.namesOf a =
    (raised (a.method.all fun m => Cloudflare.toUpperCase m == "GET") a a.path).map
      FloorName.text := by
  obtain ⟨key, tags, path, method, pre⟩ := a
  cases pre with
  | none => cases path <;> simp [Cloudflare.namesOf, raised, Cloudflare.pathName, FloorName.text,
      Function.comp_def]
  | some pre =>
      by_cases h : tags = [] ∧ path = none
      · simp only [Cloudflare.namesOf, raised, h, and_self, if_true]
        split <;> simp [stringify, FloorName.text, prefixPart]
      · simp only [Cloudflare.namesOf, raised, h, if_false]
        cases path <;> simp [slice2_pathName, stringify, FloorName.text, prefixPart,
          Function.comp_def, String.append_assoc]

theorem cloudflare_entryNames (e : Entry) :
    Cloudflare.entryNames e.tags e.method e.path e.keyPrefix = e.names.map FloorName.text := by
  simp only [Cloudflare.entryNames, slice2_pathName, Entry.names, List.map_append, List.map_map,
    List.map_cons, List.map_nil]
  simp [Cloudflare.pathName, stringify, FloorName.text, prefixPart, Function.comp_def,
    String.append_assoc]

theorem core_floorNames (a : InvalidateArgs) : a.floorNames =
    raised (a.method.all (· == "GET")) a (a.path.map normalizeRequestPath) := by
  obtain ⟨key, tags, path, method, pre⟩ := a
  cases pre <;> cases path <;> cases tags <;> simp [InvalidateArgs.floorNames, raised]

theorem core_pageNames {e : Entry} (hget : e.method = "GET") (n : FloorName) :
    n ∈ pageNames e.keyPrefix e.path e.tags ↔ n ∈ e.names := by
  simp only [pageNames, Entry.names, hget, List.mem_append, List.mem_cons, List.not_mem_nil,
    or_false]
  tauto

/-- What a name must say to be one of an entry's. -/
theorem mem_names_iff (e : Entry) (n : FloorName) :
    (∃ n' ∈ e.names, parts n' = parts n) ↔ match n with
      | .tag t => t ∈ e.tags
      | .path m p => m ++ " " ++ p = e.method ++ " " ++ e.path
      | .keyPrefix px => px = e.keyPrefix
      | .prefixTag px t => px = e.keyPrefix ∧ t ∈ e.tags
      | .prefixPath px m p => px = e.keyPrefix ∧ m ++ " " ++ p = e.method ++ " " ++ e.path := by
  cases n with
  | tag t => simp [Entry.names, parts, or_and_right, exists_or]
  | path m p =>
      simp [Entry.names, parts, or_and_right, exists_or]
      exact eq_comm
  | keyPrefix px =>
      simp [Entry.names, parts, or_and_right, exists_or]
      exact eq_comm
  | prefixTag px t =>
      simp [Entry.names, parts, or_and_right, exists_or]
      exact and_comm.trans (and_congr eq_comm Iff.rfl)
  | prefixPath px m p =>
      simp [Entry.names, parts, or_and_right, exists_or]
      exact and_congr eq_comm eq_comm

/-- `covers`, with the path in one reading. -/
def CoversAt (a : InvalidateArgs) (path : Option String) (e : Entry) : Prop :=
  (∀ pre, a.keyPrefix = some pre → pre = e.keyPrefix) ∧
    ((∃ t ∈ a.tags, t ∈ e.tags) ∨
      ∃ p, path = some p ∧ a.method.getD "GET" ++ " " ++ p = e.method ++ " " ++ e.path)

theorem raised_meets (alone : Bool) (a : InvalidateArgs) (path : Option String) (e : Entry) :
    Meet ((raised alone a path).map FloorName.text) (e.names.map FloorName.text) ↔
      if a.keyPrefix.isSome ∧ a.tags = [] ∧ path = none then
        alone = true ∧ a.keyPrefix = some e.keyPrefix
      else CoversAt a path e := by
  have hmeet : Meet ((raised alone a path).map FloorName.text) (e.names.map FloorName.text) ↔
      ∃ n ∈ raised alone a path, ∃ n' ∈ e.names, parts n' = parts n := by
    simp only [Meet, List.mem_map, exists_exists_and_eq_and, text_eq_iff]
  rw [hmeet]
  simp only [mem_names_iff]
  obtain ⟨key, tags, path', method, pre⟩ := a
  cases pre with
  | none =>
      simp only [raised, CoversAt, Option.isSome_none, Bool.false_eq_true, false_and, if_false,
        List.mem_append, List.mem_map, Option.mem_toList]
      simp [or_and_right, exists_or]
  | some pre =>
      by_cases h : tags = [] ∧ path = none
      · cases alone <;> simp [raised, h]
      · simp only [raised, CoversAt, h, Option.isSome_some, true_and, if_false, List.mem_append,
          List.mem_map, Option.mem_toList]
        simp [or_and_right, exists_or]
        by_cases hp : pre = e.keyPrefix <;> simp [hp]

theorem covers_iff (a : InvalidateArgs) (e : Entry) : Memory.covers a e = true ↔
    if a.tags = [] ∧ a.path = none then
      a.keyPrefix = some e.keyPrefix ∧ ∀ m, a.method = some m → m = e.method
    else CoversAt a a.path e := by
  obtain ⟨key, tags, path, method, pre⟩ := a
  have htags : (e.tags.any fun t => tags.contains t) = true ↔ ∃ t ∈ tags, t ∈ e.tags := by
    simp only [List.any_eq_true, List.contains_iff_mem]
    exact exists_congr fun t => and_comm
  have hpath : (path.any fun p =>
      Memory.pathName (some e.method) e.path == Memory.pathName method p) = true ↔
      ∃ p, path = some p ∧ method.getD "GET" ++ " " ++ p = e.method ++ " " ++ e.path := by
    rw [Option.any_eq_true]
    simp only [Memory.pathName, Option.getD_some, beq_iff_eq]
    exact exists_congr fun p => and_congr_right fun _ => eq_comm
  simp only [Memory.covers, CoversAt]
  cases pre with
  | none =>
      by_cases h : tags = [] ∧ path = none
      · simp [h]
      · simp only [h, if_false, Option.any_none, Bool.false_eq_true]
        rw [Bool.or_eq_true, htags, hpath]
        simp
  | some pre =>
      by_cases hp : e.keyPrefix = pre
      · subst hp
        by_cases h : tags = [] ∧ path = none
        · cases method <;> simp [h]
        · simp only [h, if_false, Option.any_some, ne_eq, not_true_eq_false, decide_false,
            Bool.false_eq_true]
          rw [Bool.or_eq_true, htags, hpath]
          simp
      · have hp' : ¬ pre = e.keyPrefix := fun h => hp h.symm
        by_cases h : tags = [] ∧ path = none
        · simp [h, hp, hp']
        · simp [h, hp, hp']

/-- `{ prefix }` alone, with or without a method. -/
def Alone (a : InvalidateArgs) : Prop := a.keyPrefix.isSome ∧ a.tags = [] ∧ a.path = none

/-- The names `a` raises meet the names of an entry where `a` covers it; for `{ prefix }` alone
perhaps elsewhere too. -/
def Agrees (a : InvalidateArgs) (e : Entry) (names names' : List String) : Prop :=
  (Memory.covers a e = true → Meet names names') ∧
    (¬ Alone a → Meet names names' → Memory.covers a e = true)

theorem agrees_raised {alone : Bool} {a : InvalidateArgs} {e : Entry}
    (h : Alone a → (∀ m, a.method = some m → m = e.method) → alone = true) :
    Agrees a e ((raised alone a a.path).map FloorName.text) (e.names.map FloorName.text) := by
  unfold Agrees
  rw [raised_meets, covers_iff]
  by_cases halone : Alone a
  · rw [if_pos halone.2, if_pos (show a.keyPrefix.isSome = true ∧ a.tags = [] ∧
      a.path = none from halone)]
    exact ⟨fun hc => ⟨h halone hc.2, hc.1⟩, fun hn => absurd halone hn⟩
  · rw [if_neg (show ¬ (a.keyPrefix.isSome = true ∧ a.tags = [] ∧ a.path = none) from halone)]
    by_cases hnone : a.tags = [] ∧ a.path = none
    · -- nothing at all: no tag, no path, no prefix
      have hpre : a.keyPrefix = none := by
        cases hp : a.keyPrefix with
        | none => rfl
        | some pre => exact absurd ⟨by rw [hp]; rfl, hnone⟩ halone
      simp [hnone, hpre, CoversAt]
    · rw [if_neg hnone]
      exact ⟨id, fun _ => id⟩

/-- **The names agree with `covers`.**  In the memory adapter for every entry; in the Durable Object
for every entry of a GET page; in the core for every entry of a GET page, when the invalidation's
path is in normal form.  And every name of the three says its kind, its prefix and the rest. -/
theorem names_agree (a : InvalidateArgs) (e : Entry) :
    Agrees a e (Memory.invalidationNames a) (Memory.entryNames e) ∧
    (e.method = "GET" → Agrees a e (Cloudflare.namesOf a)
      (Cloudflare.entryNames e.tags e.method e.path e.keyPrefix)) ∧
    (e.method = "GET" → (∀ p, a.path = some p → normalizeRequestPath p = p) →
      Agrees a e (a.floorNames.map FloorName.text)
        ((pageNames e.keyPrefix e.path e.tags).map FloorName.text)) ∧
    (∀ x ∈ Memory.invalidationNames a ++ Memory.entryNames e ++ Cloudflare.namesOf a ++
      Cloudflare.entryNames e.tags e.method e.path e.keyPrefix, ∃ n : FloorName, n.text = x) ∧
    ∀ n n' : FloorName, n.text = n'.text ↔ parts n = parts n' := by
  refine ⟨?_, fun hget => ?_, fun hget hnorm => ?_, fun x hx => ?_, text_eq_iff⟩
  · rw [memory_invalidationNames, memory_entryNames]
    exact agrees_raised fun _ _ => rfl
  · rw [cloudflare_namesOf, cloudflare_entryNames]
    refine agrees_raised fun _ hm => ?_
    cases hmethod : a.method with
    | none => rfl
    | some m =>
        rw [hm m hmethod, hget]
        decide
  · have hpath : a.path.map normalizeRequestPath = a.path := by
      cases hp : a.path with
      | none => rfl
      | some p => rw [Option.map_some, hnorm p hp]
    have hmeet : ∀ names, Meet names ((pageNames e.keyPrefix e.path e.tags).map FloorName.text) ↔
        Meet names (e.names.map FloorName.text) := by
      intro names
      simp only [Meet, List.mem_map, core_pageNames hget]
    unfold Agrees
    rw [hmeet, core_floorNames, hpath]
    refine agrees_raised fun _ hm => ?_
    cases hmethod : a.method with
    | none => rfl
    | some m => rw [hm m hmethod, hget]; rfl
  · rw [memory_invalidationNames, memory_entryNames, cloudflare_namesOf,
      cloudflare_entryNames] at hx
    simp only [List.mem_append, List.mem_map] at hx
    rcases hx with ((⟨n, -, h⟩ | ⟨n, -, h⟩) | ⟨n, -, h⟩) | ⟨n, -, h⟩ <;> exact ⟨n, h⟩

theorem names_agree_page :
    Agrees ⟨none, ["t"], none, none, some "p"⟩ ⟨["t"], "GET", "/a", "p"⟩
      (Cloudflare.namesOf ⟨none, ["t"], none, none, some "p"⟩)
      (Cloudflare.entryNames ["t"] "GET" "/a" "p") ∧
    Memory.covers ⟨none, ["t"], none, none, some "p"⟩ ⟨["t"], "GET", "/a", "p"⟩ = true :=
  ⟨(names_agree ⟨none, ["t"], none, none, some "p"⟩ ⟨["t"], "GET", "/a", "p"⟩).2.1 rfl, by decide⟩

/-- **A page of another method is covered and floored by no name**: the Durable Object and the core
take every stored page for a GET page. -/
theorem names_miss_post : ¬ ∀ (a : InvalidateArgs) (e : Entry), Memory.covers a e = true →
    Meet (Cloudflare.namesOf a) (Cloudflare.entryNames e.tags e.method e.path e.keyPrefix) ∧
    Meet (a.floorNames.map FloorName.text)
      ((pageNames e.keyPrefix e.path e.tags).map FloorName.text) := by
  intro h
  have := (h ⟨none, [], none, some "POST", some "p"⟩ ⟨[], "POST", "/a", "p"⟩ (by decide)).1
  revert this
  decide

end Brust.Adapter
