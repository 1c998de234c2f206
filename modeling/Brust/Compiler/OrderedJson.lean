import Brust.Jinja.Spread
import Brust.Support.JsonRead

/-!
# Compiler — Objects in JavaScript's order

The objects of one render: `OJson` in the manifest, and `obj_lit`, `obj_assign` and a map literal in
the template.  Each has the own keys of JavaScript's object literal in JavaScript's order
(`own_order_everywhere`); an `OJson` is read back from its text as far as the reader reads
(`deep_not_read_back`).
-/

namespace Brust.Compiler

open SortedMap (keys put putAll collect inOrder lastWritten Sorted)
open Plan.Node (isArrayIndex decimal jsKeys)

/-! ### JavaScript -/

section
variable {β : Type}

/-- The own properties of an object literal: array indices ascending, then the other keys in the
order they were first written (`ownEntries_spec`), each with the value written last. -/
def ownEntries (text : List (String × β)) : List (String × β) :=
  inOrder (jsKeys (keys text).eraseDups) text

/-- What JavaScript says of the own properties of `{ …text }`. -/
structure OwnProperties (text own : List (String × β)) : Prop where
  once : (keys own).Nodup
  last : ∀ k, own.lookup k = lastWritten text k
  order : ∃ indices, keys own =
      indices ++ (keys text).eraseDups.filter (fun k => ¬ ∃ n, Plan.ArrayIndex k n) ∧
    (∀ k ∈ indices, ∃ n, Plan.ArrayIndex k n) ∧
    indices.Pairwise fun a b => ∀ m n, Plan.ArrayIndex a m → Plan.ArrayIndex b n → m < n

theorem mem_jsKeys {l : List String} {k : String} : k ∈ jsKeys l ↔ k ∈ l :=
  (Plan.jsKeys_perm l).mem_iff

theorem keys_ownEntries (text : List (String × β)) :
    keys (ownEntries text) = jsKeys (keys text).eraseDups :=
  SortedMap.keys_inOrder fun _ hk => List.mem_eraseDups.mp (mem_jsKeys.mp hk)

theorem nodup_keys_ownEntries (text : List (String × β)) : (keys (ownEntries text)).Nodup := by
  rw [keys_ownEntries]
  exact (Plan.jsKeys_perm _).nodup_iff.mpr (nodup_eraseDups _)

theorem lookup_ownEntries (text : List (String × β)) (k : String) :
    (ownEntries text).lookup k = lastWritten text k := by
  refine Option.ext fun v => ?_
  rw [SortedMap.lookup_iff_mem (nodup_keys_ownEntries text), ownEntries, inOrder,
    List.mem_filterMap]
  constructor
  · rintro ⟨k', -, hk'⟩
    obtain ⟨v', hv', he⟩ := Option.map_eq_some_iff.mp hk'
    cases he
    exact hv'
  · intro hv
    have hmem : k ∈ keys text := SortedMap.lastWritten_ne_none_iff.mp (by rw [hv]; simp)
    exact ⟨k, mem_jsKeys.mpr (List.mem_eraseDups.mpr hmem), by rw [hv]; rfl⟩

theorem ownEntries_spec (text : List (String × β)) : OwnProperties text (ownEntries text) := by
  obtain ⟨indices, hjs, hidx, hasc⟩ := Plan.order_jsKeys (keys text).eraseDups
  refine ⟨nodup_keys_ownEntries text, lookup_ownEntries text, indices, ?_, hidx,
    hasc (nodup_eraseDups _)⟩
  rw [keys_ownEntries, hjs]

/-- Own properties are known by their keys' order. -/
theorem eq_ownEntries {m text : List (String × β)} (hkeys : keys m = jsKeys (keys text).eraseDups)
    (hlookup : ∀ k, m.lookup k = lastWritten text k) : m = ownEntries text := by
  have hnodup : (keys m).Nodup := by
    rw [hkeys]
    exact (Plan.jsKeys_perm _).nodup_iff.mpr (nodup_eraseDups _)
  rw [ownEntries, ← hkeys]
  exact SortedMap.eq_inOrder hnodup hlookup

end

/-! ### The manifest's objects -/

/-- JSON whose objects keep the order of their keys, over the type `N` of its numbers. -/
inductive OJson (N : Type) where
  | null
  | bool (b : Bool)
  | num (n : N)
  | str (s : String)
  | arr (items : List (OJson N))
  | obj (entries : List (String × OJson N))

/-- `array_index` -/
def arrayIndex (k : String) : Option ℕ := if isArrayIndex k then some (decimal k) else none

/-- The key that the entries are sorted by. -/
def sortKey (k : String) : ℕ × ℕ := (arrayIndex k).elim (1, 0) fun n => (0, n)

def sortLe (a b : String) : Bool :=
  (sortKey a).1 < (sortKey b).1 || (sortKey a).1 = (sortKey b).1 && (sortKey a).2 ≤ (sortKey b).2

namespace OJson

variable {N : Type}

/-- `OJson::object`: every key once, in its first place with its last value; then sorted, stably. -/
def object (entries : List (String × OJson N)) : OJson N :=
  .obj ((putAll entries).mergeSort fun a b => sortLe a.1 b.1)

section Text

variable (text : N → List Char) (readNumber : List Char → Option N)

mutual
/-- `Serialize` -/
def toJson : OJson N → JsonValue
  | .null => .null
  | .bool b => .bool b
  | .num n => .num (text n)
  | .str s => .str s
  | .arr items => .arr (itemsToJson items)
  | .obj entries => .obj (entriesToJson entries)

def itemsToJson : List (OJson N) → List JsonValue
  | [] => []
  | x :: xs => toJson x :: itemsToJson xs

def entriesToJson : List (String × OJson N) → List (String × JsonValue)
  | [] => []
  | (k, x) :: rest => (k, toJson x) :: entriesToJson rest
end

mutual
/-- `Deserialize` -/
def ofJson : JsonValue → Option (OJson N)
  | .null => some .null
  | .bool b => some (.bool b)
  | .num t => (readNumber t).map .num
  | .str s => some (.str s)
  | .arr xs => (itemsOfJson xs).map .arr
  | .obj entries => (entriesOfJson entries).map object

def itemsOfJson : List JsonValue → Option (List (OJson N))
  | [] => some []
  | x :: xs => (ofJson x).bind fun v => (itemsOfJson xs).map (v :: ·)

def entriesOfJson : List (String × JsonValue) → Option (List (String × OJson N))
  | [] => some []
  | (k, x) :: rest => (ofJson x).bind fun v => (entriesOfJson rest).map ((k, v) :: ·)
end

end Text

end OJson

mutual
/-- How deep lists and objects are nested. -/
def jsonDepth : JsonValue → ℕ
  | .arr xs => itemsDepth xs + 1
  | .obj entries => entriesDepth entries + 1
  | _ => 0

def itemsDepth : List JsonValue → ℕ
  | [] => 0
  | x :: xs => max (jsonDepth x) (itemsDepth xs)

def entriesDepth : List (String × JsonValue) → ℕ
  | [] => 0
  | (_, x) :: rest => max (jsonDepth x) (entriesDepth rest)
end

/-- The deepest nesting that the reader of a text takes. -/
def MAX_DEPTH : ℕ := 127

/-- The reader of a text, `serde_json`'s. -/
def readText (s : List Char) : Option JsonValue :=
  (JsonValue.read s).filter fun v => jsonDepth v ≤ MAX_DEPTH

namespace OJson

variable {N : Type}

/-- `to_string` -/
def print (text : N → List Char) (o : OJson N) : List Char := (toJson text o).render

/-- `from_str` -/
def parse (readNumber : List Char → Option N) (s : List Char) : Option (OJson N) :=
  (readText s).bind (ofJson readNumber)

/-! ### Values that can be read back -/

mutual
/-- Every object was built by `object`, and the reader reads every number as it was printed. -/
def Built (text : N → List Char) (readNumber : List Char → Option N) : OJson N → Prop
  | .num n => readNumber (text n) = some n
  | .arr items => BuiltItems text readNumber items
  | .obj entries => object entries = .obj entries ∧ BuiltEntries text readNumber entries
  | _ => True

def BuiltItems (text : N → List Char) (readNumber : List Char → Option N) : List (OJson N) → Prop
  | [] => True
  | x :: xs => Built text readNumber x ∧ BuiltItems text readNumber xs

def BuiltEntries (text : N → List Char) (readNumber : List Char → Option N) :
    List (String × OJson N) → Prop
  | [] => True
  | (_, x) :: rest => Built text readNumber x ∧ BuiltEntries text readNumber rest
end

end OJson

/-! ### The template's objects -/

section
variable {F : Type}

open Jinja (Value setOrdered)

/-- `obj_lit(k, v, …)` -/
def objLit (entries : List (String × Value F)) : Value F :=
  .map .ordered (entries.foldl setOrdered [])

/-- A map literal of the template language. -/
def mapLiteral (entries : List (String × Value F)) : Value F := .map .plain (collect entries)

/-- `js_order_is_sorted` -/
def jsOrderIsSorted (props : List (String × Value F)) : Bool :=
  let ks := jsKeys (keys props)
  (ks.zip ks.tail).all fun w => w.1 ≤ w.2

/-- What an object literal prints as; `ordered` in a `style`. -/
def objectLiteral (ordered : Bool) (props : List (String × Value F)) : Value F :=
  if ordered || !jsOrderIsSorted props then objLit props else mapLiteral props

end

/-! ### The sort of `object` -/

theorem sortLe_iff {a b : String} : sortLe a b = true ↔
    (isArrayIndex a = true ∧ (isArrayIndex b = false ∨ decimal a ≤ decimal b)) ∨
      isArrayIndex a = false ∧ isArrayIndex b = false := by
  unfold sortLe sortKey arrayIndex
  cases isArrayIndex a <;> cases isArrayIndex b <;> simp

theorem sortLe_trans (a b c : String) (hab : sortLe a b = true) (hbc : sortLe b c = true) :
    sortLe a c = true := by
  rw [sortLe_iff] at hab hbc ⊢
  grind

theorem sortLe_total (a b : String) : (sortLe a b || sortLe b a) = true := by
  rw [Bool.or_eq_true, sortLe_iff, sortLe_iff]
  grind

theorem decimal_inj {a b : String} (ha : isArrayIndex a = true) (hb : isArrayIndex b = true)
    (h : decimal a = decimal b) : a = b := by
  obtain ⟨m, hm⟩ := Plan.isArrayIndex_iff.mp ha
  obtain ⟨n, hn⟩ := Plan.isArrayIndex_iff.mp hb
  rw [hm.decimal, hn.decimal] at h
  rw [hm.2, hn.2, h]

/-- Indices in ascending order are known by their members. -/
theorem eq_of_ascending {l l' : List String} (hperm : l.Perm l')
    (hidx : ∀ k ∈ l, isArrayIndex k = true) (hl : l.Pairwise fun a b => decimal a ≤ decimal b)
    (hl' : l'.Pairwise fun a b => decimal a ≤ decimal b) : l = l' := by
  refine hperm.eq_of_pairwise ?_ hl hl'
  intro a b ha hb hab hba
  exact decimal_inj (hidx a ha) (hidx b (hperm.mem_iff.mpr hb)) (le_antisymm hab hba)

/-- A sorted list has the indices in front. -/
theorem filter_append_of_sorted {l : List String} (h : l.Pairwise (sortLe · · = true)) :
    l.filter isArrayIndex ++ l.filter (fun k => !isArrayIndex k) = l := by
  induction l with
  | nil => rfl
  | cons k l ih =>
      obtain ⟨hhead, htail⟩ := List.pairwise_cons.mp h
      cases hk : isArrayIndex k with
      | true =>
          rw [List.filter_cons_of_pos hk, List.filter_cons_of_neg (by simp [hk]), List.cons_append,
            ih htail]
      | false =>
          have hnone : l.filter isArrayIndex = [] := by
            refine List.filter_eq_nil_iff.mpr fun k' hk' => ?_
            rcases sortLe_iff.mp (hhead k' hk') with ⟨hidx, -⟩ | ⟨-, hidx⟩
            · rw [hk] at hidx
              cases hidx
            · simp [hidx]
          have hrest := ih htail
          rw [hnone, List.nil_append] at hrest
          rw [List.filter_cons_of_neg (by simp [hk]), List.filter_cons_of_pos (by simp [hk]), hnone,
            List.nil_append, hrest]

/-- The stable sort by `sortKey` is the order of JavaScript's own keys. -/
theorem mergeSort_sortLe (l : List String) : l.mergeSort sortLe = jsKeys l := by
  have hsorted := List.pairwise_mergeSort sortLe_trans sortLe_total l
  have hperm := List.mergeSort_perm l sortLe
  have hothers : (l.mergeSort sortLe).filter (fun k => !isArrayIndex k) =
      l.filter fun k => !isArrayIndex k := by
    have hpair : (l.filter fun k => !isArrayIndex k).Pairwise (sortLe · · = true) := by
      refine List.pairwise_of_forall_mem_list fun a ha b hb => sortLe_iff.mpr (.inr ?_)
      simpa using And.intro (List.mem_filter.mp ha).2 (List.mem_filter.mp hb).2
    have hsub := (List.sublist_mergeSort sortLe_trans sortLe_total hpair
      List.filter_sublist).filter fun k => !isArrayIndex k
    rw [List.filter_filter] at hsub
    simp only [Bool.and_self] at hsub
    exact (hsub.eq_of_length (hperm.filter _).length_eq.symm).symm
  have hindices : (l.mergeSort sortLe).filter isArrayIndex =
      (l.filter isArrayIndex).mergeSort fun a b => decimal a ≤ decimal b := by
    refine eq_of_ascending ((hperm.filter _).trans (List.mergeSort_perm _ _).symm)
      (fun k hk => (List.mem_filter.mp hk).2) ?_ (Plan.pairwise_indices l)
    refine (List.pairwise_filter.mpr (hsorted.imp fun hle ha hb => ?_))
    rcases sortLe_iff.mp hle with ⟨-, hb' | hle⟩ | ⟨ha', -⟩
    · rw [hb'] at hb
      cases hb
    · exact hle
    · rw [ha'] at ha
      cases ha
  rw [← filter_append_of_sorted hsorted, hothers, hindices, jsKeys]

namespace OJson

variable {N : Type}

/-- **`OJson::object` keeps JavaScript's own properties.** -/
theorem object_eq (entries : List (String × OJson N)) :
    object entries = .obj (ownEntries entries) := by
  rw [object]
  congr 1
  have hperm := List.mergeSort_perm (putAll entries) fun a b => sortLe a.1 b.1
  have hnodup : (keys (putAll entries)).Nodup := by
    rw [SortedMap.keys_putAll]
    exact nodup_eraseDups _
  refine eq_ownEntries ?_ fun k => ?_
  · rw [keys, List.map_mergeSort (s := sortLe) fun a _ b _ => rfl]
    change (keys (putAll entries)).mergeSort sortLe = _
    rw [mergeSort_sortLe, SortedMap.keys_putAll]
  · rw [← SortedMap.lookup_putAll]
    refine Option.ext fun v => ?_
    rw [SortedMap.lookup_iff_mem ((hperm.map _).nodup_iff.mpr hnodup),
      SortedMap.lookup_iff_mem hnodup, hperm.mem_iff]

end OJson

theorem jsKeys_jsKeys (l : List String) : jsKeys (jsKeys l) = jsKeys l := by
  rw [← mergeSort_sortLe (jsKeys l), ← mergeSort_sortLe l]
  exact List.mergeSort_of_pairwise (List.pairwise_mergeSort sortLe_trans sortLe_total l)

theorem ownEntries_ownEntries {β : Type} (text : List (String × β)) :
    ownEntries (ownEntries text) = ownEntries text := by
  have hnodup := nodup_keys_ownEntries text
  refine (eq_ownEntries ?_ fun k => (SortedMap.lastWritten_of_nodup hnodup k).symm).symm
  rw [eraseDups_eq_self hnodup, keys_ownEntries, jsKeys_jsKeys]

theorem mem_of_mem_ownEntries {β : Type} {text : List (String × β)} {e : String × β}
    (h : e ∈ ownEntries text) : e ∈ text := by
  obtain ⟨k, -, hk⟩ := List.mem_filterMap.mp h
  obtain ⟨v, hv, rfl⟩ := Option.map_eq_some_iff.mp hk
  exact List.mem_reverse.mp (SortedMap.mem_of_lookup hv)

/-! ### Reading back -/

namespace OJson

variable {N : Type} {text : N → List Char} {readNumber : List Char → Option N}

theorem builtEntries_iff {entries : List (String × OJson N)} :
    BuiltEntries text readNumber entries ↔ ∀ e ∈ entries, Built text readNumber e.2 := by
  induction entries with
  | nil => simp [BuiltEntries]
  | cons e rest ih => rw [BuiltEntries, ih, List.forall_mem_cons]

/-- What `object` builds of built values is built. -/
theorem built_object {entries : List (String × OJson N)}
    (h : BuiltEntries text readNumber entries) : Built text readNumber (object entries) := by
  rw [object_eq, Built, object_eq, ownEntries_ownEntries]
  exact ⟨rfl, builtEntries_iff.mpr fun e he => builtEntries_iff.mp h e (mem_of_mem_ownEntries he)⟩

mutual
theorem numerals_toJson (htext : ∀ n, JsonValue.Numeral (text n)) :
    ∀ o : OJson N, (toJson text o).Numerals
  | .null | .bool _ | .str _ => trivial
  | .num n => htext n
  | .arr items => itemNumerals_toJson htext items
  | .obj entries => entryNumerals_toJson htext entries

theorem itemNumerals_toJson (htext : ∀ n, JsonValue.Numeral (text n)) :
    ∀ items : List (OJson N), JsonValue.ItemNumerals (itemsToJson text items)
  | [] => trivial
  | x :: xs => ⟨numerals_toJson htext x, itemNumerals_toJson htext xs⟩

theorem entryNumerals_toJson (htext : ∀ n, JsonValue.Numeral (text n)) :
    ∀ entries : List (String × OJson N), JsonValue.EntryNumerals (entriesToJson text entries)
  | [] => trivial
  | (_, x) :: rest => ⟨numerals_toJson htext x, entryNumerals_toJson htext rest⟩
end

mutual
theorem ofJson_toJson : ∀ {o : OJson N}, Built text readNumber o →
    ofJson readNumber (toJson text o) = some o
  | .null, _ | .bool _, _ | .str _, _ => rfl
  | .num n, h => by
      rw [Built] at h
      rw [toJson, ofJson, h, Option.map_some]
  | .arr items, h => by rw [toJson, ofJson, itemsOfJson_toJson h, Option.map_some]
  | .obj entries, h => by
      rw [toJson, ofJson, entriesOfJson_toJson h.2, Option.map_some, h.1]

theorem itemsOfJson_toJson : ∀ {items : List (OJson N)}, BuiltItems text readNumber items →
    itemsOfJson readNumber (itemsToJson text items) = some items
  | [], _ => rfl
  | x :: xs, h => by
      rw [itemsToJson, itemsOfJson, ofJson_toJson h.1, itemsOfJson_toJson h.2]
      rfl

theorem entriesOfJson_toJson : ∀ {entries : List (String × OJson N)},
    BuiltEntries text readNumber entries →
      entriesOfJson readNumber (entriesToJson text entries) = some entries
  | [], _ => rfl
  | (k, x) :: rest, h => by
      rw [entriesToJson, entriesOfJson, ofJson_toJson h.1, entriesOfJson_toJson h.2]
      rfl
end

theorem parse_print (htext : ∀ n, JsonValue.Numeral (text n)) (o : OJson N) :
    parse readNumber (print text o) =
      if jsonDepth (toJson text o) ≤ MAX_DEPTH then ofJson readNumber
        (toJson text o) else none := by
  rw [parse, readText, print, JsonValue.read_render (numerals_toJson htext o), Option.filter_some]
  split
  · next h => rw [if_pos (of_decide_eq_true h), Option.bind_some]
  · next h => rw [if_neg fun hle => h (decide_eq_true hle), Option.bind_none]

/-- The text of any entries is read as their object. -/
theorem parse_print_obj (htext : ∀ n, JsonValue.Numeral (text n))
    {entries : List (String × OJson N)} (h : BuiltEntries text readNumber entries)
    (hdepth : jsonDepth (toJson text (.obj entries)) ≤ MAX_DEPTH) :
    parse readNumber (print text (.obj entries)) = some (object entries) := by
  rw [parse_print htext, if_pos hdepth, toJson, ofJson, entriesOfJson_toJson h, Option.map_some]

/-- The text of what was built is read back. -/
theorem parse_print_built (htext : ∀ n, JsonValue.Numeral (text n)) {o : OJson N}
    (h : Built text readNumber o) (hdepth : jsonDepth (toJson text o) ≤ MAX_DEPTH) :
    parse readNumber (print text o) = some o := by
  rw [parse_print htext, if_pos hdepth, ofJson_toJson h]

end OJson

/-! ### The template's objects -/

section
variable {F : Type}

open Jinja (Value setOrdered objAssign assignSource)

theorem assigned_eq {text : List (String × Value F)} (h : "__proto__" ∉ keys text) :
    Jinja.assigned text = ownEntries text := by
  rw [Jinja.assigned, Jinja.assignable_eq_self h]
  rfl

theorem mapEntries_objLit {entries : List (String × Value F)} (h : "__proto__" ∉ keys entries) :
    (objLit entries).mapEntries = ownEntries entries := by
  have hassign := Jinja.mapEntries_objAssign [(.map .plain entries : Value F)]
  have hsource : [(.map .plain entries : Value F)].flatMap assignSource = entries := by
    rw [List.flatMap_singleton]
    rfl
  rw [objAssign, hsource, assigned_eq h] at hassign
  exact hassign

theorem mapEntries_objAssign {sources : List (Value F)}
    (h : "__proto__" ∉ keys (sources.flatMap assignSource)) :
    (objAssign sources).mapEntries = ownEntries (sources.flatMap assignSource) := by
  rw [Jinja.mapEntries_objAssign, assigned_eq h]

theorem pairwise_of_zip_tail {l : List String}
    (h : (l.zip l.tail).all (fun w => w.1 ≤ w.2) = true) :
    l.Pairwise (· ≤ ·) := by
  induction l with
  | nil => exact .nil
  | cons a l ih =>
      cases l with
      | nil => exact List.pairwise_singleton ..
      | cons b l =>
          rw [List.tail_cons, List.zip_cons_cons, List.all_cons, Bool.and_eq_true,
            decide_eq_true_iff] at h
          have hrest := ih h.2
          refine List.pairwise_cons.mpr ⟨fun c hc => ?_, hrest⟩
          rcases List.mem_cons.mp hc with rfl | hc
          · exact h.1
          · exact h.1.trans ((List.pairwise_cons.mp hrest).1 c hc)

/-- Where the order of the written keys ascends, so does that of the own ones. -/
theorem pairwise_jsKeys_eraseDups {l : List String} (h : (jsKeys l).Pairwise (· ≤ ·)) :
    (jsKeys l.eraseDups).Pairwise (· < ·) := by
  let sortIndices := fun l : List String =>
    (l.filter isArrayIndex).mergeSort fun a b => decimal a ≤ decimal b
  have hmem : ∀ {l : List String} {k}, k ∈ sortIndices l ↔ k ∈ l ∧ isArrayIndex k = true :=
    List.mem_mergeSort.trans List.mem_filter
  have hindices : sortIndices l.eraseDups = (sortIndices l).eraseDups := by
    have hperm : (sortIndices l.eraseDups).Perm (sortIndices l).eraseDups := by
      refine (List.perm_ext_iff_of_nodup ?_ (nodup_eraseDups _)).mpr fun k => ?_
      · exact (List.mergeSort_perm _ _).nodup_iff.mpr ((nodup_eraseDups l).filter _)
      · rw [List.mem_eraseDups, hmem, hmem, List.mem_eraseDups]
    exact eq_of_ascending hperm (fun k hk => (hmem.mp hk).2) (Plan.pairwise_indices _)
      ((Plan.pairwise_indices l).sublist (eraseDups_sublist _))
  have hsub : (jsKeys l.eraseDups).Sublist (jsKeys l) := by
    refine List.Sublist.append ?_ ((eraseDups_sublist l).filter _)
    change (sortIndices l.eraseDups).Sublist (sortIndices l)
    rw [hindices]
    exact eraseDups_sublist _
  have hnodup : (jsKeys l.eraseDups).Nodup := (Plan.jsKeys_perm _).nodup_iff.mpr (nodup_eraseDups l)
  exact ((h.sublist hsub).and hnodup).imp fun ⟨hle, hne⟩ => lt_of_le_of_ne hle hne

theorem mapEntries_mapLiteral {entries : List (String × Value F)}
    (h : jsOrderIsSorted entries = true) :
    (mapLiteral entries).mapEntries = ownEntries entries := by
  have hsorted := pairwise_jsKeys_eraseDups (pairwise_of_zip_tail h)
  have hkeys := (SortedMap.sorted_collect entries).keys_eq hsorted fun k =>
    (mem_jsKeys.trans List.mem_eraseDups).trans SortedMap.mem_keys_collect.symm
  exact eq_ownEntries hkeys (SortedMap.lookup_collect entries)

theorem mapEntries_objectLiteral {props : List (String × Value F)} (h : "__proto__" ∉ keys props)
    (ordered : Bool) : (objectLiteral ordered props).mapEntries = ownEntries props := by
  rw [objectLiteral]
  split
  · exact mapEntries_objLit h
  · next hno =>
    refine mapEntries_mapLiteral ?_
    simp only [Bool.or_eq_true, Bool.not_eq_true', not_or, Bool.not_eq_false] at hno
    exact hno.2

end

/-! ### One order everywhere -/

open Jinja (Value objAssign assignSource) in
/-- **One own-key order.**  `OJson::object`, the reader of an `OJson`'s text, `obj_lit`,
`obj_assign` and the map literal that is printed for keys in order give the own properties of
JavaScript's object literal, in its order; and what `object` built is read back from its text. -/
theorem own_order_everywhere {N F : Type} (text : N → List Char)
    (readNumber : List Char → Option N) (htext : ∀ n, JsonValue.Numeral (text n)) :
    (∀ entries : List (String × OJson N), OwnProperties entries (ownEntries entries) ∧
      OJson.object entries = .obj (ownEntries entries) ∧
      (OJson.BuiltEntries text readNumber entries →
        (jsonDepth (OJson.toJson text (.obj entries)) ≤ MAX_DEPTH →
          OJson.parse readNumber (OJson.print text (.obj entries)) =
            some (.obj (ownEntries entries))) ∧
        (jsonDepth (OJson.toJson text (OJson.object entries)) ≤ MAX_DEPTH →
          OJson.parse readNumber (OJson.print text (OJson.object entries)) =
            some (OJson.object entries)))) ∧
    (∀ entries : List (String × Value F), "__proto__" ∉ keys entries →
      OwnProperties entries (ownEntries entries) ∧
      (objLit entries).mapEntries = ownEntries entries ∧
      (jsOrderIsSorted entries = true → (mapLiteral entries).mapEntries = ownEntries entries) ∧
      ∀ ordered, (objectLiteral ordered entries).mapEntries = ownEntries entries) ∧
    ∀ sources : List (Value F), "__proto__" ∉ keys (sources.flatMap assignSource) →
      (objAssign sources).mapEntries = ownEntries (sources.flatMap assignSource) := by
  refine ⟨fun entries => ⟨ownEntries_spec entries, OJson.object_eq entries, fun hbuilt => ⟨?_, ?_⟩⟩,
    fun entries hproto => ⟨ownEntries_spec entries, mapEntries_objLit hproto,
      mapEntries_mapLiteral, mapEntries_objectLiteral hproto⟩, fun _ => mapEntries_objAssign⟩
  · intro hdepth
    rw [OJson.parse_print_obj htext hbuilt hdepth, OJson.object_eq]
  · exact OJson.parse_print_built htext (OJson.built_object hbuilt)

/-- A number's digits, and the number that digits spell. -/
def digits (n : ℕ) : List Char := Nat.toDigits 10 n

def ofDigits (t : List Char) : Option ℕ := some (Nat.ofDigitChars 10 t 0)

theorem numeral_digits (n : ℕ) : JsonValue.Numeral (digits n) := by
  refine ⟨Nat.toDigits_ne_nil, fun c hc => ?_⟩
  rw [JsonValue.numeralChar, Nat.isDigit_of_mem_toDigits (by decide) (by decide) hc, Bool.true_or]

theorem own_order_style :
    OJson.object [("b", .num 1), ("10", .null), ("b", .num 2), ("9", .null)] =
      .obj (ownEntries [("b", .num 1), ("10", .null), ("b", .num 2), ("9", (.null : OJson ℕ))]) ∧
    (objLit [("margin", (.null : Jinja.Value Unit))]).mapEntries =
      ownEntries [("margin", .null)] :=
  have h := own_order_everywhere (F := Unit) digits ofDigits numeral_digits
  ⟨(h.1 _).2.1, (h.2.1 _ (by decide)).2.1⟩

/-- A list in a list, `n` deep. -/
def nest : ℕ → OJson ℕ
  | 0 => .null
  | n + 1 => .arr [nest n]

theorem built_nest (n : ℕ) : OJson.Built digits ofDigits (nest n) := by
  induction n with
  | zero => trivial
  | succ n ih => exact ⟨ih, trivial⟩

theorem jsonDepth_nest (n : ℕ) : jsonDepth (OJson.toJson digits (nest n)) = n := by
  induction n with
  | zero => rfl
  | succ n ih =>
      rw [nest, OJson.toJson, OJson.itemsToJson, OJson.itemsToJson, jsonDepth,
        itemsDepth, itemsDepth,
        ih, Nat.max_zero]

/-- A value nested deeper than the reader takes is not read back. -/
theorem deep_not_read_back : ¬ ∀ entries : List (String × OJson ℕ),
    OJson.BuiltEntries digits ofDigits entries →
      OJson.parse ofDigits (OJson.print digits (OJson.object entries)) =
        some (OJson.object entries) := by
  intro h
  have hone : ownEntries [("a", nest 127)] = [("a", nest 127)] := by
    have hkeys : jsKeys ["a"] = ["a"] :=
      Plan.jsKeys_of_no_index (List.forall_mem_singleton.mpr (by decide))
    change inOrder (jsKeys ["a"]) _ = _
    rw [hkeys]
    rfl
  have hread := h [("a", nest 127)] ⟨built_nest 127, trivial⟩
  rw [OJson.parse_print numeral_digits, if_neg] at hread
  · cases hread
  · rw [OJson.object_eq, hone, OJson.toJson, OJson.entriesToJson, OJson.entriesToJson, jsonDepth,
      entriesDepth, entriesDepth, jsonDepth_nest]
    decide

end Brust.Compiler
