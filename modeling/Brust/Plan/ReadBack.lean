import Brust.Plan.JobKey
import Brust.Plan.OwnKeys
import Brust.Support.JsonRead

/-!
# Plan — reading a tree's text back

The ordered text of a tree has the entries of every object in the order they are visited in.  What
is read of it has the same values; it has the same order exactly where the order is one that
reading keeps (`alike_reread_iff`): the array indices first, ascending, and no key with the hint's
separator unless the keys are sorted.
-/

namespace Brust.Plan

open SortedMap

/-! ### The order that reading keeps -/

/-- Array indices are first and ascending, as JavaScript lists them, and no key has the separator
unless the keys are sorted. -/
def Kept (l : List String) : Prop :=
  Node.jsKeys l = l ∧ (l.Pairwise (· ≤ ·) ∨ ∀ k ∈ l, Node.hasNul k = false)

/-- Keys that begin with their indices, as these are listed, are listed so. -/
theorem jsKeys_of_prefix {l : List String} (hl : l.Nodup)
    (h : (l.filter Node.isArrayIndex).mergeSort (fun a b =>
      Node.decimal a ≤ Node.decimal b) <+: l) :
    Node.jsKeys l = l := by
  obtain ⟨rest, hrest⟩ := h
  have hperm := List.mergeSort_perm (l.filter Node.isArrayIndex)
    fun a b => Node.decimal a ≤ Node.decimal b
  generalize hidx : (l.filter Node.isArrayIndex).mergeSort
    (fun a b => Node.decimal a ≤ Node.decimal b) = indices at hrest hperm
  have hindex : ∀ k ∈ indices, Node.isArrayIndex k = true := fun k hk =>
    (List.mem_filter.mp (hperm.mem_iff.mp hk)).2
  have hother : ∀ k ∈ rest, Node.isArrayIndex k = false := fun k hk => by
    by_contra hk'
    rw [Bool.not_eq_false] at hk'
    have hmem : k ∈ indices := hperm.mem_iff.mpr (List.mem_filter.mpr
      ⟨hrest ▸ List.mem_append_right _ hk, hk'⟩)
    rw [← hrest, List.nodup_append] at hl
    exact hl.2.2 k hmem k hk rfl
  have hfilter : l.filter (fun k => !Node.isArrayIndex k) = rest := by
    have hnone : indices.filter (fun k => !Node.isArrayIndex k) = [] :=
      List.filter_eq_nil_iff.mpr fun k hk => by simp [hindex k hk]
    have hall : rest.filter (fun k => !Node.isArrayIndex k) = rest :=
      List.filter_eq_self.mpr fun k hk => by simp [hother k hk]
    rw [← hrest, List.filter_append, hnone, hall, List.nil_append]
  rw [Node.jsKeys, hidx, hfilter, hrest]

theorem hasNul_of_isArrayIndex {k : String} (h : Node.isArrayIndex k = true) :
    Node.hasNul k = false := by
  obtain ⟨n, -, rfl⟩ := isArrayIndex_iff.mp h
  exact decide_eq_false (digits_notMem (by decide) n)

/-- The indices of a hint are visited first. -/
theorem indices_prefix {m : List (String × Node)} {l : List String} (hl : l.Perm (keys m)) :
    (l.filter Node.isArrayIndex).mergeSort (fun a b => Node.decimal a ≤ Node.decimal b) <+:
      keys (eachOrdered m (some ((Node.jsKeys l).flatMap Node.splitNul))) := by
  have hperm := List.mergeSort_perm (l.filter Node.isArrayIndex)
    fun a b => Node.decimal a ≤ Node.decimal b
  rw [Node.jsKeys]
  generalize (l.filter Node.isArrayIndex).mergeSort
    (fun a b => Node.decimal a ≤ Node.decimal b) = indices at hperm ⊢
  have hindex : ∀ k ∈ indices, k ∈ l ∧ Node.isArrayIndex k = true := fun k hk =>
    List.mem_filter.mp (hperm.mem_iff.mp hk)
  have hpieces : indices.flatMap Node.splitNul = indices :=
    flatMap_splitNul fun k hk => hasNul_of_isArrayIndex (hindex k hk).2
  have hfound : indices.filter (· ∈ keys m) = indices :=
    List.filter_eq_self.mpr fun k hk => decide_eq_true (hl.mem_iff.mp (hindex k hk).1)
  rw [keys_eachOrdered, List.flatMap_append, hpieces, List.filter_append, hfound]
  split
  · rw [List.append_assoc]
    exact List.prefix_append _ _
  · exact List.prefix_append _ _

/-- **The order that reading keeps**: of a text that repeats no key, the keys are visited as they
were written exactly if they are `Kept`. -/
theorem keys_visitMap_iff {text : List (String × Node)} (hnodup : (keys text).Nodup) :
    keys (Node.visitMap text).visited = keys text ↔ Kept (keys text) := by
  have h := reads_foldl text
  rw [Node.visitMap, Node.Visit.finish]
  generalize text.foldl Node.Visit.entry ⟨[], none, 0, false⟩ = s at h ⊢
  rw [Node.visited]
  have hdups := eraseDups_eq_self hnodup
  have hkeys := h.keys_perm
  have hhint := h.hint
  have hnul := h.keys_of_no_nul
  rw [hdups] at hkeys hhint hnul
  -- what was skipped came in another order, and has the separator
  have hskipped : s.skip = true → ¬ (keys text).Pairwise (· ≤ ·) ∧
      ∃ k ∈ keys text, Node.hasNul k = true := fun hskip => by
    cases ho : s.order with
    | none =>
        rw [(h.inOrder ho).2] at hskip
        cases hskip
    | some o =>
        obtain ⟨hnot, -, -, hany⟩ := h.outOfOrder o ho
        rw [hskip] at hany
        exact ⟨hnot, List.any_eq_true.mp hany.symm⟩
  rcases hhint with ⟨hnone, hcase⟩ | ⟨hsome, hskip, hcase⟩
  · rw [hnone]
    have hsorted : keys s.entries = keys text → (keys text).Pairwise (· ≤ ·) := fun he =>
      he ▸ h.sorted.imp le_of_lt
    constructor
    · intro he
      refine ⟨?_, .inl (hsorted he)⟩
      rcases hcase with hskip | hjs
      · exact absurd (hsorted he) (hskipped hskip).1
      · exact hjs.symm.trans he
    · rintro ⟨hjs, hplain⟩
      rcases hcase with hskip | he
      · obtain ⟨hnot, k, hk, hknul⟩ := hskipped hskip
        rcases hplain with hle | hplain
        · exact absurd hle hnot
        · rw [hplain k hk] at hknul
          cases hknul
      · exact he.trans hjs
  · rw [hsome]
    constructor
    · intro he
      have hprefix := indices_prefix hkeys.symm
      rw [he] at hprefix
      have hjs := jsKeys_of_prefix hnodup hprefix
      refine ⟨hjs, ?_⟩
      cases ho : s.order with
      | none => exact .inl (h.inOrder ho).1
      | some o => exact .inr (h.no_nul ho hskip)
    · rintro ⟨hjs, hplain⟩
      rcases hplain with hle | hplain
      · have heq := h.keys_eq hle
        rw [hdups] at heq
        rcases hcase with hne | hplain
        · exact absurd (heq.trans hjs.symm) hne
        · rw [hnul hplain, hjs]
      · rw [hnul hplain, hjs]

/-! ### What is read -/

namespace Node

mutual

/-- What is read of the ordered text of a tree. -/
def reread : Node → Node
  | .arr xs => .arr (rereadItems xs)
  | .map entries order => visitMap (eachOrdered (rereadEntries entries) order)
  | n => n

def rereadItems : List Node → List Node
  | [] => []
  | x :: xs => reread x :: rereadItems xs

def rereadEntries : List (String × Node) → List (String × Node)
  | [] => []
  | (k, x) :: rest => (k, reread x) :: rereadEntries rest

end

mutual

/-- Every object is a sorted map whose keys are each visited once. -/
def Once : Node → Prop
  | .arr xs => ItemsOnce xs
  | .map entries order => Sorted entries ∧ (keys (eachOrdered entries order)).Perm (keys entries) ∧
      EntriesOnce entries
  | _ => True

def ItemsOnce : List Node → Prop
  | [] => True
  | x :: xs => Once x ∧ ItemsOnce xs

def EntriesOnce : List (String × Node) → Prop
  | [] => True
  | (_, x) :: rest => Once x ∧ EntriesOnce rest

end

mutual

/-- Every object is visited in an order that reading keeps. -/
def InKeptOrder : Node → Prop
  | .arr xs => ItemsInKeptOrder xs
  | .map entries order => Kept (keys (eachOrdered entries order)) ∧ EntriesInKeptOrder entries
  | _ => True

def ItemsInKeptOrder : List Node → Prop
  | [] => True
  | x :: xs => InKeptOrder x ∧ ItemsInKeptOrder xs

def EntriesInKeptOrder : List (String × Node) → Prop
  | [] => True
  | (_, x) :: rest => InKeptOrder x ∧ EntriesInKeptOrder rest

end

mutual

/-- The same values, and the keys of every object visited in the same order. -/
def Alike : Node → Node → Prop
  | .arr xs, .arr ys => ItemsAlike xs ys
  | .map es order, .map es' order' => EntriesAlike es es' ∧
      keys (eachOrdered es order) = keys (eachOrdered es' order')
  | .null, .null => True
  | .bool a, .bool b => a = b
  | .num a, .num b => a = b
  | .str s, .str t => s = t
  | _, _ => False

def ItemsAlike : List Node → List Node → Prop
  | [], [] => True
  | x :: xs, y :: ys => Alike x y ∧ ItemsAlike xs ys
  | _, _ => False

def EntriesAlike : List (String × Node) → List (String × Node) → Prop
  | [], [] => True
  | (k, x) :: xs, (l, y) :: ys => k = l ∧ Alike x y ∧ EntriesAlike xs ys
  | _, _ => False

end

theorem rereadEntries_eq_map (entries : List (String × Node)) :
    rereadEntries entries = entries.map fun e => (e.1, reread e.2) := by
  induction entries with
  | nil => rfl
  | cons e entries ih => rw [rereadEntries, ih, List.map_cons]

end Node

theorem keys_map_snd {α β : Type} (f : α → β) (m : List (String × α)) :
    keys (m.map fun e => (e.1, f e.2)) = keys m := by
  rw [keys, keys, List.map_map]
  rfl

/-- The entries that are read are those of the map. -/
theorem visitMap_of_perm {m : List (String × Node)} {order : Option (List String)} (hm : Sorted m)
    (hperm : (keys (eachOrdered m order)).Perm (keys m)) :
    ∃ hint, Node.visitMap (eachOrdered m order) = .map m hint := by
  have h := reads_foldl (eachOrdered m order)
  rw [Node.visitMap, Node.Visit.finish]
  generalize (eachOrdered m order).foldl Node.Visit.entry ⟨[], none, 0, false⟩ = s at h ⊢
  have hnodup := hperm.nodup_iff.mpr hm.nodup
  refine ⟨s.hint, congrArg (Node.map · s.hint) (h.sorted.ext hm fun k => ?_)⟩
  rw [h.lookup]
  cases hk : m.lookup k with
  | none =>
      rw [written_eq_none_iff, hperm.mem_iff]
      exact lookup_eq_none_iff.mp hk
  | some v =>
      have hmem : k ∈ keys (eachOrdered m order) := hperm.mem_iff.mpr (mem_keys_iff.mpr ⟨v, hk⟩)
      obtain ⟨⟨k', w⟩, he, rfl⟩ := List.mem_map.mp hmem
      have hw := lookup_of_mem_eachOrdered hm.nodup he
      rw [hk] at hw
      cases hw
      have hrev : (keys (eachOrdered m order).reverse).Nodup := by
        rw [keys, List.map_reverse, List.nodup_reverse]
        exact hnodup
      exact (lookup_iff_mem hrev).mpr (List.mem_reverse.mpr he)

mutual

/-- **A tree read back**: it has the same values, and the same order exactly if that is kept. -/
theorem alike_reread_iff : ∀ {n : Node}, n.Once → (n.reread.Alike n ↔ n.InKeptOrder)
  | .null, _ | .bool _, _ | .num _, _ | .str _, _ => by
      simp only [Node.reread, Node.Alike, Node.InKeptOrder]
  | .arr xs, h => by
      rw [Node.reread, Node.Alike, Node.InKeptOrder]
      exact itemsAlike_reread_iff h
  | .map entries order, h => by
      rw [Node.Once] at h
      obtain ⟨hsorted, hperm, hentries⟩ := h
      have hkeys : keys (eachOrdered (Node.rereadEntries entries) order) =
          keys (eachOrdered entries order) := by
        rw [Node.rereadEntries_eq_map, eachOrdered_map, keys_map_snd]
      have hsame : keys (Node.rereadEntries entries) = keys entries := by
        rw [Node.rereadEntries_eq_map, keys_map_snd]
      have hreread : Sorted (Node.rereadEntries entries) := by
        rw [Sorted, hsame]
        exact hsorted
      have hperm' : (keys (eachOrdered (Node.rereadEntries entries) order)).Perm
          (keys (Node.rereadEntries entries)) := by
        rw [hkeys, hsame]
        exact hperm
      obtain ⟨hint, hvisit⟩ := visitMap_of_perm hreread hperm'
      have hkept := keys_visitMap_iff (hperm'.nodup_iff.mpr hreread.nodup)
      rw [hvisit, Node.visited, hkeys] at hkept
      rw [Node.reread, hvisit, Node.Alike, Node.InKeptOrder, hkept,
        entriesAlike_reread_iff hentries, and_comm]

theorem itemsAlike_reread_iff : ∀ {xs : List Node}, Node.ItemsOnce xs →
    (Node.ItemsAlike (Node.rereadItems xs) xs ↔ Node.ItemsInKeptOrder xs)
  | [], _ => Iff.rfl
  | x :: xs, h => by
      rw [Node.rereadItems, Node.ItemsAlike, Node.ItemsInKeptOrder, alike_reread_iff h.1,
        itemsAlike_reread_iff h.2]

theorem entriesAlike_reread_iff : ∀ {entries : List (String × Node)}, Node.EntriesOnce entries →
    (Node.EntriesAlike (Node.rereadEntries entries) entries ↔ Node.EntriesInKeptOrder entries)
  | [], _ => Iff.rfl
  | (k, x) :: rest, h => by
      rw [Node.rereadEntries, Node.EntriesAlike, Node.EntriesInKeptOrder, alike_reread_iff h.1,
        entriesAlike_reread_iff h.2, eq_self_iff_true, true_and]

end

/-! ### Reading the text -/

section
variable (readNumber : List Char → Option Number)

mutual

/-- The text as `Node`'s `Deserialize` walks it, its numerals read. -/
def Json.ofValue : JsonValue → Json
  | .null => .null
  | .bool b => .bool b
  | .num t => ((readNumber t).map Json.num).getD .unreadable
  | .str s => .str s
  | .arr xs => .arr (Json.ofItems xs)
  | .obj entries => .obj (Json.ofEntries entries)

def Json.ofItems : List JsonValue → List Json
  | [] => []
  | x :: xs => Json.ofValue x :: Json.ofItems xs

def Json.ofEntries : List (String × JsonValue) → List (String × Json)
  | [] => []
  | (k, x) :: rest => (k, Json.ofValue x) :: Json.ofEntries rest

end

/-- A tree read from its JSON text. -/
def Node.ofText (t : List Char) : Option Node :=
  (JsonValue.read t).bind fun v => Node.ofJson (Json.ofValue readNumber v)

variable (ryu : Float → String)

mutual

/-- Every number of the tree is read from its text. -/
def Node.NumbersRead : Node → Prop
  | .num n => readNumber (Node.numberText ryu n) = some n
  | .arr xs => ItemNumbersRead xs
  | .map entries _ => EntryNumbersRead entries
  | _ => True

def ItemNumbersRead : List Node → Prop
  | [] => True
  | x :: xs => Node.NumbersRead x ∧ ItemNumbersRead xs

def EntryNumbersRead : List (String × Node) → Prop
  | [] => True
  | (_, x) :: rest => Node.NumbersRead x ∧ EntryNumbersRead rest

end

variable {readNumber ryu}

theorem ofEntries_eq_map (entries : List (String × JsonValue)) :
    Json.ofEntries readNumber entries = entries.map fun e =>
      (e.1, Json.ofValue readNumber e.2) := by
  induction entries with
  | nil => rfl
  | cons e entries ih => rw [Json.ofEntries, ih, List.map_cons]

theorem ofEntries_map {l : List (String × Node)} {f : String × Node → Json}
    {g : String × Node → Node} (h : ∀ e ∈ l, Node.ofJson (f e) = some (g e)) :
    Node.ofEntries (l.map fun e => (e.1, f e)) = some (l.map fun e => (e.1, g e)) := by
  induction l with
  | nil => rfl
  | cons e l ih =>
      rw [List.map_cons, Node.ofEntries, h e List.mem_cons_self, Option.bind_some,
        ih fun e' he' => h e' (List.mem_cons_of_mem _ he')]
      rfl

theorem orderedEntries_eq_map (entries : List (String × Node)) :
    Node.orderedEntries ryu entries = entries.map fun e => (e.1, e.2.ordered ryu) := by
  induction entries with
  | nil => rfl
  | cons e entries ih => rw [Node.orderedEntries, ih, List.map_cons]

mutual

/-- What is read of a tree's ordered value. -/
theorem ofJson_ordered : ∀ {n : Node}, n.NumbersRead readNumber ryu →
    Node.ofJson (Json.ofValue readNumber (n.ordered ryu)) = some n.reread
  | .null, _ | .bool _, _ | .str _, _ => rfl
  | .num n, h => by
      rw [Node.NumbersRead] at h
      rw [Node.ordered, Json.ofValue, h]
      rfl
  | .arr xs, h => by
      rw [Node.ordered, Json.ofValue, Node.ofJson, ofItems_ordered h, Node.reread]
      rfl
  | .map entries order, h => by
      rw [Node.ordered, Json.ofValue, Node.ofJson, orderedEntries_eq_map, eachOrdered_map,
        ofEntries_eq_map, List.map_map, Node.reread, Node.rereadEntries_eq_map, eachOrdered_map]
      have hentries : ∀ e ∈ eachOrdered entries order,
          Node.ofJson (Json.ofValue readNumber (e.2.ordered ryu)) = some e.2.reread :=
        fun e he => ofJson_ordered_entry h (mem_of_mem_eachOrdered he)
      exact congrArg (Option.map Node.visitMap) (ofEntries_map hentries)

theorem ofItems_ordered : ∀ {xs : List Node}, ItemNumbersRead readNumber ryu xs →
    Node.ofItems (Json.ofItems readNumber (Node.orderedItems ryu xs)) = some (Node.rereadItems xs)
  | [], _ => rfl
  | x :: xs, h => by
      rw [Node.orderedItems, Json.ofItems, Node.ofItems, ofJson_ordered h.1, ofItems_ordered h.2]
      rfl

theorem ofJson_ordered_entry : ∀ {entries : List (String × Node)},
    EntryNumbersRead readNumber ryu entries → ∀ {e : String × Node}, e ∈ entries →
      Node.ofJson (Json.ofValue readNumber (e.2.ordered ryu)) = some e.2.reread
  | (k, x) :: rest, h, e, he => by
      rcases List.mem_cons.mp he with rfl | he
      · exact ofJson_ordered h.1
      · exact ofJson_ordered_entry h.2 he

end

/-- **A tree's ordered text is read back.** -/
theorem ofText_ordered (hryu : ∀ f, JsonValue.Numeral (ryu f).toList) {n : Node}
    (h : n.NumbersRead readNumber ryu) :
    Node.ofText readNumber (n.text ryu true) = some n.reread := by
  rw [Node.ofText, text_eq_render, JsonValue.read_render (numerals_ordered hryu n),
    Option.bind_some, ofJson_ordered h]

end

/-! ### A tree without its order -/

namespace Node

mutual

/-- A tree without the order of its texts. -/
def forget : Node → Node
  | .arr xs => .arr (forgetItems xs)
  | .map entries _ => .map (forgetEntries entries) none
  | n => n

def forgetItems : List Node → List Node
  | [] => []
  | x :: xs => forget x :: forgetItems xs

def forgetEntries : List (String × Node) → List (String × Node)
  | [] => []
  | (k, x) :: rest => (k, forget x) :: forgetEntries rest

end

mutual

/-- The text without an order is that of the tree without its. -/
theorem text_forget (ryu : Float → String) : ∀ n : Node, n.text ryu false = n.forget.text ryu true
  | .null | .bool _ | .num _ | .str _ => rfl
  | .arr xs => by rw [forget, text, text, itemTexts_forget ryu xs]
  | .map entries order => by
      rw [forget, text, text, entryTexts_forget ryu entries]
      rfl

theorem itemTexts_forget (ryu : Float → String) : ∀ xs : List Node,
    itemTexts ryu false xs = itemTexts ryu true (forgetItems xs)
  | [] => rfl
  | x :: xs => by rw [forgetItems, itemTexts, itemTexts, text_forget ryu x, itemTexts_forget ryu xs]

theorem entryTexts_forget (ryu : Float → String) : ∀ entries : List (String × Node),
    entryTexts ryu false entries = entryTexts ryu true (forgetEntries entries)
  | [] => rfl
  | (k, x) :: rest => by
      rw [forgetEntries, entryTexts, entryTexts, text_forget ryu x, entryTexts_forget ryu rest]

end

theorem forgetEntries_eq_map (entries : List (String × Node)) :
    forgetEntries entries = entries.map fun e => (e.1, e.2.forget) := by
  induction entries with
  | nil => rfl
  | cons e entries ih => rw [forgetEntries, ih, List.map_cons]

mutual

/-- Every object is a sorted map, as a `BTreeMap` is. -/
def Maps : Node → Prop
  | .arr xs => ItemMaps xs
  | .map entries _ => Sorted entries ∧ EntryMaps entries
  | _ => True

def ItemMaps : List Node → Prop
  | [] => True
  | x :: xs => Maps x ∧ ItemMaps xs

def EntryMaps : List (String × Node) → Prop
  | [] => True
  | (_, x) :: rest => Maps x ∧ EntryMaps rest

end

theorem entryMaps_iff {entries : List (String × Node)} :
    EntryMaps entries ↔ ∀ e ∈ entries, e.2.Maps := by
  induction entries with
  | nil => simp [EntryMaps]
  | cons e entries ih => rw [EntryMaps, ih, List.forall_mem_cons]

mutual

/-- What is read of the text of a tree without its order has the tree's values. -/
theorem forget_reread : ∀ {n : Node}, n.Maps → n.forget.reread.forget = n.forget
  | .null, _ | .bool _, _ | .num _, _ | .str _, _ => rfl
  | .arr xs, h => by
      rw [forget, reread, forget, forgetItems_reread h]
  | .map entries order, h => by
      have hkeys : keys (rereadEntries (forgetEntries entries)) = keys entries := by
        rw [rereadEntries_eq_map, forgetEntries_eq_map, keys_map_snd, keys_map_snd]
      have hsorted : Sorted (rereadEntries (forgetEntries entries)) := by
        rw [Sorted, hkeys]
        exact h.1
      have hperm : (keys (eachOrdered (rereadEntries (forgetEntries entries)) none)).Perm
          (keys (rereadEntries (forgetEntries entries))) := List.Perm.refl _
      obtain ⟨hint, hvisit⟩ := visitMap_of_perm hsorted hperm
      rw [forget, reread, hvisit, forget, forgetEntries_reread h.2]

theorem forgetItems_reread : ∀ {xs : List Node}, ItemMaps xs →
    forgetItems (rereadItems (forgetItems xs)) = forgetItems xs
  | [], _ => rfl
  | x :: xs, h => by
      rw [forgetItems, rereadItems, forgetItems, forget_reread h.1, forgetItems_reread h.2]

theorem forgetEntries_reread : ∀ {entries : List (String × Node)}, EntryMaps entries →
    forgetEntries (rereadEntries (forgetEntries entries)) = forgetEntries entries
  | [], _ => rfl
  | (k, x) :: rest, h => by
      rw [forgetEntries, rereadEntries, forgetEntries, forget_reread h.1, forgetEntries_reread h.2]

end

section
variable {readNumber : List Char → Option Number} {ryu : Float → String}

mutual

theorem numbersRead_forget : ∀ {n : Node}, n.NumbersRead readNumber ryu →
    n.forget.NumbersRead readNumber ryu
  | .null, h | .bool _, h | .num _, h | .str _, h => h
  | .arr _, h => itemNumbersRead_forget h
  | .map _ _, h => entryNumbersRead_forget h

theorem itemNumbersRead_forget : ∀ {xs : List Node}, ItemNumbersRead readNumber ryu xs →
    ItemNumbersRead readNumber ryu (forgetItems xs)
  | [], _ => trivial
  | _ :: _, h => ⟨numbersRead_forget h.1, itemNumbersRead_forget h.2⟩

theorem entryNumbersRead_forget : ∀ {entries : List (String × Node)},
    EntryNumbersRead readNumber ryu entries →
    EntryNumbersRead readNumber ryu (forgetEntries entries)
  | [], _ => trivial
  | (_, _) :: _, h => ⟨numbersRead_forget h.1, entryNumbersRead_forget h.2⟩

end

end

end Node

end Brust.Plan
