import Brust.Plan.Node
import Brust.Support.Decimal
import Brust.Support.Split
import Mathlib.Data.List.Pairwise

/-!
# Plan — the order of an object's keys

JavaScript lists the own keys of an object with the array indices first, ascending, and the others
as they were first written.  `each_ordered` of an object that was read visits every key once, with
the value written last, and in that order, or, where a key has the hint's separator, in the sorted
one (`each_ordered_own_keys`): unless the keys came sorted, an array index is not where it sorts,
and for a key with the separator a piece of it is a key itself, where a key is visited twice and
another one is lost (`each_ordered_repeats`), or a key that is no index sorts after it, where the
order is neither of the two.
-/

namespace Brust.Plan

open SortedMap

/-! ### Array indices -/

/-- The key of the `n`-th element of an array. -/
def ArrayIndex (k : String) (n : ℕ) : Prop := n < 2 ^ 32 - 1 ∧ k = toString n

theorem ArrayIndex.decimal {k : String} {n : ℕ} (h : ArrayIndex k n) : Node.decimal k = n := by
  rw [Node.decimal, h.2, Nat.toString_eq_repr, Nat.toList_repr, Nat.ofDigitChars_ten_toDigits]

/-- `is_array_index` accepts the keys of an array's elements, and no others. -/
theorem isArrayIndex_iff {k : String} : Node.isArrayIndex k = true ↔ ∃ n, ArrayIndex k n := by
  constructor
  · intro h
    rw [Node.isArrayIndex, Bool.or_eq_true] at h
    rcases h with h | h
    · exact ⟨0, by decide, eq_of_beq h⟩
    · simp only [Bool.and_eq_true, decide_eq_true_eq, List.all_eq_true] at h
      obtain ⟨⟨⟨⟨hne, h0⟩, -⟩, hd⟩, hlt⟩ := h
      refine ⟨Node.decimal k, hlt, ?_⟩
      rw [Nat.toString_eq_ofList_toDigits, Node.decimal, (toDigits_ofDigitChars hne hd h0).2,
        String.ofList_toList]
  · rintro ⟨n, h⟩
    have hk : k.toList = Nat.toDigits 10 n := by
      rw [h.2, Nat.toString_eq_repr, Nat.toList_repr]
    rcases Nat.eq_zero_or_pos n with rfl | hn
    · rw [h.2]
      decide
    · have hdecimal := h.decimal
      rw [Node.isArrayIndex, Bool.or_eq_true]
      right
      simp only [Bool.and_eq_true, decide_eq_true_eq, List.all_eq_true, hdecimal, hk]
      refine ⟨⟨⟨⟨Nat.toDigits_ne_nil, head?_toDigits hn⟩, ?_⟩, ?_⟩, h.1⟩
      · refine (Nat.length_toDigits_le_iff (by decide) (by decide)).mpr ?_
        have := h.1
        omega
      · exact fun c hc => Nat.isDigit_of_mem_toDigits (by decide) (by decide) hc

instance (k : String) : Decidable (∃ n, ArrayIndex k n) :=
  decidable_of_iff _ isArrayIndex_iff

/-! ### What JavaScript lists -/

/-- The value a key has in the end: the last one that was written. -/
def written (text : List (String × Node)) (k : String) : Option Node := text.reverse.lookup k

/-- The own keys in JavaScript's order: the array indices first, ascending, and then the others in
the order of their first occurrences. -/
def JsOrder (text ks : List String) : Prop :=
  ∃ indices, ks = indices ++ text.eraseDups.filter (fun k => ¬ ∃ n, ArrayIndex k n) ∧
    (∀ k ∈ indices, ∃ n, ArrayIndex k n) ∧
    indices.Pairwise fun a b => ∀ m n, ArrayIndex a m → ArrayIndex b n → m < n

/-- What was visited of an object, for its text: every key once, with the value written last, in
JavaScript's order; where a key has the separator, in that order or in the sorted one. -/
structure OwnKeys (text visited : List (String × Node)) : Prop where
  once : (keys visited).Nodup
  last : ∀ k v, (k, v) ∈ visited ↔ written text k = some v
  order : JsOrder (keys text) (keys visited) ∨
    (∃ k ∈ keys text, Node.hasNul k = true) ∧ Sorted visited

theorem written_concat (text : List (String × Node)) (e : String × Node) (k : String) :
    written (text ++ [e]) k = if k = e.1 then some e.2 else written text k := by
  rw [written, List.reverse_append, List.reverse_singleton, List.singleton_append, lookup_cons_if,
    written]

theorem keys_append {α : Type} (a b : List (String × α)) : keys (a ++ b) = keys a ++ keys b :=
  List.map_append

theorem written_eq_none_iff {text : List (String × Node)} {k : String} :
    written text k = none ↔ k ∉ keys text := by
  rw [written, lookup_eq_none_iff, keys, List.map_reverse, List.mem_reverse, keys]

/-! ### Reading an object -/

/-- The state of `visit_map` after the entries of a text. -/
structure Reads (text : List (String × Node)) (s : Node.Visit) : Prop where
  sorted : Sorted s.entries
  lookup : ∀ k, s.entries.lookup k = written text k
  inOrder : s.order = none → (keys text).Pairwise (· ≤ ·) ∧ s.skip = false
  outOfOrder : ∀ order, s.order = some order → ¬ (keys text).Pairwise (· ≤ ·) ∧
    order.eraseDups = (keys text).eraseDups ∧ order.length = s.pushed ∧
    s.skip = (keys text).any Node.hasNul

theorem Reads.mem_keys {text : List (String × Node)} {s : Node.Visit} (h : Reads text s)
    {k : String} : k ∈ keys s.entries ↔ k ∈ keys text := by
  rw [← not_iff_not, ← lookup_eq_none_iff, ← written_eq_none_iff, h.lookup]

/-- The keys of a text that came sorted are the map's. -/
theorem Reads.keys_eq {text : List (String × Node)} {s : Node.Visit} (h : Reads text s)
    (hle : (keys text).Pairwise (· ≤ ·)) : keys s.entries = (keys text).eraseDups := by
  refine h.sorted.keys_eq ?_ fun k => by rw [List.mem_eraseDups, h.mem_keys]
  have hle' := hle.sublist (eraseDups_sublist (keys text))
  exact (hle'.and (nodup_eraseDups (keys text))).imp fun ⟨hle, hne⟩ => lt_of_le_of_ne hle hne

/-- The last key is the greatest. -/
theorem any_getLast?_iff {m : List (String × Node)} (h : Sorted m) {k : String} :
    (m.getLast?.any fun last => k < last.1) = true ↔ ∃ a ∈ keys m, k < a := by
  induction m using List.reverseRecOn with
  | nil => simp
  | append_singleton m last _ =>
      rw [List.getLast?_concat, keys_append]
      rw [Sorted, keys_append, List.pairwise_append] at h
      simp only [Option.any_some, decide_eq_true_eq, List.mem_append]
      constructor
      · exact fun hk => ⟨last.1, .inr (List.mem_singleton_self _), hk⟩
      · rintro ⟨a, ha | ha, hk⟩
        · exact hk.trans (h.2.2 a ha last.1 (List.mem_singleton_self _))
        · rwa [List.mem_singleton.mp ha] at hk

theorem pairwise_le_concat {l : List String} {k : String} :
    (l ++ [k]).Pairwise (· ≤ ·) ↔ l.Pairwise (· ≤ ·) ∧ ¬ ∃ a ∈ l, k < a := by
  rw [List.pairwise_append]
  simp only [List.pairwise_singleton, true_and, List.mem_singleton, forall_eq, not_exists, not_and,
    not_lt]

theorem Reads.entry {text : List (String × Node)} {s : Node.Visit} (h : Reads text s)
    (e : String × Node) : Reads (text ++ [e]) (s.entry e) := by
  have hkeys : keys (text ++ [e]) = keys text ++ [e.1] := keys_append ..
  have hlast := any_getLast?_iff h.sorted (k := e.1)
  simp only [h.mem_keys] at hlast
  have hlookup : ∀ k, (SortedMap.insert e.1 e.2 s.entries).lookup k = written (text ++ [e]) k := by
    intro k
    rw [lookup_insert, written_concat, h.lookup]
  unfold Node.Visit.entry
  cases hs : s.order with
  | some order =>
      obtain ⟨hnot, hdups, hpushed, hskip⟩ := h.outOfOrder order hs
      refine ⟨h.sorted.insert, hlookup, fun hnone => (by cases hnone), fun o ho => ?_⟩
      cases ho
      have hmem : e.1 ∈ order ↔ e.1 ∈ keys text := by
        rw [← List.mem_eraseDups, hdups, List.mem_eraseDups]
      refine ⟨fun hle => hnot (List.pairwise_append.mp (hkeys ▸ hle)).1, ?_, ?_, ?_⟩
      · rw [hkeys, eraseDups_concat, eraseDups_concat, hdups]
        simp only [hmem]
      · rw [List.length_append, hpushed]
        rfl
      · rw [hkeys, List.any_append, hskip]
        simp
  | none =>
      obtain ⟨hle, hskip⟩ := h.inOrder hs
      dsimp only
      split
      next hlt =>
        refine ⟨h.sorted.insert, hlookup, fun hnone => (by cases hnone), fun o ho => ?_⟩
        cases ho
        have horder : (if e.1 ∈ keys s.entries then keys s.entries
            else keys s.entries ++ [e.1]) = (keys text ++ [e.1]).eraseDups := by
          rw [eraseDups_concat, h.keys_eq hle]
          simp only [List.mem_eraseDups]
        refine ⟨fun hle' => ?_, ?_, rfl, ?_⟩
        · rw [hkeys] at hle'
          exact (pairwise_le_concat.mp hle').2 (hlast.mp hlt)
        · rw [hkeys]
          exact (congrArg List.eraseDups horder).trans (eraseDups_eq_self (nodup_eraseDups _))
        · rw [hskip, Bool.false_or, hkeys]
          refine (congrArg (·.any Node.hasNul) horder).trans ?_
          rw [Bool.eq_iff_iff]
          simp only [List.any_eq_true, List.mem_eraseDups]
      next hlt =>
        refine ⟨h.sorted.insert, hlookup, fun _ => ⟨?_, hskip⟩, fun o ho => by simp at ho⟩
        rw [hkeys]
        exact pairwise_le_concat.mpr ⟨hle, fun hex => hlt (hlast.mpr hex)⟩

theorem reads_foldl (text : List (String × Node)) :
    Reads text (text.foldl Node.Visit.entry ⟨[], none, 0, false⟩) := by
  induction text using List.reverseRecOn with
  | nil =>
      refine ⟨List.Pairwise.nil, fun k => rfl, fun _ => ⟨List.Pairwise.nil, rfl⟩, fun o ho => ?_⟩
      cases ho
  | append_singleton text e ih =>
      rw [List.foldl_append]
      exact ih.entry e

/-! ### The hint -/

theorem jsKeys_perm (l : List String) : (Node.jsKeys l).Perm l :=
  ((List.mergeSort_perm _ _).append_right _).trans (List.filter_append_perm _ l)

theorem splitNul_of_not_hasNul {k : String} (h : Node.hasNul k = false) :
    Node.splitNul k = [k] := by
  have hnot : '\x00' ∉ k.toList := of_decide_eq_false h
  rw [Node.splitNul, List.splitOn_eq_singleton hnot]
  simp

theorem hasNul_of_mem_splitNul {k p : String} (h : p ∈ Node.splitNul k) :
    Node.hasNul p = false := by
  obtain ⟨cs, hcs, rfl⟩ := List.mem_map.mp h
  rw [Node.hasNul, String.toList_ofList]
  exact decide_eq_false (notMem_of_mem_splitOn hcs)

theorem flatMap_splitNul {l : List String} (h : ∀ k ∈ l, Node.hasNul k = false) :
    l.flatMap Node.splitNul = l := by
  induction l with
  | nil => rfl
  | cons k l ih =>
      rw [List.flatMap_cons, splitNul_of_not_hasNul (h k (by simp)), ih fun k' hk' =>
        h k' (by simp [hk'])]
      rfl

theorem eq_of_zip_all {a b : List String} (hl : a.length = b.length) :
    ((a.zip b).all fun p => p.1 == p.2) = true ↔ a = b := by
  induction a generalizing b with
  | nil =>
      cases b with
      | nil => simp
      | cons y b => cases hl
  | cons x a ih =>
      cases b with
      | nil => cases hl
      | cons y b =>
          rw [List.zip_cons_cons, List.all_cons, Bool.and_eq_true, ih (Nat.succ.inj hl), beq_iff_eq,
            List.cons.injEq]

theorem jsKeys_of_no_index {l : List String} (h : ∀ k ∈ l, Node.isArrayIndex k = false) :
    Node.jsKeys l = l := by
  have hnone : l.filter Node.isArrayIndex = [] := by
    rw [List.filter_eq_nil_iff]
    exact fun k hk => by simp [h k hk]
  have hall : l.filter (fun k => !Node.isArrayIndex k) = l := by
    rw [List.filter_eq_self]
    exact fun k hk => by simp [h k hk]
  rw [Node.jsKeys, hnone, hall, List.mergeSort_nil, List.nil_append]

theorem Reads.keys_perm {text : List (String × Node)} {s : Node.Visit} (h : Reads text s) :
    (keys s.entries).Perm (keys text).eraseDups :=
  (List.perm_ext_iff_of_nodup h.sorted.nodup (nodup_eraseDups _)).mpr fun k => by
    rw [List.mem_eraseDups, h.mem_keys]

theorem Reads.firstSeen {text : List (String × Node)} {s : Node.Visit} (h : Reads text s) :
    s.firstSeen = s.order.map fun _ => (keys text).eraseDups := by
  rw [Node.Visit.firstSeen]
  cases hs : s.order with
  | none => rfl
  | some o =>
      obtain ⟨-, hdups, hpushed, -⟩ := h.outOfOrder o hs
      rw [Option.map_some, Option.map_some]
      split
      next => rw [hdups]
      next hlen =>
        rw [not_ne_iff] at hlen
        rw [← hdups, eq_eraseDups_of_length]
        rw [hdups, hpushed, hlen, ← length_keys, h.keys_perm.length_eq]

theorem Reads.firstSeen_getD {text : List (String × Node)} {s : Node.Visit} (h : Reads text s) :
    s.firstSeen.getD (keys s.entries) = (keys text).eraseDups := by
  rw [h.firstSeen]
  cases hs : s.order with
  | none => exact h.keys_eq (h.inOrder hs).1
  | some o => rfl

theorem Reads.no_nul {text : List (String × Node)} {s : Node.Visit} (h : Reads text s)
    {o : List String} (ho : s.order = some o) (hskip : s.skip = false) :
    ∀ k ∈ keys text, Node.hasNul k = false := by
  have hany := (h.outOfOrder o ho).2.2.2.symm.trans hskip
  simpa using hany

/-- The hint of an object: none, where the separator is in the way or the map's keys are in their
order already; or the pieces of the keys in that order. -/
theorem Reads.hint {text : List (String × Node)} {s : Node.Visit} (h : Reads text s) :
    s.hint = none ∧ (s.skip = true ∨ keys s.entries = Node.jsKeys (keys text).eraseDups) ∨
      s.hint = some ((Node.jsKeys (keys text).eraseDups).flatMap Node.splitNul) ∧ s.skip = false ∧
        (keys s.entries ≠ Node.jsKeys (keys text).eraseDups ∨
          ∀ k ∈ keys text, Node.hasNul k = false) := by
  have hlen : (Node.jsKeys (keys text).eraseDups).length = (keys s.entries).length :=
    ((jsKeys_perm _).trans h.keys_perm.symm).length_eq
  rw [Node.Visit.hint, h.firstSeen_getD]
  cases hskip : s.skip with
  | true => exact .inl ⟨rfl, .inl rfl⟩
  | false =>
      rw [if_neg Bool.false_ne_true]
      split
      next hany =>
        dsimp only
        split
        next heq => exact .inl ⟨rfl, .inr ((eq_of_zip_all hlen).mp heq).symm⟩
        next hne => exact .inr ⟨rfl, rfl, .inl fun e => hne ((eq_of_zip_all hlen).mpr e.symm)⟩
      next hany =>
        have hjs : Node.jsKeys (keys text).eraseDups = (keys text).eraseDups := by
          refine jsKeys_of_no_index fun k hk => ?_
          by_contra hidx
          refine hany (List.any_eq_true.mpr ⟨k, ?_, by simpa using hidx⟩)
          exact h.keys_perm.mem_iff.mpr hk
        rw [h.firstSeen, hjs]
        cases hs : s.order with
        | none => exact .inl ⟨rfl, .inr (h.keys_eq (h.inOrder hs).1)⟩
        | some o =>
            have hnul := h.no_nul hs hskip
            rw [flatMap_splitNul fun k hk => hnul k (List.mem_eraseDups.mp hk)]
            exact .inr ⟨rfl, rfl, .inr hnul⟩

/-! ### Visiting -/

theorem keys_hinted (m : List (String × Node)) (pieces : List String) :
    keys (pieces.filterMap fun k => (m.lookup k).map (k, ·)) = pieces.filter (· ∈ keys m) := by
  induction pieces with
  | nil => rfl
  | cons k pieces ih =>
      rw [List.filterMap_cons, List.filter_cons]
      cases hk : m.lookup k with
      | none =>
          have hnot : k ∉ keys m := lookup_eq_none_iff.mp hk
          simpa [hnot] using ih
      | some v =>
          have hmem : k ∈ keys m := mem_keys_iff.mpr ⟨v, hk⟩
          simpa [hmem] using ih

theorem keys_eachOrdered (m : List (String × Node)) (pieces : List String) :
    keys (eachOrdered m (some pieces)) =
      if (pieces.filter (· ∈ keys m)).length < m.length then
        pieces.filter (· ∈ keys m) ++ (keys m).filter (· ∉ pieces)
      else pieces.filter (· ∈ keys m) := by
  have hrest : keys (m.filter fun e => e.1 ∉ pieces) = (keys m).filter (· ∉ pieces) := by
    rw [keys, keys, List.filter_map]
    rfl
  rw [← keys_hinted, length_keys, eachOrdered]
  split
  · rw [keys_append, hrest]
  · rfl

/-- What is visited is the map's. -/
theorem lookup_of_mem_eachOrdered {m : List (String × Node)} (hm : (keys m).Nodup)
    {order : Option (List String)} {k : String} {v : Node} (h : (k, v) ∈ eachOrdered m order) :
    m.lookup k = some v := by
  have hhinted : ∀ pieces : List String,
      (k, v) ∈ (pieces.filterMap fun k => (m.lookup k).map (k, ·)) → m.lookup k = some v := by
    intro pieces hp
    obtain ⟨k', -, hk'⟩ := List.mem_filterMap.mp hp
    obtain ⟨v', hv', he⟩ := Option.map_eq_some_iff.mp hk'
    cases he
    exact hv'
  cases order with
  | none => exact (lookup_iff_mem hm).mpr h
  | some pieces =>
      rw [eachOrdered] at h
      split at h
      · rcases List.mem_append.mp h with h | h
        · exact hhinted pieces h
        · exact (lookup_iff_mem hm).mpr (List.mem_filter.mp h).1
      · exact hhinted pieces h

/-- If the keys that are visited are the map's, in some order, every key is visited once. -/
theorem Reads.last {text : List (String × Node)} {s : Node.Visit} (h : Reads text s)
    {order : Option (List String)} (hp : (keys (eachOrdered s.entries order)).Perm (keys s.entries))
    (k : String) (v : Node) :
    (k, v) ∈ eachOrdered s.entries order ↔ written text k = some v := by
  rw [← h.lookup]
  refine ⟨lookup_of_mem_eachOrdered h.sorted.nodup, fun hk => ?_⟩
  have hmem : k ∈ keys (eachOrdered s.entries order) := hp.mem_iff.mpr (mem_keys_iff.mpr ⟨v, hk⟩)
  obtain ⟨⟨k', v'⟩, he, rfl⟩ := List.mem_map.mp hmem
  have hv' := lookup_of_mem_eachOrdered h.sorted.nodup he
  rw [hk] at hv'
  cases hv'
  exact he

theorem pairwise_indices (l : List String) :
    ((l.filter Node.isArrayIndex).mergeSort fun a b => Node.decimal a ≤ Node.decimal b).Pairwise
      fun a b => Node.decimal a ≤ Node.decimal b := by
  have hsorted := @List.pairwise_mergeSort _
    (fun a b => decide (Node.decimal a ≤ Node.decimal b))
    (by intro a b c hab hbc; simp only [decide_eq_true_eq] at *; exact hab.trans hbc)
    (by intro a b; simp only [Bool.or_eq_true, decide_eq_true_eq]; exact Nat.le_total ..)
    (l.filter Node.isArrayIndex)
  exact hsorted.imp fun hle => of_decide_eq_true hle

/-- The own order, of keys that are visited in it. -/
theorem order_jsKeys (l : List String) :
    ∃ indices, Node.jsKeys l = indices ++ l.filter (fun k => ¬ ∃ n, ArrayIndex k n) ∧
      (∀ k ∈ indices, ∃ n, ArrayIndex k n) ∧ (l.Nodup → indices.Pairwise
        fun a b => ∀ m n, ArrayIndex a m → ArrayIndex b n → m < n) := by
  refine ⟨(l.filter Node.isArrayIndex).mergeSort (fun a b => Node.decimal a ≤ Node.decimal b),
    ?_, fun k hk => ?_, fun hl => ?_⟩
  · rw [Node.jsKeys]
    congr 2
    funext k
    cases hk : Node.isArrayIndex k with
    | true => simp [isArrayIndex_iff.mp hk]
    | false => simp [mt isArrayIndex_iff.mpr (Bool.eq_false_iff.mp hk)]
  · exact isArrayIndex_iff.mp (List.mem_filter.mp (List.mem_mergeSort.mp hk)).2
  · have hsorted := pairwise_indices l
    have hnodup := (List.mergeSort_perm (l.filter Node.isArrayIndex)
      fun a b => Node.decimal a ≤ Node.decimal b).nodup_iff.mpr (hl.filter _)
    refine (hsorted.and hnodup).imp fun ⟨hle, hne⟩ m n hm hn => ?_
    rw [hm.decimal, hn.decimal] at hle
    refine lt_of_le_of_ne hle fun e => hne ?_
    rw [hm.2, hn.2, e]

/-- **The order of an object's keys, where it can be in the hint**: the visited keys are those of
`jsKeys`. -/
theorem Reads.ownKeys {text : List (String × Node)} {s : Node.Visit} (h : Reads text s)
    {order : Option (List String)}
    (hkeys : keys (eachOrdered s.entries order) = Node.jsKeys (keys text).eraseDups) :
    OwnKeys text (eachOrdered s.entries order) := by
  have hp : (keys (eachOrdered s.entries order)).Perm (keys s.entries) := by
    rw [hkeys]
    exact (jsKeys_perm _).trans h.keys_perm.symm
  obtain ⟨indices, hjs, hidx, hasc⟩ := order_jsKeys (keys text).eraseDups
  refine ⟨hp.nodup_iff.mpr h.sorted.nodup, h.last hp, .inl ⟨indices, ?_, hidx, ?_⟩⟩
  · rw [hkeys, hjs]
  · exact hasc (nodup_eraseDups _)

/-! ### An order that is the sorted one -/

/-- An array index stands after a key that it should be listed before. -/
def Moved (l : List String) : Prop :=
  ∃ a ∈ l, ∃ b ∈ l, b < a ∧ ∃ m, ArrayIndex a m ∧ ∀ n, ArrayIndex b n → m < n

theorem not_moved {l : List String} (h : ¬ Moved l) {x y : String} (hx : x ∈ l) (hy : y ∈ l)
    (hlt : x < y) (hidx : Node.isArrayIndex y = true) :
    Node.isArrayIndex x = true ∧ Node.decimal x ≤ Node.decimal y := by
  obtain ⟨m, hm⟩ := isArrayIndex_iff.mp hidx
  by_contra hnot
  refine h ⟨y, hy, x, hx, hlt, m, hm, fun n hn => ?_⟩
  have := isArrayIndex_iff.mpr ⟨n, hn⟩
  rw [not_and, not_le, hm.decimal, hn.decimal] at hnot
  exact hnot this

/-- Elements with a property that all precede those without it. -/
theorem filter_append_filter {l : List String} {p : String → Bool}
    (h : l.Pairwise fun x y => p y = true → p x = true) :
    l.filter p ++ l.filter (fun x => !p x) = l := by
  induction l with
  | nil => rfl
  | cons x l ih =>
      obtain ⟨hx, hl⟩ := List.pairwise_cons.mp h
      cases hp : p x with
      | true =>
          rw [List.filter_cons_of_pos hp, List.filter_cons_of_neg (by simp [hp]),
            List.cons_append, ih hl]
      | false =>
          have hnone : l.filter p = [] :=
            List.filter_eq_nil_iff.mpr fun y hy hpy => by simp [hx y hy hpy] at hp
          rw [hnone] at ih
          rw [List.filter_cons_of_neg (by simp [hp]), hnone, List.filter_cons_of_pos (by simp [hp]),
            List.nil_append, ← List.nil_append (l.filter _), ih hl]

theorem jsKeys_eq_self {l : List String} (hl : l.Pairwise (· < ·)) (h : ¬ Moved l) :
    Node.jsKeys l = l := by
  have hpre : l.Pairwise fun x y => Node.isArrayIndex y = true → Node.isArrayIndex x = true :=
    hl.imp_of_mem fun hx hy hlt hidx => (not_moved h hx hy hlt hidx).1
  have hasc : (l.filter Node.isArrayIndex).Pairwise
      fun x y => decide (Node.decimal x ≤ Node.decimal y) = true := by
    refine (hl.filter _).imp_of_mem fun {x y} hx hy hlt => ?_
    obtain ⟨hx, -⟩ := List.mem_filter.mp hx
    obtain ⟨hy, hidx⟩ := List.mem_filter.mp hy
    exact decide_eq_true (not_moved h hx hy hlt hidx).2
  rw [Node.jsKeys, List.mergeSort_of_pairwise hasc]
  exact filter_append_filter hpre

theorem not_moved_of_jsKeys {l : List String} (hl : l.Pairwise (· < ·)) (h : Node.jsKeys l = l) :
    ¬ Moved l := by
  rintro ⟨a, ha, b, hb, hlt, m, hm, hbefore⟩
  have hidx := isArrayIndex_iff.mpr ⟨m, hm⟩
  rw [← h, Node.jsKeys, List.pairwise_append] at hl
  obtain ⟨hindices, -, hcross⟩ := hl
  have ha' : a ∈ (l.filter Node.isArrayIndex).mergeSort fun a b =>
    Node.decimal a ≤ Node.decimal b :=
    List.mem_mergeSort.mpr (List.mem_filter.mpr ⟨ha, hidx⟩)
  cases hb' : Node.isArrayIndex b with
  | false =>
      have hbo : b ∈ l.filter fun k => !Node.isArrayIndex k :=
        List.mem_filter.mpr ⟨hb, by simp [hb']⟩
      exact (hcross a ha' b hbo).asymm hlt
  | true =>
      obtain ⟨n, hn⟩ := isArrayIndex_iff.mp hb'
      have hbi : b ∈ (l.filter Node.isArrayIndex).mergeSort
          fun a b => Node.decimal a ≤ Node.decimal b :=
        List.mem_mergeSort.mpr (List.mem_filter.mpr ⟨hb, hb'⟩)
      -- whichever of the two stands first, both orders agree on it
      have hle : b < a → Node.decimal b ≤ Node.decimal a :=
        List.Pairwise.forall_of_forall_of_flip (R := fun x y => x < y →
          Node.decimal x ≤ Node.decimal y)
          (fun _ _ h => absurd h (lt_irrefl _))
          ((pairwise_indices l).imp fun {x y} hle (_ : x < y) => hle)
          (hindices.imp fun hlt hlt' => absurd hlt hlt'.asymm) hbi ha'
      specialize hle hlt
      rw [hm.decimal, hn.decimal] at hle
      exact absurd (hbefore n hn) (not_lt.mpr hle)

/-! ### Keys with the separator -/

/-- A key with the separator has a piece that is a key itself, or another key that is no array index
sorts after it. -/
def Crossed (ks : List String) : Prop :=
  ∃ k ∈ ks, Node.hasNul k = true ∧ ((∃ p ∈ Node.splitNul k, p ∈ ks) ∨
    ∃ p ∈ ks, k < p ∧ Node.hasNul p = false ∧ ¬ ∃ n, ArrayIndex p n)

/-- The keys came sorted, an array index is not where it sorts, and a key with the separator is
crossed. -/
structure Collides (text : List (String × Node)) : Prop where
  sorted : (keys text).Pairwise (· ≤ ·)
  moved : Moved (keys text)
  crossed : Crossed (keys text)

/-- The pieces of keys that are keys, where only a key's own piece is one. -/
theorem filter_pieces {l K : List String} (hK : ∀ k ∈ l, k ∈ K)
    (h : ∀ k ∈ l, Node.hasNul k = true → ∀ p ∈ Node.splitNul k, p ∉ K) :
    (l.flatMap Node.splitNul).filter (· ∈ K) = l.filter fun k => !Node.hasNul k := by
  induction l with
  | nil => rfl
  | cons k l ih =>
      rw [List.flatMap_cons, List.filter_append, List.filter_cons,
        ih (fun k' hk' => hK k' (by simp [hk'])) fun k' hk' => h k' (by simp [hk'])]
      cases hk : Node.hasNul k with
      | false =>
          have hmem : k ∈ K := hK k (by simp)
          simp [splitNul_of_not_hasNul hk, hmem]
      | true =>
          have hnone : (Node.splitNul k).filter (· ∈ K) = [] :=
            List.filter_eq_nil_iff.mpr fun p hp => by simpa using h k (by simp) hk p hp
          simp [hnone]

/-- Where no piece is a key, the keys with the separator are visited after the others. -/
theorem keys_of_not_piece {m : List (String × Node)} {js : List String} (hjs : js.Perm (keys m))
    (hno : ∀ k ∈ keys m, Node.hasNul k = true → ∀ p ∈ Node.splitNul k, p ∉ keys m) :
    keys (eachOrdered m (some (js.flatMap Node.splitNul))) =
      js.filter (fun k => !Node.hasNul k) ++ (keys m).filter Node.hasNul := by
  have hhinted := filter_pieces (K := keys m) (fun k hk => hjs.mem_iff.mp hk)
    fun k hk => hno k (hjs.mem_iff.mp hk)
  have hrest : (keys m).filter (· ∉ js.flatMap Node.splitNul) =
      (keys m).filter Node.hasNul := by
    refine List.filter_congr fun k hk => ?_
    cases hnul : Node.hasNul k with
    | true =>
        refine decide_eq_true fun hmem => ?_
        obtain ⟨k', -, hp⟩ := List.mem_flatMap.mp hmem
        rw [hasNul_of_mem_splitNul hp] at hnul
        cases hnul
    | false =>
        refine decide_eq_false (not_not.mpr (List.mem_flatMap.mpr ⟨k, hjs.mem_iff.mpr hk, ?_⟩))
        rw [splitNul_of_not_hasNul hnul]
        exact List.mem_singleton_self k
  rw [keys_eachOrdered, hhinted, hrest]
  split
  next => rfl
  next hge =>
    -- no key has the separator, or there would be fewer that have not
    have hlen := ((hjs.filter fun k => !Node.hasNul k).append_right
      ((keys m).filter Node.hasNul)).trans
      (List.perm_append_comm.trans (List.filter_append_perm _ _)) |>.length_eq
    rw [List.length_append, length_keys] at hlen
    rw [List.eq_nil_of_length_eq_zero (l := (keys m).filter Node.hasNul) (by omega),
      List.append_nil]

theorem perm_of_not_piece {m : List (String × Node)} {js : List String} (hjs : js.Perm (keys m))
    (hno : ∀ k ∈ keys m, Node.hasNul k = true → ∀ p ∈ Node.splitNul k, p ∉ keys m) :
    (keys (eachOrdered m (some (js.flatMap Node.splitNul)))).Perm (keys m) := by
  rw [keys_of_not_piece hjs hno]
  exact ((hjs.filter _).append_right _).trans
    (List.perm_append_comm.trans (List.filter_append_perm _ _))

/-- In a sorted list what holds of elements as they stand holds of smaller and larger ones. -/
theorem of_sorted {l : List String} {R : String → String → Prop} (hl : l.Pairwise (· < ·))
    (hR : l.Pairwise R) {x y : String} (hx : x ∈ l) (hy : y ∈ l) (hxy : x < y) : R x y :=
  List.Pairwise.forall_of_forall_of_flip (R := fun x y => x < y → R x y)
    (fun _ _ h => absurd h (lt_irrefl _)) (hR.imp fun {x y} hxy (_ : x < y) => hxy)
    (hl.imp fun hlt hlt' => absurd hlt hlt'.asymm) hx hy hxy

theorem hasNul_of_arrayIndex {k : String} (h : ∃ n, ArrayIndex k n) : Node.hasNul k = false := by
  obtain ⟨n, -, rfl⟩ := h
  rw [Bool.eq_false_iff]
  intro hnul
  have hall : ∀ c ∈ (toString n).toList, c.isDigit = true := by
    rw [Nat.toString_eq_repr, Nat.toList_repr]
    exact fun c hc => Nat.isDigit_of_mem_toDigits (by decide) (by decide) hc
  exact absurd (hall _ (of_decide_eq_true hnul)) (by decide)

/-- The visited keys are in JavaScript's order exactly if none that is no index sorts after one with
the separator. -/
theorem jsOrder_split_iff {K : List String} (hK : K.Pairwise (· < ·)) :
    JsOrder K ((Node.jsKeys K).filter (fun k => !Node.hasNul k) ++ K.filter Node.hasNul) ↔
      ∀ k ∈ K, Node.hasNul k = true → ∀ p ∈ K, k < p → Node.hasNul p = false →
        ∃ n, ArrayIndex p n := by
  have hnodup : K.Nodup := hK.imp ne_of_lt
  obtain ⟨indices, hjs, hidx, hasc⟩ := order_jsKeys K
  have hothers : ((K.filter fun k => ¬ ∃ n, ArrayIndex k n).filter Node.hasNul) =
      K.filter Node.hasNul := by
    rw [List.filter_filter]
    refine List.filter_congr fun k _ => ?_
    cases hnul : Node.hasNul k with
    | false => simp
    | true =>
        have hno : ¬ ∃ n, ArrayIndex k n := fun h => by simp [hasNul_of_arrayIndex h] at hnul
        simp [hno]
  constructor
  · rintro ⟨indices', horder, -, -⟩ k hk hknul p hp hkp hpnul
    by_contra hnot
    -- the keys with the separator are last, so none is before `p`
    have hlast : ((Node.jsKeys K).filter (fun k => !Node.hasNul k) ++ K.filter Node.hasNul).Pairwise
        fun x y => Node.hasNul x = true → Node.hasNul y = true := by
      refine List.pairwise_append.mpr ⟨?_, ?_, fun x hx y hy hxnul => (List.mem_filter.mp hy).2⟩
      · refine List.pairwise_of_forall_mem_list fun x hx y _ hxnul => ?_
        have := (List.mem_filter.mp hx).2
        simp [hxnul] at this
      · exact List.pairwise_of_forall_mem_list fun x _ y hy _ => (List.mem_filter.mp hy).2
    rw [horder, eraseDups_eq_self hnodup] at hlast
    have hkmem : k ∈ K.filter fun k => ¬ ∃ n, ArrayIndex k n := by
      refine List.mem_filter.mpr ⟨hk, decide_eq_true fun h => ?_⟩
      simp [hasNul_of_arrayIndex h] at hknul
    have hpmem : p ∈ K.filter fun k => ¬ ∃ n, ArrayIndex k n :=
      List.mem_filter.mpr ⟨hp, decide_eq_true hnot⟩
    have := of_sorted (hK.filter _) (List.pairwise_append.mp hlast).2.1 hkmem hpmem hkp hknul
    simp [hpnul] at this
  · intro h
    refine ⟨indices, ?_, hidx, hasc hnodup⟩
    have hnone : indices.filter (fun k => !Node.hasNul k) = indices :=
      List.filter_eq_self.mpr fun k hk => by rw [hasNul_of_arrayIndex (hidx k hk)]; rfl
    have hsplit : (K.filter fun k => ¬ ∃ n, ArrayIndex k n).Pairwise
        fun x y => (!Node.hasNul y) = true → (!Node.hasNul x) = true := by
      refine (hK.filter _).imp_of_mem fun {x y} hx hy hlt hynul => ?_
      obtain ⟨hx, -⟩ := List.mem_filter.mp hx
      obtain ⟨hy, hyidx⟩ := List.mem_filter.mp hy
      rw [Bool.not_eq_true'] at hynul ⊢
      by_contra hxnul
      exact of_decide_eq_true hyidx (h x hx (Bool.not_eq_false _ ▸ hxnul) y hy hlt hynul)
    have happend := filter_append_filter hsplit
    simp only [Bool.not_not] at happend
    rw [hothers] at happend
    rw [hjs, List.filter_append, hnone, List.append_assoc, happend, eraseDups_eq_self hnodup]

/-- Such keys are not sorted, where an index is not where it sorts. -/
theorem not_sorted_split {K : List String} (hmoved : Moved K)
    (hs : ((Node.jsKeys K).filter (fun k => !Node.hasNul k) ++ K.filter Node.hasNul).Pairwise
      (· < ·)) : False := by
  obtain ⟨a, ha, b, hb, hlt, m, hm, hbefore⟩ := hmoved
  have hmem : ∀ k ∈ K, Node.hasNul k = false →
      k ∈ (Node.jsKeys K).filter fun k => !Node.hasNul k := fun k hk hnul =>
    List.mem_filter.mpr ⟨(jsKeys_perm K).mem_iff.mpr hk, by rw [hnul]; rfl⟩
  have ha' := hmem a ha (hasNul_of_arrayIndex ⟨m, hm⟩)
  obtain ⟨hfirst, -, hcross⟩ := List.pairwise_append.mp hs
  cases hbnul : Node.hasNul b with
  | true => exact (hcross a ha' b (List.mem_filter.mpr ⟨hb, hbnul⟩)).asymm hlt
  | false =>
      have hbefore' : (Node.jsKeys K).Pairwise fun x y => Node.isArrayIndex y = true →
          Node.isArrayIndex x = true ∧ Node.decimal x ≤ Node.decimal y := by
        rw [Node.jsKeys]
        refine List.pairwise_append.mpr ⟨?_, ?_, fun x hx y hy hidx => ?_⟩
        · refine (pairwise_indices K).imp_of_mem fun {x y} hx _ hle _ => ⟨?_, hle⟩
          exact (List.mem_filter.mp (List.mem_mergeSort.mp hx)).2
        · refine List.pairwise_of_forall_mem_list fun x _ y hy hidx => ?_
          have := (List.mem_filter.mp hy).2
          simp [hidx] at this
        · have := (List.mem_filter.mp hy).2
          simp [hidx] at this
      obtain ⟨hbidx, hle⟩ := of_sorted hfirst (hbefore'.filter _) (hmem b hb hbnul) ha' hlt
        (isArrayIndex_iff.mpr ⟨m, hm⟩)
      obtain ⟨n, hn⟩ := isArrayIndex_iff.mp hbidx
      rw [hm.decimal, hn.decimal] at hle
      exact absurd (hbefore n hn) (not_lt.mpr hle)

/-- With a collision, a key is visited twice. -/
theorem not_nodup_of_piece {m : List (String × Node)} {js : List String}
    (hjs : js.Perm (keys m)) {k p : String} (hk : k ∈ keys m) (hnul : Node.hasNul k = true)
    (hp : p ∈ Node.splitNul k) (hpk : p ∈ keys m) :
    ¬ (keys (eachOrdered m (some (js.flatMap Node.splitNul)))).Nodup := by
  intro hnodup
  have hhinted : ((js.flatMap Node.splitNul).filter (· ∈ keys m)).Nodup := by
    rw [keys_eachOrdered] at hnodup
    split at hnodup
    · exact (List.nodup_append.mp hnodup).1
    · exact hnodup
  rw [List.filter_flatMap, List.nodup_flatMap] at hhinted
  have hne : k ≠ p := by
    rintro rfl
    rw [hasNul_of_mem_splitNul hp] at hnul
    cases hnul
  have hpp : p ∈ Node.splitNul p := by
    rw [splitNul_of_not_hasNul (hasNul_of_mem_splitNul hp)]
    exact List.mem_singleton_self p
  have hsymm : Std.Symm fun a b => List.Disjoint ((Node.splitNul a).filter (· ∈ keys m))
      ((Node.splitNul b).filter (· ∈ keys m)) :=
    ⟨fun _ _ h _ hx hx' => h hx' hx⟩
  have hdisj := hhinted.2.forall (hjs.mem_iff.mpr hk) (hjs.mem_iff.mpr hpk) hne
  exact hdisj (List.mem_filter.mpr ⟨hp, by simpa using hpk⟩)
    (List.mem_filter.mpr ⟨hpp, by simpa using hpk⟩)

/-! ### The own keys -/

/-- `each_ordered` on a tree. -/
def Node.visited : Node → List (String × Node)
  | .map entries order => eachOrdered entries order
  | _ => []

theorem moved_congr {l l' : List String} (h : ∀ k, k ∈ l ↔ k ∈ l') : Moved l ↔ Moved l' := by
  simp only [Moved, h]

/-- An object without a hint is in its keys' order, if none of them has the separator. -/
theorem Reads.own_of_no_hint {text : List (String × Node)} {s : Node.Visit} (h : Reads text s)
    (hkeys : s.skip = true ∨ keys s.entries = Node.jsKeys (keys text).eraseDups) :
    OwnKeys text (eachOrdered s.entries none) ∧ ¬ Collides text := by
  rcases hkeys with hskip | hkeys
  · have horder : s.order ≠ none := fun hnone => by simp [(h.inOrder hnone).2] at hskip
    obtain ⟨o, ho⟩ := Option.ne_none_iff_exists'.mp horder
    obtain ⟨hnot, -, -, hany⟩ := h.outOfOrder o ho
    rw [hskip] at hany
    exact ⟨⟨h.sorted.nodup, h.last (List.Perm.refl _),
      .inr ⟨List.any_eq_true.mp hany.symm, h.sorted⟩⟩, fun hc => hnot hc.sorted⟩
  · refine ⟨h.ownKeys hkeys, fun hc => ?_⟩
    have heq := h.keys_eq hc.sorted
    refine not_moved_of_jsKeys (l := (keys text).eraseDups) (heq ▸ h.sorted)
      (hkeys.symm.trans heq) ?_
    exact (moved_congr fun k => List.mem_eraseDups).mpr hc.moved

/-- The hint of keys without the separator is their order. -/
theorem Reads.keys_of_no_nul {text : List (String × Node)} {s : Node.Visit} (h : Reads text s)
    (hnul : ∀ k ∈ keys text, Node.hasNul k = false) :
    keys (eachOrdered s.entries
      (some ((Node.jsKeys (keys text).eraseDups).flatMap Node.splitNul))) =
        Node.jsKeys (keys text).eraseDups := by
  have hjs := (jsKeys_perm (keys text).eraseDups).trans h.keys_perm.symm
  have hpieces : (Node.jsKeys (keys text).eraseDups).flatMap Node.splitNul =
      Node.jsKeys (keys text).eraseDups :=
    flatMap_splitNul fun k hk => hnul k (h.mem_keys.mp (hjs.mem_iff.mp hk))
  have hall : (Node.jsKeys (keys text).eraseDups).filter (· ∈ keys s.entries) =
      Node.jsKeys (keys text).eraseDups :=
    List.filter_eq_self.mpr fun k hk => decide_eq_true (hjs.mem_iff.mp hk)
  rw [keys_eachOrdered, hpieces, hall, if_neg]
  rw [hjs.length_eq, length_keys]
  exact lt_irrefl _

theorem Reads.own_of_no_nul {text : List (String × Node)} {s : Node.Visit} (h : Reads text s)
    (hnul : ∀ k ∈ keys text, Node.hasNul k = false) :
    OwnKeys text (eachOrdered s.entries
      (some ((Node.jsKeys (keys text).eraseDups).flatMap Node.splitNul))) :=
  h.ownKeys (h.keys_of_no_nul hnul)

/-- The hint of keys that came sorted. -/
theorem Reads.own_of_pieces {text : List (String × Node)} {s : Node.Visit} (h : Reads text s)
    (hle : (keys text).Pairwise (· ≤ ·))
    (hkeys : keys s.entries ≠ Node.jsKeys (keys text).eraseDups) :
    OwnKeys text (eachOrdered s.entries
      (some ((Node.jsKeys (keys text).eraseDups).flatMap Node.splitNul))) ↔ ¬ Collides text := by
  have hjs := (jsKeys_perm (keys text).eraseDups).trans h.keys_perm.symm
  have heq := h.keys_eq hle
  have hmoved : Moved (keys text) := by
    rw [← moved_congr fun k => List.mem_eraseDups]
    by_contra hnot
    exact hkeys (heq.trans (jsKeys_eq_self (heq ▸ h.sorted) hnot).symm)
  have hnotPiece : (∀ k ∈ keys s.entries, Node.hasNul k = true → ∀ p ∈ Node.splitNul k,
      p ∉ keys s.entries) → (OwnKeys text (eachOrdered s.entries
        (some ((Node.jsKeys (keys text).eraseDups).flatMap Node.splitNul))) ↔
      ∀ k ∈ keys s.entries, Node.hasNul k = true → ∀ p ∈ keys s.entries, k < p →
        Node.hasNul p = false → ∃ n, ArrayIndex p n) := by
    intro hno
    have hsplit := keys_of_not_piece hjs hno
    have hp := perm_of_not_piece hjs hno
    have hjsOrder : JsOrder (keys text) = JsOrder (keys s.entries) := by
      funext ks
      rw [JsOrder, JsOrder, heq, eraseDups_eq_self (nodup_eraseDups (keys text))]
    rw [← jsOrder_split_iff h.sorted]
    constructor
    · intro hown
      have horder := hown.order
      rw [Sorted, hjsOrder, hsplit, ← heq] at horder
      refine horder.resolve_right fun hsorted => not_sorted_split ?_ hsorted.2
      exact (moved_congr fun k => h.mem_keys).mpr hmoved
    · intro hjsorder
      refine ⟨hp.nodup_iff.mpr h.sorted.nodup, h.last hp, .inl ?_⟩
      rwa [hjsOrder, hsplit, ← heq]
  constructor
  · rintro hown ⟨-, -, k, hk, hknul, hcrossed⟩
    have hpiece : ∀ k ∈ keys s.entries, Node.hasNul k = true → ∀ p ∈ Node.splitNul k,
        p ∉ keys s.entries := fun k hk hknul p hp hpk =>
      not_nodup_of_piece hjs hk hknul hp hpk hown.once
    rcases hcrossed with ⟨p, hp, hpk⟩ | ⟨p, hp, hkp, hpnul, hnot⟩
    · exact hpiece k (h.mem_keys.mpr hk) hknul p hp (h.mem_keys.mpr hpk)
    · exact hnot ((hnotPiece hpiece).mp hown k (h.mem_keys.mpr hk) hknul p (h.mem_keys.mpr hp) hkp
        hpnul)
  · intro hno
    have hcross : ¬ Crossed (keys text) := fun hc => hno ⟨hle, hmoved, hc⟩
    refine (hnotPiece fun k hk hknul p hp hpk => hcross ?_).mpr
      fun k hk hknul p hp hkp hpnul => ?_
    · exact ⟨k, h.mem_keys.mp hk, hknul, .inl ⟨p, hp, h.mem_keys.mp hpk⟩⟩
    · by_contra hnot
      exact hcross ⟨k, h.mem_keys.mp hk, hknul, .inr ⟨p, h.mem_keys.mp hp, hkp, hpnul, hnot⟩⟩

/-- What is visited of an object that was read, for its entries. -/
theorem ownKeys_visitMap_iff (text : List (String × Node)) :
    OwnKeys text (Node.visitMap text).visited ↔ ¬ Collides text := by
  have h := reads_foldl text
  rw [Node.visitMap, Node.Visit.finish]
  generalize text.foldl Node.Visit.entry ⟨[], none, 0, false⟩ = s at h ⊢
  rw [Node.visited]
  rcases h.hint with ⟨hnone, hkeys⟩ | ⟨hsome, hskip, hkeys⟩
  · rw [hnone]
    obtain ⟨hown, hno⟩ := h.own_of_no_hint hkeys
    exact ⟨fun _ => hno, fun _ => hown⟩
  · rw [hsome]
    by_cases hnul : ∀ k ∈ keys text, Node.hasNul k = false
    · refine ⟨fun _ hc => ?_, fun _ => h.own_of_no_nul hnul⟩
      obtain ⟨k, hk, hknul, -⟩ := hc.crossed
      rw [hnul k hk] at hknul
      cases hknul
    · cases hs : s.order with
      | some o => exact absurd (h.no_nul hs hskip) hnul
      | none => exact h.own_of_pieces (h.inOrder hs).1 (hkeys.resolve_right hnul)

/-- **The order of an object's keys**: `each_ordered` of what is read of an object visits every key
once, with the value written last, in JavaScript's order, or in the sorted one where a key has the
separator; exactly unless such a key collides with another. -/
theorem each_ordered_own_keys (object : List (String × Json)) (n : Node)
    (h : Node.ofJson (.obj object) = some n) :
    ∃ text, Node.ofEntries object = some text ∧ (OwnKeys text n.visited ↔ ¬ Collides text) := by
  rw [Node.ofJson] at h
  obtain ⟨text, htext, rfl⟩ := Option.map_eq_some_iff.mp h
  exact ⟨text, htext, ownKeys_visitMap_iff text⟩

theorem each_ordered_own_keys_plain :
    ∃ text, Node.ofEntries [("b", .null), ("a", .bool true), ("b", .bool false)] = some text ∧
      (OwnKeys text (Node.visitMap
        [("b", .null), ("a", .bool true), ("b", .bool false)]).visited ↔ ¬ Collides text) :=
  each_ordered_own_keys _ _ rfl

/-- `{"10":null,"2":null,"a":null,"a\u0000b":null}`. -/
def nulText : List (String × Node) :=
  [("10", .null), ("2", .null), ("a", .null), ("a\x00b", .null)]

/-- Of the object `nulText`, the key `a` is visited twice. -/
theorem each_ordered_repeats : ¬ OwnKeys nulText (Node.visitMap nulText).visited := by
  refine fun hown => (ownKeys_visitMap_iff nulText).mp hown ⟨?_, ?_, ?_⟩
  · decide +kernel
  · refine ⟨"2", by decide, "10", by decide, by decide +kernel, 2, ⟨by decide, rfl⟩, fun n hn => ?_⟩
    rw [← hn.decimal]
    decide
  · exact ⟨"a\x00b", by decide, by decide, .inl ⟨"a", by decide, by decide⟩⟩

end Brust.Plan
