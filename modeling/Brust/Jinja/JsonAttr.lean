import Brust.Jinja.SpreadAttrs
import Brust.Plan.ReadBack

/-!
# Jinja — JSON in an attribute

`write_node` writes a tree's JSON into an attribute in one pass.  It writes the escape of the
ordered text (`writeNode_eq`), which unescapes to that text, so that a tree is read back from the
attribute, with the order of its keys exactly where reading keeps it (`json_attr_faithful`); array
indices that a map lists as it sorts them come back as JavaScript lists them (`json_attr_order`).
-/

namespace Brust.Jinja

open Paint (literal Numbers)
open Plan (Node Number eachOrdered)
open SortedMap (keys)

/-! ### Writing -/

/-- One character of `write_json_attr_str`. -/
def attrEscape (c : Char) : List Char :=
  if c = '"' then literal "\\&quot;"
  else if c = '\\' then literal "\\\\"
  else if c = '&' then literal "&amp;"
  else if c = '<' then literal "&lt;"
  else if c = '>' then literal "&gt;"
  else if c = '\'' then literal "&#39;"
  else if c = '\x08' then literal "\\b"
  else if c = '\x09' then literal "\\t"
  else if c = '\x0a' then literal "\\n"
  else if c = '\x0c' then literal "\\f"
  else if c = '\x0d' then literal "\\r"
  else if c.toNat < 0x20 then
    literal "\\u00" ++ [hexDigit (c.toNat / 16), hexDigit (c.toNat % 16)]
  else [c]

def writeJsonAttrStr (s : List Char) : List Char :=
  literal "&quot;" ++ s.flatMap attrEscape ++ literal "&quot;"

/-- `write_map`, of the entries with their values written. -/
def writeMap (entries : List (String × List Char)) (order : Option (List String))
    (hidden : List String) : List Char :=
  '{' :: Node.joined ',' (((eachOrdered entries order).filter fun e => e.1 ∉ hidden).map fun e =>
    writeJsonAttrStr e.1.toList ++ ':' :: e.2) ++ ['}']

section
variable (ryu : Float → String)

mutual

def writeNode : Node → List Char
  | .null => literal "null"
  | .bool b => if b then literal "true" else literal "false"
  | .num n => Node.numberText ryu n
  | .str s => writeJsonAttrStr s.toList
  | .arr xs => '[' :: Node.joined ',' (writeItems xs) ++ [']']
  | .map entries order => writeMap (writeEntries entries) order []

def writeItems : List Node → List (List Char)
  | [] => []
  | x :: xs => writeNode x :: writeItems xs

def writeEntries : List (String × Node) → List (String × List Char)
  | [] => []
  | (k, x) :: rest => (k, writeNode x) :: writeEntries rest

end

end

/-- The characters behind the references that `escape_text` writes. -/
def unescape : List Char → List Char
  | '&' :: 'a' :: 'm' :: 'p' :: ';' :: s => '&' :: unescape s
  | '&' :: 'l' :: 't' :: ';' :: s => '<' :: unescape s
  | '&' :: 'g' :: 't' :: ';' :: s => '>' :: unescape s
  | '&' :: 'q' :: 'u' :: 'o' :: 't' :: ';' :: s => '"' :: unescape s
  | '&' :: '#' :: '3' :: '9' :: ';' :: s => '\'' :: unescape s
  | c :: s => c :: unescape s
  | [] => []

/-! ### The escape -/

theorem escapeText_append (s t : List Char) : escapeText (s ++ t) = escapeText s ++ escapeText t :=
  List.flatMap_append

theorem escapeText_cons (c : Char) (s : List Char) :
    escapeText (c :: s) = escapeText [c] ++ escapeText s := by
  rw [← escapeText_append]
  rfl

/-- A character that needs no reference. -/
def Clear (c : Char) : Prop := c ∉ ['&', '<', '>', '"', '\'']

instance (c : Char) : Decidable (Clear c) := inferInstanceAs (Decidable (c ∉ _))

theorem escapeText_clear {s : List Char} (h : ∀ c ∈ s, Clear c) : escapeText s = s := by
  induction s with
  | nil => rfl
  | cons c s ih =>
      have hc := h c List.mem_cons_self
      simp only [Clear, List.mem_cons, List.not_mem_nil, or_false, not_or] at hc
      rw [escapeText_cons, ih fun d hd => h d (List.mem_cons_of_mem _ hd), escapeText,
        List.flatMap_singleton, if_neg hc.1, if_neg hc.2.1, if_neg hc.2.2.1, if_neg hc.2.2.2.1,
        if_neg hc.2.2.2.2]
      rfl

theorem unescape_escaped (c : Char) (s : List Char) :
    unescape (escapeText [c] ++ s) = c :: unescape s := by
  rw [escapeText, List.flatMap_singleton]
  split
  · next h => rw [h]; rfl
  split
  · next h => rw [h]; rfl
  split
  · next h => rw [h]; rfl
  split
  · next h => rw [h]; rfl
  split
  · next h => rw [h]; rfl
  · next hamp _ _ _ _ =>
    rw [List.singleton_append, unescape.eq_6]
    all_goals exact fun _ h _ => hamp h

/-- **Unescaping the escape.** -/
theorem unescape_escapeText (s : List Char) : unescape (escapeText s) = s := by
  induction s with
  | nil => rfl
  | cons c s ih => rw [escapeText_cons, unescape_escaped, ih]

/-! ### The writer -/

theorem hexDigit_clear {n : ℕ} (h : n < 16) : Clear (hexDigit n) := by
  interval_cases n <;> decide

/-- Both escapes of a character at once. -/
theorem attrEscape_eq (c : Char) : attrEscape c = escapeText (jsonEscape c) := by
  by_cases hquot : c = '"'
  · rw [hquot]; decide
  by_cases hback : c = '\\'
  · rw [hback]; decide
  by_cases hamp : c = '&'
  · rw [hamp]; decide
  by_cases hlt : c = '<'
  · rw [hlt]; decide
  by_cases hgt : c = '>'
  · rw [hgt]; decide
  by_cases hapos : c = '\''
  · rw [hapos]; decide
  by_cases hb : c = '\x08'
  · rw [hb]; decide
  by_cases ht : c = '\x09'
  · rw [ht]; decide
  by_cases hn : c = '\x0a'
  · rw [hn]; decide
  by_cases hf : c = '\x0c'
  · rw [hf]; decide
  by_cases hr : c = '\x0d'
  · rw [hr]; decide
  rw [attrEscape, if_neg hquot, if_neg hback, if_neg hamp, if_neg hlt, if_neg hgt, if_neg hapos,
    if_neg hb, if_neg ht, if_neg hn, if_neg hf, if_neg hr]
  have hshort : shortEscape c = none := by
    rw [shortEscape, if_neg hquot, if_neg hback, if_neg hb, if_neg ht, if_neg hn, if_neg hf,
      if_neg hr]
  simp only [jsonEscape, hshort]
  split
  · next hctl =>
    have hclear : ∀ d ∈ literal "\\u00" ++ [hexDigit (c.toNat / 16), hexDigit (c.toNat % 16)],
        Clear d := by
      intro d hd
      rcases List.mem_append.mp hd with hd | hd
      · have hall : ∀ d ∈ literal "\\u00", Clear d := forall_mem_of_all (by decide)
        exact hall d hd
      · simp only [List.mem_cons, List.not_mem_nil, or_false] at hd
        rcases hd with rfl | rfl
        · exact hexDigit_clear (by omega)
        · exact hexDigit_clear (by omega)
    exact (escapeText_clear hclear).symm
  · refine (escapeText_clear fun d hd => ?_).symm
    rw [List.mem_singleton.mp hd, Clear]
    simp [hamp, hlt, hgt, hquot, hapos]

theorem writeJsonAttrStr_eq (s : List Char) : writeJsonAttrStr s = escapeText (jsonString s) := by
  have hbody : s.flatMap attrEscape = escapeText (s.flatMap jsonEscape) := by
    rw [escapeText, List.flatMap_assoc]
    exact List.flatMap_congr fun c _ => attrEscape_eq c
  rw [writeJsonAttrStr, hbody, jsonString, escapeText_append, escapeText_cons]
  rfl

theorem escapeText_joined (l : List (List Char)) :
    escapeText (Node.joined ',' l) = Node.joined ',' (l.map escapeText) := by
  cases l with
  | nil => rfl
  | cons x xs =>
      have htail : escapeText (xs.flatMap (',' :: ·)) = (xs.map escapeText).flatMap (',' :: ·) := by
        induction xs with
        | nil => rfl
        | cons y ys ih =>
            rw [List.flatMap_cons, List.map_cons, List.flatMap_cons, escapeText_append, ih,
              escapeText_cons]
            rfl
      rw [Node.joined, JsonValue.intercalate_cons, List.map_cons,
        JsonValue.intercalate_cons, escapeText_append, htail]

theorem numeralChar_clear {c : Char} (h : JsonValue.numeralChar c = true) : Clear c := by
  intro hc
  have hnone : ∀ c ∈ ['&', '<', '>', '"', '\''], JsonValue.numeralChar c = false :=
    forall_mem_of_all (by decide)
  rw [hnone c hc] at h
  cases h

/-- An object between its braces. -/
theorem escapeText_braces (a b : Char) (ha : Clear a) (hb : Clear b) (s : List Char) :
    escapeText (a :: s ++ [b]) = a :: escapeText s ++ [b] := by
  have hone : ∀ c, Clear c → escapeText [c] = [c] := fun c hc =>
    escapeText_clear fun d hd => List.mem_singleton.mp hd ▸ hc
  rw [escapeText_append, escapeText_cons, hone a ha, hone b hb]
  rfl

/-- The members of an object, written as the escape of their texts. -/
theorem writeMap_eq (entries : List (String × List Char)) (order : Option (List String)) :
    writeMap (entries.map fun e => (e.1, escapeText e.2)) order [] =
      escapeText (Node.objectText (eachOrdered entries order)) := by
  have hfilter : ∀ l : List (String × List Char),
    (l.filter fun e => e.1 ∉ ([] : List String)) = l :=
    fun l => List.filter_eq_self.mpr fun e _ => by simp
  rw [writeMap, hfilter, Plan.eachOrdered_map, Node.objectText, escapeText_braces,
    escapeText_joined,
    List.map_map, List.map_map]
  · congr 4
    funext e
    simp only [Function.comp_apply]
    rw [writeJsonAttrStr_eq, escapeText_append, escapeText_cons]
    rfl
  · decide
  · decide

section
variable {ryu : Float → String}

mutual

/-- **The fused writer is the escape of the ordered text.** -/
theorem writeNode_eq (hryu : ∀ f, JsonValue.Numeral (ryu f).toList) :
    ∀ n : Node, writeNode ryu n = escapeText (n.text ryu true)
  | .null => rfl
  | .bool true => rfl
  | .bool false => rfl
  | .num n => by
      rw [writeNode, Node.text, escapeText_clear fun c hc =>
        numeralChar_clear ((Plan.numeral_numberText hryu n).2 c hc)]
  | .str s => writeJsonAttrStr_eq s.toList
  | .arr xs => by
      rw [writeNode, Node.text, escapeText_braces _ _ (by decide) (by decide), escapeText_joined,
        writeItems_eq hryu xs]
  | .map entries order => by
      rw [writeNode, Node.text, if_pos rfl, ← writeMap_eq, writeEntries_eq hryu entries]

theorem writeItems_eq (hryu : ∀ f, JsonValue.Numeral (ryu f).toList) :
    ∀ xs : List Node, writeItems ryu xs = (Node.itemTexts ryu true xs).map escapeText
  | [] => rfl
  | x :: xs => by
      rw [writeItems, Node.itemTexts, List.map_cons, writeNode_eq hryu x, writeItems_eq hryu xs]

theorem writeEntries_eq (hryu : ∀ f, JsonValue.Numeral (ryu f).toList) :
    ∀ entries : List (String × Node), writeEntries ryu entries =
      (Node.entryTexts ryu true entries).map fun e => (e.1, escapeText e.2)
  | [] => rfl
  | (k, x) :: rest => by
      rw [writeEntries, Node.entryTexts, List.map_cons, writeNode_eq hryu x,
        writeEntries_eq hryu rest]

end

end

/-! ### Reading an attribute -/

/-- **JSON in an attribute.** What is written of a tree is the escape of its ordered text, has no
quote and no bracket of a tag, and unescapes to that text; and where every object visits each of
its keys once and every number is read as it was, the tree is read back with all its values, and
with the order of its keys exactly where reading keeps it. -/
theorem json_attr_faithful {ryu : Float → String} (hryu : ∀ f, JsonValue.Numeral (ryu f).toList)
    (readNumber : List Char → Option Number) (n : Node) :
    writeNode ryu n = escapeText (n.text ryu true) ∧
      (∀ c ∈ writeNode ryu n, c ∉ ['"', '\'', '<', '>']) ∧
      unescape (writeNode ryu n) = n.text ryu true ∧
      (n.Once → n.NumbersRead readNumber ryu →
        ∃ n', Node.ofText readNumber (unescape (writeNode ryu n)) = some n' ∧
          (n'.Alike n ↔ n.InKeptOrder)) := by
  have hescape := writeNode_eq hryu n
  have hback : unescape (writeNode ryu n) = n.text ryu true := by
    rw [hescape, unescape_escapeText]
  refine ⟨hescape, ?_, hback, fun honce hnumbers => ?_⟩
  · rw [hescape]
    exact escapeText_quotes _
  · refine ⟨n.reread, ?_, Plan.alike_reread_iff honce⟩
    rw [hback]
    exact Plan.ofText_ordered hryu hnumbers

section Cases

/-- A map as the server builds it, with the keys of two elements of an array. -/
def indexed : Node := .map [("10", .null), ("2", .null)] none

/-- The keys of `indexed` come back as JavaScript lists them, not as the map does. -/
theorem json_attr_order :
    indexed.Once ∧ ∃ n', Node.ofText (fun _ => none) (unescape (writeNode (fun _ => "0") indexed)) =
      some n' ∧ ¬ n'.Alike indexed := by
  have hnumeral : JsonValue.Numeral "0".toList := ⟨by decide, forall_mem_of_all (by decide)⟩
  have hzero : ∀ f : Float, JsonValue.Numeral ((fun _ => "0") f : String).toList :=
    fun _ => hnumeral
  have honce : indexed.Once := by
    refine ⟨?_, List.Perm.refl _, trivial, trivial, trivial⟩
    unfold SortedMap.Sorted
    decide
  have hback : unescape (writeNode (fun _ => "0") indexed) = indexed.text (fun _ => "0") true := by
    rw [writeNode_eq hzero, unescape_escapeText]
  refine ⟨honce, indexed.reread, ?_, ?_⟩
  · rw [hback]
    exact Plan.ofText_ordered hzero ⟨trivial, trivial, trivial⟩
  · rw [Plan.alike_reread_iff honce]
    rintro ⟨⟨hjs, -⟩, -⟩
    refine Plan.not_moved_of_jsKeys (by decide +kernel) hjs ?_
    refine ⟨"2", by decide, "10", by decide, by decide +kernel, 2, ⟨by decide, rfl⟩, fun n hn => ?_⟩
    rw [← hn.decimal]
    decide

/-- A tree that was read in another order than the sorted one. -/
def hinted : Node := .map [("a", .str "<&\n"), ("b", .num (.posInt 1))] (some ["b", "a"])

theorem json_attr_faithful_hinted :
    writeNode (fun _ => "0") hinted =
      literal "\x7b&quot;b&quot;:1,&quot;a&quot;:&quot;&lt;&amp;\\n&quot;\x7d" ∧
      ∃ n', Node.ofText (fun t => if t = ['1'] then some (.posInt 1) else none)
        (unescape (writeNode (fun _ => "0") hinted)) = some n' ∧ n'.Alike hinted := by
  have hnumeral : JsonValue.Numeral "0".toList := ⟨by decide, forall_mem_of_all (by decide)⟩
  have hzero : ∀ f : Float, JsonValue.Numeral ((fun _ => "0") f : String).toList :=
    fun _ => hnumeral
  obtain ⟨-, -, -, hread⟩ := json_attr_faithful hzero
    (fun t => if t = ['1'] then some (.posInt 1) else none) hinted
  have honce : hinted.Once := by
    refine ⟨?_, ?_, trivial, trivial, trivial⟩
    · unfold SortedMap.Sorted
      decide
    · decide
  obtain ⟨n', hn', hiff⟩ := hread honce ⟨trivial, rfl, trivial⟩
  refine ⟨by rw [literal, String.toList_ofList]; decide +kernel, n', hn',
    hiff.mpr ⟨⟨?_, .inr ?_⟩, trivial, trivial, trivial⟩⟩
  · exact Plan.jsKeys_of_no_index (by decide)
  · decide

end Cases

end Brust.Jinja
