import Brust.Support.JsonString
import Brust.Support.SortedMap
import Mathlib.Data.String.Basic

/-!
# Plan — the render tree

What a worker's response is read into, what the pipeline merges and reads, and what a job's inputs
are.  A map is sorted by its keys; a map that was read from a JSON text in another order keeps that
order as a hint, which only the ordered text of a tree reads.
-/

namespace Brust.Plan

/-- A `serde_json::Number`. -/
inductive Number where
  | posInt (n : UInt64)
  | negInt (n : Int64)
  | float (f : Float)

def Number.asF64 : Number → Float
  | .posInt n => n.toFloat
  | .negInt n => n.toFloat
  | .float f => f

/-- A JSON text as the reader walks it, the entries of an object in the order of the text.
`unreadable` is a value the grammar accepts and no typed read does: a number out of range, a lone
surrogate, a nesting past the reader's limit. -/
inductive Json where
  | null
  | bool (b : Bool)
  | num (n : Number)
  | str (s : String)
  | arr (xs : List Json)
  | obj (entries : List (String × Json))
  | unreadable

/-- `Node`, with a `CtxMap` written out: the sorted entries, and the order hint as the pieces it
splits into. -/
inductive Node where
  | null
  | bool (b : Bool)
  | num (n : Number)
  | str (s : String)
  | arr (xs : List Node)
  | map (entries : List (String × Node)) (order : Option (List String))

abbrev MapInner := List (String × Node)

/-- `CtxMap::each_ordered`: the hinted keys that the map holds, then the others. -/
def eachOrdered {α : Type} (m : List (String × α)) : Option (List String) → List (String × α)
  | none => m
  | some order =>
    let hinted := order.filterMap fun k => (m.lookup k).map (k, ·)
    if hinted.length < m.length then hinted ++ m.filter fun e => e.1 ∉ order else hinted

namespace Node

def get (key : String) : Node → Option Node
  | .map entries _ => entries.lookup key
  | _ => none

def index (i : ℕ) : Node → Option Node
  | .arr xs => xs[i]?
  | _ => none

/-- The length of a list, and 0 of anything else. -/
def rowCount : Node → ℕ
  | .arr xs => xs.length
  | _ => 0

/-! ### Reading a tree -/

def splitNul (k : String) : List String := (k.toList.splitOn '\x00').map String.ofList

def hasNul (k : String) : Bool := '\x00' ∈ k.toList

/-- The number a text of digits spells. -/
def decimal (k : String) : ℕ := Nat.ofDigitChars 10 k.toList 0

/-- `is_array_index`. -/
def isArrayIndex (k : String) : Bool :=
  k == "0" || (k.toList ≠ [] && k.toList.head? ≠ some '0' && k.toList.length ≤ 10 &&
    k.toList.all Char.isDigit && decimal k < 2 ^ 32 - 1)

/-- The state of `visit_map`: the entries so far, the order of the text once it is not the sorted
one, how many keys that order was given, and whether a key holds the separator. -/
structure Visit where
  entries : MapInner
  order : Option (List String)
  pushed : ℕ
  skip : Bool

/-- One entry of the text. -/
def Visit.entry (s : Visit) (e : String × Node) : Visit :=
  let entries := SortedMap.insert e.1 e.2 s.entries
  match s.order with
  | some order =>
    { entries
      order := some (order ++ [e.1])
      pushed := s.pushed + 1
      skip := s.skip || hasNul e.1 }
  | none =>
    if s.entries.getLast?.any fun last => e.1 < last.1 then
      let keys := SortedMap.keys s.entries
      let order := if e.1 ∈ keys then keys else keys ++ [e.1]
      { entries, order := some order, pushed := order.length, skip := s.skip || order.any hasNul }
    else { s with entries }

/-- The order of the text, the repeats of a key dropped. -/
def Visit.firstSeen (s : Visit) : Option (List String) :=
  s.order.map fun o => if s.pushed ≠ s.entries.length then o.eraseDups else o

/-- The keys that spell array indices, ascending, then the others. -/
def jsKeys (all : List String) : List String :=
  (all.filter isArrayIndex).mergeSort (fun a b => decimal a ≤ decimal b) ++
    all.filter fun k => !isArrayIndex k

/-- The hint an object ends with: none where a key that was recorded has the separator, or where it
would be the sorted order. -/
def Visit.hint (s : Visit) : Option (List String) :=
  if s.skip then none
  else if (SortedMap.keys s.entries).any isArrayIndex then
    let js := jsKeys (s.firstSeen.getD (SortedMap.keys s.entries))
    if (js.zip (SortedMap.keys s.entries)).all fun p => p.1 == p.2 then none
    else some (js.flatMap splitNul)
  else s.firstSeen

def Visit.finish (s : Visit) : Node := .map s.entries s.hint

def visitMap (entries : List (String × Node)) : Node :=
  (entries.foldl Visit.entry ⟨[], none, 0, false⟩).finish

mutual

/-- `Node`'s `Deserialize`. -/
def ofJson : Json → Option Node
  | .null => some .null
  | .bool b => some (.bool b)
  | .num n => some (.num n)
  | .str s => some (.str s)
  | .arr xs => (ofItems xs).map .arr
  | .obj entries => (ofEntries entries).map visitMap
  | .unreadable => none

def ofItems : List Json → Option (List Node)
  | [] => some []
  | x :: xs => (ofJson x).bind fun n => (ofItems xs).map (n :: ·)

def ofEntries : List (String × Json) → Option (List (String × Node))
  | [] => some []
  | (k, x) :: rest => (ofJson x).bind fun n => (ofEntries rest).map ((k, n) :: ·)

end

/-! ### Writing a tree -/

def joined (sep : Char) : List (List Char) → List Char := List.intercalate [sep]

/-- An object of the texts of its values. -/
def objectText (entries : List (String × List Char)) : List Char :=
  '{' :: joined ',' (entries.map fun e => jsonString e.1.toList ++ ':' :: e.2) ++ ['}']

variable (ryu : Float → String) (ordered : Bool)

def numberText : Number → List Char
  | .posInt n => (toString n.toNat).toList
  | .negInt n => (toString n.toInt).toList
  | .float f => (ryu f).toList

mutual

/-- The JSON of a tree: `Node`'s own, sorted, or `Ordered`'s, in the order the text had. -/
def text : Node → List Char
  | .null => "null".toList
  | .bool b => (if b then "true" else "false").toList
  | .num n => numberText ryu n
  | .str s => jsonString s.toList
  | .arr xs => '[' :: joined ',' (itemTexts xs) ++ [']']
  | .map entries order =>
    objectText (eachOrdered (entryTexts entries) (if ordered then order else none))

def itemTexts : List Node → List (List Char)
  | [] => []
  | x :: xs => text x :: itemTexts xs

def entryTexts : List (String × Node) → List (String × List Char)
  | [] => []
  | (k, x) :: rest => (k, text x) :: entryTexts rest

end

end Node

end Brust.Plan
