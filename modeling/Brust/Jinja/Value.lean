import Brust.Paint.Server
import Brust.Plan.Node
import Brust.Support.Written

/-!
# Jinja — values

The values of a template, their maps with the order each kind of map iterates in (`mapEntries`), and
what `brust-jinja` reads of a value: whether it is true or present, and its text.
-/

namespace Brust.Jinja

open Paint (Numbers Painted literal boolText)
open SortedMap (keys)

/-- What a map is made of: it decides the order of its entries. -/
inductive MapKind where
  /-- `CtxMap`: sorted, with the order of the text that was read. -/
  | ctx (order : Option (List String))
  /-- `MapView`: a `CtxMap` without some keys. -/
  | view (order : Option (List String)) (hidden : List String)
  /-- `OrderedMap`: what `obj_lit` and `obj_assign` build. -/
  | ordered
  /-- Any other map, which iterates as it is. -/
  | plain

/-- A value; `other` is one of another kind, as it prints. -/
inductive Value (F : Type) where
  | undefined
  | null
  | bool (b : Bool)
  | num (n : F)
  | str (s : List Char)
  | seq (items : List (Value F))
  | map (kind : MapKind) (entries : List (String × Value F))
  | other (text : List Char)

variable {F : Type}

namespace Value

/-- `OrderedMap::keys`, each with its value. -/
def orderedEntries (entries : List (String × Value F)) : List (String × Value F) :=
  (Plan.Node.jsKeys (keys entries)).map fun k => (k, (entries.lookup k).getD .undefined)

/-- `map_entries` of a map. -/
def mapEntries : Value F → List (String × Value F)
  | .map (.ctx order) entries => Plan.eachOrdered entries order
  | .map (.view order hidden) entries =>
    (Plan.eachOrdered entries order).filter fun e => !hidden.contains e.1
  | .map .ordered entries => orderedEntries entries
  | .map .plain entries => entries
  | _ => []

def isMap : Value F → Bool
  | .map .. => true
  | _ => false

/-- `present_plain` -/
def presentPlain : Value F → Bool
  | .undefined | .null | .bool _ => false
  | _ => true

/-- `present_str` -/
def presentStr : Value F → Bool
  | .undefined | .null => false
  | _ => true

section
variable [Numbers F]

/-- `truthy` -/
def truthy : Value F → Bool
  | .undefined | .null => false
  | .bool b => b
  | .num n => !Numbers.isZero n && !Numbers.isNaN n
  | .str s => !s.isEmpty
  | _ => true

variable (display : Value F → List Char)

/-- `attr_string`; `display` is how the template engine prints a value. -/
def attrString : Value F → List Char
  | .bool b => boolText b
  | .num n => Numbers.text n
  | .undefined | .null => []
  | .str s => s
  | v => display v

mutual

/-- What a value paints: a map and a value of another kind paint as they print. -/
def painted : Value F → Painted F
  | .undefined => .undefined
  | .null => .null
  | .bool b => .bool b
  | .num n => .num n
  | .str s => .str s
  | .seq items => .arr (paintedItems items)
  | .map kind entries => .str (display (.map kind entries))
  | .other text => .str text

def paintedItems : List (Value F) → List (Painted F)
  | [] => []
  | v :: vs => painted v :: paintedItems vs

end

end

end Value

end Brust.Jinja
