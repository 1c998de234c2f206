import Brust.Paint.Server

/-!
# Paint — The chunk's helpers

`lower/client.rs`: the helpers that a chunk declares (`Helper`), and what the runtime's directives
write of the values they return (`shown`, `writeAttr`).
-/

namespace Brust.Paint

open Numbers

variable {F : Type} [Numbers F]

mutual

/-- `String(v)` -/
def string : Painted F → List Char
  | .undefined => literal "undefined"
  | .null => literal "null"
  | .bool b => boolText b
  | .num n => text n
  | .str s => s
  | .arr items => List.intercalate [','] (joined items)

/-- The items of an array, as `join` prints them. -/
def joined : List (Painted F) → List (List Char)
  | [] => []
  | .undefined :: vs | .null :: vs => [] :: joined vs
  | v :: vs => string v :: joined vs

end

/-- `v == null ? '' : String(v)`: what `x-text` writes, and `join` of an item. -/
def shown : Painted F → List Char
  | .undefined | .null => []
  | v => string v

/-- `Boolean(v)` -/
def boolean : Painted F → Bool
  | .undefined | .null => false
  | .bool b => b
  | .num n => !(isZero n || isNaN n)
  | .str s => s ≠ []
  | .arr _ => true

namespace Helper

mutual

/-- `__text` -/
def text : Painted F → Painted F
  | .bool _ => .str []
  | .arr items => .str (List.flatten (textItems items))
  | v => v

/-- `v.map(__text)`, as `join` prints the items. -/
def textItems : List (Painted F) → List (List Char)
  | [] => []
  | v :: vs => shown (text v) :: textItems vs

end

/-- `__attr` -/
def attr : Painted F → Painted F
  | .bool _ => .null
  | v => v

/-- `__bool` -/
def bool (v : Painted F) : Painted F := .bool (boolean v)

/-- `__attrs` -/
def attrs : Painted F → Painted F
  | .bool b => .str (boolText b)
  | v => v

/-- `__attro` -/
def attro : Painted F → Painted F
  | .bool true => .str []
  | .bool false => .null
  | v => v

/-- The helper of an attribute of each kind. -/
def ofKind : AttrKind → Painted F → Painted F
  | .boolean => bool
  | .overloaded => attro
  | .stringify => attrs
  | .plain => attr

/-! ### Style objects -/

/-- `/^(--[A-Za-z0-9_-]+|[A-Za-z][A-Za-z0-9_-]*)$/` -/
def cssName (k : List Char) : Bool :=
  let word (c : Char) : Bool := c.isUpper || c.isLower || c.isDigit || c == '_' || c == '-'
  (match k with
    | '-' :: '-' :: c :: rest => word c && rest.all word
    | _ => false) ||
  match k with
  | c :: rest => (c.isUpper || c.isLower) && rest.all word
  | [] => false

/-- `k.replace(/^(Webkit|Moz|ms|O)(?=[A-Z])/, "").replace(/^./, (c) => c.toLowerCase())` -/
def bare (k : List Char) : List Char := lowerFirst ((vendored k).getD k)

/-- `.replace(/[A-Z]/g, (c) => "-" + c.toLowerCase())` -/
def hyphenated : List Char → List Char
  | [] => []
  | c :: s => if c.isUpper then '-' :: c.toLower :: hyphenated s else c :: hyphenated s

/-- The last `replace`: a leading `ms-` gets its dash. -/
def msDash : List Char → List Char
  | 'm' :: 's' :: '-' :: s => '-' :: 'm' :: 's' :: '-' :: s
  | s => s

def property (k : List Char) : List Char :=
  if ['-', '-'].isPrefixOf k then k else msDash (hyphenated k)

/-- White space and line terminators of the language. -/
def isSpace (c : Char) : Bool := blanks.contains c || c == '\ufeff'

/-- `.trim()` -/
def trim (s : List Char) : List Char := trimBy isSpace s

/-- A pattern of letters under the flag `i`. -/
def hasText (pattern : List Char) (s : List Char) : Bool :=
  decide (pattern.map Char.toUpper <:+: s.map Char.toUpper)

/-- `/[;{}\\\n\r]|\/\*|expression\(|@import/i` -/
def refuses (s : List Char) : Bool :=
  s.any (fun c => c == ';' || c == '{' || c == '}' || c == '\\' || c == '\n' || c == '\r') ||
    hasText (literal "/*") s || hasText (literal "expression(") s || hasText (literal "@import") s

def value (k : List Char) : Painted F → List Char
  | .num n =>
    if isZero n || unitless.contains (bare k) || ['-', '-'].isPrefixOf k then Numbers.text n
    else Numbers.text n ++ ['p', 'x']
  | .bool _ => []
  | v => trim (string v)

/-- `v != null && v !== false` -/
def given : Painted F → Bool
  | .undefined | .null | .bool false => false
  | _ => true

/-- `__css` -/
def css (o : List (List Char × Painted F)) : List Char :=
  let kept := o.filter fun (k, v) => given v && cssName k
  let valued := kept.map fun (k, v) => (k, value k v)
  let safe := valued.filter fun (_, v) => v ≠ [] && !refuses v
  List.intercalate [';'] (safe.map fun (k, v) => property k ++ ':' :: v)

end Helper

/-- `writeAttr`: what the runtime makes of a helper's value. -/
def writeAttr (kind : AttrKind) (v : Painted F) : Option (List Char) :=
  match kind, v with
  | .boolean, v => if boolean v then some [] else none
  | .stringify, .undefined | .stringify, .null => none
  | .stringify, v => some (string v)
  | .overloaded, .bool b => if b then some [] else none
  | _, .undefined | _, .null | _, .bool _ => none
  | _, v => some (string v)

/-- The attribute that the chunk sets, or that it removes. -/
def boundAttr (kind : AttrKind) (v : Painted F) : Option (List Char) :=
  writeAttr kind (Helper.ofKind kind v)

end Brust.Paint
