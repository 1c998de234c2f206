import Mathlib.Data.List.Basic
import Mathlib.Data.List.DropRight
import Mathlib.Data.List.Infix

/-!
# Paint — The server's filters

`brust-jinja`: what a value shows as text (`paint`), as an attribute (`dynamicAttr`) and as the CSS
of a style object (`styleObjToCss`).  The text of a number is one function on both sides.
-/

namespace Brust.Paint

/-- What is assumed of numbers: their text, and which are `0` and `NaN`. -/
class Numbers (F : Type) where
  text : F → List Char
  isZero : F → Bool
  isNaN : F → Bool
  text_ne_nil (n : F) : text n ≠ []
  text_plain (n : F) : ∀ c ∈ text n, c.isAlphanum = true ∨ c ∈ ['+', '-', '.']

/-- A value that React can paint. -/
inductive Painted (F : Type) where
  | undefined
  | null
  | bool (b : Bool)
  | num (n : F)
  | str (s : List Char)
  | arr (items : List (Painted F))

open Numbers

variable {F : Type} [Numbers F]

def literal (s : String) : List Char := s.toList

def boolText (b : Bool) : List Char := literal (if b then "true" else "false")

mutual

/-- Text of a painted value. -/
def paint : Painted F → List Char
  | .undefined | .null | .bool _ => []
  | .num n => text n
  | .str s => s
  | .arr items => paintItems items

def paintItems : List (Painted F) → List Char
  | [] => []
  | v :: vs => paint v ++ paintItems vs

end

/-- What a boolean attribute asks of its value. -/
def truthy : Painted F → Bool
  | .undefined | .null => false
  | .bool b => b
  | .num n => !isZero n && !isNaN n
  | .str s => !s.isEmpty
  | .arr _ => true

/-! ### Attributes -/

/-- What minijinja prints of a value inside a list, and so of a list: its source is not here, and
this is what it documents.  A list stands between brackets, its items with a comma and a blank
between them; a string stands in quotes and a boolean is a word. -/
structure Minijinja (F : Type) [Numbers F] where
  repr : Painted F → List Char
  arr (items : List (Painted F)) :
    repr (.arr items) = '[' :: List.intercalate [',', ' '] (items.map repr) ++ [']']
  num (n : F) : repr (.num n) = text n
  str (s : List Char) : ∃ q quoted, repr (.str s) = q :: quoted ++ [q] ∧ s.length ≤ quoted.length
  bool (b : Bool) : (repr (.bool b)).map Char.toLower = boolText b

variable (m : Minijinja F)

/-- The text of an attribute, before it is escaped. -/
def attrString : Painted F → List Char
  | .bool b => boolText b
  | .num n => text n
  | .undefined | .null => []
  | .str s => s
  | .arr items => m.repr (.arr items)

/-- A plain attribute is printed. -/
def presentPlain : Painted F → Bool
  | .undefined | .null | .bool _ => false
  | _ => true

/-- An attribute that prints booleans is printed. -/
def presentStr : Painted F → Bool
  | .undefined | .null => false
  | _ => true

/-- An overloaded attribute is printed. -/
def present : Painted F → Bool
  | .undefined | .null | .bool false => false
  | _ => true

/-- How React prints an attribute. -/
inductive AttrKind where
  | boolean
  | overloaded
  | stringify
  | plain
deriving DecidableEq, Repr

/-- `dynamic_attr`: the attribute's value, where the attribute is printed. -/
def dynamicAttr (kind : AttrKind) (v : Painted F) : Option (List Char) :=
  match kind with
  | .boolean => if truthy v then some [] else none
  | .overloaded =>
    match v with
    | .bool true => some []
    | v => if present v then some (attrString m v) else none
  | .stringify => if presentStr v then some (attrString m v) else none
  | .plain => if presentPlain v then some (attrString m v) else none

/-! ### Style objects -/

/-- Properties whose numbers get no `px`. -/
def unitless : List (List Char) :=
  ["animationIterationCount", "aspectRatio", "borderImageOutset", "borderImageSlice",
    "borderImageWidth", "boxFlex", "boxFlexGroup", "boxOrdinalGroup", "columnCount", "columns",
    "flex", "flexGrow", "flexPositive", "flexShrink", "flexNegative", "flexOrder", "gridArea",
    "gridRow", "gridRowEnd", "gridRowSpan", "gridRowStart", "gridColumn", "gridColumnEnd",
    "gridColumnSpan", "gridColumnStart", "fontWeight", "lineClamp", "lineHeight", "opacity",
    "order", "orphans", "scale", "tabSize", "widows", "zIndex", "zoom", "fillOpacity",
    "floodOpacity", "stopOpacity", "strokeDasharray", "strokeDashoffset", "strokeMiterlimit",
    "strokeOpacity", "strokeWidth"].map literal

def vendors : List (List Char) := ["Webkit", "Moz", "ms", "O"].map literal

/-- `strip_prefix`. -/
def stripPrefix : List Char → List Char → Option (List Char)
  | [], s => some s
  | _ :: _, [] => none
  | c :: p, d :: s => if c = d then stripPrefix p s else none

def startsUpper (s : List Char) : Bool := s.head?.any Char.isUpper

def lowerFirst : List Char → List Char
  | [] => []
  | c :: s => c.toLower :: s

/-- What follows the vendor's name in a prefixed name. -/
def vendored (prop : List Char) : Option (List Char) :=
  vendors.findSome? fun p => (stripPrefix p prop).filter startsUpper

def isUnitless (prop : List Char) : Bool :=
  unitless.contains prop ||
    (vendored prop).any fun rest => unitless.contains (lowerFirst rest)

def wordChar (c : Char) : Bool := c.isAlphanum || c == '-' || c == '_'

def cssKey (k : List Char) : Bool :=
  match stripPrefix ['-', '-'] k with
  | some custom => !custom.isEmpty && custom.all wordChar
  | none => k.head?.any Char.isAlpha && k.all wordChar

def custom (k : List Char) : Bool := (stripPrefix ['-', '-'] k).isSome

def hyphen (c : Char) : List Char := if c.isUpper then ['-', c.toLower] else [c]

/-- A name in camel case, hyphenated. -/
def cssProperty (name : List Char) : List Char :=
  if custom name then name
  else
    let out := name.flatMap hyphen
    if (stripPrefix ['m', 's', '-'] out).isSome then '-' :: out else out

/-- What both `trim`s take away. -/
def blanks : List Char :=
  ['\t', '\n', '\x0b', '\x0c', '\r', ' ', '\u00a0', '\u1680', '\u2000', '\u2001', '\u2002',
    '\u2003', '\u2004', '\u2005', '\u2006', '\u2007', '\u2008', '\u2009', '\u200a',
      '\u2028', '\u2029',
    '\u202f', '\u205f', '\u3000']

def trimBy (p : Char → Bool) (s : List Char) : List Char := (s.dropWhile p).rdropWhile p

/-- `char::is_whitespace`. -/
def isWhitespace (c : Char) : Bool := blanks.contains c || c == '\u0085'

/-- `str::trim`. -/
def trim (s : List Char) : List Char := trimBy isWhitespace s

def breakers : List Char := [';', '{', '}', '\\', '\n', '\r']

/-- The text would end the declaration or open another construct. -/
def breaks (s : List Char) : Bool :=
  let lower := s.map Char.toLower
  s.any breakers.contains || decide (literal "/*" <:+: lower) ||
    decide (literal "expression(" <:+: lower) || decide (literal "@import" <:+: lower)

def cssValue (prop : List Char) : Painted F → List Char
  | .num n =>
    if isZero n || isUnitless prop || custom prop then text n else text n ++ ['p', 'x']
  | v =>
    let s := trim (paint v)
    if breaks s then [] else s

/-- The declaration of one property, if any. -/
def declaration (k : List Char) (v : Painted F) : Option (List Char) :=
  if present v && cssKey k then
    let val := cssValue k v
    if !val.isEmpty then some (cssProperty k ++ ':' :: val) else none
  else none

/-- The declarations of a style object. -/
def styleObjToCss (pairs : List (List Char × Painted F)) : List Char :=
  List.intercalate [';'] (pairs.filterMap fun (k, v) => declaration k v)

end Brust.Paint
