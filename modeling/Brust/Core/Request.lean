import Brust.Core.Invalidate
import Brust.Core.KeyExpr
import Brust.Support.Split

/-!
# Core — requests

What the server makes of a request before it renders: the route its path matches, with the matched
parameters decoded, and the pairs of its query, decoded by another rule.  The router is a parameter:
a function of the normalised path.
-/

namespace Brust.Core

open Brust.Routing

/-! ### Decoding -/

/-- The UTF-8 bytes of a text. -/
def utf8 (s : String) : List UInt8 := s.toList.flatMap String.utf8EncodeChar

/-- `String::from_utf8`. -/
def fromUtf8 (bytes : List UInt8) : Option String := String.fromUTF8? ⟨bytes.toArray⟩

/-- `to_digit(16)` of a byte. -/
def toDigit (b : UInt8) : Option UInt8 :=
  if 0x30 ≤ b ∧ b ≤ 0x39 then some (b - 0x30)
  else if 0x61 ≤ b ∧ b ≤ 0x66 then some (b - 0x57)
  else if 0x41 ≤ b ∧ b ≤ 0x46 then some (b - 0x37)
  else none

/-- `%` and two hex digits are a byte; with `plus`, `+` is a space. -/
def unescape (plus : Bool) : List UInt8 → List UInt8
  | [] => []
  | [b] => [if plus && b == 0x2b then 0x20 else b]
  | [b, c] => (if plus && b == 0x2b then 0x20 else b) :: unescape plus [c]
  | b :: h :: l :: rest =>
    if plus && b == 0x2b then 0x20 :: unescape plus (h :: l :: rest)
    else if b == 0x25 then
      match toDigit h, toDigit l with
      | some h, some l => (h * 16 + l) :: unescape plus rest
      | _, _ => b :: unescape plus (h :: l :: rest)
    else b :: unescape plus (h :: l :: rest)

/-- `url_decode`: escapes that are none pass through. -/
def urlDecode (s : String) : String :=
  if '+' ∉ s.toList ∧ '%' ∉ s.toList then s
  else (fromUtf8 (unescape true (utf8 s))).getD ""

/-- Every `%` is followed by two hex digits. -/
def wellEscaped : List UInt8 → Bool
  | [] => true
  | b :: rest =>
    if b == 0x25 then
      match rest with
      | h :: l :: rest => (toDigit h).isSome && (toDigit l).isSome && wellEscaped rest
      | _ => false
    else wellEscaped rest

/-- `decode_path_param`: a value that does not decode is the capture as it is. -/
def decodePathParam (raw : String) : String :=
  if !wellEscaped (utf8 raw) then raw
  else if '%' ∉ raw.toList then raw
  else (fromUtf8 (unescape false (utf8 raw))).getD raw

/-- `split_once`. -/
def splitOnce (c : Char) (s : String) : Option (String × String) :=
  if c ∈ s.toList then
    some (String.ofList (s.toList.takeWhile (· ≠ c)),
      String.ofList ((s.toList.dropWhile (· ≠ c)).drop 1))
  else none

def decodePair (pair : String) : String × String :=
  match splitOnce '=' pair with
  | some (k, v) => (urlDecode k, urlDecode v)
  | none => (urlDecode pair, "")

/-- The pairs of a query, in order, empty ones skipped. -/
def decodeSearch (query : String) : List (String × String) :=
  ((query.splitOn "&").filter (· ≠ "")).map decodePair

/-! ### Routes -/

/-- What a route's cache configuration compiles to: `bypass` is `some none` for always. -/
structure CompiledCache where
  keyPrefix : Option Expr
  bypass : Option (Option Expr)

structure RouteMatch where
  routeId : ℕ
  notFound : Bool
  params : List (String × String)
  deriving DecidableEq

/-- `router` is `matchit::Router::at`: the route of a path, and what its parameters captured. -/
structure Routes where
  router : String → Option (ℕ × List (String × String))
  notFoundTable : List (String × ℕ)
  compiledCaches : List CompiledCache

namespace Routes

/-- `p` is empty, or `path`, or what `path` begins with, up to a `/`. -/
def prefixMatches (p path : String) : Bool :=
  p == "" || path == p || (p.toList ++ ['/']).isPrefixOf path.toList

/-- The longest matching entry of the not-found table, the last of that length. -/
def selectNotFound (table : List (String × ℕ)) (path : String) : Option ℕ :=
  ((table.filter fun e => prefixMatches e.1 path).foldl
    (fun best e => match best with
      | none => some e
      | some b => if b.1.utf8ByteSize ≤ e.1.utf8ByteSize then some e else some b) none).map (·.2)

def matchNormalized (t : Routes) (path : String) : Option RouteMatch :=
  match t.router path with
  | some (id, captures) => some ⟨id, false, captures.map fun p => (p.1, decodePathParam p.2)⟩
  | none => (selectNotFound t.notFoundTable path).map fun id => ⟨id, true, []⟩

/-- `match_route`: in the form that route literals are stored in. -/
def matchRoute (t : Routes) (full : String) : Option RouteMatch :=
  t.matchNormalized (normalizeRequestPath (pathOf full))

end Routes

end Brust.Core
