import Brust.Core.Path.Bytes
import Brust.Jinja.Number
import Brust.Plan.JobKey
import Brust.Support.JsonRead
import Brust.Support.Written

/-!
# Cloudflare — the frame of a page

A page as KV and the rows of the durable object hold it: the length of the meta as a `u32`, the
meta as JSON, the body.  What JavaScript makes of the meta's bytes is a parameter (`JsonReader`); of
the value only the version and that the headers are a list are checked.  The bodies and metas that
`encodeEntry` frames are read back (`decodeEntry_encodeEntry`).
-/

namespace Brust.Cloudflare.Kv

open Brust.Core Brust.Core.Path Brust.SortedMap

structure StoredPage where
  status : ℕ
  headers : List (String × String)
  body : List UInt8

/-- `EntryMeta` but for `v`, `status` and `headers`, which `encodeEntry` adds. -/
structure EntryMeta where
  tags : List String
  method : String
  path : String
  keyPrefix : Option String
  entryStamp : Option ℕ
  storedAt : ℕ
  expiresAt : ℕ

/-! ### Its JSON -/

/-- A whole number below 2^53, as JavaScript prints it. -/
def count (n : ℕ) : JsonValue := .num (toString n).toList

def texts (ts : List String) : JsonValue := .arr (ts.map .str)

def headerPairs (hs : List (String × String)) : JsonValue :=
  .arr (hs.map fun h => .arr [.str h.1, .str h.2])

def stampValue : Option ℕ → JsonValue
  | none => .null
  | some n => count n

/-- The meta of a frame; a prefix that is undefined is left out. -/
def EntryMeta.toJson (page : StoredPage) (m : EntryMeta) : JsonValue :=
  .obj ([("v", count 1), ("status", count page.status), ("headers", headerPairs page.headers),
      ("tags", texts m.tags), ("method", .str m.method), ("path", .str m.path)] ++
    m.keyPrefix.toList.map (fun p => ("prefix", .str p)) ++
    [("entryStamp", stampValue m.entryStamp), ("storedAt", count m.storedAt),
      ("expiresAt", count m.expiresAt)])

/-- A member of a value that `JSON.parse` made; `none` is `undefined`. -/
def member (v : JsonValue) (name : String) : Option JsonValue :=
  match v with
  | .obj entries => lastWritten entries name
  | _ => none

/-! ### The frame -/

/-- `getUint32`, little-endian. -/
def getUint32 : List UInt8 → ℕ
  | a :: b :: c :: d :: _ => a.toNat + 2 ^ 8 * b.toNat + 2 ^ 16 * c.toNat + 2 ^ 24 * d.toNat
  | _ => 0

/-- `new TextEncoder().encode(JSON.stringify(v))` -/
def encodeJson (v : JsonValue) : List UInt8 := utf8 (String.ofList v.render)

def head (page : StoredPage) (m : EntryMeta) : List UInt8 := encodeJson (m.toJson page)

def encodeEntry (page : StoredPage) (m : EntryMeta) : List UInt8 :=
  Plan.leBytes (head page m).length ++ head page m ++ page.body

/-- A frame that was read: `meta`, and what the page has besides it. -/
structure Entry where
  info : JsonValue
  body : List UInt8

def isList : JsonValue → Bool
  | .arr _ => true
  | _ => false

/-- A reader of a meta's bytes: the JSON values it makes of them, and what it says of the bytes that
it refuses. -/
structure JsonReader where
  parse : List UInt8 → Option JsonValue
  refusal : List UInt8 → String

/-- A numeral of JSON as the number that JavaScript reads. -/
def jsNumber (t : List Char) : Double :=
  ((Jinja.parseF64 t).map fun d => Double.round d.1 d.2).getD .nan

/-- A value of type `number`. -/
def asNumber : JsonValue → Option Double
  | .num t => some (jsNumber t)
  | _ => none

/-- A value without members has no version either. -/
def decodeEntry (js : JsonReader) (u8 : List UInt8) : Option Entry :=
  if u8.length < 4 then none
  else
    let n := getUint32 u8
    if u8.length - 4 < n then none
    else
      (js.parse ((u8.drop 4).take n)).bind fun info =>
        if (member info "v").bind asNumber = some (.fin false 1) ∧
            (member info "headers").any isList then
          some ⟨info, u8.drop (4 + n)⟩
        else none

/-! ### Metas that are read -/

/-- A text, or a list of texts. -/
def Texts : JsonValue → Prop
  | .str _ => True
  | .arr xs => ∀ x ∈ xs, ∃ s, x = .str s
  | _ => False

/-- What the metas' fields are: no value is nested deeper than the headers, and numbers are
whole. -/
def Simple (bound : ℕ) : JsonValue → Prop
  | .null | .bool _ | .str _ => True
  | .num t => ∃ n < bound, t = (toString n).toList
  | .arr xs => ∀ x ∈ xs, Texts x
  | .obj _ => False

/-- The reader takes the objects of such fields as they are written. -/
structure JsonReader.Reads (r : JsonReader) (bound : ℕ) : Prop where
  read : ∀ entries : List (String × JsonValue), (∀ e ∈ entries, Simple bound e.2) →
    r.parse (encodeJson (.obj entries)) = some (.obj entries)

theorem simple_count {bound n : ℕ} (h : n < bound) : Simple bound (count n) := ⟨n, h, rfl⟩

theorem simple_headerPairs (bound : ℕ) (hs : List (String × String)) :
    Simple bound (headerPairs hs) := by
  intro x hx
  obtain ⟨h, -, rfl⟩ := List.mem_map.mp hx
  simp [Texts]

theorem simple_texts (bound : ℕ) (ts : List String) : Simple bound (texts ts) := by
  intro x hx
  obtain ⟨t, -, rfl⟩ := List.mem_map.mp hx
  trivial

theorem simple_stampValue {bound : ℕ} {stamp : Option ℕ} (h : ∀ n ∈ stamp, n < bound) :
    Simple bound (stampValue stamp) := by
  cases stamp with
  | none => trivial
  | some n => exact simple_count (h n rfl)

/-- A whole number below 2^53 is read back. -/
theorem asNumber_count {n : ℕ} (h : n < 2 ^ 53) : asNumber (count n) = some (.fin false n) := by
  have htext : (toString n).toList = Nat.toDigits 10 n := String.toList_ofList
  have hall : ∀ c ∈ Nat.toDigits 10 n, c.isDigit = true := fun c hc =>
    Nat.isDigit_of_mem_toDigits (by decide) (by decide) hc
  have hdigits : Jinja.Digits 10 (Nat.toDigits 10 n) :=
    Jinja.digits_ten_iff.mpr ⟨Nat.toDigits_ne_nil, hall⟩
  have hread : Jinja.parseF64 (Nat.toDigits 10 n) = some (false, (n : ℚ)) := by
    refine Jinja.parseF64_iff.mpr ⟨[], _, .none, ?_, rfl⟩
    have hwhole := Jinja.Unsigned.whole hdigits .none
    rw [List.append_nil, zpow_zero, mul_one, Jinja.number_ten hall,
      Nat.ofDigitChars_ten_toDigits] at hwhole
    exact hwhole
  rw [count, asNumber, htext, jsNumber, hread, Option.map_some, Option.getD_some,
    Double.round_eq (Double.representable_of_lt h)]

theorem asNumber_one : asNumber (count 1) = some (.fin false 1) := by
  have h := asNumber_count (n := 1) (by decide)
  rwa [Nat.cast_one] at h

/-! ### Reading it back -/

theorem getUint32_leBytes {n : ℕ} (hn : n < 2 ^ 32) (rest : List UInt8) :
    getUint32 (Plan.leBytes n ++ rest) = n := by
  simp only [Plan.leBytes, List.cons_append, getUint32, UInt8.toNat_ofNat']
  omega

theorem itemNumerals_of_forall : ∀ {xs : List JsonValue}, (∀ x ∈ xs, x.Numerals) →
    JsonValue.ItemNumerals xs
  | [], _ => trivial
  | _ :: _, h => ⟨h _ (List.mem_cons_self ..),
      itemNumerals_of_forall fun _ hx => h _ (List.mem_cons_of_mem _ hx)⟩

theorem numerals_count (n : ℕ) : (count n).Numerals := Plan.numeral_repr n

/-- A bound of the numbers of a meta. -/
def EntryMeta.bound (page : StoredPage) (m : EntryMeta) : ℕ :=
  page.status + m.entryStamp.getD 0 + m.storedAt + m.expiresAt + 2

theorem simple_toJson (page : StoredPage) (m : EntryMeta) :
    ∃ entries, m.toJson page = .obj entries ∧ ∀ e ∈ entries, Simple (m.bound page) e.2 := by
  refine ⟨_, rfl, fun e he => ?_⟩
  simp only [List.cons_append, List.nil_append, List.mem_cons, List.mem_append, List.mem_map,
    List.not_mem_nil, or_false] at he
  rcases he with rfl | rfl | rfl | rfl | rfl | rfl | ⟨p, -, rfl⟩ | rfl | rfl | rfl
  · exact simple_count (by unfold EntryMeta.bound; omega)
  · exact simple_count (by unfold EntryMeta.bound; omega)
  · exact simple_headerPairs _ _
  · exact simple_texts _ _
  · trivial
  · trivial
  · trivial
  · refine simple_stampValue fun n hn => ?_
    rw [EntryMeta.bound, Option.mem_def.mp hn, Option.getD_some]
    omega
  · exact simple_count (by unfold EntryMeta.bound; omega)
  · exact simple_count (by unfold EntryMeta.bound; omega)

theorem checked_toJson (page : StoredPage) (m : EntryMeta) :
    (member (m.toJson page) "v").bind asNumber = some (.fin false 1) ∧
      (member (m.toJson page) "headers").any isList = true := by
  have hv : member (m.toJson page) "v" = some (count 1) := by
    cases hp : m.keyPrefix <;> simp [EntryMeta.toJson, member, lastWritten, hp, lookup_cons_if]
  have hheaders : member (m.toJson page) "headers" = some (headerPairs page.headers) := by
    cases hp : m.keyPrefix <;> simp [EntryMeta.toJson, member, lastWritten, hp, lookup_cons_if]
  rw [hv, hheaders, Option.bind_some, asNumber_one]
  exact ⟨rfl, rfl⟩

theorem head_eq (page : StoredPage) (m : EntryMeta) :
    head page m = encoded (m.toJson page).render := by
  rw [head, encodeJson, utf8_eq, String.toList_ofList]

theorem length_encodeEntry (page : StoredPage) (m : EntryMeta) :
    (encodeEntry page m).length =
      4 + (encoded (m.toJson page).render).length + page.body.length := by
  rw [encodeEntry, List.length_append, List.length_append, head_eq]
  rfl

/-- **A frame is read back**, where the length of its meta fits the four bytes in front of it. -/
theorem decodeEntry_encodeEntry {js : JsonReader} (hreads : ∀ bound, js.Reads bound)
    {page : StoredPage} {m : EntryMeta} (hfits : (head page m).length < 2 ^ 32) :
    decodeEntry js (encodeEntry page m) = some ⟨m.toJson page, page.body⟩ := by
  have hlen := length_encodeEntry page m
  rw [← head_eq] at hlen
  have hlong : ¬ (encodeEntry page m).length < 4 := by omega
  have hroom : ¬ (encodeEntry page m).length - 4 < (head page m).length := by omega
  have hn : getUint32 (encodeEntry page m) = (head page m).length := by
    rw [encodeEntry, List.append_assoc]
    exact getUint32_leBytes hfits _
  have hdrop : (encodeEntry page m).drop 4 = head page m ++ page.body := by
    rw [encodeEntry, List.append_assoc]
    exact List.drop_left' rfl
  have hparse : js.parse (head page m) = some (m.toJson page) := by
    obtain ⟨entries, hentries, hsimple⟩ := simple_toJson page m
    rw [head, hentries]
    exact (hreads _).read entries hsimple
  rw [decodeEntry, if_neg hlong, hn]
  dsimp only
  rw [if_neg hroom, hdrop, List.take_left, hparse, Option.bind_some, if_pos (checked_toJson page m),
    ← List.drop_drop, hdrop, List.drop_left]

/-! ### A reader -/

theorem numerals_texts_of {x : JsonValue} (h : Texts x) : x.Numerals := by
  cases x with
  | arr xs =>
      refine itemNumerals_of_forall fun y hy => ?_
      obtain ⟨s, rfl⟩ := h y hy
      trivial
  | str s => trivial
  | _ => exact h.elim

theorem numerals_of_simple {bound : ℕ} {v : JsonValue} (h : Simple bound v) : v.Numerals := by
  cases v with
  | num t =>
      obtain ⟨n, -, rfl⟩ := h
      exact numerals_count n
  | arr xs => exact itemNumerals_of_forall fun x hx => numerals_texts_of (h x hx)
  | obj entries => exact h.elim
  | _ => trivial

/-- A reader of UTF-8 and of JSON without blanks. -/
def jsonReader : JsonReader where
  parse b := (fromUtf8 b).bind fun text => JsonValue.read text.toList
  refusal _ := "expected value"

theorem jsonReader_reads (bound : ℕ) : jsonReader.Reads bound where
  read entries h := by
    have hnumerals : (JsonValue.obj entries).Numerals :=
      Plan.entryNumerals_iff.mpr fun e he => numerals_of_simple (h e he)
    have hbytes : fromUtf8 (encodeJson (.obj entries)) =
        some (String.ofList (JsonValue.obj entries).render) := fromUtf8_utf8 _
    rw [jsonReader]
    dsimp only
    rw [hbytes, Option.bind_some, String.toList_ofList, JsonValue.read_render hnumerals]

end Brust.Cloudflare.Kv
