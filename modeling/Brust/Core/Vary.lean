import Brust.Core.Path.Bytes
import Brust.Core.PageKey
import Brust.Support.MultiMap
import Mathlib.Data.List.DropRight

/-!
# Core — the `Vary` header

`append_vary_token` on a header map with any number of `Vary` lines.  A line is text when all its
bytes are visible, and then a list of tokens between commas; any other is opaque.  The scan of the
lines is one of their tokens (`scan_eq`), so the tokens that were there are the first of those after
it (`append_vary_token_keeps`).
-/

namespace Brust.Core.Vary

open Brust.Core.Path

/-! ### Header values -/

/-- The bytes that `HeaderValue::from_bytes` lets pass. -/
def isValid (b : UInt8) : Bool := (32 ≤ b && b != 127) || b == 9

/-- The bytes that `to_str` lets pass. -/
def isVisibleAscii (b : UInt8) : Bool := (32 ≤ b && b < 127) || b == 9

structure HeaderValue where
  bytes : List UInt8
  valid : bytes.all isValid = true

namespace HeaderValue

def fromStr (s : String) : Option HeaderValue :=
  if h : (utf8 s).all isValid = true then some ⟨utf8 s, h⟩ else none

def toStr (v : HeaderValue) : Option String :=
  if v.bytes.all isVisibleAscii then some (String.ofList (v.bytes.map fun b => Char.ofNat b.toNat))
  else none

end HeaderValue

/-- `HeaderMap`, the names in lowercase. -/
abbrev HeaderMap := MultiMap String HeaderValue

def VARY : String := "vary"

/-! ### Appending a token -/

/-- The pieces of one line: `none` where the token or `*` is among them. -/
def scanLine (token : String) (parts : List String) : List (List Char) → Option (List String)
  | [] => some parts
  | piece :: rest =>
    let existing := trim (String.ofList piece)
    if eqIgnoreAsciiCase existing token || existing == "*" then none
    else scanLine token (if existing == "" then parts else parts ++ [existing]) rest

/-- The lines: the tokens that were read, and whether a line was opaque. -/
def scan (token : String) (parts : List String) (sawOpaque : Bool) :
    List HeaderValue → Option (List String × Bool)
  | [] => some (parts, sawOpaque)
  | v :: lines =>
    match v.toStr with
    | none => scan token parts true lines
    | some s => (scanLine token parts (s.toList.splitOn ',')).bind fun parts =>
        scan token parts sawOpaque lines

def appendVaryToken (headers : HeaderMap) (token : String) : HeaderMap :=
  if !headers.containsKey VARY then ((HeaderValue.fromStr token).map
    (headers.insert VARY)).getD headers
  else match scan token [] false (headers.getAll VARY) with
    | none => headers
    | some (parts, sawOpaque) =>
      if sawOpaque then ((HeaderValue.fromStr token).map (headers.append VARY)).getD headers
      else ((HeaderValue.fromStr (String.intercalate ", " (parts ++ [token]))).map
        (headers.insert VARY)).getD headers

/-! ### What the lines say -/

/-- The tokens of a line. -/
def HeaderValue.tokens (v : HeaderValue) : List String :=
  (v.toStr.map fun s => (s.toList.splitOn ',').map fun p => trim (String.ofList p)).getD []
    |>.filter (· ≠ "")

/-- A line that is no text. -/
def HeaderValue.isOpaque (v : HeaderValue) : Bool := v.toStr.isNone

/-- The tokens of all lines, in order. -/
def tokens (headers : HeaderMap) : List String := (headers.getAll VARY).flatMap HeaderValue.tokens

/-- The lines that are no text, in order. -/
def opaques (headers : HeaderMap) : List HeaderValue :=
  (headers.getAll VARY).filter HeaderValue.isOpaque

/-- The token is among the others, in any case, or `*` is. -/
def Listed (token : String) (ts : List String) : Prop :=
  ∃ e ∈ ts, eqIgnoreAsciiCase e token = true ∨ e = "*"

/-- A token: visible, with no comma. -/
structure Token where
  text : String
  nonempty : text ≠ ""
  visible : ∀ c ∈ text.toList, 0x20 < c.toNat ∧ c.toNat < 0x7f ∧ c ≠ ','

/-! ### The scan -/

section

variable (t : Token)

theorem toList_ne_nil : t.text.toList ≠ [] := fun h =>
  t.nonempty (String.toList_eq_nil_iff.mp h)

/-- No piece is the token or `*` when it is empty. -/
theorem not_listed_empty : ¬ (eqIgnoreAsciiCase "" t.text = true ∨ "" = "*") := by
  rintro (h | h)
  · have hmap := (eq_of_beq h).symm
    exact toList_ne_nil t (List.map_eq_nil_iff.mp hmap)
  · exact absurd h (by decide)

theorem listed_cons {token e : String} {ts : List String} : Listed token (e :: ts) ↔
    (eqIgnoreAsciiCase e token = true ∨ e = "*") ∨ Listed token ts := by
  rw [Listed, List.exists_mem_cons_iff]
  exact Iff.rfl

theorem listed_append {token : String} {ts us : List String} :
    Listed token (ts ++ us) ↔ Listed token ts ∨ Listed token us := by
  constructor
  · rintro ⟨e, he, hlisted⟩
    exact (List.mem_append.mp he).imp (⟨e, ·, hlisted⟩) (⟨e, ·, hlisted⟩)
  · rintro (⟨e, he, hlisted⟩ | ⟨e, he, hlisted⟩)
    · exact ⟨e, List.mem_append_left us he, hlisted⟩
    · exact ⟨e, List.mem_append_right ts he, hlisted⟩

/-- The tokens of the pieces. -/
def read (pieces : List (List Char)) : List String :=
  (pieces.map fun p => trim (String.ofList p)).filter (· ≠ "")

theorem scanLine_eq (parts : List String) (pieces : List (List Char)) :
    (Listed t.text (read pieces) ∧ scanLine t.text parts pieces = none) ∨
      (¬ Listed t.text (read pieces) ∧
        scanLine t.text parts pieces = some (parts ++ read pieces)) := by
  induction pieces generalizing parts with
  | nil => exact .inr ⟨fun ⟨e, he, _⟩ => absurd he List.not_mem_nil, by rw [scanLine]; simp [read]⟩
  | cons piece rest ih =>
      by_cases hempty : trim (String.ofList piece) = ""
      · have hread : read (piece :: rest) = read rest := by
          rw [read, List.map_cons, List.filter_cons_of_neg (by simp [hempty])]
          rfl
        have hnot := not_listed_empty t
        rw [not_or, Bool.not_eq_true] at hnot
        have hscan : scanLine t.text parts (piece :: rest) = scanLine t.text parts rest := by
          rw [scanLine, hempty, hnot.1]
          rfl
        rw [hread, hscan]
        exact ih parts
      · have hread : read (piece :: rest) = trim (String.ofList piece) :: read rest := by
          rw [read, List.map_cons, List.filter_cons_of_pos (by simpa using hempty)]
          rfl
        rw [hread, listed_cons, scanLine]
        by_cases hhere : eqIgnoreAsciiCase (trim (String.ofList piece)) t.text = true ∨
            trim (String.ofList piece) = "*"
        · rw [if_pos (by rwa [Bool.or_eq_true, beq_iff_eq])]
          exact .inl ⟨.inl hhere, rfl⟩
        · rw [if_neg (by rwa [Bool.or_eq_true, beq_iff_eq]), if_neg (by simpa using hempty)]
          rcases ih (parts ++ [trim (String.ofList piece)]) with ⟨hlisted, hnone⟩ | ⟨hnot, hsome⟩
          · exact .inl ⟨.inr hlisted, hnone⟩
          · refine .inr ⟨fun h => h.elim hhere hnot, ?_⟩
            rw [hsome, List.append_assoc]
            rfl

theorem scan_eq (parts : List String) (sawOpaque : Bool) (lines : List HeaderValue) :
    (Listed t.text (lines.flatMap HeaderValue.tokens) ∧
      scan t.text parts sawOpaque lines = none) ∨
    (¬ Listed t.text (lines.flatMap HeaderValue.tokens) ∧
      scan t.text parts sawOpaque lines =
        some (parts ++ lines.flatMap HeaderValue.tokens,
          sawOpaque || lines.any HeaderValue.isOpaque)) := by
  induction lines generalizing parts sawOpaque with
  | nil =>
      refine .inr ⟨fun ⟨e, he, _⟩ => absurd he List.not_mem_nil, ?_⟩
      rw [scan]
      simp
  | cons v lines ih =>
      rw [scan, List.flatMap_cons, listed_append, List.any_cons]
      cases hv : v.toStr with
      | none =>
          have htokens : v.tokens = [] := by
            rw [HeaderValue.tokens, hv]
            rfl
          have hopaque : v.isOpaque = true := by
            rw [HeaderValue.isOpaque, hv]
            rfl
          rw [htokens, hopaque, List.nil_append, Bool.true_or, Bool.or_true]
          rcases ih parts true with ⟨hlisted, hnone⟩ | ⟨hnot, hsome⟩
          · exact .inl ⟨.inr hlisted, hnone⟩
          · refine .inr ⟨fun h => h.elim (fun ⟨e, he, _⟩ => absurd he List.not_mem_nil) hnot, ?_⟩
            exact hsome
      | some s =>
          have htokens : v.tokens = read (s.toList.splitOn ',') := by
            rw [HeaderValue.tokens, hv]
            rfl
          have hopaque : v.isOpaque = false := by
            rw [HeaderValue.isOpaque, hv]
            rfl
          rw [htokens, hopaque, Bool.false_or]
          dsimp only
          rcases scanLine_eq t parts (s.toList.splitOn ',') with ⟨hlisted, hnone⟩ | ⟨hnot, hsome⟩
          · rw [hnone]
            exact .inl ⟨.inl hlisted, rfl⟩
          · rw [hsome, Option.bind_some]
            rcases ih (parts ++ read (s.toList.splitOn ',')) sawOpaque with
              ⟨hlisted', hnone⟩ | ⟨hnot', hsome'⟩
            · exact .inl ⟨.inr hlisted', hnone⟩
            · refine .inr ⟨fun h => h.elim hnot hnot', ?_⟩
              rw [hsome', List.append_assoc]

end

/-! ### Text lines -/

/-- A character of a text line. -/
def Textual (c : Char) : Prop := c.toNat = 9 ∨ (32 ≤ c.toNat ∧ c.toNat < 127)

theorem isVisibleAscii_iff {b : UInt8} :
    isVisibleAscii b = true ↔ b.toNat = 9 ∨ (32 ≤ b.toNat ∧ b.toNat < 127) := by
  rw [isVisibleAscii, Bool.or_eq_true, Bool.and_eq_true, decide_eq_true_iff, decide_eq_true_iff,
    beq_iff_eq, or_comm, UInt8.le_iff_toNat_le, UInt8.lt_iff_toNat_lt, ← UInt8.toNat_inj]
  exact Iff.rfl

theorem utf8_of_textual {s : List Char} (h : ∀ c ∈ s, Textual c) :
    s.flatMap String.utf8EncodeChar = s.map fun c => UInt8.ofNat c.toNat := by
  have hall : ∀ n < 128, String.utf8EncodeChar (Char.ofNat n) = [UInt8.ofNat n] := by
    decide +kernel
  induction s with
  | nil => rfl
  | cons c s ih =>
      have hlow : c.toNat < 128 := by
        rcases h c List.mem_cons_self with hc | hc <;> omega
      have hc := hall c.toNat hlow
      rw [Char.ofNat_toNat] at hc
      rw [List.flatMap_cons, List.map_cons, hc, ih fun d hd => h d (List.mem_cons_of_mem c hd)]
      rfl

/-- A text line is written and read back. -/
theorem fromStr_textual {s : String} (h : ∀ c ∈ s.toList, Textual c) :
    ∃ v, HeaderValue.fromStr s = some v ∧ v.toStr = some s := by
  have hbytes : utf8 s = s.toList.map fun c => UInt8.ofNat c.toNat := utf8_of_textual h
  have htoNat : ∀ c ∈ s.toList, (UInt8.ofNat c.toNat).toNat = c.toNat := by
    intro c hc
    rw [UInt8.toNat_ofNat']
    rcases h c hc with hc | hc <;> omega
  have hvisible : (utf8 s).all isVisibleAscii = true := by
    rw [hbytes, List.all_map, List.all_eq_true]
    intro c hc
    rw [Function.comp_apply, isVisibleAscii_iff, htoNat c hc]
    exact h c hc
  have hvalid : (utf8 s).all isValid = true := by
    rw [List.all_eq_true] at hvisible ⊢
    intro b hb
    have hb' := isVisibleAscii_iff.mp (hvisible b hb)
    rw [isValid, Bool.or_eq_true, Bool.and_eq_true, decide_eq_true_iff, bne_iff_ne, beq_iff_eq,
      UInt8.le_iff_toNat_le, ne_eq, ← UInt8.toNat_inj, ← UInt8.toNat_inj]
    simp only [UInt8.reduceToNat]
    omega
  refine ⟨⟨utf8 s, hvalid⟩, dif_pos hvalid, ?_⟩
  have hback : s.toList.map ((fun b : UInt8 => Char.ofNat b.toNat) ∘ fun c => UInt8.ofNat c.toNat) =
      s.toList := by
    conv_rhs => rw [← List.map_id s.toList]
    refine List.map_congr_left fun c hc => ?_
    rw [Function.comp_apply, htoNat c hc, Char.ofNat_toNat]
    rfl
  rw [HeaderValue.toStr, if_pos hvisible]
  dsimp only
  rw [hbytes, List.map_map, hback, String.ofList_toList]

theorem textual_of_toStr {v : HeaderValue} {s : String} (h : v.toStr = some s) :
    ∀ c ∈ s.toList, Textual c := by
  rw [HeaderValue.toStr] at h
  split at h
  · next hvisible =>
    cases Option.some.inj h
    rw [String.toList_ofList]
    intro c hc
    obtain ⟨b, hb, rfl⟩ := List.mem_map.mp hc
    have hb' := isVisibleAscii_iff.mp (List.all_eq_true.mp hvisible b hb)
    have hsame := forall_byte (p := fun b => (Char.ofNat b.toNat).toNat == b.toNat)
      (by decide +kernel) b
    rwa [Textual, eq_of_beq hsame]
  · cases h

/-! ### Trimmed texts -/

theorem mem_trim {s : String} {c : Char} (h : c ∈ (trim s).toList) : c ∈ s.toList := by
  rw [trim, String.toList_ofList, List.mem_reverse] at h
  have hdrop := (List.dropWhile_sublist _).subset h
  exact (List.dropWhile_sublist _).subset (List.mem_reverse.mp hdrop)

/-- What no white space is at the ends of. -/
def Trimmed (s : List Char) : Prop :=
  s.dropWhile isWhitespace = s ∧ s.reverse.dropWhile isWhitespace = s.reverse

theorem trim_of_trimmed {s : String} (h : Trimmed s.toList) : trim s = s := by
  rw [trim, h.1, h.2, List.reverse_reverse, String.ofList_toList]

theorem trim_space {s : String} (h : Trimmed s.toList) :
    trim (String.ofList (' ' :: s.toList)) = s := by
  rw [trim, String.toList_ofList, List.dropWhile_cons_of_pos (by decide), h.1, h.2,
    List.reverse_reverse, String.ofList_toList]

theorem trimmed_trim (s : String) : Trimmed (trim s).toList := by
  rw [trim, String.toList_ofList]
  generalize hu : s.toList.dropWhile isWhitespace = u
  have hhead : u.dropWhile isWhitespace = u := by
    rw [← hu]
    exact List.dropWhile_idempotent _ _
  constructor
  · -- what is left of `u` begins as `u` does
    cases hw : (u.reverse.dropWhile isWhitespace).reverse with
    | nil => rfl
    | cons c w =>
        have hsuffix := List.dropWhile_suffix isWhitespace (l := u.reverse)
        rw [← List.reverse_prefix, List.reverse_reverse, hw] at hsuffix
        obtain ⟨r, rfl⟩ := hsuffix
        rw [List.cons_append] at hhead
        refine List.dropWhile_cons_of_neg fun hc => ?_
        rw [List.dropWhile_cons_of_pos hc] at hhead
        have hlength := congrArg List.length hhead
        have hle := (List.dropWhile_sublist isWhitespace (l := w ++ r)).length_le
        rw [hlength, List.length_cons] at hle
        omega
  · rw [List.reverse_reverse]
    exact List.dropWhile_idempotent _ _

/-! ### The line that is written -/

/-- A token as a text line has it between its commas. -/
structure Item (e : String) : Prop where
  trimmed : Trimmed e.toList
  nonempty : e ≠ ""
  comma : ',' ∉ e.toList
  textual : ∀ c ∈ e.toList, Textual c

theorem item_of_mem {v : HeaderValue} {e : String} (h : e ∈ v.tokens) : Item e := by
  rw [HeaderValue.tokens] at h
  cases hv : v.toStr with
  | none =>
      rw [hv] at h
      exact absurd h List.not_mem_nil
  | some s =>
      rw [hv, List.mem_filter] at h
      obtain ⟨p, hp, rfl⟩ := List.mem_map.mp h.1
      have hmem : ∀ c ∈ (trim (String.ofList p)).toList, c ∈ p := fun c hc => by
        have := mem_trim hc
        rwa [String.toList_ofList] at this
      exact ⟨trimmed_trim _, of_decide_eq_true h.2, fun hc => notMem_of_mem_splitOn hp (hmem _ hc),
        fun c hc => textual_of_toStr hv c (mem_of_mem_splitOn hp (hmem c hc))⟩

theorem Token.item (t : Token) : Item t.text := by
  have hdark : ∀ c ∈ t.text.toList, isWhitespace c = false := by
    intro c hc
    obtain ⟨hlow, hhigh, -⟩ := t.visible c hc
    have hall : ∀ n < 0x7f, 0x20 < n → isWhitespace (Char.ofNat n) = false := by decide +kernel
    have hchar := hall c.toNat hhigh hlow
    rwa [Char.ofNat_toNat] at hchar
  have hkeep : ∀ {s : List Char}, (∀ c ∈ s, isWhitespace c = false) →
      s.dropWhile isWhitespace = s := by
    intro s hs
    cases s with
    | nil => rfl
    | cons c s => exact List.dropWhile_cons_of_neg (Bool.eq_false_iff.mp (hs c List.mem_cons_self))
  refine ⟨⟨hkeep hdark, hkeep fun c hc => hdark c (List.mem_reverse.mp hc)⟩, t.nonempty, ?_, ?_⟩
  · exact fun hc => (t.visible ',' hc).2.2 rfl
  · exact fun c hc => .inr ⟨Nat.le_of_lt (t.visible c hc).1, (t.visible c hc).2.1⟩

theorem join_eq (p : String) (ps : List String) :
    (String.intercalate ", " (p :: ps)).toList =
      [','].intercalate (p.toList :: ps.map (' ' :: ·.toList)) := by
  induction ps generalizing p with
  | nil => rw [String.intercalate_singleton, List.map_nil, List.intercalate_singleton]
  | cons q ps ih =>
      have hspace : [','].intercalate ((' ' :: q.toList) :: ps.map (' ' :: ·.toList)) =
          ' ' :: [','].intercalate (q.toList :: ps.map (' ' :: ·.toList)) := by
        cases ps with
        | nil => simp
        | cons r ps => simp
      rw [String.intercalate_cons_cons, String.toList_append, String.toList_append, ih,
        List.map_cons, List.intercalate_cons_cons, hspace]
      simp

theorem mem_join {ps : List String} {c : Char} (h : c ∈ (String.intercalate ", " ps).toList) :
    c ∈ [',', ' '] ∨ ∃ e ∈ ps, c ∈ e.toList := by
  induction ps with
  | nil => exact absurd h List.not_mem_nil
  | cons p ps ih =>
      cases ps with
      | nil =>
          rw [String.intercalate_singleton] at h
          exact .inr ⟨p, List.mem_cons_self, h⟩
      | cons q ps =>
          rw [String.intercalate_cons_cons, String.toList_append, String.toList_append,
            List.mem_append, List.mem_append] at h
          rcases h with (h | h) | h
          · exact .inr ⟨p, List.mem_cons_self, h⟩
          · exact .inl h
          · exact (ih h).imp_right fun ⟨e, he, hc⟩ => ⟨e, List.mem_cons_of_mem p he, hc⟩

/-- A line of items is read as these. -/
theorem tokens_join {p : String} {ps : List String} (h : ∀ e ∈ p :: ps, Item e) :
    ∃ v, HeaderValue.fromStr (String.intercalate ", " (p :: ps)) = some v ∧
      v.tokens = p :: ps ∧ v.isOpaque = false := by
  obtain ⟨hp, hps⟩ := List.forall_mem_cons.mp h
  have htextual : ∀ c ∈ (String.intercalate ", " (p :: ps)).toList, Textual c := by
    intro c hc
    rcases mem_join hc with hsep | ⟨e, he, hce⟩
    · have hseps : ∀ c ∈ [',', ' '], c.toNat = 9 ∨ (32 ≤ c.toNat ∧ c.toNat < 127) :=
        forall_mem_of_all (by decide)
      exact hseps c hsep
    · exact (h e he).textual c hce
  obtain ⟨v, hv, hread⟩ := fromStr_textual htextual
  refine ⟨v, hv, ?_, by rw [HeaderValue.isOpaque, hread]; rfl⟩
  have hsplit : (String.intercalate ", " (p :: ps)).toList.splitOn ',' =
      p.toList :: ps.map (' ' :: ·.toList) := by
    rw [join_eq]
    refine List.splitOn_intercalate ',' ?_ (List.cons_ne_nil _ _)
    intro piece hpiece
    rcases List.mem_cons.mp hpiece with rfl | hpiece
    · exact hp.comma
    · obtain ⟨q, hq, rfl⟩ := List.mem_map.mp hpiece
      rw [List.mem_cons, not_or]
      exact ⟨by decide, (hps q hq).comma⟩
  have htrim : (ps.map (' ' :: ·.toList)).map (fun piece => trim (String.ofList piece)) = ps := by
    rw [List.map_map]
    conv_rhs => rw [← List.map_id ps]
    exact List.map_congr_left fun q hq => trim_space (hps q hq).trimmed
  rw [HeaderValue.tokens, hread, Option.map_some, Option.getD_some, hsplit, List.map_cons, htrim,
    String.ofList_toList, trim_of_trimmed hp.trimmed, List.filter_eq_self]
  exact fun e he => decide_eq_true (h e he).nonempty

/-! ### What is kept -/

variable (headers : HeaderMap) (t : Token)

/-- A header map that lists the token is left as it is. -/
theorem append_of_listed (h : Listed t.text (tokens headers)) :
    appendVaryToken headers t.text = headers := by
  have hkey : headers.containsKey VARY = true := by
    rw [MultiMap.containsKey_iff]
    rintro hnil
    rw [tokens, hnil] at h
    obtain ⟨e, he, -⟩ := h
    exact absurd he List.not_mem_nil
  rw [appendVaryToken, hkey]
  rcases scan_eq t [] false (headers.getAll VARY) with ⟨-, hnone⟩ | ⟨hnot, -⟩
  · rw [hnone]
    rfl
  · exact absurd h hnot

/-- The line of the token alone. -/
theorem fromStr_token : ∃ v, HeaderValue.fromStr t.text = some v ∧ v.tokens = [t.text] ∧
    v.isOpaque = false := by
  have hjoin := @tokens_join t.text []
    fun e he => List.mem_singleton.mp he ▸ t.item
  rwa [String.intercalate_singleton] at hjoin

/-- Where the token is not listed, it comes after the tokens that are. -/
theorem append_of_not_listed (h : ¬ Listed t.text (tokens headers)) :
    tokens (appendVaryToken headers t.text) = tokens headers ++ [t.text] ∧
      opaques (appendVaryToken headers t.text) = opaques headers ∧
      (appendVaryToken headers t.text).others VARY = headers.others VARY := by
  obtain ⟨v, hv, hread, htext⟩ := fromStr_token t
  rw [appendVaryToken]
  cases hkey : headers.containsKey VARY with
  | false =>
      have hnil : headers.getAll VARY = [] := by
        by_contra hne
        rw [MultiMap.containsKey_iff.mpr hne] at hkey
        cases hkey
      rw [hv, Bool.not_false, if_pos rfl, Option.map_some, Option.getD_some, MultiMap.insert,
        MultiMap.others_write, tokens, tokens, opaques, opaques, MultiMap.getAll_write, hnil]
      refine ⟨?_, ?_, rfl⟩
      · rw [List.flatMap_cons, hread]
        rfl
      · rw [List.filter_cons_of_neg (by rw [htext]; exact Bool.false_ne_true)]
  | true =>
      rw [Bool.not_true, if_neg Bool.false_ne_true]
      rcases scan_eq t [] false (headers.getAll VARY) with ⟨hlisted, -⟩ | ⟨-, hsome⟩
      · exact absurd hlisted h
      · rw [hsome, List.nil_append, Bool.false_or]
        dsimp only
        cases hopaque : (headers.getAll VARY).any HeaderValue.isOpaque with
        | true =>
            rw [if_pos rfl, hv, Option.map_some, Option.getD_some, MultiMap.append,
              MultiMap.others_write, tokens, tokens, opaques, opaques, MultiMap.getAll_write]
            refine ⟨?_, ?_, rfl⟩
            · rw [List.flatMap_append, List.flatMap_cons, hread]
              rfl
            · rw [List.filter_append,
                List.filter_cons_of_neg (by rw [htext]; exact Bool.false_ne_true)]
              exact List.append_nil _
        | false =>
            have hitems : ∀ e ∈ (headers.getAll VARY).flatMap HeaderValue.tokens ++ [t.text],
                Item e := by
              intro e he
              rcases List.mem_append.mp he with he | he
              · obtain ⟨w, -, hw⟩ := List.mem_flatMap.mp he
                exact item_of_mem hw
              · exact List.mem_singleton.mp he ▸ t.item
            obtain ⟨p, ps, hps⟩ : ∃ p ps,
                (headers.getAll VARY).flatMap HeaderValue.tokens ++ [t.text] = p :: ps :=
              List.exists_cons_of_ne_nil (List.append_ne_nil_of_right_ne_nil _
                (List.cons_ne_nil _ _))
            rw [hps] at hitems
            obtain ⟨w, hw, hwread, hwtext⟩ := tokens_join hitems
            rw [if_neg Bool.false_ne_true, hps, hw, Option.map_some, Option.getD_some,
              MultiMap.insert, MultiMap.others_write, tokens, tokens, opaques, opaques,
              MultiMap.getAll_write]
            refine ⟨?_, ?_, rfl⟩
            · rw [List.flatMap_cons, hwread, List.flatMap_nil, List.append_nil, hps]
            · rw [List.filter_cons_of_neg (by rw [hwtext]; exact Bool.false_ne_true),
                List.filter_nil,
                eq_comm, List.filter_eq_nil_iff]
              exact List.any_eq_false.mp hopaque

theorem listed_self : Listed t.text [t.text] :=
  ⟨t.text, List.mem_singleton_self _, .inl (beq_self_eq_true _)⟩

/-- **Appending a token keeps what was there**: the tokens, which come first and in order, the
opaque values, and every other header; then the token is listed, or `*` is, and doing it again
changes nothing. -/
theorem append_vary_token_keeps :
    tokens headers <+: tokens (appendVaryToken headers t.text) ∧
      opaques (appendVaryToken headers t.text) = opaques headers ∧
      Listed t.text (tokens (appendVaryToken headers t.text)) ∧
      (appendVaryToken headers t.text).others VARY = headers.others VARY ∧
      appendVaryToken (appendVaryToken headers t.text) t.text = appendVaryToken headers t.text := by
  by_cases hlisted : Listed t.text (tokens headers)
  · have hsame := append_of_listed headers t hlisted
    rw [hsame]
    exact ⟨List.prefix_rfl, rfl, hlisted, rfl, hsame⟩
  · obtain ⟨htokens, hopaque, hothers⟩ := append_of_not_listed headers t hlisted
    have hafter : Listed t.text (tokens (appendVaryToken headers t.text)) := by
      rw [htokens, listed_append]
      exact .inr (listed_self t)
    refine ⟨?_, hopaque, hafter, hothers, append_of_listed _ t hafter⟩
    rw [htokens]
    exact List.prefix_append _ _

example : ∃ t : Token, t.text = "Origin" :=
  ⟨⟨"Origin", by decide, forall_mem_of_all (by decide)⟩, rfl⟩

end Brust.Core.Vary
