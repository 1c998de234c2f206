import Brust.Core.Request
import Brust.Support.Utf8

/-!
# Core — paths as bytes

`normalize` as the source writes it: a scan for a byte that would change, and where there is one a
rewriter over the bytes, whose output is read back as UTF-8.

A text the scan finds clean is what the rewriter makes of it, and what the rewriter makes is clean
(`Rewritten.clean`), so the two agree (`rewrite_eq_self_iff`) and normalising again changes nothing
(`normalize_idem`).  The output is UTF-8 whatever the input (`rewrite_text`).
-/

namespace Brust.Core.Path

/-! ### The bytes -/

/-- `needs_encode` -/
def needsEncode (b : UInt8) : Bool := Routing.needsEncode b.toNat

/-- `is_ascii_hexdigit` -/
def isHexDigit (b : UInt8) : Bool :=
  (0x30 ≤ b && b ≤ 0x39) || (0x41 ≤ b && b ≤ 0x46) || (0x61 ≤ b && b ≤ 0x66)

/-- `is_ascii_lowercase` -/
def isLowercase (b : UInt8) : Bool := 0x61 ≤ b && b ≤ 0x7a

/-- `to_ascii_uppercase` -/
def toUppercase (b : UInt8) : UInt8 := if isLowercase b then b - 0x20 else b

def HEX : List UInt8 := "0123456789ABCDEF".toList.map fun c => UInt8.ofNat c.toNat

/-- `HEX[n]` -/
def hexDigit (n : ℕ) : UInt8 := HEX.getD n 0

/-- The two digits of the escape that the bytes start with. -/
def escapeAt : List UInt8 → Option (UInt8 × UInt8)
  | c :: x :: y :: _ => if c == 0x25 && isHexDigit x && isHexDigit y then some (x, y) else none
  | _ => none

/-- `depth.saturating_sub(1)` -/
def lower (depth : UInt32) : UInt32 := if depth == 0 then 0 else depth - 1

/-- The scan. -/
def dirty (braces : Bool) (depth : UInt32) : List UInt8 → Bool
  | [] => false
  | c :: rest =>
    if braces && c == 0x7b then dirty braces (depth + 1) rest
    else if braces && c == 0x7d then dirty braces (lower depth) rest
    else if depth == 0 then
      needsEncode c ||
      (match escapeAt (c :: rest) with
        | some (x, y) => isLowercase x || isLowercase y
        | none => false) ||
      dirty braces depth rest
    else dirty braces depth rest

/-- The rewriter; `skip` bytes of an escape are written already. -/
def rewrite (braces : Bool) : UInt32 → ℕ → List UInt8 → List UInt8
  | _, _, [] => []
  | depth, skip + 1, _ :: rest => rewrite braces depth skip rest
  | depth, 0, c :: rest =>
    if braces && c == 0x7b then c :: rewrite braces (depth + 1) 0 rest
    else if braces && c == 0x7d then c :: rewrite braces (lower depth) 0 rest
    else if depth != 0 then c :: rewrite braces depth 0 rest
    else match escapeAt (c :: rest) with
      | some (x, y) => 0x25 :: toUppercase x :: toUppercase y :: rewrite braces depth 2 rest
      | none =>
        if needsEncode c then
          0x25 :: hexDigit (c.toNat / 16) :: hexDigit (c.toNat % 16) :: rewrite braces depth 0 rest
        else c :: rewrite braces depth 0 rest

/-- `Cow<str>` -/
inductive Cow where
  | borrowed (s : String)
  | owned (s : String)

/-- The text, wherever it is. -/
def Cow.text : Cow → String
  | borrowed s => s
  | owned s => s

def Cow.isBorrowed : Cow → Bool
  | borrowed _ => true
  | owned _ => false

def normalize (s : String) (braces : Bool) : Cow :=
  if dirty braces 0 (utf8 s) then .owned ((fromUtf8 (rewrite braces 0 0 (utf8 s))).getD "")
  else .borrowed s

/-! ### What the rewriter does -/

/-- A brace, where braces are read. -/
def isBrace (braces : Bool) (c : UInt8) : Bool := braces && (c == 0x7b || c == 0x7d)

/-- The text `t` is what is written for `s` from a depth on. -/
inductive Rewritten (braces : Bool) : UInt32 → List UInt8 → List UInt8 → Prop
  | nil (depth : UInt32) : Rewritten braces depth [] []
  | opens {depth s t} (hb : braces = true) (h : Rewritten braces (depth + 1) s t) :
      Rewritten braces depth (0x7b :: s) (0x7b :: t)
  | closes {depth s t} (hb : braces = true) (h : Rewritten braces (lower depth) s t) :
      Rewritten braces depth (0x7d :: s) (0x7d :: t)
  | inside {depth c s t} (hd : depth ≠ 0) (hc : isBrace braces c = false)
      (h : Rewritten braces depth s t) : Rewritten braces depth (c :: s) (c :: t)
  | escape {x y s t} (hx : isHexDigit x = true) (hy : isHexDigit y = true)
      (h : Rewritten braces 0 s t) :
      Rewritten braces 0 (0x25 :: x :: y :: s) (0x25 :: toUppercase x :: toUppercase y :: t)
  | encode {c s t} (hn : needsEncode c = true) (h : Rewritten braces 0 s t) :
      Rewritten braces 0 (c :: s) (0x25 :: hexDigit (c.toNat / 16) :: hexDigit (c.toNat % 16) :: t)
  | plain {c s t} (hc : isBrace braces c = false) (hn : needsEncode c = false)
      (he : escapeAt (c :: s) = none) (h : Rewritten braces 0 s t) :
      Rewritten braces 0 (c :: s) (c :: t)

/-! ### The bytes of an escape -/

theorem forall_byte {p : UInt8 → Bool} (h : ∀ n < 256, p (UInt8.ofNat n) = true) (b : UInt8) :
    p b = true := by
  have hb := h b.toNat b.toNat_lt
  rwa [UInt8.ofNat_toNat] at hb

/-- A byte that an escape is written with: it is copied, and no escape starts with it. -/
def Settled (b : UInt8) : Bool :=
  isHexDigit b && !isLowercase b

/-- The digits of an escape, and the bytes that are encoded, byte by byte. -/
theorem byte_table (b : UInt8) :
    (isHexDigit b = true → Settled (toUppercase b) = true ∧ isBrace true b = false ∧
      needsEncode b = false ∧ (b == 0x25) = false ∧ b.toNat < 0x80 ∧ (toUppercase b).toNat < 0x80) ∧
    (needsEncode b = true → isBrace true b = false ∧ (b == 0x25) = false) := by
  have hall := forall_byte (p := fun b => decide ((isHexDigit b = true →
    Settled (toUppercase b) = true ∧ isBrace true b = false ∧ needsEncode b = false ∧
      (b == 0x25) = false ∧ b.toNat < 0x80 ∧ (toUppercase b).toNat < 0x80) ∧
    (needsEncode b = true → isBrace true b = false ∧ (b == 0x25) = false))) (by decide +kernel) b
  exact of_decide_eq_true hall

theorem settled_toUppercase {b : UInt8} (h : isHexDigit b = true) :
    Settled (toUppercase b) = true := ((byte_table b).1 h).1

theorem settled_hexDigit {n : ℕ} (h : n < 16) : Settled (hexDigit n) = true := by
  have hall : ∀ n < 16, Settled (hexDigit n) = true := by decide +kernel
  exact hall n h

/-- A hex digit is copied, and starts no escape. -/
structure Copied (braces : Bool) (b : UInt8) : Prop where
  brace : isBrace braces b = false
  clean : needsEncode b = false
  percent : (b == 0x25) = false

theorem copied_of_hex (braces : Bool) {b : UInt8} (h : isHexDigit b = true) : Copied braces b := by
  obtain ⟨-, hbrace, hclean, hpercent, -⟩ := (byte_table b).1 h
  refine ⟨?_, hclean, hpercent⟩
  cases braces with
  | false => rfl
  | true => exact hbrace

/-- A byte that is encoded is no brace, and starts no escape. -/
theorem of_needsEncode (braces : Bool) {b : UInt8} (h : needsEncode b = true) :
    isBrace braces b = false ∧ (b == 0x25) = false := by
  obtain ⟨hbrace, hpercent⟩ := (byte_table b).2 h
  refine ⟨?_, hpercent⟩
  cases braces with
  | false => rfl
  | true => exact hbrace

theorem isBrace_eq_false {braces : Bool} {c : UInt8} (h : isBrace braces c = false) :
    (braces && c == 0x7b) = false ∧ (braces && c == 0x7d) = false := by
  rwa [isBrace, Bool.and_or_distrib_left, Bool.or_eq_false_iff] at h

theorem isBrace_percent (braces : Bool) : isBrace braces 0x25 = false := by
  cases braces <;> rfl

theorem hex_of_settled {b : UInt8} (h : Settled b = true) :
    isHexDigit b = true ∧ isLowercase b = false := by
  rw [Settled, Bool.and_eq_true, Bool.not_eq_true'] at h
  exact h

theorem toUppercase_of_not_lower {b : UInt8} (h : isLowercase b = false) : toUppercase b = b := by
  rw [toUppercase, h, if_neg Bool.false_ne_true]

theorem escapeAt_eq_some {s : List UInt8} {x y : UInt8} (h : escapeAt s = some (x, y)) :
    isHexDigit x = true ∧ isHexDigit y = true ∧ ∃ rest, s = 0x25 :: x :: y :: rest := by
  match s with
  | [] => cases h
  | [_] => cases h
  | [_, _] => cases h
  | c :: x' :: y' :: rest =>
      rw [escapeAt] at h
      split at h
      · next hc =>
        rw [Bool.and_eq_true, Bool.and_eq_true, beq_iff_eq] at hc
        cases h
        exact ⟨hc.1.2, hc.2, rest, by rw [hc.1.1]⟩
      · cases h

theorem escapeAt_escape {x y : UInt8} (hx : isHexDigit x = true) (hy : isHexDigit y = true)
    (s : List UInt8) : escapeAt (0x25 :: x :: y :: s) = some (x, y) := by
  rw [escapeAt, hx, hy]
  rfl

theorem escapeAt_of_not_percent {c : UInt8} (h : (c == 0x25) = false) (s : List UInt8) :
    escapeAt (c :: s) = none := by
  match s with
  | [] => rfl
  | [_] => rfl
  | x :: y :: s =>
      rw [escapeAt, h, Bool.false_and, Bool.false_and, if_neg Bool.false_ne_true]

theorem rewritten (braces : Bool) (depth : UInt32) (s : List UInt8) :
    Rewritten braces depth s (rewrite braces depth 0 s) := by
  -- an escape is three bytes, so the induction is on the length
  obtain ⟨n, hn⟩ : ∃ n, s.length ≤ n := ⟨_, Nat.le_refl _⟩
  induction n generalizing s depth with
  | zero =>
      rw [List.eq_nil_of_length_eq_zero (Nat.le_zero.mp hn)]
      exact .nil depth
  | succ n ih =>
      match s with
      | [] => exact .nil depth
      | c :: rest =>
          have hrest : rest.length ≤ n := Nat.le_of_succ_le_succ hn
          rw [rewrite]
          split
          · next hopen =>
            rw [Bool.and_eq_true, beq_iff_eq] at hopen
            rw [hopen.2]
            exact .opens hopen.1 (ih _ _ hrest)
          split
          · next hclose =>
            rw [Bool.and_eq_true, beq_iff_eq] at hclose
            rw [hclose.2]
            exact .closes hclose.1 (ih _ _ hrest)
          have hbrace : isBrace braces c = false := by
            simp_all [isBrace]
          split
          · next hd => exact .inside (bne_iff_ne.mp hd) hbrace (ih _ _ hrest)
          obtain rfl : depth = 0 := by simp_all
          split
          · next x y hescape =>
            obtain ⟨hx, hy, s', hs⟩ := escapeAt_eq_some hescape
            obtain ⟨rfl, rfl⟩ := List.cons.inj hs
            exact .escape hx hy (ih 0 s' (by simp at hrest; omega))
          · next hescape =>
            split
            · next hneeds => exact .encode hneeds (ih _ _ hrest)
            · next hneeds =>
              exact .plain hbrace (Bool.not_eq_true _ ▸ hneeds) hescape (ih _ _ hrest)

/-! ### The scan agrees with the rewriter -/

section
variable {braces : Bool} {depth : UInt32} {s t : List UInt8}

theorem dirty_cons {c : UInt8} (hc : isBrace braces c = false) (s : List UInt8) :
    dirty braces 0 (c :: s) =
      (needsEncode c ||
        (match escapeAt (c :: s) with
          | some (x, y) => isLowercase x || isLowercase y
          | none => false) ||
        dirty braces 0 s) := by
  obtain ⟨hopen, hclose⟩ := isBrace_eq_false hc
  rw [dirty, hopen, hclose, if_neg Bool.false_ne_true, if_neg Bool.false_ne_true,
    if_pos (beq_self_eq_true 0)]

theorem dirty_inside {c : UInt8} (hc : isBrace braces c = false) (hd : depth ≠ 0)
    (s : List UInt8) : dirty braces depth (c :: s) = dirty braces depth s := by
  obtain ⟨hopen, hclose⟩ := isBrace_eq_false hc
  rw [dirty, hopen, hclose, if_neg Bool.false_ne_true, if_neg Bool.false_ne_true,
    if_neg fun h => hd (beq_iff_eq.mp h)]

theorem dirty_opens (s : List UInt8) :
    dirty true depth (0x7b :: s) = dirty true (depth + 1) s := by
  rw [dirty, if_pos (by decide)]

theorem dirty_closes (s : List UInt8) :
    dirty true depth (0x7d :: s) = dirty true (lower depth) s := by
  rw [dirty, if_neg (by decide), if_pos (by decide)]

/-- A hex digit that no escape is read in front of is passed. -/
theorem dirty_hex {x : UInt8} (hx : isHexDigit x = true) (s : List UInt8) :
    dirty braces 0 (x :: s) = dirty braces 0 s := by
  have hcopied := copied_of_hex braces hx
  rw [dirty_cons hcopied.brace, hcopied.clean, escapeAt_of_not_percent hcopied.percent]
  rfl

theorem dirty_escape {x y : UInt8} (hx : isHexDigit x = true) (hy : isHexDigit y = true)
    (s : List UInt8) :
    dirty braces 0 (0x25 :: x :: y :: s) =
      (isLowercase x || isLowercase y || dirty braces 0 s) := by
  have hpercent : needsEncode 0x25 = false := by decide
  rw [dirty_cons (isBrace_percent braces), escapeAt_escape hx hy, dirty_hex hx, dirty_hex hy,
    hpercent, Bool.false_or]

theorem dirty_settled {x y : UInt8} (hx : Settled x = true) (hy : Settled y = true)
    (s : List UInt8) : dirty braces 0 (0x25 :: x :: y :: s) = dirty braces 0 s := by
  obtain ⟨hhex, hlow⟩ := hex_of_settled hx
  obtain ⟨hhex', hlow'⟩ := hex_of_settled hy
  rw [dirty_escape hhex hhex', hlow, hlow']
  rfl

/-- A hex digit that was written was there. -/
theorem Rewritten.hex_head {x : UInt8} (h : Rewritten braces 0 s (x :: t))
    (hx : isHexDigit x = true) : ∃ s', s = x :: s' ∧ Rewritten braces 0 s' t := by
  have hnot : ∀ b : UInt8, b = 0x25 ∨ b = 0x7b ∨ b = 0x7d → ¬ isHexDigit b = true := by
    rintro b (rfl | rfl | rfl) <;> decide
  cases h with
  | opens hb h => exact absurd hx (hnot _ (.inr (.inl rfl)))
  | closes hb h => exact absurd hx (hnot _ (.inr (.inr rfl)))
  | inside hd hc h => exact absurd rfl hd
  | escape hx' hy' h => exact absurd hx (hnot _ (.inl rfl))
  | encode hn h => exact absurd hx (hnot _ (.inl rfl))
  | plain hc hn he h => exact ⟨_, rfl, h⟩

/-- No escape comes into being behind a byte that was copied. -/
theorem Rewritten.escapeAt_none {c : UInt8} (h : Rewritten braces 0 s t)
    (he : escapeAt (c :: s) = none) : escapeAt (c :: t) = none := by
  refine Option.eq_none_iff_forall_ne_some.mpr fun ⟨x, y⟩ hsome => ?_
  obtain ⟨hx, hy, rest, ht⟩ := escapeAt_eq_some hsome
  obtain ⟨rfl, rfl⟩ := List.cons.inj ht
  obtain ⟨s', rfl, h'⟩ := h.hex_head hx
  obtain ⟨s'', rfl, -⟩ := h'.hex_head hy
  rw [escapeAt_escape hx hy] at he
  cases he

/-- **What the rewriter writes is clean.** -/
theorem Rewritten.clean (h : Rewritten braces depth s t) : dirty braces depth t = false := by
  induction h with
  | nil depth => rfl
  | opens hb h ih =>
      subst hb
      rw [dirty_opens, ih]
  | closes hb h ih =>
      subst hb
      rw [dirty_closes, ih]
  | inside hd hc h ih => rw [dirty_inside hc hd, ih]
  | escape hx hy h ih => rw [dirty_settled (settled_toUppercase hx) (settled_toUppercase hy), ih]
  | @encode c s t hn h ih =>
      have hlt : c.toNat < 256 := c.toNat_lt
      rw [dirty_settled (settled_hexDigit (by omega)) (settled_hexDigit (by omega)), ih]
  | plain hc hn he h ih => rw [dirty_cons hc, hn, h.escapeAt_none he, ih]; rfl

/-- What the scan finds clean is copied. -/
theorem Rewritten.eq_of_clean (h : Rewritten braces depth s t) (hs : dirty braces depth s = false) :
    t = s := by
  induction h with
  | nil depth => rfl
  | opens hb h ih =>
      subst hb
      rw [dirty_opens] at hs
      rw [ih hs]
  | closes hb h ih =>
      subst hb
      rw [dirty_closes] at hs
      rw [ih hs]
  | inside hd hc h ih =>
      rw [dirty_inside hc hd] at hs
      rw [ih hs]
  | escape hx hy h ih =>
      rw [dirty_escape hx hy, Bool.or_eq_false_iff, Bool.or_eq_false_iff] at hs
      rw [ih hs.2, toUppercase_of_not_lower hs.1.1, toUppercase_of_not_lower hs.1.2]
  | @encode c s t hn h ih =>
      rw [dirty_cons (of_needsEncode braces hn).1, hn] at hs
      cases hs
  | plain hc hn he h ih =>
      rw [dirty_cons hc, hn, he] at hs
      rw [ih hs]

end

theorem rewrite_eq_self_iff {braces : Bool} {depth : UInt32} {s : List UInt8} :
    rewrite braces depth 0 s = s ↔ dirty braces depth s = false := by
  constructor
  · intro h
    have hclean := (rewritten braces depth s).clean
    rwa [h] at hclean
  · exact (rewritten braces depth s).eq_of_clean

theorem rewrite_cons {braces : Bool} {c : UInt8} (hc : isBrace braces c = false) (s : List UInt8) :
    rewrite braces 0 0 (c :: s) = match escapeAt (c :: s) with
      | some (x, y) => 0x25 :: toUppercase x :: toUppercase y :: rewrite braces 0 2 s
      | none =>
        if needsEncode c then
          0x25 :: hexDigit (c.toNat / 16) :: hexDigit (c.toNat % 16) :: rewrite braces 0 0 s
        else c :: rewrite braces 0 0 s := by
  obtain ⟨hopen, hclose⟩ := isBrace_eq_false hc
  rw [rewrite, hopen, hclose, if_neg Bool.false_ne_true, if_neg Bool.false_ne_true,
    if_neg (by decide)]

/-- Every text has one rewriting. -/
theorem Rewritten.eq_rewrite {braces : Bool} {depth : UInt32} {s t : List UInt8}
    (h : Rewritten braces depth s t) : t = rewrite braces depth 0 s := by
  induction h with
  | nil depth => rfl
  | opens hb h ih =>
      subst hb
      rw [rewrite, if_pos (by decide), ih]
  | closes hb h ih =>
      subst hb
      rw [rewrite, if_neg (by decide), if_pos (by decide), ih]
  | inside hd hc h ih =>
      obtain ⟨hopen, hclose⟩ := isBrace_eq_false hc
      rw [rewrite, hopen, hclose, if_neg Bool.false_ne_true, if_neg Bool.false_ne_true,
        if_pos (bne_iff_ne.mpr hd), ih]
  | escape hx hy h ih =>
      rw [rewrite_cons (isBrace_percent braces), escapeAt_escape hx hy, ih]
      rfl
  | encode hn h ih =>
      obtain ⟨hbrace, hpercent⟩ := of_needsEncode braces hn
      rw [rewrite_cons hbrace, escapeAt_of_not_percent hpercent, ih]
      exact (if_pos hn).symm
  | plain hc hn he h ih =>
      rw [rewrite_cons hc, he, ih]
      exact (if_neg (by rw [hn]; exact Bool.false_ne_true)).symm

/-! ### The output is UTF-8 -/

theorem fromUtf8_encoded (cs : List Char) : fromUtf8 (encoded cs) = some (String.ofList cs) := by
  have hbytes : (⟨(encoded cs).toArray⟩ : ByteArray) = (String.ofList cs).toByteArray := by
    rw [String.toByteArray_ofList]
    refine ByteArray.ext (Array.toList_inj.mp ?_)
    exact (List.toList_data_toByteArray (l := encoded cs)).symm
  rw [fromUtf8, hbytes, String.fromUTF8?, dif_pos (String.ofList cs).isValidUTF8]
  rfl

theorem encoded_append (s t : List Char) : encoded (s ++ t) = encoded s ++ encoded t :=
  List.flatMap_append

theorem encoded_cons (c : Char) (s : List Char) :
    encoded (c :: s) = String.utf8EncodeChar c ++ encoded s := List.flatMap_cons

/-- An ASCII byte as a character. -/
theorem encoded_ascii {b : UInt8} (h : b.toNat < 0x80) : ∃ c, encoded [c] = [b] := by
  have hall : ∀ n < 0x80, encoded [Char.ofNat n] = [UInt8.ofNat n] := by decide +kernel
  have hb := hall b.toNat h
  rw [UInt8.ofNat_toNat] at hb
  exact ⟨_, hb⟩

/-- ASCII bytes in front of a text. -/
theorem text_append {bs t : List UInt8} (h : ∀ b ∈ bs, b.toNat < 0x80)
    (ht : ∃ cs, t = encoded cs) : ∃ cs, bs ++ t = encoded cs := by
  induction bs with
  | nil => exact ht
  | cons b bs ih =>
      obtain ⟨cs, hcs⟩ := ih fun b' hb' => h b' (List.mem_cons_of_mem _ hb')
      obtain ⟨c, hc⟩ := encoded_ascii (h b List.mem_cons_self)
      refine ⟨c :: cs, ?_⟩
      rw [List.cons_append, hcs, ← List.singleton_append, ← hc, ← encoded_append]
      rfl

/-- The first byte of a text is that of a character; the rest of it is not ASCII. -/
theorem encoded_eq_cons {cs : List Char} {b : UInt8} {s : List UInt8} (h : encoded cs = b :: s) :
    ∃ c bs cs', String.utf8EncodeChar c = b :: bs ∧ (∀ x ∈ bs, 0x80 ≤ x.toNat) ∧
      (b.toNat < 0x80 → bs = []) ∧ s = bs ++ encoded cs' := by
  cases cs with
  | nil => cases h
  | cons c cs' =>
      rw [encoded_cons] at h
      rcases utf8EncodeChar_cases c with ⟨b', -, he⟩ | ⟨b', bs, he, -, hall⟩
      · rw [he] at h
        obtain ⟨rfl, hs⟩ := List.cons.inj h
        exact ⟨c, [], cs', he, by simp, fun _ => rfl, hs.symm⟩
      · rw [he] at h
        obtain ⟨rfl, hs⟩ := List.cons.inj h
        refine ⟨c, bs, cs', he, fun x hx => hall x (List.mem_cons_of_mem _ hx), fun hb =>
          ?_, hs.symm⟩
        exact absurd hb (Nat.not_lt.mpr (hall b' List.mem_cons_self))

theorem needsEncode_high {b : UInt8} (h : 0x80 ≤ b.toNat) : needsEncode b = true := by
  rw [needsEncode, Routing.needsEncode, decide_eq_true h]
  rfl

theorem hex_ascii {b : UInt8} (h : isHexDigit b = true) :
    b.toNat < 0x80 ∧ (toUppercase b).toNat < 0x80 := ((byte_table b).1 h).2.2.2.2

theorem hexDigit_lt {n : ℕ} (h : n < 16) : (hexDigit n).toNat < 0x80 := by
  have hsettled := settled_hexDigit h
  rw [Settled, Bool.and_eq_true] at hsettled
  exact (hex_ascii hsettled.1).1

/-- What is written for a byte that is encoded is ASCII. -/
theorem escape_ascii (b : UInt8) :
    ∀ x ∈ [0x25, hexDigit (b.toNat / 16), hexDigit (b.toNat % 16)], x.toNat < 0x80 := by
  have hlt : b.toNat < 256 := b.toNat_lt
  intro x hx
  simp only [List.mem_cons, List.not_mem_nil, or_false] at hx
  rcases hx with rfl | rfl | rfl
  · decide
  · exact hexDigit_lt (by omega)
  · exact hexDigit_lt (by omega)

/-- An ASCII byte is not of the rest of a character. -/
theorem ascii_head {b : UInt8} {s bs : List UInt8} {cs : List Char} (hb : b.toNat < 0x80)
    (hbs : ∀ x ∈ bs, 0x80 ≤ x.toNat) (h : b :: s = bs ++ encoded cs) :
    bs = [] ∧ ∃ c cs', String.utf8EncodeChar c = [b] ∧ s = encoded cs' := by
  cases bs with
  | cons x bs =>
      obtain ⟨rfl, -⟩ := List.cons.inj h
      exact absurd hb (Nat.not_lt.mpr (hbs b List.mem_cons_self))
  | nil =>
      obtain ⟨c, bs, cs', he, -, hnil, hs⟩ := encoded_eq_cons h.symm
      rw [hnil hb] at he hs
      exact ⟨rfl, c, cs', he, hs⟩

/-- What `t` is when the rest `bs` of a character and a text are rewritten to it. -/
def Whole (depth : UInt32) (bs t : List UInt8) : Prop :=
  ∃ cs, t = (if depth = 0 then [] else bs) ++ encoded cs

theorem whole_nil {depth : UInt32} {t : List UInt8} : Whole depth [] t ↔ ∃ cs, t = encoded cs := by
  rw [Whole, ite_self]
  exact Iff.rfl

theorem whole_zero {bs t : List UInt8} : Whole 0 bs t ↔ ∃ cs, t = encoded cs := by
  rw [Whole, if_pos rfl]
  exact Iff.rfl

theorem Rewritten.whole {braces : Bool} {depth : UInt32} {s t : List UInt8}
    (h : Rewritten braces depth s t) {bs : List UInt8} {cs : List Char}
    (hbs : ∀ b ∈ bs, 0x80 ≤ b.toNat) (hs : s = bs ++ encoded cs) : Whole depth bs t := by
  -- a byte that is copied in front of a text is a character of it
  have hcopied : ∀ {c : UInt8} {t : List UInt8} {ch : Char}, String.utf8EncodeChar ch = [c] →
      (∃ cs, t = encoded cs) → ∃ cs, c :: t = encoded cs := by
    rintro c t ch he ⟨cs, rfl⟩
    exact ⟨ch :: cs, by rw [encoded_cons, he]; rfl⟩
  induction h generalizing bs cs with
  | nil depth =>
      obtain ⟨rfl, -⟩ := List.append_eq_nil_iff.mp hs.symm
      exact whole_nil.mpr ⟨[], rfl⟩
  | opens hb h ih =>
      obtain ⟨rfl, c, cs', he, rfl⟩ := ascii_head (by decide) hbs hs
      exact whole_nil.mpr (hcopied he (whole_nil.mp (ih nofun (List.nil_append _).symm)))
  | closes hb h ih =>
      obtain ⟨rfl, c, cs', he, rfl⟩ := ascii_head (by decide) hbs hs
      exact whole_nil.mpr (hcopied he (whole_nil.mp (ih nofun (List.nil_append _).symm)))
  | inside hd hc h ih =>
      cases bs with
      | cons b bs =>
          obtain ⟨rfl, rfl⟩ := List.cons.inj hs
          obtain ⟨cs', ht⟩ := ih (fun x hx => hbs x (List.mem_cons_of_mem _ hx)) rfl
          rw [if_neg hd] at ht
          exact ⟨cs', by rw [if_neg hd, ht]; rfl⟩
      | nil =>
          obtain ⟨ch, bs, cs', he, hhigh, -, rfl⟩ := encoded_eq_cons hs.symm
          obtain ⟨cs'', ht⟩ := ih hhigh rfl
          rw [if_neg hd] at ht
          exact whole_nil.mpr ⟨ch :: cs'', by rw [encoded_cons, he, ht]; rfl⟩
  | @escape x y s t hx hy h ih =>
      obtain ⟨rfl, c, cs', he, hs⟩ := ascii_head (by decide) hbs hs
      obtain ⟨-, c', cs', -, hs⟩ := @ascii_head _ _ [] _ (hex_ascii hx).1 (by simp) hs
      obtain ⟨-, c'', cs', -, hs⟩ := @ascii_head _ _ [] _ (hex_ascii hy).1 (by simp) hs
      have htext := whole_nil.mp (ih nofun hs)
      have hascii : ∀ b ∈ [0x25, toUppercase x, toUppercase y], b.toNat < 0x80 := by
        simp only [List.forall_mem_cons, List.not_mem_nil, false_implies, implies_true, and_true]
        exact ⟨by decide, (hex_ascii hx).2, (hex_ascii hy).2⟩
      exact whole_nil.mpr (text_append hascii htext)
  | @encode c s t hn h ih =>
      have htext : ∃ cs, t = encoded cs := by
        cases bs with
        | cons b bs =>
            obtain ⟨rfl, rfl⟩ := List.cons.inj hs
            exact whole_zero.mp (ih (fun x hx => hbs x (List.mem_cons_of_mem _ hx)) rfl)
        | nil =>
            obtain ⟨ch, bs, cs', he, hhigh, -, rfl⟩ := encoded_eq_cons hs.symm
            exact whole_zero.mp (ih hhigh rfl)
      exact whole_zero.mpr (text_append (escape_ascii _) htext)
  | @plain c s t hc hn he h ih =>
      have hlow : c.toNat < 0x80 := by
        by_contra hhigh
        rw [needsEncode_high (Nat.not_lt.mp hhigh)] at hn
        cases hn
      obtain ⟨rfl, ch, cs', hch, rfl⟩ := ascii_head hlow hbs hs
      exact whole_nil.mpr (hcopied hch (whole_nil.mp (ih nofun (List.nil_append _).symm)))

/-- **The rewriter's output is UTF-8.** -/
theorem rewrite_text (braces : Bool) (depth : UInt32) (cs : List Char) :
    ∃ cs', rewrite braces depth 0 (encoded cs) = encoded cs' :=
  whole_nil.mp ((rewritten braces depth (encoded cs)).whole nofun (List.nil_append _).symm)

theorem utf8_eq (s : String) : utf8 s = encoded s.toList := rfl

theorem fromUtf8_utf8 (s : String) : fromUtf8 (utf8 s) = some s := by
  rw [utf8_eq, fromUtf8_encoded, String.ofList_toList]

/-- The output is read back, whether or not the input is copied. -/
theorem fromUtf8_rewrite (s : String) (braces : Bool) :
    fromUtf8 (rewrite braces 0 0 (utf8 s)) = some (normalize s braces).text := by
  rw [normalize]
  split
  · obtain ⟨cs, hcs⟩ := rewrite_text braces 0 s.toList
    rw [← utf8_eq] at hcs
    rw [hcs, fromUtf8_encoded]
    rfl
  · next hclean =>
    rw [rewrite_eq_self_iff.mpr (Bool.not_eq_true _ ▸ hclean)]
    exact fromUtf8_utf8 s

theorem utf8_of_fromUtf8 {bs : List UInt8} {s : String} (h : fromUtf8 bs = some s) :
    utf8 s = bs := by
  rw [fromUtf8, String.fromUTF8?] at h
  split at h
  · have hbytes : s.toByteArray = ⟨bs.toArray⟩ := by
      rw [← Option.some.inj h]
      rfl
    rw [← String.ofList_toList (s := s), String.toByteArray_ofList] at hbytes
    have hlist := congrArg (fun a : ByteArray => a.data.toList) hbytes
    exact (List.toList_data_toByteArray (l := encoded s.toList)).symm.trans hlist
  · cases h

theorem utf8_normalize (s : String) (braces : Bool) :
    utf8 (normalize s braces).text = rewrite braces 0 0 (utf8 s) :=
  utf8_of_fromUtf8 (fromUtf8_rewrite s braces)

theorem isBorrowed_iff {s : String} {braces : Bool} :
    (normalize s braces).isBorrowed = true ↔ rewrite braces 0 0 (utf8 s) = utf8 s := by
  rw [rewrite_eq_self_iff, normalize]
  split
  · next hdirty =>
    rw [hdirty]
    exact ⟨fun h => (by cases h), fun h => (by cases h)⟩
  · next hclean => exact ⟨fun _ => Bool.not_eq_true _ ▸ hclean, fun _ => rfl⟩

/-- A normalised text is borrowed. -/
theorem normalize_idem (s : String) (braces : Bool) :
    normalize (normalize s braces).text braces = .borrowed (normalize s braces).text := by
  have hclean := (rewritten braces 0 (utf8 s)).clean
  rw [← utf8_normalize s braces] at hclean
  rw [normalize, hclean, if_neg Bool.false_ne_true]

end Brust.Core.Path
