import Brust.Core.Path.Characters

/-!
# Core — what a normalised path decodes to

Where every escape of a path is one, normalising it changes only how bytes are spelled
(`Rewritten.respelled`): a `/` stays one, and no other byte becomes one.  So the segments are
respelled each on its own (`Respelled.segments`), and decode to what they did.
-/

namespace Brust.Core.Path

/-! ### Two spellings of the same bytes -/

/-- `a` is the byte `v`, or its escape. -/
def Spells (a : List UInt8) (v : UInt8) : Prop :=
  (a = [v] ∧ v ≠ 0x25) ∨
    ∃ x y h l, a = [0x25, x, y] ∧ toDigit x = some h ∧ toDigit y = some l ∧ v = h * 16 + l

/-- The same bytes, each written as itself or escaped; a `/` is written as itself in both. -/
inductive Respelled : List UInt8 → List UInt8 → Prop
  | nil : Respelled [] []
  | slash {s t} (h : Respelled s t) : Respelled (0x2f :: s) (0x2f :: t)
  | byte {a b v s t} (ha : Spells a v) (hb : Spells b v) (hsa : 0x2f ∉ a) (hsb : 0x2f ∉ b)
      (h : Respelled s t) : Respelled (a ++ s) (b ++ t)

theorem unescape_cons {b : UInt8} (hb : b ≠ 0x25) (s : List UInt8) :
    unescape false (b :: s) = b :: unescape false s := by
  have hbeq : (b == 0x25) = false := beq_eq_false_iff_ne.mpr hb
  match s with
  | [] => rfl
  | [c] => rfl
  | h :: l :: rest =>
      rw [unescape, hbeq]
      rfl

theorem wellEscaped_cons {b : UInt8} (hb : b ≠ 0x25) (s : List UInt8) :
    wellEscaped (b :: s) = wellEscaped s := by
  rw [wellEscaped.eq_def]
  simp only [beq_eq_false_iff_ne.mpr hb, Bool.false_eq_true, if_false]

theorem Spells.unescape {a : List UInt8} {v : UInt8} (h : Spells a v) (s : List UInt8) :
    Core.unescape false (a ++ s) = v :: Core.unescape false s := by
  rcases h with ⟨rfl, hv⟩ | ⟨x, y, h, l, rfl, hx, hy, rfl⟩
  · exact unescape_cons hv s
  · simp only [List.cons_append, List.nil_append, Core.unescape, Bool.false_and,
      Bool.false_eq_true, if_false, beq_self_eq_true, if_true, hx, hy]

theorem Spells.wellEscaped {a : List UInt8} {v : UInt8} (h : Spells a v) (s : List UInt8) :
    Core.wellEscaped (a ++ s) = Core.wellEscaped s := by
  rcases h with ⟨rfl, hv⟩ | ⟨x, y, h, l, rfl, hx, hy, rfl⟩
  · exact wellEscaped_cons hv s
  · simp only [List.cons_append, List.nil_append, Core.wellEscaped, beq_self_eq_true, if_true, hx,
      hy, Option.isSome_some, Bool.true_and]

namespace Respelled

theorem symm {s t : List UInt8} (h : Respelled s t) : Respelled t s := by
  induction h with
  | nil => exact .nil
  | slash h ih => exact .slash ih
  | byte ha hb hsa hsb h ih => exact .byte hb ha hsb hsa ih

theorem unescape {s t : List UInt8} (h : Respelled s t) :
    Core.unescape false s = Core.unescape false t := by
  induction h with
  | nil => rfl
  | slash h ih => rw [unescape_cons (by decide), unescape_cons (by decide), ih]
  | byte ha hb hsa hsb h ih => rw [ha.unescape, hb.unescape, ih]

theorem wellEscaped {s t : List UInt8} (h : Respelled s t) : Core.wellEscaped s = true := by
  induction h with
  | nil => rfl
  | slash h ih => rw [wellEscaped_cons (by decide), ih]
  | byte ha hb hsa hsb h ih => rw [ha.wellEscaped, ih]

/-- The segments are respelled, each on its own. -/
theorem segments {s t : List UInt8} (h : Respelled s t) :
    List.Forall₂ Respelled (s.splitOn 0x2f) (t.splitOn 0x2f) := by
  induction h with
  | nil => exact .cons .nil .nil
  | slash h ih =>
      rw [splitOn_cons_self, splitOn_cons_self]
      exact .cons .nil ih
  | @byte a b v s t ha hb hsa hsb h ih =>
      rw [splitOn_append_of_notMem hsa, splitOn_append_of_notMem hsb]
      generalize s.splitOn 0x2f = ps at ih ⊢
      generalize t.splitOn 0x2f = qs at ih ⊢
      cases ih with
      | nil => exact .nil
      | cons hhead htail => exact .cons (.byte ha hb hsa hsb hhead) htail

/-- What a text's segments unescape to, it unescapes to. -/
theorem unescape_segments {s t : List UInt8} (h : Respelled s t) : Core.unescape false s =
    [0x2f].intercalate ((s.splitOn 0x2f).map (Core.unescape false)) := by
  induction h with
  | nil => rfl
  | @slash s t h ih =>
      rw [unescape_cons (by decide), splitOn_cons_self, ih]
      cases hs : s.splitOn 0x2f with
      | nil => exact absurd hs (List.splitOn_ne_nil _ _)
      | cons p ps => rfl
  | @byte a b v s t ha hb hsa hsb h ih =>
      rw [ha.unescape, splitOn_append_of_notMem hsa, ih]
      cases hs : s.splitOn 0x2f with
      | nil => exact absurd hs (List.splitOn_ne_nil _ _)
      | cons p ps =>
          rw [List.modifyHead_cons, List.map_cons, List.map_cons, ha.unescape]
          cases ps with
          | nil => simp
          | cons q qs => simp

end Respelled

/-! ### The normalised path is the path respelled -/

/-- What digits stand for, byte by byte. -/
theorem digit_table (b : UInt8) : (toDigit b).isSome = isHexDigit b ∧
    (isHexDigit b = true → toDigit (toUppercase b) = toDigit b ∧ b ≠ 0x2f ∧ toUppercase b ≠ 0x2f ∧
      b ≠ 0x7b ∧ b ≠ 0x7d) := by
  have hall := forall_byte (p := fun b => decide ((toDigit b).isSome = isHexDigit b ∧
    (isHexDigit b = true → toDigit (toUppercase b) = toDigit b ∧ b ≠ 0x2f ∧ toUppercase b ≠ 0x2f ∧
      b ≠ 0x7b ∧ b ≠ 0x7d))) (by decide +kernel) b
  exact of_decide_eq_true hall

theorem toDigit_isHexDigit {b : UInt8} (h : isHexDigit b = true) :
    (∃ v, toDigit b = some v ∧ toDigit (toUppercase b) = some v) ∧
      b ≠ 0x2f ∧ toUppercase b ≠ 0x2f ∧ b ≠ 0x7b ∧ b ≠ 0x7d := by
  obtain ⟨hsome, hhex⟩ := digit_table b
  obtain ⟨hupper, hbytes⟩ := hhex h
  obtain ⟨v, hv⟩ := Option.isSome_iff_exists.mp (hsome.trans h)
  exact ⟨⟨v, hv, hupper.trans hv⟩, hbytes⟩

theorem isHexDigit_toDigit {b : UInt8} (h : (toDigit b).isSome = true) : isHexDigit b = true :=
  (digit_table b).1.symm.trans h

/-- An escape, in the case it has and in capitals. -/
theorem spells_escape {x y : UInt8} (hx : isHexDigit x = true) (hy : isHexDigit y = true) :
    ∃ v, Spells [0x25, x, y] v ∧ Spells [0x25, toUppercase x, toUppercase y] v := by
  obtain ⟨⟨h, hh, hh'⟩, -⟩ := toDigit_isHexDigit hx
  obtain ⟨⟨l, hl, hl'⟩, -⟩ := toDigit_isHexDigit hy
  exact ⟨h * 16 + l, .inr ⟨x, y, h, l, rfl, hh, hl, rfl⟩,
    .inr ⟨toUppercase x, toUppercase y, h, l, rfl, hh', hl', rfl⟩⟩

/-- What is written for a byte that is encoded. -/
theorem spells_encode (b : UInt8) :
    Spells [0x25, hexDigit (b.toNat / 16), hexDigit (b.toNat % 16)] b ∧
      0x2f ∉ [0x25, hexDigit (b.toNat / 16), hexDigit (b.toNat % 16)] := by
  have hall := forall_byte (p := fun b =>
    (toDigit (hexDigit (b.toNat / 16))).any (fun h =>
      (toDigit (hexDigit (b.toNat % 16))).any fun l => b == h * 16 + l) &&
    decide (0x2f ∉ [0x25, hexDigit (b.toNat / 16), hexDigit (b.toNat % 16)])) (by decide +kernel) b
  rw [Bool.and_eq_true, decide_eq_true_eq, Option.any_eq_true] at hall
  obtain ⟨⟨h, hh, hrest⟩, hslash⟩ := hall
  obtain ⟨l, hl, hbyte⟩ := (Option.any_eq_true _ _).mp hrest
  exact ⟨.inr ⟨_, _, h, l, rfl, hh, hl, eq_of_beq hbyte⟩, hslash⟩

theorem escape_of_wellEscaped {s : List UInt8} (h : wellEscaped (0x25 :: s) = true) :
    ∃ x y r, s = x :: y :: r ∧ isHexDigit x = true ∧ isHexDigit y = true ∧
      wellEscaped r = true := by
  match s with
  | [] => cases h
  | [x] => cases h
  | x :: y :: r =>
      rw [wellEscaped, if_pos (beq_self_eq_true _), Bool.and_eq_true, Bool.and_eq_true] at h
      exact ⟨x, y, r, rfl, isHexDigit_toDigit h.1.1, isHexDigit_toDigit h.1.2, h.2⟩

/-- A hex digit in the braces is copied. -/
theorem Rewritten.inside_hex {braces : Bool} {depth : UInt32} {x : UInt8} {s t : List UInt8}
    (h : Rewritten braces depth (x :: s) t) (hd : depth ≠ 0) (hx : isHexDigit x = true) :
    ∃ t', t = x :: t' ∧ Rewritten braces depth s t' := by
  obtain ⟨-, -, -, hopen, hclose⟩ := toDigit_isHexDigit hx
  cases h with
  | opens => exact absurd rfl hopen
  | closes => exact absurd rfl hclose
  | inside _ _ h => exact ⟨_, rfl, h⟩
  | escape => exact absurd rfl hd
  | encode => exact absurd rfl hd
  | plain => exact absurd rfl hd

/-- **Only spellings change**, where every escape is one. -/
theorem Rewritten.respelled {braces : Bool} {depth : UInt32} {s t : List UInt8}
    (h : Rewritten braces depth s t) (hs : wellEscaped s = true) : Respelled s t := by
  -- an escape is three bytes, so the induction is on the length
  obtain ⟨n, hn⟩ : ∃ n, s.length ≤ n := ⟨_, Nat.le_refl _⟩
  induction n generalizing depth s t with
  | zero =>
      obtain rfl := List.eq_nil_of_length_eq_zero (Nat.le_zero.mp hn)
      cases h
      exact .nil
  | succ n ih =>
      -- a byte that is no `%` and is copied
      have hsame : ∀ {depth : UInt32} {c : UInt8} {s t : List UInt8}, c ≠ 0x25 →
          wellEscaped (c :: s) = true → (c :: s).length ≤ n + 1 → Rewritten braces depth s t →
          Respelled (c :: s) (c :: t) := by
        intro depth c s t hc hs hn h
        rw [wellEscaped_cons hc] at hs
        have htail := ih h hs (Nat.le_of_succ_le_succ hn)
        by_cases hslash : c = 0x2f
        · subst hslash
          exact .slash htail
        · have hnot : 0x2f ∉ [c] := fun hmem => hslash (List.mem_singleton.mp hmem).symm
          exact .byte (.inl ⟨rfl, hc⟩) (.inl ⟨rfl, hc⟩) hnot hnot htail
      -- an escape, copied or in capitals
      have hescape : ∀ {depth : UInt32} {x y : UInt8} {r t : List UInt8},
          isHexDigit x = true → isHexDigit y = true → wellEscaped r = true →
          r.length + 3 ≤ n + 1 → Rewritten braces depth r t →
          Respelled (0x25 :: x :: y :: r) (0x25 :: x :: y :: t) ∧
            Respelled (0x25 :: x :: y :: r) (0x25 :: toUppercase x :: toUppercase y :: t) := by
        intro depth x y r t hx hy hr hn h
        obtain ⟨v, hv, hv'⟩ := spells_escape hx hy
        obtain ⟨-, hxs, hxs', -⟩ := toDigit_isHexDigit hx
        obtain ⟨-, hys, hys', -⟩ := toDigit_isHexDigit hy
        have hnot : 0x2f ∉ [0x25, x, y] := by
          simp only [List.mem_cons, List.not_mem_nil, or_false, not_or]
          exact ⟨by decide, hxs.symm, hys.symm⟩
        have hnot' : 0x2f ∉ [0x25, toUppercase x, toUppercase y] := by
          simp only [List.mem_cons, List.not_mem_nil, or_false, not_or]
          exact ⟨by decide, hxs'.symm, hys'.symm⟩
        have htail := ih h hr (by omega)
        exact ⟨.byte hv hv hnot hnot htail, .byte hv hv' hnot hnot' htail⟩
      cases h with
      | nil => exact .nil
      | opens hb h => exact hsame (by decide) hs hn h
      | closes hb h => exact hsame (by decide) hs hn h
      | @inside _ c s t hd hc h =>
          by_cases hpercent : c = 0x25
          · subst hpercent
            obtain ⟨x, y, r, rfl, hx, hy, hr⟩ := escape_of_wellEscaped hs
            obtain ⟨ty, rfl, hty⟩ := h.inside_hex hd hx
            obtain ⟨tr, rfl, htr⟩ := hty.inside_hex hd hy
            exact (hescape hx hy hr hn htr).1
          · exact hsame hpercent hs hn h
      | escape hx hy h =>
          obtain ⟨x, y, r, he, -, -, hr⟩ := escape_of_wellEscaped hs
          obtain ⟨rfl, rfl, rfl⟩ : _ = x ∧ _ = y ∧ _ = r := by simpa using he
          exact (hescape hx hy hr hn h).2
      | @encode c s t hneeds h =>
          have hpercent : c ≠ 0x25 := beq_eq_false_iff_ne.mp (of_needsEncode braces hneeds).2
          obtain ⟨hspells, hnot⟩ := spells_encode c
          have hslash : c ≠ 0x2f := by
            rintro rfl
            exact absurd hneeds (by decide)
          rw [wellEscaped_cons hpercent] at hs
          refine .byte (.inl ⟨rfl, hpercent⟩) hspells ?_ hnot (ih h hs (Nat.le_of_succ_le_succ hn))
          exact fun hmem => hslash (List.mem_singleton.mp hmem).symm
      | @plain c s t hc hneeds he h =>
          refine hsame ?_ hs hn h
          rintro rfl
          obtain ⟨x, y, r, rfl, hx, hy, -⟩ := escape_of_wellEscaped hs
          rw [escapeAt_escape hx hy] at he
          cases he

/-! ### Segments -/

/-- The segments of a path. -/
def segments (path : String) : List String := (path.toList.splitOn '/').map String.ofList

/-- An ASCII byte of a character is the character. -/
theorem eq_of_ascii_mem {c : Char} {b : UInt8} (h : b ∈ String.utf8EncodeChar c)
    (hb : b.toNat < 0x80) : c = Char.ofNat b.toNat := by
  rcases utf8EncodeChar_cases c with ⟨b', -, he⟩ | ⟨b', bs, he, -, hall⟩
  · rw [he, List.mem_singleton] at h
    obtain ⟨hlow, rfl⟩ := of_utf8EncodeChar (h ▸ he)
    rw [UInt8.toNat_ofNat', Nat.mod_eq_of_lt (Nat.lt_trans hlow (by decide)), Char.ofNat_toNat]
  · rw [he] at h
    exact absurd hb (Nat.not_lt.mpr (hall b h))

theorem slash_notMem_utf8EncodeChar {c : Char} (h : c ≠ '/') :
    0x2f ∉ String.utf8EncodeChar c := fun hmem => h (eq_of_ascii_mem hmem (by decide))

theorem splitOn_encoded (cs : List Char) :
    (encoded cs).splitOn 0x2f = (cs.splitOn '/').map encoded := by
  induction cs with
  | nil => rfl
  | cons c cs ih =>
      by_cases hc : c = '/'
      · subst hc
        have hslash : String.utf8EncodeChar '/' = [0x2f] := by decide
        rw [encoded_cons, hslash, List.singleton_append, splitOn_cons_self, splitOn_cons_self, ih]
        rfl
      · have hnot : '/' ∉ [c] := fun hmem => hc (List.mem_singleton.mp hmem).symm
        rw [encoded_cons, splitOn_append_of_notMem (slash_notMem_utf8EncodeChar hc), ih,
          ← List.singleton_append, splitOn_append_of_notMem hnot]
        cases cs.splitOn '/' with
        | nil => rfl
        | cons p ps =>
            rw [List.map_cons, List.modifyHead_cons, List.modifyHead_cons, List.map_cons,
              List.singleton_append, encoded_cons]

theorem segments_utf8 (s : String) :
    (utf8 s).splitOn 0x2f = (segments s).map utf8 := by
  rw [utf8_eq, splitOn_encoded, segments, List.map_map]
  exact List.map_congr_left fun p _ => by rw [Function.comp_apply, utf8_eq, String.toList_ofList]

/-- What stands on the two sides of a `/` of a text is text. -/
theorem encoded_append_slash {cs : List Char} {a b : List UInt8}
    (h : encoded cs = a ++ 0x2f :: b) : ∃ ca cb, a = encoded ca ∧ b = encoded cb := by
  induction cs generalizing a with
  | nil => exact absurd h.symm (by simp [encoded])
  | cons c cs ih =>
      rw [encoded_cons] at h
      by_cases hc : c = '/'
      · subst hc
        have hslash : String.utf8EncodeChar '/' = [0x2f] := by decide
        rw [hslash, List.singleton_append] at h
        cases a with
        | nil => exact ⟨[], cs, rfl, (List.cons.inj h).2.symm⟩
        | cons x a =>
            obtain ⟨rfl, htail⟩ := List.cons.inj h
            obtain ⟨ca, cb, rfl, hb⟩ := ih htail
            exact ⟨'/' :: ca, cb, by rw [encoded_cons, hslash]; rfl, hb⟩
      · have hnot := slash_notMem_utf8EncodeChar hc
        rcases List.append_eq_append_iff.mp h with ⟨a', rfl, htail⟩ | ⟨c', he, htail⟩
        · obtain ⟨ca, cb, rfl, hb⟩ := ih htail
          exact ⟨c :: ca, cb, (encoded_cons c ca).symm, hb⟩
        · cases c' with
          | nil =>
              obtain ⟨ca, cb, -, hb⟩ := ih (a := []) htail.symm
              rw [List.append_nil] at he
              exact ⟨[c], cb, by rw [← he, encoded_cons]; exact (List.append_nil _).symm, hb⟩
          | cons x c' =>
              obtain ⟨rfl, -⟩ := List.cons.inj htail
              exact absurd (he ▸ List.mem_append_right a List.mem_cons_self) hnot

/-- The pieces of a text joined by `/` are texts. -/
theorem text_of_intercalate {ps : List (List UInt8)} {cs : List Char}
    (h : [0x2f].intercalate ps = encoded cs) : ∀ p ∈ ps, ∃ c, p = encoded c := by
  induction ps generalizing cs with
  | nil => exact fun p hp => absurd hp List.not_mem_nil
  | cons p ps ih =>
      cases ps with
      | nil =>
          rw [List.intercalate_singleton] at h
          exact fun q hq => ⟨cs, (List.mem_singleton.mp hq).trans h⟩
      | cons q ps =>
          rw [List.intercalate_cons_cons] at h
          obtain ⟨cp, cq, hp, hq⟩ := encoded_append_slash (by simpa using h.symm)
          exact List.forall_mem_cons.mpr ⟨⟨cp, hp⟩, ih hq⟩

theorem unescape_of_no_percent {s : List UInt8} (h : 0x25 ∉ s) : unescape false s = s := by
  induction s with
  | nil => rfl
  | cons b s ih =>
      rw [List.mem_cons, not_or] at h
      rw [unescape_cons (Ne.symm h.1), ih h.2]

theorem percent_notMem_utf8 {s : String} (h : '%' ∉ s.toList) : 0x25 ∉ utf8 s := by
  intro hmem
  obtain ⟨c, hc, hb⟩ := List.mem_flatMap.mp hmem
  exact h (eq_of_ascii_mem hb (by decide) ▸ hc)

/-- The value of a capture whose escapes are well formed and decode. -/
theorem decodePathParam_eq {raw text : String} (hescapes : wellEscaped (utf8 raw) = true)
    (htext : fromUtf8 (unescape false (utf8 raw)) = some text) : decodePathParam raw = text := by
  rw [decodePathParam, hescapes, Bool.not_true, if_neg Bool.false_ne_true]
  split
  · next hno =>
    rw [unescape_of_no_percent (percent_notMem_utf8 hno), fromUtf8_utf8] at htext
    exact Option.some.inj htext
  · rw [htext]
    rfl

/-- The segments of a path whose escapes are well formed and decode: each has these properties. -/
theorem segments_decode {s t : String} (h : Respelled (utf8 s) (utf8 t))
    (htext : (fromUtf8 (unescape false (utf8 s))).isSome = true) :
    (segments s).map decodePathParam = (segments t).map decodePathParam := by
  obtain ⟨text, htext⟩ := Option.isSome_iff_exists.mp htext
  have htexts := text_of_intercalate (h.unescape_segments.symm.trans (utf8_of_fromUtf8 htext).symm)
  have hsegments := h.segments
  rw [segments_utf8, segments_utf8] at hsegments
  rw [segments_utf8] at htexts
  generalize segments s = ps at hsegments htexts ⊢
  generalize segments t = qs at hsegments ⊢
  induction ps generalizing qs with
  | nil =>
      cases qs with
      | nil => rfl
      | cons q qs => cases hsegments
  | cons p ps ih =>
      cases qs with
      | nil => cases hsegments
      | cons q qs =>
          obtain ⟨hhead, htail⟩ := List.forall₂_cons.mp hsegments
          obtain ⟨c, hc⟩ := htexts _ List.mem_cons_self
          have hp : fromUtf8 (unescape false (utf8 p)) = some (String.ofList c) :=
            hc ▸ fromUtf8_encoded c
          have hq := hhead.unescape ▸ hp
          rw [List.map_cons, List.map_cons, decodePathParam_eq hhead.wellEscaped hp,
            decodePathParam_eq hhead.symm.wellEscaped hq,
            ih (fun b hb => htexts b (List.mem_cons_of_mem _ hb)) qs htail]

/-- **The normalised path is canonical**: normalising it again borrows it; a path is borrowed
exactly where the rewriter changes nothing; the rewriter's output is UTF-8, so the default is never
taken; and where the escapes are well formed and decode, every segment decodes to what it did. -/
theorem normalize_canonical (s : String) (braces : Bool) :
    normalize (normalize s braces).text braces = .borrowed (normalize s braces).text ∧
      ((normalize s braces).isBorrowed = true ↔ rewrite braces 0 0 (utf8 s) = utf8 s) ∧
      fromUtf8 (rewrite braces 0 0 (utf8 s)) = some (normalize s braces).text ∧
      (wellEscaped (utf8 s) = true → (fromUtf8 (unescape false (utf8 s))).isSome = true →
        (segments (normalize s braces).text).map decodePathParam =
          (segments s).map decodePathParam) := by
  refine ⟨normalize_idem s braces, isBorrowed_iff, fromUtf8_rewrite s braces, ?_⟩
  intro hescapes htext
  have hrespelled := (rewritten braces 0 (utf8 s)).respelled hescapes
  rw [← utf8_normalize] at hrespelled
  exact (segments_decode hrespelled htext).symm

theorem normalize_canonical_mixed :
    wellEscaped (utf8 "/caf%c3%a9/é") = true ∧
      (segments (normalize "/caf%c3%a9/é" false).text).map decodePathParam =
        (segments "/caf%c3%a9/é").map decodePathParam := by
  have hescapes : wellEscaped (utf8 "/caf%c3%a9/é") = true := by decide +kernel
  have htext : (fromUtf8 (unescape false (utf8 "/caf%c3%a9/é"))).isSome = true := by
    have hbytes : unescape false (utf8 "/caf%c3%a9/é") = encoded "/café/é".toList := by
      decide +kernel
    rw [hbytes, fromUtf8_encoded]
    rfl
  exact ⟨hescapes, (normalize_canonical "/caf%c3%a9/é" false).2.2.2 hescapes htext⟩

end Brust.Core.Path
