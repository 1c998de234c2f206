import Brust.Core.HoistSafe

/-!
# Core — what a turn of hoisting reads

A turn of the scan reads what it goes over, and of the text behind only where a title's end tag is:
with another text behind that has it where the first one has it, it is the same turn (`turn_local`).
-/

namespace Brust.Core

/-! ### Finding in the front of a text -/

/-- A run that ends in the front of a text ends there whatever follows. -/
theorem skipWhile_local {p : UInt8 → Bool} {x y : Bytes} (y' : Bytes) {i : ℕ}
    (h : skipWhile p (x ++ y) i < x.length) : skipWhile p (x ++ y') i = skipWhile p (x ++ y) i := by
  have hi : i ≤ x.length := (Nat.le_add_right i _).trans h.le
  rw [skipWhile, skipWhile, List.drop_append_of_le_length hi, List.drop_append_of_le_length hi]
  rw [skipWhile, List.drop_append_of_le_length hi] at h
  have hlen := List.length_drop (i := i) (l := x)
  generalize x.drop i = z at h hlen ⊢
  congr 1
  have hz : ((z ++ y).takeWhile p).length < z.length := by omega
  clear h hlen
  induction z with
  | nil => cases hz
  | cons b z ih =>
      rw [List.cons_append, List.takeWhile_cons] at hz
      rw [List.cons_append, List.cons_append, List.takeWhile_cons, List.takeWhile_cons]
      split
      · next hb =>
        rw [if_pos hb, List.length_cons, List.length_cons] at hz
        rw [List.length_cons, List.length_cons, ih (by omega)]
      · rfl

/-- A tag that closes in the front of a text closes there whatever follows. -/
theorem tagClose_local {y : Bytes} (y' : Bytes) : ∀ {quote : Option UInt8} {k e : ℕ} {x : Bytes},
    tagClose quote k (x ++ y) = some e → e ≤ k + x.length →
      tagClose quote k (x ++ y') = some e
  | quote, k, e, [], h, he => by
      have hlt := (tagClose_spec h).1
      rw [List.length_nil] at he
      omega
  | none, k, e, c :: x, h, he => by
      rw [List.length_cons] at he
      rw [List.cons_append, tagClose] at h ⊢
      split at h
      · next hq =>
        rw [if_pos hq]
        exact tagClose_local y' h (by omega)
      · next hq =>
        rw [if_neg hq]
        split at h
        · next hgt =>
          rw [if_pos hgt]
          exact h
        · next hgt =>
          rw [if_neg hgt]
          exact tagClose_local y' h (by omega)
  | some q, k, e, c :: x, h, he => by
      rw [List.length_cons] at he
      rw [List.cons_append, tagClose] at h ⊢
      split at h
      · next hq =>
        rw [if_pos hq]
        exact tagClose_local y' h (by omega)
      · next hq =>
        rw [if_neg hq]
        exact tagClose_local y' h (by omega)

theorem tagEnd_local {x y : Bytes} (y' : Bytes) {k e : ℕ} (h : tagEnd (x ++ y) k = some e)
    (he : e ≤ x.length) : tagEnd (x ++ y') k = some e := by
  have hk : k ≤ x.length := (tagEnd_spec h).1.le.trans he
  rw [tagEnd, List.drop_append_of_le_length hk] at h ⊢
  exact tagClose_local y' h (by rw [List.length_drop]; omega)

/-- Only as much of a text is compared as the needle is long. -/
theorem startsCi_local {needle x y : Bytes} (y' : Bytes) (h : needle.length ≤ x.length) :
    startsCi needle (x ++ y') = startsCi needle (x ++ y) := by
  have hlen : ∀ z : Bytes, needle.length ≤ (x ++ z).length := fun z => by
    rw [List.length_append]
    omega
  rw [startsCi, startsCi, decide_eq_true (hlen y), decide_eq_true (hlen y'),
    List.take_append_of_le_length h, List.take_append_of_le_length h]

/-- What is found first in the front of a text is found first there whatever follows. -/
theorem findCi_local {needle y : Bytes} (y' : Bytes) (hneedle : needle ≠ []) :
    ∀ {x : Bytes} {k : ℕ},
    findCi needle (x ++ y) = some k → k + needle.length ≤ x.length →
      findCi needle (x ++ y') = some k
  | [], k, h, hk => by
      have hpos := List.length_pos_iff.mpr hneedle
      rw [List.length_nil] at hk
      omega
  | b :: x, k, h, hk => by
      have hlen : needle.length ≤ (b :: x).length := (Nat.le_add_left _ k).trans hk
      rw [List.cons_append, findCi, ← List.cons_append] at h ⊢
      rw [startsCi_local (y := y) y' hlen]
      split at h
      · next hstart =>
        rw [if_pos hstart]
        exact h
      · next hstart =>
        rw [if_neg hstart]
        obtain ⟨j, hj, rfl⟩ := Option.map_eq_some_iff.mp h
        rw [List.length_cons] at hk
        rw [findCi_local y' hneedle hj (by omega)]
        rfl

theorem findCiFrom_local {needle x y : Bytes} (y' : Bytes) (hneedle : needle ≠ []) {i k : ℕ}
    (h : findCiFrom (x ++ y) needle i = some k) (hk : k + needle.length ≤ x.length) :
    findCiFrom (x ++ y') needle i = some k := by
  have hi : i ≤ x.length := by
    have hle := (findCiFrom_spec h).1
    omega
  rw [findCiFrom, if_pos (by rw [List.length_append]; omega),
    List.drop_append_of_le_length hi] at h ⊢
  obtain ⟨j, hj, rfl⟩ := Option.map_eq_some_iff.mp h
  rw [findCi_local y' hneedle hj (by rw [List.length_drop]; omega)]
  rfl

theorem findExact_local {needle y : Bytes} (y' : Bytes) (hneedle : needle ≠ []) :
    ∀ {x : Bytes} {k : ℕ}, findExact needle (x ++ y) = some k → k + needle.length ≤ x.length →
      findExact needle (x ++ y') = some k
  | [], k, h, hk => by
      have hpos := List.length_pos_iff.mpr hneedle
      rw [List.length_nil] at hk
      omega
  | b :: x, k, h, hk => by
      have hlen : needle.length ≤ (b :: x).length := (Nat.le_add_left _ k).trans hk
      have hpre : ∀ z, needle <+: b :: x ++ z ↔ needle <+: b :: x := fun z =>
        ⟨fun hz => List.prefix_of_prefix_length_le hz (List.prefix_append _ _) hlen,
          fun hz => hz.trans (List.prefix_append _ _)⟩
      rw [List.cons_append, findExact, ← List.cons_append] at h ⊢
      split at h
      · next hstart =>
        rw [if_pos ((hpre y').mpr ((hpre y).mp hstart))]
        exact h
      · next hstart =>
        rw [if_neg fun hz => hstart ((hpre y).mpr ((hpre y').mp hz))]
        obtain ⟨j, hj, rfl⟩ := Option.map_eq_some_iff.mp h
        rw [List.length_cons] at hk
        rw [findExact_local y' hneedle hj (by omega)]
        rfl

/-- A boundary in the front of a text is one whatever begins behind it. -/
theorem isCharBoundary_local {x y y' : Bytes} (hbegins : Begins y') {k : ℕ} (hk : k ≤ x.length)
    (h : isCharBoundary (x ++ y) k = true) : isCharBoundary (x ++ y') k = true := by
  rcases Nat.eq_or_lt_of_le hk with rfl | hlt
  · cases y' with
    | nil =>
        rw [List.append_nil]
        exact boundary_length x
    | cons b y' =>
        rw [isCharBoundary, List.getElem?_append_right le_rfl, Nat.sub_self,
          List.getElem?_cons_zero,
          Option.any_some, hbegins b rfl]
        simp
  · rw [isCharBoundary, List.getElem?_append_left hlt] at h ⊢
    rw [Bool.or_eq_true, Bool.or_eq_true, beq_iff_eq, beq_iff_eq] at h
    rcases h with (rfl | hlen) | hget
    · rfl
    · rw [List.length_append] at hlen
      omega
    · rw [hget, Bool.or_true]

/-- What is cut out of the front of a text. -/
theorem slice_local {x y y' z : Bytes} (hbegins : Begins y') {i j : ℕ} (hj : j ≤ x.length)
    (h : slice (x ++ y) i j = some z) : slice (x ++ y') i j = some z := by
  obtain ⟨⟨hij, -, hi, hj'⟩, rfl⟩ := of_slice h
  have hi' : i ≤ x.length := hij.trans hj
  rw [slice_eq_some hij (by rw [List.length_append]; omega)
    (isCharBoundary_local hbegins hi' hi) (isCharBoundary_local hbegins hj hj'),
    List.drop_append_of_le_length hi', List.drop_append_of_le_length hi',
    List.take_append_of_le_length (by rw [List.length_drop]; omega),
    List.take_append_of_le_length (by rw [List.length_drop]; omega)]

/-! ### What a turn is -/

/-- Where the name of a tag is. -/
def nameAt (rest : Bytes) : ℕ := if rest[1]? == some 0x2f then 2 else 1

/-- Where the name of a tag ends. -/
def nameEnd (rest : Bytes) : ℕ := skipWhile isNameByte rest (nameAt rest)

/-- What one turn of the scan is: a byte of text, a comment, a tag, or a tag that never closes. -/
theorem turn_cases {rest : Bytes} {skip : Skip} {t : Turn} (h : turn rest skip = some t) :
    (rest.head? ≠ some 0x3c ∧ t = ⟨1, skip, none⟩) ∨
      (rest.head? = some 0x3c ∧ ascii "<!--" <+: rest ∧ ∃ body,
        slice rest 4 rest.length = some body ∧
        t = ⟨((findExact (ascii "-->") body).map (4 + · + 3)).getD rest.length, skip, none⟩) ∨
      (rest.head? = some 0x3c ∧ ¬ascii "<!--" <+: rest ∧ ∃ name,
        slice rest (nameAt rest) (nameEnd rest) = some name ∧
        (tagEnd rest (nameEnd rest) = none ∧ t = ⟨rest.length, skip, none⟩ ∨
          ∃ stop, tagEnd rest (nameEnd rest) = some stop ∧
            tagTurn rest skip (rest[1]? == some 0x2f) (name.map lowerByte) stop = some t)) := by
  rw [turn] at h
  split at h
  · next hopen =>
    cases h
    exact .inl ⟨hopen, rfl⟩
  next hopen =>
  rw [not_not] at hopen
  split at h
  · next hcomment =>
    obtain ⟨body, hbody, rfl⟩ := Option.map_eq_some_iff.mp h
    exact .inr (.inl ⟨hopen, hcomment, body, hbody, rfl⟩)
  · next hcomment =>
    obtain ⟨name, hname, h⟩ := Option.bind_eq_some_iff.mp h
    refine .inr (.inr ⟨hopen, hcomment, name, hname, ?_⟩)
    split at h
    · next hend =>
      cases h
      exact .inl ⟨hend, rfl⟩
    · next stop hend => exact .inr ⟨stop, hend, h⟩

/-- What a tag's turn is: one that is counted, or one that may be found. -/
theorem tagTurn_cases {rest : Bytes} {skip : Skip} {closing : Bool} {name : Bytes} {stop : ℕ}
    {t : Turn} (h : tagTurn rest skip closing name stop = some t) :
    ∃ tag, slice rest 0 stop = some tag ∧
      ((∃ skip', counted skip name closing (!decide (name ∈ voidTags) && !isSelfClosing tag) =
          some skip' ∧ t = ⟨stop, skip', none⟩) ∨
        (counted skip name closing (!decide (name ∈ voidTags) && !isSelfClosing tag) = none ∧
          ∃ dynamic, dynamicTag tag name
              (!closing && (!decide (name ∈ voidTags) && !isSelfClosing tag)) = some dynamic ∧
            t = uncounted rest skip closing name tag stop dynamic)) := by
  obtain ⟨tag, htag, h⟩ := Option.bind_eq_some_iff.mp h
  refine ⟨tag, htag, ?_⟩
  dsimp only at h
  split at h
  · next skip' hcounted =>
    cases h
    exact .inl ⟨skip', hcounted, rfl⟩
  · next hcounted =>
    obtain ⟨dynamic, hdynamic, rfl⟩ := Option.map_eq_some_iff.mp h
    exact .inr ⟨hcounted, dynamic, hdynamic, rfl⟩

theorem slice_drop {s z : Bytes} {i : ℕ} (h : slice s i s.length = some z) : z = s.drop i :=
  (of_slice h).2.trans (List.take_of_length_le (Nat.le_of_eq List.length_drop))

/-- A turn that ends within a text ends behind a `>`. -/
theorem uncounted_close {rest : Bytes} {skip : Skip} {closing dynamic : Bool} {name tag : Bytes}
    {stop : ℕ} (hstop : rest[stop - 1]? = some 0x3e)
    (hlt : (uncounted rest skip closing name tag stop dynamic).next < rest.length) :
    rest[(uncounted rest skip closing name tag stop dynamic).next - 1]? = some 0x3e ∧
      stop ≤ (uncounted rest skip closing name tag stop dynamic).next := by
  rw [uncounted] at hlt ⊢
  split at hlt
  · next hraw =>
    rw [if_pos hraw]
    dsimp only at hlt ⊢
    cases hend : tagEnd rest ((findCiFrom rest (ascii "</" ++ name) stop).getD rest.length) with
    | none =>
        rw [hend, Option.getD_none] at hlt
        omega
    | some e =>
        obtain ⟨hle, hgt⟩ := tagEnd_spec hend
        refine ⟨hgt, ?_⟩
        cases hfind : findCiFrom rest (ascii "</" ++ name) stop with
        | none =>
            rw [hend, Option.getD_some] at hlt
            rw [hfind, Option.getD_none] at hle
            omega
        | some k =>
            rw [hfind, Option.getD_some] at hle
            exact (findCiFrom_spec hfind).1.trans hle.le
  · next hraw =>
    rw [if_neg hraw]
    split at hlt
    · next hopaque =>
      rw [if_pos hopaque]
      exact ⟨hstop, le_rfl⟩
    · next hopaque =>
      rw [if_neg hopaque]
      split at hlt
      · next hpass =>
        rw [if_pos hpass]
        exact ⟨hstop, le_rfl⟩
      · next hpass =>
        rw [if_neg hpass]
        dsimp only at hlt ⊢
        split
        · next htitle =>
          cases hend : (findCiFrom rest (ascii "</title") stop).bind (tagEnd rest) with
          | none => exact ⟨hstop, le_rfl⟩
          | some e =>
              obtain ⟨k, hk, he⟩ := Option.bind_eq_some_iff.mp hend
              obtain ⟨hle, hgt⟩ := tagEnd_spec he
              exact ⟨hgt, (findCiFrom_spec hk).1.trans hle.le⟩
        · exact ⟨hstop, le_rfl⟩

/-- A tag's turn ends behind a `>`, and not before the tag. -/
theorem tagTurn_close {rest : Bytes} {skip : Skip} {closing : Bool} {name : Bytes} {stop : ℕ}
    {t : Turn} (h : tagTurn rest skip closing name stop = some t)
    (hstop : rest[stop - 1]? = some 0x3e) (hlt : t.next < rest.length) :
    rest[t.next - 1]? = some 0x3e ∧ stop ≤ t.next := by
  obtain ⟨tag, -, ⟨skip', -, rfl⟩ | ⟨-, dynamic, -, rfl⟩⟩ := tagTurn_cases h
  · exact ⟨hstop, le_rfl⟩
  · exact uncounted_close hstop hlt

theorem nameEnd_pos (rest : Bytes) : 1 ≤ nameEnd rest := by
  have hle : nameAt rest ≤ nameEnd rest := Nat.le_add_right _ _
  have hpos : 1 ≤ nameAt rest := by
    rw [nameAt]
    split
    · exact one_le_two
    · exact le_rfl
  exact hpos.trans hle

/-- **A turn that ends within a text** goes over one byte that opens no tag, or ends behind a
`>`. -/
theorem turn_close {rest : Bytes} {skip : Skip} {t : Turn} (h : turn rest skip = some t)
    (hlt : t.next < rest.length) :
    (rest.head? ≠ some 0x3c ∧ t.next = 1) ∨
      (rest.head? = some 0x3c ∧ rest[t.next - 1]? = some 0x3e ∧ 2 ≤ t.next) := by
  rcases turn_cases h with ⟨hopen, rfl⟩ | ⟨hopen, -, body, hbody, rfl⟩ |
    ⟨hopen, -, name, -, ⟨-, rfl⟩ | ⟨stop, hend, hturn⟩⟩
  · exact .inl ⟨hopen, rfl⟩
  · refine .inr ⟨hopen, ?_⟩
    cases hfind : findExact (ascii "-->") body with
    | none =>
        rw [hfind] at hlt
        exact absurd hlt (lt_irrefl _)
    | some k =>
        have hbody' : body = rest.drop 4 := slice_drop hbody
        obtain ⟨tail, htail⟩ := findExact_spec hfind
        rw [hbody', List.drop_drop] at htail
        have hgt : rest[4 + k + 2]? = some 0x3e := by
          rw [← List.getElem?_drop, ← htail]
          rfl
        exact ⟨hgt, by dsimp only [Option.map_some, Option.getD_some]; omega⟩
  · exact absurd hlt (lt_irrefl _)
  · obtain ⟨hpos, hgt⟩ := tagEnd_spec hend
    obtain ⟨hgt', hle⟩ := tagTurn_close hturn hgt hlt
    have hone := nameEnd_pos rest
    exact .inr ⟨hopen, hgt', by omega⟩

/-! ### The same turn -/

/-- A tag ends behind the name it is searched from. -/
theorem needle_le {needle s : Bytes} {k e : ℕ} (hneedle : ∀ b ∈ needle, lowerByte b ≠ 0x3e)
    (hstart : startsCi needle (s.drop k) = true) (hend : tagEnd s k = some e) :
    k + needle.length ≤ e := by
  obtain ⟨hlt, hgt⟩ := tagEnd_spec hend
  by_contra hle
  obtain ⟨b, hb⟩ : ∃ b, needle[e - 1 - k]? = some b :=
    ⟨_, List.getElem?_eq_getElem (show e - 1 - k < needle.length by omega)⟩
  obtain ⟨c, hc, hlower⟩ := startsCi_get hstart hb
  rw [List.getElem?_drop, show k + (e - 1 - k) = e - 1 by omega, hgt] at hc
  cases hc
  exact hneedle b (List.mem_of_getElem? hb) hlower.symm

/-- No needle holds a `>`. -/
theorem rawText_needle : ∀ name ∈ rawText, ∀ b ∈ ascii "</" ++ name, lowerByte b ≠ 0x3e := by
  intro name hname
  have hall : ∀ name ∈ rawText,
      ((ascii "</" ++ name).all fun b => decide (lowerByte b ≠ 0x3e)) = true := by decide
  exact forall_mem_of_all (hall name hname)

theorem title_needle : ∀ b ∈ ascii "</title", lowerByte b ≠ 0x3e :=
  forall_mem_of_all (by decide)

/-- The end of the title that a title's tag is followed by. -/
def titleEnd (rest : Bytes) (stop : ℕ) : Option ℕ :=
  (findCiFrom rest (ascii "</title") stop).bind (tagEnd rest)

/-- A title that ends in the front of a text ends there whatever follows. -/
theorem titleEnd_local {x y : Bytes} (y' : Bytes) {stop e : ℕ}
    (h : titleEnd (x ++ y) stop = some e) (he : e ≤ x.length) :
    titleEnd (x ++ y') stop = some e := by
  obtain ⟨k, hk, hend⟩ := Option.bind_eq_some_iff.mp h
  have hle := needle_le title_needle (findCiFrom_spec hk).2.2 hend
  rw [titleEnd, findCiFrom_local y' (by decide) hk (by omega), Option.bind_some]
  exact tagEnd_local y' hend he

theorem titleEnd_lt {s : Bytes} {stop e : ℕ} (h : titleEnd s stop = some e) : stop < e := by
  obtain ⟨k, hk, hend⟩ := Option.bind_eq_some_iff.mp h
  exact (findCiFrom_spec hk).1.trans_lt (tagEnd_spec hend).1

/-- A title that a turn leaves at its tag has no end in `rest`. -/
def Ends (x rest : Bytes) (t : Turn) : Prop :=
  t.found = some (x, ascii "title") → titleEnd rest x.length = none

/-- A tag that is not counted is found alike whatever follows it. -/
theorem uncounted_local {x y y' : Bytes} {skip : Skip} {closing dynamic : Bool} {name tag : Bytes}
    {stop : ℕ} (htag : stop = x.length → tag = x) (hy : y ≠ [])
    (hnext : (uncounted (x ++ y) skip closing name tag stop dynamic).next = x.length)
    (hends : Ends x (x ++ y') (uncounted (x ++ y) skip closing name tag stop dynamic)) :
    uncounted (x ++ y') skip closing name tag stop dynamic =
      uncounted (x ++ y) skip closing name tag stop dynamic := by
  have hlen : x.length < (x ++ y).length := by
    have hpos := List.length_pos_iff.mpr hy
    rw [List.length_append]
    omega
  rw [uncounted] at hnext hends
  rw [uncounted, uncounted]
  split at hnext
  · next hraw =>
    rw [if_pos hraw, if_pos hraw]
    dsimp only at hnext ⊢
    cases hend : tagEnd (x ++ y)
        ((findCiFrom (x ++ y) (ascii "</" ++ name) stop).getD (x ++ y).length) with
    | none =>
        rw [hend, Option.getD_none] at hnext
        omega
    | some e =>
        rw [hend, Option.getD_some] at hnext
        subst hnext
        cases hfind : findCiFrom (x ++ y) (ascii "</" ++ name) stop with
        | none =>
            rw [hfind, Option.getD_none] at hend
            have hlt := (tagEnd_spec hend).1
            omega
        | some k =>
            rw [hfind, Option.getD_some] at hend
            rw [Bool.and_eq_true, Bool.and_eq_true, decide_eq_true_eq] at hraw
            have hle := needle_le (rawText_needle name hraw.1.2) (findCiFrom_spec hfind).2.2 hend
            rw [findCiFrom_local y' (by simp [ascii]) hfind hle, Option.getD_some, Option.getD_some,
              tagEnd_local y' hend le_rfl, Option.getD_some]
  · next hraw =>
    rw [if_neg hraw] at hends
    rw [if_neg hraw, if_neg hraw]
    split at hnext
    · next hopaque => rw [if_pos hopaque, if_pos hopaque]
    · next hopaque =>
      rw [if_neg hopaque] at hends
      rw [if_neg hopaque, if_neg hopaque]
      split at hnext
      · next hpass => rw [if_pos hpass, if_pos hpass]
      · next hpass =>
        rw [if_neg hpass] at hends
        rw [if_neg hpass, if_neg hpass]
        split at hnext
        · next htitle =>
          rw [if_pos htitle, if_pos htitle]
          change (titleEnd (x ++ y) stop).getD stop = x.length at hnext
          change Turn.mk ((titleEnd (x ++ y') stop).getD stop) _ _ =
            Turn.mk ((titleEnd (x ++ y) stop).getD stop) _ _
          cases hend : titleEnd (x ++ y) stop with
          | some e =>
              rw [hend, Option.getD_some] at hnext
              rw [titleEnd_local y' hend hnext.le]
          | none =>
              rw [hend, Option.getD_none] at hnext
              have hnone : titleEnd (x ++ y') stop = none := by
                rw [hnext]
                exact hends (by rw [htag hnext, htitle])
              rw [hnone]
        · next htitle => rw [if_neg htitle, if_neg htitle]

/-- A tag's turn is the same whatever follows it. -/
theorem tagTurn_local {x y y' : Bytes} (hbegins : Begins y') {skip : Skip} {closing : Bool}
    {name : Bytes} {stop : ℕ} {t : Turn} (hstop : stop ≤ x.length) (hy : y ≠ [])
    (h : tagTurn (x ++ y) skip closing name stop = some t) (hnext : t.next = x.length)
    (hends : Ends x (x ++ y') t) : tagTurn (x ++ y') skip closing name stop = some t := by
  obtain ⟨tag, htag, hcases⟩ := tagTurn_cases h
  rw [tagTurn, slice_local hbegins hstop htag, Option.bind_some]
  dsimp only
  rcases hcases with ⟨skip', hcounted, rfl⟩ | ⟨hcounted, dynamic, hdynamic, rfl⟩
  · rw [hcounted]
  · have hwhole : stop = x.length → tag = x := by
      intro heq
      rw [(of_slice htag).2, List.drop_zero, Nat.sub_zero, heq, List.take_left]
    rw [hcounted]
    dsimp only
    rw [hdynamic, Option.map_some, uncounted_local hwhole hy hnext hends]

/-- **A turn is the same with another text behind**, if a title that it leaves at its tag has no end
there. -/
theorem turn_local {x y y' : Bytes} {skip : Skip} {t : Turn} (hx : x ≠ []) (hy : y ≠ [])
    (h : turn (x ++ y) skip = some t) (hnext : t.next = x.length)
    (hbegins : x.head? = some 0x3c → Begins y') (hends : Ends x (x ++ y') t) :
    turn (x ++ y') skip = some t := by
  have hlen : x.length < (x ++ y).length := by
    have hpos := List.length_pos_iff.mpr hy
    rw [List.length_append]
    omega
  have hhead : ∀ z, (x ++ z).head? = x.head? := fun z => List.head?_append_of_ne_nil x hx
  have hshape := turn_close h (hnext ▸ hlen)
  rcases turn_cases h with ⟨hopen, rfl⟩ | ⟨hopen, hcomment, body, hbody, rfl⟩ |
    ⟨hopen, hcomment, name, hname, hcases⟩
  · rw [hhead] at hopen
    rw [turn, hhead, if_pos hopen]
  · rw [hhead] at hopen
    cases hfind : findExact (ascii "-->") body with
    | none =>
        rw [hfind] at hnext
        exact absurd hnext hlen.ne'
    | some k =>
        rw [hfind] at hnext
        dsimp only [Option.map_some, Option.getD_some] at hnext
        have hfour : 4 ≤ x.length := by omega
        have hpre : ascii "<!--" <+: x :=
          List.prefix_of_prefix_length_le hcomment (List.prefix_append _ _) hfour
        have hboundary := isCharBoundary_local (hbegins hopen) hfour (of_slice hbody).1.2.2.1
        have hfind' := slice_drop hbody ▸ hfind
        rw [List.drop_append_of_le_length hfour] at hfind'
        have hfind'' := findExact_local y' (by decide) hfind' (by
          rw [List.length_drop]
          have hneedle : (ascii "-->").length = 3 := rfl
          omega)
        rw [turn, hhead, if_neg (not_not.mpr hopen), if_pos (hpre.trans (List.prefix_append _ _)),
          slice_from (by rw [List.length_append]; omega) hboundary, Option.map_some,
          List.drop_append_of_le_length hfour, hfind'']
        rfl
  · rw [hhead] at hopen
    obtain ⟨hgt, htwo⟩ : (x ++ y)[x.length - 1]? = some 0x3e ∧ 2 ≤ x.length := by
      rcases hshape with ⟨hnot, -⟩ | ⟨-, hgt, htwo⟩
      · exact absurd ((hhead y).trans hopen) hnot
      · rw [hnext] at hgt htwo
        exact ⟨hgt, htwo⟩
    have hcomment' : ¬ascii "<!--" <+: x ++ y' := by
      intro hpre
      rcases Nat.lt_or_ge x.length 4 with hshort | hfour
      · -- a byte of `<!--` is no `>`
        obtain ⟨b, hb⟩ : ∃ b, (ascii "<!--")[x.length - 1]? = some b :=
          ⟨_, List.getElem?_eq_getElem (show x.length - 1 < (ascii "<!--").length by
            have hneedle : (ascii "<!--").length = 4 := rfl
            omega)⟩
        obtain ⟨tail, htail⟩ := hpre
        have hsame : (x ++ y')[x.length - 1]? = some b := by
          rw [← htail, List.getElem?_append_left (List.getElem?_eq_some_iff.mp hb).1, hb]
        rw [List.getElem?_append_left (by omega)] at hgt hsame
        rw [hgt] at hsame
        cases hsame
        exact absurd (List.mem_of_getElem? hb) (by decide)
      · exact hcomment ((List.prefix_of_prefix_length_le hpre (List.prefix_append _ _) hfour).trans
          (List.prefix_append _ _))
    rcases hcases with ⟨-, rfl⟩ | ⟨stop, hend, hturn⟩
    · exact absurd hnext hlen.ne'
    · obtain ⟨hpos, hgt'⟩ := tagEnd_spec hend
      have hstop : stop ≤ x.length := hnext ▸ (tagTurn_close hturn hgt' (hnext ▸ hlen)).2
      have hone : (x ++ y')[1]? = (x ++ y)[1]? := by
        rw [List.getElem?_append_left (by omega), List.getElem?_append_left (by omega)]
      have hat : nameAt (x ++ y') = nameAt (x ++ y) := by
        rw [nameAt, nameAt, hone]
      have hnameEnd : nameEnd (x ++ y') = nameEnd (x ++ y) := by
        rw [nameEnd, hat]
        exact skipWhile_local y' (hpos.trans_le hstop)
      have hname' := slice_local (hbegins hopen) (hpos.le.trans hstop) hname
      rw [← hat, ← hnameEnd] at hname'
      have hend' := tagEnd_local y' hend hstop
      rw [← hnameEnd] at hend'
      have hturn' := tagTurn_local (hbegins hopen) hstop hy hturn hnext hends
      rw [← hone] at hturn'
      rw [turn, hhead, if_neg (not_not.mpr hopen), if_neg hcomment']
      dsimp only
      rw [← nameAt, ← nameEnd, hname', Option.bind_some, hend']
      exact hturn'

end Brust.Core
