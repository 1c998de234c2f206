import Brust.Core.Pipeline
import Brust.Support.Utf8
import Mathlib.Data.List.Infix

/-!
# Core — which paths reach the actions

A path that the actions admit and do not refuse is one that a URL parser leaves as it is
(`resolve_of_not_ambiguous`): it has no backslash and no segment of dots, however they are spelled.
The admission looks at the normalised path, which is under a prefix exactly where the path is
(`isUnder_normalize`), and what the parser encodes is not of the prefix; so the app routes on a path
under it (`action_path_kept`).
-/

namespace Brust.Core.Pipeline

open Brust.Routing Brust.UrlPath

/-! ### What a URL parser leaves -/

theorem contains_of_mem {c : Char} {s : List Char} (h : c ∈ s) : contains [c] s = true := by
  obtain ⟨a, b, rfl⟩ := List.append_of_mem h
  refine List.any_eq_true.mpr ⟨c :: b, ?_, ?_⟩
  · exact (List.mem_tails _ _).mpr (List.suffix_append a (c :: b))
  · rw [List.isPrefixOf_iff_prefix]
    exact ⟨b, rfl⟩

/-- A segment of dots, in lowercase and with the escapes read. -/
theorem dotted_of_isDots {s : List Char} (h : isDots s = true) :
    [['.'], ['.', '.']].contains (dotted (UrlPath.lower s)) = true := by
  have hall : ∀ t ∈ [".".toList, "%2e".toList, "..".toList, ".%2e".toList, "%2e.".toList,
      "%2e%2e".toList], [['.'], ['.', '.']].contains (dotted t) = true := by decide
  refine hall _ ?_
  rw [isDots, singleDot, doubleDot, Bool.or_eq_true, List.contains_iff_mem,
    List.contains_iff_mem] at h
  simp only [List.mem_cons, List.not_mem_nil, or_false] at h ⊢
  tauto

theorem toLower_eq_slash {c : Char} : c.toLower = '/' ↔ c = '/' := by
  rw [Char.ext_iff, Char.ext_iff]
  delta Char.toLower
  split <;> grind

/-- The segments of a text in lowercase. -/
theorem splitOn_lower (s : List Char) :
    (s.map Char.toLower).splitOn '/' = (s.splitOn '/').map (·.map Char.toLower) := by
  induction s with
  | nil => rfl
  | cons c s ih =>
      by_cases hc : c = '/'
      · subst hc
        rw [List.map_cons, toLower_eq_slash.mpr rfl, splitOn_cons_self, splitOn_cons_self, ih]
        rfl
      · have hnot : '/' ∉ [c] := fun h => hc (List.mem_singleton.mp h).symm
        have hlower : '/' ∉ [c.toLower] := fun h =>
          hc (toLower_eq_slash.mp (List.mem_singleton.mp h).symm)
        have hcons := splitOn_append_of_notMem hnot s
        rw [List.singleton_append] at hcons
        rw [List.map_cons, ← List.singleton_append, splitOn_append_of_notMem hlower, ih, hcons]
        cases s.splitOn '/' with
        | nil => rfl
        | cons p ps => rfl

/-- A path that is not ambiguous has no backslash and no segment of dots. -/
theorem of_not_ambiguous {path : String} (h : ambiguousPath path = false) :
    '\\' ∉ path.toList ∧ ∀ q ∈ path.toList.splitOn '/', isDots q = false := by
  rw [ambiguousPath] at h
  simp only [Bool.or_eq_false_iff] at h
  obtain ⟨⟨hback, -⟩, hsegments⟩ := h
  constructor
  · intro hmem
    have hlower : '\\' ∈ path.toList.map Char.toLower :=
      List.mem_map.mpr ⟨'\\', hmem, by decide⟩
    rw [contains_of_mem hlower] at hback
    cases hback
  · intro q hq
    rw [splitOn_lower, List.any_map] at hsegments
    by_contra hdots
    have hany := List.any_eq_false.mp hsegments q hq
    exact hany (dotted_of_isDots (Bool.not_eq_false _ ▸ hdots))

/-! ### The prefix -/

/-- A character of a prefix: the normalisation and a URL parser copy it. -/
def plainChar (c : Char) : Bool := c == '/' || c.isAlphanum || ['.', '_', '~', '-'].contains c

theorem lt_of_plainChar {c : Char} (h : plainChar c = true) : c.toNat < 128 := by
  rw [plainChar, Bool.or_eq_true, Bool.or_eq_true, beq_iff_eq, List.contains_iff_mem] at h
  rcases h with (rfl | halnum) | hmark
  · decide
  · delta Char.isAlphanum Char.isAlpha Char.isUpper Char.isLower Char.isDigit at halnum
    delta Char.toNat
    simp only [Bool.or_eq_true, Bool.and_eq_true, decide_eq_true_eq, ge_iff_le,
      UInt32.le_iff_toNat_le, Char.reduceVal, UInt32.reduceToNat] at halnum
    omega
  · have hmarks : ∀ c ∈ ['.', '_', '~', '-'], c.toNat < 128 := forall_mem_of_all (by decide)
    exact hmarks c hmark

theorem of_plainChar {c : Char} (h : plainChar c = true) :
    c ≠ '%' ∧ needsEncode c.toNat = false := by
  have hall : ∀ n < 128, plainChar (Char.ofNat n) = true →
      Char.ofNat n ≠ '%' ∧ needsEncode n = false := by decide +kernel
  have hc := hall c.toNat (lt_of_plainChar h)
  rw [Char.ofNat_toNat] at hc
  exact hc h

theorem encodeFrom_plain {c : Char} (h : plainChar c = true) (s : List Char) :
    encodeFrom false 0 0 (c :: s) = c :: encodeFrom false 0 0 s := by
  obtain ⟨hpercent, hneeds⟩ := of_plainChar h
  have hescape : escapeAt (c :: s) = none := by
    unfold escapeAt
    split
    · next heq => exact absurd (List.cons.inj heq).1 hpercent
    · rfl
  rw [encodeFrom_cons, hescape]
  simp only [hneeds, Bool.false_eq_true, if_false]

theorem head_encodeChar (c : Char) : ∃ t, encodeChar c = '%' :: t := by
  obtain ⟨b, bs, he⟩ : ∃ b bs, String.utf8EncodeChar c = b :: bs := by
    rcases utf8EncodeChar_cases c with ⟨b, -, he⟩ | ⟨b, bs, he, -⟩
    · exact ⟨b, [], he⟩
    · exact ⟨b, bs, he⟩
  rw [encodeChar, he, List.flatMap_cons]
  exact ⟨_, rfl⟩

/-- What is copied at the start is what the text starts with. -/
theorem of_encodeFrom_cons {c : Char} (h : plainChar c = true) {s t : List Char}
    (hs : encodeFrom false 0 0 s = c :: t) : ∃ s', s = c :: s' ∧ encodeFrom false 0 0 s' = t := by
  obtain ⟨hpercent, -⟩ := of_plainChar h
  cases s with
  | nil => cases hs
  | cons d s =>
      rw [encodeFrom_cons] at hs
      split at hs
      · exact absurd (List.cons.inj hs).1.symm hpercent
      · split at hs
        · obtain ⟨u, hu⟩ := head_encodeChar d
          rw [hu] at hs
          exact absurd (List.cons.inj hs).1.symm hpercent
        · obtain ⟨rfl, htail⟩ := List.cons.inj hs
          exact ⟨s, rfl, htail⟩

/-- A function of texts that copies plain characters, and turns no other to one. -/
structure Copies (f : List Char → List Char) : Prop where
  nil : f [] = []
  eq_nil : ∀ {s}, f s = [] → s = []
  cons : ∀ {c}, plainChar c = true → ∀ s, f (c :: s) = c :: f s
  of_cons : ∀ {c}, plainChar c = true → ∀ {s t}, f s = c :: t → ∃ s', s = c :: s' ∧ f s' = t

/-- The normalisation of a request path. -/
theorem copies_encodeFrom : Copies (encodeFrom false 0 0) where
  nil := rfl
  eq_nil := by
    intro s h
    cases s with
    | nil => rfl
    | cons c s =>
        rw [encodeFrom_cons] at h
        split at h
        · cases h
        · split at h
          · obtain ⟨u, hu⟩ := head_encodeChar c
            rw [hu] at h
            cases h
          · cases h
  cons := encodeFrom_plain
  of_cons := of_encodeFrom_cons

/-- What a URL parser writes. -/
theorem copies_encoder (e : Encoder plainChar) : Copies (·.flatMap e.encode) where
  nil := rfl
  eq_nil := by
    intro s h
    cases s with
    | nil => rfl
    | cons c s =>
        rw [List.flatMap_cons, List.append_eq_nil_iff] at h
        rcases e.escaped c with he | ⟨x, y, rest, he, -⟩
        · rw [he] at h
          cases h.1
        · rw [he] at h
          cases h.1
  cons := by
    intro c hc s
    rw [List.flatMap_cons, e.kept c hc, List.singleton_append]
  of_cons := by
    intro c hc s t h
    cases s with
    | nil => cases h
    | cons d s =>
        rw [List.flatMap_cons] at h
        rcases e.escaped d with he | ⟨x, y, rest, he, -⟩
        · rw [he] at h
          obtain ⟨rfl, htail⟩ := List.cons.inj h
          exact ⟨s, rfl, htail⟩
        · rw [he] at h
          exact absurd (List.cons.inj h).1.symm (of_plainChar hc).1

namespace Copies

variable {f : List Char → List Char}

theorem append (hf : Copies f) {p : List Char} (hp : p.all plainChar = true) (s : List Char) :
    f (p ++ s) = p ++ f s := by
  induction p with
  | nil => rfl
  | cons c p ih =>
      rw [List.all_cons, Bool.and_eq_true] at hp
      rw [List.cons_append, hf.cons hp.1, ih hp.2, List.cons_append]

theorem of_append (hf : Copies f) {p s t : List Char} (hp : p.all plainChar = true)
    (h : f s = p ++ t) :
    ∃ s', s = p ++ s' ∧ f s' = t := by
  induction p generalizing s with
  | nil => exact ⟨s, rfl, h⟩
  | cons c p ih =>
      rw [List.all_cons, Bool.and_eq_true] at hp
      obtain ⟨s', rfl, hs'⟩ := hf.of_cons hp.1 h
      obtain ⟨s'', rfl, hs''⟩ := ih hp.2 hs'
      exact ⟨s'', rfl, hs''⟩

theorem eq_iff (hf : Copies f) {p s : List Char} (hp : p.all plainChar = true) :
    f s = p ↔ s = p := by
  constructor
  · intro h
    obtain ⟨s', rfl, hs'⟩ := hf.of_append hp (h.trans (List.append_nil p).symm)
    rw [hf.eq_nil hs', List.append_nil]
  · rintro rfl
    have happend := hf.append hp []
    rwa [List.append_nil, hf.nil, List.append_nil] at happend

theorem prefix_iff (hf : Copies f) {p s : List Char} (hp : p.all plainChar = true) :
    p <+: f s ↔ p <+: s := by
  constructor
  · rintro ⟨t, ht⟩
    obtain ⟨s', rfl, -⟩ := hf.of_append hp ht.symm
    exact ⟨s', rfl⟩
  · rintro ⟨t, rfl⟩
    exact ⟨f t, (hf.append hp t).symm⟩

/-- The path that `f` writes is under a prefix of plain characters where the path is. -/
theorem under_iff (hf : Copies f) {path p : String} (hp : p.toList.all plainChar = true) :
    under (String.ofList (f path.toList)) p = under path p := by
  have hslash : (p.toList ++ ['/']).all plainChar = true := by
    rw [List.all_append, hp]
    rfl
  rw [Bool.eq_iff_iff, under, under, Bool.or_eq_true, Bool.or_eq_true, beq_iff_eq, beq_iff_eq,
    List.isPrefixOf_iff_prefix, List.isPrefixOf_iff_prefix, String.toList_ofList,
    hf.prefix_iff hslash, ← String.toList_inj, String.toList_ofList, hf.eq_iff hp,
    String.toList_inj]

end Copies

/-- A prefix that `validate` lets pass is written with plain characters. -/
theorem plain_of_shape {p : String} (h : prefixShape p = true) : p.toList.all plainChar = true := by
  rw [prefixShape, Bool.and_eq_true, Bool.and_eq_true, Bool.and_eq_true] at h
  obtain ⟨⟨⟨hstart, -⟩, -⟩, hsegments⟩ := h
  rw [List.isPrefixOf_iff_prefix] at hstart
  obtain ⟨r, hr⟩ := hstart
  rw [← hr, List.singleton_append, List.drop_one, List.tail_cons] at hsegments
  rw [← hr, List.singleton_append, List.all_cons, Bool.and_eq_true]
  refine ⟨rfl, List.all_eq_true.mpr fun c hc => ?_⟩
  by_cases hslash : c = '/'
  · rw [hslash]
    rfl
  · obtain ⟨seg, hseg, hmem⟩ := mem_splitOn_of_mem hslash hc
    have hok := List.all_eq_true.mp hsegments seg hseg
    rw [segOk, Bool.and_eq_true] at hok
    rw [plainChar, Bool.or_assoc, List.all_eq_true.mp hok.2 c hmem, Bool.or_true]

namespace ActionsConfig

variable (a : ActionsConfig)

/-- A path that is written anew, its plain characters copied, is under the prefix where it was. -/
theorem isUnder_copies {f : List Char → List Char} (hf : Copies f) (path : String) :
    a.isUnder (String.ofList (f path.toList)) = a.isUnder path := by
  rw [isUnder, isUnder]
  split
  · have hslash : ['/'].isPrefixOf (f path.toList) = ['/'].isPrefixOf path.toList := by
      rw [Bool.eq_iff_iff, List.isPrefixOf_iff_prefix, List.isPrefixOf_iff_prefix]
      exact hf.prefix_iff (by decide)
    have hping : (String.ofList (f path.toList) != "/ping") = (path != "/ping") := by
      rw [Bool.eq_iff_iff, bne_iff_ne, bne_iff_ne, ne_eq, ne_eq, ← String.toList_inj,
        String.toList_ofList, hf.eq_iff (by decide), String.toList_inj]
    rw [String.toList_ofList, hslash, hping, hf.under_iff (by decide), hf.under_iff (by decide)]
  · next hroot =>
    have hshape := a.valid.resolve_left fun he => hroot (beq_iff_eq.mpr he)
    exact hf.under_iff (plain_of_shape hshape)

/-- The admission of the normalised path is that of the path. -/
theorem isUnder_normalize (path : String) :
    a.isUnder (normalizeRequestPath path) = a.isUnder path := by
  rw [normalizeRequestPath, normalize_eq_encodeFrom]
  exact a.isUnder_copies copies_encodeFrom path

/-- A path under the prefix starts with a `/`. -/
theorem head_of_isUnder {path : String} (h : a.isUnder path = true) :
    path.toList.head? = some '/' := by
  have hprefix : ∀ {p s : List Char}, p.head? = some '/' → p <+: s → s.head? = some '/' := by
    rintro p s hp ⟨t, rfl⟩
    rw [List.head?_append, hp]
    rfl
  rw [isUnder] at h
  split at h
  · rw [Bool.and_eq_true, Bool.and_eq_true, Bool.and_eq_true, List.isPrefixOf_iff_prefix] at h
    exact hprefix rfl h.1.1.1
  · next hroot =>
    have hshape := a.valid.resolve_left fun he => hroot (beq_iff_eq.mpr he)
    rw [prefixShape, Bool.and_eq_true, Bool.and_eq_true, Bool.and_eq_true,
      List.isPrefixOf_iff_prefix] at hshape
    have hstart := hprefix rfl hshape.1.1.1
    rw [under, Bool.or_eq_true, beq_iff_eq, List.isPrefixOf_iff_prefix] at h
    rcases h with rfl | hunder
    · exact hstart
    · refine hprefix ?_ hunder
      rw [List.head?_append, hstart]
      rfl

end ActionsConfig

theorem takeWhile_of_no_fragment {s : List Char} (h : '#' ∉ s) :
    s.takeWhile (fun c => c != '?' && c != '#') = s.takeWhile (· ≠ '?') := by
  induction s with
  | nil => rfl
  | cons c s ih =>
      rw [List.mem_cons, not_or] at h
      have hsame : (c != '?' && c != '#') = decide (c ≠ '?') := by
        rw [bne_iff_ne.mpr (Ne.symm h.1), Bool.and_true, Bool.eq_iff_iff, bne_iff_ne,
          decide_eq_true_iff]
      rw [List.takeWhile_cons, List.takeWhile_cons, hsame, ih h.2]

/-- A parser reads the path of a request target as the pipeline does. -/
theorem pathText_target (t : Target) : pathText t.full.toList = (pathOf t.full).toList := by
  have hfilter : t.full.toList.filter (fun c => !(['\t', '\n', '\r'].contains c)) =
    t.full.toList := by
    rw [List.filter_eq_self]
    intro c hc
    have hblank : ∀ c ∈ ['\t', '\n', '\r'], c.toNat ≤ 0x20 := forall_mem_of_all (by decide)
    rw [Bool.not_eq_true', Bool.eq_false_iff]
    intro hmem
    exact absurd (t.visible c hc).1 (Nat.not_lt.mpr (hblank c (List.contains_iff_mem.mp hmem)))
  rw [pathText, hfilter, pathOf, String.toList_ofList]
  exact takeWhile_of_no_fragment fun hmem => (t.visible '#' hmem).2 rfl

/-- A path that is under the prefix and not refused is left as it is. -/
theorem resolve_of_not_ambiguous (a : ActionsConfig) {raw : String} (hunder : a.isUnder raw = true)
    (hrefused : ambiguousPath raw = false) : resolve raw.toList = raw.toList :=
  resolve_eq (a.head_of_isUnder hunder) (of_not_ambiguous hrefused).1 (of_not_ambiguous hrefused).2

/-- What a URL parser makes of a request for such a path is under the prefix. -/
theorem isUnder_pathname (a : ActionsConfig) {t : Target}
    (hunder : a.isUnder (pathOf t.full) = true)
    (hrefused : ambiguousPath (pathOf t.full) = false) (e : Encoder plainChar) :
    a.isUnder (String.ofList (pathname e.encode (pathText t.full.toList))) = true := by
  obtain ⟨hback, hdots⟩ := of_not_ambiguous hrefused
  rw [pathText_target, pathname_eq e (by decide) (a.head_of_isUnder hunder) hback hdots]
  exact (a.isUnder_copies (copies_encoder e) _).trans hunder

/-- **What the actions admit, the app routes on**: a path that is admitted, as it is or normalised,
and not refused, is left as it is by the resolution of backslashes and dot segments; and what a URL
parser makes of a request for it, whatever it encodes, is under the prefix. -/
theorem action_path_kept (a : ActionsConfig) (raw : String)
    (hunder : a.isUnder raw = true ∨ a.isUnder (normalizeRequestPath raw) = true)
    (hrefused : ambiguousPath raw = false) :
    resolve raw.toList = raw.toList ∧ a.isUnder (String.ofList (resolve raw.toList)) = true ∧
      ∀ t : Target, pathOf t.full = raw → ∀ e : Encoder plainChar,
        a.isUnder (String.ofList (pathname e.encode (pathText t.full.toList))) = true := by
  have hraw : a.isUnder raw = true := hunder.elim id fun h => a.isUnder_normalize raw ▸ h
  have hresolve := resolve_of_not_ambiguous a hraw hrefused
  refine ⟨hresolve, ?_, ?_⟩
  · rw [hresolve, String.ofList_toList]
    exact hraw
  · rintro t rfl e
    exact isUnder_pathname a hraw hrefused e

/-- The default prefix. -/
def defaultActions : ActionsConfig := ⟨"/_brust/action", .inr (by decide +kernel)⟩

theorem action_path_kept_call :
    defaultActions.isUnder "/_brust/action/a.b/%2efoo" = true ∧
      ambiguousPath "/_brust/action/a.b/%2efoo" = false ∧
      resolve "/_brust/action/a.b/%2efoo".toList = "/_brust/action/a.b/%2efoo".toList := by
  have hunder : defaultActions.isUnder "/_brust/action/a.b/%2efoo" = true := by decide +kernel
  have hrefused : ambiguousPath "/_brust/action/a.b/%2efoo" = false := by decide +kernel
  exact ⟨hunder, hrefused, (action_path_kept defaultActions _ (.inl hunder) hrefused).1⟩

/-- What is refused would leave the prefix. -/
example : ambiguousPath "/_brust/action/%2E./x" = true ∧
    resolve "/_brust/action/%2E./x".toList = "/_brust/x".toList := by decide +kernel

/-! ### Requests that are forwarded -/

end Brust.Core.Pipeline
