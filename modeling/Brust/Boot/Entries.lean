import Brust.Boot.Streams

/-!
# Boot — entries as they are written

The server takes U+0085 off the end of an entry, which is no white space of JavaScript.  Where that
is not seen the server serves the entry as it is written, and nowhere else (`entry_served_iff`).
-/

namespace Brust.Boot

open Core (pathOf)
open Core.Pipeline (ActionsConfig Target under prefixShape plainChar)
open Jinja (jsSpace)
open Paint (isWhitespace)

/-! ### Requests under the prefix -/

section
variable (a : ActionsConfig)

/-- The requests whose path is under the prefix of the actions. -/
def Admitted (t : Target) : Prop := a.isUnder (pathOf t.full) = true

/-- The characters of a request's path. -/
def pathChar (c : Char) : Bool := decide (0x20 < c.toNat) && c != '#' && c != '?'

/-- No request under the prefix has these segments: a character that no request's path has, or a
path of the server's own under the root. -/
def Hidden (pathPrefix : String) (segs : List (List Char)) : Prop :=
  (∃ s ∈ segs, s.head? ≠ some ':' ∧ ∃ c ∈ s, pathChar c = false) ∨
    pathPrefix = "/" ∧ ∃ s ∈ ["_brust".toList, "public".toList], ∃ t rest, segs = s :: t :: rest

/-- A segment of some request that a segment of an entry names. -/
def sample (s : List Char) : List Char := if s.head? = some ':' then ['x'] else s

theorem stands_sample {s : List Char} : Stands s (sample s) := by
  rw [Stands, sample]
  split
  · exact List.cons_ne_nil _ _
  · rfl

theorem pathChar_of_plain {c : Char} (h : plainChar c = true) : pathChar c = true := by
  have hall : ∀ n < 128, plainChar (Char.ofNat n) = true → pathChar (Char.ofNat n) = true := by
    decide +kernel
  have hc := hall c.toNat (Core.Pipeline.lt_of_plainChar h)
  rw [Char.ofNat_toNat] at hc
  exact hc h

theorem pathChar_iff {c : Char} :
    pathChar c = true ↔ (0x20 < c.toNat ∧ c ≠ '#') ∧ c ≠ '?' := by
  rw [pathChar, Bool.and_eq_true, Bool.and_eq_true, decide_eq_true_eq, bne_iff_ne, bne_iff_ne]

/-- What is behind the prefix is written with characters of the request's path. -/
theorem pathChar_of_mem_relative {t : Target} {c : Char}
    (h : c ∈ relative a.pathPrefix t.full) : c = '/' ∨ pathChar c = true := by
  have hpath : ∀ c ∈ (pathOf t.full).toList, pathChar c = true := by
    intro c hc
    rw [pathOf, String.toList_ofList] at hc
    have hquery := List.mem_takeWhile_imp hc
    exact pathChar_iff.mpr ⟨t.visible c ((List.takeWhile_sublist _).subset hc),
      of_decide_eq_true hquery⟩
  rw [relative] at h
  split at h
  · exact .inr (hpath c h)
  · split at h
    · exact .inl (List.mem_singleton.mp h)
    · exact .inr (hpath c (List.mem_of_mem_drop h))

/-- What is hidden is not named by a request under the prefix. -/
theorem Hidden.not_named {segs : List (List Char)} (h : Hidden a.pathPrefix segs) {t : Target}
    (ht : Admitted a t) :
    ¬ List.Forall₂ Stands segs (segments (relative a.pathPrefix t.full)) := by
  intro hf
  rcases h with ⟨s, hs, hliteral, c, hc, hno⟩ | ⟨hroot, s, hs, u, rest, rfl⟩
  · obtain ⟨g, hg, hstands⟩ := exists_of_forall₂ hf.flip hs
    change Stands s g at hstands
    rw [Stands, if_neg hliteral] at hstands
    subst hstands
    have hmem := mem_of_mem_splitOn (List.mem_of_mem_drop hg) hc
    rcases pathChar_of_mem_relative a hmem with rfl | hyes
    · cases hno
    · rw [hyes] at hno
      cases hno
  · have hpath : relative a.pathPrefix t.full = (pathOf t.full).toList := by
      rw [relative, if_pos (beq_iff_eq.mpr hroot)]
    obtain ⟨segs, -, hslash, hjoined⟩ := exists_segments (a.head_of_isUnder ht)
    rw [hpath, hjoined, segments_joined hslash] at hf
    have hliteral : s.head? ≠ some ':' := by
      have hall : ∀ s ∈ ["_brust".toList, "public".toList], s.head? ≠ some ':' :=
        forall_mem_of_all (by decide)
      exact hall s hs
    cases hf with
    | @cons _ g _ gots hstands hf =>
        rw [Stands, if_neg hliteral] at hstands
        subst hstands
        cases hf with
        | @cons _ g _ gots _ _ =>
            -- the path is under a path of the server's own
            have hunder : ('/' :: s ++ ['/']) <+: (pathOf t.full).toList := by
              rw [hjoined]
              exact ⟨g ++ joined gots, by simp [joined]⟩
            have hno : (under (pathOf t.full) "/_brust" || under (pathOf t.full) "/public") =
                true := by
              rw [Bool.or_eq_true, under, under, Bool.or_eq_true, Bool.or_eq_true,
                List.isPrefixOf_iff_prefix, List.isPrefixOf_iff_prefix]
              rcases List.mem_cons.mp hs with rfl | hs
              · exact .inl (.inr hunder)
              · obtain rfl := List.mem_singleton.mp hs
                exact .inr (.inr hunder)
            rw [Admitted, ActionsConfig.isUnder, if_pos (beq_iff_eq.mpr hroot)] at ht
            simp only [Bool.and_eq_true, Bool.not_eq_true'] at ht
            rw [ht.1.2, ht.2] at hno
            cases hno

/-- A path of the server's own under the root begins with a segment that is hidden there. -/
theorem under_of_hidden {segs : List (List Char)} {w : List Char}
    (hw : w ∈ ["_brust".toList, "public".toList]) (hroot : a.pathPrefix = "/")
    (hslash : ∀ t ∈ segs, '/' ∉ t) (h : ¬ Hidden a.pathPrefix segs) :
    ¬ ('/' :: w ++ ['/']) <+: joined (segs.map sample) := by
  rintro ⟨r, hr⟩
  have hsample : ∀ t ∈ segs.map sample, '/' ∉ t := List.forall_mem_map.mpr fun t ht => by
    rw [sample]
    split
    · decide
    · exact hslash t ht
  have hword : '/' ∉ w ∧ w ≠ ['x'] := by
    have hall : ∀ w ∈ ["_brust".toList, "public".toList], '/' ∉ w ∧ w ≠ ['x'] :=
      forall_mem_of_all (by decide)
    exact hall w hw
  have hsegs : segs.map sample = w :: r.splitOn '/' := by
    rw [← segments_joined hsample, ← hr, segments, List.append_assoc, List.cons_append,
      splitOn_cons_self, splitOn_append_of_notMem hword.1, List.singleton_append,
      splitOn_cons_self, List.modifyHead_cons, List.append_nil, List.drop_one, List.tail_cons]
  cases segs with
  | nil => cases hsegs
  | cons t segs =>
      obtain ⟨ht, hrest⟩ := List.cons.inj hsegs
      have hsame : t = w := by
        rw [sample] at ht
        split at ht
        · exact absurd ht.symm hword.2
        · exact ht
      subst hsame
      cases segs with
      | nil => exact List.splitOn_ne_nil _ _ hrest.symm
      | cons u rest => exact h (.inr ⟨hroot, t, hw, u, rest, rfl⟩)

/-- A request under the prefix for the segments of an entry that nothing hides. -/
theorem exists_request {init : List (List Char)} {s : List Char}
    (hslash : ∀ t ∈ init ++ [s], '/' ∉ t) (hlast : s.getLast? = some '\u0085')
    (hliteral : s.head? ≠ some ':') (h : ¬ Hidden a.pathPrefix (init ++ [s])) :
    ∃ t : Target, Admitted a t ∧
      segments (relative a.pathPrefix t.full) = (init ++ [s]).map sample := by
  generalize hrel : joined ((init ++ [s]).map sample) = rel
  have hsample : ∀ t ∈ (init ++ [s]).map sample, '/' ∉ t :=
    List.forall_mem_map.mpr fun t ht => by
      rw [sample]
      split
      · decide
      · exact hslash t ht
  have hend : rel.getLast? = some '\u0085' := by
    rw [← hrel, List.map_append, List.map_singleton, joined_concat, sample, if_neg hliteral,
      List.getLast?_append_cons, List.getLast?_cons, hlast]
    rfl
  have hbegin : ∃ r, rel = '/' :: r := by
    cases init with
    | nil => exact ⟨_, hrel.symm⟩
    | cons t init => exact ⟨_, hrel.symm⟩
  obtain ⟨r, hr⟩ := hbegin
  have hchars : ∀ c ∈ rel, pathChar c = true := by
    intro c hc
    rw [← hrel] at hc
    obtain ⟨u, hu, hc⟩ := List.mem_flatMap.mp hc
    obtain ⟨t, ht, rfl⟩ := List.mem_map.mp hu
    rcases List.mem_cons.mp hc with rfl | hc
    · rfl
    · rw [sample] at hc
      split at hc
      · rw [List.mem_singleton.mp hc]
        rfl
      · next hlit =>
        by_contra hno
        exact h (.inl ⟨t, ht, hlit, c, hc, Bool.not_eq_true _ ▸ hno⟩)
  -- behind the prefix, or the whole path under the root
  have hrequest : ∀ front : List Char, (∀ c ∈ front, pathChar c = true) →
      (∀ c ∈ front.head?, c = '/') → ∃ t :
        Target, pathOf t.full = String.ofList (front ++ rel) := by
    intro front hfront hhead
    have hall : ∀ c ∈ front ++ rel, pathChar c = true := fun c hc =>
      (List.mem_append.mp hc).elim (hfront c) (hchars c)
    refine ⟨⟨String.ofList (front ++ rel), ?_, ?_⟩, ?_⟩
    · rw [String.toList_ofList]
      refine .inr (.inr (.inl ?_))
      cases front with
      | nil => rw [List.nil_append, hr, List.head?_cons]
      | cons c front => rw [List.cons_append, List.head?_cons, hhead c rfl]
    · intro c hc
      rw [String.toList_ofList] at hc
      exact (pathChar_iff.mp (hall c hc)).1
    · rw [pathOf, String.toList_ofList, List.takeWhile_eq_self_iff.mpr fun c hc =>
        decide_eq_true (pathChar_iff.mp (hall c hc)).2]
  by_cases hroot : a.pathPrefix = "/"
  · obtain ⟨t, ht⟩ := hrequest [] (fun c hc => by cases hc) fun c hc => by cases hc
    rw [List.nil_append] at ht
    refine ⟨t, ?_, ?_⟩
    · have hother : ∀ w : String, w.toList.getLast? ≠ some '\u0085' → pathOf t.full ≠ w := by
        rintro w hw rfl
        rw [ht, String.toList_ofList] at hw
        exact hw hend
      have hown : ∀ w ∈ ["_brust".toList, "public".toList], ∀ p : String, p.toList = '/' :: w →
          p.toList.getLast? ≠ some '\u0085' → under (pathOf t.full) p = false := by
        intro w hw p hp hlit
        have hnot := under_of_hidden a hw hroot hslash h
        rw [hrel] at hnot
        rw [under, Bool.or_eq_false_iff, beq_eq_false_iff_ne, hp, ht, String.toList_ofList]
        exact ⟨ht ▸ hother p hlit, Bool.eq_false_iff.mpr fun hprefix =>
          hnot (List.isPrefixOf_iff_prefix.mp hprefix)⟩
      have hstart : ['/'].isPrefixOf (pathOf t.full).toList = true := by
        rw [ht, String.toList_ofList, hr]
        rfl
      rw [Admitted, ActionsConfig.isUnder, if_pos (beq_iff_eq.mpr hroot), hstart,
        hown "_brust".toList (by decide) "/_brust" (by decide) (by decide),
        hown "public".toList (by decide) "/public" (by decide) (by decide), Bool.true_and,
          Bool.not_false,
        Bool.and_true, Bool.and_true, bne_iff_ne]
      exact hother "/ping" (by decide)
    · rw [relative, if_pos (beq_iff_eq.mpr hroot), ht, String.toList_ofList, ← hrel,
        segments_joined hsample]
  · have hshape := a.valid.resolve_left hroot
    obtain ⟨t, ht⟩ := hrequest a.pathPrefix.toList
      (fun c hc => pathChar_of_plain
        (List.all_eq_true.mp (Core.Pipeline.plain_of_shape hshape) c hc)) fun c hc => by
        rw [prefixShape, Bool.and_eq_true, Bool.and_eq_true, Bool.and_eq_true,
          List.isPrefixOf_iff_prefix] at hshape
        obtain ⟨q, hq⟩ := hshape.1.1.1
        rw [← hq] at hc
        exact (Option.some.inj hc).symm
    refine ⟨t, ?_, ?_⟩
    · rw [Admitted, ActionsConfig.isUnder, if_neg fun he => hroot (beq_iff_eq.mp he), under, ht,
        String.toList_ofList, hr, Bool.or_eq_true, List.isPrefixOf_iff_prefix]
      exact .inr ⟨r, by simp⟩
    · rw [relative, if_neg fun he => hroot (beq_iff_eq.mp he), ht, String.toList_ofList,
        List.drop_left, hr]
      change segments ('/' :: r) = _
      rw [← hr, ← hrel, segments_joined hsample]

/-! ### An entry served -/

/-- **The server takes an entry as it is written**: it parses, and a request under the prefix
matches it where the entry names the request. -/
def EntryServed (entry : List Char) : Prop :=
  ∃ r, StreamRoute.parse entry = .ok r ∧ ∀ (method : List Char) (t : Target), Admitted a t →
    (r.matches method (relative a.pathPrefix t.full) = true ↔
      EntryNames entry method (relative a.pathPrefix t.full))

/-- The path of an entry does not end in U+0085, or that is not seen: the last segment is a `:name`;
or no request under the prefix has the segments, and the last has more in it. -/
def Kept (pathPrefix : String) (path : List Char) : Prop :=
  let last := (segments path).getLastD []
  path.getLast? ≠ some '\u0085' ∨ last.head? = some ':' ∨
    Hidden pathPrefix (segments path) ∧ ∃ c ∈ last, c ≠ '\u0085'

theorem entryNames_iff {m p method rel : List Char} (hm : ' ' ∉ m) :
    EntryNames (m ++ ' ' :: p) method rel ↔
      sameLetters method m = true ∧ PathNames (segments p) (segments rel) := by
  constructor
  · rintro ⟨m', p', he, hm', hmethod, hpath⟩
    obtain ⟨rfl, rfl⟩ := append_cons_inj_left hm hm' he
    exact ⟨hmethod, hpath⟩
  · rintro ⟨hmethod, hpath⟩
    exact ⟨m, p, rfl, hm, hmethod, hpath⟩

/-- What the server parses of an entry that the build lets pass. -/
theorem parse_joined {m s : List Char} {init : List (List Char)}
    (hm : streamMethods.contains m = true) :
    StreamRoute.parse (m ++ ' ' :: joined (init ++ [s])) =
      let path := joined (init ++ [s.rdropWhile isWhitespace])
      if pathRefused path then
        .error ("stream entry: path must start with '/', have no empty segment, " ++
          "and use '*' only as the last segment")
      else .ok ⟨m, path⟩ := by
  obtain ⟨t, ht⟩ : ∃ t, joined (init ++ [s]) = '/' :: t := by
    cases init with
    | nil => exact ⟨_, rfl⟩
    | cons u init => exact ⟨_, rfl⟩
  have hpath : '/' :: t.rdropWhile isWhitespace = joined (init ++ [s.rdropWhile isWhitespace]) := by
    have hbehind := rdropWhile_behind (p := isWhitespace) (c := '/') rfl [] t
    rw [List.nil_append, List.nil_append, ← ht, joined_concat, rdropWhile_behind rfl] at hbehind
    rw [← hbehind, joined_concat]
  rw [ht, parse_entry hm, hpath]

theorem head?_rdropWhile {p : Char → Bool} {s : List Char} (h : s.rdropWhile p ≠ []) :
    (s.rdropWhile p).head? = s.head? := by
  obtain ⟨r, hr⟩ := List.rdropWhile_prefix p (l := s)
  conv_rhs => rw [← hr, List.head?_append_of_ne_nil _ h]

/-- What is hidden stays hidden when the last segment loses its end. -/
theorem Hidden.trimmed {pathPrefix : String} {init : List (List Char)} {s s' : List Char}
    (h : Hidden pathPrefix (init ++ [s])) (hhead : s'.head? = s.head?)
    (hkeep : ∀ c ∈ s, pathChar c = false → c ∈ s') : Hidden pathPrefix (init ++ [s']) := by
  rcases h with ⟨t, ht, hliteral, c, hc, hno⟩ | ⟨hroot, w, hw, u, rest, he⟩
  · rcases List.mem_append.mp ht with hinit | hlast
    · exact .inl ⟨t, List.mem_append_left _ hinit, hliteral, c, hc, hno⟩
    · obtain rfl := List.mem_singleton.mp hlast
      exact .inl ⟨s', List.mem_append_right _ (List.mem_singleton_self s'), hhead ▸ hliteral, c,
        hkeep c hc hno, hno⟩
  · cases init with
    | nil => cases he
    | cons v init =>
        obtain rfl := (List.cons.inj he).1
        obtain ⟨u', rest', he'⟩ := List.exists_cons_of_ne_nil
          (List.append_ne_nil_of_right_ne_nil init (List.cons_ne_nil s' []))
        exact .inr ⟨hroot, v, hw, u', rest', by rw [List.cons_append, he']⟩

/-- An entry whose last segment ends in U+0085, and what the server keeps of that segment. -/
structure Cut (init : List (List Char)) (s s' : List Char) : Prop where
  slash : ∀ t ∈ init ++ [s], '/' ∉ t
  star : ∀ t ∈ init ++ [s], '*' ∉ t
  filled : ∀ t ∈ init ++ [s], t ≠ []
  white : ∀ c ∈ s, isWhitespace c = true ↔ c = '\u0085'
  ended : s.getLast? = some '\u0085'
  cut : s.rdropWhile isWhitespace = s'

namespace Cut

variable {init : List (List Char)} {s s' : List Char} (h : Cut init s s')
include h

theorem subset {c : Char} (hc : c ∈ s') : c ∈ s :=
  (h.cut ▸ List.rdropWhile_prefix _ _ : s' <+: s).subset hc

theorem head?_eq (hne : s' ≠ []) : s'.head? = s.head? := by
  have hcut := h.cut
  subst hcut
  exact head?_rdropWhile hne

theorem ne : s' ≠ s := fun he => by
  have hs : s ≠ [] := h.filled s (List.mem_append_right _ (List.mem_singleton_self s))
  have hlast := h.ended
  rw [List.getLast?_eq_getLast_of_ne_nil hs, Option.some.injEq] at hlast
  have hself := List.rdropWhile_eq_self_iff.mp (h.cut.trans he)
  exact hself hs ((h.white _ (List.getLast_mem hs)).mpr hlast)

/-- The segment has more in it where something is left. -/
theorem more_iff : (∃ c ∈ s, c ≠ '\u0085') ↔ s' ≠ [] := by
  rw [← h.cut, Ne, List.rdropWhile_eq_nil_iff, not_forall]
  simp only [not_forall, exists_prop]
  exact exists_congr fun c => and_congr_right fun hc => not_congr (h.white c hc).symm

/-- A character that no path has is left. -/
theorem kept {c : Char} (hc : c ∈ s) (hbad : pathChar c = false) : c ∈ s' := by
  rw [← h.cut]
  refine mem_rdropWhile hc (Bool.eq_false_iff.mpr fun hw => ?_)
  rw [(h.white c hc).mp hw] at hbad
  cases hbad

theorem slash' : ∀ t ∈ init ++ [s'], '/' ∉ t :=
  List.forall_mem_append.mpr ⟨fun t ht => h.slash t (List.mem_append_left _ ht),
    List.forall_mem_singleton.mpr fun hmem =>
      h.slash s (List.mem_append_right _ (List.mem_singleton_self s)) (h.subset hmem)⟩

theorem star' : ∀ t ∈ init ++ [s'], '*' ∉ t :=
  List.forall_mem_append.mpr ⟨fun t ht => h.star t (List.mem_append_left _ ht),
    List.forall_mem_singleton.mpr fun hmem =>
      h.star s (List.mem_append_right _ (List.mem_singleton_self s)) (h.subset hmem)⟩

theorem badStar_eq : badStar (init ++ [s']) = false :=
  badStar_concat.mpr ⟨fun t ht => h.star' t (List.mem_append_left _ ht), fun hmem =>
    absurd hmem (h.star' s' (List.mem_append_right _ (List.mem_singleton_self s')))⟩

/-- The path that is left is refused where it ends in an empty segment, the root apart. -/
theorem refused_iff : pathRefused (joined (init ++ [s'])) = false ↔ init = [] ∨ s' ≠ [] := by
  rw [pathRefused_joined (List.append_ne_nil_of_right_ne_nil _ (List.cons_ne_nil _ _)) h.slash',
    and_iff_left h.badStar_eq]
  constructor
  · rintro (he | hall)
    · rcases List.append_eq_singleton_iff.mp he with ⟨hinit, -⟩ | ⟨-, he⟩
      · exact .inl hinit
      · cases he
    · exact .inr (hall s' (List.mem_append_right _ (List.mem_singleton_self s')))
  · intro hleft
    by_cases hs' : s' = []
    · rw [hleft.resolve_right (not_not_intro hs'), hs']
      exact .inl rfl
    · exact .inr (List.forall_mem_append.mpr
        ⟨fun t ht => h.filled t (List.mem_append_left _ ht), List.forall_mem_singleton.mpr hs'⟩)

/-- The server takes the entry as it is written where the path that is left is not refused, and
names the same requests under the prefix. -/
theorem served_iff {m : List Char} (hm : streamMethods.contains m = true) :
    EntryServed a (m ++ ' ' :: joined (init ++ [s])) ↔ (init = [] ∨ s' ≠ []) ∧
      ∀ (method : List Char) (t : Target), Admitted a t → sameLetters method m = true →
        (List.Forall₂ Stands (init ++ [s']) (segments (relative a.pathPrefix t.full)) ↔
          List.Forall₂ Stands (init ++ [s]) (segments (relative a.pathPrefix t.full))) := by
  have hnames : ∀ method rel, EntryNames (m ++ ' ' :: joined (init ++ [s])) method rel ↔
      sameLetters method m = true ∧ List.Forall₂ Stands (init ++ [s]) (segments rel) := by
    intro method rel
    rw [entryNames_iff (of_streamMethods hm).1, segments_joined h.slash, pathNames_iff h.star]
  have hloop : ∀ got, walk (init ++ [s']) got = true ↔ List.Forall₂ Stands (init ++ [s']) got := by
    intro got
    rw [walk_iff h.badStar_eq, pathNames_iff h.star']
  rw [EntryServed, parse_joined hm, h.cut, ← h.refused_iff]
  simp only [hnames]
  constructor
  · rintro ⟨r, hr, hall⟩
    split at hr
    · cases hr
    · next hpath =>
      cases hr
      refine ⟨Bool.not_eq_true _ ▸ hpath, fun method t ht hmethod => ?_⟩
      have hiff := hall method t ht
      rwa [StreamRoute.matches, Bool.and_eq_true, segments_joined h.slash', hloop,
        and_iff_right hmethod, and_iff_right hmethod] at hiff
  · rintro ⟨hpath, hall⟩
    rw [hpath]
    refine ⟨_, rfl, fun method t ht => ?_⟩
    rw [StreamRoute.matches, Bool.and_eq_true, segments_joined h.slash', hloop]
    exact and_congr_right fun hmethod => hall method t ht hmethod

/-- A request that the entry names and the server's route does not. -/
theorem exists_missed (hliteral : s.head? ≠ some ':') (hhidden : ¬ Hidden a.pathPrefix
    (init ++ [s])) :
    ∃ t : Target, Admitted a t ∧
      List.Forall₂ Stands (init ++ [s]) (segments (relative a.pathPrefix t.full)) ∧
      ¬ List.Forall₂ Stands (init ++ [s']) (segments (relative a.pathPrefix t.full)) := by
  obtain ⟨t, ht, hsegs⟩ := exists_request a h.slash h.ended hliteral hhidden
  refine ⟨t, ht, ?_, fun hnamed => ?_⟩
  · rw [hsegs, List.forall₂_map_right_iff, List.forall₂_same]
    exact fun _ _ => stands_sample
  · rw [hsegs, forall₂_concat] at hnamed
    obtain ⟨u, b, hstands, -, he⟩ := hnamed
    rw [List.map_append, List.map_singleton, sample, if_neg hliteral] at he
    obtain rfl := (List.cons.inj (List.append_inj_right' he rfl)).1
    rw [Stands] at hstands
    split at hstands
    · next hparam =>
      rw [h.head?_eq fun hs' => by rw [hs'] at hparam; cases hparam] at hparam
      exact hliteral hparam
    · exact h.ne hstands

/-- Such an entry is served as it is written exactly where its end is not seen. -/
theorem served_iff_unseen {m : List Char} (hm : streamMethods.contains m = true) :
    EntryServed a (m ++ ' ' :: joined (init ++ [s])) ↔
      s.head? = some ':' ∨ Hidden a.pathPrefix (init ++ [s]) ∧ ∃ c ∈ s, c ≠ '\u0085' := by
  rw [h.served_iff a hm, h.more_iff]
  constructor
  · rintro ⟨hpath, hall⟩
    by_contra hno
    obtain ⟨hliteral, hno⟩ := not_or.mp hno
    by_cases hhidden : Hidden a.pathPrefix (init ++ [s])
    · -- nothing of the segment is left, and it is the only one
      have hs' : s' = [] := not_not.mp fun hne => hno ⟨hhidden, hne⟩
      obtain rfl := hpath.resolve_right (not_not_intro hs')
      rcases hhidden with ⟨t, ht, -, c, hc, hbad⟩ | ⟨-, w, -, u, rest, he⟩
      · obtain rfl := List.mem_singleton.mp ht
        have hmem := h.kept hc hbad
        rw [hs'] at hmem
        cases hmem
      · cases he
    · obtain ⟨t, ht, hnamed, hmissed⟩ := h.exists_missed a hliteral hhidden
      exact hmissed ((hall m t ht (beq_self_eq_true _)).mpr hnamed)
  · rintro (hparam | ⟨hhidden, hne⟩)
    · have hne : s' ≠ [] := h.more_iff.mp ⟨':', List.mem_of_mem_head? hparam, by decide⟩
      refine ⟨.inr hne, fun method t _ _ => ?_⟩
      rw [forall₂_concat, forall₂_concat]
      simp only [Stands, h.head?_eq hne, if_pos hparam]
    · refine ⟨.inr hne, fun method t ht _ => ?_⟩
      have hstill := hhidden.trimmed (h.head?_eq hne) fun c hc hbad => h.kept hc hbad
      exact iff_of_false (hstill.not_named a ht) (hhidden.not_named a ht)

end Cut

/-- An entry that loses nothing is served as it is written. -/
theorem served_of_kept {m s : List Char} {init : List (List Char)}
    (hm : streamMethods.contains m = true) (hslash : ∀ t ∈ init ++ [s], '/' ∉ t)
    (hp : pathRefused (joined (init ++ [s])) = false) (hstar : badStar (init ++ [s]) = false)
    (hcut : s.rdropWhile isWhitespace = s) : EntryServed a (m ++ ' ' :: joined (init ++ [s])) := by
  refine ⟨⟨m, joined (init ++ [s])⟩, ?_, fun method t _ => ?_⟩
  · rw [parse_joined hm, hcut]
    simp only [hp, Bool.false_eq_true, if_false]
  · rw [entryNames_iff (of_streamMethods hm).1, StreamRoute.matches, Bool.and_eq_true,
      segments_joined hslash, walk_iff hstar]

/-- **Entries are served as they are written exactly where their ends are kept.** -/
theorem entry_served_iff {m p : List Char} (hm : streamMethods.contains m = true)
    (hp : pathRefused p = false) (hspace : ∀ c ∈ p, jsSpace c = false) :
    EntryServed a (m ++ ' ' :: p) ↔ Kept a.pathPrefix p := by
  have hhead : p.head? = some '/' := by
    rw [pathRefused, Bool.or_eq_false_iff, Bool.or_eq_false_iff, bne_eq_false_iff_eq] at hp
    exact hp.1.1
  obtain ⟨segs, hne, hslash, rfl⟩ := exists_segments hhead
  obtain ⟨init, s, rfl⟩ := (List.eq_nil_or_concat' segs).resolve_left hne
  obtain ⟨hempty, hstar⟩ := (pathRefused_joined hne hslash).mp hp
  obtain ⟨hfree, hlast⟩ := badStar_concat.mp hstar
  have hwhite : ∀ c ∈ s, isWhitespace c = true ↔ c = '\u0085' := fun c hc =>
    isWhitespace_iff (hspace c (List.mem_flatMap.mpr
      ⟨s, List.mem_append_right _ (List.mem_singleton_self s), List.mem_cons_of_mem _ hc⟩))
  have hend : (joined (init ++ [s])).getLast? = some '\u0085' ↔ s.getLast? = some '\u0085' := by
    rw [joined_concat, List.getLast?_append_cons, List.getLast?_cons]
    cases s.getLast? with
    | none => exact ⟨fun he => absurd (Option.some.inj he) (by decide), fun he => by cases he⟩
    | some c => rfl
  have hkept : Kept a.pathPrefix (joined (init ++ [s])) ↔ s.getLast? ≠ some '\u0085' ∨
      s.head? = some ':' ∨ Hidden a.pathPrefix (init ++ [s]) ∧ ∃ c ∈ s, c ≠ '\u0085' := by
    simp only [Kept, segments_joined hslash, List.getLastD_concat, ne_eq, hend]
  rw [hkept]
  by_cases hnel : s.getLast? = some '\u0085'
  · have hs : s ≠ [] := by
      rintro rfl
      cases hnel
    have hfilled : ∀ t ∈ init ++ [s], t ≠ [] := hempty.resolve_left fun he => by
      rcases List.append_eq_singleton_iff.mp he with ⟨-, he⟩ | ⟨-, he⟩
      · exact hs (List.cons.inj he).1
      · cases he
    have hplain : '*' ∉ s := fun hmem => by
      rw [hlast hmem] at hnel
      cases hnel
    have hcut : Cut init s (s.rdropWhile isWhitespace) := ⟨hslash,
      List.forall_mem_append.mpr ⟨hfree, List.forall_mem_singleton.mpr hplain⟩, hfilled, hwhite,
      hnel, rfl⟩
    rw [or_iff_right (not_not_intro hnel)]
    exact hcut.served_iff_unseen a hm
  · refine iff_of_true (served_of_kept a hm hslash hp hstar ?_) (.inl hnel)
    rw [List.rdropWhile_eq_self_iff]
    intro hne hw
    refine hnel ?_
    rw [List.getLast?_eq_getLast_of_ne_nil hne, (hwhite _ (List.getLast_mem hne)).mp hw]

end

end Brust.Boot
