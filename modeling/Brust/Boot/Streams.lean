import Brust.Core.Admission
import Brust.Jinja.Number
import Brust.Support.Except

/-!
# Boot — streamed routes

An entry of the `stream` list, as the build checks and writes it (`streamEntryError`, `writeEntry`)
and as the server parses it and asks it of a request (`StreamRoute.parse`, `StreamRoute.matches`).
What the build lets pass is a method and a path with one space between them
(`of_streamEntryError`), and the loop over the segments is what the entry says (`walk_iff`).
-/

namespace Brust.Boot

open Core (pathOf)
open Core.Pipeline (ActionsConfig Target under prefixShape plainChar)
open Jinja (jsSpace jsTrimmed)
open Paint (trim trimBy isWhitespace blanks)

/-! ### The build -/

/-- The methods whose body streams. -/
def streamMethods : List (List Char) :=
  [['P', 'O', 'S', 'T'], ['P', 'U', 'T'], ['P', 'A', 'T', 'C', 'H']]

/-- `split('/')` from the second piece on. -/
def segments (path : List Char) : List (List Char) := (path.splitOn '/').drop 1

/-- A `*` that is not the whole of the last segment. -/
def badStar : List (List Char) → Bool
  | [] => false
  | s :: rest => (s.contains '*' && (s != ['*'] || rest != [])) || badStar rest

/-- What both sides refuse a path for. -/
def pathRefused (path : List Char) : Bool :=
  path.head? != some '/' || (path != ['/'] && (segments path).any List.isEmpty) ||
    badStar (segments path)

/-- `/^\s*(\S+) +(\S+)\s*$/`: the method and the path of an entry. -/
def words (e : List Char) : Option (List Char × List Char) :=
  let s := e.dropWhile jsSpace
  let method := s.takeWhile (!jsSpace ·)
  let s := s.dropWhile (!jsSpace ·)
  let blank := s.takeWhile (· == ' ')
  let s := s.dropWhile (· == ' ')
  let path := s.takeWhile (!jsSpace ·)
  let rest := s.dropWhile (!jsSpace ·)
  if method ≠ [] ∧ blank ≠ [] ∧ path ≠ [] ∧ rest.all jsSpace then some (method, path) else none

/-- Why a text is no entry of the list. -/
def streamEntryError (toUpperCase : List Char → List Char) (e : List Char) : Option String :=
  match words e with
  | none => some "must be \"<METHOD> <path>\""
  | some (method, path) =>
    if !streamMethods.contains (toUpperCase method) then some "method must be POST, PUT or PATCH"
    else if pathRefused path then
      some "path must start with '/', have no empty segment, and use '*' only as the last segment"
    else none

/-- `split(/ +/)`: a run of spaces is one cut. -/
def splitSpaces : List Char → List (List Char)
  | [] => [[]]
  | c :: s =>
    if c = ' ' then if s.head? = some ' ' then splitSpaces s else [] :: splitSpaces s
    else (splitSpaces s).modifyHead (c :: ·)

/-- An entry as the manifest has it. -/
def writeEntry (toUpperCase : List Char → List Char) (e : List Char) : List Char :=
  match splitSpaces (jsTrimmed e) with
  | method :: path :: _ => toUpperCase method ++ ' ' :: path
  | method :: [] => toUpperCase method ++ ' ' :: "undefined".toList
  | [] => []

/-! ### The server -/

structure StreamRoute where
  method : List Char
  path : List Char
deriving DecidableEq

/-- `StreamRoute::parse`; `split_once(' ')` cuts the trimmed entry. -/
def StreamRoute.parse (entry : List Char) : Except String StreamRoute :=
  let t := trim entry
  if ' ' ∉ t then .error "stream entry must be \"<METHOD> <path>\""
  else
    let method := (t.takeWhile (· ≠ ' ')).map Char.toUpper
    let path := trim ((t.dropWhile (· ≠ ' ')).drop 1)
    if !streamMethods.contains method then
      .error "stream entry: method must be POST, PUT or PATCH"
    else if pathRefused path then
      .error ("stream entry: path must start with '/', have no empty segment, " ++
        "and use '*' only as the last segment")
    else .ok ⟨method, path⟩

/-- The loop of `matches`, over the segments wanted and those of the request. -/
def walk : List (List Char) → List (List Char) → Bool
  | [], [] => true
  | want :: wants, got :: gots =>
    if want = ['*'] then !got.isEmpty
    else if want.head? = some ':' then !got.isEmpty && walk wants gots
    else want == got && walk wants gots
  | _, _ => false

def sameLetters (a b : List Char) : Bool := a.map Char.toLower == b.map Char.toLower

def StreamRoute.matches (r : StreamRoute) (method rel : List Char) : Bool :=
  sameLetters method r.method && walk (segments r.path) (segments rel)

/-- The path of a request behind the prefix, as `streams` cuts it off. -/
def relative (pathPrefix full : String) : List Char :=
  let path := (pathOf full).toList
  if pathPrefix == "/" then path
  else
    match path.drop pathPrefix.toList.length with
    | [] => ['/']
    | r => r

/-! ### What an entry says -/

/-- A `:name` is any segment that is not empty; another segment is itself. -/
def Stands (want got : List Char) : Prop :=
  if want.head? = some ':' then got ≠ [] else want = got

/-- Segment by segment; a final `*` is one segment or more, the first of them not empty. -/
def PathNames (want got : List (List Char)) : Prop :=
  List.Forall₂ Stands want got ∨
    ∃ front last more, want = front ++ [['*']] ∧ last ≠ [] ∧
      ∃ begun, got = begun ++ last :: more ∧ List.Forall₂ Stands front begun

/-- **What an entry names**: the requests of its method, in any case, and of its path. -/
def EntryNames (entry method rel : List Char) : Prop :=
  ∃ m p, entry = m ++ ' ' :: p ∧ ' ' ∉ m ∧ sameLetters method m = true ∧
    PathNames (segments p) (segments rel)

theorem badStar_cons {s : List Char} {rest : List (List Char)} :
    badStar (s :: rest) = false ↔
      ('*' ∈ s → s = ['*'] ∧ rest = []) ∧ badStar rest = false := by
  simp only [badStar, Bool.or_eq_false_iff, Bool.and_eq_false_iff, List.contains_eq_mem,
    decide_eq_false_iff_not, bne_eq_false_iff_eq]
  tauto

/-- The server's loop asks what the entry says. -/
theorem walk_iff {want got : List (List Char)} (h : badStar want = false) :
    walk want got = true ↔ PathNames want got := by
  induction want generalizing got with
  | nil =>
      have hno : ∀ front : List (List Char), [] ≠ front ++ [['*']] := fun front he => by
        simp at he
      cases got with
      | nil => exact ⟨fun _ => .inl .nil, fun _ => rfl⟩
      | cons g gots =>
          refine ⟨fun hw => (by cases hw), ?_⟩
          rintro (hf | ⟨front, -, -, he, -⟩)
          · cases hf
          · exact absurd he (hno front)
  | cons w wants ih =>
      obtain ⟨hstar, hrest⟩ := badStar_cons.mp h
      cases got with
      | nil =>
          refine ⟨fun hw => (by cases hw), ?_⟩
          rintro (hf | ⟨front, last, more, -, -, begun, he, -⟩)
          · cases hf
          · simp at he
      | cons g gots =>
          -- a star is the last segment that is wanted, and takes all that is left
          rw [walk]
          split
          · next hw =>
            subst hw
            obtain ⟨-, rfl⟩ := hstar (List.mem_singleton_self _)
            constructor
            · intro hg
              refine .inr ⟨[], g, gots, rfl, fun he => ?_, [], rfl, .nil⟩
              rw [he] at hg
              cases hg
            · rintro (hf | ⟨front, last, more, he, hne, begun, hgot, hfront⟩)
              · obtain ⟨hs, -⟩ := List.forall₂_cons.mp hf
                have hg : ['*'] = g := hs
                rw [← hg]
                rfl
              · have hlen : front = [] := by
                  have := congrArg List.length he
                  rw [List.length_append] at this
                  exact List.length_eq_zero_iff.mp (Nat.succ.inj this).symm
                subst hlen
                cases hfront
                obtain ⟨rfl, -⟩ := List.cons.inj hgot
                rw [List.isEmpty_eq_false_iff.mpr hne]
                rfl
          · next hw =>
            have hcons : PathNames (w :: wants) (g :: gots) ↔
                Stands w g ∧ PathNames wants gots := by
              constructor
              · rintro (hf | ⟨front, last, more, he, hne, begun, hgot, hfront⟩)
                · obtain ⟨hs, hf⟩ := List.forall₂_cons.mp hf
                  exact ⟨hs, .inl hf⟩
                · cases hfront with
                  | nil => exact absurd (List.cons.inj he).1 hw
                  | @cons a b front begun hs hfront =>
                      obtain ⟨rfl, htail⟩ := List.cons.inj he
                      obtain ⟨rfl, hgots⟩ := List.cons.inj hgot
                      exact ⟨hs, .inr ⟨front, last, more, htail, hne, begun, hgots, hfront⟩⟩
              · rintro ⟨hs, hf | ⟨front, last, more, he, hne, begun, hgot, hfront⟩⟩
                · exact .inl (.cons hs hf)
                · refine .inr ⟨w :: front, last, more, ?_, hne, g :: begun, ?_, .cons hs hfront⟩
                  · rw [he, List.cons_append]
                  · rw [hgot, List.cons_append]
            rw [hcons, ← ih hrest, Stands]
            split
            · next hparam =>
              rw [Bool.and_eq_true, Bool.not_eq_true', List.isEmpty_eq_false_iff]
            · next hparam => rw [Bool.and_eq_true, beq_iff_eq]

/-! ### Paths and their segments -/

def joined (segs : List (List Char)) : List Char := segs.flatMap ('/' :: ·)

theorem splitOn_joined {segs : List (List Char)} (h : ∀ s ∈ segs, '/' ∉ s) :
    (joined segs).splitOn '/' = [] :: segs := by
  induction segs with
  | nil => rfl
  | cons s segs ih =>
      rw [joined, List.flatMap_cons, List.cons_append, splitOn_cons_self,
        splitOn_append_of_notMem (h s List.mem_cons_self)]
      have hrest := ih fun t ht => h t (List.mem_cons_of_mem _ ht)
      rw [joined] at hrest
      rw [hrest, List.modifyHead_cons, List.append_nil]

theorem segments_joined {segs : List (List Char)} (h : ∀ s ∈ segs, '/' ∉ s) :
    segments (joined segs) = segs := by
  rw [segments, splitOn_joined h, List.drop_one, List.tail_cons]

/-- A path from the root is its segments, each behind a `/`. -/
theorem exists_segments {p : List Char} (h : p.head? = some '/') :
    ∃ segs, segs ≠ [] ∧ (∀ s ∈ segs, '/' ∉ s) ∧ p = joined segs := by
  cases p with
  | nil => cases h
  | cons c t =>
      obtain rfl : c = '/' := Option.some.inj h
      have hne : t.splitOn '/' ≠ [] := List.splitOn_ne_nil _ _
      refine ⟨t.splitOn '/', hne, fun s hs => notMem_of_mem_splitOn hs, ?_⟩
      rw [joined, ← UrlPath.slash_intercalate hne, List.intercalate_splitOn]

theorem joined_concat (init : List (List Char)) (s : List Char) :
    joined (init ++ [s]) = joined init ++ '/' :: s := by
  rw [joined, List.flatMap_append, List.flatMap_singleton]
  rfl

theorem joined_eq_slash {segs : List (List Char)} (h : ∀ s ∈ segs, '/' ∉ s) :
    joined segs = ['/'] ↔ segs = [[]] := by
  constructor
  · intro he
    rw [← segments_joined h, he]
    rfl
  · rintro rfl
    rfl

theorem pathRefused_joined {segs : List (List Char)} (hne : segs ≠ [])
    (h : ∀ s ∈ segs, '/' ∉ s) : pathRefused (joined segs) = false ↔
      (segs = [[]] ∨ ∀ s ∈ segs, s ≠ []) ∧ badStar segs = false := by
  have hhead : (joined segs).head? = some '/' := by
    cases segs with
    | nil => exact absurd rfl hne
    | cons s segs => rfl
  simp only [pathRefused, segments_joined h, hhead, bne_self_eq_false, Bool.false_or,
    Bool.or_eq_false_iff, Bool.and_eq_false_iff, bne_eq_false_iff_eq, joined_eq_slash h,
    List.any_eq_false, List.isEmpty_iff]

theorem badStar_concat {init : List (List Char)} {s : List Char} :
    badStar (init ++ [s]) = false ↔ (∀ t ∈ init, '*' ∉ t) ∧ ('*' ∈ s → s = ['*']) := by
  induction init with
  | nil => simp [badStar]
  | cons t init ih =>
      rw [List.cons_append, badStar_cons, ih, List.forall_mem_cons]
      constructor
      · rintro ⟨ht, hinit, hs⟩
        refine ⟨⟨fun hmem => ?_, hinit⟩, hs⟩
        exact List.append_ne_nil_of_right_ne_nil _ (List.cons_ne_nil _ _) (ht hmem).2
      · rintro ⟨⟨ht, hinit⟩, hs⟩
        exact ⟨fun hmem => absurd hmem ht, hinit, hs⟩

/-- Without a `*` a path names segment by segment. -/
theorem pathNames_iff {want got : List (List Char)} (h : ∀ s ∈ want, '*' ∉ s) :
    PathNames want got ↔ List.Forall₂ Stands want got := by
  refine ⟨?_, .inl⟩
  rintro (hf | ⟨front, -, -, rfl, -⟩)
  · exact hf
  · exact absurd (List.mem_singleton_self _)
      (h _ (List.mem_append_right _ (List.mem_singleton_self _)))

/-! ### The end of an entry -/

theorem rdropWhile_behind {p : Char → Bool} {c : Char} (hc : p c = false) (a s : List Char) :
    (a ++ c :: s).rdropWhile p = a ++ c :: s.rdropWhile p := by
  induction s using List.reverseRecOn with
  | nil =>
      rw [List.rdropWhile_concat, hc, List.rdropWhile_nil]
      rfl
  | append_singleton s d ih =>
      rw [← List.cons_append, ← List.append_assoc, List.rdropWhile_concat,
        List.rdropWhile_concat, ih]
      split
      · rfl
      · rw [List.append_assoc, List.cons_append]

theorem mem_rdropWhile {p : Char → Bool} {s : List Char} {c : Char} (h : c ∈ s)
    (hc : p c = false) : c ∈ s.rdropWhile p := by
  rw [← List.rdropWhile_append_rtakeWhile (p := p) (l := s), List.mem_append] at h
  refine h.resolve_right fun hmem => ?_
  rw [List.mem_rtakeWhile_imp hmem] at hc
  cases hc

/-- Of what is no white space of JavaScript the server trims only U+0085. -/
theorem isWhitespace_iff {c : Char} (h : jsSpace c = false) :
    isWhitespace c = true ↔ c = '\u0085' := by
  rw [jsSpace, Bool.or_eq_false_iff] at h
  rw [isWhitespace, h.1, Bool.false_or, beq_iff_eq]

theorem trim_of_slash {a p : List Char} (ha : ∀ c ∈ a.head?, isWhitespace c = false) :
    trim (a ++ '/' :: p) = a ++ '/' :: p.rdropWhile isWhitespace := by
  have hdrop : (a ++ '/' :: p).dropWhile isWhitespace = a ++ '/' :: p := by
    cases a with
    | nil => rfl
    | cons c a => exact List.dropWhile_cons_of_neg (by rw [ha c rfl]; decide)
  rw [trim, trimBy, hdrop, rdropWhile_behind rfl]

theorem of_streamMethods {m : List Char} (h : streamMethods.contains m = true) :
    ' ' ∉ m ∧ m.map Char.toUpper = m ∧ ∀ c ∈ m.head?, isWhitespace c = false := by
  have hall : ∀ m ∈ streamMethods, ' ' ∉ m ∧ m.map Char.toUpper = m ∧
      m.head?.all (fun c => !isWhitespace c) = true := forall_mem_of_all (by decide)
  obtain ⟨hspace, hupper, hhead⟩ := hall m (List.contains_iff_mem.mp h)
  refine ⟨hspace, hupper, fun c hc => ?_⟩
  rw [Option.mem_def.mp hc] at hhead
  simpa using hhead

/-- What the server parses of an entry as the build writes it. -/
theorem parse_entry {m p : List Char} (hm : streamMethods.contains m = true) :
    StreamRoute.parse (m ++ ' ' :: '/' :: p) =
      let path := '/' :: p.rdropWhile isWhitespace
      if pathRefused path then
        .error ("stream entry: path must start with '/', have no empty segment, " ++
          "and use '*' only as the last segment")
      else .ok ⟨m, path⟩ := by
  obtain ⟨hspace, hupper, hhead⟩ := of_streamMethods hm
  have htrim : trim (m ++ ' ' :: '/' :: p) = m ++ ' ' :: '/' :: p.rdropWhile isWhitespace := by
    have := trim_of_slash (a := m ++ [' ']) (p := p) fun c hc => ?_
    · simpa using this
    · cases m with
      | nil => cases hm
      | cons d m => exact hhead c hc
  have hpos : ∀ c ∈ m, decide (c ≠ ' ') = true := fun c hc =>
    decide_eq_true fun he : c = ' ' => hspace (he ▸ hc)
  have htake : (m ++ ' ' :: '/' :: p.rdropWhile isWhitespace).takeWhile (· ≠ ' ') = m := by
    rw [List.takeWhile_append_of_pos hpos,
      List.takeWhile_cons_of_neg (by decide), List.append_nil]
  have hdrop : (m ++ ' ' :: '/' :: p.rdropWhile isWhitespace).dropWhile (· ≠ ' ') =
      ' ' :: '/' :: p.rdropWhile isWhitespace := by
    rw [List.dropWhile_append_of_pos hpos,
      List.dropWhile_cons_of_neg (by decide)]
  have hagain : trim ('/' :: p.rdropWhile isWhitespace) = '/' :: p.rdropWhile isWhitespace := by
    have := trim_of_slash (a := []) (p := p.rdropWhile isWhitespace) fun c hc => by cases hc
    rwa [List.nil_append, List.nil_append, List.rdropWhile_idempotent] at this
  have hmem : ¬ ' ' ∉ m ++ ' ' :: '/' :: p.rdropWhile isWhitespace :=
    fun hnot => hnot (List.mem_append_right _ List.mem_cons_self)
  rw [StreamRoute.parse, htrim]
  simp only [if_neg hmem, htake, hdrop, List.drop_one, List.tail_cons, hagain, hupper, hm,
    Bool.not_true, Bool.false_eq_true, if_false]

/-! ### What the build writes -/

theorem trimBy_of_ends {p : Char → Bool} {a t b : List Char} (ha : ∀ c ∈ a, p c = true)
    (hb : ∀ c ∈ b, p c = true) (ht : t ≠ []) (hfirst : ∀ c ∈ t.head?, p c = false)
    (hlast : ∀ c ∈ t.getLast?, p c = false) : trimBy p (a ++ (t ++ b)) = t := by
  have hback : ∀ b : List Char, (∀ c ∈ b, p c = true) → (t ++ b).rdropWhile p = t := by
    intro b hb
    induction b using List.reverseRecOn with
    | nil =>
        rw [List.append_nil, List.rdropWhile_eq_self_iff]
        intro hne hc
        rw [hlast _ (List.getLast?_eq_getLast_of_ne_nil hne)] at hc
        cases hc
    | append_singleton b d ih =>
        rw [← List.append_assoc, List.rdropWhile_concat,
          if_pos (hb d (List.mem_append_right _ (List.mem_singleton_self d)))]
        exact ih fun c hc => hb c (List.mem_append_left _ hc)
  obtain ⟨c, u, rfl⟩ := List.exists_cons_of_ne_nil ht
  rw [trimBy, List.dropWhile_append_of_pos ha, List.cons_append,
    List.dropWhile_cons_of_neg (by rw [hfirst c rfl]; decide), ← List.cons_append, hback b hb]

theorem splitSpaces_ne_nil (s : List Char) : splitSpaces s ≠ [] := by
  fun_induction splitSpaces s with
  | case1 => exact List.cons_ne_nil _ _
  | case2 _ _ ih => exact ih
  | case3 => exact List.cons_ne_nil _ _
  | case4 c s hc ih =>
      intro he
      cases hs : splitSpaces s with
      | nil => exact ih hs
      | cons p ps =>
          rw [hs] at he
          cases he

theorem splitSpaces_append {m : List Char} (h : ' ' ∉ m) (s : List Char) :
    splitSpaces (m ++ s) = (splitSpaces s).modifyHead (m ++ ·) := by
  obtain ⟨p, ps, hs⟩ := List.exists_cons_of_ne_nil (splitSpaces_ne_nil s)
  induction m with
  | nil => rw [List.nil_append, hs, List.modifyHead_cons, List.nil_append]
  | cons c m ih =>
      obtain ⟨hc, hm⟩ := List.ne_and_not_mem_of_not_mem_cons h
      rw [List.cons_append, splitSpaces, if_neg (Ne.symm hc), ih hm, hs]
      rfl

/-- A run of spaces is one cut. -/
theorem splitSpaces_run {blank s : List Char} (hne : blank ≠ []) (hblank : ∀ c ∈ blank, c = ' ')
    (hs : s.head? ≠ some ' ') : splitSpaces (blank ++ s) = [] :: splitSpaces s := by
  induction blank with
  | nil => exact absurd rfl hne
  | cons c blank ih =>
      obtain ⟨rfl, hrest⟩ := List.forall_mem_cons.mp hblank
      rw [List.cons_append, splitSpaces, if_pos rfl]
      cases blank with
      | nil => rw [List.nil_append, if_neg hs]
      | cons d blank =>
          obtain ⟨rfl, -⟩ := List.forall_mem_cons.mp hrest
          rw [List.cons_append, List.head?_cons, if_pos rfl, ← List.cons_append]
          exact ih (List.cons_ne_nil _ _) hrest

/-- The two words of an entry, and the spaces around them. -/
theorem of_words {e m p : List Char} (h : words e = some (m, p)) :
    ∃ a blank b, e = a ++ ((m ++ (blank ++ p)) ++ b) ∧ (∀ c ∈ a, jsSpace c = true) ∧
      (∀ c ∈ b, jsSpace c = true) ∧ blank ≠ [] ∧ (∀ c ∈ blank, c = ' ') ∧
      m ≠ [] ∧ (∀ c ∈ m, jsSpace c = false) ∧ p ≠ [] ∧ ∀ c ∈ p, jsSpace c = false := by
  rw [words] at h
  split at h
  · next hcond =>
    obtain ⟨hm, hblank, hp, hrest⟩ := hcond
    obtain ⟨rfl, rfl⟩ := Prod.mk.inj (Option.some.inj h)
    refine ⟨e.takeWhile jsSpace, _, _, ?_, fun c hc => List.mem_takeWhile_imp hc,
      fun c hc => List.all_eq_true.mp hrest c hc, hblank, fun c hc => ?_, hm, fun c hc => ?_, hp,
      fun c hc => ?_⟩
    · rw [List.append_assoc, List.append_assoc, List.takeWhile_append_dropWhile,
        List.takeWhile_append_dropWhile, List.takeWhile_append_dropWhile]
      exact (List.takeWhile_append_dropWhile).symm
    · exact beq_iff_eq.mp (List.mem_takeWhile_imp (p := (· == ' ')) hc)
    · simpa using List.mem_takeWhile_imp (p := (!jsSpace ·)) hc
    · simpa using List.mem_takeWhile_imp (p := (!jsSpace ·)) hc
  · cases h

/-- **What the build lets pass**: a method and a path, written with one space between them. -/
theorem of_streamEntryError {toUpperCase : List Char → List Char} {e : List Char}
    (h : streamEntryError toUpperCase e = none) : ∃ m p, words e = some (m, p) ∧
      writeEntry toUpperCase e = toUpperCase m ++ ' ' :: p ∧
      streamMethods.contains (toUpperCase m) = true ∧ pathRefused p = false ∧
      ∀ c ∈ p, jsSpace c = false := by
  rw [streamEntryError] at h
  cases hw : words e with
  | none =>
      rw [hw] at h
      cases h
  | some mp =>
      obtain ⟨m, p⟩ := mp
      rw [hw] at h
      simp only at h
      split at h
      · cases h
      · next hmethod =>
        split at h
        · cases h
        · next hpath =>
          obtain ⟨a, blank, b, rfl, ha, hb, hne, hblank, hm, hmspace, hp, hpspace⟩ := of_words hw
          have hspace : ∀ {s : List Char}, (∀ c ∈ s, jsSpace c = false) → ' ' ∉ s :=
            fun hs hmem => absurd (hs ' ' hmem) (by decide)
          refine ⟨m, p, rfl, ?_, by simpa using hmethod, by simpa using hpath, hpspace⟩
          have htrim : jsTrimmed (a ++ ((m ++ (blank ++ p)) ++ b)) = m ++ (blank ++ p) := by
            refine trimBy_of_ends ha hb (List.append_ne_nil_of_left_ne_nil hm _) (fun c hc => ?_)
              fun c hc => ?_
            · rw [List.head?_append_of_ne_nil _ hm] at hc
              exact hmspace c (List.mem_of_mem_head? hc)
            · rw [← List.append_assoc, List.getLast?_append_of_ne_nil _ hp] at hc
              exact hpspace c (List.mem_of_mem_getLast? hc)
          have hhead : p.head? ≠ some ' ' := fun he =>
            hspace hpspace (List.mem_of_mem_head? he)
          have hsplit : splitSpaces p = [p] := by
            have := splitSpaces_append (hspace hpspace) []
            rwa [List.append_nil, splitSpaces, List.modifyHead_cons, List.append_nil] at this
          rw [writeEntry, htrim, splitSpaces_append (hspace hmspace),
            splitSpaces_run hne hblank hhead, hsplit, List.modifyHead_cons, List.append_nil]

end Brust.Boot
