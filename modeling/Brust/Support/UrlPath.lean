import Brust.Support.Split

/-!
# Support — the path of a URL

How a URL parser that follows the WHATWG standard reads the path of an `http` URL: a backslash is a
slash, a segment of one dot is dropped and a segment of two takes the one before it along, where
each dot may be written `%2e`, and what has to be percent-encoded is.

A path with no backslash and no segment of dots keeps its segments (`pathname_eq`): only characters
that are encoded are written otherwise, and with no such character nothing changes
(`resolve_eq`).
-/

namespace Brust.UrlPath

/-! ### Dots -/

/-- An ASCII text in lowercase. -/
def lower (s : List Char) : List Char := s.map Char.toLower

/-- A single-dot segment. -/
def singleDot (s : List Char) : Bool := [".".toList, "%2e".toList].contains (lower s)

/-- A double-dot segment. -/
def doubleDot (s : List Char) : Bool :=
  ["..".toList, ".%2e".toList, "%2e.".toList, "%2e%2e".toList].contains (lower s)

/-- A segment that is not kept. -/
def isDots (s : List Char) : Bool := singleDot s || doubleDot s

/-! ### The path state -/

/-- What is written for a character: itself, or an escape that is not the one of a dot.  The
characters that `keep` names are their own. -/
structure Encoder (keep : Char → Bool) where
  encode : Char → List Char
  kept : ∀ c, keep c = true → encode c = [c]
  escaped : ∀ c, encode c = [c] ∨
    ∃ x y rest, encode c = '%' :: x :: y :: rest ∧ ¬(x.toLower = '2' ∧ y.toLower = 'e')

def separator (c : Char) : Bool := c == '/' || c == '\\'

/-- The path when a segment ends; `more` when a separator ends it. -/
def close (path : List (List Char)) (buffer : List Char) (more : Bool) : List (List Char) :=
  if doubleDot buffer then path.dropLast ++ (if more then [] else [[]])
  else if singleDot buffer then path ++ (if more then [] else [[]])
  else path ++ [buffer]

/-- The path state. -/
def run (encode : Char → List Char) (path : List (List Char)) (buffer : List Char) :
    List Char → List (List Char)
  | [] => close path buffer false
  | c :: s =>
    if separator c then run encode (close path buffer true) [] s
    else run encode path (buffer ++ encode c) s

/-- What the path start state passes over. -/
def start : List Char → List Char
  | [] => []
  | c :: s => if separator c then s else c :: s

/-- What a parser reads the path from: up to a `?` or a `#`, with the tabs and newlines taken
out. -/
def pathText (s : List Char) : List Char :=
  (s.filter fun c => !(['\t', '\n', '\r'].contains c)).takeWhile fun c => c != '?' && c != '#'

/-- The path that a parser makes of that text. -/
def pathname (encode : Char → List Char) (s : List Char) : List Char :=
  (run encode [] [] (start s)).flatMap ('/' :: ·)

/-- The path with nothing encoded: slashes and dots only. -/
def resolve (s : List Char) : List Char := pathname (fun c => [c]) s

/-- Nothing is encoded. -/
def Encoder.plain (keep : Char → Bool) : Encoder keep where
  encode c := [c]
  kept _ _ := rfl
  escaped _ := .inl rfl

/-! ### What is kept -/

section

variable {keep : Char → Bool} (e : Encoder keep)

/-- Every `%` starts the escape of a dot. -/
def OnlyDots : List Char → Bool
  | [] => true
  | c :: s => (c != '%' || ['2', 'e'].isPrefixOf s) && OnlyDots s

/-- A text that only dots are escaped in has nothing that was encoded. -/
theorem flatMap_encode_of_onlyDots {s : List Char}
    (h : OnlyDots (lower (s.flatMap e.encode)) = true) :
    s.flatMap e.encode = s := by
  induction s with
  | nil => rfl
  | cons c s ih =>
      rw [List.flatMap_cons] at h ⊢
      rcases e.escaped c with he | ⟨x, y, rest, he, hdot⟩
      · rw [he] at h ⊢
        rw [List.singleton_append, lower, List.map_cons, OnlyDots, Bool.and_eq_true] at h
        rw [List.singleton_append, ih h.2]
      · rw [he] at h
        simp only [List.cons_append, lower, List.map_cons, OnlyDots, Bool.and_eq_true,
          Bool.or_eq_true] at h
        have hstart := h.1.resolve_left (by decide)
        rw [List.isPrefixOf_iff_prefix, List.cons_prefix_cons, List.cons_prefix_cons] at hstart
        exact absurd ⟨hstart.1.symm, hstart.2.1.symm⟩ hdot

/-- Encoding makes no dots. -/
theorem isDots_flatMap {s : List Char} (h : isDots (s.flatMap e.encode) = true) :
    isDots s = true := by
  have honly : OnlyDots (lower (s.flatMap e.encode)) = true := by
    have hall : ∀ t ∈ [".".toList, "%2e".toList, "..".toList, ".%2e".toList, "%2e.".toList,
        "%2e%2e".toList], OnlyDots t = true := by decide
    refine hall _ ?_
    rw [isDots, singleDot, doubleDot, Bool.or_eq_true, List.contains_iff_mem,
      List.contains_iff_mem] at h
    simp only [List.mem_cons, List.not_mem_nil, or_false] at h ⊢
    tauto
  rwa [flatMap_encode_of_onlyDots e honly] at h

theorem close_of_not_dots {path : List (List Char)} {buffer : List Char} {more : Bool}
    (h : isDots buffer = false) : close path buffer more = path ++ [buffer] := by
  obtain ⟨hsingle, hdouble⟩ := Bool.or_eq_false_iff.mp h
  rw [close, hdouble, hsingle]
  rfl

/-- The segments that follow, and the one that is begun. -/
theorem run_eq {s : List Char} (hslash : '\\' ∉ s) (path : List (List Char)) (buffer : List Char)
    {p : List Char} {ps : List (List Char)} (hs : s.splitOn '/' = p :: ps)
    (hp : isDots (buffer ++ p.flatMap e.encode) = false) (hps : ∀ q ∈ ps, isDots q = false) :
    run e.encode path buffer s =
      path ++ (buffer ++ p.flatMap e.encode) :: ps.map (·.flatMap e.encode) := by
  induction s generalizing path buffer p ps with
  | nil =>
      obtain ⟨rfl, rfl⟩ : [] = p ∧ [] = ps := List.cons.inj ((List.splitOn_nil '/').symm.trans hs)
      rw [List.flatMap_nil, List.append_nil] at hp ⊢
      exact close_of_not_dots hp
  | cons c s ih =>
      have hslash' : '\\' ∉ s := fun hmem => hslash (List.mem_cons_of_mem c hmem)
      by_cases hc : c = '/'
      · subst hc
        rw [splitOn_cons_self] at hs
        obtain ⟨rfl, rfl⟩ := List.cons.inj hs
        rw [List.flatMap_nil, List.append_nil] at hp ⊢
        rw [run, if_pos (by decide), close_of_not_dots hp]
        cases hsplit : s.splitOn '/' with
        | nil => exact absurd hsplit (List.splitOn_ne_nil _ _)
        | cons q qs =>
            rw [hsplit] at hps
            obtain ⟨hq, hqs⟩ := List.forall_mem_cons.mp hps
            have hdots : isDots ([] ++ q.flatMap e.encode) = false :=
              Bool.eq_false_iff.mpr fun h => Bool.eq_false_iff.mp hq (isDots_flatMap e h)
            rw [ih hslash' _ [] hsplit hdots hqs, List.append_assoc]
            rfl
      · have hnot : separator c = false := by
          rw [separator, beq_eq_false_iff_ne.mpr hc, Bool.false_or, beq_eq_false_iff_ne]
          exact fun he => hslash (he ▸ List.mem_cons_self)
        have hmem : '/' ∉ [c] := fun h => hc (List.mem_singleton.mp h).symm
        rw [← List.singleton_append, splitOn_append_of_notMem hmem] at hs
        cases hsplit : s.splitOn '/' with
        | nil => exact absurd hsplit (List.splitOn_ne_nil _ _)
        | cons q qs =>
            rw [hsplit, List.modifyHead_cons] at hs
            obtain ⟨rfl, rfl⟩ := List.cons.inj hs
            rw [List.singleton_append, List.flatMap_cons, ← List.append_assoc] at hp ⊢
            rw [run, if_neg (by rw [hnot]; exact Bool.false_ne_true)]
            exact ih hslash' path _ hsplit hp hps

theorem slash_intercalate {l : List (List Char)} (h : l ≠ []) :
    '/' :: ['/'].intercalate l = l.flatMap ('/' :: ·) := by
  induction l with
  | nil => exact absurd rfl h
  | cons p l ih =>
      cases l with
      | nil => simp
      | cons q l =>
          rw [List.intercalate_cons_cons, List.flatMap_cons, ← ih (List.cons_ne_nil q l)]
          simp

/-- **A path without backslashes and dot segments is kept**: each character is encoded where it
stands. -/
theorem pathname_eq {s : List Char} (hkeep : keep '/' = true) (hstart : s.head? = some '/')
    (hslash : '\\' ∉ s) (hdots : ∀ q ∈ s.splitOn '/', isDots q = false) :
    pathname e.encode s = s.flatMap e.encode := by
  obtain ⟨r, rfl⟩ : ∃ r, s = '/' :: r := by
    cases s with
    | nil => cases hstart
    | cons c r => exact ⟨r, by rw [Option.some.inj hstart]⟩
  have hslash' : '\\' ∉ r := fun hmem => hslash (List.mem_cons_of_mem _ hmem)
  have hwhole : '/' :: r = (r.splitOn '/').flatMap ('/' :: ·) := by
    rw [← slash_intercalate (List.splitOn_ne_nil _ _), List.intercalate_splitOn]
  rw [splitOn_cons_self] at hdots
  have hdots' := fun q hq => hdots q (List.mem_cons_of_mem _ hq)
  have hrun : run e.encode [] [] r = (r.splitOn '/').map (·.flatMap e.encode) := by
    cases hsplit : r.splitOn '/' with
    | nil => exact absurd hsplit (List.splitOn_ne_nil _ _)
    | cons p ps =>
        rw [hsplit] at hdots'
        obtain ⟨hp, hps⟩ := List.forall_mem_cons.mp hdots'
        have hfirst : isDots ([] ++ p.flatMap e.encode) = false :=
          Bool.eq_false_iff.mpr fun h => Bool.eq_false_iff.mp hp (isDots_flatMap e h)
        exact run_eq e hslash' [] [] hsplit hfirst hps
  rw [pathname, start, if_pos (by decide), hrun, hwhole, List.flatMap_assoc, List.flatMap_map]
  refine List.flatMap_congr fun p _ => ?_
  rw [List.flatMap_cons, e.kept '/' hkeep, List.singleton_append]

end

/-- Nothing changes where nothing is encoded. -/
theorem resolve_eq {s : List Char} (hstart : s.head? = some '/') (hslash : '\\' ∉ s)
    (hdots : ∀ q ∈ s.splitOn '/', isDots q = false) : resolve s = s :=
  (pathname_eq (Encoder.plain fun _ => true) rfl hstart hslash hdots).trans
    (List.flatMap_singleton' s)

end Brust.UrlPath
