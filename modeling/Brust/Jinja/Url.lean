import Mathlib.Data.List.DropRight
import Brust.Paint.Server
import Brust.Support.Framing

/-!
# Jinja — URLs

`safe_url` reads a URL's scheme in one pass.  It accepts what has no scheme or one of four, as the
URL parser reads schemes, except that it refuses a URL that starts with a colon, which has none
(`safe_url_iff`).
-/

namespace Brust.Jinja

open Paint (trimBy)

def c0OrSpace (c : Char) : Bool := decide (c ≤ ' ')

def tabOrNewline (c : Char) : Bool := c == '\t' || c == '\n' || c == '\r'

def schemeChar (c : Char) : Bool := c.isAlphanum || c == '+' || c == '-' || c == '.'

def allowedScheme (scheme : List Char) : Bool :=
  ["http", "https", "mailto", "tel"].contains (String.ofList (scheme.map Char.toLower))

/-- The loop of `safe_url`, with the scheme so far. -/
def schemeLoop (scheme : List Char) : List Char → Bool
  | [] => true
  | c :: rest =>
    if c = ':' then allowedScheme scheme
    else if schemeChar c then
      let scheme := scheme ++ [c]
      if scheme.head?.any Char.isAlpha then schemeLoop scheme rest else true
    else true

/-- What `safe_url` reads. -/
def cleaned (v : List Char) : List Char :=
  (trimBy c0OrSpace v).filter fun c => !tabOrNewline c

/-- `safe_url` -/
def safeUrl (v : List Char) : Bool := schemeLoop [] (cleaned v)

/-! ### The URL parser -/

/-- What the URL parser reads the scheme of. -/
def preprocess (v : List Char) : List Char :=
  (v.dropWhile c0OrSpace).filter fun c => !tabOrNewline c

/-- A letter, then letters, digits and the like. -/
structure SchemeText (s : List Char) : Prop where
  start : s.head?.any Char.isAlpha = true
  chars : ∀ c ∈ s, schemeChar c = true

/-- The URL starts with the scheme and its colon. -/
def HasScheme (url s : List Char) : Prop := SchemeText s ∧ s ++ [':'] <+: url

def Accepted (v : List Char) : Prop := ∀ s, HasScheme (preprocess v) s → allowedScheme s = true

/-! ### One scheme -/

theorem colon_not_scheme : schemeChar ':' = false := by decide

theorem schemeChar_of_isAlpha {c : Char} (h : c.isAlpha = true) : schemeChar c = true := by
  simp [schemeChar, Char.isAlphanum, h]

theorem SchemeText.concat {s : List Char} (h : SchemeText s) {c : Char}
    (hc : schemeChar c = true) : SchemeText (s ++ [c]) := by
  obtain ⟨hstart, hchars⟩ := h
  refine ⟨?_, fun d hd => ?_⟩
  · cases s with
    | nil => cases hstart
    | cons d s => exact hstart
  · rcases List.mem_append.mp hd with hd | hd
    · exact hchars d hd
    · exact List.mem_singleton.mp hd ▸ hc

/-- The loop in a scheme accepts what starts with no whole scheme, or with one of the four. -/
theorem schemeLoop_iff {scheme : List Char} (h : SchemeText scheme) (rest : List Char) :
    schemeLoop scheme rest = true ↔ ∀ s, HasScheme (scheme ++ rest) s → allowedScheme s = true := by
  induction rest generalizing scheme with
  | nil =>
      refine iff_of_true rfl fun s hs => ?_
      have hcolon : ':' ∈ scheme ++ [] := hs.2.subset (by simp)
      have hchar := h.chars ':' (List.append_nil scheme ▸ hcolon)
      rw [colon_not_scheme] at hchar
      cases hchar
  | cons c rest ih =>
      -- a whole scheme ends where the scheme so far does, or takes the next character too
      have hends : schemeChar c = false → ∀ s, HasScheme (scheme ++ c :: rest) s →
          s = scheme ∧ ':' = c := by
        rintro hc s ⟨hs, u, hu⟩
        rw [List.append_assoc, List.singleton_append] at hu
        obtain ⟨heq, hcolon, -⟩ := append_cons_inj_of_all hs.chars h.chars colon_not_scheme hc hu
        exact ⟨heq, hcolon⟩
      rw [schemeLoop]
      split
      · next hc =>
        subst hc
        constructor
        · intro hallowed s hs
          exact (hends colon_not_scheme s hs).1 ▸ hallowed
        · exact fun hall => hall scheme ⟨h, rest, by simp⟩
      · next hc =>
        split
        · next hchar =>
          have hnext := h.concat hchar
          dsimp only
          rw [if_pos hnext.start, ih hnext, List.append_assoc, List.singleton_append]
        · next hchar =>
          refine iff_of_true rfl fun s hs => ?_
          exact absurd (hends (Bool.eq_false_iff.mpr hchar) s hs).2.symm hc

/-- The URL starts with a colon, or the loop reads its scheme. -/
theorem schemeLoop_nil_iff (url : List Char) : schemeLoop [] url = true ↔
    url.head? ≠ some ':' ∧ ∀ s, HasScheme url s → allowedScheme s = true := by
  cases url with
  | nil =>
      refine iff_of_true rfl ⟨by simp, fun s hs => ?_⟩
      have hcolon : ':' ∈ ([] : List Char) := hs.2.subset (by simp)
      cases hcolon
  | cons c rest =>
      have hstart : c.isAlpha = false → ∀ s, ¬ HasScheme (c :: rest) s := by
        rintro hc s ⟨⟨hs, -⟩, u, hu⟩
        cases s with
        | nil => cases hs
        | cons d s =>
            have hd : d.isAlpha = true := hs
            rw [(List.cons.inj hu).1, hc] at hd
            cases hd
      rw [schemeLoop]
      split
      · next hc =>
        subst hc
        refine iff_of_false (by decide) fun h => h.1 rfl
      · next hc =>
        have hhead : (c :: rest).head? ≠ some ':' := fun h => hc (Option.some.inj h)
        split
        · next hchar =>
          dsimp only
          by_cases ha : c.isAlpha = true
          · have hone : SchemeText [c] := ⟨ha, fun d hd => List.mem_singleton.mp hd ▸ hchar⟩
            rw [List.nil_append, if_pos hone.start, schemeLoop_iff hone, List.singleton_append]
            exact (and_iff_right hhead).symm
          · have hnone := hstart (Bool.eq_false_iff.mpr ha)
            rw [List.nil_append, if_neg (show ¬ [c].head?.any Char.isAlpha = true from ha)]
            exact iff_of_true rfl ⟨hhead, fun s hs => absurd hs (hnone s)⟩
        · next hchar =>
          have hnone := hstart (Bool.eq_false_iff.mpr fun ha => hchar (schemeChar_of_isAlpha ha))
          exact iff_of_true rfl ⟨hhead, fun s hs => absurd hs (hnone s)⟩

/-- What `safe_url` also takes off, at the URL's end, has no colon. -/
theorem preprocess_split (v : List Char) :
    ∃ tail, ':' ∉ tail ∧ preprocess v = cleaned v ++ tail := by
  refine ⟨((v.dropWhile c0OrSpace).rtakeWhile c0OrSpace).filter fun c => !tabOrNewline c,
    fun hc => ?_, ?_⟩
  · have hlow := List.mem_rtakeWhile_imp (List.mem_filter.mp hc).1
    exact absurd hlow (by decide)
  · rw [cleaned, ← List.filter_append, trimBy, List.rdropWhile_append_rtakeWhile, preprocess]

theorem hasScheme_preprocess_iff (v s : List Char) :
    HasScheme (preprocess v) s ↔ HasScheme (cleaned v) s := by
  obtain ⟨tail, htail, hsplit⟩ := preprocess_split v
  rw [HasScheme, HasScheme, hsplit]
  refine and_congr_right fun _ => ⟨?_, fun h => h.trans (List.prefix_append ..)⟩
  rintro ⟨u, hu⟩
  rcases List.append_eq_append_iff.mp hu with ⟨a, ha, -⟩ | ⟨a, ha, hrest⟩
  · exact ⟨a, ha.symm⟩
  · rcases List.eq_nil_or_concat a with rfl | ⟨a, c, rfl⟩
    · exact ⟨[], by rw [ha, List.append_nil, List.append_nil]⟩
    · rw [List.concat_eq_append, ← List.append_assoc] at ha
      have hc := (List.append_inj' ha rfl).2
      cases hc
      exact absurd (hrest ▸ by simp) htail

theorem head_preprocess_iff (v : List Char) :
    (preprocess v).head? = some ':' ↔ (cleaned v).head? = some ':' := by
  obtain ⟨tail, htail, hsplit⟩ := preprocess_split v
  rw [hsplit]
  cases cleaned v with
  | nil => exact iff_of_false (fun h => htail (List.mem_of_head? h)) (by simp)
  | cons c rest => rfl

/-- A URL that starts with a colon has no scheme. -/
theorem accepted_of_colon {v : List Char} (h : (preprocess v).head? = some ':') : Accepted v := by
  rintro s ⟨⟨hstart, -⟩, u, hu⟩
  cases s with
  | nil => cases hstart
  | cons d s =>
      rw [← hu] at h
      cases h
      have hcolon : ':'.isAlpha = true := hstart
      exact absurd hcolon (by decide)

/-- **`safe_url` reads a URL's scheme as the URL parser does, unless the URL starts with a
colon.** -/
theorem safe_url_iff (v : List Char) : (safeUrl v = true ↔ Accepted v) ↔
    (preprocess v).head? ≠ some ':' := by
  have haccepted : Accepted v ↔ ∀ s, HasScheme (cleaned v) s → allowedScheme s = true := by
    simp only [Accepted, hasScheme_preprocess_iff]
  have hsafe : safeUrl v = true ↔ (preprocess v).head? ≠ some ':' ∧ Accepted v := by
    rw [safeUrl, schemeLoop_nil_iff, haccepted, ne_eq, ne_eq, head_preprocess_iff]
  constructor
  · exact fun h hcolon => (hsafe.mp (h.mpr (accepted_of_colon hcolon))).1 hcolon
  · exact fun h => hsafe.trans (and_iff_right h)

/-- A relative URL that starts with a colon is refused. -/
theorem safe_url_colon : ¬ (safeUrl [':', 'x'] = true ↔ Accepted [':', 'x']) := by
  have hrefused : safeUrl [':', 'x'] = false := by decide
  rw [hrefused]
  exact fun h => absurd (h.mpr (accepted_of_colon (by decide))) (by decide)

end Brust.Jinja
