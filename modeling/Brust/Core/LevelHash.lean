import Mathlib.Data.List.Sort
import Brust.Core.Html
import Brust.Support.Framing
import Brust.Support.Holes

/-!
# Core — the hash of a level

A page is rendered from its innermost level out, and each level's hash covers the level's own
markup: its text, cut where the child's text is found in it.  The hash is sound for a level
(`level_hash_iff`) exactly when the child's text is found where the template put it and nowhere
else.
-/

namespace Brust.Core

open Holes

/-! ### The hash -/

/-- `match_indices` of a text that is not empty, after `skip` bytes of a match. -/
def matchIndices (c : Bytes) : ℕ → ℕ → Bytes → List (ℕ × ℕ)
  | _, _, [] => []
  | at_, skip + 1, _ :: s => matchIndices c (at_ + 1) skip s
  | at_, 0, b :: s =>
    if c <+: b :: s then (at_, at_ + c.length) :: matchIndices c (at_ + 1) (c.length - 1) s
    else matchIndices c (at_ + 1) 0 s

/-- The segments that are kept, from `at_` on: what is between the cuts. -/
def segments (html : Bytes) : ℕ → List (ℕ × ℕ) → List Bytes
  | at_, [] => [html.drop at_]
  | at_, (a, b) :: cut =>
    if b ≤ at_ then segments html at_ cut
    else (html.drop at_).take (max a at_ - at_) :: segments html b cut

/-- A `u64`, little-endian. -/
def le64 (n : ℕ) : Bytes :=
  [UInt8.ofNat n, UInt8.ofNat (n / 2 ^ 8), UInt8.ofNat (n / 2 ^ 16), UInt8.ofNat (n / 2 ^ 24),
    UInt8.ofNat (n / 2 ^ 32), UInt8.ofNat (n / 2 ^ 40), UInt8.ofNat (n / 2 ^ 48),
    UInt8.ofNat (n / 2 ^ 56)]

/-- The order of pairs. -/
def pairLe (p q : ℕ × ℕ) : Bool := decide (p.1 < q.1 ∨ p.1 = q.1 ∧ p.2 ≤ q.2)

section
variable (digest : Bytes → String)

/-- `level_hash`; `digest` is the first 16 digits of blake3. -/
def levelHash (html : Bytes) (child : Option Bytes) (root : Bool) : String :=
  let found := match child.filter (!·.isEmpty) with
    | some c => matchIndices c 0 0 html
    | none => []
  let head := if root then (headRange html).toList else []
  digest ((segments html 0 ((found ++ head).mergeSort pairLe)).flatMap fun s =>
    le64 s.length ++ s)

/-! ### Levels -/

/-- A level as its template renders it: its own markup around the places of `__outlet`. -/
structure Level where
  id : String
  own : List Bytes
  nonempty : own ≠ []

def Level.render (l : Level) (outlet : Option Bytes) : Bytes := (outlet.getD []).intercalate l.own

/-- The comments around a marked level. -/
def wrapped (id hash : String) (html : Bytes) : Bytes :=
  utf8 ("<!--brust-l:" ++ id ++ ":" ++ hash ++ "-->") ++ html ++
    utf8 ("<!--/brust-l:" ++ id ++ "-->")

/-- The text that the levels below one hand it, each with whether it is marked. -/
def outletOf : List (Level × Bool) → Option Bytes
  | [] => none
  | (l, mark) :: below =>
    let child := outletOf below
    let html := l.render child
    some (if mark then wrapped l.id (levelHash digest html child false) html else html)

end

/-! ### The segments of an inner level -/

attribute [local simp] matchIndices in
theorem matchIndices_skip (c : Bytes) : ∀ (x s : Bytes) (i : ℕ),
    matchIndices c i x.length (x ++ s) = matchIndices c (i + x.length) 0 s
  | [], s, i => rfl
  | b :: x, s, i => by
      rw [List.length_cons, List.cons_append, matchIndices, matchIndices_skip c x s (i + 1)]
      congr 1
      omega

theorem matchIndices_append {c : Bytes} (hc : c ≠ []) (s : Bytes) (i : ℕ) :
    matchIndices c i 0 (c ++ s) = (i, i + c.length) :: matchIndices c (i + c.length) 0 s := by
  obtain ⟨b, x, rfl⟩ := List.exists_cons_of_ne_nil hc
  rw [List.cons_append, matchIndices, ← List.cons_append, if_pos (List.prefix_append _ _),
    List.length_cons, Nat.add_sub_cancel, matchIndices_skip]
  congr 2
  omega

theorem matchIndices_cons {c s : Bytes} {b : UInt8} (h : ¬ c <+: b :: s) (i : ℕ) :
    matchIndices c i 0 (b :: s) = matchIndices c (i + 1) 0 s := by
  rw [matchIndices, if_neg h]

/-- Matches are found in order. -/
theorem matchIndices_sorted {c : Bytes} (hc : c ≠ []) (s : Bytes) (i : ℕ) :
    (∀ p ∈ matchIndices c i 0 s, i ≤ p.1) ∧
      (matchIndices c i 0 s).Pairwise fun p q => pairLe p q = true := by
  induction hn : s.length using Nat.strong_induction_on generalizing s i with
  | _ n ih =>
      subst hn
      cases s with
      | nil => exact ⟨fun p hp => absurd hp List.not_mem_nil, .nil⟩
      | cons b s =>
          by_cases h : c <+: b :: s
          · obtain ⟨t, ht⟩ := h
            have hpos := List.length_pos_iff.mpr hc
            rw [← ht, matchIndices_append hc]
            obtain ⟨hlow, hsorted⟩ := ih t.length
              (by rw [← ht, List.length_append]; omega) t (i + c.length) rfl
            refine ⟨fun p hp => ?_, hsorted.cons fun p hp => ?_⟩
            · rcases List.mem_cons.mp hp with rfl | hp
              · exact Nat.le_refl _
              · exact Nat.le_trans (Nat.le_add_right _ _) (hlow p hp)
            · have := hlow p hp
              rw [pairLe, decide_eq_true_eq]
              exact .inl (show i < p.1 by omega)
          · rw [matchIndices_cons h]
            obtain ⟨hlow, hsorted⟩ := ih s.length (Nat.lt_succ_self _) s (i + 1) rfl
            exact ⟨fun p hp => Nat.le_of_succ_le (hlow p hp), hsorted⟩

/-- From a cut on, with `mid` passed since and no match in it. -/
theorem segments_matchIndices {c : Bytes} (hc : c ≠ []) {html : Bytes} (s : Bytes) {mid : Bytes}
    {from_ i : ℕ} (hdrop : html.drop from_ = mid ++ s) (hi : i = from_ + mid.length) :
    segments html from_ (matchIndices c i 0 s) = (cutAt c 0 s).modifyHead (mid ++ ·) := by
  induction hn : s.length using Nat.strong_induction_on generalizing s mid from_ i with
  | _ n ih =>
      subst hn
      cases s with
      | nil =>
          rw [matchIndices, segments, cutAt, List.modifyHead_cons, hdrop]
      | cons b s =>
          by_cases h : c <+: b :: s
          · obtain ⟨t, ht⟩ := h
            have hpos := List.length_pos_iff.mpr hc
            rw [← ht] at hdrop ⊢
            have htail : html.drop (i + c.length) = [] ++ t := by
              rw [hi, Nat.add_assoc, ← List.drop_drop, hdrop, ← List.append_assoc,
                List.drop_left' (List.length_append), List.nil_append]
            have hrest : segments html (i + c.length) (matchIndices c (i + c.length) 0 t) =
                (cutAt c 0 t).modifyHead ([] ++ ·) :=
              ih t.length (by rw [← ht, List.length_append]; omega) t htail
                (by rw [List.length_nil, Nat.add_zero]) rfl
            obtain ⟨p, ps, hps⟩ := List.exists_cons_of_ne_nil (@cutAt_ne_nil _ _ c 0 t)
            rw [matchIndices_append hc, segments, if_neg (by omega), cutAt_append hc,
              List.modifyHead_cons, hrest, hps, List.modifyHead_cons, List.nil_append,
              List.append_nil, hdrop, Nat.max_eq_left (by omega), hi, Nat.add_sub_cancel_left,
              List.take_left' rfl]
          · rw [matchIndices_cons h, cutAt_cons h, List.modifyHead_modifyHead]
            have hpassed : html.drop from_ = (mid ++ [b]) ++ s := by
              rw [hdrop, List.append_assoc, List.singleton_append]
            have hnext : i + 1 = from_ + (mid ++ [b]).length := by
              rw [List.length_append, List.length_singleton, hi, Nat.add_assoc]
            rw [ih s.length (Nat.lt_succ_self _) s hpassed hnext rfl]
            congr 1
            funext x
            rw [List.append_assoc, List.singleton_append]
            rfl

/-- The text of a level with a hole for each place where the child's text is found. -/
def withHoles (html : Bytes) (child : Option Bytes) : List Bytes :=
  match child.filter (!·.isEmpty) with
  | some c => cutAt c 0 html
  | none => [html]

theorem levelHash_inner (digest : Bytes → String) (html : Bytes) (child : Option Bytes) :
    levelHash digest html child false =
      digest ((withHoles html child).flatMap fun s => le64 s.length ++ s) := by
  unfold levelHash withHoles
  dsimp only
  rw [if_neg (by decide), List.append_nil]
  split
  · next c hc =>
    have hne : c ≠ [] := by
      have := (Option.filter_eq_some_iff.mp hc).2
      simpa using this
    rw [List.mergeSort_of_pairwise (matchIndices_sorted hne html 0).2]
    have hall : segments html 0 (matchIndices c 0 0 html) =
        (cutAt c 0 html).modifyHead ([] ++ ·) := segments_matchIndices hne html rfl rfl
    obtain ⟨p, ps, hps⟩ := List.exists_cons_of_ne_nil (@cutAt_ne_nil _ _ c 0 html)
    rw [hall, hps, List.modifyHead_cons, List.nil_append]
  · rw [List.mergeSort_nil, segments, List.drop_zero]

theorem le64_inj {m n : ℕ} (hm : m < 2 ^ 64) (hn : n < 2 ^ 64) (h : le64 m = le64 n) : m = n := by
  simp only [le64, List.cons.injEq, ← UInt8.toNat_inj, UInt8.toNat_ofNat', and_true] at h
  obtain ⟨h₀, h₁, h₂, h₃, h₄, h₅, h₆, h₇⟩ := h
  -- the last byte first: what is above it is the same
  have hbyte : ∀ k, m / 2 ^ k % 2 ^ 8 = n / 2 ^ k % 2 ^ 8 → m / 2 ^ (k + 8) = n / 2 ^ (k + 8) →
      m / 2 ^ k = n / 2 ^ k := by
    intro k hmod hdiv
    rw [Nat.pow_add, ← Nat.div_div_eq_div_mul, ← Nat.div_div_eq_div_mul] at hdiv
    rw [← Nat.div_add_mod (m / 2 ^ k) (2 ^ 8), ← Nat.div_add_mod (n / 2 ^ k) (2 ^ 8), hmod, hdiv]
  have h₈ : m / 2 ^ 64 = n / 2 ^ 64 := by rw [Nat.div_eq_of_lt hm, Nat.div_eq_of_lt hn]
  have hhigh := hbyte 32 h₄ (hbyte 40 h₅ (hbyte 48 h₆ (hbyte 56 h₇ h₈)))
  have hall := hbyte 0 (by simpa using h₀) (hbyte 8 h₁ (hbyte 16 h₂ (hbyte 24 h₃ hhigh)))
  simpa using hall

/-- Filling the holes of a level's text with the child's gives the text. -/
theorem intercalate_withHoles (html : Bytes) (child : Option Bytes) :
    (child.getD []).intercalate (withHoles html child) = html := by
  unfold withHoles
  split
  · next c hc =>
    obtain ⟨rfl, hne⟩ := Option.filter_eq_some_iff.mp hc
    exact intercalate_cutAt (by simpa using hne) html
  · rw [List.intercalate_singleton]

/-! ### Soundness -/

section
variable (digest : Bytes → String)

/-- A level and the levels below it, as one request renders them.  `usize` has the lengths of its
segments. -/
structure LevelRender where
  level : Level
  below : List (Level × Bool)
  fits : ∀ s ∈ withHoles (level.render (outletOf digest below)) (outletOf digest below),
    s.length < 2 ^ 64

variable {digest}

namespace LevelRender

def child (r : LevelRender digest) : Option Bytes := outletOf digest r.below

def html (r : LevelRender digest) : Bytes := r.level.render r.child

/-- The hash that stands in the level's comment (`outletOf_marked`). -/
def hash (r : LevelRender digest) : String := levelHash digest r.html r.child false

/-- What a client shows that has this render and takes the child of another. -/
def swapped (r r' : LevelRender digest) : Bytes := r.level.render r'.child

/-- The child's text is found where the template put it, and nowhere else. -/
def Traced (r : LevelRender digest) : Prop := withHoles r.html r.child = r.level.own

instance (r : LevelRender digest) : Decidable r.Traced := inferInstanceAs (Decidable (_ = _))

end LevelRender

/-- Renders with one level's hash have its text but for the child's, so that the child may be
swapped alone; and the child's text alone does not change the hash. -/
structure SoundHash (r : LevelRender digest) : Prop where
  holes : ∀ r' : LevelRender digest, r'.hash = r.hash →
    withHoles r'.html r'.child = withHoles r.html r.child
  swap : ∀ r' : LevelRender digest, r'.level.id = r.level.id → r'.hash = r.hash →
    r.swapped r' = r'.html
  stable : ∀ r' : LevelRender digest, r'.level = r.level → Alone r.level.own (r.child.getD []) →
    Alone r.level.own (r'.child.getD []) → r'.hash = r.hash

theorem LevelRender.holes_of_hash (hdigest : Function.Injective digest) {r r' : LevelRender digest}
    (h : r'.hash = r.hash) : withHoles r'.html r'.child = withHoles r.html r.child := by
  unfold LevelRender.hash at h
  rw [levelHash_inner, levelHash_inner] at h
  have hwidth : ∀ n, (le64 n).length = 8 := fun _ => rfl
  exact all_frames_inj hwidth le64_inj (by decide) r'.fits r.fits (hdigest h)

theorem withHoles_of_alone {own : List Bytes} {child : Option Bytes} (hne : own ≠ [])
    (h : Alone own (child.getD [])) :
    withHoles ((child.getD []).intercalate own) child = own := by
  cases child with
  | none => exact absurd rfl h.nonempty
  | some c =>
      have hfilter : (some c).filter (!·.isEmpty) = some c := by
        rw [Option.filter_eq_some_iff]
        exact ⟨rfl, by simpa using h.nonempty⟩
      unfold withHoles
      rw [hfilter]
      exact cutAt_intercalate_of_alone hne h

theorem LevelRender.hash_stable {r r' : LevelRender digest} (hlevel : r'.level = r.level)
    (h : Alone r.level.own (r.child.getD [])) (h' : Alone r.level.own (r'.child.getD [])) :
    r'.hash = r.hash := by
  unfold LevelRender.hash
  rw [levelHash_inner, levelHash_inner]
  unfold LevelRender.html Level.render
  rw [hlevel, withHoles_of_alone r.level.nonempty h, withHoles_of_alone r.level.nonempty h']

/-- A page below a level that is found in it only where it is put. -/
def probe (n : ℕ) : Level where
  id := ""
  own := [0x3c :: List.replicate (n + 1) 0x20]
  nonempty := List.cons_ne_nil _ _

theorem outletOf_probe (n : ℕ) :
    outletOf digest [(probe n, false)] = some (0x3c :: List.replicate (n + 1) 0x20) := by
  rw [outletOf, if_neg (by decide), Level.render, probe, List.intercalate_singleton]

theorem withHoles_probe {n : ℕ} {own : List Bytes} (hne : own ≠ [])
    (hshort : ∀ p ∈ own, p.length ≤ n) :
    withHoles (((outletOf digest [(probe n, false)]).getD []).intercalate own)
      (outletOf digest [(probe n, false)]) = own := by
  rw [outletOf_probe]
  refine cutAt_of_marked (fun h => ?_) hne fun p hp => ?_
  · exact absurd (List.eq_of_mem_replicate h) (by decide)
  · rw [List.length_replicate]
    exact Nat.le_succ_of_le (hshort p hp)

theorem exists_length_le : ∀ ps : List Bytes, ∃ n, ∀ p ∈ ps, p.length ≤ n := fun ps =>
  ⟨ps.flatten.length, fun _ hp => (List.sublist_flatten_of_mem hp).length_le⟩

theorem withHoles_ne_nil (html : Bytes) (child : Option Bytes) : withHoles html child ≠ [] := by
  unfold withHoles
  split
  · exact cutAt_ne_nil
  · exact List.cons_ne_nil _ _

theorem SoundHash.traced {r : LevelRender digest} (h : SoundHash r) : r.Traced := by
  -- the same segments, filled with a text that shows where the holes are
  obtain ⟨n, hn⟩ := exists_length_le (r.level.own ++ withHoles r.html r.child)
  have hne := withHoles_ne_nil r.html r.child
  have hown := @withHoles_probe digest n _ r.level.nonempty fun p hp =>
    hn p (List.mem_append_left _ hp)
  have hheld := @withHoles_probe digest n _ hne fun p hp => hn p (List.mem_append_right _ hp)
  let level' : Level := ⟨r.level.id, withHoles r.html r.child, hne⟩
  have hfits : ∀ s ∈ withHoles (level'.render (outletOf digest [(probe n, false)]))
      (outletOf digest [(probe n, false)]), s.length < 2 ^ 64 := by
    unfold Level.render
    rw [hheld]
    exact r.fits
  let r' : LevelRender digest := ⟨level', [(probe n, false)], hfits⟩
  have hhash : r'.hash = r.hash := by
    unfold LevelRender.hash
    rw [levelHash_inner, levelHash_inner]
    congr 2
  have hswap : (r'.child.getD []).intercalate r.level.own =
      (r'.child.getD []).intercalate (withHoles r.html r.child) := h.swap r' rfl hhash
  have hcut := congrArg (fun html => withHoles html r'.child) hswap
  exact hheld.symm.trans (hcut.symm.trans hown)

/-- **A level's hash is sound for a render exactly when the child's text is found where the
template put it and nowhere else.** -/
theorem level_hash_iff (hdigest : Function.Injective digest) (r : LevelRender digest) :
    SoundHash r ↔ r.Traced := by
  refine ⟨SoundHash.traced, fun h => ?_⟩
  refine ⟨fun r' hhash => LevelRender.holes_of_hash hdigest hhash, fun r' _ hhash => ?_,
    fun r' hlevel hr hr' => LevelRender.hash_stable hlevel hr hr'⟩
  have hholes := LevelRender.holes_of_hash hdigest hhash
  rw [h] at hholes
  unfold LevelRender.swapped Level.render
  rw [← hholes, intercalate_withHoles]

end

/-- A hash that forgets nothing. -/
def plainDigest (bytes : Bytes) : String := String.ofList (hexText bytes)

theorem plainDigest_injective : Function.Injective plainDigest := fun _ _ h =>
  hexText_inj (String.ofList_injective h)

def leaf (id text : String) : Level := ⟨id, [ascii text], List.cons_ne_nil _ _⟩

/-- A heading and the page below it. -/
def headed (heading : String) : Level :=
  ⟨"site", [ascii heading ++ ascii ": ", ascii "."], List.cons_ne_nil _ _⟩

theorem level_hash_headed : @SoundHash plainDigest
    ⟨headed "Site", [(leaf "home" "Home", true)], by decide +kernel⟩ :=
  (level_hash_iff plainDigest_injective _).mpr (by decide +kernel)

/-- A heading that is the child's text again is left out of the hash with it. -/
theorem level_hash_echo : ¬ @SoundHash plainDigest
    ⟨headed "Home", [(leaf "home" "Home", false)], by decide +kernel⟩ := fun h =>
  absurd h.traced (by decide +kernel)

end Brust.Core
