import Brust.Core.HoistLocal

/-!
# Core — what hoisting moves

The scan cuts the text behind the head into pieces (`pieces`), some of which are moved: the page is
put together from these, none lost and none twice, in their order (`hoist_moves`).  The pieces that
stay are cut the same way when the others are gone (`Cut.kept`), so that hoisting twice is hoisting
once, unless a moved piece brings a closing head tag or a title that stays has an end tag that never
ends.
-/

namespace Brust.Core

/-! ### Pieces -/

/-- What a turn goes over, and the tag and its name if it is one that may be hoisted. -/
structure Piece where
  text : Bytes
  found : Option (Bytes × Bytes)

/-- Whether a piece is moved. -/
def Piece.moved (p : Piece) : Bool :=
  match p.found with
  | none => false
  | some (tag, name) => (hoistable tag name).getD false

/-- The pieces of at most that many turns. -/
def pieces : ℕ → Bytes → Skip → List Piece
  | 0, _, _ => []
  | fuel + 1, rest, skip =>
    if rest = [] then []
    else
      match turn rest skip with
      | none => []
      | some t => ⟨rest.take t.next, t.found⟩ :: pieces fuel (rest.drop t.next) t.skip

/-- What the text behind the head is cut into. -/
def cuts (tail : Bytes) : List Piece :=
  if mentions tail then pieces tail.length tail [] else [⟨tail, none⟩]

def texts (ps : List Piece) : Bytes := ps.flatMap Piece.text

def kept (ps : List Piece) : List Piece := ps.filter fun p => !p.moved

def moved (ps : List Piece) : List Piece := ps.filter Piece.moved

/-- No title that stays is left at its tag by an end tag that never ends, in front of a piece that
is moved. -/
def Firm : List Piece → Prop
  | [] => True
  | p :: ps =>
    (p.moved = false → p.found = some (p.text, ascii "title") →
      (findCi (ascii "</title") (texts ps)).isSome = true → ∀ q ∈ ps, q.moved = false) ∧ Firm ps

/-- The pieces are those of a scan's turns. -/
def Cut : List Piece → Skip → Prop
  | [], _ => True
  | p :: ps, skip =>
    p.text ≠ [] ∧ ∃ t, turn (p.text ++ texts ps) skip = some t ∧ t.next = p.text.length ∧
      t.found = p.found ∧ Cut ps t.skip

theorem texts_cons (p : Piece) (ps : List Piece) : texts (p :: ps) = p.text ++ texts ps := rfl

theorem kept_cons_moved {p : Piece} (h : p.moved = true) (ps : List Piece) :
    kept (p :: ps) = kept ps := List.filter_cons_of_neg (by simp [h])

theorem kept_cons_stays {p : Piece} (h : p.moved = false) (ps : List Piece) :
    kept (p :: ps) = p :: kept ps := List.filter_cons_of_pos (by simp [h])

theorem moved_cons_moved {p : Piece} (h : p.moved = true) (ps : List Piece) :
    moved (p :: ps) = p :: moved ps := List.filter_cons_of_pos h

theorem moved_cons_stays {p : Piece} (h : p.moved = false) (ps : List Piece) :
    moved (p :: ps) = moved ps := List.filter_cons_of_neg (by simp [h])

/-- **The pieces are the text.** -/
theorem pieces_cut : ∀ {fuel : ℕ} {rest : Bytes} (skip : Skip), Proper rest → rest.length ≤ fuel →
    Cut (pieces fuel rest skip) skip ∧ texts (pieces fuel rest skip) = rest
  | 0, rest, skip, _, hfuel => by
      rw [List.length_eq_zero_iff.mp (Nat.le_zero.mp hfuel)]
      exact ⟨trivial, rfl⟩
  | fuel + 1, rest, skip, hs, hfuel => by
      rw [pieces]
      split
      · next hempty => exact ⟨trivial, hempty.symm⟩
      · next hne =>
        obtain ⟨t, ht, hprogress, hnext, -⟩ := turn_spec hs hne skip
        have hfuel' : (rest.drop t.next).length ≤ fuel := by
          rw [List.length_drop]
          omega
        obtain ⟨hcut, htexts⟩ := pieces_cut t.skip (hs.drop t.next) hfuel'
        have hlen : (rest.take t.next).length = t.next := by
          rw [List.length_take, Nat.min_eq_left hnext]
        rw [ht]
        refine ⟨⟨?_, t, ?_, hlen.symm, rfl, hcut⟩, ?_⟩
        · intro hnil
          dsimp only at hnil
          rw [hnil, List.length_nil] at hlen
          omega
        · dsimp only
          rw [htexts, List.take_append_drop, ht]
        · rw [texts_cons, htexts, List.take_append_drop]

/-- A piece with more behind it is a byte that opens no tag, or ends behind a `>`. -/
theorem Cut.close {p : Piece} {ps : List Piece} {skip : Skip} (h : Cut (p :: ps) skip)
    (hrest : texts ps ≠ []) :
    (p.text.head? ≠ some 0x3c ∧ p.text.length = 1) ∨
      (p.text.head? = some 0x3c ∧ p.text[p.text.length - 1]? = some 0x3e) := by
  obtain ⟨hne, t, ht, hnext, -⟩ := h
  have hpos := List.length_pos_iff.mpr hne
  have hlt : t.next < (p.text ++ texts ps).length := by
    have hrest' := List.length_pos_iff.mpr hrest
    rw [hnext, List.length_append]
    omega
  rcases turn_close ht hlt with ⟨hopen, hone⟩ | ⟨hopen, hgt, -⟩
  · rw [List.head?_append_of_ne_nil _ hne] at hopen
    exact .inl ⟨hopen, hnext ▸ hone⟩
  · rw [List.head?_append_of_ne_nil _ hne] at hopen
    rw [hnext, List.getElem?_append_left (by omega)] at hgt
    exact .inr ⟨hopen, hgt⟩

/-! ### The tags that are found -/

theorem uncounted_found {rest : Bytes} {skip : Skip} {closing dynamic : Bool} {name tag : Bytes}
    {stop : ℕ} {p : Bytes × Bytes}
    (h : (uncounted rest skip closing name tag stop dynamic).found = some p) :
    p = (tag, name) ∧ closing = false ∧ name ∈ hoistTags ∧
      uncounted rest skip closing name tag stop dynamic =
        ⟨if name = ascii "title" then (titleEnd rest stop).getD stop else stop, skip, some p⟩ := by
  rw [uncounted] at h ⊢
  split at h
  · cases h
  next hraw =>
  rw [if_neg hraw]
  split at h
  · cases h
  next hopaque =>
  rw [if_neg hopaque]
  split at h
  · cases h
  next hpass =>
  rw [if_neg hpass]
  simp only [Bool.or_eq_true, decide_eq_true_eq, not_or, not_not, Bool.not_eq_true] at hpass
  cases h
  exact ⟨rfl, hpass.1.1, hpass.2, rfl⟩

theorem lowerByte_lowerByte : ∀ b, lowerByte (lowerByte b) = lowerByte b := by
  intro b
  rw [lowerByte.eq_def b]
  split
  · next hupper =>
    have hlo := UInt8.le_iff_toNat_le.mp hupper.1
    have hhi := UInt8.le_iff_toNat_le.mp hupper.2
    rw [lowerByte, if_neg]
    intro hagain
    have hagain' := UInt8.le_iff_toNat_le.mp hagain.2
    rw [UInt8.toNat_add] at hagain'
    simp at hlo hhi hagain'
    omega
  · next hupper => rw [lowerByte, if_neg hupper]

/-- A text starts with its own first bytes in lower case. -/
theorem startsCi_append (name rest : Bytes) :
    startsCi (name.map lowerByte) (name ++ rest) = true := by
  have hlen : (name.map lowerByte).length = name.length := List.length_map _
  rw [startsCi, hlen, List.take_left, List.length_append,
    decide_eq_true (Nat.le_add_right _ _), Bool.true_and, eqIgnoreCase, beq_iff_eq, List.map_map]
  exact List.map_congr_left fun b _ => (lowerByte_lowerByte b).symm

/-- **What is found** is a title's, a meta's or a link's tag, in front of which nothing is
skipped. -/
theorem turn_found {rest : Bytes} {skip : Skip} {t : Turn} {tag name : Bytes}
    (h : turn rest skip = some t) (hfound : t.found = some (tag, name)) :
    rest.head? = some 0x3c ∧ t.skip = skip ∧ name ∈ hoistTags ∧
      startsCi (0x3c :: name) tag = true ∧ ∃ stop, stop ≤ rest.length ∧ tag = rest.take stop ∧
        t.next = if name = ascii "title" then (titleEnd rest stop).getD stop else stop := by
  rcases turn_cases h with ⟨-, rfl⟩ | ⟨-, -, body, -, rfl⟩ | ⟨hopen, -, name', hname, hcases⟩
  · cases hfound
  · cases hfound
  rcases hcases with ⟨-, rfl⟩ | ⟨stop, hend, hturn⟩
  · cases hfound
  obtain ⟨tag', htag, ⟨skip', -, rfl⟩ | ⟨-, dynamic, -, rfl⟩⟩ := tagTurn_cases hturn
  · cases hfound
  obtain ⟨heq, hclosing, hhoist, hturn'⟩ := uncounted_found hfound
  cases heq
  obtain ⟨⟨-, hstop, -⟩, htag'⟩ := of_slice htag
  rw [List.drop_zero, Nat.sub_zero] at htag'
  have hone : nameAt rest = 1 := by
    rw [nameAt, hclosing]
    rfl
  obtain ⟨⟨hle, -⟩, hname'⟩ := of_slice hname
  have hlt := (tagEnd_spec hend).1
  refine ⟨hopen, by rw [hturn'], hhoist, ?_, stop, hstop, htag', by rw [hturn']⟩
  have hpos := nameEnd_pos rest
  have hfirst : rest.take 1 = [0x3c] := by
    cases rest with
    | nil => cases hopen
    | cons b bytes =>
        cases hopen
        rfl
  have hname'' : tag = (0x3c :: name') ++ (rest.drop (nameEnd rest)).take
    (stop - nameEnd rest) := by
    rw [htag', hname', hone, ← List.singleton_append, ← hfirst, ← List.take_add,
      Nat.add_sub_cancel' hpos, ← List.take_add, Nat.add_sub_cancel' hlt.le]
  rw [hname'']
  exact startsCi_append (0x3c :: name') _

/-! ### The pieces that stay -/

theorem startsCi_open (needle : Bytes) {s : Bytes} (h : startsCi (0x3c :: needle) s = true) :
    s.head? = some 0x3c := by
  obtain ⟨c, hc, hlower⟩ := startsCi_get h (k := 0) (b := 0x3c) rfl
  rw [List.head?_eq_getElem?, hc]
  rw [lowerByte] at hlower
  split at hlower
  · next hupper =>
    have hlo := UInt8.le_iff_toNat_le.mp hupper.1
    have hhi := UInt8.le_iff_toNat_le.mp hupper.2
    have hsum := congrArg UInt8.toNat hlower
    rw [UInt8.toNat_add, lowerByte, if_neg (by decide)] at hsum
    simp at hlo hhi hsum
    omega
  · rw [hlower]
    rfl

theorem Piece.moved_found {p : Piece} (h : p.moved = true) :
    ∃ tag name, p.found = some (tag, name) ∧
    hoistable tag name = some true := by
  rw [moved] at h
  cases hfound : p.found with
  | none =>
      rw [hfound] at h
      cases h
  | some f =>
      obtain ⟨tag, name⟩ := f
      rw [hfound] at h
      refine ⟨tag, name, rfl, ?_⟩
      dsimp only at h
      cases hh : hoistable tag name with
      | none =>
          rw [hh] at h
          cases h
      | some b =>
          rw [hh] at h
          rw [show b = true from h]

/-- **What is moved** starts with `<title`, `<meta` or `<link`, and skips nothing. -/
theorem Cut.found {p : Piece} {ps : List Piece} {skip : Skip} (h : Cut (p :: ps) skip)
    {tag name : Bytes}
    (hfound : p.found = some (tag, name)) :
    p.text.head? = some 0x3c ∧ Cut ps skip ∧ name ∈ hoistTags ∧
      startsCi (0x3c :: name) p.text = true ∧
      (tag = p.text → name = ascii "title" →
        titleEnd (p.text ++ texts ps) p.text.length = none) := by
  obtain ⟨hne, t, ht, hnext, hfound', hcut⟩ := h
  obtain ⟨hopen, hskip, hname, hstart, stop, hstop, htag, hturn⟩ :=
    turn_found ht (hfound'.trans hfound)
  rw [List.head?_append_of_ne_nil _ hne] at hopen
  have hle : stop ≤ p.text.length := by
    rw [← hnext, hturn]
    split
    · cases hend : titleEnd (p.text ++ texts ps) stop with
      | none => exact le_rfl
      | some e => exact (titleEnd_lt hend).le
    · exact le_rfl
  have htag' : p.text = tag ++ p.text.drop stop := by
    rw [htag, List.take_append_of_le_length hle, List.take_append_drop]
  refine ⟨hopen, hskip ▸ hcut, hname, ?_, fun hwhole htitle => ?_⟩
  · rw [htag']
    have hlocal := startsCi_local (y := []) (p.text.drop stop) (startsCi_length hstart)
    rw [List.append_nil] at hlocal
    exact hlocal.trans hstart
  · have hlen : stop = p.text.length := by
      have hlen := congrArg List.length htag
      rw [hwhole, List.length_take, Nat.min_eq_left hstop] at hlen
      exact hlen.symm
    rw [if_pos htitle, hnext, hlen] at hturn
    cases hend : titleEnd (p.text ++ texts ps) p.text.length with
    | none => rfl
    | some e =>
        rw [hend, Option.getD_some] at hturn
        exact absurd (titleEnd_lt hend) (by omega)

theorem Cut.stays {p : Piece} {ps : List Piece} {skip : Skip} (h : Cut (p :: ps) skip)
    (hmoved : p.moved = true) : Cut ps skip := by
  obtain ⟨tag, name, hfound, -⟩ := Piece.moved_found hmoved
  exact (h.found hfound).2.1

/-- What is behind a piece that opens a tag begins at a character. -/
theorem Cut.begins {p : Piece} {ps : List Piece} {skip : Skip} (h : Cut (p :: ps) skip)
    (hs : Proper (texts (p :: ps))) (hopen : p.text.head? = some 0x3c) : Begins (texts ps) := by
  intro b hb
  have hne : texts ps ≠ [] := by
    intro hnil
    rw [hnil] at hb
    cases hb
  rcases h.close hne with ⟨hnot, -⟩ | ⟨-, hgt⟩
  · exact absurd hopen hnot
  · have hpos := List.length_pos_iff.mpr h.1
    refine hs (p.text.length - 1) 0x3e b ?_ ?_ (by decide)
    · rw [texts_cons, List.getElem?_append_left (by omega), hgt]
    · rw [texts_cons, Nat.sub_add_cancel hpos, List.getElem?_append_right le_rfl, Nat.sub_self,
        ← List.head?_eq_getElem?, hb]

theorem Cut.begins_kept : ∀ {ps : List Piece} {skip : Skip}, Cut ps skip → Proper (texts ps) →
    Begins (texts ps) → Begins (texts (kept ps))
  | [], _, _, _, _ => fun b hb => by cases hb
  | p :: ps, skip, h, hs, hbegins => by
      cases hmoved : p.moved with
      | false =>
          rw [kept_cons_stays hmoved]
          intro b hb
          rw [texts_cons, List.head?_append_of_ne_nil _ h.1] at hb
          exact hbegins b (by rw [texts_cons, List.head?_append_of_ne_nil _ h.1, hb])
      | true =>
          obtain ⟨tag, name, hfound, -⟩ := Piece.moved_found hmoved
          obtain ⟨hopen, hcut, -⟩ := h.found hfound
          have hs' : Proper (texts ps) := by
            have hdrop := hs.drop p.text.length
            rwa [texts_cons, List.drop_left] at hdrop
          rw [kept_cons_moved hmoved]
          exact Cut.begins_kept hcut hs' (h.begins hs hopen)

/-- An end tag of a title is within a piece or starts behind it. -/
theorem Cut.title_end_within {p : Piece} {ps : List Piece} {skip : Skip} (h : Cut (p :: ps) skip)
    (hrest : texts ps ≠ []) {k : ℕ} (hk : k < p.text.length) {y : Bytes}
    (hstart : startsCi (ascii "</title") (p.text.drop k ++ y) = true) :
    (ascii "</title").length ≤ (p.text.drop k).length := by
  by_contra hlen
  rw [List.length_drop] at hlen
  rcases h.close hrest with ⟨hnot, hone⟩ | ⟨-, hgt⟩
  · obtain rfl : k = 0 := by omega
    have hopen := startsCi_open (ascii "/title") hstart
    rw [List.drop_zero, List.head?_append_of_ne_nil _ h.1] at hopen
    exact hnot hopen
  · -- the piece's last byte is a `>`, which no byte of the tag's name is
    obtain ⟨b, hb⟩ : ∃ b, (ascii "</title")[p.text.length - 1 - k]? = some b :=
      ⟨_, List.getElem?_eq_getElem (show p.text.length - 1 - k < (ascii "</title").length by omega)⟩
    obtain ⟨c, hc, hlower⟩ := startsCi_get hstart hb
    rw [List.getElem?_append_left (by rw [List.length_drop]; omega), List.getElem?_drop,
      show k + (p.text.length - 1 - k) = p.text.length - 1 by omega, hgt] at hc
    cases hc
    exact title_needle b (List.mem_of_getElem? hb) hlower.symm

theorem drop_add_append (x y : Bytes) (k : ℕ) : (x ++ y).drop (x.length + k) = y.drop k := by
  rw [← List.drop_drop, List.drop_left]

/-- **No end tag of a title comes up** where pieces are taken out. -/
theorem Cut.no_title_end : ∀ {ps : List Piece} {skip : Skip}, Cut ps skip →
    (∀ k, startsCi (ascii "</title") ((texts ps).drop k) = false) →
      ∀ k, startsCi (ascii "</title") ((texts (kept ps)).drop k) = false
  | [], _, _, hnone => hnone
  | p :: ps, skip, h, hnone => by
      have hcut : ∃ skip', Cut ps skip' := by
        obtain ⟨-, t, -, -, -, hcut⟩ := h
        exact ⟨_, hcut⟩
      have ih := Cut.no_title_end hcut.choose_spec fun k => by
        rw [← hnone (p.text.length + k), texts_cons, drop_add_append]
      cases hmoved : p.moved with
      | true =>
          rw [kept_cons_moved hmoved]
          exact ih
      | false =>
          rw [kept_cons_stays hmoved, texts_cons]
          intro k
          rcases Nat.lt_or_ge k p.text.length with hlt | hge
          · rw [List.drop_append_of_le_length hlt.le]
            by_contra hstart
            rw [Bool.not_eq_false] at hstart
            have hwithin : (ascii "</title").length ≤ (p.text.drop k).length := by
              cases ps with
              | nil =>
                  have hle := startsCi_length hstart
                  rwa [show texts (kept []) = [] from rfl, List.append_nil] at hle
              | cons q ps =>
                  refine h.title_end_within (fun hnil => ?_) hlt hstart
                  exact hcut.choose_spec.1 (List.append_eq_nil_iff.mp hnil).1
            have hthere := hnone k
            rw [texts_cons, List.drop_append_of_le_length hlt.le,
              startsCi_local (texts ps) hwithin, hstart] at hthere
            cases hthere
          · obtain ⟨j, rfl⟩ := Nat.exists_eq_add_of_le hge
            rw [drop_add_append]
            exact ih j

theorem findCi_eq_none_iff {needle : Bytes} (hneedle : needle ≠ []) : ∀ {s : Bytes},
    findCi needle s = none ↔ ∀ k, startsCi needle (s.drop k) = false
  | [] => by
      have hno : startsCi needle [] = false := by
        cases hstart : startsCi needle [] with
        | false => rfl
        | true => exact absurd (List.eq_nil_of_length_eq_zero
            (Nat.le_zero.mp (startsCi_length hstart))) hneedle
      rw [findCi, hno]
      exact ⟨fun _ k => (by rw [List.drop_nil, hno]), fun _ => rfl⟩
  | b :: s => by
      rw [findCi]
      split
      · next hstart =>
        have hnot : ¬∀ k, startsCi needle ((b :: s).drop k) = false := fun h => by
          rw [← List.drop_zero (l := b :: s), h 0] at hstart
          cases hstart
        exact ⟨fun h => (by cases h), fun h => absurd h hnot⟩
      · next hstart =>
        rw [Option.map_eq_none_iff, findCi_eq_none_iff hneedle]
        refine ⟨fun h k => ?_, fun h k => h (k + 1)⟩
        cases k with
        | zero => exact Bool.not_eq_true _ ▸ hstart
        | succ k => exact h k

/-- **The pieces that stay are cut the same way.** -/
theorem Cut.kept : ∀ {ps : List Piece} {skip : Skip}, Cut ps skip → Proper (texts ps) → Firm ps →
    Cut (kept ps) skip
  | [], _, _, _, _ => trivial
  | p :: ps, skip, h, hs, hfirm => by
      have hs' : Proper (texts ps) := by
        have hdrop := hs.drop p.text.length
        rwa [texts_cons, List.drop_left] at hdrop
      cases hmoved : p.moved with
      | true =>
          rw [kept_cons_moved hmoved]
          exact Cut.kept (h.stays hmoved) hs' hfirm.2
      | false =>
          rw [kept_cons_stays hmoved]
          obtain ⟨hne, t, ht, hnext, hfound, hcut⟩ := id h
          refine ⟨hne, t, ?_, hnext, hfound, Cut.kept hcut hs' hfirm.2⟩
          cases ps with
          | nil => exact ht
          | cons q ps =>
              have hrest : texts (q :: ps) ≠ [] := fun hnil =>
                hcut.1 (List.append_eq_nil_iff.mp hnil).1
              refine turn_local hne hrest ht hnext
                (fun hopen => hcut.begins_kept hs' (h.begins hs hopen)) fun htitle => ?_
              rw [hfound] at htitle
              have hend := (h.found htitle).2.2.2.2 rfl rfl
              cases hfind : findCi (ascii "</title") (texts (q :: ps)) with
              | none =>
                  have hnone := hcut.no_title_end ((findCi_eq_none_iff (by decide)).mp hfind)
                  rw [titleEnd, findCiFrom, if_pos (by rw [List.length_append]; omega),
                    List.drop_left, (findCi_eq_none_iff (by decide)).mpr hnone]
                  rfl
              | some k =>
                  have hstay := hfirm.1 hmoved htitle (by rw [hfind]; rfl)
                  have hall : Core.kept (q :: ps) = q :: ps :=
                    List.filter_eq_self.mpr fun r hr => by rw [hstay r hr]; rfl
                  rw [hall]
                  exact hend

/-! ### Runs -/

/-- The pieces from here on. -/
structure Scan.At (html : Bytes) (s : Scan) (ps : List Piece) : Prop where
  cut : Cut ps s.skip
  texts : texts ps = html.drop s.i

theorem Scan.At.step {html : Bytes} {s : Scan} {p : Piece} {ps : List Piece}
    (h : s.At html (p :: ps)) : s.i < html.length ∧
      ∃ t, Core.turn (html.drop s.i) s.skip = some t ∧ t.found = p.found ∧
        (html.drop s.i).take t.next = p.text ∧ Cut ps t.skip ∧
        Core.texts ps = html.drop (s.i + t.next) := by
  obtain ⟨⟨hne, t, ht, hnext, hfound, hcut⟩, htexts⟩ := h
  rw [texts_cons] at htexts
  refine ⟨?_, t, htexts ▸ ht, hfound, ?_, hcut, ?_⟩
  · by_contra hge
    rw [List.drop_eq_nil_iff.mpr (Nat.not_lt.mp hge)] at htexts
    exact hne (List.append_eq_nil_iff.mp htexts).1
  · rw [← htexts, hnext, List.take_left]
  · rw [← List.drop_drop, ← htexts, hnext, List.drop_left]

theorem Scan.At.done {html : Bytes} {s : Scan} (h : s.At html []) : ¬s.i < html.length :=
  Nat.not_lt.mpr (List.drop_eq_nil_iff.mp h.texts.symm)

theorem Scan.At.run_done {html : Bytes} {s : Scan} (h : s.At html []) (fuel : ℕ) :
    Scan.run html fuel s = some s := by
  cases fuel with
  | zero => rfl
  | succ fuel => rw [Scan.run, if_neg h.done]

theorem Piece.moved_eq {p : Piece} {tag name : Bytes} {b : Bool}
    (hfound : p.found = some (tag, name))
    (h : hoistable tag name = some b) : p.moved = b := by
  rw [moved, hfound]
  dsimp only
  rw [h]
  rfl

/-- What a run from a place on comes to. -/
structure Scan.Moves (html : Bytes) (s s' : Scan) (ps : List Piece) : Prop where
  fits : s'.Fits html
  hoisted : s'.hoisted = s.hoisted ++ Core.texts (Core.moved ps)
  kept : s'.kept ++ html.drop s'.copied =
    s.kept ++ (html.drop s.copied).take (s.i - s.copied) ++ Core.texts (Core.kept ps)
  asked : ∀ p ∈ ps, ∀ tag name, p.found = some (tag, name) → (hoistable tag name).isSome = true

theorem Scan.Moves.pass {html : Bytes} {s s' : Scan} {t : Turn} {p : Piece} {ps : List Piece}
    (hfits : s.Fits html) (htext : (html.drop s.i).take t.next = p.text)
    (hstays : p.moved = false)
    (hasked : ∀ tag name, p.found = some (tag, name) → (hoistable tag name).isSome = true)
    (h : (s.pass t).Moves html s' ps) : s.Moves html s' (p :: ps) := by
  refine ⟨h.fits, ?_, ?_, ?_⟩
  · rw [h.hoisted, moved_cons_stays hstays]
    rfl
  · have hcut : (html.drop s.copied).take (s.i + t.next - s.copied) =
        (html.drop s.copied).take (s.i - s.copied) ++ p.text := by
      rw [← htext, show s.i + t.next - s.copied = s.i - s.copied + t.next by
        have hle := hfits.copied_le
        omega, List.take_add, List.drop_drop, Nat.add_sub_cancel' hfits.copied_le]
    rw [h.kept, kept_cons_stays hstays, texts_cons]
    dsimp only [Scan.pass]
    rw [hcut]
    simp only [List.append_assoc]
  · exact List.forall_mem_cons.mpr ⟨hasked, h.asked⟩

theorem Scan.Moves.move {html : Bytes} {s s' : Scan} {t : Turn} {p : Piece} {ps : List Piece}
    (htext : (html.drop s.i).take t.next = p.text) (hmoved : p.moved = true)
    (hasked : ∀ tag name, p.found = some (tag, name) → (hoistable tag name).isSome = true)
    (h : (s.move html t).Moves html s' ps) : s.Moves html s' (p :: ps) := by
  refine ⟨h.fits, ?_, ?_, ?_⟩
  · rw [h.hoisted, moved_cons_moved hmoved, texts_cons, ← htext]
    exact List.append_assoc _ _ _
  · rw [h.kept, kept_cons_moved hmoved]
    dsimp only [Scan.move]
    rw [Nat.sub_self, List.take_zero, List.append_nil]
  · exact List.forall_mem_cons.mpr ⟨hasked, h.asked⟩

/-- **A run moves the pieces that are moved**, and keeps the others. -/
theorem Scan.run_moves {html : Bytes} (hs : Proper html) : ∀ {ps : List Piece} {fuel : ℕ}
    {s s' : Scan}, s.Fits html → s.At html ps → html.length ≤ s.i + fuel →
      Scan.run html fuel s = some s' → s.Moves html s' ps
  | [], fuel, s, s', hfits, hat, _, hrun => by
      rw [hat.run_done] at hrun
      cases hrun
      refine ⟨hfits, (List.append_nil _).symm, ?_, fun p hp => by cases hp⟩
      have hend := hat.done
      rw [List.take_of_length_le (by rw [List.length_drop]; omega)]
      exact (List.append_nil _).symm
  | p :: ps, 0, s, s', _, hat, hfuel, _ => absurd hat.step.1 (Nat.not_lt.mpr hfuel)
  | p :: ps, fuel + 1, s, s', hfits, hat, hfuel, hrun => by
      obtain ⟨hlt, t, ht, hfound, htext, hcut, htexts⟩ := hat.step
      obtain ⟨t', ht', hprogress, hpass, hmove⟩ := hfits.turn hs hlt
      cases ht.symm.trans ht'
      rw [Scan.run, if_pos hlt, Scan.step_eq hfits ht fun q hq => (hmove q hq).2, hfound] at hrun
      have hfuel' : html.length ≤ s.i + t.next + fuel := by omega
      cases hf : p.found with
      | none =>
          have hstays : p.moved = false := by rw [Piece.moved, hf]
          rw [hf] at hrun
          exact Scan.Moves.pass hfits htext hstays (fun tag name h => by cases hf.symm.trans h)
            (Scan.run_moves hs hpass ⟨hcut, htexts⟩ hfuel' hrun)
      | some f =>
          obtain ⟨tag, name⟩ := f
          rw [hf] at hrun
          dsimp only at hrun
          cases hh : hoistable tag name with
          | none =>
              rw [hh] at hrun
              cases hrun
          | some b =>
              have hasked : ∀ tag' name', p.found = some (tag', name') →
                  (hoistable tag' name').isSome = true := fun tag' name' h => by
                cases hf.symm.trans h
                rw [hh]
                rfl
              have hmoved := Piece.moved_eq hf hh
              rw [hh, Option.map_some, Option.bind_some] at hrun
              cases b with
              | false =>
                  exact Scan.Moves.pass hfits htext hmoved hasked
                    (Scan.run_moves hs hpass ⟨hcut, htexts⟩ hfuel' hrun)
              | true =>
                  exact Scan.Moves.move htext hmoved hasked
                    (Scan.run_moves hs (hmove _ (hfound.trans hf)).2.1 ⟨hcut, htexts⟩ hfuel' hrun)

/-- **A run over pieces that stay** moves nothing. -/
theorem Scan.run_stays {html : Bytes} : ∀ {ps : List Piece} {fuel : ℕ} {s : Scan}, s.At html ps →
    html.length ≤ s.i + fuel →
    (∀ p ∈ ps, ∀ tag name, p.found = some (tag, name) → hoistable tag name = some false) →
      ∃ s', Scan.run html fuel s = some s' ∧ s'.hoisted = s.hoisted
  | [], fuel, s, hat, _, _ => ⟨s, hat.run_done fuel, rfl⟩
  | p :: ps, 0, s, hat, hfuel, _ => absurd hat.step.1 (Nat.not_lt.mpr hfuel)
  | p :: ps, fuel + 1, s, hat, hfuel, hall => by
      obtain ⟨hlt, t, ht, hfound, htext, hcut, htexts⟩ := hat.step
      have hpos : 1 ≤ t.next := by
        by_contra hzero
        rw [show t.next = 0 by omega, List.take_zero] at htext
        exact hat.cut.1 htext.symm
      have hstep : s.step html = some (s.pass t) := by
        rw [Scan.step, ht, Option.bind_eq_bind, Option.bind_some]
        dsimp only
        rw [hfound]
        cases hf : p.found with
        | none => rfl
        | some f =>
            obtain ⟨tag, name⟩ := f
            dsimp only
            rw [hall p List.mem_cons_self tag name hf]
            rfl
      rw [Scan.run, if_pos hlt, hstep, Option.bind_some]
      exact Scan.run_stays (s := s.pass t) ⟨hcut, htexts⟩ (by dsimp only [Scan.pass]; omega)
        fun q hq => hall q (List.mem_cons_of_mem p hq)

/-! ### The closing head tag -/

theorem findCi_of_first {needle : Bytes} : ∀ {s : Bytes} {k : ℕ},
    (∀ j, j < k → startsCi needle (s.drop j) = false) → startsCi needle (s.drop k) = true →
      k ≤ s.length → findCi needle s = some k
  | [], k, _, hstart, hle => by
      obtain rfl := Nat.le_zero.mp hle
      rw [findCi, if_pos (by exact hstart)]
  | b :: s, 0, _, hstart, _ => by
      rw [findCi, if_pos (by exact hstart)]
  | b :: s, k + 1, hno, hstart, hle => by
      have hfirst := hno 0 (Nat.succ_pos k)
      rw [List.drop_zero] at hfirst
      rw [findCi, hfirst, if_neg Bool.false_ne_true,
        findCi_of_first (fun j hj => hno (j + 1) (Nat.succ_lt_succ hj)) hstart
          (Nat.le_of_succ_le_succ hle)]
      rfl

theorem findCi_first {needle : Bytes} : ∀ {s : Bytes} {k : ℕ}, findCi needle s = some k →
    ∀ j, j < k → startsCi needle (s.drop j) = false
  | [], k, h, j, hj => by
      rw [findCi] at h
      split at h
      · cases h
        cases hj
      · cases h
  | b :: s, k, h, j, hj => by
      rw [findCi] at h
      split at h
      · cases h
        cases hj
      · next hstart =>
        obtain ⟨i, hi, rfl⟩ := Option.map_eq_some_iff.mp h
        cases j with
        | zero => exact Bool.not_eq_true _ ▸ hstart
        | succ j => exact findCi_first hi j (Nat.lt_of_succ_lt_succ hj)

theorem head_needle : ∀ b ∈ ascii "/head>", lowerByte b ≠ 0x3c :=
  forall_mem_of_all (by decide)

/-- No closing head tag starts in front of a text that opens a tag and ends in it. -/
theorem no_head_across {x y : Bytes} (hy : y.head? = some 0x3c)
    (hno : ∀ j, startsCi (ascii "</head>") (x.drop j) = false) {j : ℕ} (hj : j < x.length) :
    startsCi (ascii "</head>") ((x ++ y).drop j) = false := by
  rw [List.drop_append_of_le_length hj.le]
  by_contra hstart
  rw [Bool.not_eq_false] at hstart
  rcases Nat.lt_or_ge (x.drop j).length (ascii "</head>").length with hlt | hge
  · -- the tag that `y` opens would be within the needle
    obtain ⟨i, hi⟩ : ∃ i, (x.drop j).length = i + 1 :=
      ⟨(x.drop j).length - 1, by rw [List.length_drop]; omega⟩
    obtain ⟨b, hb⟩ : ∃ b, (ascii "/head>")[i]? = some b :=
      ⟨_, List.getElem?_eq_getElem (show i < (ascii "/head>").length by
        have hseven : (ascii "</head>").length = 7 := rfl
        have hsix : (ascii "/head>").length = 6 := rfl
        omega)⟩
    obtain ⟨c, hc, hlower⟩ := startsCi_get hstart (k := i + 1) (b := b) hb
    rw [← hi, List.getElem?_append_right le_rfl, Nat.sub_self, ← List.head?_eq_getElem?, hy] at hc
    cases hc
    exact head_needle b (List.mem_of_getElem? hb) hlower.symm
  · have hlocal := startsCi_local (y := []) y hge
    rw [List.append_nil, hno j, hstart] at hlocal
    cases hlocal

/-- **The closing head tag is still the first one** behind what is moved in front of it, if no moved
piece has one. -/
theorem head_behind_moved : ∀ {ps : List Piece} {y : Bytes}, y.head? = some 0x3c →
    (∀ p ∈ ps, p.text.head? = some 0x3c ∧ findCi (ascii "</head>") p.text = none) →
      (texts ps ++ y).head? = some 0x3c ∧
        ∀ j, j < (texts ps).length → startsCi (ascii "</head>") ((texts ps ++ y).drop j) = false
  | [], y, hy, _ => ⟨hy, fun j hj => by cases hj⟩
  | p :: ps, y, hy, hall => by
      obtain ⟨hopen, hnone⟩ := hall p List.mem_cons_self
      obtain ⟨hhead, hrest⟩ := head_behind_moved hy fun q hq => hall q (List.mem_cons_of_mem p hq)
      have hne : p.text ≠ [] := fun hnil => by
        rw [hnil] at hopen
        cases hopen
      rw [texts_cons, List.append_assoc]
      refine ⟨by rw [List.head?_append_of_ne_nil _ hne, hopen], fun j hj => ?_⟩
      rcases Nat.lt_or_ge j p.text.length with hlt | hge
      · exact no_head_across hhead ((findCi_eq_none_iff (by decide)).mp hnone) hlt
      · obtain ⟨i, rfl⟩ := Nat.exists_eq_add_of_le hge
        rw [List.length_append] at hj
        rw [drop_add_append]
        exact hrest i (by omega)

/-! ### Hoisting -/

theorem findCiFrom_zero (s needle : Bytes) : findCiFrom s needle 0 = findCi needle s := by
  rw [findCiFrom, if_pos (Nat.zero_le _), List.drop_zero]
  cases findCi needle s with
  | none => rfl
  | some k => exact congrArg some (Nat.zero_add k)

/-- A page with pieces moved in front of its closing head tag has that tag where it was. -/
theorem head_found {html m k : Bytes} {headEnd : ℕ}
    (h : findCi (ascii "</head>") html = some headEnd)
    (hopen : (m ++ ((html.drop headEnd).take 7 ++ k)).head? = some 0x3c)
    (hno : ∀ j, j < m.length →
      startsCi (ascii "</head>") ((m ++ ((html.drop headEnd).take 7 ++ k)).drop j) = false) :
    findCi (ascii "</head>") (html.take headEnd ++ (m ++ ((html.drop headEnd).take 7 ++ k))) =
      some (headEnd + m.length) := by
  obtain ⟨hle, hstart⟩ := findCi_spec h
  have hseven : (ascii "</head>").length = 7 := rfl
  have hlen : (html.take headEnd).length = headEnd := by rw [List.length_take, Nat.min_eq_left hle]
  have hfirst : ∀ j, startsCi (ascii "</head>") ((html.take headEnd).drop j) = false := by
    intro j
    by_contra hthere
    rw [Bool.not_eq_false] at hthere
    have hfits := startsCi_length hthere
    have hj : j < headEnd := by
      rw [List.length_drop, hlen] at hfits
      omega
    have hlocal := startsCi_local (y := []) (html.drop headEnd) hfits
    rw [List.append_nil, hthere, ← List.drop_append_of_le_length (by omega),
      List.take_append_drop, findCi_first h j hj] at hlocal
    cases hlocal
  refine findCi_of_first (fun j hj => ?_) ?_ ?_
  · rcases Nat.lt_or_ge j headEnd with hlt | hge
    · exact no_head_across hopen hfirst (by omega)
    · obtain ⟨i, rfl⟩ := Nat.exists_eq_add_of_le hge
      have hdrop := drop_add_append (html.take headEnd) (m ++ ((html.drop headEnd).take 7 ++ k)) i
      rw [hlen] at hdrop
      rw [hdrop]
      exact hno i (by omega)
  · have hdrop := drop_add_append (html.take headEnd) (m ++ ((html.drop headEnd).take 7 ++
      k)) m.length
    rw [hlen, List.drop_left] at hdrop
    have hfits : (ascii "</head>").length ≤ ((html.drop headEnd).take 7).length := by
      have hlength := startsCi_length hstart
      rw [List.length_take]
      omega
    rw [hdrop, startsCi_local (y := (html.drop headEnd).drop 7) k hfits, List.take_append_drop,
      hstart]
  · simp only [List.length_append, hlen]
    omega

/-- What stays of a page, and what is moved. -/
structure Parts (html : Bytes) (headEnd : ℕ) (ps : List Piece) : Prop where
  proper : Proper html
  head : findCiFrom html (ascii "</head>") 0 = some headEnd
  cut : Cut ps []
  whole : texts ps = html.drop (headEnd + 7)
  asked : ∀ p ∈ ps, ∀ tag name, p.found = some (tag, name) → (hoistable tag name).isSome = true

/-- **A moved piece** is a title, a meta or a link. -/
theorem Cut.moved_tags : ∀ {ps : List Piece} {skip : Skip}, Cut ps skip → ∀ p ∈ moved ps,
    ∃ name ∈ hoistTags, startsCi (0x3c :: name) p.text = true
  | [], _, _, p, hp => by cases hp
  | q :: ps, skip, h, p, hp => by
      obtain ⟨hmem, hmoved⟩ := List.mem_filter.mp hp
      rcases List.mem_cons.mp hmem with rfl | htail
      · obtain ⟨tag, name, hfound, -⟩ := Piece.moved_found hmoved
        obtain ⟨-, -, hname, hstart, -⟩ := h.found hfound
        exact ⟨name, hname, hstart⟩
      · obtain ⟨-, t, -, -, -, hcut⟩ := h
        exact Cut.moved_tags hcut p (List.mem_filter.mpr ⟨htail, hmoved⟩)

/-- **Hoisting again** finds nothing to move. -/
theorem Parts.again {html : Bytes} {headEnd : ℕ} {ps : List Piece} (h : Parts html headEnd ps)
    (hno : ∀ p ∈ moved ps, findCi (ascii "</head>") p.text = none) (hfirm : Firm ps) :
    hoistHeadInto (html.take headEnd ++ texts (moved ps) ++
      ((html.drop headEnd).take 7 ++ texts (kept ps))) =
      some (html.take headEnd ++ texts (moved ps) ++
        ((html.drop headEnd).take 7 ++ texts (kept ps))) := by
  obtain ⟨hstart, hhere⟩ := fits_start h.proper h.head
  have hle : headEnd + 7 ≤ html.length := hstart.le
  have hfind := h.head
  rw [findCiFrom_zero] at hfind
  have hproper : Proper (texts ps) := h.whole ▸ h.proper.drop _
  -- what follows the head begins a character, so its pieces are texts
  have hbegins : Begins (texts ps) := by
    intro b hb
    rw [h.whole, List.head?_drop] at hb
    have hboundary : isCharBoundary html (headEnd + 7) = true := hstart.boundary
    have hlt := (List.getElem?_eq_some_iff.mp hb).1
    rw [isCharBoundary, hb, Option.any_some, Bool.or_eq_true, Bool.or_eq_true, beq_iff_eq,
      beq_iff_eq] at hboundary
    rcases hboundary with (hzero | hlast) | hcont
    · omega
    · omega
    · simpa using hcont
  have hkept := h.cut.begins_kept hproper hbegins
  have hclose : ((html.drop headEnd).take 7 ++ texts (kept ps)).head? = some 0x3c := by
    have hopen := startsCi_open (ascii "/head>") (findCi_spec hfind).2
    cases hdrop : html.drop headEnd with
    | nil =>
        rw [hdrop] at hopen
        cases hopen
    | cons b rest =>
        rw [hdrop] at hopen
        exact hopen
  obtain ⟨hopen, hfirst⟩ := head_behind_moved hclose fun p hp =>
    ⟨startsCi_open _ (h.cut.moved_tags p hp).choose_spec.2, hno p hp⟩
  have hagain := head_found hfind hopen hfirst
  have hlen : (html.take headEnd).length = headEnd := by
    rw [List.length_take]
    omega
  have hseven : ((html.drop headEnd).take 7).length = 7 := by
    rw [List.length_take, List.length_drop]
    omega
  generalize hM : texts (moved ps) = m at *
  generalize hC : (html.drop headEnd).take 7 = c at *
  generalize hH : html.take headEnd = front at *
  rw [← List.append_assoc] at hagain
  have hdrop : (front ++ m ++ (c ++ texts (kept ps))).drop (headEnd + m.length + 7) =
      texts (kept ps) := by
    rw [← hlen, ← List.length_append, drop_add_append, ← hseven, List.drop_left]
  have htotal : (front ++ m ++ (c ++ texts (kept ps))).length =
      headEnd + m.length + 7 + (texts (kept ps)).length := by
    simp only [List.length_append]
    omega
  generalize hout : front ++ m ++ (c ++ texts (kept ps)) = out at *
  have hboundary : isCharBoundary out (headEnd + m.length + 7) = true := by
    cases hK : texts (kept ps) with
    | nil =>
        rw [hK, List.length_nil, Nat.add_zero] at htotal
        rw [← htotal]
        exact boundary_length out
    | cons b rest =>
        have hget : out[headEnd + m.length + 7]? = some b := by
          rw [← List.head?_drop, hdrop, hK]
          rfl
        rw [isCharBoundary, hget, Option.any_some, hkept b (by rw [hK]; rfl)]
        simp
  have hat : Scan.At out ⟨headEnd + m.length + 7, headEnd + m.length + 7, [], [], []⟩ (kept ps) :=
    ⟨h.cut.kept hproper hfirm, hdrop.symm⟩
  have hrun : ∃ s', Scan.run out out.length
      ⟨headEnd + m.length + 7, headEnd + m.length + 7, [], [], []⟩ = some s' ∧ s'.hoisted = [] := by
    refine Scan.run_stays hat (Nat.le_add_left _ _) fun p hp tag name hfound => ?_
    obtain ⟨hmem, hstays⟩ := List.mem_filter.mp hp
    obtain ⟨b, hb⟩ := Option.isSome_iff_exists.mp (h.asked p hmem tag name hfound)
    rw [hb, ← Piece.moved_eq hfound hb]
    simpa using hstays
  obtain ⟨s', hrun', hnone⟩ := hrun
  rw [hoistHeadInto, findCiFrom_zero, hagain]
  dsimp only
  rw [length_closing_head, slice_from (by omega) hboundary, Option.bind_eq_bind, Option.bind_some]
  split
  · rfl
  · rw [hrun', Option.bind_eq_bind, Option.bind_some, hnone, if_pos rfl]
    rfl

theorem Cut.text_ne : ∀ {ps : List Piece} {skip : Skip}, Cut ps skip → ∀ p ∈ ps, p.text ≠ []
  | [], _, _, p, hp => by cases hp
  | q :: ps, _, ⟨hne, t, _, _, _, hcut⟩, p, hp => by
      rcases List.mem_cons.mp hp with rfl | htail
      · exact hne
      · exact Cut.text_ne hcut p htail

/-- Where nothing is moved, everything stays. -/
theorem Cut.kept_of_none {ps : List Piece} {skip : Skip} (h : Cut ps skip)
    (hnone : texts (moved ps) = []) : Core.kept ps = ps := by
  refine List.filter_eq_self.mpr fun p hp => ?_
  cases hmoved : p.moved with
  | false => rfl
  | true =>
      have hmem : p ∈ moved ps := List.mem_filter.mpr ⟨hp, hmoved⟩
      exact absurd (List.flatMap_eq_nil_iff.mp hnone p hmem) (h.text_ne p hp)

/-- **What the pass puts together**, where it does not panic. -/
theorem hoist_parts {html out : Bytes} (hs : Proper html) {headEnd : ℕ}
    (hfind : findCiFrom html (ascii "</head>") 0 = some headEnd)
    (h : hoistHeadInto html = some out) {ps : List Piece}
    (hps : ps = cuts (html.drop (headEnd + 7))) :
    texts ps = html.drop (headEnd + 7) ∧
      (∀ p ∈ moved ps, ∃ name ∈ hoistTags, startsCi (0x3c :: name) p.text = true) ∧
      out = html.take headEnd ++ texts (moved ps) ++
        ((html.drop headEnd).take 7 ++ texts (kept ps)) ∧
      (out = html ∨ Parts html headEnd ps) := by
  obtain ⟨hstart, hhere⟩ := fits_start hs hfind
  have hle : headEnd + 7 ≤ html.length := hstart.le
  have hwhole : html.take headEnd ++ ((html.drop headEnd).take 7 ++ html.drop (headEnd + 7)) =
      html := by
    rw [← List.drop_drop, List.take_append_drop, List.take_append_drop]
  rw [hoistHeadInto, hfind] at h
  dsimp only at h
  rw [length_closing_head, slice_from hle hstart.boundary, Option.bind_eq_bind,
    Option.bind_some] at h
  rw [cuts] at hps
  cases hmentions : mentions (html.drop (headEnd + 7)) with
  | false =>
      rw [hmentions] at h
      rw [hmentions, if_neg Bool.false_ne_true] at hps
      have hout : html = out := Option.some.inj h
      have hone : texts ps = html.drop (headEnd + 7) := by
        rw [hps]
        exact List.append_nil _
      have hmoved : moved ps = [] := by
        rw [hps]
        rfl
      have hkept : kept ps = ps := by
        rw [hps]
        rfl
      refine ⟨hone, fun p hp => ?_, ?_, .inl hout.symm⟩
      · rw [hmoved] at hp
        cases hp
      · rw [hmoved, hkept, hone, ← hout]
        exact (List.append_nil (html.take headEnd)).symm ▸ hwhole.symm
  | true =>
      rw [hmentions, if_neg (by decide)] at h
      rw [hmentions, if_pos rfl] at hps
      obtain ⟨hcut, htexts⟩ := pieces_cut [] (hs.drop (headEnd + 7)) le_rfl
      rw [← hps] at hcut htexts
      obtain ⟨s, hrun, h⟩ := Option.bind_eq_some_iff.mp h
      have hmoves := Scan.run_moves hs hstart ⟨hcut, htexts⟩ (Nat.le_add_left _ _) hrun
      have hhoisted : s.hoisted = texts (moved ps) := hmoves.hoisted
      have hkept : s.kept ++ html.drop s.copied = texts (kept ps) := by
        rw [hmoves.kept]
        dsimp only
        rw [Nat.sub_self, List.take_zero]
        rfl
      refine ⟨htexts, hcut.moved_tags, ?_, .inr ⟨hs, hfind, hcut, htexts, hmoves.asked⟩⟩
      split at h
      · next hnone =>
        have hout : html = out := Option.some.inj h
        rw [hhoisted] at hnone
        rw [hnone, hcut.kept_of_none hnone, htexts, ← hout, List.append_nil, hwhole]
      · have hout := h.symm.trans (assemble hstart hhere hmoves.fits)
        rw [hhoisted, hkept] at hout
        exact Option.some.inj hout

/-- **Hoisting moves and never loses.**  Where it returns, the page is as it was if it has no
closing head tag; else the text behind that tag is cut into pieces, of which some titles, metas and
links are put in their order in front of the tag, and the others stay in theirs; and hoisting again
changes nothing, if no moved piece has a closing head tag and no title is left at its tag by an end
tag that never ends in front of a moved piece. -/
theorem hoist_moves (text : String) {out : Bytes} (h : hoistHeadInto (utf8 text) = some out) :
    (findCiFrom (utf8 text) (ascii "</head>") 0 = none →
      out = utf8 text ∧ hoistHeadInto out = some out) ∧
    ∀ headEnd, findCiFrom (utf8 text) (ascii "</head>") 0 = some headEnd →
      ∀ ps, ps = cuts ((utf8 text).drop (headEnd + 7)) →
        texts ps = (utf8 text).drop (headEnd + 7) ∧
        (∀ p ∈ moved ps, ∃ name ∈ hoistTags, startsCi (0x3c :: name) p.text = true) ∧
        out = (utf8 text).take headEnd ++ texts (moved ps) ++
          (((utf8 text).drop headEnd).take 7 ++ texts (kept ps)) ∧
        ((∀ p ∈ moved ps, findCi (ascii "</head>") p.text = none) → Firm ps →
          hoistHeadInto out = some out) := by
  have hs : Proper (utf8 text) := (encoded_proper text.toList).1
  generalize utf8 text = html at hs h ⊢
  refine ⟨fun hnone => ?_, fun headEnd hfind ps hps => ?_⟩
  · have hsame := h
    rw [hoistHeadInto, hnone] at hsame
    cases hsame
    exact ⟨rfl, h⟩
  · obtain ⟨hwhole, htags, hout, hcases⟩ := hoist_parts hs hfind h hps
    refine ⟨hwhole, htags, hout, fun hno hfirm => ?_⟩
    rcases hcases with hsame | hparts
    · rw [hsame] at h ⊢
      exact h
    · rw [hout]
      exact hparts.again hno hfirm

/-- A page whose one meta is moved. -/
theorem hoist_moves_meta :
    hoistHeadInto (utf8 "<head></head>a<meta>b") = some (utf8 "<head><meta></head>ab") ∧
      texts (cuts (utf8 "a<meta>b")) = utf8 "a<meta>b" ∧
      utf8 "<head><meta></head>ab" = utf8 "<head>" ++ texts (moved (cuts (utf8 "a<meta>b"))) ++
        (utf8 "</head>" ++ texts (kept (cuts (utf8 "a<meta>b")))) := by
  have hout : hoistHeadInto (utf8 "<head></head>a<meta>b") =
    some (utf8 "<head><meta></head>ab") := by
    simp only [utf8]
    repeat rw [String.toList_ofList]
    decide +kernel
  have hfind : findCiFrom (utf8 "<head></head>a<meta>b") (ascii "</head>") 0 = some 6 := by
    rw [utf8, String.toList_ofList]
    decide +kernel
  have hmoves := (hoist_moves "<head></head>a<meta>b" hout).2 6 hfind _ rfl
  exact ⟨hout, hmoves.1, hmoves.2.2.1⟩

/-- Hoisting again may change the page: a title with a closing head tag in it is moved, or a title's
end tag ends once a quote in front of its end is moved away. -/
theorem hoist_again_changes :
    (hoistHeadInto (utf8 "<head></head><title></head></title><meta>") =
        some (utf8 "<head><title></head></title><meta></head>") ∧
      hoistHeadInto (utf8 "<head><title></head></title><meta></head>") =
        some (utf8 "<head><title><meta></head></title></head>")) ∧
    hoistHeadInto
        (utf8 "<head></head><title itemprop><!--</title \"--><meta \"'\"><p '\">y<meta>'>") =
      some (utf8 "<head><meta \"'\"></head><title itemprop><!--</title \"--><p '\">y<meta>'>") ∧
    hoistHeadInto
        (utf8 "<head><meta \"'\"></head><title itemprop><!--</title \"--><p '\">y<meta>'>") =
      some (utf8 "<head><meta \"'\"><meta></head><title itemprop><!--</title \"--><p '\">y'>") := by
  -- The kernel is slow to decode a literal, and need not where its characters are given.
  simp only [utf8]
  repeat rw [String.toList_ofList]
  refine ⟨⟨?_, ?_⟩, ?_, ?_⟩
  · decide +kernel
  · decide +kernel
  · decide +kernel
  · decide +kernel

end Brust.Core
