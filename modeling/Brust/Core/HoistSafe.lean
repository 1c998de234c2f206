import Brust.Core.Hoist

/-!
# Core — the slices of hoisting

Which texts `hoist_head_into` panics on.  A turn of the scan takes its slices at ASCII bytes and
goes on at least a byte (`turn_spec`), and so does the search for an attribute (`findAttr_eq`); the
one slice that may miss a boundary is the first two bytes of an attribute's name, and it is taken of
the names in front of the first `x-…` one, of the tags that may be hoisted (`hoist_iff`).
-/

namespace Brust.Core

/-! ### Attributes in order -/

/-- The attributes of a tag from byte `i` on, as far as that many turns read. -/
def attrsFrom (tag : Bytes) : ℕ → ℕ → List Attr
  | 0, _ => []
  | fuel + 1, i =>
    if i < tag.length then
      match nextAttr tag i with
      | some (some a) =>
        if a.key = [] then attrsFrom tag fuel a.next else a :: attrsFrom tag fuel a.next
      | _ => []
    else []

/-- The attributes of a tag that have a name. -/
def attrs (tag : Bytes) : List Attr :=
  match tag.findIdx? isSpaceByte with
  | none => []
  | some i => attrsFrom tag tag.length i

/-- The first attribute that is wanted, where each is asked for in order. -/
def firstWanted (want : Bytes → Option Bool) : List Attr → Option (Option Bytes)
  | [] => some none
  | a :: rest =>
    (want a.key).bind fun wanted => if wanted then some (some a.value) else firstWanted want rest

theorem findAttrFrom_eq {tag : Bytes} (hs : Proper tag) (want : Bytes → Option Bool) :
    ∀ (fuel i : ℕ), (i < tag.length → isCharBoundary tag i = true) →
      findAttrFrom tag want fuel i = firstWanted want (attrsFrom tag fuel i)
  | 0, _, _ => rfl
  | fuel + 1, i, hb => by
      rw [findAttrFrom, attrsFrom]
      split
      · next hi =>
        obtain ⟨r, hr, hfits⟩ := nextAttr_spec hs hi (hb hi)
        rw [hr, Option.bind_some]
        cases r with
        | none => rfl
        | some a =>
            have ih := findAttrFrom_eq hs want fuel a.next (hfits a rfl).2
            dsimp only
            split
            · exact ih
            · rw [firstWanted, ih]
      · rfl

/-- **The search for an attribute ends**: more turns than the tag has bytes find nothing else. -/
theorem findAttrFrom_add (tag : Bytes) (want : Bytes → Option Bool) (more : ℕ) :
    ∀ {fuel i : ℕ}, tag.length ≤ i + fuel →
      findAttrFrom tag want (fuel + more) i = findAttrFrom tag want fuel i
  | 0, i, hfuel => by
      cases more with
      | zero => rfl
      | succ more =>
          rw [Nat.zero_add]
          exact if_neg (Nat.not_lt.mpr hfuel)
  | fuel + 1, i, hfuel => by
      rw [Nat.add_right_comm, findAttrFrom, findAttrFrom]
      split
      · next hi =>
        cases hr : nextAttr tag i with
        | none => rfl
        | some r =>
            cases r with
            | none => rfl
            | some a =>
                have hlt := nextAttr_lt hi hr
                have hleft : tag.length ≤ a.next + fuel := by omega
                have ih := findAttrFrom_add tag want more hleft
                simp only [Option.bind_some, ih]
      · rfl

/-- **The search for an attribute takes every slice it may.** -/
theorem findAttr_eq {tag : Bytes} (hs : Proper tag) (want : Bytes → Option Bool) :
    findAttr tag want = firstWanted want (attrs tag) := by
  rw [findAttr, attrs]
  cases hfind : tag.findIdx? isSpaceByte with
  | none => rfl
  | some i =>
      obtain ⟨hi, hspace, -⟩ := List.findIdx?_eq_some_iff_getElem.mp hfind
      exact findAttrFrom_eq hs want tag.length i fun _ =>
        boundary_before (List.getElem?_eq_getElem hi) (space_ascii hspace)

theorem attrsFrom_proper {tag : Bytes} (hs : Proper tag) : ∀ (fuel i : ℕ),
    (i < tag.length → isCharBoundary tag i = true) →
      ∀ a ∈ attrsFrom tag fuel i, Proper a.key
  | 0, _, _, a, ha => by cases ha
  | fuel + 1, i, hb, a, ha => by
      rw [attrsFrom] at ha
      split at ha
      · next hi =>
        obtain ⟨r, hr, hfits⟩ := nextAttr_spec hs hi (hb hi)
        rw [hr] at ha
        cases r with
        | none => cases ha
        | some c =>
            have ih := attrsFrom_proper hs fuel c.next (hfits c rfl).2 a
            dsimp only at ha
            split at ha
            · exact ih ha
            · rcases List.mem_cons.mp ha with rfl | htail
              · exact (hfits a rfl).1
              · exact ih htail
      · cases ha

theorem attrs_proper {tag : Bytes} (hs : Proper tag) : ∀ a ∈ attrs tag, Proper a.key := by
  intro a ha
  rw [attrs] at ha
  split at ha
  · cases ha
  · next i hfind =>
    obtain ⟨hi, hspace, -⟩ := List.findIdx?_eq_some_iff_getElem.mp hfind
    exact attrsFrom_proper hs _ _
      (fun _ => boundary_before (List.getElem?_eq_getElem hi) (space_ascii hspace)) a ha

/-- A search by a test that takes no slice. -/
theorem firstWanted_pure (test : Bytes → Bool) (as : List Attr) :
    firstWanted (fun k => some (test k)) as =
      some ((as.find? fun a => test a.key).map Attr.value) := by
  induction as with
  | nil => rfl
  | cons a as ih =>
      rw [firstWanted, Option.bind_some, List.find?_cons, ih]
      cases test a.key with
      | true => rfl
      | false => rfl

theorem attrValue_eq {tag : Bytes} (hs : Proper tag) (name : Bytes) :
    attrValue tag name =
      some (((attrs tag).find? fun a => eqIgnoreCase a.key name).map Attr.value) := by
  rw [attrValue, findAttr_eq hs, firstWanted_pure]

theorem hasAttr_eq {tag : Bytes} (hs : Proper tag) (name : Bytes) :
    hasAttr tag name = some ((attrs tag).any fun a => eqIgnoreCase a.key name) := by
  rw [hasAttr, attrValue_eq hs, Option.map_some, Option.isSome_map, List.isSome_find?]

/-! ### What brust binds -/

theorem ascii_of_lowerByte {b c : UInt8} (h : lowerByte c = b) (hb : b.toNat < 0x80) :
    c.toNat < 0x80 := by
  rw [lowerByte] at h
  split at h
  · next hupper => exact lt_of_le_of_lt (UInt8.le_iff_toNat_le.mp hupper.2) (by decide)
  · exact h ▸ hb

/-- A name that starts with `x-` and is longer. -/
def bound (k : Bytes) : Bool := decide (2 < k.length) && eqIgnoreCase (k.take 2) (ascii "x-")

/-- Where the names in front of the first bound one are cut, a character begins. -/
def Cuts (names : List Bytes) : Prop :=
  ∀ k ∈ names.takeWhile fun k => !bound k, 2 < k.length → isCharBoundary k 2 = true

/-- A tag's names are asked for no cut inside of a character: it has `itemprop`, or it can be
cut. -/
def Safe (tag : Bytes) : Prop :=
  (∃ a ∈ attrs tag, eqIgnoreCase a.key (ascii "itemprop") = true) ∨
    Cuts ((attrs tag).map Attr.key)

/-- Behind `x-` a character begins. -/
theorem boundary_of_bound {k : Bytes} (hk : Proper k) (h : bound k = true) :
    isCharBoundary k 2 = true := by
  rw [bound, Bool.and_eq_true, decide_eq_true_eq, eqIgnoreCase, beq_iff_eq] at h
  obtain ⟨hlen, htake⟩ := h
  match k, hlen with
  | a :: b :: c :: k, _ =>
      refine hk.boundary_after (k := 1) (b := b) rfl ?_
      simp only [List.take_succ_cons, List.take_zero, List.map_cons, List.map_nil] at htake
      exact ascii_of_lowerByte (List.cons.inj (List.cons.inj htake).2).1 (by decide)

theorem isBound_of_bound {k : Bytes} (hk : Proper k) (h : bound k = true) :
    isBound k = some true := by
  have hcut := boundary_of_bound hk h
  rw [bound, Bool.and_eq_true, decide_eq_true_eq] at h
  rw [isBound, if_pos h.1, slice_to h.1.le hcut, Option.map_some, h.2]

theorem isBound_of_not_bound {k : Bytes} (h : bound k = false) :
    isBound k = if 2 < k.length → isCharBoundary k 2 = true then some false else none := by
  rw [isBound]
  rcases Nat.lt_or_ge 2 k.length with hlt | hle
  · rw [if_pos hlt]
    rw [bound, decide_eq_true hlt, Bool.true_and] at h
    by_cases hcut : isCharBoundary k 2 = true
    · rw [if_pos fun _ => hcut, slice_to hlt.le hcut, Option.map_some, h]
    · rw [if_neg fun hall => hcut (hall hlt), slice, if_neg fun hall => hcut hall.2.2.2]
      rfl
  · rw [if_neg (by omega), if_pos fun hlt => absurd hlt (by omega)]

/-- **The names in front of the first bound one are cut**, and no other is. -/
theorem firstWanted_isBound_iff : ∀ {as : List Attr}, (∀ a ∈ as, Proper a.key) →
    ((firstWanted isBound as).isSome = true ↔ Cuts (as.map Attr.key))
  | [], _ => ⟨fun _ k hk => (by cases hk), fun _ => rfl⟩
  | a :: as, hall => by
      have ih := firstWanted_isBound_iff fun c hc => hall c (List.mem_cons_of_mem _ hc)
      rw [firstWanted, List.map_cons, Cuts]
      cases hbound : bound a.key with
      | true =>
          rw [isBound_of_bound (hall a List.mem_cons_self) hbound, List.takeWhile_cons_of_neg
            (by simp [hbound])]
          exact ⟨fun _ k hk => (by cases hk), fun _ => rfl⟩
      | false =>
          rw [isBound_of_not_bound hbound, List.takeWhile_cons_of_pos (by simp [hbound])]
          split
          · next hcut =>
            rw [Option.bind_some, if_neg Bool.false_ne_true, ih, Cuts]
            exact (List.forall_mem_cons.trans (and_iff_right hcut)).symm
          · next hcut =>
            exact ⟨fun h => (by cases h), fun h => absurd (h _ List.mem_cons_self) hcut⟩

/-- **Whether a tag is asked for without a panic.** -/
theorem hoistable_iff {tag : Bytes} (hs : Proper tag) (name : Bytes) :
    (hoistable tag name).isSome = true ↔ Safe tag := by
  rw [hoistable, hasAttr_eq hs, Option.bind_eq_bind, Option.bind_some, Safe]
  cases hitem : (attrs tag).any fun a => eqIgnoreCase a.key (ascii "itemprop") with
  | true => exact ⟨fun _ => .inl (List.any_eq_true.mp hitem), fun _ => rfl⟩
  | false =>
      rw [if_neg Bool.false_ne_true, or_iff_right fun h => by
        rw [List.any_eq_true.mpr h] at hitem; cases hitem]
      rw [findAttr_eq hs, ← firstWanted_isBound_iff (attrs_proper hs)]
      cases firstWanted isBound (attrs tag) with
      | none => exact ⟨fun h => (by cases h), fun h => (by cases h)⟩
      | some found =>
          refine ⟨fun _ => rfl, fun _ => ?_⟩
          rw [Option.bind_eq_bind, Option.bind_some, attrValue_eq hs, attrValue_eq hs]
          split
          · rfl
          · split
            · rfl
            · rw [Option.bind_some]
              split
              · rfl
              · rfl

/-! ### Turns -/

/-- A place where a scan may stop. -/
structure Stop (s : Bytes) (k : ℕ) : Prop where
  le : k ≤ s.length
  boundary : isCharBoundary s k = true

theorem stop_length (s : Bytes) : Stop s s.length := ⟨le_rfl, boundary_length s⟩

theorem tagClose_spec : ∀ {quote : Option UInt8} {k e : ℕ} {s : Bytes},
    tagClose quote k s = some e → k < e ∧ s[e - 1 - k]? = some 0x3e
  | _, _, _, [], h => by cases h
  | none, k, e, c :: s, h => by
      rw [tagClose] at h
      split at h
      · obtain ⟨hlt, hget⟩ := tagClose_spec h
        refine ⟨by omega, ?_⟩
        rw [show e - 1 - k = e - 1 - (k + 1) + 1 by omega, List.getElem?_cons_succ, hget]
      · split at h
        · next hgt =>
          cases h
          rw [hgt, Nat.add_sub_cancel, Nat.sub_self]
          exact ⟨Nat.lt_succ_self k, rfl⟩
        · obtain ⟨hlt, hget⟩ := tagClose_spec h
          refine ⟨by omega, ?_⟩
          rw [show e - 1 - k = e - 1 - (k + 1) + 1 by omega, List.getElem?_cons_succ, hget]
  | some q, k, e, c :: s, h => by
      have hrest : k + 1 < e ∧ s[e - 1 - (k + 1)]? = some 0x3e := by
        rw [tagClose] at h
        split at h
        · exact tagClose_spec h
        · exact tagClose_spec h
      refine ⟨by omega, ?_⟩
      rw [show e - 1 - k = e - 1 - (k + 1) + 1 by omega, List.getElem?_cons_succ, hrest.2]

/-- A tag ends behind a `>`. -/
theorem tagEnd_spec {s : Bytes} {k e : ℕ} (h : tagEnd s k = some e) :
    k < e ∧ s[e - 1]? = some 0x3e := by
  obtain ⟨hlt, hget⟩ := tagClose_spec h
  rw [List.getElem?_drop, show k + (e - 1 - k) = e - 1 by omega] at hget
  exact ⟨hlt, hget⟩

theorem tagEnd_stop {s : Bytes} (hs : Proper s) {k e : ℕ} (h : tagEnd s k = some e) :
    k < e ∧ Stop s e := by
  obtain ⟨hlt, hget⟩ := tagEnd_spec h
  have hlen := (List.getElem?_eq_some_iff.mp hget).1
  have hafter := hs.boundary_after hget (by decide)
  rw [show e - 1 + 1 = e by omega] at hafter
  exact ⟨hlt, by omega, hafter⟩

/-- Where the search for a needle ends. -/
theorem findCiFrom_spec {s needle : Bytes} {i k : ℕ} (h : findCiFrom s needle i = some k) :
    i ≤ k ∧ k + needle.length ≤ s.length ∧ startsCi needle (s.drop k) = true := by
  rw [findCiFrom] at h
  split at h
  · obtain ⟨j, hj, rfl⟩ := Option.map_eq_some_iff.mp h
    have hle := findCi_add_le hj
    obtain ⟨-, hstart⟩ := findCi_spec hj
    rw [List.drop_drop] at hstart
    rw [List.length_drop] at hle
    exact ⟨Nat.le_add_right i j, by omega, hstart⟩
  · cases h

theorem findExact_spec {needle : Bytes} : ∀ {s : Bytes} {k : ℕ}, findExact needle s = some k →
    needle <+: s.drop k
  | [], k, h => by
      rw [findExact] at h
      split at h
      · next hstart =>
        cases h
        exact hstart
      · cases h
  | b :: s, k, h => by
      rw [findExact] at h
      split at h
      · next hstart =>
        cases h
        exact hstart
      · obtain ⟨j, hj, rfl⟩ := Option.map_eq_some_iff.mp h
        rw [List.drop_succ_cons]
        exact findExact_spec hj

/-- Where a turn from `stop` on ends. -/
structure Turn.Fits (rest : Bytes) (stop : ℕ) (t : Turn) : Prop where
  le : stop ≤ t.next
  stops : Stop rest t.next
  found : ∀ p, t.found = some p → Proper p.1

theorem dynamicTag_eq {tag : Bytes} (hs : Proper tag) (name : Bytes) (opens : Bool) :
    ∃ d, dynamicTag tag name opens = some d := by
  rw [dynamicTag]
  split
  · split
    · exact ⟨_, rfl⟩
    · rw [findAttr_eq hs]
      exact ⟨_, congrArg (Option.map Option.isSome) (firstWanted_pure _ _)⟩
  · exact ⟨_, rfl⟩

/-- A search for an end tag, and the place behind it. -/
theorem stop_getD {rest : Bytes} {stop : ℕ} {e : Option ℕ} {fallback : ℕ} (hle : stop ≤ fallback)
    (hstops : Stop rest fallback) (h : ∀ k, e = some k → stop ≤ k ∧ Stop rest k) :
    stop ≤ e.getD fallback ∧ Stop rest (e.getD fallback) := by
  cases e with
  | none => exact ⟨hle, hstops⟩
  | some k => exact h k rfl

theorem uncounted_spec {rest : Bytes} (hs : Proper rest) (skip : Skip) (closing : Bool)
    (name : Bytes) {stop : ℕ} (hstop : Stop rest stop) (dynamic : Bool) :
    (uncounted rest skip closing name (rest.take stop) stop dynamic).Fits rest stop := by
  rw [uncounted]
  split
  · have hat : stop ≤ (findCiFrom rest (ascii "</" ++ name) stop).getD rest.length := by
      cases hfind : findCiFrom rest (ascii "</" ++ name) stop with
      | none => exact hstop.le
      | some k => exact (findCiFrom_spec hfind).1
    obtain ⟨hle, hstops⟩ := stop_getD hstop.le (stop_length rest) fun k hk =>
      have hend := tagEnd_stop hs hk
      ⟨hat.trans hend.1.le, hend.2⟩
    exact ⟨hle, hstops, fun p hp => by cases hp⟩
  · split
    · exact ⟨le_rfl, hstop, fun p hp => by cases hp⟩
    · split
      · exact ⟨le_rfl, hstop, fun p hp => by cases hp⟩
      · dsimp only
        have hnext : ∀ k, (findCiFrom rest (ascii "</title") stop).bind (tagEnd rest) = some k →
            stop ≤ k ∧ Stop rest k := by
          intro k hk
          obtain ⟨at_, hat, hend⟩ := Option.bind_eq_some_iff.mp hk
          have hstops := tagEnd_stop hs hend
          exact ⟨(findCiFrom_spec hat).1.trans hstops.1.le, hstops.2⟩
        have hfits : stop ≤ (if name = ascii "title" then
            ((findCiFrom rest (ascii "</title") stop).bind (tagEnd rest)).getD stop
            else stop) ∧ Stop rest (if name = ascii "title" then
            ((findCiFrom rest (ascii "</title") stop).bind (tagEnd rest)).getD stop
            else stop) := by
          split
          · exact stop_getD le_rfl hstop hnext
          · exact ⟨le_rfl, hstop⟩
        exact ⟨hfits.1, hfits.2, fun p hp => by cases hp; exact hs.take stop⟩

theorem tagTurn_spec {rest : Bytes} (hs : Proper rest) (skip : Skip) (closing : Bool)
    (name : Bytes) {stop : ℕ} (hstop : Stop rest stop) :
    ∃ t, tagTurn rest skip closing name stop = some t ∧ t.Fits rest stop := by
  rw [tagTurn, slice_to hstop.le hstop.boundary, Option.bind_some]
  dsimp only
  split
  · exact ⟨_, rfl, le_rfl, hstop, fun p hp => by cases hp⟩
  · obtain ⟨d, hd⟩ := dynamicTag_eq (hs.take stop) name
      (!closing && (!decide (name ∈ voidTags) && !isSelfClosing (rest.take stop)))
    rw [hd]
    exact ⟨_, rfl, uncounted_spec hs skip closing name hstop d⟩

theorem isNameByte_ascii {b : UInt8} (h : isNameByte b = true) : b.toNat < 0x80 := by
  simp only [isNameByte, Bool.or_eq_true, Bool.and_eq_true, decide_eq_true_eq, beq_iff_eq,
    UInt8.le_iff_toNat_le] at h
  rcases h with ((h | h) | h) | rfl
  · exact lt_of_le_of_lt h.2 (by decide)
  · exact lt_of_le_of_lt h.2 (by decide)
  · exact lt_of_le_of_lt h.2 (by decide)
  · decide

/-- **A turn takes its slices**, goes on at least a byte, and stops at a boundary if it was at a
tag. -/
theorem turn_spec {rest : Bytes} (hs : Proper rest) (hne : rest ≠ []) (skip : Skip) :
    ∃ t, turn rest skip = some t ∧ 1 ≤ t.next ∧ t.next ≤ rest.length ∧
      (rest.head? = some 0x3c → Stop rest t.next) ∧
      ∀ p, t.found = some p → rest.head? = some 0x3c ∧ Proper p.1 := by
  have hlen : 1 ≤ rest.length := List.length_pos_iff.mpr hne
  rw [turn]
  split
  · next hopen =>
    exact ⟨_, rfl, le_rfl, hlen, fun h => absurd h hopen, fun p hp => by cases hp⟩
  next hopen =>
  rw [not_not] at hopen
  have hfirst : rest[0]? = some 0x3c := by rw [← List.head?_eq_getElem?, hopen]
  split
  · next hcomment =>
    have hdash : rest[3]? = some 0x2d := by
      obtain ⟨t, rfl⟩ := hcomment
      rfl
    have hfour : 4 ≤ rest.length := hcomment.length_le
    rw [slice_from hfour (hs.boundary_after hdash (by decide)), Option.map_some]
    have hend : ∀ k, (findExact (ascii "-->") (rest.drop 4)).map (4 + · + 3) = some k →
        1 ≤ k ∧ Stop rest k := by
      intro k hk
      obtain ⟨e, he, rfl⟩ := Option.map_eq_some_iff.mp hk
      have hprefix := findExact_spec he
      rw [List.drop_drop] at hprefix
      have hgt : rest[4 + e + 2]? = some 0x3e := by
        obtain ⟨t, ht⟩ := hprefix
        rw [← List.getElem?_drop, ← ht]
        rfl
      have hlt := (List.getElem?_eq_some_iff.mp hgt).1
      exact ⟨by omega, by omega, hs.boundary_after hgt (by decide)⟩
    obtain ⟨hle, hstops⟩ := stop_getD hlen (stop_length rest) hend
    exact ⟨_, rfl, hle, hstops.le, fun _ => hstops, fun p hp => by cases hp⟩
  next hcomment =>
  dsimp only
  generalize hclosing : (rest[1]? == some 0x2f) = closing
  have hname : Stop rest (if closing = true then 2 else 1) := by
    cases closing with
    | false => exact ⟨hlen, hs.boundary_after hfirst (by decide)⟩
    | true =>
        have hslash := beq_iff_eq.mp hclosing
        exact ⟨(List.getElem?_eq_some_iff.mp hslash).1, hs.boundary_after hslash (by decide)⟩
  have hone : 1 ≤ if closing = true then 2 else 1 := by
    split
    · exact one_le_two
    · exact le_rfl
  have hle := skipWhile_le (p := isNameByte) hname.le
  have hboundary := boundary_skipWhile (fun _ => isNameByte_ascii) hs hname.le hname.boundary
  rw [slice_eq_some hle.1 hle.2 hname.boundary hboundary, Option.bind_some]
  cases hend : tagEnd rest (skipWhile isNameByte rest (if closing = true then 2 else 1)) with
  | none =>
      exact ⟨_, rfl, hlen, le_rfl, fun _ => stop_length rest, fun p hp => by cases hp⟩
  | some stop =>
      obtain ⟨hlt, hstop⟩ := tagEnd_stop hs hend
      obtain ⟨t, ht, hfits⟩ := tagTurn_spec hs skip closing _ hstop
      have hle' := hfits.le
      exact ⟨t, ht, by omega, hfits.stops.le, fun _ => hfits.stops, fun p hp =>
        ⟨hopen, hfits.found p hp⟩⟩

/-! ### The scan -/

/-- The tags that may be hoisted, with their names, in the order in which the scan comes to them. -/
def candidates (html : Bytes) : ℕ → ℕ → Skip → List (Bytes × Bytes)
  | 0, _, _ => []
  | fuel + 1, i, skip =>
    if i < html.length then
      match turn (html.drop i) skip with
      | none => []
      | some t => t.found.toList ++ candidates html fuel (i + t.next) t.skip
    else []

/-- What has been copied ends in front of the scan, at a boundary. -/
structure Scan.Fits (html : Bytes) (s : Scan) : Prop where
  copied_le : s.copied ≤ s.i
  le : s.i ≤ html.length
  boundary : isCharBoundary html s.copied = true

theorem boundary_drop {s : Bytes} {i k : ℕ} (hi : isCharBoundary s i = true)
    (hle : i ≤ s.length) (hk : isCharBoundary (s.drop i) k = true) :
    isCharBoundary s (i + k) = true := by
  rw [isCharBoundary, Bool.or_eq_true, Bool.or_eq_true, beq_iff_eq, beq_iff_eq] at hk
  rcases hk with (rfl | rfl) | hk
  · exact hi
  · rw [List.length_drop, Nat.add_sub_cancel' hle]
    exact boundary_length s
  · rw [List.getElem?_drop] at hk
    rw [isCharBoundary, hk, Bool.or_true]

/-- A turn that leaves what it passes where it is. -/
def Scan.pass (s : Scan) (t : Turn) : Scan := { s with i := s.i + t.next, skip := t.skip }

/-- A turn that moves what it passes. -/
def Scan.move (html : Bytes) (s : Scan) (t : Turn) : Scan :=
  ⟨s.i + t.next, s.i + t.next, s.kept ++ (html.drop s.copied).take (s.i - s.copied),
    s.hoisted ++ (html.drop s.i).take t.next, t.skip⟩

theorem Scan.Fits.turn {html : Bytes} (hs : Proper html) {s : Scan} (hfits : s.Fits html)
    (hlt : s.i < html.length) :
    ∃ t, Core.turn (html.drop s.i) s.skip = some t ∧ 1 ≤ t.next ∧ (s.pass t).Fits html ∧
      ∀ p ∈ t.found, Proper p.1 ∧ (s.move html t).Fits html ∧
        isCharBoundary html s.i = true := by
  have hne : html.drop s.i ≠ [] := by
    rw [Ne, List.drop_eq_nil_iff]
    omega
  obtain ⟨t, ht, hprogress, hnext, hstops, hfound⟩ := turn_spec (hs.drop s.i) hne s.skip
  rw [List.length_drop] at hnext
  have hle : s.i + t.next ≤ html.length := by omega
  refine ⟨t, ht, hprogress, ⟨hfits.copied_le.trans (Nat.le_add_right _ _), hle, hfits.boundary⟩,
    fun p hp => ?_⟩
  obtain ⟨hopen, hproper⟩ := hfound p hp
  have hget : html[s.i]? = some 0x3c := by
    rw [List.head?_eq_getElem?, List.getElem?_drop, Nat.add_zero] at hopen
    exact hopen
  have hhere := boundary_before hget (by decide)
  have hthere := boundary_drop hhere hfits.le (hstops hopen).boundary
  exact ⟨hproper, ⟨le_rfl, hle, hthere⟩, hhere⟩

/-- **A step of the scan** passes or moves what its turn goes over; it panics at the names of a tag
only. -/
theorem Scan.step_eq {html : Bytes} {s : Scan} (hfits : s.Fits html) {t : Turn}
    (ht : Core.turn (html.drop s.i) s.skip = some t)
    (hmove : ∀ p ∈ t.found, (s.move html t).Fits html ∧ isCharBoundary html s.i = true) :
    s.step html = match t.found with
      | none => some (s.pass t)
      | some (tag, name) =>
        (hoistable tag name).map fun hoists => if hoists then s.move html t else s.pass t := by
  rw [Scan.step, ht, Option.bind_eq_bind, Option.bind_some]
  dsimp only
  cases hf : t.found with
  | none => rfl
  | some p =>
      obtain ⟨tag, name⟩ := p
      obtain ⟨hto, hhere⟩ := hmove _ hf
      dsimp only
      cases hoistable tag name with
      | none => rfl
      | some hoists =>
          rw [Option.bind_eq_bind, Option.bind_some, Option.map_some]
          cases hoists with
          | false => rfl
          | true =>
              have hthere := hto.boundary
              have hle := hto.le
              dsimp only [Scan.move] at hthere hle
              rw [if_pos rfl, if_pos rfl,
                slice_eq_some hfits.copied_le hfits.le hfits.boundary hhere, Option.bind_eq_bind,
                Option.bind_some, slice_eq_some (Nat.le_add_right _ _) hle hhere hthere,
                Option.bind_some, Nat.add_sub_cancel_left]
              rfl

/-- **A run of the scan** ends, without a panic where the tags it comes to are safe. -/
theorem Scan.run_spec {html : Bytes} (hs : Proper html) : ∀ (fuel : ℕ) {s : Scan}, s.Fits html →
    html.length ≤ s.i + fuel →
      ((∀ p ∈ candidates html fuel s.i s.skip, Safe p.1) →
        ∃ s', Scan.run html fuel s = some s' ∧ s'.Fits html ∧ s'.i = html.length) ∧
      (Scan.run html fuel s ≠ none → ∀ p ∈ candidates html fuel s.i s.skip, Safe p.1)
  | 0, s, hfits, hfuel =>
      ⟨fun _ => ⟨s, rfl, hfits, le_antisymm hfits.le hfuel⟩, fun _ p hp => by cases hp⟩
  | fuel + 1, s, hfits, hfuel => by
      rw [Scan.run, candidates]
      split
      · next hlt =>
        obtain ⟨t, ht, hprogress, hpass, hfound⟩ := hfits.turn hs hlt
        rw [Scan.step_eq hfits ht fun p hp => (hfound p hp).2, ht]
        dsimp only
        have ih := fun {s' : Scan} (hs' : s'.Fits html) (hi : s'.i = s.i + t.next) =>
          Scan.run_spec hs fuel hs' (by omega)
        cases hf : t.found with
        | none =>
            rw [Option.bind_some]
            exact ih hpass rfl
        | some p =>
            obtain ⟨tag, name⟩ := p
            obtain ⟨hproper, hto, -⟩ := hfound _ hf
            have hsafe := hoistable_iff hproper name
            rw [Option.toList_some, List.forall_mem_append]
            dsimp only at hsafe ⊢
            cases hh : hoistable tag name with
            | none =>
                rw [hh] at hsafe
                refine ⟨fun h => ?_, fun h => absurd rfl h⟩
                cases hsafe.mpr (h.1 _ List.mem_cons_self)
            | some hoists =>
                have hthis := hsafe.mp (by rw [hh]; rfl)
                rw [Option.map_some, Option.bind_some, and_iff_right fun p hp => by
                  rw [List.mem_singleton.mp hp]; exact hthis]
                cases hoists with
                | false => exact ih hpass rfl
                | true => exact ih hto rfl
      · next hge =>
        exact ⟨fun _ => ⟨s, rfl, hfits, le_antisymm hfits.le (Nat.not_lt.mp hge)⟩,
          fun _ p hp => by cases hp⟩

/-! ### Hoisting -/

theorem length_closing_head : (ascii "</head>").length = 7 := rfl

/-- No name is cut inside of a character: the page has no closing head tag, or nothing behind it
mentions what is hoisted, or the tags that may be hoisted are safe. -/
def HoistsSafely (html : Bytes) : Prop :=
  ∀ headEnd, findCiFrom html (ascii "</head>") 0 = some headEnd →
    mentions (html.drop (headEnd + 7)) = true →
      ∀ p ∈ candidates html html.length (headEnd + 7) [], Safe p.1

/-- A text that starts with a needle, byte by byte. -/
theorem startsCi_get {needle s : Bytes} (h : startsCi needle s = true) {k : ℕ} {b : UInt8}
    (hb : needle[k]? = some b) : ∃ c, s[k]? = some c ∧ lowerByte c = lowerByte b := by
  rw [startsCi, Bool.and_eq_true, eqIgnoreCase, beq_iff_eq] at h
  have hget := congrArg (·[k]?) h.2
  have hk := (List.getElem?_eq_some_iff.mp hb).1
  simp only [List.getElem?_map, List.getElem?_take_of_lt hk, hb, Option.map_some] at hget
  exact Option.map_eq_some_iff.mp hget

/-- The scan starts behind the closing head tag. -/
theorem fits_start {html : Bytes} (hs : Proper html) {headEnd : ℕ}
    (h : findCiFrom html (ascii "</head>") 0 = some headEnd) :
    Scan.Fits html ⟨headEnd + 7, headEnd + 7, [], [], []⟩ ∧ isCharBoundary html headEnd = true := by
  obtain ⟨-, hle, hstart⟩ := findCiFrom_spec h
  rw [length_closing_head] at hle
  obtain ⟨c, hc, hlower⟩ := startsCi_get hstart (k := 6) (b := 0x3e) rfl
  obtain ⟨d, hd, hlower'⟩ := startsCi_get hstart (k := 0) (b := 0x3c) rfl
  rw [List.getElem?_drop] at hc hd
  refine ⟨⟨le_rfl, hle, ?_⟩, ?_⟩
  · exact hs.boundary_after hc (ascii_of_lowerByte hlower (by decide))
  · exact boundary_before hd (ascii_of_lowerByte hlower' (by decide))

/-- What is in front of a cut keeps its boundaries. -/
theorem boundary_take_append {s : Bytes} (t : Bytes) {k n : ℕ} (hkn : k < n) (hn : n ≤ s.length)
    (hk : isCharBoundary s k = true) : isCharBoundary (s.take n ++ t) k = true := by
  have hlen : k < (s.take n).length := by
    rw [List.length_take]
    omega
  have hget : (s.take n ++ t)[k]? = s[k]? := by
    rw [List.getElem?_append_left hlen, List.getElem?_take_of_lt hkn]
  rw [isCharBoundary, Bool.or_eq_true, Bool.or_eq_true, beq_iff_eq, beq_iff_eq] at hk
  rw [isCharBoundary, hget]
  rcases hk with (rfl | rfl) | hk
  · rfl
  · omega
  · rw [hk, Bool.or_true]

/-- What the page is put together from. -/
theorem assemble {html : Bytes} {headEnd : ℕ}
    (hstart : Scan.Fits html ⟨headEnd + 7, headEnd + 7, [], [], []⟩)
    (hhere : isCharBoundary html headEnd = true) {s : Scan} (hfits : s.Fits html) :
    ((slice html s.copied html.length).bind fun last =>
      (slice html 0 (headEnd + 7)).bind fun head =>
        insertStr (head ++ (s.kept ++ last)) headEnd s.hoisted) =
      some (html.take headEnd ++ s.hoisted ++
        ((html.drop headEnd).take 7 ++ (s.kept ++ html.drop s.copied))) := by
  have hle : headEnd + 7 ≤ html.length := hstart.le
  have htake : (html.take (headEnd + 7)).take headEnd = html.take headEnd := by
    rw [List.take_take, Nat.min_eq_left (Nat.le_add_right _ _)]
  have hlen : headEnd ≤ (html.take (headEnd + 7)).length := by
    rw [List.length_take]
    omega
  rw [slice_from (hfits.copied_le.trans hfits.le) hfits.boundary, Option.bind_some,
    slice_to hle hstart.boundary, Option.bind_some, insertStr,
    if_pos (boundary_take_append _ (by omega) hle hhere), List.take_append_of_le_length hlen, htake,
    List.drop_append_of_le_length hlen, List.drop_take, Nat.add_sub_cancel_left]

/-- **When hoisting does not panic**: just where it cuts no attribute's name inside of a character.
Its scan ends at the page's end, and its search for an attribute ends. -/
theorem hoist_iff (text : String) :
    ((hoistHeadInto (utf8 text)).isSome = true ↔ HoistsSafely (utf8 text)) ∧
      (∀ headEnd s, findCiFrom (utf8 text) (ascii "</head>") 0 = some headEnd →
        Scan.run (utf8 text) (utf8 text).length ⟨headEnd + 7, headEnd + 7, [], [], []⟩ = some s →
          s.i = (utf8 text).length) ∧
      ∀ (tag : Bytes) (want : Bytes → Option Bool) (i more : ℕ),
        findAttrFrom tag want (tag.length + more) i = findAttrFrom tag want tag.length i := by
  have hs : Proper (utf8 text) := (encoded_proper text.toList).1
  refine ⟨?_, fun headEnd s hfind hrun => ?_, fun tag want i more =>
    findAttrFrom_add tag want more (Nat.le_add_left _ _)⟩
  · generalize utf8 text = html at hs ⊢
    rw [hoistHeadInto, HoistsSafely]
    cases hfind : findCiFrom html (ascii "</head>") 0 with
    | none => exact ⟨fun _ headEnd h => (by cases h), fun _ => rfl⟩
    | some headEnd =>
        obtain ⟨hfits, hhere⟩ := fits_start hs hfind
        obtain ⟨hsafe, hall⟩ := Scan.run_spec hs html.length hfits (Nat.le_add_left _ _)
        have hle := hfits.le
        have hboundary := hfits.boundary
        dsimp only at hle hboundary hsafe hall ⊢
        rw [length_closing_head, slice_from hle hboundary, Option.bind_eq_bind, Option.bind_some]
        cases hmentions : mentions (html.drop (headEnd + 7)) with
        | false =>
            refine ⟨fun _ at_ hat h => ?_, fun _ => rfl⟩
            cases hat
            rw [hmentions] at h
            cases h
        | true =>
            have hcond : (∀ at_, some headEnd = some at_ → mentions (html.drop (at_ + 7)) = true →
                ∀ p ∈ candidates html html.length (at_ + 7) [], Safe p.1) ↔
                ∀ p ∈ candidates html html.length (headEnd + 7) [], Safe p.1 :=
              ⟨fun h => h headEnd rfl hmentions, fun h at_ hat _ => by cases hat; exact h⟩
            rw [hcond]
            refine ⟨fun h => hall fun hnone => ?_, fun h => ?_⟩
            · rw [hnone] at h
              cases h
            · obtain ⟨s, hrun, hfits', -⟩ := hsafe h
              rw [hrun, Bool.not_true, if_neg Bool.false_ne_true, Option.bind_eq_bind,
                Option.bind_some]
              split
              · rfl
              · rw [assemble hfits hhere hfits']
                rfl
  · obtain ⟨hfits, -⟩ := fits_start hs hfind
    obtain ⟨hsafe, hall⟩ := Scan.run_spec hs _ hfits (Nat.le_add_left _ _)
    obtain ⟨s', hrun', -, hend⟩ := hsafe (hall (by rw [hrun]; exact Option.some_ne_none s))
    cases hrun.symm.trans hrun'
    exact hend

/-- A name whose first character is three bytes long is cut inside of it. -/
theorem hoist_panics : hoistHeadInto (utf8 "<head></head><meta 名>") = none := by
  rw [utf8, String.toList_ofList]
  decide +kernel

end Brust.Core
