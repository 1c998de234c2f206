import Brust.Jinja.Spread

/-!
# Jinja — spread attributes

`spread_attrs` prints the attributes of a spread, each by the rules of a hand-written one.  What it
prints is a list of attributes with checked names, escaped values and safe URLs, no two of one name
(`spread_attrs_well_formed`); a name that a spread never prints is left out as it is spelled, not in
every letter case (`spread_attrs_key`).
-/

namespace Brust.Jinja

open Paint (literal styleObjToCss Numbers)
open SortedMap (keys putAll)

variable {F : Type} [Numbers F]

/-! ### Printing -/

/-- `escape_text`, and `escape_attr`. -/
def escapeText (s : List Char) : List Char :=
  s.flatMap fun c =>
    if c = '&' then literal "&amp;"
    else if c = '<' then literal "&lt;"
    else if c = '>' then literal "&gt;"
    else if c = '"' then literal "&quot;"
    else if c = '\'' then literal "&#39;"
    else [c]

/-- ` name="value"` -/
def attrText (name value : List Char) : List Char := ' ' :: name ++ literal "=\"" ++ value ++ ['"']

section
variable (display : Value F → List Char)

/-- The value of an attribute that is neither a style nor a boolean, where it is printed. -/
def plainAttr (html : List Char) (v : Value F) : List Char :=
  let s := v.attrString display
  if html = literal "src" ∧ s = [] then []
  else if isUrlAttr html && !safeUrl s then []
  else attrText html (escapeText s)

/-- `render_attr` -/
def renderAttr (reactName : List Char) (v : Value F) : List Char :=
  if !spreadKeyOk reactName then []
  else
    let html := attrName reactName
    if html = literal "style" then
      if !v.isMap then []
      else
        attrText html (escapeText (styleObjToCss
          ((mapPairs v).map fun e => (e.1.toList, e.2.painted display))))
    else
      match attrKind html with
      | .boolean => if v.truthy then ' ' :: html else []
      | .overloaded =>
        match v with
        | .bool b => if b then attrText html [] else []
        | v => if v.presentPlain then plainAttr display html v else []
      | .stringify => if v.presentStr then plainAttr display html v else []
      | .plain => if v.presentPlain then plainAttr display html v else []

/-- `merge_attrs`: the segments merged on the HTML attribute, each with the name written last. -/
def mergeAttrs (segs : List (Value F)) : List (String × Value F) :=
  (putAll ((written segs).map fun e => (attrKey e.1.toList, e))).map (·.2)

def renderAttrs (pairs : List (String × Value F)) : List Char :=
  pairs.flatMap fun e => renderAttr display e.1.toList e.2

/-- `spread_attrs(…)` -/
def spreadAttrs (segs : List (Value F)) : List Char := renderAttrs display (mergeAttrs segs)

end

/-! ### Attributes -/

/-- An attribute as it stands in the markup. -/
structure Attr where
  name : List Char
  value : Option (List Char)

def Attr.text (a : Attr) : List Char :=
  match a.value with
  | none => ' ' :: a.name
  | some v => attrText a.name v

/-- A name that passes the check and is not one of `never`, a value without quotes and angle
brackets, and the text of a safe URL where the attribute loads one. -/
structure Attr.Ok (never : List Char → Prop) (a : Attr) : Prop where
  name : attrNameOk a.name = true
  refused : isRefusedAttr a.name = false
  never : ¬ never a.name
  value : ∀ v ∈ a.value, ∀ c ∈ v, c ∉ ['"', '\'', '<', '>']
  url : isUrlAttr a.name = true → ∃ u, a.value = some (escapeText u) ∧ safeUrl u = true

/-- A list of such attributes, no two of one name in any letter case. -/
def WellFormed (never : List Char → Prop) (out : List Char) : Prop :=
  ∃ attrs : List Attr, out = attrs.flatMap Attr.text ∧ (∀ a ∈ attrs, a.Ok never) ∧
    (attrs.map fun a => lower a.name).Nodup

/-- A name that is never printed, as it is spelled. -/
def NotAttr (name : List Char) : Prop := name ∈ notAttrs

/-- A name that is never printed, in any letter case. -/
def NotAttrInAnyCase (name : List Char) : Prop := lower name ∈ notAttrs.map lower

/-! ### One attribute -/

theorem escapeText_quotes (s : List Char) :
    ∀ c ∈ escapeText s, c ∉ ['"', '\'', '<', '>'] := by
  intro c hc
  obtain ⟨d, -, hd⟩ := List.mem_flatMap.mp hc
  have hall : ∀ e ∈ ["&amp;", "&lt;", "&gt;", "&quot;", "&#39;"],
      ((literal e).all fun c => decide (c ∉ ['"', '\'', '<', '>'])) = true := by decide
  have hentities : ∀ e ∈ ["&amp;", "&lt;", "&gt;", "&quot;", "&#39;"], ∀ c ∈ literal e,
      c ∉ ['"', '\'', '<', '>'] := fun e he => forall_mem_of_all (hall e he)
  split at hd
  · exact hentities "&amp;" (by decide) c hd
  split at hd
  · exact hentities "&lt;" (by decide) c hd
  split at hd
  · exact hentities "&gt;" (by decide) c hd
  split at hd
  · exact hentities "&quot;" (by decide) c hd
  split at hd
  · exact hentities "&#39;" (by decide) c hd
  · next hlt hgt hquot hapos =>
    rw [List.mem_singleton.mp hd]
    simp [hlt, hgt, hquot, hapos]

theorem not_notAttr_attrName {r : List Char} (h : r ∉ notAttrs) : attrName r ∉ notAttrs := by
  unfold attrName
  split
  · next mapped hmapped =>
    have hvalues : ∀ p ∈ attrNames, p.2 ∉ notAttrs := by
      -- The kernel is slow to decode a literal, and need not where its characters are given.
      simp only [attrNames, notAttrs, literal, List.map_cons, List.map_nil]
      repeat rw [String.toList_ofList]
      decide +kernel
    obtain ⟨before, after, hnames, -⟩ := List.lookup_eq_some_iff.mp hmapped
    exact hvalues (r, mapped) (hnames ▸ List.mem_append_right _ List.mem_cons_self)
  · split
    · next hsvg =>
      have hkebab : ∀ n ∈ svgKebab, Paint.cssProperty n ∉ notAttrs := by
        simp only [svgKebab, notAttrs, literal, List.map_cons, List.map_nil]
        repeat rw [String.toList_ofList]
        decide +kernel
      exact hkebab r (List.contains_iff_mem.mp hsvg)
    · exact h

/-- An attribute that loads a URL is of no special kind. -/
theorem attrKind_of_url {html : List Char} (h : isUrlAttr html = true) :
    attrKind html = .plain ∧ html ≠ literal "style" := by
  have hmem : lower html ∈ urlAttrs := List.contains_iff_mem.mp h
  have hplain : ∀ n ∈ urlAttrs, ((literal "aria-").isPrefixOf n || (literal "data-").isPrefixOf n ||
      stringifyAttrs.contains n) = false ∧ booleanAttrs.contains n = false ∧
      overloadedAttrs.contains n = false := by
    simp only [urlAttrs, stringifyAttrs, booleanAttrs, overloadedAttrs, literal, List.map_cons,
      List.map_nil]
    repeat rw [String.toList_ofList]
    decide +kernel
  obtain ⟨hstringify, hboolean, hoverloaded⟩ := hplain _ hmem
  refine ⟨?_, ?_⟩
  · unfold attrKind
    dsimp only
    rw [hstringify, hboolean, hoverloaded]
    rfl
  · rintro rfl
    exact absurd hmem (by decide)

/-- Nothing, or the attribute of a name with a value that may stand there. -/
def Prints (html out : List Char) : Prop :=
  out = [] ∨ (out = ' ' :: html ∧ isUrlAttr html = false) ∨
    ∃ s, out = attrText html (escapeText s) ∧ (isUrlAttr html = true → safeUrl s = true)

theorem prints_of_kind {html : List Char} {s : List Char}
    (h : attrKind html ≠ .plain ∨ html = literal "style") :
    Prints html (attrText html (escapeText s)) := by
  refine .inr (.inr ⟨s, rfl, fun hurl => ?_⟩)
  obtain ⟨hkind, hstyle⟩ := attrKind_of_url hurl
  rcases h with h | h
  · exact absurd hkind h
  · exact absurd h hstyle

variable {display : Value F → List Char}

theorem plainAttr_prints (html : List Char) (v : Value F) :
    Prints html (plainAttr display html v) := by
  unfold plainAttr
  dsimp only
  split
  · exact .inl rfl
  split
  · exact .inl rfl
  · next hsafe =>
    refine .inr (.inr ⟨_, rfl, fun hurl => ?_⟩)
    rw [hurl, Bool.true_and, Bool.not_eq_true', Bool.not_eq_false] at hsafe
    exact hsafe

theorem renderAttr_prints {r : List Char} (v : Value F) (hok : spreadKeyOk r = true) :
    Prints (attrName r) (renderAttr display r v) := by
  unfold renderAttr
  rw [hok, Bool.not_true, if_neg (by decide)]
  dsimp only
  have hif : ∀ {b : Bool} {out : List Char}, Prints (attrName r) out →
      Prints (attrName r) (if b then out else []) := by
    intro b out h
    split
    · exact h
    · exact .inl rfl
  split
  · next hstyle =>
    split
    · exact .inl rfl
    · exact prints_of_kind (.inr hstyle)
  split
  · next hkind =>
    refine hif (.inr (.inl ⟨rfl, ?_⟩))
    rw [← Bool.not_eq_true]
    intro hurl
    rw [(attrKind_of_url hurl).1] at hkind
    cases hkind
  · next hkind =>
    split
    · exact hif (prints_of_kind (s := []) (.inl (by rw [hkind]; decide)))
    · exact hif (plainAttr_prints _ _)
  · exact hif (plainAttr_prints _ _)
  · exact hif (plainAttr_prints _ _)

theorem spreadKeyOk_spec {r : List Char} (h : spreadKeyOk r = true) :
    r ∉ notAttrs ∧ attrNameOk (attrName r) = true ∧ isRefusedAttr (attrName r) = false := by
  unfold spreadKeyOk at h
  split at h
  · cases h
  · next hcheck =>
    rw [Bool.or_eq_true, not_or] at hcheck
    rw [Bool.and_eq_true, Bool.not_eq_true'] at h
    exact ⟨fun hr => hcheck.1 (List.contains_iff_mem.mpr hr), h⟩

/-- What one name and value print. -/
theorem renderAttr_spec (r : List Char) (v : Value F) : renderAttr display r v = [] ∨
    ∃ a : Attr, a.name = attrName r ∧ renderAttr display r v = a.text ∧ a.Ok NotAttr := by
  by_cases hok : spreadKeyOk r = true
  · obtain ⟨hnot, hname, hrefused⟩ := spreadKeyOk_spec hok
    rcases renderAttr_prints v hok with h | ⟨h, hurl⟩ | ⟨s, h, hurl⟩
    · exact .inl h
    · refine .inr ⟨⟨attrName r, none⟩, rfl, h, hname, hrefused, not_notAttr_attrName hnot, ?_, ?_⟩
      · rintro v ⟨⟩
      · intro htrue
        rw [hurl] at htrue
        cases htrue
    · refine .inr ⟨⟨attrName r, some (escapeText s)⟩, rfl, h, hname, hrefused,
        not_notAttr_attrName hnot, ?_, fun htrue => ⟨s, rfl, hurl htrue⟩⟩
      rintro v ⟨⟩
      exact escapeText_quotes s
  · left
    unfold renderAttr
    rw [if_pos (by simpa using hok)]

/-! ### All attributes -/

theorem renderAttrs_wellFormed : ∀ {pairs : List (String × Value F)},
    (pairs.map fun e => attrKey e.1.toList).Nodup → ∃ attrs : List Attr,
      renderAttrs display pairs = attrs.flatMap Attr.text ∧ (∀ a ∈ attrs, a.Ok NotAttr) ∧
      (attrs.map fun a => lower a.name).Sublist (pairs.map fun e => attrKey e.1.toList)
  | [], _ => ⟨[], rfl, fun a ha => absurd ha List.not_mem_nil, List.Sublist.refl _⟩
  | e :: pairs, h => by
      obtain ⟨attrs, hout, hall, hsub⟩ := renderAttrs_wellFormed (List.nodup_cons.mp h).2
      have hcons : renderAttrs display (e :: pairs) =
          renderAttr display e.1.toList e.2 ++ renderAttrs display pairs := List.flatMap_cons
      rw [hcons, hout, List.map_cons]
      rcases renderAttr_spec e.1.toList e.2 with hnone | ⟨a, hname, htext, ha⟩
      · exact ⟨attrs, by rw [hnone, List.nil_append], hall, hsub.cons _⟩
      · refine ⟨a :: attrs, by rw [htext, List.flatMap_cons], ?_, ?_⟩
        · rintro b hb
          rcases List.mem_cons.mp hb with rfl | hb
          · exact ha
          · exact hall b hb
        · rw [List.map_cons, hname]
          exact hsub.cons_cons _

omit [Numbers F] in
theorem nodup_mergeAttrs (segs : List (Value F)) :
    ((mergeAttrs segs).map fun e => attrKey e.1.toList).Nodup := by
  have hkeys : ((mergeAttrs segs).map fun e => attrKey e.1.toList) =
      keys (putAll ((written segs).map fun e => (attrKey e.1.toList, e))) := by
    rw [mergeAttrs, List.map_map, keys]
    refine List.map_congr_left fun p hp => ?_
    obtain ⟨e, -, rfl⟩ := List.mem_map.mp (SortedMap.mem_of_mem_putAll hp)
    rfl
  rw [hkeys, SortedMap.keys_putAll]
  exact nodup_eraseDups _

/-- **Spread attributes are attributes**: with checked names, of which no two are one and none is a
handler, a directive, `srcdoc` or a prop of React's own, with escaped values and safe URLs. -/
theorem spread_attrs_well_formed (display : Value F → List Char) (segs : List (Value F)) :
    WellFormed NotAttr (spreadAttrs display segs) := by
  have hnodup := nodup_mergeAttrs segs
  obtain ⟨attrs, hout, hall, hsub⟩ := renderAttrs_wellFormed hnodup
  exact ⟨attrs, hout, hall, hnodup.sublist hsub⟩

/-! ### Letter case -/

/-- The name of the first attribute, read from the markup. -/
theorem name_of_text {a : Attr} (ha : attrNameOk a.name = true) (attrs : List Attr) :
    (((a :: attrs).flatMap Attr.text).drop 1).takeWhile nameChar = a.name := by
  have hchars : ∀ c ∈ a.name, nameChar c = true := by
    obtain ⟨name, value⟩ := a
    cases name with
    | nil => exact fun c hc => absurd hc List.not_mem_nil
    | cons c cs =>
        rw [attrNameOk, Bool.and_eq_true, List.all_eq_true] at ha
        intro d hd
        rcases List.mem_cons.mp hd with rfl | hd
        · have hstart := ha.1
          simp only [nameStart, Bool.or_eq_true, beq_iff_eq] at hstart
          rcases hstart with (hstart | rfl) | rfl
          · rw [nameChar, Char.isAlphanum, hstart]
            rfl
          · decide
          · decide
        · exact ha.2 d hd
  have hends : ∀ rest : List Char, (∀ c ∈ rest.head?, nameChar c = false) →
      (a.name ++ rest).takeWhile nameChar = a.name := by
    intro rest hrest
    rw [List.takeWhile_append_of_pos hchars]
    cases rest with
    | nil => rw [List.takeWhile_nil, List.append_nil]
    | cons c rest =>
        rw [List.takeWhile_cons_of_neg (by rw [hrest c rfl]; decide), List.append_nil]
  have hrest : ∀ c ∈ (attrs.flatMap Attr.text).head?, nameChar c = false := by
    cases attrs with
    | nil => rintro c ⟨⟩
    | cons b attrs =>
        have hhead : ((b :: attrs).flatMap Attr.text).head? = some ' ' := by
          rw [List.flatMap_cons, Attr.text]
          split <;> rfl
        rw [hhead]
        rintro c ⟨⟩
        decide
  rw [List.flatMap_cons, Attr.text]
  split
  · exact hends _ hrest
  · next v _ =>
    have hvalue : (attrText a.name v ++ attrs.flatMap Attr.text).drop 1 =
        a.name ++ ('=' :: '"' :: v ++ '"' :: attrs.flatMap Attr.text) := by
      simp only [attrText, List.cons_append, List.append_assoc, List.drop_succ_cons, List.drop_zero]
      rfl
    rw [hvalue]
    exact hends _ (by rintro c ⟨⟩; decide)

instance : Numbers Empty where
  text := nofun
  isZero := nofun
  isNaN := nofun
  text_ne_nil := nofun
  text_plain := nofun

theorem attrName_key : attrName ['K', 'e', 'y'] = ['K', 'e', 'y'] := by
  have hlookup : attrNames.lookup ['K', 'e', 'y'] = none := by
    simp only [attrNames, literal, List.map_cons, List.map_nil]
    repeat rw [String.toList_ofList]
    decide +kernel
  have hsvg : svgKebab.contains ['K', 'e', 'y'] = false := by
    simp only [svgKebab, literal, List.map_cons, List.map_nil]
    repeat rw [String.toList_ofList]
    decide +kernel
  rw [attrName, hlookup]
  dsimp only
  rw [hsvg]
  rfl

theorem renderAttr_key : renderAttr (fun _ => []) ['K', 'e', 'y'] (.str ['1'] : Value Empty) =
    [' ', 'K', 'e', 'y', '=', '"', '1', '"'] := by
  have hok : spreadKeyOk ['K', 'e', 'y'] = true := by
    simp only [spreadKeyOk, attrName_key, notAttrs, isRefusedAttr, literal, List.map_cons,
      List.map_nil]
    repeat rw [String.toList_ofList]
    decide +kernel
  have hkind : attrKind ['K', 'e', 'y'] = .plain := by
    simp only [attrKind, stringifyAttrs, booleanAttrs, overloadedAttrs, literal, List.map_cons,
      List.map_nil]
    repeat rw [String.toList_ofList]
    decide +kernel
  simp only [renderAttr, hok, attrName_key, hkind, plainAttr, Value.attrString,
    isUrlAttr, urlAttrs, attrText, literal, List.map_cons, List.map_nil]
  repeat rw [String.toList_ofList]
  decide +kernel

/-- `Key` is printed, which is `key` to HTML. -/
theorem spread_attrs_key : ¬ WellFormed NotAttrInAnyCase
    (spreadAttrs (fun _ => []) [(.map .plain [("Key", .str ['1'])] : Value Empty)]) := by
  have hkey : "Key".toList = ['K', 'e', 'y'] := String.toList_ofList
  have hmerge : mergeAttrs [(.map .plain [("Key", .str ['1'])] : Value Empty)] =
      [("Key", .str ['1'])] := by
    rw [mergeAttrs]
    generalize attrKey = key
    rfl
  rw [spreadAttrs, hmerge, renderAttrs, List.flatMap_cons, List.flatMap_nil, List.append_nil, hkey,
    renderAttr_key]
  rintro ⟨attrs, htext, hall, -⟩
  cases attrs with
  | nil => cases htext
  | cons a attrs =>
      have ha := hall a List.mem_cons_self
      have hname := name_of_text ha.name attrs
      rw [← htext] at hname
      refine ha.never ?_
      rw [NotAttrInAnyCase, ← hname]
      simp only [notAttrs, literal, List.map_cons, List.map_nil]
      repeat rw [String.toList_ofList]
      decide

end Brust.Jinja
