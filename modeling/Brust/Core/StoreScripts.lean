import Brust.Plan.ReadBack
import Brust.Support.JsLiteral

/-!
# Core — store scripts

A store's snapshot is written into the page as JSON in a script of its own; what the page's own
settings inject is JavaScript with string literals.  Both escape the characters that HTML reads.

The payload of a script has none of them, so that its element is closed behind it, and read as JSON
it is the snapshot with its numbers as they are written; a literal is the string it was made of
(`store_scripts_inert`).  A reader that reads the numbers as doubles does not have them all back
(`store_scripts_rounded`).
-/

namespace Brust.Core

open Brust.Plan Brust.SortedMap Brust.JsonValue Brust.JsLiteral

/-! ### What is written -/

/-- The characters of a store's name that are kept. -/
def nameChar (c : Char) : Bool := c.isAlphanum || c ∈ ['_', '.', ':', '-']

def cleanName (name : String) : List Char := name.toList.filter nameChar

/-- The characters that the payload of a script does not have. -/
def special : List Char := ['<', '>', '&', '\u2028', '\u2029']

def escapeScript (c : Char) : List Char :=
  if c = '<' then "\\u003c".toList
  else if c = '>' then "\\u003e".toList
  else if c = '&' then "\\u0026".toList
  else if c = '\u2028' then "\\u2028".toList
  else if c = '\u2029' then "\\u2029".toList
  else [c]

section
variable (ryu : Float → String)

/-- A snapshot's JSON, escaped for a script. -/
def payload (state : Node) : List Char := (state.text ryu false).flatMap escapeScript

def openTag (name : List Char) : List Char :=
  "<script type=\"application/json\" data-brust-store=\"".toList ++ name ++ "\">".toList

/-- The script of one store; a name of which nothing is kept has none. -/
def storeScript (e : String × Node) : List Char :=
  if cleanName e.1 = [] then []
  else openTag (cleanName e.1) ++ (payload ryu e.2 ++ "</script>".toList)

def storeScriptsInto (out : List Char) : Node → List Char
  | .map m _ => out ++ m.flatMap (storeScript ryu)
  | _ => out

end

def escapeJs (c : Char) : List Char :=
  if c = '\x22' then "\\\"".toList
  else if c = '\\' then "\\\\".toList
  else if c = '<' then "\\u003c".toList
  else if c = '>' then "\\u003e".toList
  else if c = '&' then "\\u0026".toList
  else if c = '\u2028' then "\\u2028".toList
  else if c = '\u2029' then "\\u2029".toList
  else if c.toNat < 0x20 then '\\' :: 'u' :: hexUnit c.toNat
  else [c]

def jsString (s : String) : List Char := '\x22' :: s.toList.flatMap escapeJs ++ ['\x22']

/-! ### Where a script ends -/

/-- An end tag of a script, whatever the case of its name. -/
def closes : List Char → Bool
  | '<' :: '/' :: s => (s.take 6).map Char.toLower = "script".toList
  | _ => false

/-- The text of a script element, and what is behind it. -/
def scriptText : List Char → List Char × List Char
  | [] => ([], [])
  | c :: s =>
    if closes (c :: s) then ([], c :: s)
    else (c :: (scriptText s).1, (scriptText s).2)

/-- A text without `<` is not closed before it ends. -/
theorem scriptText_append {p : List Char} (hp : '<' ∉ p) (rest : List Char) :
    scriptText (p ++ ("</script>".toList ++ rest)) = (p, "</script>".toList ++ rest) := by
  induction p with
  | nil =>
      have hcloses : closes ("</script>".toList ++ rest) = true := by
        simp only [String.reduceToList, List.cons_append, closes]
        rfl
      exact if_pos hcloses
  | cons c p ih =>
      have hc : closes (c :: (p ++ ("</script>".toList ++ rest))) = false := by
        refine closes.eq_2 _ fun s hs => ?_
        rw [(List.cons.inj hs).1] at hp
        exact hp List.mem_cons_self
      rw [List.cons_append, scriptText, hc, ih fun h => hp (List.mem_cons_of_mem _ h)]
      rfl

/-! ### The escapes -/

/-- Four digits that write the code unit of a character. -/
theorem unit_of_special {c : Char} (h : c ∈ special) :
    escapeScript c = '\\' :: 'u' :: hexUnit c.toNat ∧ c.toNat < 0xd800 := by
  simp only [special, List.mem_cons, List.not_mem_nil, or_false] at h
  rcases h with rfl | rfl | rfl | rfl | rfl <;> exact ⟨by decide, by decide⟩

theorem escapeScript_of_notMem {c : Char} (h : c ∉ special) : escapeScript c = [c] := by
  simp only [special, List.mem_cons, List.not_mem_nil, or_false, not_or] at h
  obtain ⟨hlt, hgt, hamp, hls, hps⟩ := h
  rw [escapeScript, if_neg hlt, if_neg hgt, if_neg hamp, if_neg hls, if_neg hps]

theorem hexUnit_notMem_special {c d : Char} (h : d ∈ '\\' :: 'u' :: hexUnit c.toNat)
    (hc : c.toNat < 0x10000) : d ∉ special := by
  have hdigit : ∀ n < 16, hexDigit n ∉ special := by decide
  simp only [hexUnit, List.mem_cons, List.not_mem_nil, or_false] at h
  rcases h with rfl | rfl | rfl | rfl | rfl | rfl
  · decide
  · decide
  all_goals exact hdigit _ (by omega)

theorem escapeScript_notMem_special {c d : Char} (h : d ∈ escapeScript c) : d ∉ special := by
  by_cases hc : c ∈ special
  · obtain ⟨hunit, hlt⟩ := unit_of_special hc
    rw [hunit] at h
    exact hexUnit_notMem_special h (by omega)
  · rw [escapeScript_of_notMem hc, List.mem_singleton] at h
    rwa [h]

theorem flatMap_escapeScript {t : List Char} (ht : ∀ c ∈ t, c ∉ special) :
    t.flatMap escapeScript = t := by
  induction t with
  | nil => rfl
  | cons c t ih =>
      rw [List.flatMap_cons, escapeScript_of_notMem (ht c List.mem_cons_self),
        ih fun d hd => ht d (List.mem_cons_of_mem _ hd), List.singleton_append]

/-- The escapes of JSON are not special. -/
theorem jsonEscape_notMem_special {c d : Char} (hc : c ∉ special) (h : d ∈ jsonEscape c) :
    d ∉ special := by
  rw [jsonEscape] at h
  cases he : shortEscape c with
  | some e =>
      rw [he] at h
      have hletter : e ∉ special := by
        unfold shortEscape at he
        repeat' split at he
        all_goals first
          | (cases he; decide)
          | cases he
      rcases List.mem_cons.mp h with rfl | h
      · decide
      · rwa [List.mem_singleton.mp h]
  | none =>
      rw [he] at h
      dsimp only at h
      split at h
      next hlt =>
        rw [← hexUnit_of_lt (by omega)] at h
        exact hexUnit_notMem_special h (by omega)
      next => rwa [List.mem_singleton.mp h]

/-- A character of a snapshot's string, as the payload has it. -/
def writeScript (c : Char) : List Char := (jsonEscape c).flatMap escapeScript

theorem writeScript_cases (c : Char) :
    writeScript c = '\\' :: 'u' :: hexUnit c.toNat ∧ c.toNat < 0xd800 ∨
      writeScript c = jsonEscape c := by
  by_cases hc : c ∈ special
  · obtain ⟨hunit, hlt⟩ := unit_of_special hc
    have hself : jsonEscape c = [c] := by
      simp only [special, List.mem_cons, List.not_mem_nil, or_false] at hc
      rcases hc with rfl | rfl | rfl | rfl | rfl <;> decide
    refine Or.inl ⟨?_, hlt⟩
    rw [writeScript, hself, List.flatMap_singleton, hunit]
  · exact Or.inr (flatMap_escapeScript fun d hd => jsonEscape_notMem_special hc hd)

theorem escaping_writeScript : Escaping writeScript readEscape id where
  read c rest := by
    rcases writeScript_cases c with ⟨hunit, hlt⟩ | hself
    · rw [hunit]
      exact readEscape_unit hlt rest
    · rw [hself]
      exact readEscape_jsonEscape c rest
  begins c := by
    rcases writeScript_cases c with ⟨hunit, -⟩ | hself
    · exact ⟨_, _, hunit, by decide⟩
    · rw [hself]
      exact jsonEscape_eq_cons c

theorem escapeJs_cases (c : Char) :
    (c = '\x22' ∨ c = '\\') ∧ escapeJs c = ['\\', c] ∨
      c.toNat < 0xd800 ∧ escapeJs c = '\\' :: 'u' :: hexUnit c.toNat ∨
      c ≠ '\x22' ∧ c ≠ '\\' ∧ c ∉ special ∧ ¬ c.toNat < 0x20 ∧ escapeJs c = [c] := by
  by_cases hquote : c = '\x22'
  · subst hquote
    exact Or.inl ⟨Or.inl rfl, by decide⟩
  by_cases hslash : c = '\\'
  · subst hslash
    exact Or.inl ⟨Or.inr rfl, by decide⟩
  by_cases hc : c ∈ special
  · refine Or.inr (Or.inl ⟨(unit_of_special hc).2, ?_⟩)
    simp only [special, List.mem_cons, List.not_mem_nil, or_false] at hc
    rcases hc with rfl | rfl | rfl | rfl | rfl <;> decide
  have hplain := hc
  simp only [special, List.mem_cons, List.not_mem_nil, or_false, not_or] at hplain
  obtain ⟨hlt, hgt, hamp, hls, hps⟩ := hplain
  simp only [escapeJs, if_neg hquote, if_neg hslash, if_neg hlt, if_neg hgt, if_neg hamp,
    if_neg hls, if_neg hps]
  by_cases hcontrol : c.toNat < 0x20
  · exact Or.inr (Or.inl ⟨by omega, if_pos hcontrol⟩)
  · exact Or.inr (Or.inr ⟨hquote, hslash, hc, hcontrol, if_neg hcontrol⟩)

theorem escaping_escapeJs : Escaping escapeJs readElement unitsOf where
  read c rest := by
    rcases escapeJs_cases c with ⟨hc, hself⟩ | ⟨hlt, hunit⟩ | ⟨hquote, hslash, -, hcontrol, hself⟩
    · rw [hself]
      rcases hc with rfl | rfl
      · exact readElement_self (by decide) (by decide) (by decide) (by decide) (by decide) rest
      · exact readElement_self (by decide) (by decide) (by decide) (by decide) (by decide) rest
    · rw [hunit, unitsOf, if_pos (by omega)]
      exact readElement_unit (by omega) rest
    · rw [hself]
      refine readElement_plain hslash ?_ rest
      intro h
      simp only [List.mem_cons, List.not_mem_nil, or_false] at h
      rcases h with rfl | rfl | rfl
      · exact hquote rfl
      · exact hcontrol (by decide)
      · exact hcontrol (by decide)
  begins c := by
    rcases escapeJs_cases c with ⟨-, hself⟩ | ⟨-, hunit⟩ | ⟨hquote, -, -, -, hself⟩
    · exact ⟨_, _, hself, by decide⟩
    · exact ⟨_, _, hunit, by decide⟩
    · exact ⟨_, _, hself, hquote⟩

theorem escapeJs_notMem_special {c d : Char} (h : d ∈ escapeJs c) : d ∉ special := by
  rcases escapeJs_cases c with ⟨hc, hself⟩ | ⟨hlt, hunit⟩ | ⟨-, -, hc, -, hself⟩
  · rw [hself] at h
    rcases hc with rfl | rfl
    · exact forall_mem_of_all (p := (· ∉ special)) (by decide) d h
    · exact forall_mem_of_all (p := (· ∉ special)) (by decide) d h
  · rw [hunit] at h
    exact hexUnit_notMem_special h (by omega)
  · rw [hself] at h
    rwa [List.mem_singleton.mp h]

/-! ### Reading the page -/

section
variable {readNumber : List Char → Option Number} {ryu : Float → String}

/-- `JSON.parse` of a payload, as a tree. -/
def parsePayload (readNumber : List Char → Option Number) (t : List Char) : Option Node :=
  (readWith readEscape t).bind fun v => Node.ofJson (Json.ofValue readNumber v)

theorem escapeScript_outside {c : Char} (h : outside c = true) : escapeScript c = [c] := by
  refine escapeScript_of_notMem fun hc => ?_
  simp only [special, List.mem_cons, List.not_mem_nil, or_false] at hc
  rcases hc with rfl | rfl | rfl | rfl | rfl <;> revert h <;> decide

theorem payload_eq (hryu : ∀ f, Numeral (ryu f).toList) (state : Node) :
    payload ryu state = renderWith writeScript (state.forget.ordered ryu) := by
  have hnumerals := numerals_ordered hryu state.forget
  have hescape : ∀ c, outside c = true → escapeScript c = [c] := fun c h => escapeScript_outside h
  rw [payload, Node.text_forget, text_eq_render, render_eq,
    flatMap_renderWith hescape hnumerals]
  rfl

theorem payload_notMem_special {state : Node} {c : Char} (h : c ∈ payload ryu state) :
    c ∉ special := by
  obtain ⟨d, -, hd⟩ := List.mem_flatMap.mp h
  exact escapeScript_notMem_special hd

/-- A payload is JSON, and its value the snapshot's. -/
theorem readWith_payload (hryu : ∀ f, Numeral (ryu f).toList) (state : Node) :
    readWith readEscape (payload ryu state) = some (state.forget.ordered ryu) := by
  rw [payload_eq hryu, readWith_renderWith escaping_writeScript
    (numerals_ordered hryu state.forget)]

/-- A payload is read back to the snapshot's values. -/
theorem parsePayload_payload (hryu : ∀ f, Numeral (ryu f).toList) {state : Node}
    (hmaps : state.Maps) (hread : state.NumbersRead readNumber ryu) :
    (parsePayload readNumber (payload ryu state)).map Node.forget = some state.forget := by
  rw [parsePayload, readWith_payload hryu, Option.bind_some,
    ofJson_ordered (Node.numbersRead_forget hread), Option.map_some,
    Node.forget_reread hmaps]

theorem jsString_eq (s : String) : jsString s = quotedWith escapeJs s.toList := rfl

theorem jsString_notMem_special {s : String} {c : Char} (h : c ∈ jsString s) : c ∉ special := by
  rw [jsString, List.mem_append, List.mem_cons, List.mem_singleton, List.mem_flatMap] at h
  rcases h with (rfl | ⟨d, -, hd⟩) | rfl
  · decide
  · exact escapeJs_notMem_special hd
  · decide

/-- The snapshots of a store, by their names. -/
def snapshots : Node → List (String × Node)
  | .map m _ => m
  | _ => []

theorem storeScriptsInto_eq (out : List Char) (store : Node) :
    storeScriptsInto ryu out store =
      out ++ ((snapshots store).filter fun e => cleanName e.1 ≠ []).flatMap fun e =>
        openTag (cleanName e.1) ++ (payload ryu e.2 ++ "</script>".toList) := by
  cases store with
  | map m order =>
      refine congrArg (out ++ ·) ?_
      induction m with
      | nil => rfl
      | cons e m ih =>
          rw [List.flatMap_cons, ih, storeScript, snapshots, snapshots, List.filter_cons]
          by_cases hname : cleanName e.1 = []
          · simp [hname]
          · simp [hname]
  | _ => exact (List.append_nil out).symm

theorem maps_of_mem {store : Node} (hmaps : store.Maps) {e : String × Node}
    (he : e ∈ snapshots store) : e.2.Maps := by
  cases store with
  | map m order => exact Node.entryMaps_iff.mp hmaps.2 e he
  | _ => cases he

/-- **Store scripts are inert and faithful.**  The page gets one script for each snapshot with a
name: in its payload is nothing that HTML reads, so the element's text is the payload.  Parsed it is
the snapshot but for the order of keys, with its numbers as they are written; and with its numbers,
where a reader reads each of them back.  A string literal has nothing that HTML reads either, and is
the string. -/
theorem store_scripts_inert (ryu : Float → String) (hryu : ∀ f, Numeral (ryu f).toList)
    (store : Node) (hmaps : store.Maps) :
    (∀ out, storeScriptsInto ryu out store =
      out ++ ((snapshots store).filter fun e => cleanName e.1 ≠ []).flatMap fun e =>
        openTag (cleanName e.1) ++ (payload ryu e.2 ++ "</script>".toList)) ∧
    (∀ e ∈ snapshots store, (∀ c ∈ cleanName e.1, nameChar c = true) ∧
      (∀ c ∈ payload ryu e.2, c ∉ special) ∧
      (∀ rest, scriptText (payload ryu e.2 ++ ("</script>".toList ++ rest)) =
        (payload ryu e.2, "</script>".toList ++ rest)) ∧
      readWith readEscape (payload ryu e.2) = some (e.2.forget.ordered ryu) ∧
      ∀ readNumber : List Char → Option Number, e.2.NumbersRead readNumber ryu →
        (parsePayload readNumber (payload ryu e.2)).map Node.forget = some e.2.forget) ∧
    ∀ s, (∀ c ∈ jsString s, c ∉ special) ∧
      ∀ rest, readLiteral (jsString s ++ rest) = some (codeUnits s, rest) := by
  refine ⟨fun out => storeScriptsInto_eq out store, fun e he => ?_, fun s => ?_⟩
  · have hplain : '<' ∉ payload ryu e.2 := fun h => payload_notMem_special h (by decide)
    exact ⟨fun c hc => (List.mem_filter.mp hc).2, fun c hc => payload_notMem_special hc,
      scriptText_append hplain, readWith_payload hryu e.2,
      fun _ hnumbers => parsePayload_payload hryu (maps_of_mem hmaps he) hnumbers⟩
  · refine ⟨fun c hc => jsString_notMem_special hc, fun rest => ?_⟩
    rw [jsString_eq, readLiteral_quoted escaping_escapeJs, codeUnits_eq]

/-- A whole number below `2 ^ 54` as `JSON.parse` reads its digits: the double next to it, between
two the even one. -/
def readDouble (t : List Char) : Option Number :=
  let n := t.foldl (fun n c => 10 * n + (c.toNat - 0x30)) 0
  some (.posInt (UInt64.ofNat (if 2 ^ 53 < n ∧ n % 2 = 1 then 2 * (n / 2 + n / 2 % 2) else n)))

def cartState : Node := .map [("a&b", .str "</script>\u2028"), ("n", .num (.posInt 3))] none

def cart : Node := .map [("cart<", cartState)] none

theorem numeral_zero : Numeral "0".toList := ⟨by decide, List.all_eq_true.mp (by decide)⟩

theorem store_scripts_inert_cart :
    storeScriptsInto (fun _ => "0") [] cart = openTag "cart".toList ++
      ("\x7b\"a\\u0026b\":\"\\u003c/script\\u003e\\u2028\",\"n\":3\x7d".toList ++
        "</script>".toList) ∧
    (parsePayload readDouble (payload (fun _ => "0") cartState)).map Node.forget =
      some cartState.forget := by
  have hmaps : cart.Maps := by
    refine ⟨List.pairwise_singleton _ _, ⟨?_, trivial, trivial, trivial⟩, trivial⟩
    rw [Sorted]
    decide
  have hread : cartState.NumbersRead readDouble (fun _ => "0") := ⟨trivial, by rfl, trivial⟩
  obtain ⟨hall, hstates, -⟩ := store_scripts_inert (fun _ => "0") (fun _ => numeral_zero) cart hmaps
  refine ⟨(hall []).trans ?_, (hstates _ List.mem_cons_self).2.2.2.2 _ hread⟩
  decide

/-- A snapshot that is one past the whole numbers that doubles have all of. -/
def beyond : Node := .num (.posInt 9007199254740993)

/-- **A number that no double has is parsed as another.** -/
theorem store_scripts_rounded : beyond.Maps ∧
    (parsePayload readDouble (payload (fun _ => "0") beyond)).map Node.forget =
      some (.num (.posInt 9007199254740992)) ∧
    (parsePayload readDouble (payload (fun _ => "0") beyond)).map Node.forget ≠
      some beyond.forget := by
  have hread : (parsePayload readDouble (payload (fun _ => "0") beyond)).map Node.forget =
      some (.num (.posInt 9007199254740992)) := by
    rw [parsePayload, readWith_payload fun _ => numeral_zero]
    rfl
  refine ⟨trivial, hread, fun h => ?_⟩
  rw [hread] at h
  cases h

end

end Brust.Core
