import Brust.Nav.Render
import Mathlib.Data.List.Infix

/-!
# Nav — Swapping the body

`swapBody` puts a fetched document's body in place of the shown one: the level that changed and the
body-end assets, or the whole body.  `swapBody_shows_whole`: between server renders the first leaves
the node list that the second does.
-/

namespace Brust.Nav

def Node.isNavTag : Node → Bool
  | .element n a _ => navTag n a
  | _ => false

/-- The body's nodes before its nav tag. -/
def Document.main (doc : Document) : List Node := doc.body.takeWhile fun n => !n.isNavTag

/-- The body-end assets: the nav tag among the body's children and every node after it. -/
def tail (doc : Document) : Option (List Node) :=
  match doc.body.dropWhile fun n => !n.isNavTag with
  | [] => none
  | assets => some assets

/-! ### Persisted elements -/

/-- `[data-brust-persist]` -/
def persisted (_nodeName : String) (attrs : List (String × String)) : Bool :=
  (attrs.lookup "data-brust-persist").isSome

mutual

def Node.keepLive (live : List (String × Node)) : Node → Node
  | .text d => .text d
  | .comment d => .comment d
  | .element n a cs =>
    match (a.lookup "data-brust-persist").bind (live.lookup ·) with
    | some el => el
    | none => .element n a (keepLive live cs)

/-- Every element with a live one's key is replaced by it. -/
def keepLive (live : List (String × Node)) : List Node → List Node
  | [] => []
  | n :: ns => n.keepLive live :: keepLive live ns

end

/-- The live elements of `old` by their keys, of one key the last one; the inserted elements they
stand for are replaced (exact where no persisted element holds another). -/
def persist (old next : List Node) : List Node :=
  let live := (all persisted old).reverse.filterMap fun el =>
    (el.getAttribute "data-brust-persist").map (·, el)
  keepLive live next

/-! ### Scripts and attributes -/

def script (nodeName : String) (_attrs : List (String × String)) : Bool :=
  nodeName ∈ ["SCRIPT", "script"]

def isClassic (el : Node) : Bool :=
  let type := ((el.getAttribute "type").getD "").toLower.toList
  type.isEmpty || "java".toList <:+: type || "ecma".toList <:+: type

/-- The classic scripts among some nodes and under them, in document order. -/
def classicScripts (nodes : List Node) : List Node := (all script nodes).filter isClassic

def setAttribute (attrs : List (String × String)) (a : String × String) : List (String × String) :=
  if (attrs.lookup a.1).isSome then attrs.map fun b => if b.1 = a.1 then a else b else attrs ++ [a]

def copyAttrs (target source : List (String × String)) (keep : Option String) :
    List (String × String) :=
  source.foldl setAttribute
    (target.filter fun a => some a.1 = keep || (source.lookup a.1).isSome)

/-! ### The swap -/

/-- `chain![i]!` -/
def levelAt (chain : Option (List Level)) (i : ℕ) : Level :=
  (chain.bind (·[i]?)).getD ⟨"", none, none⟩

/-- The nodes from a level's opening comment to its closing one make room for `next`. -/
def replaceRange (l : Level) (next ns : List Node) : List Node :=
  match l.openAt, l.closeAt with
  | some o, some c =>
    let cs := childrenAt o.parent ns
    setChildren (cs.take o.index ++ next ++ cs.drop (c.index + 1)) o.parent ns
  | _, _ => ns

/-- The document after the swap, the classic scripts of the new nodes, and whether the whole body
was swapped.  `loading` is the attribute of `<html>` that stays. -/
def swapBody (document doc : Document) (loading : String) : Document × List Node × Bool :=
  let a := readChain document
  let b := readChain doc
  match swapLevel document doc a b, tail document, tail doc with
  | i + 1, some _, some tb =>
    let old := between document (levelAt a (i + 1))
    let next := between doc (levelAt b (i + 1))
    let body := replaceRange (levelAt a (i + 1)) (persist old next) document.main ++ tb
    ({ document with body }, classicScripts (next ++ tb), false)
  | _, _, _ =>
    ({ document with
        htmlAttrs := copyAttrs document.htmlAttrs doc.htmlAttrs (some loading)
        bodyAttrs := copyAttrs document.bodyAttrs doc.bodyAttrs none
        body := persist document.body doc.body },
      classicScripts doc.body, true)

/-! ### Without persisted elements -/

mutual

theorem Node.keepLive_nil : ∀ n : Node, n.keepLive [] = n
  | .text d => rfl
  | .comment d => rfl
  | .element n a cs => by
      have hnone : (a.lookup "data-brust-persist").bind
          (fun k => ([] : List (String × Node)).lookup k) = none := by
        cases a.lookup "data-brust-persist" <;> rfl
      rw [Node.keepLive, hnone, keepLive_nil cs]

theorem keepLive_nil : ∀ ns : List Node, keepLive [] ns = ns
  | [] => rfl
  | n :: ns => by rw [keepLive, n.keepLive_nil, keepLive_nil ns]

end

theorem persist_eq {old : List Node} (h : all persisted old = []) (next : List Node) :
    persist old next = next := by
  simp [persist, h, keepLive_nil]

section All

variable {sel : String → List (String × String) → Bool} {ns : List Node}

theorem all_append (xs ys : List Node) : all sel (xs ++ ys) = all sel xs ++ all sel ys := by
  induction xs with
  | nil => rfl
  | cons x xs ih => rw [List.cons_append, all, ih, all, List.append_assoc]

theorem all_sublist_eq_nil {xs : List Node} (hs : xs.Sublist ns) (h : all sel ns = []) :
    all sel xs = [] := by
  induction hs with
  | slnil => rfl
  | cons x _ ih => exact ih (List.append_eq_nil_iff.mp h).2
  | cons_cons x _ ih =>
      have := List.append_eq_nil_iff.mp h
      rw [all, this.1, ih this.2]
      rfl

theorem all_childrenAt_eq_nil (q : List ℕ) (h : all sel ns = []) :
    all sel (childrenAt q ns) = [] := by
  induction q generalizing ns with
  | nil => exact h
  | cons i q ih =>
      rw [childrenAt]
      split
      case h_1 n a cs hi =>
        rw [eq_take_cons_drop hi, all_append, all] at h
        have hel := (List.append_eq_nil_iff.mp (List.append_eq_nil_iff.mp h).2).1
        rw [Node.all] at hel
        exact ih (List.append_eq_nil_iff.mp hel).2
      case h_2 => rfl

theorem all_between_eq_nil {doc : Document} (h : all sel doc.body = []) (l : Level) :
    all sel (between doc l) = [] := by
  rw [between]
  split
  case h_1 o c _ _ =>
    have hcs := all_childrenAt_eq_nil o.parent h
    dsimp only
    split
    · exact all_sublist_eq_nil ((List.take_sublist _ _).trans (List.drop_sublist _ _)) hcs
    · exact all_sublist_eq_nil (List.drop_sublist _ _) hcs
  case h_2 => rfl

end All

/-! ### Between server renders -/

/-- A document the server rendered: the body's nodes before its nav tag are the render, the root is
its outermost level, and the assets hold no marks. -/
structure Rendered (doc : Document) (r : Render) : Prop where
  marked : r.Marked
  root : doc.root = some r.key
  main : tokens doc.main = r.tokens
  assets : ∀ ts, tail doc = some ts → marksIn (tokens ts) = []

/-- Equal keys mean equal markup around the child hole: wherever a level's pair is usable in both
documents, levels above it that have one key have one shell. -/
def SameShells (docA docB : Document) (ra rb : Render) : Prop :=
  ∀ as bs i, readChain docA = some as → readChain docB = some bs →
    usableAt docA as i → usableAt docB bs i →
    ra.keys.take i = rb.keys.take i → ra.shells.take i = rb.shells.take i

theorem body_eq {doc : Document} {ts : List Node} (h : tail doc = some ts) :
    doc.body = doc.main ++ ts := by
  rw [tail] at h
  split at h
  case h_1 => cases h
  case h_2 assets _ =>
    obtain rfl := Option.some.inj h
    exact (List.takeWhile_append_dropWhile (p := fun n : Node => !n.isNavTag)).symm

theorem readFrom_congr {root : Level} {w w' : List (Spot × String)} (h : marks w = marks w')
    (ls : List Level) : readFrom [root] [] w = some ls ↔ readFrom [root] [] w' = some ls := by
  rw [readFrom_eq_some, readFrom_eq_some, h]

section Level

variable {doc : Document} {r : Render} {ts : List Node} {ls : List Level} {i : ℕ}

/-- The chain that the whole body has is the chain of the nodes before the assets. -/
theorem Rendered.readFrom_main (h : Rendered doc r) (hts : tail doc = some ts)
    (hc : readChain doc = some ls) :
    readFrom [⟨r.key, none, none⟩] [] (walk [] 0 doc.body) = some ls ∧
      readFrom [⟨r.key, none, none⟩] [] (walk [] 0 doc.main) = some ls := by
  rw [readChain, h.root] at hc
  refine ⟨hc, (readFrom_congr ?_ ls).mp hc⟩
  have hnil : marks (walk [] (0 + doc.main.length) ts) = [] := by
    rw [← List.map_eq_nil_iff (f := Prod.snd), marks_walk]
    exact h.assets ts hts
  rw [body_eq hts, walk_append, marks_append, hnil, List.append_nil]

theorem Rendered.tokens_body (h : Rendered doc r) (hts : tail doc = some ts) :
    tokens doc.body = r.tokens ++ tokens ts := by
  rw [body_eq hts, tokens_append, h.main]

/-- The keys of the chain are the render's. -/
theorem Rendered.keys (h : Rendered doc r) (hts : tail doc = some ts)
    (hc : readChain doc = some ls) : ls.map Level.key = r.keys := by
  obtain ⟨ks, cs, hm, hf, rfl⟩ := (readFrom_eq_some ls).mp (h.readFrom_main hts hc).2
  obtain ⟨ids, -, hr⟩ := Render.marksIn_tokens h.marked
  have hmarks : marksIn r.tokens =
      (ks.map Prod.snd).map .opening ++ (cs.map Prod.snd).map .closing := by
    rw [marksIn, ← h.main, ← marks_walk [] 0, hm]
    simp [opensOf, closesOf, Function.comp_def]
  have hkeys : r.keys.tail = ks.map Prod.snd := by
    rw [← filterMap_key?_marks r.keys.tail ids, ← hr, hmarks, filterMap_key?_marks]
  rw [List.map_cons, List.map_reverse, map_key_closed hf, ← List.map_reverse, List.reverse_reverse,
    ← hkeys, ← r.keys_eq]

/-- A usable level of the chain, and what its range leaves around it. -/
theorem Rendered.replaceRange_main (h : Rendered doc r) (hts : tail doc = some ts)
    (hc : readChain doc = some ls) {l : Level} (hl : ls[i + 1]? = some l)
    (hu : usable doc l = true) (next : List Node) :
    i < r.depth ∧ tokens (replaceRange l next doc.main) =
      (r.around i).1 ++ (tokens next ++ (r.around i).2) := by
  obtain ⟨o, c, id, n, ho, hc', hmo, hmc, hn, hin⟩ :=
    readFrom_level (h.readFrom_main hts hc).2 hl
  rw [usable, ho, hc'] at hu
  have hp : o.parent = c.parent := by simpa using (Bool.and_eq_true_iff.mp hu).1
  have hmain : tokens doc.main = r.tokens ++ [] := by rw [h.main, List.append_nil]
  obtain ⟨hi, hup, hpast⟩ := range_around h.marked hmain rfl hmo hmc hn hin
  refine ⟨hi, ?_⟩
  simp only [replaceRange, ho, hc']
  rw [tokens_replaceRange hmo hp, hup, hpast, List.append_nil]

theorem Rendered.tokens_between (h : Rendered doc r) (hts : tail doc = some ts)
    (hc : readChain doc = some ls) {l : Level} (hl : ls[i + 1]? = some l)
    (hu : usable doc l = true) :
    i < r.depth ∧ tokens doc.body =
      (r.around i).1 ++ (tokens (between doc l) ++ ((r.around i).2 ++ tokens ts)) := by
  obtain ⟨o, c, id, n, ho, hc', hmo, hmc, hn, hin⟩ :=
    readFrom_level (h.readFrom_main hts hc).1 hl
  rw [usable, ho, hc'] at hu
  have hp : o.parent = c.parent := by simpa using (Bool.and_eq_true_iff.mp hu).1
  have hlt := hmo.index_lt hmc hin hp
  obtain ⟨hi, hup, hpast⟩ :=
    range_around h.marked (h.tokens_body hts) (h.assets ts hts) hmo hmc hn hin
  refine ⟨hi, ?_⟩
  simp only [between, ho, hc', hp, hlt.le, and_self, if_true]
  rw [tokens_range hmo hp hlt, hup, hpast, hp]

end Level

theorem usableAt_iff {doc : Document} {ls : List Level} {i : ℕ} :
    usableAt doc ls i = true ↔ ∃ l, ls[i]? = some l ∧ usable doc l = true := by
  rw [usableAt]
  cases ls[i]? with
  | none => simp
  | some l => simp

/-- The level that `swapBody` replaces, with the level's shells in both renders the same. -/
theorem around_eq {docA docB : Document} {ra rb : Render} {ta tb : List Node} {as bs : List Level}
    {i : ℕ} (hA : Rendered docA ra) (hB : Rendered docB rb) (hS : SameShells docA docB ra rb)
    (hta : tail docA = some ta) (htb : tail docB = some tb) (ha : readChain docA = some as)
    (hb : readChain docB = some bs) (hua : usableAt docA as (i + 1) = true)
    (hub : usableAt docB bs (i + 1) = true) (hk : ∀ k, k < i + 1 → sameKey as bs k = true)
    (hia : i < ra.depth) (hib : i < rb.depth) : ra.around i = rb.around i := by
  have hkeys : ra.keys.take (i + 1) = rb.keys.take (i + 1) := by
    rw [← hA.keys hta ha, ← hB.keys htb hb]
    refine List.ext_getElem? fun k => ?_
    rw [List.getElem?_take, List.getElem?_take, List.getElem?_map, List.getElem?_map]
    split
    case isTrue hlt => simpa [sameKey] using hk k hlt
    case isFalse => rfl
  exact Render.around_congr hA.marked hB.marked hia hib hkeys
    (hS as bs (i + 1) ha hb hua hub hkeys)

/-- Both ways of the swap leave the new document's node list.  A document whose chain is not read,
as where the parser moved a level out of its pair, need not be a render: its body goes whole. -/
theorem swapBody_body {docA docB : Document} {ra rb : Render}
    (hA : (readChain docA).isSome → Rendered docA ra)
    (hB : (readChain docB).isSome → Rendered docB rb) (hS : SameShells docA docB ra rb)
    (hP : all persisted docA.body = []) (loading : String) :
    (swapBody docA docB loading).1.body = docB.body := by
  rw [swapBody]
  dsimp only
  split
  case h_2 => exact persist_eq hP _
  case h_1 i ta tb hlevel hta htb =>
    obtain ⟨as, bs, ha, hb, hua, hub, hk⟩ := swapLevel_spec hlevel (Nat.succ_ne_zero i)
    replace hA := hA (by rw [ha]; rfl)
    replace hB := hB (by rw [hb]; rfl)
    obtain ⟨la, hla, hla'⟩ := usableAt_iff.mp hua
    obtain ⟨lb, hlb, hlb'⟩ := usableAt_iff.mp hub
    have hatA : levelAt (readChain docA) (i + 1) = la := by
      rw [levelAt, ha, Option.bind_some, hla]
      rfl
    have hatB : levelAt (readChain docB) (i + 1) = lb := by
      rw [levelAt, hb, Option.bind_some, hlb]
      rfl
    rw [hatA, hatB, persist_eq (all_between_eq_nil hP la)]
    obtain ⟨hia, hmain⟩ := hA.replaceRange_main hta ha hla hla' (between docB lb)
    obtain ⟨hib, hbody⟩ := hB.tokens_between htb hb hlb hlb'
    have haround := around_eq hA hB hS hta htb ha hb hua hub hk hia hib
    refine tokens_injective ?_
    rw [tokens_append, hmain, hbody, haround]
    simp

/-- **A partial swap shows what a whole swap shows**, and a chain is read exactly where the marks
are one line of nested, matching pairs. -/
theorem swapBody_shows_whole {docA docB : Document} {ra rb : Render}
    (hA : (readChain docA).isSome → Rendered docA ra)
    (hB : (readChain docB).isSome → Rendered docB rb) (hS : SameShells docA docB ra rb)
    (hattrs : docA.bodyAttrs = docB.bodyAttrs) (hP : all persisted docA.body = [])
    (loading : String) :
    (swapBody docA docB loading).1.body = docB.body ∧
      ((swapBody docA docB loading).2.2 = false →
        (swapBody docA docB loading).1.bodyAttrs = docB.bodyAttrs) ∧
      ∀ doc, (readChain doc).isSome ↔ doc.root.isSome ∧ Line doc.marks := by
  refine ⟨swapBody_body hA hB hS hP loading, fun hpart => ?_, readChain_isSome⟩
  rw [swapBody] at hpart ⊢
  dsimp only at hpart ⊢
  split
  case h_1 => exact hattrs
  case h_2 hno =>
    split at hpart
    case h_1 i ta tb h₁ h₂ h₃ => exact absurd h₃ (hno i ta tb h₁ h₂)
    case h_2 => cases hpart

/-- The shell of `site`, with one inner level in it. -/
def sitePage (id hash text : String) : Document where
  head := []
  body := [.element "MAIN" [] [.comment ("brust-l:" ++ (id ++ ":" ++ hash)), .text text,
      .comment ("/brust-l:" ++ id)],
    .element "SCRIPT" [("data-brust-nav", ""), ("data-brust-root", "site:0")] []]
  htmlAttrs := []
  bodyAttrs := []

def siteRender (id hash text : String) : Render :=
  .layout "site" "0" [.start "MAIN" []] (.page id hash [.text text]) [.stop]

theorem sitePage_rendered (id hash text : String) (h : ':' ∉ hash.toList) :
    Rendered (sitePage id hash text) (siteRender id hash text) where
  marked := ⟨by decide, rfl, rfl, h, rfl⟩
  root := rfl
  main := rfl
  assets := by
    intro ts hts
    cases hts
    rfl

theorem swapBody_shows_whole_site :
    (swapBody (sitePage "a" "1" "x") (sitePage "b" "2" "y") "load").2.2 = false ∧
      (swapBody (sitePage "a" "1" "x") (sitePage "b" "2" "y") "load").1.body =
        (sitePage "b" "2" "y").body := by
  refine ⟨by decide +kernel, (swapBody_shows_whole
    (fun _ => sitePage_rendered "a" "1" "x" (by decide))
    (fun _ => sitePage_rendered "b" "2" "y" (by decide)) ?_ rfl rfl "load").1⟩
  exact fun _ _ _ _ _ _ _ _ => rfl

end Brust.Nav
