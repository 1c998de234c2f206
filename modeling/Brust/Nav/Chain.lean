import Brust.Nav.Dom
import Mathlib.Data.List.Forall2

/-!
# Nav — The layout chain of a document

The levels of a page as its comments mark them, outermost first: the root from the nav tag, then a
pair of comments for every inner level.  `readFrom_eq_some` says which comment lists are a chain
and where each level's two comments stand; `readChain_isSome` is that for a document, and
`swapLevel_spec` what the level to replace has in both documents.
-/

namespace Brust.Nav

/-! ### Documents -/

structure Document where
  head : List Node
  body : List Node
  htmlAttrs : List (String × String)
  bodyAttrs : List (String × String)

mutual

def Node.all (sel : String → List (String × String) → Bool) : Node → List Node
  | .text _ => []
  | .comment _ => []
  | .element n a cs => (if sel n a then [.element n a cs] else []) ++ all sel cs

/-- The elements of a list and under it that a selector matches, in document order. -/
def all (sel : String → List (String × String) → Bool) : List Node → List Node
  | [] => []
  | n :: ns => n.all sel ++ all sel ns

end

/-- `script[data-brust-nav]` -/
def navTag (nodeName : String) (attrs : List (String × String)) : Bool :=
  nodeName ∈ ["SCRIPT", "script"] && (attrs.lookup "data-brust-nav").isSome

def Node.getAttribute (name : String) : Node → Option String
  | .element _ a _ => a.lookup name
  | _ => none

/-- `data-brust-root` of the document's first nav tag, when it says anything. -/
def Document.root (doc : Document) : Option String :=
  let tag := (all navTag (doc.head ++ doc.body)).head?
  (tag.bind (·.getAttribute "data-brust-root")).filter (· ≠ "")

/-! ### The marks -/

/-- What follows `p` in a string that starts with it. -/
def afterStart (p v : String) : Option String :=
  if p.toList <+: v.toList then some (String.ofList (v.toList.drop p.length)) else none

inductive Mark where
  | opening (key : String)
  | closing (id : String)

def Mark.key? : Mark → Option String
  | .opening key => some key
  | .closing _ => none

/-- What a comment marks. -/
def mark (v : String) : Option Mark :=
  match afterStart "brust-l:" v with
  | some key => some (.opening key)
  | none => (afterStart "/brust-l:" v).map .closing

/-- `key.slice(0, key.lastIndexOf(':'))`.  Without a colon that is all but the last UTF-16 unit:
half of a character past `0xffff` makes no string that a comment could hold. -/
def idOf (key : String) : Option String :=
  match key.toList.reverse.dropWhile (· ≠ ':') with
  | _ :: id => some (String.ofList id.reverse)
  | [] =>
    match key.toList.reverse with
    | [] => some ""
    | c :: id => if c.toNat < 0x10000 then some (String.ofList id.reverse) else none

/-! ### Reading the chain -/

/-- One level: an inner level has its two comments. -/
structure Level where
  key : String
  openAt : Option Spot
  closeAt : Option Spot
deriving DecidableEq

/-- The walk over the body's comments: the levels so far and the open ones, the deepest first, by
their place in `out`. -/
def readFrom (out : List Level) (opened : List ℕ) : List (Spot × String) → Option (List Level)
  | [] => if opened = [] then some out else none
  | (n, v) :: w =>
    match mark v with
    | some (.opening key) =>
      -- a level opens inside the deepest open one, never beside a closed one
      if opened.length ≠ out.length - 1 then none
      else readFrom (out ++ [⟨key, some n, none⟩]) (out.length :: opened) w
    | some (.closing id) =>
      match opened with
      | [] => none
      | l :: opened =>
        match out[l]? with
        | none => none
        | some lv =>
          if idOf lv.key ≠ some id then none
          else readFrom (out.set l { lv with closeAt := some n }) opened w
    | none => readFrom out opened w

def readChain (doc : Document) : Option (List Level) :=
  match doc.root with
  | none => none
  | some root => readFrom [⟨root, none, none⟩] [] (walk [] 0 doc.body)

def tableSections : List String := ["TABLE", "TBODY", "THEAD", "TFOOT", "TR"]

/-- A pair is a range only when its comments are siblings, outside a table section. -/
def usable (doc : Document) (l : Level) : Bool :=
  match l.openAt, l.closeAt with
  | some o, some c =>
    o.parent = c.parent && nodeNameAt "BODY" o.parent doc.body ∉ tableSections
  | _, _ => false

def sameKey (a b : List Level) (i : ℕ) : Bool := (a[i]?.map Level.key) = (b[i]?.map Level.key)

/-- `while (i < leaf && a[i].key === b[i].key) i++`, `n` levels below the leaf. -/
def firstChange (a b : List Level) : ℕ → ℕ → ℕ
  | 0, i => i
  | n + 1, i => if sameKey a b i then firstChange a b n (i + 1) else i

/-- `while (i && !(usable(a[i]) && usable(b[i]))) i--` -/
def moveUp (ok : ℕ → Bool) : ℕ → ℕ
  | 0 => 0
  | i + 1 => if ok (i + 1) then i + 1 else moveUp ok i

def usableAt (doc : Document) (chain : List Level) (i : ℕ) : Bool :=
  match chain[i]? with
  | some l => usable doc l
  | none => false

/-- The level to replace between two documents: `0` is the whole body. -/
def swapLevel (docA docB : Document) : Option (List Level) → Option (List Level) → ℕ
  | some a, some b =>
    if !sameKey a b 0 then 0
    else
      let leaf := min a.length b.length - 1
      let i := firstChange a b (leaf - 1) 1
      if i > leaf then 0
      else moveUp (fun i => usableAt docA a i && usableAt docB b i) i
  | _, _ => 0

/-- The nodes of a level's range, both comments included: from its opening comment to its closing
one, to the last sibling where that is none of them. -/
def between (doc : Document) (l : Level) : List Node :=
  match l.openAt, l.closeAt with
  | some o, some c =>
    let cs := childrenAt o.parent doc.body
    if o.parent = c.parent ∧ o.index ≤ c.index then
      (cs.drop o.index).take (c.index + 1 - o.index)
    else cs.drop o.index
  | _, _ => []

/-! ### The level to replace -/

theorem firstChange_spec (a b : List Level) (n i : ℕ) :
    firstChange a b n i ≤ i + n ∧ ∀ k, i ≤ k → k < firstChange a b n i → sameKey a b k = true := by
  induction n generalizing i with
  | zero => exact ⟨le_rfl, fun k h₁ h₂ => absurd h₁ (Nat.not_le_of_lt h₂)⟩
  | succ n ih =>
      rw [firstChange]
      split
      case isTrue h =>
        obtain ⟨hle, hk⟩ := ih (i + 1)
        refine ⟨by omega, fun k h₁ h₂ => ?_⟩
        rcases Nat.eq_or_lt_of_le h₁ with rfl | h₁
        · exact h
        · exact hk k h₁ h₂
      case isFalse h =>
        exact ⟨Nat.le_add_right _ _, fun k h₁ h₂ => absurd h₁ (Nat.not_le_of_lt h₂)⟩

theorem moveUp_spec (ok : ℕ → Bool) (i : ℕ) :
    moveUp ok i ≤ i ∧ (moveUp ok i ≠ 0 → ok (moveUp ok i) = true) := by
  induction i with
  | zero => exact ⟨le_rfl, fun h => absurd rfl h⟩
  | succ i ih =>
      rw [moveUp]
      split
      case isTrue h => exact ⟨le_rfl, fun _ => h⟩
      case isFalse h => exact ⟨ih.1.trans (Nat.le_succ i), ih.2⟩

/-- A level that is replaced has a usable pair in both documents, and every level above it has one
key in both. -/
theorem swapLevel_spec {docA docB : Document} {a b : Option (List Level)} {i : ℕ}
    (h : swapLevel docA docB a b = i) (hi : i ≠ 0) :
    ∃ as bs, a = some as ∧ b = some bs ∧ usableAt docA as i = true ∧ usableAt docB bs i = true ∧
      ∀ k, k < i → sameKey as bs k = true := by
  subst h
  match a, b, hi with
  | none, _, hi => exact absurd rfl hi
  | some as, none, hi => exact absurd rfl hi
  | some as, some bs, hi =>
      refine ⟨as, bs, rfl, rfl, ?_⟩
      rw [swapLevel] at hi ⊢
      split at hi
      case isTrue => exact absurd rfl hi
      case isFalse hroot =>
        rw [if_neg hroot]
        set leaf := min as.length bs.length - 1
        obtain ⟨-, hk⟩ := firstChange_spec as bs (leaf - 1) 1
        dsimp only at hi ⊢
        split at hi
        case isTrue => exact absurd rfl hi
        case isFalse hleaf =>
          rw [if_neg hleaf]
          obtain ⟨hle, hok⟩ := moveUp_spec (fun i => usableAt docA as i && usableAt docB bs i)
            (firstChange as bs (leaf - 1) 1)
          have hboth := hok hi
          rw [Bool.and_eq_true] at hboth
          refine ⟨hboth.1, hboth.2, fun k hlt => ?_⟩
          rcases Nat.eq_zero_or_pos k with rfl | hpos
          · simpa using hroot
          · exact hk k hpos (Nat.lt_of_lt_of_le hlt hle)

/-! ### What a chain is -/

/-- The marks of a walk, with where they stand. -/
def marks (w : List (Spot × String)) : List (Spot × Mark) :=
  w.filterMap fun c => (mark c.2).map (c.1, ·)

@[simp] theorem marks_nil : marks [] = [] := rfl

theorem marks_cons_some {n : Spot} {v : String} {m : Mark} {w : List (Spot × String)}
    (h : mark v = some m) : marks ((n, v) :: w) = (n, m) :: marks w := by
  rw [marks, List.filterMap_cons_some (by rw [h]; rfl)]
  rfl

theorem marks_cons_none {n : Spot} {v : String} {w : List (Spot × String)} (h : mark v = none) :
    marks ((n, v) :: w) = marks w := by
  rw [marks, List.filterMap_cons_none (by rw [h]; rfl)]
  rfl

theorem marks_append (w₁ w₂ : List (Spot × String)) : marks (w₁ ++ w₂) = marks w₁ ++ marks w₂ :=
  List.filterMap_append

def opensOf (ks : List (Spot × String)) : List (Spot × Mark) := ks.map fun k => (k.1, .opening k.2)

def closesOf (cs : List (Spot × String)) : List (Spot × Mark) := cs.map fun c => (c.1, .closing c.2)

/-- A closing mark names the level its opening mark opened. -/
def Closes (k c : Spot × String) : Prop := idOf k.2 = some c.2

def unclosed (k : Spot × String) : Level := ⟨k.2, some k.1, none⟩

def closed (k c : Spot × String) : Level := ⟨k.2, some k.1, some c.1⟩

/-- The places of `n` open levels, the deepest first. -/
def down : ℕ → List ℕ
  | 0 => []
  | n + 1 => (n + 1) :: down n

@[simp] theorem length_down (n : ℕ) : (down n).length = n := by
  induction n with
  | zero => rfl
  | succ n ih => rw [down, List.length_cons, ih]

section Steps

variable {out : List Level} {opened : List ℕ} {n : Spot} {v : String} {w : List (Spot × String)}

attribute [local simp] readFrom in
theorem readFrom_skip (h : mark v = none) :
    readFrom out opened ((n, v) :: w) = readFrom out opened w := by
  rw [readFrom, h]

theorem readFrom_opening {key : String} (h : mark v = some (.opening key)) :
    readFrom out opened ((n, v) :: w) =
      if opened.length ≠ out.length - 1 then none
      else readFrom (out ++ [⟨key, some n, none⟩]) (out.length :: opened) w := by
  rw [readFrom, h]

theorem readFrom_closing_nil {id : String} (h : mark v = some (.closing id)) :
    readFrom out [] ((n, v) :: w) = none := by
  rw [readFrom, h]

theorem readFrom_closing_cons {id : String} {l : ℕ} {lv : Level}
    (h : mark v = some (.closing id)) (hl : out[l]? = some lv) :
    readFrom out (l :: opened) ((n, v) :: w) =
      if idOf lv.key ≠ some id then none
      else readFrom (out.set l { lv with closeAt := some n }) opened w := by
  simp only [readFrom, h, hl]

end Steps

/-- The levels read so far: the open ones, of which `stack` has the deepest first, then `done`. -/
def levelsOf (root : Level) (stack : List (Spot × String)) (done : List Level) : List Level :=
  root :: (stack.reverse.map unclosed ++ done)

@[simp] theorem length_levelsOf (root : Level) (stack : List (Spot × String)) (done : List Level) :
    (levelsOf root stack done).length = stack.length + done.length + 1 := by
  simp [levelsOf]

theorem levelsOf_top (root : Level) (k : Spot × String) (stack : List (Spot × String))
    (done : List Level) :
    (levelsOf root (k :: stack) done)[stack.length + 1]? = some (unclosed k) := by
  simp [levelsOf]

theorem levelsOf_set (root : Level) (k c : Spot × String) (stack : List (Spot × String))
    (done : List Level) :
    (levelsOf root (k :: stack) done).set (stack.length + 1)
      { unclosed k with closeAt := some c.1 } = levelsOf root stack (closed k c :: done) := by
  simp [levelsOf, unclosed, closed]

/-- The closing mark of the deepest open level. -/
theorem readFrom_pop {root : Level} {k : Spot × String} {stack : List (Spot × String)}
    {done : List Level} {n : Spot} {v id : String} {w : List (Spot × String)}
    (h : mark v = some (.closing id)) :
    readFrom (levelsOf root (k :: stack) done) (down (stack.length + 1)) ((n, v) :: w) =
      if idOf k.2 ≠ some id then none
      else readFrom (levelsOf root stack (closed k (n, id) :: done)) (down stack.length) w := by
  rw [down, readFrom_closing_cons h (levelsOf_top root k stack done), ← levelsOf_set]
  rfl

theorem nil_eq_marks_iff {ks cs : List (Spot × String)} :
    [] = opensOf ks ++ closesOf cs ↔ ks = [] ∧ cs = [] := by
  rw [eq_comm, List.append_eq_nil_iff, opensOf, closesOf, List.map_eq_nil_iff, List.map_eq_nil_iff]

theorem nil_eq_closesOf_iff {cs : List (Spot × String)} : [] = closesOf cs ↔ cs = [] := by
  rw [eq_comm, closesOf, List.map_eq_nil_iff]

theorem closesOf_cons_iff {n : Spot} {id : String} {ms : List (Spot × Mark)}
    {cs : List (Spot × String)} :
    (n, Mark.closing id) :: ms = closesOf cs ↔ ∃ cs', cs = (n, id) :: cs' ∧ ms = closesOf cs' := by
  cases cs with
  | nil => simp [closesOf]
  | cons c cs =>
      obtain ⟨s, d⟩ := c
      simp [closesOf, eq_comm, and_assoc]

/-- Once a level is closed the rest of the walk closes the open ones, the deepest first. -/
theorem readFrom_close {root : Level} {w stack : List (Spot × String)} {done : List Level}
    (hdone : done ≠ []) (ls : List Level) :
    readFrom (levelsOf root stack done) (down stack.length) w = some ls ↔
      ∃ cs, marks w = closesOf cs ∧ List.Forall₂ Closes stack cs ∧
        ls = root :: ((List.zipWith closed stack cs).reverse ++ done) := by
  induction w generalizing stack done with
  | nil =>
      simp only [marks_nil, nil_eq_closesOf_iff, exists_eq_left]
      cases stack with
      | nil => simp [readFrom, down, levelsOf, eq_comm (a := ls)]
      | cons k stack => simp [readFrom, down]
  | cons c w ih =>
      obtain ⟨n, v⟩ := c
      cases hv : mark v with
      | none => rw [readFrom_skip hv, marks_cons_none hv, ih hdone]
      | some m =>
          rw [marks_cons_some hv]
          cases m with
          | opening key =>
              have hpos := List.length_pos_iff.mpr hdone
              rw [readFrom_opening hv, if_pos (by simp; omega)]
              simp only [reduceCtorEq, false_iff, not_exists, not_and]
              intro cs hcs
              cases cs <;> simp [closesOf] at hcs
          | closing id =>
              simp only [closesOf_cons_iff]
              cases stack with
              | nil =>
                  rw [List.length_nil, down, readFrom_closing_nil hv]
                  simp only [reduceCtorEq, false_iff, not_exists, not_and]
                  rintro cs ⟨cs', rfl, -⟩ hf
                  cases hf
              | cons k stack =>
                  rw [List.length_cons, readFrom_pop hv]
                  split
                  case isTrue hne =>
                    simp only [reduceCtorEq, false_iff, not_exists, not_and]
                    rintro cs ⟨cs', rfl, -⟩ hf
                    cases hf with
                    | cons hc _ => exact absurd hc hne
                  case isFalse he =>
                    rw [ih (List.cons_ne_nil _ _)]
                    have hk : Closes k (n, id) := not_not.mp he
                    constructor
                    · rintro ⟨cs, hcs, hf, rfl⟩
                      exact ⟨_, ⟨cs, rfl, hcs⟩, .cons hk hf, by simp⟩
                    · rintro ⟨_, ⟨cs, rfl, hcs⟩, hf, rfl⟩
                      cases hf with
                      | cons _ hf => exact ⟨cs, hcs, hf, by simp⟩

theorem filterMap_key?_marks (keys ids : List String) :
    (keys.map Mark.opening ++ ids.map Mark.closing).filterMap Mark.key? = keys := by
  have hids : (ids.map Mark.closing).filterMap Mark.key? = [] := by
    simp [List.filterMap_map, Function.comp_def, Mark.key?]
  have hkeys : (keys.map Mark.opening).filterMap Mark.key? = keys := by
    simp [List.filterMap_map, Function.comp_def, Mark.key?]
  rw [List.filterMap_append, hids, hkeys, List.append_nil]

/-- The walk from a state in which no level is closed: more levels open, then all close. -/
theorem readFrom_open {root : Level} {w stack : List (Spot × String)} (ls : List Level) :
    readFrom (levelsOf root stack []) (down stack.length) w = some ls ↔
      ∃ ks cs, marks w = opensOf ks ++ closesOf cs ∧
        List.Forall₂ Closes (ks.reverse ++ stack) cs ∧
        ls = root :: (List.zipWith closed (ks.reverse ++ stack) cs).reverse := by
  induction w generalizing stack with
  | nil =>
      simp only [marks_nil, nil_eq_marks_iff]
      cases stack with
      | nil => simp [readFrom, down, levelsOf, eq_comm (a := ls)]
      | cons k stack =>
          simp only [readFrom, List.length_cons, down, reduceCtorEq, if_false, false_iff]
          rintro ⟨_, _, ⟨rfl, rfl⟩, hf, -⟩
          cases hf
  | cons c w ih =>
      obtain ⟨n, v⟩ := c
      cases hv : mark v with
      | none => rw [readFrom_skip hv, marks_cons_none hv, ih]
      | some m =>
          rw [marks_cons_some hv]
          cases m with
          | opening key =>
              have hout : levelsOf root stack [] ++ [⟨key, some n, none⟩] =
                  levelsOf root ((n, key) :: stack) [] := by simp [levelsOf, unclosed]
              rw [readFrom_opening hv, if_neg (by simp), hout]
              have hdown : (levelsOf root stack []).length :: down stack.length =
                  down ((n, key) :: stack).length := by simp [down]
              rw [hdown, ih]
              constructor
              · rintro ⟨ks, cs, hm, hf, rfl⟩
                exact ⟨(n, key) :: ks, cs, by simp [hm, opensOf], by simpa using hf, by simp⟩
              · rintro ⟨ks, cs, hm, hf, rfl⟩
                cases ks with
                | nil => cases cs <;> simp [opensOf, closesOf] at hm
                | cons k ks =>
                    obtain ⟨s, d⟩ := k
                    simp only [opensOf, List.map_cons, List.cons_append, List.cons.injEq,
                      Prod.mk.injEq, Mark.opening.injEq] at hm
                    obtain ⟨⟨rfl, rfl⟩, hm⟩ := hm
                    exact ⟨ks, cs, hm, by simpa using hf, by simp⟩
          | closing id =>
              have hks : ∀ ks cs, (n, Mark.closing id) :: marks w = opensOf ks ++ closesOf cs ↔
                  ks = [] ∧ ∃ cs', cs = (n, id) :: cs' ∧ marks w = closesOf cs' := by
                intro ks cs
                cases ks with
                | nil => simp [opensOf, closesOf_cons_iff]
                | cons k ks => simp [opensOf]
              simp only [hks]
              cases stack with
              | nil =>
                  rw [List.length_nil, down, readFrom_closing_nil hv]
                  simp only [reduceCtorEq, false_iff]
                  rintro ⟨_, _, ⟨rfl, cs', rfl, -⟩, hf, -⟩
                  cases hf
              | cons k stack =>
                  rw [List.length_cons, readFrom_pop hv]
                  split
                  case isTrue hne =>
                    simp only [reduceCtorEq, false_iff]
                    rintro ⟨_, _, ⟨rfl, cs', rfl, -⟩, hf, -⟩
                    cases hf with
                    | cons hc _ => exact absurd hc hne
                  case isFalse he =>
                    rw [readFrom_close (List.cons_ne_nil _ _)]
                    have hk : Closes k (n, id) := not_not.mp he
                    constructor
                    · rintro ⟨cs, hcs, hf, rfl⟩
                      exact ⟨[], _, ⟨rfl, cs, rfl, hcs⟩, .cons hk hf, by simp⟩
                    · rintro ⟨_, _, ⟨rfl, cs, rfl, hcs⟩, hf, rfl⟩
                      cases hf with
                      | cons _ hf => exact ⟨cs, hcs, hf, by simp⟩

/-- **What a chain is.** The marks open one level inside the other and then close them all, the
deepest first, each by its own id. -/
theorem readFrom_eq_some {root : Level} {w : List (Spot × String)} (ls : List Level) :
    readFrom [root] [] w = some ls ↔
      ∃ ks cs, marks w = opensOf ks ++ closesOf cs ∧ List.Forall₂ Closes ks.reverse cs ∧
        ls = root :: (List.zipWith closed ks.reverse cs).reverse := by
  have h := @readFrom_open root w [] ls
  simpa [levelsOf, down] using h

theorem map_key_closed {ks cs : List (Spot × String)} (h : List.Forall₂ Closes ks cs) :
    (List.zipWith closed ks cs).map Level.key = ks.map Prod.snd := by
  induction h with
  | nil => rfl
  | cons _ _ ih => rw [List.zipWith_cons_cons, List.map_cons, ih, List.map_cons, closed]

/-- The marks of a document's body in document order. -/
def Document.marks (doc : Document) : List Mark := (comments (tokens doc.body)).filterMap mark

/-- One line of pairs: each level opens in the one before it, and closes by its own id before that
one does. -/
def Line (ms : List Mark) : Prop :=
  ∃ keys ids : List String, ms = keys.map .opening ++ ids.map .closing ∧
    List.Forall₂ (fun key id => idOf key = some id) keys.reverse ids

theorem map_snd_marks (w : List (Spot × String)) :
    (marks w).map Prod.snd = (w.map Prod.snd).filterMap mark := by
  rw [marks, List.map_filterMap, List.filterMap_map]
  exact List.filterMap_congr fun c _ => by cases h : mark c.2 <;> simp [h]

theorem marks_walk (p : List ℕ) (i : ℕ) (ns : List Node) :
    (marks (walk p i ns)).map Prod.snd = (comments (tokens ns)).filterMap mark := by
  rw [map_snd_marks, walk_data]

theorem exists_placed {f : String → Mark} {ms : List (Spot × Mark)} {vs : List String}
    (h : ms.map Prod.snd = vs.map f) :
    ∃ ks : List (Spot × String), ms = ks.map (fun k => (k.1, f k.2)) ∧ ks.map Prod.snd = vs := by
  induction vs generalizing ms with
  | nil => exact ⟨[], List.map_eq_nil_iff.mp h, rfl⟩
  | cons v vs ih =>
      obtain ⟨⟨s, m⟩, ms, rfl, rfl, hms⟩ := List.map_eq_cons_iff.mp h
      obtain ⟨ks, rfl, rfl⟩ := ih hms
      exact ⟨(s, v) :: ks, rfl, rfl⟩

theorem readFrom_isSome (root : Level) (ns : List Node) :
    (readFrom [root] [] (walk [] 0 ns)).isSome ↔ Line ((comments (tokens ns)).filterMap mark) := by
  rw [← marks_walk [] 0 ns, Option.isSome_iff_exists]
  constructor
  · rintro ⟨ls, h⟩
    obtain ⟨ks, cs, hm, hf, -⟩ := (readFrom_eq_some ls).mp h
    refine ⟨ks.map Prod.snd, cs.map Prod.snd, ?_, ?_⟩
    · simp [hm, opensOf, closesOf, Function.comp_def]
    · rw [← List.map_reverse, List.forall₂_map_left_iff, List.forall₂_map_right_iff]
      exact hf
  · rintro ⟨keys, ids, hm, hf⟩
    obtain ⟨os, rest, hsplit, hos, hrest⟩ := List.map_eq_append_iff.mp hm
    obtain ⟨ks, rfl, rfl⟩ := exists_placed hos
    obtain ⟨cs, rfl, rfl⟩ := exists_placed hrest
    rw [← List.map_reverse, List.forall₂_map_left_iff, List.forall₂_map_right_iff] at hf
    exact ⟨_, (readFrom_eq_some _).mpr ⟨ks, cs, hsplit, hf, rfl⟩⟩

/-- **`readChain` answers a chain** exactly when the nav tag names a root and the marks of the body
are one line of nested, matching pairs. -/
theorem readChain_isSome (doc : Document) :
    (readChain doc).isSome ↔ doc.root.isSome ∧ Line doc.marks := by
  rw [readChain]
  cases doc.root with
  | none => simp
  | some root => exact (readFrom_isSome _ _).trans (by simp [Document.marks])

end Brust.Nav
