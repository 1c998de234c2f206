import Mathlib.Data.List.Basic
import Mathlib.Data.String.Basic

/-!
# Nav — Documents as trees of nodes

A node list and the tokens a serializer would write for it.  The tokens determine the list
(`tokens_injective`), so a range of children may be replaced by what the tokens around it say
(`tokens_setChildren`); the comments a walker meets stand in the tokens in the walker's order
(`walk_split`).
-/

namespace Brust.Nav

/-- A node.  An element has its `nodeName` (upper case in HTML); what a `<template>` holds is a
fragment of its own, as in the DOM, and counts with the attributes. -/
inductive Node where
  | text (data : String)
  | comment (data : String)
  | element (nodeName : String) (attrs : List (String × String)) (childNodes : List Node)

inductive Token where
  | text (data : String)
  | comment (data : String)
  | start (nodeName : String) (attrs : List (String × String))
  | stop

mutual

def Node.tokens : Node → List Token
  | .text d => [.text d]
  | .comment d => [.comment d]
  | .element n a cs => .start n a :: (tokens cs ++ [.stop])

def tokens : List Node → List Token
  | [] => []
  | n :: ns => n.tokens ++ tokens ns

end

@[simp] theorem tokens_nil : tokens [] = [] := rfl

@[simp] theorem tokens_cons (n : Node) (ns : List Node) :
    tokens (n :: ns) = n.tokens ++ tokens ns := rfl

@[simp] theorem tokens_comment (d : String) : (Node.comment d).tokens = [.comment d] := rfl

@[simp] theorem tokens_append (xs ys : List Node) : tokens (xs ++ ys) = tokens xs ++ tokens ys := by
  induction xs with
  | nil => rfl
  | cons x xs ih => simp [ih]

/-! ### The tokens determine the nodes -/

theorem Node.tokens_head (n : Node) : ∃ t ts, n.tokens = t :: ts ∧ t ≠ .stop := by
  cases n with
  | text d => exact ⟨_, _, rfl, by simp⟩
  | comment d => exact ⟨_, _, rfl, by simp⟩
  | element n a cs => exact ⟨_, _, rfl, by simp⟩

mutual

theorem Node.tokens_append_inj : ∀ (x y : Node) {r s : List Token},
    x.tokens ++ r = y.tokens ++ s → x = y ∧ r = s
  | .text d, y, r, s, h => by cases y <;> simp_all [Node.tokens]
  | .comment d, y, r, s, h => by cases y <;> simp_all [Node.tokens]
  | .element n a cs, .text e, r, s, h => by simp [Node.tokens] at h
  | .element n a cs, .comment e, r, s, h => by simp [Node.tokens] at h
  | .element n a cs, .element m b ds, r, s, h => by
      simp only [Node.tokens, List.cons_append, List.append_assoc, List.nil_append,
        List.cons.injEq, Token.start.injEq] at h
      obtain ⟨⟨rfl, rfl⟩, h⟩ := h
      obtain ⟨rfl, rfl⟩ := tokens_stop_inj cs ds h
      exact ⟨rfl, rfl⟩

theorem tokens_stop_inj : ∀ (xs ys : List Node) {r s : List Token},
    tokens xs ++ .stop :: r = tokens ys ++ .stop :: s → xs = ys ∧ r = s
  | [], [], r, s, h => by simpa using h
  | [], y :: ys, r, s, h => by
      obtain ⟨t, ts, e, ht⟩ := y.tokens_head
      simp only [tokens_nil, tokens_cons, e, List.nil_append, List.cons_append,
        List.cons.injEq] at h
      exact absurd h.1.symm ht
  | x :: xs, [], r, s, h => by
      obtain ⟨t, ts, e, ht⟩ := x.tokens_head
      simp only [tokens_nil, tokens_cons, e, List.nil_append, List.cons_append,
        List.cons.injEq] at h
      exact absurd h.1 ht
  | x :: xs, y :: ys, r, s, h => by
      rw [tokens_cons, tokens_cons, List.append_assoc, List.append_assoc] at h
      obtain ⟨rfl, hrest⟩ := Node.tokens_append_inj x y h
      obtain ⟨rfl, rfl⟩ := tokens_stop_inj xs ys hrest
      exact ⟨rfl, rfl⟩

end

theorem tokens_injective {xs ys : List Node} (h : tokens xs = tokens ys) : xs = ys :=
  (tokens_stop_inj xs ys (r := []) (s := []) (by rw [h])).1

/-! ### Children by path -/

/-- The child list of the element at a path: the positions from the top list down. -/
def childrenAt : List ℕ → List Node → List Node
  | [], ns => ns
  | i :: q, ns =>
    match ns[i]? with
    | some (.element _ _ cs) => childrenAt q cs
    | _ => []

/-- The `nodeName` of the element at a path, `top` for the list's own parent. -/
def nodeNameAt (top : String) : List ℕ → List Node → String
  | [], _ => top
  | i :: q, ns =>
    match ns[i]? with
    | some (.element n _ cs) => nodeNameAt n q cs
    | _ => top

def setChildren (cs' : List Node) : List ℕ → List Node → List Node
  | [], _ => cs'
  | i :: q, ns =>
    match ns[i]? with
    | some (.element n a cs) => ns.set i (.element n a (setChildren cs' q cs))
    | _ => ns

/-- An element stands at the path. -/
def IsParent : List ℕ → List Node → Prop
  | [], _ => True
  | i :: q, ns => ∃ n a cs, ns[i]? = some (.element n a cs) ∧ IsParent q cs

/-- The tokens before the children at a path. -/
def before : List ℕ → List Node → List Token
  | [], _ => []
  | i :: q, ns =>
    match ns[i]? with
    | some (.element n a cs) => tokens (ns.take i) ++ .start n a :: before q cs
    | _ => []

/-- The tokens after the children at a path. -/
def after : List ℕ → List Node → List Token
  | [], _ => []
  | i :: q, ns =>
    match ns[i]? with
    | some (.element _ _ cs) => after q cs ++ .stop :: tokens (ns.drop (i + 1))
    | _ => []

theorem eq_take_cons_drop {α : Type*} {xs : List α} {i : ℕ} {x : α} (h : xs[i]? = some x) :
    xs = xs.take i ++ x :: xs.drop (i + 1) := by
  obtain ⟨hi, rfl⟩ := List.getElem?_eq_some_iff.mp h
  rw [List.getElem_cons_drop, List.take_append_drop]

theorem tokens_setChildren (cs' : List Node) {q : List ℕ} {ns : List Node} (h : IsParent q ns) :
    tokens (setChildren cs' q ns) = before q ns ++ tokens cs' ++ after q ns := by
  induction q generalizing ns with
  | nil => simp [setChildren, before, after]
  | cons i q ih =>
      obtain ⟨n, a, cs, hi, hq⟩ := h
      have hlt : i < ns.length := (List.getElem?_eq_some_iff.mp hi).1
      simp only [setChildren, before, after, hi, List.set_eq_take_append_cons_drop, if_pos hlt,
        tokens_append, tokens_cons, Node.tokens, ih hq]
      simp

theorem setChildren_self {q : List ℕ} {ns : List Node} (h : IsParent q ns) :
    setChildren (childrenAt q ns) q ns = ns := by
  induction q generalizing ns with
  | nil => rfl
  | cons i q ih =>
      obtain ⟨n, a, cs, hi, hq⟩ := h
      obtain ⟨hlt, he⟩ := List.getElem?_eq_some_iff.mp hi
      simp only [setChildren, childrenAt, hi, ih hq]
      rw [← he, List.set_getElem_self]

theorem tokens_eq_around {q : List ℕ} {ns : List Node} (h : IsParent q ns) :
    tokens ns = before q ns ++ tokens (childrenAt q ns) ++ after q ns := by
  rw [← tokens_setChildren _ h, setChildren_self h]

/-! ### The comments in document order -/

/-- Where a node stands: the path of its parent and its place among the parent's children. -/
structure Spot where
  parent : List ℕ
  index : ℕ
deriving DecidableEq

mutual

def Node.walk (parent : List ℕ) (i : ℕ) : Node → List (Spot × String)
  | .text _ => []
  | .comment d => [(⟨parent, i⟩, d)]
  | .element _ _ cs => walk (parent ++ [i]) 0 cs

/-- The comments of a list whose first node is its parent's `i`-th child, as a `TreeWalker` with
`SHOW_COMMENT` meets them. -/
def walk (parent : List ℕ) (i : ℕ) : List Node → List (Spot × String)
  | [] => []
  | n :: ns => n.walk parent i ++ walk parent (i + 1) ns

end

def comments (ts : List Token) : List String :=
  ts.filterMap fun
    | .comment d => some d
    | _ => none

@[simp] theorem comments_nil : comments [] = [] := rfl

@[simp] theorem comments_append (xs ys : List Token) :
    comments (xs ++ ys) = comments xs ++ comments ys := List.filterMap_append

@[simp] theorem comments_comment (d : String) (ts : List Token) :
    comments (.comment d :: ts) = d :: comments ts := rfl

@[simp] theorem comments_text (d : String) (ts : List Token) :
    comments (.text d :: ts) = comments ts := rfl

@[simp] theorem comments_start (n : String) (a : List (String × String)) (ts : List Token) :
    comments (.start n a :: ts) = comments ts := rfl

@[simp] theorem comments_stop (ts : List Token) : comments (.stop :: ts) = comments ts := rfl

mutual

theorem Node.walk_data (p : List ℕ) (i : ℕ) : ∀ n : Node,
    (n.walk p i).map Prod.snd = comments n.tokens
  | .text d => rfl
  | .comment d => rfl
  | .element n a cs => by simp [Node.walk, Node.tokens, walk_data (p ++ [i]) 0 cs]

theorem walk_data (p : List ℕ) (i : ℕ) : ∀ ns : List Node,
    (walk p i ns).map Prod.snd = comments (tokens ns)
  | [] => rfl
  | n :: ns => by simp [walk, Node.walk_data p i n, walk_data p (i + 1) ns]

end

theorem walk_append (p : List ℕ) (i : ℕ) (xs ys : List Node) :
    walk p i (xs ++ ys) = walk p i xs ++ walk p (i + xs.length) ys := by
  induction xs generalizing i with
  | nil => rfl
  | cons x xs ih =>
      rw [List.cons_append, walk, walk, ih, List.append_assoc, List.length_cons, Nat.add_assoc,
        Nat.add_comm 1]

/-- The tokens up to a node. -/
def upTo (s : List ℕ) (i : ℕ) (ns : List Node) : List Token :=
  before s ns ++ tokens ((childrenAt s ns).take i)

/-- What the walker says of one comment: it stands where the spot says, and the comments before it
in the tokens are those the walker met before. -/
structure Met (ns : List Node) (q : List ℕ) (i : ℕ) (d : String) (seen : List String) : Prop where
  parent : IsParent q ns
  here : (childrenAt q ns)[i]? = some (.comment d)
  seen : comments (upTo q i ns) = seen

mutual

theorem Node.walk_split (p : List ℕ) (pre : List Node) : ∀ (n : Node) (ns : List Node)
    {l₁ l₂ : List (Spot × String)} {s : Spot} {d : String},
    n.walk p pre.length = l₁ ++ (s, d) :: l₂ →
      ∃ q, s.parent = p ++ q ∧
        Met (pre ++ n :: ns) q s.index d (comments (tokens pre) ++ l₁.map Prod.snd)
  | .text e, ns, l₁, l₂, s, d, h => by simp [Node.walk] at h
  | .comment e, ns, l₁, l₂, s, d, h => by
      obtain ⟨rfl, h⟩ : l₁ = [] ∧ _ := by
        cases l₁ with
        | nil => exact ⟨rfl, h⟩
        | cons x l₁ => simp [Node.walk] at h
      simp only [Node.walk, List.nil_append, List.cons.injEq, Prod.mk.injEq] at h
      obtain ⟨⟨rfl, rfl⟩, -⟩ := h
      exact ⟨[], by simp, trivial, by simp [childrenAt], by simp [upTo, before, childrenAt]⟩
  | .element n a cs, ns, l₁, l₂, s, d, h => by
      obtain ⟨q, hq, hm⟩ := walk_split (p ++ [pre.length]) [] cs h
      have hi : (pre ++ Node.element n a cs :: ns)[pre.length]? = some (.element n a cs) := by simp
      refine ⟨pre.length :: q, by simp [hq], ⟨n, a, cs, hi, hm.parent⟩, ?_, ?_⟩
      · simpa only [childrenAt, hi, List.nil_append] using hm.here
      · have hseen := hm.seen
        simp only [upTo, List.nil_append, tokens_nil, comments_nil] at hseen
        simp only [upTo, childrenAt, before, hi, List.take_left, List.append_assoc,
          List.cons_append, comments_append, comments_start]
        rw [← hseen, comments_append]

theorem walk_split (p : List ℕ) (pre : List Node) : ∀ (ns : List Node)
    {l₁ l₂ : List (Spot × String)} {s : Spot} {d : String},
    walk p pre.length ns = l₁ ++ (s, d) :: l₂ →
      ∃ q, s.parent = p ++ q ∧
        Met (pre ++ ns) q s.index d (comments (tokens pre) ++ l₁.map Prod.snd)
  | [], l₁, l₂, s, d, h => by simp [walk] at h
  | n :: ns, l₁, l₂, s, d, h => by
      rw [walk] at h
      rcases List.append_eq_append_iff.mp h with ⟨m, rfl, hm⟩ | ⟨m, hm, he⟩
      · have hlen : pre.length + 1 = (pre ++ [n]).length := by simp
        rw [hlen] at hm
        obtain ⟨q, hq, hmet⟩ := walk_split p (pre ++ [n]) ns hm
        refine ⟨q, hq, ?_⟩
        simpa [← Node.walk_data p pre.length n] using hmet
      · cases m with
        | nil =>
            have hlen : pre.length + 1 = (pre ++ [n]).length := by simp
            rw [List.nil_append, hlen] at he
            rw [← List.nil_append ((s, d) :: l₂)] at he
            obtain ⟨q, hq, hmet⟩ := walk_split p (pre ++ [n]) ns he.symm
            refine ⟨q, hq, ?_⟩
            rw [List.append_nil] at hm
            simpa [← hm, ← Node.walk_data p pre.length n] using hmet
        | cons x m =>
            rw [List.cons_append, List.cons.injEq] at he
            obtain ⟨rfl, -⟩ := he
            exact Node.walk_split p pre n ns hm

end

end Brust.Nav
