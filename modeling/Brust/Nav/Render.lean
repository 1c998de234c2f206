import Brust.Nav.Chain

/-!
# Nav — Server renders and where their levels stand

A render is a line of levels, each a shell around the next one, the server's comments around every
inner level.  The shells are the tokens the parser made of the markup: they need not balance, so a
pair that the parser split is one too.  `around_congr` is that the levels above one determine what
stands around it, `level_range` that a usable level of a document is a range of siblings, and
`range_around` that these are the same place.
-/

namespace Brust.Nav

/-! ### Splitting at a mark -/

/-- The marks among the comments of some tokens. -/
def marksIn (ts : List Token) : List Mark := (comments ts).filterMap mark

@[simp] theorem marksIn_nil : marksIn [] = [] := rfl

@[simp] theorem marksIn_append (xs ys : List Token) :
    marksIn (xs ++ ys) = marksIn xs ++ marksIn ys := by
  rw [marksIn, comments_append, List.filterMap_append, marksIn, marksIn]

theorem marksIn_comment {d : String} {m : Mark} (h : mark d = some m) (ts : List Token) :
    marksIn (.comment d :: ts) = m :: marksIn ts := by
  rw [marksIn, comments_comment, List.filterMap_cons_some h, marksIn]

/-- A list splits at its `n`-th mark in one way. -/
theorem split_at_mark {x x' y y' : List Token} {d d' : String} (hd : (mark d).isSome)
    (hd' : (mark d').isSome) (h : x ++ .comment d :: y = x' ++ .comment d' :: y')
    (hn : (marksIn x).length = (marksIn x').length) : x = x' ∧ d = d' ∧ y = y' := by
  obtain ⟨m, hm⟩ := Option.isSome_iff_exists.mp hd
  obtain ⟨m', hm'⟩ := Option.isSome_iff_exists.mp hd'
  induction x generalizing x' with
  | nil =>
      cases x' with
      | nil => simpa using h
      | cons t x' =>
          rw [List.nil_append, List.cons_append, List.cons.injEq] at h
          rw [← h.1, marksIn_comment hm] at hn
          cases hn
  | cons t x ih =>
      cases x' with
      | nil =>
          rw [List.nil_append, List.cons_append, List.cons.injEq] at h
          rw [h.1, marksIn_comment hm'] at hn
          cases hn
      | cons t' x' =>
          rw [List.cons_append, List.cons_append, List.cons.injEq] at h
          obtain ⟨rfl, h⟩ := h
          have hn' : (marksIn x).length = (marksIn x').length := by
            rw [← List.singleton_append, ← List.singleton_append (l := x'), marksIn_append,
              marksIn_append, List.length_append, List.length_append] at hn
            exact Nat.add_left_cancel hn
          obtain ⟨rfl, rfl, rfl⟩ := ih h hn'
          exact ⟨rfl, rfl, rfl⟩

/-! ### Renders -/

/-- A chain of levels as the server renders it: the page, or a layout and the level it encloses.
Every level has its component's id and the hash of its shell. -/
inductive Render where
  | page (id hash : String) (markup : List Token)
  | layout (id hash : String) (start : List Token) (child : Render) (stop : List Token)

namespace Render

def id : Render → String
  | page id _ _ => id
  | layout id _ _ _ _ => id

def hash : Render → String
  | page _ hash _ => hash
  | layout _ hash _ _ _ => hash

def key (r : Render) : String := r.id ++ ":" ++ r.hash

/-- The comment `brust-l:<id>:<hash>`. -/
def opening (r : Render) : Token := .comment ("brust-l:" ++ r.key)

/-- The comment `/brust-l:<id>`. -/
def closing (r : Render) : Token := .comment ("/brust-l:" ++ r.id)

def tokens : Render → List Token
  | page _ _ markup => markup
  | layout _ _ start child stop =>
    start ++ child.opening :: (child.tokens ++ child.closing :: stop)

def keys : Render → List String
  | r@(page ..) => [r.key]
  | r@(layout _ _ _ child _) => r.key :: child.keys

/-- What each layout puts around its child hole. -/
def shells : Render → List (List Token × List Token)
  | page .. => []
  | layout _ _ start child stop => (start, stop) :: child.shells

/-- The levels below the root. -/
def depth : Render → ℕ
  | page .. => 0
  | layout _ _ _ child _ => child.depth + 1

/-- The server alone writes marks, and a hash has no colon. -/
def Marked : Render → Prop
  | page _ hash markup => ':' ∉ hash.toList ∧ marksIn markup = []
  | layout _ hash start child stop =>
    ':' ∉ hash.toList ∧ marksIn start = [] ∧ marksIn stop = [] ∧ child.Marked

/-- The level `i + 1`. -/
def level : Render → ℕ → Render
  | layout _ _ _ child _, 0 => child
  | layout _ _ _ child _, i + 1 => child.level i
  | r, _ => r

/-- What stands before and after the pair of the level `i + 1`. -/
def around : Render → ℕ → List Token × List Token
  | layout _ _ start _ stop, 0 => (start, stop)
  | layout _ _ start child stop, i + 1 =>
    (start ++ child.opening :: (child.around i).1, (child.around i).2 ++ child.closing :: stop)
  | _, _ => ([], [])

end Render

theorem afterStart_append (p v : String) : afterStart p (p ++ v) = some v := by
  rw [afterStart, String.toList_append, if_pos (List.prefix_append _ _), ← String.length_toList,
    List.drop_left, String.ofList_toList]

theorem mark_opening (key : String) : mark ("brust-l:" ++ key) = some (.opening key) := by
  rw [mark, afterStart_append]

theorem mark_closing (id : String) : mark ("/brust-l:" ++ id) = some (.closing id) := by
  have hne : afterStart "brust-l:" ("/brust-l:" ++ id) = none := by
    rw [afterStart, if_neg]
    rw [String.toList_append]
    intro h
    have := List.cons_prefix_cons.mp h
    exact absurd this.1 (by decide)
  rw [mark, hne, afterStart_append]
  rfl

theorem idOf_key (r : Render) (h : ':' ∉ r.hash.toList) : idOf r.key = some r.id := by
  have hrev : r.key.toList.reverse = r.hash.toList.reverse ++ ':' :: r.id.toList.reverse := by
    simp [Render.key, String.toList_append]
  have hdrop : r.key.toList.reverse.dropWhile (· ≠ ':') = ':' :: r.id.toList.reverse := by
    rw [hrev, List.dropWhile_append_of_pos]
    · simp
    · intro c hc
      simpa using fun e : c = ':' => h (e ▸ List.mem_reverse.mp hc)
  rw [idOf, hdrop]
  simp

namespace Render

theorem Marked.hash {r : Render} (h : r.Marked) : ':' ∉ r.hash.toList := by
  cases r with
  | page id hash markup => exact h.1
  | layout id hash start child stop => exact h.1

theorem marksIn_opening (r : Render) (ts : List Token) :
    marksIn (r.opening :: ts) = .opening r.key :: marksIn ts := marksIn_comment (mark_opening _) ts

theorem marksIn_closing (r : Render) (ts : List Token) :
    marksIn (r.closing :: ts) = .closing r.id :: marksIn ts := marksIn_comment (mark_closing _) ts

theorem keys_eq (r : Render) : r.keys = r.key :: r.keys.tail := by
  cases r with
  | page id hash markup => rfl
  | layout id hash start child stop => rfl

/-- The marks of a render: its inner levels open one after the other, then they close. -/
theorem marksIn_tokens {r : Render} (h : r.Marked) :
    ∃ ids : List String, ids.length = r.depth ∧
      marksIn r.tokens = r.keys.tail.map .opening ++ ids.map .closing := by
  induction r with
  | page id hash markup => exact ⟨[], rfl, by simp [tokens, h.2, keys]⟩
  | layout id hash start child stop ih =>
      obtain ⟨-, hstart, hstop, hchild⟩ := h
      obtain ⟨ids, hlen, hm⟩ := ih hchild
      refine ⟨ids ++ [child.id], by simp [hlen, depth], ?_⟩
      rw [tokens, marksIn_append, marksIn_opening, marksIn_append, marksIn_closing, hstart, hstop,
        hm, keys, List.tail_cons, child.keys_eq]
      simp

theorem length_keys (r : Render) : r.keys.length = r.depth + 1 := by
  induction r with
  | page id hash markup => rfl
  | layout id hash start child stop ih => rw [keys, List.length_cons, ih, depth]

theorem length_marksIn_tokens {r : Render} (h : r.Marked) :
    (marksIn r.tokens).length = 2 * r.depth := by
  obtain ⟨ids, hlen, hm⟩ := marksIn_tokens h
  rw [hm, List.length_append, List.length_map, List.length_map, List.length_tail, length_keys, hlen]
  omega

/-- A level, its pair, and what stands around it. -/
theorem tokens_around {r : Render} {i : ℕ} (hi : i < r.depth) :
    r.tokens = (r.around i).1 ++ (r.level i).opening ::
      ((r.level i).tokens ++ (r.level i).closing :: (r.around i).2) := by
  induction r generalizing i with
  | page id hash markup => exact absurd hi (Nat.not_lt_zero _)
  | layout id hash start child stop ih =>
      cases i with
      | zero => rfl
      | succ i =>
          have := ih (Nat.lt_of_succ_lt_succ hi)
          simp only [tokens, around, level]
          rw [this]
          simp

theorem Marked.level {r : Render} (h : r.Marked) (i : ℕ) : (r.level i).Marked := by
  induction r generalizing i with
  | page id hash markup => exact h
  | layout id hash start child stop ih =>
      cases i with
      | zero => exact h.2.2.2
      | succ i => exact ih h.2.2.2 i

theorem depth_level {r : Render} {i : ℕ} (hi : i < r.depth) :
    (r.level i).depth + (i + 1) = r.depth := by
  induction r generalizing i with
  | page id hash markup => exact absurd hi (Nat.not_lt_zero _)
  | layout id hash start child stop ih =>
      cases i with
      | zero => rfl
      | succ i =>
          have := ih (Nat.lt_of_succ_lt_succ hi)
          simp only [level, depth]
          omega

/-- Before a level's pair stand the marks that open the levels above it. -/
theorem length_marksIn_around {r : Render} (h : r.Marked) {i : ℕ} (hi : i < r.depth) :
    (marksIn (r.around i).1).length = i := by
  induction r generalizing i with
  | page id hash markup => exact absurd hi (Nat.not_lt_zero _)
  | layout id hash start child stop ih =>
      obtain ⟨-, hstart, -, hchild⟩ := h
      cases i with
      | zero => simp [around, hstart]
      | succ i =>
          simp [around, hstart, marksIn_opening, ih hchild (Nat.lt_of_succ_lt_succ hi)]

/-- Levels with one key close by one id. -/
theorem closing_congr {r r' : Render} (h : r.Marked) (h' : r'.Marked) (hk : r.key = r'.key) :
    r.closing = r'.closing := by
  have := idOf_key r h.hash
  rw [hk, idOf_key r' h'.hash, Option.some.injEq] at this
  rw [closing, closing, this]

/-- **The shells above a level determine what stands around it.** -/
theorem around_congr {r r' : Render} (h : r.Marked) (h' : r'.Marked) {i : ℕ} (hi : i < r.depth)
    (hi' : i < r'.depth) (hk : r.keys.take (i + 1) = r'.keys.take (i + 1))
    (hs : r.shells.take (i + 1) = r'.shells.take (i + 1)) : r.around i = r'.around i := by
  induction r generalizing r' i with
  | page id hash markup => exact absurd hi (Nat.not_lt_zero _)
  | layout id hash start child stop ih =>
      cases r' with
      | page id' hash' markup' => exact absurd hi' (Nat.not_lt_zero _)
      | layout id' hash' start' child' stop' =>
          simp only [shells, List.take_succ_cons, List.cons.injEq, Prod.mk.injEq] at hs
          simp only [keys, List.take_succ_cons, List.cons.injEq] at hk
          obtain ⟨⟨rfl, rfl⟩, hs⟩ := hs
          cases i with
          | zero => rfl
          | succ i =>
              obtain ⟨-, -, -, hc⟩ := h
              obtain ⟨-, -, -, hc'⟩ := h'
              have hkey : child.key = child'.key := by
                have := hk.2
                rw [child.keys_eq, child'.keys_eq, List.take_succ_cons, List.take_succ_cons] at this
                exact (List.cons.inj this).1
              rw [around, around, closing_congr hc hc' hkey, opening, opening, hkey,
                ih hc hc' (Nat.lt_of_succ_lt_succ hi) (Nat.lt_of_succ_lt_succ hi') hk.2 hs]

end Render

/-! ### The range of a level -/

/-- A comment at `s` with `n` marks before it. -/
structure MarkAt (ns : List Node) (s : Spot) (m : Mark) (n : ℕ) : Prop where
  parent : IsParent s.parent ns
  here : ∃ d, mark d = some m ∧ (childrenAt s.parent ns)[s.index]? = some (.comment d)
  count : (marksIn (upTo s.parent s.index ns)).length = n

theorem markAt_of_marks {ns : List Node} {m₁ m₂ : List (Spot × Mark)} {s : Spot} {m : Mark}
    (h : marks (walk [] 0 ns) = m₁ ++ (s, m) :: m₂) : MarkAt ns s m m₁.length := by
  obtain ⟨w₁, w₂, hw, hw₁, hw₂⟩ := List.filterMap_eq_append_iff.mp h
  obtain ⟨u, ⟨s', d⟩, v, rfl, hu, hd, -⟩ := List.filterMap_eq_cons_iff.mp hw₂
  obtain ⟨m', hm, he⟩ := Option.map_eq_some_iff.mp hd
  obtain ⟨rfl, rfl⟩ := Prod.mk.inj he
  rw [← List.append_assoc] at hw
  obtain ⟨q, hq, hmet⟩ := walk_split [] [] ns hw
  obtain rfl : s'.parent = q := hq
  refine ⟨hmet.parent, ⟨d, hm, hmet.here⟩, ?_⟩
  have hseen : comments (upTo s'.parent s'.index ns) = (w₁ ++ u).map Prod.snd := hmet.seen
  have hu : marks u = [] := List.filterMap_eq_nil_iff.mpr hu
  have hw₁ : marks w₁ = m₁ := hw₁
  rw [marksIn, hseen, ← map_snd_marks, List.length_map, marks_append, hw₁, hu, List.append_nil]

/-- The tokens around a mark. -/
theorem MarkAt.tokens_eq {ns : List Node} {s : Spot} {m : Mark} {n : ℕ} (h : MarkAt ns s m n) :
    ∃ d, mark d = some m ∧ tokens ns = upTo s.parent s.index ns ++ .comment d ::
      (tokens ((childrenAt s.parent ns).drop (s.index + 1)) ++ after s.parent ns) := by
  obtain ⟨d, hd, hc⟩ := h.here
  refine ⟨d, hd, ?_⟩
  have hcs := congrArg tokens (eq_take_cons_drop hc)
  rw [tokens_eq_around h.parent, hcs, upTo]
  simp

/-- The two marks of the level `i + 1` of a chain. -/
theorem readFrom_level {root : Level} {ns : List Node} {ls : List Level}
    (h : readFrom [root] [] (walk [] 0 ns) = some ls) {i : ℕ} {l : Level}
    (hl : ls[i + 1]? = some l) :
    ∃ o c id n, l.openAt = some o ∧ l.closeAt = some c ∧ MarkAt ns o (.opening l.key) i ∧
      MarkAt ns c (.closing id) n ∧ n + (i + 1) = (marksIn (tokens ns)).length ∧ i < n := by
  obtain ⟨ks, cs, hm, hf, rfl⟩ := (readFrom_eq_some ls).mp h
  have hlen := hf.length_eq
  rw [List.length_reverse] at hlen
  rw [List.getElem?_cons_succ, List.reverse_zipWith (by rw [List.length_reverse, hlen]),
    List.reverse_reverse] at hl
  obtain ⟨k, c, hk, hc, rfl⟩ := List.getElem?_zipWith_eq_some.mp hl
  have hi : i < cs.length := by
    simpa using (List.getElem?_eq_some_iff.mp hc).1
  rw [List.getElem?_reverse hi] at hc
  have hopen : marks (walk [] 0 ns) =
      opensOf (ks.take i) ++ (k.1, .opening k.2) :: (opensOf (ks.drop (i + 1)) ++ closesOf cs) := by
    rw [hm]
    nth_rewrite 1 [eq_take_cons_drop hk]
    simp [opensOf]
  have hclose : marks (walk [] 0 ns) =
      (opensOf ks ++ closesOf (cs.take (cs.length - 1 - i))) ++
        (c.1, .closing c.2) :: closesOf (cs.drop (cs.length - 1 - i + 1)) := by
    rw [hm]
    nth_rewrite 1 [eq_take_cons_drop hc]
    simp [closesOf]
  have htotal : (marksIn (tokens ns)).length = ks.length + cs.length := by
    rw [marksIn, ← marks_walk [] 0 ns, hm]
    simp [opensOf, closesOf]
  have ho := markAt_of_marks hopen
  have hc := markAt_of_marks hclose
  have hlo : (opensOf (ks.take i)).length = i := by simp [opensOf]; omega
  have hlc : (opensOf ks ++ closesOf (cs.take (cs.length - 1 - i))).length + (i + 1) =
      ks.length + cs.length := by simp [opensOf, closesOf]; omega
  rw [hlo] at ho
  refine ⟨k.1, c.1, c.2, _, rfl, rfl, ho, hc, by rw [hlc, htotal], ?_⟩
  omega

/-- What stands after a node and its parent's other children after it. -/
def past (s : Spot) (ns : List Node) : List Token :=
  tokens ((childrenAt s.parent ns).drop (s.index + 1)) ++ after s.parent ns

section Siblings

variable {ns : List Node} {o c : Spot} {m m' : Mark} {i n : ℕ}

/-- Of two siblings the one with fewer marks before it comes first. -/
theorem MarkAt.index_lt (ho : MarkAt ns o m i) (hc : MarkAt ns c m' n) (hin : i < n)
    (hp : o.parent = c.parent) : o.index < c.index := by
  by_contra hle
  have hmin : ((childrenAt c.parent ns).take o.index).take c.index =
      (childrenAt c.parent ns).take c.index := by
    rw [List.take_take, Nat.min_eq_left (Nat.le_of_not_lt hle)]
  have hup : upTo o.parent o.index ns = upTo c.parent c.index ns ++
      tokens (((childrenAt c.parent ns).take o.index).drop c.index) := by
    rw [upTo, upTo, hp, List.append_assoc, ← tokens_append, ← hmin, List.take_append_drop]
  have hcount := ho.count
  rw [hup, marksIn_append, List.length_append, hc.count] at hcount
  omega

/-- Replacing the range from one sibling to another leaves what stands around it. -/
theorem tokens_replaceRange (ho : MarkAt ns o m i) (hp : o.parent = c.parent) (next : List Node) :
    tokens (setChildren ((childrenAt o.parent ns).take o.index ++ next ++
      (childrenAt o.parent ns).drop (c.index + 1)) o.parent ns) =
      upTo o.parent o.index ns ++ (tokens next ++ past c ns) := by
  rw [tokens_setChildren _ ho.parent, upTo, past, hp]
  simp

theorem tokens_range (ho : MarkAt ns o m i) (hp : o.parent = c.parent)
    (hlt : o.index < c.index) :
    tokens ns = upTo o.parent o.index ns ++
      (tokens (((childrenAt o.parent ns).drop o.index).take (c.index + 1 - o.index)) ++
        past c ns) := by
  have hsplit : (childrenAt o.parent ns).take o.index ++
      ((childrenAt o.parent ns).drop o.index).take (c.index + 1 - o.index) ++
        (childrenAt o.parent ns).drop (c.index + 1) = childrenAt o.parent ns := by
    have hdrop : (childrenAt o.parent ns).drop (c.index + 1) =
        ((childrenAt o.parent ns).drop o.index).drop (c.index + 1 - o.index) := by
      rw [List.drop_drop]
      congr 1
      omega
    rw [hdrop, List.append_assoc, List.take_append_drop, List.take_append_drop]
  rw [← tokens_replaceRange ho hp, hsplit, setChildren_self ho.parent]

end Siblings

/-- **A level's range stands where the render has the level**: before it and after it is what
stands around the level. -/
theorem range_around {ns : List Node} {r : Render} {extra : List Token} (hr : r.Marked)
    (hns : tokens ns = r.tokens ++ extra) (hx : marksIn extra = []) {o c : Spot} {key id : String}
    {i n : ℕ} (ho : MarkAt ns o (.opening key) i) (hc : MarkAt ns c (.closing id) n)
    (hn : n + (i + 1) = (marksIn (tokens ns)).length) (hin : i < n) :
    i < r.depth ∧ upTo o.parent o.index ns = (r.around i).1 ∧
      past c ns = (r.around i).2 ++ extra := by
  have htotal := r.length_marksIn_tokens hr
  rw [hns, marksIn_append, hx, List.append_nil, htotal] at hn
  have hi : i < r.depth := by omega
  have hlevel := r.tokens_around hi
  refine ⟨hi, ?_, ?_⟩
  · obtain ⟨d, hd, he⟩ := ho.tokens_eq
    rw [hns, hlevel, List.append_assoc] at he
    refine (split_at_mark ?_ (by rw [hd]; rfl) he ?_).1.symm
    · rw [mark_opening]
      rfl
    · rw [Render.length_marksIn_around hr hi, ho.count]
  · obtain ⟨d, hd, he⟩ := hc.tokens_eq
    have hsplit : tokens ns = ((r.around i).1 ++ (r.level i).opening :: (r.level i).tokens) ++
        (r.level i).closing :: ((r.around i).2 ++ extra) := by
      rw [hns, hlevel]
      simp
    rw [hsplit] at he
    refine (split_at_mark ?_ (by rw [hd]; rfl) he ?_).2.2.symm
    · rw [mark_closing]
      rfl
    · have := Render.depth_level hi
      rw [marksIn_append, Render.marksIn_opening, List.length_append, List.length_cons,
        Render.length_marksIn_around hr hi, Render.length_marksIn_tokens (hr.level i), hc.count]
      omega

end Brust.Nav
