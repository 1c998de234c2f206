import Mathlib.Logic.Relation
import Mathlib.Data.Finset.Card
import Mathlib.Data.Finset.Basic
import Mathlib.Data.List.Dedup

/-!
# Support — searching a graph with cycles

A depth-first search that keeps the nodes it has seen: `search` stops at the first node that is
sought, `visit` sees them all and adds up what each has.  A search is given as much fuel as there
are nodes with successors and one more, and then it finds a node that is sought exactly where one is
reached (`search_from`), and a visit sees exactly the nodes that are reached (`visit_from`).
-/

namespace Brust.Search

/-- `some`, with what the predicate keeps. -/
def anyFrom {α σ : Type} (f : α → σ → Bool × σ) : List α → σ → Bool × σ
  | [], seen => (false, seen)
  | a :: as, seen =>
    match f a seen with
    | (true, seen) => (true, seen)
    | (false, seen) => anyFrom f as seen

theorem anyFrom_append {α σ : Type} (f : α → σ → Bool × σ) (as bs : List α) (s : σ) :
    anyFrom f (as ++ bs) s = match anyFrom f as s with
      | (true, s) => (true, s)
      | (false, s) => anyFrom f bs s := by
  induction as generalizing s with
  | nil => rfl
  | cons a as ih =>
      rw [List.cons_append, anyFrom, anyFrom]
      split
      · rfl
      · exact ih _

theorem anyFrom_flatMap {α β σ : Type} (f : α → σ → Bool × σ) (g : β → List α) (bs : List β)
    (s : σ) : anyFrom (fun b s => anyFrom f (g b) s) bs s = anyFrom f (bs.flatMap g) s := by
  induction bs generalizing s with
  | nil => rfl
  | cons b bs ih =>
      rw [List.flatMap_cons, anyFrom_append, anyFrom]
      split
      · rfl
      · exact ih _

variable {α γ : Type} [DecidableEq α] (next : α → List α) (hit : α → Bool)

def search : ℕ → α → List α → Bool × List α
  | 0, _, seen => (false, seen)
  | fuel + 1, a, seen =>
    if a ∈ seen then (false, seen)
    else if hit a then (true, a :: seen)
    else anyFrom (search fuel) (next a) (a :: seen)

/-- What is added up, and the nodes seen. -/
def visit (add : α → γ → γ) : ℕ → α → γ × List α → γ × List α
  | 0, _, s => s
  | fuel + 1, a, s =>
    if a ∈ s.2 then s
    else (next a).foldl (fun s b => visit add fuel b s) (add a s.1, a :: s.2)

/-- `b` is `a` or comes after it. -/
def Reaches : α → α → Prop := Relation.ReflTransGen fun a b => b ∈ next a

/-! ### What a search leaves seen -/

/-- What is newly seen is not sought, and its successors are seen. -/
structure Closed (seen seen' : List α) : Prop where
  subset : seen ⊆ seen'
  fresh : ∀ x ∈ seen', x ∉ seen → hit x = false ∧ next x ⊆ seen'

variable {next hit} {seen seen₁ seen₂ : List α} {a : α}

omit [DecidableEq α] in
theorem Closed.refl (seen : List α) : Closed next hit seen seen :=
  ⟨List.Subset.refl _, fun _ hx hn => absurd hx hn⟩

theorem Closed.trans (h₁ : Closed next hit seen seen₁) (h₂ : Closed next hit seen₁ seen₂) :
    Closed next hit seen seen₂ where
  subset := List.Subset.trans h₁.subset h₂.subset
  fresh x hx hn := by
    by_cases hx₁ : x ∈ seen₁
    · obtain ⟨hhit, hnext⟩ := h₁.fresh x hx₁ hn
      exact ⟨hhit, List.Subset.trans hnext h₂.subset⟩
    · exact h₂.fresh x hx hx₁

/-- The nodes of `known` that are still to see. -/
def left (known : Finset α) (seen : List α) : ℕ := (known \ seen.toFinset).card

theorem left_mono (known : Finset α) (h : seen ⊆ seen₁) : left known seen₁ ≤ left known seen := by
  refine Finset.card_le_card (Finset.sdiff_subset_sdiff (Finset.Subset.refl _) ?_)
  intro x hx
  exact List.mem_toFinset.mpr (h (List.mem_toFinset.mp hx))

theorem left_cons {known : Finset α} (ha : a ∈ known) (hseen : a ∉ seen) :
    left known (a :: seen) < left known seen := by
  refine Finset.card_lt_card (Finset.ssubset_iff_subset_ne.mpr ⟨?_, fun he => ?_⟩)
  · refine Finset.sdiff_subset_sdiff (Finset.Subset.refl _) fun x hx => ?_
    exact List.mem_toFinset.mpr (.tail _ (List.mem_toFinset.mp hx))
  · have : a ∈ known \ seen.toFinset :=
      Finset.mem_sdiff.mpr ⟨ha, fun h => hseen (List.mem_toFinset.mp h)⟩
    rw [← he, Finset.mem_sdiff] at this
    exact this.2 (List.mem_toFinset.mpr List.mem_cons_self)

theorem left_le_length (known : List α) (seen : List α) :
    left known.toFinset seen ≤ known.length :=
  (Finset.card_le_card Finset.sdiff_subset).trans (List.toFinset_card_le known)

theorem closed_anyFrom {known : Finset α} {n : ℕ} {f : α → List α → Bool × List α}
    (hf : ∀ a seen seen₁, left known seen < n → f a seen = (false, seen₁) →
      Closed next hit seen seen₁ ∧ a ∈ seen₁) {as : List α} (hn : left known seen < n)
    (h : anyFrom f as seen = (false, seen₁)) : Closed next hit seen seen₁ ∧ as ⊆ seen₁ := by
  induction as generalizing seen with
  | nil =>
      cases h
      exact ⟨.refl _, List.nil_subset _⟩
  | cons a as ih =>
      rw [anyFrom] at h
      split at h
      · cases h
      · next seen' hs =>
        obtain ⟨hc, ha⟩ := hf a seen seen' hn hs
        obtain ⟨hc', has⟩ := ih ((left_mono known hc.subset).trans_lt hn) h
        exact ⟨hc.trans hc', List.cons_subset.mpr ⟨hc'.subset ha, has⟩⟩

/-- A search that finds nothing has seen the node and all that comes after it. -/
theorem closed_search {known : Finset α} (hknown : ∀ a ∉ known, next a = []) {n : ℕ}
    (hn : left known seen < n) (h : search next hit n a seen = (false, seen₁)) :
    Closed next hit seen seen₁ ∧ a ∈ seen₁ := by
  induction n generalizing a seen seen₁ with
  | zero => cases hn
  | succ n ih =>
      rw [search] at h
      split at h
      case isTrue ha =>
        cases h
        exact ⟨.refl _, ha⟩
      case isFalse ha =>
        split at h
        case isTrue => cases h
        case isFalse hhit =>
          have hrest : Closed next hit (a :: seen) seen₁ ∧ next a ⊆ seen₁ := by
            by_cases hk : a ∈ known
            · exact closed_anyFrom (fun _ _ _ => ih)
                ((left_cons hk ha).trans_le (Nat.le_of_lt_succ hn)) h
            · rw [hknown a hk] at h ⊢
              cases h
              exact ⟨.refl _, List.nil_subset _⟩
          obtain ⟨hc, hnext⟩ := hrest
          refine ⟨⟨fun x hx => hc.subset (.tail _ hx), fun x hx hnot => ?_⟩,
            hc.subset List.mem_cons_self⟩
          by_cases hxa : x = a
          · exact hxa ▸ ⟨Bool.eq_false_iff.mpr hhit, hnext⟩
          · exact hc.fresh x hx fun h => hnot ((List.mem_cons.mp h).resolve_left hxa)

/-! ### What a search reaches -/

/-- What is found is reached, and so is what is newly seen. -/
structure Found (next : α → List α) (hit : α → Bool) (from_ : List α) (seen : List α)
    (r : Bool × List α) : Prop where
  found : r.1 = true → ∃ a ∈ from_, ∃ x, Reaches next a x ∧ hit x = true
  seen : ∀ x ∈ r.2, x ∈ seen ∨ ∃ a ∈ from_, Reaches next a x

omit [DecidableEq α] in
theorem found_anyFrom {f : α → List α → Bool × List α}
    (hf : ∀ a seen, Found next hit [a] seen (f a seen)) (as : List α) (seen : List α) :
    Found next hit as seen (anyFrom f as seen) := by
  induction as generalizing seen with
  | nil => exact ⟨fun h => (by cases h), fun x hx => .inl hx⟩
  | cons a as ih =>
      have ha := hf a seen
      rw [anyFrom]
      split
      · next seen' hs =>
        rw [hs] at ha
        refine ⟨fun _ => ?_, fun x hx => ?_⟩
        · obtain ⟨b, hb, hx⟩ := ha.found rfl
          exact ⟨b, List.mem_singleton.mp hb ▸ List.mem_cons_self, hx⟩
        · refine (ha.seen x hx).imp_right fun ⟨b, hb, hx⟩ => ?_
          exact ⟨b, List.mem_singleton.mp hb ▸ List.mem_cons_self, hx⟩
      · next seen' hs =>
        rw [hs] at ha
        refine ⟨fun h => ?_, fun x hx => ?_⟩
        · obtain ⟨b, hb, hx⟩ := (ih seen').found h
          exact ⟨b, .tail _ hb, hx⟩
        · rcases (ih seen').seen x hx with hx | ⟨b, hb, hx⟩
          · refine (ha.seen x hx).imp_right fun ⟨b, hb, hx⟩ => ?_
            exact ⟨b, List.mem_singleton.mp hb ▸ List.mem_cons_self, hx⟩
          · exact .inr ⟨b, .tail _ hb, hx⟩

theorem found_search (n : ℕ) (a : α) (seen : List α) :
    Found next hit [a] seen (search next hit n a seen) := by
  induction n generalizing a seen with
  | zero => exact ⟨fun h => (by cases h), fun x hx => .inl hx⟩
  | succ n ih =>
      rw [search]
      split
      case isTrue => exact ⟨fun h => (by cases h), fun x hx => .inl hx⟩
      case isFalse =>
        have hself : ∃ b ∈ [a], Reaches next b a := ⟨a, List.mem_cons_self, .refl⟩
        split
        case isTrue hhit =>
          refine ⟨fun _ => ⟨a, List.mem_cons_self, a, .refl, hhit⟩, fun x hx => ?_⟩
          rcases List.mem_cons.mp hx with rfl | hx
          · exact .inr hself
          · exact .inl hx
        case isFalse =>
          have hrest := found_anyFrom ih (next a) (a :: seen)
          refine ⟨fun h => ?_, fun x hx => ?_⟩
          · obtain ⟨b, hb, x, hx, hhit⟩ := hrest.found h
            exact ⟨a, List.mem_cons_self, x, .head hb hx, hhit⟩
          · rcases hrest.seen x hx with hx | ⟨b, hb, hx⟩
            · rcases List.mem_cons.mp hx with rfl | hx
              · exact .inr hself
              · exact .inl hx
            · exact .inr ⟨a, List.mem_cons_self, .head hb hx⟩

omit [DecidableEq α] in
/-- What is closed has all that comes after it. -/
theorem Closed.reaches (h : Closed next hit [] seen) (ha : a ∈ seen) {x : α}
    (hx : Reaches next a x) : x ∈ seen := by
  induction hx with
  | refl => exact ha
  | tail _ hb ih => exact (h.fresh _ ih List.not_mem_nil).2 hb

variable (hit) in
/-- **A search finds a node that is sought exactly where one is reached.** -/
theorem search_from {known : List α} (hknown : ∀ a ∉ known, next a = []) (as : List α) :
    (anyFrom (search next hit (known.length + 1)) as []).1 = true ↔
      ∃ a ∈ as, ∃ x, Reaches next a x ∧ hit x = true := by
  refine ⟨(found_anyFrom (found_search _) as []).found, fun ⟨a, ha, x, hx, hhit⟩ => ?_⟩
  have hk : ∀ a ∉ known.toFinset, next a = [] := fun a ha =>
    hknown a fun h => ha (List.mem_toFinset.mpr h)
  rw [← Bool.not_eq_false]
  intro hfalse
  obtain ⟨hc, has⟩ := closed_anyFrom (fun _ _ _ => closed_search hk)
    (Nat.lt_succ_of_le (left_le_length known [])) (Prod.ext hfalse rfl)
  exact absurd hhit (Bool.eq_false_iff.mp
    (hc.fresh x (hc.reaches (has ha) hx) List.not_mem_nil).1)

variable (hit) in
theorem search_one {known : List α} (hknown : ∀ a ∉ known, next a = []) (a : α) :
    (search next hit (known.length + 1) a []).1 = true ↔
      ∃ x, Reaches next a x ∧ hit x = true := by
  have hone : (anyFrom (search next hit (known.length + 1)) [a] []).1 =
      (search next hit (known.length + 1) a []).1 := by
    rw [anyFrom]
    split
    · next h => rw [h]
    · next h =>
      rw [h]
      rfl
  rw [← hone, search_from hit hknown]
  simp

/-! ### Visiting -/

variable {add : α → γ → γ}

/-- A visit from `as` saw what a search for nothing sees, and added up what it newly saw. -/
structure Visited (next : α → List α) (add : α → γ → γ) (n : ℕ) (as : List α) (s r : γ × List α) :
    Prop where
  seen : r.2 = (anyFrom (search next (fun _ => false) n) as s.2).2
  added : ∃ fresh, r.2 = fresh ++ s.2 ∧ r.1 = fresh.foldr add s.1

theorem search_nothing (n : ℕ) (a : α) (seen : List α) :
    (search next (fun _ => false) n a seen).1 = false := by
  rw [← Bool.not_eq_true]
  intro h
  obtain ⟨-, -, -, -, h⟩ := (found_search n a seen).found h
  cases h

theorem anyFrom_nothing (n : ℕ) (a : α) (as seen : List α) :
    anyFrom (search next (fun _ => false) n) (a :: as) seen =
      anyFrom (search next (fun _ => false) n) as
        (search next (fun _ => false) n a seen).2 := by
  have hnone : (search next (fun _ => false) n a seen).1 = false := search_nothing n a seen
  rw [anyFrom]
  generalize search next (fun _ => false) n a seen = r at hnone
  obtain ⟨found, seen'⟩ := r
  cases hnone
  rfl

theorem visited_foldl {n : ℕ}
    (hn : ∀ a s, Visited next add n [a] s (visit next add n a s)) (as : List α) (s : γ × List α) :
    Visited next add n as s (as.foldl (fun s b => visit next add n b s) s) := by
  induction as generalizing s with
  | nil => exact ⟨rfl, [], rfl, rfl⟩
  | cons a as ih =>
      have ha := hn a s
      have hs := ih (visit next add n a s)
      obtain ⟨fresh, hfresh, hadd⟩ := ha.added
      obtain ⟨fresh', hfresh', hadd'⟩ := hs.added
      refine ⟨?_, fresh' ++ fresh, ?_, ?_⟩
      · rw [List.foldl_cons, hs.seen, ha.seen, anyFrom_nothing, anyFrom_nothing]
        rfl
      · rw [List.foldl_cons, hfresh', hfresh, List.append_assoc]
      · rw [List.foldl_cons, hadd', hadd, List.foldr_append]

theorem visited_visit (n : ℕ) (a : α) (s : γ × List α) :
    Visited next add n [a] s (visit next add n a s) := by
  induction n generalizing a s with
  | zero => exact ⟨rfl, [], rfl, rfl⟩
  | succ n ih =>
      rw [visit]
      split
      case isTrue ha =>
        refine ⟨?_, [], rfl, rfl⟩
        rw [anyFrom_nothing, search, if_pos ha]
        rfl
      case isFalse ha =>
        obtain ⟨hseen, fresh, hfresh, hadd⟩ := visited_foldl ih (next a) (add a s.1, a :: s.2)
        refine ⟨?_, fresh ++ [a], ?_, ?_⟩
        · rw [anyFrom_nothing, search, if_neg ha, if_neg (by decide)]
          exact hseen
        · rw [hfresh, List.append_assoc]
          rfl
        · rw [hadd, List.foldr_append]
          rfl

variable (add) in
/-- **A visit adds up exactly the nodes that are reached.** -/
theorem visit_from {known : List α} (hknown : ∀ a ∉ known, next a = []) (as : List α) (c : γ) :
    ∃ fresh : List α, (as.foldl (fun s a => visit next add (known.length + 1) a s) (c, [])).1 =
      fresh.foldr add c ∧ ∀ x, x ∈ fresh ↔ ∃ a ∈ as, Reaches next a x := by
  have hvisited : ∀ a s, Visited next add (known.length + 1) [a] s
      (visit next add (known.length + 1) a s) := visited_visit (known.length + 1)
  obtain ⟨hseen, fresh, hfresh, hadd⟩ := visited_foldl hvisited as (c, [])
  have heq : fresh = (anyFrom (search next (fun _ => false) (known.length + 1)) as []).2 := by
    rw [← hseen, hfresh, List.append_nil]
  refine ⟨fresh, hadd, fun x => ⟨fun hx => ?_, fun ⟨a, ha, hx⟩ => ?_⟩⟩
  · exact ((found_anyFrom (found_search _) as []).seen x (heq ▸ hx)).resolve_left List.not_mem_nil
  · have hk : ∀ a ∉ known.toFinset, next a = [] := fun a ha =>
      hknown a fun h => ha (List.mem_toFinset.mpr h)
    have hfalse : (anyFrom (search next (fun _ => false) (known.length + 1)) as []).1 = false := by
      rw [← Bool.not_eq_true]
      intro h
      obtain ⟨-, -, -, -, h⟩ := (found_anyFrom (found_search _) as []).found h
      cases h
    obtain ⟨hc, has⟩ := closed_anyFrom (fun _ _ _ => closed_search hk)
      (Nat.lt_succ_of_le (left_le_length known [])) (Prod.ext hfalse rfl)
    exact heq ▸ hc.reaches (has ha) hx

end Brust.Search
