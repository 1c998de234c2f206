import Mathlib.Data.List.Basic

/-!
# Support — rolling back

A process has a memory and a disk, and issues statements to the disk, any of which may throw.  A
transaction puts the disk back when its body throws, and leaves the memory as it is then.

`Issues` says of a body how many statements it issues and where it ends when none of them throws;
`Keeps` says what its memory has wherever it ends.  Both follow the body: a statement, a change of
the memory, one body after another, and a loop over a list.
-/

namespace Brust.Rollback

/-- A running process, and how many of its statements run before one throws, if one does. -/
structure Live (M D : Type) where
  mem : M
  disk : D
  left : Option ℕ

/-- A body ends, or throws and leaves what it had then. -/
abbrev Body (M D : Type) := Live M D → Except (Live M D) (Live M D)

variable {M D α : Type}

def statement (f : D → D) : Body M D := fun s =>
  match s.left with
  | none => .ok { s with disk := f s.disk }
  | some 0 => .error s
  | some (k + 1) => .ok { s with disk := f s.disk, left := some k }

def update (g : M → M) : Body M D := fun s => .ok { s with mem := g s.mem }

theorem update_bind (g : M → M) (k : Body M D) (s : Live M D) :
    (update g s >>= k) = k { s with mem := g s.mem } := rfl

/-- Where a body is when it ends or throws. -/
def final : Except (Live M D) (Live M D) → Live M D
  | .ok s => s
  | .error s => s

/-- The memory and the disk after a transaction, and whether it threw. -/
def transaction (body : Body M D) (m : M) (d : D) (left : Option ℕ) : M × D × Bool :=
  match body ⟨m, d, left⟩ with
  | .ok s => (s.mem, s.disk, false)
  | .error s => (s.mem, d, true)

/-! ### How many statements a body issues -/

/-- None of `n` statements throws. -/
def Fits (left : Option ℕ) (n : ℕ) : Prop := ∀ k, left = some k → n ≤ k

instance (left : Option ℕ) (n : ℕ) : Decidable (Fits left n) :=
  decidable_of_iff (∀ k ∈ left, n ≤ k) Iff.rfl

/-- From `m` and `d` a body issues `n` statements and ends in `m'` and `d'`, unless one throws. -/
def Issues (body : Body M D) (m : M) (d : D) (n : ℕ) (m' : M) (d' : D) : Prop :=
  ∀ left, (Fits left n → body ⟨m, d, left⟩ = .ok ⟨m', d', left.map (· - n)⟩) ∧
    (¬ Fits left n → ∃ s, body ⟨m, d, left⟩ = .error s)

theorem fits_add {left : Option ℕ} {n k : ℕ} :
    Fits left (n + k) ↔ Fits left n ∧ Fits (left.map (· - n)) k := by
  cases left with
  | none => simp [Fits]
  | some l =>
      simp only [Fits, Option.some.injEq, Option.map_some, forall_eq']
      omega

variable {body first second : Body M D} {m m₁ m₂ : M} {d d₁ d₂ : D} {n k : ℕ}

theorem Issues.congr {body' : Body M D} (h : Issues body' m d n m₁ d₁)
    (heq : ∀ left, body ⟨m, d, left⟩ = body' ⟨m, d, left⟩) : Issues body m d n m₁ d₁ :=
      fun left => by
  rw [heq left]
  exact h left

theorem issues_statement (f : D → D) (m : M) (d : D) : Issues (statement f) m d 1 m (f d) := by
  intro left
  match left with
  | none => exact ⟨fun _ => rfl, fun h => absurd (fun _ hk => nomatch hk) h⟩
  | some 0 =>
      exact ⟨fun h => absurd (h 0 rfl) (Nat.not_succ_le_zero 0), fun _ => ⟨_, rfl⟩⟩
  | some (l + 1) =>
      refine ⟨fun _ => rfl, fun h => absurd (fun i hi => ?_) h⟩
      obtain rfl := Option.some.inj hi
      exact Nat.le_add_left 1 l

theorem issues_update (g : M → M) (m : M) (d : D) : Issues (update g) m d 0 (g m) d := by
  intro left
  refine ⟨fun _ => ?_, fun h => absurd (fun _ _ => Nat.zero_le _) h⟩
  cases left <;> rfl

theorem Issues.andThen (h₁ : Issues first m d n m₁ d₁) (h₂ : Issues second m₁ d₁ k m₂ d₂) :
    Issues (fun s => first s >>= second) m d (n + k) m₂ d₂ := by
  intro left
  rw [fits_add]
  refine ⟨fun ⟨hn, hk⟩ => ?_, fun h => ?_⟩
  · have hsub : (left.map (· - n)).map (· - k) = left.map (· - (n + k)) := by
      cases left with
      | none => rfl
      | some l => exact congrArg some (Nat.sub_sub l n k)
    show (first _ >>= second) = _
    rw [(h₁ left).1 hn, ← hsub]
    exact (h₂ _).1 hk
  · by_cases hn : Fits left n
    · obtain ⟨s, hs⟩ := (h₂ (left.map (· - n))).2 fun hk => h ⟨hn, hk⟩
      refine ⟨s, ?_⟩
      show (first _ >>= second) = _
      rw [(h₁ left).1 hn]
      exact hs
    · obtain ⟨s, hs⟩ := (h₁ left).2 hn
      refine ⟨s, ?_⟩
      show (first _ >>= second) = _
      rw [hs]
      rfl

/-- A loop whose every turn issues `k` statements. -/
theorem issues_foldlM {turn : Live M D → α → Except (Live M D) (Live M D)}
    {does : M × D → α → M × D}
    (h : ∀ m d a, Issues (turn · a) m d k (does (m, d) a).1 (does (m, d) a).2) (l : List α) (m : M)
    (d : D) :
    Issues (fun s => l.foldlM turn s) m d (k * l.length) (l.foldl does (m, d)).1
      (l.foldl does (m, d)).2 := by
  induction l generalizing m d with
  | nil => exact issues_update id m d
  | cons a l ih =>
      have hlen : k * (a :: l).length = k + k * l.length := by
        rw [List.length_cons, Nat.mul_succ, Nat.add_comm]
      rw [hlen]
      exact ((h m d a).andThen (ih _ _)).congr fun left => by rw [List.foldlM_cons]

/-- What a transaction leaves when none of its statements throws. -/
theorem Issues.commit (h : Issues body m d n m₁ d₁) {left : Option ℕ} (hfits : Fits left n) :
    transaction body m d left = (m₁, d₁, false) := by
  rw [transaction, (h left).1 hfits]

theorem Issues.rollback (h : Issues body m d n m₁ d₁) {left : Option ℕ} (hfits : ¬ Fits left n) :
    transaction body m d left = ((final (body ⟨m, d, left⟩)).mem, d, true) := by
  obtain ⟨s, hs⟩ := (h left).2 hfits
  rw [transaction, hs]
  rfl

/-! ### What a body keeps -/

/-- Wherever the body ends, its memory has `P` if it had it before. -/
def Keeps (P : M → Prop) (body : Body M D) : Prop := ∀ s, P s.mem → P (final (body s)).mem

variable {P : M → Prop}

theorem keeps_statement (f : D → D) : Keeps P (statement (M := M) f) := by
  rintro ⟨m, d, _ | _ | k⟩ h <;> exact h

theorem keeps_update {g : M → M} (h : ∀ m, P m → P (g m)) : Keeps P (update (D := D) g) :=
  fun s hs => h s.mem hs

theorem Keeps.andThen (h₁ : Keeps P first) (h₂ : Keeps P second) :
    Keeps P fun s => first s >>= second := by
  intro s hs
  have hmid := h₁ s hs
  show P (final (first s >>= second)).mem
  cases hf : first s with
  | ok s' =>
      rw [hf] at hmid
      exact h₂ s' hmid
  | error s' =>
      rw [hf] at hmid
      exact hmid

theorem keeps_foldlM {turn : Live M D → α → Except (Live M D) (Live M D)}
    (h : ∀ a, Keeps P (turn · a)) (l : List α) : Keeps P fun s => l.foldlM turn s := by
  induction l with
  | nil => exact fun s hs => hs
  | cons a l ih =>
      intro s hs
      show P (final ((a :: l).foldlM turn s)).mem
      rw [List.foldlM_cons]
      exact (h a).andThen ih s hs

end Brust.Rollback
