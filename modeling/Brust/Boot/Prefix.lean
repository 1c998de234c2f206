import Brust.Boot.Build

/-!
# Boot — the prefix on both sides

The build and the server ask the same shape of a prefix (`of_prefixError`), that it lies under the
base path (`startsWith_or_eq_iff`), and that no route stands in its way (`shadowed_eq`).  The
server's reserved paths lie under the base path too, and the build asks only for those at the root
of `_brust`; the default prefix is clear of them (`default_apart`).
-/

namespace Brust.Boot

open Core.Pipeline (under segOk prefixShape)

theorem badSegment_eq (s : List Char) : badSegment s = !segOk s := by
  rw [badSegment, SEG, segOk, bne, bne, bne]
  cases s == [] <;> cases s == ['.'] <;> cases s == ['.', '.'] <;>
    simp only [Bool.not_true, Bool.not_false, Bool.false_and, Bool.true_and, Bool.or_false,
      Bool.or_true, Bool.and_false, Bool.and_true]

theorem any_badSegment {l : List (List Char)} : l.any badSegment = false ↔ l.all segOk = true := by
  rw [List.any_eq_false, List.all_eq_true]
  simp only [badSegment_eq, Bool.not_eq_true', Bool.not_eq_false]

theorem startsWith_slash {p : String} :
    startsWith p "/" = true ↔ ∃ t, p.toList = '/' :: t := by
  rw [startsWith, List.isPrefixOf_iff_prefix]
  constructor
  · rintro ⟨t, ht⟩
    exact ⟨t, ht.symm⟩
  · rintro ⟨t, ht⟩
    exact ⟨t, ht.symm⟩

/-- A path of more than the `/`, in bytes. -/
theorem prefixShape_iff {p : String} {t : List Char} (hp : p.toList = '/' :: t) :
    prefixShape p = true ↔
      t ≠ [] ∧ p.toList.getLast? ≠ some '/' ∧ (t.splitOn '/').all segOk = true := by
  have hsize : 2 ≤ p.utf8ByteSize ↔ t ≠ [] := by
    rw [← p.ofList_toList, hp, String.utf8ByteSize_ofList, String.utf8Len_cons, Ne,
      ← String.utf8Len_eq_zero]
    have : ('/' : Char).utf8Size = 1 := rfl
    omega
  rw [prefixShape, hp]
  simp only [Bool.and_eq_true, decide_eq_true_eq, bne_iff_ne, hsize, List.isPrefixOf,
    beq_self_eq_true, true_and, List.drop_one, List.tail_cons]
  tauto

/-- A path of more than the `/`, in UTF-16. -/
theorem utf16Length_lt {t : List Char} : utf16Length ('/' :: t) < 2 ↔ t = [] := by
  have hpos : ∀ t : List Char, t.length ≤ utf16Length t := by
    intro t
    induction t with
    | nil => exact Nat.le_refl 0
    | cons c t ih =>
        rw [utf16Length, List.map_cons, List.sum_cons, List.length_cons]
        rw [utf16Length] at ih
        split <;> omega
  constructor
  · intro h
    rw [utf16Length, List.map_cons, List.sum_cons, if_pos (by decide)] at h
    have hlen := hpos t
    rw [utf16Length] at hlen
    exact List.length_eq_zero_iff.mp (by omega)
  · rintro rfl
    decide

/-- What the build lets pass has the shape that the server asks for. -/
theorem of_prefixError {p : String} {root : Bool} (h : prefixError (.str p) root = none) :
    root = true ∧ p = "/" ∨ prefixShape p = true := by
  rw [prefixError] at h
  split at h
  · next hroot =>
    rw [Bool.and_eq_true, decide_eq_true_eq] at hroot
    exact .inl hroot
  · split at h
    · cases h
    · next hstart =>
      split at h
      · cases h
      · next hsegments =>
        rw [Bool.or_eq_true, Bool.or_eq_true, not_or, not_or, Bool.not_eq_true',
          Bool.not_eq_false, decide_eq_true_eq, beq_iff_eq] at hstart
        obtain ⟨⟨hslash, hlen⟩, hend⟩ := hstart
        obtain ⟨t, ht⟩ := startsWith_slash.mp hslash
        rw [ht, utf16Length_lt] at hlen
        rw [ht, List.drop_one, List.tail_cons, Bool.not_eq_true, any_badSegment] at hsegments
        exact .inr ((prefixShape_iff ht).mpr ⟨hlen, hend, hsegments⟩)

/-- A base path is empty or has the shape of a prefix. -/
theorem of_normalizeBasePath {raw : Toml} {base : String}
    (h : normalizeBasePath raw = .ok base) : base = "" ∨ prefixShape base = true := by
  cases raw with
  | str raw =>
      rw [normalizeBasePath] at h
      split at h
      · exact .inl (Except.ok.inj h).symm
      · next hraw =>
        split at h
        · cases h
        · next hslash =>
          split at h
          · cases h
          · next hend =>
            split at h
            · cases h
            · next hsegments =>
              obtain rfl := Except.ok.inj h
              rw [Bool.not_eq_true', Bool.not_eq_false] at hslash
              obtain ⟨t, ht⟩ := startsWith_slash.mp hslash
              rw [ht, List.drop_one, List.tail_cons, Bool.not_eq_true, any_badSegment] at hsegments
              refine .inr ((prefixShape_iff ht).mpr ⟨fun hnil => hraw (.inr ?_), hend, hsegments⟩)
              rw [hnil] at ht
              exact String.toList_inj.mp ht
  | num | special | bool | list | table => cases h

/-! ### One path under another -/

theorem under_iff {p q : String} :
    under p q = true ↔ p = q ∨ (q.toList ++ ['/']) <+: p.toList := by
  rw [under, Bool.or_eq_true, beq_iff_eq, List.isPrefixOf_iff_prefix]

theorem startsWith_or_eq_iff {p q : String} :
    p = q ∨ startsWith p (q ++ "/") = true ↔ under p q = true := by
  rw [under_iff, startsWith, String.toList_append, List.isPrefixOf_iff_prefix]
  rfl

/-- Paths under one base are compared behind it. -/
theorem under_append (base x y : String) : under (base ++ x) (base ++ y) = under x y := by
  rw [Bool.eq_iff_iff, under_iff, under_iff, String.toList_append, String.toList_append,
    List.append_assoc, List.prefix_append_right_inj, ← String.toList_inj, ← String.toList_inj,
    String.toList_append, String.toList_append, List.append_cancel_left_eq]

theorem under_base (base : String) {x : String} (h : startsWith x "/" = true) :
    under (base ++ x) base = true := by
  obtain ⟨t, ht⟩ := startsWith_slash.mp h
  rw [under_iff, String.toList_append, ht]
  exact .inr ⟨t, by rw [List.append_assoc, List.singleton_append]⟩

/-! ### The prefix -/

/-- **The prefix is clear of the server's paths**: it is the root, or no reserved path under the
base lies under it, or it under one. -/
def Apart (base p : String) : Prop :=
  p = "/" ∨ ∀ r ∈ RESERVED, under p (base ++ r) = false ∧ under (base ++ r) p = false

theorem default_apart (base : String) : Apart base (base ++ DEFAULT_ACTION_PREFIX) := by
  refine .inr fun r hr => ?_
  rw [under_append, under_append]
  have hall : ∀ r ∈ RESERVED, under DEFAULT_ACTION_PREFIX r = false ∧
      under r DEFAULT_ACTION_PREFIX = false := forall_mem_of_all (by decide)
  exact hall r hr

/-- The default prefix has the shape, under any base. -/
theorem default_shape {base : String} (h : base = "" ∨ prefixShape base = true) :
    prefixShape (base ++ DEFAULT_ACTION_PREFIX) = true := by
  rcases h with rfl | hbase
  · decide
  · obtain ⟨t, ht⟩ : ∃ t, base.toList = '/' :: t := by
      have hbase' := hbase
      rw [prefixShape, Bool.and_eq_true, Bool.and_eq_true, Bool.and_eq_true,
        List.isPrefixOf_iff_prefix] at hbase'
      obtain ⟨t, ht⟩ := hbase'.1.1.1
      exact ⟨t, ht.symm⟩
    obtain ⟨-, -, hsegments⟩ := (prefixShape_iff ht).mp hbase
    have hp : (base ++ DEFAULT_ACTION_PREFIX).toList =
        '/' :: (t ++ DEFAULT_ACTION_PREFIX.toList) := by
      rw [String.toList_append, ht, List.cons_append]
    refine (prefixShape_iff hp).mpr ⟨?_, ?_, ?_⟩
    · exact List.append_ne_nil_of_right_ne_nil _ (by decide)
    · rw [hp, ← List.cons_append, List.getLast?_append_of_ne_nil _ (by decide)]
      decide
    · have hdefault : DEFAULT_ACTION_PREFIX.toList = '/' :: "_brust/action".toList := by decide
      rw [hdefault, List.splitOn_eq_splitOnP,
        List.splitOnP_append_cons (p := (· == '/')) t _ (beq_self_eq_true '/'), List.all_append,
          ← List.splitOn_eq_splitOnP, hsegments, Bool.true_and]
      decide

/-- The routes that the build refuses are those that the server refuses. -/
theorem shadowed_eq (pathPrefix : String) (l : FlatRoute) : shadowed pathPrefix l =
    (l.pattern == pathPrefix ||
      under l.pattern pathPrefix && Core.Pipeline.contains ['{', '*'] l.pattern.toList) := by
  rw [shadowed, startsWith, under, String.toList_append]
  change (l.pattern == pathPrefix || (pathPrefix.toList ++ ['/']).isPrefixOf _ && _) = _
  cases l.pattern == pathPrefix
  · rw [Bool.false_or, Bool.false_or, Bool.false_or]
  · rw [Bool.true_or, Bool.true_or]

namespace ActionsConfig

variable (c : ActionsConfig)

/-- The limits that the server asks for. -/
structure Limits : Prop where
  body : 1 ≤ c.maxBodyBytes ∧ c.maxBodyBytes ≤ MAX_ACTION_BYTES
  response : MIN_RESPONSE_BYTES ≤ c.maxResponseBytes ∧ c.maxResponseBytes ≤ MAX_ACTION_BYTES
  stream : 1 ≤ c.stream.maxBytes ∧ c.stream.maxBytes ≤ MAX_STREAM_BYTES
  times : ¬ (c.stream.idleMs = 0 ∨ c.stream.totalMs = 0)
  streams : c.stream.maxStreams ≠ some 0

variable {c}

theorem Limits.validateLimits (h : c.Limits) : c.validateLimits = .ok () := by
  rw [ActionsConfig.validateLimits, if_neg (not_not_intro h.body),
    if_neg (not_not_intro h.response),
    if_neg (not_not_intro h.stream), if_neg h.times, if_neg h.streams]

/-- **The server's verdict on a prefix that the build lets pass** is whether it is clear of the
reserved paths. -/
theorem validate_iff {m : Manifest} (hlimits : c.Limits)
    (hroot : c.pathPrefix = "/" → m.actionsOnly = true)
    (hshape : c.pathPrefix ≠ "/" → prefixShape c.pathPrefix = true)
    (hbase : c.pathPrefix ≠ "/" → m.basePath = "" ∨ under c.pathPrefix m.basePath = true)
    (hroutes : m.routes.any (shadowed c.pathPrefix) = false) :
    c.validate m = .ok () ↔ Apart m.basePath c.pathPrefix := by
  rw [validate]
  by_cases hp : c.pathPrefix = "/"
  · rw [if_pos hp, hroot hp, hlimits.validateLimits]
    exact iff_of_true rfl (.inl hp)
  · have hbase' : ¬ (m.basePath ≠ "" ∧ (!under c.pathPrefix m.basePath) = true) := by
      rintro ⟨hne, hunder⟩
      rw [(hbase hp).resolve_left hne] at hunder
      cases hunder
    have hroutes' : (m.routes.any fun rt => rt.pattern == c.pathPrefix ||
        under rt.pattern c.pathPrefix && Core.Pipeline.contains ['{', '*'] rt.pattern.toList) =
        false := by
      rw [← hroutes]
      exact congrArg m.routes.any (funext fun rt => (shadowed_eq c.pathPrefix rt).symm)
    have hoverlaps : (RESERVED.any fun r => overlaps c.pathPrefix (m.basePath ++ r)) = false ↔
        Apart m.basePath c.pathPrefix := by
      rw [Apart, or_iff_right hp, List.any_eq_false]
      simp only [overlaps, Bool.not_eq_true, Bool.or_eq_false_iff]
    rw [if_neg hp, hshape hp, if_neg (by decide), if_neg hbase', hroutes',
      if_neg Bool.false_ne_true, hlimits.validateLimits, ← hoverlaps]
    cases RESERVED.any fun r => overlaps c.pathPrefix (m.basePath ++ r) with
    | false => exact iff_of_true rfl rfl
    | true => exact iff_of_false (fun h => by cases h) (fun h => by cases h)

end ActionsConfig

end Brust.Boot
