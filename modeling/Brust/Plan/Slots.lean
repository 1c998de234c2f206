import Brust.Plan.Agree
import Brust.Plan.UseIds
import Mathlib.Data.List.DropRight

/-!
# Plan — the names the server owns

The ids that the compiler gives to components and to the clones of a component, and the context
names that are the server's: among them the slot of every child instance, which is named after the
child's id.  The test by name that keeps the loader's data off them knows them all but the slots of
clones (`isServerSlot_iff`): a clone's id ends in a letter and eight digits, where the test asks
for the eight digits alone.
-/

namespace Brust.Plan

/-! ### The ids of components -/

/-- A digit of a number in base 16. -/
def hexChar (n : ℕ) : Char := "0123456789abcdef".toList.getD (n % 16) '0'

/-- `{:08x}` -/
def hex8 (n : UInt32) : List Char := (List.range 8).map fun i => hexChar (n.toNat / 16 ^ (7 - i))

def fnv32 (s : String) : UInt32 :=
  ((utf8 s).foldl (fun hash b => (hash ^^^ b.toUInt64) * 0x100000001b3) 0xcbf29ce484222325 >>>
    32).toUInt32

/-- A word of the name: the first is lower case, the others begin in upper case. -/
def camelWord (first : Bool) : List Char → List Char
  | [] => []
  | c :: word => (if first then c.toLower else c.toUpper) :: word

def isSeparator (c : Char) : Bool := c == '/' || c == '\\'

/-- The camel case of a file's stem. -/
def camelStem (path : String) : List Char :=
  let file := path.toList.rtakeWhile (!isSeparator ·)
  let words := ((file.takeWhile (· ≠ '.')).splitOnP (!·.isAlphanum)).filter (· ≠ [])
  words.zipIdx.flatMap fun w => camelWord (w.2 == 0) w.1

/-- `component_id` -/
def componentId (path : String) : String :=
  String.ofList (camelStem path ++ '_' :: hex8 (fnv32 path))

/-- `named_component_id` -/
def namedComponentId (path name : String) : String :=
  String.ofList (camelWord true name.toList ++ '_' :: hex8 (fnv32 (path ++ "#" ++ name)))

def specHash (path : String) (loc : UInt32) : UInt32 :=
  (utf8 path ++ leBytes loc.toNat).foldl (fun h b => (h ^^^ b.toUInt32) * 0x01000193) 0x811c9dc5

/-- What a clone was made for: content, content of the rest props, fixed props, a host. -/
inductive CloneKind where
  | content
  | rest
  | fixed
  | host

def CloneKind.letter : CloneKind → Char
  | content => 's'
  | rest => 'r'
  | fixed => 'f'
  | host => 'h'

/-- The id of the clone that a call site makes of a component. -/
def cloneId (id : String) (kind : CloneKind) (site : String) (loc : UInt32) : String :=
  String.ofList (id.toList ++ '_' :: kind.letter :: hex8 (specHash site loc))

/-- The ids as the compiler builds them. -/
inductive BuiltId : String → Prop where
  | component (path : String) : BuiltId (componentId path)
  | named (path name : String) : BuiltId (namedComponentId path name)
  | clone {id : String} (h : BuiltId id) (kind : CloneKind) (site : String) (loc : UInt32) :
      BuiltId (cloneId id kind site loc)

/-! ### Their shape -/

def isHashDigit (c : Char) : Bool := c.isDigit || ('a' ≤ c && c ≤ 'f')

/-- Eight hex digits. -/
structure IsHash (s : List Char) : Prop where
  length : s.length = 8
  digits : s.all isHashDigit = true

/-- `<name>_<8 hex>`, and behind it a letter and eight digits for each time it was cloned. -/
inductive IdShape : List Char → Prop where
  | component (name : List Char) {hash : List Char} (h : IsHash hash) :
      IdShape (name ++ '_' :: hash)
  | clone {id : List Char} (h : IdShape id) (kind : CloneKind) {hash : List Char}
      (hhash : IsHash hash) : IdShape (id ++ '_' :: kind.letter :: hash)

theorem isHashDigit_hexChar (n : ℕ) : isHashDigit (hexChar n) = true := by
  have hall : ∀ k < 16, isHashDigit (hexChar k) = true := by decide
  have hmod : hexChar n = hexChar (n % 16) := by rw [hexChar, hexChar, Nat.mod_mod]
  rw [hmod]
  exact hall _ (Nat.mod_lt n (by decide))

theorem isHash_hex8 (n : UInt32) : IsHash (hex8 n) where
  length := by rw [hex8, List.length_map, List.length_range]
  digits := by
    rw [List.all_eq_true]
    intro c hc
    obtain ⟨i, -, rfl⟩ := List.mem_map.mp hc
    exact isHashDigit_hexChar _

theorem BuiltId.shape {id : String} (h : BuiltId id) : IdShape id.toList := by
  induction h with
  | component path =>
      rw [componentId, String.toList_ofList]
      exact .component _ (isHash_hex8 _)
  | named path name =>
      rw [namedComponentId, String.toList_ofList]
      exact .component _ (isHash_hex8 _)
  | clone _ kind site loc ih =>
      rw [cloneId, String.toList_ofList]
      exact .clone ih kind (isHash_hex8 _)

/-! ### The names -/

/-- Behind a prefix there are digits and nothing else. -/
def Numbered (p : String) (n : String) : Prop :=
  ∃ d, digits d = true ∧ n.toList = p.toList ++ d

/-- A child instance's slot: `__<id>_<ordinal>`. -/
def SlotOf (id : List Char) (n : String) : Prop :=
  ∃ d, digits d = true ∧ n.toList = "__".toList ++ (id ++ '_' :: d)

/-- The slot of a clone. -/
def CloneSlot (n : String) : Prop :=
  ∃ id, IdShape id ∧ ∃ kind : CloneKind, ∃ hash, IsHash hash ∧
    SlotOf (id ++ '_' :: kind.letter :: hash) n

/-- A context name that the server fills, or that the compiler prints unescaped. -/
inductive ServerName (n : String) : Prop where
  | owned (h : n ∈ ["__outlet", "__children", "__own", "_props", STORE_KEY])
  | ssr (h : "_ssr_".toList <+: n.toList)
  | precompute (h : Numbered "_s" n)
  | useId (h : Numbered "_id" n)
  | fused (h : "_fj_".toList <+: n.toList)
  | slot {id : List Char} (hid : IdShape id) (h : SlotOf id n)

theorem digits_toString (k : ℕ) : digits (toString k).toList = true := by
  have htext : (toString k).toList = Nat.toDigits 10 k := String.toList_ofList
  rw [digits, Bool.and_eq_true, decide_eq_true_eq, List.all_eq_true, htext]
  exact ⟨Nat.toDigits_ne_nil, fun c hc => Nat.isDigit_of_mem_toDigits (by decide) (by decide) hc⟩

/-- The slot of a component's child. -/
theorem slotOf_instanceName (children : List ChildRecord) (ch : ChildRecord × ℕ) :
    SlotOf ch.1.id.toList ("__" ++ instanceName children ch) := by
  refine ⟨_, digits_toString ((children.take ch.2).countP (·.id == ch.1.id) + 1), ?_⟩
  rw [instanceName]
  simp only [String.toList_append, List.append_assoc]
  rfl

/-! ### The test by name -/

theorem stripPrefix_eq_some {p s r : List Char} : stripPrefix p s = some r ↔ s = p ++ r := by
  rw [stripPrefix]
  split
  · next h =>
    obtain ⟨t, rfl⟩ := List.isPrefixOf_iff_prefix.mp h
    rw [List.drop_left, Option.some.injEq, List.append_right_inj, eq_comm]
  · next h =>
    refine iff_of_false (by simp) fun hs => h ?_
    rw [hs]
    exact List.isPrefixOf_iff_prefix.mpr (List.prefix_append _ _)

theorem rsplitOnce_append {c : Char} {a b : List Char} (hb : c ∉ b) :
    rsplitOnce c (a ++ c :: b) = some (a, b) := by
  have hrev : (a ++ c :: b).reverse = b.reverse ++ c :: a.reverse := by simp
  have hall : ∀ x ∈ b.reverse, decide (x ≠ c) = true := fun x hx =>
    decide_eq_true fun he => hb (he ▸ List.mem_reverse.mp hx)
  rw [rsplitOnce, if_pos (List.mem_append_right _ (List.mem_cons_self ..)), hrev,
    List.dropWhile_append_of_pos hall, List.takeWhile_append_of_pos hall]
  simp

theorem rsplitOnce_eq_some {c : Char} {s a b : List Char} :
    rsplitOnce c s = some (a, b) ↔ s = a ++ c :: b ∧ c ∉ b := by
  constructor
  · intro h
    by_cases hmem : c ∈ s
    · obtain ⟨r, l, hs, hr⟩ := List.eq_append_cons_of_mem (List.mem_reverse.mpr hmem)
      have hsplit : s = l.reverse ++ c :: r.reverse := by
        rw [← List.reverse_reverse s, hs]
        simp
      have hr' : c ∉ r.reverse := fun h => hr (List.mem_reverse.mp h)
      rw [hsplit, rsplitOnce_append hr'] at h
      cases h
      exact ⟨hsplit, hr'⟩
    · rw [rsplitOnce, if_neg hmem] at h
      cases h
  · rintro ⟨rfl, hb⟩
    exact rsplitOnce_append hb

/-- No digit is an underscore. -/
theorem underscore_notMem {s : List Char} {p : Char → Bool} (hp : p '_' = false)
    (h : s.all p = true) : '_' ∉ s := fun hmem => by
  have := List.all_eq_true.mp h _ hmem
  rw [hp] at this
  cases this

theorem digits_spec {d : List Char} (h : digits d = true) : d ≠ [] ∧ d.all Char.isDigit = true := by
  rw [digits, Bool.and_eq_true, decide_eq_true_eq] at h
  exact h

theorem ordinal_plain {d : List Char} (h : digits d = true) : '_' ∉ d :=
  underscore_notMem (by decide) (digits_spec h).2

theorem IsHash.plain {hash : List Char} (h : IsHash hash) : '_' ∉ hash :=
  underscore_notMem (by decide) h.digits

/-- The last piece of a slot's name and the last piece of its id. -/
theorem isInstanceDict_slot {name piece d : List Char} (hpiece : '_' ∉ piece)
    (hd : digits d = true) :
    isInstanceDict ("__".toList ++ (name ++ '_' :: piece ++ '_' :: d)) =
      (piece.length == 8 && piece.all isHashDigit) := by
  rw [isInstanceDict, stripPrefix_eq_some.mpr rfl, Option.any_some,
    rsplitOnce_append (ordinal_plain hd), Option.any_some]
  dsimp only
  rw [rsplitOnce_append hpiece, Option.any_some]
  dsimp only
  rw [hd, Bool.true_and]
  rfl

theorem isInstanceDict_iff {n : String} : isInstanceDict n.toList = true ↔
    ∃ name hash, IsHash hash ∧ SlotOf (name ++ '_' :: hash) n := by
  constructor
  · intro h
    rw [isInstanceDict, Option.any_eq_true] at h
    obtain ⟨rest, hrest, h⟩ := h
    rw [Option.any_eq_true] at h
    obtain ⟨⟨id, ordinal⟩, hsplit, h⟩ := h
    rw [Option.any_eq_true] at h
    obtain ⟨⟨name, hash⟩, hsplit', h⟩ := h
    simp only [Bool.and_eq_true, beq_iff_eq] at h
    obtain ⟨hid, -⟩ := rsplitOnce_eq_some.mp hsplit'
    obtain ⟨hrest', -⟩ := rsplitOnce_eq_some.mp hsplit
    exact ⟨name, hash, ⟨h.1.2, h.2⟩, ordinal, h.1.1,
      by rw [stripPrefix_eq_some.mp hrest, hrest', hid]⟩
  · rintro ⟨name, hash, hhash, d, hd, hn⟩
    rw [hn, isInstanceDict_slot hhash.plain hd, hhash.length, hhash.digits]
    rfl

/-- A clone's id has nine characters in its last piece. -/
theorem CloneSlot.not_instanceDict {n : String} (h : CloneSlot n) :
    isInstanceDict n.toList = false := by
  obtain ⟨id, -, kind, hash, hhash, d, hd, hn⟩ := h
  have hpiece : '_' ∉ kind.letter :: hash := by
    rw [List.mem_cons, not_or]
    exact ⟨by cases kind <;> decide, hhash.plain⟩
  rw [hn, isInstanceDict_slot hpiece hd, List.length_cons, hhash.length]
  rfl

/-- The slot of a component is that of one that was not cloned, or of a clone. -/
theorem slot_cases {id : List Char} (hid : IdShape id) {n : String} (h : SlotOf id n) :
    isInstanceDict n.toList = true ∨ CloneSlot n := by
  cases hid with
  | component name hhash => exact .inl (isInstanceDict_iff.mpr ⟨name, _, hhash, h⟩)
  | clone hid kind hhash => exact .inr ⟨_, hid, kind, _, hhash, h⟩

/-- The first two characters and the last of a slot. -/
theorem SlotOf.ends {id : List Char} {n : String} (h : SlotOf id n) :
    (∃ t, n.toList = '_' :: '_' :: t) ∧ n.toList.getLast?.any Char.isDigit = true := by
  obtain ⟨d, hd, hn⟩ := h
  obtain ⟨hne, hall⟩ := digits_spec hd
  refine ⟨⟨_, hn⟩, ?_⟩
  rw [hn, List.getLast?_append_of_ne_nil _ (by simp), List.getLast?_append_of_ne_nil _ (by simp),
    ← List.singleton_append, List.getLast?_append_of_ne_nil _ hne,
    List.getLast?_eq_some_getLast hne]
  exact List.all_eq_true.mp hall _ (List.getLast_mem hne)

theorem numbered_iff {p n : String} :
    (stripPrefix p.toList n.toList).any digits = true ↔ Numbered p n := by
  rw [Option.any_eq_true]
  exact ⟨fun ⟨d, hd, h⟩ => ⟨d, h, stripPrefix_eq_some.mp hd⟩,
    fun ⟨d, h, hd⟩ => ⟨d, stripPrefix_eq_some.mpr hd, h⟩⟩

/-- What the test knows. -/
theorem isServerSlot_cases {n : String} : isServerSlot n = true ↔
    n ∈ ["__outlet", "__children", "__own", "_props", STORE_KEY] ∨ "_ssr_".toList <+: n.toList ∨
      Numbered "_s" n ∨ Numbered "_id" n ∨ "_fj_".toList <+: n.toList ∨
      isInstanceDict n.toList = true := by
  simp only [isServerSlot, Bool.or_eq_true, decide_eq_true_eq, List.isPrefixOf_iff_prefix,
    numbered_iff, or_assoc]

theorem SlotOf.notMem_of_last {id : List Char} {n : String} (h : SlotOf id n) {l : List String}
    (hl : l.all (fun m => !m.toList.getLast?.any Char.isDigit) = true) : n ∉ l := fun hmem => by
  have := List.all_eq_true.mp hl n hmem
  rw [h.ends.2] at this
  cases this

/-- None of the other names looks like a slot. -/
theorem SlotOf.apart {id : List Char} {n : String} (h : SlotOf id n) :
    n ∉ ["__outlet", "__children", "__own", "_props", STORE_KEY] ∧
      ¬ "_ssr_".toList <+: n.toList ∧ ¬ Numbered "_s" n ∧ ¬ Numbered "_id" n ∧
      ¬ "_fj_".toList <+: n.toList := by
  obtain ⟨⟨t, ht⟩, -⟩ := h.ends
  have hprefix : ∀ {p : List Char} {c : Char} {q : List Char}, p = '_' :: c :: q → c ≠ '_' →
      ¬ p <+: n.toList := fun {p c q} hp hc hpre => by
    rw [ht, hp, List.cons_prefix_cons, List.cons_prefix_cons] at hpre
    exact hc hpre.2.1
  have hnumbered : ∀ {p : String} {c : Char} {q : List Char}, p.toList = '_' :: c :: q → c ≠ '_' →
      ¬ Numbered p n := fun {p c q} hp hc ⟨d, _, hd⟩ =>
    hprefix hp hc ⟨d, hd.symm⟩
  exact ⟨h.notMem_of_last (by decide), hprefix rfl (by decide), hnumbered rfl (by decide),
    hnumbered rfl (by decide), hprefix rfl (by decide)⟩

/-- **The test by name knows every name of the server but the slots of clones.** -/
theorem isServerSlot_iff {n : String} :
    isServerSlot n = true ↔ ServerName n ∧ ¬ CloneSlot n := by
  rw [isServerSlot_cases]
  constructor
  · intro h
    refine ⟨?_, fun hclone => ?_⟩
    · rcases h with h | h | h | h | h | h
      · exact .owned h
      · exact .ssr h
      · exact .precompute h
      · exact .useId h
      · exact .fused h
      · obtain ⟨name, hash, hhash, hslot⟩ := isInstanceDict_iff.mp h
        exact .slot (.component name hhash) hslot
    · have hdict := hclone.not_instanceDict
      obtain ⟨id, -, kind, hash, -, hslot⟩ := hclone
      obtain ⟨h₁, h₂, h₃, h₄, h₅⟩ := hslot.apart
      rcases h with h | h | h | h | h | h
      · exact h₁ h
      · exact h₂ h
      · exact h₃ h
      · exact h₄ h
      · exact h₅ h
      · rw [hdict] at h
        cases h
  · rintro ⟨h, hclone⟩
    cases h with
    | owned h => exact .inl h
    | ssr h => exact .inr (.inl h)
    | precompute h => exact .inr (.inr (.inl h))
    | useId h => exact .inr (.inr (.inr (.inl h)))
    | fused h => exact .inr (.inr (.inr (.inr (.inl h))))
    | slot hid h =>
        exact .inr (.inr (.inr (.inr (.inr ((slot_cases hid h).resolve_right hclone)))))

theorem CloneSlot.slotOf {n : String} (h : CloneSlot n) : ∃ id, SlotOf id n := by
  obtain ⟨id, -, kind, hash, -, hslot⟩ := h
  exact ⟨_, hslot⟩

theorem CloneSlot.serverName {n : String} (h : CloneSlot n) : ServerName n := by
  obtain ⟨id, hid, kind, hash, hhash, hslot⟩ := h
  exact .slot (.clone hid kind hhash) hslot

end Brust.Plan
