import Brust.Plan.Jobs
import Brust.Support.Framing
import Brust.Support.JsonText
import Std.Data.String.ToNat

/-!
# Plan — job keys

What a job's key says of its plan.  A key is either the user's, after the component and the job, or
the hash of the component, the job and the inputs, each after its length; the inputs are hashed as
their ordered text, which determines their ordered value (`ordered_of_orderedText`).

**Soundness** (`job_key_sound`): where a component id is free of `/` and a job id of `/` and `#`, as
the build writes `j<n>`, plans of one key are of one component, one job and one row where rows are
used, and have one user key or equal inputs.  A job id with a `/` meets another job's user key
(`job_key_merges`).
-/

namespace Brust.Plan

/-! ### The ordered value of a tree -/

section Ordered
variable (ryu : Float → String)

namespace Node

mutual

/-- The JSON value that `Ordered` writes of a tree. -/
def ordered : Node → JsonValue
  | .null => .null
  | .bool b => .bool b
  | .num n => .num (numberText ryu n)
  | .str s => .str s
  | .arr xs => .arr (orderedItems xs)
  | .map entries order => .obj (eachOrdered (orderedEntries entries) order)

def orderedItems : List Node → List JsonValue
  | [] => []
  | x :: xs => ordered x :: orderedItems xs

def orderedEntries : List (String × Node) → List (String × JsonValue)
  | [] => []
  | (k, x) :: rest => (k, ordered x) :: orderedEntries rest

end

end Node

theorem lookup_map_snd {α β : Type} (f : α → β) (m : List (String × α)) (k : String) :
    (m.map fun e => (e.1, f e.2)).lookup k = (m.lookup k).map f := by
  induction m with
  | nil => rfl
  | cons e m ih =>
      rw [List.map_cons, SortedMap.lookup_cons_if, SortedMap.lookup_cons_if, ih]
      split <;> rfl

/-- The order is of the keys alone. -/
theorem eachOrdered_map {α β : Type} (f : α → β) (m : List (String × α))
    (order : Option (List String)) :
    eachOrdered (m.map fun e => (e.1, f e.2)) order =
      (eachOrdered m order).map fun e => (e.1, f e.2) := by
  cases order with
  | none => rfl
  | some order =>
      have hhinted : (order.filterMap fun k =>
          ((m.map fun e => (e.1, f e.2)).lookup k).map (k, ·)) =
          (order.filterMap fun k => (m.lookup k).map (k, ·)).map fun e => (e.1, f e.2) := by
        rw [List.map_filterMap]
        refine List.filterMap_congr fun k _ => ?_
        rw [lookup_map_snd, Option.map_map, Option.map_map]
        rfl
      have hrest : ((m.map fun e => (e.1, f e.2)).filter fun e => e.1 ∉ order) =
          (m.filter fun e => e.1 ∉ order).map fun e => (e.1, f e.2) := by
        rw [List.filter_map]
        rfl
      simp only [eachOrdered, hhinted, hrest, List.length_map]
      split
      · rw [List.map_append]
      · rfl

theorem renderEntries_eq_map (xs : List (String × JsonValue)) :
    JsonValue.renderEntries xs =
      xs.map fun e => jsonString e.1.toList ++ ':' :: JsonValue.render e.2 := by
  induction xs with
  | nil => rfl
  | cons x xs ih => rw [JsonValue.renderEntries, ih, List.map_cons]

mutual

/-- **The ordered text of a tree is the text of its ordered value.** -/
theorem text_eq_render : ∀ n : Node, n.text ryu true = (n.ordered ryu).render
  | .null | .bool _ | .num _ | .str _ => rfl
  | .arr xs => by
      rw [Node.text, Node.ordered, JsonValue.render, itemTexts_eq_render xs, Node.joined]
  | .map entries order => by
      rw [Node.text, Node.ordered, JsonValue.render, entryTexts_eq_render entries, eachOrdered_map,
        renderEntries_eq_map, Node.objectText, Node.joined, List.map_map, if_pos rfl]
      rfl

theorem itemTexts_eq_render : ∀ xs : List Node,
    Node.itemTexts ryu true xs = JsonValue.renderItems (Node.orderedItems ryu xs)
  | [] => rfl
  | x :: xs => by
      rw [Node.itemTexts, Node.orderedItems, JsonValue.renderItems, text_eq_render x,
        itemTexts_eq_render xs]

theorem entryTexts_eq_render : ∀ entries : List (String × Node),
    Node.entryTexts ryu true entries =
      (Node.orderedEntries ryu entries).map fun e => (e.1, JsonValue.render e.2)
  | [] => rfl
  | (k, x) :: rest => by
      rw [Node.entryTexts, Node.orderedEntries, List.map_cons, text_eq_render x,
        entryTexts_eq_render rest]

end

/-! ### Its numerals -/

theorem numeralChar_digitChar {c : Char} (h : c.isDigit = true) :
    JsonValue.numeralChar c = true := by
  rw [JsonValue.numeralChar, h, Bool.true_or]

theorem numeral_repr (n : ℕ) : JsonValue.Numeral (toString n).toList := by
  have hdigits : (toString n).toList = Nat.toDigits 10 n := String.toList_ofList
  rw [hdigits]
  exact ⟨Nat.toDigits_ne_nil, fun c hc => numeralChar_digitChar (Nat.isDigit_of_mem_toDigits
    (by decide) (by decide) hc)⟩

theorem numeral_int (i : ℤ) : JsonValue.Numeral (toString i).toList := by
  cases i with
  | ofNat n => exact numeral_repr n
  | negSucc n =>
      have hneg : (toString (Int.negSucc n)).toList = '-' :: (toString (n + 1)).toList := by
        rw [Int.toString_eq_repr]
        simp [Int.repr]
      rw [hneg]
      refine ⟨List.cons_ne_nil _ _, fun c hc => ?_⟩
      rcases List.mem_cons.mp hc with rfl | hc
      · decide
      · exact (numeral_repr (n + 1)).2 c hc

theorem entryNumerals_iff {xs : List (String × JsonValue)} :
    JsonValue.EntryNumerals xs ↔ ∀ e ∈ xs, e.2.Numerals := by
  induction xs with
  | nil => simp [JsonValue.EntryNumerals]
  | cons x xs ih => rw [JsonValue.EntryNumerals, ih, List.forall_mem_cons]

/-- The order picks entries of the map. -/
theorem mem_of_mem_eachOrdered {α : Type} {m : List (String × α)} {order : Option (List String)}
    {e : String × α} (h : e ∈ eachOrdered m order) : e ∈ m := by
  cases order with
  | none => exact h
  | some order =>
      have hhinted : e ∈ (order.filterMap fun k => (m.lookup k).map (k, ·)) → e ∈ m := by
        intro h
        obtain ⟨k, -, hk⟩ := List.mem_filterMap.mp h
        obtain ⟨v, hv, rfl⟩ := Option.map_eq_some_iff.mp hk
        exact SortedMap.mem_of_lookup hv
      rw [eachOrdered] at h
      split at h
      · rcases List.mem_append.mp h with h | h
        · exact hhinted h
        · exact (List.mem_filter.mp h).1
      · exact hhinted h

section
variable {ryu : Float → String}

theorem numeral_numberText (hryu : ∀ f, JsonValue.Numeral (ryu f).toList) :
    ∀ n : Number, JsonValue.Numeral (Node.numberText ryu n)
  | .posInt n => numeral_repr n.toNat
  | .negInt n => numeral_int n.toInt
  | .float f => hryu f

mutual

theorem numerals_ordered (hryu : ∀ f, JsonValue.Numeral (ryu f).toList) :
    ∀ n : Node, (n.ordered ryu).Numerals
  | .null | .bool _ | .str _ => trivial
  | .num n => numeral_numberText hryu n
  | .arr xs => by
      rw [Node.ordered, JsonValue.Numerals]
      exact numerals_orderedItems hryu xs
  | .map entries order => by
      rw [Node.ordered, JsonValue.Numerals, entryNumerals_iff]
      exact fun e he => numerals_orderedEntries hryu entries e (mem_of_mem_eachOrdered he)

theorem numerals_orderedItems (hryu : ∀ f, JsonValue.Numeral (ryu f).toList) :
    ∀ xs : List Node, JsonValue.ItemNumerals (Node.orderedItems ryu xs)
  | [] => trivial
  | x :: xs => ⟨numerals_ordered hryu x, numerals_orderedItems hryu xs⟩

theorem numerals_orderedEntries (hryu : ∀ f, JsonValue.Numeral (ryu f).toList) :
    ∀ entries : List (String × Node), ∀ e ∈ Node.orderedEntries ryu entries, e.2.Numerals
  | [], e, he => by cases he
  | (k, x) :: rest, e, he => by
      rcases List.mem_cons.mp he with rfl | he
      · exact numerals_ordered hryu x
      · exact numerals_orderedEntries hryu rest e he

end

/-- **The text of a job's inputs determines their ordered value.** -/
theorem ordered_of_orderedText {E : Type} {crates : Crates E}
    (hryu : ∀ f, JsonValue.Numeral (crates.ryu f).toList) {a b : Node}
    (h : orderedText crates a = orderedText crates b) :
      a.ordered crates.ryu = b.ordered crates.ryu := by
  rw [orderedText, orderedText, String.ofList_inj, text_eq_render, text_eq_render] at h
  exact JsonValue.render_inj (numerals_ordered hryu a) (numerals_ordered hryu b) h

end

end Ordered

/-! ### One plan's key -/

variable {E : Type}

/-- The arguments of one `plan_one`. -/
structure PlanCall (E : Type) where
  cid : String
  callPrefix : String
  job : JobTpl E
  props : Node
  dest : Dest
  row : Option ℕ
  src : PlanSrc
  snapshot : Option Node

namespace PlanCall

variable (crates : Crates E) (c : PlanCall E)

def run : Except PlanError JobPlan :=
  planOne crates c.cid c.callPrefix c.job c.props c.dest c.row c.src c.snapshot

/-- The row of a `per_instance` job, where its inputs do not identify it. -/
def keyRow : Option ℕ :=
  match c.dest with
  | .chain _ (some r) => if !c.job.hasProps || c.job.cacheKey.isSome then some r else none
  | _ => none

/-- The job as its key has it. -/
def keyJob : String :=
  match c.keyRow with
  | some r => c.job.id ++ "#" ++ toString r
  | none => c.job.id

/-- The component's id and the job's are as the build writes them. -/
structure Named (c : PlanCall E) : Prop where
  component : '/' ∉ c.cid.toList
  job : '/' ∉ c.job.id.toList
  row : '#' ∉ c.job.id.toList

/-- The hashed fields have a length that is a `u32`. -/
structure Short (crates : Crates E) (c : PlanCall E) (p : JobPlan) : Prop where
  component : (utf8 c.cid).length < 2 ^ 32
  job : (utf8 c.keyJob).length < 2 ^ 32
  inputs : (utf8 (orderedText crates p.inputs)).length < 2 ^ 32

end PlanCall

section Key
variable {crates : Crates E} {c c' : PlanCall E} {p p' : JobPlan}

/-- The keys that planning makes of what it projects. -/
theorem run_keys (h : c.run crates = .ok p) : p.componentId = c.cid ∧ p.jobId = c.job.id ∧
    (p.key, p.userKey) = planKey crates c.cid c.keyJob c.job c.props p.inputs := by
  obtain ⟨projected, -, h⟩ := bind_eq_ok.mp h
  cases h
  refine ⟨rfl, rfl, ?_⟩
  rw [PlanCall.keyJob, PlanCall.keyRow]
  rcases c.dest with ⟨component, _ | r⟩ | ⟨parent, component, slot, row⟩
  · rfl
  · dsimp only
    cases !c.job.hasProps || c.job.cacheKey.isSome <;> rfl
  · rfl

/-- A plan's key is made of its component, its job with the row, and its inputs. -/
theorem key_cases (h : c.run crates = .ok p) : p.componentId = c.cid ∧ p.jobId = c.job.id ∧
    ((∃ u, p.userKey = some u ∧ p.key = "k:" ++ c.cid ++ "/" ++ c.keyJob ++ "/" ++ u) ∨
      p.userKey = none ∧ p.key = jobKey crates c.cid c.keyJob p.inputs) := by
  obtain ⟨hcomponent, hjob, hkeys⟩ := run_keys h
  refine ⟨hcomponent, hjob, ?_⟩
  rw [planKey] at hkeys
  split at hkeys
  next u _ =>
    obtain ⟨hkey, huser⟩ := Prod.mk.inj hkeys
    exact Or.inl ⟨u, huser, hkey⟩
  next =>
    obtain ⟨hkey, huser⟩ := Prod.mk.inj hkeys
    exact Or.inr ⟨huser, hkey⟩

/-! ### Equal keys -/

theorem digits_notMem {d : Char} (hd : d.isDigit = false) (r : ℕ) : d ∉ (toString r).toList := by
  intro h
  have hdigits : (toString r).toList = Nat.toDigits 10 r := String.toList_ofList
  rw [hdigits] at h
  rw [Nat.isDigit_of_mem_toDigits (by decide) (by decide) h] at hd
  cases hd

theorem slash_notMem_keyJob (hc : c.Named) : '/' ∉ c.keyJob.toList := by
  rw [PlanCall.keyJob]
  cases c.keyRow with
  | none => exact hc.job
  | some r =>
      simp only [String.toList_append, List.mem_append, not_or]
      exact ⟨⟨hc.job, by decide⟩, digits_notMem (by decide) r⟩

/-- The job and its row are told apart by the first `#`. -/
theorem keyJob_inj (hc : c.Named) (hc' : c'.Named) (h : c.keyJob = c'.keyJob) :
    c.job.id = c'.job.id ∧ c.keyRow = c'.keyRow := by
  rw [PlanCall.keyJob, PlanCall.keyJob] at h
  cases hr : c.keyRow with
  | none =>
      cases hr' : c'.keyRow with
      | none =>
          rw [hr, hr'] at h
          exact ⟨h, rfl⟩
      | some r' =>
          rw [hr, hr'] at h
          refine absurd ?_ hc.row
          rw [show c.job.id = _ from h]
          simp
  | some r =>
      cases hr' : c'.keyRow with
      | none =>
          rw [hr, hr'] at h
          refine absurd ?_ hc'.row
          rw [← show _ = c'.job.id from h]
          simp
      | some r' =>
          rw [hr, hr'] at h
          have htext := congrArg String.toList h
          simp only [String.toList_append, List.append_assoc] at htext
          obtain ⟨hid, hrow⟩ := append_cons_inj_left hc.row hc'.row htext
          have hrow := Nat.repr_injective (String.toList_inj.mp hrow)
          exact ⟨String.toList_inj.mp hid, by rw [hrow]⟩

theorem utf8_inj {s t : String} (h : utf8 s = utf8 t) : s = t := by
  have harr : s.toUTF8.data = t.toUTF8.data := Array.toList_inj.mp h
  exact String.toByteArray_inj.mp (ByteArray.ext harr)

theorem leBytes_inj {m n : ℕ} (hm : m < 2 ^ 32) (hn : n < 2 ^ 32) (h : leBytes m = leBytes n) :
    m = n := by
  simp only [leBytes, List.cons.injEq, ← UInt8.toNat_inj, UInt8.toNat_ofNat', and_true] at h
  omega

theorem jobKey_inj (hash : Function.Injective crates.blake3) {cid cid' kj kj' : String} {a b : Node}
    (hs : ∀ f ∈ [cid, kj, orderedText crates a], (utf8 f).length < 2 ^ 32)
    (hs' : ∀ f ∈ [cid', kj', orderedText crates b], (utf8 f).length < 2 ^ 32)
    (h : jobKey crates cid kj a = jobKey crates cid' kj' b) :
    cid = cid' ∧ kj = kj' ∧ orderedText crates a = orderedText crates b := by
  have hbytes := hash h
  have hwidth : ∀ n, (leBytes n).length = 4 := fun _ => rfl
  have hframes : (([cid, kj, orderedText crates a].map utf8).flatMap fun x =>
    leBytes x.length ++ x) =
      ([cid', kj', orderedText crates b].map utf8).flatMap fun y => leBytes y.length ++ y := by
    rw [List.flatMap_map, List.flatMap_map]
    exact hbytes
  have hfields : [cid, kj, orderedText crates a].map utf8 =
      [cid', kj', orderedText crates b].map utf8 :=
    frames_inj hwidth leBytes_inj rfl (List.forall_mem_map.mpr hs) (List.forall_mem_map.mpr hs')
      hframes
  simp only [List.map_cons, List.map_nil, List.cons.injEq, and_true] at hfields
  exact ⟨utf8_inj hfields.1, utf8_inj hfields.2.1, utf8_inj hfields.2.2⟩

/-- The keys of users: the component up to the first `/`, the job up to the next. -/
theorem userKey_inj (hc : c.Named) (hc' : c'.Named) {u u' : String}
    (h : "k:" ++ c.cid ++ "/" ++ c.keyJob ++ "/" ++ u =
      "k:" ++ c'.cid ++ "/" ++ c'.keyJob ++ "/" ++ u') :
    c.cid = c'.cid ∧ c.keyJob = c'.keyJob ∧ u = u' := by
  have htext := congrArg String.toList h
  simp only [String.toList_append, List.append_assoc] at htext
  obtain ⟨hcid, hrest⟩ := append_cons_inj_left hc.component hc'.component
    (List.append_cancel_left htext)
  obtain ⟨hjob, hu⟩ := append_cons_inj_left (slash_notMem_keyJob hc) (slash_notMem_keyJob hc') hrest
  exact ⟨String.toList_inj.mp hcid, String.toList_inj.mp hjob, String.toList_inj.mp hu⟩

/-- A hash is no user's key. -/
theorem userKey_ne_hash (hhex : ∀ bytes, ∀ d ∈ (crates.blake3 bytes).toList, IsHex d)
    (cid kj u : String) (cid' kj' : String) (inputs : Node) :
    "k:" ++ cid ++ "/" ++ kj ++ "/" ++ u ≠ jobKey crates cid' kj' inputs := by
  intro h
  have hk : 'k' ∈ (jobKey crates cid' kj' inputs).toList := by
    rw [← h]
    simp
  exact absurd (hhex _ _ hk) (by decide)

/-- **Plans of one key** are of one component, one job and, where the row is in the key, one row;
and they have one user key, or none and equal inputs, the order of their keys included.  The key of
a plan with a user key is not the key of one without. -/
theorem job_key_sound (crates : Crates E) (hash : Function.Injective crates.blake3)
    (hhex : ∀ bytes, ∀ d ∈ (crates.blake3 bytes).toList, IsHex d)
    (hryu : ∀ f, JsonValue.Numeral (crates.ryu f).toList) (c c' : PlanCall E) (p p' : JobPlan)
    (hc : c.Named) (hc' : c'.Named) (h : c.run crates = .ok p) (h' : c'.run crates = .ok p')
    (hs : c.Short crates p) (hs' : c'.Short crates p') :
    (p.key = p'.key → p.componentId = p'.componentId ∧ p.jobId = p'.jobId ∧
      c.keyRow = c'.keyRow ∧
      ((∃ u, p.userKey = some u ∧ p'.userKey = some u) ∨
        p.userKey = none ∧ p'.userKey = none ∧
          p.inputs.ordered crates.ryu = p'.inputs.ordered crates.ryu)) ∧
    (p.userKey ≠ none → p'.userKey = none → p.key ≠ p'.key) := by
  obtain ⟨hcid, hjid, hk⟩ := key_cases h
  obtain ⟨hcid', hjid', hk'⟩ := key_cases h'
  rw [hcid, hcid', hjid, hjid']
  rcases hk with ⟨u, hu, hk⟩ | ⟨hu, hk⟩ <;> rcases hk' with ⟨u', hu', hk'⟩ | ⟨hu', hk'⟩ <;>
    rw [hk, hk', hu, hu']
  · refine ⟨fun heq => ?_, fun _ hnone => by cases hnone⟩
    obtain ⟨hcomponent, hkeyJob, rfl⟩ := userKey_inj hc hc' heq
    obtain ⟨hjob, hrow⟩ := keyJob_inj hc hc' hkeyJob
    exact ⟨hcomponent, hjob, hrow, Or.inl ⟨u, rfl, rfl⟩⟩
  · have hne := userKey_ne_hash hhex c.cid c.keyJob u c'.cid c'.keyJob p'.inputs
    exact ⟨fun heq => absurd heq hne, fun _ _ => hne⟩
  · have hne := userKey_ne_hash hhex c'.cid c'.keyJob u' c.cid c.keyJob p.inputs
    exact ⟨fun heq => absurd heq.symm hne, fun hsome => absurd rfl hsome⟩
  · refine ⟨fun heq => ?_, fun hsome => absurd rfl hsome⟩
    obtain ⟨hcomponent, hkeyJob, htext⟩ := jobKey_inj hash
      (by simpa using ⟨hs.component, hs.job, hs.inputs⟩)
      (by simpa using ⟨hs'.component, hs'.job, hs'.inputs⟩) heq
    obtain ⟨hjob, hrow⟩ := keyJob_inj hc hc' hkeyJob
    exact ⟨hcomponent, hjob, hrow, Or.inr ⟨rfl, rfl, ordered_of_orderedText hryu htext⟩⟩

end Key

/-! ### Two jobs of one card -/

section Card

/-- Nothing is read or evaluated, and a hash is the bytes themselves in hex. -/
def hexCrates : Crates Unit where
  compile := fun src => .error src
  eval := fun _ _ => .ok none
  fromStr := fun _ => none
  fromSlice := fun _ => none
  fromSlice_utf8 := fun _ => rfl
  ryu := fun _ => "0.0"
  blake3 := fun bytes => String.ofList (hexText bytes)

theorem hexCrates_injective : Function.Injective hexCrates.blake3 := fun _ _ h =>
  hexText_inj (String.ofList_inj.mp h)

theorem hexCrates_hex (bytes : List UInt8) : ∀ d ∈ (hexCrates.blake3 bytes).toList, IsHex d := by
  intro d hd
  rw [hexCrates, String.toList_ofList] at hd
  exact isHex_of_mem_hexText hd

theorem hexCrates_numeral (f : Float) : JsonValue.Numeral (hexCrates.ryu f).toList := by
  change JsonValue.Numeral "0.0".toList
  exact ⟨List.cons_ne_nil _ _, List.all_eq_true.mp rfl⟩

/-- A job of the card with its props as inputs, in one row. -/
def rowCall (r : ℕ) : PlanCall Unit where
  cid := "card"
  callPrefix := "card/j1"
  job := ⟨"j1", .precompute, .props ⟨[], none⟩, true, none, none, none, [], [], none⟩
  props := .map [] none
  dest := .chain "card" (some r)
  row := some r
  src := ⟨0, 0, none⟩
  snapshot := none

/-- Two rows of equal props share a key, and their row is not in it. -/
theorem job_key_sound_rows : ∃ p p', (rowCall 0).run hexCrates = .ok p ∧
    (rowCall 1).run hexCrates = .ok p' ∧ p.key = p'.key ∧ (rowCall 0).keyRow = (rowCall 1).keyRow ∧
    p.inputs.ordered hexCrates.ryu = p'.inputs.ordered hexCrates.ryu := by
  refine ⟨_, _, rfl, rfl, rfl, ?_⟩
  have hsound := (job_key_sound hexCrates hexCrates_injective hexCrates_hex hexCrates_numeral
    (rowCall 0) (rowCall 1) _ _ ⟨by decide, by decide, by decide⟩
    ⟨by decide, by decide, by decide⟩ rfl rfl
    ⟨by decide +kernel, by decide +kernel, by decide +kernel⟩
    ⟨by decide +kernel, by decide +kernel, by decide +kernel⟩).1 rfl
  obtain ⟨-, -, hrow, ⟨u, hu, -⟩ | ⟨-, -, hinputs⟩⟩ := hsound
  · cases hu
  · exact ⟨hrow, hinputs⟩

/-- A job of the card with a user key, read from its props. -/
def keyCall (id key : String) : PlanCall Unit where
  cid := "card"
  callPrefix := "card/" ++ id
  job := ⟨id, .precompute, .all, false, none, some [.key "k"], none, [], [], none⟩
  props := .map [("k", .str key)] none
  dest := .chain "card" none
  row := none
  src := ⟨0, 0, none⟩
  snapshot := none

/-- **A job id with a `/` meets another job's user key.** -/
theorem job_key_merges : ¬ ∀ (crates : Crates Unit) (c c' : PlanCall Unit) (p p' : JobPlan),
    Function.Injective crates.blake3 →
    (∀ bytes, ∀ d ∈ (crates.blake3 bytes).toList, IsHex d) →
    (∀ f, JsonValue.Numeral (crates.ryu f).toList) →
    '/' ∉ c.cid.toList → '/' ∉ c'.cid.toList → c.run crates = .ok p → c'.run crates = .ok p' →
    c.Short crates p → c'.Short crates p' → p.key = p'.key → p.jobId = p'.jobId := by
  intro h
  have hjob := h hexCrates (keyCall "a/b" "x") (keyCall "a" "b/x") _ _ hexCrates_injective
    hexCrates_hex hexCrates_numeral (by decide) (by decide) rfl rfl
    ⟨by decide +kernel, by decide +kernel, by decide +kernel⟩
    ⟨by decide +kernel, by decide +kernel, by decide +kernel⟩ (by decide +kernel)
  exact absurd hjob (by decide)

end Card

end Brust.Plan
