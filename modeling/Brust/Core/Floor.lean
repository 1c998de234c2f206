import Brust.Core.Invalidate
import Brust.Support.JsonString
import Brust.Support.Map
import Mathlib.Data.List.MinMax
import Mathlib.Data.List.Dedup

/-!
# Core — the invalidation floor

For each name (a tag, a method and path, a key prefix, and the two prefix-scoped forms) the floor
keeps the sequence number of the last invalidation this instance replayed, for `FLOOR_NAMES` names
at most, the oldest raised first out; and one global floor for gaps.  An L2 entry stamped below the
floor of one of its names is not served.

`run_rejects_iff` says what a run of raises and gap clears rejects while it names no more than
`FLOOR_NAMES` names, and `floors_iff_covers` that a raised name floors a page exactly if the
invalidation covers its key, for a page whose path is in normal form.
-/

namespace Brust.Core

open Brust.Routing

def FLOOR_NAMES : ℕ := 4096

/-! ### Names -/

/-- `prefix_part`: a key prefix as a JSON string. -/
def prefixPart (p : String) : String := String.ofList (jsonString p.toList)

inductive FloorName where
  | tag (t : String)
  | path (method path : String)
  | keyPrefix (p : String)
  | prefixTag (p t : String)
  | prefixPath (p method path : String)
  deriving DecidableEq

/-- How a name is written: `tag_name`, `path_name`, `prefix_name`, `prefix_tag_name` and
`prefix_path_name`. -/
def FloorName.text : FloorName → String
  | .tag t => "t:" ++ t
  | .path m p => "p:" ++ m ++ " " ++ p
  | .keyPrefix px => "px:" ++ prefixPart px
  | .prefixTag px t => "pt:" ++ prefixPart px ++ t
  | .prefixPath px m p => "pp:" ++ prefixPart px ++ m ++ " " ++ p

/-- The names an invalidation raises, in order. -/
def InvalidateArgs.floorNames (args : InvalidateArgs) : List FloorName :=
  args.tags.map (fun t => match args.keyPrefix with
    | none => .tag t
    | some px => .prefixTag px t) ++
  match args.path, args.keyPrefix with
  | some p, none => [.path (args.method.getD "GET") (normalizeRequestPath p)]
  | some p, some px => [.prefixPath px (args.method.getD "GET") (normalizeRequestPath p)]
  | none, some px =>
    -- L2 holds GET pages only
    if args.tags = [] ∧ args.method.all (· == "GET") then [.keyPrefix px] else []
  | none, none => []

/-- The names a page is looked up under. -/
def pageNames (keyPrefix path : String) (tags : List String) : List FloorName :=
  tags.map .tag ++ [.path "GET" path, .keyPrefix keyPrefix, .prefixPath keyPrefix "GET" path] ++
    tags.map (.prefixTag keyPrefix)

/-! ### The floor -/

structure Floor where
  names : Map String (ℕ × ℕ)
  global : Option ℕ
  tick : ℕ
  hasScoped : Bool

namespace Floor

def init : Floor := ⟨∅, none, 0, false⟩

/-- The name raised least recently. -/
def oldest (names : Map String (ℕ × ℕ)) : Option String :=
  (names.entries.argmin fun e => e.2.2).map (·.1)

def evictOldest (names : Map String (ℕ × ℕ)) : Map String (ℕ × ℕ) :=
  if names.keys.length > FLOOR_NAMES then
    match oldest names with
    | some old => names.erase old
    | none => names
  else names

def raiseName (f : Floor) (name : String) (seq : ℕ) : Floor :=
  let tick := f.tick + 1
  { f with
    tick := tick
    names := evictOldest
      (f.names.insert name (max ((f.names.lookup name).elim 0 (·.1)) seq, tick)) }

/-- An invalidation with `seq` was replayed. -/
def raise (f : Floor) (args : InvalidateArgs) (seq : ℕ) : Floor :=
  args.floorNames.foldl (fun f n => f.raiseName n.text seq)
    { f with hasScoped := f.hasScoped || args.keyPrefix.isSome }

/-- A gap in the same generation: every entry written before `seq` is suspect. -/
def clearAt (f : Floor) (seq : ℕ) : Floor :=
  { f with global := some (f.global.elim seq (max · seq)) }

/-- The floor of a name is above `s`. -/
def below (f : Floor) (s : ℕ) (n : FloorName) : Bool :=
  (f.names.lookup n.text).any fun v => decide (s < v.1)

/-- The hit is older than an invalidation of its tags or path, of its prefix, or a gap clear. -/
def rejects (f : Floor) (entryStamp : Option ℕ) (keyPrefix path : String) (tags : List String) :
    Bool :=
  match entryStamp with
  | none => false
  | some s =>
    if f.global.any fun g => decide (s < g) then true
    else if (tags.any fun t => f.below s (.tag t)) || f.below s (.path "GET" path) then true
    else if !f.hasScoped then false
    else f.below s (.keyPrefix keyPrefix) || f.below s (.prefixPath keyPrefix "GET" path) ||
      tags.any fun t => f.below s (.prefixTag keyPrefix t)

end Floor

/-- What moves the floor between two resets. -/
inductive FloorOp where
  | raise (args : InvalidateArgs) (seq : ℕ)
  | clearAt (seq : ℕ)

def Floor.apply (f : Floor) : FloorOp → Floor
  | .raise args seq => f.raise args seq
  | .clearAt seq => f.clearAt seq

def Floor.run (ops : List FloorOp) : Floor := ops.foldl Floor.apply .init

/-- The names a run raises, each with its sequence number, in order. -/
def FloorOp.raised : FloorOp → List (FloorName × ℕ)
  | .raise args seq => args.floorNames.map (·, seq)
  | .clearAt _ => []

/-- The distinct names of a run. -/
def namesOf (ops : List FloorOp) : List String :=
  ((ops.flatMap FloorOp.raised).map fun p => p.1.text).dedup

/-! ### Names do not meet -/

theorem FloorName.toList_text (n : FloorName) : n.text.toList = match n with
    | .tag t => 't' :: ':' :: t.toList
    | .path m p => 'p' :: ':' :: (m.toList ++ ' ' :: p.toList)
    | .keyPrefix px => 'p' :: 'x' :: ':' :: jsonString px.toList
    | .prefixTag px t => 'p' :: 't' :: ':' :: (jsonString px.toList ++ t.toList)
    | .prefixPath px m p =>
      'p' :: 'p' :: ':' :: (jsonString px.toList ++ (m.toList ++ ' ' :: p.toList)) := by
  cases n <;> simp [text, prefixPart, String.toList_append]

/-- The path of a name has no space in it. -/
def FloorName.Spaceless : FloorName → Prop
  | .path _ p => ' ' ∉ p.toList
  | .prefixPath _ _ p => ' ' ∉ p.toList
  | _ => True

theorem append_space_inj {m m' p p' : List Char} (hp : ' ' ∉ p) (hp' : ' ' ∉ p')
    (h : m ++ ' ' :: p = m' ++ ' ' :: p') : m = m' ∧ p = p' := by
  rcases List.append_eq_append_iff.mp h with ⟨as, rfl, has⟩ | ⟨as, rfl, has⟩
  · cases as with
    | nil => exact ⟨by simp, by simpa using has⟩
    | cons c as =>
        obtain ⟨-, rfl⟩ := List.cons.inj has
        simp at hp
  · cases as with
    | nil => exact ⟨by simp, by simpa using has.symm⟩
    | cons c as =>
        obtain ⟨-, rfl⟩ := List.cons.inj has
        simp at hp'

/-- **Names do not meet**: a text has one reading, if the paths have no spaces. -/
theorem FloorName.text_inj {n n' : FloorName} (hn : n.Spaceless) (hn' : n'.Spaceless)
    (h : n.text = n'.text) : n = n' := by
  have h := congrArg String.toList h
  rw [toList_text, toList_text] at h
  cases n with
  | tag t =>
      cases n' with
      | tag t' => simpa [String.toList_inj] using h
      | _ => simp at h
  | path m p =>
      cases n' with
      | path m' p' =>
          simp only [List.cons.injEq, true_and] at h
          obtain ⟨hm, hp⟩ := append_space_inj hn hn' h
          rw [String.toList_inj] at hm hp
          rw [hm, hp]
      | _ => simp at h
  | keyPrefix px =>
      cases n' with
      | keyPrefix px' =>
          simp only [List.cons.injEq, true_and] at h
          obtain ⟨hpx, -⟩ := jsonString_append_inj (congrArg (· ++ []) h)
          rw [String.toList_inj.mp hpx]
      | _ => simp at h
  | prefixTag px t =>
      cases n' with
      | prefixTag px' t' =>
          simp only [List.cons.injEq, true_and] at h
          obtain ⟨hpx, ht⟩ := jsonString_append_inj h
          rw [String.toList_inj.mp hpx, String.toList_inj.mp ht]
      | _ => simp at h
  | prefixPath px m p =>
      cases n' with
      | prefixPath px' m' p' =>
          simp only [List.cons.injEq, true_and] at h
          obtain ⟨hpx, hmp⟩ := jsonString_append_inj h
          obtain ⟨hm, hp⟩ := append_space_inj hn hn' hmp
          rw [String.toList_inj.mp hpx, String.toList_inj.mp hm, String.toList_inj.mp hp]
      | _ => simp at h

theorem spaceless_of_mem_floorNames {args : InvalidateArgs} {n : FloorName}
    (h : n ∈ args.floorNames) : n.Spaceless := by
  have hnorm : ∀ p, ' ' ∉ (normalizeRequestPath p).toList := fun p => by
    rw [normalizeRequestPath, String.toList_ofList]
    exact space_notMem_normalize p.toList
  obtain ⟨k, ts, path, method, px⟩ := args
  simp only [InvalidateArgs.floorNames, List.mem_append, List.mem_map] at h
  rcases h with ⟨t, -, rfl⟩ | h
  · cases px <;> trivial
  · cases path with
    | none =>
        cases px with
        | none => cases h
        | some px =>
            simp only at h
            split at h
            · obtain rfl := List.mem_singleton.mp h; trivial
            · cases h
    | some p =>
        cases px with
        | none => obtain rfl := List.mem_singleton.mp h; exact hnorm p
        | some px => obtain rfl := List.mem_singleton.mp h; exact hnorm p

/-! ### What a run remembers -/

/-- Raise names in order. -/
def Floor.raiseAll (f : Floor) (ps : List (FloorName × ℕ)) : Floor :=
  ps.foldl (fun f p => f.raiseName p.1.text p.2) f

theorem Floor.raiseAll_append (f : Floor) (ps qs : List (FloorName × ℕ)) :
    f.raiseAll (ps ++ qs) = (f.raiseAll ps).raiseAll qs := List.foldl_append ..

theorem Floor.raiseAll_congr (f f' : Floor) (h : f.names = f'.names ∧ f.tick = f'.tick)
    (ps : List (FloorName × ℕ)) :
    (f.raiseAll ps).names = (f'.raiseAll ps).names ∧
      (f.raiseAll ps).tick = (f'.raiseAll ps).tick := by
  induction ps generalizing f f' with
  | nil => exact h
  | cons p ps ih =>
      refine ih _ _ ?_
      simp only [raiseName, h.1, h.2, and_self]

theorem Floor.raise_eq (f : Floor) (args : InvalidateArgs) (seq : ℕ) :
    f.raise args seq = { f with hasScoped := f.hasScoped || args.keyPrefix.isSome }.raiseAll
      (args.floorNames.map (·, seq)) := by
  simp only [raise, raiseAll, List.foldl_map]

/-- The names of a run are those it raises, one by one. -/
theorem Floor.run_names (ops : List FloorOp) :
    (run ops).names = (init.raiseAll (ops.flatMap FloorOp.raised)).names := by
  suffices h : ∀ f f' : Floor, f.names = f'.names ∧ f.tick = f'.tick →
      (ops.foldl apply f).names = (f'.raiseAll (ops.flatMap FloorOp.raised)).names from
    h _ _ ⟨rfl, rfl⟩
  induction ops with
  | nil => exact fun f f' h => h.1
  | cons op ops ih =>
      intro f f' h
      rw [List.foldl_cons, List.flatMap_cons, raiseAll_append]
      refine ih _ _ ?_
      cases op with
      | raise args seq =>
          rw [apply, raise_eq]
          exact raiseAll_congr { f with hasScoped := f.hasScoped || args.keyPrefix.isSome } f' h _
      | clearAt seq => exact h

theorem mem_keys_evictOldest {names : Map String (ℕ × ℕ)} {x : String}
    (h : x ∈ (Floor.evictOldest names).keys) : x ∈ names.keys := by
  unfold Floor.evictOldest at h
  split at h
  · split at h
    · rw [← AList.mem_keys, AList.mem_erase] at h
      exact AList.mem_keys.mp h.2
    · exact h
  · exact h

/-- The keys of a floor are names it was raised for. -/
theorem Floor.mem_keys_raiseAll {ps : List (FloorName × ℕ)} {x : String}
    (h : x ∈ (init.raiseAll ps).names.keys) : x ∈ ps.map fun p => p.1.text := by
  induction ps using List.reverseRecOn with
  | nil => simp [raiseAll, init] at h
  | append_singleton ps p ih =>
      rw [raiseAll_append] at h
      have h := mem_keys_evictOldest h
      rw [← AList.mem_keys, AList.mem_insert] at h
      rw [List.map_append, List.mem_append]
      rcases h with rfl | h
      · exact .inr (by simp)
      · exact .inl (ih (AList.mem_keys.mp h))

/-- **While it names no more than `FLOOR_NAMES` names the floor forgets none.** -/
theorem Floor.lookup_raiseAll (ps : List (FloorName × ℕ))
    (hps : (ps.map fun p => p.1.text).dedup.length ≤ FLOOR_NAMES) (x : String) (s : ℕ) :
    ((init.raiseAll ps).names.lookup x).any (fun v => decide (s < v.1)) = true ↔
      ∃ p ∈ ps, p.1.text = x ∧ s < p.2 := by
  induction ps using List.reverseRecOn with
  | nil => simp [raiseAll, init]
  | append_singleton ps p ih =>
      have hsub : (ps.map fun p => p.1.text) ⊆ (ps ++ [p]).map fun p => p.1.text := by
        simp
      have ih := ih (le_trans (List.Nodup.length_le_of_subset (List.nodup_dedup _) fun y hy =>
        List.mem_dedup.mpr (hsub (List.mem_dedup.mp hy))) hps)
      -- the names just written are still names of the run, so none is evicted
      have hkeep : ∀ v : ℕ × ℕ, evictOldest ((init.raiseAll ps).names.insert p.1.text v) =
          (init.raiseAll ps).names.insert p.1.text v := by
        intro v
        refine if_neg (Nat.not_lt.mpr (le_trans ?_ hps))
        refine List.Nodup.length_le_of_subset (AList.keys_nodup _) fun y hy => ?_
        rw [← AList.mem_keys, AList.mem_insert] at hy
        rw [List.mem_dedup, List.map_append, List.mem_append]
        rcases hy with rfl | hy
        · exact .inr (by simp)
        · exact .inl (mem_keys_raiseAll (AList.mem_keys.mp hy))
      have hrun : (init.raiseAll (ps ++ [p])).names = (init.raiseAll ps).names.insert p.1.text
          (max (((init.raiseAll ps).names.lookup p.1.text).elim 0 (·.1)) p.2,
            (init.raiseAll ps).tick + 1) := by
        rw [raiseAll_append]
        exact hkeep _
      rw [hrun, Map.lookup_insert_if]
      simp only [List.mem_append, List.mem_singleton, or_and_right, exists_or, exists_eq_left]
      by_cases hx : x = p.1.text
      · subst hx
        rw [← ih]
        cases (init.raiseAll ps).names.lookup p.1.text with
        | none => simp
        | some v => simp
      · rw [if_neg hx, ih]
        simp [Ne.symm hx]

theorem Floor.below_run (ops : List FloorOp) (hops : (namesOf ops).length ≤ FLOOR_NAMES) (s : ℕ)
    {n : FloorName} (hn : n.Spaceless) :
    (run ops).below s n = true ↔
      ∃ args seq, .raise args seq ∈ ops ∧ n ∈ args.floorNames ∧ s < seq := by
  rw [below, run_names, lookup_raiseAll _ hops]
  constructor
  · rintro ⟨⟨n', seq⟩, hp, htext, hlt⟩
    obtain ⟨op, hop, hp⟩ := List.mem_flatMap.mp hp
    cases op with
    | clearAt => cases hp
    | raise args seq' =>
        simp only [FloorOp.raised, List.mem_map, Prod.mk.injEq] at hp
        obtain ⟨n'', hn'', rfl, rfl⟩ := hp
        obtain rfl := FloorName.text_inj (spaceless_of_mem_floorNames hn'') hn htext
        exact ⟨args, _, hop, hn'', hlt⟩
  · rintro ⟨args, seq, hop, hmem, hlt⟩
    refine ⟨(n, seq), List.mem_flatMap.mpr ⟨_, hop, ?_⟩, rfl, hlt⟩
    exact List.mem_map_of_mem hmem

/-! ### What a run forgets -/

/-- Names raised once each, `k` of them, `x` first. -/
structure RaisedOnce (names : Map String (ℕ × ℕ)) (x : String) (seq k : ℕ) : Prop where
  keys : names.keys.length = k
  first : names.lookup x = some (seq, 1)
  rest : ∀ y v, names.lookup y = some v → y = x ∨ 1 < v.2

theorem RaisedOnce.insert {names : Map String (ℕ × ℕ)} {x y : String} {seq k tick : ℕ}
    (h : RaisedOnce names x seq k) (hy : y ∉ names.keys) (htick : 0 < tick) (v : ℕ) :
    RaisedOnce (names.insert y (v, tick + 1)) x seq (k + 1) where
  keys := by
    rw [AList.keys_insert, List.length_cons, List.erase_of_not_mem hy, h.keys]
  first := by
    have hx : x ∈ names.keys := Map.mem_keys_iff.mpr ⟨_, h.first⟩
    have hne : x ≠ y := fun e => hy (e ▸ hx)
    rw [AList.lookup_insert_ne hne, h.first]
  rest := by
    intro z w hz
    rw [Map.lookup_insert_if] at hz
    split at hz
    · cases hz; exact .inr (Nat.lt_succ_of_le htick)
    · exact h.rest z w hz

/-- A full floor forgets the name raised first. -/
theorem RaisedOnce.evict {names : Map String (ℕ × ℕ)} {x : String} {seq k : ℕ}
    (h : RaisedOnce names x seq k) (hk : FLOOR_NAMES < k) :
    (Floor.evictOldest names).lookup x = none := by
  have hmem : (⟨x, (seq, 1)⟩ : Sigma fun _ : String => ℕ × ℕ) ∈ names.entries :=
    AList.mem_lookup_iff.mp h.first
  cases hold : names.entries.argmin fun e => e.2.2 with
  | none =>
      rw [List.argmin_eq_none.mp hold] at hmem
      cases hmem
  | some e =>
      have hle : e.2.2 ≤ 1 := List.le_of_mem_argmin hmem hold
      have he : names.lookup e.1 = some e.2 := AList.mem_lookup_iff.mpr (List.argmin_mem hold)
      obtain rfl : e.1 = x := (h.rest _ _ he).resolve_right (Nat.not_lt.mpr hle)
      rw [Floor.evictOldest, if_pos (h.keys ▸ hk), Floor.oldest, hold]
      simp

theorem Floor.notMem_keys_raiseAll {ns : List FloorName} {n : FloorName} {seq : ℕ}
    (h : ((ns ++ [n]).map FloorName.text).Nodup) :
    n.text ∉ (init.raiseAll (ns.map (·, seq))).names.keys := by
  intro hn
  have hn := mem_keys_raiseAll hn
  rw [List.map_map] at hn
  rw [List.map_append, List.nodup_append] at h
  exact h.2.2 _ hn _ (by simp) rfl

theorem Floor.raiseAll_once {n : FloorName} {ns : List FloorName} {seq : ℕ}
    (hnodup : ((n :: ns).map FloorName.text).Nodup) (hlen : ns.length < FLOOR_NAMES) :
    (init.raiseAll ((n :: ns).map (·, seq))).tick = ns.length + 1 ∧
      RaisedOnce (init.raiseAll ((n :: ns).map (·, seq))).names n.text seq (ns.length + 1) := by
  induction ns using List.reverseRecOn with
  | nil =>
      have hraise : (init.raiseAll ([n].map (·, seq))).names = AList.singleton n.text (seq, 1) := by
        simp [raiseAll, raiseName, init, evictOldest, FLOOR_NAMES]
      have hlookup : ∀ y, (AList.singleton n.text (seq, 1) : Map _ _).lookup y =
          if y = n.text then some (seq, 1) else none := by
        intro y
        rw [← AList.insert_empty, Map.lookup_insert_if, AList.lookup_empty]
      refine ⟨rfl, ?_⟩
      rw [hraise]
      refine ⟨rfl, by rw [hlookup, if_pos rfl], fun y v hy => .inl ?_⟩
      by_contra hne
      rw [hlookup, if_neg hne] at hy
      cases hy
  | append_singleton ns n' ih =>
      rw [List.length_append, List.length_singleton] at hlen ⊢
      rw [← List.cons_append] at hnodup
      have hnew := @notMem_keys_raiseAll (n :: ns) n' seq hnodup
      rw [List.map_append, List.nodup_append] at hnodup
      obtain ⟨htick, honce⟩ := ih hnodup.1 (Nat.lt_of_succ_lt hlen)
      rw [← List.cons_append, List.map_append, raiseAll_append]
      have hpos : 0 < (init.raiseAll ((n :: ns).map (·, seq))).tick := htick ▸ Nat.succ_pos _
      have h := honce.insert hnew hpos
      refine ⟨congrArg (· + 1) htick, ?_⟩
      have hraise : ((init.raiseAll ((n :: ns).map (·, seq))).raiseAll ([n'].map (·, seq))).names =
          _ := if_neg (Nat.not_lt.mpr ((h _).keys.trans_le hlen))
      rw [hraise]
      exact h _

/-- **One name too many and the first is forgotten.** -/
theorem Floor.raiseAll_forgets {n n' : FloorName} {ns : List FloorName} {seq : ℕ}
    (hnodup : ((n :: ns ++ [n']).map FloorName.text).Nodup) (hlen : ns.length + 1 = FLOOR_NAMES) :
    (init.raiseAll ((n :: ns ++ [n']).map (·, seq))).names.lookup n.text = none := by
  have hnew := @notMem_keys_raiseAll (n :: ns) n' seq hnodup
  rw [List.map_append, List.nodup_append] at hnodup
  obtain ⟨htick, honce⟩ := @raiseAll_once n ns seq hnodup.1 (hlen ▸ Nat.lt_succ_self _)
  rw [List.map_append, raiseAll_append]
  have hpos : 0 < (init.raiseAll ((n :: ns).map (·, seq))).tick := htick ▸ Nat.succ_pos _
  exact (honce.insert hnew hpos _).evict (hlen ▸ Nat.lt_succ_self _)

/-! ### What a run rejects -/

theorem Floor.run_append (ops : List FloorOp) (op : FloorOp) :
    run (ops ++ [op]) = (run ops).apply op := by
  simp [run]

theorem Floor.raiseAll_rest (f : Floor) (ps : List (FloorName × ℕ)) :
    (f.raiseAll ps).global = f.global ∧ (f.raiseAll ps).hasScoped = f.hasScoped := by
  induction ps generalizing f with
  | nil => exact ⟨rfl, rfl⟩
  | cons p ps ih => exact ih (f.raiseName p.1.text p.2)

theorem Floor.run_global (ops : List FloorOp) (s : ℕ) :
    (run ops).global.any (fun g => decide (s < g)) = true ↔
      ∃ seq, .clearAt seq ∈ ops ∧ s < seq := by
  induction ops using List.reverseRecOn with
  | nil => simp [run, init]
  | append_singleton ops op ih =>
      rw [run_append]
      cases op with
      | raise args seq =>
          rw [apply, raise_eq, (raiseAll_rest _ _).1, ih]
          simp
      | clearAt seq =>
          simp only [apply, clearAt, Option.any_some, decide_eq_true_eq, List.mem_append,
            List.mem_singleton, FloorOp.clearAt.injEq, or_and_right, exists_or, exists_eq_left,
            ← ih]
          cases (run ops).global with
          | none => simp
          | some g => simp

theorem Floor.run_hasScoped (ops : List FloorOp) :
    (run ops).hasScoped = true ↔
      ∃ args seq, .raise args seq ∈ ops ∧ args.keyPrefix.isSome = true := by
  induction ops using List.reverseRecOn with
  | nil => simp [run, init]
  | append_singleton ops op ih =>
      rw [run_append]
      cases op with
      | raise args seq =>
          rw [apply, raise_eq, (raiseAll_rest _ _).2]
          simp only [Bool.or_eq_true, ih, List.mem_append, List.mem_singleton,
            FloorOp.raise.injEq, or_and_right, exists_or]
          simp
      | clearAt seq =>
          rw [apply, clearAt, ih]
          simp

/-- The prefix-scoped names are raised by prefix-scoped invalidations only. -/
theorem isSome_of_scoped_name {args : InvalidateArgs} {n : FloorName} (h : n ∈ args.floorNames)
    (hn : (∃ p, n = .keyPrefix p) ∨ (∃ p t, n = .prefixTag p t) ∨ ∃ p m q, n = .prefixPath p m q) :
    args.keyPrefix.isSome = true := by
  obtain ⟨k, ts, path, method, px⟩ := args
  cases px with
  | some px => rfl
  | none =>
      simp only [InvalidateArgs.floorNames, List.mem_append, List.mem_map] at h
      rcases h with ⟨t, -, rfl⟩ | h
      · simp at hn
      · cases path with
        | none => cases h
        | some p =>
            obtain rfl := List.mem_singleton.mp h
            simp at hn

theorem Floor.rejects_some_iff (f : Floor) (s : ℕ) (px path : String) (tags : List String) :
    f.rejects (some s) px path tags = true ↔
      f.global.any (fun g => decide (s < g)) = true ∨
      (∃ t ∈ tags, f.below s (.tag t) = true) ∨ f.below s (.path "GET" path) = true ∨
      (f.hasScoped = true ∧ (f.below s (.keyPrefix px) = true ∨
        f.below s (.prefixPath px "GET" path) = true ∨
        ∃ t ∈ tags, f.below s (.prefixTag px t) = true)) := by
  simp only [rejects]
  cases f.global.any fun g => decide (s < g) with
  | true => simp
  | false =>
      cases h : (tags.any fun t => f.below s (.tag t)) || f.below s (.path "GET" path) with
      | true =>
          rw [Bool.or_eq_true, List.any_eq_true] at h
          simp only [Bool.false_eq_true, if_false, if_true, true_iff, false_or]
          exact h.imp_right .inl
      | false =>
          simp only [Bool.or_eq_false_iff, List.any_eq_false] at h
          have h₁ : ¬ ∃ t ∈ tags, f.below s (.tag t) = true := fun ⟨t, ht, hb⟩ => h.1 t ht hb
          cases hs : f.hasScoped with
          | false => simp [h₁, h.2]
          | true => simp [h₁, h.2, or_assoc]

/-- **What a run rejects**: an entry older than a gap clear, or than an invalidation that raised one
of the page's names. -/
theorem Floor.run_rejects_iff (ops : List FloorOp) (hops : (namesOf ops).length ≤ FLOOR_NAMES)
    (s : ℕ) (px path : String) (tags : List String) (hpath : ' ' ∉ path.toList) :
    (run ops).rejects (some s) px path tags = true ↔
      (∃ seq, .clearAt seq ∈ ops ∧ s < seq) ∨
      ∃ args seq, .raise args seq ∈ ops ∧ s < seq ∧
        ∃ n ∈ args.floorNames, n ∈ pageNames px path tags := by
  have hbelow : ∀ n ∈ pageNames px path tags, ((run ops).below s n = true ↔
      ∃ args seq, .raise args seq ∈ ops ∧ n ∈ args.floorNames ∧ s < seq) := by
    intro n hn
    refine below_run ops hops s ?_
    simp only [pageNames, List.mem_append, List.mem_map, List.mem_cons, List.not_mem_nil,
      or_false] at hn
    rcases hn with (⟨t, -, rfl⟩ | rfl | rfl | rfl) | ⟨t, -, rfl⟩ <;> trivial
  -- a scoped name is below its floor only if one was raised
  have hscoped : ∀ n ∈ pageNames px path tags, (run ops).below s n = true →
      ((∃ p, n = .keyPrefix p) ∨ (∃ p t, n = .prefixTag p t) ∨ ∃ p m q, n = .prefixPath p m q) →
      (run ops).hasScoped = true := by
    intro n hn hb hkind
    obtain ⟨args, seq, hop, hmem, -⟩ := (hbelow n hn).mp hb
    exact (run_hasScoped ops).mpr ⟨args, seq, hop, isSome_of_scoped_name hmem hkind⟩
  have hnames : (∃ n ∈ pageNames px path tags, (run ops).below s n = true) ↔
      ∃ args seq, .raise args seq ∈ ops ∧ s < seq ∧
        ∃ n ∈ args.floorNames, n ∈ pageNames px path tags := by
    constructor
    · rintro ⟨n, hn, hb⟩
      obtain ⟨args, seq, hop, hmem, hlt⟩ := (hbelow n hn).mp hb
      exact ⟨args, seq, hop, hlt, n, hmem, hn⟩
    · rintro ⟨args, seq, hop, hlt, n, hmem, hn⟩
      exact ⟨n, hn, (hbelow n hn).mpr ⟨args, seq, hop, hmem, hlt⟩⟩
  rw [rejects_some_iff, run_global, ← hnames]
  refine or_congr Iff.rfl ?_
  simp only [pageNames, List.mem_append, List.mem_map, List.mem_cons, List.not_mem_nil, or_false]
  constructor
  · rintro (⟨t, ht, h⟩ | h | ⟨-, h | h | ⟨t, ht, h⟩⟩)
    · exact ⟨_, .inl (.inl ⟨t, ht, rfl⟩), h⟩
    · exact ⟨_, .inl (.inr (.inl rfl)), h⟩
    · exact ⟨_, .inl (.inr (.inr (.inl rfl))), h⟩
    · exact ⟨_, .inl (.inr (.inr (.inr rfl))), h⟩
    · exact ⟨_, .inr ⟨t, ht, rfl⟩, h⟩
  · rintro ⟨n, (⟨t, ht, rfl⟩ | rfl | rfl | rfl) | ⟨t, ht, rfl⟩, h⟩
    · exact .inl ⟨t, ht, h⟩
    · exact .inr (.inl h)
    · exact .inr (.inr ⟨hscoped _ (by simp [pageNames]) h (.inl ⟨_, rfl⟩), .inl h⟩)
    · exact .inr (.inr ⟨hscoped _ (by simp [pageNames]) h (.inr (.inr ⟨_, _, _, rfl⟩)),
        .inr (.inl h)⟩)
    · exact .inr (.inr ⟨hscoped _ (by simp [pageNames, ht]) h (.inr (.inl ⟨_, _, rfl⟩)),
        .inr (.inr ⟨t, ht, h⟩)⟩)

/-- **A raised name is a covered page.**  For a page looked up under the path of its key. -/
theorem floors_iff_covers {args : InvalidateArgs} (hv : args.valid = true) (key : CacheKey)
    (hget : key.method = "GET") (tags : List String) :
    (∃ n ∈ args.floorNames, n ∈ pageNames key.keyPrefix key.path tags) ↔ args.covers key tags := by
  rw [args.covers_iff hv]
  obtain ⟨k, ts, path, method, px⟩ := args
  simp only [InvalidateArgs.floorNames, pageNames, hget]
  cases px with
  | none =>
      cases path with
      | none => simp
      | some p =>
          simp [or_and_right, exists_or]
          exact or_congr Iff.rfl (and_congr eq_comm eq_comm)
  | some px =>
      by_cases hp : key.keyPrefix = px
      · subst hp
        cases path with
        | none =>
            cases method with
            | none => simp [or_and_right, exists_or]
            | some m =>
                simp [or_and_right, exists_or]
                exact or_congr Iff.rfl (and_congr Iff.rfl eq_comm)
        | some p =>
            simp [or_and_right, exists_or]
            exact or_congr Iff.rfl (and_congr eq_comm eq_comm)
      · have hp' : ¬ px = key.keyPrefix := Ne.symm hp
        cases path with
        | none => simp [or_and_right, exists_or, hp, hp']
        | some p => simp [or_and_right, exists_or, hp, hp']

end Brust.Core
