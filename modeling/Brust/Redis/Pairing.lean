import Brust.Redis.Scripts
import Brust.Support.Pool
import Mathlib.Data.Fintype.Powerset

/-!
# Redis — pairing the two halves of an invalidation

`store.invalidate` and `broadcast.publish` both end in `Pairing.run`.  A call that finds an entry of
its identity still waiting for its side joins it, and one script run serves both; otherwise it makes
an entry, whose microtask sends the script.

The run works with the arguments of the call that made the entry.  `canonical` leaves out the user
key and the spelling of the method, so a publish that joins may be served by a run that publishes
another key (`pairing_loses_key`).  In every run in which a publish joins only an entry of the same
key and method no call loses anything (`pairing_loses_nothing`).
-/

namespace Brust.Redis

open Brust.Adapter Brust.Core

inductive Side where
  | invalidate
  | publish
  deriving DecidableEq

instance : Fintype Side := ⟨{.invalidate, .publish}, fun s => by cases s <;> decide⟩

/-- A call of `Pairing.run`. -/
inductive PairCall where
  | invalidate (args : InvalidateArgs)
  | publish (args : InvalidateArgs) (origin : String)
  deriving DecidableEq

namespace PairCall

def args : PairCall → InvalidateArgs
  | .invalidate args => args
  | .publish args _ => args

def side : PairCall → Side
  | .invalidate _ => .invalidate
  | .publish _ _ => .publish

def origin : PairCall → Option String
  | .invalidate _ => none
  | .publish _ origin => some origin

end PairCall

/-- An entry, with the arguments and the side of the call that made it. -/
structure Entry where
  args : InvalidateArgs
  side : Side
  sides : Finset Side
  origin : Option String

namespace Entry

/-- The mode its microtask runs the script in. -/
def mode (e : Entry) : Mode :=
  if e.sides.card = 2 then .both else if e.side = .invalidate then .delete else .publish

/-- A side more; a publish brings its origin. -/
def join (e : Entry) (c : PairCall) : Entry :=
  { e with sides := insert c.side e.sides, origin := c.origin <|> e.origin }

end Entry

/-- A script on its way to the server. -/
structure Sent where
  entry : ℕ
  args : InvalidateArgs
  mode : Mode
  origin : String
  deriving DecidableEq

/-- What the microtask of an entry sends. -/
def Entry.send (e : Entry) (n : ℕ) : Sent := ⟨n, e.args, e.mode, e.origin.getD ""⟩

/-- A script that ran, and the state it ran in. -/
structure Ran (B : Type) where
  sent : Sent
  before : Db B
  result : InvalResult

/-- A process' pairing, and the server.  Entries are objects: `pending`, the microtasks of `queue`
and the calls refer to them by number.  An identity with no entries has the empty list. -/
structure PairState (B : Type) where
  entry : ℕ → Option Entry
  next : ℕ
  pending : String → List ℕ
  queue : List (String × ℕ)
  sent : List Sent
  db : Db B
  done : List (Ran B)
  calls : List (PairCall × ℕ)

/-- What other processes do to the namespace. -/
inductive Foreign {B : Type} (db : Db B) : Db B → Prop where
  | set (stage : Option (Page B)) (k : String) (stamp : Option ℕ) (ttl : ℕ) (idx : List Index) :
      Foreign db (db.set stage k stamp ttl idx).1
  | inval (mode : Mode) (t : Targets) (origin : String) (args : InvalidateArgs) :
      Foreign db (db.inval mode t origin args).1
  | unlink (ks : Finset String) : Foreign db (db.unlink ks)
  | expire (now : ℕ) : Foreign db (db.expire now)

namespace PairState

variable (upper : String → String) {B : Type}

def init : PairState B := ⟨fun _ => none, 0, fun _ => [], [], [], .empty, [], []⟩

/-- The entry a call joins: the first of its identity that waits for its side. -/
def waiting (s : PairState B) (c : PairCall) : Option ℕ :=
  (s.pending (canonical upper c.args)).find? fun n =>
    (s.entry n).any fun e => decide (c.side ∉ e.sides)

/-- `Pairing.run`. -/
def run (s : PairState B) (c : PairCall) : PairState B :=
  if c.side = .invalidate ∧ hasStoreWork c.args = false then s
  else match s.waiting upper c with
    | some n =>
      { s with
        entry := Function.update s.entry n ((s.entry n).map (·.join c))
        calls := s.calls ++ [(c, n)] }
    | none =>
      let id := canonical upper c.args
      { s with
        entry := Function.update s.entry s.next (some ⟨c.args, c.side, {c.side}, c.origin⟩)
        next := s.next + 1
        pending := Function.update s.pending id (s.pending id ++ [s.next])
        queue := s.queue ++ [(id, s.next)]
        calls := s.calls ++ [(c, s.next)] }

/-- The next microtask takes its entry out of `pending` and sends the script. -/
def microtask (s : PairState B) : PairState B :=
  match s.queue with
  | [] => s
  | (id, n) :: queue =>
    { s with
      pending := Function.update s.pending id ((s.pending id).erase n)
      queue := queue
      sent := s.sent ++ (s.entry n).toList.map (·.send n) }

/-- The server runs a script. -/
def script (s : PairState B) (f : Sent) : PairState B :=
  let r := s.db.inval f.mode (targets upper f.args) f.origin f.args
  { s with sent := s.sent.erase f, db := r.1, done := s.done ++ [⟨f, s.db, r.2⟩] }

inductive Act where
  | call (c : PairCall)
  | microtask
  | script (f : Sent)
  | foreign

inductive Step : PairState B → Act → PairState B → Prop where
  | call (s : PairState B) (c : PairCall) : Step s (.call c) (s.run upper c)
  | microtask (s : PairState B) : Step s .microtask s.microtask
  | script (s : PairState B) {f : Sent} (h : f ∈ s.sent) : Step s (.script f) (s.script upper f)
  | foreign (s : PairState B) {db : Db B} (h : Foreign s.db db) :
    Step s .foreign { s with db := db }

end PairState

/-! ### What a replay reads -/

/-- The method a replay reads, if it reads one. -/
def methodRead (a : InvalidateArgs) : Option String :=
  if a.path.isSome then some (a.method.getD "GET")
  else if a.keyPrefix.isSome ∧ a.tags = [] then a.method else none

/-- Arguments a replay reads alike. -/
structure Equivalent (a b : InvalidateArgs) : Prop where
  key : a.key = b.key
  tags : ∀ t, t ∈ a.tags ↔ t ∈ b.tags
  path : a.path = b.path
  keyPrefix : a.keyPrefix = b.keyPrefix
  method : methodRead a = methodRead b

theorem Equivalent.refl (a : InvalidateArgs) : Equivalent a a :=
  ⟨rfl, fun _ => Iff.rfl, rfl, rfl, rfl⟩

namespace Equivalent

variable {a b : InvalidateArgs}

end Equivalent

/-- Of one identity, arguments that differ in neither user key nor method are equivalent. -/
theorem equivalent_of_canonical {upper : String → String} {a b : InvalidateArgs}
    (h : canonical upper a = canonical upper b) (hkey : a.key = b.key)
    (hmethod : methodRead a = methodRead b) : Equivalent a b := by
  obtain ⟨htags, hpath, hpx⟩ := canonical_inj h
  refine ⟨hkey, htags, ?_, ?_, hmethod⟩
  · have := congrArg (Option.map Prod.fst) hpath
    simpa [pathPart, Function.comp_def] using this
  · have := congrArg (Option.map Prod.fst) hpx
    simpa [prefixPart, Function.comp_def] using this

/-! ### Entries -/

/-- A run serves the sides of its entry. -/
theorem Entry.mode_spec {e : Entry} (h : e.side ∈ e.sides) :
    (e.mode ≠ .publish ↔ .invalidate ∈ e.sides) ∧ (e.mode ≠ .delete ↔ .publish ∈ e.sides) := by
  have hall : ∀ (side : Side) (sides : Finset Side), side ∈ sides →
      ((if sides.card = 2 then Mode.both else if side = .invalidate then .delete else .publish) ≠
        .publish ↔ .invalidate ∈ sides) ∧
      ((if sides.card = 2 then Mode.both else if side = .invalidate then .delete else .publish) ≠
        .delete ↔ .publish ∈ sides) := by decide
  exact hall e.side e.sides h

/-- The entry serves a call: it has the call's identity and side; for a publish, arguments a replay
reads alike, and the call's origin. -/
structure Serves (upper : String → String) (e : Entry) (c : PairCall) : Prop where
  identity : canonical upper e.args = canonical upper c.args
  side : c.side ∈ e.sides
  publish : ∀ {args origin}, c = .publish args origin →
    e.origin = some origin ∧ Equivalent e.args args

/-! ### Entries and calls -/

section
variable {upper : String → String} {B : Type} {s : PairState B}

/-- The numbers of the entries: waiting for their microtask, sent, or run. -/
def PairState.places (s : PairState B) : List ℕ :=
  s.queue.map (·.2) ++ (s.sent.map (·.entry) ++ s.done.map (·.sent.entry))

structure PairInv (upper : String → String) (s : PairState B) : Prop where
  places : s.places.Perm (List.range s.next)
  made : ∀ n, n < s.next ↔ ∃ e, s.entry n = some e
  nodup : ∀ id, (s.pending id).Nodup
  queued : ∀ {id n}, n ∈ s.pending id → (id, n) ∈ s.queue
  entries : ∀ {n e}, s.entry n = some e → e.side ∈ e.sides
  identity : ∀ {id n e}, n ∈ s.pending id → s.entry n = some e → canonical upper e.args = id
  sent : ∀ {f}, f ∈ s.sent → ∃ e, s.entry f.entry = some e ∧ f = e.send f.entry
  ran : ∀ {d}, d ∈ s.done → ∃ e, s.entry d.sent.entry = some e ∧ d.sent = e.send d.sent.entry
  calls : ∀ {c n}, (c, n) ∈ s.calls → ∃ e, s.entry n = some e ∧ Serves upper e c
  sides : s.calls.Pairwise fun p q => p.2 = q.2 → p.1.side ≠ q.1.side
  publisher : ∀ {n e}, s.entry n = some e → .publish ∈ e.sides →
    ∃ c, (c, n) ∈ s.calls ∧ c.side = .publish

/-- The condition of a call: a publish that joins an entry has its key and its method. -/
def Joins (upper : String → String) (s : PairState B) (c : PairCall) : Prop :=
  ∀ args origin, c = .publish args origin → ∀ n e, s.waiting upper c = some n →
    s.entry n = some e → e.args.key = args.key ∧ methodRead e.args = methodRead args

theorem PairInv.places_nodup (h : PairInv upper s) : s.places.Nodup :=
  h.places.nodup_iff.mpr List.nodup_range

/-- An entry that is pending has neither been sent nor run. -/
theorem PairInv.not_sent (h : PairInv upper s) {id : String} {n : ℕ} (hn : n ∈ s.pending id) :
    (∀ f ∈ s.sent, f.entry ≠ n) ∧ ∀ d ∈ s.done, d.sent.entry ≠ n := by
  have hq : n ∈ s.queue.map (·.2) := List.mem_map.mpr ⟨_, h.queued hn, rfl⟩
  have hd := (List.nodup_append.mp h.places_nodup).2.2 n hq
  constructor
  · rintro f hf rfl
    exact hd _ (List.mem_append_left _ (List.mem_map_of_mem hf)) rfl
  · rintro d hd' rfl
    exact hd _ (List.mem_append_right _ (List.mem_map.mpr ⟨d, hd', rfl⟩)) rfl

theorem waiting_some {c : PairCall} {n : ℕ} (h : s.waiting upper c = some n) :
    n ∈ s.pending (canonical upper c.args) ∧ ∃ e, s.entry n = some e ∧ c.side ∉ e.sides := by
  refine ⟨List.mem_of_find?_eq_some h, ?_⟩
  have := List.find?_some h
  rw [Option.any_eq_true] at this
  obtain ⟨e, he, hside⟩ := this
  exact ⟨e, he, by simpa using hside⟩

/-- An entry goes on serving the calls it serves. -/
theorem Serves.join {e : Entry} {c c' : PairCall} (h : Serves upper e c') (hc : c.side ∉ e.sides) :
    Serves upper (e.join c) c' := by
  refine ⟨h.identity, Finset.mem_insert_of_mem h.side, fun {args origin} e' => ?_⟩
  obtain ⟨ho, heq⟩ := h.publish e'
  have hside := h.side
  cases c with
  | invalidate => exact ⟨ho, heq⟩
  | publish =>
      rw [e'] at hside
      exact absurd hside hc

theorem PairInv.run_join (h : PairInv upper s) {c : PairCall} (hok : Joins upper s c) {n : ℕ}
    (hw : s.waiting upper c = some n) : PairInv upper
      { s with
        entry := Function.update s.entry n ((s.entry n).map (·.join c))
        calls := s.calls ++ [(c, n)] } := by
  obtain ⟨hn, e, he, hside⟩ := waiting_some hw
  obtain ⟨hsent, hdone⟩ := h.not_sent hn
  have hid := h.identity hn he
  have hentry : ∀ m e', Function.update s.entry n ((s.entry n).map (·.join c)) m = some e' ↔
      (m = n ∧ e' = e.join c) ∨ (m ≠ n ∧ s.entry m = some e') := by
    intro m e'
    by_cases hm : m = n
    · subst hm; simp [he, eq_comm]
    · simp [hm]
  refine ⟨h.places, fun m => ?_, h.nodup, h.queued, ?_, ?_, ?_, ?_, ?_, ?_, ?_⟩
  · rw [h.made]
    by_cases hm : m = n
    · subst hm; simp [he]
    · simp [hm]
  · intro m e' h'
    rcases (hentry m e').mp h' with ⟨-, rfl⟩ | ⟨-, h'⟩
    · exact Finset.mem_insert_of_mem (h.entries he)
    · exact h.entries h'
  · intro id m e' hm h'
    rcases (hentry m e').mp h' with ⟨rfl, rfl⟩ | ⟨-, h'⟩
    · have hid := h.identity hm he
      exact hid
    · exact h.identity hm h'
  · intro f hf
    obtain ⟨e', he', heq⟩ := h.sent hf
    exact ⟨e', (hentry _ _).mpr (.inr ⟨hsent f hf, he'⟩), heq⟩
  · intro d hd
    obtain ⟨e', he', heq⟩ := h.ran hd
    exact ⟨e', (hentry _ _).mpr (.inr ⟨hdone d hd, he'⟩), heq⟩
  · intro c' m hc'
    rcases List.mem_append.mp hc' with hc' | hc'
    · obtain ⟨e', he', hs⟩ := h.calls hc'
      by_cases hm : m = n
      · subst hm
        obtain rfl := Option.some.inj (he.symm.trans he')
        exact ⟨_, (hentry _ _).mpr (.inl ⟨rfl, rfl⟩), hs.join hside⟩
      · exact ⟨e', (hentry _ _).mpr (.inr ⟨hm, he'⟩), hs⟩
    · cases List.mem_singleton.mp hc'
      refine ⟨_, (hentry _ _).mpr (.inl ⟨rfl, rfl⟩), hid, Finset.mem_insert_self _ _, ?_⟩
      rintro args origin rfl
      obtain ⟨hkey, hmethod⟩ := hok args origin rfl n e hw he
      exact ⟨rfl, equivalent_of_canonical hid hkey hmethod⟩
  · rw [List.pairwise_append]
    refine ⟨h.sides, List.pairwise_singleton _ _, ?_⟩
    rintro ⟨c', m⟩ hc' q hq (e' : m = q.2)
    cases List.mem_singleton.mp hq
    subst e'
    obtain ⟨e', he', hs⟩ := h.calls hc'
    obtain rfl := Option.some.inj (he.symm.trans he')
    exact fun heq => hside (heq ▸ hs.side)
  · intro m e' h' hp
    rcases (hentry m e').mp h' with ⟨rfl, rfl⟩ | ⟨-, h'⟩
    · rcases Finset.mem_insert.mp hp with hc | hp
      · exact ⟨c, by simp, hc.symm⟩
      · obtain ⟨c', hc', hs⟩ := h.publisher he hp
        exact ⟨c', List.mem_append_left _ hc', hs⟩
    · obtain ⟨c', hc', hs⟩ := h.publisher h' hp
      exact ⟨c', List.mem_append_left _ hc', hs⟩

theorem PairInv.run_new (h : PairInv upper s) (c : PairCall) : PairInv upper
    { s with
      entry := Function.update s.entry s.next (some ⟨c.args, c.side, {c.side}, c.origin⟩)
      next := s.next + 1
      pending := Function.update s.pending (canonical upper c.args)
        (s.pending (canonical upper c.args) ++ [s.next])
      queue := s.queue ++ [(canonical upper c.args, s.next)]
      calls := s.calls ++ [(c, s.next)] } := by
  have hnone : ∀ {m e}, s.entry m = some e → m ≠ s.next := by
    rintro m e he rfl
    exact absurd ((h.made s.next).mpr ⟨e, he⟩) (lt_irrefl _)
  -- the new entry is the only one at a place not used before
  have hentry : ∀ m e', Function.update s.entry s.next
      (some ⟨c.args, c.side, {c.side}, c.origin⟩) m = some e' ↔
      (m = s.next ∧ e' = ⟨c.args, c.side, {c.side}, c.origin⟩) ∨ s.entry m = some e' := by
    intro m e'
    by_cases hm : m = s.next
    · subst hm
      have := fun he => @hnone s.next e' he rfl
      simp only [Function.update_self, Option.some.injEq, true_and]
      exact ⟨fun e => .inl e.symm, fun e => e.elim Eq.symm fun he => absurd he this⟩
    · simp [hm]
  have hpending : ∀ {id m}, m ∈ Function.update s.pending (canonical upper c.args)
      (s.pending (canonical upper c.args) ++ [s.next]) id →
      m ∈ s.pending id ∨ (id = canonical upper c.args ∧ m = s.next) := by
    intro id m hm
    by_cases e : id = canonical upper c.args
    · subst e
      rw [Function.update_self, List.mem_append, List.mem_singleton] at hm
      exact hm.imp_right fun hm => ⟨rfl, hm⟩
    · rw [Function.update_of_ne e] at hm
      exact .inl hm
  have hlt : ∀ {id m}, m ∈ s.pending id → m < s.next := by
    intro id m hm
    have hp : m ∈ s.places := List.mem_append_left _ (List.mem_map.mpr ⟨_, h.queued hm, rfl⟩)
    exact List.mem_range.mp (h.places.mem_iff.mp hp)
  refine ⟨?_, fun m => ?_, fun id => ?_, ?_, ?_, ?_, ?_, ?_, ?_, ?_, ?_⟩
  · have hperm : ((s.queue ++ [(canonical upper c.args, s.next)]).map (·.2) ++
        (s.sent.map (·.entry) ++ s.done.map (·.sent.entry))).Perm (s.places ++ [s.next]) := by
      rw [List.map_append, List.append_assoc, PairState.places, List.append_assoc]
      exact List.Perm.append_left _ List.perm_append_comm
    rw [List.range_succ]
    exact hperm.trans (h.places.append_right _)
  · rw [Nat.lt_succ_iff_lt_or_eq, h.made]
    constructor
    · rintro (⟨e, he⟩ | rfl)
      · exact ⟨e, (hentry _ _).mpr (.inr he)⟩
      · exact ⟨_, (hentry _ _).mpr (.inl ⟨rfl, rfl⟩)⟩
    · rintro ⟨e, he⟩
      exact ((hentry _ _).mp he).elim (fun he => .inr he.1) fun he => .inl ⟨e, he⟩
  · simp only
    by_cases e : id = canonical upper c.args
    · subst e
      rw [Function.update_self, List.nodup_append]
      refine ⟨h.nodup _, List.nodup_singleton _, fun m hm m' hm' => ?_⟩
      cases List.mem_singleton.mp hm'
      exact ne_of_lt (hlt hm)
    · rw [Function.update_of_ne e]; exact h.nodup id
  · intro id m hm
    rcases hpending hm with hm | ⟨rfl, rfl⟩
    · exact List.mem_append_left _ (h.queued hm)
    · exact List.mem_append_right _ (List.mem_singleton_self _)
  · intro m e' h'
    rcases (hentry m e').mp h' with ⟨-, rfl⟩ | h'
    · exact Finset.mem_singleton_self _
    · exact h.entries h'
  · intro id m e' hm h'
    rcases hpending hm with hm | ⟨rfl, rfl⟩
    · rcases (hentry m e').mp h' with ⟨rfl, -⟩ | h'
      · exact absurd (hlt hm) (lt_irrefl _)
      · exact h.identity hm h'
    · rcases (hentry _ e').mp h' with ⟨-, rfl⟩ | h'
      · rfl
      · exact absurd rfl (hnone h')
  · intro f hf
    obtain ⟨e', he', heq⟩ := h.sent hf
    exact ⟨e', (hentry _ _).mpr (.inr he'), heq⟩
  · intro d hd
    obtain ⟨e', he', heq⟩ := h.ran hd
    exact ⟨e', (hentry _ _).mpr (.inr he'), heq⟩
  · intro c' m hc'
    rcases List.mem_append.mp hc' with hc' | hc'
    · obtain ⟨e', he', hs⟩ := h.calls hc'
      exact ⟨e', (hentry _ _).mpr (.inr he'), hs⟩
    · cases List.mem_singleton.mp hc'
      refine ⟨_, (hentry _ _).mpr (.inl ⟨rfl, rfl⟩), rfl, Finset.mem_singleton_self _, ?_⟩
      rintro args origin rfl
      exact ⟨rfl, .refl args⟩
  · rw [List.pairwise_append]
    refine ⟨h.sides, List.pairwise_singleton _ _, ?_⟩
    rintro ⟨c', m⟩ hc' q hq (e' : m = q.2)
    cases List.mem_singleton.mp hq
    obtain ⟨e'', he'', -⟩ := h.calls hc'
    exact absurd e' (hnone he'')
  · intro m e' h' hp
    rcases (hentry m e').mp h' with ⟨rfl, rfl⟩ | h'
    · exact ⟨c, by simp, (Finset.mem_singleton.mp hp).symm⟩
    · obtain ⟨c', hc', hs⟩ := h.publisher h' hp
      exact ⟨c', List.mem_append_left _ hc', hs⟩

theorem PairInv.run (h : PairInv upper s) {c : PairCall} (hok : Joins upper s c) :
    PairInv upper (s.run upper c) := by
  unfold PairState.run
  split
  · exact h
  · split
    · next n hw => exact h.run_join hok hw
    · exact h.run_new c

theorem PairInv.microtask (h : PairInv upper s) : PairInv upper s.microtask := by
  unfold PairState.microtask
  split
  · exact h
  · next id n queue hq =>
    have hn : n ∈ s.places := by simp [PairState.places, hq]
    obtain ⟨e, he⟩ := (h.made n).mp (List.mem_range.mp (h.places.mem_iff.mp hn))
    have hpending : ∀ {id' m}, m ∈ Function.update s.pending id ((s.pending id).erase n) id' →
        m ∈ s.pending id' ∧ (id', m) ≠ (id, n) := by
      intro id' m hm
      by_cases e : id' = id
      · subst e
        rw [Function.update_self, (h.nodup id').mem_erase_iff] at hm
        exact ⟨hm.2, fun e => hm.1 (Prod.mk.inj e).2⟩
      · rw [Function.update_of_ne e] at hm
        exact ⟨hm, fun e' => e (Prod.mk.inj e').1⟩
    refine ⟨?_, h.made, fun id' => ?_, ?_, h.entries, ?_, ?_, h.ran, h.calls, h.sides, h.publisher⟩
    · refine List.Perm.trans ?_ h.places
      simp only [PairState.places, hq, he, Option.toList_some, List.map_append, List.map_cons,
        List.map_nil, Entry.send, List.append_assoc, List.cons_append, List.nil_append]
      rw [← List.append_assoc]
      refine List.perm_middle.trans ?_
      rw [List.append_assoc]
    · simp only
      by_cases e : id' = id
      · subst e; rw [Function.update_self]; exact (h.nodup id').erase n
      · rw [Function.update_of_ne e]; exact h.nodup id'
    · intro id' m hm
      obtain ⟨hm, hne⟩ := hpending hm
      have := h.queued hm
      rw [hq] at this
      exact (List.mem_cons.mp this).resolve_left hne
    · exact fun hm he => h.identity (hpending hm).1 he
    · intro f hf
      rcases List.mem_append.mp hf with hf | hf
      · exact h.sent hf
      · rw [he] at hf
        cases List.mem_singleton.mp hf
        exact ⟨e, he, rfl⟩

theorem PairInv.script (h : PairInv upper s) {f : Sent} (hf : f ∈ s.sent) :
    PairInv upper (s.script upper f) := by
  refine ⟨?_, h.made, h.nodup, h.queued, h.entries, h.identity,
    fun hg => h.sent (List.mem_of_mem_erase hg), ?_, h.calls, h.sides, h.publisher⟩
  · refine List.Perm.trans ?_ h.places
    refine List.Perm.append_left _ ?_
    have hp : (s.sent.map (·.entry)).Perm (f.entry :: (s.sent.erase f).map (·.entry)) :=
      (List.perm_cons_erase hf).map _
    refine List.Perm.trans ?_ (hp.symm.append_right _)
    simp only [PairState.script, List.map_append, List.map_cons, List.map_nil]
    rw [← List.append_assoc]
    refine List.perm_append_comm.trans ?_
    simp
  · intro d hd
    rcases List.mem_append.mp hd with hd | hd
    · exact h.ran hd
    · cases List.mem_singleton.mp hd
      exact h.sent hf

end

/-! ### Events -/

section
variable {upper : String → String} {B : Type} {db db' : Db B}

/-- Events are in the order of their sequence numbers, none ahead of the sequence. -/
structure Db.Ordered (db : Db B) : Prop where
  channel : db.channel.Pairwise fun e e' => e.seq < e'.seq
  bound : ∀ {e}, e ∈ db.channel → e.seq ≤ db.seq

/-- The sequence and the channel stay, or one event takes the next number. -/
def Db.Extends (db db' : Db B) : Prop :=
  (db'.seq = db.seq ∧ db'.channel = db.channel) ∨
    ∃ e, e.seq = db.seq + 1 ∧ db'.seq = db.seq + 1 ∧ db'.channel = db.channel ++ [e]

theorem Db.inval_extends (mode : Mode) (t : Targets) (origin : String) (args : InvalidateArgs) :
    db.Extends (db.inval mode t origin args).1 := by
  obtain ⟨-, hseq, -, hchannel, -⟩ := @Db.inval_spec B db mode t origin args
  by_cases h : mode = .delete
  · rw [if_pos h] at hseq hchannel
    exact .inl ⟨hseq, hchannel.trans (List.append_nil _)⟩
  · rw [if_neg h] at hseq hchannel
    exact .inr ⟨_, rfl, hseq, hchannel⟩

theorem Foreign.extends (h : Foreign db db') : db.Extends db' := by
  cases h with
  | set stage k stamp ttl idx =>
      rcases db.set_cases stage k stamp ttl idx with e | ⟨page, db', -, rfl, -, ⟨-, hs, -, hc⟩, -⟩
      · rw [e]; exact .inl ⟨rfl, rfl⟩
      · exact .inl ⟨hs, hc⟩
  | inval mode t origin args => exact Db.inval_extends mode t origin args
  | unlink => exact .inl ⟨rfl, rfl⟩
  | expire => exact .inl ⟨rfl, rfl⟩

theorem Db.Extends.ordered (h : db.Extends db') (ho : db.Ordered) : db'.Ordered := by
  rcases h with ⟨hs, hc⟩ | ⟨e, he, hs, hc⟩
  · exact ⟨hc ▸ ho.channel, fun he => hs ▸ ho.bound (hc ▸ he)⟩
  · refine ⟨?_, fun {e'} he' => ?_⟩
    · rw [hc, List.pairwise_append]
      refine ⟨ho.channel, List.pairwise_singleton _ _, fun e' he' e'' he'' => ?_⟩
      cases List.mem_singleton.mp he''
      rw [he]
      exact Nat.lt_succ_of_le (ho.bound he')
    · rw [hc, List.mem_append] at he'
      rcases he' with he' | he'
      · exact hs ▸ Nat.le_succ_of_le (ho.bound he')
      · rw [List.mem_singleton.mp he', he, hs]

theorem Db.Extends.channel_subset (h : db.Extends db') : db.channel ⊆ db'.channel := by
  rcases h with ⟨-, hc⟩ | ⟨e, -, -, hc⟩
  · exact hc ▸ List.Subset.refl _
  · exact hc ▸ List.subset_append_left _ _

/-- The event of a run. -/
def Ran.event (d : Ran B) : Event := ⟨d.result.seq, d.sent.origin, d.sent.args⟩

structure RanInv (upper : String → String) (s : PairState B) : Prop where
  ordered : s.db.Ordered
  result : ∀ {d}, d ∈ s.done → d.result =
    (d.before.inval d.sent.mode (targets upper d.sent.args) d.sent.origin d.sent.args).2
  events : ∀ {d}, d ∈ s.done → d.sent.mode ≠ .delete → d.event ∈ s.db.channel
  seqs : ∀ {d d'}, d ∈ s.done → d' ∈ s.done → d.sent.mode ≠ .delete → d'.sent.mode ≠ .delete →
    d.result.seq = d'.result.seq → d = d'

variable {s s' : PairState B}

theorem RanInv.extends (h : RanInv upper s) (hx : s.db.Extends s'.db) (hd : s'.done = s.done) :
    RanInv upper s' := by
  refine ⟨hx.ordered h.ordered, ?_, ?_, ?_⟩
  · rw [hd]; exact h.result
  · rw [hd]; exact fun hd hm => hx.channel_subset (h.events hd hm)
  · rw [hd]; exact h.seqs

theorem RanInv.script (h : RanInv upper s) (f : Sent) : RanInv upper (s.script upper f) := by
  have hx : s.db.Extends (s.script upper f).db := Db.inval_extends ..
  obtain ⟨-, -, -, hchannel, hseq, -⟩ :=
    @Db.inval_spec B s.db f.mode (targets upper f.args) f.origin f.args
  refine ⟨hx.ordered h.ordered, ?_, ?_, ?_⟩
  · intro d hd
    rcases List.mem_append.mp hd with hd | hd
    · exact h.result hd
    · cases List.mem_singleton.mp hd; rfl
  · intro d hd hm
    rcases List.mem_append.mp hd with hd | hd
    · exact hx.channel_subset (h.events hd hm)
    · cases List.mem_singleton.mp hd
      rw [if_neg hm] at hchannel hseq
      simp only [PairState.script, Ran.event, hchannel, hseq]
      exact List.mem_append_right _ (List.mem_singleton_self _)
  · -- the events before the run's have lower numbers
    have hlt : ∀ {d}, d ∈ s.done → d.sent.mode ≠ .delete → f.mode ≠ .delete →
        d.result.seq < (s.db.inval f.mode (targets upper f.args) f.origin f.args).2.seq := by
      intro d hd hm hf
      rw [hseq, if_neg hf]
      exact Nat.lt_succ_of_le (h.ordered.bound (h.events hd hm))
    intro d d' hd hd' hm hm' e
    rcases List.mem_append.mp hd with hd | hd
    · rcases List.mem_append.mp hd' with hd' | hd'
      · exact h.seqs hd hd' hm hm' e
      · cases List.mem_singleton.mp hd'
        exact absurd e (hlt hd hm hm').ne
    · cases List.mem_singleton.mp hd
      rcases List.mem_append.mp hd' with hd' | hd'
      · exact absurd e (hlt hd' hm' hm).ne'
      · exact (List.mem_singleton.mp hd').symm

/-! ### Nothing is lost -/

/-- The entry of a call waits for its microtask, or its script is under way. -/
def Waiting (s : PairState B) (n : ℕ) : Prop :=
  n ∈ s.queue.map (·.2) ∨ n ∈ s.sent.map (·.entry)

/-- What a call asks of the run that serves it: of a publish, one event, with arguments a replay
reads alike and the origin of the call; of an invalidation, that it takes out the pages its own
arguments select. -/
def Effect (upper : String → String) (s : PairState B) (d : Ran B) : PairCall → Prop
  | .publish args origin => ∃ args', Equivalent args' args ∧
      s.db.channel.filter (fun e => e.seq = d.result.seq) = [⟨d.result.seq, origin, args'⟩]
  | .invalidate args => d.sent.mode ≠ .publish ∧
      ∀ m, m ∈ d.result.members ↔ (targets upper args).selects d.before.sets m

/-- Each call that does not wait was served by one run; no two publish calls have the same sequence
number; and each event is some publish call's. -/
structure LosesNothing (upper : String → String) (s : PairState B) : Prop where
  served : ∀ c n, (c, n) ∈ s.calls → Waiting s n ∨ ∃ d ∈ s.done, d.sent.entry = n ∧
    (∀ d' ∈ s.done, d'.sent.entry = n → d' = d) ∧ Effect upper s d c
  seqs : s.calls.Pairwise fun p q => p.1.side = .publish → q.1.side = .publish →
    ∀ d ∈ s.done, ∀ d' ∈ s.done, d.sent.entry = p.2 → d'.sent.entry = q.2 →
      d.result.seq ≠ d'.result.seq
  caused : ∀ d ∈ s.done, d.sent.mode ≠ .delete →
    ∃ c, (c, d.sent.entry) ∈ s.calls ∧ c.side = .publish

/-- The condition of a step: `Joins`, for a call. -/
def Merges (upper : String → String) (s : PairState B) : PairState.Act → Prop
  | .call c => Joins upper s c
  | _ => True

abbrev PairReach (upper : String → String) : PairState B → Prop :=
  Reach (· = .init) (PairState.Step upper) (Merges upper)

theorem pairInv_init : PairInv upper (.init : PairState B) := by
  constructor
  case places => exact List.Perm.refl _
  case made => intro n; simp [PairState.init]
  case nodup => intro id; exact List.nodup_nil
  case sides => exact List.Pairwise.nil
  all_goals
    intros
    simp_all [PairState.init]

theorem pairInv (r : PairReach upper s) : PairInv upper s ∧ RanInv upper s := by
  induction r with
  | init h =>
      subst h
      refine ⟨pairInv_init, ⟨.nil, fun h => by cases h⟩, ?_, ?_, ?_⟩
      · exact fun h => by cases h
      · exact fun h => by cases h
      · exact fun h => by cases h
  | step _ h hok ih =>
      obtain ⟨hp, hr⟩ := ih
      cases h with
      | call c =>
          refine ⟨hp.run hok, ?_⟩
          unfold PairState.run
          split
          · exact hr
          · split
            · exact ⟨hr.ordered, hr.result, hr.events, hr.seqs⟩
            · exact ⟨hr.ordered, hr.result, hr.events, hr.seqs⟩
      | microtask =>
          refine ⟨hp.microtask, ?_⟩
          unfold PairState.microtask
          split
          · exact hr
          · exact ⟨hr.ordered, hr.result, hr.events, hr.seqs⟩
      | script hf => exact ⟨hp.script hf, hr.script _⟩
      | foreign hf =>
          exact ⟨⟨hp.places, hp.made, hp.nodup, hp.queued, hp.entries, hp.identity, hp.sent, hp.ran,
            hp.calls, hp.sides, hp.publisher⟩, hr.extends hf.extends rfl⟩

theorem filter_seq {es : List Event} (h : es.Pairwise fun e e' => e.seq < e'.seq) {e : Event}
    (he : e ∈ es) : es.filter (fun e' => e'.seq = e.seq) = [e] := by
  induction es with
  | nil => cases he
  | cons e₀ es ih =>
      obtain ⟨hlt, h⟩ := List.pairwise_cons.mp h
      rcases List.mem_cons.mp he with rfl | he
      · rw [List.filter_cons_of_pos (by simp), List.filter_eq_nil_iff.mpr fun e' he' => ?_]
        simpa using (hlt e' he').ne'
      · rw [List.filter_cons_of_neg (by simpa using (hlt e he).ne), ih h he]

theorem PairInv.entry_inj (h : PairInv upper s) {d d' : Ran B} (hd : d ∈ s.done)
    (hd' : d' ∈ s.done) (e : d'.sent.entry = d.sent.entry) : d' = d := by
  have hn : (s.done.map (·.sent.entry)).Nodup :=
    (List.nodup_append.mp (List.nodup_append.mp h.places_nodup).2.1).2.1
  exact List.inj_on_of_nodup_map hn hd' hd e

theorem effect (hp : PairInv upper s) (hr : RanInv upper s) {d : Ran B} (hd : d ∈ s.done)
    {c : PairCall} (hc : (c, d.sent.entry) ∈ s.calls) : Effect upper s d c := by
  obtain ⟨e, he, hs⟩ := hp.calls hc
  obtain ⟨e', he', hsend⟩ := hp.ran hd
  obtain rfl := Option.some.inj (he.symm.trans he')
  obtain ⟨hinval, hpublish⟩ := Entry.mode_spec (hp.entries he)
  have hside := hs.side
  have hmode : d.sent.mode = e.mode := congrArg Sent.mode hsend
  have hargs : d.sent.args = e.args := congrArg Sent.args hsend
  cases c with
  | publish args origin =>
      obtain ⟨ho, heq⟩ := hs.publish rfl
      have horigin : d.sent.origin = origin := by
        rw [congrArg Sent.origin hsend, Entry.send, ho, Option.getD_some]
      have hevent := hr.events hd (hmode ▸ hpublish.mpr hside)
      exact ⟨d.sent.args, hargs ▸ heq, horigin ▸ filter_seq hr.ordered.channel hevent⟩
  | invalidate args =>
      have hne := hmode ▸ hinval.mpr hside
      refine ⟨hne, fun m => ?_⟩
      obtain ⟨-, -, -, -, -, hmem, -⟩ := @Db.inval_spec B d.before d.sent.mode
        (targets upper d.sent.args) d.sent.origin d.sent.args
      rw [hr.result hd, hmem, hargs, selects_of_canonical hs.identity]
      exact and_iff_right hne

theorem PairInv.publishes (hp : PairInv upper s) {d : Ran B} (hd : d ∈ s.done) {c : PairCall}
    (hc : (c, d.sent.entry) ∈ s.calls) (hside : c.side = .publish) : d.sent.mode ≠ .delete := by
  obtain ⟨e, he, hs⟩ := hp.calls hc
  obtain ⟨e', he', hsend⟩ := hp.ran hd
  obtain rfl := Option.some.inj (he.symm.trans he')
  have hmode : d.sent.mode = e.mode := congrArg Sent.mode hsend
  exact hmode ▸ (Entry.mode_spec (hp.entries he)).2.mpr (hside ▸ hs.side)

theorem losesNothing (hp : PairInv upper s) (hr : RanInv upper s) : LosesNothing upper s := by
  refine ⟨fun c n hc => ?_, ?_, fun d hd hm => ?_⟩
  · obtain ⟨e, he, -⟩ := hp.calls hc
    have hn : n ∈ s.places :=
      hp.places.mem_iff.mpr (List.mem_range.mpr ((hp.made n).mpr ⟨e, he⟩))
    rcases List.mem_append.mp hn with hq | hn
    · exact .inl (.inl hq)
    · rcases List.mem_append.mp hn with hsent | hdone
      · exact .inl (.inr hsent)
      · obtain ⟨d, hd, rfl⟩ := List.mem_map.mp hdone
        exact .inr ⟨d, hd, rfl, fun d' hd' e => hp.entry_inj hd hd' e, effect hp hr hd hc⟩
  · refine hp.sides.imp_of_mem fun {p q} hpc hqc hne hps hqs d hd d' hd' e e' => ?_
    have hdiff : d ≠ d' := by
      rintro rfl
      exact hne (e.symm.trans e') (hps.trans hqs.symm)
    have hm : d.sent.mode ≠ .delete := hp.publishes hd (c := p.1) (by rw [e]; exact hpc) hps
    have hm' : d'.sent.mode ≠ .delete := hp.publishes hd' (c := q.1) (by rw [e']; exact hqc) hqs
    exact fun e'' => hdiff (hr.seqs hd hd' hm hm' e'')
  · obtain ⟨e, he, hsend⟩ := hp.ran hd
    have hmode : d.sent.mode = e.mode := congrArg Sent.mode hsend
    exact hp.publisher he ((Entry.mode_spec (hp.entries he)).2.mp (hmode ▸ hm))

/-- Microtasks and scripts alone bring every call to its run. -/
theorem drains (r : PairReach upper s) : ∃ s' : PairState B, PairReach upper s' ∧
    s'.calls = s.calls ∧ s'.queue = [] ∧ s'.sent = [] := by
  -- a microtask leaves one script more at most
  induction hk : 2 * s.queue.length + s.sent.length using Nat.strong_induction_on
    generalizing s with
  | _ k ih =>
      cases hq : s.queue with
      | cons p queue =>
          have r' := r.step (.microtask s) trivial
          have hqueue : s.microtask.queue = queue := by simp [PairState.microtask, hq]
          have hcalls : s.microtask.calls = s.calls := by simp [PairState.microtask, hq]
          have hsent : s.microtask.sent.length ≤ s.sent.length + 1 := by
            cases s.entry p.2 <;> simp [PairState.microtask, *]
          rw [hq, List.length_cons] at hk
          obtain ⟨s', hr, hc, hidle⟩ := ih _ (by rw [hqueue]; omega) r' rfl
          exact ⟨s', hr, hc.trans hcalls, hidle⟩
      | nil =>
          cases hs : s.sent with
          | nil => exact ⟨s, r, rfl, hq, hs⟩
          | cons f sent =>
              have r' := r.step (.script s (hs ▸ List.mem_cons_self ..)) trivial
              have hsent : (s.script upper f).sent = sent := by simp [PairState.script, hs]
              have hqueue : (s.script upper f).queue = [] := hq
              rw [hq, hs, List.length_cons] at hk
              obtain ⟨s', hr, hc, hidle⟩ := ih _ (by rw [hqueue, hsent]; omega) r' rfl
              exact ⟨s', hr, hc, hidle⟩

/-- **Pairing loses nothing**, in every run in which a publish joins only an entry of its own user
key and method; and every call comes to be served. -/
theorem pairing_loses_nothing (r : PairReach upper s) : LosesNothing upper s ∧
    ∃ s' : PairState B, PairReach upper s' ∧ s'.calls = s.calls ∧ s'.queue = [] ∧ s'.sent = [] :=
  ⟨losesNothing (pairInv r).1 (pairInv r).2, drains r⟩

end

/-! ### Two halves that meet -/

/-- A tag and a user key. -/
def keyed (key : String) : InvalidateArgs := ⟨some key, ["a"], none, none, none⟩

/-- A publish finds the entry of an invalidation of the same tag. -/
def paired (key : String) : PairState Unit :=
  (PairState.init.run String.toUpper (.invalidate (keyed "k"))).run String.toUpper
    (.publish (keyed key) "o")

/-- What is sent for both. -/
def pairedSent : Sent := ⟨0, keyed "k", .both, "o"⟩

/-- With the same user key both halves are served by one run. -/
theorem pairing_loses_nothing_paired :
    (.publish (keyed "k") "o", 0) ∈ (paired "k").calls ∧
    LosesNothing String.toUpper ((paired "k").microtask.script String.toUpper pairedSent) := by
  have r : PairReach String.toUpper (.init : PairState Unit) := .init rfl
  have r := r.step (.call _ (.invalidate (keyed "k"))) (fun args origin h => by cases h)
  have r := r.step (.call _ (.publish (keyed "k") "o")) (by
    rintro args origin h n e - he
    cases h
    obtain rfl : n = 0 := by
      by_contra hn
      cases (Function.update_of_ne hn _ _).symm.trans he
    cases he
    exact ⟨rfl, rfl⟩)
  have r := r.step (.microtask _) trivial
  have r := r.step (@PairState.Step.script _ _ _ pairedSent (by decide +kernel)) trivial
  exact ⟨by decide +kernel, (pairing_loses_nothing r).1⟩

/-- A publish served by the run of another user's invalidation: its event has the other key. -/
theorem pairing_loses_key : ¬ ∀ s : PairState Unit,
    Reach (· = .init) (PairState.Step String.toUpper) anyStep s →
      LosesNothing String.toUpper s := by
  intro h
  have r : Reach (· = .init) (PairState.Step String.toUpper) anyStep (.init : PairState Unit) :=
    .init rfl
  have r := r.step (.call _ (.invalidate (keyed "k"))) trivial
  have r := r.step (.call _ (.publish (keyed "l") "o")) trivial
  have r := r.step (.microtask _) trivial
  have r := r.step (@PairState.Step.script _ _ _ pairedSent (by decide +kernel)) trivial
  rcases (h _ r).served (.publish (keyed "l") "o") 0 (by decide +kernel) with
    hw | ⟨d, hd, -, -, args, heq, hevent⟩
  · rcases hw with hw | hw
    · exact absurd hw (by decide +kernel)
    · exact absurd hw (by decide +kernel)
  · have hchannel : ((paired "l").microtask.script String.toUpper pairedSent).db.channel =
        [⟨1, "o", keyed "k"⟩] := by decide +kernel
    have hmem : (⟨d.result.seq, "o", args⟩ : Event) ∈
        ((paired "l").microtask.script String.toUpper pairedSent).db.channel :=
      List.mem_of_mem_filter (hevent ▸ List.mem_singleton_self _)
    rw [hchannel] at hmem
    obtain rfl : args = keyed "k" := congrArg Event.args (List.mem_singleton.mp hmem)
    exact absurd heq.key (by decide)

end Brust.Redis
