import Brust.Reactive.Marks

/-!
# Reactive — Stores

`defineStore`: the `set` of a store's signals is wrapped, and bumps the store's version after the
write has run its effects; a `set` that was taken before goes past the wrapper.  `snapshot` keeps
the object it made of one version.  The log records the writes and the snapshots, and `Coherent` is
what readers of snapshots rely on.
-/

namespace Brust.Reactive.Store

variable {V : Type}

/-- A snapshot: an object and what it has by key. -/
structure Obj (V : Type) where
  id : ℕ
  values : List (String × V)

/-- The function of an effect or of a subscriber, or what a caller does.  What may throw tells the
rest whether it did, which catches it or throws.  A write goes through the first `layers` of what
wraps the signal's `set`: all of it, or as much as there was when the caller took the `set`. -/
inductive Act (V : Type) where
  | ret
  | throw
  /-- An effect's function returns its cleanup. -/
  | clean (cleanup : Act V)
  | read (n : Node) (k : Option V → Act V)
  | peek (n : Node) (k : Option V → Act V)
  | untracked (fn : Act V) (k : Bool → Act V)
  | set (i layers : ℕ) (next : V → V) (k : Bool → Act V)
  | batch (fn : Act V) (k : Bool → Act V)
  | effect (fn : Act V) (tier : ℕ) (k : Option ℕ → Act V)
  | dispose (e : ℕ) (k : Bool → Act V)
  | snapshot (s : ℕ) (k : Option (Obj V) → Act V)
  | subscribe (s : ℕ) (cb : Act V) (k : ℕ → Act V)
  | unsubscribe (s : ℕ) (cb : ℕ) (k : Act V)

/-- How a function ends. -/
inductive End (V : Type) where
  | returned (cleanup : Option (Act V))
  | threw

def End.isThrow : End V → Bool
  | .returned _ => false
  | .threw => true

/-- The stores: the signals and computeds of each by their keys, and the stores that wrapped a
signal's `set`, innermost first. -/
structure Site where
  nodes : ℕ → List (String × Node)
  wrappers : ℕ → List ℕ
  wrapped : ∀ s i, s ∈ wrappers i ↔ .sig i ∈ (nodes s).map (·.2)

/-- What is recorded: a write and the stores whose wrappers it went through, a snapshot and how many
wrapped `set`s of its store have written and not bumped its version, and a wrapped `set` that threw
before it did. -/
inductive Event (V : Type) where
  | wrote (used : List ℕ) (before after : ℕ → V)
  | snap (s : ℕ) (o : Obj V) (sig : ℕ → V) (opened : ℕ)
  | abandoned (s : ℕ)

/-- `rec.snap` -/
structure Memo (V : Type) where
  value : Obj V
  version : ℕ

/-- The reactive core, the functions of its effects and their cleanups, and the stores' records. -/
structure Stores (V : Type) where
  core : State V
  fns : List (Act V)
  cleanup : ℕ → Option (Act V)
  version : ℕ → ℕ
  snap : ℕ → Option (Memo V)
  callbacks : List (Act V)
  subs : ℕ → List ℕ
  objects : ℕ
  opened : ℕ → ℕ
  log : List (Event V)

/-! ### Snapshots -/

/-- The values of the nodes by key, each read under `cur`; `none` is a throw. -/
def readAll (g : Graph V) (cur : Option Sub) :
    List (String × Node) → State V → State V × Option (List (String × V))
  | [], core => (core, some [])
  | (key, n) :: nodes, core =>
    match readNode g cur n core with
    | (core, none) => (core, none)
    | (core, some v) =>
      match readAll g cur nodes core with
      | (core, none) => (core, none)
      | (core, some out) => (core, some ((key, v) :: out))

namespace Stores

def taken (σ : Stores V) (s : ℕ) (o : Obj V) : Stores V :=
  { σ with log := .snap s o σ.core.sig (σ.opened s) :: σ.log }

/-- `computeSnapshot`, where nothing is kept of this version. -/
def compute (g : Graph V) (site : Site) (cur : Option Sub) (s : ℕ) (σ : Stores V) :
    Stores V × Option (Obj V) :=
  match readAll g cur (site.nodes s) σ.core with
  | (core, none) => ({ σ with core }, none)
  | (core, some out) =>
    let o : Obj V := ⟨σ.objects, out⟩
    (({ σ with
        core
        snap := Function.update σ.snap s (some ⟨o, σ.version s⟩)
        objects := σ.objects + 1 } : Stores V).taken s o, some o)

def snapshot (g : Graph V) (site : Site) (cur : Option Sub) (s : ℕ) (σ : Stores V) :
    Stores V × Option (Obj V) :=
  match σ.snap s with
  | none => σ.compute g site cur s
  | some m =>
    if m.version = σ.version s then (σ.taken s m.value, some m.value)
    else σ.compute g site cur s

/-- A write is in the core, and the wrappers that it went through are open. -/
def written (σ : Stores V) (used : List ℕ) (core : State V) : Stores V :=
  { σ with
    core
    opened := fun s => σ.opened s + used.count s
    log := .wrote used σ.core.sig core.sig :: σ.log }

def close (σ : Stores V) (s : ℕ) : Stores V :=
  { σ with opened := Function.update σ.opened s (σ.opened s - 1) }

/-- The wrappers that a throw leaves. -/
def abandon (σ : Stores V) (wrappers : List ℕ) : Stores V :=
  wrappers.foldl (fun σ s => { σ.close s with log := .abandoned s :: σ.log }) σ

def bump (σ : Stores V) (s : ℕ) : Stores V :=
  { σ with version := Function.update σ.version s (σ.version s + 1) }

/-- `this.cleanup = …` -/
def keep (σ : Stores V) (e : ℕ) (cleanup : Option (Act V)) : Stores V :=
  { σ with cleanup := Function.update σ.cleanup e cleanup }

def depth (σ : Stores V) (d : ℕ) : Stores V := { σ with core := { σ.core with batchDepth := d } }

/-- `flush`, with its loop. -/
def flush (drain : Stores V → Option (Stores V × Bool)) (σ : Stores V) :
    Option (Stores V × Bool) :=
  if 0 < σ.core.batchDepth then some (σ, false) else drain σ

/-- The wrappers that are left go on, where nothing threw. -/
def rest (threw : Bool) (wrappers : List ℕ)
    (unwind : List ℕ → Stores V → Option (Stores V × Bool)) (σ : Stores V) :
    Option (Stores V × Bool) :=
  if threw then some (σ.abandon wrappers, true) else unwind wrappers σ

end Stores

/-! ### Runs -/

section Running

variable [DecidableEq V]

mutual

/-- A function runs under the effect `cur`. -/
def run (g : Graph V) (site : Site) :
    ℕ → Option ℕ → Act V → Stores V → Option (Stores V × End V)
  | 0, _, _, _ => none
  | _ + 1, _, .ret, σ => some (σ, .returned none)
  | _ + 1, _, .throw, σ => some (σ, .threw)
  | _ + 1, _, .clean cleanup, σ => some (σ, .returned (some cleanup))
  | f + 1, cur, .read n k, σ =>
    match readNode g (cur.map .eff) n σ.core with
    | (core, v) => run g site f cur (k v) { σ with core }
  | f + 1, cur, .peek n k, σ =>
    match readNode g none n σ.core with
    | (core, v) => run g site f cur (k v) { σ with core }
  | f + 1, cur, .untracked fn k, σ => do
    let (σ, out) ← run g site f none fn σ
    run g site f cur (k out.isThrow) σ
  | f + 1, cur, .set i layers next k, σ =>
    let before := σ.core.sig i
    let v := next before
    if v = before then run g site f cur (k false) σ
    else do
      let core ← notify f (.sig i) { σ.core with sig := Function.update σ.core.sig i v }
      let used := (site.wrappers i).take layers
      let σ := σ.written used core
      let (σ, threw) ← σ.flush (drain g site f)
      let (σ, threw) ← σ.rest threw used (unwind g site f cur i before)
      run g site f cur (k threw) σ
  | f + 1, cur, .batch fn k, σ => do
    let (σ, out) ← run g site f cur fn (σ.depth (σ.core.batchDepth + 1))
    let σ := σ.depth (σ.core.batchDepth - 1)
    let (σ, threw) ← σ.flush (drain g site f)
    run g site f cur (k (threw || out.isThrow)) σ
  | f + 1, cur, .effect fn tier k, σ => do
    let e := σ.core.tiers.length
    let (σ, out) ← run g site f (some e) fn
      { σ with core := { σ.core with tiers := σ.core.tiers ++ [tier] }, fns := σ.fns ++ [fn] }
    match out with
    | .returned cleanup => run g site f cur (k (some e)) (σ.keep e cleanup)
    | .threw =>
      -- a first run that throws must not stay subscribed
      let (σ, _) ← dispose g site f e σ
      run g site f cur (k none) σ
  | f + 1, cur, .dispose e k, σ => do
    let (σ, threw) ← dispose g site f e σ
    run g site f cur (k threw) σ
  | f + 1, cur, .snapshot s k, σ =>
    match σ.snapshot g site (cur.map .eff) s with
    | (σ, o) => run g site f cur (k o) σ
  | f + 1, cur, .subscribe s cb k, σ =>
    run g site f cur (k σ.callbacks.length)
      { σ with
        callbacks := σ.callbacks ++ [cb]
        subs := Function.update σ.subs s (σ.subs s ++ [σ.callbacks.length]) }
  | f + 1, cur, .unsubscribe s cb k, σ =>
    run g site f cur k { σ with subs := Function.update σ.subs s ((σ.subs s).filter (· ≠ cb)) }

/-- The rest of the wrapped `set`s of a signal that had the value `before`, innermost first. -/
def unwind (g : Graph V) (site : Site) :
    ℕ → Option ℕ → ℕ → V → List ℕ → Stores V → Option (Stores V × Bool)
  | 0, _, _, _, _, _ => none
  | _ + 1, _, _, _, [], σ => some (σ, false)
  | f + 1, cur, i, before, s :: outer, σ =>
    let σ := σ.close s
    if before = σ.core.sig i then unwind g site f cur i before outer σ
    else do
      let (σ, threw) ← callAll g site f cur (σ.subs s) (σ.bump s)
      σ.rest threw outer (unwind g site f cur i before)

/-- `for (const cb of Array.from(subs)) cb()` -/
def callAll (g : Graph V) (site : Site) :
    ℕ → Option ℕ → List ℕ → Stores V → Option (Stores V × Bool)
  | 0, _, _, _ => none
  | _ + 1, _, [], σ => some (σ, false)
  | f + 1, cur, c :: cs, σ => do
    let (σ, out) ← run g site f cur (σ.callbacks[c]?.getD .ret) σ
    if out.isThrow then some (σ, true) else callAll g site f cur cs σ

/-- `while (pending.size)` -/
def drain (g : Graph V) (site : Site) : ℕ → Stores V → Option (Stores V × Bool)
  | 0, _ => none
  | f + 1, σ =>
    if σ.core.pending = [] then some (σ, false)
    else do
      let (σ, threw) ← turns g site f (nextRun σ.core) σ
      if threw then some (σ, true) else drain g site f σ

/-- `for (const e of run) pending.delete(e), e.disposed || e.run()` -/
def turns (g : Graph V) (site : Site) : ℕ → List ℕ → Stores V → Option (Stores V × Bool)
  | 0, _, _ => none
  | _ + 1, [], σ => some (σ, false)
  | f + 1, e :: es, σ =>
    let σ := { σ with core := { σ.core with pending := σ.core.pending.filter (· ≠ e) } }
    if σ.core.disposed e then turns g site f es σ
    else do
      let (σ, threw) ← cleanUp g site f e σ
      if threw then some (σ, true)
      else do
        let (σ, out) ← run g site f (some e) (σ.fns[e]?.getD .ret)
          { σ with core := σ.core.unsubscribe (.eff e) }
        match out with
        | .returned cleanup => turns g site f es (σ.keep e cleanup)
        | .threw => some (σ, true)

/-- `EffectImpl.dispose` -/
def dispose (g : Graph V) (site : Site) : ℕ → ℕ → Stores V → Option (Stores V × Bool)
  | 0, _, _ => none
  | f + 1, e, σ =>
    if σ.core.disposed e then some (σ, false)
    else cleanUp g site f e { σ with core := σ.core.dispose e }

/-- `runCleanup`, of the cleanup there is. -/
def cleanUp (g : Graph V) (site : Site) : ℕ → ℕ → Stores V → Option (Stores V × Bool)
  | 0, _, _ => none
  | f + 1, e, σ =>
    match σ.cleanup e with
    | none => some (σ, false)
    | some cleanup => do
      let (σ, out) ← run g site f none cleanup (σ.keep e none)
      some (σ, out.isThrow)

end

/-- Calls one after the other, each to its return or its throw, with the fuel it takes. -/
def calls (g : Graph V) (site : Site) : List (ℕ × Act V) → Stores V → Option (Stores V)
  | [], σ => some σ
  | (f, a) :: as, σ => do
    let (σ, _) ← run g site f none a σ
    calls g site as σ

end Running

/-- The stores before the first access. -/
def start (sig : ℕ → V) : Stores V where
  core := Reactive.start sig
  fns := []
  cleanup _ := none
  version _ := 0
  snap _ := none
  callbacks := []
  subs _ := []
  objects := 0
  opened _ := 0
  log := []

/-! ### Coherence -/

section Coherence

variable [DecidableEq V] (g : Graph V) (site : Site)

/-- The values of a store's signals and computeds, where the signals have the values `sig`. -/
def values (s : ℕ) (sig : ℕ → V) : List (String × Option V) :=
  (site.nodes s).map fun n => (n.1, denote g sig n.2)

/-- What a snapshot says that the values are. -/
def Obj.says (o : Obj V) : List (String × Option V) := o.values.map fun v => (v.1, some v.2)

/-- Snapshots are of the values there are, and of one store the same object as long as no write
gave it other values.  The log is newest first. -/
def Coherent (log : List (Event V)) : Prop :=
  ∀ later earlier s o sig k, log = later ++ .snap s o sig k :: earlier →
    o.says = values g site s sig ∧
    ∀ between before o' sig' k', earlier = between ++ .snap s o' sig' k' :: before →
      (∀ used old new, .wrote used old new ∈ between → values g site s new = values g site s sig') →
        o = o'

def Taken (s : ℕ) (log : List (Event V)) : Prop := ∃ o sig k, .snap s o sig k ∈ log

/-- A write that does not go through the store's wrapper leaves the store's values, and no wrapped
`set` throws before its version, where a snapshot of the store was taken; none is taken in
between. -/
def Event.Orderly (log : List (Event V)) : Event V → Prop
  | .wrote used old new =>
    ∀ s, s ∉ used → Taken s log → values g site s new = values g site s old
  | .snap _ _ _ opened => opened = 0
  | .abandoned s => ¬ Taken s log

/-- The log is newest first. -/
def Orderly : List (Event V) → Prop
  | [] => True
  | ev :: log => ev.Orderly g site log ∧ Orderly log

/-- The condition, of a run so far: its log is orderly, and no computed returned after it caught a
throw. -/
structure Stores.Orderly (σ : Stores V) : Prop where
  log : Store.Orderly g site σ.log
  caught : σ.core.caught = []

/-- The last snapshot of a store, where no write gave the store other values since. -/
def steady (s : ℕ) : List (Event V) → Option (Obj V × (ℕ → V))
  | [] => none
  | .snap s' o sig _ :: log => if s' = s then some (o, sig) else steady s log
  | .wrote _ _ new :: log =>
    (steady s log).filter fun last => values g site s new = values g site s last.2
  | .abandoned _ :: log => steady s log

/-- Every snapshot is right, and the last one's object where that is steady. -/
def CoherentLog : List (Event V) → Prop
  | [] => True
  | .snap s o sig _ :: log =>
    o.says = values g site s sig ∧
      (∀ last, steady g site s log = some last → o = last.1) ∧ CoherentLog log
  | _ :: log => CoherentLog log

variable {g site}

omit [DecidableEq V] in
theorem Orderly.of_suffix {log log' : List (Event V)} (h : Orderly g site log')
    (hs : log <:+ log') : Orderly g site log := by
  obtain ⟨later, rfl⟩ := hs
  induction later with
  | nil => exact h
  | cons ev later ih => exact ih h.2

omit [DecidableEq V] in
theorem Taken.of_suffix {s : ℕ} {log log' : List (Event V)} (h : Taken s log)
    (hs : log <:+ log') : Taken s log' := by
  obtain ⟨o, sig, k, hm⟩ := h
  exact ⟨o, sig, k, hs.subset hm⟩

theorem CoherentLog.of_suffix {log log' : List (Event V)} (h : CoherentLog g site log')
    (hs : log <:+ log') : CoherentLog g site log := by
  obtain ⟨later, rfl⟩ := hs
  induction later with
  | nil => exact h
  | cons ev later ih =>
      cases ev with
      | snap => exact ih h.2.2
      | wrote | abandoned => exact ih h

/-- A snapshot is steady until a write gives the store other values. -/
theorem steady_of_between {s : ℕ} {o : Obj V} {sig : ℕ → V} {k : ℕ}
    {between before : List (Event V)}
    (h : CoherentLog g site (between ++ .snap s o sig k :: before))
    (hb : ∀ used old new, .wrote used old new ∈ between →
      values g site s new = values g site s sig) :
    ∃ sig', steady g site s (between ++ .snap s o sig k :: before) = some (o, sig') ∧
      values g site s sig' = values g site s sig := by
  induction between with
  | nil => exact ⟨sig, if_pos rfl, rfl⟩
  | cons ev between ih =>
      have hrest : CoherentLog g site (between ++ .snap s o sig k :: before) :=
        h.of_suffix (List.suffix_cons _ _)
      obtain ⟨sig', hsteady, hvalues⟩ :=
        ih hrest fun used old new hm => hb used old new (.tail _ hm)
      cases ev with
      | wrote used old new =>
          have hnew := hb used old new List.mem_cons_self
          refine ⟨sig', ?_, hvalues⟩
          rw [List.cons_append, steady, hsteady, Option.filter_some, if_pos]
          simp [hnew, hvalues]
      | abandoned => exact ⟨sig', hsteady, hvalues⟩
      | snap s' o' sig'' k' =>
          rw [List.cons_append, steady]
          by_cases hs : s' = s
          · subst hs
            obtain ⟨hsaid, hsame, -⟩ := h
            obtain rfl : o' = o := hsame _ hsteady
            have ho : o'.says = values g site s' sig :=
              (hrest.of_suffix (List.suffix_append _ _)).1
            exact ⟨sig'', if_pos rfl, hsaid.symm.trans ho⟩
          · rw [if_neg hs]
            exact ⟨sig', hsteady, hvalues⟩

theorem CoherentLog.coherent {log : List (Event V)} (h : CoherentLog g site log) :
    Coherent g site log := by
  rintro later earlier s o sig k rfl
  have hlog := h.of_suffix (List.suffix_append _ _)
  refine ⟨hlog.1, ?_⟩
  rintro between before o' sig' k' rfl hb
  obtain ⟨sig'', hsteady, -⟩ := steady_of_between hlog.2.2 hb
  exact hlog.2.1 _ hsteady

end Coherence

end Brust.Reactive.Store
