import Mathlib.Data.List.TakeWhile
import Brust.Core.PageHeaders

/-!
# Core — cached pages

Several instances, each with an L1 of rendered bodies, over one shared tier of pages.  A stored
render goes into its instance's L1 and may be written to the shared tier; a page read back goes into
the reader's L1.  The log records each render and each response that a tier served, with the render
it comes of.

What is stored may be stored (`Render.Storable`), and whatever is served of a render is the page it
answered exactly where the render is plain (`cached_page_iff`): a loader's `Vary: Accept-Encoding`
and a header whose value is no visible ASCII are gone from a page that the shared tier served
(`cached_page_differs`).
-/

namespace Brust.Core

open Grouping

/-! ### What may be stored -/

/-- A loader's header that is sent: a name it may set, and both valid. -/
structure Sent {H X : Type} (http : Http H X) (h : String × String) : Prop where
  allowed : ∀ n ∈ REFUSED_HEADERS, eqIgnoreAsciiCase h.1 n = false
  name : (http.name h.1).isSome = true
  value : (http.value h.2).isSome = true

/-- A `Cache-Control` value has the directive, whatever its argument. -/
def HasDirective (v d : String) : Prop := ∃ t ∈ v.toList.splitOn ',',
  eqIgnoreAsciiCase (trim (String.ofList (t.takeWhile (· ≠ '=')))) d = true

/-- A `Vary` value names another field than the encoding; a field's name has no `=`. -/
def VariesOnOther (v : String) : Prop := ∃ f ∈ v.toList.splitOn ',', '=' ∉ f ∧
  trim (String.ofList f) ≠ "" ∧ eqIgnoreAsciiCase (trim (String.ofList f)) "accept-encoding" = false

/-- The header is for one visitor. -/
def Personal (h : String × String) : Prop :=
  eqIgnoreAsciiCase h.1 "set-cookie" = true ∨
    (eqIgnoreAsciiCase h.1 "cache-control" = true ∧
      (HasDirective h.2 "no-store" ∨ HasDirective h.2 "private")) ∨
    (eqIgnoreAsciiCase h.1 "vary" = true ∧ VariesOnOther h.2)

structure Render.Storable {H X : Type} (http : Http H X) (r : Render) : Prop where
  status : r.status = 200
  headers : ∀ h ∈ r.loader, Sent http h → ¬ Personal h
  inserts : r.refused = false

section

variable {H X : Type} {http : Http H X}

theorem head_splitOn (c : Char) (s : List Char) : (s.splitOn c).headD [] = s.takeWhile (· ≠ c) := by
  induction s with
  | nil => rfl
  | cons d s ih =>
      rw [List.splitOn_cons_eq_if_modifyHead]
      by_cases hd : d = c
      · simp [hd]
      · obtain ⟨p, ps, hs⟩ := List.exists_cons_of_ne_nil (List.splitOn_ne_nil c s)
        rw [hs] at ih
        have hp : p = s.takeWhile (· ≠ c) := ih
        simp [hd, hs, hp]

theorem mem_tokens {v t : String} : t ∈ tokens v ↔ ∃ p ∈ v.toList.splitOn ',',
    trim (String.ofList (p.takeWhile (· ≠ '='))) = t := by
  simp only [tokens, List.mem_map, head_splitOn]

theorem takeWhile_of_notMem {c : Char} {s : List Char} (h : c ∉ s) : s.takeWhile (· ≠ c) = s := by
  refine List.takeWhile_eq_self_iff.mpr fun d hd => ?_
  exact decide_eq_true fun he => h (he ▸ hd)

theorem bars_of_personal {h : String × String} (hp : Personal h) : bars h.1 h.2 = true := by
  have hdirective : ∀ d, HasDirective h.2 d → ∃ t ∈ tokens h.2, eqIgnoreAsciiCase t d = true := by
    rintro d ⟨p, hp, hd⟩
    exact ⟨_, mem_tokens.mpr ⟨p, hp, rfl⟩, hd⟩
  simp only [bars, Bool.or_eq_true, Bool.and_eq_true, List.any_eq_true, Bool.not_eq_true']
  rcases hp with hc | ⟨hc, hd⟩ | ⟨hv, f, hf, hne, hnonempty, hother⟩
  · exact .inl (.inl hc)
  · refine .inr ⟨hc, ?_⟩
    rcases hd with hd | hd
    · obtain ⟨t, ht, he⟩ := hdirective _ hd
      exact ⟨t, ht, .inl he⟩
    · obtain ⟨t, ht, he⟩ := hdirective _ hd
      exact ⟨t, ht, .inr he⟩
  · refine .inl (.inr ⟨hv, trim (String.ofList f), mem_tokens.mpr ⟨f, hf, ?_⟩, ?_, hother⟩)
    · rw [takeWhile_of_notMem hne]
    · rw [Bool.eq_false_iff, ne_eq, String.isEmpty_iff]
      exact hnonempty

theorem mem_loaderHeaders {headers : List (String × String)} {h : String × String}
    (hs : Sent http h) (hh : h ∈ headers) : h ∈ (loaderHeaders http headers).1 := by
  induction headers with
  | nil => cases hh
  | cons kv headers ih =>
      obtain ⟨k, v⟩ := kv
      simp only [loaderHeaders]
      rcases List.mem_cons.mp hh with rfl | hh
      · have hrefused : ¬ REFUSED_HEADERS.any (eqIgnoreAsciiCase k) = true := by
          rw [List.any_eq_true]
          rintro ⟨n, hn, he⟩
          rw [hs.allowed n hn] at he
          cases he
        have hvalid : ¬ ((http.name k).isNone || (http.value v).isNone) = true := by
          have hname := hs.name
          have hvalue := hs.value
          rw [Bool.or_eq_true, Option.isNone_iff_eq_none, Option.isNone_iff_eq_none]
          rintro (hn | hn)
          · rw [hn] at hname
            cases hname
          · rw [hn] at hvalue
            cases hvalue
        rw [if_neg hrefused, if_neg hvalid]
        exact List.mem_cons_self
      · split
        · exact ih hh
        · split
          · exact ih hh
          · exact .tail _ (ih hh)

theorem storable_of_stores {r : Render} (h : r.stores http = true) : r.Storable http := by
  obtain ⟨hstatus, -, hheaders, hrefused⟩ := Render.stores_iff.mp h
  refine ⟨hstatus, fun kv hkv hsent hpersonal => ?_, hrefused⟩
  have hbars := loaderHeaders_cacheable hheaders kv (mem_loaderHeaders hsent hkv)
  rw [bars_of_personal hpersonal] at hbars
  cases hbars

end

/-! ### The tiers -/

abbrev PageKey := { k : CacheKey // k.NulFree }

/-- A body, and the render it comes of. -/
structure L1Entry (H : Type) where
  body : RenderedBody H
  of : Render

/-- A page in the shared tier. -/
structure Kept where
  page : L2Page
  of : Render

/-- What a request was answered. -/
inductive PageEvent (H : Type) where
  | rendered (k : PageKey) (r : Render) (answer : Response H)
  | served (k : PageKey) (r : Render) (answer : Response H)

/-- The instances' L1, the writes that the adapter was handed, the shared tier, and what was
answered. -/
structure Tiers (H : Type) where
  l1 : ℕ → PageKey → Option (L1Entry H)
  queued : List (String × Kept)
  l2 : String → Option Kept
  log : List (PageEvent H)

/-- A request that renders, a queued write that arrives, an entry that is gone, and a request that a
tier serves. -/
inductive PageOp where
  | render (i : ℕ) (k : PageKey) (r : Render) (gz inserted wrote : Bool)
  | write (n : ℕ)
  | evict (i : ℕ) (k : PageKey)
  | drop (key : String)
  | hit (i : ℕ) (k : PageKey) (gz : Bool)
  | read (i : ℕ) (k : PageKey) (gz inserted : Bool)

section

variable {H X : Type} (http : Http H X) (codings : Codings X) (blake3 : List UInt8 → String)
  (cfg : L2Config)

namespace Tiers

/-- An entry of the `i`-th server's tier 1. -/
def put (σ : Tiers H) (i : ℕ) (k : PageKey) (e : Option (L1Entry H)) :
    ℕ → PageKey → Option (L1Entry H) :=
  Function.update σ.l1 i (Function.update (σ.l1 i) k e)

def step (σ : Tiers H) : PageOp → Tiers H
  | .render i k r gz inserted wrote =>
    let log := .rendered k r (r.answer http codings gz (some "MISS")) :: σ.log
    if r.stores http && inserted then
      { σ with
        l1 := σ.put i k (some ⟨r.body http, r⟩)
        queued := if wrote then (l2Key blake3 cfg k.1, ⟨toL2 http (r.body http), r⟩) :: σ.queued
          else σ.queued
        log }
    else { σ with log }
  | .write n =>
    match σ.queued[n]? with
    | none => σ
    | some w => { σ with l2 := Function.update σ.l2 w.1 (some w.2), queued := σ.queued.eraseIdx n }
  | .evict i k => { σ with l1 := σ.put i k none }
  | .drop key => { σ with l2 := Function.update σ.l2 key none }
  | .hit i k gz =>
    match σ.l1 i k with
    | none => σ
    | some e => { σ with log := .served k e.of (hitResponse http codings e.body gz) :: σ.log }
  | .read i k gz inserted =>
    match σ.l2 (l2Key blake3 cfg k.1) with
    | none => σ
    | some p =>
      let b := pageFromL2 http p.page
      { σ with
        l1 := if inserted then σ.put i k (some ⟨b, p.of⟩) else σ.l1
        log := .served k p.of (l2HitResponse http codings b gz) :: σ.log }

def empty : Tiers H := ⟨fun _ _ => none, [], fun _ => none, []⟩

def run (ops : List PageOp) : Tiers H := ops.foldl (step http codings blake3 cfg) empty

end Tiers

/-- A render that may not be stored leaves the tiers as they are, and whatever is served of the
render under a key is the page that it answered under that key. -/
structure CachedPage (r : Render) : Prop where
  storable : ∀ (σ : Tiers H) i k gz inserted wrote, ¬ r.Storable http →
    let σ' := σ.step http codings blake3 cfg (.render i k r gz inserted wrote)
    σ'.l1 = σ.l1 ∧ σ'.queued = σ.queued ∧ σ'.l2 = σ.l2
  rendered : ∀ ops k answer,
    .served k r answer ∈ (Tiers.run http codings blake3 cfg ops).log →
      (∃ miss, .rendered k r miss ∈ (Tiers.run http codings blake3 cfg ops).log) ∧
      ∀ miss, .rendered k r miss ∈ (Tiers.run http codings blake3 cfg ops).log →
        SamePage http codings miss answer

/-! ### What the tiers hold -/

variable {http codings blake3 cfg}

def Rendered (log : List (PageEvent H)) (k : PageKey) (r : Render) : Prop :=
  ∃ miss, .rendered k r miss ∈ log

/-- An entry of a page: of a render that may be stored, as it was rendered or as the shared tier
gave it back. -/
structure L1Entry.From (http : Http H X) (log : List (PageEvent H)) (k : PageKey) (e : L1Entry H) :
    Prop where
  stores : e.of.stores http = true
  body : e.body = e.of.body http ∨ e.body = pageFromL2 http (toL2 http (e.of.body http))
  rendered : Rendered log k e.of

structure Kept.From (http : Http H X) (blake3 : List UInt8 → String) (cfg : L2Config)
    (log : List (PageEvent H)) (key : String) (p : Kept) : Prop where
  stores : p.of.stores http = true
  page : p.page = toL2 http (p.of.body http)
  rendered : ∃ k : PageKey, key = l2Key blake3 cfg k.1 ∧ Rendered log k p.of

/-- A response that a tier can have made of a render. -/
inductive ServedOf (http : Http H X) (codings : Codings X) (r : Render) : Response H → Prop where
  | l1 (gz : Bool) : ServedOf http codings r (hitResponse http codings (r.body http) gz)
  | l1OfL2 (gz : Bool) : ServedOf http codings r
      (hitResponse http codings (pageFromL2 http (toL2 http (r.body http))) gz)
  | l2 (gz : Bool) : ServedOf http codings r
      (l2HitResponse http codings (pageFromL2 http (toL2 http (r.body http))) gz)

def PageEvent.Sound (http : Http H X) (codings : Codings X) (log : List (PageEvent H)) :
    PageEvent H → Prop
  | .rendered _ r miss => ∃ gz, miss = r.answer http codings gz (some "MISS")
  | .served k r answer => r.stores http = true ∧ Rendered log k r ∧ ServedOf http codings r answer

structure Tiers.Sound (http : Http H X) (codings : Codings X) (blake3 : List UInt8 → String)
    (cfg : L2Config) (σ : Tiers H) : Prop where
  l1 : ∀ i k e, σ.l1 i k = some e → e.From http σ.log k
  queued : ∀ w ∈ σ.queued, w.2.From http blake3 cfg σ.log w.1
  l2 : ∀ key p, σ.l2 key = some p → p.From http blake3 cfg σ.log key
  log : ∀ ev ∈ σ.log, ev.Sound http codings σ.log

variable {σ : Tiers H} {k : PageKey} {log log' : List (PageEvent H)}

theorem Rendered.mono {r : Render} (h : Rendered log k r) (hlog : log ⊆ log') :
    Rendered log' k r := by
  obtain ⟨miss, hmiss⟩ := h
  exact ⟨miss, hlog hmiss⟩

theorem L1Entry.From.mono {e : L1Entry H} (h : e.From http log k) (hlog : log ⊆ log') :
    e.From http log' k :=
  ⟨h.stores, h.body, h.rendered.mono hlog⟩

theorem Kept.From.mono {p : Kept} {key : String} (h : p.From http blake3 cfg log key)
    (hlog : log ⊆ log') : p.From http blake3 cfg log' key := by
  obtain ⟨k, hk, hr⟩ := h.rendered
  exact ⟨h.stores, h.page, k, hk, hr.mono hlog⟩

theorem PageEvent.Sound.mono {ev : PageEvent H} (h : ev.Sound http codings log)
    (hlog : log ⊆ log') : ev.Sound http codings log' := by
  cases ev with
  | rendered k r miss => exact h
  | served k r answer =>
      obtain ⟨hstores, hrendered, hof⟩ := h
      exact ⟨hstores, hrendered.mono hlog, hof⟩

theorem Tiers.Sound.logged (h : σ.Sound http codings blake3 cfg) (ev : PageEvent H)
    (hev : ev.Sound http codings (ev :: σ.log)) :
    { σ with log := ev :: σ.log }.Sound http codings blake3 cfg := by
  have hlog : σ.log ⊆ ev :: σ.log := List.subset_cons_self _ _
  refine ⟨fun i k e he => (h.l1 i k e he).mono hlog, fun w hw => (h.queued w hw).mono hlog,
    fun key p hp => (h.l2 key p hp).mono hlog, fun ev' hev' => ?_⟩
  rcases List.mem_cons.mp hev' with rfl | hev'
  · exact hev
  · exact (h.log ev' hev').mono hlog

/-- A new entry or none at one place, the others as they were. -/
theorem Tiers.Sound.put (h : σ.Sound http codings blake3 cfg) {i : ℕ} {e : Option (L1Entry H)}
    (he : ∀ e', e = some e' → e'.From http σ.log k) :
    { σ with l1 := σ.put i k e }.Sound http codings blake3 cfg := by
  refine ⟨fun j k' e' hput => ?_, h.queued, h.l2, h.log⟩
  change Function.update σ.l1 i (Function.update (σ.l1 i) k e) j k' = some e' at hput
  by_cases hj : j = i
  · subst hj
    rw [Function.update_self] at hput
    by_cases hk : k' = k
    · subst hk
      rw [Function.update_self] at hput
      exact he e' hput
    · rw [Function.update_of_ne hk] at hput
      exact h.l1 _ _ _ hput
  · rw [Function.update_of_ne hj] at hput
    exact h.l1 _ _ _ hput

/-- A page or none under one key of the shared tier, the others as they were. -/
theorem Tiers.Sound.store (h : σ.Sound http codings blake3 cfg) {key : String} {p : Option Kept}
    (hp : ∀ p', p = some p' → p'.From http blake3 cfg σ.log key) :
    { σ with l2 := Function.update σ.l2 key p }.Sound http codings blake3 cfg := by
  refine ⟨h.l1, h.queued, fun key' p' hupdate => ?_, h.log⟩
  change Function.update σ.l2 key p key' = some p' at hupdate
  by_cases hkey : key' = key
  · subst hkey
    rw [Function.update_self] at hupdate
    exact hp p' hupdate
  · rw [Function.update_of_ne hkey] at hupdate
    exact h.l2 key' p' hupdate

/-- No two pages share a key of the shared tier. -/
theorem l2Key_inj (hash : Function.Injective blake3) {k k' : PageKey}
    (h : l2Key blake3 cfg k.1 = l2Key blake3 cfg k'.1) : k = k' := by
  refine Subtype.ext (preimage_inj k.2 k'.2 (hash ?_))
  exact (String.append_right_inj _).mp h

/-- **One step keeps the tiers sound.** -/
theorem Tiers.Sound.step (hash : Function.Injective blake3) (h : σ.Sound http codings blake3 cfg)
    (op : PageOp) : (σ.step http codings blake3 cfg op).Sound http codings blake3 cfg := by
  cases op with
  | render i k r gz inserted wrote =>
      have hlogged := h.logged (.rendered k r (r.answer http codings gz (some "MISS"))) ⟨gz, rfl⟩
      have hnew : Rendered (.rendered k r (r.answer http codings gz (some "MISS")) :: σ.log) k r :=
        ⟨_, List.mem_cons_self⟩
      simp only [Tiers.step]
      split
      -- a render that is stored goes into tier 1, and to the adapter where it is written
      · next hstores =>
        have hstores := (Bool.and_eq_true _ _ ▸ hstores).1
        have hput := hlogged.put (i := i) (k := k) (e := some ⟨r.body http, r⟩) (by
          rintro _ ⟨⟩
          exact ⟨hstores, .inl rfl, hnew⟩)
        refine ⟨hput.l1, fun w hw => ?_, hput.l2, hput.log⟩
        change w ∈ (if wrote then _ else _) at hw
        split at hw
        · rcases List.mem_cons.mp hw with rfl | hw
          · exact ⟨hstores, rfl, k, rfl, hnew⟩
          · exact hput.queued w hw
        · exact hput.queued w hw
      · exact hlogged
  | write n =>
      simp only [Tiers.step]
      split
      · exact h
      · next w hw =>
        have hfrom : ∀ p', some w.2 = some p' → p'.From http blake3 cfg σ.log w.1 := by
          rintro _ ⟨⟩
          exact h.queued w (List.mem_of_getElem? hw)
        have hstored := h.store hfrom
        exact ⟨hstored.l1, fun w hw => h.queued w (List.mem_of_mem_eraseIdx hw), hstored.l2,
          hstored.log⟩
  | evict i k => exact h.put (by rintro _ ⟨⟩)
  | drop key => exact h.store (by rintro _ ⟨⟩)
  | hit i k gz =>
      simp only [Tiers.step]
      split
      · exact h
      · next e he =>
        have hfrom := h.l1 i k e he
        refine h.logged _ ⟨hfrom.stores, hfrom.rendered.mono (List.subset_cons_self _ _), ?_⟩
        rcases hfrom.body with hb | hb
        · rw [hb]
          exact .l1 gz
        · rw [hb]
          exact .l1OfL2 gz
  | read i k gz inserted =>
      simp only [Tiers.step]
      split
      · exact h
      · next p hp =>
        have hfrom := h.l2 _ p hp
        obtain ⟨k', hkey, hrendered⟩ := hfrom.rendered
        obtain rfl := l2Key_inj hash hkey
        have hread : Rendered (.served k p.of (l2HitResponse http codings
            (pageFromL2 http p.page) gz) :: σ.log) k p.of :=
          hrendered.mono (List.subset_cons_self _ _)
        have hlogged := h.logged (.served k p.of (l2HitResponse http codings
          (pageFromL2 http p.page) gz)) ⟨hfrom.stores, hread, by rw [hfrom.page]; exact .l2 gz⟩
        cases inserted with
        | false => exact hlogged
        | true =>
            refine hlogged.put ?_
            rintro _ ⟨⟩
            exact ⟨hfrom.stores, .inr (hfrom.page ▸ rfl), hread⟩

theorem Tiers.sound_run (hash : Function.Injective blake3) (ops : List PageOp) :
    (Tiers.run http codings blake3 cfg ops).Sound http codings blake3 cfg := by
  induction ops using List.reverseRecOn with
  | nil =>
      refine ⟨?_, ?_, ?_, ?_⟩
      · rintro _ _ _ ⟨⟩
      · rintro _ ⟨⟩
      · rintro _ _ ⟨⟩
      · rintro _ ⟨⟩
  | append_singleton ops op ih =>
      rw [Tiers.run, List.foldl_append]
      exact ih.step hash op

/-! ### A cached page -/

/-- The key of the start page. -/
def rootKey : PageKey := ⟨⟨"", "GET", "/", ""⟩, by decide, by decide, by decide⟩

theorem samePage_of_served {r : Render} (h : r.Faithful http codings) {gz : Bool}
    {answer : Response H} (hs : ServedOf http codings r answer) :
    SamePage http codings (r.answer http codings gz (some "MISS")) answer := by
  cases hs with
  | l1 gz' => exact h.l1 gz gz'
  | l1OfL2 gz' => exact h.l1OfL2 gz gz'
  | l2 gz' => exact h.l2 gz gz'

/-- What the tiers serve of a stored render, on the instance that made it and on another. -/
theorem CachedPage.faithful {r : Render} (h : CachedPage http codings blake3 cfg r)
    (hstores : r.stores http = true) : r.Faithful http codings := by
  refine ⟨fun gz gz' => ?_, fun gz gz' => ?_, fun gz gz' => ?_⟩
  · have hrun := h.rendered [.render 0 rootKey r gz true false, .hit 0 rootKey gz'] rootKey
      (hitResponse http codings (r.body http) gz')
    simpa [Tiers.run, Tiers.empty, Tiers.step, Tiers.put, hstores] using hrun
  · have hrun := h.rendered [.render 0 rootKey r gz true true, .write 0, .read 1 rootKey gz' false]
      rootKey (l2HitResponse http codings (pageFromL2 http (toL2 http (r.body http))) gz')
    simpa [Tiers.run, Tiers.empty, Tiers.step, Tiers.put, hstores] using hrun
  · have hrun := h.rendered [.render 0 rootKey r gz true true, .write 0, .read 1 rootKey gz' true,
      .hit 1 rootKey gz'] rootKey
      (hitResponse http codings (pageFromL2 http (toL2 http (r.body http))) gz')
    simpa [Tiers.run, Tiers.empty, Tiers.step, Tiers.put, hstores] using hrun

/-- **A cached page is the rendered page exactly where a render that is stored is plain.**  That the
renders which may not be stored are not needs nothing. -/
theorem cached_page_iff (hash : Function.Injective blake3)
    (hundo : codings.Undone (http.static "gzip")) (r : Render) :
    CachedPage http codings blake3 cfg r ↔ (r.stores http = true → r.Plain http codings) := by
  constructor
  · exact fun h hstores => (faithful_iff hundo hstores).mp (h.faithful hstores)
  · intro hplain
    refine ⟨fun σ i k gz inserted wrote hnot => ?_, fun ops k answer hserved => ?_⟩
    · have hstores : ¬ (r.stores http && inserted) = true := by
        rw [Bool.and_eq_true]
        exact fun hs => hnot (storable_of_stores hs.1)
      simp only [Tiers.step, if_neg hstores, and_self]
    · have hsound : (Tiers.run http codings blake3 cfg ops).Sound http codings blake3 cfg :=
        Tiers.sound_run hash ops
      obtain ⟨hstores, hrendered, hof⟩ := hsound.log _ hserved
      refine ⟨hrendered, fun miss hmiss => ?_⟩
      obtain ⟨gz, rfl⟩ := hsound.log _ hmiss
      exact samePage_of_served ((faithful_iff hundo hstores).mpr (hplain hstores)) hof

end

/-! ### Texts as values -/

def isTokenChar (c : Char) : Bool :=
  c.isAlphanum || "!#$%&'*+-.^_\x60|~".toList.contains c

def isVisible (c : Char) : Bool := c == '\t' || (decide (32 ≤ c.toNat) && decide (c.toNat < 127))

/-- A letter in capitals has a small one; other characters stay. -/
theorem toLower_cases (c : Char) : c.toLower.isLower = true ∨ c.toLower = c := by
  by_cases hu : c.isUpper = true
  · refine .inl ?_
    obtain hu : c.val ≥ 65 ∧ c.val ≤ 90 := of_decide_eq_true hu
    delta Char.toLower Char.isLower
    simp only [Bool.and_eq_true, decide_eq_true_eq]
    grind
  · refine .inr ?_
    delta Char.toLower
    exact dif_neg fun h => hu (decide_eq_true h)

theorem toLower_of_isLower {c : Char} (h : c.isLower = true) : c.toLower = c := by
  delta Char.isLower at h
  simp only [Bool.and_eq_true, decide_eq_true_eq] at h
  delta Char.toLower
  rw [dif_neg (by grind)]

theorem toLower_token {c : Char} (h : isTokenChar c = true) : isTokenChar c.toLower = true := by
  rcases toLower_cases c with hl | he
  · have halpha : c.toLower.isAlpha = true := Bool.or_eq_true_iff.mpr (.inr hl)
    simp [isTokenChar, Char.isAlphanum, halpha]
  · rwa [he]

def isToken (s : List Char) : Bool := s.all isTokenChar && !s.isEmpty

theorem isToken_lower {s : List Char} (h : isToken s = true) :
    isToken (s.map Char.toLower) = true := by
  rw [isToken, Bool.and_eq_true, List.all_eq_true] at h
  rw [isToken, Bool.and_eq_true, List.all_map, List.all_eq_true, List.isEmpty_map]
  exact ⟨fun c hc => toLower_token (h.1 c hc), h.2⟩

theorem map_lower_lower (s : List Char) :
    (s.map Char.toLower).map Char.toLower = s.map Char.toLower := by
  rw [List.map_map]
  refine List.map_congr_left fun c _ => ?_
  rcases toLower_cases c with hl | he
  · exact toLower_of_isLower hl
  · exact congrArg Char.toLower he

/-- A character of a value: no control character but the tab. -/
def isValueChar (c : Char) : Bool := c == '\t' || (decide (32 ≤ c.toNat) && c.toNat != 127)

theorem isValueChar_of_visible {c : Char} (h : isVisible c = true) : isValueChar c = true := by
  simp only [isVisible, isValueChar, Bool.or_eq_true, Bool.and_eq_true, decide_eq_true_eq,
    bne_iff_ne] at h ⊢
  rcases h with h | ⟨hlow, hhigh⟩
  · exact .inl h
  · exact .inr ⟨hlow, by omega⟩

/-- A header map whose values are their texts. -/
def textHttp : Http (List (String × String)) String where
  name k := if isToken k.toList then some (String.ofList (k.toList.map Char.toLower)) else none
  name_lower k n h := by
    split at h
    · cases h
      exact String.toList_ofList
    · cases h
  name_name k n h := by
    split at h
    · next htoken =>
      cases h
      rw [String.toList_ofList, if_pos (isToken_lower htoken), map_lower_lower]
    · cases h
  name_contentType := by decide +kernel
  value s := if s.toList.all isValueChar then some s else none
  text s := if s.toList.all isVisible then some s else none
  value_text x s h := by
    split at h
    · next hvisible =>
      cases h
      refine if_pos (List.all_eq_true.mpr fun c hc => ?_)
      exact isValueChar_of_visible (List.all_eq_true.mp hvisible c hc)
    · cases h
  static s := s
  text_html := by decide +kernel
  empty := []
  append h n x := place n x h
  iter h := h
  iter_empty := rfl
  iter_append _ _ _ := rfl

def gunzip : List UInt8 → Option (List UInt8)
  | 31 :: 139 :: b => some b
  | _ => none

/-- A gzip that only marks a body, and no other coding. -/
def markCodings : Codings String where
  gzip b := some (31 :: 139 :: b)
  decode cs b := cs.foldr (fun c b => if c = "gzip" then b.bind gunzip else none) (some b)

theorem markCodings_undone : markCodings.Undone (textHttp.static "gzip") := by
  rintro cs b _ ⟨⟩
  simp [markCodings, textHttp, gunzip]

def demoConfig : L2Config := ⟨"shop", "0123456789abcdef", rfl, isHex_of_all rfl⟩

def hexHash (bytes : List UInt8) : String := String.ofList (hexText bytes)

/-- A short page with one header of its loader's. -/
def pageWith (name value : String) : Render := ⟨200, false, [(name, value)], false, [104, 105]⟩

/-- A page with a header of its own, its name in capitals. -/
theorem cached_page_plain :
    (pageWith "X-Page" "1").stores textHttp = true ∧
      CachedPage textHttp markCodings hexHash demoConfig (pageWith "X-Page" "1") := by
  have hstores : (pageWith "X-Page" "1").stores textHttp = true := by decide +kernel
  refine ⟨hstores, (cached_page_iff (fun _ _ he => hexText_inj (String.ofList_inj.mp he))
    markCodings_undone _).mpr fun _ => ?_⟩
  have hentries : (pageWith "X-Page" "1").entries textHttp = [("x-page", "1")] := by decide +kernel
  refine ⟨?_, ?_, ?_⟩
  · rw [hentries]
    decide +kernel
  · rw [hentries]
    decide +kernel
  · rw [hentries]
    rfl

/-- A loader's `Vary` and a header with a letter outside ASCII are stored, and a page that the
shared tier gave back is without them. -/
theorem cached_page_differs :
    ((pageWith "Vary" "Accept-Encoding").stores textHttp = true ∧
      ¬ CachedPage textHttp markCodings hexHash demoConfig (pageWith "Vary" "Accept-Encoding")) ∧
    (pageWith "X-Title" "café").stores textHttp = true ∧
      ¬ CachedPage textHttp markCodings hexHash demoConfig (pageWith "X-Title" "café") := by
  have hall : ∀ r ∈ [pageWith "Vary" "Accept-Encoding", pageWith "X-Title" "café"],
      r.stores textHttp = true ∧ shown textHttp (l2HitResponse textHttp markCodings
        (pageFromL2 textHttp (toL2 textHttp (r.body textHttp))) false).headers ≠
        shown textHttp (r.answer textHttp markCodings false (some "MISS")).headers := by
    decide +kernel
  have hdiffers : ∀ r ∈ [pageWith "Vary" "Accept-Encoding", pageWith "X-Title" "café"],
      r.stores textHttp = true ∧ ¬ CachedPage textHttp markCodings hexHash demoConfig r :=
    fun r hr => ⟨(hall r hr).1, fun h =>
      (hall r hr).2 ((h.faithful (hall r hr).1).l2 false false).headers⟩
  exact ⟨hdiffers _ (by simp), hdiffers _ (by simp)⟩

end Brust.Core
