import Brust.Nav.History
import Mathlib.Data.List.Nodup

/-!
# Nav — The document, its URL and its history entry

What holds of a tab whenever no navigation waits to swap (`Agrees`), in every run in which no
traversal of the history comes back to the shown document before an earlier one's document is in,
and no replacing navigation starts on an entry that was come to by such a traversal
(`run_agrees`).  `back_then_forward` and `replace_after_back` are the runs that the two conditions
leave out.
-/

namespace Brust.Nav

open Tab

variable {D : Type} {site : Site D}

/-! ### Ids -/

theorem mint_inj {stamp : String} {m n : ℕ} (h : stamp ++ toString m = stamp ++ toString n) :
    m = n := by
  have := congrArg String.toList h
  rw [String.toList_append, String.toList_append, List.append_cancel_left_eq] at this
  have hdigits : Nat.toDigits 10 m = Nat.toDigits 10 n := by simpa using this
  rw [← Nat.ofDigitChars_toDigits (b := 10) (n := m) (by decide) le_rfl, hdigits,
    Nat.ofDigitChars_toDigits (by decide) le_rfl]

/-- The ids of the entries are distinct, and those with the tab's stamp were minted already. -/
structure Distinct (stamp : String) (n : ℕ) (h : History) : Prop where
  nodup : h.ids.Nodup
  minted : ∀ m, stamp ++ toString m ∈ h.ids → m < n

theorem History.ids_eq (h : History) :
    h.ids = h.past.filterMap Entry.id ++ (h.now.id.toList ++ h.future.filterMap Entry.id) := by
  rw [ids, entries, List.filterMap_append, List.filterMap_cons]
  cases h.now.id <;> rfl

theorem History.traverse_entries {h h' : History} {j : ℕ} (ht : h.traverse j = some h') :
    h'.entries = h.entries := by
  rw [traverse] at ht
  split at ht
  case h_1 => cases ht
  case h_2 e future hd =>
    obtain rfl := Option.some.inj ht
    rw [entries, ← hd, List.take_append_drop]

variable {stamp : String} {n : ℕ} {h : History}

theorem Distinct.of_sublist {h' : History} (hd : Distinct stamp n h)
    (hs : h'.ids.Sublist h.ids) : Distinct stamp n h' :=
  ⟨hd.nodup.sublist hs, fun m hm => hd.minted m (hs.mem hm)⟩

theorem Distinct.untagged (hd : Distinct stamp n h) (u : Url) :
    Distinct stamp n (h.replaceState ⟨u, none⟩) := by
  refine hd.of_sublist ?_
  rw [History.ids_eq, h.ids_eq]
  exact (List.Sublist.refl _).append (List.sublist_append_right _ _)

theorem Distinct.sameId (hd : Distinct stamp n h) (u : Url) :
    Distinct stamp n (h.replaceState ⟨u, h.now.id⟩) := by
  refine hd.of_sublist ?_
  rw [History.ids_eq, h.ids_eq]
  exact List.Sublist.refl _

theorem Distinct.pushUntagged (hd : Distinct stamp n h) (u : Url) :
    Distinct stamp n (h.pushState ⟨u, none⟩) := by
  refine hd.of_sublist ?_
  rw [h.ids_eq, History.ids_eq, History.pushState]
  simp only [List.filterMap_append, List.filterMap_nil, Option.toList_none, List.append_nil]
  refine (List.Sublist.refl _).append ?_
  rw [List.filterMap_cons]
  cases h.now.id with
  | none => exact List.nil_sublist _
  | some id => exact List.singleton_sublist.mpr List.mem_cons_self

/-- A minted id among some of the entries' ids. -/
theorem Distinct.mint (hd : Distinct stamp n h) {h' : History} (xs ys : List String)
    (hold : (xs ++ ys).Sublist h.ids) (hnew : h'.ids = xs ++ (stamp ++ toString n) :: ys) :
    Distinct stamp (n + 1) h' := by
  have hfresh : stamp ++ toString n ∉ xs ++ ys := fun hm =>
    Nat.lt_irrefl n (hd.minted n (hold.mem hm))
  refine ⟨?_, fun m hm => ?_⟩
  · rw [hnew, List.nodup_middle, List.nodup_cons]
    exact ⟨hfresh, hd.nodup.sublist hold⟩
  · rw [hnew, List.mem_append, List.mem_cons] at hm
    rcases hm with hm | hm | hm
    · exact (hd.minted m (hold.mem (List.mem_append_left _ hm))).trans (Nat.lt_succ_self n)
    · exact (mint_inj hm).symm ▸ Nat.lt_succ_self n
    · exact (hd.minted m (hold.mem (List.mem_append_right _ hm))).trans (Nat.lt_succ_self n)

theorem Distinct.tagged (hd : Distinct stamp n h) :
    Distinct stamp (n + 1) (h.replaceState { h.now with id := some (stamp ++ toString n) }) := by
  refine hd.mint (h.past.filterMap Entry.id) (h.future.filterMap Entry.id) ?_ ?_
  · rw [h.ids_eq]
    exact (List.Sublist.refl _).append (List.sublist_append_right _ _)
  · rw [History.ids_eq]
    rfl

theorem Distinct.pushed (hd : Distinct stamp n h) (u : Url) :
    Distinct stamp (n + 1) (h.pushState ⟨u, some (stamp ++ toString n)⟩) := by
  refine hd.mint ((h.past ++ [h.now]).filterMap Entry.id) [] ?_ ?_
  · rw [List.append_nil, History.ids, History.entries]
    refine List.Sublist.filterMap _ ?_
    exact (List.Sublist.refl _).append (List.singleton_sublist.mpr List.mem_cons_self)
  · rw [History.ids_eq]
    rfl

/-! ### The invariant -/

/-- The navigation that waits to swap: the latest one, until it has. -/
def Tab.pending (t : Tab D) : Option Navigation :=
  t.navs.getLast?.filter fun nav => !nav.phase.swapped

/-- `cur` is the id of the current entry. -/
def Tab.Aligned (t : Tab D) : Prop := t.history.now.id = some t.cur

structure Inv (site : Site D) (t : Tab D) : Prop where
  distinct : Distinct t.stamp t.n t.history
  screen : t.screen = site.fetched t.shown
  quiet : t.pending = none → t.Aligned ∧ sameDoc t.location t.shown
  /-- A pending back/forward still stands on the entry it came to. -/
  pop : ∀ nav, t.pending = some nav → nav.trigger = .popstate →
    nav.req = t.location ∧ nav.pop = t.history.now.id ∧ sameDoc t.location t.shown = false
  replace : ∀ nav, t.pending = some nav → nav.replace = true → t.Aligned
  /-- What was added belongs to a navigation that still waits to swap. -/
  added : ∀ k ∈ t.stores ++ t.sheets, ∃ nav, t.navs[k]? = some nav ∧
    nav.phase.swapped = false ∧ nav.phase.over = false

/-- What a step may do: no traversal comes to an entry of the shown document while a back/forward
is pending, and no replacing navigation starts while the current entry is not `cur`'s. -/
def Orderly (t : Tab D) : Event → Prop
  | .click u => toFragment t u = false → sameDoc u t.location = true → t.Aligned
  | .navigate u replace =>
    toFragment t u = false → (replace || sameDoc u t.location) = true → t.Aligned
  | .traverse j => ∀ h, t.history.traverse j = some h → sameDoc h.now.url t.shown = true →
    ∀ nav, t.pending = some nav → nav.trigger ≠ .popstate
  | .resume _ _ _ => True

/-! ### Starting a navigation -/

theorem pending_go (t : Tab D) (req : Url) (trigger : Trigger) (replace : Bool)
    (pop : Option String) :
    (t.go req trigger replace pop).pending = some ⟨req, trigger, replace, pop, .fetch⟩ := by
  simp [Tab.pending, Tab.go, Phase.swapped]

theorem getElem?_concat_of_some {α : Type*} {xs : List α} {k : ℕ} {x : α} (hx : xs[k]? = some x)
    (y : α) : (xs ++ [y])[k]? = some x := by
  rw [List.getElem?_append_left (List.getElem?_eq_some_iff.mp hx).1, hx]

theorem added_go {t : Tab D}
    (h : ∀ k ∈ t.stores ++ t.sheets, ∃ nav, t.navs[k]? = some nav ∧
      nav.phase.swapped = false ∧ nav.phase.over = false) (req : Url) (trigger : Trigger)
    (replace : Bool) (pop : Option String) :
    ∀ k ∈ t.stores ++ t.sheets, ∃ nav, (t.go req trigger replace pop).navs[k]? = some nav ∧
      nav.phase.swapped = false ∧ nav.phase.over = false := by
  intro k hk
  obtain ⟨nav, hnav, hphase⟩ := h k hk
  exact ⟨nav, getElem?_concat_of_some hnav _, hphase⟩

/-- A link click or a `navigate` call that is no fragment of the document starts a navigation. -/
theorem Inv.go {t : Tab D} (h : Inv site t) {req : Url} {trigger : Trigger} {replace : Bool}
    (htrigger : trigger ≠ .popstate) (hreplace : replace = true → t.Aligned) :
    Inv site (t.go req trigger replace none) where
  distinct := h.distinct
  screen := h.screen
  quiet hnone := by rw [pending_go] at hnone; cases hnone
  pop nav hnav hpop := by
    rw [pending_go] at hnav
    obtain rfl := Option.some.inj hnav
    exact absurd hpop htrigger
  replace nav hnav hr := by
    rw [pending_go] at hnav
    obtain rfl := Option.some.inj hnav
    exact hreplace hr
  added := added_go h.added _ _ _ _

/-! ### Coming to an entry -/

/-- What `cur = id || tag()` does at the current entry when `id` is its id. -/
theorem adopt_now {t : Tab D} (hd : Distinct t.stamp t.n t.history) :
    Distinct t.stamp (t.adopt t.history.now.id).n (t.adopt t.history.now.id).history ∧
      (t.adopt t.history.now.id).Aligned ∧
      (t.adopt t.history.now.id).location = t.location := by
  rw [Tab.adopt]
  split
  case h_1 id hid =>
    have hid := (Option.filter_eq_some_iff.mp hid).1
    exact ⟨hd, hid, rfl⟩
  case h_2 => exact ⟨hd.tagged, rfl, rfl⟩

theorem adopt_frame (t : Tab D) (id : Option String) :
    (t.adopt id).stamp = t.stamp ∧ (t.adopt id).shown = t.shown ∧
      (t.adopt id).screen = t.screen ∧ (t.adopt id).navs = t.navs ∧
      (t.adopt id).stores = t.stores ∧ (t.adopt id).sheets = t.sheets := by
  rw [Tab.adopt]
  split <;> exact ⟨rfl, rfl, rfl, rfl, rfl, rfl⟩

/-- The handler of `popstate`, with what holds before the entry changed. -/
theorem Inv.popstate {t : Tab D} (hd : Distinct t.stamp t.n t.history)
    (hscreen : t.screen = site.fetched t.shown)
    (hadded : ∀ k ∈ t.stores ++ t.sheets, ∃ nav, t.navs[k]? = some nav ∧
      nav.phase.swapped = false ∧ nav.phase.over = false)
    (hpop : sameDoc t.location t.shown = true →
      ∀ nav, t.pending = some nav → nav.trigger ≠ .popstate) : Inv site t.popstate := by
  rw [Tab.popstate]
  split
  case isTrue hsame =>
    obtain ⟨hdist, haligned, hloc⟩ := adopt_now hd
    obtain ⟨hstamp, hshown, hscr, hnavs, hstores, hsheets⟩ := adopt_frame t t.history.now.id
    have hpending : (t.adopt t.history.now.id).pending = t.pending := by
      rw [Tab.pending, hnavs, Tab.pending]
    refine ⟨?_, ?_, fun _ => ⟨haligned, ?_⟩, fun nav hnav htr => ?_, fun _ _ _ => haligned, ?_⟩
    · change Distinct (t.adopt t.history.now.id).stamp _ _
      rw [hstamp]
      exact hdist
    · change (t.adopt t.history.now.id).screen = site.fetched (t.adopt t.history.now.id).location
      have hpage : t.location.page = t.shown.page := of_decide_eq_true hsame
      rw [hscr, hscreen, hloc, Site.fetched, Site.fetched, hpage]
    · exact decide_eq_true rfl
    · exact absurd htr (hpop hsame nav (hpending ▸ hnav))
    · change ∀ k ∈ (t.adopt t.history.now.id).stores ++ (t.adopt t.history.now.id).sheets,
        ∃ nav, (t.adopt t.history.now.id).navs[k]? = some nav ∧ _
      rw [hstores, hsheets, hnavs]
      exact hadded
  case isFalse hdiff =>
    refine ⟨hd, hscreen, fun hnone => ?_, fun nav hnav _ => ?_, fun nav hnav hr => ?_,
      added_go hadded _ _ _ _⟩
    · rw [pending_go] at hnone
      cases hnone
    · rw [pending_go] at hnav
      obtain rfl := Option.some.inj hnav
      exact ⟨rfl, rfl, Bool.eq_false_iff.mpr hdiff⟩
    · rw [pending_go] at hnav
      obtain rfl := Option.some.inj hnav
      cases hr

theorem Inv.traverse {t : Tab D} (h : Inv site t) {history : History} {j : ℕ}
    (ht : t.history.traverse j = some history)
    (hpop : sameDoc history.now.url t.shown = true →
      ∀ nav, t.pending = some nav → nav.trigger ≠ .popstate) :
    Inv site ({ t with history } : Tab D).popstate := by
  have hids : history.ids = t.history.ids := by
    rw [History.ids, History.traverse_entries ht, History.ids]
  exact Inv.popstate (h.distinct.of_sublist (hids ▸ List.Sublist.refl _)) h.screen h.added hpop

/-- A pending back/forward has come to another document, whose fragments are not the shown one's. -/
theorem Inv.fragment {t : Tab D} (h : Inv site t) {u : Url} (hu : toFragment t u = true)
    (replace : Bool) : Inv site (t.fragment u replace) := by
  have hsame : u.page = t.location.page :=
    of_decide_eq_true (Bool.and_eq_true_iff.mp hu).2
  have hnow : ∀ history : History, history.now.url = u →
      sameDoc history.now.url t.shown = true →
      ∀ nav, t.pending = some nav → nav.trigger ≠ .popstate := by
    intro history hnow hs nav hnav htr
    have hdiff := (h.pop nav hnav htr).2.2
    rw [hnow] at hs
    have : t.location.page = t.shown.page := hsame.symm.trans (of_decide_eq_true hs)
    exact absurd (decide_eq_true this) (Bool.eq_false_iff.mp hdiff)
  rw [Tab.fragment]
  cases replace with
  | true => exact Inv.popstate (h.distinct.untagged u) h.screen h.added (hnow _ rfl)
  | false => exact Inv.popstate (h.distinct.pushUntagged u) h.screen h.added (hnow _ rfl)

/-! ### The end of a wait -/

/-- What a step does to the elements that navigations added: those of `k` apart, none comes. -/
def AddsFor (t : Tab D) (k : ℕ) (stores sheets : List ℕ) : Prop :=
  ∀ j ∈ stores ++ sheets, j = k ∨ j ∈ t.stores ++ t.sheets

/-- What the end of a wait of the `k`-th navigation does. -/
inductive Resumed (site : Site D) (t : Tab D) (k : ℕ) (nav : Navigation) : Tab D → Prop
  | scripts : nav.phase = .scripts → Resumed site t k nav (t.setPhase k (.ended true))
  | superseded : nav.phase.swapped = false → nav.phase.over = false → t.live k = false →
      Resumed site t k nav (t.drop k)
  | waits {phase : Phase} {stores sheets : List ℕ} : nav.phase.swapped = false →
      t.live k = true → phase.swapped = false → phase.over = false → AddsFor t k stores sheets →
      Resumed site t k nav { t.setPhase k phase with stores, sheets }
  | swaps : nav.phase.swapped = false → t.live k = true →
      Resumed site t k nav (t.swap site k nav)

theorem addsFor_replicate (t : Tab D) (k a b : ℕ) :
    AddsFor t k (t.stores ++ List.replicate a k) (t.sheets ++ List.replicate b k) := by
  intro j hj
  simp only [List.mem_append, List.mem_replicate] at hj
  rcases hj with (hj | ⟨-, rfl⟩) | (hj | ⟨-, rfl⟩)
  · exact .inr (List.mem_append_left _ hj)
  · exact .inl rfl
  · exact .inr (List.mem_append_right _ hj)
  · exact .inl rfl

theorem addsFor_stores (t : Tab D) (k a : ℕ) :
    AddsFor t k (t.stores ++ List.replicate a k) t.sheets := by
  simpa using addsFor_replicate t k a 0

theorem addsFor_sheets (t : Tab D) (k b : ℕ) :
    AddsFor t k t.stores (t.sheets ++ List.replicate b k) := by
  simpa using addsFor_replicate t k 0 b

theorem addsFor_none (t : Tab D) (k : ℕ) : AddsFor t k t.stores t.sheets := by
  simpa using addsFor_replicate t k 0 0

/-- One wait of the latest navigation leads to the next one or to the swap. -/
theorem resume_live (site : Site D) {t : Tab D} {k sheets : ℕ} {transition : Bool}
    {nav : Navigation} (hnav : t.navs[k]? = some nav) (hsw : nav.phase.swapped = false)
    (hover : nav.phase.over = false) (hlive : t.live k = true) :
    Resumed site t k nav (t.resume site k sheets transition) := by
  rw [Tab.resume, hnav]
  cases hphase : nav.phase with
  | ended swapped => rw [hphase] at hover; cases hover
  | scripts => rw [hphase] at hsw; cases hsw
  | fetch =>
      simp only [hphase, hlive, Bool.not_true, Bool.false_eq_true, if_false]
      split
      case h_1 => exact .waits hsw hlive rfl rfl (addsFor_replicate t k _ sheets)
      case h_2 left _ => exact .waits hsw hlive rfl rfl (addsFor_stores t k _)
  | modules left =>
      simp only [hphase, hlive, Bool.not_true, Bool.false_eq_true, if_false]
      cases left with
      | zero => exact .waits hsw hlive rfl rfl (addsFor_sheets t k sheets)
      | succ left => exact .waits hsw hlive rfl rfl (addsFor_none t k)
  | sheets =>
      simp only [hphase, hlive, Bool.not_true, Bool.false_eq_true, if_false]
      split
      · exact .waits hsw hlive rfl rfl (addsFor_none t k)
      · exact .swaps hsw hlive
  | images =>
      simp only [hphase, hlive, Bool.not_true, Bool.false_eq_true, if_false]
      split
      · exact .waits hsw hlive rfl rfl (addsFor_none t k)
      · exact .swaps hsw hlive
  | transition =>
      simp only [hphase, hlive, Bool.not_true, Bool.false_eq_true, if_false]
      exact .swaps hsw hlive

theorem resume_dead {site : Site D} {t : Tab D} {k sheets : ℕ} {transition : Bool}
    {nav : Navigation} (hnav : t.navs[k]? = some nav) (hsw : nav.phase.swapped = false)
    (hover : nav.phase.over = false) (hlive : t.live k = false) :
    t.resume site k sheets transition = t.drop k := by
  rw [Tab.resume, hnav]
  cases hphase : nav.phase with
  | ended swapped => rw [hphase] at hover; cases hover
  | scripts => rw [hphase] at hsw; cases hsw
  | _ => simp only [hphase, hlive, Bool.not_false, if_true]

theorem resume_cases (site : Site D) (t : Tab D) (k sheets : ℕ) (transition : Bool) :
    t.resume site k sheets transition = t ∨
      ∃ nav, t.navs[k]? = some nav ∧ Resumed site t k nav (t.resume site k sheets transition) := by
  cases hnav : t.navs[k]? with
  | none => exact .inl (by rw [Tab.resume, hnav])
  | some nav =>
      cases hover : nav.phase.over with
      | true =>
          refine .inl ?_
          rw [Tab.resume, hnav]
          cases hphase : nav.phase with
          | ended swapped => simp only [hphase]
          | _ => rw [hphase] at hover; cases hover
      | false =>
          refine .inr ⟨nav, rfl, ?_⟩
          cases hsw : nav.phase.swapped with
          | true =>
              have hscripts : nav.phase = .scripts := by
                cases hphase : nav.phase with
                | scripts => rfl
                | ended swapped => rw [hphase] at hover; cases hover
                | _ => rw [hphase] at hsw; cases hsw
              have : t.resume site k sheets transition = t.setPhase k (.ended true) := by
                rw [Tab.resume, hnav]
                simp only [hscripts]
              exact this ▸ .scripts hscripts
          | false =>
              cases hlive : t.live k with
              | true => exact resume_live site hnav hsw hover hlive
              | false =>
                  rw [resume_dead hnav hsw hover hlive]
                  exact .superseded hsw hover hlive

theorem getElem?_setPhase (t : Tab D) (k j : ℕ) (phase : Phase) :
    (t.setPhase k phase).navs[j]? =
      (t.navs[j]?).map fun nav => if k = j then { nav with phase } else nav := by
  rw [Tab.setPhase]
  simp only [List.getElem?_modify]
  split <;> rfl

theorem pending_of_live {t : Tab D} {k : ℕ} {nav : Navigation} (hnav : t.navs[k]? = some nav)
    (hlive : t.live k = true) :
    t.pending = if nav.phase.swapped then none else some nav := by
  have hk : t.navs.length - 1 = k := by
    have : k + 1 = t.navs.length := of_decide_eq_true hlive
    omega
  rw [Tab.pending, List.getLast?_eq_getElem?, hk, hnav, Option.filter_some]
  cases nav.phase.swapped <;> rfl

theorem pending_setPhase {t : Tab D} {k : ℕ} {nav : Navigation} (hnav : t.navs[k]? = some nav)
    (hlive : t.live k = true) (phase : Phase) :
    (t.setPhase k phase).pending = if phase.swapped then none else some { nav with phase } := by
  refine @pending_of_live D (t.setPhase k phase) k { nav with phase } ?_ ?_
  · rw [getElem?_setPhase, hnav, Option.map_some, if_pos rfl]
  · simpa [Tab.live, Tab.setPhase] using hlive

theorem pending_setPhase_of_dead {t : Tab D} {k : ℕ} (hlive : t.live k = false) (phase : Phase) :
    (t.setPhase k phase).pending = t.pending := by
  have hlen : (t.setPhase k phase).navs.length = t.navs.length := by simp [Tab.setPhase]
  have hk : ¬ k + 1 = t.navs.length := of_decide_eq_false hlive
  rw [Tab.pending, Tab.pending, List.getLast?_eq_getElem?, List.getLast?_eq_getElem?, hlen,
    getElem?_setPhase]
  congr 1
  cases hlast : t.navs[t.navs.length - 1]? with
  | none => rfl
  | some nav =>
      have hlt := (List.getElem?_eq_some_iff.mp hlast).1
      rw [Option.map_some, if_neg (by omega)]

/-- A change of phase that leaves what is pending, but for the phase, and the elements of others. -/
theorem Inv.setPhase {t : Tab D} (h : Inv site t) {k : ℕ} {phase : Phase} (stores sheets : List ℕ)
    (hpending : ∀ nav', (t.setPhase k phase).pending = some nav' → ∃ nav, t.pending = some nav ∧
      nav'.req = nav.req ∧ nav'.trigger = nav.trigger ∧ nav'.pop = nav.pop ∧
      nav'.replace = nav.replace)
    (hquiet : (t.setPhase k phase).pending = none → t.pending = none)
    (hothers : ∀ j ∈ stores ++ sheets, (j = k ∧ ∃ nav, t.navs[k]? = some nav ∧
      phase.swapped = false ∧ phase.over = false) ∨ j ≠ k ∧ j ∈ t.stores ++ t.sheets) :
    Inv site { t.setPhase k phase with stores, sheets } where
  distinct := h.distinct
  screen := h.screen
  quiet hnone := h.quiet (hquiet hnone)
  pop nav' hnav' htr := by
    obtain ⟨nav, hnav, hreq, htrigger, hpop, -⟩ := hpending nav' hnav'
    obtain ⟨hr, hp, hdiff⟩ := h.pop nav hnav (htrigger ▸ htr)
    exact ⟨hreq.trans hr, hpop.trans hp, hdiff⟩
  replace nav' hnav' hr := by
    obtain ⟨nav, hnav, -, -, -, hreplace⟩ := hpending nav' hnav'
    exact h.replace nav hnav (hreplace ▸ hr)
  added j hj := by
    rcases hothers j hj with ⟨rfl, nav, hnav, hph⟩ | ⟨hne, hj⟩
    · refine ⟨{ nav with phase }, ?_, hph⟩
      change (t.setPhase j phase).navs[j]? = _
      rw [getElem?_setPhase, hnav, Option.map_some, if_pos rfl]
    · obtain ⟨nav, hnav, hph⟩ := h.added j hj
      refine ⟨nav, ?_, hph⟩
      change (t.setPhase k phase).navs[j]? = _
      rw [getElem?_setPhase, hnav, Option.map_some, if_neg (Ne.symm hne)]

/-- The document that a final URL is fetched from is the request's. -/
theorem fetched_final (site : Site D) (req : Url) :
    site.fetched (site.final req) = site.fetched req := by
  rw [Site.fetched, Site.final, site.settled, Site.fetched]

/-- After the swap of the latest navigation, once the current entry has its document's URL and the
id `cur`. -/
theorem Inv.swapped {t : Tab D} (h : Inv site t) {k : ℕ} {nav : Navigation}
    (hnav : t.navs[k]? = some nav) (hlive : t.live k = true) {n : ℕ} {history : History}
    {cur : String} (hd : Distinct t.stamp n history) (hcur : history.now.id = some cur)
    (hurl : site.fetched history.now.url = site.fetched nav.req) :
    Inv site { t.setPhase k .scripts with
      n := n, history := history, cur := cur, shown := history.now.url
      screen := site.fetched nav.req, stores := [], sheets := t.sheets.filter (· ≠ k) } := by
  have hnone : (t.setPhase k .scripts).pending = none := pending_setPhase hnav hlive .scripts
  refine ⟨hd, hurl.symm, fun _ => ⟨hcur, decide_eq_true rfl⟩, fun nav' hnav' => ?_,
    fun nav' hnav' => ?_, fun j hj => ?_⟩
  · cases hnone.symm.trans hnav'
  · cases hnone.symm.trans hnav'
  · have hj : j ∈ t.sheets ∧ j ≠ k := by simpa using hj
    obtain ⟨nav', hnav', hph⟩ := h.added j (List.mem_append_right _ hj.1)
    refine ⟨nav', ?_, hph⟩
    change (t.setPhase k .scripts).navs[j]? = _
    rw [getElem?_setPhase, hnav', Option.map_some, if_neg (Ne.symm hj.2)]

theorem Inv.swap {t : Tab D} (h : Inv site t) {k : ℕ} {nav : Navigation}
    (hnav : t.navs[k]? = some nav) (hsw : nav.phase.swapped = false) (hlive : t.live k = true) :
    Inv site (t.swap site k nav) := by
  have hpending : t.pending = some nav := by
    rw [pending_of_live hnav hlive, hsw]
    rfl
  rw [Tab.swap]
  split
  case isTrue htr =>
    obtain ⟨hreq, hpop, -⟩ := h.pop nav hpending htr
    have hurl : site.fetched t.location = site.fetched nav.req := by rw [hreq]
    rw [hpop, Tab.adopt]
    split
    case h_1 id hid =>
      exact h.swapped hnav hlive h.distinct (Option.filter_eq_some_iff.mp hid).1 hurl
    case h_2 => exact h.swapped hnav hlive h.distinct.tagged rfl hurl
  case isFalse =>
    split
    case isTrue hreplace =>
      have haligned : t.history.now.id = some t.cur := h.replace nav hpending hreplace
      have hd := h.distinct.sameId (site.final nav.req)
      rw [haligned] at hd
      exact h.swapped hnav hlive hd rfl (fetched_final site nav.req)
    case isFalse =>
      exact h.swapped hnav hlive (h.distinct.pushed _) rfl (fetched_final site nav.req)

theorem Inv.resume {t : Tab D} (h : Inv site t) (k sheets : ℕ) (transition : Bool) :
    Inv site (t.resume site k sheets transition) := by
  rcases resume_cases site t k sheets transition with hsame | ⟨nav, hnav, hres⟩
  · rw [hsame]
    exact h
  generalize t.resume site k sheets transition = t' at hres
  -- the elements of another navigation than `k` stay, and `k`'s only while it waits
  have hself : ∀ j ∈ t.stores ++ t.sheets, nav.phase.swapped = true → j ≠ k := by
    rintro j hj hph rfl
    obtain ⟨nav', hnav', hsw, -⟩ := h.added j hj
    obtain rfl := Option.some.inj (hnav.symm.trans hnav')
    rw [hsw] at hph
    cases hph
  cases hres with
  | scripts hphase =>
      have hpend : (t.setPhase k (.ended true)).pending = t.pending := by
        cases hlive : t.live k with
        | false => exact pending_setPhase_of_dead hlive _
        | true =>
            rw [pending_setPhase hnav hlive, pending_of_live hnav hlive, hphase]
            rfl
      refine h.setPhase t.stores t.sheets
        (fun nav' hnav' => ⟨nav', hpend ▸ hnav', rfl, rfl, rfl, rfl⟩) (fun hnone => hpend ▸ hnone)
        fun j hj => .inr ⟨hself j hj (by rw [hphase]; rfl), hj⟩
  | superseded hsw hover hlive =>
      have hpend := pending_setPhase_of_dead hlive (.ended false)
      refine h.setPhase _ _ (fun nav' hnav' => ⟨nav', hpend ▸ hnav', rfl, rfl, rfl, rfl⟩)
        (fun hnone => hpend ▸ hnone) fun j hj => .inr ?_
      rw [← List.filter_append, List.mem_filter] at hj
      exact ⟨by simpa using hj.2, hj.1⟩
  | @waits phase stores sheets hsw hlive hphase hover hadds =>
      have hpend : t.pending = some nav := by
        rw [pending_of_live hnav hlive, hsw]
        rfl
      have hpend' := pending_setPhase hnav hlive phase
      rw [hphase] at hpend'
      refine h.setPhase _ _ (fun nav' hnav' => ⟨nav, hpend, ?_⟩) (fun hnone => ?_) fun j hj => ?_
      · obtain rfl := Option.some.inj (hpend'.symm.trans hnav')
        exact ⟨rfl, rfl, rfl, rfl⟩
      · cases hpend'.symm.trans hnone
      · by_cases hjk : j = k
        · exact .inl ⟨hjk, nav, hnav, hphase, hover⟩
        · exact .inr ⟨hjk, (hadds j hj).resolve_left hjk⟩
  | swaps hsw hlive => exact h.swap hnav hsw hlive

/-! ### Runs -/

theorem Inv.step {t : Tab D} (h : Inv site t) {e : Event} (ho : Orderly t e) :
    Inv site (step site t e) := by
  cases e with
  | click u =>
      rw [Nav.step]
      split
      case isTrue hu => exact h.fragment hu _
      case isFalse hu => exact h.go (by decide) (ho (Bool.eq_false_iff.mpr hu))
  | navigate u replace =>
      rw [Nav.step]
      split
      case isTrue hu => exact h.fragment hu _
      case isFalse hu => exact h.go (by decide) (ho (Bool.eq_false_iff.mpr hu))
  | traverse j =>
      rw [Nav.step]
      split
      case h_1 => exact h
      case h_2 history ht => exact h.traverse ht (ho history ht)
  | resume k sheets transition => exact h.resume k sheets transition

/-- Every step of a run is orderly. -/
def OrderlyRun (site : Site D) : Tab D → List Event → Prop
  | _, [] => True
  | t, e :: events => Orderly t e ∧ OrderlyRun site (step site t e) events

theorem Inv.run {t : Tab D} (h : Inv site t) {events : List Event}
    (ho : OrderlyRun site t events) : Inv site (run site t events) := by
  induction events generalizing t with
  | nil => exact h
  | cons e events ih => exact ih (h.step ho.1) ho.2

/-- The entries a page load finds: their ids are distinct, and none has the load's stamp. -/
def Found (stamp : String) (history : History) : Prop :=
  history.ids.Nodup ∧ ∀ m : ℕ, stamp ++ toString m ∉ history.ids

/-- A tab without navigations whose current entry is `cur`'s. -/
theorem inv_of_none {t : Tab D} (hd : Distinct t.stamp t.n t.history)
    (hscreen : t.screen = site.fetched t.shown) (haligned : t.Aligned)
    (hshown : t.shown = t.location) (hnavs : t.navs = []) (hadded : t.stores ++ t.sheets = []) :
    Inv site t where
  distinct := hd
  screen := hscreen
  quiet _ := ⟨haligned, by rw [hshown]; exact decide_eq_true rfl⟩
  pop nav hnav := by
    rw [Tab.pending, hnavs] at hnav
    cases hnav
  replace _ _ _ := haligned
  added k hk := by
    rw [hadded] at hk
    cases hk

theorem inv_boot (site : Site D) {stamp : String} {history : History} (h : Found stamp history) :
    Inv site (boot site stamp history) := by
  have hd : Distinct stamp 0 history := ⟨h.1, fun m hm => absurd hm (h.2 m)⟩
  rw [boot]
  split
  case h_1 id hid => exact inv_of_none hd rfl hid rfl rfl rfl
  case h_2 => exact inv_of_none hd.tagged rfl rfl rfl rfl rfl

/-! ### Agreement -/

/-- Whenever no navigation is pending the document on screen is the one fetched for the location
and `cur` is the current entry's id; the entries' ids are distinct; and nothing that a navigation
added outlives it. -/
structure Agrees (site : Site D) (t : Tab D) : Prop where
  shows : t.pending = none → t.screen = site.fetched t.location
  current : t.pending = none → t.history.now.id = some t.cur
  ids : t.history.ids.Nodup
  tidy : ∀ k nav, t.navs[k]? = some nav → nav.phase.over = true → k ∉ t.stores ++ t.sheets

theorem Inv.agrees {t : Tab D} (h : Inv site t) : Agrees site t where
  shows hnone := by
    have hpage : t.location.page = t.shown.page := of_decide_eq_true (h.quiet hnone).2
    rw [h.screen, Site.fetched, Site.fetched, hpage]
  current hnone := (h.quiet hnone).1
  ids := h.distinct.nodup
  tidy k nav hnav hover hk := by
    obtain ⟨nav', hnav', -, hover'⟩ := h.added k hk
    obtain rfl := Option.some.inj (hnav.symm.trans hnav')
    rw [hover] at hover'
    cases hover'

def Tab.swappedAt (t : Tab D) (k : ℕ) : Bool := (t.navs[k]?).any fun nav => nav.phase.swapped

/-- Only the latest navigation swaps, and a superseded one ends at its next wait with what it added
removed. -/
structure Supersedes (site : Site D) (t : Tab D) : Prop where
  latest : ∀ e k, t.swappedAt k = false → (step site t e).swappedAt k = true → t.live k = true
  ends : ∀ k nav sheets transition, t.navs[k]? = some nav → nav.phase.swapped = false →
    nav.phase.over = false → t.live k = false →
    (∃ nav', (t.resume site k sheets transition).navs[k]? = some nav' ∧
      nav'.phase = .ended false) ∧
    k ∉ (t.resume site k sheets transition).stores ++ (t.resume site k sheets transition).sheets

theorem swappedAt_go (t : Tab D) (req : Url) (trigger : Trigger) (replace : Bool)
    (pop : Option String) (k : ℕ) :
    (t.go req trigger replace pop).swappedAt k = t.swappedAt k := by
  rw [Tab.swappedAt, Tab.go, Tab.swappedAt]
  rcases Nat.lt_or_ge k t.navs.length with hlt | hge
  · rw [List.getElem?_append_left hlt]
  · rw [List.getElem?_append_right hge, List.getElem?_eq_none hge]
    cases k - t.navs.length <;> rfl

theorem swappedAt_popstate (t : Tab D) (k : ℕ) : t.popstate.swappedAt k = t.swappedAt k := by
  rw [Tab.popstate]
  split
  · rw [Tab.swappedAt, Tab.swappedAt]
    change ((t.adopt t.history.now.id).navs[k]?).any _ = _
    rw [(adopt_frame t t.history.now.id).2.2.2.1]
  · exact swappedAt_go t _ _ _ _ k

theorem swappedAt_setPhase_of_ne (t : Tab D) {k j : ℕ} (hne : k ≠ j) (phase : Phase) :
    (t.setPhase k phase).swappedAt j = t.swappedAt j := by
  rw [Tab.swappedAt, getElem?_setPhase, Tab.swappedAt]
  simp only [if_neg hne, Option.map_id_fun', id]

theorem navs_swap (site : Site D) (t : Tab D) (k : ℕ) (nav : Navigation) :
    (t.swap site k nav).navs = (t.setPhase k .scripts).navs := by
  rw [Tab.swap]
  split
  · exact (adopt_frame _ nav.pop).2.2.2.1
  · split <;> rfl

theorem Resumed.swappedAt_of_ne {t t' : Tab D} {k j : ℕ} {nav : Navigation}
    (h : Resumed site t k nav t') (hne : k ≠ j) : t'.swappedAt j = t.swappedAt j := by
  cases h with
  | scripts _ => exact swappedAt_setPhase_of_ne t hne _
  | superseded _ _ _ => exact swappedAt_setPhase_of_ne t hne (.ended false)
  | @waits phase stores sheets _ _ _ _ _ => exact swappedAt_setPhase_of_ne t hne phase
  | swaps _ _ =>
      rw [Tab.swappedAt, navs_swap]
      exact swappedAt_setPhase_of_ne t hne .scripts

theorem swappedAt_step_of_start (site : Site D) (t : Tab D) (e : Event) (k : ℕ)
    (he : ∀ j sheets transition, e ≠ .resume j sheets transition) :
    (step site t e).swappedAt k = t.swappedAt k := by
  cases e with
  | click u =>
      rw [Nav.step]
      split
      · exact swappedAt_popstate _ k
      · exact swappedAt_go t _ _ _ _ k
  | navigate u replace =>
      rw [Nav.step]
      split
      · exact swappedAt_popstate _ k
      · exact swappedAt_go t _ _ _ _ k
  | traverse j =>
      rw [Nav.step]
      split
      · rfl
      · exact swappedAt_popstate _ k
  | resume j sheets transition => exact absurd rfl (he j sheets transition)

theorem supersedes (site : Site D) (t : Tab D) : Supersedes site t where
  latest e k hbefore hafter := by
    cases e with
    | resume j sheets transition =>
        rw [Nav.step] at hafter
        rcases resume_cases site t j sheets transition with hsame | ⟨nav, hnav, hres⟩
        · rw [hsame, hbefore] at hafter
          cases hafter
        by_cases hjk : j = k
        · subst hjk
          have hsw : nav.phase.swapped = false := by simpa [Tab.swappedAt, hnav] using hbefore
          generalize t.resume site j sheets transition = t' at hres hafter
          cases hres with
          | scripts hphase =>
              rw [hphase] at hsw
              cases hsw
          | superseded =>
              change (t.setPhase j (.ended false)).swappedAt j = true at hafter
              rw [Tab.swappedAt, getElem?_setPhase, hnav, Option.map_some, if_pos rfl] at hafter
              cases hafter
          | waits _ hlive => exact hlive
          | swaps _ hlive => exact hlive
        · rw [hres.swappedAt_of_ne hjk, hbefore] at hafter
          cases hafter
    | _ =>
        rw [swappedAt_step_of_start site t _ k (by intro _ _ _ h; cases h), hbefore] at hafter
        cases hafter
  ends k nav sheets transition hnav hsw hover hlive := by
    rw [resume_dead hnav hsw hover hlive]
    refine ⟨⟨{ nav with phase := .ended false }, ?_, rfl⟩, ?_⟩
    · change (t.setPhase k (.ended false)).navs[k]? = _
      rw [getElem?_setPhase, hnav, Option.map_some, if_pos rfl]
    · simp [Tab.drop]

/-- **Navigation agreement.** In a run whose steps are orderly, from a page load on. -/
theorem run_agrees (site : Site D) {stamp : String} {history : History}
    (hf : Found stamp history) {events : List Event}
    (ho : OrderlyRun site (boot site stamp history) events) :
    Agrees site (run site (boot site stamp history) events) ∧
      Supersedes site (run site (boot site stamp history) events) :=
  ⟨((inv_boot site hf).run ho).agrees, supersedes site _⟩

/-! ### The two ways out -/

/-- Every page is a document of its own, served where it is asked for. -/
def plainSite : Site String where
  redirect p := p
  doc p := p
  stores _ := 0
  modules _ := 0
  settled _ := rfl

def page (p : String) : Url := ⟨p, none⟩

def home : History := ⟨[], ⟨page "/", none⟩, []⟩

/-- A navigation's waits one after the other, without a transition. -/
def load (k : ℕ) : List Event := [.resume k 0 false, .resume k 0 false, .resume k 0 false]

/-- From `/a` back to `/`, forward to `/a` before the answer, and then the answer. -/
def backThenForward : List Event :=
  .click (page "/a") :: load 0 ++ [.traverse 0, .traverse 1] ++ load 1

/-- From `/a` back to `/`, and before the answer a replacing navigation to `/b`. -/
def replaceAfterBack : List Event :=
  .click (page "/a") :: load 0 ++ [.traverse 0, .navigate (page "/b") true] ++ load 2

/-- The two runs: `/` on screen at `/a`; and two entries with one id. -/
theorem navigation_disagrees :
    ¬ Agrees plainSite (run plainSite (boot plainSite "s" home) backThenForward) ∧
      ¬ Agrees plainSite (run plainSite (boot plainSite "s" home) replaceAfterBack) := by
  constructor
  · intro h
    exact absurd (h.shows (by decide)) (by decide)
  · intro h
    exact absurd h.ids (by decide)

/-- A click to `/a`, and back. -/
theorem run_agrees_back :
    Agrees plainSite (run plainSite (boot plainSite "s" home)
      (.click (page "/a") :: load 0 ++ .traverse 0 :: load 1)) := by
  have hnone : (run plainSite (boot plainSite "s" home)
      (.click (page "/a") :: load 0)).pending = none := by decide
  have hf : Found "s" home := ⟨by decide, fun m hm => by cases hm⟩
  refine (run_agrees plainSite hf ?_).1
  refine ⟨fun _ hs => absurd hs (by decide), trivial, trivial, trivial, ?_⟩
  change OrderlyRun _ _ (.traverse 0 :: load 1)
  refine ⟨fun _ _ _ nav hnav => ?_, trivial, trivial, trivial, trivial⟩
  cases hnone.symm.trans hnav

end Brust.Nav
