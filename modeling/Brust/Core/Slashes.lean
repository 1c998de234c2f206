import Brust.Core.Pipeline

/-!
# Core — trailing slashes

A path that `strip` took the slashes off has none to take (`strip_strip`), and keeps its first
character.  So a redirect goes to a path of this server that is not redirected again, with the query
as it was, and a page is matched with a path that is matched with itself (`trailing_slash_final`).
-/

namespace Brust.Core.Pipeline

/-! ### Taking the slashes off -/

/-- What is left: `/`, or the path up to a last character that is no slash. -/
theorem strip_eq_some {path s : String} (h : strip path = some s) :
    path.toList.getLast? = some '/' ∧
      ((s = "/" ∧ path.toList.rdropWhile (· == '/') = []) ∨
        (s.toList = path.toList.rdropWhile (· == '/') ∧ s.toList ≠ [] ∧
          s.toList.getLast? ≠ some '/')) := by
  rw [strip] at h
  split at h
  · cases h
  · next hcond =>
    rw [Bool.or_eq_true, not_or, bne_iff_ne, not_not] at hcond
    refine ⟨hcond.2, ?_⟩
    cases Option.some.inj h
    by_cases hnil : path.toList.rdropWhile (· == '/') = []
    · left
      rw [hnil]
      exact ⟨rfl, rfl⟩
    · right
      have hne : (String.ofList (path.toList.rdropWhile (· == '/')) == "") = false := by
        rw [beq_eq_false_iff_ne]
        intro he
        exact hnil (by rw [← String.toList_ofList (l := path.toList.rdropWhile _), he]; rfl)
      rw [hne, if_neg Bool.false_ne_true, String.toList_ofList]
      refine ⟨rfl, hnil, fun hlast => ?_⟩
      have hlast' := List.rdropWhile_last_not (· == '/') path.toList hnil
      rw [List.getLast?_eq_some_getLast hnil] at hlast
      rw [Option.some.inj hlast] at hlast'
      exact hlast' rfl

/-- **There is nothing left to take off.** -/
theorem strip_strip {path s : String} (h : strip path = some s) : strip s = none := by
  obtain ⟨-, ⟨rfl, -⟩ | ⟨-, -, hlast⟩⟩ := strip_eq_some h
  · rfl
  · rw [strip, if_pos]
    rw [Bool.or_eq_true, bne_iff_ne]
    exact .inr hlast

/-- A path from `/` on stays one. -/
theorem head_strip {path s : String} (h : strip path = some s)
    (hhead : path.toList.head? = some '/') : s.toList.head? = some '/' := by
  obtain ⟨-, ⟨rfl, -⟩ | ⟨hs, hne, -⟩⟩ := strip_eq_some h
  · rfl
  · obtain ⟨t, ht⟩ := List.rdropWhile_prefix (· == '/') path.toList
    rw [← hs] at ht
    rw [← ht, List.head?_append_of_ne_nil _ hne] at hhead
    exact hhead

/-- What is left has no character of its own. -/
theorem mem_strip {path s : String} (h : strip path = some s) {c : Char} (hc : c ∈ s.toList) :
    c ∈ path.toList := by
  obtain ⟨hlast, ⟨rfl, -⟩ | ⟨hs, -, -⟩⟩ := strip_eq_some h
  · rw [List.mem_singleton.mp hc]
    exact List.mem_of_getLast? hlast
  · rw [hs] at hc
    exact (List.rdropWhile_prefix (· == '/') path.toList).subset hc

theorem question_notMem_strip {full s : String} (h : strip (pathOf full) = some s) :
    '?' ∉ s.toList := by
  intro hmem
  have hpath := mem_strip h hmem
  rw [pathOf, String.toList_ofList] at hpath
  exact absurd (List.mem_takeWhile_imp hpath) (by decide)

/-! ### The query -/

/-- A request from its first `?` on. -/
theorem from_question (full : String) : full.toList.dropWhile (· ≠ '?') = [] ∧ '?' ∉ full.toList ∨
    '?' ∈ full.toList ∧ ∃ q, full.toList.dropWhile (· ≠ '?') = '?' :: q := by
  cases hdrop : full.toList.dropWhile (· ≠ '?') with
  | nil =>
      refine .inl ⟨rfl, fun hmem => ?_⟩
      exact absurd (List.dropWhile_eq_nil_iff.mp hdrop '?' hmem) (by decide)
  | cons c q =>
      have hne : full.toList.dropWhile (· ≠ '?') ≠ [] := hdrop ▸ List.cons_ne_nil c q
      have hc := List.head_dropWhile_not _ hne
      simp only [hdrop, List.head_cons] at hc
      obtain rfl : c = '?' := not_not.mp (of_decide_eq_false hc)
      have hmem : '?' ∈ full.toList.dropWhile (· ≠ '?') := hdrop ▸ List.mem_cons_self
      exact .inr ⟨(List.dropWhile_sublist _).subset hmem, q, rfl⟩

/-- The path that is left, and the request from its first `?` on. -/
theorem toList_withQuery (stripped full : String) :
    (withQuery stripped full).toList =
      stripped.toList ++ full.toList.dropWhile (· ≠ '?') := by
  rw [withQuery, splitOnce]
  rcases from_question full with ⟨hnil, hmem⟩ | ⟨hmem, q, hq⟩
  · rw [if_neg hmem, hnil, List.append_nil]
  · rw [if_pos hmem, hq]
    simp only [String.toList_append, String.toList_ofList, List.drop_one, List.tail_cons,
      List.append_assoc]
    rfl

/-- The path of the new request, and its query. -/
theorem pathOf_withQuery {stripped full : String} (h : '?' ∉ stripped.toList) :
    pathOf (withQuery stripped full) = stripped ∧
      (withQuery stripped full).toList.dropWhile (· ≠ '?') =
        full.toList.dropWhile (· ≠ '?') := by
  have hkeep : ∀ c ∈ stripped.toList, decide (c ≠ '?') = true := fun c hc =>
    decide_eq_true fun he => h (he ▸ hc)
  have htail : (full.toList.dropWhile (· ≠ '?')).takeWhile (· ≠ '?') = [] := by
    rcases from_question full with ⟨hnil, -⟩ | ⟨-, q, hq⟩
    · rw [hnil]
      rfl
    · rw [hq]
      rfl
  constructor
  · rw [pathOf, toList_withQuery, List.takeWhile_append_of_pos hkeep, htail, List.append_nil,
      String.ofList_toList]
  · rw [toList_withQuery, List.dropWhile_append_of_pos hkeep]
    exact List.dropWhile_idempotent _ _

/-! ### Redirects and pages -/

/-- An answer of the trailing-slash policy. -/
def Answer.isTrailing : Answer → Bool
  | .redirect _ => true
  | .page _ => true
  | _ => false

namespace App

variable {app : App} {rq : Request}

theorem trailing_of_read {fw : String} {ans : Answer} (h : app.read rq fw = ans)
    (hans : ans.isTrailing = true) : app.trailing fw rq.target.full = ans := by
  rw [read] at h
  repeat' split at h
  all_goals first
    | exact h
    | subst h; cases hans

/-- A request that is answered by a page or a redirect is answered by the trailing-slash policy. -/
theorem trailing_of_handle {ans : Answer} (h : app.handle rq = ans)
    (hans : ans.isTrailing = true) :
    ∃ fw, app.frameworkPath (pathOf rq.target.full) = some fw ∧
      app.trailing fw rq.target.full = ans := by
  rw [handle] at h
  split at h
  · subst h
    cases hans
  · split at h
    · subst h
      cases hans
    · next fw hfw =>
      dsimp only at h
      split at h
      · rw [handleAction] at h
        repeat' split at h
        all_goals
          subst h
          cases hans
      · exact ⟨fw, hfw, trailing_of_read h hans⟩

/-- What a redirect goes to. -/
theorem of_redirect {location : String} (h : app.handle rq = .redirect location) :
    ∃ stripped, strip (pathOf rq.target.full) = some stripped ∧
      ['/', '/'].isPrefixOf stripped.toList = false ∧
      ['/', '\\'].isPrefixOf stripped.toList = false ∧
      location = withQuery stripped rq.target.full := by
  obtain ⟨fw, -, htrailing⟩ := trailing_of_handle h rfl
  rw [trailing] at htrailing
  split at htrailing
  · cases htrailing
  · next stripped hstrip =>
    repeat' split at htrailing
    all_goals first
      | cases htrailing; done
      | skip
    next hopen =>
      rw [Bool.or_eq_true, not_or, Bool.not_eq_true, Bool.not_eq_true] at hopen
      exact ⟨stripped, hstrip, hopen.1, hopen.2, (Answer.redirect.inj htrailing).symm⟩

/-- What a page is matched with, where slashes are ignored: a path with none at its end, or the
request as it was, which keeps them. -/
theorem of_page {full : String} (hmode : app.trailingSlash = .ignore)
    (h : app.handle rq = .page full) :
    strip (pathOf full) = none ∨ (full = rq.target.full ∧
      ∃ fw, app.frameworkPath (pathOf full) = some fw ∧ strip fw = some "/ping") := by
  obtain ⟨fw, hfw, htrailing⟩ := trailing_of_handle h rfl
  rw [trailing, hmode] at htrailing
  split at htrailing
  · next hnone =>
    cases htrailing
    exact .inl hnone
  · next stripped hstrip =>
    split at htrailing
    · next hping =>
      cases htrailing
      exact .inr ⟨rfl, fw, hfw, eq_of_beq hping⟩
    · cases htrailing
      left
      rw [(pathOf_withQuery (question_notMem_strip hstrip)).1]
      exact strip_strip hstrip

end App

/-- A path that has slashes to take off starts with one. -/
theorem head_of_strip (t : Target) {s : String} (h : strip (pathOf t.full) = some s) :
    (pathOf t.full).toList.head? = some '/' := by
  obtain ⟨hlast, -⟩ := strip_eq_some h
  rw [pathOf, String.toList_ofList] at hlast ⊢
  rcases t.absolute with hnil | hstar | hslash | hquestion
  · rw [hnil] at hlast
    cases hlast
  · rw [hstar] at hlast
    exact absurd hlast (by decide)
  · cases hfull : t.full.toList with
    | nil =>
        rw [hfull] at hslash
        cases hslash
    | cons c rest =>
        rw [hfull] at hslash
        cases hslash
        rfl
  · cases hfull : t.full.toList with
    | nil =>
        rw [hfull] at hquestion
        cases hquestion
    | cons c rest =>
        rw [hfull] at hquestion hlast
        cases hquestion
        rw [List.takeWhile_cons_of_neg (by decide)] at hlast
        cases hlast

/-- A redirect goes to what may be requested. -/
theorem target_withQuery (t : Target) {s : String} (h : strip (pathOf t.full) = some s) :
    ∃ t' : Target, t'.full = withQuery s t.full := by
  refine ⟨⟨withQuery s t.full, .inr (.inr (.inl ?_)), fun c hc => ?_⟩, rfl⟩
  · have hhead := head_strip h (head_of_strip t h)
    rw [toList_withQuery, List.head?_append, hhead]
    rfl
  · rw [toList_withQuery] at hc
    rcases List.mem_append.mp hc with hpath | hquery
    · have hmem := mem_strip h hpath
      rw [pathOf, String.toList_ofList] at hmem
      exact t.visible c ((List.takeWhile_sublist _).subset hmem)
    · exact t.visible c ((List.dropWhile_sublist _).subset hquery)

/-- **Redirects are safe and final**: a redirect goes to a path of this server, with the query as it
was, which may be requested and is not redirected again.  Where slashes are ignored, a page is
matched with a path that is matched as it is. -/
theorem trailing_slash_final (app : App) (rq : Request) :
    (∀ location, app.handle rq = .redirect location →
      (∃ rest, location.toList = '/' :: rest ∧ rest.head? ≠ some '/' ∧ rest.head? ≠ some '\\') ∧
      location.toList.dropWhile (· ≠ '?') = rq.target.full.toList.dropWhile (· ≠ '?') ∧
      (∃ target : Target, target.full = location) ∧
      ∀ (app' : App) (rq' : Request), rq'.target.full = location →
        ∀ again, app'.handle rq' ≠ .redirect again) ∧
    (app.trailingSlash = .ignore → ∀ full, app.handle rq = .page full →
      ∀ rq' : Request, rq'.target.full = full → ∀ again, app.handle rq' = .page again →
        again = full) := by
  constructor
  · intro location h
    obtain ⟨stripped, hstrip, hslash, hback, rfl⟩ := App.of_redirect h
    have hquery := question_notMem_strip hstrip
    obtain ⟨hpath, hsame⟩ := @pathOf_withQuery _ rq.target.full hquery
    refine ⟨?_, hsame, target_withQuery rq.target hstrip, ?_⟩
    · have hhead := head_strip hstrip (head_of_strip rq.target hstrip)
      cases hchars : stripped.toList with
      | nil =>
          rw [hchars] at hhead
          cases hhead
      | cons c rest =>
          rw [hchars] at hhead hslash hback
          obtain rfl := Option.some.inj hhead
          refine ⟨rest ++ rq.target.full.toList.dropWhile (· ≠ '?'), ?_, ?_⟩
          · rw [toList_withQuery, hchars, List.cons_append]
          cases rest with
          | nil =>
              rcases from_question rq.target.full with ⟨hnil, -⟩ | ⟨-, q, hq⟩
              · rw [hnil]
                exact ⟨by decide, by decide⟩
              · rw [hq]
                exact ⟨fun he => absurd (Option.some.inj he) (by decide),
                  fun he => absurd (Option.some.inj he) (by decide)⟩
          | cons d rest =>
              rw [List.cons_append, List.head?_cons]
              constructor
              · rintro hd
                rw [Option.some.inj hd] at hslash
                cases hslash
              · rintro hd
                rw [Option.some.inj hd] at hback
                cases hback
    · intro app' rq' htarget again hagain
      obtain ⟨stripped', hstrip', -⟩ := App.of_redirect hagain
      rw [htarget, hpath, strip_strip hstrip] at hstrip'
      cases hstrip'
  · intro hmode full h rq' htarget again hagain
    obtain ⟨fw, hfw, htrailing⟩ := App.trailing_of_handle hagain rfl
    rw [htarget] at hfw htrailing
    rw [App.trailing] at htrailing
    rcases App.of_page hmode h with hnone | ⟨-, fw', hfw', hping⟩
    · rw [hnone] at htrailing
      exact (Answer.page.inj htrailing).symm
    · obtain rfl : fw' = fw := Option.some.inj (hfw'.symm.trans hfw)
      rw [hping] at htrailing
      split at htrailing
      · exact (Answer.page.inj htrailing).symm
      · rw [if_pos (by decide)] at htrailing
        exact (Answer.page.inj htrailing).symm

/-- An app of pages with a policy. -/
def pagesOnly (mode : TrailingSlash) : App where
  basePath := ""
  actions := none
  actionsOnly := false
  trailingSlash := mode
  routes := ⟨fun _ => none, [], []⟩
  route _ := ⟨"", false⟩

/-- `GET /docs//?page=2/` -/
def docs : Request where
  method := "GET"
  target := ⟨"/docs//?page=2/", by decide, forall_mem_of_all (by decide)⟩
  corsAllowed := false
  statsAllowed := false

theorem trailing_slash_final_docs :
    (pagesOnly .redirect).handle docs = .redirect "/docs?page=2/" ∧
      (∃ rest, "/docs?page=2/".toList = '/' :: rest ∧ rest.head? ≠ some '/' ∧
        rest.head? ≠ some '\\') ∧
      (pagesOnly .ignore).handle docs = .page "/docs?page=2/" ∧
      ∀ rq' : Request, rq'.target.full = "/docs?page=2/" →
        ∀ again, (pagesOnly .ignore).handle rq' = .page again → again = "/docs?page=2/" := by
  have hredirect : (pagesOnly .redirect).handle docs = .redirect "/docs?page=2/" := by
    decide +kernel
  have hpage : (pagesOnly .ignore).handle docs = .page "/docs?page=2/" := by decide +kernel
  exact ⟨hredirect, ((trailing_slash_final (pagesOnly .redirect) docs).1 _ hredirect).1, hpage,
    (trailing_slash_final (pagesOnly .ignore) docs).2 rfl _ hpage⟩

end Brust.Core.Pipeline
