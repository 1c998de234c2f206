import Mathlib.Data.List.Basic
import Mathlib.Data.String.Basic

/-!
# Nav — Navigations of a tab

A tab as `nav.ts` keeps it: the history with an id in each entry, the document on screen, and every
navigation with where it waits.  One event is a link click, a `navigate` call, a traversal of the
history, or the end of one of a navigation's waits, and what runs until the next wait.
-/

namespace Brust.Nav

/-- A URL of the app: what `noHash` leaves, and what follows the `#` of one that has one. -/
structure Url where
  page : String
  hash : Option String
deriving DecidableEq

def sameDoc (a b : Url) : Bool := a.page = b.page

/-- The documents of the app, each answered by its URL: where a request is redirected, what is
served there, and what a document brings.  A redirect leads to where none follows. -/
structure Site (D : Type) where
  redirect : String → String
  doc : String → D
  stores : D → ℕ
  modules : D → ℕ
  settled : ∀ p, redirect (redirect p) = redirect p

/-- The document fetched for a URL. -/
def Site.fetched {D : Type} (site : Site D) (u : Url) : D := site.doc (site.redirect u.page)

/-- The final URL: a redirect without a fragment keeps the request's. -/
def Site.final {D : Type} (site : Site D) (req : Url) : Url :=
  ⟨site.redirect req.page, req.hash.filter (· ≠ "")⟩

/-! ### The history -/

/-- A history entry; `id` is `history.state.brust`. -/
structure Entry where
  url : Url
  id : Option String
deriving DecidableEq

/-- The entries of this document before the current one, the current one, and those after it. -/
structure History where
  past : List Entry
  now : Entry
  future : List Entry
deriving DecidableEq

def History.entries (h : History) : List Entry := h.past ++ h.now :: h.future

def History.ids (h : History) : List String := h.entries.filterMap Entry.id

def History.replaceState (h : History) (e : Entry) : History := { h with now := e }

def History.pushState (h : History) (e : Entry) : History := ⟨h.past ++ [h.now], e, []⟩

/-- The history once the traversal to its `j`-th entry is done. -/
def History.traverse (h : History) (j : ℕ) : Option History :=
  match h.entries.drop j with
  | [] => none
  | e :: future => some ⟨h.entries.take j, e, future⟩

/-! ### The tab -/

inductive Trigger where
  | link
  | navigate
  | popstate
deriving DecidableEq

/-- Where a navigation waits.  `modules left`: for a module script with `left` more after it;
`images`: for the first images of a view transition; `transition`: for it to call `swap`;
`scripts`: for the scripts of the page it swapped in. -/
inductive Phase where
  | fetch
  | modules (left : ℕ)
  | sheets
  | images
  | transition
  | scripts
  | ended (swapped : Bool)
deriving DecidableEq

def Phase.swapped : Phase → Bool
  | .scripts => true
  | .ended swapped => swapped
  | _ => false

def Phase.over : Phase → Bool
  | .ended _ => true
  | _ => false

structure Navigation where
  req : Url
  trigger : Trigger
  replace : Bool
  pop : Option String
  phase : Phase
deriving DecidableEq

/-- The tab.  `navs` are the navigations started so far, so the `k`-th one's `me` is `k + 1` and
`active` their number; `stores` and `sheets` say which navigation each element of its `added` that
stands in the document belongs to. -/
structure Tab (D : Type) where
  stamp : String
  n : ℕ
  history : History
  cur : String
  shown : Url
  screen : D
  navs : List Navigation
  stores : List ℕ
  sheets : List ℕ

namespace Tab

variable {D : Type}

def location (t : Tab D) : Url := t.history.now.url

/-- `stamp + n`. -/
def mint (t : Tab D) : String := t.stamp ++ toString t.n

/-- `cur = tag()`: the current entry gets an id of its own. -/
def tag (t : Tab D) : Tab D :=
  { t with
    n := t.n + 1
    history := t.history.replaceState { t.history.now with id := some t.mint }
    cur := t.mint }

/-- `cur = id || tag()` -/
def adopt (t : Tab D) (id : Option String) : Tab D :=
  match id.filter (· ≠ "") with
  | some id => { t with cur := id }
  | none => t.tag

/-- `me === active` -/
def live (t : Tab D) (k : ℕ) : Bool := k + 1 = t.navs.length

/-- A navigation starts, up to its fetch. -/
def go (t : Tab D) (req : Url) (trigger : Trigger) (replace : Bool) (pop : Option String) : Tab D :=
  { t with navs := t.navs ++ [⟨req, trigger, replace, pop, .fetch⟩] }

def setPhase (t : Tab D) (k : ℕ) (phase : Phase) : Tab D :=
  { t with navs := t.navs.modify k fun nav => { nav with phase } }

/-- The return of a superseded navigation: `finally` removes what it added. -/
def drop (t : Tab D) (k : ℕ) : Tab D :=
  { t.setPhase k (.ended false) with
    stores := t.stores.filter (· ≠ k)
    sheets := t.sheets.filter (· ≠ k) }

/-- `swap`: the document, then history.  The body's old tail goes and every store tag with it, the
sheets are the new document's. -/
def swap (site : Site D) (t : Tab D) (k : ℕ) (nav : Navigation) : Tab D :=
  let url := site.final nav.req
  let t := { t.setPhase k .scripts with
    screen := site.fetched nav.req
    stores := []
    sheets := t.sheets.filter (· ≠ k) }
  let t :=
    if nav.trigger = .popstate then t.adopt nav.pop
    else if nav.replace then { t with history := t.history.replaceState ⟨url, some t.cur⟩ }
    else { t with
      history := t.history.pushState ⟨url, some t.mint⟩
      cur := t.mint
      n := t.n + 1 }
  { t with shown := t.location }

/-- After the last module script: the head plan inserts its sheets. -/
def planHead (t : Tab D) (k sheets : ℕ) : Tab D :=
  { t.setPhase k .sheets with sheets := t.sheets ++ List.replicate sheets k }

/-- A wait of the `k`-th navigation is over.  `sheets` is how many the head plan has, `transition`
whether the swap goes inside a view transition. -/
def resume (site : Site D) (t : Tab D) (k sheets : ℕ) (transition : Bool) : Tab D :=
  match t.navs[k]? with
  | none => t
  | some nav =>
    match nav.phase with
    | .ended _ => t
    | .scripts => t.setPhase k (.ended true)
    | phase =>
      if !t.live k then t.drop k
      else match phase with
        | .fetch =>
          let doc := site.fetched nav.req
          let t := { t with stores := t.stores ++ List.replicate (site.stores doc) k }
          match site.modules doc with
          | 0 => t.planHead k sheets
          | left + 1 => t.setPhase k (.modules left)
        | .modules (left + 1) => t.setPhase k (.modules left)
        | .modules 0 => t.planHead k sheets
        | .sheets => if transition then t.setPhase k .images else t.swap site k nav
        | .images => if transition then t.setPhase k .transition else t.swap site k nav
        | _ => t.swap site k nav

/-- The `popstate` handler, the current entry being the one come to. -/
def popstate (t : Tab D) : Tab D :=
  let dest := t.history.now.id
  if sameDoc t.location t.shown then
    let t := t.adopt dest
    { t with shown := t.location }
  else t.go t.location .popstate false dest

/-- The browser's own fragment navigation: an entry without state, then `popstate`. -/
def fragment (t : Tab D) (u : Url) (replace : Bool) : Tab D :=
  let e : Entry := ⟨u, none⟩
  let history := if replace then t.history.replaceState e else t.history.pushState e
  { t with history }.popstate

end Tab

inductive Event where
  | click (u : Url)
  | navigate (u : Url) (replace : Bool)
  | traverse (j : ℕ)
  | resume (k sheets : ℕ) (transition : Bool)

/-- A URL with a fragment of the document at the location: the browser scrolls to it. -/
def toFragment {D : Type} (t : Tab D) (u : Url) : Bool := u.hash.isSome && sameDoc u t.location

def step {D : Type} (site : Site D) (t : Tab D) : Event → Tab D
  | .click u =>
    if toFragment t u then t.fragment u (u = t.location)
    else t.go u .link (sameDoc u t.location) none
  | .navigate u replace =>
    if toFragment t u then t.fragment u (replace || u = t.location)
    else t.go u .navigate (replace || sameDoc u t.location) none
  | .traverse j =>
    match t.history.traverse j with
    | none => t
    | some history => { t with history }.popstate
  | .resume k sheets transition => t.resume site k sheets transition

def run {D : Type} (site : Site D) (t : Tab D) (events : List Event) : Tab D :=
  events.foldl (step site) t

/-- A tab at boot: the current entry's id, or one of its own. -/
def boot {D : Type} (site : Site D) (stamp : String) (history : History) : Tab D :=
  let t : Tab D := ⟨stamp, 0, history, "", history.now.url,
    site.fetched history.now.url, [], [], []⟩
  match history.now.id with
  | some id => { t with cur := id }
  | none => t.tag

end Brust.Nav
