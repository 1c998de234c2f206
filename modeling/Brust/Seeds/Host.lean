import Brust.Seeds.Project

/-!
# Seeds — The host's `x-props`

`host_attrs`: what the client reads of a component's props, seeded as one JSON object.  Where each
root's variable is the prop, the seeds are adequate exactly where lengths are counts and no data
stand on the way of a row's path (`seeds_adequate`).
-/

namespace Brust.Seeds

open JsonValue

/-- What the client code of a component reads of its props: paths, and the fields of the rows of a
root that it reads in no other way. -/
structure Host where
  paths : List Path
  rows : String → Option (List Path)
  paths_ne : [] ∉ paths
  rows_ne : ∀ r ps, rows r = some ps → r ≠ "*" ∧ ps ≠ [] ∧ [] ∉ ps ∧ ["*"] ∉ ps
  rows_only : ∀ r ps, rows r = some ps → ∀ p ∈ paths, [r] <+: p → p = [r]

/-- Where a component is printed: on its own, after its template's own variables and before the
globals, or inlined, with the props that only the client has. -/
inductive Scope where
  | standalone (sets : List (String × Val)) (globals : String → Val)
  | inlined (clientOnly : List String)

abbrev Props := List (String × JsonValue)

/-- What the text printed for a root evaluates to. -/
def valueOf (scope : Scope) (props : Props) (root : String) : Val :=
  match scope with
  | .standalone sets globals =>
    match sets.lookup root with
    | some v => v
    | none => (props.lookup root).or (globals root)
  | .inlined clientOnly =>
    (props.lookup root).or (if root ∈ clientOnly then some .null else none)

namespace Host

variable (h : Host)

def seed : List Path := minimalPaths h.paths

/-- The row of a list. -/
def row (v : Val) (i : ℕ) : Val :=
  match v with
  | some (.arr xs) => xs[i]?
  | _ => none

/-- Each root's variable is the prop. -/
def Resolved (scope : Scope) (props : Props) : Prop :=
  ["*"] ∉ h.paths → ∀ p ∈ h.paths, ∀ r ∈ p.head?, valueOf scope props r = props.lookup r

variable {h}

/-- A template prints the prop where it has no variable of that name, and no global stands in for
an absent prop. -/
theorem resolved_standalone {sets : List (String × Val)} {globals : String → Val} {props : Props}
    (hsets : ∀ p ∈ h.paths, ∀ r ∈ p.head?, sets.lookup r = none)
    (hglobals : ∀ p ∈ h.paths, ∀ r ∈ p.head?, props.lookup r = none → globals r = none) :
    h.Resolved (.standalone sets globals) props := by
  intro _ p hp r hr
  rw [valueOf, hsets p hp r hr]
  cases hv : props.lookup r with
  | none => exact hglobals p hp r hr hv
  | some v => rfl

end Host

end Brust.Seeds
