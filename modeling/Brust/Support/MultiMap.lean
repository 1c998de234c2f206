import Mathlib.Data.List.Basic
import Mathlib.Data.List.Nodup

/-!
# Support — maps of several values

A map from keys to values, each key with one or more of them, the keys in the order they came.
`write` gives a key its values, in its place or at the end; `insert` and `append` are its two uses.
What is written is read back (`getAll_write`), and every other key keeps its place and its values
(`others_write`).
-/

namespace Brust

structure MultiMap (κ β : Type) where
  entries : List (κ × List β)
  nodup : (entries.map (·.1)).Nodup
  nonempty : ∀ e ∈ entries, e.2 ≠ []

namespace MultiMap

variable {κ β : Type} [DecidableEq κ] (m : MultiMap κ β) (k : κ)

/-- The values of a key, in order. -/
def getAll : List β := ((m.entries.find? (·.1 = k)).map (·.2)).getD []

def containsKey : Bool := m.entries.any (·.1 = k)

/-- The entries of the other keys. -/
def others : List (κ × List β) := m.entries.filter (·.1 ≠ k)

/-- The entries with the values of one key written. -/
def written (vs : List β) : List (κ × List β) → List (κ × List β)
  | [] => [(k, vs)]
  | e :: l => if e.1 = k then (k, vs) :: l else e :: written vs l

section

variable {k} {vs : List β} {l : List (κ × List β)}

theorem keys_written (h : k ∉ l.map (·.1)) : (written k vs l).map (·.1) = l.map (·.1) ++ [k] := by
  induction l with
  | nil => rfl
  | cons e l ih =>
      rw [List.map_cons, List.mem_cons, not_or] at h
      rw [written, if_neg (Ne.symm h.1), List.map_cons, ih h.2, List.map_cons, List.cons_append]

theorem keys_written_of_mem (h : k ∈ l.map (·.1)) : (written k vs l).map (·.1) = l.map (·.1) := by
  induction l with
  | nil => exact absurd h List.not_mem_nil
  | cons e l ih =>
      by_cases he : e.1 = k
      · rw [written, if_pos he, List.map_cons, List.map_cons, he]
      · rw [List.map_cons, List.mem_cons] at h
        rw [written, if_neg he, List.map_cons, ih (h.resolve_left (Ne.symm he)), List.map_cons]

theorem nodup_written (h : (l.map (·.1)).Nodup) : ((written k vs l).map (·.1)).Nodup := by
  by_cases hk : k ∈ l.map (·.1)
  · rw [keys_written_of_mem hk]
    exact h
  · rw [keys_written hk]
    refine List.nodup_append.mpr ⟨h, List.nodup_singleton k, fun a ha b hb he => hk ?_⟩
    rwa [← List.mem_singleton.mp hb, ← he]

theorem mem_written {e : κ × List β} (h : e ∈ written k vs l) : e = (k, vs) ∨ e ∈ l := by
  induction l with
  | nil => exact .inl (List.mem_singleton.mp h)
  | cons d l ih =>
      rw [written] at h
      split at h
      · exact (List.mem_cons.mp h).imp_right (List.mem_cons_of_mem d)
      · rcases List.mem_cons.mp h with rfl | h
        · exact .inr List.mem_cons_self
        · exact (ih h).imp_right (List.mem_cons_of_mem d)

theorem find?_written : (written k vs l).find? (·.1 = k) = some (k, vs) := by
  induction l with
  | nil => exact List.find?_cons_of_pos (decide_eq_true rfl)
  | cons e l ih =>
      rw [written]
      split
      · exact List.find?_cons_of_pos (decide_eq_true rfl)
      · next he => rw [List.find?_cons_of_neg (by simpa using he), ih]

theorem filter_written (h : (l.map (·.1)).Nodup) :
    (written k vs l).filter (·.1 ≠ k) = l.filter (·.1 ≠ k) := by
  induction l with
  | nil => exact List.filter_cons_of_neg (by simp)
  | cons e l ih =>
      rw [List.map_cons, List.nodup_cons] at h
      rw [written]
      split
      · next he =>
        rw [List.filter_cons_of_neg (by simp), List.filter_cons_of_neg (by simpa using he)]
      · next he =>
        rw [List.filter_cons_of_pos (by simpa using he), List.filter_cons_of_pos
          (by simpa using he),
          ih h.2]

end

/-- Give a key its values. -/
def write (vs : List β) (h : vs ≠ []) : MultiMap κ β where
  entries := written k vs m.entries
  nodup := nodup_written m.nodup
  nonempty e he := (mem_written he).elim (fun heq => heq ▸ h) (m.nonempty e)

/-- `HeaderMap::insert`: the only value of the key. -/
def insert (v : β) : MultiMap κ β := m.write k [v] (List.cons_ne_nil v [])

/-- `HeaderMap::append`: one more value of the key. -/
def append (v : β) : MultiMap κ β :=
  m.write k (m.getAll k ++ [v]) (List.append_ne_nil_of_right_ne_nil _ (List.cons_ne_nil v []))

variable {m k}

@[simp] theorem getAll_write {vs : List β} {h : vs ≠ []} : (m.write k vs h).getAll k = vs := by
  rw [getAll, write, find?_written]
  rfl

@[simp] theorem others_write {vs : List β} {h : vs ≠ []} :
    (m.write k vs h).others k = m.others k := filter_written m.nodup

/-- A key with no value is not there. -/
theorem containsKey_iff : m.containsKey k = true ↔ m.getAll k ≠ [] := by
  rw [containsKey, getAll, List.any_eq_true]
  constructor
  · rintro ⟨e, he, hk⟩
    cases hfind : m.entries.find? (·.1 = k) with
    | none => exact absurd hk (List.find?_eq_none.mp hfind e he)
    | some d => exact m.nonempty d (List.mem_of_find?_eq_some hfind)
  · intro h
    cases hfind : m.entries.find? (·.1 = k) with
    | none =>
        rw [hfind] at h
        exact absurd rfl h
    | some d =>
        have hd := List.find?_some (p := fun e : κ × List β => decide (e.1 = k)) hfind
        exact ⟨d, List.mem_of_find?_eq_some hfind, hd⟩

end MultiMap

end Brust
