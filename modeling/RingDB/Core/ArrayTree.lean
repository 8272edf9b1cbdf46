import Mathlib.Data.Nat.Notation
import Mathlib.Logic.Relation

/-!
# Search trees laid out in an array

The children of node `i` stand at `2 * i + 1` and `2 * i + 2`; a place may be empty.  `node i` is
the key and the value at place `i`, `order k` how the key `k` of a node compares with the one that
is looked for.  Keys and values are arbitrary, and no order of the nodes is assumed: the search
path is where the comparisons lead.

* `next` — one step down, `OnPath` — the places on the search path of the root.
* `Finds` — a node on the path has the key, with this value.
* **`OnPath.end_unique`** — a path has one end, from which follow `Finds.unique` and
  `OnPath.not_finds`.
-/

namespace Core

namespace ArrayTree

variable {κ ν : Type*}

/-- Where the search goes on behind place `i`, unless it ends there. -/
def next (node : ℕ → Option (κ × ν)) (order : κ → Ordering) (i : ℕ) : Option ℕ :=
  match node i with
  | none => none
  | some (k, _) =>
      match order k with
      | .eq => none
      | .gt => some (2 * i + 1)
      | .lt => some (2 * i + 2)

/-- Place `i` is on the search path of the root. -/
def OnPath (node : ℕ → Option (κ × ν)) (order : κ → Ordering) : ℕ → Prop :=
  Relation.ReflTransGen (fun i j => next node order i = some j) 0

/-- The search path has a node with the key, and `v` is the value there. -/
def Finds (node : ℕ → Option (κ × ν)) (order : κ → Ordering) (v : ν) : Prop :=
  ∃ i k, OnPath node order i ∧ node i = some (k, v) ∧ order k = .eq

variable {node : ℕ → Option (κ × ν)} {order : κ → Ordering} {i j : ℕ} {k : κ} {v : ν}

theorem onPath_root : OnPath node order 0 := Relation.ReflTransGen.refl

theorem next_of_eq (hn : node i = some (k, v)) (ho : order k = .eq) : next node order i = none := by
  simp only [next, hn, ho]

theorem next_of_none (hn : node i = none) : next node order i = none := by
  simp only [next, hn]

namespace OnPath

theorem left (h : OnPath node order i) (hn : node i = some (k, v)) (ho : order k = .gt) :
    OnPath node order (2 * i + 1) :=
  h.tail (by simp only [next, hn, ho])

theorem right (h : OnPath node order i) (hn : node i = some (k, v)) (ho : order k = .lt) :
    OnPath node order (2 * i + 2) :=
  h.tail (by simp only [next, hn, ho])

/-- From a place where the search ends it leads nowhere else. -/
theorem eq_of_end (h : Relation.ReflTransGen (fun i j => next node order i = some j) i j)
    (hi : next node order i = none) : i = j := by
  rcases h.cases_head with rfl | ⟨m, hm, -⟩
  · rfl
  · rw [hi] at hm
    cases hm

/-- **A search path has one end.** -/
theorem end_unique (hpi : OnPath node order i) (hpj : OnPath node order j)
    (hi : next node order i = none) (hj : next node order j = none) : i = j := by
  have hunique : Relator.RightUnique fun i j => next node order i = some j := by
    intro a b c hb hc
    rw [hb] at hc
    exact Option.some.inj hc
  rcases hpi.total_of_right_unique hunique hpj with h | h
  · exact eq_of_end h hi
  · exact (eq_of_end h hj).symm

/-- A path that comes to an empty place finds nothing. -/
theorem not_finds (h : OnPath node order i) (hn : node i = none) : ¬ Finds node order v := by
  rintro ⟨j, k, hj, hnj, ho⟩
  have hij := h.end_unique hj (next_of_none hn) (next_of_eq hnj ho)
  subst hij
  rw [hn] at hnj
  cases hnj

end OnPath

/-- There is at most one value to be found. -/
theorem Finds.unique {v' : ν} (h : Finds node order v) (h' : Finds node order v') : v = v' := by
  rcases h with ⟨i, k, hi, hni, ho⟩
  rcases h' with ⟨j, k', hj, hnj, ho'⟩
  have hij := hi.end_unique hj (next_of_eq hni ho) (next_of_eq hnj ho')
  subst hij
  rw [hni] at hnj
  cases hnj
  rfl

end ArrayTree

end Core
