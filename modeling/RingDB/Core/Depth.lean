import Mathlib.Data.List.Basic
import Mathlib.Logic.Function.Iterate

/-!
# The depth of a traversal

A traversal keeps the nodes that are still to be visited on a stack.  A visit takes the newest one
off and puts its children on.  Nothing here is about a particular tree: the nodes, their children
and the measure `height` are arbitrary.

* `HasRoom` — below every node of the stack there are so few others that its height fits on them.
* **`HasRoom.iterate`** — if the children of a node have room in its height, that is kept.
-/

namespace Core

variable {α : Type*}

/-- One visit.  The newest node is the first one. -/
def visit (children : α → List α) : List α → List α
  | [] => []
  | q :: rest => children q ++ rest

/-- The nodes are in `P`, and each has room for its height on the nodes below it. -/
def HasRoom (P : α → Prop) (height : α → ℕ) (room : ℕ) : List α → Prop
  | [] => True
  | q :: rest => P q ∧ rest.length + height q ≤ room ∧ HasRoom P height room rest

variable {P : α → Prop} {height : α → ℕ} {children : α → List α}

@[simp] theorem visit_nil : visit children [] = [] := rfl

@[simp] theorem visit_cons (q : α) (rest : List α) :
    visit children (q :: rest) = children q ++ rest := rfl

/-- A traversal that has ended stays there. -/
theorem iterate_visit_nil (k : ℕ) : (visit children)^[k] [] = [] :=
  Function.iterate_fixed visit_nil k

theorem HasRoom.singleton {q : α} {room : ℕ} (hq : P q) (hroom : height q ≤ room) :
    HasRoom P height room [q] :=
  ⟨hq, by simpa using hroom, trivial⟩

/-- Nodes that have room on their own have it on top of others as well, if the others leave it. -/
theorem HasRoom.append {room own : ℕ} {top rest : List α} (htop : HasRoom P height own top)
    (hrest : HasRoom P height room rest) (hle : rest.length + own ≤ room) :
    HasRoom P height room (top ++ rest) := by
  induction top with
  | nil => exact hrest
  | cons q top ih =>
      have hown := htop.2.1
      refine ⟨htop.1, ?_, ih htop.2.2⟩
      show (top ++ rest).length + height q ≤ room
      rw [List.length_append]
      omega

/-- A visit keeps it. -/
theorem HasRoom.visit {room : ℕ}
    (hchildren : ∀ q, P q → HasRoom P height (height q) (children q)) :
    ∀ {stack : List α}, HasRoom P height room stack → HasRoom P height room (visit children stack)
  | [], h => h
  | q :: _, ⟨hq, hroom, hrest⟩ => (hchildren q hq).append hrest hroom

theorem HasRoom.iterate {room : ℕ}
    (hchildren : ∀ q, P q → HasRoom P height (height q) (children q)) {stack : List α}
    (h : HasRoom P height room stack) :
    ∀ k, HasRoom P height room ((Core.visit children)^[k] stack)
  | 0 => h
  | k + 1 => by
      rw [Function.iterate_succ_apply']
      exact (h.iterate hchildren k).visit hchildren

/-- Every node counts for one at least, so the stack is no deeper than its room. -/
theorem HasRoom.length_le {room : ℕ} (hpos : ∀ q, 0 < height q) {stack : List α}
    (h : HasRoom P height room stack) : stack.length ≤ room := by
  cases stack with
  | nil => exact Nat.zero_le _
  | cons q rest =>
      have hroom := h.2.1
      have := hpos q
      rw [List.length_cons]
      omega

end Core
