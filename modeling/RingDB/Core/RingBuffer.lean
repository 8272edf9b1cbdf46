import Mathlib.Data.List.Basic
import Mathlib.Data.Nat.ModEq

/-!
# The slots of a circular array

A circular array is a list of slots, some of them empty; index `i` behind `head` is slot
`(head + i) % length`.  `ringSlots` is what stands in the `count` slots from `head` on.
-/

namespace Core

variable {α : Type*}

/-- The contents of a slot; outside of the array there is nothing. -/
def slotAt (slots : List (Option α)) (i : ℕ) : Option α := slots[i]?.join

theorem slotAt_set_self {slots : List (Option α)} {i : ℕ} (h : i < slots.length) (b : Option α) :
    slotAt (slots.set i b) i = b := by
  simp [slotAt, List.getElem?_set_self h]

theorem slotAt_set_ne {i j : ℕ} (h : i ≠ j) (slots : List (Option α)) (b : Option α) :
    slotAt (slots.set i b) j = slotAt slots j := by
  rw [slotAt, List.getElem?_set_ne h, slotAt]

def ringSlots (slots : List (Option α)) (head count : ℕ) : List (Option α) :=
  (List.range count).map fun i => slotAt slots ((head + i) % slots.length)

/-- The first slot, and the slots from the next one on. -/
theorem ringSlots_succ {slots : List (Option α)} {head : ℕ} (h : head < slots.length) (count : ℕ) :
    ringSlots slots head (count + 1)
      = slotAt slots head :: ringSlots slots ((head + 1) % slots.length) count := by
  simp only [ringSlots, List.range_succ_eq_map, List.map_cons, List.map_map, Nat.add_zero,
    Nat.mod_eq_of_lt h]
  congr 1
  refine List.map_congr_left fun i _ => ?_
  show slotAt slots ((head + (i + 1)) % slots.length) = _
  rw [Nat.mod_add_mod, Nat.add_assoc, Nat.add_comm 1 i]

/-- Two indices less than a length apart are different slots. -/
theorem ring_ne (head : ℕ) {i j n : ℕ} (hij : i < j) (hj : j < n) :
    (head + i) % n ≠ (head + j) % n := by
  intro h
  have hmod : i % n = j % n := Nat.ModEq.add_left_cancel' head h
  rw [Nat.mod_eq_of_lt (hij.trans hj), Nat.mod_eq_of_lt hj] at hmod
  omega

/-- What is written to the slot behind the last one comes last. -/
theorem ringSlots_set {slots : List (Option α)} {head count : ℕ} (h : count < slots.length)
    (b : Option α) :
    ringSlots (slots.set ((head + count) % slots.length) b) head (count + 1)
      = ringSlots slots head count ++ [b] := by
  simp only [ringSlots, List.length_set, List.range_succ, List.map_append, List.map_cons,
    List.map_nil]
  congr 1
  · refine List.map_congr_left fun i hi => ?_
    have hne := ring_ne head (List.mem_range.1 hi) h
    exact slotAt_set_ne hne.symm slots b
  · have hlt : (head + count) % slots.length < slots.length := Nat.mod_lt _ (by omega)
    rw [slotAt_set_self hlt]

end Core
