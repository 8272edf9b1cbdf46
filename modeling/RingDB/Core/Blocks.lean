import Mathlib.Data.List.OfFn
import Mathlib.Tactic.Common

/-!
# Blocks of a list

A list is cut into blocks of one size, the last of which may be shorter.

* `flatten_blocks`, `block_flatten` — a list of `n` blocks is the same as `n` lists of that size.
* `take_block_append`, `take_block_last` — the beginning of a block while the list grows.
-/

namespace Core

variable {α : Type*} {size k : ℕ} {l : List α}

/-- Block `k`, counted from zero. -/
def block (size k : ℕ) (l : List α) : List α := (l.drop (k * size)).take size

theorem length_flatten_ofFn {n : ℕ} {f : Fin n → List α} (h : ∀ m, (f m).length = size) :
    (List.ofFn f).flatten.length = n * size := by
  have hconst : List.length ∘ f = fun _ => size := funext h
  rw [List.length_flatten, List.map_ofFn, hconst, List.ofFn_const, List.sum_replicate_nat]

/-- A list of `n` blocks consists of its blocks. -/
theorem flatten_blocks {n : ℕ} (h : l.length = n * size) :
    (List.ofFn fun m : Fin n => block size m l).flatten = l := by
  induction n generalizing l with
  | zero =>
      rw [Nat.zero_mul, List.length_eq_zero_iff] at h
      rw [h, List.ofFn_zero, List.flatten_nil]
  | succ n ih =>
      have hrest : (l.drop size).length = n * size := by
        rw [List.length_drop, h, Nat.succ_mul, Nat.add_sub_cancel]
      have hblocks : ∀ m : Fin n, block size m.succ l = block size m (l.drop size) := by
        intro m
        rw [block, block, List.drop_drop, Fin.val_succ, Nat.succ_mul, Nat.add_comm]
      rw [List.ofFn_succ, List.flatten_cons]
      simp only [hblocks]
      rw [ih hrest, block, Fin.val_zero, Nat.zero_mul, List.drop_zero, List.take_append_drop]

/-- Lists of one size that are put one behind the other are the blocks of the whole. -/
theorem block_flatten {n : ℕ} {f : Fin n → List α} (h : ∀ m, (f m).length = size) (m : Fin n) :
    block size m (List.ofFn f).flatten = f m := by
  induction n with
  | zero => exact m.elim0
  | succ n ih =>
      have hfirst : (f 0).length = size := h 0
      rw [List.ofFn_succ, List.flatten_cons, block]
      cases m using Fin.cases with
      | zero => rw [Fin.val_zero, Nat.zero_mul, List.drop_zero, List.take_left' hfirst]
      | succ m =>
          have hskip : m.succ.val * size = (f 0).length + m * size := by
            rw [Fin.val_succ, Nat.succ_mul, hfirst, Nat.add_comm]
          rw [hskip, List.drop_length_add_append]
          exact ih (fun m => h m.succ) m

/-- One more element behind the beginning of a block. -/
theorem take_block_append {n : ℕ} (a : α) (hn : n ≤ size) (hk : k * size + n ≤ l.length) :
    (block size k (l ++ [a])).take n = (block size k l).take n := by
  have hle : k * size ≤ l.length := by omega
  rw [block, block, List.take_take, List.take_take, Nat.min_eq_left hn,
    List.drop_append_of_le_length hle, List.take_append_of_le_length]
  rw [List.length_drop]
  omega

/-- The block that the last elements are in. -/
theorem take_block_last {n : ℕ} (hn : n ≤ size) (hlen : l.length = k * size + n) :
    (block size k l).take n = l.drop (k * size) := by
  rw [block, List.take_take, Nat.min_eq_left hn]
  refine List.take_of_length_le ?_
  rw [List.length_drop]
  omega

end Core
