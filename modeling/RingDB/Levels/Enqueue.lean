import RingDB.Levels.Decompose
import RingDB.Requests.WaitQueue

/-!
# Enqueuing a decomposition

`insert_into_wqs` decomposes a batch and pushes the parts onto the wait queues of the level's
SSTables.  Its loop runs until it has counted as many pushes as there are parts, the catch-all
among them; but the catch-all is pushed only behind another part, onto the same queue.  A
decomposition that consists of the catch-all alone is therefore never worked off.

The part of the function that moves page cache buffers between levels is left out: it touches no
wait queue, and does not exist for the first level.  A compare-and-exchange on a producer guard
succeeds when the guard is 0.  Single-threaded queues look at no guard.

* **`pass_single`** — a pass over the queues pushes the only part there is and leaves the rest
  alone.
* **`enqueueLoop_catchAll`** — with the catch-all alone it never ends.
-/

namespace RingDB

open Core

variable {cfg : Config}

/-- The variables of the loop. -/
structure Enqueue where
  queues : List WaitQueue
  inserted : List Bool
  couldContendWithConsumer : List Bool
  /-- `batches[LEVEL_FACTOR]`, which the loop sets to null. -/
  catchAll : Option ℕ
  numQueued : ℕ

namespace Enqueue

/-- `batches[i]` for the SSTables of the level. -/
def part (d : Decomposition cfg) (i : ℕ) : Option ℕ := d.slots.data[i]?.join

/-- After a successful push: the catch-all rides on the same queue. -/
def ride (st : Enqueue) (wq : WaitQueue) : Except Fault (WaitQueue × ℕ) :=
  match st.catchAll with
  | none => .ok (wq, st.numQueued + 1)
  | some c => do
      let wq ← wq.standardPushBack c
      pure (wq, st.numQueued + 2)

/-- The push onto queue `i`, with the producer guard held. -/
def push (st : Enqueue) (i p : ℕ) (wq : WaitQueue) : Except Fault Enqueue := do
  let (wq, pushed) ← wq.tryPushBack p (st.couldContendWithConsumer.getD i false)
  let st := { st with couldContendWithConsumer := st.couldContendWithConsumer.set i !pushed }
  if pushed then
    let (wq, numQueued) ← st.ride wq
    pure { st with
      queues := st.queues.set i (if wq.isSingleThread then wq else { wq with producerGuard := 1 })
      inserted := st.inserted.set i true
      catchAll := none
      numQueued }
  else
    pure { st with
      queues := st.queues.set i (if wq.isSingleThread then wq else { wq with producerGuard := 1 }) }

/-- One value of `i`. -/
def offer (d : Decomposition cfg) (i : ℕ) (st : Enqueue) : Except Fault Enqueue :=
  match st.queues[i]? with
  | none => .error .outOfBounds
  | some wq =>
      match part d i with
      | none => .ok st
      | some p =>
          if st.inserted.getD i false then .ok st
          else if wq.isSingleThread then st.push i p wq
          else if wq.producerGuard = 0 then st.push i p { wq with producerGuard := 1 }
          else .ok st

/-- The inner loop, for `n` values of `i` from `i` on. -/
def pass (d : Decomposition cfg) : ℕ → ℕ → Enqueue → Except Fault Enqueue
  | 0, _, st => .ok st
  | n + 1, i, st => do
      let st ← offer d i st
      pass d n (i + 1) st

/-- `while (num_queued < decomp.num_req_batches)`, observed for `fuel` passes. -/
def enqueueLoop (d : Decomposition cfg) : ℕ → Enqueue → Except Fault Enqueue
  | 0, st => if st.numQueued < d.numReqBatches then .error .diverges else .ok st
  | fuel + 1, st =>
      if st.numQueued < d.numReqBatches then do
        let st ← pass d cfg.levelFactor 0 st
        enqueueLoop d fuel st
      else .ok st

/-- The state before the loop.  `could_contend_with_consumer` is left as the stack has it: the loop
that is to initialise it writes to the place behind its end, `LEVEL_FACTOR` times. -/
def start (d : Decomposition cfg) (queues : List WaitQueue) (stale : List Bool) : Enqueue where
  queues := queues
  inserted := List.replicate cfg.levelFactor false
  couldContendWithConsumer := stale
  catchAll := part d cfg.levelFactor
  numQueued := 0

end Enqueue

open Enqueue

/-- What `insert_into_wqs` does with a decomposition: the proportions, each an integer division by
the decomposition's size, then the loop. -/
def enqueue (d : Decomposition cfg) (fuel : ℕ) (queues : List WaitQueue) (stale : List Bool) :
    Except Fault (List WaitQueue) :=
  if d.totalDecompSize = 0 then .error .divByZero
  else Enqueue.queues <$> enqueueLoop d fuel (start d queues stale)

/-! ## The shapes of a decomposition -/

namespace Enqueue

theorem offer_null {d : Decomposition cfg} {i : ℕ} {st : Enqueue} (hi : i < st.queues.length)
    (h : part d i = none) : offer d i st = .ok st := by
  simp only [offer, List.getElem?_eq_getElem hi, h]

/-- A pass over null parts does nothing. -/
theorem pass_null {d : Decomposition cfg} {st : Enqueue} {n i : ℕ}
    (hlen : i + n ≤ st.queues.length) (h : ∀ j, i ≤ j → j < i + n → part d j = none) :
    pass d n i st = .ok st := by
  induction n generalizing i with
  | zero => rfl
  | succ n ih =>
      rw [pass, offer_null (by omega) (h i (Nat.le_refl _) (by omega))]
      exact ih (by omega) fun j h₁ h₂ => h j (by omega) (by omega)

theorem pass_add {d : Decomposition cfg} {st st' : Enqueue} {m n i : ℕ}
    (h : pass d m i st = .ok st') : pass d (m + n) i st = pass d n (i + m) st' := by
  induction m generalizing i st with
  | zero =>
      cases h
      rw [Nat.zero_add, Nat.add_zero]
  | succ m ih =>
      rcases bind_eq_ok.1 h with ⟨st₁, hoffer, h⟩
      rw [Nat.succ_add, pass, hoffer, ← Nat.add_assoc, Nat.add_right_comm]
      exact ih h

/-- Where one part is not null, a pass is the push of that part. -/
theorem pass_single {d : Decomposition cfg} {st st' : Enqueue} {n i : ℕ} (hi : i < n)
    (hlen : n ≤ st.queues.length) (hlen' : n ≤ st'.queues.length)
    (h : ∀ j < n, j ≠ i → part d j = none) (hoffer : offer d i st = .ok st') :
    pass d n 0 st = .ok st' := by
  have hbefore : pass d i 0 st = .ok st :=
    pass_null (by omega) fun j _ hj => h j (by omega) (by omega)
  have hsplit : n = i + (n - i - 1 + 1) := by omega
  rw [hsplit, pass_add hbefore, Nat.zero_add, pass, hoffer]
  exact pass_null (by omega) fun j h₁ h₂ => h j (by omega) (by omega)

/-- **The catch-all alone is never pushed**, and the loop never ends. -/
theorem enqueueLoop_catchAll {d : Decomposition cfg} {st : Enqueue}
    (hnull : ∀ j < cfg.levelFactor, part d j = none) (hcount : st.numQueued < d.numReqBatches)
    (hlen : cfg.levelFactor ≤ st.queues.length) (fuel : ℕ) :
    enqueueLoop d fuel st = .error .diverges := by
  induction fuel with
  | zero => rw [enqueueLoop, if_pos hcount]
  | succ fuel ih =>
      rw [enqueueLoop, if_pos hcount,
        pass_null (by omega) fun j _ hj => hnull j (by omega)]
      exact ih

end Enqueue

end RingDB
