import Mathlib.Data.List.ReduceOption
import RingDB.Requests.QueueOrder

/-!
# The wait queue of one thread

With `is_single_thread` the counter and the guards play no part, and a pop of the empty queue is a
null pointer.  `stepFifo` is the queue that the wait queue is meant to be: a list, to whose end
batches are pushed and from whose front they are popped.

`Agrees` relates the two.  `back` may dangle once the queue was drained: `Holds []` says nothing
about it, and the next push sets it again.

* `stepQueue_agrees` — one operation.
* **`single_thread_fifo`** — all of them.
-/

namespace RingDB

open Core

namespace WaitQueue

/-- A list as a queue, with what its operations returned. -/
structure Fifo where
  queued : List ℕ := []
  accepted : List ℕ := []
  popped : List (Option ℕ) := []

/-- Every push is accepted, and a pop returns the oldest batch, or nothing if there is none. -/
def stepFifo (s : Fifo) : QueueOp → Fifo
  | .push reqBatch _ =>
      { s with queued := s.queued ++ [reqBatch], accepted := s.accepted ++ [reqBatch] }
  | .pop => { s with queued := s.queued.tail, popped := s.popped ++ [s.queued.head?] }

/-- The constructed queue of one thread.  Its `back` was never set. -/
def freshSingleThread (back : Option ℕ) : Trace where
  queue := { back, isSingleThread := true }

/-- The single-threaded queue holds what the list holds, and returned what the list returned. -/
structure Agrees (t : Trace) (s : Fifo) : Prop where
  oneThread : t.queue.isSingleThread = true
  holds : t.queue.Holds s.queued
  accepted : t.accepted = s.accepted
  popped : t.popped = s.popped

theorem agrees_fresh (back : Option ℕ) : Agrees (freshSingleThread back) {} :=
  ⟨rfl, .inl ⟨rfl, rfl⟩, rfl, rfl⟩

variable {q : WaitQueue} {t : Trace} {s : Fifo}

/-- Through whichever function a batch is pushed, the push is done. -/
theorem pushBack_holds {l : List ℕ} (h : q.Holds l) (hs : q.isSingleThread = true) (reqBatch : ℕ)
    (how : Push) :
    ∃ q', q.pushBack reqBatch how = .ok (q', true) ∧ q'.Holds (l ++ [reqBatch])
      ∧ q'.isSingleThread = true := by
  cases how with
  | standard =>
      rcases standardPushBack_holds h reqBatch hs with ⟨q', hpush, hholds, hs'⟩
      exact ⟨q', by simp [pushBack, hpush], hholds, hs'⟩
  | contended => exact tryPushBack_holds h reqBatch true hs
  | uncontended => exact tryPushBack_holds h reqBatch false hs

/-- A pop of the empty queue changes nothing. -/
theorem popFront_holds_nil (h : q.Holds []) (hs : q.isSingleThread = true) :
    q.popFront = .ok (q, none) := by
  rw [popFront, if_pos hs, if_pos (h.front_eq_none.2 rfl)]

/-- One operation on the wait queue is the operation on the list. -/
theorem stepQueue_agrees (h : Agrees t s) (op : QueueOp) :
    ∃ t', stepQueue t op = .ok t' ∧ Agrees t' (stepFifo s op) := by
  cases op with
  | push reqBatch how =>
      rcases pushBack_holds h.holds h.oneThread reqBatch how with ⟨q', hpush, hholds, hs⟩
      refine ⟨{ t with queue := q', accepted := t.accepted ++ [reqBatch] }, ?_, hs, hholds, ?_,
        h.popped⟩
      · simp [stepQueue, hpush, bind, Except.bind, pure, Except.pure]
      · simp [stepFifo, h.accepted]
  | pop =>
      rcases hq : s.queued with _ | ⟨r, l⟩
      · refine ⟨{ t with popped := t.popped ++ [none] }, ?_, h.oneThread, ?_, h.accepted, ?_⟩
        · simp [stepQueue, popFront_holds_nil (hq ▸ h.holds) h.oneThread, bind, Except.bind, pure,
            Except.pure]
        · have hholds := h.holds
          rw [hq] at hholds
          simpa [stepFifo, hq] using hholds
        · simp [stepFifo, hq, h.popped]
      · rcases popFront_holds (hq ▸ h.holds) h.oneThread with ⟨q', hpop, hholds, hs⟩
        refine ⟨{ t with queue := q', popped := t.popped ++ [some r] }, ?_, hs, ?_, h.accepted, ?_⟩
        · simp [stepQueue, hpop, bind, Except.bind, pure, Except.pure]
        · simpa [stepFifo, hq] using hholds
        · simp [stepFifo, hq, h.popped]

/-- The operations on both, from agreeing states. -/
theorem runEvents_agrees (h : Agrees t s) (ops : List QueueOp) :
    ∃ t', runEvents stepQueue t ops = .ok t' ∧ Agrees t' (ops.foldl stepFifo s) := by
  induction ops generalizing t s with
  | nil => exact ⟨t, rfl, h⟩
  | cons op ops ih =>
      rcases stepQueue_agrees h op with ⟨t₁, hstep, h₁⟩
      rcases ih h₁ with ⟨t', hrun, h'⟩
      exact ⟨t', by rw [runEvents_cons_ok hstep, hrun], h'⟩

/-- The batches of a list of operations that are pushed. -/
def pushedBatches (ops : List QueueOp) : List ℕ :=
  ops.filterMap fun
    | .push reqBatch _ => some reqBatch
    | .pop => none

/-- A list as a queue loses nothing and changes no order. -/
theorem foldl_stepFifo (s : Fifo) (ops : List QueueOp) :
    (ops.foldl stepFifo s).accepted = s.accepted ++ pushedBatches ops ∧
    (s.popped.reduceOption ++ s.queued = s.accepted →
      (ops.foldl stepFifo s).popped.reduceOption ++ (ops.foldl stepFifo s).queued
        = (ops.foldl stepFifo s).accepted) := by
  induction ops generalizing s with
  | nil => simp [pushedBatches]
  | cons op ops ih =>
      rcases ih (stepFifo s op) with ⟨haccepted, horder⟩
      cases op with
      | push reqBatch how =>
          refine ⟨?_, fun hs => horder ?_⟩
          · rw [List.foldl_cons, haccepted]
            simp [stepFifo, pushedBatches]
          · simp [stepFifo, ← hs]
      | pop =>
          refine ⟨?_, fun hs => horder ?_⟩
          · rw [List.foldl_cons, haccepted]
            simp [stepFifo, pushedBatches]
          · rcases hq : s.queued with _ | ⟨r, l⟩
            · simpa [stepFifo, hq, List.reduceOption_append] using hs
            · simpa [stepFifo, hq, List.reduceOption_append] using hs

/-- **A single-threaded wait queue is a queue.**  Whatever is done to it, every operation has an
outcome, the pops return what those of a list return, every push is accepted, and the batches that
were returned, followed by those still in the queue, are those that were pushed, in this order. -/
theorem single_thread_fifo (back : Option ℕ) (ops : List QueueOp) :
    ∃ t, runEvents stepQueue (freshSingleThread back) ops = .ok t ∧
      t.popped = (ops.foldl stepFifo {}).popped ∧
      t.accepted = pushedBatches ops ∧
      t.queue.Holds (ops.foldl stepFifo {}).queued ∧
      t.popped.reduceOption ++ (ops.foldl stepFifo {}).queued = pushedBatches ops := by
  rcases runEvents_agrees (agrees_fresh back) ops with ⟨t, hrun, h⟩
  rcases foldl_stepFifo {} ops with ⟨haccepted, horder⟩
  rw [List.nil_append] at haccepted
  refine ⟨t, hrun, h.popped, h.accepted.trans haccepted, h.holds, ?_⟩
  rw [h.popped, ← haccepted]
  exact horder rfl

end WaitQueue

end RingDB
