import Mathlib.Data.List.ReduceOption
import RingDB.Config
import RingDB.Core.RingBuffer

/-!
# The buffer queue of an SSTable

Page-cache buffers travel between SSTables through a `BufferQueue` per SSTable, a circular array
with the index of the next slot to be taken, the index of the last slot that was filled, and two
counters.  Both indices start at `0`, so the first buffer is pushed to slot `1` while slot `0` is
the first to be taken: a queue of `num_new_buffers` buffers has one slot more between its indices,
and it is that slot that `pop_front` returns first.  `entries` are the buffers from the front slot
to the back slot, all that later calls of `pop_front` can still return.

`push_back` does not look whether there is room, nor `pop_front` whether there is anything.
-/

namespace RingDB

open Core

/-- `BufferQueue`, over any type of pointers.  `none` is a null pointer. -/
structure BufferQueue (α : Type) where
  queue : List (Option α)
  queueFront : ℕ
  back : ℕ
  curNumBuffers : ℕ
  numNewBuffers : ℕ

namespace BufferQueue

variable {α : Type}

/-- A queue as constructed, over slots that hold nothing. -/
def new (α : Type) (cfg : Config) : BufferQueue α where
  queue := List.replicate cfg.maxBufferSetSize none
  queueFront := 0
  back := 0
  curNumBuffers := cfg.maxSstableHeight
  numNewBuffers := 0

def front (q : BufferQueue α) : Option α := slotAt q.queue q.queueFront

def pushBack (q : BufferQueue α) (buffer : Option α) : BufferQueue α where
  queue := q.queue.set ((q.back + 1) % q.queue.length) buffer
  queueFront := q.queueFront
  back := (q.back + 1) % q.queue.length
  curNumBuffers := (q.curNumBuffers + 1) % 2 ^ 32
  numNewBuffers := (q.numNewBuffers + 1) % 2 ^ 32

/-- `pop_front` returns `front`; the queue it leaves. -/
def popFront (q : BufferQueue α) : BufferQueue α :=
  { q with
    queueFront := (q.queueFront + 1) % q.queue.length
    curNumBuffers := (q.curNumBuffers + uintMax) % 2 ^ 32
    numNewBuffers := (q.numNewBuffers + uintMax) % 2 ^ 32 }

/-- Buffers pushed one after the other. -/
def pushAll (q : BufferQueue α) (buffers : List (Option α)) : BufferQueue α :=
  buffers.foldl pushBack q

/-- `n` buffers popped: what they are, and the queue they leave. -/
def popMany : ℕ → BufferQueue α → List (Option α) × BufferQueue α
  | 0, q => ([], q)
  | n + 1, q => (q.front :: (popMany n q.popFront).1, (popMany n q.popFront).2)

/-- The slots from the front to the back. -/
def slots (q : BufferQueue α) : List (Option α) :=
  ringSlots q.queue q.queueFront (q.numNewBuffers + 1)

/-- The buffers in them. -/
def entries (q : BufferQueue α) : List α := q.slots.reduceOption

/-- The indices and the counter agree, and no slot is used twice.  A counter is also used as an
`int`. -/
structure Consistent (q : BufferQueue α) : Prop where
  front_lt : q.queueFront < q.queue.length
  length_le : q.queue.length ≤ 2 ^ 31
  numNew_lt : q.numNewBuffers < q.queue.length
  back_eq : q.back = (q.queueFront + q.numNewBuffers) % q.queue.length

variable {q : BufferQueue α}

@[simp] theorem queueFront_pushBack (q : BufferQueue α) (b : Option α) :
    (q.pushBack b).queueFront = q.queueFront := rfl

@[simp] theorem queue_popFront (q : BufferQueue α) : q.popFront.queue = q.queue := rfl

@[simp] theorem back_popFront (q : BufferQueue α) : q.popFront.back = q.back := rfl

@[simp] theorem queueFront_popFront (q : BufferQueue α) :
    q.popFront.queueFront = (q.queueFront + 1) % q.queue.length := rfl

@[simp] theorem length_pushBack (q : BufferQueue α) (b : Option α) :
    (q.pushBack b).queue.length = q.queue.length := by simp [pushBack]

@[simp] theorem length_pushAll (q : BufferQueue α) (bs : List (Option α)) :
    (q.pushAll bs).queue.length = q.queue.length := by
  induction bs generalizing q with
  | nil => rfl
  | cons b bs ih =>
      show (pushAll (q.pushBack b) bs).queue.length = _
      rw [ih, length_pushBack]

theorem numNew_pushBack (hc : q.Consistent) (b : Option α) :
    (q.pushBack b).numNewBuffers = q.numNewBuffers + 1 := by
  have h₁ := hc.length_le
  have h₂ := hc.numNew_lt
  exact Nat.mod_eq_of_lt (by omega)

/-- With room for it, a pushed buffer comes last. -/
theorem Consistent.pushBack (hc : q.Consistent) (hroom : q.numNewBuffers + 1 < q.queue.length)
    (b : Option α) :
    (q.pushBack b).Consistent ∧ (q.pushBack b).slots = q.slots ++ [b] := by
  have hnum := numNew_pushBack hc b
  have hback : (q.back + 1) % q.queue.length
      = (q.queueFront + (q.numNewBuffers + 1)) % q.queue.length := by
    rw [hc.back_eq, Nat.mod_add_mod, Nat.add_assoc]
  constructor
  · exact
      { front_lt := by simpa using hc.front_lt
        length_le := by simpa using hc.length_le
        numNew_lt := by simpa [hnum] using hroom
        back_eq := by
          rw [hnum, length_pushBack]
          exact hback }
  · rw [slots, hnum]
    show ringSlots (q.queue.set ((q.back + 1) % q.queue.length) b) q.queueFront _ = _
    rw [hback, ringSlots_set hroom]
    rfl

/-- With room for them, pushed buffers come last, in their order. -/
theorem Consistent.pushAll {bs : List (Option α)} (hc : q.Consistent)
    (hroom : q.numNewBuffers + bs.length < q.queue.length) :
    (q.pushAll bs).Consistent ∧ (q.pushAll bs).slots = q.slots ++ bs := by
  induction bs generalizing q with
  | nil => exact ⟨hc, (List.append_nil _).symm⟩
  | cons b bs ih =>
      rw [List.length_cons] at hroom
      rcases hc.pushBack (by omega) b with ⟨hc', hslots⟩
      have hnum := numNew_pushBack hc b
      rcases ih hc' (by rw [hnum, length_pushBack]; omega) with ⟨hc'', hslots'⟩
      exact ⟨hc'', by rw [show q.pushAll (b :: bs) = (q.pushBack b).pushAll bs from rfl, hslots',
        hslots, List.append_assoc, List.singleton_append]⟩

/-- Without, the queue is overfull. -/
theorem Consistent.pushAll_room {bs : List (Option α)} (hc : q.Consistent)
    (hlen : bs.length ≤ 2 ^ 31) (hc' : (q.pushAll bs).Consistent) :
    q.numNewBuffers + bs.length < q.queue.length := by
  have hnum : ∀ {bs : List (Option α)} {q : BufferQueue α},
      q.numNewBuffers + bs.length < 2 ^ 32 →
      (q.pushAll bs).numNewBuffers = q.numNewBuffers + bs.length := by
    intro bs
    induction bs with
    | nil => exact fun _ => rfl
    | cons b bs ih =>
        intro q hlt
        rw [List.length_cons] at hlt
        have hone : (q.pushBack b).numNewBuffers = q.numNewBuffers + 1 :=
          Nat.mod_eq_of_lt (by omega)
        show ((q.pushBack b).pushAll bs).numNewBuffers = _
        rw [ih (by omega), hone, List.length_cons]
        omega
  have h₁ := hc.length_le
  have h₂ := hc.numNew_lt
  have h₃ := hc'.numNew_lt
  rw [hnum (by omega), length_pushAll] at h₃
  exact h₃

/-- As long as the counter is positive, what is popped comes first. -/
theorem Consistent.popFront (hc : q.Consistent) (hpos : 0 < q.numNewBuffers) :
    q.popFront.Consistent ∧ q.slots = q.front :: q.popFront.slots ∧
      q.popFront.numNewBuffers = q.numNewBuffers - 1 := by
  have h₁ := hc.length_le
  have h₂ := hc.numNew_lt
  have hnum : q.popFront.numNewBuffers = q.numNewBuffers - 1 := by
    simp only [BufferQueue.popFront, uintMax]
    omega
  refine ⟨?_, ?_, hnum⟩
  · exact
      { front_lt := by
          rw [queueFront_popFront, queue_popFront]
          exact Nat.mod_lt _ (by omega)
        length_le := by rwa [queue_popFront]
        numNew_lt := by
          rw [hnum, queue_popFront]
          exact lt_of_le_of_lt (Nat.sub_le _ _) h₂
        back_eq := by
          have hsum : q.queueFront + 1 + (q.numNewBuffers - 1)
              = q.queueFront + q.numNewBuffers := by omega
          rw [hnum, queue_popFront, back_popFront, queueFront_popFront, hc.back_eq,
            Nat.mod_add_mod, hsum] }
  · have hsum : q.numNewBuffers - 1 + 1 = q.numNewBuffers := by omega
    rw [slots, slots, hnum, hsum, queue_popFront, queueFront_popFront,
      ringSlots_succ hc.front_lt]
    rfl

theorem Consistent.popMany {n : ℕ} (hc : q.Consistent) (hn : n ≤ q.numNewBuffers) :
    (popMany n q).2.Consistent ∧ q.slots = (popMany n q).1 ++ (popMany n q).2.slots ∧
      (popMany n q).2.numNewBuffers = q.numNewBuffers - n ∧ (popMany n q).1.length = n := by
  induction n generalizing q with
  | zero => exact ⟨hc, rfl, rfl, rfl⟩
  | succ n ih =>
      rcases hc.popFront (by omega) with ⟨hc', hslots, hnum⟩
      rcases ih hc' (by omega) with ⟨hc'', hslots', hnum', hlen⟩
      refine ⟨hc'', ?_, ?_, ?_⟩
      · rw [hslots, hslots']
        rfl
      · show (BufferQueue.popMany n q.popFront).2.numNewBuffers = _
        rw [hnum', hnum]
        omega
      · show (BufferQueue.popMany n q.popFront).1.length + 1 = n + 1
        rw [hlen]

end BufferQueue

end RingDB
