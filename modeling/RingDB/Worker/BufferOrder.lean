import RingDB.Worker.BufferQueue
import RingDB.Core.Bytes
import RingDB.Core.Run

/-!
# The order of a buffer queue

Both indices of a buffer queue start at `0`, and `push_back` moves its index before it writes.  The
first buffer goes to slot `1`, and slot `0` is the first to be popped, so that `pop_front` is always
one buffer behind: it returns what it should have returned the time before, and at first what
happened to be in slot `0`.  Only in a full queue the slot that is popped next is the one that was
filled last.

* `Fifo` — the queue as it is meant, with the buffer that left it last.
* `InOrder` — the front is the oldest buffer and the counter counts the buffers.
* `Repeats` — the oldest buffer is the one that left last, or in a full queue the newest one.
* `Represents` — what the slots hold.
* **`inOrder_iff`** — a queue is in order along a run if and only if its buffers repeat all the way.
-/

namespace RingDB

open Core

namespace BufferQueue

variable {α : Type}

section Model

inductive QueueOp (α : Type) where
  | push (buffer : Option α)
  | pop

/-- A queue as constructed over slots that hold anything. -/
def constructed (slots : List (Option α)) (startNumBuffers : ℕ) : BufferQueue α :=
  ⟨slots, 0, 0, startNumBuffers, 0⟩

theorem new_eq (α : Type) (cfg : Config) : BufferQueue.new α cfg
    = constructed (List.replicate cfg.maxBufferSetSize none) cfg.maxSstableHeight := rfl

def apply (q : BufferQueue α) : QueueOp α → BufferQueue α
  | .push b => q.pushBack b
  | .pop => q.popFront

/-- The buffers that are queued, the oldest first, and the one that left last.  Before any did, that
is what slot `0` holds. -/
structure Fifo (α : Type) where
  last : Option α
  queued : List (Option α)

/-- Only operations that keep the occupancy between `0` and the length are considered. -/
def Fifo.step (length : ℕ) (f : Fifo α) : QueueOp α → Except Fault (Fifo α)
  | .push b =>
      if f.queued.length < length then .ok ⟨f.last, f.queued ++ [b]⟩ else .error .outOfBounds
  | .pop =>
      match f.queued with
      | [] => .error .outOfBounds
      | b :: queued => .ok ⟨b, queued⟩

/-- The queue of the source next to the one that is meant. -/
def stepBoth (length : ℕ) (s : BufferQueue α × Fifo α) (op : QueueOp α) :
    Except Fault (BufferQueue α × Fifo α) := do
  let f ← s.2.step length op
  pure (s.1.apply op, f)

/-- `front` and `pop_front` return the oldest buffer, and the counter counts the buffers. -/
def InOrder (s : BufferQueue α × Fifo α) : Prop :=
  s.1.numNewBuffers = s.2.queued.length ∧ ∀ b, s.2.queued.head? = some b → s.1.front = b

/-- The oldest buffer is the one that left last; in a full queue it is the newest one. -/
def Repeats (length : ℕ) (f : Fifo α) : Prop :=
  ∀ b, f.queued.head? = some b →
    if f.queued.length = length then f.queued.getLast? = some b else f.last = b

instance [DecidableEq α] (length : ℕ) (f : Fifo α) : Decidable (Repeats length f) :=
  inferInstanceAs (Decidable (∀ b ∈ f.queued.head?, if f.queued.length = length then _ else _))

end Model

section Representation

variable {length : ℕ} {q : BufferQueue α} {f f' : Fifo α}

/-- The buffers are behind the front.  The slot at the front has the buffer that left last, until a
further one is put there. -/
structure Represents (length : ℕ) (q : BufferQueue α) (f : Fifo α) : Prop where
  length_eq : q.queue.length = length
  front_lt : q.queueFront < length
  length_lt : length < 2 ^ 32
  queued_le : f.queued.length ≤ length
  numNew : q.numNewBuffers = f.queued.length
  back : q.back = (q.queueFront + f.queued.length) % length
  behind : ∀ i b, f.queued[i]? = some b → slotAt q.queue ((q.queueFront + 1 + i) % length) = b
  last : f.queued.length < length → slotAt q.queue q.queueFront = f.last

theorem represents_constructed {slots : List (Option α)} (hpos : 0 < slots.length)
    (hlt : slots.length < 2 ^ 32) (n : ℕ) :
    Represents slots.length (constructed slots n) ⟨slotAt slots 0, []⟩ where
  length_eq := rfl
  front_lt := hpos
  length_lt := hlt
  queued_le := Nat.zero_le _
  numNew := rfl
  back := (Nat.zero_mod _).symm
  behind := nofun
  last := fun _ => rfl

/-- What is at the front. -/
theorem Represents.front_eq (h : Represents length q f) :
    q.front = if f.queued.length = length then f.queued.getLast?.join else f.last := by
  have hlt := h.front_lt
  have hle := h.queued_le
  split_ifs with hfull
  · -- the last buffer is a whole round behind the front
    cases hlast : f.queued.getLast? with
    | none =>
        rw [List.getLast?_eq_none_iff] at hlast
        rw [hlast, List.length_nil] at hfull
        omega
    | some b =>
        rw [List.getLast?_eq_getElem?, hfull] at hlast
        have hslot := h.behind _ _ hlast
        rwa [show q.queueFront + 1 + (length - 1) = q.queueFront + length by omega,
          Nat.add_mod_right,
          Nat.mod_eq_of_lt hlt] at hslot
  · exact h.last (by omega)

/-- A queue is in order when its buffers repeat. -/
theorem Represents.inOrder_repeats (h : Represents length q f) :
    InOrder (q, f) ↔ Repeats length f := by
  have hfront := h.front_eq
  constructor
  · rintro ⟨-, horder⟩ b hb
    have hb' := horder b hb
    rw [show (q, f).1.front = q.front from rfl, hfront] at hb'
    split_ifs at hb' ⊢ with hfull
    · cases hlast : f.queued.getLast? with
      | none =>
          rw [List.getLast?_eq_none_iff] at hlast
          rw [show (q, f).2.queued = f.queued from rfl, hlast] at hb
          cases hb
      | some b' =>
          rw [hlast] at hb'
          exact congrArg some hb'
    · exact hb'
  · intro hrepeats
    refine ⟨h.numNew, fun b hb => ?_⟩
    have hb' := hrepeats b hb
    rw [show (q, f).1.front = q.front from rfl, hfront]
    split_ifs at hb' ⊢ with hfull
    · rw [hb']
      rfl
    · exact hb'

/-- A pushed buffer is behind the others.  Unless it fills the queue, its slot is not the one at the
front. -/
theorem Represents.push (h : Represents length q f) (hroom : f.queued.length < length)
    (b : Option α) : Represents length (q.pushBack b) ⟨f.last, f.queued ++ [b]⟩ := by
  have hlt := h.front_lt
  have hlen := h.length_lt
  have happend : (f.queued ++ [b]).length = f.queued.length + 1 := by simp
  have hback : (q.back + 1) % q.queue.length = (q.queueFront + 1 + f.queued.length) % length := by
    rw [h.back, h.length_eq, Nat.mod_add_mod, Nat.add_right_comm]
  have hqueue : (q.pushBack b).queue
      = q.queue.set ((q.queueFront + 1 + f.queued.length) % length) b := by
    rw [← hback]
    rfl
  have hslot : (q.queueFront + 1 + f.queued.length) % length < q.queue.length := by
    rw [h.length_eq]
    exact Nat.mod_lt _ (by omega)
  refine ⟨(length_pushBack q b).trans h.length_eq, hlt, hlen, ?_, ?_, ?_, fun i b' hb' => ?_,
    fun hmore => ?_⟩
  · rw [happend]
    exact hroom
  · rw [happend, ← h.numNew]
    exact Nat.mod_eq_of_lt (by rw [h.numNew]; omega)
  · rw [happend, ← Nat.add_assoc, Nat.add_right_comm]
    exact hback
  · rw [hqueue, queueFront_pushBack]
    rcases Nat.lt_trichotomy i f.queued.length with hi | rfl | hi
    · rw [List.getElem?_append_left hi] at hb'
      rw [slotAt_set_ne (ring_ne (q.queueFront + 1) hi hroom).symm]
      exact h.behind i b' hb'
    · rw [List.getElem?_concat_length] at hb'
      rw [slotAt_set_self hslot]
      exact Option.some.inj hb'
    · have hnone : (f.queued ++ [b])[i]? = none :=
        List.getElem?_eq_none (by rw [happend]; exact hi)
      cases hb'.symm.trans hnone
  · rw [happend] at hmore
    have hne := ring_ne q.queueFront (Nat.succ_pos f.queued.length) hmore
    rw [Nat.add_zero, Nat.mod_eq_of_lt hlt, Nat.succ_eq_one_add, ← Nat.add_assoc] at hne
    rw [hqueue, queueFront_pushBack, slotAt_set_ne hne.symm]
    exact h.last hroom

/-- The slot behind a popped buffer is the one it leaves last. -/
theorem Represents.pop {b : Option α} {queued : List (Option α)} (h : Represents length q f)
    (hqueued : f.queued = b :: queued) : Represents length q.popFront ⟨b, queued⟩ := by
  have hlen := h.length_lt
  have hle := h.queued_le
  have hnum := h.numNew
  have hlength : f.queued.length = queued.length + 1 := by
    rw [hqueued, List.length_cons]
  have hfront : q.popFront.queueFront = (q.queueFront + 1) % length := by
    rw [queueFront_popFront, h.length_eq]
  refine ⟨h.length_eq, ?_, hlen, ?_, ?_, ?_, fun i b' hb' => ?_, fun _ => ?_⟩
  · rw [hfront]
    exact Nat.mod_lt _ (by omega)
  · show queued.length ≤ length
    omega
  · show (q.numNewBuffers + uintMax) % 2 ^ 32 = queued.length
    simp only [uintMax]
    omega
  · rw [back_popFront, h.back, hfront, hlength, Nat.mod_add_mod, Nat.add_assoc, Nat.add_comm 1]
  · have hget : f.queued[i + 1]? = some b' := by
      rw [hqueued, List.getElem?_cons_succ]
      exact hb'
    have hindex : ((q.queueFront + 1) % length + 1 + i) % length
        = (q.queueFront + 1 + (i + 1)) % length := by
      rw [Nat.add_assoc, Nat.mod_add_mod, Nat.add_comm 1 i]
    rw [queue_popFront, hfront, hindex]
    exact h.behind _ b' hget
  · have hget : f.queued[0]? = some b := by rw [hqueued, List.getElem?_cons_zero]
    rw [queue_popFront, hfront]
    exact h.behind 0 b hget

theorem Represents.step {op : QueueOp α} (h : Represents length q f)
    (hstep : f.step length op = .ok f') : Represents length (q.apply op) f' := by
  cases op with
  | push b =>
      simp only [Fifo.step] at hstep
      split_ifs at hstep with hroom
      cases hstep
      exact h.push hroom b
  | pop =>
      simp only [Fifo.step] at hstep
      split at hstep
      · cases hstep
      · rename_i b queued hqueued
        cases hstep
        exact h.pop hqueued

end Representation

section Runs

variable {length : ℕ}

theorem stepBoth_ok_iff {q : BufferQueue α} {f : Fifo α} {op : QueueOp α}
    {s : BufferQueue α × Fifo α} :
    stepBoth length (q, f) op = .ok s ↔ ∃ f', f.step length op = .ok f' ∧ (q.apply op, f') = s := by
  rw [stepBoth, bind_eq_ok]
  exact exists_congr fun f' => and_congr_right fun _ => ⟨Except.ok.inj, congrArg _⟩

/-- The counter is right in every run. -/
theorem numNew_throughout {slots : List (Option α)} (hpos : 0 < slots.length)
    (hlt : slots.length < 2 ^ 32) (n : ℕ) (ops : List (QueueOp α)) :
    Throughout (stepBoth slots.length) (fun s => s.1.numNewBuffers = s.2.queued.length)
      (constructed slots n, ⟨slotAt slots 0, []⟩) ops := by
  refine (throughout_of_step (P := fun s => Represents slots.length s.1 s.2)
    (fun s op s' h hstep => ?_) (represents_constructed hpos hlt n)).mono fun _ h => h.numNew
  rcases stepBoth_ok_iff.1 hstep with ⟨f', hf', rfl⟩
  exact h.step hf'

/-- **The order of a buffer queue.**  For every length, whatever the slots hold at first, and every
sequence of `push_back` and `pop_front` that keeps the occupancy between `0` and the length: `front`
and `pop_front` return the oldest buffer all the way if and only if at every moment the oldest
buffer is the one that left last, or in a full queue the newest one. -/
theorem inOrder_iff {slots : List (Option α)} (hpos : 0 < slots.length)
    (hlt : slots.length < 2 ^ 32) (n : ℕ) (ops : List (QueueOp α)) :
    Throughout (stepBoth slots.length) InOrder (constructed slots n, ⟨slotAt slots 0, []⟩) ops
      ↔ Throughout (Fifo.step slots.length) (Repeats slots.length) ⟨slotAt slots 0, []⟩ ops := by
  refine throughout_iff_of_related (R := fun s f => s.2 = f ∧ Represents slots.length s.1 f)
    ?_ ?_ ?_ ⟨rfl, represents_constructed hpos hlt n⟩
  · rintro ⟨q, f⟩ _ ⟨rfl, h⟩
    exact h.inOrder_repeats
  · rintro ⟨q, f⟩ _ op s' ⟨rfl, h⟩ hstep
    rcases stepBoth_ok_iff.1 hstep with ⟨f', hf', rfl⟩
    exact ⟨f', hf', rfl, h.step hf'⟩
  · rintro ⟨q, f⟩ _ op f' ⟨rfl, h⟩ hf'
    exact ⟨(q.apply op, f'), stepBoth_ok_iff.2 ⟨f', hf', rfl⟩, rfl, h.step hf'⟩

/-- Three slots, and slot `0` happens to hold the buffer that is pushed first and again.  In the end
the queue is full, and its oldest buffer is its newest one. -/
theorem three_slots_inOrder :
    Throughout (stepBoth 3) InOrder (constructed [some 7, none, none] 0, ⟨some 7, []⟩)
      [.push (some 7), .push (some 7), .pop, .push (some 8), .push (some 7)] := by
  refine (@inOrder_iff ℕ [some 7, none, none] (by decide) (by decide) 0 _).2 ?_
  decide +kernel

/-- With two slots the first buffer is not at the front. -/
theorem two_slots_out_of_order :
    ¬ Throughout (stepBoth 2) InOrder (constructed [none, none] 0, ⟨none, []⟩)
      [.push (some 7)] := by
  intro h
  have horder := (h.2 _ rfl).start.2 (some 7) rfl
  cases horder

end Runs

end BufferQueue

end RingDB
