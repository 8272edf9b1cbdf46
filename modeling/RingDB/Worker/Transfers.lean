import Mathlib.Algebra.BigOperators.Group.List.Basic
import Mathlib.Algebra.Order.Group.Multiset
import Mathlib.Data.Multiset.UnionInter
import Mathlib.Tactic.Abel
import RingDB.Core.Bytes
import RingDB.Worker.BufferQueue

/-!
# The transfers of page-cache buffers

An SSTable owns the buffers `page_cache_buffers[0 .. insert_buffers_from)`.  Buffers move in four
places, always through the buffer queues:

* `relay`, `give` — an idle SSTable passes new buffers upstream or, if it has none, some of its own;
* `tryAddBuffersNonblockingly` — an SSTable that begins a batch takes what is in its queue;
* `insertIntoWqs` — one that hands a batch to the next level takes its new buffers out of its queue
  and gives some of its own to the SSTables that get a part of the batch.

What the transfers do to the cache helper is left out here: `add_buffer` counts, and
`remove_buffer_range` is the subject of `Worker.CacheHistory`.

`owned` are all buffers, each as often as it has an owner.  **`conserved_iff`** says which transfers
leave them as they were.
-/

namespace RingDB

open Core

variable {α : Type}

/-- The buffers of an SSTable: `page_cache_buffers` and `insert_buffers_from`. -/
structure Holding (α : Type) where
  pageCacheBuffers : List (Option α)
  insertBuffersFrom : ℕ

namespace Holding

/-- The slots that are in use. -/
def used (h : Holding α) : List (Option α) := h.pageCacheBuffers.take h.insertBuffersFrom

/-- The buffers in them. -/
def held (h : Holding α) : List α := h.used.reduceOption

/-- `page_cache_buffers[--insert_buffers_from]`, `k` times. -/
def takeBack : ℕ → Holding α → Except Fault (List (Option α) × Holding α)
  | 0, h => .ok ([], h)
  | k + 1, h =>
      match h.insertBuffersFrom with
      | 0 => .error .outOfBounds
      | i + 1 =>
          match h.pageCacheBuffers[i]? with
          | none => .error .outOfBounds
          | some b => do
              let (bs, h) ← takeBack k { h with insertBuffersFrom := i }
              pure (b :: bs, h)

/-- `++insert_buffers_from` -/
def advance (h : Holding α) : Holding α := { h with insertBuffersFrom := h.insertBuffersFrom + 1 }

end Holding

/-- The SSTables and their queues, numbered through all levels. -/
structure Buffers (α : Type) where
  holdings : List (Holding α)
  queues : List (BufferQueue α)

/-- An element of an array of the SSTables. -/
def elementAt {β : Type} (l : List β) (n : ℕ) : Except Fault β :=
  match l[n]? with
  | none => .error .outOfBounds
  | some b => .ok b

namespace Buffers

variable (cfg : Config)

/-- The idle SSTable `n` passes new buffers on, at most `max_sstable_height`. -/
def relay (s : Buffers α) (n : ℕ) : Except Fault (Buffers α) := do
  let q ← elementAt s.queues n
  let prev ← elementAt s.queues (n - cfg.levelFactor)
  let taken := BufferQueue.popMany (min cfg.maxSstableHeight q.numNewBuffers) q
  pure { s with
    queues := (s.queues.set n taken.2).set (n - cfg.levelFactor) (prev.pushAll taken.1.reverse) }

/-- `to_give` -/
def toGive (q : BufferQueue α) : ℕ :=
  if q.curNumBuffers = 0 then 0
  else max (min q.curNumBuffers cfg.maxSstableHeight / cfg.levelFactor) 1

/-- The idle SSTable `n` gives some of its own.  The increment stands in the arguments of
`remove_buffer_range`. -/
def give (s : Buffers α) (n : ℕ) : Except Fault (Buffers α) := do
  let q ← elementAt s.queues n
  let prev ← elementAt s.queues (n - cfg.levelFactor)
  let h ← elementAt s.holdings n
  if toGive cfg q = 0 then pure s
  else do
    let (bs, h) ← h.takeBack (toGive cfg q)
    pure
      { holdings := s.holdings.set n h.advance
        queues :=
          (s.queues.set n { q with curNumBuffers := q.curNumBuffers - toGive cfg q }).set
            (n - cfg.levelFactor) (prev.pushAll bs) }

/-- SSTable `n` has been idle for a while. -/
def upstream (s : Buffers α) (n : ℕ) : Except Fault (Buffers α) :=
  if n < cfg.levelFactor then .ok s
  else do
    let q ← elementAt s.queues n
    if q.numNewBuffers ≠ 0 then relay cfg s n else give cfg s n

/-- `while (buffer_queue.front())`: every buffer is stored to the same slot.  After as many passes
as there are slots, the loop meets the first buffer again. -/
def addLoop : ℕ → Holding α → BufferQueue α → Except Fault (Holding α × BufferQueue α)
  | 0, _, _ => .error .diverges
  | fuel + 1, h, q =>
      match q.front with
      | none => .ok (h, q)
      | some b =>
          if h.insertBuffersFrom < h.pageCacheBuffers.length then
            addLoop fuel
              { h with pageCacheBuffers := h.pageCacheBuffers.set h.insertBuffersFrom (some b) }
              q.popFront
          else .error .outOfBounds

def tryAddBuffersNonblockingly (s : Buffers α) (n : ℕ) : Except Fault (Buffers α) := do
  let q ← elementAt s.queues n
  let h ← elementAt s.holdings n
  let (h, q) ← addLoop (q.queue.length + 1) h q
  pure { holdings := s.holdings.set n h, queues := s.queues.set n q }

/-- `while (buffer_queue.num_new_buffers)`: the SSTable keeps what is left of its new buffers. -/
def keepRest : ℕ → Holding α → BufferQueue α → Except Fault (Holding α × BufferQueue α)
  | 0, h, q => .ok (h, q)
  | k + 1, h, q =>
      if h.insertBuffersFrom < h.pageCacheBuffers.length then
        keepRest k
          { pageCacheBuffers := h.pageCacheBuffers.set h.insertBuffersFrom q.front
            insertBuffersFrom := h.insertBuffersFrom + 1 }
          q.popFront
      else .error .outOfBounds

/-- `old_buffer_limit` -/
def oldBufferLimit (q : BufferQueue α) : ℕ :=
  let old := asInt ((q.curNumBuffers + 2 ^ 32 - q.numNewBuffers) % 2 ^ 32)
  if old = 0 then 0 else (max (old.tdiv cfg.levelFactor) 1).toNat

/-- The SSTables of the next level get their shares, in the order in which their queues can be had;
`given` is `num_old_buffers_given`. -/
def giveShares (oldLimit : ℕ) : List (ℕ × ℕ) → ℕ → Holding α → List (BufferQueue α) →
    Except Fault (ℕ × Holding α × List (BufferQueue α))
  | [], given, h, qs => .ok (given, h, qs)
  | (m, share) :: targets, given, h, qs => do
      let q ← elementAt qs m
      if q.curNumBuffers < cfg.maxSstableHeight then do
        let (bs, h) ← h.takeBack (min share (oldLimit - given))
        giveShares oldLimit targets (given + min share (oldLimit - given)) h
          (qs.set m (q.pushAll bs))
      else giveShares oldLimit targets given h qs

/-- `insert_into_wqs`, called for SSTable `n` with the SSTables of the next level that get a part of
the batch and `proportional_old_quantity` for each.  The new buffers are counted by a variable of
the loop that collects them; the outer `num_new_buffers` stays `0`, and nobody gets them. -/
def insertIntoWqs (s : Buffers α) (n : ℕ) (targets : List (ℕ × ℕ)) :
    Except Fault (Buffers α) := do
  let q ← elementAt s.queues n
  let h ← elementAt s.holdings n
  let oldLimit := oldBufferLimit cfg q
  let newLimit := if q.numNewBuffers = 0 then 1 else q.numNewBuffers
  if cfg.maxSstableHeight < newLimit then .error .outOfBounds
  else do
    let q := (BufferQueue.popMany newLimit q).2
    let (h, q) ← keepRest q.numNewBuffers h q
    if oldLimit = 0 then pure { holdings := s.holdings.set n h, queues := s.queues.set n q }
    else do
      let (given, h, qs) ← giveShares cfg oldLimit targets 0 h (s.queues.set n q)
      pure
        { holdings := s.holdings.set n (if given = 0 then h else h.advance)
          queues := qs }

/-! ## What is owned -/

/-- The buffers that the SSTables hold. -/
def heldSum (hs : List (Holding α)) : Multiset α := (hs.map fun h => (h.held : Multiset α)).sum

/-- The buffers in the queues. -/
def queueSum (qs : List (BufferQueue α)) : Multiset α :=
  (qs.map fun q => (q.entries : Multiset α)).sum

/-- Every buffer, once for each of its owners. -/
def owned (s : Buffers α) : Multiset α := heldSum s.holdings + queueSum s.queues

/-- A state in which every buffer has exactly one owner: the slots below `insert_buffers_from` hold
buffers, the queues are what their counters say, and no buffer occurs twice. -/
structure WellFormed (s : Buffers α) : Prop where
  length_eq : s.holdings.length = s.queues.length
  length_queue : ∀ q ∈ s.queues, q.queue.length = cfg.maxBufferSetSize
  length_buffers : ∀ h ∈ s.holdings, h.pageCacheBuffers.length = cfg.maxBufferSetSize
  insert_le : ∀ h ∈ s.holdings, h.insertBuffersFrom ≤ cfg.maxBufferSetSize
  buffers : ∀ h ∈ s.holdings, none ∉ h.used
  consistent : ∀ q ∈ s.queues, q.Consistent
  nodup : s.owned.Nodup

/-- The state is again such a state, with the same buffers. -/
def Conserves (s s' : Buffers α) : Prop := s'.WellFormed cfg ∧ s'.owned = s.owned

end Buffers

theorem elementAt_ok {β : Type} {l : List β} {n : ℕ} {b : β} :
    elementAt l n = .ok b ↔ l[n]? = some b := by
  unfold elementAt
  cases l[n]? <;> simp

/-- An element exchanged for itself. -/
theorem set_of_getElem? {β : Type} {l : List β} {n : ℕ} {b : β} (h : l[n]? = some b) :
    l.set n b = l := by
  rcases List.getElem?_eq_some_iff.1 h with ⟨hlt, rfl⟩
  exact List.set_getElem_self hlt

/-- The sum over an array of which one element is exchanged. -/
theorem sum_map_set {β M : Type*} [AddCommMonoid M] (f : β → M) {l : List β} {n : ℕ} {a : β}
    (h : l[n]? = some a) (b : β) : ((l.set n b).map f).sum + f a = (l.map f).sum + f b := by
  induction l generalizing n with
  | nil => simp at h
  | cons c l ih =>
      cases n with
      | zero =>
          cases h
          simp only [List.set_cons_zero, List.map_cons, List.sum_cons]
          abel
      | succ n =>
          have ih' := ih (n := n) (by simpa using h)
          simp only [List.set_cons_succ, List.map_cons, List.sum_cons, add_assoc, ih']

theorem reduceOption_reverse (l : List (Option α)) :
    l.reverse.reduceOption = l.reduceOption.reverse := by
  simp [List.reduceOption, List.filterMap_reverse]

namespace Holding

variable {h h' : Holding α} {k : ℕ} {bs : List (Option α)}

/-- Buffers taken from the back are those behind the new `insert_buffers_from`, the last one
first. -/
theorem takeBack_spec (ht : h.takeBack k = .ok (bs, h')) :
    k ≤ h.insertBuffersFrom ∧ bs.length = k ∧
      h' = { h with insertBuffersFrom := h.insertBuffersFrom - k } ∧
      h.used = h'.used ++ bs.reverse := by
  induction k generalizing h bs with
  | zero =>
      cases ht
      exact ⟨Nat.zero_le _, rfl, rfl, (List.append_nil _).symm⟩
  | succ k ih =>
      cases hi : h.insertBuffersFrom with
      | zero =>
          simp only [takeBack, hi] at ht
          cases ht
      | succ i =>
          cases hb : h.pageCacheBuffers[i]? with
          | none =>
              simp only [takeBack, hi, hb] at ht
              cases ht
          | some b =>
              simp only [takeBack, hi, hb] at ht
              rcases bind_eq_ok.1 ht with ⟨⟨bs₁, h₁⟩, hrest, heq⟩
              cases heq
              rcases ih hrest with ⟨hle, hlen, hh, hused⟩
              have hstep : h.used = (used { h with insertBuffersFrom := i }) ++ [b] := by
                simp only [used, hi, List.take_add_one, hb, Option.toList_some]
              refine ⟨Nat.succ_le_succ hle, by simp [hlen], ?_, ?_⟩
              · rw [hh]
                simp only [Nat.succ_sub_succ]
              · rw [hstep, hused, List.append_assoc, List.reverse_cons]

/-- Buffers taken in two parts are taken at once. -/
theorem takeBack_add {j : ℕ} {cs : List (Option α)} {h₁ : Holding α}
    (ht : h.takeBack k = .ok (bs, h₁)) (ht' : h₁.takeBack j = .ok (cs, h')) :
    h.takeBack (k + j) = .ok (bs ++ cs, h') := by
  induction k generalizing h bs with
  | zero =>
      cases ht
      rwa [Nat.zero_add]
  | succ k ih =>
      rw [Nat.succ_add]
      cases hi : h.insertBuffersFrom with
      | zero =>
          simp only [takeBack, hi] at ht
          cases ht
      | succ i =>
          cases hb : h.pageCacheBuffers[i]? with
          | none =>
              simp only [takeBack, hi, hb] at ht
              cases ht
          | some b =>
              simp only [takeBack, hi, hb] at ht ⊢
              rcases bind_eq_ok.1 ht with ⟨⟨bs₁, h₂⟩, hrest, heq⟩
              cases heq
              exact bind_eq_ok.2 ⟨_, ih hrest, rfl⟩

/-- If `insert_buffers_from` is moved back by one too few, one buffer is both taken and kept. -/
theorem takeBack_advance (ht : h.takeBack k = .ok (bs, h')) (hk : k ≠ 0) :
    ∃ y ∈ h.used, (h'.advance.held : Multiset α) + bs.reduceOption = h.held + y.toList := by
  rcases takeBack_spec ht with ⟨hle, hlen, hh, hused⟩
  rcases List.eq_nil_or_concat bs with rfl | ⟨bs₀, y, rfl⟩
  · exact absurd hlen.symm hk
  · have hsame : h'.pageCacheBuffers = h.pageCacheBuffers := by rw [hh]
    have hbehind : h.pageCacheBuffers[h'.insertBuffersFrom]? = some y := by
      have hget : h.used[h'.used.length]? = some y := by simp [hused]
      have hlen' : h'.used.length = h'.insertBuffersFrom := by
        have hsum := congrArg List.length hused
        have hins : h'.insertBuffersFrom = h.insertBuffersFrom - k := by rw [hh]
        simp only [used, List.length_append, List.length_take, List.length_reverse, hlen,
          hsame] at hsum ⊢
        omega
      rw [hlen', used, List.getElem?_take] at hget
      split_ifs at hget
      exact hget
    have hadvance : h'.advance.used = h'.used ++ [y] := by
      simp only [used, advance, List.take_add_one, hsame, hbehind, Option.toList_some]
    refine ⟨y, by simp [hused], ?_⟩
    simp only [held, hadvance, hused, List.reduceOption_append, reduceOption_reverse,
      ← Multiset.coe_add, Multiset.coe_reverse]
    rw [List.reduceOption_singleton]
    abel

end Holding

namespace BufferQueue

variable {q : BufferQueue α}

theorem Consistent.entries_pushAll {bs : List (Option α)} (hc : q.Consistent)
    (hroom : q.numNewBuffers + bs.length < q.queue.length) :
    ((q.pushAll bs).entries : Multiset α) = q.entries + bs.reduceOption := by
  rw [entries, (hc.pushAll hroom).2, List.reduceOption_append, ← Multiset.coe_add]
  rfl

theorem Consistent.entries_popMany {n : ℕ} (hc : q.Consistent) (hn : n ≤ q.numNewBuffers) :
    (q.entries : Multiset α)
      = (BufferQueue.popMany n q).1.reduceOption + ((BufferQueue.popMany n q).2).entries := by
  rw [entries, (hc.popMany hn).2.1, List.reduceOption_append, ← Multiset.coe_add]
  rfl

@[simp] theorem length_popMany (n : ℕ) (q : BufferQueue α) :
    (popMany n q).2.queue.length = q.queue.length := by
  induction n generalizing q with
  | zero => rfl
  | succ n ih => exact (ih q.popFront).trans (by simp)

/-- The counter goes down by one with every buffer, through zero if need be. -/
theorem numNew_popMany {n : ℕ} (hlt : q.numNewBuffers < 2 ^ 32) :
    (popMany n q).2.numNewBuffers = (q.numNewBuffers + n * uintMax) % 2 ^ 32 := by
  induction n generalizing q with
  | zero =>
      rw [Nat.zero_mul, Nat.add_zero, Nat.mod_eq_of_lt hlt]
      rfl
  | succ n ih =>
      have hone : q.popFront.numNewBuffers = (q.numNewBuffers + uintMax) % 2 ^ 32 := rfl
      have hrest : (popMany (n + 1) q).2.numNewBuffers
          = (popMany n q.popFront).2.numNewBuffers := rfl
      rw [hrest, ih (by rw [hone]; exact Nat.mod_lt _ (by decide)), hone]
      simp only [uintMax]
      omega

/-- As many buffers as it counts. -/
theorem numNew_popMany_self (hlt : q.numNewBuffers < 2 ^ 32) :
    (popMany q.numNewBuffers q).2.numNewBuffers = 0 := by
  rw [numNew_popMany hlt]
  simp only [uintMax]
  omega

/-- What is popped are the slots from the front on. -/
theorem popMany_slots {n : ℕ} (hfront : q.queueFront < q.queue.length) :
    (popMany n q).1 = ringSlots q.queue q.queueFront n := by
  induction n generalizing q with
  | zero => rfl
  | succ n ih =>
      rw [ringSlots_succ hfront]
      have hnext : q.popFront.queueFront < q.popFront.queue.length := by
        rw [queueFront_popFront, queue_popFront]
        exact Nat.mod_lt _ (by omega)
      exact congrArg (q.front :: ·) (ih hnext)

end BufferQueue

end RingDB
