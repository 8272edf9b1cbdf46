import RingDB.Requests.MemtableImage
import RingDB.Worker.TreeRead

/-!
# The traversal of a batch

The requests of a batch are sorted by key, and a search is meant to go through them as through a
search tree: the middle one first, then those of its left half, then those of its right half.  The
stack is read here as the last-in-first-out stack that it is meant to be.

`push_top` fills a slot with an offset, a request and the two ends of an interval, and the search
loop takes the first two as they were stored.  `move_down_to_children` takes the first three numbers
for a request and the ends of its interval.  The slot that the worker pushes begins with the offset
`0`, so there the request is the first one of an interval that begins at the middle and ends at `0`,
and it has no children: `moveDownToChildrenWith_root`.

* `moveDownToChildrenWith` — the function over a stack that is read through a parameter; with
  `Stack.top` it is `moveDownToChildren`.
* `Walk`, `finishRequest`, `walk` — the traversal, whatever the searches come to.
* **`walk_covers_iff`** — it reaches every request if and only if there is only one.
-/

namespace RingDB

open Core

namespace Stack

variable {length : ℕ}

/-- The slots above those that were there before the top one was popped. -/
def pushedOnto (before after : Stack length) : List Quad :=
  (after.data.take after.back).drop (before.back - 1)

theorem pushTop_back {st st' : Stack length} {q : Quad} (h : st.pushTop q = .ok st') :
    st'.back = st.back + 1 := by
  unfold pushTop at h
  split_ifs at h
  cases h
  rfl

/-- A push onto an empty stack. -/
theorem pushTop_back_of_empty {st st' : Stack length} {q : Quad} (hempty : st.back = 0)
    (h : st.pushTop q = .ok st') : st'.back = 1 := by
  rw [pushTop_back h, hempty]

theorem pushTop_ok_iff {st : Stack length} {q : Quad} :
    (∃ st', st.pushTop q = .ok st') ↔ st.back < length := by
  unfold pushTop
  split_ifs with h
  · simp [h]
  · simp [h]

/-- Popping the only slot leaves an empty stack. -/
theorem popTop_back_of_one {st : Stack length} (h : st.back = 1) : st.popTop.back = 0 := by
  simp [popTop, h]

end Stack

namespace SSTableInfo

variable {cfg : Config} (top : Stack cfg.maxSstableHeight → Except Fault Quad)

/-- `moveDownToChildren`, with the top of the stack read by `top`. -/
def moveDownToChildrenWith (heap : Heap cfg) (mem : Memory) (t : SSTableInfo cfg) :
    Except Fault (SSTableInfo cfg) := do
  let q ← top t.stack
  let t := { t with stack := t.stack.popTop }
  let t ← (if rightChild q > q.1 then t.pushChild heap mem (rightChild q) q.1 q.2.2.1 else pure t)
  if leftChild q < q.1 then t.pushChild heap mem (leftChild q) q.2.1 q.1 else pure t

/-- The traversal that the source has. -/
theorem moveDownToChildrenWith_top (heap : Heap cfg) (mem : Memory) (t : SSTableInfo cfg) :
    t.moveDownToChildrenWith Stack.top heap mem = t.moveDownToChildren heap mem := rfl

/-- The state of a traversal: the requests that were current, and the slots that were pushed for
their children, each with the offset where the search of the parent ended. -/
structure Walk (cfg : Config) where
  table : SSTableInfo cfg
  visited : List ℕ := []
  pushed : List (ℕ × Quad) := []

/-- The search for the current request ends at offset `e.2`, with memory `e.1`, and its children go
on the stack.  The search reads the key of the request. -/
def finishRequest (heap : Heap cfg) (w : Walk cfg) (e : Memory × ℕ) : Except Fault (Walk cfg) := do
  let q ← top w.table.stack
  let pool ← w.table.pool heap
  let _ ← requestBuffer pool q.2.1
  let t ← { w.table with desiredSstableOffset := e.2 }.moveDownToChildrenWith top heap e.1
  pure { table := t
         visited := w.visited ++ [q.2.1]
         pushed := w.pushed ++ (w.table.stack.pushedOnto t.stack).map (e.2, ·) }

/-- One request after the other until the stack is empty, observed for `fuel` requests.  The search
for the `k`th request ends as `ends k` says. -/
def walk (heap : Heap cfg) (ends : ℕ → Memory × ℕ) : ℕ → Walk cfg → Except Fault (Walk cfg)
  | 0, w => if w.table.stack.empty then .ok w else .error .diverges
  | fuel + 1, w =>
      if w.table.stack.empty then .ok w
      else do
        let w ← finishRequest top heap w (ends w.visited.length)
        walk heap ends fuel w

/-- The traversal of a batch of `length` requests, from the slot that the worker pushes. -/
def walkBatch (heap : Heap cfg) (ends : ℕ → Memory × ℕ) (fuel length : ℕ) (t : SSTableInfo cfg) :
    Except Fault (Walk cfg) := do
  let stack ← t.stack.pushTop (0, length / 2, 0, length)
  walk top heap ends fuel { table := { t with desiredSstableOffset := 0, stack } }

/-- Every request of the batch became the current one and no others did, every child was pushed with
the offset where the search of its parent ended, and nothing is left on the stack. -/
structure Covers (length : ℕ) (w : Walk cfg) : Prop where
  visited : ∀ i, i ∈ w.visited ↔ i < length
  offsets : ∀ p ∈ w.pushed, p.2.1 = p.1
  empty : w.table.stack.empty = true

variable {top} {heap : Heap cfg} {mem : Memory} {t : SSTableInfo cfg}

/-- **The slot that the worker pushes has no children**: the offset in it, `0`, is taken for the
request. -/
theorem moveDownToChildrenWith_root {m right : ℕ} (hq : top t.stack = .ok (0, m, 0, right)) :
    t.moveDownToChildrenWith top heap mem = .ok { t with stack := t.stack.popTop } := by
  simp only [moveDownToChildrenWith, hq, bind, Except.bind]
  have hright : ¬ rightChild (0, m, 0, right) > 0 := by simp [rightChild]
  simp only [if_neg hright, pure, Except.pure]
  rw [if_neg (Nat.not_lt_zero _)]

/-- The request in the middle, from the slot that the worker pushes. -/
theorem finishRequest_root {b : ReadWritePool} (hpool : t.pool heap = .ok b)
    (hpos : 0 < b.entries.length) (hback : t.stack.back = 1)
    (htop : top t.stack = .ok (0, b.entries.length / 2, 0, b.entries.length)) (e : Memory × ℕ) :
    finishRequest top heap { table := t } e
      = .ok { table := { t with desiredSstableOffset := e.2, stack := t.stack.popTop }
              visited := [b.entries.length / 2] } := by
  have hmiddle : requestBuffer b (b.entries.length / 2)
      = .ok b.entries[b.entries.length / 2].buffer := by
    simp only [requestBuffer, List.getElem?_eq_getElem (Nat.div_lt_self hpos Nat.one_lt_two)]
  have hmove := @moveDownToChildrenWith_root cfg top heap e.1
    { t with desiredSstableOffset := e.2 } _ _ htop
  have hnone : t.stack.pushedOnto t.stack.popTop = [] := by
    simp [Stack.pushedOnto, Stack.popTop_back_of_one hback]
  simp only [finishRequest, htop, hpool, hmiddle, hmove, hnone, bind, Except.bind, pure,
    Except.pure, List.nil_append, List.map_nil]

/-- So the traversal ends with the first request. -/
theorem walk_root {ends : ℕ → Memory × ℕ} {b : ReadWritePool} (hpool : t.pool heap = .ok b)
    (hpos : 0 < b.entries.length) (hback : t.stack.back = 1)
    (htop : top t.stack = .ok (0, b.entries.length / 2, 0, b.entries.length)) (fuel : ℕ) :
    walk top heap ends (fuel + 1) { table := t }
      = .ok { table := { t with desiredSstableOffset := (ends 0).2, stack := t.stack.popTop }
              visited := [b.entries.length / 2] } := by
  have hfull : t.stack.empty = false := by simp [Stack.empty, hback]
  have hdone : t.stack.popTop.empty = true := by
    simp [Stack.empty, Stack.popTop_back_of_one hback]
  rw [walk, if_neg (by simp [hfull])]
  simp only [List.length_nil, finishRequest_root hpool hpos hback htop (ends 0), bind, Except.bind]
  cases fuel with
  | zero => simp only [walk, hdone, if_true]
  | succ fuel => simp only [walk, hdone, if_true]

/-- **What a traversal comes to.**  It needs a slot on the stack, and visits the request in the
middle. -/
theorem walkBatch_ok_iff {ends : ℕ → Memory × ℕ} {b : ReadWritePool} {w : Walk cfg}
    (hpool : t.pool heap = .ok b) (hpos : 0 < b.entries.length) (hempty : t.stack.back = 0) :
    (∃ fuel, walkBatch Stack.topLifo heap ends fuel b.entries.length t = .ok w) ↔
      ∃ stack, t.stack.pushTop (0, b.entries.length / 2, 0, b.entries.length) = .ok stack ∧
        w = { table := { t with desiredSstableOffset := (ends 0).2, stack := stack.popTop }
              visited := [b.entries.length / 2] } := by
  constructor
  · rintro ⟨fuel, h⟩
    rcases bind_eq_ok.1 h with ⟨stack, hpush, h⟩
    refine ⟨stack, hpush, ?_⟩
    have hback := Stack.pushTop_back_of_empty hempty hpush
    cases fuel with
    | zero => simp [walk, Stack.empty, hback] at h
    | succ fuel =>
        rw [walk_root (t := { t with desiredSstableOffset := 0, stack }) hpool hpos hback
          (Stack.topLifo_pushTop hpush)] at h
        exact (Except.ok.inj h).symm
  · rintro ⟨stack, hpush, rfl⟩
    have hback := Stack.pushTop_back_of_empty hempty hpush
    refine ⟨1, ?_⟩
    simp only [walkBatch, hpush, bind, Except.bind]
    exact walk_root (t := { t with desiredSstableOffset := 0, stack }) hpool hpos hback
      (Stack.topLifo_pushTop hpush) 0

end SSTableInfo

open SSTableInfo

/-- **When every request is reached.**  For every batch of reads with at least one request and
wherever the searches end: the traversal ends, having visited exactly the requests of the batch, if
and only if the batch has only one and the stack has room for it. -/
theorem walk_covers_iff {cfg : Config} {heap : Heap cfg} {t : SSTableInfo cfg} {b : ReadWritePool}
    (hpool : t.pool heap = .ok b) (hpos : 1 ≤ b.entries.length) (hempty : t.stack.back = 0)
    (ends : ℕ → Memory × ℕ) :
    (∃ fuel w, walkBatch Stack.topLifo heap ends fuel b.entries.length t = .ok w ∧
        Covers b.entries.length w)
      ↔ b.entries.length = 1 ∧ 0 < cfg.maxSstableHeight := by
  constructor
  · rintro ⟨fuel, w, hw, hcovers⟩
    rcases (walkBatch_ok_iff hpool hpos hempty).1 ⟨fuel, hw⟩ with ⟨stack, hpush, rfl⟩
    have hfirst := (hcovers.visited 0).2 hpos
    have hlast := (hcovers.visited (b.entries.length - 1)).2 (by omega)
    rw [List.mem_singleton] at hfirst hlast
    refine ⟨by omega, ?_⟩
    rw [← hempty]
    exact Stack.pushTop_ok_iff.1 ⟨stack, hpush⟩
  · rintro ⟨hone, hroom⟩
    rcases Stack.pushTop_ok_iff.2 (hempty ▸ hroom : t.stack.back < cfg.maxSstableHeight)
      with ⟨stack, hpush⟩
    rcases (@walkBatch_ok_iff cfg heap t ends b _ hpool hpos hempty).2 ⟨stack, hpush, rfl⟩
      with ⟨fuel, hw⟩
    refine ⟨fuel, _, hw, ?_, ?_, ?_⟩
    · intro i
      rw [List.mem_singleton, hone]
      omega
    · exact fun p hp => absurd hp List.not_mem_nil
    · have hback := Stack.pushTop_back_of_empty hempty hpush
      simp [Stack.empty, Stack.popTop_back_of_one hback]

/-- A batch of `n` reads for the key `a`, and an SSTable that has taken it. -/
def readsOf (n : ℕ) : RequestBatch shippedConfig :=
  { RequestBatch.zeroed shippedConfig .read with
    readwritePool := { entries := (List.range n).map fun i => ⟨.read, 0, 0, 8 * i⟩ } }

def takenBy : SSTableInfo shippedConfig :=
  { SSTableInfo.new (Stack.zeroed _) with reqBatch := some 0 }

/-- One request is found. -/
theorem walk_covers_single : ∃ fuel w,
    walkBatch Stack.topLifo [readsOf 1] (fun _ => (fun _ => 97, 5)) fuel 1 takenBy = .ok w ∧
      Covers 1 w :=
  (walk_covers_iff (b := (readsOf 1).readwritePool) (t := takenBy) rfl (by decide) rfl
    fun _ => (fun _ => 97, 5)).2 ⟨rfl, by decide⟩

/-- Of two requests the first is never looked for. -/
theorem walk_skips_first : ¬ ∃ fuel w,
    walkBatch Stack.topLifo [readsOf 2] (fun _ => (fun _ => 97, 0)) fuel 2 takenBy = .ok w ∧
      Covers 2 w := by
  rintro ⟨fuel, w, hw, hcovers⟩
  rcases (walkBatch_ok_iff (b := (readsOf 2).readwritePool) (t := takenBy) rfl (by decide) rfl).1
    ⟨fuel, hw⟩ with ⟨stack, -, rfl⟩
  have hfirst : 0 ∈ [1] := (hcovers.visited 0).2 Nat.two_pos
  exact absurd hfirst (by decide)

end RingDB
