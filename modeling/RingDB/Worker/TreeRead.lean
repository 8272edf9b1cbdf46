import RingDB.Requests.Batch
import RingDB.Worker.CacheHelper

/-!
# Searching an SSTable for a batch of reads

`try_sstable_tree_read_in_memory` walks the requests of a batch in preorder and the entries of
the file from the root down, for as long as the page cache holds what it needs; otherwise it
submits a read, sets `waiting_on_io` and leaves.  The same function is called again when the read
is reported, with the flag still set.

* `moveDownToChildren` — the current request is done; its children go on the stack.  It takes the
  first three numbers of the slot for the request and its interval, where `push_top` stored the
  offset first.
* `readPass` — one pass of the loop, `readLoop` — the loop,
  `trySstableTreeReadInMemory` — the function.
* **`tryRead_fresh`** — called on an SSTable that does not wait, with a request on the stack, it
  leaves the flag set exactly if it submitted a read.
* **`tryRead_resumed`** — called with the flag set, it makes a single pass whatever that pass
  finds out.
-/

namespace RingDB

open Core

/-- A completion: the submission's `user_data` and its result. -/
structure Cqe where
  userData : ℕ
  res : ℤ
  deriving DecidableEq, Repr

/-- The buffers that an SSTable owns, `page_cache_buffers[0 .. insert_buffers_from)`, and the
account of what they hold. -/
structure PageCache (cfg : Config) where
  helper : CacheHelper cfg
  buffers : List Bytes

/-- `SSTableInfo`.  The wait queue is the list of the batches in it, `ring` the completion queue
of `io_ring`. -/
structure SSTableInfo (cfg : Config) where
  reqBatchWq : List ℕ
  isFlushedTo : Bool
  cache : PageCache cfg
  stack : Stack cfg.maxSstableHeight
  reqBatch : Option ℕ
  waitingOnIo : Bool
  alreadyWaited : Bool
  desiredSstableOffset : ℕ
  ring : List Cqe

namespace Config

/-- `round_to_block_size_multiple`, for a `BLOCK_SIZE` above `1`. -/
def roundToBlockSizeMultiple (cfg : Config) (i : ℕ) : ℕ :=
  i - (i &&& (2 ^ 63 - 2 ^ (Nat.log2 cfg.blockSize - 1)))

end Config

namespace SSTableInfo

variable {cfg : Config}

/-- The constructor, over the stack slots that the allocator left. -/
def new (stack : Stack cfg.maxSstableHeight) : SSTableInfo cfg where
  reqBatchWq := []
  isFlushedTo := false
  cache := { helper := CacheHelper.new cfg, buffers := [] }
  stack := stack.reset
  reqBatch := none
  waitingOnIo := false
  alreadyWaited := false
  desiredSstableOffset := sizeMax - 1
  ring := []

/-- `req_batch->content.readwrite_pool` -/
def pool (heap : Heap cfg) (t : SSTableInfo cfg) : Except Fault ReadWritePool :=
  match t.reqBatch with
  | none => .error .nullDeref
  | some p => do
      let b ← heap.deref p
      pure b.readwritePool

/-- The socket buffer of `data[i]`. -/
def requestBuffer (pool : ReadWritePool) (i : ℕ) : Except Fault ℕ :=
  match pool.entries[i]? with
  | none => .error .wildPointer
  | some c => .ok c.buffer

/-- Push `child` unless its key is null. -/
def pushChild (heap : Heap cfg) (mem : Memory) (t : SSTableInfo cfg) (child left right : ℕ) :
    Except Fault (SSTableInfo cfg) := do
  let pool ← t.pool heap
  let buffer ← requestBuffer pool child
  if keyAt cfg mem buffer = nulBytes cfg.keyLength then pure t
  else
    let stack ← t.stack.pushTop (t.desiredSstableOffset % 2 ^ 32, child, left, right)
    pure { t with stack }

/-- `(left + cur_request) >> 1` -/
def leftChild : Quad → ℕ
  | (cur, left, _, _) => (left + cur) % 2 ^ 32 / 2

/-- `(cur_request + right) >> 1` -/
def rightChild : Quad → ℕ
  | (cur, _, right, _) => (cur + right) % 2 ^ 32 / 2

/-- `move_down_to_children` -/
def moveDownToChildren (heap : Heap cfg) (mem : Memory) (t : SSTableInfo cfg) :
    Except Fault (SSTableInfo cfg) := do
  let q ← t.stack.top
  let t := { t with stack := t.stack.popTop }
  let t ← (if rightChild q > q.1 then t.pushChild heap mem (rightChild q) q.1 q.2.2.1 else pure t)
  if leftChild q < q.1 then t.pushChild heap mem (leftChild q) q.2.1 q.1 else pure t

/-- The search loop inside one buffer, from entry `index` on: where it ends and the last `res`.
A null key ends it with the `res` of the pass before, so the `res` of the end is `0` only at an
equal key, and the branch for an empty place in the tree is never taken. -/
def searchBuffer (cfg : Config) (buffer : Bytes) (key : Except Fault Bytes) (numEntries : ℕ) :
    ℕ → ℕ → Option Ordering → Except Fault (ℕ × Option Ordering)
  | 0, _, _ => .error .diverges
  | fuel + 1, index, res =>
      if index < numEntries then do
        let entry ← readAt buffer (index * cfg.memtableEntryLength) cfg.keyLength
        if entry = nulBytes cfg.keyLength then pure (index, res)
        else do
          let key' ← key
          match memcmp entry key' with
          | .eq => pure (index, some .eq)
          | .gt => searchBuffer cfg buffer key numEntries fuel ((2 * index + 1) % 2 ^ 32) (some .gt)
          | .lt => searchBuffer cfg buffer key numEntries fuel ((2 * index + 2) % 2 ^ 32) (some .lt)
      else pure (index, res)

/-- The search of the buffer at `location` for request `cur`. -/
def searchCached (heap : Heap cfg) (mem : Memory) (t : SSTableInfo cfg) (location : CacheLocation)
    (cur : ℕ) : Except Fault (ℕ × Option Ordering) := do
  let pool ← t.pool heap
  match t.cache.buffers[location.bufferId]? with
  | none => .error .wildPointer
  | some buffer =>
      let numEntries := (location.right - location.left) / cfg.memtableEntryLength % 2 ^ 32
      searchBuffer cfg buffer (keyAt cfg mem <$> requestBuffer pool cur) numEntries
        (numEntries + 1) ((t.desiredSstableOffset - location.left) % 2 ^ 32) none

/-- The SSTable after a pass, the memory with the values copied out, and the reads submitted: file
offset and buffer of each. -/
structure ReadState (cfg : Config) where
  table : SSTableInfo cfg
  mem : Memory
  issued : Option (List (ℕ × ℕ)) := none

/-- The branch for an offset that is in a buffer.  A search that made no comparison leaves `res`
unset. -/
def continueCached (heap : Heap cfg) (mem : Memory) (t : SSTableInfo cfg)
    (location : CacheLocation) (cur : ℕ) : Except Fault (ReadState cfg) := do
  let (index, res) ← t.searchCached heap mem location cur
  match res with
  | none => .error .uninitialised
  | some .eq => do
      let pool ← t.pool heap
      let buffer ← requestBuffer pool cur
      let entries := t.cache.buffers.getD location.bufferId []
      let value ← readAt entries (index * cfg.memtableEntryLength + cfg.keyLength) cfg.valueLength
      let mem := store mem (buffer + 5 + cfg.keyLength) value
      let t ← t.moveDownToChildren heap mem
      pure { table := t, mem }
  | some _ =>
      pure { table := { t with desiredSstableOffset := (index + location.left) % 2 ^ 64 }, mem }

/-- The reads for an offset that is in no buffer: one at the rounded offset, and one more, twice as
far, if two buffers are free. -/
def readsFor (helper : CacheHelper cfg) (offset : ℕ) : List (ℕ × ℕ) :=
  let boundary := cfg.roundToBlockSizeMultiple offset
  let ahead :=
    if boundary = 0 then cfg.fairAlignedSstablePageCacheBufferSize else boundary * 2 % 2 ^ 64
  if helper.freeBuffersLeft = 2 ∧ ahead < helper.curMinInvalidOffset then
    [(boundary, helper.nextBuffer), (ahead, helper.nextBuffer + 1)]
  else [(boundary, helper.nextBuffer)]

/-- The branch that submits them, after the oldest buffer was given up if none was free. -/
def issueRead (t : SSTableInfo cfg) : Except Fault (SSTableInfo cfg × List (ℕ × ℕ)) := do
  let helper ← (if t.cache.helper.freeBuffersLeft = 0
    then t.cache.helper.replenishLeastRecentlySelectedBuffer else pure t.cache.helper)
  if ∀ r ∈ readsFor helper t.desiredSstableOffset, r.2 < t.cache.buffers.length then
    pure ({ t with cache := { t.cache with helper }, waitingOnIo := true },
      readsFor helper t.desiredSstableOffset)
  else .error .wildPointer

/-- One pass of the loop. -/
def readPass (heap : Heap cfg) (mem : Memory) (t : SSTableInfo cfg) :
    Except Fault (ReadState cfg) :=
  if t.cache.helper.curMinInvalidOffset ≤ t.desiredSstableOffset then do
    let t ← t.moveDownToChildren heap mem
    pure { table := t, mem }
  else do
    let q ← t.stack.top
    let t := { t with desiredSstableOffset := q.1 }
    let _ ← t.pool heap
    let location ← t.cache.helper.getBufferInfo q.1
    if location.left = sizeMax then do
      let (t, reads) ← t.issueRead
      pure { table := t, mem, issued := some reads }
    else t.continueCached heap mem location q.2.1

/-- `do … while (!(stack.empty() || waiting_on_io))`, observed for `fuel` passes. -/
def readLoop (heap : Heap cfg) : ℕ → Memory → SSTableInfo cfg → Except Fault (ReadState cfg)
  | 0, _, _ => .error .diverges
  | fuel + 1, mem, t => do
      let r ← t.readPass heap mem
      if r.table.stack.empty || r.table.waitingOnIo then pure r
      else readLoop heap fuel r.mem r.table

/-- `try_sstable_tree_read_in_memory`, up to what becomes of a batch that is done: the caller
passes it on if the stack is empty. -/
def trySstableTreeReadInMemory (heap : Heap cfg) (fuel : ℕ) (mem : Memory) (t : SSTableInfo cfg) :
    Except Fault (ReadState cfg) := do
  let r ← readLoop heap fuel mem t
  pure (if r.table.stack.empty then { r with table := { r.table with waitingOnIo := false } }
    else r)

/-! ## What a search leaves alone -/

/-- A search changes neither the wait queue nor the completion queue of its SSTable, and does not
touch `is_flushed_to`. -/
structure Untouched (t t' : SSTableInfo cfg) : Prop where
  reqBatchWq : t'.reqBatchWq = t.reqBatchWq
  isFlushedTo : t'.isFlushedTo = t.isFlushedTo
  ring : t'.ring = t.ring

theorem Untouched.refl (t : SSTableInfo cfg) : Untouched t t := ⟨rfl, rfl, rfl⟩

theorem Untouched.trans {t t' t'' : SSTableInfo cfg} (h : Untouched t t') (h' : Untouched t' t'') :
    Untouched t t'' :=
  ⟨h'.reqBatchWq.trans h.reqBatchWq, h'.isFlushedTo.trans h.isFlushedTo, h'.ring.trans h.ring⟩

section

variable {heap : Heap cfg} {mem : Memory} {t t' : SSTableInfo cfg}

theorem pushChild_untouched {child left right : ℕ}
    (h : t.pushChild heap mem child left right = .ok t') :
    Untouched t t' ∧ t'.waitingOnIo = t.waitingOnIo := by
  rcases bind_eq_ok.1 h with ⟨pool, -, h⟩
  rcases bind_eq_ok.1 h with ⟨buffer, -, h⟩
  split_ifs at h
  · cases h
    exact ⟨.refl t, rfl⟩
  · rcases bind_eq_ok.1 h with ⟨stack, -, h⟩
    cases h
    exact ⟨⟨rfl, rfl, rfl⟩, rfl⟩

/-- A child that is pushed or not, as the two tests of `move_down_to_children` have it. -/
theorem pushIf_untouched {c : Prop} [Decidable c] {child left right : ℕ}
    (h : (if c then t.pushChild heap mem child left right else pure t) = .ok t') :
    Untouched t t' ∧ t'.waitingOnIo = t.waitingOnIo := by
  split_ifs at h
  · exact pushChild_untouched h
  · cases h
    exact ⟨.refl t, rfl⟩

theorem moveDownToChildren_untouched (h : t.moveDownToChildren heap mem = .ok t') :
    Untouched t t' ∧ t'.waitingOnIo = t.waitingOnIo := by
  rcases bind_eq_ok.1 h with ⟨q, -, h⟩
  rcases bind_eq_ok.1 h with ⟨t₁, h₁, h⟩
  rcases pushIf_untouched h₁ with ⟨hu₁, hw₁⟩
  rcases pushIf_untouched h with ⟨hu, hw⟩
  have hpop : Untouched t { t with stack := t.stack.popTop } := ⟨rfl, rfl, rfl⟩
  exact ⟨(hpop.trans hu₁).trans hu, hw.trans hw₁⟩

theorem issueRead_untouched {reads : List (ℕ × ℕ)} (h : t.issueRead = .ok (t', reads)) :
    Untouched t t' ∧ t'.waitingOnIo = true ∧ t'.stack = t.stack := by
  rcases bind_eq_ok.1 h with ⟨helper, -, h⟩
  split_ifs at h
  cases h
  exact ⟨⟨rfl, rfl, rfl⟩, rfl, rfl⟩

theorem continueCached_untouched {location : CacheLocation} {cur : ℕ} {r : ReadState cfg}
    (h : t.continueCached heap mem location cur = .ok r) :
    Untouched t r.table ∧ r.table.waitingOnIo = t.waitingOnIo ∧ r.issued = none := by
  rcases bind_eq_ok.1 h with ⟨⟨index, res⟩, -, h⟩
  cases res with
  | none => cases h
  | some res =>
      cases res with
      | eq =>
          rcases bind_eq_ok.1 h with ⟨pool, -, h⟩
          rcases bind_eq_ok.1 h with ⟨buffer, -, h⟩
          rcases bind_eq_ok.1 h with ⟨value, -, h⟩
          rcases bind_eq_ok.1 h with ⟨t₁, h₁, h⟩
          cases h
          exact ⟨(moveDownToChildren_untouched h₁).1, (moveDownToChildren_untouched h₁).2, rfl⟩
      | lt =>
          cases h
          exact ⟨⟨rfl, rfl, rfl⟩, rfl, rfl⟩
      | gt =>
          cases h
          exact ⟨⟨rfl, rfl, rfl⟩, rfl, rfl⟩

/-- **One pass.**  Either it submits a read, sets the flag and leaves the stack as it is, or it
does none of this. -/
theorem readPass_cases {r : ReadState cfg} (h : t.readPass heap mem = .ok r) :
    Untouched t r.table ∧
      ((r.issued = none ∧ r.table.waitingOnIo = t.waitingOnIo) ∨
        (r.issued.isSome ∧ r.table.waitingOnIo = true ∧ r.table.stack = t.stack)) := by
  unfold readPass at h
  split_ifs at h
  · rcases bind_eq_ok.1 h with ⟨t₁, h₁, h⟩
    cases h
    rcases moveDownToChildren_untouched h₁ with ⟨hu, hw⟩
    exact ⟨hu, .inl ⟨rfl, hw⟩⟩
  · rcases bind_eq_ok.1 h with ⟨q, -, h⟩
    rcases bind_eq_ok.1 h with ⟨pool, -, h⟩
    rcases bind_eq_ok.1 h with ⟨location, -, h⟩
    have hset : Untouched t { t with desiredSstableOffset := q.1 } := ⟨rfl, rfl, rfl⟩
    split_ifs at h
    · rcases bind_eq_ok.1 h with ⟨⟨t₁, reads⟩, h₁, h⟩
      cases h
      rcases issueRead_untouched h₁ with ⟨hu, hw, hstack⟩
      exact ⟨hset.trans hu, .inr ⟨rfl, hw, hstack⟩⟩
    · rcases continueCached_untouched h with ⟨hu, hw, hi⟩
      exact ⟨hset.trans hu, .inl ⟨hi, hw⟩⟩

/-- The loop, entered with a request on the stack and the flag down, ends for one of two reasons,
and the flag tells which. -/
theorem readLoop_fresh {fuel : ℕ} {r : ReadState cfg} (hw : t.waitingOnIo = false)
    (hs : t.stack.empty = false) (h : readLoop heap fuel mem t = .ok r) :
    Untouched t r.table ∧ r.issued.isSome = r.table.waitingOnIo ∧
      r.table.stack.empty = !r.table.waitingOnIo := by
  induction fuel generalizing mem t with
  | zero => cases h
  | succ fuel ih =>
      rcases bind_eq_ok.1 h with ⟨r₁, h₁, h⟩
      rcases readPass_cases h₁ with ⟨hu, ⟨hi, hw₁⟩ | ⟨hi, hw₁, hs₁⟩⟩
      · rw [hw] at hw₁
        by_cases he : r₁.table.stack.empty = true
        · simp only [he, Bool.true_or, if_true] at h
          cases h
          exact ⟨hu, by simp [hi, hw₁], by simp [he, hw₁]⟩
        · simp only [Bool.not_eq_true] at he
          simp only [he, hw₁, Bool.or_self, Bool.false_eq_true, if_false] at h
          rcases ih hw₁ he h with ⟨hu', hi', hs'⟩
          exact ⟨hu.trans hu', hi', hs'⟩
      · simp only [hw₁, Bool.or_true, if_true] at h
        cases h
        exact ⟨hu, by simp [hi, hw₁], by simp [hs₁, hs, hw₁]⟩

/-- **A search that is begun.**  The flag is set afterwards exactly if a read was submitted. -/
theorem tryRead_fresh {fuel : ℕ} {r : ReadState cfg} (hw : t.waitingOnIo = false)
    (hs : t.stack.empty = false) (h : t.trySstableTreeReadInMemory heap fuel mem = .ok r) :
    Untouched t r.table ∧ r.issued.isSome = r.table.waitingOnIo := by
  rcases bind_eq_ok.1 h with ⟨r₁, h₁, h⟩
  rcases readLoop_fresh hw hs h₁ with ⟨hu, hi, he⟩
  cases h
  split_ifs with hempty
  · rw [hempty, eq_comm, Bool.not_eq_true'] at he
    rw [he] at hi
    exact ⟨⟨hu.reqBatchWq, hu.isFlushedTo, hu.ring⟩, hi⟩
  · exact ⟨hu, hi⟩

/-- **A search that is resumed.**  With the flag still set the loop makes one pass and ends; the
flag is lowered only if that pass emptied the stack. -/
theorem tryRead_resumed {fuel : ℕ} {r : ReadState cfg} (hw : t.waitingOnIo = true)
    (h : t.trySstableTreeReadInMemory heap fuel mem = .ok r) :
    ∃ r₁, t.readPass heap mem = .ok r₁ ∧ r.issued = r₁.issued ∧ Untouched t r.table ∧
      r.table.waitingOnIo = !r₁.table.stack.empty := by
  rcases bind_eq_ok.1 h with ⟨r₂, h₂, hr⟩
  cases fuel with
  | zero => cases h₂
  | succ fuel =>
      rcases bind_eq_ok.1 h₂ with ⟨r₁, h₁, h₂⟩
      have hw₁ : r₁.table.waitingOnIo = true := by
        rcases readPass_cases h₁ with ⟨-, ⟨-, hw₁⟩ | ⟨-, hw₁, -⟩⟩
        · rw [hw₁, hw]
        · exact hw₁
      simp only [hw₁, Bool.or_true, if_true] at h₂
      cases h₂
      have hu := (readPass_cases h₁).1
      cases hr
      refine ⟨r₂, h₁, ?_⟩
      split_ifs with he
      · exact ⟨rfl, ⟨hu.reqBatchWq, hu.isFlushedTo, hu.ring⟩, by simp [he]⟩
      · exact ⟨rfl, hu, by simp [he, hw₁]⟩

/-- Whatever the flag was, a search leaves the queues and `is_flushed_to` alone. -/
theorem readLoop_untouched {fuel : ℕ} {r : ReadState cfg} (h : readLoop heap fuel mem t = .ok r) :
    Untouched t r.table := by
  induction fuel generalizing mem t with
  | zero => cases h
  | succ fuel ih =>
      rcases bind_eq_ok.1 h with ⟨r₁, h₁, h⟩
      have hu := (readPass_cases h₁).1
      split_ifs at h
      · cases h
        exact hu
      · exact hu.trans (ih h)

theorem tryRead_untouched {fuel : ℕ} {r : ReadState cfg}
    (h : t.trySstableTreeReadInMemory heap fuel mem = .ok r) : Untouched t r.table := by
  rcases bind_eq_ok.1 h with ⟨r₁, h₁, h⟩
  have hu := readLoop_untouched h₁
  cases h
  split_ifs
  · exact ⟨hu.reqBatchWq, hu.isFlushedTo, hu.ring⟩
  · exact hu

end

/-! ## When one pass is enough -/

/-- The next pass submits a read: the offset on the stack is below the end of the file and in no
buffer. -/
def wantsRead (t : SSTableInfo cfg) : Bool :=
  decide (t.desiredSstableOffset < t.cache.helper.curMinInvalidOffset) &&
    okAnd t.stack.top fun q =>
      okAnd (t.cache.helper.getBufferInfo q.1) fun location => location.left == sizeMax

/-- The next pass finds the key of the current request in a buffer. -/
def findsKey (heap : Heap cfg) (mem : Memory) (t : SSTableInfo cfg) : Bool :=
  okAnd t.stack.top fun q =>
    okAnd (t.cache.helper.getBufferInfo q.1) fun location =>
      location.left != sizeMax &&
        okAnd ({ t with desiredSstableOffset := q.1 }.searchCached heap mem location q.2.1)
          fun found => found.2 == some .eq

/-- The next pass ends the current request: the offset lies behind the end of the file, or the
key is found. -/
def endsRequest (heap : Heap cfg) (mem : Memory) (t : SSTableInfo cfg) : Bool :=
  decide (t.cache.helper.curMinInvalidOffset ≤ t.desiredSstableOffset) || t.findsKey heap mem

/-- The current request is the only one on the stack and has no children. -/
def lastRequest (t : SSTableInfo cfg) : Bool :=
  t.stack.back == 1 &&
    okAnd t.stack.top fun q => decide (rightChild q ≤ q.1) && decide (q.1 ≤ leftChild q)

/-- One pass of a resumed search brings it to its next read or to its end. -/
def onePassIsEnough (heap : Heap cfg) (mem : Memory) (t : SSTableInfo cfg) : Bool :=
  t.wantsRead && !t.stack.empty || t.endsRequest heap mem && t.lastRequest

section

variable {heap : Heap cfg} {mem : Memory} {t t' : SSTableInfo cfg}

theorem moveDownToChildren_last (hl : t.lastRequest = true)
    (h : t.moveDownToChildren heap mem = .ok t') : t'.stack.empty = true := by
  simp only [lastRequest, Bool.and_eq_true, beq_iff_eq, okAnd_iff, decide_eq_true_eq] at hl
  rcases hl with ⟨hback, q, hq, hr, hl⟩
  rcases bind_eq_ok.1 h with ⟨q', hq', h⟩
  rw [hq] at hq'
  cases hq'
  simp only [gt_iff_lt, Nat.not_lt.2 hr, Nat.not_lt.2 hl, if_false] at h
  cases h
  simp [Stack.empty, Stack.popTop, hback]

/-- A pass that finds the key of the last request empties the stack. -/
theorem readPass_findsKey {r : ReadState cfg}
    (hmin : ¬ t.cache.helper.curMinInvalidOffset ≤ t.desiredSstableOffset)
    (hf : t.findsKey heap mem = true) (hl : t.lastRequest = true)
    (h : t.readPass heap mem = .ok r) : r.issued = none ∧ r.table.stack.empty = true := by
  simp only [findsKey, okAnd_iff, Bool.and_eq_true, bne_iff_ne, beq_iff_eq] at hf
  rcases hf with ⟨q, hq, location, hloc, hne, ⟨index, res⟩, hsearch, hres⟩
  cases hres
  rw [readPass, if_neg hmin] at h
  rcases bind_eq_ok.1 h with ⟨q', hq', h⟩
  rw [hq] at hq'
  cases hq'
  rcases bind_eq_ok.1 h with ⟨pool, -, h⟩
  rcases bind_eq_ok.1 h with ⟨location', hloc', h⟩
  rw [hloc] at hloc'
  cases hloc'
  rw [if_neg hne] at h
  have hissued := (continueCached_untouched h).2.2
  rcases bind_eq_ok.1 h with ⟨found, hsearch', h⟩
  rw [hsearch] at hsearch'
  cases hsearch'
  rcases bind_eq_ok.1 h with ⟨pool', -, h⟩
  rcases bind_eq_ok.1 h with ⟨buffer, -, h⟩
  rcases bind_eq_ok.1 h with ⟨value, -, h⟩
  rcases bind_eq_ok.1 h with ⟨t₁, h₁, h⟩
  cases h
  have hl' : { t with desiredSstableOffset := q.1 }.lastRequest = true := hl
  exact ⟨hissued, moveDownToChildren_last hl' h₁⟩

/-- A pass that ends the last request empties the stack. -/
theorem readPass_last {r : ReadState cfg} (he : t.endsRequest heap mem = true)
    (hl : t.lastRequest = true) (h : t.readPass heap mem = .ok r) :
    r.issued = none ∧ r.table.stack.empty = true := by
  by_cases hmin : t.cache.helper.curMinInvalidOffset ≤ t.desiredSstableOffset
  · rw [readPass, if_pos hmin] at h
    rcases bind_eq_ok.1 h with ⟨t₁, h₁, h⟩
    cases h
    exact ⟨rfl, moveDownToChildren_last hl h₁⟩
  · simp only [endsRequest, hmin, decide_false, Bool.false_or] at he
    exact readPass_findsKey hmin he hl h

/-- A pass that wants a read submits one. -/
theorem readPass_wantsRead {r : ReadState cfg} (hwants : t.wantsRead = true)
    (h : t.readPass heap mem = .ok r) : r.issued.isSome ∧ r.table.stack = t.stack := by
  simp only [wantsRead, Bool.and_eq_true, okAnd_iff, decide_eq_true_eq, beq_iff_eq] at hwants
  rcases hwants with ⟨hmin, q, hq, location, hloc, hleft⟩
  rw [readPass, if_neg (Nat.not_le.2 hmin)] at h
  rcases bind_eq_ok.1 h with ⟨q', hq', h⟩
  rw [hq] at hq'
  cases hq'
  rcases bind_eq_ok.1 h with ⟨pool, -, h⟩
  rcases bind_eq_ok.1 h with ⟨location', hloc', h⟩
  rw [hloc] at hloc'
  cases hloc'
  rw [if_pos hleft] at h
  rcases bind_eq_ok.1 h with ⟨⟨t₁, reads⟩, h₁, h⟩
  cases h
  exact ⟨rfl, (issueRead_untouched h₁).2.2⟩

/-- A search that is resumed where one pass is enough leaves the flag set exactly if it submitted
a read. -/
theorem tryRead_onePass {fuel : ℕ} {r : ReadState cfg} (hw : t.waitingOnIo = true)
    (hone : t.onePassIsEnough heap mem = true)
    (h : t.trySstableTreeReadInMemory heap fuel mem = .ok r) :
    r.issued.isSome = r.table.waitingOnIo := by
  rcases tryRead_resumed hw h with ⟨r₁, h₁, hi, -, hw'⟩
  rw [hi, hw']
  simp only [onePassIsEnough, Bool.or_eq_true, Bool.and_eq_true, Bool.not_eq_true'] at hone
  rcases hone with ⟨hwants, hs⟩ | ⟨hends, hlast⟩
  · rcases readPass_wantsRead hwants h₁ with ⟨hsome, hstack⟩
    rw [hsome, hstack, hs]
    rfl
  · rcases readPass_last hends hlast h₁ with ⟨hnone, hempty⟩
    simp [hnone, hempty]

end

end SSTableInfo

end RingDB
