import RingDB.Worker.EventLoop
import RingDB.Worker.FileTree

/-!
# The search of an SSTable for a batch

A batch of reads is searched for over any number of calls of `try_sstable_tree_read_in_memory`: the
first one when the batch is taken from the wait queue, the others when reads are reported.

**The stack.**  `top` reads the slot above the one that was pushed.  With a single batch on the
stack that is `data[1]`, which no push has set: the search begins at the offset and looks for the
request that stand there, whatever the batch is.  With the offset `0` there, `moveDownToChildren`
never writes the slot either (`moveDownToChildren_slot`), so one request is searched for, always
from the root, and the traversal ends with it or not at all.

**The file.**  A read transfers what there is, at most a buffer and at most `MAX_RW_COUNT` bytes.
One that transfers less than a buffer is taken for the end of the file; so is one that transfers
nothing, and with buffers of size `0`, which `CMakeLists.txt` comes to, every read does.

* `Search` — a batch that is to be looked for, with a page cache that holds parts of the file;
  `Search.start`, `Search.resume` — the calls, `Search.Finished` — the memory at the end.
* `Search.Searching` — what a search keeps as long as it goes on.
* **`Search.readPass_searching`**, **`Search.tryRead_searching`** — one pass and one call keep it,
  or end the search with `Search.Done`.
-/

namespace RingDB

open Core

namespace Worker

variable {cfg : Config}

/-! ## The page cache and the file -/

/-- A cache that holds parts of the file: each range that is in a buffer is there, and nothing of
the file lies behind the offset that is remembered as its end. -/
structure CacheHolds (image : Bytes) (cache : PageCache cfg) : Prop where
  buffer_length : ∀ b ∈ cache.buffers, b.length = cfg.fairAlignedSstablePageCacheBufferSize
  range : ∀ i l, i < cache.helper.nextBuffer → cache.helper.location i = .ok l →
    l.bufferId ≠ uintMax → l.left ≤ l.right ∧ l.right ≤ image.length ∧
      ∃ b, cache.buffers[l.bufferId]? = some b ∧
        b.take (l.right - l.left) = (image.drop l.left).take (l.right - l.left)
  end_of_file : image.length ≤ cache.helper.curMinInvalidOffset

/-- `MAX_RW_COUNT`: no read transfers more. -/
def maxRwCount : ℕ := 0x7ffff000

/-- What a read of one buffer at `offset` transfers. -/
def transferred (cfg : Config) (image : Bytes) (offset : ℕ) : ℕ :=
  min (min cfg.fairAlignedSstablePageCacheBufferSize maxRwCount) (image.length - offset)

/-- Completions of reads that were cancelled. -/
def cancelled (reads : List (ℕ × ℕ)) (cqes : List Cqe) : Bool :=
  cqes.map Cqe.userData == reads.map Prod.fst && cqes.all fun c => c.res < 0

/-- Can these be the completions of a chain of reads?  Each read transfers what there is; one that
comes short may break the chain, and the reads behind it are then cancelled. -/
def answers (cfg : Config) (image : Bytes) : List (ℕ × ℕ) → List Cqe → Bool
  | [], cqes => cqes.isEmpty
  | _ :: _, [] => false
  | r :: reads, c :: cqes =>
      c.userData == r.1 && c.res == transferred cfg image r.1 &&
        (answers cfg image reads cqes ||
          transferred cfg image r.1 < cfg.fairAlignedSstablePageCacheBufferSize &&
            cancelled reads cqes)

/-- The buffers after the reads: each result says how many bytes of the file have arrived. -/
def fillBuffers (image : Bytes) : List (ℕ × ℕ) → List Cqe → List Bytes → List Bytes
  | r :: reads, c :: cqes, buffers =>
      fillBuffers image reads cqes
        (buffers.modify r.2 fun b => (image.drop r.1).take c.res.toNat ++ b.drop c.res.toNat)
  | _, _, buffers => buffers

/-! ## A search, from the first call to the last -/

/-- `value` of the socket buffer. -/
def valueAt (cfg : Config) (mem : Memory) (buffer : ℕ) : Bytes :=
  bytesAt mem (buffer + 5 + cfg.keyLength) cfg.valueLength

/-- A batch of reads that an SSTable has taken from its wait queue, the file of the SSTable and what
the cache holds of it. -/
structure Search (cfg : Config) where
  image : Bytes
  heap : Heap cfg
  mem : Memory
  batch : ℕ
  requests : RequestBatch cfg
  batch_eq : heap.deref batch = .ok requests
  table : SSTableInfo cfg
  reqBatch_eq : table.reqBatch = some batch
  stack_empty : table.stack.back = 0
  level : ℕ
  transfers : Transfers cfg
  cached : CacheHolds image (transfers.addBuffers table.cache)

/-- The completions that arrive for a search that waits, and how long it is observed then. -/
structure Reply where
  fuel : ℕ
  cqes : List Cqe

namespace Search

variable (x : Search cfg)

abbrev entries : List ConnectionRequest := x.requests.readwritePool.entries

/-- The first call. -/
def start (fuel : ℕ) : Except Fault (Outcome cfg) :=
  beginRead x.heap x.mem fuel x.transfers x.entries.length x.table

/-- The reads that a search waits for. -/
def awaited (o : Outcome cfg) : List (ℕ × ℕ) :=
  match o.submitted with
  | [.cacheRead reads] => reads
  | _ => []

/-- The reads are done, their bytes are in the buffers, and the search is called again. -/
def resume (o : Outcome cfg) (reply : Reply) : Except Fault (Outcome cfg) :=
  mainHandler x.heap (o.mem.getD x.mem) reply.fuel x.level
    { o.table with
      cache :=
        { o.table.cache with
          buffers := fillBuffers x.image (awaited o) reply.cqes o.table.cache.buffers }
      ring := o.table.ring ++ reply.cqes }

/-- The search waits, and these are the completions of its reads. -/
def Honest (o : Outcome cfg) (reply : Reply) : Prop :=
  awaited o ≠ [] ∧ answers cfg x.image (awaited o) reply.cqes = true

instance (o : Outcome cfg) (reply : Reply) : Decidable (x.Honest o reply) :=
  inferInstanceAs (Decidable (_ ∧ _))

/-- Some run of the search finishes the batch and leaves this memory. -/
def Finished (mem : Memory) : Prop :=
  ∃ fuel replies o o', x.start fuel = .ok o ∧ StepsMeet x.resume x.Honest o replies ∧
    runEvents x.resume o replies = .ok o' ∧ o'.table.stack.empty = true ∧ o'.mem = some mem

/-- The value field of the request holds the value stored with its key, and is unchanged if there
is none. -/
def AnsweredBy (c : ConnectionRequest) (mem : Memory) : Prop :=
  (∀ v, Stored cfg x.image (keyAt cfg x.mem c.buffer) v → valueAt cfg mem c.buffer = v) ∧
    ((∀ v, ¬ Stored cfg x.image (keyAt cfg x.mem c.buffer) v) →
      valueAt cfg mem c.buffer = valueAt cfg x.mem c.buffer)

/-- What the code relies on: the slot of the stack that `top` reads holds offset `0`, the SSTable's
ring is empty, and one read can fill a buffer. -/
structure Prepared : Prop where
  slot : ∀ q, x.table.stack.data[1]? = some q → q.1 = 0
  ring : x.table.ring = []
  bufferSize_le : cfg.fairAlignedSstablePageCacheBufferSize ≤ maxRwCount

/-- The request whose number is in that slot. -/
def slotRequest : Option ConnectionRequest := do
  let q ← x.table.stack.data[1]?
  x.entries[q.2.1]?

/-! ### What a search that goes on keeps -/

/-- The value stored with the key of the slot's request was copied into its socket buffer. -/
def Copied (mem : Memory) : Prop :=
  ∃ c v, 0 < cfg.fairAlignedSstablePageCacheBufferSize ∧ x.slotRequest = some c ∧
    Stored cfg x.image (keyAt cfg x.mem c.buffer) v ∧
    mem = store x.mem (c.buffer + 5 + cfg.keyLength) v

/-- The file has nothing for the slot's request. -/
def NothingStored : Prop :=
  (∀ key v, ¬ Stored cfg x.image key v) ∨
    ∃ c, x.slotRequest = some c ∧ ∀ v, ¬ Stored cfg x.image (keyAt cfg x.mem c.buffer) v

/-- What a search that has ended has done: it has answered the slot's request, and if the buffers
have no size it has done nothing. -/
def Done (mem : Memory) : Prop :=
  x.Copied mem ∨
    mem = x.mem ∧ (0 < cfg.fairAlignedSstablePageCacheBufferSize → x.NothingStored)

/-- **The invariant.**  One batch is on the stack, the slot above it is the one of the beginning,
the cache holds what it says it holds of the beginning of the file, and the offset that is looked at
next is on the search path of the slot's request. -/
structure Searching (mem : Memory) (t : SSTableInfo cfg) : Prop where
  reqBatch : t.reqBatch = some x.batch
  back : t.stack.back = 1
  slot : t.stack.data[1]? = x.table.stack.data[1]?
  ring : t.ring = []
  buffer_length : ∀ b ∈ t.cache.buffers, b.length = cfg.fairAlignedSstablePageCacheBufferSize
  root : ∀ l, t.cache.helper.HasRoot l →
    ∃ b, t.cache.buffers[l.bufferId]? = some b ∧ HoldsPrefix x.image b l.right
  end_of_file : 0 < cfg.fairAlignedSstablePageCacheBufferSize →
    x.image.length ≤ t.cache.helper.curMinInvalidOffset
  path : t.desiredSstableOffset = 0 ∨ ∃ c, x.slotRequest = some c ∧
    OnKeyPath cfg x.image (keyAt cfg x.mem c.buffer) t.desiredSstableOffset
  mem_eq : mem = x.mem ∨ x.Copied mem

variable {x} {mem : Memory} {t t' : SSTableInfo cfg}

/-- A value that is copied does not touch the key. -/
theorem Searching.keyAt_eq (hs : x.Searching mem t) {c : ConnectionRequest}
    (hc : x.slotRequest = some c) : keyAt cfg mem c.buffer = keyAt cfg x.mem c.buffer := by
  rcases hs.mem_eq with rfl | ⟨c', v, -, hc', -, rfl⟩
  · rfl
  · rw [hc] at hc'
    cases hc'
    exact bytesAt_store_disjoint (.inl (Nat.le_refl _))

theorem Searching.pool_eq (hs : x.Searching mem t) :
    t.pool x.heap = .ok x.requests.readwritePool := by
  simp only [SSTableInfo.pool, hs.reqBatch, x.batch_eq]
  rfl

/-- An offset behind the end of the file ends the search path. -/
theorem Searching.nothingStored (hs : x.Searching mem t)
    (hend : x.image.length ≤ t.desiredSstableOffset) : x.NothingStored := by
  rcases hs.path with h0 | ⟨c, hc, hpath⟩
  · refine .inl fun key v => ?_
    rw [h0] at hend
    exact ArrayTree.onPath_root.not_finds (entryAt_of_le hend)
  · exact .inr ⟨c, hc, fun v => hpath.not_finds (entryAt_of_le hend)⟩

/-- **The end of a request.**  From slot `data[1]` with offset `0` there is no left child, and a
right child is pushed to `data[0]`: the slot stays, and the stack is empty or as high as before. -/
theorem moveDownToChildren_slot {heap : Heap cfg} {q : Quad} (hback : t.stack.back = 1)
    (hslot : t.stack.data[1]? = some q) (hq : q.1 = 0)
    (h : t.moveDownToChildren heap mem = .ok t') :
    ∃ stack, t' = { t with stack } ∧ stack.data[1]? = some q ∧
      (stack.back = 0 ∨ stack.back = 1) := by
  rcases bind_eq_ok.1 h with ⟨q', hq', h⟩
  have htop : t.stack.top = .ok q := by simp only [Stack.top, hback, hslot]
  rw [htop] at hq'
  cases hq'
  rcases bind_eq_ok.1 h with ⟨t₁, h₁, h⟩
  rw [if_neg (by omega)] at h
  cases h
  have hpop : t.stack.popTop.back = 0 := by simp [Stack.popTop, hback]
  split_ifs at h₁
  · rcases bind_eq_ok.1 h₁ with ⟨pool, -, h₁⟩
    rcases bind_eq_ok.1 h₁ with ⟨buffer, -, h₁⟩
    split_ifs at h₁
    · cases h₁
      exact ⟨t.stack.popTop, rfl, by simpa using hslot, .inl hpop⟩
    · rcases bind_eq_ok.1 h₁ with ⟨stack, hpush, h₁⟩
      cases h₁
      simp only [Stack.pushTop, hpop] at hpush
      split_ifs at hpush
      cases hpush
      refine ⟨_, rfl, ?_, .inr rfl⟩
      simpa using hslot
  · cases h₁
    exact ⟨t.stack.popTop, rfl, by simpa using hslot, .inl hpop⟩

theorem slotRequest_eq {q : Quad} (hq : x.table.stack.data[1]? = some q) :
    x.slotRequest = x.entries[q.2.1]? := by
  simp [slotRequest, hq]

theorem Prepared.bufferSize_lt (hp : x.Prepared) :
    cfg.fairAlignedSstablePageCacheBufferSize < 2 ^ 31 :=
  Nat.lt_of_le_of_lt hp.bufferSize_le (by decide)

/-- The range at the beginning of the file, counted in entries. -/
theorem Searching.root_entries (hp : x.Prepared) (hs : x.Searching mem t) {l : CacheLocation}
    (hl : t.cache.helper.HasRoot l) :
    ∃ b n, t.cache.buffers[l.bufferId]? = some b ∧
      (l.right - l.left) / cfg.memtableEntryLength % 2 ^ 32 = n ∧ n < 2 ^ 31 ∧
      n * cfg.memtableEntryLength ≤ cfg.fairAlignedSstablePageCacheBufferSize ∧
      HoldsPrefix x.image b (n * cfg.memtableEntryLength) := by
  rcases hs.root l hl with ⟨b, hb, hprefix⟩
  have hlen : l.right ≤ cfg.fairAlignedSstablePageCacheBufferSize := by
    rw [← hs.buffer_length b (List.mem_of_getElem? hb)]
    exact hprefix.le_buffer
  have hmax := hp.bufferSize_lt
  have hdiv : l.right / cfg.memtableEntryLength ≤ l.right := Nat.div_le_self ..
  have hmul : l.right / cfg.memtableEntryLength * cfg.memtableEntryLength ≤ l.right :=
    Nat.div_mul_le_self ..
  refine ⟨b, l.right / cfg.memtableEntryLength, hb, ?_, by omega, hmul.trans hlen,
    hprefix.mono hmul⟩
  rw [hl.2.2.1, Nat.sub_zero, Nat.mod_eq_of_lt (by omega)]

/-- **The search in the buffer** that holds the beginning of the file: without a request in the slot
it compares nothing, otherwise it follows the path of the request's key.  An equal key is one that
is stored, and the value beside it can be no other than the stored one. -/
theorem searchCached_cases (hp : x.Prepared) (hs : x.Searching mem t)
    (h0 : t.desiredSstableOffset = 0) {q : Quad} (hq : x.table.stack.data[1]? = some q)
    {l : CacheLocation} (hl : t.cache.helper.HasRoot l) {index : ℕ} {res : Option Ordering}
    (h : t.searchCached x.heap mem l q.2.1 = .ok (index, res)) :
    res = none ∨ ∃ c, x.slotRequest = some c ∧ index < 2 ^ 32 ∧
      OnKeyPath cfg x.image (keyAt cfg x.mem c.buffer) index ∧
      (res = some .eq → 0 < cfg.fairAlignedSstablePageCacheBufferSize ∧
        ∀ value, readAt (t.cache.buffers.getD l.bufferId [])
            (index * cfg.memtableEntryLength + cfg.keyLength) cfg.valueLength = .ok value →
          Stored cfg x.image (keyAt cfg x.mem c.buffer) value) := by
  rcases hs.root_entries hp hl with ⟨b, n, hb, hn, hlt, hle, hprefix⟩
  simp only [SSTableInfo.searchCached, hs.pool_eq, hb, hn, h0, Nat.zero_sub, Nat.zero_mod,
    bind, Except.bind] at h
  cases hc : x.slotRequest with
  | none =>
      rw [slotRequest_eq hq] at hc
      simp only [SSTableInfo.requestBuffer, hc, Functor.map, Except.map] at h
      exact .inl (searchBuffer_noKey h)
  | some c =>
      have hc' := hc
      rw [slotRequest_eq hq] at hc'
      simp only [SSTableInfo.requestBuffer, hc', Functor.map, Except.map, hs.keyAt_eq hc] at h
      obtain ⟨hpath, hindex, hfound⟩ := searchBuffer_onPath hprefix hlt ArrayTree.onPath_root
        (by decide) (by simp) h
      refine .inr ⟨c, rfl, hindex, hpath, fun heq => ?_⟩
      rcases hfound heq with ⟨hin, v, hentry⟩
      constructor
      · have hpos := memtableEntryLength_ge cfg
        have hmul : 1 * cfg.memtableEntryLength ≤ n * cfg.memtableEntryLength :=
          Nat.mul_le_mul_right _ (by omega)
        omega
      · intro value hvalue
        simp only [List.getD_eq_getElem?_getD, hb, Option.getD_some] at hvalue
        cases readAt_value hprefix hin hentry hvalue
        exact ⟨index, _, hpath, hentry, memcmp_self _⟩

/-- **The branch for an offset in a buffer** finds what is stored with the key of the slot's request
and ends the request, or it moves on along the search path. -/
theorem continueCached_cases (hp : x.Prepared) (hs : x.Searching mem t)
    (h0 : t.desiredSstableOffset = 0) {q : Quad} (hq : x.table.stack.data[1]? = some q)
    {l : CacheLocation} (hl : t.cache.helper.HasRoot l) {r : SSTableInfo.ReadState cfg}
    (h : t.continueCached x.heap mem l q.2.1 = .ok r) :
    r.issued = none ∧ ∃ c, x.slotRequest = some c ∧
      ((∃ v, 0 < cfg.fairAlignedSstablePageCacheBufferSize ∧
          Stored cfg x.image (keyAt cfg x.mem c.buffer) v ∧
          r.mem = store mem (c.buffer + 5 + cfg.keyLength) v ∧
          t.moveDownToChildren x.heap r.mem = .ok r.table) ∨
        (r.mem = mem ∧ ∃ index, OnKeyPath cfg x.image (keyAt cfg x.mem c.buffer) index ∧
          r.table = { t with desiredSstableOffset := index })) := by
  rcases bind_eq_ok.1 h with ⟨⟨index, res⟩, hsearch, h⟩
  rcases searchCached_cases hp hs h0 hq hl hsearch with rfl | ⟨c, hc, hindex, hpath, hfound⟩
  · cases h
  · have hmod : (index + l.left) % 2 ^ 64 = index := by
      rw [hl.2.2.1, Nat.add_zero, Nat.mod_eq_of_lt (by omega)]
    cases res with
    | none => cases h
    | some o =>
        cases o with
        | eq =>
            rcases bind_eq_ok.1 h with ⟨pool, hpool, h⟩
            rw [hs.pool_eq] at hpool
            cases hpool
            rcases bind_eq_ok.1 h with ⟨buffer, hbuffer, h⟩
            rw [slotRequest_eq hq] at hc
            simp only [SSTableInfo.requestBuffer, hc] at hbuffer
            cases hbuffer
            rcases bind_eq_ok.1 h with ⟨value, hvalue, h⟩
            rcases bind_eq_ok.1 h with ⟨t₁, h₁, h⟩
            cases h
            rcases hfound rfl with ⟨hpos, hstored⟩
            rw [slotRequest_eq hq]
            exact ⟨rfl, c, hc, .inl ⟨value, hpos, hstored value hvalue, rfl, h₁⟩⟩
        | lt =>
            cases h
            exact ⟨rfl, c, hc, .inr ⟨rfl, index, hpath, by rw [hmod]⟩⟩
        | gt =>
            cases h
            exact ⟨rfl, c, hc, .inr ⟨rfl, index, hpath, by rw [hmod]⟩⟩

/-! ### One pass, one call -/

variable (x)

/-- The search has ended. -/
structure Ended (r : SSTableInfo.ReadState cfg) : Prop where
  back : r.table.stack.back = 0
  slot : r.table.stack.data[1]? = x.table.stack.data[1]?
  issued : r.issued = none
  done : x.Done r.mem

/-- The search waits for these reads: the beginning of the file is in no buffer. -/
structure Waits (reads : List (ℕ × ℕ)) (t : SSTableInfo cfg) : Prop where
  reads_eq : reads = SSTableInfo.readsFor t.cache.helper 0
  buffers : ∀ r ∈ reads, r.2 < t.cache.buffers.length
  noRoot : ∀ l, ¬ t.cache.helper.HasRoot l

/-- The search has not ended. -/
structure GoesOn (r : SSTableInfo.ReadState cfg) : Prop where
  searching : x.Searching r.mem r.table
  waits : ∀ reads, r.issued = some reads → Waits reads r.table

variable {x}

theorem Searching.slot_some (hs : x.Searching mem t) {q : Quad} (hq : t.stack.top = .ok q) :
    x.table.stack.data[1]? = some q := by
  rw [← hs.slot]
  simp only [Stack.top, hs.back] at hq
  split at hq
  · cases hq
  · rename_i heq
    cases hq
    exact heq

/-- The end of a request empties the stack, or the search goes on. -/
theorem Searching.moveDown (hp : x.Prepared) (hs : x.Searching mem t)
    (h : t.moveDownToChildren x.heap mem = .ok t') :
    (t'.stack.back = 0 ∧ t'.stack.data[1]? = x.table.stack.data[1]?) ∨ x.Searching mem t' := by
  rcases bind_eq_ok.1 h with ⟨q, htop, -⟩
  have hq := hs.slot_some htop
  obtain ⟨stack, rfl, hslot, hback⟩ :=
    moveDownToChildren_slot hs.back (hs.slot.trans hq) (hp.slot q hq) h
  rcases hback with hback | hback
  · exact .inl ⟨hback, hslot.trans hq.symm⟩
  · exact .inr { hs with back := hback, slot := hslot.trans hq.symm }

/-- A value that is found is copied, and it is the same one each time. -/
theorem Searching.copied (hs : x.Searching mem t) {c : ConnectionRequest} {v : Bytes}
    (hpos : 0 < cfg.fairAlignedSstablePageCacheBufferSize) (hc : x.slotRequest = some c)
    (hv : Stored cfg x.image (keyAt cfg x.mem c.buffer) v) :
    x.Copied (store mem (c.buffer + 5 + cfg.keyLength) v) := by
  refine ⟨c, v, hpos, hc, hv, ?_⟩
  rcases hs.mem_eq with rfl | ⟨c', v', -, hc', hv', rfl⟩
  · rfl
  · rw [hc] at hc'
    cases hc'
    rw [hv.unique hv', store_store]

/-- What became of the request before a child took its place, or before the stack was empty. -/
theorem Searching.ended_or_goesOn (hp : x.Prepared) (hs : x.Searching mem t) (hd : x.Done mem)
    {r : SSTableInfo.ReadState cfg} (hm : r.mem = mem) (hi : r.issued = none)
    (h : t.moveDownToChildren x.heap mem = .ok r.table) : x.Ended r ∨ x.GoesOn r := by
  rcases hs.moveDown hp h with ⟨hback, hslot⟩ | hs'
  · exact .inl ⟨hback, hslot, hi, hm ▸ hd⟩
  · refine .inr ⟨hm ▸ hs', fun reads hreads => ?_⟩
    rw [hi] at hreads
    cases hreads

/-- The branch that reads. -/
theorem issueRead_goesOn (hs : x.Searching mem t) (h0 : t.desiredSstableOffset = 0)
    (hroot : ∀ l, ¬ t.cache.helper.HasRoot l) {reads : List (ℕ × ℕ)}
    (h : t.issueRead = .ok (t', reads)) :
    x.GoesOn { table := t', mem, issued := some reads } := by
  rcases bind_eq_ok.1 h with ⟨helper, hh, h⟩
  split_ifs at h with hin
  cases h
  have hhelper : (∀ l, ¬ helper.HasRoot l) ∧
      helper.curMinInvalidOffset = t.cache.helper.curMinInvalidOffset := by
    split_ifs at hh
    · exact ⟨fun l hl => hroot l (CacheHelper.replenish_hasRoot hh hl),
        CacheHelper.replenish_curMinInvalidOffset hh⟩
    · cases hh
      exact ⟨hroot, rfl⟩
  refine ⟨{ hs with root := ?_, end_of_file := ?_ }, ?_⟩
  · intro l hl
    exact absurd hl (hhelper.1 l)
  · intro hpos
    exact (hs.end_of_file hpos).trans (Nat.le_of_eq hhelper.2.symm)
  · rintro reads ⟨⟩
    exact ⟨by rw [h0], hin, hhelper.1⟩

/-- **One pass.** -/
theorem readPass_searching (hp : x.Prepared) (hs : x.Searching mem t)
    {r : SSTableInfo.ReadState cfg} (h : t.readPass x.heap mem = .ok r) :
    x.Ended r ∨ x.GoesOn r := by
  unfold SSTableInfo.readPass at h
  split_ifs at h with hmin
  · rcases bind_eq_ok.1 h with ⟨t₁, h₁, h⟩
    cases h
    refine hs.ended_or_goesOn hp ?_ rfl rfl h₁
    rcases hs.mem_eq with rfl | hcopied
    · exact .inr ⟨rfl, fun hpos => hs.nothingStored ((hs.end_of_file hpos).trans hmin)⟩
    · exact .inl hcopied
  · rcases bind_eq_ok.1 h with ⟨q, htop, h⟩
    rcases bind_eq_ok.1 h with ⟨pool, -, h⟩
    rcases bind_eq_ok.1 h with ⟨l, hl, h⟩
    have hq := hs.slot_some htop
    have hzero := hp.slot q hq
    have hs₀ : x.Searching mem { t with desiredSstableOffset := q.1 } :=
      { hs with path := .inl hzero }
    rw [hzero] at hl
    rcases CacheHelper.getBufferInfo_zero hl with hroot | ⟨hleft, hroot⟩
    · rw [if_neg (by rw [hroot.2.2.1]; decide)] at h
      obtain ⟨hi, c, hc, ⟨v, hpos, hv, hm, hmove⟩ | ⟨hm, index, hpath, ht⟩⟩ :=
        continueCached_cases hp hs₀ hzero hq hroot h
      · have hcopied := hs.copied hpos hc hv
        rw [← hm] at hcopied
        have hs₁ : x.Searching r.mem { t with desiredSstableOffset := q.1 } :=
          { hs₀ with mem_eq := .inr hcopied }
        exact hs₁.ended_or_goesOn hp (.inl hcopied) rfl hi hmove
      · refine .inr ⟨?_, fun reads hreads => by rw [hi] at hreads; cases hreads⟩
        rw [hm, ht]
        exact { hs₀ with path := .inr ⟨c, hc, hpath⟩ }
    · rw [if_pos hleft] at h
      rcases bind_eq_ok.1 h with ⟨⟨t₁, reads⟩, h₁, h⟩
      cases h
      exact .inr (issueRead_goesOn hs₀ hzero hroot h₁)

/-- **The loop.** -/
theorem readLoop_searching (hp : x.Prepared) (hs : x.Searching mem t) {fuel : ℕ}
    {r : SSTableInfo.ReadState cfg} (h : SSTableInfo.readLoop x.heap fuel mem t = .ok r) :
    x.Ended r ∨ x.GoesOn r := by
  induction fuel generalizing mem t with
  | zero => cases h
  | succ fuel ih =>
      rcases bind_eq_ok.1 h with ⟨r₁, h₁, h⟩
      have hpass := readPass_searching hp hs h₁
      split_ifs at h with hstop
      · cases h
        exact hpass
      · rcases hpass with hended | hgoes
        · simp [Stack.empty, hended.back] at hstop
        · exact ih hgoes.searching h

/-- **One call.** -/
theorem tryRead_searching (hp : x.Prepared) (hs : x.Searching mem t) {fuel : ℕ}
    {r : SSTableInfo.ReadState cfg}
    (h : t.trySstableTreeReadInMemory x.heap fuel mem = .ok r) : x.Ended r ∨ x.GoesOn r := by
  rcases bind_eq_ok.1 h with ⟨r₁, h₁, h⟩
  cases h
  rcases readLoop_searching hp hs h₁ with hended | hgoes
  · left
    split_ifs
    · exact ⟨hended.back, hended.slot, hended.issued, hended.done⟩
    · exact hended
  · right
    have hempty : r₁.table.stack.empty = false := by
      simp [Stack.empty, hgoes.searching.back]
    simp only [hempty, Bool.false_eq_true, if_false]
    exact hgoes

end Search

end Worker

end RingDB
