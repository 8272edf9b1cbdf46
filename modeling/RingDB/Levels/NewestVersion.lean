import RingDB.Levels.Findable
import RingDB.Levels.System

/-!
# The newest version of a key

A READ that no memtable answered is passed to the levels in a READ batch, and is to come back with
the value of the newest flushed image that has its key.  `newestValue` is that value;
`ReadIssued.ReturnsNewest` says that the READ comes back with it, after some further steps of the
system.

It never does.  `decompose` has no result for a READ batch unless the first request that is still
live is request number `LEVEL_FACTOR`, and in that case the enqueue loop does not end
(`System.insertIntoWqs_read`).  This holds in every state of the levels, so the order of the
workers and the tree search itself do not matter.
-/

namespace RingDB

open Core

variable {cfg : Config}

/-- The value of `key` among the next `n` entries of an image. -/
def imageValueFrom (cfg : Config) (key : Bytes) : ℕ → Bytes → Option Bytes
  | 0, _ => none
  | n + 1, image =>
      if image.take cfg.keyLength = key then some ((image.drop cfg.keyLength).take cfg.valueLength)
      else imageValueFrom cfg key n (image.drop cfg.memtableEntryLength)

/-- The value of `key` in an image. -/
def imageValue (cfg : Config) (image key : Bytes) : Option Bytes :=
  imageValueFrom cfg key (cfg.memtableSize / cfg.memtableEntryLength) image

/-- The value of `key` in the compaction that has it and was dispatched last. -/
def newestValue (s : System cfg) (key : Bytes) : Option Bytes :=
  s.dispatched.reverse.findSome? fun p =>
    match s.heap[p]? with
    | none => none
    | some b => if b.reqType = .compaction then imageValue cfg b.reqSeg.data key else none

/-- A READ batch with a live request, issued in a reachable state without a flush in flight. -/
structure ReadIssued (cfg : Config) where
  alloc : Allocator cfg
  /-- The tree search of the workers, whatever it does. -/
  search : System cfg → ℕ → ℕ → ℕ → Except Fault (System cfg)
  /-- What the initialisation found on disk, the batches and the memory. -/
  isFlushedTo : ℕ → ℕ → Bool
  heap : Heap cfg
  mem : Memory
  /-- The history: compactions, earlier READ batches, and the steps of the workers. -/
  history : List SystemEvent
  state : System cfg
  ran : runEvents (System.step alloc search) (System.start cfg isFlushedTo heap mem) history
    = .ok state
  flushes_done : state.inFlight = []
  readBatch : ℕ
  batch : RequestBatch cfg
  readBatch_eq : state.heap[readBatch]? = some batch
  is_read : batch.reqType = .read
  request : ConnectionRequest
  request_mem : request ∈ batch.readwritePool.entries
  request_live : request.clientSockFd ≠ -1

namespace ReadIssued

/-- The READ comes back, with the newest value of its key, or unfilled if there is none. -/
def ReturnsNewest (x : ReadIssued cfg) : Prop :=
  ∃ later s, runEvents (System.step x.alloc x.search) x.state (.dispatch x.readBatch :: later)
      = .ok s
    ∧ (∃ p ∈ s.answers, ∃ b, s.heap[p]? = some b ∧ x.request.payload ∈ requestsOf b)
    ∧ bytesAt s.mem (x.request.buffer + 5 + cfg.keyLength) cfg.valueLength
      = (newestValue x.state (keyAt cfg x.state.mem x.request.buffer)).getD
          (nulBytes cfg.valueLength)

end ReadIssued

/-- Nothing is enqueued of a READ batch: with a live request in it, the call has no outcome. -/
theorem System.insertIntoWqs_read {alloc : Allocator cfg} {s s' : System cfg} {l p : ℕ}
    {b : RequestBatch cfg} (hb : s.heap[p]? = some b) (hread : b.reqType = .read)
    (h : s.insertIntoWqs alloc l p = .ok s') :
    ∀ conn ∈ b.readwritePool.entries, conn.clientSockFd = -1 := by
  unfold System.insertIntoWqs at h
  split at h
  · cases h
  · rcases bind_eq_ok.1 h with ⟨⟨info, heap, d⟩, hd, h⟩
    rcases bind_eq_ok.1 h with ⟨queues, hdel, -⟩
    rcases LevelInfo.decompose_cases hd with ⟨b', hb', ⟨-, -, hout⟩ | ⟨hne, -⟩⟩
    · rw [hb] at hb'
      cases hb'
      rcases hout.parts with ⟨hdead, -⟩ | ⟨-, hnum, -⟩
      · exact hdead
      · have hone : d.numReqBatches ≠ 0 := by rw [hnum]; exact Nat.one_ne_zero
        have hfirst := firstPart_eq_none hout.below
        rw [deliver, if_neg hone, hfirst] at hdel
        split_ifs at hdel
    · rw [hb] at hb'
      cases hb'
      exact absurd hread hne

/-- A live READ batch cannot be dispatched. -/
theorem ReadIssued.not_dispatched (x : ReadIssued cfg) (s : System cfg) :
    System.step x.alloc x.search x.state (.dispatch x.readBatch) ≠ .ok s := by
  intro h
  rcases bind_eq_ok.1 h with ⟨s', hwqs, -⟩
  exact x.request_live
    (System.insertIntoWqs_read x.readBatch_eq x.is_read hwqs x.request x.request_mem)

theorem ReadIssued.no_continuation (x : ReadIssued cfg) (later : List SystemEvent)
    (s : System cfg) :
    runEvents (System.step x.alloc x.search) x.state (.dispatch x.readBatch :: later) ≠ .ok s := by
  intro h
  cases hs : System.step x.alloc x.search x.state (.dispatch x.readBatch) with
  | ok s' => exact x.not_dispatched s' hs
  | error f =>
      rw [runEvents_cons_error hs] at h
      cases h

/-- **No READ of a flushed key ever comes back**, whatever the history, the order of the workers
and the search. -/
theorem readIssued_not_returned (x : ReadIssued cfg) : ¬ x.ReturnsNewest := by
  rintro ⟨later, s, hrun, -, -⟩
  exact x.no_continuation later s hrun

/-- `testImage` is flushed to the first SSTable, the flush is reported, and its key is read. -/
def testReadIssued : ReadIssued oneTableConfig where
  alloc := Allocator.zeroed oneTableConfig
  search := fun s _ _ _ => .ok s
  isFlushedTo := fun _ _ => false
  heap := testHeap
  mem := store (fun _ => 0) 0 testRead
  history := [.dispatch 0, .work 0 0, .report 0 0]
  state := _
  ran := rfl
  flushes_done := rfl
  readBatch := 1
  batch := testReadBatch
  readBatch_eq := rfl
  is_read := testReadBatch_isRead
  request := ⟨.read, 1, 1, 0⟩
  request_mem := testRequest_mem
  request_live := by decide

/-- **The READ of key `a` does not come back**, with its value `bb` in SSTable 0. -/
theorem testReadIssued_not_returned :
    newestValue testReadIssued.state [97] = some [98, 98] ∧ ¬ testReadIssued.ReturnsNewest := by
  refine ⟨?_, ?_⟩
  · rfl
  · rintro ⟨later, s, hrun, -, -⟩
    exact testReadIssued.no_continuation later s hrun

end RingDB
