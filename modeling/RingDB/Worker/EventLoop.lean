import RingDB.Core.Run
import RingDB.Worker.TreeRead

/-!
# The event loops of the worker threads

Each worker thread owns `WORKER_SSTABLE_BATCH_SIZE` SSTables and a scheduler ring.  It runs three
loops one after the other: initialization, the wait for the network ring's descriptor, and the
main loop.  A pass of the first and the last one visits the SSTables in turn and looks at the
scheduler ring once per SSTable, so a worker's program is a sequence of two kinds of turns, `peek`
and `visit`.

**Chains.**  What is submitted for an SSTable is a chain of linked operations whose last one sends
the SSTable's number to the scheduler ring of the worker.  An operation flagged
`IOSQE_CQE_SKIP_SUCCESS` leaves a completion only when it fails; the others leave one in the
SSTable's own ring, where it stays until the code consumes it.  Initialization never does.

Every chain is taken to report once.  The kernel goes on along a chain only as long as its reads are
complete: behind one that fails or comes short, at the end of a file for example, it cancels what is
linked, the message included.  The model does not follow it there, so the runs below in which such a
chain reports say what the code makes of the report; initialization is shown with full buffers
wherever the point of the run allows it.

**Wait queues.**  The wait queue of an SSTable is the list that a queue of one thread is
(`Requests.SingleThreadQueue`).  What two threads make of its nodes is the subject of
`Requests.QueueOrder` and `Levels.SharedQueues`.

**What is not decided here.**  When a chain completes and with which results, when batches arrive
and with which contents, when the network ring is announced, what the buffers hold and what a
transfer of buffers to or from a neighbour leaves is up to the run: each is an event, or the
argument of one.

* `initHandler`, `openTable` — the two turns of initialization.
* `mainHandler`, `visitTable` — the two turns of the main loop.
* `step` — one event.
-/

namespace RingDB

open Core

/-- What a chain does before it reports. -/
inductive ChainKind where
  | openFile
  /-- Two reads from `offset` on. -/
  | initRead (offset : ℕ)
  /-- A read for each pair of a file offset and a buffer. -/
  | cacheRead (reads : List (ℕ × ℕ))
  | flush
  deriving DecidableEq, Repr

namespace ChainKind

/-- A chain of reads or writes. -/
def isIo : ChainKind → Bool
  | openFile => false
  | _ => true

def isInitRead : ChainKind → Bool
  | initRead _ => true
  | _ => false

/-- Can these be the completions of the chain?  A flush is flagged to leave none unless it
fails; only cache reads set `user_data`. -/
def posts : ChainKind → List Cqe → Bool
  | openFile, cqes => cqes.length == 1
  | initRead _, cqes => cqes.length == 2
  | cacheRead reads, cqes => cqes.map Cqe.userData == reads.map Prod.fst
  | flush, cqes => cqes.length ≤ 1 && cqes.all fun c => c.res < 0

end ChainKind

/-- A submitted chain, with the worker whose scheduler ring it reports to. -/
structure Chain where
  worker : ℕ
  table : ℕ
  kind : ChainKind
  deriving DecidableEq, Repr

namespace Chain

/-- A chain of reads or writes for SSTable `n`. -/
def isIoOf (n : ℕ) (c : Chain) : Bool := c.kind.isIo && c.table == n

def isFlushOf (n : ℕ) (c : Chain) : Bool := c.kind == .flush && c.table == n

end Chain

/-- A message in a scheduler ring.  The worker sees no more of it than a number. -/
inductive Message where
  | done (chain : Chain)
  /-- From the network thread. -/
  | announcement (fd : ℕ)
  deriving DecidableEq, Repr

namespace Message

/-- The `user_data` of the message. -/
def userData : Message → ℕ
  | done c => c.table
  | announcement fd => fd

def chain? : Message → Option Chain
  | done c => some c
  | announcement _ => none

end Message

inductive Phase where
  | init
  | awaitFd
  | main
  deriving DecidableEq, Repr

/-- The next turn of a worker within its loop. -/
inductive Turn where
  | peek
  | visit
  deriving DecidableEq, Repr

structure WorkerState where
  phase : Phase
  turn : Turn
  i : ℕ
  numInitializedRead : ℕ
  scheduler : List Message
  deriving DecidableEq, Repr

namespace Config

variable (cfg : Config)

/-- `first_sstable_num` -/
def firstSstableNum (w : ℕ) : ℕ := w * cfg.workerSstableBatchSize

/-- `second_sstable_num`, compared with an `unsigned int`: with an empty batch it is `-1`. -/
def secondSstableNum (w : ℕ) : ℕ :=
  if cfg.workerSstableBatchSize = 0 then uintMax
  else cfg.firstSstableNum w + cfg.workerSstableBatchSize - 1

/-- The loops of worker `w` visit SSTable `n`. -/
def owns (w n : ℕ) : Prop := cfg.firstSstableNum w ≤ n ∧ n ≤ cfg.secondSstableNum w

instance (w n : ℕ) : Decidable (cfg.owns w n) := inferInstanceAs (Decidable (_ ∧ _))

end Config

namespace WorkerState

variable (cfg : Config)

/-- A worker that has just been started. -/
def start (w : ℕ) : WorkerState where
  phase := if 0 < cfg.workerSstableBatchSize then .init else .awaitFd
  turn := .peek
  i := cfg.firstSstableNum w
  numInitializedRead := 0
  scheduler := []

/-- A message arrives. -/
def receive (m : Message) (ws : WorkerState) : WorkerState :=
  { ws with scheduler := ws.scheduler ++ [m] }

/-- `++i` and the condition of the `for` loop, which begins again where it began. -/
def advance (w : ℕ) (ws : WorkerState) : WorkerState :=
  { ws with
    turn := .peek
    i := if ws.i < cfg.secondSstableNum w then ws.i + 1 else cfg.firstSstableNum w }

/-- The same in the initialization loop, whose condition is tested after every full pass. -/
def advanceInit (w : ℕ) (ws : WorkerState) : WorkerState :=
  if ws.i < cfg.secondSstableNum w ∨ ws.numInitializedRead < cfg.workerSstableBatchSize then
    ws.advance cfg w
  else { ws.advance cfg w with phase := .awaitFd }

end WorkerState

namespace Worker

variable {cfg : Config}

/-- What a turn does: to its SSTable, to the memory, and outside. -/
structure Outcome (cfg : Config) where
  table : SSTableInfo cfg
  mem : Option Memory := none
  submitted : List ChainKind := []
  /-- How often `num_read` and `num_initialized_read` were incremented. -/
  counted : ℕ := 0
  isPracticallyFull : Option Bool := none
  /-- The batch that goes to the next level or, from the last one, to the network thread. -/
  handedOver : Option ℕ := none

/-! ## Initialization -/

/-- One completion of what is taken for an initialization read. -/
def initResult (o : Outcome cfg) (j : ℕ) (res : ℤ) : Outcome cfg :=
  let t := o.table
  let t := if 0 < res then
      { t with
        desiredSstableOffset := (t.desiredSstableOffset + res.toNat) % 2 ^ 64
        isFlushedTo := true }
    else t
  if ReadWritePool.toUint res < cfg.fairAlignedSstablePageCacheBufferSize then
    { o with
      table := { t with desiredSstableOffset := sizeMax, waitingOnIo := false }
      counted := o.counted + 1 }
  else if j = 1 then
    { o with table := t, submitted := o.submitted ++ [.initRead t.desiredSstableOffset] }
  else { o with table := t }

/-- A message during initialization.  Two completions in the ring make it a file read; they are
looked at and not consumed. -/
def initHandler (t : SSTableInfo cfg) : Outcome cfg :=
  match t.ring with
  | c₀ :: c₁ :: _ => initResult (initResult { table := t } 0 c₀.res) 1 c₁.res
  | _ => { table := { t with desiredSstableOffset := 0 }, submitted := [.initRead 0] }

/-- The visit of an SSTable during initialization: on the first one its file is opened and it
gets its buffers. -/
def openTable (t : SSTableInfo cfg) : Outcome cfg :=
  if t.desiredSstableOffset = sizeMax - 1 then
    { table :=
        { t with
          desiredSstableOffset := 0
          cache :=
            { helper := CacheHelper.addBuffer^[cfg.maxSstableHeight] t.cache.helper
              buffers := List.replicate cfg.maxSstableHeight
                (nulBytes cfg.fairAlignedSstablePageCacheBufferSize) } }
      submitted := [.openFile] }
  else { table := t }

/-! ## The main loop -/

/-- One completion of what is taken for a cache read: completion `j` is entered for the `j`th
buffer after the next one, counted from wherever the completions before left the counter. -/
def enterCompletion (j : ℕ) (cqe : Cqe) (h : CacheHelper cfg) : Except Fault (CacheHelper cfg) :=
  let right := ((cqe.userData + cqe.res) % 2 ^ 64).toNat
  if 0 < cqe.res then do
    let h ← h.mapBufferToOffsetBoundary ((h.nextBuffer + j) % 2 ^ 32) cqe.userData right
    if ReadWritePool.toUint cqe.res < cfg.fairAlignedSstablePageCacheBufferSize then
      pure (h.setCurMinInvalidOffset ((right + 1) % 2 ^ 64))
    else pure h
  else pure (h.setCurMinInvalidOffset cqe.userData)

def enterCompletions : ℕ → List Cqe → CacheHelper cfg → Except Fault (CacheHelper cfg)
  | _, [], h => .ok h
  | j, cqe :: cqes, h => do
      let h ← enterCompletion j cqe h
      enterCompletions (j + 1) cqes h

/-- The SSTable whose search is resumed: its completions, two at most, entered and consumed. -/
def takeCompletions (t : SSTableInfo cfg) : Except Fault (SSTableInfo cfg) := do
  let helper ← enterCompletions 0 (t.ring.take 2) t.cache.helper
  pure { t with
    cache := { t.cache with helper }
    ring := t.ring.drop 2 }

/-- What a search leaves to be done. -/
def outcomeOf (r : SSTableInfo.ReadState cfg) : Outcome cfg where
  table := r.table
  mem := some r.mem
  submitted := (r.issued.map ChainKind.cacheRead).toList
  handedOver := if r.table.stack.empty then r.table.reqBatch else none

/-- A message in the main loop.  An SSTable ring without completions makes it a flush. -/
def mainHandler (heap : Heap cfg) (mem : Memory) (fuel level : ℕ) (t : SSTableInfo cfg) :
    Except Fault (Outcome cfg) :=
  match t.ring with
  | [] =>
      .ok { table := { t with isFlushedTo := true }
            isPracticallyFull := some (level == cfg.numSstableLevels - 1) }
  | _ :: _ => do
      let t ← takeCompletions t
      let r ← t.trySstableTreeReadInMemory heap fuel mem
      pure (outcomeOf r)

/-- What the transfers of buffers come to: what `try_add_buffers_nonblockingly` makes of the
cache, and what giving buffers away makes of it, if it comes to that. -/
structure Transfers (cfg : Config) where
  addBuffers : PageCache cfg → PageCache cfg := id
  giveBuffers : Option (PageCache cfg → PageCache cfg) := none

/-- The wait queue was empty. -/
def visitIdle (transfers : Transfers cfg) (level : ℕ) (t : SSTableInfo cfg) : SSTableInfo cfg :=
  if t.alreadyWaited = false then { t with alreadyWaited := true }
  else if level = 0 then t
  else match transfers.giveBuffers with
    | none => t
    | some give => { t with cache := give t.cache, alreadyWaited := false }

/-- A batch of reads that this SSTable has to look at. -/
def beginRead (heap : Heap cfg) (mem : Memory) (fuel : ℕ) (transfers : Transfers cfg)
    (length : ℕ) (t : SSTableInfo cfg) : Except Fault (Outcome cfg) := do
  let stack ← t.stack.pushTop (0, length / 2, 0, length)
  let r ← { t with
    cache := transfers.addBuffers t.cache
    desiredSstableOffset := 0
    stack }.trySstableTreeReadInMemory heap fuel mem
  pure (outcomeOf r)

/-- A batch was taken from the wait queue. -/
def visitBatch (heap : Heap cfg) (mem : Memory) (fuel : ℕ) (transfers : Transfers cfg)
    (level : ℕ) (b : RequestBatch cfg) (t : SSTableInfo cfg) : Except Fault (Outcome cfg) :=
  if b.reqType = .read then
    if (b.readwritePool.presentInLevel && t.isFlushedTo) = false then
      .ok { table := t, handedOver := t.reqBatch }
    else beginRead heap mem fuel transfers b.readwritePool.entries.length t
  else if t.isFlushedTo = true ∧ level < cfg.numSstableLevels - 1 then
    .ok { table := t, handedOver := t.reqBatch }
  else if t.isFlushedTo = false then
    .ok { table := { t with waitingOnIo := true }, submitted := [.flush] }
  -- the last level is full: the batch is deleted
  else .ok { table := t }

/-- The visit of an SSTable in the main loop. -/
def visitTable (heap : Heap cfg) (mem : Memory) (fuel : ℕ) (transfers : Transfers cfg)
    (level : ℕ) (t : SSTableInfo cfg) : Except Fault (Outcome cfg) :=
  if t.waitingOnIo = true then .ok { table := t }
  else match t.reqBatchWq with
    | [] => .ok { table := visitIdle transfers level { t with reqBatch := none } }
    | p :: rest => do
        let b ← heap.deref p
        visitBatch heap mem fuel transfers level b { t with reqBatchWq := rest, reqBatch := some p }

/-! ## The workers together -/

structure State (cfg : Config) where
  tables : List (SSTableInfo cfg)
  workers : List WorkerState
  /-- The chains that have not completed. -/
  inFlight : List Chain
  /-- Every chain ever submitted. -/
  submitted : List Chain
  /-- Every chain that has completed, with its completions. -/
  completed : List (Chain × List Cqe)
  numRead : ℕ
  isPracticallyFull : Bool
  /-- The batches that have left an SSTable, each with the SSTable. -/
  handedOver : List (ℕ × ℕ)
  heap : Heap cfg
  mem : Memory

inductive Event (cfg : Config) where
  /-- Chain `k` of those in flight completes. -/
  | complete (k : ℕ) (cqes : List Cqe)
  /-- The network thread sends its ring's descriptor to worker `w`. -/
  | announce (w fd : ℕ)
  /-- A batch is pushed to the wait queue of SSTable `n`. -/
  | arrive (n batch : ℕ)
  /-- The other threads change batches and socket buffers. -/
  | others (heap : Heap cfg) (mem : Memory)
  /-- The contents of the buffers of SSTable `n` change. -/
  | refill (n : ℕ) (buffers : List Bytes)
  /-- Worker `w` takes its next turn. -/
  | run (w fuel : ℕ) (transfers : Transfers cfg)

namespace State

/-- The state when the threads are started, over the stack slots that the allocator left. -/
def start (slots : ℕ → Stack cfg.maxSstableHeight) (heap : Heap cfg) (mem : Memory) :
    State cfg where
  tables := (List.range (cfg.numSstableLevels * cfg.levelFactor)).map fun n => .new (slots n)
  workers := (List.range cfg.numSstableWorkerThreads).map (WorkerState.start cfg)
  inFlight := []
  submitted := []
  completed := []
  numRead := 0
  isPracticallyFull := false
  handedOver := []
  heap
  mem

/-- `level_infos[n / LEVEL_FACTOR].sstable_infos[n % LEVEL_FACTOR]` -/
def table (s : State cfg) (n : ℕ) : Except Fault (SSTableInfo cfg) :=
  match s.tables[n]? with
  | none => .error .outOfBounds
  | some t => .ok t

def setWorker (s : State cfg) (w : ℕ) (ws : WorkerState) : State cfg :=
  { s with workers := s.workers.set w ws }

/-- The state after worker `w` had this outcome on SSTable `n`. -/
def apply (s : State cfg) (w n : ℕ) (o : Outcome cfg) : State cfg :=
  { s with
    tables := s.tables.set n o.table
    inFlight := s.inFlight ++ o.submitted.map (Chain.mk w n)
    submitted := s.submitted ++ o.submitted.map (Chain.mk w n)
    numRead := (s.numRead + o.counted) % 2 ^ 32
    isPracticallyFull := o.isPracticallyFull.getD s.isPracticallyFull
    handedOver := s.handedOver ++ (o.handedOver.map (n, ·)).toList
    mem := o.mem.getD s.mem }

/-- A message to the scheduler ring of worker `w`. -/
def post (s : State cfg) (w : ℕ) (m : Message) : State cfg :=
  { s with workers := s.workers.modify w (WorkerState.receive m) }

/-- Chain `k` has completed: its completions are in the ring of its SSTable, its message in the
scheduler ring of its worker. -/
def report (s : State cfg) (k : ℕ) (c : Chain) (cqes : List Cqe) : State cfg :=
  { s.post c.worker (.done c) with
    inFlight := s.inFlight.eraseIdx k
    completed := s.completed ++ [(c, cqes)]
    tables := s.tables.modify c.table fun t => { t with ring := t.ring ++ cqes } }

/-! ### The turns of a worker -/

def initPeek (s : State cfg) (w : ℕ) (ws : WorkerState) : Except Fault (State cfg) :=
  match ws.scheduler with
  | [] => .ok (s.setWorker w { ws with turn := .visit })
  | m :: ms => do
      let t ← s.table m.userData
      let o := initHandler t
      pure ((s.apply w m.userData o).setWorker w
        { ws with
          turn := .visit
          scheduler := ms
          numInitializedRead := ws.numInitializedRead + o.counted })

def initVisit (s : State cfg) (w : ℕ) (ws : WorkerState) : Except Fault (State cfg) := do
  let t ← s.table ws.i
  pure ((s.apply w ws.i (openTable t)).setWorker w (ws.advanceInit cfg w))

/-- `while (network_ringfd == -1)`: the first message is taken for the descriptor and stays where
it is. -/
def awaitNetworkRing (s : State cfg) (w : ℕ) (ws : WorkerState) : State cfg :=
  match ws.scheduler with
  | [] => s
  | m :: _ => if m.userData = uintMax then s else s.setWorker w { ws with phase := .main }

def mainPeek (s : State cfg) (w fuel : ℕ) (ws : WorkerState) : Except Fault (State cfg) :=
  match ws.scheduler with
  | [] => .ok (s.setWorker w { ws with turn := .visit })
  | m :: ms => do
      let t ← s.table m.userData
      let o ← mainHandler s.heap s.mem fuel (m.userData / cfg.levelFactor) t
      pure ((s.apply w m.userData o).setWorker w { ws with turn := .visit, scheduler := ms })

def mainVisit (s : State cfg) (w fuel : ℕ) (transfers : Transfers cfg) (ws : WorkerState) :
    Except Fault (State cfg) := do
  let t ← s.table ws.i
  let o ← visitTable s.heap s.mem fuel transfers (ws.i / cfg.levelFactor) t
  pure ((s.apply w ws.i o).setWorker w (ws.advance cfg w))

/-- The next turn of worker `w`. -/
def turn (s : State cfg) (w fuel : ℕ) (transfers : Transfers cfg) (ws : WorkerState) :
    Except Fault (State cfg) :=
  match ws.phase, ws.turn with
  | .init, .peek => s.initPeek w ws
  | .init, .visit => s.initVisit w ws
  | .awaitFd, _ => .ok (s.awaitNetworkRing w ws)
  | .main, .peek => s.mainPeek w fuel ws
  | .main, .visit => s.mainVisit w fuel transfers ws

end State

/-- One event.  An event that cannot happen changes nothing; the network thread is started when
`num_read` has reached `NUM_SSTABLES`. -/
def step (s : State cfg) : Event cfg → Except Fault (State cfg)
  | .complete k cqes =>
      match s.inFlight[k]? with
      | none => .ok s
      | some c => .ok (if c.kind.posts cqes then s.report k c cqes else s)
  | .announce w fd =>
      .ok (if cfg.numSstables ≤ s.numRead then s.post w (.announcement fd) else s)
  | .arrive n batch =>
      .ok { s with
        tables := s.tables.modify n fun t => { t with reqBatchWq := t.reqBatchWq ++ [batch] } }
  | .others heap mem => .ok { s with heap, mem }
  | .refill n buffers =>
      .ok { s with
        tables := s.tables.modify n fun t =>
          { t with
            cache :=
              { t.cache with
                buffers := if buffers.length = t.cache.buffers.length then buffers
                  else t.cache.buffers } } }
  | .run w fuel transfers =>
      match s.workers[w]? with
      | none => .ok s
      | some ws => s.turn w fuel transfers ws

/-- One worker with four SSTables, on two levels. -/
def fourTableConfig : Config := resizedConfig 8 2 1 Nat.two_pos two_le_uintMax Nat.one_pos

/-- `n` turns of worker `w`, with no buffers to transfer. -/
def turns (w n : ℕ) : List (Event cfg) := List.replicate n (.run w 1 {})

/-- The two reads of chain `k` fill their buffers. -/
def fullReads (k : ℕ) : Event cfg :=
  .complete k (List.replicate 2 ⟨0, cfg.fairAlignedSstablePageCacheBufferSize⟩)

/-- The four files are opened and the first two buffers of each are filled.  Each SSTable is counted
once, by its descriptor, which is less than a buffer, and a second pair of reads is submitted for
it. -/
def fullRun : List (Event fourTableConfig) :=
  turns 0 8 ++ List.replicate 4 (.complete 0 [⟨0, 7⟩]) ++ turns 0 8 ++
    List.replicate 4 (fullReads 0) ++ turns 0 8

end Worker

end RingDB
