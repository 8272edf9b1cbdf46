import RingDB.Core.Run
import RingDB.Requests.Batch

/-!
# The network thread

`network_thread_routine` submits what it has prepared, waits for `BATCH_NUM_REQUESTS` completions,
takes one submission entry for the variable `sqe` and looks at every completion there is.  Which of
its four branches a completion takes is read from the object that the completion points to; here a
`Completion` names the branch and the object, and `Network.Dispatch` is about how they are found.

* `acceptBranch` — a new connection: its object in the `ConnectionPool` is filled in and a `recv`
  is prepared.
* `recvBranch` — a request arrived: it goes into the current batch, unless the batch is full; then
  the batch goes to the main ring and a new one takes its place.
* `sendBranch` — an answer is out: the connection is closed and the batch counts one more.
* `batchBranch` — a batch came back: an answer is prepared for every entry that still has a client.

All four write to the entry that `sqe` points to; `batchBranch` takes a new one after every answer
but the last.  `Submissions` keeps the entries together with the record of what was ever written to
them.  The fields of `Log` record what happened, and no branch depends on them; `deleted` alone is
looked at, because a deleted batch must not be used.
-/

namespace RingDB

open Core

/-- `ConnectionPool`.  `none` marks an object that was never filled in. -/
structure ConnectionPool where
  connections : List (Option ConnectionRequest)
  bufferPool : ℕ

namespace ConnectionPool

/-- The pool of `numConnections` connections over the socket buffers at `bufferPool`. -/
def new (numConnections bufferPool : ℕ) : ConnectionPool where
  connections := List.replicate numConnections none
  bufferPool := bufferPool

/-- `buffer_pool + (client_sockfd - 1)` -/
def bufferOf (pool : ConnectionPool) (clientSockfd : ℤ) : ℕ :=
  pool.bufferPool + (clientSockfd - 1).toNat

/-- `insert`, with the place of the object it returns.  The object's `req_batch_ref` stays as it
was. -/
def insert (pool : ConnectionPool) (clientSockfd : ℤ) (reqType : RequestType) :
    Except Fault (ConnectionPool × ℕ) :=
  let i := (clientSockfd - 1).toNat
  match pool.connections[i]? with
  | none => .error .outOfBounds
  | some old =>
      if 0 < clientSockfd then
        .ok ({ pool with
          connections := pool.connections.set i (some
            { reqType
              reqBatchRef := (old.map ConnectionRequest.reqBatchRef).getD 0
              clientSockFd := clientSockfd
              buffer := pool.bufferOf clientSockfd }) }, i)
      else .error .outOfBounds

/-- The object at place `i`. -/
def connection (pool : ConnectionPool) (i : ℕ) : Except Fault ConnectionRequest :=
  match pool.connections[i]? with
  | none => .error .outOfBounds
  | some none => .error .uninitialised
  | some (some conn) => .ok conn

/-- An insertion fills in the object of the descriptor, and no other. -/
theorem insert_cases {pool pool' : ConnectionPool} {clientSockfd : ℤ} {reqType : RequestType}
    {i : ℕ} (h : pool.insert clientSockfd reqType = .ok (pool', i)) :
    0 < clientSockfd ∧ i = (clientSockfd - 1).toNat ∧ i < pool.connections.length ∧
      ∃ conn : ConnectionRequest, conn.reqType = reqType ∧ conn.clientSockFd = clientSockfd ∧
        conn.buffer = pool.bufferOf clientSockfd ∧
        pool' = { pool with connections := pool.connections.set i (some conn) } := by
  cases hold : pool.connections[(clientSockfd - 1).toNat]? with
  | none =>
      simp only [insert, hold] at h
      cases h
  | some old =>
      simp only [insert, hold] at h
      split_ifs at h with hpos
      cases h
      exact ⟨hpos, rfl, (List.getElem?_eq_some_iff.1 hold).1, _, rfl, rfl, rfl, rfl⟩

theorem connection_ok_iff {pool : ConnectionPool} {i : ℕ} {conn : ConnectionRequest} :
    pool.connection i = .ok conn ↔ pool.connections[i]? = some (some conn) := by
  unfold connection
  cases pool.connections[i]? with
  | none => simp
  | some c =>
      cases c with
      | none => simp
      | some conn' => simp

end ConnectionPool

namespace Network

/-- What a submission entry asks for. -/
inductive Operation where
  | accept
  /-- The object at place `conn` of the connection pool receives into its buffer. -/
  | recv (clientSockFd : ℤ) (buffer conn : ℕ)
  /-- The batch goes to the main ring. -/
  | message (batch : ℕ)
  /-- The answer of an entry of a batch. -/
  | sendZc (clientSockFd : ℤ) (buffer batch entry : ℕ)
  | closeDirect (clientSockFd : ℤ)
  deriving DecidableEq, Repr

/-- The submission entries taken since the last submission, every operation prepared since then
with the entry it was written to, and every operation prepared at all. -/
structure Submissions where
  entries : List (Option Operation) := []
  prepared : List (ℕ × Operation) := []
  history : List Operation := []

namespace Submissions

/-- `io_uring_get_sqe`: a fresh entry, with its number. -/
def getSqe (q : Submissions) : Submissions × ℕ :=
  ({ q with entries := q.entries ++ [none] }, q.entries.length)

/-- An `io_uring_prep_…` call overwrites the entry. -/
def prep (q : Submissions) (sqe : ℕ) (op : Operation) : Submissions where
  entries := q.entries.set sqe (some op)
  prepared := q.prepared ++ [(sqe, op)]
  history := q.history ++ [op]

/-- Every operation was written to an entry of its own, where it still stands. -/
def OwnEntries (q : Submissions) : Prop :=
  (q.prepared.map Prod.fst).Nodup ∧ ∀ w ∈ q.prepared, q.entries[w.1]? = some (some w.2)

end Submissions

/-- A completion: the branch that it takes, with the object and the fields that the branch uses. -/
inductive Completion where
  | accept (res : ℤ) (more : Bool)
  | recv (conn : ℕ)
  | send (batch entry : ℕ) (more : Bool)
  | batch (batch : ℕ)
  deriving DecidableEq, Repr

/-- What a received request is: its buffer, its client and its type. -/
abbrev Request := ℕ × ℤ × RequestType

/-- The entry has a client to answer. -/
def isLive (c : ConnectionRequest) : Bool := c.clientSockFd != -1

structure Log where
  /-- The requests that arrived. -/
  received : List Request := []
  /-- The batches that went to the main ring. -/
  handedOver : List ℕ := []
  /-- The batches that came back. -/
  delivered : List ℕ := []
  /-- The answers that were prepared: batch and entry. -/
  sends : List (ℕ × ℕ) := []
  /-- The answers that are out. -/
  finished : List (ℕ × ℕ) := []
  deleted : List ℕ := []

structure State (cfg : Config) where
  mem : Memory
  heap : Heap cfg
  pool : ConnectionPool
  /-- The batch that requests are collected in. -/
  batch : ℕ
  subs : Submissions
  sqe : ℕ
  log : Log

variable {cfg : Config}

namespace State

/-- The state before the first wait: the current batch is a new one. -/
def start (alloc : Allocator cfg) (heap : Heap cfg) (mem : Memory) (pool : ConnectionPool) :
    State cfg where
  mem := mem
  heap := (heap.alloc alloc .read).1
  pool := pool
  batch := (heap.alloc alloc .read).2
  subs := {}
  sqe := 0
  log := {}

/-- `sqe = io_uring_get_sqe(network_ring)` -/
def getSqe (s : State cfg) : State cfg :=
  { s with subs := s.subs.getSqe.1, sqe := s.subs.getSqe.2 }

/-- An operation written to the current entry. -/
def prep (s : State cfg) (op : Operation) : State cfg :=
  { s with subs := s.subs.prep s.sqe op }

/-- An operation written to an entry that is taken for it and given no name. -/
def prepFresh (s : State cfg) (op : Operation) : State cfg :=
  { s with subs := s.subs.getSqe.1.prep s.subs.getSqe.2 op }

/-- A batch that has not been deleted. -/
def deref (s : State cfg) (p : ℕ) : Except Fault (RequestBatch cfg) :=
  if p ∈ s.log.deleted then .error .wildPointer else s.heap.deref p

/-- `++num_sent` -/
def countSent (s : State cfg) (p : ℕ) : State cfg :=
  { s with heap := s.heap.modifyPool p fun pool => { pool with numSent := pool.numSent + 1 } }

/-- `if (num_sent == length) delete …` -/
def deleteIfSent (s : State cfg) (p : ℕ) : Except Fault (State cfg) := do
  let b ← s.deref p
  if b.readwritePool.numSent = b.readwritePool.entries.length then
    pure { s with log := { s.log with deleted := s.log.deleted ++ [p] } }
  else pure s

/-- The entries of batch `p`. -/
def entriesOf (s : State cfg) (p : ℕ) : List ConnectionRequest :=
  match s.heap[p]? with
  | none => []
  | some b => b.readwritePool.entries

/-! ## The branches -/

def acceptBranch (s : State cfg) (res : ℤ) (more : Bool) : Except Fault (State cfg) :=
  if 0 < res then do
    let (pool, conn) ← s.pool.insert res .recv
    let s := { s with pool }.prep (.recv res (pool.bufferOf res) conn)
    pure (if more then s else s.prepFresh .accept)
  else .ok s

/-- `std::fill(first, last, '\0')`; `last` must not lie before `first`. -/
def fillNul (mem : Memory) (first last : ℕ) : Except Fault Memory :=
  if first ≤ last then .ok (store mem first (nulBytes (last - first))) else .error .outOfBounds

/-- The five characters of `"read"`. -/
def readTag : Bytes := [114, 101, 97, 100, 0]

/-- `(!!std::memcmp(socket_buffer, "read", 5)) + 3` -/
def requestType (mem : Memory) (buffer : ℕ) : RequestType :=
  if memcmp (bytesAt mem buffer 5) readTag = .eq then .read else .write

/-- A request arrived.  The one that finds the batch full is not put into any. -/
def recvBranch (alloc : Allocator cfg) (s : State cfg) (i : ℕ) : Except Fault (State cfg) := do
  let conn ← s.pool.connection i
  let mem ← fillNul s.mem (conn.buffer + 5 + cfg.keyLength) (conn.buffer + cfg.valueLength)
  let reqType := requestType mem conn.buffer
  let s := { s with
    mem
    log := { s.log with
      received := s.log.received ++ [(conn.buffer, conn.clientSockFd, reqType)] } }
  let b ← s.deref s.batch
  if b.readwritePool.entries.length < cfg.batchNumRequests then
    let heap ← s.heap.insertReadWrite mem s.batch conn.buffer conn.clientSockFd reqType
    pure { s with heap }
  else
    let s := s.prep (.message s.batch)
    pure { s with
      heap := (s.heap.alloc alloc .read).1
      batch := (s.heap.alloc alloc .read).2
      log := { s.log with handedOver := s.log.handedOver ++ [s.batch] } }

/-- The answer of entry `j` of batch `p` is out, if `more` does not announce another completion
of it.  The batch is found through the entry. -/
def sendBranch (s : State cfg) (p j : ℕ) (more : Bool) : Except Fault (State cfg) := do
  let b ← s.deref p
  match b.readwritePool.entries[j]? with
  | none => .error .wildPointer
  | some conn =>
      if more then pure s
      else do
        let _ ← s.deref conn.reqBatchRef
        let s := (s.prep (.closeDirect conn.clientSockFd)).countSent conn.reqBatchRef
        let s := { s with log := { s.log with finished := s.log.finished ++ [(p, j)] } }
        s.deleteIfSent conn.reqBatchRef

/-- Entry `j` of a batch that came back: an answer, or one more that needs none. -/
def sendEntry (p : ℕ) (s : State cfg) (j : ℕ) (conn : ConnectionRequest) : State cfg :=
  if conn.clientSockFd ≠ -1 then
    { s.prep (.sendZc conn.clientSockFd conn.buffer p j) with
      log := { s.log with sends := s.log.sends ++ [(p, j)] } }
  else s.countSent p

/-- The loop over the entries of the batch, and the last one.  A new submission entry is taken
after every answer but the one of the last entry. -/
def sendEntries (p : ℕ) : State cfg → ℕ → List ConnectionRequest → State cfg
  | s, _, [] => s
  | s, j, [conn] => s.sendEntry p j conn
  | s, j, conn :: conns =>
      let s := s.sendEntry p j conn
      sendEntries p (if conn.clientSockFd ≠ -1 then s.getSqe else s) (j + 1) conns

/-- A batch came back.  Its `length - 1` is the bound of the loop, so it must not be empty. -/
def batchBranch (s : State cfg) (p : ℕ) : Except Fault (State cfg) := do
  let b ← s.deref p
  if b.readwritePool.entries = [] then .error .wildPointer
  else
    let s := { s with log := { s.log with delivered := s.log.delivered ++ [p] } }
    (sendEntries p s 0 b.readwritePool.entries).deleteIfSent p

/-- The body of `io_uring_for_each_cqe`. -/
def handle (alloc : Allocator cfg) (s : State cfg) : Completion → Except Fault (State cfg)
  | .accept res more => s.acceptBranch res more
  | .recv i => s.recvBranch alloc i
  | .send p j more => s.sendBranch p j more
  | .batch p => s.batchBranch p

/-- `io_uring_submit_and_wait`, and the entry that `sqe` points to then. -/
def wait (s : State cfg) : State cfg :=
  { s with subs := { history := s.subs.history } }.getSqe

/-- One pass over the completions that are there. -/
def pass (alloc : Allocator cfg) (s : State cfg) (cqes : List Completion) :
    Except Fault (State cfg) :=
  runEvents (handle alloc) s.wait cqes

end State

/-- What happens to the network thread: it waits, it handles a completion, or the kernel and the
other threads change memory. -/
inductive Event where
  | wait
  | cqe (completion : Completion)
  | memory (mem : Memory)

/-- One event. -/
def step (alloc : Allocator cfg) (s : State cfg) : Event → Except Fault (State cfg)
  | .wait => .ok s.wait
  | .cqe c => s.handle alloc c
  | .memory mem => .ok { s with mem }

/-! ## What the branches leave alone -/

namespace State

variable {s s' : State cfg} {p q : ℕ}

theorem deref_ok_iff {b : RequestBatch cfg} :
    s.deref p = .ok b ↔ p ∉ s.log.deleted ∧ s.heap[p]? = some b := by
  unfold deref
  split_ifs with h
  · simp [h]
  · simp [h, Heap.deref_ok_iff]

theorem entriesOf_eq {b : RequestBatch cfg} (h : s.heap[p]? = some b) :
    s.entriesOf p = b.readwritePool.entries := by
  rw [entriesOf, h]

theorem entriesOf_congr (h : s'.heap = s.heap) : s'.entriesOf = s.entriesOf := by
  funext p
  simp only [entriesOf, h]

/-- Counting changes nothing of a batch but `num_sent`. -/
theorem map_countSent {β : Type} {f : RequestBatch cfg → β}
    (hf : ∀ b n, f { b with readwritePool := { b.readwritePool with numSent := n } } = f b)
    (s : State cfg) (q : ℕ) : (s.countSent q).heap.map f = s.heap.map f := by
  apply List.ext_getElem?
  intro p
  simp only [countSent, Heap.modifyPool, List.getElem?_map, List.getElem?_modify]
  by_cases h : q = p
  · cases s.heap[p]? with
    | none => rfl
    | some b => simp [h, hf]
  · cases s.heap[p]? with
    | none => rfl
    | some b => simp [h]

theorem entriesOf_of_map {p : ℕ} (h : s'.heap.map (·.readwritePool.entries)
    = s.heap.map (·.readwritePool.entries)) : s'.entriesOf p = s.entriesOf p := by
  have hp := congrArg (·[p]?) h
  simp only [List.getElem?_map] at hp
  simp only [entriesOf]
  cases hs : s.heap[p]? with
  | none =>
      rw [hs, Option.map_none, Option.map_eq_none_iff] at hp
      rw [hp]
  | some b =>
      rw [hs, Option.map_some, Option.map_eq_some_iff] at hp
      rcases hp with ⟨b', hb', hent⟩
      rw [hb']
      exact hent

theorem entriesOf_countSent (s : State cfg) (q : ℕ) : (s.countSent q).entriesOf = s.entriesOf :=
  funext fun _ => entriesOf_of_map (map_countSent (fun _ _ => rfl) s q)

theorem length_countSent (s : State cfg) (q : ℕ) :
    (s.countSent q).heap.length = s.heap.length := by
  simp [countSent, Heap.modifyPool]

/-- A deletion is recorded, and nothing else happens. -/
theorem deleteIfSent_frame (h : s.deleteIfSent p = .ok s') : ∃ log, s' = { s with log } := by
  rcases bind_eq_ok.1 h with ⟨b, -, h⟩
  split_ifs at h
  · cases h
    exact ⟨_, rfl⟩
  · cases h
    exact ⟨s.log, rfl⟩

/-! ## What each branch can do -/

theorem acceptBranch_cases {res : ℤ} {more : Bool} (h : s.acceptBranch res more = .ok s') :
    (¬ 0 < res ∧ s' = s) ∨
      (0 < res ∧ ∃ pool conn, s.pool.insert res .recv = .ok (pool, conn) ∧
        s' = if more then { s with pool }.prep (.recv res (pool.bufferOf res) conn)
          else ({ s with pool }.prep (.recv res (pool.bufferOf res) conn)).prepFresh .accept) := by
  by_cases hres : 0 < res
  · rw [acceptBranch, if_pos hres] at h
    rcases bind_eq_ok.1 h with ⟨⟨pool, conn⟩, hins, h⟩
    cases h
    exact .inr ⟨hres, pool, conn, hins, rfl⟩
  · rw [acceptBranch, if_neg hres] at h
    cases h
    exact .inl ⟨hres, rfl⟩

/-- The state in which a received request has been recorded and not yet put anywhere. -/
def recordReceived (s : State cfg) (mem : Memory) (conn : ConnectionRequest) : State cfg :=
  { s with
    mem
    log := { s.log with
      received := s.log.received
        ++ [(conn.buffer, conn.clientSockFd, requestType mem conn.buffer)] } }

theorem recvBranch_cases {alloc : Allocator cfg} {i : ℕ} (h : s.recvBranch alloc i = .ok s') :
    ∃ conn mem b, s.pool.connection i = .ok conn ∧
      fillNul s.mem (conn.buffer + 5 + cfg.keyLength) (conn.buffer + cfg.valueLength) = .ok mem ∧
      s.deref s.batch = .ok b ∧
      ((b.readwritePool.entries.length < cfg.batchNumRequests ∧ ∃ heap,
          s.heap.insertReadWrite mem s.batch conn.buffer conn.clientSockFd
            (requestType mem conn.buffer) = .ok heap ∧
          s' = { s.recordReceived mem conn with heap }) ∨
        (¬ b.readwritePool.entries.length < cfg.batchNumRequests ∧
          s' = { (s.recordReceived mem conn).prep (.message s.batch) with
            heap := (s.heap.alloc alloc .read).1
            batch := (s.heap.alloc alloc .read).2
            log := { (s.recordReceived mem conn).log with
              handedOver := s.log.handedOver ++ [s.batch] } })) := by
  rcases bind_eq_ok.1 h with ⟨conn, hconn, h⟩
  rcases bind_eq_ok.1 h with ⟨mem, hmem, h⟩
  rcases bind_eq_ok.1 h with ⟨b, hb, h⟩
  refine ⟨conn, mem, b, hconn, hmem, hb, ?_⟩
  split_ifs at h with hroom
  · rcases bind_eq_ok.1 h with ⟨heap, hheap, h⟩
    cases h
    exact .inl ⟨hroom, heap, hheap, rfl⟩
  · cases h
    exact .inr ⟨hroom, rfl⟩

theorem sendBranch_cases {j : ℕ} {more : Bool} (h : s.sendBranch p j more = .ok s') :
    ∃ b conn, s.deref p = .ok b ∧ b.readwritePool.entries[j]? = some conn ∧
      ((more = true ∧ s' = s) ∨
        (more = false ∧ ∃ b', s.deref conn.reqBatchRef = .ok b' ∧
          deleteIfSent
            { (s.prep (.closeDirect conn.clientSockFd)).countSent conn.reqBatchRef with
              log := { s.log with finished := s.log.finished ++ [(p, j)] } }
            conn.reqBatchRef = .ok s')) := by
  rcases bind_eq_ok.1 h with ⟨b, hb, h⟩
  split at h
  · cases h
  · rename_i conn hconn
    refine ⟨b, conn, hb, hconn, ?_⟩
    split_ifs at h with hmore
    · cases h
      exact .inl ⟨hmore, rfl⟩
    · rcases bind_eq_ok.1 h with ⟨b', hb', h⟩
      exact .inr ⟨by simpa using hmore, b', hb', h⟩

theorem sendEntries_last (p : ℕ) (s : State cfg) (j : ℕ) (conn : ConnectionRequest) :
    sendEntries p s j [conn] = s.sendEntry p j conn := rfl

theorem sendEntries_live {j : ℕ} {conn conn' : ConnectionRequest} {es : List ConnectionRequest}
    (h : conn.clientSockFd ≠ -1) : sendEntries p s j (conn :: conn' :: es)
      = sendEntries p (s.sendEntry p j conn).getSqe (j + 1) (conn' :: es) := by
  rw [sendEntries, if_pos h]
  exact fun hnil => List.cons_ne_nil _ _ hnil

theorem sendEntries_dead {j : ℕ} {conn conn' : ConnectionRequest} {es : List ConnectionRequest}
    (h : conn.clientSockFd = -1) : sendEntries p s j (conn :: conn' :: es)
      = sendEntries p (s.sendEntry p j conn) (j + 1) (conn' :: es) := by
  rw [sendEntries, if_neg (not_not.2 h)]
  exact fun hnil => List.cons_ne_nil _ _ hnil

theorem sendEntry_frame {β : Type} {f : RequestBatch cfg → β}
    (hf : ∀ b n, f { b with readwritePool := { b.readwritePool with numSent := n } } = f b)
    (p : ℕ) (s : State cfg) (j : ℕ) (conn : ConnectionRequest) :
    (s.sendEntry p j conn).heap.map f = s.heap.map f ∧ (s.sendEntry p j conn).batch = s.batch
      ∧ (s.sendEntry p j conn).pool = s.pool := by
  unfold sendEntry
  split_ifs
  · exact ⟨rfl, rfl, rfl⟩
  · exact ⟨map_countSent hf s p, rfl, rfl⟩

/-- Answering a batch changes nothing of any but `num_sent`. -/
theorem sendEntries_frame {β : Type} {f : RequestBatch cfg → β}
    (hf : ∀ b n, f { b with readwritePool := { b.readwritePool with numSent := n } } = f b)
    (p : ℕ) (s : State cfg) (j : ℕ) (es : List ConnectionRequest) :
    (sendEntries p s j es).heap.map f = s.heap.map f ∧ (sendEntries p s j es).batch = s.batch
      ∧ (sendEntries p s j es).pool = s.pool := by
  induction es generalizing s j with
  | nil => exact ⟨rfl, rfl, rfl⟩
  | cons conn es ih =>
      rcases sendEntry_frame hf p s j conn with ⟨he, hb, hp⟩
      cases es with
      | nil => exact ⟨he, hb, hp⟩
      | cons conn' es =>
          by_cases hlive : conn.clientSockFd = -1
          · rw [sendEntries_dead hlive]
            rcases ih (s.sendEntry p j conn) (j + 1) with ⟨he', hb', hp'⟩
            exact ⟨he'.trans he, hb'.trans hb, hp'.trans hp⟩
          · rw [sendEntries_live hlive]
            rcases ih (s.sendEntry p j conn).getSqe (j + 1) with ⟨he', hb', hp'⟩
            exact ⟨he'.trans he, hb'.trans hb, hp'.trans hp⟩

theorem entriesOf_sendEntries (p : ℕ) (s : State cfg) (j : ℕ) (es : List ConnectionRequest) :
    (sendEntries p s j es).entriesOf = s.entriesOf ∧ (sendEntries p s j es).batch = s.batch
      ∧ (sendEntries p s j es).heap.length = s.heap.length := by
  obtain ⟨he, hb, -⟩ := sendEntries_frame (f := (·.readwritePool.entries)) (fun _ _ => rfl) p s j es
  exact ⟨funext fun _ => entriesOf_of_map he, hb, by simpa using congrArg List.length he⟩

theorem history_sendEntry {op : Operation} {j : ℕ} {conn : ConnectionRequest}
    (h : op ∈ (s.sendEntry p j conn).subs.history) :
    op ∈ s.subs.history
      ∨ (conn.clientSockFd ≠ -1 ∧ op = .sendZc conn.clientSockFd conn.buffer p j) := by
  unfold sendEntry at h
  split_ifs at h with hlive
  · exact (List.mem_append.1 h).imp id fun hop => ⟨hlive, List.mem_singleton.1 hop⟩
  · exact .inl h

/-- Answering a batch prepares an answer of a live entry, and nothing else. -/
theorem history_sendEntries {op : Operation} (p : ℕ) (s : State cfg) (j : ℕ)
    (es : List ConnectionRequest) (h : op ∈ (sendEntries p s j es).subs.history) :
    op ∈ s.subs.history ∨ ∃ conn ∈ es, conn.clientSockFd ≠ -1
      ∧ ∃ i, op = .sendZc conn.clientSockFd conn.buffer p i := by
  have hfirst : ∀ {t : State cfg} {i : ℕ} {conn : ConnectionRequest} {es : List ConnectionRequest},
      op ∈ (t.sendEntry p i conn).subs.history → op ∈ t.subs.history
        ∨ ∃ c ∈ conn :: es, c.clientSockFd ≠ -1
          ∧ ∃ i, op = .sendZc c.clientSockFd c.buffer p i := by
    intro t i conn es hop
    refine (history_sendEntry hop).imp id ?_
    rintro ⟨hlive, heq⟩
    exact ⟨conn, List.mem_cons_self, hlive, i, heq⟩
  induction es generalizing s j with
  | nil => exact .inl h
  | cons conn es ih =>
      cases es with
      | nil => exact hfirst h
      | cons conn' es =>
          have hrest : op ∈ (s.sendEntry p j conn).subs.history
              ∨ ∃ conn ∈ conn' :: es, conn.clientSockFd ≠ -1
                ∧ ∃ i, op = .sendZc conn.clientSockFd conn.buffer p i := by
            by_cases hdead : conn.clientSockFd = -1
            · rw [sendEntries_dead hdead] at h
              exact ih _ _ h
            · rw [sendEntries_live hdead] at h
              exact ih (s.sendEntry p j conn).getSqe _ h
          rcases hrest with hrest | ⟨c, hc, hsend⟩
          · exact hfirst hrest
          · exact .inr ⟨c, List.mem_cons_of_mem _ hc, hsend⟩

theorem batchBranch_cases (h : s.batchBranch p = .ok s') :
    ∃ b, s.deref p = .ok b ∧ b.readwritePool.entries ≠ [] ∧
      (sendEntries p { s with log := { s.log with delivered := s.log.delivered ++ [p] } } 0
        b.readwritePool.entries).deleteIfSent p = .ok s' := by
  rcases bind_eq_ok.1 h with ⟨b, hb, h⟩
  split_ifs at h with hne
  exact ⟨b, hb, hne, h⟩

end State

end Network

end RingDB
