import RingDB.Core.Run
import RingDB.LevelZero.MemTable
import RingDB.Levels.Enqueue

/-!
# The request loop of the main thread

`LSMTree::start_ringdb` takes the requests of a batch one by one: it looks the key up in the
memtables' sparse index, answers a READ from a memtable if it can, collects the READs that missed
in `read_batch`, and writes or compacts for a WRITE.  Full read batches and memtable images are
passed on to `insert_into_wqs(0, …)`.

The class is a template over its memtables, its sparse index and its levels, and so is the model:
`LevelZero` collects the operations that the loop calls, and `ringLevelZero` is the instance of
`main.cpp`.

Three fields record a history: `dispatched` keeps each batch passed to `insert_into_wqs(0, …)` with
its contents at that moment, `missed` the READs that missed level 0, `written` the WRITEs.
-/

namespace RingDB

open Core

/-- The operations of `MemTableLike`, `SparseIndexLike` and `LevelInfoLike` that the request loop
calls. -/
structure LevelZero (cfg : Config) where
  Table : Type
  Index : Type
  Levels : Type
  getTableNum : Index → Bytes → Except Fault (Index × ℕ)
  removeTable : Index → ℕ → Except Fault Index
  size : Table → ℕ
  data : Table → Bytes
  read : Table → Bytes → Except Fault (Option Bytes)
  /-- Memory, the table, the addresses of key and value, the table's number, the index. -/
  write : Memory → Table → ℕ → ℕ → ℕ → Index → Except Fault (Table × Index)
  emptyOut : Table → Table
  /-- `insert_into_wqs(0, level_infos, batch)` -/
  insertIntoWqs : Memory → Allocator cfg → Levels → Heap cfg → ℕ →
    Except Fault (Levels × Heap cfg)
  /-- The batches that exist are read by it and not changed. -/
  insertIntoWqs_frame : ∀ {mem alloc levels heap p levels' heap'},
    insertIntoWqs mem alloc levels heap p = .ok (levels', heap') →
      ∀ q < heap.length, heap'[q]? = heap[q]?

/-- The first level of SSTables, as `insert_into_wqs` uses it. -/
structure FirstLevel (cfg : Config) where
  info : LevelInfo cfg
  queues : List WaitQueue
  /-- What the stack holds where `could_contend_with_consumer` will be. -/
  stale : List Bool

namespace FirstLevel

variable {cfg : Config}

/-- A level as constructed, its wait queues declared single-threaded by `initialize`. -/
def fresh (cfg : Config) : FirstLevel cfg where
  info := LevelInfo.fresh cfg
  queues := List.replicate cfg.levelFactor { isSingleThread := true }
  stale := []

def insertIntoWqs (mem : Memory) (alloc : Allocator cfg) (level : FirstLevel cfg) (heap : Heap cfg)
    (p : ℕ) : Except Fault (FirstLevel cfg × Heap cfg) := do
  let (info, heap, decomp) ← level.info.decompose mem alloc heap p
  let queues ← enqueue decomp cfg.levelFactor level.queues level.stale
  pure ({ level with info, queues }, heap)

theorem insertIntoWqs_frame {mem : Memory} {alloc : Allocator cfg} {level level' : FirstLevel cfg}
    {heap heap' : Heap cfg} {p : ℕ}
    (h : level.insertIntoWqs mem alloc heap p = .ok (level', heap')) :
    ∀ q < heap.length, heap'[q]? = heap[q]? := by
  rcases bind_eq_ok.1 h with ⟨⟨info, heap₁, decomp⟩, hd, h⟩
  rcases bind_eq_ok.1 h with ⟨queues, -, h⟩
  cases h
  rcases LevelInfo.decompose_cases hd with ⟨b, -, ⟨-, -, hout⟩ | ⟨-, rfl, -⟩⟩
  · exact hout.frame
  · exact fun _ _ => rfl

end FirstLevel

/-- The memtables, the sparse index and the levels of the repository. -/
def ringLevelZero (cfg : Config) : LevelZero cfg where
  Table := MemTable cfg
  Index := SparseIndex cfg
  Levels := FirstLevel cfg
  getTableNum := SparseIndex.getTableNum
  removeTable := SparseIndex.removeTable
  size := MemTable.size
  data := MemTable.data
  read := MemTable.read
  write := MemTable.write
  emptyOut := MemTable.emptyOut
  insertIntoWqs := FirstLevel.insertIntoWqs
  insertIntoWqs_frame := FirstLevel.insertIntoWqs_frame

/-- The variables of the request loop, the objects they point to, and the two histories. -/
structure MainState {cfg : Config} (Z : LevelZero cfg) where
  index : Z.Index
  memtables : List Z.Table
  levels : Z.Levels
  mem : Memory
  isPracticallyFull : Bool
  batches : Heap cfg
  readBatch : ℕ
  compactionBatch : ℕ
  numBlocks : ℕ
  /-- The entries of the pools that were worked off, as they go back to the network thread. -/
  replies : List ConnectionRequest
  dispatched : List (ℕ × RequestBatch cfg)
  missed : List (ℕ × ℤ)
  /-- The WRITEs that were carried out: their key and the number of their memtable. -/
  written : List (Bytes × ℕ)

/-- What happens to the main thread: the network thread received a message, a worker changed
`is_practically_full`, or the next request of a pool is taken. -/
inductive MainEvent where
  | receive (buffer : ℕ) (message : Bytes)
  | practicallyFull (flag : Bool)
  | request (conn : ConnectionRequest)

/-- What the loop does with one request, decided before it does it. -/
inductive Outcome {cfg : Config} (Z : LevelZero cfg) where
  | nullKey
  | hit (value : Bytes)
  | miss
  | write (tableNum : ℕ) (table : Z.Table)
  | compact (tableNum : ℕ) (table : Z.Table)

namespace MainState

variable {cfg : Config} {Z : LevelZero cfg}

/-- The state before the first request, from given memtables, index, levels and memory. -/
def start (alloc : Allocator cfg) (index : Z.Index) (memtables : List Z.Table)
    (levels : Z.Levels) (mem : Memory) : MainState Z where
  index := index
  memtables := memtables
  levels := levels
  mem := mem
  isPracticallyFull := false
  batches := [.new .read (alloc.chunk 0), .new .compaction (alloc.chunk 1)]
  readBatch := 0
  compactionBatch := 1
  numBlocks := 0
  replies := []
  dispatched := []
  missed := []
  written := []

/-- The sparse index is asked first, for every request; the answer is used unchecked for a
WRITE. -/
def route (s : MainState Z) (conn : ConnectionRequest) : Except Fault (Z.Index × Outcome Z) := do
  let key := keyAt cfg s.mem conn.buffer
  let (index, tableNum) ← Z.getTableNum s.index key
  if memcmp key (nullKey cfg) = .eq then pure (index, .nullKey)
  else if conn.reqType = .read then
    if tableNum = uintMax then pure (index, .miss)
    else
      match s.memtables[tableNum]? with
      | none => .error .outOfBounds
      | some table => do
          match ← Z.read table key with
          | some value => pure (index, .hit value)
          | none => pure (index, .miss)
  else
    match s.memtables[tableNum]? with
    | none => .error .outOfBounds
    | some table =>
        if Z.size table < cfg.memtableSize then pure (index, .write tableNum table)
        else pure (index, .compact tableNum table)

/-- `insert_into_wqs(0, level_infos, batch)` as its caller sees it.  The callee assigns a new batch
to its own parameter; the caller's pointer still names the old one. -/
def insertIntoWqs (alloc : Allocator cfg) (s : MainState Z) (num : ℕ) :
    Except Fault (MainState Z) := do
  let b ← s.batches.deref num
  let (levels, batches) ← Z.insertIntoWqs s.mem alloc s.levels s.batches num
  pure { s with
    levels
    batches := batches ++ [.new b.reqType (alloc.chunk batches.length)]
    dispatched := s.dispatched ++ [(num, b)] }

/-- A READ that missed: into the read batch, which is passed on when it is full. -/
def collectMiss (alloc : Allocator cfg) (s : MainState Z) (conn : ConnectionRequest) :
    Except Fault (MainState Z) := do
  let b ← s.batches.deref s.readBatch
  let b ← b.insertReadWrite s.mem s.readBatch conn.buffer conn.clientSockFd .read
  let s := { s with batches := s.batches.set s.readBatch b, missed := s.missed ++ [conn.payload] }
  if b.readwritePool.entries.length = cfg.batchNumRequests then s.insertIntoWqs alloc s.readBatch
  else pure s

/-- `memtables[table_num].write(key, value, table_num, memtable_sparse_index)` -/
def writeTable (s : MainState Z) (conn : ConnectionRequest) (tableNum : ℕ) (table : Z.Table) :
    Except Fault (MainState Z) := do
  let key := conn.buffer + 5
  let (table, index) ← Z.write s.mem table key (key + cfg.keyLength) tableNum s.index
  pure { s with
    index
    memtables := s.memtables.set tableNum table
    written := s.written ++ [(keyAt cfg s.mem conn.buffer, tableNum)] }

/-- The memtable is full: its image goes into the compaction batch, the table is emptied, and the
batch is passed on. -/
def passCompaction (alloc : Allocator cfg) (s : MainState Z) (tableNum : ℕ) (table : Z.Table) :
    Except Fault (MainState Z) := do
  -- the source marks the answer here with a `memcpy` of length `'\0'`, which copies nothing
  let index ← Z.removeTable s.index tableNum
  let b ← s.batches.deref s.compactionBatch
  let reqSeg ← b.reqSeg.insertMemtable cfg.memtableSize s.numBlocks (alloc.block s.numBlocks)
    (Z.data table)
  let s := { s with
    index
    memtables := s.memtables.set tableNum (Z.emptyOut table)
    batches := s.batches.set s.compactionBatch { b with reqSeg }
    numBlocks := s.numBlocks + 1 }
  s.insertIntoWqs alloc s.compactionBatch

/-- The write to a full memtable is done on the table as it is emptied then. -/
def compact (alloc : Allocator cfg) (s : MainState Z) (conn : ConnectionRequest) (tableNum : ℕ)
    (table : Z.Table) : Except Fault (MainState Z) := do
  let s ← s.passCompaction alloc tableNum table
  s.writeTable conn tableNum (Z.emptyOut table)

/-- One request. -/
def request (alloc : Allocator cfg) (s : MainState Z) (conn : ConnectionRequest) :
    Except Fault (MainState Z) := do
  let (index, outcome) ← s.route conn
  let s := { s with index }
  match outcome with
  | .nullKey =>
      pure { s with
        mem := store s.mem conn.buffer (nulBytes cfg.socketBufferLength)
        replies := s.replies ++ [conn] }
  | .hit value =>
      pure { s with
        mem := store s.mem (conn.buffer + 5 + cfg.keyLength) value
        replies := s.replies ++ [conn] }
  | .miss => do
      let s ← s.collectMiss alloc conn
      pure { s with replies := s.replies ++ [{ conn with clientSockFd := -1 }] }
  | .write tableNum table => do
      let s ← s.writeTable conn tableNum table
      pure { s with replies := s.replies ++ [conn] }
  | .compact tableNum table => do
      let s ← s.compact alloc conn tableNum table
      pure { s with replies := s.replies ++ [conn] }

/-- One event of the main thread. -/
def step (alloc : Allocator cfg) (s : MainState Z) : MainEvent → Except Fault (MainState Z)
  | .receive buffer message => .ok { s with mem := store s.mem buffer message }
  | .practicallyFull flag => .ok { s with isPracticallyFull := flag }
  | .request conn => s.request alloc conn

end MainState

end RingDB
