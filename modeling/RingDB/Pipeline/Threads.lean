import RingDB.LevelZero.MainLoop
import RingDB.Levels.System
import RingDB.Network.Thread

/-!
# All threads over one heap

The network thread, the main thread and the workers pass pointers to batches around; the batches
themselves, and the socket buffers, are shared.  A `Pipeline` is the state of all of them:
`Network.State` and `MainState` as before, with the levels of `System` below the main loop, over one
heap and one memory.  An event is one completion of the network thread, one request of the main
loop, or one visit or report of a worker; a run is any sequence of them.  A WRITE to a full memtable
takes the main loop two steps: the compaction is passed on, and then the WRITE is done.  In between
the other threads have the compaction already.

Which batch a message names is not restricted: a run of the program is among those considered.  A
tree search writes values into memory and passes its batch on; it changes no batch.
-/

namespace RingDB

open Core

variable {cfg : Config}

/-- `insert_into_wqs(0, level_infos, p)` over a given heap and memory. -/
def System.insertAtFirst (mem : Memory) (alloc : Allocator cfg) (levels : System cfg)
    (heap : Heap cfg) (p : ℕ) : Except Fault (System cfg × Heap cfg) := do
  let levels ← System.insertIntoWqs alloc { levels with mem, heap } 0 p
  pure (levels, levels.heap)

/-- What an insertion into the wait queues of a level does: the batch is decomposed, and its parts
are delivered. -/
theorem System.insertIntoWqs_cases {alloc : Allocator cfg} {s s' : System cfg} {l p : ℕ}
    (h : s.insertIntoWqs alloc l p = .ok s') :
    ∃ (lv : SystemLevel cfg) (info : LevelInfo cfg) (d : Decomposition cfg),
      lv.info.decompose s.mem alloc s.heap p = .ok (info, s'.heap, d) := by
  cases hlv : s.levels[l]? with
  | none =>
      simp only [System.insertIntoWqs, hlv] at h
      cases h
  | some lv =>
      simp only [System.insertIntoWqs, hlv] at h
      rcases bind_eq_ok.1 h with ⟨⟨info, heap, d⟩, hd, h⟩
      rcases bind_eq_ok.1 h with ⟨queues, -, h⟩
      cases h
      exact ⟨lv, info, d, hd⟩

theorem System.insertAtFirst_frame {mem : Memory} {alloc : Allocator cfg}
    {levels levels' : System cfg} {heap heap' : Heap cfg} {p : ℕ}
    (h : levels.insertAtFirst mem alloc heap p = .ok (levels', heap')) :
    ∀ q < heap.length, heap'[q]? = heap[q]? := by
  rcases bind_eq_ok.1 h with ⟨levels₁, hins, h⟩
  cases h
  rcases System.insertIntoWqs_cases hins with ⟨lv, info, d, hd⟩
  rcases LevelInfo.decompose_cases hd with ⟨b, -, ⟨-, -, hout⟩ | ⟨-, hheap, -⟩⟩
  · exact hout.frame
  · rw [hheap]
    exact fun _ _ => rfl

/-- The memtables and the sparse index of the repository, over all of its levels. -/
def systemLevelZero (cfg : Config) : LevelZero cfg where
  Table := MemTable cfg
  Index := SparseIndex cfg
  Levels := System cfg
  getTableNum := SparseIndex.getTableNum
  removeTable := SparseIndex.removeTable
  size := MemTable.size
  data := MemTable.data
  read := MemTable.read
  write := MemTable.write
  emptyOut := MemTable.emptyOut
  insertIntoWqs := System.insertAtFirst
  insertIntoWqs_frame := System.insertAtFirst_frame

/-- The state of all threads.  The heaps and memories inside the components are replaced by `heap`
and `mem` before every step. -/
structure Pipeline (cfg : Config) where
  heap : Heap cfg
  mem : Memory
  main : MainState (systemLevelZero cfg)
  net : Network.State cfg
  /-- The batch that the main loop is at, and its next request. -/
  current : Option (ℕ × ℕ) := none
  /-- The WRITE behind a compaction that was passed on, and the emptied memtable that it is for. -/
  unwritten : Option (ConnectionRequest × ℕ × MemTable cfg) := none

/-- What can happen next. -/
inductive PipelineEvent where
  /-- The network thread waits, handles a completion, or a socket buffer is written to. -/
  | network (e : Network.Event)
  /-- The main loop is sent a batch. -/
  | take (batch : ℕ)
  /-- The main loop comes to the next request of its batch. -/
  | request
  | practicallyFull (flag : Bool)
  /-- A worker visits an SSTable; `found` is memory after a tree search. -/
  | work (level index : ℕ) (found : Memory)
  | report (level index : ℕ)

namespace Pipeline

/-- All threads at their start: the main loop has made its two batches, the network thread its
first. -/
def start (alloc : Allocator cfg) (index : SparseIndex cfg) (memtables : List (MemTable cfg))
    (levels : System cfg) (mem : Memory) (pool : ConnectionPool) : Pipeline cfg :=
  let main : MainState (systemLevelZero cfg) := MainState.start alloc index memtables levels mem
  let net := Network.State.start alloc main.batches mem pool
  { heap := net.heap, mem, main, net }

/-- The network thread over the shared heap and memory. -/
def network (s : Pipeline cfg) : Network.State cfg := { s.net with heap := s.heap, mem := s.mem }

/-- The main loop over them. -/
def mainLoop (s : Pipeline cfg) : MainState (systemLevelZero cfg) :=
  { s.main with batches := s.heap, mem := s.mem }

/-- The levels over them. -/
def levels (s : Pipeline cfg) : System cfg :=
  { (s.main.levels : System cfg) with heap := s.heap, mem := s.mem }

/-- A request of the batch `p`: its answer is written back, in which a READ that missed has lost its
client.  A compaction is only passed on. -/
def request (alloc : Allocator cfg) (s : Pipeline cfg) (p i : ℕ) (conn : ConnectionRequest) :
    Except Fault (Pipeline cfg) := do
  let (index, outcome) ← s.mainLoop.route conn
  match outcome with
  | .compact tableNum table => do
      let main ← MainState.passCompaction alloc { s.mainLoop with index } tableNum table
      pure { s with
        heap := main.batches
        mem := main.mem
        main
        unwritten := some (conn, tableNum, MemTable.emptyOut table) }
  | _ => do
      let main ← s.mainLoop.request alloc conn
      let reply := main.replies.getLastD conn
      pure { s with
        heap := main.batches.modifyPool p fun pool =>
          { pool with entries := pool.entries.set i reply }
        mem := main.mem
        main
        current := some (p, i + 1) }

/-- The WRITE behind a compaction. -/
def write (s : Pipeline cfg) (p i : ℕ) (conn : ConnectionRequest) (tableNum : ℕ)
    (table : MemTable cfg) : Except Fault (Pipeline cfg) := do
  let main ← s.mainLoop.writeTable conn tableNum table
  pure { s with
    main := { main with replies := main.replies ++ [conn] }
    current := some (p, i + 1)
    unwritten := none }

/-- A tree search: values are written into the clients' buffers, and the batch goes on. -/
def search (alloc : Allocator cfg) (found : Memory) (levels : System cfg) (l i p : ℕ) :
    Except Fault (System cfg) :=
  System.workRead alloc (fun s _ _ _ => .ok s) { levels with mem := found } l i p false false

/-- The levels after a step of a worker. -/
def setLevels (s : Pipeline cfg) (levels : System cfg) : Pipeline cfg :=
  { s with heap := levels.heap, mem := levels.mem, main := { s.main with levels } }

def step (alloc : Allocator cfg) (s : Pipeline cfg) : PipelineEvent → Except Fault (Pipeline cfg)
  | .network e => do
      let net ← Network.step alloc s.network e
      pure { s with heap := net.heap, mem := net.mem, net }
  | .take p => .ok { s with current := some (p, 0) }
  | .request =>
      match s.current with
      | none => .ok s
      | some (p, i) =>
          match s.unwritten with
          | some (conn, tableNum, table) => s.write p i conn tableNum table
          | none => do
              let b ← s.heap.deref p
              match b.readwritePool.entries[i]? with
              -- the batch goes back to the network thread
              | none => pure { s with current := none }
              | some conn => s.request alloc p i conn
  | .practicallyFull flag => .ok { s with main := { s.main with isPracticallyFull := flag } }
  | .work l i found => do
      let levels ← s.levels.work alloc (search alloc found) l i
      pure (s.setLevels levels)
  | .report l i => .ok (s.setLevels (s.levels.report l i))

/-! ## A step of the main loop -/

/-- What the main loop does in one step: nothing without a batch; the batch goes back; a request is
answered; a compaction is passed on; the WRITE behind it is done. -/
inductive Looped (alloc : Allocator cfg) (s s' : Pipeline cfg) : Prop
  | idle (hcurrent : s.current = none) (heq : s' = s)
  | ended {p i : ℕ} {b : RequestBatch cfg} (hcurrent : s.current = some (p, i))
      (hb : s.heap[p]? = some b) (hend : b.readwritePool.entries[i]? = none)
      (heq : s' = { s with current := none })
  | answered {p i : ℕ} {b : RequestBatch cfg} {conn : ConnectionRequest}
      {main : MainState (systemLevelZero cfg)} (hcurrent : s.current = some (p, i))
      (hb : s.heap[p]? = some b) (hconn : b.readwritePool.entries[i]? = some conn)
      (hmain : s.mainLoop.request alloc conn = .ok main)
      (heq : s' = { s with
        heap := main.batches.modifyPool p fun pool =>
          { pool with entries := pool.entries.set i (main.replies.getLastD conn) }
        mem := main.mem
        main
        current := some (p, i + 1) })
  | passed {p i : ℕ} {b : RequestBatch cfg} {conn : ConnectionRequest} {index : SparseIndex cfg}
      {tableNum : ℕ} {table : MemTable cfg} {main : MainState (systemLevelZero cfg)}
      (hcurrent : s.current = some (p, i))
      (hb : s.heap[p]? = some b) (hconn : b.readwritePool.entries[i]? = some conn)
      (hroute : s.mainLoop.route conn = .ok (index, .compact tableNum table))
      (hpass : MainState.passCompaction alloc { s.mainLoop with index } tableNum table = .ok main)
      (heq : s' = { s with
        heap := main.batches
        mem := main.mem
        main
        unwritten := some (conn, tableNum, table.emptyOut) })
  | written {p i : ℕ} {conn : ConnectionRequest} {tableNum : ℕ} {table : MemTable cfg}
      {main : MainState (systemLevelZero cfg)} (hcurrent : s.current = some (p, i))
      (hunwritten : s.unwritten = some (conn, tableNum, table))
      (hwrite : s.mainLoop.writeTable conn tableNum table = .ok main)
      (heq : s' = { s with
        main := { main with replies := main.replies ++ [conn] }
        current := some (p, i + 1)
        unwritten := none })

theorem request_looped {alloc : Allocator cfg} {s s' : Pipeline cfg} {p i : ℕ}
    {b : RequestBatch cfg}
    {conn : ConnectionRequest} (hcurrent : s.current = some (p, i)) (hb : s.heap[p]? = some b)
    (hconn : b.readwritePool.entries[i]? = some conn) (h : s.request alloc p i conn = .ok s') :
    Looped alloc s s' := by
  rcases bind_eq_ok.1 h with ⟨⟨index, outcome⟩, hroute, h⟩
  cases outcome with
  | compact tableNum table =>
      rcases bind_eq_ok.1 h with ⟨main, hpass, h⟩
      cases h
      exact .passed hcurrent hb hconn hroute hpass rfl
  | nullKey | hit value | miss | write tableNum table =>
      rcases bind_eq_ok.1 h with ⟨main, hmain, h⟩
      cases h
      exact .answered hcurrent hb hconn hmain rfl

theorem step_looped {alloc : Allocator cfg} {s s' : Pipeline cfg}
    (h : s.step alloc .request = .ok s') : Looped alloc s s' := by
  simp only [step] at h
  split at h
  · rename_i hcurrent
    cases h
    exact .idle hcurrent rfl
  · rename_i p i hcurrent
    split at h
    · rename_i conn tableNum table hunwritten
      rcases bind_eq_ok.1 h with ⟨main, hwrite, h⟩
      cases h
      exact .written hcurrent hunwritten hwrite rfl
    · rcases bind_eq_ok.1 h with ⟨b, hb, h⟩
      rw [Heap.deref_ok_iff] at hb
      split at h
      · rename_i hend
        cases h
        exact .ended hcurrent hb hend rfl
      · rename_i conn hconn
        exact request_looped hcurrent hb hconn h

end Pipeline

end RingDB
