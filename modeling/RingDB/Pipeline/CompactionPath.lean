import RingDB.Levels.Compaction
import RingDB.Pipeline.Ledger
import RingDB.Requests.MemtableImage

/-!
# The way of a compaction

`compactions_accounted` says where a compaction can be.  Here one is followed: the main loop comes
to a WRITE for a full memtable and passes the memtable's image on, and the workers hand it down to
the first SSTable without data, which is flushed.  With one SSTable to a level this works, because
the search for an empty filter then ends behind the only one and the compaction goes to SSTable 0
unread.

* **`request_passes`** — the step of the main loop, from any state in which the image can be made.
* **`work_flushes`**, **`work_forwards`** — the steps of a worker.
* `fullMemtable_flushed`, `fullMemtable_forwarded` — a run in which the first SSTable is flushed,
  and one in which it holds data and the second is.
-/

namespace RingDB

open Core

variable {cfg : Config}

/-! ## One SSTable to a level -/

/-- The search for an empty filter ends behind the only one. -/
theorem LevelInfo.decompose_oneTable (hone : cfg.levelFactor = 1) (mem : Memory)
    (alloc : Allocator cfg) (level : LevelInfo cfg) {heap : Heap cfg} {p : ℕ} {b : RequestBatch cfg}
    (hb : heap[p]? = some b) (htype : b.reqType ≠ .read) :
    level.decompose mem alloc heap p = .ok (level, heap, LevelInfo.assign cfg p 0) := by
  have hnone : level.filters[LevelInfo.firstEmptyFrom level.filters 0]? = none := by
    rcases List.length_eq_one_iff.1 (level.length_filters.trans hone) with ⟨f, hf⟩
    have hbehind : LevelInfo.firstEmptyFrom level.filters 0 = 1 := by
      simp only [hf, LevelInfo.firstEmptyFrom, ite_self]
    rw [hbehind, hf]
    rfl
  refine bind_eq_ok.2 ⟨b, Heap.deref_ok_iff.2 hb, ?_⟩
  rw [if_neg htype]
  refine bind_eq_ok.2 ⟨(level, LevelInfo.assign cfg p 0), ?_, rfl⟩
  simp only [LevelInfo.decomposeCompaction, hnone]
  rfl

namespace System

variable (alloc : Allocator cfg) (search : System cfg → ℕ → ℕ → ℕ → Except Fault (System cfg))
  {s : System cfg} {l i p : ℕ} {t : Sstable} {rest : List ℕ} {b : RequestBatch cfg}
  {lv : SystemLevel cfg}

/-- A compaction joins the only queue of the level. -/
theorem insertIntoWqs_oneTable (hone : cfg.levelFactor = 1)
    (hlv : s.levels[l]? = some lv) (hb : s.heap[p]? = some b) (htype : b.reqType ≠ .read) :
    s.insertIntoWqs alloc l p = .ok { s with
      levels := s.levels.set l
        { lv with tables := lv.tables.modify 0 (Sstable.arrive p lv.firstEmpty) } } :=
  insertIntoWqs_of_decompose hlv cfg.levelFactor_pos
    (LevelInfo.decompose_oneTable hone s.mem alloc lv.info hb htype)

/-- A worker comes to a compaction. -/
theorem work_eq_workCompaction (ht : s.table? l i = some t) (hfree : t.waitingOnIo = false)
    (hqueue : t.queue = p :: rest) (hb : s.heap[p]? = some b) (htype : b.reqType ≠ .read) :
    s.work alloc search l i
      = (s.pop l i rest).workCompaction alloc ⟨p, l, i, t.arrived.head?.join⟩ t.isFlushedTo := by
  simp only [work, ht, hfree, hqueue, Heap.deref_ok_iff.2 hb, Bool.false_eq_true, if_false, bind,
    Except.bind, if_neg htype, pop]

/-- **An SSTable without data is flushed.** -/
theorem work_flushes (ht : s.table? l i = some t) (hfree : t.waitingOnIo = false)
    (hqueue : t.queue = p :: rest) (hb : s.heap[p]? = some b) (htype : b.reqType ≠ .read)
    (hempty : t.isFlushedTo = false) :
    s.work alloc search l i = .ok (modifyTable { s.pop l i rest with
        inFlight := s.inFlight ++ [⟨p, l, i, t.arrived.head?.join⟩]
        flushes := s.flushes ++ [⟨p, l, i, t.arrived.head?.join⟩] }
      l i fun t => { t with waitingOnIo := true }) := by
  rw [work_eq_workCompaction alloc search ht hfree hqueue hb htype, hempty, workCompaction,
    if_neg fun h => Bool.false_ne_true h.1, if_pos Bool.false_ne_true]
  rfl

/-- **A level that holds data passes a compaction on.** -/
theorem work_forwards (hone : cfg.levelFactor = 1) (ht : s.table? l i = some t)
    (hfree : t.waitingOnIo = false) (hqueue : t.queue = p :: rest) (hb : s.heap[p]? = some b)
    (htype : b.reqType ≠ .read) (hflushed : t.isFlushedTo = true)
    (hlv : s.levels[l + 1]? = some lv) :
    s.work alloc search l i = .ok { s.pop l i rest with
      levels := (s.pop l i rest).levels.set (l + 1)
        { lv with tables := lv.tables.modify 0 (Sstable.arrive p lv.firstEmpty) }
      forwards := s.forwards ++ [⟨p, l, i, t.arrived.head?.join⟩] } := by
  have hlv' : (s.pop l i rest).levels[l + 1]? = some lv := by
    simp [pop, modifyTable, hlv]
  have hlt : l + 1 < (s.pop l i rest).levels.length := (List.getElem?_eq_some_iff.1 hlv').1
  rw [work_eq_workCompaction alloc search ht hfree hqueue hb htype, hflushed, workCompaction,
    if_pos ⟨rfl, hlt⟩]
  exact bind_eq_ok.2 ⟨_, insertIntoWqs_oneTable alloc hone hlv' hb htype, rfl⟩

end System

/-! ## The main loop -/

/-- A WRITE for which its memtable has no room. -/
theorem MainState.route_compact {Z : LevelZero cfg} {s : MainState Z} {conn : ConnectionRequest}
    {index : Z.Index} {tableNum : ℕ} {table : Z.Table}
    (hnum : Z.getTableNum s.index (keyAt cfg s.mem conn.buffer) = .ok (index, tableNum))
    (hkey : memcmp (keyAt cfg s.mem conn.buffer) (nullKey cfg) ≠ .eq)
    (hwrite : conn.reqType ≠ .read)
    (htable : s.memtables[tableNum]? = some table) (hfull : cfg.memtableSize ≤ Z.size table) :
    s.route conn = .ok (index, .compact tableNum table) := by
  refine bind_eq_ok.2 ⟨_, hnum, ?_⟩
  simp only [if_neg hkey, if_neg hwrite, htable, if_neg (Nat.not_lt.2 hfull)]
  rfl

/-- **The image of a full memtable is passed to the only SSTable of the first level.** -/
theorem Pipeline.request_passes {alloc : Allocator cfg} {s : Pipeline cfg}
    (hone : cfg.levelFactor = 1) {p i : ℕ} {b c : RequestBatch cfg} {conn : ConnectionRequest}
    {index index' : SparseIndex cfg} {tableNum : ℕ} {table : MemTable cfg}
    {reqSeg : RequestSegment cfg} {lv : SystemLevel cfg} (hcurrent : s.current = some (p, i))
    (hunwritten : s.unwritten = none) (hb : s.heap[p]? = some b)
    (hconn : b.readwritePool.entries[i]? = some conn)
    (hroute : s.mainLoop.route conn = .ok (index, .compact tableNum table))
    (hremove : index.removeTable tableNum = .ok index')
    (hc : s.heap[s.main.compactionBatch]? = some c) (htype : c.reqType ≠ .read)
    (hseg : c.reqSeg.insertMemtable cfg.memtableSize s.main.numBlocks (alloc.block s.main.numBlocks)
      table.data = .ok reqSeg)
    (hlv : s.levels.levels[0]? = some lv) :
    ∃ s', s.step alloc .request = .ok s'
      ∧ s'.main.dispatched = s.main.dispatched ++ [(s.main.compactionBatch, { c with reqSeg })]
      ∧ s'.levels = { s.levels with
          heap := s'.heap
          levels := s.levels.levels.set 0 { lv with
            tables := lv.tables.modify 0 (Sstable.arrive s.main.compactionBatch lv.firstEmpty) } }
      ∧ s'.heap[s.main.compactionBatch]? = some { c with reqSeg } := by
  have hlt := (List.getElem?_eq_some_iff.1 hc).1
  have hset : (s.heap.set s.main.compactionBatch { c with reqSeg })[s.main.compactionBatch]?
      = some { c with reqSeg } := List.getElem?_set_self hlt
  have hins := System.insertIntoWqs_oneTable alloc hone (s := { s.levels with
    heap := s.heap.set s.main.compactionBatch { c with reqSeg } }) hlv hset htype
  have hpass : ∃ main, MainState.passCompaction alloc { s.mainLoop with index } tableNum table
        = .ok main
      ∧ main.dispatched = s.main.dispatched ++ [(s.main.compactionBatch, { c with reqSeg })]
      ∧ ({ (main.levels : System cfg) with heap := main.batches, mem := main.mem } : System cfg)
        = { s.levels with
          heap := main.batches
          levels := s.levels.levels.set 0 { lv with
            tables := lv.tables.modify 0 (Sstable.arrive s.main.compactionBatch lv.firstEmpty) } }
      ∧ main.batches[s.main.compactionBatch]? = some { c with reqSeg } := by
    refine ⟨_, bind_eq_ok.2 ⟨index', hremove, bind_eq_ok.2 ⟨c, Heap.deref_ok_iff.2 hc,
      bind_eq_ok.2 ⟨reqSeg, hseg, bind_eq_ok.2 ⟨_, Heap.deref_ok_iff.2 hset,
        bind_eq_ok.2 ⟨_, bind_eq_ok.2 ⟨_, hins, rfl⟩, rfl⟩⟩⟩⟩⟩, rfl, rfl, ?_⟩
    exact (List.getElem?_append_left (by rw [List.length_set]; exact hlt)).trans hset
  rcases hpass with ⟨main, hpass, hdispatched, hlevels, hbatch⟩
  refine ⟨{ s with
    heap := main.batches
    mem := main.mem
    main
    unwritten := some (conn, tableNum, table.emptyOut) }, ?_, hdispatched, hlevels, hbatch⟩
  simp only [step, hcurrent, hunwritten]
  refine bind_eq_ok.2 ⟨b, Heap.deref_ok_iff.2 hb, ?_⟩
  simp only [hconn]
  exact bind_eq_ok.2 ⟨_, hroute, bind_eq_ok.2 ⟨main, hpass, by rw [hcurrent]; rfl⟩⟩

@[simp] theorem Pipeline.levels_setLevels (s : Pipeline cfg) (levels : System cfg) :
    (s.setLevels levels).levels = levels := rfl

/-- What a worker does to the levels it does to the state of all threads. -/
theorem Pipeline.step_work {alloc : Allocator cfg} {s : Pipeline cfg} {l i : ℕ} {found : Memory}
    {levels : System cfg} (h : s.levels.work alloc (search alloc found) l i = .ok levels) :
    s.step alloc (.work l i found) = .ok (s.setLevels levels) := bind_eq_ok.2 ⟨levels, h, rfl⟩

/-! ## Two runs -/

/-- Two requests to a page, and one SSTable on each of two levels. -/
def pairTablesConfig : Config :=
  { pairConfig with
    totalSstableStorageSpaceMb := 4
    levelFactor := 1
    levelFactor_pos := Nat.one_pos
    levelFactor_le := one_le_uintMax }

theorem length_fullData (cfg : Config) :
    (nulBytes cfg.memtableSize).length = cfg.memtableSize := length_nulBytes _

/-- A memtable without room. -/
def MemTable.full (cfg : Config) : MemTable cfg where
  data := nulBytes cfg.memtableSize
  size := cfg.memtableSize
  length_data := length_fullData cfg

/-- A sparse index in which memtable 0 has all keys from `1…1` to `255…255`. -/
def SparseIndex.wide : SparseIndex pairTablesConfig where
  index := List.replicate 16 1 ++ List.replicate 16 255
  length_index := rfl

namespace Pipeline

/-- All threads at their start over a full memtable; every byte of the socket buffers is an `a`. -/
def fullMemtable (isFlushedTo : ℕ → ℕ → Bool) : Pipeline pairTablesConfig :=
  .constructed (.zeroed _) .wide [MemTable.full _] isFlushedTo (fun _ => 97) (.new 1 0)

/-- A client connects, and its WRITE arrives; the main loop is sent the batch and comes to it. -/
def oneWrite : List PipelineEvent :=
  [.network .wait, .network (.cqe (.accept 1 true)), .network (.cqe (.recv 0)), .take 2, .request]

/-- The main loop comes to the WRITE with its memtable and its batches as at the start. -/
theorem oneWrite_received (isFlushedTo : ℕ → ℕ → Bool) :
    ∃ s, runEvents (step (.zeroed _)) (fullMemtable isFlushedTo) (oneWrite.take 4) = .ok s
      ∧ s.current = some (2, 0) ∧ s.unwritten = none ∧ s.main = (fullMemtable isFlushedTo).main
      ∧ (∃ b, s.heap[2]? = some b ∧ b.readwritePool.entries[0]? = some ⟨.write, 2, 1, 0⟩)
      ∧ s.heap[1]? = some (.zeroed _ .compaction)
      ∧ keyAt pairTablesConfig s.mem 0 = List.replicate 16 97 :=
  ⟨_, rfl, rfl, rfl, rfl, ⟨_, rfl, rfl⟩, rfl, rfl⟩

/-- The key is in the range of the memtable, which is full. -/
theorem route_oneWrite {isFlushedTo : ℕ → ℕ → Bool} {s : Pipeline pairTablesConfig}
    (hmain : s.main = (fullMemtable isFlushedTo).main)
    (hkey : keyAt pairTablesConfig s.mem 0 = List.replicate 16 97) :
    s.mainLoop.route ⟨.write, 2, 1, 0⟩ = .ok (.wide, .compact 0 (MemTable.full _)) := by
  refine MainState.route_compact ?_ ?_ nofun ?_ le_rfl
  · show SparseIndex.getTableNum s.main.index (keyAt pairTablesConfig s.mem 0) = _
    rw [hkey, hmain]
    rfl
  · show memcmp (keyAt pairTablesConfig s.mem 0) _ ≠ _
    rw [hkey]
    decide
  · rw [mainLoop, hmain]
    rfl

/-- The WRITE has the image of the memtable passed on. -/
theorem fullMemtable_passed (isFlushedTo : ℕ → ℕ → Bool) :
    ∃ s b, runEvents (step (.zeroed _)) (fullMemtable isFlushedTo) oneWrite = .ok s
      ∧ compactionsOf s.main.dispatched = [1]
      ∧ s.levels = { System.start pairTablesConfig isFlushedTo s.heap s.levels.mem with
        levels :=
          [⟨.fresh _, [{ queue := [1], isFlushedTo := isFlushedTo 0 0, arrived := [some 0] }]⟩,
            ⟨.fresh _, [{ isFlushedTo := isFlushedTo 1 0 }]⟩] }
      ∧ s.heap[1]? = some b ∧ b.reqType ≠ .read := by
  have hsize : pairTablesConfig.memtableEntryLength ≤ pairTablesConfig.memtableSize / 2 := by
    decide +kernel
  have hfuel : 0 < pairTablesConfig.memtableSize := by decide +kernel
  have htype : (RequestBatch.zeroed pairTablesConfig .compaction).reqType ≠ .read := by decide
  have hstack : (RequestBatch.zeroed pairTablesConfig .compaction).reqSeg.stack = .zeroed _ := rfl
  obtain ⟨reqSeg, hseg⟩ := RequestSegment.insertMemtable_zeroed hstack (by decide) hsize
    (length_nulBytes _) (length_nulBytes _) hfuel 0
  obtain ⟨s, hrun, hcurrent, hunwritten, hmain, ⟨b, hb, hconn⟩, hc, hkey⟩ :=
    oneWrite_received isFlushedTo
  have hnum : s.main.compactionBatch = 1 := by
    rw [hmain]
    rfl
  have hlevels : s.levels = System.start pairTablesConfig isFlushedTo s.heap s.mem := by
    rw [levels, hmain]
    rfl
  have hlv : s.levels.levels[0]? = some ⟨.fresh _, [{ isFlushedTo := isFlushedTo 0 0 }]⟩ := by
    rw [hlevels]
    rfl
  rw [← hnum] at hc
  have himage : (RequestBatch.zeroed pairTablesConfig .compaction).reqSeg.insertMemtable
      pairTablesConfig.memtableSize s.main.numBlocks
      ((Allocator.zeroed pairTablesConfig).block s.main.numBlocks)
      (MemTable.full pairTablesConfig).data = .ok reqSeg := by
    rw [hmain]
    exact hseg
  obtain ⟨s', hstep, hdispatched, hlevels', hbatch⟩ :=
    request_passes rfl hcurrent hunwritten hb hconn (route_oneWrite hmain hkey) rfl hc htype himage
      hlv
  refine ⟨s', { RequestBatch.zeroed _ .compaction with reqSeg },
    (runEvents_append hrun _).trans (runEvents_cons_ok hstep []), ?_, ?_, hnum ▸ hbatch, htype⟩
  · rw [hdispatched, hmain]
    rfl
  · rw [hlevels', hnum, hlevels]
    rfl

/-- The workers visit the first SSTable, which has no data; its flush is reported. -/
theorem fullMemtable_flushed (isFlushedTo : ℕ → ℕ → Bool) (h : isFlushedTo 0 0 = false)
    (found : Memory) :
    ∃ s, runEvents (step (.zeroed _)) (fullMemtable isFlushedTo)
        (oneWrite ++ [.work 0 0 found, .report 0 0]) = .ok s
      ∧ compactionsOf s.main.dispatched = [1] ∧ s.levels.inFlight = []
      ∧ s.levels.flushes = [⟨1, 0, 0, some 0⟩] := by
  obtain ⟨s, b, hrun, hdispatched, hlevels, hb, htype⟩ := fullMemtable_passed isFlushedTo
  have htable : s.levels.table? 0 0
      = some { queue := [1], isFlushedTo := isFlushedTo 0 0, arrived := [some 0] } := by
    rw [hlevels]
    rfl
  have hwork := System.work_flushes (.zeroed _) (search (.zeroed _) found) htable rfl rfl hb htype h
  refine ⟨_, (runEvents_append hrun _).trans (runEvents_cons_ok (step_work hwork) _), ?_, ?_, ?_⟩
  · exact hdispatched
  · show (System.report _ 0 0).inFlight = []
    rw [hlevels]
    rfl
  · show (System.report _ 0 0).flushes = _
    rw [hlevels]
    rfl

/-- The first SSTable holds data: the compaction goes on to the second level, where the SSTable is
flushed. -/
theorem fullMemtable_forwarded (isFlushedTo : ℕ → ℕ → Bool) (h₀ : isFlushedTo 0 0 = true)
    (h₁ : isFlushedTo 1 0 = false) (found : Memory) :
    ∃ s, runEvents (step (.zeroed _)) (fullMemtable isFlushedTo)
        (oneWrite ++ [.work 0 0 found, .work 1 0 found, .report 1 0]) = .ok s
      ∧ compactionsOf s.main.dispatched = [1] ∧ s.levels.inFlight = []
      ∧ s.levels.forwards = [⟨1, 0, 0, some 0⟩] ∧ s.levels.flushes = [⟨1, 1, 0, some 0⟩] := by
  obtain ⟨s, b, hrun, hdispatched, hlevels, hb, htype⟩ := fullMemtable_passed isFlushedTo
  have htable : s.levels.table? 0 0
      = some { queue := [1], isFlushedTo := isFlushedTo 0 0, arrived := [some 0] } := by
    rw [hlevels]
    rfl
  have hbelow : s.levels.levels[1]? = some ⟨.fresh _, [{ isFlushedTo := isFlushedTo 1 0 }]⟩ := by
    rw [hlevels]
    rfl
  obtain ⟨forwarded, hforward, harrived, hheap, hinFlight, hforwards, hflushes⟩ :
      ∃ forwarded, s.levels.work (.zeroed _) (search (.zeroed _) found) 0 0 = .ok forwarded
        ∧ forwarded.table? 1 0
          = some { queue := [1], isFlushedTo := isFlushedTo 1 0, arrived := [some 0] }
        ∧ forwarded.heap = s.heap ∧ forwarded.inFlight = []
        ∧ forwarded.forwards = [⟨1, 0, 0, some 0⟩] ∧ forwarded.flushes = [] := by
    refine ⟨_, System.work_forwards (.zeroed _) (search (.zeroed _) found) rfl htable rfl rfl hb
      htype h₀ hbelow, ?_, rfl, ?_, ?_, ?_⟩
    all_goals
      rw [hlevels]
      rfl
  have hflush := System.work_flushes (.zeroed _) (search (.zeroed _) found) harrived rfl rfl
    (hheap ▸ hb) htype h₁
  rw [hinFlight, hflushes, ← levels_setLevels s forwarded] at hflush
  refine ⟨_, (runEvents_append hrun _).trans
    ((runEvents_cons_ok (step_work hforward) _).trans (runEvents_cons_ok (step_work hflush) _)),
    hdispatched, rfl, hforwards, rfl⟩

end Pipeline

end RingDB
