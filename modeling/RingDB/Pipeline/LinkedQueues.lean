import RingDB.LevelZero.LevelsBelow
import RingDB.Levels.LinkedSystem
import RingDB.Pipeline.CompactionPath

/-!
# All threads over linked queues

`Pipeline` has the levels of `System` below its main loop, whose wait queues are lists.  Here the
same threads run over the linked queues of `LinkedSystem`, with the loop of `insert_into_wqs` in
place of `deliver`.

**`linked_pipeline_agrees`**: every run does the same over either, to its end or to the error that
it breaks off with.  So what holds of the runs of `Pipeline` holds of the program's nodes and
pointers too.

Of `insert_into_wqs` both have the decomposition and the wait queues.  The other half, in which the
level above hands buffers to the SSTables below it, is in neither: where it breaks off
(`Buffers.insertIntoWqs`), the run of the program does, while these two go on together.
-/

namespace RingDB

open Core

variable {cfg : Config}

namespace LinkedSystem

/-- `insert_into_wqs(0, level_infos, p)` over a given heap and memory. -/
def insertAtFirst (passes : ℕ) (stale : Memory → List Bool) (mem : Memory) (alloc : Allocator cfg)
    (levels : LinkedSystem cfg) (heap : Heap cfg) (p : ℕ) :
    Except Fault (LinkedSystem cfg × Heap cfg) := do
  let levels ← LinkedSystem.insertIntoWqs alloc passes stale { levels with mem, heap } 0 p
  pure (levels, levels.heap)

theorem insertAtFirst_frame {passes : ℕ} {stale : Memory → List Bool} {mem : Memory}
    {alloc : Allocator cfg} {levels levels' : LinkedSystem cfg} {heap heap' : Heap cfg} {p : ℕ}
    (h : insertAtFirst passes stale mem alloc levels heap p = .ok (levels', heap')) :
    ∀ q < heap.length, heap'[q]? = heap[q]? := by
  rcases bind_eq_ok.1 h with ⟨levels₁, hins, h⟩
  cases h
  cases hlv : levels.levels[0]? with
  | none =>
      simp only [LinkedSystem.insertIntoWqs, hlv] at hins
      cases hins
  | some lv =>
      simp only [LinkedSystem.insertIntoWqs, hlv] at hins
      rcases bind_eq_ok.1 hins with ⟨⟨info, heap₁, d⟩, hd, hins⟩
      rcases bind_eq_ok.1 hins with ⟨queues, -, hins⟩
      cases hins
      rcases LevelInfo.decompose_cases hd with ⟨b, -, ⟨-, -, hout⟩ | ⟨-, hheap, -⟩⟩
      · exact hout.frame
      · rw [hheap]
        exact fun _ _ => rfl

/-- The levels below the main loop. -/
def below (cfg : Config) (passes : ℕ) (stale : Memory → List Bool) : LevelsBelow cfg where
  Levels := LinkedSystem cfg
  insertIntoWqs := insertAtFirst passes stale
  insertIntoWqs_frame := insertAtFirst_frame

end LinkedSystem

/-- The memtables and the sparse index of the repository, over linked levels. -/
abbrev linkedLevelZero (cfg : Config) (passes : ℕ) (stale : Memory → List Bool) : LevelZero cfg :=
  (systemLevelZero cfg).overLevels (LinkedSystem.below cfg passes stale)

/-- The state of all threads, as `Pipeline`. -/
structure LinkedPipeline (cfg : Config) (passes : ℕ) (stale : Memory → List Bool) where
  heap : Heap cfg
  mem : Memory
  main : MainState (linkedLevelZero cfg passes stale)
  net : Network.State cfg
  current : Option (ℕ × ℕ) := none
  unwritten : Option (ConnectionRequest × ℕ × MemTable cfg) := none

namespace LinkedPipeline

variable {passes : ℕ} {stale : Memory → List Bool}

def start (alloc : Allocator cfg) (passes : ℕ) (stale : Memory → List Bool)
    (index : SparseIndex cfg) (memtables : List (MemTable cfg)) (levels : LinkedSystem cfg)
    (mem : Memory) (pool : ConnectionPool) : LinkedPipeline cfg passes stale :=
  let main : MainState (linkedLevelZero cfg passes stale) :=
    MainState.start alloc index memtables levels mem
  let net := Network.State.start alloc main.batches mem pool
  { heap := net.heap, mem, main, net }

def network (s : LinkedPipeline cfg passes stale) : Network.State cfg :=
  { s.net with heap := s.heap, mem := s.mem }

def mainLoop (s : LinkedPipeline cfg passes stale) :
    MainState (linkedLevelZero cfg passes stale) :=
  { s.main with batches := s.heap, mem := s.mem }

def levels (s : LinkedPipeline cfg passes stale) : LinkedSystem cfg :=
  { (s.main.levels : LinkedSystem cfg) with heap := s.heap, mem := s.mem }

def request (alloc : Allocator cfg) (s : LinkedPipeline cfg passes stale) (p i : ℕ)
    (conn : ConnectionRequest) : Except Fault (LinkedPipeline cfg passes stale) := do
  let (index, outcome) ← s.mainLoop.route conn
  match outcome with
  | .compact tableNum table => do
      let main ← MainState.passCompaction alloc { s.mainLoop with index } tableNum table
      pure { s with
        heap := main.batches
        mem := main.mem
        main
        unwritten := some (conn, tableNum, MemTable.emptyOut table) }
  | _ => do
      let main ← s.mainLoop.request alloc conn
      let reply := main.replies.getLastD conn
      pure { s with
        heap := main.batches.modifyPool p fun pool =>
          { pool with entries := pool.entries.set i reply }
        mem := main.mem
        main
        current := some (p, i + 1) }

def write (s : LinkedPipeline cfg passes stale) (p i : ℕ) (conn : ConnectionRequest)
    (tableNum : ℕ) (table : MemTable cfg) : Except Fault (LinkedPipeline cfg passes stale) := do
  let main ← s.mainLoop.writeTable conn tableNum table
  pure { s with
    main := { main with replies := main.replies ++ [conn] }
    current := some (p, i + 1)
    unwritten := none }

def search (alloc : Allocator cfg) (passes : ℕ) (stale : Memory → List Bool) (found : Memory)
    (levels : LinkedSystem cfg) (l i p : ℕ) : Except Fault (LinkedSystem cfg) :=
  LinkedSystem.workRead alloc passes stale (fun s _ _ _ => .ok s) { levels with mem := found } l i p
    false false

def setLevels (s : LinkedPipeline cfg passes stale) (levels : LinkedSystem cfg) :
    LinkedPipeline cfg passes stale :=
  { s with heap := levels.heap, mem := levels.mem, main := { s.main with levels } }

def step (alloc : Allocator cfg) (s : LinkedPipeline cfg passes stale) :
    PipelineEvent → Except Fault (LinkedPipeline cfg passes stale)
  | .network e => do
      let net ← Network.step alloc s.network e
      pure { s with heap := net.heap, mem := net.mem, net }
  | .take p => .ok { s with current := some (p, 0) }
  | .request =>
      match s.current with
      | none => .ok s
      | some (p, i) =>
          match s.unwritten with
          | some (conn, tableNum, table) => s.write p i conn tableNum table
          | none => do
              let b ← s.heap.deref p
              match b.readwritePool.entries[i]? with
              | none => pure { s with current := none }
              | some conn => s.request alloc p i conn
  | .practicallyFull flag => .ok { s with main := { s.main with isPracticallyFull := flag } }
  | .work l i found => do
      let levels ← s.levels.work alloc passes stale (search alloc passes stale found) l i
      pure (s.setLevels levels)
  | .report l i => .ok (s.setLevels (s.levels.report l i))

/-- The threads over lists that the ones over linked queues stand for. -/
structure Represents (s : LinkedPipeline cfg passes stale) (t : Pipeline cfg) : Prop where
  heap : s.heap = t.heap
  mem : s.mem = t.mem
  main : MainState.StandsFor LinkedSystem.Represents s.main t.main
  net : s.net = t.net
  current : s.current = t.current
  unwritten : s.unwritten = t.unwritten

variable {alloc : Allocator cfg} {s : LinkedPipeline cfg passes stale} {t : Pipeline cfg}

/-- The levels agree over the shared heap and memory too. -/
theorem Represents.levels (h : s.Represents t) : s.levels.Represents t.levels := by
  rcases h.main with ⟨levels, hmain, hrep⟩
  have hlevels : LinkedSystem.Represents s.main.levels t.main.levels := by
    rw [hmain]
    exact hrep
  exact hlevels.rebase h.heap h.mem

/-- Levels that agree are put back. -/
theorem Represents.setLevels (h : s.Represents t) {levels : LinkedSystem cfg}
    {levels' : System cfg} (hlevels : levels.Represents levels') :
    (s.setLevels levels).Represents (t.setLevels levels') := by
  rcases h.main with ⟨_, hmain, -⟩
  refine ⟨hlevels.heap, hlevels.mem, ⟨levels, ?_, hlevels⟩, h.net, h.current, h.unwritten⟩
  rw [LinkedPipeline.setLevels, hmain]
  rfl

/-- Insertions agree below the main loop. -/
theorem insertsAlike (alloc : Allocator cfg) (passes : ℕ) (stale : Memory → List Bool) :
    MainState.InsertsAlike (Z := systemLevelZero cfg)
      (B := LinkedSystem.below cfg (passes + 1) stale) alloc LinkedSystem.Represents := by
  intro levels levels' h mem heap p
  refine (LinkedSystem.insertIntoWqs_agrees (h.rebase rfl rfl) 0 p).bind fun s t _ _ hst => ?_
  exact ⟨hst, hst.heap⟩

/-- The main loops agree over the shared heap and memory too. -/
theorem Represents.mainLoop (h : s.Represents t) :
    MainState.StandsFor LinkedSystem.Represents s.mainLoop t.mainLoop := by
  rcases h.main with ⟨levels, hmain, hrep⟩
  refine ⟨levels, ?_, hrep⟩
  rw [LinkedPipeline.mainLoop, hmain, h.heap, h.mem]
  rfl

/-- **A request of the main loop.** -/
theorem request_agrees {s : LinkedPipeline cfg (passes + 1) stale} (h : s.Represents t) (p i : ℕ)
    (conn : ConnectionRequest) :
    Agree Represents (s.request alloc p i conn) (t.request alloc p i conn) := by
  rcases h.mainLoop with ⟨levels, hloop, hrep⟩
  rw [LinkedPipeline.request, Pipeline.request, hloop]
  refine (MainState.route_overLevels conn).bind ?_
  rintro _ ⟨index, outcome⟩ - - rfl
  have hinsert : MainState.InsertsAlike (Z := systemLevelZero cfg)
      (B := LinkedSystem.below cfg (passes + 1) stale) alloc LinkedSystem.Represents :=
    insertsAlike alloc passes stale
  cases outcome with
  | compact tableNum table =>
      refine (MainState.passCompaction_agrees (t := { t.mainLoop with index }) hinsert hrep tableNum
        table).bind ?_
      rintro _ main - - ⟨levels', rfl, hrep'⟩
      exact ⟨rfl, rfl, ⟨levels', rfl, hrep'⟩, h.net, h.current, rfl⟩
  | nullKey | hit value | miss | write tableNum table =>
      refine (MainState.request_agrees (t := t.mainLoop) hinsert hrep conn).bind ?_
      rintro _ main - - ⟨levels', rfl, hrep'⟩
      exact ⟨rfl, rfl, ⟨levels', rfl, hrep'⟩, h.net, rfl, h.unwritten⟩

/-- **The WRITE behind a compaction.** -/
theorem write_agrees (h : s.Represents t) (p i : ℕ) (conn : ConnectionRequest) (tableNum : ℕ)
    (table : MemTable cfg) :
    Agree Represents (s.write p i conn tableNum table) (t.write p i conn tableNum table) := by
  rcases h.mainLoop with ⟨levels, hloop, hrep⟩
  rw [LinkedPipeline.write, Pipeline.write, hloop]
  refine (MainState.writeTable_overLevels (t := t.mainLoop) hrep conn tableNum table).bind ?_
  rintro _ main - - ⟨levels', rfl, hrep'⟩
  exact ⟨h.heap, h.mem, ⟨levels', rfl, hrep'⟩, h.net, rfl, rfl⟩

/-- **Any event.** -/
theorem step_agrees {s : LinkedPipeline cfg (passes + 1) stale} (h : s.Represents t)
    (e : PipelineEvent) : Agree Represents (s.step alloc e) (t.step alloc e) := by
  cases e with
  | network e =>
      have hnet : s.network = t.network := by
        rw [LinkedPipeline.network, Pipeline.network, h.net, h.heap, h.mem]
      rw [LinkedPipeline.step, Pipeline.step, hnet]
      refine (Agree.refl (Network.step alloc t.network e)).bind ?_
      rintro net _ - - rfl
      exact ⟨rfl, rfl, h.main, rfl, h.current, h.unwritten⟩
  | take p => exact ⟨h.heap, h.mem, h.main, h.net, rfl, h.unwritten⟩
  | request =>
      rw [LinkedPipeline.step, Pipeline.step, h.current, h.unwritten, h.heap]
      cases t.current with
      | none => exact h
      | some place =>
          cases t.unwritten with
          | some w => exact write_agrees h place.1 place.2 w.1 w.2.1 w.2.2
          | none =>
              refine (Agree.refl (t.heap.deref place.1)).bind ?_
              rintro b _ - - rfl
              cases b.readwritePool.entries[place.2]? with
              | none => exact ⟨rfl, h.mem, h.main, h.net, rfl, rfl⟩
              | some conn => exact request_agrees h place.1 place.2 conn
  | practicallyFull flag =>
      rcases h.main with ⟨levels, hmain, hrep⟩
      exact ⟨h.heap, h.mem, ⟨levels, by rw [hmain]; rfl, hrep⟩, h.net, h.current, h.unwritten⟩
  | work l i found =>
      have hsearch : ∀ {levels levels'}, LinkedSystem.Represents levels levels' → ∀ l i p,
          Agree LinkedSystem.Represents
            (LinkedPipeline.search alloc (passes + 1) stale found levels l i p)
            (Pipeline.search alloc found levels' l i p) := by
        intro levels levels' hst l i p
        have hfound : LinkedSystem.Represents { levels with mem := found }
            { levels' with mem := found } := hst.rebase hst.heap rfl
        refine LinkedSystem.workRead_agrees hfound ?_ l i p false false
        exact fun _ _ _ => hfound
      refine (LinkedSystem.work_agrees h.levels hsearch l i).bind ?_
      exact fun levels levels' _ _ hlevels => h.setLevels hlevels
  | report l i => exact h.setLevels (LinkedSystem.report_represents h.levels l i)

end LinkedPipeline

/-- **All threads over linked queues.**  Where `initialize` declares every wait queue
single-threaded, over any memtables and any sparse index, every run of all threads does the same
over linked queues as over lists: both end in states that stand for each other, or both break off
with the same error; whatever the stack holds where `could_contend_with_consumer` will be, and
however long an insertion is observed. -/
theorem linked_pipeline_agrees (alloc : Allocator cfg) (index : SparseIndex cfg)
    (memtables : List (MemTable cfg)) (flags : Flags)
    (hflags : ∀ l < cfg.numSstableLevels, ∀ i < cfg.levelFactor, flags.waitQueue l i = true)
    (isFlushedTo : ℕ → ℕ → Bool) (mem : Memory) (pool : ConnectionPool) (passes : ℕ)
    (stale : Memory → List Bool) (events : List PipelineEvent) :
    Agree LinkedPipeline.Represents
      (runEvents (LinkedPipeline.step alloc)
        (.start alloc (passes + 1) stale index memtables
          (LinkedSystem.start cfg flags isFlushedTo [] mem) mem pool) events)
      (runEvents (Pipeline.step alloc)
        (.start alloc index memtables (System.start cfg isFlushedTo [] mem) mem pool) events) := by
  refine run_agree (fun _ _ e h => LinkedPipeline.step_agrees h e) ?_
  exact ⟨rfl, rfl, ⟨_, rfl, LinkedSystem.represents_start hflags isFlushedTo [] mem⟩, rfl, rfl, rfl⟩

/-- On two levels of one SSTable all wait queues are declared single-threaded.  In this run the
compaction of a WRITE is passed on, handed to the second level and flushed there. -/
theorem linked_pipeline_agrees_forwarded :
    ∃ flags, initializeFlags pairTablesConfig
        ⟨fun _ => false, fun _ _ => false, fun _ _ => false⟩ = .ok flags
      ∧ Agree LinkedPipeline.Represents
        (runEvents (LinkedPipeline.step (Allocator.zeroed _))
          (.start (Allocator.zeroed _) 1 (fun _ => []) .wide [MemTable.full _]
            (LinkedSystem.start _ flags (fun l _ => l == 0) [] fun _ => 97) (fun _ => 97)
            (.new 1 0))
          (Pipeline.oneWrite ++ [.work 0 0 fun _ => 0, .work 1 0 fun _ => 0, .report 1 0]))
        (runEvents (Pipeline.step (Allocator.zeroed _)) (Pipeline.fullMemtable fun l _ => l == 0)
          (Pipeline.oneWrite ++ [.work 0 0 fun _ => 0, .work 1 0 fun _ => 0, .report 1 0]))
      ∧ ∃ s, runEvents (Pipeline.step (Allocator.zeroed _))
        (Pipeline.fullMemtable fun l _ => l == 0)
          (Pipeline.oneWrite ++ [.work 0 0 fun _ => 0, .work 1 0 fun _ => 0, .report 1 0]) = .ok s
        ∧ s.levels.forwards = [⟨1, 0, 0, some 0⟩] ∧ s.levels.flushes = [⟨1, 1, 0, some 0⟩] := by
  obtain ⟨flags, hinit, hflags⟩ : ∃ flags, initializeFlags pairTablesConfig
        ⟨fun _ => false, fun _ _ => false, fun _ _ => false⟩ = .ok flags
      ∧ ∀ l < pairTablesConfig.numSstableLevels, ∀ i < pairTablesConfig.levelFactor,
        flags.waitQueue l i = true := by
    refine ⟨_, rfl, ?_⟩
    decide
  obtain ⟨s, hrun, -, -, hforwards, hflushes⟩ :=
    Pipeline.fullMemtable_forwarded (fun l _ => l == 0) rfl rfl fun _ => 0
  refine ⟨flags, hinit, ?_, s, hrun, hforwards, hflushes⟩
  -- the two runs are compared, not taken
  generalize Pipeline.oneWrite ++ _ = events
  exact linked_pipeline_agrees _ .wide [MemTable.full _] flags hflags (fun l _ => l == 0)
    (fun _ => 97) (.new 1 0) 0 (fun _ => []) _

end RingDB
