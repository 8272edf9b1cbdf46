import RingDB.Core.Run
import RingDB.Levels.Delivery

/-!
# The levels as one system

The main thread passes batches to the first level, the workers take them off the wait queues of
their SSTables and flush, forward, delete or answer them, and the kernel reports finished flushes.
`System.step` is one such event; a run is any sequence of them, so every order of the workers is
covered.

A wait queue is the list it holds, and `deliver` is what the enqueue loop does to these lists;
**`enqueue_refines_deliver`** connects it to the loop over linked nodes.  The tree search that
answers a READ batch from an SSTable is a parameter, `search`.

Of `insert_into_wqs` this is the half that decomposes a batch and fills the wait queues.  In the
other half the level above hands buffers of the page cache to the SSTables below it; that one is
`Buffers.insertIntoWqs`, and it can have no outcome where this one has.

The fields `arrived`, `dispatched`, `flushes`, `forwards`, `deletions` and `answers` record what
happened; no branch depends on them.
-/

namespace RingDB

open Core Enqueue

variable {cfg : Config}

/-! ## Delivery on lists -/

/-- The first SSTable that has a part. -/
def firstPart (d : Decomposition cfg) : Option ℕ :=
  (List.range cfg.levelFactor).find? fun i => (part d i).isSome

/-- The enqueue loop on the lists that the queues hold: the catch-all rides on the first part. -/
def deliver (d : Decomposition cfg) (queues : List (List ℕ)) : Except Fault (List (List ℕ)) :=
  if d.totalDecompSize = 0 then .error .divByZero
  else if d.numReqBatches = 0 then .ok queues
  else
    match firstPart d with
    | none => .error .diverges
    | some j => .ok (queues.mapIdx fun i l =>
        l ++ (part d i).toList ++ if i = j then (part d cfg.levelFactor).toList else [])

theorem firstPart_eq_none {d : Decomposition cfg}
    (h : ∀ i < cfg.levelFactor, d.slots.data[i]? = some none) : firstPart d = none := by
  simp only [firstPart, List.find?_eq_none, List.mem_range]
  intro i hi
  simp [part_eq_none (h i hi)]

theorem firstPart_assign {p i : ℕ} (hi : i < cfg.levelFactor) :
    firstPart (LevelInfo.assign cfg p i) = some i := by
  have hpart : ∀ j, (part (LevelInfo.assign cfg p i) j).isSome = decide (j = i) := by
    intro j
    rw [part_assign p hi]
    split_ifs with h <;> simp [h]
  simp only [firstPart, hpart]
  rw [List.find?_eq_some_iff_getElem]
  refine ⟨by simp, i, by simpa using hi, by simp, fun j hj => ?_⟩
  simp only [List.getElem_range, Bool.not_eq_eq_eq_not, Bool.not_true, decide_eq_false_iff_not]
  omega

/-- A compaction for SSTable `i` is appended to queue `i`. -/
theorem deliver_assign {p i : ℕ} (hi : i < cfg.levelFactor) (queues : List (List ℕ)) :
    deliver (LevelInfo.assign cfg p i) queues = .ok (queues.modify i (· ++ [p])) := by
  have hsize : (LevelInfo.assign cfg p i).totalDecompSize ≠ 0 := assign_size p i
  have hnum : (LevelInfo.assign cfg p i).numReqBatches ≠ 0 := Nat.one_ne_zero
  rw [deliver, if_neg hsize, if_neg hnum, firstPart_assign hi]
  simp only [part_assign p hi, hi.ne', if_false, Option.toList_none, ite_self, List.append_nil]
  congr 1
  apply List.ext_getElem?
  intro j
  rw [List.getElem?_mapIdx, List.getElem?_modify]
  by_cases hj : i = j
  · simp [hj]
  · simp [hj, Ne.symm hj]

/-- **The loop over linked nodes does to the queues what `deliver` does to their lists.** -/
theorem enqueue_refines_deliver (r : Returned cfg) (q : QuietLevel cfg) (stale : List Bool) :
    match deliver r.decomp q.contents with
    | .ok after => ∃ queues, enqueue r.decomp cfg.levelFactor q.queues stale = .ok queues
        ∧ List.Forall₂ Quiet queues after
    | .error f => enqueue r.decomp cfg.levelFactor q.queues stale = .error f := by
  rcases LevelInfo.decompose_cases r.decompose_eq with ⟨b, -, ⟨-, -, hout⟩ | ⟨-, -, i, hi, hd, -⟩⟩
  · have hnull : ∀ i < cfg.levelFactor, part r.decomp i = none :=
      fun i hi => part_eq_none (hout.below i hi)
    have hfirst := firstPart_eq_none hout.below
    by_cases hsize : r.decomp.totalDecompSize = 0
    · simp only [deliver, enqueue, if_pos hsize]
    · rcases hout.parts with ⟨-, -, -, hnum⟩ | ⟨-, hnum, -⟩
      · simp only [deliver, if_neg hsize, if_pos hnum]
        refine ⟨q.queues, ?_, q.quiet⟩
        have hdone : ∀ fuel st, enqueueLoop r.decomp fuel st = .ok st := fun fuel st => by
          cases fuel <;> rw [enqueueLoop, if_neg (by rw [hnum]; exact Nat.not_lt_zero _)]
        rw [enqueue, if_neg hsize, hdone]
        rfl
      · have hone : r.decomp.numReqBatches ≠ 0 := by rw [hnum]; exact Nat.one_ne_zero
        simp only [deliver, if_neg hsize, if_neg hone, hfirst]
        rw [enqueue, if_neg hsize, enqueueLoop_catchAll hnull (by rw [hnum]; exact Nat.zero_lt_one)
          (Nat.le_of_eq q.length_queues.symm)]
        rfl
  · rw [hd, deliver_assign hi]
    obtain ⟨n, hn⟩ : ∃ n, cfg.levelFactor = n + 1 :=
      ⟨cfg.levelFactor - 1, by have := cfg.levelFactor_pos; omega⟩
    rcases enqueue_assign r.reqBatch hi q stale n with ⟨queues, henq, hquiet⟩
    exact ⟨queues, by rw [hn]; exact henq, hquiet⟩

/-! ## The system -/

/-- An SSTable as its worker sees it. -/
structure Sstable where
  queue : List ℕ := []
  isFlushedTo : Bool := false
  waitingOnIo : Bool := false
  /-- For each queued batch, the first SSTable of the level whose filter was empty when the batch
  came. -/
  arrived : List (Option ℕ) := []

/-- A level with its SSTables. -/
structure SystemLevel (cfg : Config) where
  info : LevelInfo cfg
  tables : List Sstable

/-- A compaction batch at an SSTable, with the first empty one at its arrival. -/
structure Placement where
  batch : ℕ
  level : ℕ
  index : ℕ
  firstEmpty : Option ℕ
  deriving DecidableEq, Repr

structure System (cfg : Config) where
  levels : List (SystemLevel cfg)
  heap : Heap cfg
  mem : Memory
  isPracticallyFull : Bool := false
  /-- The flush writes that were submitted and are not reported yet. -/
  inFlight : List Placement := []
  dispatched : List ℕ := []
  flushes : List Placement := []
  forwards : List Placement := []
  /-- The deleted batches, and whether every SSTable had been given a compaction by then. -/
  deletions : List (ℕ × Bool) := []
  /-- The READ batches that went back to the network thread. -/
  answers : List ℕ := []

/-- The main thread dispatches a batch, a worker visits one of its SSTables, the scheduler ring
reports the end of a flush. -/
inductive SystemEvent where
  | dispatch (batch : ℕ)
  | work (level index : ℕ)
  | report (level index : ℕ)

namespace SystemLevel

/-- `firstEmpty` of a level. -/
def firstEmpty (lv : SystemLevel cfg) : Option ℕ := lv.info.filters.findIdx? Filter.empty

/-- Every SSTable of the level was given a compaction. -/
def full (lv : SystemLevel cfg) : Bool := lv.info.filters.all fun f => !f.empty

/-- The SSTables with their new queues. -/
def receive (lv : SystemLevel cfg) (queues : List (List ℕ)) : List Sstable :=
  List.zipWith (fun t q => { t with
    queue := q
    arrived := t.arrived ++ List.replicate (q.length - t.queue.length) lv.firstEmpty })
    lv.tables queues

end SystemLevel

namespace System

/-- The levels as constructed.  `isFlushedTo` is what the initialisation reads found on disk. -/
def start (cfg : Config) (isFlushedTo : ℕ → ℕ → Bool) (heap : Heap cfg) (mem : Memory) :
    System cfg where
  levels := (List.range cfg.numSstableLevels).map fun l =>
    { info := LevelInfo.fresh cfg
      tables := (List.range cfg.levelFactor).map fun i => { isFlushedTo := isFlushedTo l i } }
  heap := heap
  mem := mem

def table? (s : System cfg) (l i : ℕ) : Option Sstable := s.levels[l]?.bind fun lv => lv.tables[i]?

def modifyTable (s : System cfg) (l i : ℕ) (f : Sstable → Sstable) : System cfg :=
  { s with levels := s.levels.modify l fun lv => { lv with tables := lv.tables.modify i f } }

/-- `insert_into_wqs(l, level_infos, p)`, without the buffers that a call from a level above moves
along (`Buffers.insertIntoWqs`). -/
def insertIntoWqs (alloc : Allocator cfg) (s : System cfg) (l p : ℕ) :
    Except Fault (System cfg) :=
  match s.levels[l]? with
  | none => .error .outOfBounds
  | some lv => do
      let (info, heap, d) ← lv.info.decompose s.mem alloc s.heap p
      let queues ← deliver d (lv.tables.map Sstable.queue)
      pure { s with levels := s.levels.set l { info, tables := lv.receive queues }, heap }

/-- A READ batch: searched for where it can be, else passed on, or back from the last level. -/
def workRead (alloc : Allocator cfg) (search : System cfg → ℕ → ℕ → ℕ → Except Fault (System cfg))
    (s : System cfg) (l i p : ℕ) (presentInLevel isFlushedTo : Bool) :
    Except Fault (System cfg) :=
  if presentInLevel && isFlushedTo then search s l i p
  else if l + 1 < s.levels.length then s.insertIntoWqs alloc (l + 1) p
  else .ok { s with answers := s.answers ++ [p] }

/-- A compaction batch: passed on, flushed, or deleted. -/
def workCompaction (alloc : Allocator cfg) (s : System cfg) (place : Placement)
    (isFlushedTo : Bool) : Except Fault (System cfg) :=
  if isFlushedTo ∧ place.level + 1 < s.levels.length then do
    let s ← s.insertIntoWqs alloc (place.level + 1) place.batch
    pure { s with forwards := s.forwards ++ [place] }
  else if ¬ isFlushedTo then
    .ok (modifyTable { s with
        inFlight := s.inFlight ++ [place]
        flushes := s.flushes ++ [place] }
      place.level place.index fun t => { t with waitingOnIo := true })
  else .ok { s with
    deletions := s.deletions ++ [(place.batch, s.levels.all SystemLevel.full)] }

/-- A worker's visit of SSTable `i` of level `l`. -/
def work (alloc : Allocator cfg) (search : System cfg → ℕ → ℕ → ℕ → Except Fault (System cfg))
    (s : System cfg) (l i : ℕ) : Except Fault (System cfg) :=
  match s.table? l i with
  | none => .ok s
  | some t =>
      if t.waitingOnIo then .ok s
      else
        match t.queue with
        | [] => .ok s
        | p :: rest => do
            let b ← s.heap.deref p
            let s := s.modifyTable l i fun t => { t with queue := rest, arrived := t.arrived.tail }
            if b.reqType = .read then
              s.workRead alloc search l i p b.readwritePool.presentInLevel t.isFlushedTo
            else
              s.workCompaction alloc ⟨p, l, i, t.arrived.head?.join⟩ t.isFlushedTo

/-- The scheduler message of a flush: the SSTable's ring is empty, so it counts as flushed to.
`waiting_on_io` is not touched. -/
def report (s : System cfg) (l i : ℕ) : System cfg :=
  match s.inFlight.find? fun f => f.level == l && f.index == i with
  | none => s
  | some f =>
      modifyTable { s with
          inFlight := s.inFlight.erase f
          isPracticallyFull := l + 1 == s.levels.length }
        l i fun t => { t with isFlushedTo := true }

def step (alloc : Allocator cfg) (search : System cfg → ℕ → ℕ → ℕ → Except Fault (System cfg))
    (s : System cfg) : SystemEvent → Except Fault (System cfg)
  | .dispatch p => do
      let s ← s.insertIntoWqs alloc 0 p
      pure { s with dispatched := s.dispatched ++ [p] }
  | .work l i => s.work alloc search l i
  | .report l i => .ok (s.report l i)

end System

end RingDB
