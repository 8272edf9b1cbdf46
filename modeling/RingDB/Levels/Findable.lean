import RingDB.Core.Run
import RingDB.Levels.Decompose

/-!
# Flushed keys at their level

A compaction that `decompose` gives to SSTable `i` leaves two summaries of its keys at the level,
the range of the SSTable in the sparse index and the SSTable's filter.  A later READ of one of
these keys is to find its way through both into `decomposition[i]`.

`LevelRun` is a level over a sequence of calls of `decompose`, with a record of the SSTable that
each compaction was given to.  `ReadAfterFlush` collects a run, a key of a flushed image and a
READ batch that asks for it; there is none whose request reaches its SSTable, since a READ batch
is never split by SSTable at all.
-/

namespace RingDB

open Core

/-- A level over a sequence of calls, the batch objects, and who was given which compaction. -/
structure LevelRun (cfg : Config) where
  level : LevelInfo cfg
  heap : Heap cfg
  /-- Each compaction batch with its SSTable. -/
  assigned : List (ℕ × ℕ)

namespace LevelRun

variable {cfg : Config}

/-- A constructed level. -/
def start (heap : Heap cfg) : LevelRun cfg := ⟨LevelInfo.fresh cfg, heap, []⟩

/-- The SSTables that a decomposition gives `p` to. -/
def tablesOf (d : Decomposition cfg) (p : ℕ) : List ℕ :=
  (List.range cfg.levelFactor).filter fun i => d.slots.data[i]? == some (some p)

/-- One call of `decompose`. -/
def step (mem : Memory) (alloc : Allocator cfg) (r : LevelRun cfg) (p : ℕ) :
    Except Fault (LevelRun cfg) := do
  let (level, heap, d) ← r.level.decompose mem alloc r.heap p
  pure ⟨level, heap, r.assigned ++ (tablesOf d p).map fun i => (p, i)⟩

/-- Nothing is given to an SSTable that does not exist. -/
theorem step_assigned {mem : Memory} {alloc : Allocator cfg} {r r' : LevelRun cfg} {p : ℕ}
    (h : ∀ a ∈ r.assigned, a.2 < cfg.levelFactor) (hs : r.step mem alloc p = .ok r') :
    ∀ a ∈ r'.assigned, a.2 < cfg.levelFactor := by
  rcases bind_eq_ok.1 hs with ⟨⟨level, heap, d⟩, -, hs⟩
  cases hs
  intro a ha
  rcases List.mem_append.1 ha with ha | ha
  · exact h a ha
  · rcases List.mem_map.1 ha with ⟨i, hi, rfl⟩
    exact List.mem_range.1 (List.mem_filter.1 hi).1

end LevelRun

/-- Some entry of an image begins with `key`. -/
def ImageHas (cfg : Config) (image key : Bytes) : Prop :=
  ∃ n, readAt image (n * cfg.memtableEntryLength) cfg.keyLength = .ok key

/-- A READ of a key that was flushed to an SSTable of the level before. -/
structure ReadAfterFlush (cfg : Config) where
  mem : Memory
  alloc : Allocator cfg
  /-- The batch objects, and the order in which they are passed to `decompose`. -/
  heap : Heap cfg
  calls : List ℕ
  run : LevelRun cfg
  ran : runEvents (LevelRun.step mem alloc) (LevelRun.start heap) calls = .ok run
  /-- The compaction, its batch and its SSTable. -/
  flushed : ℕ
  image : RequestBatch cfg
  table : ℕ
  flushed_eq : run.heap[flushed]? = some image
  assigned : (flushed, table) ∈ run.assigned
  /-- A key of its image. -/
  key : Bytes
  key_ne : key ≠ nullKey cfg
  image_has : ImageHas cfg image.reqSeg.data key
  /-- The READ batch and its request for that key. -/
  readBatch : ℕ
  batch : RequestBatch cfg
  readBatch_eq : run.heap[readBatch]? = some batch
  is_read : batch.reqType = .read
  request : ConnectionRequest
  request_mem : request ∈ batch.readwritePool.entries
  request_key : keyAt cfg mem request.buffer = key

namespace ReadAfterFlush

variable {cfg : Config}

/-- The request is put into the part of its SSTable. -/
def Found (x : ReadAfterFlush cfg) : Prop :=
  ∃ level heap d q part, x.run.level.decompose x.mem x.alloc x.run.heap x.readBatch
      = .ok (level, heap, d)
    ∧ d.slots.data[x.table]? = some (some q) ∧ heap[q]? = some part
    ∧ x.request.payload ∈ requestsOf part

theorem table_lt (x : ReadAfterFlush cfg) : x.table < cfg.levelFactor := by
  have hrun : Throughout (LevelRun.step x.mem x.alloc)
      (fun r => ∀ a ∈ r.assigned, a.2 < cfg.levelFactor) (LevelRun.start x.heap) x.calls :=
    throughout_of_step (fun _ _ _ h hs => LevelRun.step_assigned h hs)
      fun _ ha => absurd ha List.not_mem_nil
  exact hrun.final x.ran _ x.assigned

/-- The part of an SSTable in the decomposition of a READ batch is null. -/
theorem slot_null {x : ReadAfterFlush cfg} {level : LevelInfo cfg} {heap : Heap cfg}
    {d : Decomposition cfg} (h : x.run.level.decompose x.mem x.alloc x.run.heap x.readBatch
      = .ok (level, heap, d)) : d.slots.data[x.table]? = some none := by
  rcases LevelInfo.decompose_cases h with ⟨b, hb, hcases⟩
  rw [x.readBatch_eq] at hb
  cases hb
  rcases hcases with ⟨-, -, hout⟩ | ⟨hread, -⟩
  · exact hout.below _ x.table_lt
  · exact absurd x.is_read hread

end ReadAfterFlush

/-- **No flushed key is ever found at its level**, in no level and after no sequence of
compactions. -/
theorem readAfterFlush_not_found {cfg : Config} (x : ReadAfterFlush cfg) : ¬ x.Found := by
  rintro ⟨level, heap, d, q, part, hd, hslot, -, -⟩
  rw [ReadAfterFlush.slot_null hd] at hslot
  cases hslot

/-! ## A run of one compaction and one READ -/

/-- A memtable image whose first entry is the key `a` with the value `bb`. -/
def testImage : Bytes := [97, 98, 98] ++ nulBytes (oneTableConfig.memtableSize - 3)

theorem testImage_key :
    readAt testImage (0 * oneTableConfig.memtableEntryLength) oneTableConfig.keyLength
      = .ok [97] := by
  have hlen : 3 ≤ testImage.length := by
    rw [testImage, List.length_append]
    exact Nat.le_add_right_of_le (by decide)
  rw [readAt_of_le (Nat.le_trans (by decide) hlen)]
  rfl

/-- A READ batch with one request, whose buffer is at address 0. -/
def testReadBatch : RequestBatch oneTableConfig :=
  { RequestBatch.zeroed oneTableConfig .read with
    readwritePool := { entries := [⟨.read, 1, 1, 0⟩] } }

theorem testReadBatch_isRead : testReadBatch.reqType = .read := rfl

/-- The compaction of `testImage`, and the READ batch. -/
def testHeap : Heap oneTableConfig :=
  [{ RequestBatch.zeroed oneTableConfig .compaction with
      reqSeg := ⟨.zeroed _, some 0, testImage⟩ }, testReadBatch]

/-- The request of that batch is in its pool. -/
theorem testRequest_mem : ⟨.read, 1, 1, 0⟩ ∈ testReadBatch.readwritePool.entries :=
  List.mem_singleton.2 rfl

/-- The message `read`, NUL, key `a`. -/
def testRead : Bytes := [114, 101, 97, 100, 0, 97]

/-- `testImage` is flushed to the only SSTable of a new level, then its key is read. -/
def testReadAfterFlush : ReadAfterFlush oneTableConfig where
  mem := store (fun _ => 0) 0 testRead
  alloc := Allocator.zeroed oneTableConfig
  heap := testHeap
  calls := [0]
  run := ⟨LevelInfo.fresh oneTableConfig, testHeap, [(0, 0)]⟩
  ran := rfl
  flushed := 0
  image := _
  table := 0
  flushed_eq := rfl
  assigned := List.mem_singleton.2 rfl
  key := [97]
  key_ne := by decide
  image_has := ⟨0, testImage_key⟩
  readBatch := 1
  batch := testReadBatch
  readBatch_eq := rfl
  is_read := testReadBatch_isRead
  request := ⟨.read, 1, 1, 0⟩
  request_mem := testRequest_mem
  request_key := by decide

/-- **Key `a` is in SSTable 0 and is not looked for there.** -/
theorem testReadAfterFlush_not_found : ¬ testReadAfterFlush.Found := by
  rintro ⟨level, heap, d, q, part, hd, hslot, -, -⟩
  rw [ReadAfterFlush.slot_null hd] at hslot
  cases hslot

end RingDB
