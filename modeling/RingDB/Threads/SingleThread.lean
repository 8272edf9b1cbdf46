import RingDB.Config
import RingDB.Core.Bytes

/-!
# The single-thread flags

`LSMTree::initialize` decides once, before any worker runs, which guards are used at all: a guard
whose `is_single_thread` flag is set is skipped.  `initializeFlags` is that computation, and the
three `…Accessor` relations say which threads really reach each structure, read off the code
paths that use it:

* a wait queue of level `l` is pushed to by the callers of `insert_into_wqs` on level `l` — the
  main thread for level 0, the workers of level `l - 1` below — and popped by the worker that
  owns its SSTable;
* a buffer queue is used by its SSTable's owner, filled from above by `insert_into_wqs` and from
  below by the SSTable of the same index one level down;
* a `LevelInfo` is used by the callers of `insert_into_wqs` on its level.

Three things go wrong, independently of each other: the modulus of the flag loop is zero unless a
worker owns a whole level (`initializeFlags_eq_ok_iff`), `set_is_single_thread` assigns its
parameter to itself and leaves the level's own flag as the allocator left it
(`initializeFlags_levelGuard`), and the wait queues of level 0 are declared private although the
main thread fills them and a worker empties them.  The last one spoils every configuration.
-/

namespace RingDB

open Core

/-- A configuration in which the workers share the SSTables evenly and the levels are full, with
two levels or more. -/
structure EvenConfig extends Config where
  workers_dvd : numSstableWorkerThreads ∣ toConfig.numSstables
  levelFactor_dvd : levelFactor ∣ toConfig.numSstables
  two_le_levels : 2 ≤ toConfig.numSstableLevels

/-- Every `is_single_thread` flag: of each level, of each of its buffer queues and of each of its
SSTables' wait queues. -/
structure Flags where
  levelGuard : ℕ → Bool
  bufferQueue : ℕ → ℕ → Bool
  waitQueue : ℕ → ℕ → Bool

namespace Flags

/-- `LevelInfo::set_is_single_thread`.  The first statement of its body assigns the parameter to
itself, so `guard.is_single_thread` of the level is not touched. -/
def setIsSingleThread (cfg : Config) (level : ℕ) (isSingleThread : Bool) (f : Flags) : Flags :=
  { f with
    bufferQueue := fun l j =>
      if l = level ∧ j < cfg.levelFactor then isSingleThread else f.bufferQueue l j }

/-- The loops over `sstable_infos[lo..hi)` of one level. -/
def setWaitQueues (level lo hi : ℕ) (isSingleThread : Bool) (f : Flags) : Flags :=
  { f with
    waitQueue := fun l j =>
      if l = level ∧ lo ≤ j ∧ j < hi then isSingleThread else f.waitQueue l j }

/-- A level whose structures are all declared private: the first and the last one. -/
def setWholeLevel (cfg : Config) (level : ℕ) (f : Flags) : Flags :=
  setWaitQueues level 0 cfg.levelFactor true (setIsSingleThread cfg level true f)

/-- The body of the loop over the levels in between. -/
def setInnerLevel (cfg : Config) (f : Flags) (level : ℕ) : Except Fault Flags :=
  if cfg.workerSstableBatchSize / cfg.levelFactor = 0 then .error .divByZero
  else
    let location := level % (cfg.workerSstableBatchSize / cfg.levelFactor)
    let notBeginning := decide (location > 0)
    let notEnd := decide (location < cfg.levelFactor - 1)
    let f := setIsSingleThread cfg level (notBeginning && notEnd) f
    let f := setWaitQueues level 0 (cfg.levelFactor - 1) notBeginning f
    .ok (setWaitQueues level (cfg.levelFactor - 1) cfg.levelFactor notEnd f)

end Flags

open Flags

/-- The flags that `initialize` leaves behind, from the bytes the allocator handed out. -/
def initializeFlags (cfg : Config) (allocated : Flags) : Except Fault Flags := do
  let f := setWholeLevel cfg 0 allocated
  let f ← (List.range' 1 (cfg.numSstableLevels - 2)).foldlM (setInnerLevel cfg) f
  pure (setWholeLevel cfg (cfg.numSstableLevels - 1) f)

/-! ## Who uses what -/

inductive Thread where
  | main
  | worker (num : ℕ)
  deriving DecidableEq, Repr

/-- The worker whose batch of SSTables holds SSTable `index` of `level`. -/
def owner (cfg : Config) (level index : ℕ) : Thread :=
  .worker ((level * cfg.levelFactor + index) / cfg.workerSstableBatchSize)

/-- The threads that call `insert_into_wqs` on `level`. -/
def InsertAccessor (cfg : Config) (level : ℕ) (t : Thread) : Prop :=
  (level = 0 ∧ t = .main)
    ∨ (0 < level ∧ ∃ j, j < cfg.levelFactor ∧ t = owner cfg (level - 1) j)

def WaitQueueAccessor (cfg : Config) (level index : ℕ) (t : Thread) : Prop :=
  InsertAccessor cfg level t ∨ t = owner cfg level index

def BufferQueueAccessor (cfg : Config) (level index : ℕ) (t : Thread) : Prop :=
  t = owner cfg level index
    ∨ (0 < level ∧ ∃ j, j < cfg.levelFactor ∧ t = owner cfg (level - 1) j)
    ∨ (level + 1 < cfg.numSstableLevels ∧ t = owner cfg (level + 1) index)

/-- At most one thread is related to the structure. -/
def OneThread (accessor : Thread → Prop) : Prop := ∀ t u, accessor t → accessor u → t = u

/-- Every flag that is set belongs to a structure that one thread uses. -/
structure Flags.Sound (cfg : Config) (f : Flags) : Prop where
  levelGuard : ∀ l < cfg.numSstableLevels, f.levelGuard l = true →
    OneThread (InsertAccessor cfg l)
  bufferQueue : ∀ l < cfg.numSstableLevels, ∀ j < cfg.levelFactor, f.bufferQueue l j = true →
    OneThread (BufferQueueAccessor cfg l j)
  waitQueue : ∀ l < cfg.numSstableLevels, ∀ j < cfg.levelFactor, f.waitQueue l j = true →
    OneThread (WaitQueueAccessor cfg l j)

/-- `initialize` computes its flags, and they are sound. -/
def SingleThreadFlagsSound (cfg : Config) (allocated : Flags) : Prop :=
  ∃ f, initializeFlags cfg allocated = .ok f ∧ f.Sound cfg

/-! ## What the loop can change -/

@[simp] theorem setIsSingleThread_waitQueue (cfg : Config) (level : ℕ) (b : Bool) (f : Flags) :
    (setIsSingleThread cfg level b f).waitQueue = f.waitQueue := rfl

theorem setWaitQueues_of_ne {level l : ℕ} (h : l ≠ level) (lo hi : ℕ) (b : Bool) (f : Flags)
    (j : ℕ) : (setWaitQueues level lo hi b f).waitQueue l j = f.waitQueue l j :=
  if_neg fun hl => h hl.1

/-- One pass of the loop leaves the wait queues of the other levels and every level's own flag
alone. -/
theorem setInnerLevel_frame {cfg : Config} {f f' : Flags} {level : ℕ}
    (h : setInnerLevel cfg f level = .ok f') :
    f'.levelGuard = f.levelGuard ∧ ∀ l ≠ level, ∀ j, f'.waitQueue l j = f.waitQueue l j := by
  unfold setInnerLevel at h
  split at h
  · cases h
  · cases h
    refine ⟨rfl, fun l hl j => ?_⟩
    rw [setWaitQueues_of_ne hl, setWaitQueues_of_ne hl, setIsSingleThread_waitQueue]

theorem setInnerLevels_frame {cfg : Config} :
    ∀ {levels : List ℕ} {f f' : Flags}, levels.foldlM (setInnerLevel cfg) f = .ok f' →
      f'.levelGuard = f.levelGuard
        ∧ ∀ l, l ∉ levels → ∀ j, f'.waitQueue l j = f.waitQueue l j
  | [], f, f', h => by
      cases h
      exact ⟨rfl, fun _ _ _ => rfl⟩
  | level :: levels, f, f', h => by
      rw [List.foldlM_cons] at h
      cases hstep : setInnerLevel cfg f level with
      | error e => rw [hstep] at h; cases h
      | ok f₁ =>
          rw [hstep] at h
          rcases setInnerLevel_frame hstep with ⟨hg, hw⟩
          rcases setInnerLevels_frame (f := f₁) h with ⟨hg', hw'⟩
          refine ⟨hg'.trans hg, fun l hl j => ?_⟩
          rw [List.mem_cons, not_or] at hl
          rw [hw' l hl.2 j, hw l hl.1 j]

/-- The result of `initialize`, taken apart once. -/
theorem initializeFlags_eq_ok {cfg : Config} {allocated f : Flags}
    (h : initializeFlags cfg allocated = .ok f) :
    ∃ f₁, (List.range' 1 (cfg.numSstableLevels - 2)).foldlM (setInnerLevel cfg)
        (setWholeLevel cfg 0 allocated) = .ok f₁
      ∧ f = setWholeLevel cfg (cfg.numSstableLevels - 1) f₁ := by
  unfold initializeFlags at h
  cases hfold : (List.range' 1 (cfg.numSstableLevels - 2)).foldlM (setInnerLevel cfg)
      (setWholeLevel cfg 0 allocated) with
  | error e => simp only [hfold] at h; cases h
  | ok f₁ =>
      simp only [hfold] at h
      cases h
      exact ⟨f₁, rfl, rfl⟩

/-- **No level's own flag is ever written**: it is what the allocator handed out. -/
theorem initializeFlags_levelGuard {cfg : Config} {allocated f : Flags}
    (h : initializeFlags cfg allocated = .ok f) : f.levelGuard = allocated.levelGuard := by
  rcases initializeFlags_eq_ok h with ⟨f₁, hfold, rfl⟩
  exact (setInnerLevels_frame hfold).1

/-- **The wait queues of level 0 are declared private** in every configuration. -/
theorem initializeFlags_waitQueue_zero {cfg : EvenConfig} {allocated f : Flags}
    (h : initializeFlags cfg.toConfig allocated = .ok f) {j : ℕ} (hj : j < cfg.levelFactor) :
    f.waitQueue 0 j = true := by
  rcases initializeFlags_eq_ok h with ⟨f₁, hfold, rfl⟩
  have hlast : (0 : ℕ) ≠ cfg.numSstableLevels - 1 := by have := cfg.two_le_levels; omega
  have hmem : (0 : ℕ) ∉ List.range' 1 (cfg.numSstableLevels - 2) := by
    rw [List.mem_range'_1]; omega
  have hzero : f₁.waitQueue 0 j = true := by
    rw [(setInnerLevels_frame hfold).2 0 hmem j]
    exact if_pos ⟨rfl, Nat.zero_le j, hj⟩
  calc (setWholeLevel cfg.toConfig (cfg.numSstableLevels - 1) f₁).waitQueue 0 j
      = f₁.waitQueue 0 j := setWaitQueues_of_ne hlast ..
    _ = true := hzero

/-! ## When the loop divides by zero -/

theorem setInnerLevels_ok {cfg : Config} (h : cfg.levelFactor ≤ cfg.workerSstableBatchSize) :
    ∀ (levels : List ℕ) (f : Flags), ∃ f', levels.foldlM (setInnerLevel cfg) f = .ok f'
  | [], f => ⟨f, rfl⟩
  | level :: levels, f => by
      have hpos : cfg.workerSstableBatchSize / cfg.levelFactor ≠ 0 :=
        (Nat.div_pos h cfg.levelFactor_pos).ne'
      rw [List.foldlM_cons, setInnerLevel, if_neg hpos]
      exact setInnerLevels_ok h levels _

/-- **The flags are computed exactly where a worker owns a whole level**, or where there is no
level between the first and the last. -/
theorem initializeFlags_eq_ok_iff (cfg : Config) (allocated : Flags) :
    (∃ f, initializeFlags cfg allocated = .ok f)
      ↔ cfg.levelFactor ≤ cfg.workerSstableBatchSize ∨ cfg.numSstableLevels ≤ 2 := by
  constructor
  · rintro ⟨f, hf⟩
    by_contra hcon
    rw [not_or, not_le, not_le] at hcon
    rcases initializeFlags_eq_ok hf with ⟨f₁, hfold, -⟩
    obtain ⟨m, hm⟩ : ∃ m, cfg.numSstableLevels - 2 = m + 1 :=
      ⟨cfg.numSstableLevels - 3, by omega⟩
    rw [hm, List.range'_succ, List.foldlM_cons, setInnerLevel,
      if_pos (Nat.div_eq_of_lt hcon.1)] at hfold
    cases hfold
  · intro h
    have hfold : ∃ f₁, (List.range' 1 (cfg.numSstableLevels - 2)).foldlM (setInnerLevel cfg)
        (setWholeLevel cfg 0 allocated) = .ok f₁ := by
      rcases h with h | h
      · exact setInnerLevels_ok h _ _
      · rw [Nat.sub_eq_zero_of_le h]
        exact ⟨_, rfl⟩
    rcases hfold with ⟨f₁, hf₁⟩
    refine ⟨setWholeLevel cfg (cfg.numSstableLevels - 1) f₁, ?_⟩
    simp only [initializeFlags, hf₁]
    rfl

/-! ## No configuration is sound -/

/-- The main thread fills a wait queue of level 0 and a worker empties it. -/
theorem not_oneThread_waitQueue_zero (cfg : Config) (j : ℕ) :
    ¬ OneThread (WaitQueueAccessor cfg 0 j) := by
  intro h
  have := h .main (owner cfg 0 j) (Or.inl (Or.inl ⟨rfl, rfl⟩)) (Or.inr rfl)
  cases this

/-- **In no configuration are the flags sound**, whatever the allocator handed out: either the
flag loop divides by zero or the wait queues of level 0 are used by two threads without a
guard. -/
theorem singleThreadFlags_unsound (cfg : EvenConfig) (allocated : Flags) :
    ¬ SingleThreadFlagsSound cfg.toConfig allocated := by
  rintro ⟨f, hf, hsound⟩
  have hlevels : 0 < cfg.numSstableLevels := by have := cfg.two_le_levels; omega
  exact not_oneThread_waitQueue_zero cfg.toConfig 0
    (hsound.waitQueue 0 hlevels 0 cfg.levelFactor_pos
      (initializeFlags_waitQueue_zero hf cfg.levelFactor_pos))

/-- Four SSTables on two levels, one worker for each level: nothing is divided by zero here, and
the flags are unsound. -/
def twoLevelConfig : EvenConfig where
  toConfig := { shippedConfig with
    totalSstableStorageSpaceMb := 8
    levelFactor := 2
    numSstableWorkerThreads := 2
    levelFactor_pos := Nat.two_pos
    numSstableWorkerThreads_pos := Nat.two_pos
    levelFactor_le := two_le_uintMax }
  workers_dvd := by decide
  levelFactor_dvd := by decide
  two_le_levels := by decide

/-- All flags `false` before `initialize`, and still the wait queue of the first SSTable ends up
declared private while the main thread and worker 0 both use it. -/
theorem twoLevelConfig_unsound :
    (∃ f, initializeFlags twoLevelConfig.toConfig ⟨fun _ => false, fun _ _ => false,
        fun _ _ => false⟩ = .ok f ∧ f.waitQueue 0 0 = true)
      ∧ WaitQueueAccessor twoLevelConfig.toConfig 0 0 .main
      ∧ WaitQueueAccessor twoLevelConfig.toConfig 0 0 (.worker 0)
      ∧ ¬ SingleThreadFlagsSound twoLevelConfig.toConfig ⟨fun _ => false, fun _ _ => false,
          fun _ _ => false⟩ := by
  have hmain : WaitQueueAccessor twoLevelConfig.toConfig 0 0 .main := Or.inl (Or.inl ⟨rfl, rfl⟩)
  have hworker : WaitQueueAccessor twoLevelConfig.toConfig 0 0 (.worker 0) := Or.inr (by decide)
  refine ⟨⟨_, rfl, by decide⟩, hmain, hworker, ?_⟩
  rintro ⟨f, hf, hsound⟩
  have hflag := initializeFlags_waitQueue_zero (j := 0) hf (by decide)
  have heq := hsound.waitQueue 0 (by decide) 0 (by decide) hflag _ _ hmain hworker
  cases heq

end RingDB
