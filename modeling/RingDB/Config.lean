import Mathlib.Algebra.GCDMonoid.Nat

/-!
# The build configuration

The macros of `CMakeLists.txt` and the constants that `constinit_constants.hpp`,
`lsm_tree.hpp` and `memtable.hpp` derive from them.  The positivity fields are what makes the
declarations of the source legal: each of these macros is the length of an array or a divisor.
-/

namespace RingDB

/-- The largest value of `unsigned int`, which is also what `-1` becomes there. -/
abbrev uintMax : ℕ := 2 ^ 32 - 1

/-- The largest value of `std::size_t`. -/
abbrev sizeMax : ℕ := 2 ^ 64 - 1

/-- The largest value of `int`. -/
abbrev intMax : ℕ := 2 ^ 31 - 1

/-- What an `unsigned int` becomes as an `int`. -/
def asInt (n : ℕ) : ℤ := if n ≤ intMax then n else n - 2 ^ 32

structure Config where
  memtableSizeMbBits : ℕ
  totalSstableStorageSpaceMb : ℕ
  levelFactor : ℕ
  numSstableWorkerThreads : ℕ
  keyLength : ℕ
  valueLength : ℕ
  pageSize : ℕ
  blockSize : ℕ
  totalSstablePageCacheSize : ℕ
  alignNoFalseSharing : ℕ
  /-- What `compile_time_num_hashes` evaluates to, in floating point. -/
  numberHashes : ℕ
  /-- What `compile_time_num_bits` evaluates to. -/
  numberBits : ℕ
  levelFactor_pos : 0 < levelFactor
  numSstableWorkerThreads_pos : 0 < numSstableWorkerThreads
  keyLength_pos : 0 < keyLength
  valueLength_pos : 0 < valueLength
  /-- `LEVEL_FACTOR` is compared with `unsigned int` variables. -/
  levelFactor_le : levelFactor ≤ uintMax

namespace Config

variable (cfg : Config)

/-- `NUM_SSTABLES` -/
def numSstables : ℕ := cfg.totalSstableStorageSpaceMb / 2 ^ cfg.memtableSizeMbBits

/-- `NUM_SSTABLE_LEVELS` -/
def numSstableLevels : ℕ := cfg.numSstables / cfg.levelFactor

/-- `WORKER_SSTABLE_BATCH_SIZE` -/
def workerSstableBatchSize : ℕ := cfg.numSstables / cfg.numSstableWorkerThreads

/-- `SOCKET_BUFFER_LENGTH`: five bytes of request type, then the key, then the value. -/
def socketBufferLength : ℕ := 5 + cfg.keyLength + cfg.valueLength

/-- `BATCH_NUM_REQUESTS` -/
def batchNumRequests : ℕ := cfg.pageSize / cfg.socketBufferLength

/-- `MEMTABLE_ENTRY_LENGTH`, which is also `sizeof(CacheBufferEntry)`. -/
def memtableEntryLength : ℕ := cfg.keyLength + cfg.valueLength

/-- `MEMTABLE_SIZE`, written `(1 << MEMTABLE_SIZE_MB_BITS) * (1 << 20)` elsewhere. -/
def memtableSize : ℕ := 2 ^ cfg.memtableSizeMbBits * 2 ^ 20

/-- `max_sstable_height`, the capacity of every traversal stack. -/
def maxSstableHeight : ℕ := cfg.memtableSizeMbBits * 20

/-- `max_buffer_set_size`, the length of the arrays of the page cache. -/
def maxBufferSetSize : ℕ := cfg.maxSstableHeight * cfg.levelFactor

/-- `fair_sstable_page_cache_size` -/
def fairSstablePageCacheSize : ℕ := cfg.totalSstablePageCacheSize / cfg.numSstables

/-- `fair_aligned_sstable_page_cache_buffer_size` -/
def fairAlignedSstablePageCacheBufferSize : ℕ :=
  Nat.lcm (Nat.lcm (cfg.fairSstablePageCacheSize / cfg.maxSstableHeight) cfg.memtableEntryLength)
    cfg.blockSize

/-- The length of a filter's array in bytes.  `CHAR_LEN`, the divisor, is defined as
`KEY_LENGTH`. -/
def bloomLength : ℕ :=
  Nat.lcm ((cfg.numberBits + cfg.keyLength - 1) / cfg.keyLength) cfg.alignNoFalseSharing

/-- The requests of a batch have room in the array of its pool. -/
theorem batchNumRequests_le_pageSize : cfg.batchNumRequests ≤ cfg.pageSize := Nat.div_le_self _ _

end Config

/-- The values of `CMakeLists.txt`, the same in its test and its production branch. -/
def shippedConfig : Config where
  memtableSizeMbBits := 1
  totalSstableStorageSpaceMb := 1000
  levelFactor := 10
  numSstableWorkerThreads := 200
  keyLength := 1
  valueLength := 2
  pageSize := 4096
  blockSize := 4096
  totalSstablePageCacheSize := 1000
  alignNoFalseSharing := 64
  numberHashes := 7
  numberBits := 6700436
  levelFactor_pos := by decide
  numSstableWorkerThreads_pos := by decide
  keyLength_pos := by decide
  valueLength_pos := by decide
  levelFactor_le := by decide

theorem one_le_uintMax : 1 ≤ uintMax := by decide

theorem two_le_uintMax : 2 ≤ uintMax := by decide

/-- The shipped values, for another amount of storage, another level factor and another number of
worker threads. -/
def resizedConfig (totalSstableStorageSpaceMb levelFactor numSstableWorkerThreads : ℕ)
    (hpos : 0 < levelFactor) (hle : levelFactor ≤ uintMax)
    (hworkers : 0 < numSstableWorkerThreads) : Config :=
  { shippedConfig with
    totalSstableStorageSpaceMb
    levelFactor
    numSstableWorkerThreads
    levelFactor_pos := hpos
    levelFactor_le := hle
    numSstableWorkerThreads_pos := hworkers }

/-- The shipped values, with two levels of one SSTable. -/
def oneTableConfig : Config :=
  { shippedConfig with
    totalSstableStorageSpaceMb := 4
    levelFactor := 1
    levelFactor_pos := by decide
    levelFactor_le := by decide }

/-- One SSTable on each of two levels, and a page cache in buffers of 1536 bytes. -/
def pagedConfig : Config :=
  { oneTableConfig with totalSstablePageCacheSize := 40, blockSize := 512 }

theorem sixteen_pos : 0 < 16 := by decide

theorem twentyTwentySeven_pos : 0 < 2027 := by decide

/-- The shipped values, with keys and values of which two requests fit on a page. -/
def pairConfig : Config :=
  { shippedConfig with
    keyLength := 16
    valueLength := 2027
    numberBits := 9835
    keyLength_pos := sixteen_pos
    valueLength_pos := twentyTwentySeven_pos }

end RingDB
