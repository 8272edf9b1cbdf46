import RingDB.LevelZero.SparseIndex
import RingDB.Core.Search

/-!
# Memtables

A `MemTable` is an array of `MEMTABLE_SIZE` bytes that is meant to hold entries of
`KEY_LENGTH + VALUE_LENGTH` bytes sorted by key, and the number of bytes in use.  All positions
are byte offsets, also the midpoints of the binary search, which therefore need not be the
beginning of an entry.
-/

namespace RingDB

open Core

structure MemTable (cfg : Config) where
  data : Bytes
  size : ℕ
  length_data : data.length = cfg.memtableSize

namespace MemTable

variable {cfg : Config}

/-- A constructed memtable: NUL bytes, nothing in use. -/
def fresh (cfg : Config) : MemTable cfg where
  data := nulBytes cfg.memtableSize
  size := 0
  length_data := length_nulBytes _

/-- The binary search that `read` and `write` begin with. -/
def search (tbl : MemTable cfg) (key : Bytes) : Except Fault ℕ :=
  bisect
    (fun mid => do
      let k ← readAt tbl.data mid cfg.keyLength
      pure (memcmp k key == .lt))
    (· + cfg.memtableEntryLength) tbl.size 0 tbl.size

/-- `read`: the value that is copied out, if the key is found. -/
def read (tbl : MemTable cfg) (key : Bytes) : Except Fault (Option Bytes) := do
  let left ← tbl.search key
  if left < tbl.size then
    let k ← readAt tbl.data left cfg.keyLength
    if memcmp k key = .eq then
      let value ← readAt tbl.data (left + cfg.keyLength) cfg.valueLength
      pure (some value)
    else pure none
  else pure none

/-- `std::memcpy` into the table. -/
def copyTo (tbl : MemTable cfg) (off : ℕ) (b : Bytes) : Except Fault (MemTable cfg) :=
  match h : writeAt tbl.data off b with
  | .error f => .error f
  | .ok c => .ok { tbl with data := c, length_data := (length_of_writeAt h).trans tbl.length_data }

/-- The shifting loop of `write`, for `passes` more passes: the carried entry is stored at `dest`
and the one it displaces is carried on to the next entry.  The source counts the passes in bytes,
`i += 1`. -/
def shift : ℕ → ℕ → Bytes → MemTable cfg → Except Fault (MemTable cfg)
  | 0, dest, carried, tbl => tbl.copyTo dest carried
  | passes + 1, dest, carried, tbl => do
      let displaced ← readAt tbl.data dest cfg.memtableEntryLength
      let tbl ← tbl.copyTo dest carried
      shift passes (dest + cfg.memtableEntryLength) displaced tbl

/-- `write`, with the key and the value at their addresses in memory.  At the end of the table only
the value is copied, and the ranges of the sparse index are set to bytes of the value. -/
def write (mem : Memory) (tbl : MemTable cfg) (key value tableNum : ℕ) (ix : SparseIndex cfg) :
    Except Fault (MemTable cfg × SparseIndex cfg) := do
  let left ← tbl.search (bytesAt mem key cfg.keyLength)
  if left = tbl.size then
    let tbl' ← tbl.copyTo (left + cfg.keyLength) (bytesAt mem value cfg.valueLength)
    let ix ← ix.setTableMaxKey tableNum (bytesAt mem value cfg.keyLength)
    pure ({ tbl' with size := tbl.size + cfg.memtableEntryLength }, ix)
  else
    let ix ←
      if left = 0 then ix.setTableMinKey tableNum (bytesAt mem value cfg.keyLength) else pure ix
    let entry := bytesAt mem key cfg.keyLength ++ bytesAt mem value cfg.valueLength
    let tbl' ← tbl.shift (tbl.size - left) left entry
    pure ({ tbl' with size := tbl.size + cfg.memtableEntryLength }, ix)

/-- `empty_out` clears the bytes and keeps `size`. -/
def emptyOut (tbl : MemTable cfg) : MemTable cfg :=
  { tbl with data := nulBytes cfg.memtableSize, length_data := length_nulBytes _ }

end MemTable

end RingDB
