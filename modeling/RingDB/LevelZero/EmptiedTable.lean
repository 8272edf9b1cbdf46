import RingDB.LevelZero.WriteBounds

/-!
# An emptied memtable

After a compaction the main loop goes on with the memtable that it has emptied, as if that were a
new one.  `empty_out` clears the bytes and leaves the size as it was, so the search for the next key
passes over entries that are not there any more, and the next entry is put behind them.

* `TableOp`, `perform`, `performAll` — what the main loop does with a memtable, and what it learns.
* `LikeFresh` — no sequence of operations tells a table from a new one.
* **`emptied_likeFresh_iff`** — that is so for an emptied table if and only if nothing was written
  to it.
-/

namespace RingDB

open Core

namespace MemTable

variable {cfg : Config}

section Model

/-- An operation of the main loop on one of its memtables.  A WRITE begins with the fullness test
and includes the compaction. -/
inductive TableOp (cfg : Config) where
  | write (d : Directed cfg)
  | read (mem : Memory) (key : ℕ)

def TableOp.keyBytes : TableOp cfg → Bytes
  | .write d => d.write.keyBytes cfg
  | .read mem key => bytesAt mem key cfg.keyLength

/-- What the main loop learns: of a WRITE the image that was compacted, if the table was full, and
the sparse index; of a READ the value, if there is one. -/
inductive TableResult (cfg : Config) where
  | written (image : Option Bytes) (index : SparseIndex cfg)
  | value (v : Option Bytes)

def perform (tableNum : ℕ) (tbl : MemTable cfg) :
    TableOp cfg → Except Fault (MemTable cfg × TableResult cfg)
  | .write d => do
      let s ← tbl.directWrite tableNum d
      pure (s.1, .written (if tbl.size < cfg.memtableSize then none else some tbl.data) s.2)
  | .read mem key => do
      let v ← tbl.read (bytesAt mem key cfg.keyLength)
      pure (tbl, .value v)

/-- The results of the operations, and the bytes of the table behind them. -/
def performAll (tableNum : ℕ) :
    MemTable cfg → List (TableOp cfg) → Except Fault (List (TableResult cfg) × Bytes)
  | tbl, [] => .ok ([], tbl.data)
  | tbl, op :: ops => do
      let (tbl, r) ← tbl.perform tableNum op
      let (rs, data) ← performAll tableNum tbl ops
      pure (r :: rs, data)

/-- Whatever the main loop does, it learns the same as of a new table, and the table holds the same
bytes.  The main loop answers requests for the null key itself. -/
def LikeFresh (tableNum : ℕ) (tbl : MemTable cfg) : Prop :=
  ∀ ops : List (TableOp cfg), (∀ op ∈ ops, op.keyBytes ≠ nullKey cfg) →
    performAll tableNum tbl ops = performAll tableNum (fresh cfg) ops

end Model

section Behind

@[simp] theorem data_emptyOut (tbl : MemTable cfg) :
    tbl.emptyOut.data = nulBytes cfg.memtableSize := by
  cases tbl with
  | mk data size hlen => exact (rfl : (emptyOut ⟨data, size, hlen⟩).data = nulBytes _)

variable {tbl tbl' : MemTable cfg} {tableNum : ℕ}

/-- The search for a key passes over NUL bytes. -/
theorem search_nul_le {key : Bytes} {left : ℕ} (hdata : tbl.data = nulBytes cfg.memtableSize)
    (hkey : key.length = cfg.keyLength) (hnull : key ≠ nullKey cfg)
    (h : tbl.search key = .ok left) : tbl.size ≤ left := by
  refine bisect_of_true (entryLength_pos cfg) (Nat.sub_le _ _) (fun j b hb => ?_) h
  rcases bind_eq_ok.1 hb with ⟨k, hk, ⟨⟩⟩
  have hnul : k = nullKey cfg := by
    rw [hdata] at hk
    exact eq_nulBytes_of_readAt hk
  rw [hnul, nullKey, memcmp_nulBytes_lt hkey hnull]
  rfl

/-- Behind entries that were cleared away, a write leaves the place of the first entry NUL. -/
theorem readAt_write_nul {w : Write} {ix ix' : SparseIndex cfg}
    (hdata : tbl.data = nulBytes cfg.memtableSize) (hsize : cfg.memtableEntryLength ≤ tbl.size)
    (hnull : w.keyBytes cfg ≠ nullKey cfg)
    (h : tbl.write w.mem w.key w.value tableNum ix = .ok (tbl', ix')) :
    readAt tbl'.data cfg.keyLength cfg.valueLength
      = readAt tbl.data cfg.keyLength cfg.valueLength := by
  have hentry : cfg.memtableEntryLength = cfg.keyLength + cfg.valueLength := rfl
  rcases write_cases h with ⟨left, hsearch, -, hplace⟩
  have hle := search_nul_le hdata (length_bytesAt ..) hnull hsearch
  rcases hplace with ⟨-, hcopy, -⟩ | ⟨-, ⟨t, hshift, hsame⟩, -, -⟩
  · exact readAt_writeAt_disjoint hcopy (.inl (by omega))
  · rw [hsame]
    exact readAt_shift hshift (by omega)

/-- So does whatever the main loop directs to such a table. -/
theorem readAt_directWrite_nul {d : Directed cfg} {s : MemTable cfg × SparseIndex cfg}
    (hdata : tbl.data = nulBytes cfg.memtableSize) (hsize : cfg.memtableEntryLength ≤ tbl.size)
    (hnull : d.write.keyBytes cfg ≠ nullKey cfg) (h : tbl.directWrite tableNum d = .ok s) :
    readAt s.1.data cfg.keyLength cfg.valueLength
      = readAt (nulBytes cfg.memtableSize) cfg.keyLength cfg.valueLength := by
  rw [directWrite, if_pos (lt_of_directWrite h)] at h
  rw [← hdata]
  exact @readAt_write_nul cfg tbl s.1 tableNum d.write d.index s.2 hdata hsize hnull h

end Behind

section Telling

variable {tbl : MemTable cfg} {tableNum : ℕ}

/-- The WRITE that tells the two tables apart: a key and a value without NUL bytes. -/
def probe (cfg : Config) : Directed cfg := ⟨⟨fun _ => 1, 0, 0⟩, SparseIndex.fresh cfg⟩

theorem bytesAt_one_ne {p n : ℕ} (hn : 0 < n) : bytesAt (fun _ => 1) p n ≠ nulBytes n := by
  intro h
  have hhead : (bytesAt (fun _ => 1) p n)[0]? = (nulBytes n)[0]? := by rw [h]
  simp [bytesAt, nulBytes, hn] at hhead

/-- In a new table the value of the first entry is behind the place of its key. -/
theorem performAll_fresh_probe (htable : tableNum < cfg.levelFactor)
    (hroom : cfg.memtableEntryLength ≤ cfg.memtableSize) :
    ∃ rs data, performAll tableNum (fresh cfg) [.write (probe cfg)] = .ok (rs, data) ∧
      readAt data cfg.keyLength cfg.valueLength = .ok ((probe cfg).write.valueBytes cfg) := by
  have hpos := entryLength_pos cfg
  rcases (holds_fresh cfg).write_first (probe cfg).write (probe cfg).index htable hroom
    with ⟨tbl', ix', hwrite, hholds⟩
  have hlt : (fresh cfg).size < cfg.memtableSize := Nat.lt_of_lt_of_le hpos hroom
  have hdirect : (fresh cfg).directWrite tableNum (probe cfg) = .ok (tbl', ix') := by
    rw [directWrite, if_pos hlt]
    exact hwrite
  exact ⟨_, tbl'.data, bind_eq_ok.2 ⟨_, bind_eq_ok.2 ⟨_, hdirect, rfl⟩, rfl⟩, hholds.readAt_value⟩

/-- The place stays NUL in a table that was cleared with an entry in it. -/
theorem not_likeFresh (htable : tableNum < cfg.levelFactor)
    (hroom : cfg.memtableEntryLength ≤ cfg.memtableSize)
    (hdata : tbl.data = nulBytes cfg.memtableSize) (hsize : cfg.memtableEntryLength ≤ tbl.size) :
    ¬ LikeFresh tableNum tbl := by
  intro hlike
  have hkey : (probe cfg).write.keyBytes cfg ≠ nullKey cfg := bytesAt_one_ne cfg.keyLength_pos
  have hsame := hlike [.write (probe cfg)] (by simpa [TableOp.keyBytes] using hkey)
  rcases performAll_fresh_probe htable hroom with ⟨rs, data, hfresh, hvalue⟩
  rw [hfresh] at hsame
  rcases bind_eq_ok.1 hsame with ⟨⟨t, r⟩, hperform, hrest⟩
  rcases bind_eq_ok.1 hrest with ⟨⟨rs', data'⟩, hlast, hends⟩
  cases hlast
  cases hends
  rcases bind_eq_ok.1 hperform with ⟨s, hdirect, hends⟩
  cases hends
  rw [readAt_directWrite_nul hdata hsize hkey hdirect] at hvalue
  exact bytesAt_one_ne cfg.valueLength_pos (eq_nulBytes_of_readAt hvalue)

/-- **Emptied tables.**  Whatever was written to a memtable from fresh, once it is emptied no
sequence of fullness tests, writes, reads and compactions tells it from a new one if and only if
nothing was written to it. -/
theorem emptied_likeFresh_iff (htable : tableNum < cfg.levelFactor) {ds : List (Directed cfg)}
    (hrun : runEvents (stepDirected tableNum) (fresh cfg) ds = .ok tbl) :
    LikeFresh tableNum tbl.emptyOut ↔ ds = [] := by
  constructor
  · intro hlike
    by_contra hne
    rcases List.exists_cons_of_ne_nil hne with ⟨d, ds', rfl⟩
    have hsize := size_runDirected hrun
    rw [List.length_cons, Nat.succ_mul] at hsize
    rcases runEvents_cons_eq_ok hrun with ⟨t, hstep, -⟩
    rcases map_eq_ok.1 hstep with ⟨s, hs, -⟩
    rcases directWrite_cases hs with ⟨t', ix, -, hw⟩
    refine not_likeFresh htable (entry_le_of_write hw) (data_emptyOut tbl) ?_ hlike
    rw [size_emptyOut, hsize]
    omega
  · rintro rfl
    cases hrun
    exact fun ops _ => rfl

/-- A new table that is emptied stays a new one. -/
theorem fresh_emptied_likeFresh : LikeFresh 0 (fresh shippedConfig).emptyOut :=
  (@emptied_likeFresh_iff shippedConfig (fresh shippedConfig) 0 (by decide) [] rfl).2 rfl

/-- One write with the shipped values, and the table does not become new again. -/
theorem emptied_not_likeFresh :
    ∃ tbl, runEvents (stepDirected 0) (fresh shippedConfig) [probe shippedConfig] = .ok tbl ∧
      ¬ LikeFresh 0 tbl.emptyOut := by
  have htable : 0 < shippedConfig.levelFactor := by decide
  rcases (holds_fresh shippedConfig).write_first (probe shippedConfig).write
    (probe shippedConfig).index htable (by decide +kernel) with ⟨tbl, ix, hwrite, hholds⟩
  have hlt : (fresh shippedConfig).size < shippedConfig.memtableSize := by decide +kernel
  have hstep : (fresh shippedConfig).stepDirected 0 (probe shippedConfig) = .ok tbl :=
    map_eq_ok.2 ⟨(tbl, ix), by rw [directWrite, if_pos hlt]; exact hwrite, rfl⟩
  refine ⟨tbl, runEvents_cons_ok hstep [], ?_⟩
  refine not_likeFresh htable (by decide +kernel) (data_emptyOut tbl) ?_
  rw [size_emptyOut, hholds.size, List.length_singleton, Nat.one_mul]

end Telling

end MemTable

end RingDB
