import RingDB.Config
import RingDB.Core.Bytes
import Mathlib.Tactic.Linarith
import Mathlib.Tactic.Ring

/-!
# The sparse index

`SparseIndex` is one flat array of bytes: for each table `2 * KEY_LENGTH` bytes, first the table's
minimum key and then its maximum key, all NUL for a table without keys.  The same structure serves
level 0, where the tables are memtables, and every deeper level, where they are SSTables.

`getTableNum` is meant to find the table whose range contains a key.  It steps through the array
by byte offset, compares that offset with the number of tables, and returns it; and it returns
`-1` whenever it meets a table without a minimum key, after having stored the key there.  From an
index in which no table has a maximum key that is all it ever does
(`getTableNum_of_noMax`), because a maximum key that is all NUL is below every key.
-/

namespace RingDB

open Core

/-- `KEY_LENGTH` NUL bytes: no key. -/
def nullKey (cfg : Config) : Bytes := nulBytes cfg.keyLength

/-- The bytes of a sparse index, always `(KEY_LENGTH << 1) * LEVEL_FACTOR` of them. -/
structure SparseIndex (cfg : Config) where
  index : Bytes
  length_index : index.length = 2 * cfg.keyLength * cfg.levelFactor

namespace SparseIndex

variable {cfg : Config}

/-- The constructor fills the array with NUL bytes. -/
def fresh (cfg : Config) : SparseIndex cfg where
  index := nulBytes (2 * cfg.keyLength * cfg.levelFactor)
  length_index := length_nulBytes _

/-- `std::memcpy` into the array. -/
def copyTo (ix : SparseIndex cfg) (off : ℕ) (b : Bytes) : Except Fault (SparseIndex cfg) :=
  match h : writeAt ix.index off b with
  | .error f => .error f
  | .ok c => .ok ⟨c, (length_of_writeAt h).trans ix.length_index⟩

/-- `(KEY_LENGTH << 1) * table_num`, an `unsigned int` product. -/
def tableOffset (cfg : Config) (tableNum : ℕ) : ℕ := 2 * cfg.keyLength * tableNum % 2 ^ 32

def insertRange (ix : SparseIndex cfg) (minKey maxKey : Bytes) (tableNum : ℕ) :
    Except Fault (SparseIndex cfg) := do
  let ix ← ix.copyTo (tableOffset cfg tableNum) minKey
  ix.copyTo (tableOffset cfg tableNum + cfg.keyLength) maxKey

def removeTable (ix : SparseIndex cfg) (tableNum : ℕ) : Except Fault (SparseIndex cfg) :=
  ix.insertRange (nullKey cfg) (nullKey cfg) tableNum

def setTableMinKey (ix : SparseIndex cfg) (tableNum : ℕ) (key : Bytes) :
    Except Fault (SparseIndex cfg) :=
  ix.copyTo (tableOffset cfg tableNum) key

def setTableMaxKey (ix : SparseIndex cfg) (tableNum : ℕ) (key : Bytes) :
    Except Fault (SparseIndex cfg) :=
  ix.copyTo (tableOffset cfg tableNum + cfg.keyLength) key

/-- The array from the minimum key of `table_num` on: what the returned pointer points to. -/
def getTableMinKey (ix : SparseIndex cfg) (tableNum : ℕ) : Bytes :=
  ix.index.drop (tableOffset cfg tableNum)

/-- The array from the maximum key of `table_num` on. -/
def getTableMaxKey (ix : SparseIndex cfg) (tableNum : ℕ) : Bytes :=
  ix.index.drop (tableOffset cfg tableNum + cfg.keyLength)

/-- The loop of `get_table_num` from the byte offset `i` on: the new index, and the offset itself
or `-1`. -/
def getTableNumFrom (key : Bytes) :
    ℕ → ℕ → SparseIndex cfg → Except Fault (SparseIndex cfg × ℕ)
  | 0, _, ix => .ok (ix, uintMax)
  | fuel + 1, i, ix =>
      if i < cfg.levelFactor then do
        let minKey ← readAt ix.index i cfg.keyLength
        if memcmp minKey (nullKey cfg) = .eq then
          let ix ← ix.copyTo i key
          pure (ix, uintMax)
        else
          let maxKey ← readAt ix.index (i + cfg.keyLength) cfg.keyLength
          if memcmp minKey key ≠ .gt ∧ memcmp maxKey key ≠ .lt then
            if memcmp maxKey (nullKey cfg) = .eq then
              let ix ← ix.copyTo (i + cfg.keyLength) key
              pure (ix, i)
            else pure (ix, i)
          else getTableNumFrom key fuel (i + 2 * cfg.keyLength) ix
      else .ok (ix, uintMax)

/-- `get_table_num`.  `LEVEL_FACTOR` passes are enough, since every pass advances. -/
def getTableNum (ix : SparseIndex cfg) (key : Bytes) : Except Fault (SparseIndex cfg × ℕ) :=
  getTableNumFrom key cfg.levelFactor 0 ix

/-! ## An index without maximum keys -/

/-- No table that the loop visits has a maximum key. -/
def NoMax (ix : SparseIndex cfg) : Prop :=
  ∀ m, 2 * cfg.keyLength * m < cfg.levelFactor →
    readAt ix.index (2 * cfg.keyLength * m + cfg.keyLength) cfg.keyLength = .ok (nullKey cfg)

/-- The offsets that the loop visits lie inside the array, with the key and the maximum key. -/
theorem visited_le {m : ℕ} (h : 2 * cfg.keyLength * m < cfg.levelFactor) :
    2 * cfg.keyLength * m + 2 * cfg.keyLength ≤ 2 * cfg.keyLength * cfg.levelFactor := by
  have hpos := cfg.keyLength_pos
  have hm : m + 1 ≤ cfg.levelFactor :=
    calc m + 1 ≤ 2 * cfg.keyLength * m + 1 := by nlinarith
      _ ≤ cfg.levelFactor := h
  calc 2 * cfg.keyLength * m + 2 * cfg.keyLength = 2 * cfg.keyLength * (m + 1) := by ring
    _ ≤ 2 * cfg.keyLength * cfg.levelFactor := Nat.mul_le_mul_left _ hm

theorem noMax_fresh (cfg : Config) : NoMax (fresh cfg) := by
  intro m hm
  have hle := visited_le hm
  have hlen := (fresh cfg).length_index
  rw [readAt_of_le (by omega)]
  simp only [fresh, nulBytes, nullKey, List.drop_replicate, List.take_replicate]
  congr 2
  omega

theorem copyTo_of_le (ix : SparseIndex cfg) {off : ℕ} {b : Bytes}
    (h : off + b.length ≤ 2 * cfg.keyLength * cfg.levelFactor) :
    ∃ ix', ix.copyTo off b = .ok ix' ∧ writeAt ix.index off b = .ok ix'.index := by
  have hin : off + b.length ≤ ix.index.length := by rw [ix.length_index]; exact h
  have hw := writeAt_of_le hin
  unfold copyTo
  split
  · rename_i f hf
    rw [hw] at hf
    cases hf
  · rename_i c hc
    exact ⟨_, rfl, hc⟩

/-- Both keys of a table lie inside the array. -/
theorem tableOffset_le {tableNum : ℕ} (h : tableNum < cfg.levelFactor) :
    tableOffset cfg tableNum + 2 * cfg.keyLength ≤ 2 * cfg.keyLength * cfg.levelFactor :=
  calc tableOffset cfg tableNum + 2 * cfg.keyLength
      ≤ 2 * cfg.keyLength * tableNum + 2 * cfg.keyLength :=
        Nat.add_le_add_right (Nat.mod_le _ _) _
    _ = 2 * cfg.keyLength * (tableNum + 1) := by ring
    _ ≤ 2 * cfg.keyLength * cfg.levelFactor := Nat.mul_le_mul_left _ h

/-- So either key of a table can be stored. -/
theorem copyKey_ok (ix : SparseIndex cfg) {tableNum off : ℕ} {b : Bytes}
    (h : tableNum < cfg.levelFactor) (hoff : off ≤ cfg.keyLength) (hb : b.length = cfg.keyLength) :
    ∃ ix', ix.copyTo (tableOffset cfg tableNum + off) b = .ok ix' := by
  have hslot := tableOffset_le h
  rcases ix.copyTo_of_le (show tableOffset cfg tableNum + off + b.length
    ≤ 2 * cfg.keyLength * cfg.levelFactor by omega) with ⟨ix', hix, -⟩
  exact ⟨ix', hix⟩

theorem copyTo_ok {ix ix' : SparseIndex cfg} {off : ℕ} {b : Bytes} (h : ix.copyTo off b = .ok ix') :
    writeAt ix.index off b = .ok ix'.index := by
  unfold copyTo at h
  split at h
  · cases h
  · rename_i c hc
    cases h
    exact hc

section Bounds

variable {ix ix' : SparseIndex cfg} {key : Bytes} {tableNum : ℕ}

/-- Both keys of a table can be read. -/
theorem readAt_minKey (ix : SparseIndex cfg) (h : tableNum < cfg.levelFactor) :
    readAt ix.index (tableOffset cfg tableNum) cfg.keyLength
      = .ok ((ix.getTableMinKey tableNum).take cfg.keyLength) := by
  have hslot := tableOffset_le h
  have hlen := ix.length_index
  exact readAt_of_le (by omega)

theorem readAt_maxKey (ix : SparseIndex cfg) (h : tableNum < cfg.levelFactor) :
    readAt ix.index (tableOffset cfg tableNum + cfg.keyLength) cfg.keyLength
      = .ok ((ix.getTableMaxKey tableNum).take cfg.keyLength) := by
  have hslot := tableOffset_le h
  have hlen := ix.length_index
  exact readAt_of_le (by omega)

/-- **`set_table_min_key`** sets one key of the table and leaves the other. -/
theorem setTableMinKey_spec (htable : tableNum < cfg.levelFactor)
    (hkey : key.length = cfg.keyLength)
    (h : ix.setTableMinKey tableNum key = .ok ix') :
    (ix'.getTableMinKey tableNum).take cfg.keyLength = key ∧
      (ix'.getTableMaxKey tableNum).take cfg.keyLength
        = (ix.getTableMaxKey tableNum).take cfg.keyLength := by
  have hwrite := copyTo_ok h
  constructor
  · have hself := readAt_writeAt_self hwrite
    rw [hkey, readAt_minKey ix' htable] at hself
    exact Except.ok.inj hself
  · have hother : readAt ix'.index (tableOffset cfg tableNum + cfg.keyLength) cfg.keyLength
        = readAt ix.index (tableOffset cfg tableNum + cfg.keyLength) cfg.keyLength :=
      readAt_writeAt_disjoint hwrite (.inr (by omega))
    rw [readAt_maxKey ix' htable, readAt_maxKey ix htable] at hother
    exact Except.ok.inj hother

/-- **`set_table_max_key`**, the other way round. -/
theorem setTableMaxKey_spec (htable : tableNum < cfg.levelFactor)
    (hkey : key.length = cfg.keyLength)
    (h : ix.setTableMaxKey tableNum key = .ok ix') :
    (ix'.getTableMaxKey tableNum).take cfg.keyLength = key ∧
      (ix'.getTableMinKey tableNum).take cfg.keyLength
        = (ix.getTableMinKey tableNum).take cfg.keyLength := by
  have hwrite := copyTo_ok h
  constructor
  · have hself := readAt_writeAt_self hwrite
    rw [hkey, readAt_maxKey ix' htable] at hself
    exact Except.ok.inj hself
  · have hother : readAt ix'.index (tableOffset cfg tableNum) cfg.keyLength
        = readAt ix.index (tableOffset cfg tableNum) cfg.keyLength :=
      readAt_writeAt_disjoint hwrite (.inl (by omega))
    rw [readAt_minKey ix' htable, readAt_minKey ix htable] at hother
    exact Except.ok.inj hother

end Bounds

/-- **`insert_range`** enters both keys, and the accessors find them. -/
theorem insertRange_spec (ix : SparseIndex cfg) {minKey maxKey : Bytes} {tableNum : ℕ}
    (hmin : minKey.length = cfg.keyLength) (hmax : maxKey.length = cfg.keyLength)
    (htable : tableNum < cfg.levelFactor) :
    ∃ ix', ix.insertRange minKey maxKey tableNum = .ok ix' ∧
      (ix'.getTableMinKey tableNum).take cfg.keyLength = minKey ∧
      (ix'.getTableMaxKey tableNum).take cfg.keyLength = maxKey := by
  rcases ix.copyKey_ok htable (Nat.zero_le _) hmin with ⟨ix₁, hcopy₁⟩
  rcases ix₁.copyKey_ok htable (Nat.le_refl _) hmax with ⟨ix₂, hcopy₂⟩
  rcases setTableMinKey_spec htable hmin hcopy₁ with ⟨hmin₁, -⟩
  rcases setTableMaxKey_spec htable hmax hcopy₂ with ⟨hmax₂, hmin₂⟩
  exact ⟨ix₂, bind_eq_ok.2 ⟨ix₁, hcopy₁, hcopy₂⟩, hmin₂.trans hmin₁, hmax₂⟩

/-- Storing a minimum key leaves the maximum keys alone. -/
theorem NoMax.copyTo_min {ix : SparseIndex cfg} (h : ix.NoMax) {m : ℕ} {key : Bytes}
    (hkey : key.length = cfg.keyLength) (hm : 2 * cfg.keyLength * m < cfg.levelFactor) :
    ∃ ix', ix.copyTo (2 * cfg.keyLength * m) key = .ok ix' ∧ ix'.NoMax := by
  have hle := visited_le hm
  have hin : 2 * cfg.keyLength * m + key.length ≤ 2 * cfg.keyLength * cfg.levelFactor := by omega
  rcases copyTo_of_le ix hin with ⟨ix', hok, hw⟩
  refine ⟨ix', hok, fun m' hm' => ?_⟩
  rw [readAt_writeAt_disjoint hw, h m' hm']
  -- the slots are `2 * KEY_LENGTH` apart, so a minimum key and a maximum key never share a byte
  rcases Nat.lt_trichotomy m' m with hlt | rfl | hgt
  · left
    have : 2 * cfg.keyLength * (m' + 1) ≤ 2 * cfg.keyLength * m := Nat.mul_le_mul_left _ hlt
    rw [Nat.mul_add] at this
    omega
  · right
    omega
  · right
    have : 2 * cfg.keyLength * (m + 1) ≤ 2 * cfg.keyLength * m' := Nat.mul_le_mul_left _ hgt
    rw [Nat.mul_add] at this
    omega

/-- Where the minimum key is set and the maximum key is not, no key is in between: a key at or
above the minimum is not the null key, and every other key is above the maximum. -/
theorem not_between {minKey key : Bytes} (hmin : minKey.length = cfg.keyLength)
    (hkey : key.length = cfg.keyLength) (hnull : memcmp minKey (nullKey cfg) ≠ .eq) :
    ¬ (memcmp minKey key ≠ .gt ∧ memcmp (nullKey cfg) key ≠ .lt) := by
  rintro ⟨hle, hge⟩
  have hk : key = nullKey cfg := eq_nulBytes_of_memcmp_ne_gt hkey hge
  subst hk
  have hm : minKey ≠ nullKey cfg := fun h => hnull (memcmp_eq_iff.2 h)
  exact hle (memcmp_nulBytes_gt hmin hm)

theorem getTableNumFrom_of_noMax {key : Bytes} (hkey : key.length = cfg.keyLength) :
    ∀ (fuel m : ℕ) {ix : SparseIndex cfg}, ix.NoMax →
      ∃ ix', getTableNumFrom key fuel (2 * cfg.keyLength * m) ix = .ok (ix', uintMax)
        ∧ ix'.NoMax
  | 0, _, ix, h => ⟨ix, rfl, h⟩
  | fuel + 1, m, ix, h => by
      rw [getTableNumFrom]
      split_ifs with hm
      · have hle := visited_le hm
        have hin : 2 * cfg.keyLength * m + cfg.keyLength ≤ ix.index.length := by
          rw [ix.length_index]; omega
        rw [readAt_of_le hin, h m hm]
        have hlen : ((ix.index.drop (2 * cfg.keyLength * m)).take cfg.keyLength).length
            = cfg.keyLength := by
          rw [List.length_take, List.length_drop]; omega
        simp only [bind, Except.bind]
        split_ifs with hnull hrange
        · rcases h.copyTo_min hkey hm with ⟨ix', hok, hmax⟩
          exact ⟨ix', by rw [hok]; rfl, hmax⟩
        · exact absurd hrange (not_between hlen hkey hnull)
        · exact absurd hrange (not_between hlen hkey hnull)
        · have hnext : 2 * cfg.keyLength * m + 2 * cfg.keyLength = 2 * cfg.keyLength * (m + 1) := by
            ring
          rw [hnext]
          exact getTableNumFrom_of_noMax hkey fuel (m + 1) h
      · exact ⟨ix, rfl, h⟩

/-- **Without maximum keys every lookup misses**, and the index stays without maximum keys. -/
theorem getTableNum_of_noMax {ix : SparseIndex cfg} (h : ix.NoMax) {key : Bytes}
    (hkey : key.length = cfg.keyLength) :
    ∃ ix', ix.getTableNum key = .ok (ix', uintMax) ∧ ix'.NoMax := by
  have := getTableNumFrom_of_noMax hkey cfg.levelFactor 0 h
  rwa [Nat.mul_zero] at this

end SparseIndex

end RingDB
