import RingDB.Core.ArrayTree
import RingDB.Worker.TreeRead

/-!
# The tree in an SSTable file

An SSTable file is an array of `CacheBufferEntry` records, a search tree by its indices: the
children of record `i` are the records `2 * i + 1` and `2 * i + 2`.  The search loop of
`try_sstable_tree_read_in_memory` counts records from the beginning of a buffer, so it follows the
tree only in a buffer that begins with the file.

* `entryAt` — a record of the file, `Stored` — the value stored with a key on its search path.
* `HoldsPrefix` — a buffer begins with so many bytes of the file.
* **`searchBuffer_onPath`** — in such a buffer the loop stays on the search path.
-/

namespace RingDB

open Core

namespace Worker

variable {cfg : Config}

/-- The `CacheBufferEntry` at index `i`: its key and its value.  There is none behind the end of the
file or under a null key. -/
def entryAt (cfg : Config) (image : Bytes) (i : ℕ) : Option (Bytes × Bytes) :=
  let key := (image.drop (i * cfg.memtableEntryLength)).take cfg.keyLength
  if (i + 1) * cfg.memtableEntryLength ≤ image.length ∧ key ≠ nulBytes cfg.keyLength then
    some (key, (image.drop (i * cfg.memtableEntryLength + cfg.keyLength)).take cfg.valueLength)
  else none

/-- Index `i` is on the search path of `key`. -/
abbrev OnKeyPath (cfg : Config) (image key : Bytes) : ℕ → Prop :=
  ArrayTree.OnPath (entryAt cfg image) (memcmp · key)

/-- The value stored with `key` on its search path. -/
def Stored (cfg : Config) (image key value : Bytes) : Prop :=
  ArrayTree.Finds (entryAt cfg image) (memcmp · key) value

/-- The first `n` bytes of the buffer are those of the file. -/
structure HoldsPrefix (image buffer : Bytes) (n : ℕ) : Prop where
  le_image : n ≤ image.length
  take_eq : buffer.take n = image.take n

theorem HoldsPrefix.le_buffer {image buffer : Bytes} {n : ℕ} (h : HoldsPrefix image buffer n) :
    n ≤ buffer.length := by
  have hlen := congrArg List.length h.take_eq
  have hle := h.le_image
  rw [List.length_take, List.length_take] at hlen
  omega

theorem HoldsPrefix.mono {image buffer : Bytes} {m n : ℕ} (h : HoldsPrefix image buffer n)
    (hle : m ≤ n) : HoldsPrefix image buffer m where
  le_image := hle.trans h.le_image
  take_eq := by
    rw [← Nat.min_eq_left hle, ← List.take_take, ← List.take_take, h.take_eq]

/-- To read the buffer there is to read the file. -/
theorem HoldsPrefix.readAt_eq {image buffer : Bytes} {n off m : ℕ} (h : HoldsPrefix image buffer n)
    (hle : off + m ≤ n) : readAt buffer off m = .ok ((image.drop off).take m) := by
  have hoff := (h.mono hle).take_eq
  rw [readAt_of_le (hle.trans h.le_buffer), List.take_drop, List.take_drop, hoff]

section

variable {image buffer key : Bytes}

theorem memtableEntryLength_ge (cfg : Config) : 2 ≤ cfg.memtableEntryLength := by
  have hk := cfg.keyLength_pos
  have hv := cfg.valueLength_pos
  show 2 ≤ cfg.keyLength + cfg.valueLength
  omega

/-- An entry inside the part that the buffer holds. -/
theorem entryAt_of_lt {n i : ℕ} (h : HoldsPrefix image buffer (n * cfg.memtableEntryLength))
    (hi : i < n) : (i + 1) * cfg.memtableEntryLength ≤ image.length ∧
      (i + 1) * cfg.memtableEntryLength ≤ n * cfg.memtableEntryLength := by
  have hle : (i + 1) * cfg.memtableEntryLength ≤ n * cfg.memtableEntryLength :=
    Nat.mul_le_mul_right _ hi
  exact ⟨hle.trans h.le_image, hle⟩

/-- **The loop inside a buffer** follows the search path, from an index of the file on it to
another; it reports an equal key only where the file has one. -/
theorem searchBuffer_onPath {n fuel index index' : ℕ} {res res' : Option Ordering}
    (hb : HoldsPrefix image buffer (n * cfg.memtableEntryLength)) (hn : n < 2 ^ 31)
    (hpath : OnKeyPath cfg image key index) (hindex : index < 2 ^ 32) (hres : res ≠ some .eq)
    (h : SSTableInfo.searchBuffer cfg buffer (.ok key) n fuel index res = .ok (index', res')) :
    OnKeyPath cfg image key index' ∧ index' < 2 ^ 32 ∧ (res' = some .eq → index' < n ∧
      ∃ v, entryAt cfg image index' = some (key, v)) := by
  induction fuel generalizing index res with
  | zero => cases h
  | succ fuel ih =>
      rw [SSTableInfo.searchBuffer] at h
      split_ifs at h with hlt
      · rcases entryAt_of_lt hb hlt with ⟨hend, hle⟩
        have hkey : index * cfg.memtableEntryLength + cfg.keyLength
            ≤ n * cfg.memtableEntryLength := by
          have hkey : cfg.keyLength ≤ cfg.memtableEntryLength := Nat.le_add_right ..
          rw [Nat.add_mul] at hle
          omega
        rw [hb.readAt_eq hkey] at h
        simp only [bind, Except.bind] at h
        split_ifs at h with hnull
        · cases h
          exact ⟨hpath, hindex, fun he => absurd he hres⟩
        · have hentry : entryAt cfg image index = some _ := if_pos ⟨hend, hnull⟩
          cases hcmp : memcmp ((image.drop (index * cfg.memtableEntryLength)).take cfg.keyLength)
            key with
          | eq =>
              simp only [hcmp] at h
              cases h
              rw [memcmp_eq_iff] at hcmp
              rw [hcmp] at hentry
              exact ⟨hpath, hindex, fun _ => ⟨hlt, _, hentry⟩⟩
          | gt =>
              simp only [hcmp] at h
              rw [Nat.mod_eq_of_lt (by omega)] at h
              exact ih (hpath.left hentry hcmp) (by omega) (by simp) h
          | lt =>
              simp only [hcmp] at h
              rw [Nat.mod_eq_of_lt (by omega)] at h
              exact ih (hpath.right hentry hcmp) (by omega) (by simp) h
      · cases h
        exact ⟨hpath, hindex, fun he => absurd he hres⟩

/-- Without a key to compare with there is no comparison. -/
theorem searchBuffer_noKey {n fuel index index' : ℕ} {f : Fault} {res' : Option Ordering}
    (h : SSTableInfo.searchBuffer cfg buffer (.error f) n fuel index none = .ok (index', res')) :
    res' = none := by
  cases fuel with
  | zero => cases h
  | succ fuel =>
      rw [SSTableInfo.searchBuffer] at h
      split_ifs at h
      · rcases bind_eq_ok.1 h with ⟨entry, -, h⟩
        split_ifs at h
        · cases h
          rfl
        · cases h
      · cases h
        rfl

/-- The value of an entry that the buffer holds. -/
theorem readAt_value {v value : Bytes} {n i : ℕ}
    (hb : HoldsPrefix image buffer (n * cfg.memtableEntryLength)) (hi : i < n)
    (hentry : entryAt cfg image i = some (key, v))
    (h : readAt buffer (i * cfg.memtableEntryLength + cfg.keyLength) cfg.valueLength = .ok value) :
    value = v := by
  rcases entryAt_of_lt hb hi with ⟨-, hle⟩
  have hin : i * cfg.memtableEntryLength + cfg.keyLength + cfg.valueLength
      ≤ n * cfg.memtableEntryLength := by
    have hlen : cfg.memtableEntryLength = cfg.keyLength + cfg.valueLength := rfl
    rw [Nat.add_mul] at hle
    omega
  rw [hb.readAt_eq hin] at h
  cases h
  simp only [entryAt] at hentry
  split_ifs at hentry
  exact congrArg Prod.snd (Option.some.inj hentry)

/-- A value fills the value field. -/
theorem Stored.length_eq {v : Bytes} (h : Stored cfg image key v) :
    v.length = cfg.valueLength := by
  rcases h with ⟨i, k, -, hentry, -⟩
  simp only [entryAt] at hentry
  split_ifs at hentry with hin
  cases hentry
  have hle := hin.1
  have hlen : cfg.memtableEntryLength = cfg.keyLength + cfg.valueLength := rfl
  rw [Nat.add_mul] at hle
  rw [List.length_take, List.length_drop]
  omega

/-- The entry of the file that a path behind its end comes to. -/
theorem entryAt_of_le {i : ℕ} (h : image.length ≤ i) : entryAt cfg image i = none := by
  have hle : i + 1 ≤ (i + 1) * cfg.memtableEntryLength :=
    Nat.le_mul_of_pos_right _ (Nat.lt_of_lt_of_le Nat.two_pos (memtableEntryLength_ge cfg))
  exact if_neg fun hin => absurd hin.1 (by omega)

end

end Worker

end RingDB
