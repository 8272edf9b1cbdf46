import RingDB.LevelZero.MemTable
import Mathlib.Tactic.Ring

/-!
# The memtable as a map

A sequence of writes into a fresh memtable should leave a map: the last value of every key that was
written, nothing for the others.  Three things stand in its way.  The first entry of a table, and
every other entry that is appended, is stored without its key.  The midpoints of the search need not
be the beginnings of entries.  And the loop that makes room moves `size` entries, where `size`
counts bytes.

All three are harmless for the key that is all NUL: the bytes of a missing key are NUL, nothing is
below it, and the entries that are moved too many are NUL as well, as far as the array reaches.

* `Holds` — the table holds entries of the NUL key, the newest first.
* `HeadNul` — the first key of a table is the NUL key, whatever is written.
* **`memtable_map`** — for which writes the table is a map.
-/

namespace RingDB

open Core

namespace MemTable

variable {cfg : Config}

/-- The arguments of a write: the memory, the addresses of the key and of the value. -/
structure Write where
  mem : Memory
  key : ℕ
  value : ℕ

def Write.keyBytes (cfg : Config) (w : Write) : Bytes := bytesAt w.mem w.key cfg.keyLength

def Write.valueBytes (cfg : Config) (w : Write) : Bytes := bytesAt w.mem w.value cfg.valueLength

/-- Writes one after the other. -/
def writeAll (tableNum : ℕ) (ws : List Write) (s : MemTable cfg × SparseIndex cfg) :
    Except Fault (MemTable cfg × SparseIndex cfg) :=
  ws.foldlM (fun s w => s.1.write w.mem w.key w.value tableNum s.2) s

/-- The value of the last write of a key. -/
def lastValue (cfg : Config) (ws : List Write) (key : Bytes) : Option Bytes :=
  (ws.reverse.find? fun w => w.keyBytes cfg == key).map (·.valueBytes cfg)

section Copying

variable {tbl tbl' : MemTable cfg}

theorem copyTo_ok {off : ℕ} {b : Bytes} (h : tbl.copyTo off b = .ok tbl') :
    writeAt tbl.data off b = .ok tbl'.data ∧ tbl'.size = tbl.size := by
  unfold copyTo at h
  split at h
  · cases h
  · rename_i c hc
    cases h
    exact ⟨hc, rfl⟩

theorem copyTo_of_le (tbl : MemTable cfg) (off : ℕ) (b : Bytes)
    (h : off + b.length ≤ cfg.memtableSize) :
    ∃ tbl', tbl.copyTo off b = .ok tbl' ∧
      tbl'.data = tbl.data.take off ++ b ++ tbl.data.drop (off + b.length) ∧
      tbl'.size = tbl.size := by
  have hw := writeAt_of_le (show off + b.length ≤ tbl.data.length by rw [tbl.length_data]; exact h)
  cases hc : tbl.copyTo off b with
  | error f =>
      exfalso
      unfold copyTo at hc
      split at hc
      · rename_i f' hf
        rw [hw] at hf
        cases hf
      · cases hc
  | ok tbl' =>
      rcases copyTo_ok hc with ⟨hdata, hsize⟩
      rw [hw] at hdata
      exact ⟨tbl', rfl, (Except.ok.inj hdata).symm, hsize⟩

/-- The shifting loop moves the bytes behind `dest` by one entry. -/
theorem shift_of_le : ∀ (passes dest : ℕ) {carried : Bytes} (tbl : MemTable cfg),
    carried.length = cfg.memtableEntryLength →
    dest + (passes + 1) * cfg.memtableEntryLength ≤ cfg.memtableSize →
    ∃ tbl', shift passes dest carried tbl = .ok tbl' ∧ tbl'.size = tbl.size ∧
      tbl'.data = tbl.data.take dest ++ carried
        ++ (tbl.data.drop dest).take (passes * cfg.memtableEntryLength)
        ++ tbl.data.drop (dest + (passes + 1) * cfg.memtableEntryLength) := by
  intro passes
  induction passes with
  | zero =>
      intro dest carried tbl hlen hle
      rcases tbl.copyTo_of_le dest carried (by omega) with ⟨tbl', hcopy, hdata, hsize⟩
      refine ⟨tbl', hcopy, hsize, ?_⟩
      rw [hdata, hlen]
      simp
  | succ passes ih =>
      intro dest carried tbl hlen hle
      have hmul : (passes + 1 + 1) * cfg.memtableEntryLength
          = cfg.memtableEntryLength + (passes + 1) * cfg.memtableEntryLength := by ring
      rw [hmul] at hle
      rcases tbl.copyTo_of_le dest carried (by omega) with ⟨t₁, hcopy, hdata, hsize⟩
      have hread : readAt tbl.data dest cfg.memtableEntryLength
          = .ok ((tbl.data.drop dest).take cfg.memtableEntryLength) :=
        readAt_of_le (by rw [tbl.length_data]; omega)
      have hlen' : ((tbl.data.drop dest).take cfg.memtableEntryLength).length
          = cfg.memtableEntryLength := by
        rw [List.length_take, List.length_drop, tbl.length_data]
        omega
      rcases ih (dest + cfg.memtableEntryLength) t₁ hlen' (by omega)
        with ⟨t₂, hshift, hsize', hdata'⟩
      refine ⟨t₂, ?_, hsize'.trans hsize, ?_⟩
      · exact bind_eq_ok.2 ⟨_, hread, bind_eq_ok.2 ⟨t₁, hcopy, hshift⟩⟩
      · have hfront : (tbl.data.take dest ++ carried).length = dest + cfg.memtableEntryLength := by
          rw [List.length_append, List.length_take, tbl.length_data, hlen]
          omega
        rw [hlen] at hdata
        have htake : t₁.data.take (dest + cfg.memtableEntryLength)
            = tbl.data.take dest ++ carried := by
          rw [hdata, List.take_left' hfront]
        have hdrop : t₁.data.drop (dest + cfg.memtableEntryLength)
            = tbl.data.drop (dest + cfg.memtableEntryLength) := by
          rw [hdata, List.drop_left' hfront]
        have hblock : (passes + 1) * cfg.memtableEntryLength
            = cfg.memtableEntryLength + passes * cfg.memtableEntryLength := by ring
        have hmoved : (tbl.data.drop dest).take ((passes + 1) * cfg.memtableEntryLength)
            = (tbl.data.drop dest).take cfg.memtableEntryLength
              ++ (tbl.data.drop (dest + cfg.memtableEntryLength)).take
                (passes * cfg.memtableEntryLength) := by
          rw [hblock, List.take_add, List.drop_drop]
        have hlast : t₁.data.drop
              (dest + cfg.memtableEntryLength + (passes + 1) * cfg.memtableEntryLength)
            = tbl.data.drop (dest + (passes + 1 + 1) * cfg.memtableEntryLength) := by
          rw [← List.drop_drop, hdrop, List.drop_drop, hmul, Nat.add_assoc]
        rw [hdata', htake, hdrop, hlast, hmoved]
        simp only [List.append_assoc]

/-- Bytes before the destination stay as they are. -/
theorem readAt_shift : ∀ {passes dest off n : ℕ} {carried : Bytes} {tbl tbl' : MemTable cfg},
    shift passes dest carried tbl = .ok tbl' → off + n ≤ dest →
    readAt tbl'.data off n = readAt tbl.data off n := by
  intro passes
  induction passes with
  | zero =>
      intro dest off n carried tbl tbl' h hle
      exact readAt_writeAt_disjoint (copyTo_ok h).1 (.inl hle)
  | succ passes ih =>
      intro dest off n carried tbl tbl' h hle
      rcases bind_eq_ok.1 h with ⟨displaced, -, h₁⟩
      rcases bind_eq_ok.1 h₁ with ⟨t₁, hcopy, hshift⟩
      rw [ih hshift (by omega), readAt_writeAt_disjoint (copyTo_ok hcopy).1 (.inl hle)]

/-- The entry that the loop begins with is stored at its destination. -/
theorem readAt_shift_self {passes dest : ℕ} {carried : Bytes}
    (hlen : carried.length = cfg.memtableEntryLength)
    (h : shift passes dest carried tbl = .ok tbl') :
    readAt tbl'.data dest cfg.memtableEntryLength = .ok carried := by
  cases passes with
  | zero => exact hlen ▸ readAt_writeAt_self (copyTo_ok h).1
  | succ passes =>
      rcases bind_eq_ok.1 h with ⟨displaced, -, h₁⟩
      rcases bind_eq_ok.1 h₁ with ⟨t₁, hcopy, hshift⟩
      rw [readAt_shift hshift (by omega)]
      exact hlen ▸ readAt_writeAt_self (copyTo_ok hcopy).1

/-- The loop stays in the array only if the last entry that it moves does. -/
theorem le_of_shift : ∀ {passes dest : ℕ} {carried : Bytes} {tbl tbl' : MemTable cfg},
    carried.length = cfg.memtableEntryLength → shift passes dest carried tbl = .ok tbl' →
    dest + (passes + 1) * cfg.memtableEntryLength ≤ cfg.memtableSize := by
  intro passes
  induction passes with
  | zero =>
      intro dest carried tbl tbl' hlen h
      have hle := (writeAt_ok_iff.1 (copyTo_ok h).1).1
      rw [hlen, tbl.length_data] at hle
      omega
  | succ passes ih =>
      intro dest carried tbl tbl' hlen h
      rcases bind_eq_ok.1 h with ⟨displaced, hread, h₁⟩
      rcases bind_eq_ok.1 h₁ with ⟨t₁, -, hshift⟩
      have hle := ih (length_of_readAt hread) hshift
      rw [Nat.succ_mul]
      omega

end Copying

section Searching

variable {tbl : MemTable cfg} {key : Bytes}

theorem entryLength_pos (cfg : Config) : 0 < cfg.memtableEntryLength :=
  Nat.add_pos_left cfg.keyLength_pos _

/-- What the search compares at an offset. -/
def below (tbl : MemTable cfg) (key : Bytes) (mid : ℕ) : Except Fault Bool := do
  let k ← readAt tbl.data mid cfg.keyLength
  pure (memcmp k key == .lt)

theorem below_of_read {k : Bytes} {mid : ℕ} (h : readAt tbl.data mid cfg.keyLength = .ok k) :
    tbl.below key mid = .ok (memcmp k key == .lt) := by
  simp [below, h, bind, Except.bind, pure, Except.pure]

theorem below_of_le {mid : ℕ} (h : mid + cfg.keyLength ≤ cfg.memtableSize) :
    ∃ b, tbl.below key mid = .ok b :=
  ⟨_, below_of_read (readAt_of_le (by rw [tbl.length_data]; exact h))⟩

/-- Nothing is below the NUL key. -/
theorem memcmp_nullKey_ne_lt (k : Bytes) (hk : k.length = cfg.keyLength) :
    (memcmp k (nullKey cfg) == .lt) = false := by
  by_cases h : k = nullKey cfg
  · rw [h, memcmp_self]
    rfl
  · rw [nullKey, memcmp_nulBytes_gt hk h]
    rfl

theorem length_window {mid : ℕ} (h : mid + cfg.keyLength ≤ cfg.memtableSize) :
    ((tbl.data.drop mid).take cfg.keyLength).length = cfg.keyLength := by
  rw [List.length_take, List.length_drop, tbl.length_data]
  omega

theorem below_nullKey {mid : ℕ} (h : mid + cfg.keyLength ≤ cfg.memtableSize) :
    tbl.below (nullKey cfg) mid = .ok false := by
  rw [below_of_read (readAt_of_le (by rw [tbl.length_data]; exact h)),
    memcmp_nullKey_ne_lt _ (length_window h)]

/-- The search for the NUL key ends at the first entry. -/
theorem search_nullKey (h : tbl.size / 2 + cfg.keyLength ≤ cfg.memtableSize) :
    tbl.search (nullKey cfg) = .ok 0 :=
  bisect_down (Nat.le_refl _) fun j hj => below_nullKey (by omega)

/-- The search passes all entries of a table whose keys are missing, for any other key, if its
midpoints fall between entries. -/
theorem search_pass {n e : ℕ} (hsize : tbl.size = n * cfg.memtableEntryLength)
    (hkeys : ∀ i, i < n → readAt tbl.data (i * cfg.memtableEntryLength) cfg.keyLength
      = .ok (nullKey cfg))
    (hroom : ∀ i, i < n → i * cfg.memtableEntryLength + cfg.memtableEntryLength / 2 + cfg.keyLength
      ≤ cfg.memtableSize)
    (hn : n + 2 = 2 * 2 ^ e ∨ n + 2 = 3 * 2 ^ e) (hkey : key.length = cfg.keyLength)
    (hnull : key ≠ nullKey cfg) : ∃ pos, tbl.search key = .ok pos ∧ tbl.size ≤ pos := by
  have hstart : ∀ i, i < n → tbl.below key (i * cfg.memtableEntryLength) = .ok true := by
    intro i hi
    rw [below_of_read (hkeys i hi), nullKey, memcmp_nulBytes_lt hkey hnull]
    rfl
  have hb : ∀ i j, i < n → i * cfg.memtableEntryLength ≤ j →
      j ≤ i * cfg.memtableEntryLength + cfg.memtableEntryLength / 2 →
      ∃ b, tbl.below key j = .ok b := by
    intro i j hi _ hj
    have := hroom i hi
    exact below_of_le (by omega)
  have hfuel : n * cfg.memtableEntryLength - 0 * cfg.memtableEntryLength ≤ tbl.size := by omega
  have h := bisect_blocks hstart hb (entryLength_pos cfg) e hfuel (by omega)
  rw [Nat.zero_mul, ← hsize] at h
  exact h

end Searching

section Entries

/-- The bytes of entries that lack their keys. -/
def image (cfg : Config) (vs : List Bytes) : Bytes := (vs.map (nullKey cfg ++ ·)).flatten

/-- The table holds entries of the NUL key with these values, the newest first, and otherwise NUL
bytes. -/
structure Holds (tbl : MemTable cfg) (vs : List Bytes) : Prop where
  data : tbl.data
    = image cfg vs ++ nulBytes (cfg.memtableSize - vs.length * cfg.memtableEntryLength)
  size : tbl.size = vs.length * cfg.memtableEntryLength
  lengths : ∀ v ∈ vs, v.length = cfg.valueLength

theorem data_nil_iff {tbl : MemTable cfg} :
    tbl.data = image cfg []
        ++ nulBytes (cfg.memtableSize - ([] : List Bytes).length * cfg.memtableEntryLength)
      ↔ tbl.data = nulBytes cfg.memtableSize := by
  rw [image, List.map_nil, List.flatten_nil, List.nil_append, List.length_nil, Nat.zero_mul,
    Nat.sub_zero]

theorem holds_fresh (cfg : Config) : Holds (fresh cfg) [] where
  data := data_nil_iff.2 rfl
  size := by simp [fresh]
  lengths := by simp

variable {tbl tbl' : MemTable cfg} {vs : List Bytes} {v : Bytes}

theorem length_nullKey (cfg : Config) : (nullKey cfg).length = cfg.keyLength := length_nulBytes _

@[simp] theorem image_cons (v : Bytes) (vs : List Bytes) :
    image cfg (v :: vs) = nullKey cfg ++ v ++ image cfg vs := by simp [image]

theorem length_image (h : ∀ v ∈ vs, v.length = cfg.valueLength) :
    (image cfg vs).length = vs.length * cfg.memtableEntryLength := by
  induction vs with
  | nil => simp [image]
  | cons v vs ih =>
      have hv := h v (by simp)
      have htail := ih fun w hw => h w (List.mem_cons_of_mem _ hw)
      rw [image_cons, List.length_append, List.length_append, htail, length_nullKey, hv,
        List.length_cons, Nat.succ_mul, Config.memtableEntryLength]
      omega

theorem drop_image (h : ∀ v ∈ vs, v.length = cfg.valueLength) (i : ℕ) :
    (image cfg vs).drop (i * cfg.memtableEntryLength) = image cfg (vs.drop i) := by
  induction i generalizing vs with
  | zero => simp
  | succ i ih =>
      cases vs with
      | nil => simp [image]
      | cons v vs =>
          have hv : (nullKey cfg ++ v).length = cfg.memtableEntryLength := by
            rw [List.length_append, length_nullKey, h v (by simp), Config.memtableEntryLength]
          rw [Nat.succ_mul, Nat.add_comm, ← List.drop_drop, image_cons, List.drop_left' hv,
            ih fun w hw => h w (List.mem_cons_of_mem _ hw), List.drop_succ_cons]

/-- The keys of all entries are missing. -/
theorem Holds.readAt_key (h : Holds tbl vs) {i : ℕ} (hi : i < vs.length) :
    readAt tbl.data (i * cfg.memtableEntryLength) cfg.keyLength = .ok (nullKey cfg) := by
  have hlen := length_image h.lengths
  have hentry : (i + 1) * cfg.memtableEntryLength ≤ vs.length * cfg.memtableEntryLength :=
    Nat.mul_le_mul_right _ hi
  rw [Nat.succ_mul] at hentry
  have hkey : cfg.keyLength ≤ cfg.memtableEntryLength := Nat.le_add_right _ _
  rw [readAt_of_le (by rw [h.data, List.length_append]; omega), h.data,
    List.drop_append_of_le_length (by omega), drop_image h.lengths, List.drop_eq_getElem_cons hi,
    image_cons, List.append_assoc, List.append_assoc, List.take_left' (length_nullKey cfg)]

/-- The value of the newest entry is behind its key. -/
theorem Holds.readAt_value (h : Holds tbl (v :: vs)) :
    readAt tbl.data cfg.keyLength cfg.valueLength = .ok v := by
  have hv := h.lengths v (by simp)
  have hdata := h.data
  rw [image_cons, List.append_assoc, List.append_assoc] at hdata
  rw [readAt_of_le (by rw [hdata]; simp [length_nullKey, hv]), hdata,
    List.drop_left' (length_nullKey cfg), List.take_left' hv]

/-- The array has room for what the shifting loop touches when the last of `n` entries is written,
and for the first midpoint of the search in a single entry. -/
def Room (cfg : Config) (n : ℕ) : Prop :=
  (n - 1) * cfg.memtableEntryLength * cfg.memtableEntryLength + cfg.memtableEntryLength
      ≤ cfg.memtableSize ∧
    cfg.memtableEntryLength / 2 + cfg.keyLength ≤ cfg.memtableSize

theorem Room.mono {n m : ℕ} (h : Room cfg m) (hle : n ≤ m) : Room cfg n := by
  refine ⟨le_trans (Nat.add_le_add_right ?_ _) h.1, h.2⟩
  exact Nat.mul_le_mul_right _ (Nat.mul_le_mul_right _ (by omega))

/-- From two entries on that is more than the search needs. -/
theorem Room.search {n : ℕ} (h : Room cfg n) (hn : 2 ≤ n) :
    n * cfg.memtableEntryLength + cfg.keyLength ≤ cfg.memtableSize := by
  have hk : cfg.keyLength < cfg.memtableEntryLength := Nat.lt_add_of_pos_right cfg.valueLength_pos
  have hpos := cfg.keyLength_pos
  rcases Nat.exists_eq_add_of_le hn with ⟨m, rfl⟩
  have hroom := h.1
  rw [show 2 + m - 1 = m + 1 by omega] at hroom
  have hsquare : (m + 1) * cfg.memtableEntryLength * 2
      ≤ (m + 1) * cfg.memtableEntryLength * cfg.memtableEntryLength :=
    Nat.mul_le_mul_left _ (by omega)
  rw [Nat.succ_mul] at hsquare hroom
  rw [Nat.add_mul]
  omega

/-- The midpoint in the last entry can be compared. -/
theorem Room.midpoint {n i : ℕ} (h : Room cfg n) (hi : i < n) :
    i * cfg.memtableEntryLength + cfg.memtableEntryLength / 2 + cfg.keyLength
      ≤ cfg.memtableSize := by
  rcases Nat.lt_or_ge n 2 with hn | hn
  · obtain rfl : i = 0 := by omega
    have := h.2
    omega
  · have hsearch := h.search hn
    have hentry : (i + 1) * cfg.memtableEntryLength ≤ n * cfg.memtableEntryLength :=
      Nat.mul_le_mul_right _ hi
    rw [Nat.succ_mul] at hentry
    omega

theorem nulBytes_add (m n : ℕ) : nulBytes m ++ nulBytes n = nulBytes (m + n) :=
  List.replicate_append_replicate ..

variable {tableNum : ℕ}

/-- The first write into a table stores an entry without key. -/
theorem Holds.write_first (h : Holds tbl []) (w : Write) (ix : SparseIndex cfg)
    (htable : tableNum < cfg.levelFactor) (hroom : cfg.memtableEntryLength ≤ cfg.memtableSize) :
    ∃ tbl' ix', tbl.write w.mem w.key w.value tableNum ix = .ok (tbl', ix') ∧
      Holds tbl' [w.valueBytes cfg] := by
  have hsize : tbl.size = 0 := by simpa using h.size
  have hsearch : tbl.search (bytesAt w.mem w.key cfg.keyLength) = .ok 0 :=
    bisect_of_le (by omega)
  have hvalue : (bytesAt w.mem w.value cfg.valueLength).length = cfg.valueLength :=
    length_bytesAt ..
  have hentry : cfg.memtableEntryLength = cfg.keyLength + cfg.valueLength := rfl
  rcases tbl.copyTo_of_le (0 + cfg.keyLength) (bytesAt w.mem w.value cfg.valueLength)
    (by omega) with ⟨t, hcopy, hdata, -⟩
  rcases ix.copyKey_ok htable le_rfl (length_bytesAt w.mem w.value cfg.keyLength) with ⟨ix', hix⟩
  refine ⟨{ t with size := tbl.size + cfg.memtableEntryLength }, ix', ?_, ?_⟩
  · refine bind_eq_ok.2 ⟨0, hsearch, ?_⟩
    rw [if_pos hsize.symm]
    exact bind_eq_ok.2 ⟨t, hcopy, bind_eq_ok.2 ⟨ix', hix, rfl⟩⟩
  · have hnul := data_nil_iff.1 h.data
    refine ⟨?_, by simp [hsize], by simp [Write.valueBytes]⟩
    show t.data = _
    rw [hdata, hnul, hvalue]
    simp only [nulBytes, List.take_replicate, List.drop_replicate, Nat.zero_add, image_cons,
      Write.valueBytes, nullKey, List.length_singleton, Nat.one_mul, hentry]
    rw [Nat.min_eq_left (by omega)]
    simp [image]

/-- Entries that were moved back by one entry, together with the NUL bytes behind them, leave room
for an entry in front of them. -/
theorem Holds.shifted (h : Holds tbl vs) {t : MemTable cfg} (hv : v.length = cfg.valueLength)
    (hroom : (tbl.size + 1) * cfg.memtableEntryLength ≤ cfg.memtableSize)
    (hdata : t.data = nullKey cfg ++ v ++ tbl.data.take (tbl.size * cfg.memtableEntryLength)
      ++ tbl.data.drop ((tbl.size + 1) * cfg.memtableEntryLength)) :
    Holds { t with size := tbl.size + cfg.memtableEntryLength } (v :: vs) := by
  have hsize := h.size
  have himage := length_image h.lengths
  have hgrow : tbl.size ≤ tbl.size * cfg.memtableEntryLength :=
    Nat.le_mul_of_pos_right _ (entryLength_pos cfg)
  rw [Nat.succ_mul] at hroom hdata
  refine ⟨?_, ?_, ?_⟩
  · have htake : tbl.data.take (tbl.size * cfg.memtableEntryLength) = image cfg vs
        ++ nulBytes (tbl.size * cfg.memtableEntryLength - tbl.size) := by
      rw [h.data, List.take_append, List.take_of_length_le (by omega), himage, ← hsize, nulBytes,
        List.take_replicate, Nat.min_eq_left (by omega), nulBytes]
    have hdrop : tbl.data.drop (tbl.size * cfg.memtableEntryLength + cfg.memtableEntryLength)
        = nulBytes (cfg.memtableSize
          - (tbl.size * cfg.memtableEntryLength + cfg.memtableEntryLength)) := by
      rw [h.data, List.drop_append, List.drop_eq_nil_of_le (by omega), List.nil_append, nulBytes,
        List.drop_replicate, nulBytes]
      congr 1
      omega
    show t.data = _
    rw [hdata, image_cons, htake, hdrop, List.append_assoc _ (image cfg vs ++ _),
      List.append_assoc (image cfg vs), nulBytes_add, ← List.append_assoc]
    congr 2
    rw [List.length_cons, Nat.succ_mul, ← hsize]
    omega
  · simp [hsize, Nat.succ_mul]
  · intro v' hv'
    rcases List.mem_cons.1 hv' with rfl | hv'
    · exact hv
    · exact h.lengths v' hv'

/-- A further entry of the NUL key goes in front of the others. -/
theorem Holds.write_nul (h : Holds tbl vs) {w : Write} (ix : SparseIndex cfg) (hne : vs ≠ [])
    (hnull : w.keyBytes cfg = nullKey cfg) (htable : tableNum < cfg.levelFactor)
    (hroom : Room cfg (vs.length + 1)) :
    ∃ tbl' ix', tbl.write w.mem w.key w.value tableNum ix = .ok (tbl', ix') ∧
      Holds tbl' (w.valueBytes cfg :: vs) := by
  have hpos := entryLength_pos cfg
  have hlen : 0 < vs.length := List.length_pos_iff.2 hne
  have hsize := h.size
  have hsizePos : tbl.size ≠ 0 := by
    rw [hsize]
    exact (Nat.mul_pos hlen hpos).ne'
  have hmid : tbl.size / 2 + cfg.keyLength ≤ cfg.memtableSize := by
    have := hroom.search (by omega)
    rw [Nat.succ_mul] at this
    omega
  have hsearch : tbl.search (bytesAt w.mem w.key cfg.keyLength) = .ok 0 := by
    rw [show bytesAt w.mem w.key cfg.keyLength = nullKey cfg from hnull]
    exact search_nullKey hmid
  have hentry : (bytesAt w.mem w.key cfg.keyLength ++ bytesAt w.mem w.value cfg.valueLength).length
      = cfg.memtableEntryLength := by
    simp [Config.memtableEntryLength]
  have hroom' : (tbl.size + 1) * cfg.memtableEntryLength ≤ cfg.memtableSize := by
    have := hroom.1
    rw [Nat.add_sub_cancel, ← hsize] at this
    rw [Nat.succ_mul]
    exact this
  rcases shift_of_le tbl.size 0 tbl hentry (by omega) with ⟨t, hshift, -, hdata⟩
  rcases ix.copyKey_ok htable (Nat.zero_le _) (length_bytesAt w.mem w.value cfg.keyLength)
    with ⟨ix', hix⟩
  refine ⟨{ t with size := tbl.size + cfg.memtableEntryLength }, ix', ?_, ?_⟩
  · refine bind_eq_ok.2 ⟨0, hsearch, ?_⟩
    rw [if_neg hsizePos.symm, if_pos rfl]
    exact bind_eq_ok.2 ⟨ix', hix, bind_eq_ok.2 ⟨t, hshift, rfl⟩⟩
  · refine h.shifted (length_bytesAt ..) hroom' ?_
    rw [hdata, show bytesAt w.mem w.key cfg.keyLength = nullKey cfg from hnull]
    simp [Write.valueBytes]

/-- A sequence of writes of the NUL key. -/
theorem writeAll_nul (htable : tableNum < cfg.levelFactor) : ∀ {ws : List Write}
    {tbl : MemTable cfg} (ix : SparseIndex cfg) {vs : List Bytes}, Holds tbl vs →
    (∀ w ∈ ws, w.keyBytes cfg = nullKey cfg) → Room cfg (vs.length + ws.length) →
    ∃ tbl' ix', writeAll tableNum ws (tbl, ix) = .ok (tbl', ix') ∧
      Holds tbl' ((ws.map (·.valueBytes cfg)).reverse ++ vs) := by
  intro ws
  induction ws with
  | nil =>
      intro tbl ix vs h _ _
      exact ⟨tbl, ix, rfl, by simpa using h⟩
  | cons w ws ih =>
      intro tbl ix vs h hnull hroom
      rw [List.length_cons] at hroom
      have hone := hroom.mono (n := vs.length + 1) (by omega)
      have hfirst : ∃ t i, tbl.write w.mem w.key w.value tableNum ix = .ok (t, i) ∧
          Holds t (w.valueBytes cfg :: vs) := by
        rcases vs with _ | ⟨v, vs⟩
        · exact h.write_first w ix htable (by have := hone.1; omega)
        · exact h.write_nul ix (by simp) (hnull w (by simp)) htable hone
      rcases hfirst with ⟨t, i, hwrite, ht⟩
      rcases ih i ht (fun w' hw' => hnull w' (List.mem_cons_of_mem _ hw'))
        (by rw [List.length_cons, Nat.add_right_comm]; exact hroom) with ⟨tbl', ix', hrest, htbl'⟩
      refine ⟨tbl', ix', ?_, by simpa using htbl'⟩
      rw [writeAll, List.foldlM_cons]
      exact bind_eq_ok.2 ⟨(t, i), hwrite, hrest⟩

end Entries

section Reading

variable {tbl tbl' : MemTable cfg} {vs : List Bytes} {v key : Bytes}

/-- Nothing is found in an empty table. -/
theorem Holds.read_nil (h : Holds tbl []) : tbl.read key = .ok none := by
  have hsize : tbl.size = 0 := by simpa using h.size
  have hsearch : tbl.search key = .ok 0 := bisect_of_le (by omega)
  refine bind_eq_ok.2 ⟨0, hsearch, ?_⟩
  rw [if_neg (by omega)]
  rfl

/-- A search that passes all entries finds nothing. -/
theorem read_of_passed {pos : ℕ} (hsearch : tbl.search key = .ok pos) (hpos : tbl.size ≤ pos) :
    tbl.read key = .ok none := by
  refine bind_eq_ok.2 ⟨pos, hsearch, ?_⟩
  rw [if_neg (by omega)]
  rfl

/-- The NUL key has the newest value. -/
theorem Holds.read_nullKey (h : Holds tbl (v :: vs)) (hroom : Room cfg (v :: vs).length) :
    tbl.read (nullKey cfg) = .ok (some v) := by
  have hsize := h.size
  rw [List.length_cons] at hsize hroom
  have hmid : tbl.size / 2 + cfg.keyLength ≤ cfg.memtableSize := by
    have := hroom.2
    have := @Room.search cfg (vs.length + 1) hroom
    rcases vs with _ | ⟨v', vs⟩
    · simp only [List.length_nil, Nat.zero_add, Nat.one_mul] at hsize
      omega
    · simp only [List.length_cons] at hsize this
      have := this (by omega)
      omega
  have hlt : 0 < tbl.size := by
    rw [hsize]
    exact Nat.mul_pos (by omega) (entryLength_pos cfg)
  have hhead := h.readAt_key (i := 0) (by simp)
  rw [Nat.zero_mul] at hhead
  refine bind_eq_ok.2 ⟨0, search_nullKey hmid, ?_⟩
  rw [if_pos hlt]
  refine bind_eq_ok.2 ⟨_, hhead, ?_⟩
  rw [if_pos (memcmp_self _), Nat.zero_add]
  exact bind_eq_ok.2 ⟨v, h.readAt_value, rfl⟩

/-- The midpoints of a search in `n` entries fall between entries. -/
def Halves (n : ℕ) : Prop := ∃ e, n + 2 = 2 * 2 ^ e ∨ n + 2 = 3 * 2 ^ e

theorem Holds.read_halves (h : Holds tbl vs) (hroom : Room cfg vs.length)
    (hhalves : Halves vs.length) (hkey : key.length = cfg.keyLength) (hnull : key ≠ nullKey cfg) :
    tbl.read key = .ok none := by
  rcases hhalves with ⟨e, he⟩
  rcases search_pass h.size (fun i hi => h.readAt_key hi) (fun i hi => hroom.midpoint hi) he hkey
    hnull with ⟨pos, hsearch, hpos⟩
  exact read_of_passed hsearch hpos

/-- What is compared in a table of entries are bytes of the entries, and NUL bytes behind them. -/
theorem Holds.window_infix (h : Holds tbl vs) {pos : ℕ} (hpos : pos < tbl.size)
    (hin : tbl.size + cfg.keyLength ≤ cfg.memtableSize) :
    (tbl.data.drop pos).take cfg.keyLength <:+: image cfg vs ++ nulBytes cfg.keyLength := by
  have himage := length_image h.lengths
  have hfront : tbl.data.take (tbl.size + cfg.keyLength)
      = image cfg vs ++ nulBytes cfg.keyLength := by
    rw [h.data, List.take_append, List.take_of_length_le (by rw [himage, h.size]; omega), himage,
      ← h.size, Nat.add_sub_cancel_left, nulBytes, List.take_replicate, Nat.min_eq_left (by omega),
      nulBytes]
  have hwindow : (tbl.data.drop pos).take cfg.keyLength
      = ((image cfg vs ++ nulBytes cfg.keyLength).drop pos).take cfg.keyLength := by
    rw [← hfront, List.drop_take, List.take_take, Nat.min_eq_left (by omega)]
  rw [hwindow]
  exact (List.take_prefix _ _).isInfix.trans (List.drop_suffix _ _).isInfix

/-- A key whose bytes do not occur in the table is not found. -/
theorem Holds.read_absent (h : Holds tbl vs) (hroom : Room cfg vs.length) (hn : 2 ≤ vs.length)
    (habsent : ¬ key <:+: image cfg vs ++ nulBytes cfg.keyLength) : tbl.read key = .ok none := by
  have hin := hroom.search hn
  rw [← h.size] at hin
  have hb : ∀ j, j < tbl.size → ∃ b, tbl.below key j = .ok b :=
    fun j hj => below_of_le (by omega)
  rcases (bisect_defined hb : ∃ pos, tbl.search key = .ok pos) with ⟨pos, hsearch⟩
  rcases Nat.lt_or_ge pos tbl.size with hlt | hge
  · have hread : readAt tbl.data pos cfg.keyLength = .ok ((tbl.data.drop pos).take cfg.keyLength) :=
      readAt_of_le (by rw [tbl.length_data]; omega)
    refine bind_eq_ok.2 ⟨pos, hsearch, ?_⟩
    rw [if_pos hlt]
    refine bind_eq_ok.2 ⟨_, hread, ?_⟩
    rw [if_neg]
    · rfl
    · intro heq
      rw [memcmp_eq_iff] at heq
      exact habsent (heq ▸ h.window_infix hlt hin)
  · exact read_of_passed hsearch hge

end Reading

section Head

variable {tbl tbl' : MemTable cfg} {ix ix' : SparseIndex cfg} {tableNum : ℕ} {key : Bytes}

/-- The first key of the table is the NUL key, or is missing. -/
def HeadNul (tbl : MemTable cfg) : Prop :=
  ∀ k, readAt tbl.data 0 cfg.keyLength = .ok k → k = nullKey cfg

theorem headNul_fresh (cfg : Config) : HeadNul (fresh cfg) := by
  intro k hk
  exact eq_nulBytes_of_readAt hk

theorem HeadNul.congr (h : HeadNul tbl)
    (heq : readAt tbl'.data 0 cfg.keyLength = readAt tbl.data 0 cfg.keyLength) : HeadNul tbl' :=
  fun k hk => h k (heq ▸ hk)

/-- Only the NUL key is written in front of a first entry. -/
theorem HeadNul.eq_nullKey (h : HeadNul tbl) (hkey : key.length = cfg.keyLength)
    (hsize : 0 < tbl.size) (hsearch : tbl.search key = .ok 0) : key = nullKey cfg := by
  have hstay : tbl.below key 0 = .ok false :=
    bisect_stays (entryLength_pos cfg) hsize (Nat.le_refl _) hsearch
  rcases bind_eq_ok.1 hstay with ⟨k, hk, hcmp⟩
  rw [h k hk] at hcmp
  refine eq_nulBytes_of_memcmp_ne_gt hkey fun hlt => ?_
  rw [nullKey, hlt] at hcmp
  cases hcmp

/-- **What a write does**: at the end of the table it copies the value and sets the upper bound;
anywhere else it moves entries, and sets the lower bound if it is at the front. -/
theorem write_cases {w : Write}
    (hwrite : tbl.write w.mem w.key w.value tableNum ix = .ok (tbl', ix')) :
    ∃ left, tbl.search (w.keyBytes cfg) = .ok left ∧
      tbl'.size = tbl.size + cfg.memtableEntryLength ∧
      ((left = tbl.size ∧ writeAt tbl.data (left + cfg.keyLength) (w.valueBytes cfg) = .ok tbl'.data
        ∧ ix.setTableMaxKey tableNum (bytesAt w.mem w.value cfg.keyLength) = .ok ix') ∨
        (left ≠ tbl.size ∧
          (∃ t, shift (tbl.size - left) left (w.keyBytes cfg ++ w.valueBytes cfg) tbl = .ok t ∧
            tbl'.data = t.data) ∧
          (left = 0 → ix.setTableMinKey tableNum (bytesAt w.mem w.value cfg.keyLength) = .ok ix') ∧
          (left ≠ 0 → ix' = ix))) := by
  rcases bind_eq_ok.1 hwrite with ⟨left, hsearch, hrest⟩
  refine ⟨left, hsearch, ?_⟩
  split_ifs at hrest with hend hzero
  · rcases bind_eq_ok.1 hrest with ⟨t, hcopy, hrest'⟩
    rcases bind_eq_ok.1 hrest' with ⟨i, hmax, ⟨⟩⟩
    exact ⟨rfl, .inl ⟨hend, (copyTo_ok hcopy).1, hmax⟩⟩
  · rcases bind_eq_ok.1 hrest with ⟨i, hmin, hrest'⟩
    rcases bind_eq_ok.1 hrest' with ⟨t, hshift, ⟨⟩⟩
    exact ⟨rfl, .inr ⟨hend, ⟨t, hshift, rfl⟩, fun _ => hmin, fun hne => absurd hzero hne⟩⟩
  · rcases bind_eq_ok.1 hrest with ⟨i, hsame, hrest'⟩
    rcases bind_eq_ok.1 hrest' with ⟨t, hshift, ⟨⟩⟩
    cases hsame
    exact ⟨rfl, .inr ⟨hend, ⟨t, hshift, rfl⟩, fun h => absurd h hzero, fun _ => rfl⟩⟩

/-- The entry that a write moves to its place. -/
theorem length_entry (w : Write) :
    (w.keyBytes cfg ++ w.valueBytes cfg).length = cfg.memtableEntryLength := by
  simp [Write.keyBytes, Write.valueBytes, Config.memtableEntryLength]

/-- Whatever is written, the first key stays the NUL key. -/
theorem HeadNul.write {w : Write} (h : HeadNul tbl)
    (hwrite : tbl.write w.mem w.key w.value tableNum ix = .ok (tbl', ix')) :
    HeadNul tbl' ∧ 0 < tbl'.size := by
  have hkey : cfg.keyLength ≤ cfg.memtableEntryLength := Nat.le_add_right _ _
  rcases write_cases hwrite with ⟨left, hsearch, hsize, hplace⟩
  refine ⟨?_, hsize ▸ Nat.add_pos_right _ (entryLength_pos cfg)⟩
  rcases hplace with ⟨-, hcopy, -⟩ | ⟨hleft, ⟨t, hshift, hdata⟩, -, -⟩
  · exact h.congr (readAt_writeAt_disjoint hcopy (.inl (by omega)))
  · rcases bisect_cases hsearch with rfl | hge
    · -- in front of the first entry goes the NUL key
      have hnull := h.eq_nullKey (length_bytesAt ..) (by omega) hsearch
      have hself := readAt_shift_self (length_entry w) hshift
      have hhead := readAt_prefix hself (length_bytesAt ..) hkey
      intro k hk
      rw [hdata] at hk
      exact (Except.ok.inj (hk.symm.trans hhead)).trans hnull
    · have hsame : readAt t.data 0 cfg.keyLength = readAt tbl.data 0 cfg.keyLength :=
        readAt_shift hshift (by omega)
      exact h.congr (hdata ▸ hsame)

theorem HeadNul.writeAll : ∀ {ws : List Write} {tbl : MemTable cfg} {ix : SparseIndex cfg},
    HeadNul tbl → writeAll tableNum ws (tbl, ix) = .ok (tbl', ix') →
    HeadNul tbl' ∧ (ws ≠ [] ∨ 0 < tbl.size → 0 < tbl'.size) := by
  intro ws
  induction ws with
  | nil =>
      intro tbl ix h hrun
      cases hrun
      exact ⟨h, fun hor => hor.resolve_left (· rfl)⟩
  | cons w ws ih =>
      intro tbl ix h hrun
      rw [MemTable.writeAll, List.foldlM_cons] at hrun
      rcases bind_eq_ok.1 hrun with ⟨⟨t, i⟩, hwrite, hrest⟩
      rcases h.write hwrite with ⟨ht, hsize⟩
      rcases ih ht hrest with ⟨htbl', hsize'⟩
      exact ⟨htbl', fun _ => hsize' (.inr hsize)⟩

/-- Every write adds one entry to the size. -/
theorem size_write {w : Write}
    (hwrite : tbl.write w.mem w.key w.value tableNum ix = .ok (tbl', ix')) :
    tbl'.size = tbl.size + cfg.memtableEntryLength := by
  rcases write_cases hwrite with ⟨left, -, hsize, -⟩
  exact hsize

theorem size_writeAll : ∀ {ws : List Write} {s s' : MemTable cfg × SparseIndex cfg},
    MemTable.writeAll tableNum ws s = .ok s' →
    s'.1.size = s.1.size + ws.length * cfg.memtableEntryLength := by
  intro ws
  induction ws with
  | nil =>
      intro s s' h
      cases h
      simp
  | cons w ws ih =>
      intro s s' h
      rw [MemTable.writeAll, List.foldlM_cons] at h
      rcases bind_eq_ok.1 h with ⟨t, hwrite, hrest⟩
      rw [ih hrest, size_write hwrite, List.length_cons, Nat.succ_mul]
      omega

/-- A search for the NUL key never leaves the first entry. -/
theorem search_nullKey_eq {left : ℕ} (h : tbl.search (nullKey cfg) = .ok left) : left = 0 := by
  refine bisect_of_false (fun j b hb => ?_) h
  rcases bind_eq_ok.1 hb with ⟨k, hk, ⟨⟩⟩
  exact memcmp_nullKey_ne_lt k (length_of_readAt hk)

/-- A NUL key that was written behind other entries had room for all the shifting. -/
theorem room_of_write {w : Write} (hnull : w.keyBytes cfg = nullKey cfg) (hsize : 0 < tbl.size)
    (hwrite : tbl.write w.mem w.key w.value tableNum ix = .ok (tbl', ix')) :
    tbl.size * cfg.memtableEntryLength + cfg.memtableEntryLength ≤ cfg.memtableSize := by
  rcases write_cases hwrite with ⟨left, hsearch, -, hplace⟩
  rw [hnull] at hsearch
  obtain rfl := search_nullKey_eq hsearch
  rcases hplace with ⟨hend, -⟩ | ⟨-, ⟨t, hshift, -⟩, -⟩
  · omega
  · have hle := le_of_shift (length_entry w) hshift
    rw [Nat.sub_zero, Nat.succ_mul] at hle
    omega

/-- The first comparison of a search. -/
theorem midpoint_of_search {left : ℕ} (hsize : 0 < tbl.size) (h : tbl.search key = .ok left) :
    tbl.size / 2 + cfg.keyLength ≤ cfg.memtableSize := by
  rcases bisect_first hsize hsize h with ⟨b, hb⟩
  rcases bind_eq_ok.1 hb with ⟨k, hk, -⟩
  unfold readAt at hk
  split_ifs at hk with hin
  rwa [tbl.length_data, Nat.zero_add] at hin

/-- So the NUL key always reads as written. -/
theorem HeadNul.read_nullKey (h : HeadNul tbl) (hsize : 0 < tbl.size) :
    tbl.read (nullKey cfg) ≠ .ok none := by
  intro hread
  rcases bind_eq_ok.1 hread with ⟨left, hsearch, hrest⟩
  have hzero := search_nullKey_eq hsearch
  subst hzero
  rw [if_pos hsize] at hrest
  rcases bind_eq_ok.1 hrest with ⟨k, hk, hfound⟩
  rw [if_pos (memcmp_eq_iff.2 (h k hk))] at hfound
  rcases bind_eq_ok.1 hfound with ⟨v, -, hv⟩
  cases hv

end Head

section Map

/-- The last value of a key, where only the NUL key was written. -/
theorem lastValue_of_nul {ws : List Write} (hnull : ∀ w ∈ ws, w.keyBytes cfg = nullKey cfg)
    (key : Bytes) :
    lastValue cfg ws key
      = if key = nullKey cfg then (ws.map (·.valueBytes cfg)).reverse.head? else none := by
  unfold lastValue
  have hfind : ∀ w ∈ ws.reverse, (w.keyBytes cfg == key) = decide (key = nullKey cfg) := by
    intro w hw
    rw [hnull w (List.mem_reverse.1 hw), beq_eq_decide]
    exact decide_eq_decide.2 eq_comm
  split_ifs with hkey
  · rw [← List.map_reverse, List.head?_map]
    cases hrev : ws.reverse with
    | nil => rfl
    | cons w rest =>
        have hw : (w.keyBytes cfg == key) = true := by
          rw [hfind w (by simp [hrev])]
          exact decide_eq_true hkey
        rw [List.find?_cons_of_pos (p := fun w' : Write => w'.keyBytes cfg == key) hw]
        rfl
  · rw [List.find?_eq_none.2 fun w hw => by simp [hfind w hw, hkey]]
    rfl

/-- Writes of the NUL key alone, the last of which is read back, had the room. -/
theorem room_of_read {ws : List Write} (hne : ws ≠ [])
    (hnull : ∀ w ∈ ws, w.keyBytes cfg = nullKey cfg) {tableNum : ℕ} {ix ix' : SparseIndex cfg}
    {tbl : MemTable cfg} {r : Option Bytes}
    (hrun : writeAll tableNum ws (fresh cfg, ix) = .ok (tbl, ix'))
    (hread : tbl.read (nullKey cfg) = .ok r) : Room cfg ws.length := by
  have hpos := entryLength_pos cfg
  have hsize : tbl.size = ws.length * cfg.memtableEntryLength := by
    have := size_writeAll hrun
    simpa [fresh] using this
  have hlen : 0 < ws.length := List.length_pos_iff.2 hne
  have hone : cfg.memtableEntryLength ≤ tbl.size := by
    rw [hsize]
    exact Nat.le_mul_of_pos_left _ hlen
  rcases bind_eq_ok.1 hread with ⟨left, hsearch, hrest⟩
  have hmid := midpoint_of_search (by omega) hsearch
  refine ⟨?_, by omega⟩
  rcases List.eq_nil_or_concat ws with rfl | ⟨init, w, rfl⟩
  · exact absurd rfl hne
  rw [List.concat_eq_append, writeAll, List.foldlM_append] at hrun
  rcases bind_eq_ok.1 hrun with ⟨⟨t, i⟩, hinit, hlast⟩
  rw [List.foldlM_cons] at hlast
  rcases bind_eq_ok.1 hlast with ⟨⟨t', i'⟩, hwrite, ⟨⟩⟩
  change writeAll tableNum init (fresh cfg, ix) = .ok (t, i) at hinit
  have hsize' : t.size = init.length * cfg.memtableEntryLength := by
    have := size_writeAll hinit
    simpa [fresh] using this
  rw [List.length_concat, Nat.add_sub_cancel, ← hsize']
  rcases Nat.eq_zero_or_pos t.size with hzero | hbehind
  · -- a single write, whose value is read back
    rw [search_nullKey_eq hsearch, if_pos (by omega)] at hrest
    rcases bind_eq_ok.1 hrest with ⟨k, hk, hfound⟩
    have hhead := ((headNul_fresh cfg).writeAll hinit).1.write hwrite
    rw [if_pos (memcmp_eq_iff.2 (hhead.1 k hk)), Nat.zero_add] at hfound
    rcases bind_eq_ok.1 hfound with ⟨v, hv, -⟩
    unfold readAt at hv
    split_ifs at hv with hin
    rw [tbl.length_data] at hin
    rw [hzero, Nat.zero_mul, Nat.zero_add]
    exact hin
  · exact room_of_write (hnull w (by simp)) hbehind hwrite

/-- The table is a map after writes of the NUL key alone, if the array has room for the shifting,
for keys whose search falls between the entries or whose bytes do not occur in the table.  It is no
map where the array has not that room, and it is none after writes of other keys alone. -/
theorem memtable_map (cfg : Config) (tableNum : ℕ) (htable : tableNum < cfg.levelFactor)
    (ix : SparseIndex cfg) (ws : List Write) :
    (ws = [] ∨ (∀ w ∈ ws, w.keyBytes cfg = nullKey cfg) ∧ Room cfg ws.length →
      ∃ tbl ix', writeAll tableNum ws (fresh cfg, ix) = .ok (tbl, ix') ∧
        ∀ key, key.length = cfg.keyLength →
          key = nullKey cfg ∨ Halves ws.length ∨
            ¬ key <:+: image cfg (ws.map (·.valueBytes cfg)).reverse ++ nulBytes cfg.keyLength →
          tbl.read key = .ok (lastValue cfg ws key)) ∧
    ∀ tbl ix', writeAll tableNum ws (fresh cfg, ix) = .ok (tbl, ix') → ws ≠ [] →
      tbl.read (nullKey cfg) = .ok (lastValue cfg ws (nullKey cfg)) →
      (∃ w ∈ ws, w.keyBytes cfg = nullKey cfg) ∧
        ((∀ w ∈ ws, w.keyBytes cfg = nullKey cfg) → Room cfg ws.length) := by
  refine ⟨?_, ?_⟩
  · rintro (rfl | ⟨hnull, hroom⟩)
    · exact ⟨fresh cfg, ix, rfl, fun key _ _ => (holds_fresh cfg).read_nil⟩
    · rcases writeAll_nul htable ix (holds_fresh cfg) hnull (by simpa using hroom)
        with ⟨tbl, ix', hrun, htbl⟩
      rw [List.append_nil] at htbl
      refine ⟨tbl, ix', hrun, fun key hkey hcase => ?_⟩
      have hlen : ((ws.map (·.valueBytes cfg)).reverse).length = ws.length := by simp
      rw [lastValue_of_nul hnull]
      split_ifs with hk
      · subst hk
        cases hvs : (ws.map (·.valueBytes cfg)).reverse with
        | nil =>
            rw [hvs] at htbl
            exact htbl.read_nil
        | cons v vs =>
            rw [hvs] at htbl hlen
            exact htbl.read_nullKey (hlen ▸ hroom)
      · have hhalves : Halves ws.length → tbl.read key = .ok none := fun h =>
          htbl.read_halves (hlen.symm ▸ hroom) (hlen.symm ▸ h) hkey hk
        rcases hcase with hk' | hh | habsent
        · exact absurd hk' hk
        · exact hhalves hh
        · -- no entry and one entry are searched between the entries
          rcases Nat.lt_or_ge ws.length 2 with hlt | hge
          · refine hhalves ⟨0, ?_⟩
            omega
          · exact htbl.read_absent (hlen.symm ▸ hroom) (hlen.symm ▸ hge) habsent
  · intro tbl ix' hrun hne hread
    refine ⟨?_, fun hnull => room_of_read hne hnull hrun hread⟩
    by_contra hnone
    rcases (headNul_fresh cfg).writeAll hrun with ⟨hhead, hsize⟩
    have hlast : lastValue cfg ws (nullKey cfg) = none := by
      unfold lastValue
      rw [List.find?_eq_none.2 fun w hw => by
        simpa using fun hw' => hnone ⟨w, List.mem_reverse.1 hw, hw'⟩]
      rfl
    rw [hlast] at hread
    exact hhead.read_nullKey (hsize (.inl hne)) hread

/-- Two writes of the key `"\x00"`, as shipped: the second value is read. -/
def nulWrites : List Write :=
  [{ mem := fun p => UInt8.ofNat p, key := 0, value := 1 },
    { mem := fun p => UInt8.ofNat p, key := 0, value := 2 }]

theorem nulWrites_read :
    ∃ tbl ix', writeAll 0 nulWrites (fresh shippedConfig, SparseIndex.fresh shippedConfig)
        = .ok (tbl, ix') ∧ tbl.read [0] = .ok (some [2, 3]) ∧ tbl.read [7] = .ok none := by
  have hroom : Room shippedConfig 2 := by
    unfold Room
    decide +kernel
  rcases (memtable_map shippedConfig 0 (by decide) (SparseIndex.fresh _) nulWrites).1
    (.inr ⟨by decide, hroom⟩) with ⟨tbl, ix', hrun, hread⟩
  have hhalves : Halves nulWrites.length := ⟨1, .inl rfl⟩
  exact ⟨tbl, ix', hrun, hread [0] rfl (.inl rfl), hread [7] rfl (.inr (.inl hhalves))⟩

/-- The one write of the repository's test, of a key `"a"` and a value of letters `b`. -/
def testWrites : List Write := [{ mem := fun p => if p = 0 then 97 else 98, key := 0, value := 1 }]

/-- The key that was written is not found, and the NUL key, which was not, is. -/
theorem testWrites_not_map :
    ∃ tbl ix', writeAll 0 testWrites (fresh shippedConfig, SparseIndex.fresh shippedConfig)
        = .ok (tbl, ix') ∧
      lastValue shippedConfig testWrites [97] = some [98, 98] ∧ tbl.read [97] = .ok none ∧
      lastValue shippedConfig testWrites [0] = none ∧ tbl.read [0] = .ok (some [98, 98]) := by
  have hroom : Room shippedConfig 1 := by
    unfold Room
    decide +kernel
  rcases (holds_fresh shippedConfig).write_first
    { mem := fun p => if p = 0 then 97 else 98, key := 0, value := 1 } (SparseIndex.fresh _)
    (show 0 < shippedConfig.levelFactor by decide) (by decide +kernel) with ⟨tbl, ix', hwrite, htbl⟩
  refine ⟨tbl, ix', ?_, by decide, ?_, by decide, htbl.read_nullKey hroom⟩
  · rw [testWrites, writeAll, List.foldlM_cons]
    exact bind_eq_ok.2 ⟨_, hwrite, rfl⟩
  · exact htbl.read_halves hroom ⟨0, .inr rfl⟩ rfl (by decide)

end Map

end MemTable

end RingDB
