import Mathlib.Data.List.TakeWhile
import RingDB.Core.Bytes
import RingDB.Config

/-!
# The name of an SSTable's file

Initialization is meant to leave `/sstable`, the level, a slash and the index in `file_path`.  It
copies the directory to the start of the `SSTableInfo` and not of `file_path`, and it takes the
length of the level, which `snprintf` returned, for the position behind the level.  So the first
bytes of the wait queue are overwritten, the first bytes of the path stay as they were, and the
slash and the index go to the front of it.

* `decimal`, `snprintfDecimal` — `snprintf` with `"%u"`.
* `ObjectBytes` — the bytes of an `SSTableInfo`, and `composeName` — the lines that name its file.
* `NamesFile` — the outcome that is meant.
* `slash_kept` — where the slash is afterwards, and **`never_named`** — the name that is meant has
  another byte there, whatever the level.
* `levels_collide` — two levels with equally many digits share the paths of their SSTables.
-/

namespace RingDB

open Core

/-- The digits of a number in base ten. -/
def decimal (n : ℕ) : Bytes := (Nat.toDigits 10 n).map fun c => UInt8.ofNat c.toNat

/-- `snprintf(a + off, size, "%u", n)`, which returns the length of all digits. -/
def snprintfDecimal (a : Bytes) (off size n : ℕ) : Except Fault (Bytes × ℕ) := do
  let a ← writeAt a off ((decimal n).take (size - 1) ++ [0])
  pure (a, (decimal n).length)

namespace FileName

/-- `level_str_len` and `sstable_number_str_len` -/
def strLen : ℕ := 10

/-- The length of `file_path`. -/
def filePathLength : ℕ := 8 + strLen + 1 + strLen

/-- `'/'` -/
def slash : UInt8 := 47

/-- `"/sstab1e"` in the test build, `"/sstable"` otherwise. -/
def dirName (testing : Bool) : Bytes :=
  [slash, 115, 115, 116, 97, 98, if testing then 49 else 108, 101]

/-- The bytes of an `SSTableInfo`: those of its first member, those of `file_path`, and those of the
members behind it. -/
structure ObjectBytes where
  reqBatchWq : Bytes
  filePath : Bytes
  rest : Bytes

/-- The queue is longer than the pointers in it. -/
structure SSTableBytes extends ObjectBytes where
  eight_le : 8 ≤ reqBatchWq.length
  length_filePath : filePath.length = filePathLength

/-- The lines that compose the name.  The directory goes to the address of the object. -/
def composeName (testing : Bool) (level index : ℕ) (t : ObjectBytes) :
    Except Fault ObjectBytes := do
  let reqBatchWq ← writeAt t.reqBatchWq 0 (dirName testing)
  let (filePath, dirLen) ← snprintfDecimal t.filePath 8 strLen level
  let filePath ← writeAt filePath dirLen [slash]
  let (filePath, _) ← snprintfDecimal filePath (dirLen + 1) strLen index
  pure { t with reqBatchWq, filePath }

/-- The name that is meant. -/
def filePathOf (testing : Bool) (level index : ℕ) : Bytes :=
  dirName testing ++ decimal level ++ slash :: decimal index

/-- The path is the one that is meant, and nothing else has changed. -/
structure NamesFile (testing : Bool) (level index : ℕ) (t t' : ObjectBytes) : Prop where
  path : cString t'.filePath 0 = .ok (filePathOf testing level index)
  reqBatchWq : t'.reqBatchWq = t.reqBatchWq
  rest : t'.rest = t.rest

/-! ## Digits -/

theorem length_decimal_pos (n : ℕ) : 0 < (decimal n).length := by
  rw [decimal, List.length_map]
  exact Nat.length_toDigits_pos

theorem length_decimal_le {n : ℕ} (h : n < 10 ^ 9) : (decimal n).length ≤ 9 := by
  rw [decimal, List.length_map]
  exact (Nat.length_toDigits_le_iff (by decide) (by decide)).mpr h

/-- No digit is a slash. -/
theorem slash_not_mem_decimal (n : ℕ) : slash ∉ decimal n := by
  intro h
  obtain ⟨c, hc, hbyte⟩ := List.mem_map.mp h
  have hdigit : c.isDigit = true := Nat.isDigit_of_mem_toDigits (by decide) (by decide) hc
  simp only [Char.isDigit, Bool.and_eq_true, decide_eq_true_eq] at hdigit
  have hlow : 48 ≤ c.toNat := hdigit.1
  have hhigh : c.toNat ≤ 57 := hdigit.2
  have hbyte := congrArg UInt8.toNat hbyte
  rw [UInt8.toNat_ofNat', Nat.mod_eq_of_lt (by omega), slash] at hbyte
  have : (47 : UInt8).toNat = 47 := rfl
  omega

/-- The byte of the name at the position where the code puts the slash: one of the directory behind
its own slash, or a digit. -/
theorem filePathOf_not_slash (testing : Bool) (level index : ℕ) :
    (filePathOf testing level index)[(decimal level).length]? ≠ some slash := by
  have hpos := length_decimal_pos level
  have hdir : (dirName testing).length = 8 := rfl
  rw [filePathOf, List.append_assoc]
  by_cases hlt : (decimal level).length < 8
  · have hdirs : ∀ testing, ∀ d < 8, 0 < d → (dirName testing)[d]? ≠ some slash := by decide
    rw [List.getElem?_append_left (by omega)]
    exact hdirs testing _ hlt hpos
  · rw [List.getElem?_append_right (by omega), List.getElem?_append_left (by omega)]
    exact fun h => slash_not_mem_decimal level (List.mem_of_getElem? h)

theorem length_filePathOf (testing : Bool) (level index : ℕ) :
    (decimal level).length < (filePathOf testing level index).length := by
  have hdir : (dirName testing).length = 8 := rfl
  rw [filePathOf, List.length_append, List.length_append]
  omega

/-! ## What the code writes -/

/-- With room for `size` bytes `snprintf` has an outcome. -/
theorem snprintfDecimal_ok {a : Bytes} {off size : ℕ} (n : ℕ) (hsize : 0 < size)
    (hroom : off + size ≤ a.length) :
    ∃ a', writeAt a off ((decimal n).take (size - 1) ++ [0]) = .ok a'
      ∧ snprintfDecimal a off size n = .ok (a', (decimal n).length) := by
  have hle : off + ((decimal n).take (size - 1) ++ [0]).length ≤ a.length := by
    rw [List.length_append, List.length_take, List.length_singleton]
    omega
  refine ⟨_, writeAt_of_le hle, ?_⟩
  rw [snprintfDecimal, writeAt_of_le hle]
  rfl

/-- The paths on the way to the last one. -/
structure Writes (level index : ℕ) (path path₁ path₂ path₃ : Bytes) : Prop where
  first : writeAt path 8 ((decimal level).take 9 ++ [0]) = .ok path₁
  second : writeAt path₁ (decimal level).length [slash] = .ok path₂
  third : writeAt path₂ ((decimal level).length + 1) ((decimal index).take 9 ++ [0]) = .ok path₃

/-- For levels below `10 ^ 9` nothing outside the array is written. -/
theorem composeName_ok (testing : Bool) {level : ℕ} (index : ℕ) (hlevel : level < 10 ^ 9)
    (t : SSTableBytes) :
    ∃ t' path₁ path₂, composeName testing level index t.toObjectBytes = .ok t'
      ∧ Writes level index t.filePath path₁ path₂ t'.filePath := by
  have hlength := t.length_filePath
  have hdigits := length_decimal_le hlevel
  rw [filePathLength, strLen] at hlength
  obtain ⟨reqBatchWq, hwq⟩ : ∃ wq, writeAt t.reqBatchWq 0 (dirName testing) = .ok wq :=
    ⟨_, writeAt_of_le t.eight_le⟩
  obtain ⟨path₁, hpath₁, hfirst⟩ := @snprintfDecimal_ok t.filePath 8 strLen level (by decide)
    (by rw [strLen]; omega)
  have hlength₁ := length_of_writeAt hpath₁
  obtain ⟨path₂, hpath₂⟩ : ∃ path₂, writeAt path₁ (decimal level).length [slash] = .ok path₂ :=
    ⟨_, writeAt_of_le (by rw [List.length_singleton]; omega)⟩
  have hlength₂ := length_of_writeAt hpath₂
  obtain ⟨path₃, hpath₃, hthird⟩ := @snprintfDecimal_ok path₂ ((decimal level).length + 1) strLen
    index (by decide) (by rw [strLen]; omega)
  refine ⟨⟨reqBatchWq, path₃, t.rest⟩, path₁, path₂, ?_, hpath₁, hpath₂, hpath₃⟩
  rw [composeName, hwq, hfirst]
  simp only [bind, Except.bind, hpath₂, hthird]
  rfl

/-- The slash stays at the position that is the length of the level. -/
theorem Writes.slash_kept {level index : ℕ} {path path₁ path₂ path₃ : Bytes}
    (h : Writes level index path path₁ path₂ path₃) :
    readAt path₃ (decimal level).length 1 = .ok [slash] := by
  rw [readAt_writeAt_disjoint h.third (.inl (Nat.le_refl _))]
  exact readAt_writeAt_self h.second

/-- A C string is the beginning of its array. -/
theorem readAt_of_cString {a s : Bytes} {i : ℕ} {b : UInt8} (h : cString a 0 = .ok s)
    (hi : s[i]? = some b) : readAt a i 1 = .ok [b] := by
  unfold cString at h
  simp only [List.drop_zero] at h
  split_ifs at h with hlt
  obtain ⟨rest, hrest⟩ := List.takeWhile_prefix (l := a) (· != 0)
  rw [Except.ok.inj h] at hlt hrest
  have hlen : i < s.length := by
    by_contra hge
    rw [List.getElem?_eq_none (Nat.le_of_not_lt hge)] at hi
    cases hi
  rw [readAt_of_le (by omega), ← hrest, List.drop_append_of_le_length hlen.le,
    List.drop_eq_getElem_cons hlen]
  rw [List.getElem?_eq_getElem hlen] at hi
  rw [Option.some.inj hi]
  rfl

/-- **The name of a file.**  Whatever the object held before, for every level below `10 ^ 9` and
every index, the lines have an outcome, and it is not the one that is meant. -/
theorem never_named (testing : Bool) {level : ℕ} (index : ℕ) (hlevel : level < 10 ^ 9)
    (t : SSTableBytes) :
    ∃ t', composeName testing level index t.toObjectBytes = .ok t'
      ∧ ¬ NamesFile testing level index t.toObjectBytes t' := by
  obtain ⟨t', path₁, path₂, hok, hwrites⟩ := composeName_ok testing index hlevel t
  refine ⟨t', hok, fun hnames => ?_⟩
  have hkept := hwrites.slash_kept
  have hlen := length_filePathOf testing level index
  have hmeant := readAt_of_cString hnames.path (List.getElem?_eq_getElem hlen)
  rw [hkept] at hmeant
  refine filePathOf_not_slash testing level index ?_
  rw [List.getElem?_eq_getElem hlen]
  exact congrArg some (List.cons.inj (Except.ok.inj hmeant)).1.symm

/-- An object of NUL bytes. -/
def zeroed : SSTableBytes where
  reqBatchWq := nulBytes 64
  filePath := nulBytes filePathLength
  rest := []
  eight_le := by decide
  length_filePath := rfl

/-- The first SSTable of all. -/
theorem never_named_zeroed :
    0 < 10 ^ 9 ∧ ∃ t', composeName true 0 0 zeroed.toObjectBytes = .ok t'
      ∧ ¬ NamesFile true 0 0 zeroed.toObjectBytes t' :=
  ⟨by decide, never_named true 0 (by decide) zeroed⟩

/-- Its path is empty, and the consumer guard of its queue has the byte of the slash. -/
theorem zeroed_path_empty :
    ∃ t', composeName true 0 0 zeroed.toObjectBytes = .ok t' ∧ cString t'.filePath 0 = .ok []
      ∧ t'.reqBatchWq[0]? = some slash ∧ ¬ NamesFile true 0 0 zeroed.toObjectBytes t' :=
  ⟨_, rfl, rfl, rfl, fun h => by cases h.path⟩

/-! ## Two levels with one path -/

/-- What a write leaves of the first `n` bytes, if it ends within them. -/
theorem take_writeAt {a b c : Bytes} {off n : ℕ} (h : writeAt a off b = .ok c)
    (hn : off + b.length ≤ n) :
    c.take n = (a.take n).take off ++ b ++ (a.take n).drop (off + b.length) := by
  obtain ⟨hle, rfl⟩ := writeAt_ok_iff.1 h
  have hfront : (a.take off ++ b).length = off + b.length := by
    rw [List.length_append, List.length_take, Nat.min_eq_left (by omega)]
  rw [List.take_append, hfront, List.take_of_length_le (by omega), List.take_take,
    Nat.min_eq_left (by omega), List.drop_take]

/-- A write behind the first `n` bytes. -/
theorem take_writeAt_behind {a b c : Bytes} {off n : ℕ} (h : writeAt a off b = .ok c)
    (hn : n ≤ off) : c.take n = a.take n := by
  obtain ⟨hle, rfl⟩ := writeAt_ok_iff.1 h
  rw [List.append_assoc, List.take_append_of_le_length
    (by rw [List.length_take, Nat.min_eq_left (by omega)]; exact hn), List.take_take,
    Nat.min_eq_left hn]

/-- A C string that ends in the first `n` bytes. -/
theorem cString_eq_of_take {a b : Bytes} {n : ℕ} (hnul : 0 ∈ a.take n)
    (h : a.take n = b.take n) : cString a 0 = cString b 0 := by
  have hstring : ∀ {c : Bytes}, 0 ∈ c.take n →
      cString c 0 = .ok ((c.take n).takeWhile (· != 0)) := by
    intro c hmem
    have hlt : ((c.take n).takeWhile (· != 0)).length < (c.take n).length := by
      refine lt_of_le_of_ne (List.takeWhile_sublist _).length_le fun heq => ?_
      have hself := (List.takeWhile_sublist (l := c.take n) (· != 0)).eq_of_length heq
      rw [← hself] at hmem
      simpa using List.mem_takeWhile_imp hmem
    have happend : c.takeWhile (· != 0) = (c.take n).takeWhile (· != 0) := by
      conv_lhs => rw [← List.take_append_drop n c]
      rw [List.takeWhile_append, if_neg hlt.ne]
    have hle : (c.take n).length ≤ c.length := by
      rw [List.length_take]
      exact Nat.min_le_right _ _
    simp only [cString, List.drop_zero, happend]
    rw [if_pos (by omega)]
  rw [hstring hnul, hstring (h ▸ hnul), h]

/-- With few digits everything up to the NUL behind the index is in front of the level. -/
theorem Writes.take_eight {level index : ℕ} {path path₁ path₂ path₃ : Bytes}
    (h : Writes level index path path₁ path₂ path₃)
    (hroom : (decimal level).length + (decimal index).length < 7) :
    let digits := (decimal level).length
    let entry := (decimal index).take 9 ++ [0]
    let behind := (path.take 8).take digits ++ [slash] ++ (path.take 8).drop (digits + 1)
    path₃.take 8 = behind.take (digits + 1) ++ entry
      ++ behind.drop (digits + 1 + entry.length) := by
  intro digits entry behind
  have hentry : ((decimal index).take 9 ++ [0]).length ≤ (decimal index).length + 1 := by
    rw [List.length_append, List.length_take, List.length_singleton]
    omega
  rw [take_writeAt h.third (by omega), take_writeAt h.second (by rw [List.length_singleton]; omega),
    take_writeAt_behind h.first (Nat.le_refl 8)]
  rfl

/-- Two levels with equally many digits, below an index with few: their SSTables have one path. -/
theorem levels_collide {testing : Bool} {level₁ level₂ index : ℕ} {t : SSTableBytes}
    {t₁ t₂ : ObjectBytes} (hdigits : (decimal level₁).length = (decimal level₂).length)
    (hroom : (decimal level₁).length + (decimal index).length < 7)
    (h₁ : composeName testing level₁ index t.toObjectBytes = .ok t₁)
    (h₂ : composeName testing level₂ index t.toObjectBytes = .ok t₂) :
    cString t₁.filePath 0 = cString t₂.filePath 0 := by
  have hlevel : ∀ {level}, (decimal level).length < 7 → level < 10 ^ 9 := by
    intro level hlt
    rw [decimal, List.length_map] at hlt
    exact (Nat.length_toDigits_le_iff (by decide) (by decide)).mp (by omega)
  obtain ⟨u₁, _, _, hu₁, hwrites₁⟩ := @composeName_ok testing level₁ index (hlevel (by omega)) t
  obtain ⟨u₂, _, _, hu₂, hwrites₂⟩ := @composeName_ok testing level₂ index (hlevel (by omega)) t
  cases h₁.symm.trans hu₁
  cases h₂.symm.trans hu₂
  have htake₁ := hwrites₁.take_eight hroom
  have htake₂ := hwrites₂.take_eight (hdigits ▸ hroom)
  rw [← hdigits] at htake₂
  refine cString_eq_of_take (n := 8) ?_ (htake₁.trans htake₂.symm)
  rw [htake₁]
  simp

end FileName

end RingDB
