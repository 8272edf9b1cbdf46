import Mathlib.Data.List.Nodup
import Mathlib.Data.List.Perm.Subperm
import Mathlib.Data.List.TakeWhile
import Mathlib.Data.Nat.ModEq
import RingDB.Levels.BloomFilter

/-!
# What the filter takes for the key

`insert_key` and `prob_contains_key` are given a pointer to a key inside a larger record: an entry
of a compaction segment, a socket buffer.  The hash finds the end of the key by itself, at the next
NUL byte, so a key of `KEY_LENGTH` bytes without a NUL is hashed together with what follows it.

* `sameAnswers_of_nul` — a key that holds a NUL is hashed for itself.
* `exists_spread` — one step of FNV-1a spreads the bytes behind the key over more bits than a filter
  with few hashes sets for one string.
* **`sameAnswers_iff_nul`** — no other key is hashed for itself.
-/

namespace RingDB

open Core

namespace BloomFilter

section Model

variable (cfg : Config) (hf : BloomHashFunction) (bf : BloomFilter)

/-- `insert_key` of the key that a buffer begins with. -/
def insertKeyAt (buffer : Bytes) : Except Fault BloomFilter := do
  let str ← cString buffer 0
  insertKey cfg hf bf str

/-- `prob_contains_key` of the key that a buffer begins with. -/
def probContainsKeyAt (buffer : Bytes) : Except Fault Bool := do
  let str ← cString buffer 0
  probContainsKey cfg hf bf str

end Model

/-- Two buffers that begin with `key` and go on arbitrarily to a NUL lead to the same filters and to
the same answers. -/
def SameAnswers (cfg : Config) (hf : BloomHashFunction) (key : Bytes) : Prop :=
  ∀ (bf : BloomFilter) (b₁ b₂ : Bytes), bf.bloom.length = cfg.bloomLength →
    b₁.take cfg.keyLength = key → b₂.take cfg.keyLength = key → 0 ∈ b₁ → 0 ∈ b₂ →
    (∀ bf', insertKeyAt cfg hf bf b₁ = .ok bf' ↔ insertKeyAt cfg hf bf b₂ = .ok bf') ∧
      ∀ r, probContainsKeyAt cfg hf bf b₁ = .ok r ↔ probContainsKeyAt cfg hf bf b₂ = .ok r

section Strings

theorem cString_of_mem_take {b : Bytes} {n : ℕ} (h : 0 ∈ b.take n) :
    cString b 0 = .ok ((b.take n).takeWhile (· != 0)) := by
  have hlt : ((b.take n).takeWhile (· != 0)).length < (b.take n).length := by
    refine lt_of_le_of_ne (List.takeWhile_prefix _).length_le fun hlen => ?_
    have hall := (List.takeWhile_prefix (l := b.take n) (· != 0)).eq_of_length hlen
    rw [← hall] at h
    simpa using List.mem_takeWhile_imp h
  have htake : b.takeWhile (· != 0) = (b.take n).takeWhile (· != 0) := by
    conv_lhs => rw [← List.take_append_drop n b, List.takeWhile_append]
    rw [if_neg hlt.ne]
  have hle : (b.take n).length ≤ b.length := by simp
  simp only [cString, List.drop_zero, htake]
  rw [if_pos (lt_of_lt_of_le hlt hle)]

theorem cString_append_nul {str : Bytes} (h : 0 ∉ str) (rest : Bytes) :
    cString (str ++ 0 :: rest) 0 = .ok str := by
  have hall : ∀ c ∈ str, (c != 0) = true := by
    intro c hc
    simpa using fun h0 : c = 0 => h (h0 ▸ hc)
  simp [cString, List.takeWhile_append_of_pos hall]

end Strings

section Spread

/-- The prime of FNV-1a. -/
abbrev fnvPrime : ℕ := 1099511628211

/-- What one more byte `c` makes of the hash `a`, if `a` and `c` differ in the lowest byte as `y`
says. -/
def fnvStep (a y : ℕ) : ℕ := (a / 256 * 256 + y) * fnvPrime % 2 ^ 64

/-- How often the product has wrapped. -/
def wraps (a y : ℕ) : ℕ := (a / 256 * 256 + y) * fnvPrime / 2 ^ 64

/-- Where the product does not wrap in between, different bytes lead to different bits. -/
theorem fnvStep_inj {a y y' m : ℕ} (hm : Nat.Coprime m fnvPrime)
    (hq : wraps a y = wraps a y')
    (hlt : y < y') (hdist : y' < y + m) : fnvStep a y % m ≠ fnvStep a y' % m := by
  intro h
  simp only [wraps, fnvPrime] at hq
  have hdiff : fnvStep a y' - fnvStep a y = (y' - y) * fnvPrime := by
    simp only [fnvStep, fnvPrime]
    omega
  have hle : fnvStep a y ≤ fnvStep a y' := by
    simp only [fnvStep, fnvPrime]
    omega
  have hdvd : m ∣ (y' - y) * fnvPrime := by
    rw [← hdiff]
    exact (Nat.modEq_iff_dvd' hle).1 h
  have := Nat.le_of_dvd (by omega) (hm.dvd_of_dvd_mul_right hdvd)
  omega

theorem wraps_mono (a : ℕ) {y y' : ℕ} (h : y ≤ y') : wraps a y ≤ wraps a y' :=
  Nat.div_le_div_right (Nat.mul_le_mul_right _ (Nat.add_le_add_left h _))

theorem wraps_le (a : ℕ) : wraps a 255 ≤ wraps a 0 + 1 := by
  simp only [wraps, fnvPrime]
  omega

/-- Of the four blocks of 64 byte values one contains neither the NUL byte nor the wrap. -/
theorem exists_block (a : ℕ) : ∃ y, y + 63 < 256 ∧ (a % 256 < y ∨ y + 63 < a % 256) ∧
    wraps a y = wraps a (y + 63) := by
  -- the product wraps at most once over the 256 values, so in at most one block
  have hspan := wraps_le a
  have h₀ := wraps_mono a (show 0 ≤ 63 by decide)
  have h₁ := wraps_mono a (show 63 ≤ 64 by decide)
  have h₂ := wraps_mono a (show 64 ≤ 127 by decide)
  have h₃ := wraps_mono a (show 127 ≤ 128 by decide)
  have h₄ := wraps_mono a (show 128 ≤ 191 by decide)
  have h₅ := wraps_mono a (show 191 ≤ 255 by decide)
  by_contra hno
  have hbad : ∀ y, y + 63 < 256 →
      y ≤ a % 256 ∧ a % 256 ≤ y + 63 ∨ wraps a y ≠ wraps a (y + 63) := by
    intro y hy
    by_contra hgood
    exact hno ⟨y, hy, by omega, by omega⟩
  have hbad₀ : 0 ≤ a % 256 ∧ a % 256 ≤ 63 ∨ wraps a 0 ≠ wraps a 63 := hbad 0 (by decide)
  have hbad₁ : 64 ≤ a % 256 ∧ a % 256 ≤ 127 ∨ wraps a 64 ≠ wraps a 127 := hbad 64 (by decide)
  have hbad₂ : 128 ≤ a % 256 ∧ a % 256 ≤ 191 ∨ wraps a 128 ≠ wraps a 191 := hbad 128 (by decide)
  omega

/-- More bytes than there are hashes, each of them different from the NUL byte, lead to as many
different bits. -/
theorem exists_spread (a : ℕ) {n m : ℕ} (hn : n < 64) (hnm : n < m) (hm : Nat.Coprime m fnvPrime) :
    ∃ ys : List ℕ, ys.length = n + 1 ∧ (∀ y ∈ ys, y < 256 ∧ y ≠ a % 256) ∧
      (ys.map fun y => fnvStep a y % m).Nodup := by
  rcases exists_block a with ⟨y₀, hy₀, hnul, hwrap⟩
  refine ⟨List.range' y₀ (n + 1), List.length_range', ?_, ?_⟩
  · intro y hy
    have := List.mem_range'_1.1 hy
    omega
  · -- within the block the number of wraps does not change
    have hconst : ∀ y ∈ List.range' y₀ (n + 1), wraps a y = wraps a y₀ := by
      intro y hy
      have hy := List.mem_range'_1.1 hy
      have h₁ := wraps_mono a hy.1
      have h₂ := wraps_mono a (show y ≤ y₀ + 63 by omega)
      omega
    refine List.Nodup.map_on ?_ List.nodup_range'
    intro y hy y' hy' heq
    have hq := (hconst y hy).trans (hconst y' hy').symm
    have hy := List.mem_range'_1.1 hy
    have hy' := List.mem_range'_1.1 hy'
    rcases Nat.lt_trichotomy y y' with hlt | rfl | hlt
    · exact absurd heq (fnvStep_inj hm hq hlt (by omega))
    · rfl
    · exact absurd heq.symm (fnvStep_inj hm hq.symm hlt (by omega))

/-- The byte that changes the lowest byte of `a` to `y`. -/
def byteFor (a y : ℕ) : UInt8 := UInt8.ofNat (a % 256 ^^^ y)

theorem toNat_byteFor {a y : ℕ} (hy : y < 256) : (byteFor a y).toNat = a % 256 ^^^ y :=
  UInt8.toNat_ofNat_of_lt' (Nat.xor_lt_two_pow (n := 8) (Nat.mod_lt _ (by decide)) hy)

theorem byteFor_ne_zero {a y : ℕ} (hy : y < 256) (hne : y ≠ a % 256) : byteFor a y ≠ 0 := by
  intro h
  have hz := toNat_byteFor (a := a) hy
  rw [h] at hz
  exact hne (Nat.xor_eq_zero_iff.1 hz.symm).symm

theorem fnv1a_byteFor (key : Bytes) {y : ℕ} (hy : y < 256) :
    (fnv1a (key ++ [byteFor (fnv1a key 0).toNat y]) 0).toNat = fnvStep (fnv1a key 0).toNat y := by
  have hxor : (fnv1a key 0).toNat ^^^ (byteFor (fnv1a key 0).toNat y).toNat
      = (fnv1a key 0).toNat / 256 * 256 + y := by
    generalize (fnv1a key 0).toNat = a
    rw [toNat_byteFor hy]
    have hdiv : (a ^^^ (a % 256 ^^^ y)) / 2 ^ 8 = a / 256 := by
      have hlow : a % 256 / 2 ^ 8 = 0 := by omega
      have hbyte : y / 2 ^ 8 = 0 := by omega
      rw [Nat.xor_div_two_pow, Nat.xor_div_two_pow, hlow, hbyte, Nat.xor_self, Nat.xor_zero]
    have hmod : (a ^^^ (a % 256 ^^^ y)) % 2 ^ 8 = y := by
      have hlow : a % 256 % 2 ^ 8 = a % 2 ^ 8 := by omega
      have hbyte : y % 2 ^ 8 = y := by omega
      rw [Nat.xor_mod_two_pow, Nat.xor_mod_two_pow, hlow, hbyte, ← Nat.xor_assoc, Nat.xor_self,
        Nat.zero_xor]
    omega
  rw [fnv1a, List.foldl_append]
  show ((fnv1a key 0 ^^^ (byteFor (fnv1a key 0).toNat y).toUInt64) * 1099511628211).toNat = _
  simp [UInt64.toNat_mul, hxor, fnvStep]

end Spread

section Keys

variable {cfg : Config} {hf : BloomHashFunction} {key : Bytes}

/-- A key with a NUL is hashed for itself, by any hash function. -/
theorem sameAnswers_of_nul (h : 0 ∈ key) : SameAnswers cfg hf key := by
  intro bf b₁ b₂ _ h₁ h₂ _ _
  have hstr : cString b₁ 0 = cString b₂ 0 := by
    rw [cString_of_mem_take (n := cfg.keyLength) (h₁ ▸ h),
      cString_of_mem_take (n := cfg.keyLength) (h₂ ▸ h), h₁, h₂]
  simp [insertKeyAt, probContainsKeyAt, hstr]

/-- If the key holds no NUL, the string that is hashed may have any ending. -/
theorem SameAnswers.insertKey_iff (hsame : SameAnswers cfg hf key)
    (hkey : key.length = cfg.keyLength)
    (hnul : 0 ∉ key) {s t : Bytes} (hs : 0 ∉ s) (ht : 0 ∉ t) (bf' : BloomFilter) :
    insertKey cfg hf (new cfg) (key ++ s) = .ok bf'
      ↔ insertKey cfg hf (new cfg) (key ++ t) = .ok bf' := by
  have hat : ∀ {s : Bytes}, 0 ∉ s →
      insertKeyAt cfg hf (new cfg) (key ++ s ++ [0]) = insertKey cfg hf (new cfg) (key ++ s) := by
    intro s hs
    rw [insertKeyAt, cString_append_nul (by simp [hnul, hs])]
    rfl
  have h := (hsame (new cfg) (key ++ s ++ [0]) (key ++ t ++ [0]) (length_nulBytes _)
    (by simp [← hkey]) (by simp [← hkey]) (by simp) (by simp)).1 bf'
  rwa [hat hs, hat ht] at h

/-- Then all endings have the same bits. -/
theorem SameAnswers.mem_bitsOf_iff (hsame : SameAnswers cfg hf key)
    (hkey : key.length = cfg.keyLength) (hnul : 0 ∉ key) (hn : cfg.numberHashes ≤ intMax)
    (hbits : 0 < cfg.numberBits) {s t : Bytes} (hs : 0 ∉ s) (ht : 0 ∉ t)
    (hin : InBounds cfg hf cfg.bloomLength (key ++ s))
    (hin' : InBounds cfg hf cfg.bloomLength (key ++ t)) (j : ℕ) :
    j ∈ bitsOf cfg hf (key ++ s) ↔ j ∈ bitsOf cfg hf (key ++ t) := by
  have hlen : (new cfg).bloom.length = cfg.bloomLength := length_nulBytes _
  rcases insertKey_of_inBounds hn hbits
    (show InBounds cfg hf (new cfg).bloom.length _ from hlen.symm ▸ hin) with ⟨bf₁, h₁, -, hbit₁⟩
  rcases insertKey_of_inBounds hn hbits
    (show InBounds cfg hf (new cfg).bloom.length _ from hlen.symm ▸ hin') with ⟨bf₂, h₂, -, hbit₂⟩
  have heq := (hsame.insertKey_iff hkey hnul hs ht bf₁).1 h₁
  rw [h₂] at heq
  cases heq
  simpa [new] using (hbit₁ j).symm.trans (hbit₂ j)

/-- Room for all bits, and fewer hashes than one more byte can tell apart. -/
structure FewHashes (cfg : Config) : Prop where
  pos : 0 < cfg.numberHashes
  lt_block : cfg.numberHashes < 64
  lt_bits : cfg.numberHashes < cfg.numberBits
  coprime : Nat.Coprime cfg.numberBits fnvPrime
  room : cfg.numberBits ≤ 8 * cfg.bloomLength

theorem FewHashes.inBounds (h : FewHashes cfg) (hf : BloomHashFunction) (str : Bytes) :
    InBounds cfg hf cfg.bloomLength str :=
  inBounds_of_room (Nat.zero_lt_of_lt h.lt_bits) h.room hf str

/-- The first hash of the default function selects one of the bits. -/
theorem fnv1a_mem_bitsOf (hpos : 0 < cfg.numberHashes) (str : Bytes) :
    (fnv1a str 0).toNat % cfg.numberBits ∈ bitsOf cfg defaultHashFunction str := by
  refine List.mem_map.2 ⟨fnv1a str 0, ?_, rfl⟩
  simpa [defaultHashFunction, defaultHash] using ⟨0, hpos, rfl⟩

/-- With the default hash function only a key with a NUL is hashed for itself: the first hash alone
reaches more bits, over the bytes that may follow the key, than one string has. -/
theorem SameAnswers.nul_of_default (hfew : FewHashes cfg) (hkey : key.length = cfg.keyLength)
    (hsame : SameAnswers cfg defaultHashFunction key) : 0 ∈ key := by
  by_contra hnul
  have hn : cfg.numberHashes ≤ intMax := le_trans hfew.lt_block.le (by decide)
  have hbits : 0 < cfg.numberBits := Nat.zero_lt_of_lt hfew.lt_bits
  rcases exists_spread (fnv1a key 0).toNat hfew.lt_block hfew.lt_bits hfew.coprime
    with ⟨_ | ⟨y₀, ys⟩, hlen, hys, hnodup⟩
  · simp at hlen
  have hbyte : ∀ y ∈ y₀ :: ys, 0 ∉ [byteFor (fnv1a key 0).toNat y] := by
    intro y hy
    simpa using (byteFor_ne_zero (hys y hy).1 (hys y hy).2).symm
  have hsub : ((y₀ :: ys).map fun y => fnvStep (fnv1a key 0).toNat y % cfg.numberBits) ⊆
      bitsOf cfg defaultHashFunction (key ++ [byteFor (fnv1a key 0).toNat y₀]) := by
    intro k hk
    rcases List.mem_map.1 hk with ⟨y, hy, rfl⟩
    rw [← hsame.mem_bitsOf_iff hkey hnul hn hbits (hbyte y hy) (hbyte y₀ (by simp))
      (hfew.inBounds _ _) (hfew.inBounds _ _), ← fnv1a_byteFor key (hys y hy).1]
    exact fnv1a_mem_bitsOf hfew.pos _
  have hle := (hnodup.subperm hsub).length_le
  rw [List.length_map, hlen, length_bitsOf] at hle
  omega

/-- A hash function that tells one string from all others. -/
def marking (key : Bytes) : BloomHashFunction where
  hashes n str := List.replicate n.toNat (if str = key then 0 else 1)
  length_hashes _ _ := List.length_replicate ..

theorem bitsOf_marking (str : Bytes) (hbits : cfg.numberBits ≠ 1) :
    bitsOf cfg (marking key) str
      = List.replicate cfg.numberHashes (if str = key then 0 else 1) := by
  rcases Nat.lt_or_ge 1 cfg.numberBits with hlt | hge
  · split_ifs with h <;> simp [bitsOf, marking, h, Nat.mod_eq_of_lt hlt]
  · have h0 : cfg.numberBits = 0 := by omega
    split_ifs with h <;> simp [bitsOf, marking, h, h0]

theorem SameAnswers.nul_of_all (hkey : key.length = cfg.keyLength)
    (hsame : SameAnswers cfg (marking key) key) (hlen : 0 < cfg.bloomLength)
    (hpos : 0 < cfg.numberHashes) (hn : cfg.numberHashes ≤ intMax) (hbits : 1 < cfg.numberBits) :
    0 ∈ key := by
  by_contra hnul
  have hin : ∀ str, InBounds cfg (marking key) cfg.bloomLength str := by
    intro str k hk
    rw [bitsOf_marking str hbits.ne', List.mem_replicate] at hk
    have hle : k ≤ 1 := by
      rw [hk.2]
      split_ifs <;> simp
    omega
  have hiff := hsame.mem_bitsOf_iff hkey hnul hn (by omega) (s := []) (t := [1]) (by simp)
    (by simp) (hin _) (hin _) 0
  simp [bitsOf_marking _ hbits.ne', List.mem_replicate, hpos.ne'] at hiff

theorem bloomLength_eq_zero_of_numberBits (h : cfg.numberBits = 0) : cfg.bloomLength = 0 := by
  have hk := cfg.keyLength_pos
  have hdiv : (0 + cfg.keyLength - 1) / cfg.keyLength = 0 := Nat.div_eq_of_lt (by omega)
  rw [Config.bloomLength, h, hdiv, Nat.lcm_zero_left]

/-- Where no string has bits of its own, all of them are treated alike. -/
theorem sameAnswers_of_places (h : ∀ s t ks, places cfg hf s = .ok ks → places cfg hf t = .ok ks) :
    SameAnswers cfg hf key := by
  have hplaces : ∀ s t ks, places cfg hf s = .ok ks ↔ places cfg hf t = .ok ks :=
    fun s t ks => ⟨h s t ks, h t s ks⟩
  intro bf b₁ b₂ _ _ _ h₁ h₂
  rw [← List.take_length (l := b₁)] at h₁
  rw [← List.take_length (l := b₂)] at h₂
  rw [insertKeyAt, insertKeyAt, probContainsKeyAt, probContainsKeyAt, cString_of_mem_take h₁,
    cString_of_mem_take h₂]
  refine ⟨fun bf' => ?_, fun r => ?_⟩
  · show insertKey _ _ _ _ = _ ↔ insertKey _ _ _ _ = _
    simp only [insertKey, bind_eq_ok, hplaces (b₁.take b₁.length |>.takeWhile (· != 0))
      (b₂.take b₂.length |>.takeWhile (· != 0))]
  · show probContainsKey _ _ _ _ = _ ↔ probContainsKey _ _ _ _ = _
    simp only [probContainsKey, bind_eq_ok, hplaces (b₁.take b₁.length |>.takeWhile (· != 0))
      (b₂.take b₂.length |>.takeWhile (· != 0))]

end Keys

/-- What the filter does with a key depends on the key alone, whatever hash function it holds, if
and only if the key holds a NUL byte; filters without a hash, with more hashes than an `int` counts,
or with one single bit apart.  With the function that the program installs, and few hashes, the same
is true of that one function. -/
theorem sameAnswers_iff_nul (cfg : Config) (hlen : 0 < cfg.bloomLength)
    (hn : cfg.numberHashes ≤ uintMax) {key : Bytes} (hkey : key.length = cfg.keyLength) :
    ((∀ hf, SameAnswers cfg hf key) ↔
      0 ∈ key ∨ cfg.numberHashes = 0 ∨ intMax < cfg.numberHashes ∨ cfg.numberBits = 1) ∧
    (FewHashes cfg → (SameAnswers cfg defaultHashFunction key ↔ 0 ∈ key)) := by
  have hbits : cfg.numberBits ≠ 0 := fun h => hlen.ne' (bloomLength_eq_zero_of_numberBits h)
  refine ⟨⟨?_, ?_⟩, fun hfew => ⟨SameAnswers.nul_of_default hfew hkey, sameAnswers_of_nul⟩⟩
  · intro hall
    by_contra hno
    simp only [not_or, not_lt] at hno
    exact hno.1 ((hall (marking key)).nul_of_all hkey hlen (by omega) hno.2.2.1 (by omega))
  · rintro (hnul | hzero | hmany | hone) hf
    · exact sameAnswers_of_nul hnul
    · refine sameAnswers_of_places fun s t ks h => ?_
      simpa [places, hzero] using h
    · exact sameAnswers_of_places fun s t ks h => absurd h (places_of_gt (Nat.not_le.2 hmany) hn)
    · -- all hashes fall on the one bit
      refine sameAnswers_of_places fun s t ks h => ?_
      have hint : cfg.numberHashes ≤ intMax := by
        by_contra hgt
        exact places_of_gt hgt hn h
      have hbitsOf : ∀ str, bitsOf cfg hf str = List.replicate cfg.numberHashes 0 := by
        intro str
        refine List.eq_replicate_iff.2 ⟨length_bitsOf, fun k hk => ?_⟩
        rcases List.mem_map.1 hk with ⟨hash, -, rfl⟩
        rw [hone, Nat.mod_one]
      rw [places_of_le hint (by omega), hbitsOf] at h ⊢
      exact h

theorem sixteenBits_few : FewHashes sixteenBits where
  pos := by decide
  lt_block := by decide
  lt_bits := by decide
  coprime := by decide
  room := by decide

/-- The key `"\x00"` is hashed for itself, the key `"e"` is not. -/
theorem sameAnswers_nul_key :
    SameAnswers sixteenBits defaultHashFunction [0] ∧
      ¬ SameAnswers sixteenBits defaultHashFunction [101] := by
  have hzero := sameAnswers_iff_nul sixteenBits (by decide) (by decide)
    (show ([0] : Bytes).length = sixteenBits.keyLength from rfl)
  have he := sameAnswers_iff_nul sixteenBits (by decide) (by decide)
    (show ([101] : Bytes).length = sixteenBits.keyLength from rfl)
  exact ⟨(hzero.2 sixteenBits_few).2 (by simp), fun h => by simpa using (he.2 sixteenBits_few).1 h⟩

/-- The key `"e"`, inserted where a NUL follows it, is found where a NUL follows it and is not found
where another byte follows it. -/
theorem lookup_reads_past_key :
    ([101, 0] : Bytes).take sixteenBits.keyLength = ([101, 5, 0] : Bytes).take sixteenBits.keyLength
    ∧ (insertKeyAt sixteenBits defaultHashFunction (new sixteenBits) [101, 0]
      >>= fun bf => probContainsKeyAt sixteenBits defaultHashFunction bf [101, 0]) = .ok true ∧
    (insertKeyAt sixteenBits defaultHashFunction (new sixteenBits) [101, 0]
      >>= fun bf => probContainsKeyAt sixteenBits defaultHashFunction bf [101, 5, 0])
        = .ok false := by
  refine ⟨rfl, ?_, ?_⟩
  · have h : okAnd (insertKeyAt sixteenBits defaultHashFunction (new sixteenBits) [101, 0]
        >>= fun bf => probContainsKeyAt sixteenBits defaultHashFunction bf [101, 0])
        (· == true) = true := by decide +kernel
    rcases okAnd_iff.1 h with ⟨r, hr, htrue⟩
    rw [hr, eq_of_beq htrue]
  · have h : okAnd (insertKeyAt sixteenBits defaultHashFunction (new sixteenBits) [101, 0]
        >>= fun bf => probContainsKeyAt sixteenBits defaultHashFunction bf [101, 5, 0])
        (· == false) = true := by decide +kernel
    rcases okAnd_iff.1 h with ⟨r, hr, hfalse⟩
    rw [hr, eq_of_beq hfalse]

end BloomFilter

end RingDB
