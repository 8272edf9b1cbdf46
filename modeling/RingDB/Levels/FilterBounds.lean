import RingDB.Levels.FilterOrder

/-!
# How long the array of the filter is

Both loops of the filter take the byte `(hash % number_bits) / 8` of its array.  The array is as
long as `number_bits` divided by `CHAR_LEN`, rounded up, and then extended to a common multiple with
the alignment.  `CHAR_LEN`, the bits in a byte elsewhere, is the length of a key here: with long
keys the array has bytes for all bits only if the alignment happens to extend it far enough.

* `StaysInArray` — no hash takes the loops out of the array.
* **`staysInArray_iff`** — that is so if and only if the array has `number_bits` bits.
* `numberBits_le_of_keyLength` — and it has, if the keys are no longer than eight bytes for every
  extension by the alignment.
-/

namespace RingDB

open Core

namespace BloomFilter

/-- Every byte that a hash selects is in the array, so no iteration leaves it: an insertion comes to
its end, and a check does too, unless its sum overflows. -/
structure StaysInArray (cfg : Config) : Prop where
  index : ∀ h : UInt64, h.toNat % cfg.numberBits / 8 < cfg.bloomLength
  added : ∀ (bf : BloomFilter) (hashes : List UInt64) (numberHashesPassed : ℕ) (order : List ℕ),
    bf.bloom.length = cfg.bloomLength → (∀ i ∈ order, i < hashes.length) →
    ∃ res, addStringAlt cfg hashes numberHashesPassed order bf = .ok res
  checked : ∀ (bf : BloomFilter) (hashes : List UInt64) (numberHashesPassed : ℕ) (order : List ℕ),
    bf.bloom.length = cfg.bloomLength → (∀ i ∈ order, i < hashes.length) →
    checkStringAlt cfg hashes numberHashesPassed order bf ≠ .error .outOfBounds

section Loops

variable {cfg : Config} {hashes : List UInt64}

theorem hashedBit_of_lt (hpos : 0 < cfg.numberBits) {i : ℕ} (hi : i < hashes.length) :
    ∃ h : UInt64, hashedBit cfg hashes i = .ok (h.toNat % cfg.numberBits) := by
  refine ⟨hashes[i], ?_⟩
  simp only [hashedBit, List.getElem?_eq_getElem hi, if_neg hpos.ne']

/-- The loop of an insertion, in any order. -/
theorem addLoop_ok (hpos : 0 < cfg.numberBits)
    (hindex : ∀ h : UInt64, h.toNat % cfg.numberBits / 8 < cfg.bloomLength) {order : List ℕ} :
    ∀ {bloom : Bytes}, bloom.length = cfg.bloomLength → (∀ i ∈ order, i < hashes.length) →
    ∃ bloom', order.foldlM (fun bloom i => hashedBit cfg hashes i >>= setBit bloom) bloom
      = .ok bloom' := by
  induction order with
  | nil =>
      intro bloom _ _
      exact ⟨bloom, rfl⟩
  | cons i order ih =>
      intro bloom hlen hi
      rcases hashedBit_of_lt hpos (hi i (by simp)) with ⟨h, hbit⟩
      rcases setBit_of_lt (hlen ▸ hindex h) with ⟨bloom₁, hset, hlen₁, -⟩
      rcases ih (hlen₁.trans hlen) fun j hj => hi j (List.mem_cons_of_mem _ hj) with ⟨bloom₂, hrest⟩
      exact ⟨bloom₂, foldlM_cons_ok.2 ⟨bloom₁, bind_eq_ok.2 ⟨_, hbit, hset⟩, hrest⟩⟩

/-- An iteration of a check fails at most because its sum overflows. -/
theorem addHashed_ne (hpos : 0 < cfg.numberBits)
    (hindex : ∀ h : UInt64, h.toNat % cfg.numberBits / 8 < cfg.bloomLength) {bloom : Bytes}
    (hlen : bloom.length = cfg.bloomLength) {i : ℕ} (hi : i < hashes.length) (r : ℕ) :
    (hashedBit cfg hashes i >>= addMasked bloom r) ≠ .error .outOfBounds := by
  rcases hashedBit_of_lt hpos hi with ⟨h, hbit⟩
  have hmask := maskBit_of_lt (hlen ▸ hindex h)
  rw [hbit]
  show addMasked bloom r _ ≠ _
  rw [addMasked, hmask]
  intro hstep
  change (if _ then Except.ok _ else Except.error Fault.overflow) = _ at hstep
  split_ifs at hstep <;> cases hstep

/-- The loop of a check, in any order. -/
theorem checkLoop_ne (hpos : 0 < cfg.numberBits)
    (hindex : ∀ h : UInt64, h.toNat % cfg.numberBits / 8 < cfg.bloomLength) {bloom : Bytes}
    (hlen : bloom.length = cfg.bloomLength) {order : List ℕ} (hi : ∀ i ∈ order, i < hashes.length)
    (r : ℕ) :
    order.foldlM (fun r i => hashedBit cfg hashes i >>= addMasked bloom r) r
      ≠ .error .outOfBounds := by
  intro hloop
  rcases foldlM_eq_error hloop with ⟨i, hmem, r', hstep⟩
  exact addHashed_ne hpos hindex hlen (hi i hmem) r' hstep

end Loops

section Length

variable {cfg : Config}

/-- The largest remainder is the remainder of a hash. -/
theorem index_iff (hpos : 0 < cfg.numberBits) (hbits : cfg.numberBits ≤ sizeMax) :
    (∀ h : UInt64, h.toNat % cfg.numberBits / 8 < cfg.bloomLength)
      ↔ cfg.numberBits ≤ 8 * cfg.bloomLength := by
  constructor
  · intro hindex
    have hlt : cfg.numberBits - 1 < 2 ^ 64 := by
      simp only [sizeMax] at hbits
      omega
    have hlast := hindex (UInt64.ofNat (cfg.numberBits - 1))
    rw [UInt64.toNat_ofNat_of_lt' hlt, Nat.mod_eq_of_lt (Nat.sub_lt hpos Nat.one_pos)] at hlast
    omega
  · intro hroom h
    have := Nat.mod_lt h.toNat hpos
    omega

/-- With a bit for every remainder keys can be inserted into a new filter without end, whatever the
hash function. -/
theorem insertKeys_of_room (hpos : 0 < cfg.numberBits)
    (hroom : cfg.numberBits ≤ 8 * cfg.bloomLength) (hn : cfg.numberHashes ≤ intMax)
    (hf : BloomHashFunction) (strs : List Bytes) :
    ∃ bf, insertKeys cfg hf (new cfg) strs = .ok bf := by
  have hin : ∀ s ∈ strs, InBounds cfg hf (new cfg).bloom.length s := by
    intro s _
    rw [show (new cfg).bloom.length = cfg.bloomLength from length_nulBytes _]
    exact inBounds_of_room hpos hroom hf s
  rcases insertKeys_of_inBounds hn hpos hin with ⟨bf, hins, -⟩
  exact ⟨bf, hins⟩

/-- Where the alignment extends the array by a factor that makes up for long keys, every bit has a
byte. -/
theorem numberBits_le_of_keyLength (hpos : 0 < cfg.numberBits)
    (hkey : cfg.keyLength ≤ 8 * (cfg.alignNoFalseSharing /
      Nat.gcd ((cfg.numberBits + cfg.keyLength - 1) / cfg.keyLength) cfg.alignNoFalseSharing)) :
    cfg.numberBits ≤ 8 * cfg.bloomLength := by
  have hbytes : cfg.bloomLength = (cfg.numberBits + cfg.keyLength - 1) / cfg.keyLength *
      (cfg.alignNoFalseSharing /
        Nat.gcd ((cfg.numberBits + cfg.keyLength - 1) / cfg.keyLength) cfg.alignNoFalseSharing) :=
    Nat.mul_div_assoc _ (Nat.gcd_dvd_right _ _)
  have hceil : cfg.numberBits
      ≤ (cfg.numberBits + cfg.keyLength - 1) / cfg.keyLength * cfg.keyLength := by
    have hdiv := Nat.div_add_mod (cfg.numberBits + cfg.keyLength - 1) cfg.keyLength
    have hmod := Nat.mod_lt (cfg.numberBits + cfg.keyLength - 1) cfg.keyLength_pos
    rw [Nat.mul_comm] at hdiv
    have := cfg.keyLength_pos
    omega
  rw [hbytes, Nat.mul_left_comm]
  exact hceil.trans (Nat.mul_le_mul_left _ hkey)

/-- So it does for keys of up to eight bytes. -/
theorem numberBits_le_of_short (hpos : 0 < cfg.numberBits) (halign : 0 < cfg.alignNoFalseSharing)
    (hkey : cfg.keyLength ≤ 8) : cfg.numberBits ≤ 8 * cfg.bloomLength := by
  refine numberBits_le_of_keyLength hpos (hkey.trans (Nat.le_mul_of_pos_right 8 ?_))
  exact Nat.div_pos (Nat.gcd_le_right _ halign) (Nat.gcd_pos_of_pos_right _ halign)

/-- **The bounds of the filter.**  No hash takes the loops out of the array if and only if the array
has a bit for every remainder. -/
theorem staysInArray_iff (hpos : 0 < cfg.numberBits) (hbits : cfg.numberBits ≤ sizeMax) :
    StaysInArray cfg ↔ cfg.numberBits ≤ 8 * cfg.bloomLength := by
  rw [← index_iff hpos hbits]
  refine ⟨StaysInArray.index, fun hindex => ⟨hindex, ?_, ?_⟩⟩
  · intro bf hashes passed order hlen hi
    unfold addStringAlt
    split_ifs
    · exact ⟨_, rfl⟩
    · rcases addLoop_ok hpos hindex hlen hi with ⟨bloom, hloop⟩
      exact ⟨_, bind_eq_ok.2 ⟨bloom, hloop, rfl⟩⟩
  · intro bf hashes passed order hlen hi
    unfold checkStringAlt
    split_ifs
    · exact fun h => nomatch h
    · intro hcheck
      rcases bind_eq_error.1 hcheck with hloop | ⟨r, -, hverdict⟩
      · exact checkLoop_ne hpos hindex hlen hi 0 hloop
      · cases hverdict

end Length

/-- As shipped, with keys of one byte. -/
theorem staysInArray_shipped : StaysInArray shippedConfig :=
  (staysInArray_iff (by decide) (by decide)).2 (numberBits_le_of_short (by decide) (by decide)
    (by decide))

theorem fortyNine_pos : 0 < 49 := by decide

/-- The shipped values, with keys of 16 bytes and values of 49. -/
def longKeyConfig : Config :=
  { shippedConfig with
    keyLength := 16
    valueLength := 49
    numberBits := 309243
    keyLength_pos := sixteen_pos
    valueLength_pos := fortyNine_pos }

/-- Of 309243 bits 154624 have a byte: the hash 154624 selects the byte behind the last one. -/
theorem longKeys_leave_array : ¬ StaysInArray longKeyConfig := by
  intro h
  have hlength : longKeyConfig.bloomLength = 19328 := by decide
  have hlast := h.index 154624
  rw [hlength] at hlast
  exact absurd hlast (by decide)

end BloomFilter

end RingDB
