import RingDB.Worker.TreeRead

/-!
# Rounding an offset to a block

`round_to_block_size_multiple` is meant to be `k - (k mod BLOCK_SIZE)`.  It subtracts
`k & ((1UL << 63) - (1UL << (p - 1)))` instead, where `p` is the exponent of `BLOCK_SIZE` as
`my_log2_floor` finds it at compile time.  That mask has the bits *above* the exponent, not those
below.

* `myLog2Ceil`, `myLog2Floor` — the two logarithms; **`myLog2Floor_two_pow`** — they find the
  exponent of every power of two below `2 ^ 32`, and `myLog2Ceil_eq_none` — above it the
  evaluation does not end, so there is no program.
* `and_mask` — what the mask keeps, and `roundToBlockSizeMultiple_eq` — what is left of an offset:
  its low `p - 1` bits and bit 63.
* **`roundsToBlock_iff`** — so the result is the block of the offset for two offsets in `2 ^ 63`
  only.
-/

namespace RingDB

/-! ## The compile-time logarithm -/

/-- The loop of `my_log2_ceil`.  `power` is an `unsigned int`, which is `0` after 32 shifts. -/
def myLog2CeilLoop (doub : ℕ) : ℕ → ℕ → ℕ → Option ℕ
  | 0, _, _ => none
  | fuel + 1, power, exponent =>
      if power < doub then myLog2CeilLoop doub fuel (power * 2 % 2 ^ 32) (exponent + 1)
      else some exponent

/-- `my_log2_ceil`; `none` where constant evaluation goes on for ever. -/
def myLog2Ceil (doub : ℕ) : Option ℕ := myLog2CeilLoop doub 33 1 0

/-- `my_log2_floor`, where `1 << exponent` is an `int`. -/
def myLog2Floor (doub : ℕ) : Option ℕ :=
  (myLog2Ceil doub).map fun exponent =>
    exponent - if (doub : ℤ) < asInt (2 ^ exponent % 2 ^ 32) then 1 else 0

/-- On a power of two the loop runs up to its exponent. -/
theorem myLog2CeilLoop_two_pow {p : ℕ} (hp : p < 32) :
    ∀ {k e fuel : ℕ}, k + e = p → k < fuel → myLog2CeilLoop (2 ^ p) fuel (2 ^ e) e = some p
  | _, _, 0, _, hfuel => absurd hfuel (Nat.not_lt_zero _)
  | 0, e, fuel + 1, he, _ => by
      have : e = p := by omega
      simp [myLog2CeilLoop, this]
  | k + 1, e, fuel + 1, he, hfuel => by
      have hlt : 2 ^ e < 2 ^ p := Nat.pow_lt_pow_right (by omega) (by omega)
      have hnext : 2 ^ e * 2 % 2 ^ 32 = 2 ^ (e + 1) := by
        rw [← Nat.pow_succ]
        exact Nat.mod_eq_of_lt (Nat.pow_lt_pow_right (by omega) (by omega))
      rw [myLog2CeilLoop, if_pos hlt, hnext]
      exact myLog2CeilLoop_two_pow (k := k) hp (by omega) (by omega)

theorem myLog2Ceil_two_pow {p : ℕ} (hp : p < 32) : myLog2Ceil (2 ^ p) = some p :=
  myLog2CeilLoop_two_pow hp (e := 0) (Nat.add_zero p) (by omega)

/-- Both logarithms find the exponent of a power of two. -/
theorem myLog2Floor_two_pow {p : ℕ} (hp : p < 32) : myLog2Floor (2 ^ p) = some p := by
  have hpow : 2 ^ p % 2 ^ 32 = 2 ^ p :=
    Nat.mod_eq_of_lt (Nat.pow_lt_pow_right (by omega) hp)
  have hint : asInt (2 ^ p) ≤ ((2 ^ p : ℕ) : ℤ) := by
    unfold asInt
    split <;> omega
  rw [myLog2Floor, myLog2Ceil_two_pow hp, Option.map_some, hpow, if_neg (by omega), Nat.sub_zero]

/-- No value of `power` reaches more than `2 ^ 31`, so the loop does not end. -/
theorem myLog2CeilLoop_eq_none {doub : ℕ} (h : 2 ^ 31 < doub) :
    ∀ {fuel k e : ℕ}, myLog2CeilLoop doub fuel (2 ^ k % 2 ^ 32) e = none
  | 0, _, _ => rfl
  | fuel + 1, k, e => by
      have hle : 2 ^ k % 2 ^ 32 ≤ 2 ^ 31 := by
        by_cases hk : k < 32
        · exact (Nat.mod_le _ _).trans (Nat.pow_le_pow_right (by omega) (by omega))
        · have : 2 ^ 32 ∣ 2 ^ k := Nat.pow_dvd_pow 2 (by omega)
          omega
      have hnext : 2 ^ k % 2 ^ 32 * 2 % 2 ^ 32 = 2 ^ (k + 1) % 2 ^ 32 := by
        rw [Nat.mod_mul_mod, ← Nat.pow_succ]
      rw [myLog2CeilLoop, if_pos (by omega), hnext]
      exact myLog2CeilLoop_eq_none h

theorem myLog2Ceil_eq_none {doub : ℕ} (h : 2 ^ 31 < doub) : myLog2Ceil doub = none :=
  myLog2CeilLoop_eq_none h (k := 0)

/-! ## The mask -/

/-- `(1UL << 63) - (1UL << q)` are the bits from `q` to 62. -/
theorem and_mask {q : ℕ} (hq : q ≤ 63) (i : ℕ) :
    i &&& (2 ^ 63 - 2 ^ q) = i % 2 ^ 63 - i % 2 ^ q := by
  have hmask : 2 ^ 63 - 2 ^ q = 2 ^ q * (2 ^ (63 - q) - 1) := by
    rw [Nat.mul_sub, ← Nat.pow_add, Nat.add_sub_cancel' hq, Nat.mul_one]
  have hkeep : i &&& (2 ^ 63 - 2 ^ q) = 2 ^ q * (i / 2 ^ q % 2 ^ (63 - q)) := by
    rw [hmask]
    apply Nat.eq_of_testBit_eq
    intro j
    rw [Nat.testBit_and, Nat.testBit_two_pow_mul, Nat.testBit_two_pow_sub_one,
      Nat.testBit_two_pow_mul, Nat.testBit_mod_two_pow, Nat.testBit_div_two_pow]
    by_cases hj : q ≤ j
    · rw [Nat.sub_add_cancel hj]
      simp [hj, Bool.and_comm]
    · simp [hj]
  have hmod : i % 2 ^ 63 = i % 2 ^ q + 2 ^ q * (i / 2 ^ q % 2 ^ (63 - q)) := by
    rw [← Nat.mod_mul, ← Nat.pow_add, Nat.add_sub_cancel' hq]
  rw [hkeep, hmod, Nat.add_sub_cancel_left]

namespace Config

variable {cfg : Config}

/-- The function with the exponent that is evaluated for it. -/
theorem roundToBlockSizeMultiple_of_log {p : ℕ} (hblock : cfg.blockSize = 2 ^ p) (hp : p < 32)
    (i : ℕ) : ∃ exponent, myLog2Floor cfg.blockSize = some exponent ∧
      cfg.roundToBlockSizeMultiple i = i - (i &&& (2 ^ 63 - 2 ^ (exponent - 1))) :=
  ⟨p, hblock ▸ myLog2Floor_two_pow hp, by
    rw [roundToBlockSizeMultiple, hblock, Nat.log2_two_pow]⟩

/-- What the code leaves of an offset. -/
theorem roundToBlockSizeMultiple_eq {p : ℕ} (hblock : cfg.blockSize = 2 ^ p) (hp : p ≤ 63)
    (i : ℕ) : cfg.roundToBlockSizeMultiple i = 2 ^ 63 * (i / 2 ^ 63) + i % 2 ^ (p - 1) := by
  have hle : i % 2 ^ (p - 1) ≤ i % 2 ^ 63 := by
    rw [← Nat.mod_mod_of_dvd i (Nat.pow_dvd_pow 2 (by omega : p - 1 ≤ 63))]
    exact Nat.mod_le _ _
  have hdiv := Nat.div_add_mod i (2 ^ 63)
  rw [roundToBlockSizeMultiple, hblock, Nat.log2_two_pow, and_mask (by omega)]
  omega

/-- The result is the start of the block that the offset is in. -/
structure RoundsToBlock (cfg : Config) (i : ℕ) : Prop where
  aligned : cfg.blockSize ∣ cfg.roundToBlockSizeMultiple i
  le : cfg.roundToBlockSizeMultiple i ≤ i
  near : i - cfg.roundToBlockSizeMultiple i < cfg.blockSize

/-- A `BLOCK_SIZE` for which the logarithm is evaluated has an exponent below 32. -/
theorem exponent_lt {p : ℕ} (h : (myLog2Floor (2 ^ p)).isSome) : p < 32 := by
  by_contra hp
  have hlt : 2 ^ 31 < 2 ^ p := Nat.pow_lt_pow_right (by omega) (by omega)
  simp [myLog2Floor, myLog2Ceil_eq_none hlt] at h

/-- The offset without its top bit has to be `0` or half a block: these are the two values that the
low `p - 1` bits and a multiple of the block can add up to within one block. -/
theorem roundsToBlock_iff {p : ℕ} (hblock : cfg.blockSize = 2 ^ p) (hp : 2 ≤ p)
    (hcompiles : (myLog2Floor cfg.blockSize).isSome) (i : ℕ) :
    cfg.RoundsToBlock i ↔ i % 2 ^ 63 = 0 ∨ i % 2 ^ 63 = 2 ^ (p - 1) := by
  have hp32 : p < 32 := exponent_lt (hblock ▸ hcompiles)
  have hresult := roundToBlockSizeMultiple_eq hblock (by omega) i
  have hdiv := Nat.div_add_mod i (2 ^ 63)
  have hdouble : 2 ^ p = 2 * 2 ^ (p - 1) := by
    rw [← Nat.pow_succ', Nat.succ_eq_add_one, Nat.sub_add_cancel (by omega)]
  have hlow : i % 2 ^ (p - 1) < 2 ^ (p - 1) := Nat.mod_lt _ (Nat.two_pow_pos _)
  have htop : 2 ^ p ∣ 2 ^ 63 * (i / 2 ^ 63) :=
    (Nat.pow_dvd_pow 2 (by omega)).trans (Nat.dvd_mul_right _ _)
  have hmod : i % 2 ^ 63 % 2 ^ (p - 1) = i % 2 ^ (p - 1) :=
    Nat.mod_mod_of_dvd i (Nat.pow_dvd_pow 2 (by omega))
  constructor
  · rintro ⟨haligned, -, hnear⟩
    rw [hblock, hresult, Nat.dvd_add_right htop] at haligned
    have hzero : i % 2 ^ (p - 1) = 0 := Nat.eq_zero_of_dvd_of_lt haligned (by omega)
    obtain ⟨k, hk⟩ := Nat.dvd_of_mod_eq_zero (hmod.trans hzero)
    -- a multiple of half a block below a block
    have hk2 : k < 2 := by
      by_contra hge
      have := Nat.mul_le_mul_left (2 ^ (p - 1)) (Nat.le_of_not_lt hge)
      omega
    match k, hk2 with
    | 0, _ => exact .inl hk
    | 1, _ => exact .inr (hk.trans (Nat.mul_one _))
  · intro h
    have hzero : i % 2 ^ (p - 1) = 0 := by
      rw [← hmod]
      rcases h with h | h <;> rw [h]
      · exact Nat.zero_mod _
      · exact Nat.mod_self _
    refine ⟨?_, ?_, ?_⟩
    · rw [hblock, hresult, hzero, Nat.add_zero]
      exact htop
    · omega
    · have := Nat.two_pow_pos (p - 1)
      omega

/-- The second block of a file, with the shipped blocks of 4096 bytes. -/
theorem roundsToBlock_iff_shipped :
    shippedConfig.RoundsToBlock 4096 ↔ 4096 % 2 ^ 63 = 0 ∨ 4096 % 2 ^ 63 = 2 ^ (12 - 1) :=
  @roundsToBlock_iff shippedConfig 12 rfl (by omega) (by decide) 4096

/-- The start of the second block is rounded down to the first. -/
theorem second_block_rounded_to_first : ¬ shippedConfig.RoundsToBlock 4096 := by
  have hresult : shippedConfig.roundToBlockSizeMultiple 4096 = 0 := by
    rw [@roundToBlockSizeMultiple_eq shippedConfig 12 rfl (by omega)]
    decide
  rintro ⟨-, -, hnear⟩
  rw [hresult] at hnear
  exact absurd hnear (by decide)

end Config

end RingDB
