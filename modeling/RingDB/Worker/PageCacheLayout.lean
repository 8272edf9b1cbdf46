import Mathlib.Order.CompletePartialOrder
import Mathlib.Order.Interval.Set.Disjoint
import RingDB.Worker.Recovery

/-!
# The initial layout of a worker's page cache

A worker maps `B * H * W` bytes, where `B` is the size of a buffer, `H` the number of buffers of an
SSTable and `W` the number of SSTables of the worker, and gives buffer `m` of SSTable `n` the
address `B * (n + m)` from there on.  SSTables that follow each other are one buffer apart, not `H`
buffers, and `n` counts the SSTables of all workers.  All of it is arithmetic on `unsigned int`.

* `mappedLength`, `bufferOffset` — the length and the offsets.
* `LaidOut` — the buffers of a worker are in its mapping and disjoint.
* `bufferOffset_eq_add` — inside the mapping the buffers of an SSTable follow each other, and
  `bufferOffset_shared` — its second buffer is the first one of the next SSTable.
* **`laidOut_iff`** — so the layout is right for a worker of one SSTable whose number makes no
  difference.
-/

namespace RingDB

open Core

namespace Worker

variable (cfg : Config)

/-- The length of the mapping. -/
def mappedLength : ℕ :=
  cfg.fairAlignedSstablePageCacheBufferSize * cfg.maxSstableHeight * cfg.workerSstableBatchSize
    % 2 ^ 32

/-- The offset of `page_cache_buffers[m]` of SSTable `n` in the mapping. -/
def bufferOffset (n m : ℕ) : ℕ := bufferAddress cfg n m % 2 ^ 32

/-- Buffer `m` of SSTable `n` is one of those that worker `w` initializes. -/
def Assigned (w n m : ℕ) : Prop :=
  cfg.firstSstableNum w ≤ n ∧ n < cfg.firstSstableNum w + cfg.workerSstableBatchSize
    ∧ m < cfg.maxSstableHeight

/-- The addresses of the mapping at `base`. -/
def mapping (base : ℕ) : Set ℕ := Set.Ico base (base + mappedLength cfg)

/-- The addresses of a buffer. -/
def pageCacheBuffer (base n m : ℕ) : Set ℕ :=
  Set.Ico (base + bufferOffset cfg n m)
    (base + bufferOffset cfg n m + cfg.fairAlignedSstablePageCacheBufferSize)

/-- The buffers of worker `w` are in its mapping, and no two share an address.  A mapping of length
`0` is refused. -/
structure LaidOut (base w : ℕ) : Prop where
  inside : ∀ n m, Assigned cfg w n m →
    0 < mappedLength cfg ∧ pageCacheBuffer cfg base n m ⊆ mapping cfg base
  disjoint : ∀ n m n' m', Assigned cfg w n m → Assigned cfg w n' m' → (n, m) ≠ (n', m') →
    Disjoint (pageCacheBuffer cfg base n m) (pageCacheBuffer cfg base n' m')

variable {cfg} {base w n m : ℕ}

theorem size_pos_of_mapped (h : 0 < mappedLength cfg) :
    0 < cfg.fairAlignedSstablePageCacheBufferSize := by
  by_contra hzero
  simp [mappedLength, Nat.eq_zero_of_not_pos hzero] at h

/-- A buffer in the mapping ends in it. -/
theorem end_le_of_subset (hpos : 0 < cfg.fairAlignedSstablePageCacheBufferSize)
    (h : pageCacheBuffer cfg base n m ⊆ mapping cfg base) :
    bufferOffset cfg n m + cfg.fairAlignedSstablePageCacheBufferSize ≤ mappedLength cfg := by
  have := ((Set.Ico_subset_Ico_iff (by omega)).mp h).2
  omega

theorem mappedLength_lt : mappedLength cfg < 2 ^ 32 := Nat.mod_lt _ (Nat.two_pow_pos 32)

/-- The next buffer of an SSTable. -/
theorem bufferOffset_succ (n m : ℕ) :
    bufferOffset cfg n (m + 1)
      = (bufferOffset cfg n m + cfg.fairAlignedSstablePageCacheBufferSize) % 2 ^ 32 := by
  rw [bufferOffset, bufferOffset, bufferAddress, ← Nat.add_assoc, Nat.mul_succ, Nat.mod_add_mod]
  rfl

/-- It is the first buffer of the next SSTable. -/
theorem bufferOffset_shared (n m : ℕ) :
    bufferOffset cfg n (m + 1) = bufferOffset cfg (n + 1) m := by
  rw [bufferOffset, bufferOffset, bufferAddress, bufferAddress, Nat.add_right_comm, Nat.add_assoc]

/-- As long as the buffers are in the mapping, nothing wraps. -/
theorem bufferOffset_eq_add {k : ℕ} (hinside : ∀ m ≤ k,
      bufferOffset cfg n m + cfg.fairAlignedSstablePageCacheBufferSize ≤ mappedLength cfg) :
    bufferOffset cfg n k
      = bufferOffset cfg n 0 + cfg.fairAlignedSstablePageCacheBufferSize * k := by
  induction k with
  | zero => rw [Nat.mul_zero, Nat.add_zero]
  | succ k ih =>
      have hk := ih fun m hm => hinside m (by omega)
      have hend := hinside k (by omega)
      have hlt := @mappedLength_lt cfg
      rw [bufferOffset_succ, Nat.mod_eq_of_lt (by omega), hk, Nat.mul_succ, Nat.add_assoc]

/-- An SSTable has no buffers, or at least twenty. -/
theorem maxSstableHeight_cases (cfg : Config) :
    cfg.maxSstableHeight = 0 ∨ 20 ≤ cfg.maxSstableHeight := by
  unfold Config.maxSstableHeight
  omega

/-- A second SSTable shares the buffers of the first one. -/
theorem not_disjoint_of_two (hpos : 0 < cfg.fairAlignedSstablePageCacheBufferSize)
    (h : LaidOut cfg base w) (hheight : 20 ≤ cfg.maxSstableHeight) :
    cfg.workerSstableBatchSize ≤ 1 := by
  by_contra htwo
  have hdis := h.disjoint (cfg.firstSstableNum w) 1 (cfg.firstSstableNum w + 1) 0
    ⟨by omega, by omega, by omega⟩ ⟨by omega, by omega, by omega⟩ (by simp)
  rw [pageCacheBuffer, pageCacheBuffer, ← bufferOffset_shared, disjoint_self] at hdis
  have hempty := Set.Ico_eq_empty_iff.mp hdis
  omega

/-- Where a single SSTable's buffers are. -/
theorem bufferOffset_of_single (hone : cfg.workerSstableBatchSize = 1)
    (hlt : cfg.fairAlignedSstablePageCacheBufferSize * cfg.maxSstableHeight < 2 ^ 32)
    (hdvd : 2 ^ 32 ∣ cfg.fairAlignedSstablePageCacheBufferSize * w) (h : Assigned cfg w n m) :
    n = w ∧ bufferOffset cfg n m = cfg.fairAlignedSstablePageCacheBufferSize * m
      ∧ cfg.fairAlignedSstablePageCacheBufferSize * m + cfg.fairAlignedSstablePageCacheBufferSize
        ≤ cfg.fairAlignedSstablePageCacheBufferSize * cfg.maxSstableHeight := by
  obtain ⟨hfirst, hlast, hm⟩ := h
  rw [Config.firstSstableNum, hone, Nat.mul_one] at hfirst hlast
  obtain rfl : n = w := by omega
  have hle : cfg.fairAlignedSstablePageCacheBufferSize * (m + 1)
      ≤ cfg.fairAlignedSstablePageCacheBufferSize * cfg.maxSstableHeight :=
    Nat.mul_le_mul_left _ hm
  rw [Nat.mul_succ] at hle
  refine ⟨rfl, ?_, hle⟩
  rw [bufferOffset, bufferAddress, Nat.mul_add, Nat.add_mod, Nat.mod_eq_zero_of_dvd hdvd,
    Nat.zero_add, Nat.mod_mod, Nat.mod_eq_of_lt (by omega)]

theorem laidOut_of_single (hpos : 0 < cfg.fairAlignedSstablePageCacheBufferSize)
    (hone : cfg.workerSstableBatchSize = 1)
    (hlt : cfg.fairAlignedSstablePageCacheBufferSize * cfg.maxSstableHeight < 2 ^ 32)
    (hdvd : 2 ^ 32 ∣ cfg.fairAlignedSstablePageCacheBufferSize * w) : LaidOut cfg base w := by
  have hlength : mappedLength cfg
      = cfg.fairAlignedSstablePageCacheBufferSize * cfg.maxSstableHeight := by
    rw [mappedLength, hone, Nat.mul_one, Nat.mod_eq_of_lt hlt]
  refine ⟨fun n m hm => ?_, fun n m n' m' hm hm' hne => ?_⟩
  · obtain ⟨-, hoff, hle⟩ := bufferOffset_of_single hone hlt hdvd hm
    refine ⟨by omega, ?_⟩
    rw [pageCacheBuffer, mapping, Set.Ico_subset_Ico_iff (by omega)]
    omega
  · obtain ⟨rfl, hoff, -⟩ := bufferOffset_of_single hone hlt hdvd hm
    obtain ⟨rfl, hoff', -⟩ := bufferOffset_of_single hone hlt hdvd hm'
    have hmm : m ≠ m' := fun heq => hne (by rw [heq])
    rw [pageCacheBuffer, pageCacheBuffer, Set.Ico_disjoint_Ico, hoff, hoff']
    -- of two different buffers one ends where the other one begins, or before
    rcases Nat.lt_or_gt_of_ne hmm with hlt' | hlt'
    · have := Nat.mul_le_mul_left cfg.fairAlignedSstablePageCacheBufferSize hlt'
      rw [Nat.mul_succ] at this
      omega
    · have := Nat.mul_le_mul_left cfg.fairAlignedSstablePageCacheBufferSize hlt'
      rw [Nat.mul_succ] at this
      omega

/-- **The layout of a worker's page cache.**  For every configuration, every worker and every
address of its mapping, the buffers are laid out as they are meant to be if and only if there are
none, or the worker has a single SSTable, all of its buffers are below `2 ^ 32`, and its number
wraps to `0`, as number `0` does. -/
theorem laidOut_iff (cfg : Config) (base w : ℕ) :
    LaidOut cfg base w ↔ cfg.maxSstableHeight = 0 ∨ cfg.workerSstableBatchSize = 0
      ∨ (0 < cfg.fairAlignedSstablePageCacheBufferSize ∧ cfg.workerSstableBatchSize = 1
        ∧ cfg.fairAlignedSstablePageCacheBufferSize * cfg.maxSstableHeight < 2 ^ 32
        ∧ 2 ^ 32 ∣ cfg.fairAlignedSstablePageCacheBufferSize * w) := by
  constructor
  · intro h
    rcases maxSstableHeight_cases cfg with hzero | hheight
    · exact .inl hzero
    rcases Nat.eq_zero_or_pos cfg.workerSstableBatchSize with hnone | hsome
    · exact .inr (.inl hnone)
    have hassigned : ∀ m < cfg.maxSstableHeight, Assigned cfg w (cfg.firstSstableNum w) m :=
      fun m hm => ⟨le_rfl, by omega, hm⟩
    have hmapped := (h.inside _ 0 (hassigned 0 (by omega))).1
    have hpos := size_pos_of_mapped hmapped
    have hone : cfg.workerSstableBatchSize = 1 := by
      have := not_disjoint_of_two hpos h hheight
      omega
    have hends : ∀ m < cfg.maxSstableHeight, bufferOffset cfg (cfg.firstSstableNum w) m
        + cfg.fairAlignedSstablePageCacheBufferSize ≤ mappedLength cfg :=
      fun m hm => end_le_of_subset hpos (h.inside _ m (hassigned m hm)).2
    have hlast := @bufferOffset_eq_add cfg (cfg.firstSstableNum w) (cfg.maxSstableHeight - 1)
      fun m hm => hends m (by omega)
    have hend := hends (cfg.maxSstableHeight - 1) (by omega)
    have hall : cfg.fairAlignedSstablePageCacheBufferSize * cfg.maxSstableHeight
        = cfg.fairAlignedSstablePageCacheBufferSize * (cfg.maxSstableHeight - 1)
          + cfg.fairAlignedSstablePageCacheBufferSize := by
      rw [← Nat.mul_succ, Nat.succ_eq_add_one, Nat.sub_add_cancel (by omega)]
    have hlength : mappedLength cfg
        = cfg.fairAlignedSstablePageCacheBufferSize * cfg.maxSstableHeight % 2 ^ 32 := by
      rw [mappedLength, hone, Nat.mul_one]
    have hle := Nat.mod_le
      (cfg.fairAlignedSstablePageCacheBufferSize * cfg.maxSstableHeight) (2 ^ 32)
    have hlt := @mappedLength_lt cfg
    have hfirst : bufferOffset cfg (cfg.firstSstableNum w) 0 = 0 := by omega
    refine .inr (.inr ⟨hpos, hone, by omega, Nat.dvd_of_mod_eq_zero ?_⟩)
    rw [bufferOffset, bufferAddress, Config.firstSstableNum, hone, Nat.mul_one, Nat.add_zero]
      at hfirst
    exact hfirst
  · rintro (hnone | hnone | ⟨hpos, hone, hlt, hdvd⟩)
    · refine ⟨fun n m hm => ?_, fun n m n' m' hm => ?_⟩ <;>
        exact absurd hm.2.2 (by omega)
    · refine ⟨fun n m hm => ?_, fun n m n' m' hm => ?_⟩ <;>
        exact absurd hm.2.1 (by have := hm.1; omega)
    · exact laidOut_of_single hpos hone hlt hdvd

/-- Buffers of 12288 bytes, which a page cache of 122880000 bytes makes of the shipped values, and
two SSTables of a worker. -/
def largeCacheConfig : Config := { shippedConfig with totalSstablePageCacheSize := 122880000 }

/-- Buffer 1 of SSTable 0 is buffer 0 of SSTable 1, wherever the mapping is. -/
theorem largeCache_not_laidOut : ¬ ∃ base, LaidOut largeCacheConfig base 0 := by
  rintro ⟨base, h⟩
  have := not_disjoint_of_two (by decide) h (by decide)
  exact absurd this (by decide)

end Worker

end RingDB
