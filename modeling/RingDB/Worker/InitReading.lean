import RingDB.Worker.InitCounting
import RingDB.Worker.Search

/-!
# How far the initialization reads go

`schedule_initialization_read` submits two reads of a buffer each, at `desired_sstable_offset` and
one buffer further, and a message linked behind them.  Their completions are to advance the offset,
and a read that comes short is to be the last one.  If a buffer is at least one byte long, that is:
`TOTAL_SSTABLE_PAGE_CACHE_SIZE` is divided by the number of SSTables and by the number of their
buffers, with the shipped values down to `0`, and then no read ever comes short.  (A size of `2^32`
or more is no constant expression, and does not compile.)

What is more, the completions are never consumed.  Every message finds the completion of the `open`
and that of the first read.  A descriptor that is less than a buffer passes for a short read: it
sets the offset to `-1`, the first read moves it on from there, and each further pair of reads
begins at the last byte of the first buffer.  A pair that does not come in full has no successor:
the kernel cancels what is linked behind a read that is short or refused, the message too.

* `OpenFile` — a file, and `OpenFile.read` — what a read of a buffer returns.
* `Round` — a pair of reads; `roundAt` — the pairs, one after the other.
* `EndsReading` — the buffers have the size that is meant, and the reads come to a short one.
* `roundAt_offset` — where each pair begins; `roundAt_of_full` — when there is one.
* **`endsReading_iff`** — for which configurations, files and descriptors the reads end.
-/

namespace RingDB

open Core

namespace Worker

section Model

variable (cfg : Config)

/-- A file that has been opened: its length, the alignment that direct I/O asks of an offset, and
the result of the `open`. -/
structure OpenFile where
  length : ℕ
  alignment : ℕ
  fd : ℕ

/-- The result of a read of one buffer; `-22` is `-EINVAL`. -/
def OpenFile.read (f : OpenFile) (offset : ℕ) : ℤ :=
  if f.alignment ∣ offset then
    (min (min cfg.fairAlignedSstablePageCacheBufferSize maxRwCount) (f.length - offset) : ℕ)
  else -22

variable {cfg}

/-- A pair of reads: the SSTable that waits for it, and its first offset. -/
structure Round (cfg : Config) where
  table : SSTableInfo cfg
  offset : ℕ

/-- The results of the two reads. -/
def Round.first (r : Round cfg) (f : OpenFile) : ℤ := f.read cfg r.offset

def Round.second (r : Round cfg) (f : OpenFile) : ℤ :=
  f.read cfg ((r.offset + cfg.fairAlignedSstablePageCacheBufferSize) % 2 ^ 64)

/-- The SSTable behind their completions. -/
def Round.complete (r : Round cfg) (f : OpenFile) : SSTableInfo cfg :=
  { r.table with ring := r.table.ring ++ [⟨0, r.first f⟩, ⟨0, r.second f⟩] }

/-- The pair that the handling of a message submits. -/
def nextRound (t : SSTableInfo cfg) : Option (Round cfg) :=
  match (initHandler t).submitted with
  | [.initRead offset] => some ⟨(initHandler t).table, offset⟩
  | _ => none

/-- An SSTable behind the completion of its `open`. -/
def openedTable (slots : Stack cfg.maxSstableHeight) (f : OpenFile) : SSTableInfo cfg :=
  { (openTable (SSTableInfo.new slots)).table with ring := [⟨0, f.fd⟩] }

/-- Both reads come in full, so that the message linked behind them is sent. -/
def Round.Full (r : Round cfg) (f : OpenFile) : Prop :=
  r.first f = cfg.fairAlignedSstablePageCacheBufferSize
    ∧ r.second f = cfg.fairAlignedSstablePageCacheBufferSize

instance (r : Round cfg) (f : OpenFile) : Decidable (r.Full f) :=
  inferInstanceAs (Decidable (_ = _ ∧ _ = _))

/-- The pairs of reads of a file. -/
def roundAt (slots : Stack cfg.maxSstableHeight) (f : OpenFile) : ℕ → Option (Round cfg)
  | 0 => nextRound (openedTable slots f)
  | k + 1 => (roundAt slots f k).bind fun r =>
      if r.Full f then nextRound (r.complete f) else none

/-- The reads of a file come to one that is short. -/
def ReachesShort (slots : Stack cfg.maxSstableHeight) (f : OpenFile) : Prop :=
  ∃ k r, roundAt slots f k = some r ∧ (cfg.short (r.first f) ∨ cfg.short (r.second f))

/-- The size of a buffer is the one that is meant, and the reads of the file end. -/
structure EndsReading (slots : Stack cfg.maxSstableHeight) (f : OpenFile) : Prop where
  size_pos : 0 < cfg.fairAlignedSstablePageCacheBufferSize
  blocks : cfg.blockSize ∣ cfg.fairAlignedSstablePageCacheBufferSize
  entries : cfg.memtableEntryLength ∣ cfg.fairAlignedSstablePageCacheBufferSize
  reaches : ReachesShort slots f

/-- Where pair `k` begins, if the pairs before it come in full. -/
def roundOffset (cfg : Config) (f : OpenFile) (k : ℕ) : ℕ :=
  if k = 0 then 0
  else if cfg.short f.fd then cfg.fairAlignedSstablePageCacheBufferSize - 1
  else k * (f.fd + cfg.fairAlignedSstablePageCacheBufferSize) % 2 ^ 64

end Model

/-! ## The size of a buffer -/

section Size

variable {cfg : Config}

theorem blockSize_dvd_size (cfg : Config) :
    cfg.blockSize ∣ cfg.fairAlignedSstablePageCacheBufferSize := Nat.dvd_lcm_right _ _

theorem entryLength_dvd_size (cfg : Config) :
    cfg.memtableEntryLength ∣ cfg.fairAlignedSstablePageCacheBufferSize :=
  (Nat.dvd_lcm_right _ _).trans (Nat.dvd_lcm_left _ _)

/-- A buffer has bytes if both divisions leave something. -/
theorem size_pos_iff (hbits : 0 < cfg.memtableSizeMbBits) (hblock : 0 < cfg.blockSize)
    (htables : 0 < cfg.numSstables) :
    0 < cfg.fairAlignedSstablePageCacheBufferSize
      ↔ cfg.numSstables * cfg.maxSstableHeight ≤ cfg.totalSstablePageCacheSize := by
  have hheight : 0 < cfg.maxSstableHeight := Nat.mul_pos hbits (by decide)
  have hentry : 0 < cfg.memtableEntryLength := Nat.add_pos_left cfg.keyLength_pos _
  have hshare : 0 < cfg.fairSstablePageCacheSize / cfg.maxSstableHeight
      ↔ cfg.numSstables * cfg.maxSstableHeight ≤ cfg.totalSstablePageCacheSize := by
    rw [Config.fairSstablePageCacheSize, Nat.div_div_eq_div_mul,
      Nat.div_pos_iff]
    exact and_iff_right (Nat.mul_pos htables hheight)
  rw [← hshare, Config.fairAlignedSstablePageCacheBufferSize]
  constructor
  · intro hpos
    by_contra hzero
    simp [Nat.eq_zero_of_not_pos hzero] at hpos
  · exact fun hpos => Nat.lcm_pos (Nat.lcm_pos hpos hentry) hblock

end Size

/-! ## The pairs of reads -/

section Rounds

variable {cfg : Config} {slots : Stack cfg.maxSstableHeight} {f : OpenFile}

theorem short_natCast {n : ℕ} (h : n < 2 ^ 32) :
    cfg.short n ↔ n < cfg.fairAlignedSstablePageCacheBufferSize := by
  have : ReadWritePool.toUint (n : ℤ) = n := by
    unfold ReadWritePool.toUint
    omega
  rw [Config.short, this]

/-- Nothing is short of nothing. -/
theorem not_short_of_size_zero (h : cfg.fairAlignedSstablePageCacheBufferSize = 0) (res : ℤ) :
    ¬ cfg.short res := by
  rw [Config.short, h]
  exact Nat.not_lt_zero _

/-- **Without bytes in a buffer** the reads of no file end. -/
theorem not_reachesShort_of_size_zero (h : cfg.fairAlignedSstablePageCacheBufferSize = 0) :
    ¬ ReachesShort slots f := by
  rintro ⟨k, r, -, hfirst | hsecond⟩
  · exact not_short_of_size_zero h _ hfirst
  · exact not_short_of_size_zero h _ hsecond

/-- An error is not short either, as long as a buffer can be read at once. -/
theorem not_short_refused (h : cfg.fairAlignedSstablePageCacheBufferSize ≤ maxRwCount) :
    ¬ cfg.short (-22) := by
  have : ReadWritePool.toUint (-22) = 2 ^ 32 - 22 := by decide
  rw [Config.short, this]
  unfold maxRwCount at h
  omega

/-- A read at an offset that is aligned comes short at the end of the file. -/
theorem short_read_iff (hcap : cfg.fairAlignedSstablePageCacheBufferSize ≤ maxRwCount) {offset : ℕ}
    (halign : f.alignment ∣ offset) (hpos : 0 < cfg.fairAlignedSstablePageCacheBufferSize) :
    cfg.short (f.read cfg offset)
      ↔ f.length < offset + cfg.fairAlignedSstablePageCacheBufferSize := by
  have hlt : min (min cfg.fairAlignedSstablePageCacheBufferSize maxRwCount) (f.length - offset)
      < 2 ^ 32 := by
    unfold maxRwCount at *
    omega
  rw [OpenFile.read, if_pos halign, short_natCast hlt]
  omega

theorem not_short_read_of_not_dvd (hcap : cfg.fairAlignedSstablePageCacheBufferSize ≤ maxRwCount)
    {offset : ℕ} (halign : ¬ f.alignment ∣ offset) : ¬ cfg.short (f.read cfg offset) := by
  rw [OpenFile.read, if_neg halign]
  exact not_short_refused hcap

/-- The first pair begins at `0`. -/
theorem roundAt_zero (slots : Stack cfg.maxSstableHeight) (f : OpenFile) :
    roundAt slots f 0 = some ⟨{ openedTable slots f with desiredSstableOffset := 0 }, 0⟩ := rfl

/-- The first completion is the result of the `open`. -/
theorem initResult_opened (t : SSTableInfo cfg) (n : ℕ) :
    let o := initResult { table := t } 0 n
    o.submitted = [] ∧ o.table.ring = t.ring ∧ o.table.desiredSstableOffset =
      if cfg.short n then sizeMax
      else if 0 < n then (t.desiredSstableOffset + n) % 2 ^ 64 else t.desiredSstableOffset := by
  simp only [initResult, Config.short, Int.natCast_pos, Int.toNat_natCast]
  split_ifs <;> simp_all

/-- The second one is that of the first read: a full buffer submits a pair. -/
theorem initResult_full_buffer (hcap : cfg.fairAlignedSstablePageCacheBufferSize ≤ maxRwCount)
    (hpos : 0 < cfg.fairAlignedSstablePageCacheBufferSize) (o : Outcome cfg) :
    let o' := initResult o 1 (cfg.fairAlignedSstablePageCacheBufferSize : ℕ)
    o'.submitted = o.submitted ++ [.initRead o'.table.desiredSstableOffset]
      ∧ o'.table.ring = o.table.ring
      ∧ o'.table.desiredSstableOffset
        = (o.table.desiredSstableOffset + cfg.fairAlignedSstablePageCacheBufferSize) % 2 ^ 64 := by
  have hfull : ¬ cfg.short (cfg.fairAlignedSstablePageCacheBufferSize : ℕ) := by
    unfold maxRwCount at hcap
    rw [short_natCast (by omega)]
    omega
  unfold Config.short at hfull
  simp only [initResult, Int.natCast_pos, Int.toNat_natCast, if_pos hpos, if_neg hfull, if_true,
    and_self]

/-- The message behind a pair, where the ring begins with the `open` and a full read. -/
theorem nextRound_eq {t : SSTableInfo cfg} {rest : List Cqe}
    (hcap : cfg.fairAlignedSstablePageCacheBufferSize ≤ maxRwCount)
    (hpos : 0 < cfg.fairAlignedSstablePageCacheBufferSize)
    (hring : t.ring = ⟨0, f.fd⟩ :: ⟨0, (cfg.fairAlignedSstablePageCacheBufferSize : ℕ)⟩ :: rest) :
    ∃ r, nextRound t = some r ∧ r.table.ring = t.ring ∧ r.table.desiredSstableOffset = r.offset
      ∧ r.offset = if cfg.short f.fd then cfg.fairAlignedSstablePageCacheBufferSize - 1
        else (t.desiredSstableOffset + (f.fd + cfg.fairAlignedSstablePageCacheBufferSize))
          % 2 ^ 64 := by
  obtain ⟨hsub₀, hring₀, hoff₀⟩ := initResult_opened t f.fd
  obtain ⟨hsub₁, hring₁, hoff₁⟩ :=
    initResult_full_buffer hcap hpos (initResult { table := t } 0 f.fd)
  have hhandler : initHandler t = initResult (initResult { table := t } 0 f.fd) 1
      (cfg.fairAlignedSstablePageCacheBufferSize : ℕ) := by
    rw [initHandler, hring]
  rw [hsub₀, List.nil_append] at hsub₁
  refine ⟨⟨(initHandler t).table, (initHandler t).table.desiredSstableOffset⟩, ?_, ?_, rfl, ?_⟩
  · rw [nextRound, hhandler, hsub₁]
  · rw [hhandler, hring₁, hring₀]
  · show (initHandler t).table.desiredSstableOffset = _
    unfold maxRwCount at hcap
    rw [hhandler, hoff₁, hoff₀]
    split_ifs with hshort hfd
    · -- one byte below the end of the first buffer
      simp only [sizeMax]
      omega
    · rw [Nat.mod_add_mod, Nat.add_assoc]
    · rw [Nat.eq_zero_of_not_pos hfd, Nat.zero_add]

/-- Every pair begins where `roundOffset` says, and behind it the ring begins with the descriptor
and a full read, if the pair comes in full. -/
theorem roundAt_offset (hcap : cfg.fairAlignedSstablePageCacheBufferSize ≤ maxRwCount)
    (hpos : 0 < cfg.fairAlignedSstablePageCacheBufferSize) {k : ℕ} {r : Round cfg}
    (hround : roundAt slots f k = some r) :
    r.offset = roundOffset cfg f k ∧ r.table.desiredSstableOffset = r.offset
      ∧ (r.Full f → ∃ rest, (r.complete f).ring
        = ⟨0, f.fd⟩ :: ⟨0, (cfg.fairAlignedSstablePageCacheBufferSize : ℕ)⟩ :: rest) := by
  induction k generalizing r with
  | zero =>
      cases hround
      refine ⟨rfl, rfl, fun hfull => ?_⟩
      rw [← hfull.1]
      exact ⟨[⟨0, f.read cfg ((0 + cfg.fairAlignedSstablePageCacheBufferSize) % 2 ^ 64)⟩], rfl⟩
  | succ k ih =>
      rw [roundAt, Option.bind_eq_some_iff] at hround
      rcases hround with ⟨r₀, hround₀, hnext⟩
      split_ifs at hnext with hfull
      obtain ⟨hoffset, hdesired, hring⟩ := ih hround₀
      rcases hring hfull with ⟨rest, hring⟩
      obtain ⟨r', hnext', hring', hdesired', hoffset'⟩ := nextRound_eq hcap hpos hring
      cases hnext.symm.trans hnext'
      refine ⟨?_, hdesired', fun _ => ⟨rest ++ [⟨0, r.first f⟩, ⟨0, r.second f⟩], ?_⟩⟩
      · have hkeeps : (r₀.complete f).desiredSstableOffset = r₀.table.desiredSstableOffset := rfl
        rw [hoffset', roundOffset, if_neg (Nat.succ_ne_zero k), hkeeps, hdesired, hoffset]
        split_ifs with hshort
        · rfl
        · rw [roundOffset]
          split_ifs with hk
          · rw [hk, Nat.zero_add, Nat.one_mul]
          · rw [Nat.mod_add_mod, Nat.succ_mul]
      · rw [Round.complete, hring', hring]
        rfl

/-- There is a pair `k` if all before it come in full. -/
theorem roundAt_of_full (hcap : cfg.fairAlignedSstablePageCacheBufferSize ≤ maxRwCount)
    (hpos : 0 < cfg.fairAlignedSstablePageCacheBufferSize) {k : ℕ}
    (hfull : ∀ j < k, ∀ r, roundAt slots f j = some r → r.Full f) :
    ∃ r, roundAt slots f k = some r := by
  induction k with
  | zero => exact ⟨_, roundAt_zero slots f⟩
  | succ k ih =>
      rcases ih fun j hj => hfull j (hj.trans (Nat.lt_succ_self k)) with ⟨r, hround⟩
      have hr := hfull k (Nat.lt_succ_self k) r hround
      rcases (roundAt_offset hcap hpos hround).2.2 hr with ⟨rest, hring⟩
      rcases nextRound_eq hcap hpos hring with ⟨r', hnext, -⟩
      exact ⟨r', by rw [roundAt, hround, Option.bind_some, if_pos hr, hnext]⟩

/-- The pair before one came in full. -/
theorem full_of_roundAt_succ {k : ℕ} {r' : Round cfg} (h : roundAt slots f (k + 1) = some r') :
    ∃ r, roundAt slots f k = some r ∧ r.Full f := by
  rw [roundAt, Option.bind_eq_some_iff] at h
  rcases h with ⟨r, hround, hnext⟩
  split_ifs at hnext with hfull
  exact ⟨r, hround, hfull⟩

/-- An aligned read that does not reach behind the end of the file comes in full. -/
theorem read_full (hcap : cfg.fairAlignedSstablePageCacheBufferSize ≤ maxRwCount) {offset : ℕ}
    (halign : f.alignment ∣ offset)
    (hend : offset + cfg.fairAlignedSstablePageCacheBufferSize ≤ f.length) :
    f.read cfg offset = cfg.fairAlignedSstablePageCacheBufferSize := by
  rw [OpenFile.read, if_pos halign]
  omega

theorem size_lt (hcap : cfg.fairAlignedSstablePageCacheBufferSize ≤ maxRwCount) :
    cfg.fairAlignedSstablePageCacheBufferSize < 2 ^ 31 :=
  hcap.trans_lt (by decide)

section

variable {r : Round cfg} (hcap : cfg.fairAlignedSstablePageCacheBufferSize ≤ maxRwCount)
  (hsize : f.alignment ∣ cfg.fairAlignedSstablePageCacheBufferSize)
  (hlt : r.offset + cfg.fairAlignedSstablePageCacheBufferSize < 2 ^ 64)

include hlt in
theorem Round.second_eq :
    r.second f = f.read cfg (r.offset + cfg.fairAlignedSstablePageCacheBufferSize) := by
  rw [Round.second, Nat.mod_eq_of_lt hlt]

include hcap hsize hlt

/-- An aligned pair has a short read if the file ends within it. -/
theorem Round.short_iff (hpos : 0 < cfg.fairAlignedSstablePageCacheBufferSize)
    (halign : f.alignment ∣ r.offset) :
    (cfg.short (r.first f) ∨ cfg.short (r.second f))
      ↔ f.length < r.offset + 2 * cfg.fairAlignedSstablePageCacheBufferSize := by
  rw [Round.first, Round.second_eq hlt, short_read_iff hcap halign hpos,
    short_read_iff hcap (Nat.dvd_add halign hsize) hpos]
  omega

/-- And if the file does not end within it, the pair comes in full. -/
theorem Round.full_of_le (halign : f.alignment ∣ r.offset)
    (hend : r.offset + 2 * cfg.fairAlignedSstablePageCacheBufferSize ≤ f.length) : r.Full f := by
  constructor
  · exact read_full hcap halign (by omega)
  · rw [Round.second_eq hlt]
    exact read_full hcap (Nat.dvd_add halign hsize) (by omega)

/-- Of a pair that is not aligned both reads are refused, and neither is short. -/
theorem Round.not_short_of_not_dvd (hno : ¬ f.alignment ∣ r.offset) :
    ¬ (cfg.short (r.first f) ∨ cfg.short (r.second f)) := by
  rw [Round.first, Round.second_eq hlt]
  rintro (hread | hread)
  · exact not_short_read_of_not_dvd hcap hno hread
  · refine not_short_read_of_not_dvd hcap (fun hdvd => hno ?_) hread
    exact (Nat.dvd_add_left hsize).mp hdvd

end

/-- A pair that comes in full is aligned. -/
theorem Round.Full.dvd {r : Round cfg} (h : r.Full f) : f.alignment ∣ r.offset := by
  by_contra hno
  have hfirst := h.1
  rw [Round.first, OpenFile.read, if_neg hno] at hfirst
  omega

end Rounds

/-! ## Which reads end -/

section Ends

variable {cfg : Config} {slots : Stack cfg.maxSstableHeight} {f : OpenFile}

/-- A buffer that no read can fill. -/
theorem reachesShort_of_cap (slots : Stack cfg.maxSstableHeight) (f : OpenFile)
    (hcap : maxRwCount < cfg.fairAlignedSstablePageCacheBufferSize) : ReachesShort slots f := by
  refine ⟨0, _, roundAt_zero slots f, .inl ?_⟩
  have hle : min (min cfg.fairAlignedSstablePageCacheBufferSize maxRwCount) (f.length - 0)
      ≤ maxRwCount := by omega
  have hlt : maxRwCount < 2 ^ 32 := by decide
  show cfg.short (f.read cfg 0)
  rw [OpenFile.read, if_pos (dvd_zero _), short_natCast (by omega)]
  omega

/-- A file that ends within the first pair. -/
theorem reachesShort_of_lt_two (slots : Stack cfg.maxSstableHeight)
    (hcap : cfg.fairAlignedSstablePageCacheBufferSize ≤ maxRwCount)
    (hpos : 0 < cfg.fairAlignedSstablePageCacheBufferSize)
    (halign : f.alignment ∣ cfg.fairAlignedSstablePageCacheBufferSize)
    (hlength : f.length < 2 * cfg.fairAlignedSstablePageCacheBufferSize) :
    ReachesShort slots f := by
  have hsmall := size_lt hcap
  refine ⟨0, _, roundAt_zero slots f, (Round.short_iff hcap halign ?_ hpos (dvd_zero _)).2 ?_⟩
  · show 0 + _ < _
    omega
  · show _ < 0 + _
    omega

/-- With a descriptor that does not pass for a short read, and is a multiple of the alignment, the
offset grows with every pair, up to the end of the file. -/
theorem reachesShort_of_fd (slots : Stack cfg.maxSstableHeight)
    (hcap : cfg.fairAlignedSstablePageCacheBufferSize ≤ maxRwCount)
    (hpos : 0 < cfg.fairAlignedSstablePageCacheBufferSize)
    (halign : f.alignment ∣ cfg.fairAlignedSstablePageCacheBufferSize) (hend : f.length < 2 ^ 63)
    (hfd : cfg.fairAlignedSstablePageCacheBufferSize ≤ f.fd) (hdvd : f.alignment ∣ f.fd)
    (hint : f.fd ≤ intMax) : ReachesShort slots f := by
  set size := cfg.fairAlignedSstablePageCacheBufferSize with hsize
  have hbuffer : size < 2 ^ 31 := size_lt hcap
  simp only [intMax] at hint
  have hlong : ¬ cfg.short f.fd := by
    rw [short_natCast (by omega)]
    omega
  have haligned : ∀ j, f.alignment ∣ j * (f.fd + size) := fun j =>
    Dvd.dvd.mul_left (Nat.dvd_add hdvd halign) j
  -- the first pair that reaches behind the end
  have hexists : ∃ k, f.length < k * (f.fd + size) + 2 * size := by
    have hle := Nat.le_mul_of_pos_right f.length (show 0 < f.fd + size by omega)
    exact ⟨f.length, by omega⟩
  obtain ⟨k, hbehind, hbefore⟩ : ∃ k, f.length < k * (f.fd + size) + 2 * size
      ∧ ∀ j < k, j * (f.fd + size) + 2 * size ≤ f.length :=
    ⟨Nat.find hexists, Nat.find_spec hexists, fun j hj =>
      Nat.le_of_not_lt (Nat.find_min hexists hj)⟩
  have hsmall : k * (f.fd + size) + size < 2 ^ 64 := by
    rcases Nat.eq_zero_or_pos k with hk | hk
    · rw [hk, Nat.zero_mul]
      omega
    · have hpred := hbefore (k - 1) (Nat.sub_lt hk Nat.one_pos)
      have hsucc : k * (f.fd + size) = (k - 1) * (f.fd + size) + (f.fd + size) := by
        rw [← Nat.succ_mul, Nat.succ_eq_add_one, Nat.sub_add_cancel hk]
      omega
  have hoffset : ∀ j ≤ k, ∀ r, roundAt slots f j = some r → r.offset = j * (f.fd + size) := by
    intro j hj r hround
    have hle : j * (f.fd + size) ≤ k * (f.fd + size) := Nat.mul_le_mul_right _ hj
    rw [(roundAt_offset hcap hpos hround).1, roundOffset, if_neg hlong, ← hsize]
    split_ifs with hzero
    · rw [hzero, Nat.zero_mul]
    · exact Nat.mod_eq_of_lt (by omega)
  have hfull : ∀ j < k, ∀ r, roundAt slots f j = some r → r.Full f := by
    intro j hj r hround
    have hr := hoffset j hj.le r hround
    have hle := hbefore j hj
    exact Round.full_of_le hcap halign (by omega) (hr ▸ haligned j) (by omega)
  rcases roundAt_of_full hcap hpos hfull with ⟨r, hround⟩
  have hr := hoffset k le_rfl r hround
  exact ⟨k, r, hround,
    (Round.short_iff hcap halign (by omega) hpos (hr ▸ haligned k)).2 (by omega)⟩

/-- A pair that does not come in full is the last one. -/
theorem roundAt_none {j k : ℕ} (hjk : j ≤ k) (h : roundAt slots f j = none) :
    roundAt slots f k = none := by
  induction k, hjk using Nat.le_induction with
  | base => exact h
  | succ k _ ih => rw [roundAt, ih, Option.bind_none]

/-- With one that is no multiple of the alignment the second pair is refused, and the last. -/
theorem not_reachesShort_of_fd (slots : Stack cfg.maxSstableHeight)
    (hcap : cfg.fairAlignedSstablePageCacheBufferSize ≤ maxRwCount)
    (halign : f.alignment ∣ cfg.fairAlignedSstablePageCacheBufferSize)
    (hpos : 0 < cfg.fairAlignedSstablePageCacheBufferSize)
    (hlength : 2 * cfg.fairAlignedSstablePageCacheBufferSize ≤ f.length)
    (hfd : cfg.fairAlignedSstablePageCacheBufferSize ≤ f.fd) (hdvd : ¬ f.alignment ∣ f.fd)
    (hint : f.fd ≤ intMax) : ¬ ReachesShort slots f := by
  have hsmall := size_lt hcap
  simp only [intMax] at hint
  have hlong : ¬ cfg.short f.fd := by
    rw [short_natCast (by omega)]
    omega
  have hoffset : ∀ r, roundAt slots f 1 = some r →
      r.offset = f.fd + cfg.fairAlignedSstablePageCacheBufferSize := by
    intro r hround
    rw [(roundAt_offset hcap hpos hround).1, roundOffset, if_neg Nat.one_ne_zero, if_neg hlong,
      Nat.one_mul]
    exact Nat.mod_eq_of_lt (by omega)
  have hno : ∀ r, roundAt slots f 1 = some r → ¬ f.alignment ∣ r.offset := by
    intro r hround hdvd'
    rw [hoffset r hround] at hdvd'
    exact hdvd ((Nat.dvd_add_left halign).mp hdvd')
  rintro ⟨k, r, hround, hreads⟩
  match k with
  | 0 =>
      have hr : r.offset = 0 := (roundAt_offset hcap hpos hround).1
      have hend := (Round.short_iff hcap halign (by omega) hpos (hr ▸ dvd_zero _)).1 hreads
      omega
  | 1 =>
      have hr := hoffset r hround
      exact Round.not_short_of_not_dvd hcap halign (by omega) (hno r hround) hreads
  | k + 2 =>
      -- the second pair does not come in full
      have hnone : roundAt slots f 2 = none := by
        rw [Option.eq_none_iff_forall_ne_some]
        intro r₂ h
        rcases full_of_roundAt_succ h with ⟨r₁, hround₁, hfull⟩
        exact hno r₁ hround₁ hfull.dvd
      rw [roundAt_none (Nat.le_add_left 2 k) hnone] at hround
      cases hround

/-- Every other descriptor makes the second pair begin at the last byte of the first buffer. -/
theorem reachesShort_of_unaligned (slots : Stack cfg.maxSstableHeight)
    (hcap : cfg.fairAlignedSstablePageCacheBufferSize ≤ maxRwCount)
    (hpos : 0 < cfg.fairAlignedSstablePageCacheBufferSize)
    (hlength : 2 * cfg.fairAlignedSstablePageCacheBufferSize ≤ f.length)
    (hfd : f.fd < cfg.fairAlignedSstablePageCacheBufferSize) (hone : f.alignment = 1)
    (hend : f.length + 1 < 3 * cfg.fairAlignedSstablePageCacheBufferSize) :
    ReachesShort slots f := by
  have hsmall := size_lt hcap
  have hdvd : ∀ offset, f.alignment ∣ offset := fun offset => hone ▸ one_dvd offset
  have hshort : cfg.short f.fd := by
    rw [short_natCast (by omega)]
    exact hfd
  have hfull : ∀ j < 1, ∀ r, roundAt slots f j = some r → r.Full f := by
    intro j hj r hround
    cases Nat.lt_one_iff.1 hj
    have hr : r.offset = 0 := (roundAt_offset hcap hpos hround).1
    exact Round.full_of_le hcap (hdvd _) (by omega) (hdvd _) (by omega)
  rcases roundAt_of_full hcap hpos hfull with ⟨r, hround⟩
  have hr := (roundAt_offset hcap hpos hround).1
  rw [roundOffset, if_neg Nat.one_ne_zero, if_pos hshort] at hr
  exact ⟨1, r, hround, (Round.short_iff hcap (hdvd _) (by omega) hpos (hdvd _)).2 (by omega)⟩

/-- From then on the pairs are the same, whatever the length of the file. -/
theorem not_reachesShort (slots : Stack cfg.maxSstableHeight)
    (hcap : cfg.fairAlignedSstablePageCacheBufferSize ≤ maxRwCount)
    (halign : f.alignment ∣ cfg.fairAlignedSstablePageCacheBufferSize)
    (hlength : 2 * cfg.fairAlignedSstablePageCacheBufferSize ≤ f.length)
    (hfd : f.fd < cfg.fairAlignedSstablePageCacheBufferSize)
    (hend : f.alignment = 1 → 3 * cfg.fairAlignedSstablePageCacheBufferSize ≤ f.length + 1) :
    ¬ ReachesShort slots f := by
  have hpos : 0 < cfg.fairAlignedSstablePageCacheBufferSize := by omega
  have hsmall := size_lt hcap
  have hshort : cfg.short f.fd := by
    rw [short_natCast (by omega)]
    exact hfd
  rintro ⟨k, r, hround, hreads⟩
  have hr := (roundAt_offset hcap hpos hround).1
  rw [roundOffset, if_pos hshort] at hr
  have hlt : r.offset + cfg.fairAlignedSstablePageCacheBufferSize < 2 ^ 64 := by
    split_ifs at hr <;> omega
  by_cases hone : f.alignment = 1
  · have := hend hone
    rw [Round.short_iff hcap halign hlt hpos (hone ▸ one_dvd _), hr] at hreads
    split_ifs at hreads <;> omega
  · split_ifs at hr with hk
    · rw [Round.short_iff hcap halign hlt hpos (hr ▸ dvd_zero _), hr] at hreads
      omega
    · -- an alignment above one does not divide a multiple less one
      refine Round.not_short_of_not_dvd hcap halign hlt (fun hdvd => ?_) hreads
      rw [hr] at hdvd
      have hdvd' := Nat.dvd_sub halign hdvd
      rw [Nat.sub_sub_self hpos] at hdvd'
      exact hone (Nat.dvd_one.mp hdvd')

theorem reachesShort_iff (slots : Stack cfg.maxSstableHeight)
    (hpos : 0 < cfg.fairAlignedSstablePageCacheBufferSize)
    (halign : f.alignment ∣ cfg.fairAlignedSstablePageCacheBufferSize) (hend : f.length < 2 ^ 63)
    (hint : f.fd ≤ intMax) :
    ReachesShort slots f ↔ maxRwCount < cfg.fairAlignedSstablePageCacheBufferSize
      ∨ f.length < 2 * cfg.fairAlignedSstablePageCacheBufferSize
      ∨ (cfg.fairAlignedSstablePageCacheBufferSize ≤ f.fd ∧ f.alignment ∣ f.fd)
      ∨ (f.alignment = 1 ∧ f.length + 1 < 3 * cfg.fairAlignedSstablePageCacheBufferSize) := by
  rcases Nat.lt_or_ge maxRwCount cfg.fairAlignedSstablePageCacheBufferSize with hcap | hcap
  · exact iff_of_true (reachesShort_of_cap slots f hcap) (.inl hcap)
  rcases Nat.lt_or_ge f.length (2 * cfg.fairAlignedSstablePageCacheBufferSize) with htwo | htwo
  · exact iff_of_true (reachesShort_of_lt_two slots hcap hpos halign htwo) (.inr (.inl htwo))
  rcases Nat.lt_or_ge f.fd cfg.fairAlignedSstablePageCacheBufferSize with hfd | hfd
  · constructor
    · intro h
      by_contra hnone
      push Not at hnone
      exact not_reachesShort slots hcap halign htwo hfd hnone.2.2.2 h
    · rintro (h | h | h | ⟨hone, h⟩)
      · omega
      · omega
      · omega
      · exact reachesShort_of_unaligned slots hcap hpos htwo hfd hone h
  by_cases hdvd : f.alignment ∣ f.fd
  · exact iff_of_true (reachesShort_of_fd slots hcap hpos halign hend hfd hdvd hint)
      (.inr (.inr (.inl ⟨hfd, hdvd⟩)))
  · refine iff_of_false (not_reachesShort_of_fd slots hcap halign hpos htwo hfd hdvd hint) ?_
    rintro (h | h | h | ⟨hone, -⟩)
    · omega
    · omega
    · exact hdvd h.2
    · exact hdvd (hone ▸ one_dvd f.fd)

/-- **The initialization reads.**  For every configuration of positive values, every file and every
descriptor: a buffer has the size that is meant and the reads come to a short one if and only if the
page cache has a byte for every buffer of every SSTable, and the file ends within two buffers, or
the descriptor is no less than a buffer and a multiple of the alignment, or the file ends within
three buffers less a byte and offsets need not be aligned, or no single read can fill a buffer. -/
theorem endsReading_iff (hbits : 0 < cfg.memtableSizeMbBits) (hblock : 0 < cfg.blockSize)
    (htables : 0 < cfg.numSstables) (slots : Stack cfg.maxSstableHeight)
    (halign : f.alignment ∣ cfg.blockSize) (hend : f.length < 2 ^ 63) (hint : f.fd ≤ intMax) :
    EndsReading slots f ↔ cfg.numSstables * cfg.maxSstableHeight ≤ cfg.totalSstablePageCacheSize
      ∧ (maxRwCount < cfg.fairAlignedSstablePageCacheBufferSize
        ∨ f.length < 2 * cfg.fairAlignedSstablePageCacheBufferSize
        ∨ (cfg.fairAlignedSstablePageCacheBufferSize ≤ f.fd ∧ f.alignment ∣ f.fd)
        ∨ (f.alignment = 1 ∧ f.length + 1 < 3 * cfg.fairAlignedSstablePageCacheBufferSize)) := by
  have hdvd := halign.trans (blockSize_dvd_size cfg)
  rw [← size_pos_iff hbits hblock htables]
  constructor
  · intro h
    exact ⟨h.size_pos, (reachesShort_iff slots h.size_pos hdvd hend hint).mp h.reaches⟩
  · rintro ⟨hpos, h⟩
    exact ⟨hpos, blockSize_dvd_size cfg, entryLength_dvd_size cfg,
      (reachesShort_iff slots hpos hdvd hend hint).mpr h⟩

/-- Two SSTables, a byte for each of their buffers, which have 1536 bytes: a file of three
blocks. -/
theorem endsReading_three_blocks :
    EndsReading (Stack.zeroed pagedConfig.maxSstableHeight) ⟨1536, 512, 5⟩
      ↔ 2 * 20 ≤ 40 ∧ (maxRwCount < 1536 ∨ 1536 < 2 * 1536 ∨ (1536 ≤ 5 ∧ 512 ∣ 5)
        ∨ (512 = 1 ∧ 1536 + 1 < 3 * 1536)) :=
  @endsReading_iff pagedConfig ⟨1536, 512, 5⟩ (by decide) (by decide) (by decide)
    (Stack.zeroed _) (by decide) (by decide) (by decide)

/-- With the shipped values a buffer has no bytes, and not even an empty file ends. -/
theorem shipped_reads_endless :
    ¬ EndsReading (Stack.zeroed shippedConfig.maxSstableHeight) ⟨0, 4096, 5⟩ := by
  intro h
  exact absurd h.size_pos (by decide)

end Ends

end Worker

end RingDB
