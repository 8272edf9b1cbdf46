import Mathlib.Algebra.Group.Even
import RingDB.LevelZero.SparseIndex
import RingDB.Levels.Filter
import RingDB.Worker.InitCounting

/-!
# What recovery makes of an SSTable file

After a restart the worker reads each file through the first two buffers of its SSTable, and from
the records it finds there it is to rebuild the range of the SSTable in the sparse index and its
filter.  The loop over the records of a buffer runs over `k` and looks at `buffer_in_cache[i]`,
where `i` is the SSTable that the worker happens to visit; and where a key is below the smallest or
above the largest one so far, it copies the sentinel over the key and not the key over the sentinel.

* `Summary` — what recovery works on; `scanRecord` — one pass of the loop over the records.
* `Recovering` — one SSTable, its file, and everything else that happens in the page cache of the
  worker.
* **`scanRecords_iff`** — when a scan leaves the page cache as it was.
* **`rebuilds_iff`** — recovery rebuilds the summaries of a file without live records only, and only
  if the records it looks at are tombstones too, or are overwritten an even number of times.
-/

namespace RingDB

open Core

/-- `tombstone_value` -/
def tombstone (cfg : Config) : Bytes := nulBytes cfg.valueLength

/-- The sentinel that `min_key` begins with. -/
def greatestKey (cfg : Config) : Bytes := List.replicate cfg.keyLength 255

/-- `CacheBufferEntry` -/
structure CacheBufferEntry (cfg : Config) where
  key : Bytes
  value : Bytes
  length_key : key.length = cfg.keyLength
  length_value : value.length = cfg.valueLength

namespace CacheBufferEntry

variable {cfg : Config}

/-- The bytes of a file of records. -/
def content (file : List (CacheBufferEntry cfg)) : Bytes := file.flatMap fun r => r.key ++ r.value

/-- The keys of the records whose value is not the tombstone. -/
def liveKeys (file : List (CacheBufferEntry cfg)) : List Bytes :=
  (file.filter fun r => r.value != tombstone cfg).map key

end CacheBufferEntry

/-- The key has been inserted: all bits of its characters are set. -/
def Filter.Holds (cfg : Config) (f : Filter) (key : Bytes) : Prop :=
  ∃ bits, Filter.bitsOf cfg (key.takeWhile (· != 0)) = .ok bits ∧ ∀ bit ∈ bits, bit ∈ f.setBits

namespace Worker

variable {cfg : Config}

/-! ## The scan of the records -/

/-- `page_cache_buffers[j]` of SSTable `n`, as initialization assigns it, from the beginning of the
mapping on. -/
def bufferAddress (cfg : Config) (n j : ℕ) : ℕ :=
  cfg.fairAlignedSstablePageCacheBufferSize * (n + j)

/-- `buffer_in_cache + i` -/
def recordAddress (cfg : Config) (n j i : ℕ) : ℕ :=
  bufferAddress cfg n j + i * cfg.memtableEntryLength

/-- `num_entries` -/
def numEntries (cfg : Config) (res : ℤ) : ℕ := res.toNat / cfg.memtableEntryLength % 2 ^ 32

/-- The two completions that are looked at, if there are two, each with its number. -/
def halves (ring : List Cqe) : List (ℕ × ℤ) :=
  match ring with
  | c₀ :: c₁ :: _ => [(0, c₀.res), (1, c₁.res)]
  | _ => []

/-- The keys of an SSTable, its filter, the sparse index of its level, and the page cache of the
worker. -/
structure Summary (cfg : Config) where
  minKey : Bytes
  maxKey : Bytes
  filter : Filter
  sparseIndex : SparseIndex cfg
  mem : Memory

namespace Summary

/-- After the first visit, with a page cache that was just mapped. -/
def start (cfg : Config) : Summary cfg where
  minKey := greatestKey cfg
  maxKey := nullKey cfg
  filter := {}
  sparseIndex := .fresh cfg
  mem := fun _ => 0

/-- The record at `p`. -/
def scanRecord (p : ℕ) (s : Summary cfg) : Except Fault (Summary cfg) :=
  if memcmp (bytesAt s.mem (p + cfg.keyLength) cfg.valueLength) (tombstone cfg) = .eq then .ok s
  else do
    let key := bytesAt s.mem p cfg.keyLength
    let minCmp := memcmp key s.minKey
    let maxCmp := memcmp key s.maxKey
    let mem := if minCmp = .lt then store s.mem p s.minKey else s.mem
    let mem := if maxCmp = .gt then store mem p s.maxKey else mem
    let str ← cStringAt mem sizeMax p
    let filter ← s.filter.insertKey cfg str
    pure { s with filter, mem }

/-- The loop over `k`, which looks at the same record every time. -/
def scanRecords (p : ℕ) : ℕ → Summary cfg → Except Fault (Summary cfg)
  | 0, s => .ok s
  | k + 1, s => do
      let s ← s.scanRecord p
      scanRecords p k s

/-- The range of SSTable `n` is entered behind a read of less than a buffer. -/
def enterRange (n : ℕ) (res : ℤ) (s : Summary cfg) : Except Fault (Summary cfg) :=
  if cfg.short res then do
    let sparseIndex ← s.sparseIndex.insertRange s.minKey s.maxKey (n % cfg.levelFactor)
    pure { s with sparseIndex }
  else .ok s

/-- One completion of what is taken for an initialization read of SSTable `n`, handled while the
worker's loop is at SSTable `i`. -/
def readHalf (n i : ℕ) (s : Summary cfg) (half : ℕ × ℤ) : Except Fault (Summary cfg) := do
  let s ← if 0 < half.2 then scanRecords (recordAddress cfg n half.1 i) (numEntries cfg half.2) s
    else pure s
  s.enterRange n half.2

/-- The part of a message's handling that `initHandler` leaves out. -/
def handle (n i : ℕ) (s : Summary cfg) (ring : List Cqe) : Except Fault (Summary cfg) :=
  (halves ring).foldlM (readHalf n i) s

end Summary

/-! ## One SSTable through initialization -/

/-- SSTable `n` after its first visit: what the worker keeps of it, the chain that has not
completed, and whether the message of the last one is in the scheduler ring. -/
structure Recovering (cfg : Config) where
  table : SSTableInfo cfg
  summary : Summary cfg
  inFlight : Option ChainKind
  reported : Bool

namespace Recovering

inductive Event (cfg : Config) where
  /-- The file has been opened. -/
  | opened (cqe : Cqe)
  /-- The reads into the first two buffers have completed. -/
  | read (res₀ res₁ : ℤ)
  /-- The message is handled, while the worker's loop is at SSTable `i`. -/
  | handle (i : ℕ)
  /-- The other SSTables change the page cache and the sparse index. -/
  | others (mem : Memory) (sparseIndex : SparseIndex cfg)

def start (slots : Stack cfg.maxSstableHeight) : Recovering cfg where
  table := (openTable (.new slots)).table
  summary := .start cfg
  inFlight := some .openFile
  reported := false

/-- A read of one buffer at `offset` brings any number of bytes that fit and are there. -/
def Brings (cfg : Config) (content : Bytes) (offset : ℕ) (res : ℤ) : Prop :=
  res ≤ cfg.fairAlignedSstablePageCacheBufferSize ∧ (0 < res → offset + res ≤ content.length)

instance (content : Bytes) (offset : ℕ) (res : ℤ) : Decidable (Brings cfg content offset res) :=
  inferInstanceAs (Decidable (_ ∧ _))

/-- The page cache after `res` bytes from `offset` on were read into buffer `j`. -/
def deliver (cfg : Config) (n j : ℕ) (content : Bytes) (offset : ℕ) (res : ℤ) (mem : Memory) :
    Memory :=
  store mem (bufferAddress cfg n j) ((content.drop offset).take res.toNat)

/-- One event.  One that cannot happen changes nothing. -/
def step (file : List (CacheBufferEntry cfg)) (n : ℕ) (s : Recovering cfg) :
    Event cfg → Except Fault (Recovering cfg)
  | .opened cqe =>
      if s.inFlight = some .openFile then
        .ok { s with
          table := { s.table with ring := s.table.ring ++ [cqe] }
          inFlight := none
          reported := true }
      else .ok s
  | .read res₀ res₁ =>
      match s.inFlight with
      | some (.initRead offset) =>
          let content := CacheBufferEntry.content file
          let offset₁ := offset + cfg.fairAlignedSstablePageCacheBufferSize
          if Brings cfg content offset res₀ ∧ Brings cfg content offset₁ res₁ then
            .ok { s with
              table := { s.table with ring := s.table.ring ++ [⟨0, res₀⟩, ⟨0, res₁⟩] }
              summary := { s.summary with
                mem := deliver cfg n 1 content offset₁ res₁
                  (deliver cfg n 0 content offset res₀ s.summary.mem) }
              inFlight := none
              reported := true }
          else .ok s
      | _ => .ok s
  | .handle i =>
      if s.reported then do
        let summary ← s.summary.handle n i s.table.ring
        let o := initHandler s.table
        pure { table := o.table, summary, inFlight := o.submitted.head?, reported := false }
      else .ok s
  | .others mem sparseIndex => .ok { s with summary := { s.summary with mem, sparseIndex } }

/-- The range of SSTable `n` in the sparse index. -/
def minEntered (n : ℕ) (s : Recovering cfg) : Bytes :=
  (s.summary.sparseIndex.getTableMinKey (n % cfg.levelFactor)).take cfg.keyLength

def maxEntered (n : ℕ) (s : Recovering cfg) : Bytes :=
  (s.summary.sparseIndex.getTableMaxKey (n % cfg.levelFactor)).take cfg.keyLength

/-- `insert_range` is called when the message is handled. -/
def Enters (s : Recovering cfg) : Prop := 0 < (initHandler s.table).counted

/-- What the handling of a message, which leads from `s` to `s'`, has to achieve. -/
structure Rebuilt (file : List (CacheBufferEntry cfg)) (n : ℕ) (s s' : Recovering cfg) : Prop where
  records : s'.summary.mem = s.summary.mem
  range : s.Enters → CacheBufferEntry.liveKeys file ≠ [] →
    (s'.minEntered n ∈ CacheBufferEntry.liveKeys file ∧
      ∀ key ∈ CacheBufferEntry.liveKeys file, memcmp (s'.minEntered n) key ≠ .gt) ∧
    (s'.maxEntered n ∈ CacheBufferEntry.liveKeys file ∧
      ∀ key ∈ CacheBufferEntry.liveKeys file, memcmp key (s'.maxEntered n) ≠ .gt)
  filter : s.Enters → ∀ key ∈ CacheBufferEntry.liveKeys file, s'.summary.filter.Holds cfg key

/-- The handling of a message has an outcome, leaves the records in the page cache alone and, where
it enters a range, enters the right one and has inserted the keys. -/
def Rebuilds (file : List (CacheBufferEntry cfg)) (n : ℕ) (s : Recovering cfg) : Event cfg → Prop
  | .handle i => s.reported = true →
      ∃ s', step file n s (.handle i) = .ok s' ∧ Rebuilt file n s s'
  | _ => True

/-- The string at `p` can be inserted in the filter. -/
def Insertable (cfg : Config) (mem : Memory) (p : ℕ) : Prop :=
  ∃ str bits, cStringAt mem sizeMax p = .ok str ∧ Filter.bitsOf cfg str = .ok bits

/-- A scan of `num` times the record at `p` leaves the page cache as it was: the record is a
tombstone, or its key is one of the two sentinels, which replace each other an even number of
times. -/
def Spared (cfg : Config) (mem : Memory) (p num : ℕ) : Prop :=
  bytesAt mem (p + cfg.keyLength) cfg.valueLength = tombstone cfg ∨
    (bytesAt mem p cfg.keyLength = greatestKey cfg ∨ bytesAt mem p cfg.keyLength = nullKey cfg) ∧
      Even num ∧ Insertable cfg (store mem p (greatestKey cfg)) p ∧
      Insertable cfg (store mem p (nullKey cfg)) p

/-- The condition on one event: a message is handled only if all records that are looked at are
spared, and enters a range only if no record of the file is live. -/
def Spares (file : List (CacheBufferEntry cfg)) (n : ℕ) (s : Recovering cfg) : Event cfg → Prop
  | .handle i => s.reported = true →
      (s.Enters → CacheBufferEntry.liveKeys file = []) ∧
      ∀ half ∈ halves s.table.ring, 0 < numEntries cfg half.2 →
        Spared cfg s.summary.mem (recordAddress cfg n half.1 i) (numEntries cfg half.2)
  | _ => True

end Recovering

/-! ## A scan overwrites the key -/

@[simp] theorem length_greatestKey : (greatestKey cfg).length = cfg.keyLength := by
  simp [greatestKey]

@[simp] theorem length_nullKey : (nullKey cfg).length = cfg.keyLength := by simp [nullKey]

theorem greatestKey_ne_nullKey : greatestKey cfg ≠ nullKey cfg := by
  intro h
  have hpos := cfg.keyLength_pos
  have hhead := congrArg (fun key => key[0]?) h
  simp [greatestKey, nullKey, nulBytes, hpos] at hhead

/-- The sentinel that the scan leaves in the place of a key: the greatest one for the smallest, the
smallest one for any other. -/
def sentinelFor (cfg : Config) (key : Bytes) : Bytes :=
  if key = nullKey cfg then greatestKey cfg else nullKey cfg

@[simp] theorem length_sentinelFor (key : Bytes) :
    (sentinelFor cfg key).length = cfg.keyLength := by
  unfold sentinelFor
  split_ifs
  · exact length_greatestKey
  · exact length_nullKey

@[simp] theorem sentinelFor_nullKey : sentinelFor cfg (nullKey cfg) = greatestKey cfg := if_pos rfl

@[simp] theorem sentinelFor_greatestKey : sentinelFor cfg (greatestKey cfg) = nullKey cfg :=
  if_neg greatestKey_ne_nullKey

theorem sentinelFor_eq (key : Bytes) :
    sentinelFor cfg key = greatestKey cfg ∨ sentinelFor cfg key = nullKey cfg := by
  unfold sentinelFor
  split_ifs
  · exact .inl rfl
  · exact .inr rfl

theorem length_sentinelFor_iterate {key : Bytes} (h : key.length = cfg.keyLength) (num : ℕ) :
    ((sentinelFor cfg)^[num] key).length = cfg.keyLength := by
  cases num with
  | zero => exact h
  | succ num =>
      rw [Function.iterate_succ_apply']
      exact length_sentinelFor _

/-- A key that a positive number of replacements leaves as it was is a sentinel, and the number is
even. -/
theorem sentinelFor_iterate {key : Bytes} {num : ℕ} (hnum : 0 < num)
    (h : (sentinelFor cfg)^[num] key = key) :
    (key = greatestKey cfg ∨ key = nullKey cfg) ∧ Even num := by
  have hkey : key = greatestKey cfg ∨ key = nullKey cfg := by
    rcases Nat.exists_eq_succ_of_ne_zero hnum.ne' with ⟨m, rfl⟩
    rw [Function.iterate_succ_apply'] at h
    rw [← h]
    exact sentinelFor_eq _
  have htwice : (sentinelFor cfg)^[2] key = key := by
    rcases hkey with rfl | rfl <;> simp
  refine ⟨hkey, Nat.not_odd_iff_even.1 fun hodd => ?_⟩
  -- an odd number of replacements is as good as one
  rcases hodd with ⟨r, rfl⟩
  rw [← Nat.succ_eq_add_one, Function.iterate_succ_apply', Function.iterate_mul,
    Function.iterate_fixed htwice] at h
  rcases hkey with rfl | rfl
  · rw [sentinelFor_greatestKey] at h
    exact greatestKey_ne_nullKey h.symm
  · rw [sentinelFor_nullKey] at h
    exact greatestKey_ne_nullKey h

namespace Summary

variable {s s' : Summary cfg} {p num : ℕ}

/-- The keys are still what the first visit made them. -/
structure Sentinels (s : Summary cfg) : Prop where
  minKey : s.minKey = greatestKey cfg
  maxKey : s.maxKey = nullKey cfg

/-- The value of the record at `p` is not the tombstone. -/
def LiveAt (s : Summary cfg) (p : ℕ) : Prop :=
  bytesAt s.mem (p + cfg.keyLength) cfg.valueLength ≠ tombstone cfg

/-- The page cache after a live record at `p` was scanned. -/
def scanned (s : Summary cfg) (p : ℕ) : Memory :=
  store s.mem p (sentinelFor cfg (bytesAt s.mem p cfg.keyLength))

theorem scanRecord_tombstone (h : ¬ s.LiveAt p) : s.scanRecord p = .ok s :=
  if_pos (memcmp_eq_iff.2 (not_not.1 h))

/-- The two copies into the record come to one. -/
theorem scanRecord_live (hs : s.Sentinels) (h : s.LiveAt p) :
    s.scanRecord p = (do
      let str ← cStringAt (s.scanned p) sizeMax p
      let filter ← s.filter.insertKey cfg str
      pure { s with filter, mem := s.scanned p }) := by
  have hne : memcmp (bytesAt s.mem (p + cfg.keyLength) cfg.valueLength) (tombstone cfg) ≠ .eq :=
    fun heq => h (memcmp_eq_iff.1 heq)
  have hlen : (bytesAt s.mem p cfg.keyLength).length = cfg.keyLength := length_bytesAt ..
  have hmem : (if memcmp (bytesAt s.mem p cfg.keyLength) s.maxKey = .gt then
      store (if memcmp (bytesAt s.mem p cfg.keyLength) s.minKey = .lt then store s.mem p s.minKey
        else s.mem) p s.maxKey
      else if memcmp (bytesAt s.mem p cfg.keyLength) s.minKey = .lt then store s.mem p s.minKey
      else s.mem) = s.scanned p := by
    rw [scanned, hs.minKey, hs.maxKey]
    by_cases hnull : bytesAt s.mem p cfg.keyLength = nullKey cfg
    · have hlt : memcmp (nullKey cfg) (greatestKey cfg) = .lt :=
        memcmp_nulBytes_lt length_greatestKey greatestKey_ne_nullKey
      rw [hnull, memcmp_self, if_neg (by decide), if_pos hlt, sentinelFor_nullKey]
    · have hgt : memcmp (bytesAt s.mem p cfg.keyLength) (nullKey cfg) = .gt :=
        memcmp_nulBytes_gt hlen hnull
      rw [if_pos hgt, sentinelFor, if_neg hnull]
      split_ifs
      · exact store_overwrite _ _ (by simp)
      · rfl
  rw [scanRecord, if_neg hne]
  simp only [hmem]

/-- **One pass over a live record** has an outcome if the string that begins with the sentinel can
be inserted, and then nothing but the filter and the key has changed. -/
theorem scanRecord_live_iff (hs : s.Sentinels) (h : s.LiveAt p) :
    (∃ s', s.scanRecord p = .ok s') ↔ Recovering.Insertable cfg (s.scanned p) p := by
  rw [scanRecord_live hs h]
  constructor
  · rintro ⟨s', hs'⟩
    rcases bind_eq_ok.1 hs' with ⟨str, hstr, hrest⟩
    rcases bind_eq_ok.1 hrest with ⟨filter, hfilter, -⟩
    rcases bind_eq_ok.1 hfilter with ⟨bits, hbits, -⟩
    exact ⟨str, bits, hstr, hbits⟩
  · rintro ⟨str, bits, hstr, hbits⟩
    exact ⟨_, bind_eq_ok.2 ⟨str, hstr, bind_eq_ok.2 ⟨_, bind_eq_ok.2 ⟨bits, hbits, rfl⟩, rfl⟩⟩⟩

theorem scanRecord_live_ok (hs : s.Sentinels) (h : s.LiveAt p) (hok : s.scanRecord p = .ok s') :
    s'.Sentinels ∧ s'.sparseIndex = s.sparseIndex ∧ s'.mem = s.scanned p := by
  rw [scanRecord_live hs h] at hok
  rcases bind_eq_ok.1 hok with ⟨str, -, hrest⟩
  rcases bind_eq_ok.1 hrest with ⟨filter, -, hs'⟩
  cases hs'
  exact ⟨⟨hs.minKey, hs.maxKey⟩, rfl, rfl⟩

/-- The record is as live as before, with the sentinel for a key. -/
theorem bytesAt_scanned (s : Summary cfg) (p : ℕ) :
    bytesAt (s.scanned p) p cfg.keyLength = sentinelFor cfg (bytesAt s.mem p cfg.keyLength) ∧
      bytesAt (s.scanned p) (p + cfg.keyLength) cfg.valueLength
        = bytesAt s.mem (p + cfg.keyLength) cfg.valueLength := by
  have hlen : (sentinelFor cfg (bytesAt s.mem p cfg.keyLength)).length = cfg.keyLength :=
    length_sentinelFor _
  constructor
  · have hself := bytesAt_store_self s.mem p (sentinelFor cfg (bytesAt s.mem p cfg.keyLength))
    rwa [hlen] at hself
  · exact bytesAt_store_disjoint (.inr (by rw [hlen]))

theorem scanRecord_liveAt (hs : s.Sentinels) (h : s.LiveAt p) (hok : s.scanRecord p = .ok s') :
    s'.LiveAt p := by
  rw [LiveAt, (scanRecord_live_ok hs h hok).2.2, (bytesAt_scanned s p).2]
  exact h

/-- **A whole scan** replaces the key as often as it passes over the record. -/
theorem scanRecords_live_ok (hs : s.Sentinels) (h : s.LiveAt p)
    (hok : scanRecords p num s = .ok s') :
    s'.Sentinels ∧ s'.sparseIndex = s.sparseIndex ∧
      s'.mem = store s.mem p ((sentinelFor cfg)^[num] (bytesAt s.mem p cfg.keyLength)) := by
  induction num generalizing s with
  | zero =>
      cases hok
      exact ⟨hs, rfl, (store_bytesAt _ _ _).symm⟩
  | succ num ih =>
      rcases bind_eq_ok.1 hok with ⟨s₁, hs₁, hrest⟩
      rcases scanRecord_live_ok hs h hs₁ with ⟨hsent, hindex, hmem⟩
      rcases ih hsent (scanRecord_liveAt hs h hs₁) hrest with ⟨hsent', hindex', hmem'⟩
      refine ⟨hsent', hindex'.trans hindex, ?_⟩
      rw [hmem', hmem, (bytesAt_scanned s p).1, ← Function.iterate_succ_apply, scanned]
      refine store_overwrite _ _ ?_
      rw [length_sentinelFor, length_sentinelFor_iterate (length_bytesAt ..)]

theorem scanRecords_tombstone (h : ¬ s.LiveAt p) : scanRecords p num s = .ok s := by
  induction num with
  | zero => rfl
  | succ num ih => exact bind_eq_ok.2 ⟨s, scanRecord_tombstone h, ih⟩

/-- A scan changes nothing but one key in the page cache. -/
theorem scanRecords_ok (hs : s.Sentinels) (hok : scanRecords p num s = .ok s') :
    s'.Sentinels ∧ s'.sparseIndex = s.sparseIndex ∧
      ∃ key, key.length = cfg.keyLength ∧ s'.mem = store s.mem p key := by
  by_cases h : s.LiveAt p
  · rcases scanRecords_live_ok hs h hok with ⟨hsent, hindex, hmem⟩
    exact ⟨hsent, hindex, _, length_sentinelFor_iterate (length_bytesAt ..) num, hmem⟩
  · rw [scanRecords_tombstone h] at hok
    cases hok
    exact ⟨hs, rfl, _, length_bytesAt .., (store_bytesAt _ _ _).symm⟩

/-- A second pass over a sentinel brings it back. -/
theorem scanned_scanRecord (hs : s.Sentinels) (h : s.LiveAt p)
    (hkey : bytesAt s.mem p cfg.keyLength = greatestKey cfg ∨
      bytesAt s.mem p cfg.keyLength = nullKey cfg)
    (hok : s.scanRecord p = .ok s') : s'.scanned p = s.mem := by
  have htwice : sentinelFor cfg (sentinelFor cfg (bytesAt s.mem p cfg.keyLength))
      = bytesAt s.mem p cfg.keyLength := by
    rcases hkey with hkey | hkey <;> simp [hkey]
  rw [scanned, (scanRecord_live_ok hs h hok).2.2, (bytesAt_scanned s p).1, htwice, scanned,
    store_overwrite _ _ (by simp), store_bytesAt]

/-- Two passes over a sentinel are possible if both sentinels can be inserted. -/
theorem scanRecords_two (hs : s.Sentinels) (h : s.LiveAt p)
    (hkey : bytesAt s.mem p cfg.keyLength = greatestKey cfg ∨
      bytesAt s.mem p cfg.keyLength = nullKey cfg) :
    (∃ s', scanRecords p 2 s = .ok s') ↔
      Recovering.Insertable cfg (store s.mem p (greatestKey cfg)) p ∧
        Recovering.Insertable cfg (store s.mem p (nullKey cfg)) p := by
  have hpair : (∃ s', scanRecords p 2 s = .ok s') ↔
      Recovering.Insertable cfg (s.scanned p) p ∧ Recovering.Insertable cfg s.mem p := by
    constructor
    · rintro ⟨s', hok⟩
      rcases bind_eq_ok.1 hok with ⟨s₁, hs₁, hrest⟩
      rcases bind_eq_ok.1 hrest with ⟨s₂, hs₂, -⟩
      have hsecond := (scanRecord_live_iff (scanRecord_live_ok hs h hs₁).1
        (scanRecord_liveAt hs h hs₁)).1 ⟨s₂, hs₂⟩
      rw [scanned_scanRecord hs h hkey hs₁] at hsecond
      exact ⟨(scanRecord_live_iff hs h).1 ⟨s₁, hs₁⟩, hsecond⟩
    · rintro ⟨hfirst, hsecond⟩
      rcases (scanRecord_live_iff hs h).2 hfirst with ⟨s₁, hs₁⟩
      rw [← scanned_scanRecord hs h hkey hs₁] at hsecond
      rcases (scanRecord_live_iff (scanRecord_live_ok hs h hs₁).1
        (scanRecord_liveAt hs h hs₁)).2 hsecond with ⟨s₂, hs₂⟩
      exact ⟨s₂, bind_eq_ok.2 ⟨s₁, hs₁, bind_eq_ok.2 ⟨s₂, hs₂, rfl⟩⟩⟩
  -- the page cache holds one of the sentinels before the first pass and the other after it
  have hmem := store_bytesAt s.mem p cfg.keyLength
  rw [hpair, scanned]
  rcases hkey with hkey | hkey
  · rw [hkey] at hmem ⊢
    rw [sentinelFor_greatestKey, hmem]
    exact and_comm
  · rw [hkey] at hmem ⊢
    rw [sentinelFor_nullKey, hmem]

theorem scanRecords_add (p k num : ℕ) (s : Summary cfg) :
    scanRecords p (k + num) s = (scanRecords p k s >>= scanRecords p num) := by
  induction k generalizing s with
  | zero => simp [scanRecords, bind, Except.bind]
  | succ k ih =>
      rw [Nat.succ_add, scanRecords, scanRecords]
      cases s.scanRecord p with
      | error f => rfl
      | ok s₁ => exact ih s₁

/-- As many passes as one likes, two at a time. -/
theorem scanRecords_even (hs : s.Sentinels) (h : s.LiveAt p)
    (hkey : bytesAt s.mem p cfg.keyLength = greatestKey cfg ∨
      bytesAt s.mem p cfg.keyLength = nullKey cfg)
    (hgreatest : Recovering.Insertable cfg (store s.mem p (greatestKey cfg)) p)
    (hnull : Recovering.Insertable cfg (store s.mem p (nullKey cfg)) p) (r : ℕ) :
    ∃ s', scanRecords p (2 * r) s = .ok s' ∧ s'.mem = s.mem := by
  induction r generalizing s with
  | zero => exact ⟨s, rfl, rfl⟩
  | succ r ih =>
      rcases (scanRecords_two hs h hkey).2 ⟨hgreatest, hnull⟩ with ⟨s₁, hs₁⟩
      rcases scanRecords_live_ok hs h hs₁ with ⟨hsent, -, hmem⟩
      have hsame : s₁.mem = s.mem := by
        rw [hmem]
        rcases hkey with hkey | hkey
        · simpa [hkey] using store_bytesAt s.mem p cfg.keyLength
        · simpa [hkey] using store_bytesAt s.mem p cfg.keyLength
      rcases ih hsent (by rwa [LiveAt, hsame]) (by rwa [hsame]) (by rwa [hsame]) (by rwa [hsame])
        with ⟨s', hs', hmem'⟩
      refine ⟨s', ?_, hmem'.trans hsame⟩
      rw [show 2 * (r + 1) = 2 + 2 * r by omega, scanRecords_add]
      exact bind_eq_ok.2 ⟨s₁, hs₁, hs'⟩

/-- **When a scan leaves the page cache as it was.** -/
theorem scanRecords_iff (hs : s.Sentinels) :
    (∃ s', scanRecords p num s = .ok s' ∧ s'.mem = s.mem) ↔
      (0 < num → Recovering.Spared cfg s.mem p num) := by
  constructor
  · rintro ⟨s', hok, hmem⟩ hnum
    by_cases h : s.LiveAt p
    · right
      have hstore := (scanRecords_live_ok hs h hok).2.2
      have hfix : (sentinelFor cfg)^[num] (bytesAt s.mem p cfg.keyLength)
          = bytesAt s.mem p cfg.keyLength := by
        have hself := bytesAt_store_self s.mem p
          ((sentinelFor cfg)^[num] (bytesAt s.mem p cfg.keyLength))
        rw [length_sentinelFor_iterate (length_bytesAt ..), ← hstore, hmem] at hself
        exact hself.symm
      rcases sentinelFor_iterate hnum hfix with ⟨hkey, heven⟩
      refine ⟨hkey, heven, ?_⟩
      rcases heven with ⟨r, rfl⟩
      rw [show r + r = 2 + (2 * (r - 1)) by omega, scanRecords_add] at hok
      rcases bind_eq_ok.1 hok with ⟨s₁, hs₁, -⟩
      exact (scanRecords_two hs h hkey).1 ⟨s₁, hs₁⟩
    · exact .inl (not_not.1 h)
  · intro hspared
    by_cases hnum : 0 < num
    · rcases hspared hnum with htomb | ⟨hkey, ⟨r, rfl⟩, hgreatest, hnull⟩
      · exact ⟨s, scanRecords_tombstone (not_not.2 htomb), rfl⟩
      · by_cases h : s.LiveAt p
        · rw [← Nat.two_mul]
          exact scanRecords_even hs h hkey hgreatest hnull r
        · exact ⟨s, scanRecords_tombstone h, rfl⟩
    · rw [Nat.eq_zero_of_not_pos hnum]
      exact ⟨s, rfl, rfl⟩

/-! ## The two completions of a message -/

variable {n i : ℕ} {half : ℕ × ℤ}

/-- No records are counted in a result that is not positive. -/
theorem numEntries_of_nonpos {res : ℤ} (h : ¬ 0 < res) : numEntries cfg res = 0 := by
  rw [numEntries, Int.toNat_of_nonpos (not_lt.1 h), Nat.zero_div, Nat.zero_mod]

/-- The records are scanned, and then the range is entered. -/
theorem readHalf_eq (n i : ℕ) (s : Summary cfg) (half : ℕ × ℤ) :
    s.readHalf n i half =
      (scanRecords (recordAddress cfg n half.1 i) (numEntries cfg half.2) s
        >>= enterRange n half.2) := by
  rw [readHalf]
  by_cases hpos : 0 < half.2
  · rw [if_pos hpos]
  · rw [if_neg hpos, numEntries_of_nonpos hpos]
    rfl

/-- SSTable `n` is entered with the sentinels. -/
def EntersSentinels (n : ℕ) (s : Summary cfg) : Prop :=
  (s.sparseIndex.getTableMinKey (n % cfg.levelFactor)).take cfg.keyLength = greatestKey cfg ∧
    (s.sparseIndex.getTableMaxKey (n % cfg.levelFactor)).take cfg.keyLength = nullKey cfg

theorem enterRange_spec (hs : s.Sentinels) (n : ℕ) (res : ℤ) :
    ∃ s', s.enterRange n res = .ok s' ∧ s'.Sentinels ∧ s'.mem = s.mem ∧
      (cfg.short res → s'.EntersSentinels n) ∧
      (¬ cfg.short res → s'.sparseIndex = s.sparseIndex) := by
  by_cases hshort : cfg.short res
  · have hmin : s.minKey.length = cfg.keyLength := by rw [hs.minKey, length_greatestKey]
    have hmax : s.maxKey.length = cfg.keyLength := by rw [hs.maxKey, length_nullKey]
    rcases s.sparseIndex.insertRange_spec hmin hmax (Nat.mod_lt n cfg.levelFactor_pos)
      with ⟨ix, hix, hread⟩
    rw [hs.minKey, hs.maxKey] at hread
    refine ⟨{ s with sparseIndex := ix }, ?_, ⟨hs.minKey, hs.maxKey⟩, rfl, fun _ => hread,
      fun h => absurd hshort h⟩
    rw [enterRange, if_pos hshort]
    exact bind_eq_ok.2 ⟨ix, hix, rfl⟩
  · exact ⟨s, if_neg hshort, hs, rfl, fun h => absurd h hshort, fun _ => rfl⟩

/-- **What one completion does.** -/
theorem readHalf_ok (hs : s.Sentinels) (hok : s.readHalf n i half = .ok s') :
    s'.Sentinels ∧ (cfg.short half.2 → s'.EntersSentinels n) ∧
      (¬ cfg.short half.2 → s'.sparseIndex = s.sparseIndex) ∧
      ∃ key, key.length = cfg.keyLength ∧
        s'.mem = store s.mem (recordAddress cfg n half.1 i) key := by
  rw [readHalf_eq] at hok
  rcases bind_eq_ok.1 hok with ⟨s₁, hscan, henter⟩
  rcases scanRecords_ok hs hscan with ⟨hsent, hindex, hkey⟩
  rcases enterRange_spec hsent n half.2 with ⟨s₂, henter₂, hsent₂, hmem₂, hshort, hlong⟩
  rw [henter] at henter₂
  cases henter₂
  exact ⟨hsent₂, hshort, fun h => (hlong h).trans hindex, by rwa [hmem₂]⟩

/-- One completion leaves the page cache as it was exactly if its scan does. -/
theorem readHalf_iff (hs : s.Sentinels) (n i : ℕ) (half : ℕ × ℤ) :
    (∃ s', s.readHalf n i half = .ok s' ∧ s'.mem = s.mem) ↔
      (0 < numEntries cfg half.2 → Recovering.Spared cfg s.mem (recordAddress cfg n half.1 i)
        (numEntries cfg half.2)) := by
  rw [readHalf_eq, ← scanRecords_iff hs]
  constructor
  · rintro ⟨s', hok, hmem⟩
    rcases bind_eq_ok.1 hok with ⟨s₁, hscan, henter⟩
    rcases enterRange_spec (scanRecords_ok hs hscan).1 n half.2 with ⟨s₂, henter₂, -, hmem₂, -⟩
    rw [henter] at henter₂
    cases henter₂
    exact ⟨s₁, hscan, hmem₂.symm.trans hmem⟩
  · rintro ⟨s₁, hscan, hmem⟩
    rcases enterRange_spec (scanRecords_ok hs hscan).1 n half.2 with ⟨s', henter, -, hmem', -⟩
    exact ⟨s', bind_eq_ok.2 ⟨s₁, hscan, henter⟩, hmem'.trans hmem⟩

/-- The handling of two completions. -/
theorem handle_pair {c₀ c₁ : Cqe} {rest : List Cqe} (n i : ℕ) (s : Summary cfg) :
    s.handle n i (c₀ :: c₁ :: rest)
      = (s.readHalf n i (0, c₀.res) >>= fun s₁ => s₁.readHalf n i (1, c₁.res)) := by
  simp [handle, halves]

/-- The range that is entered is that of the sentinels, whichever of the two results is short. -/
theorem handle_enters (hs : s.Sentinels) {ring : List Cqe} (hok : s.handle n i ring = .ok s')
    (hshort : ∃ half ∈ halves ring, cfg.short half.2) : s'.EntersSentinels n := by
  rcases ring with _ | ⟨c₀, _ | ⟨c₁, rest⟩⟩
  · simp [halves] at hshort
  · simp [halves] at hshort
  · rw [handle_pair] at hok
    rcases bind_eq_ok.1 hok with ⟨s₁, hok₁, hok₂⟩
    rcases readHalf_ok hs hok₁ with ⟨hsent, henters₁, -⟩
    rcases readHalf_ok hsent hok₂ with ⟨-, henters₂, hindex, -⟩
    by_cases h₁ : cfg.short c₁.res
    · exact henters₂ h₁
    · have h₀ : cfg.short c₀.res := by simpa [halves, h₁] using hshort
      rw [EntersSentinels, hindex h₁]
      exact henters₁ h₀

theorem handle_sentinels (hs : s.Sentinels) {ring : List Cqe}
    (hok : s.handle n i ring = .ok s') : s'.Sentinels := by
  rcases ring with _ | ⟨c₀, _ | ⟨c₁, rest⟩⟩
  · cases hok
    exact hs
  · cases hok
    exact hs
  · rw [handle_pair] at hok
    rcases bind_eq_ok.1 hok with ⟨s₁, hok₁, hok₂⟩
    exact (readHalf_ok (readHalf_ok hs hok₁).1 hok₂).1

/-- The record lengths divide the buffers, so a buffer that is not empty has room for a key. -/
theorem keyLength_le_bufferSize (h : 0 < cfg.fairAlignedSstablePageCacheBufferSize) :
    cfg.keyLength ≤ cfg.fairAlignedSstablePageCacheBufferSize := by
  have hdvd : cfg.memtableEntryLength ∣ cfg.fairAlignedSstablePageCacheBufferSize :=
    (Nat.dvd_lcm_right _ _).trans (Nat.dvd_lcm_left _ _)
  exact (Nat.le_add_right _ _).trans (Nat.le_of_dvd h hdvd)

/-- The second completion cannot bring back what the scan for the first one overwrote. -/
theorem readHalf_second {s₁ : Summary cfg} {res₀ res₁ : ℤ} (hs : s.Sentinels)
    (hres : res₁ ≤ cfg.fairAlignedSstablePageCacheBufferSize)
    (hok₀ : s.readHalf n i (0, res₀) = .ok s₁) (hok₁ : s₁.readHalf n i (1, res₁) = .ok s')
    (hmem : s'.mem = s.mem) : s₁.mem = s.mem := by
  rcases readHalf_ok hs hok₀ with ⟨hsent, -, -, key₀, hlen₀, hmem₀⟩
  by_cases hnum : 0 < numEntries cfg res₁
  · rcases readHalf_ok hsent hok₁ with ⟨-, -, -, key₁, hlen₁, hmem₁⟩
    have hpos : 0 < res₁ := by
      by_contra h
      rw [numEntries_of_nonpos h] at hnum
      exact absurd hnum (Nat.lt_irrefl 0)
    have hsize : 0 < cfg.fairAlignedSstablePageCacheBufferSize := by omega
    have hkey := keyLength_le_bufferSize hsize
    have hdis : recordAddress cfg n 0 i + cfg.keyLength ≤ recordAddress cfg n 1 i := by
      simp only [recordAddress, bufferAddress, Nat.add_zero, Nat.mul_add, Nat.mul_one]
      omega
    have hsame : bytesAt s.mem (recordAddress cfg n 0 i) cfg.keyLength = key₀ := by
      rw [← hmem, hmem₁, bytesAt_store_disjoint (.inl hdis), hmem₀, ← hlen₀]
      exact bytesAt_store_self ..
    rw [hmem₀, ← hsame, store_bytesAt]
  · rcases (readHalf_iff hsent n i (1, res₁)).2 fun h => absurd h hnum with ⟨s₂, hok₂, hmem₂⟩
    rw [hok₁] at hok₂
    cases hok₂
    exact hmem₂.symm.trans hmem

/-- **When the handling of a message leaves the page cache as it was.** -/
theorem handle_iff (hs : s.Sentinels) {ring : List Cqe}
    (hring : ∀ c ∈ ring.tail, c.res ≤ cfg.fairAlignedSstablePageCacheBufferSize) :
    (∃ s', s.handle n i ring = .ok s' ∧ s'.mem = s.mem) ↔
      ∀ half ∈ halves ring, 0 < numEntries cfg half.2 →
        Recovering.Spared cfg s.mem (recordAddress cfg n half.1 i) (numEntries cfg half.2) := by
  rcases ring with _ | ⟨c₀, _ | ⟨c₁, rest⟩⟩
  · exact iff_of_true ⟨s, rfl, rfl⟩ (by simp [halves])
  · exact iff_of_true ⟨s, rfl, rfl⟩ (by simp [halves])
  · rw [handle_pair]
    constructor
    · rintro ⟨s', hok, hmem⟩
      rcases bind_eq_ok.1 hok with ⟨s₁, hok₀, hok₁⟩
      have hmem₀ := readHalf_second hs (hring c₁ (by simp)) hok₀ hok₁ hmem
      have h₀ := (readHalf_iff hs n i _).1 ⟨s₁, hok₀, hmem₀⟩
      have h₁ := (readHalf_iff (readHalf_ok hs hok₀).1 n i _).1
        ⟨s', hok₁, hmem.trans hmem₀.symm⟩
      rw [hmem₀] at h₁
      simpa [halves] using ⟨h₀, h₁⟩
    · intro h
      simp only [halves, List.forall_mem_cons, List.not_mem_nil, false_implies, implies_true,
        and_true] at h
      rcases (readHalf_iff hs n i (0, c₀.res)).2 h.1 with ⟨s₁, hok₀, hmem₀⟩
      have h₁ := h.2
      rw [← hmem₀] at h₁
      rcases (readHalf_iff (readHalf_ok hs hok₀).1 n i (1, c₁.res)).2 h₁ with ⟨s', hok₁, hmem₁⟩
      exact ⟨s', bind_eq_ok.2 ⟨s₁, hok₀, hok₁⟩, hmem₁.trans hmem₀⟩

end Summary

namespace Recovering

variable {file : List (CacheBufferEntry cfg)} {n : ℕ} {s s' : Recovering cfg} {e : Event cfg}

/-! ## Every run -/

/-- The keys are the sentinels all along, only the opening of the file comes before the reads, and
no read brings more than a buffer. -/
structure Initial (s : Recovering cfg) : Prop where
  sentinels : s.summary.Sentinels
  opening : s.inFlight = some .openFile → s.table.ring = []
  results : ∀ c ∈ s.table.ring.tail, c.res ≤ cfg.fairAlignedSstablePageCacheBufferSize

theorem initial_start (slots : Stack cfg.maxSstableHeight) : (start slots).Initial := by
  have hring : (start slots).table.ring = [] := by
    simp only [start, openTable]
    split_ifs <;> rfl
  exact ⟨⟨rfl, rfl⟩, fun _ => hring, by simp [hring]⟩

/-- **Every event** keeps the invariant. -/
theorem Initial.step (h : s.Initial) (hstep : s.step file n e = .ok s') : s'.Initial := by
  cases e with
  | opened cqe =>
      simp only [Recovering.step] at hstep
      split_ifs at hstep with hopen
      · cases hstep
        exact ⟨h.sentinels, by simp, by simp [h.opening hopen]⟩
      · cases hstep
        exact h
  | read res₀ res₁ =>
      simp only [Recovering.step] at hstep
      split at hstep
      · split_ifs at hstep with hbrings
        · cases hstep
          refine ⟨⟨h.sentinels.minKey, h.sentinels.maxKey⟩, by simp, fun c hc => ?_⟩
          have hmem : c ∈ s.table.ring.tail ∨ c = ⟨0, res₀⟩ ∨ c = ⟨0, res₁⟩ := by
            cases hring : s.table.ring with
            | nil => simp_all
            | cons c₀ rest => simpa [hring] using hc
          rcases hmem with hc' | rfl | rfl
          · exact h.results c hc'
          · exact hbrings.1.1
          · exact hbrings.2.1
        · cases hstep
          exact h
      · cases hstep
        exact h
  | handle i =>
      simp only [Recovering.step] at hstep
      split_ifs at hstep
      · rcases bind_eq_ok.1 hstep with ⟨summary, hsummary, hs'⟩
        cases hs'
        refine ⟨Summary.handle_sentinels h.sentinels hsummary, fun hopen => ?_, ?_⟩
        · have hread := (initHandler_outcome s.table).submitted _ (List.mem_of_mem_head? hopen)
          simp [ChainKind.isInitRead] at hread
        · rw [initHandler_ring]
          exact h.results
      · cases hstep
        exact h
  | others mem sparseIndex =>
      cases hstep
      exact ⟨⟨h.sentinels.minKey, h.sentinels.maxKey⟩, h.opening, h.results⟩

/-- Only a result of less than a buffer has a range entered. -/
theorem Enters.short (h : s.Enters) : ∃ half ∈ halves s.table.ring, cfg.short half.2 := by
  rcases exists_ring_of_counted (Nat.pos_iff_ne_zero.1 h) with ⟨c₀, c₁, rest, hring⟩
  rw [hring]
  by_contra hnone
  simp only [halves, List.mem_cons, List.not_mem_nil, or_false, exists_eq_or_imp, exists_eq_left,
    not_or] at hnone
  rw [Enters, initHandler_uncounted hring hnone.1 hnone.2] at h
  exact absurd h (Nat.lt_irrefl 0)

/-- The sentinels are the range of no set of keys: the least key of one would be above the greatest
one. -/
theorem not_range_sentinels {keys : List Bytes} (hgreatest : greatestKey cfg ∈ keys)
    (hle : ∀ key ∈ keys, memcmp key (nullKey cfg) ≠ .gt) : False :=
  hle _ hgreatest (memcmp_nulBytes_gt length_greatestKey greatestKey_ne_nullKey)

/-- **One event** rebuilds the summaries exactly if it meets the condition. -/
theorem Initial.rebuilds_iff_spares (h : s.Initial) :
    Rebuilds file n s e ↔ Spares file n s e := by
  cases e with
  | opened | read | others => exact Iff.rfl
  | handle i =>
      refine imp_congr_right fun hreported => ?_
      rw [← Summary.handle_iff h.sentinels h.results]
      constructor
      · rintro ⟨s', hstep, hrebuilt⟩
        simp only [Recovering.step, hreported, if_true] at hstep
        rcases bind_eq_ok.1 hstep with ⟨summary, hsummary, hs'⟩
        cases hs'
        refine ⟨fun henters => ?_, summary, hsummary, hrebuilt.records⟩
        by_contra hlive
        rcases Summary.handle_enters h.sentinels hsummary henters.short with ⟨hmin, hmax⟩
        rcases hrebuilt.range henters hlive with ⟨⟨hmem, -⟩, -, hle⟩
        simp only [minEntered, maxEntered, hmin, hmax] at hmem hle
        exact not_range_sentinels hmem hle
      · rintro ⟨hlive, summary, hsummary, hmem⟩
        refine ⟨{ table := (initHandler s.table).table, summary,
                   inFlight := (initHandler s.table).submitted.head?, reported := false },
          ?_, ⟨hmem, ?_, ?_⟩⟩
        · simp only [Recovering.step, hreported, if_true]
          exact bind_eq_ok.2 ⟨summary, hsummary, rfl⟩
        · intro henters hne
          exact absurd (hlive henters) hne
        · intro henters key hkey
          rw [hlive henters] at hkey
          cases hkey

end Recovering

/-- **What recovery rebuilds.**  For every file and every run, with reads of any lengths, everything
else that happens in the page cache, and messages handled at any point of the worker's loop: every
message that is handled leaves the cached records unchanged and, where it enters the range of the
SSTable, enters the smallest and the largest live key and has inserted every live key, if and only
if no range is entered for a file with live records, and every record that is looked at is a
tombstone or a sentinel that is overwritten an even number of times. -/
theorem rebuilds_iff (file : List (CacheBufferEntry cfg)) (n : ℕ)
    (slots : Stack cfg.maxSstableHeight) (es : List (Recovering.Event cfg)) :
    AttemptsMeet (Recovering.step file n) (Recovering.Rebuilds file n) (.start slots) es
      ↔ AttemptsMeet (Recovering.step file n) (Recovering.Spares file n) (.start slots) es :=
  attemptsMeet_congr (fun _ _ _ h _ hstep => Recovering.Initial.step h hstep)
    (fun _ _ h => h.rebuilds_iff_spares) (Recovering.initial_start slots)

theorem twoFiftyFive_pos : 0 < 255 := by decide

/-- One SSTable on each of two levels, with buffers of two records of 256 bytes. -/
def twoRecordConfig : Config :=
  { pagedConfig with
    valueLength := 255
    numberBits := 78521
    valueLength_pos := twoFiftyFive_pos }

theorem length_liveValue : (97 :: nulBytes 254).length = twoRecordConfig.valueLength := by
  rw [List.length_cons, length_nulBytes]
  rfl

/-- A key of one byte with the value `"a"`. -/
def liveRecord (key : UInt8) : CacheBufferEntry twoRecordConfig where
  key := [key]
  value := 97 :: nulBytes 254
  length_key := List.length_singleton
  length_value := length_liveValue

/-- The keys from `"k"` to `"n"`. -/
def liveFile : List (CacheBufferEntry twoRecordConfig) := [107, 108, 109, 110].map liveRecord

/-- The file of SSTable 0 is opened under the descriptor 3, its first two buffers are filled, and
the message is handled when the worker is at SSTable 0. -/
def recoveryRun : List (Recovering.Event twoRecordConfig) :=
  [.opened ⟨0, 3⟩, .handle 0, .read 512 512]

/-- The range that is entered has `0xff` for the smallest key, not `"k"`. -/
theorem sentinels_entered :
    ¬ AttemptsMeet (Recovering.step liveFile 0) (Recovering.Rebuilds liveFile 0)
      (.start (Stack.zeroed _)) (recoveryRun ++ [.handle 0]) := by
  intro h
  have hread : okAnd (runEvents (Recovering.step liveFile 0)
      (.start (Stack.zeroed _)) recoveryRun)
      (fun s => s.reported && decide (0 < (initHandler s.table).counted) &&
        okAnd (Recovering.step liveFile 0 s (.handle 0))
          fun s' => s'.minEntered 0 == [255]) = true := by
    decide +kernel
  rcases okAnd_iff.1 hread with ⟨s, hs, htest⟩
  simp only [Bool.and_eq_true, decide_eq_true_eq] at htest
  rcases htest with ⟨⟨hreported, henters⟩, hhandle⟩
  rcases okAnd_iff.1 hhandle with ⟨s₁, hs₁, hmin⟩
  rcases h.next hs hreported with ⟨s', hs', hrebuilt⟩
  rw [hs₁] at hs'
  cases hs'
  have hmem := (hrebuilt.range henters (by decide +kernel)).1.1
  rw [beq_iff_eq.1 hmin] at hmem
  exact absurd hmem (by decide +kernel)

end Worker

end RingDB
