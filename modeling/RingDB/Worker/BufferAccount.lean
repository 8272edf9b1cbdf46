import RingDB.Worker.EventLoop
import RingDB.Worker.LastBuffer

/-!
# The account of the free buffers

Where the next read goes is told by `id_of_most_recently_selected_buffer`, whether there may be one
by `free_buffers_left`, and what the SSTable owns by `insert_buffers_from`.  Each of the calls that
move buffers changes some of the three, and each but `add_buffer` goes through the arrays of the
helper first.  The very first range is written through a pointer that was never set, so an account
that is right is one of an SSTable whose reads have brought nothing.

* `BufferAccount.step` — one event of an SSTable that is past initialization, over its helper.
* `Sound` — the free buffers are counted right, and every read goes into one of them.
* `Regular` — what the account is as long as it is right.
* **`account_iff`** — a run keeps its account if and only if each of its steps is `Sparing`.
-/

namespace RingDB

open Core

variable {α : Type} {cfg : Config}

/-- The ranges that a lookup can answer with: those in front of the cursor that are in a buffer. -/
def CacheHelper.held (h : CacheHelper cfg) : List CacheLocation :=
  (h.cacheLocations.take h.nextBuffer).reduceOption.filter (·.bufferId ≠ uintMax)

theorem CacheHelper.held_new {h : CacheHelper cfg}
    (hid : h.idOfMostRecentlySelectedBuffer = uintMax) : h.held = [] := by
  rw [held, nextBuffer_new hid]
  rfl

/-- An SSTable in the main loop: its helper, the buffers it owns and those on their way to it.
`reads` are the offsets and buffers of the reads that have not been entered, and `entered` the
results of those of the same chain that have. -/
structure BufferAccount (α : Type) (cfg : Config) where
  cache : CacheHelper cfg
  holding : Holding α
  queue : BufferQueue α
  reads : List (ℕ × ℕ) := []
  entered : List ℤ := []

namespace BufferAccount

section Model

inductive Event (α : Type) where
  /-- Buffers are pushed to its queue. -/
  | arrive (buffers : List α)
  /-- It has been idle. -/
  | upstream
  /-- It begins a batch of reads. -/
  | collect
  /-- It hands a batch to the next level, and so many of its old buffers. -/
  | handOver (given : ℕ)
  /-- The search is at `desired`, and the request on the stack is to be looked for at `offset`. -/
  | issue (desired : ℕ) (offset : UInt32)
  /-- The next read of the chain is entered. -/
  | complete (res : ℤ)

/-- The loop of `try_add_buffers_nonblockingly`, which stores every buffer to the same slot. -/
def addBuffers : ℕ → CacheHelper cfg → Holding α → BufferQueue α →
    Except Fault (CacheHelper cfg × Holding α × BufferQueue α)
  | 0, _, _, _ => .error .diverges
  | fuel + 1, c, h, q =>
      match q.front with
      | none => .ok (c, h, q)
      | some b =>
          if h.insertBuffersFrom < h.pageCacheBuffers.length then
            addBuffers fuel c.addBuffer
              { h with pageCacheBuffers := h.pageCacheBuffers.set h.insertBuffersFrom (some b) }
              q.popFront
          else .error .outOfBounds

/-- The loop of `insert_into_wqs` over the new buffers that are left. -/
def keepBuffers : ℕ → CacheHelper cfg → Holding α → BufferQueue α →
    Except Fault (CacheHelper cfg × Holding α × BufferQueue α)
  | 0, c, h, q => .ok (c, h, q)
  | k + 1, c, h, q =>
      if h.insertBuffersFrom < h.pageCacheBuffers.length then
        keepBuffers k c.addBuffer
          { pageCacheBuffers := h.pageCacheBuffers.set h.insertBuffersFrom q.front
            insertBuffersFrom := h.insertBuffersFrom + 1 }
          q.popFront
      else .error .outOfBounds

/-- `k` of its own buffers are given away, and then removed from the helper. -/
def giveAway (s : BufferAccount α cfg) (k : ℕ) : Except Fault (BufferAccount α cfg) :=
  if k = 0 then .ok s
  else do
    let (_, h) ← s.holding.takeBack k
    let h := h.advance
    let cache ← s.cache.removeBufferRange h.insertBuffersFrom s.holding.insertBuffersFrom
    pure { s with
      cache
      holding := h }

/-- The branch of the search for an offset that is in no buffer.  Without a free buffer the oldest
one is given up. -/
def issueReads (s : BufferAccount α cfg) (offset : ℕ) : Except Fault (BufferAccount α cfg) := do
  let cache ← (if s.cache.freeBuffersLeft = 0
    then s.cache.replenishLeastRecentlySelectedBuffer else pure s.cache)
  let reads := SSTableInfo.readsFor cache offset
  if ∀ r ∈ reads, r.2 < s.holding.pageCacheBuffers.length then
    pure { s with
      cache
      reads
      entered := [] }
  else .error .outOfBounds

/-- One event.  One that cannot happen changes nothing: an SSTable that waits for reads begins
nothing else, and a read behind one that brought nothing is cancelled. -/
def step (s : BufferAccount α cfg) : Event α → Except Fault (BufferAccount α cfg)
  | .arrive buffers => .ok { s with queue := s.queue.pushAll (buffers.map some) }
  | .upstream =>
      if s.reads ≠ [] then .ok s
      else if s.queue.numNewBuffers ≠ 0 then
        .ok { s with queue :=
          (BufferQueue.popMany (min cfg.maxSstableHeight s.queue.numNewBuffers) s.queue).2 }
      else
        giveAway
          { s with queue :=
            { s.queue with
              curNumBuffers := s.queue.curNumBuffers - Buffers.toGive cfg s.queue } }
          (Buffers.toGive cfg s.queue)
  | .collect =>
      if s.reads ≠ [] then .ok s
      else do
        let (cache, holding, queue) ←
          addBuffers (s.queue.queue.length + 1) s.cache s.holding s.queue
        pure { s with cache, holding, queue }
  | .handOver given =>
      let newLimit := if s.queue.numNewBuffers = 0 then 1 else s.queue.numNewBuffers
      if s.reads ≠ [] ∨ Buffers.oldBufferLimit cfg s.queue < given then .ok s
      else if cfg.maxSstableHeight < newLimit then .error .outOfBounds
      else do
        let q := (BufferQueue.popMany newLimit s.queue).2
        let (cache, holding, queue) ← keepBuffers q.numNewBuffers s.cache s.holding q
        giveAway { s with cache, holding, queue } given
  | .issue desired offset =>
      if s.reads ≠ [] ∨ s.cache.curMinInvalidOffset ≤ desired then .ok s
      else do
        let location ← s.cache.getBufferInfo offset.toNat
        if location.left = sizeMax then s.issueReads offset.toNat else pure s
  | .complete res =>
      match s.reads with
      | [] => .ok s
      | r :: rest =>
          if (∀ res' ∈ s.entered, 0 < res') ∨ res ≤ 0 then do
            let cache ← Worker.enterCompletion s.entered.length ⟨r.1, res⟩ s.cache
            pure { s with
              cache
              reads := rest
              entered := s.entered ++ [res] }
          else .ok s

variable (cfg) in
/-- An SSTable behind its initialization, with these buffers in its slots. -/
def opened (buffers : Fin cfg.maxBufferSetSize → Option α) : BufferAccount α cfg where
  cache := CacheHelper.addBuffer^[cfg.maxSstableHeight] (CacheHelper.new cfg)
  holding := ⟨List.ofFn buffers, cfg.maxSstableHeight⟩
  queue := BufferQueue.new α cfg

def bufferIds (s : BufferAccount α cfg) : List ℕ := s.cache.held.map CacheLocation.bufferId

/-- The buffers that are owned and not mapped. -/
def unmapped (s : BufferAccount α cfg) : List ℕ :=
  (List.range s.holding.insertBuffersFrom).filter (· ∉ s.bufferIds)

/-- `free_buffers_left` is the number of owned buffers that are not mapped, and every read that was
submitted goes into one of them. -/
structure Sound (s : BufferAccount α cfg) : Prop where
  free : s.cache.freeBuffersLeft = s.unmapped.length
  reads : ∀ r ∈ s.reads, r.2 ∈ s.unmapped

/-- The search goes on, is below the end of the file, and its offset is in no buffer. -/
def Asks (s : BufferAccount α cfg) (desired : ℕ) (offset : UInt32) : Prop :=
  s.reads = [] ∧ desired < s.cache.curMinInvalidOffset ∧
    okAnd (s.cache.getBufferInfo offset.toNat) fun location => location.left == sizeMax

instance (s : BufferAccount α cfg) (desired : ℕ) (offset : UInt32) :
    Decidable (s.Asks desired offset) :=
  inferInstanceAs (Decidable (_ ∧ _))

/-- The event gives no buffer away, collects none and keeps none, asks for no read without a free
buffer, and enters no read that brought data. -/
def Sparing (s : BufferAccount α cfg) : Event α → Prop
  | .arrive _ => True
  | .upstream => s.reads = [] → s.queue.numNewBuffers = 0 → s.queue.curNumBuffers = 0
  | .collect => s.reads = [] → s.queue.front = none
  | .handOver given =>
      s.reads = [] → given ≤ Buffers.oldBufferLimit cfg s.queue →
        s.queue.numNewBuffers ≠ 0 ∧ s.queue.numNewBuffers ≤ cfg.maxSstableHeight ∧ given = 0
  | .issue desired offset => s.Asks desired offset → s.cache.freeBuffersLeft ≠ 0
  | .complete res => s.reads ≠ [] → (∀ res' ∈ s.entered, 0 < res') → res ≤ 0

instance (s : BufferAccount α cfg) : ∀ e : Event α, Decidable (s.Sparing e)
  | .arrive _ => isTrue trivial
  | .upstream => inferInstanceAs (Decidable (_ → _ → _))
  | .collect => inferInstanceAs (Decidable (_ → s.queue.front = none))
  | .handOver _ => inferInstanceAs (Decidable (_ → _ → _))
  | .issue _ _ => inferInstanceAs (Decidable (_ → _))
  | .complete _ => inferInstanceAs (Decidable (_ → _ → _))

end Model

/-- The search submits these reads: of the array of slots it has the buffers in front. -/
theorem issueReads_of_issueRead {t t' : SSTableInfo cfg} {reads : List (ℕ × ℕ)}
    {s : BufferAccount α cfg} (h : t.issueRead = .ok (t', reads)) (hs : s.cache = t.cache.helper)
    (hslots : t.cache.buffers.length ≤ s.holding.pageCacheBuffers.length) :
    s.issueReads t.desiredSstableOffset = .ok { s with
      cache := t'.cache.helper
      reads
      entered := [] } := by
  rcases bind_eq_ok.1 h with ⟨helper, hhelper, h⟩
  split_ifs at h with hin
  cases h
  refine bind_eq_ok.2 ⟨helper, by rw [hs]; exact hhelper, ?_⟩
  exact if_pos fun r hr => (hin r hr).trans_le hslots

section Lists

variable {c c' : CacheHelper cfg} {h h' : Holding α} {q q' : BufferQueue α}

/-- Every buffer that is collected is counted. -/
theorem addLoop_of_addBuffers {fuel : ℕ} (hok : addBuffers fuel c h q = .ok (c', h', q')) :
    Buffers.addLoop fuel h q = .ok (h', q') ∧ ∃ k < fuel, c' = CacheHelper.addBuffer^[k] c ∧
      (q.front = none ∨ k ≠ 0) := by
  induction fuel generalizing c h q with
  | zero => cases hok
  | succ fuel ih =>
      rw [addBuffers] at hok
      rw [Buffers.addLoop]
      cases hfront : q.front with
      | none =>
          rw [hfront] at hok
          cases hok
          exact ⟨rfl, 0, Nat.succ_pos _, rfl, .inl rfl⟩
      | some b =>
          simp only [hfront] at hok ⊢
          split_ifs at hok ⊢ with hlt
          rcases ih hok with ⟨hloop, k, hk, hc, -⟩
          refine ⟨hloop, k + 1, Nat.succ_lt_succ hk, ?_, .inr (Nat.succ_ne_zero k)⟩
          rw [hc, Function.iterate_succ_apply]

/-- Every buffer that is kept needs a slot. -/
theorem keepRest_of_keepBuffers {k : ℕ} (hok : keepBuffers k c h q = .ok (c', h', q')) :
    Buffers.keepRest k h q = .ok (h', q') := by
  induction k generalizing c h q with
  | zero =>
      cases hok
      rfl
  | succ k ih =>
      rw [keepBuffers] at hok
      rw [Buffers.keepRest]
      split_ifs at hok ⊢
      exact ih hok

theorem iterate_addBuffer (k : ℕ) (c : CacheHelper cfg) (hc : c.freeBuffersLeft < 2 ^ 32) :
    CacheHelper.addBuffer^[k] c
      = { c with freeBuffersLeft := (c.freeBuffersLeft + k) % 2 ^ 32 } := by
  induction k with
  | zero => rw [Function.iterate_zero_apply, Nat.add_zero, Nat.mod_eq_of_lt hc]
  | succ k ih =>
      rw [Function.iterate_succ_apply', ih]
      simp only [CacheHelper.addBuffer, Nat.mod_add_mod, Nat.add_assoc]

end Lists

section Regular

/-- **The account as long as it is right.**  No range was ever entered, and the SSTable has the
buffers it began with. -/
structure Regular (s : BufferAccount α cfg) : Prop where
  least : s.cache.idOfLeastRecentlySelectedBuffer = uintMax
  most : s.cache.idOfMostRecentlySelectedBuffer = uintMax
  free : s.cache.freeBuffersLeft = cfg.maxSstableHeight
  insert : s.holding.insertBuffersFrom = cfg.maxSstableHeight
  length_buffers : s.holding.pageCacheBuffers.length = cfg.maxBufferSetSize
  length_queue : s.queue.queue.length = cfg.maxBufferSetSize
  numNew_lt : s.queue.numNewBuffers < 2 ^ 32
  reads_lt : ∀ r ∈ s.reads, r.2 < cfg.maxSstableHeight

variable {s s' : BufferAccount α cfg}

theorem maxSstableHeight_le (cfg : Config) : cfg.maxSstableHeight ≤ cfg.maxBufferSetSize :=
  Nat.le_mul_of_pos_right _ cfg.levelFactor_pos

/-- As long as no range was entered, all buffers that are owned are left. -/
theorem unmapped_new (hmost : s.cache.idOfMostRecentlySelectedBuffer = uintMax) :
    s.unmapped = List.range s.holding.insertBuffersFrom := by
  rw [unmapped, bufferIds, CacheHelper.held_new hmost]
  exact List.filter_eq_self.2 fun _ _ => by simp

theorem Regular.sound (hs : s.Regular) : s.Sound where
  free := by rw [unmapped_new hs.most, List.length_range, hs.insert, hs.free]
  reads := fun r hr => by
    rw [unmapped_new hs.most, hs.insert, List.mem_range]
    exact hs.reads_lt r hr

/-- The queue has no part in it. -/
theorem Regular.withQueue (hs : s.Regular) {q : BufferQueue α}
    (hlen : q.queue.length = s.queue.queue.length) (hnum : q.numNewBuffers < 2 ^ 32) :
    ({ s with queue := q } : BufferAccount α cfg).Regular :=
  { hs with
    length_queue := hlen.trans hs.length_queue
    numNew_lt := hnum }

/-- No offset is in a buffer. -/
theorem Regular.asks_iff (hs : s.Regular) (desired : ℕ) (offset : UInt32) :
    s.Asks desired offset ↔ ¬ (s.reads ≠ [] ∨ s.cache.curMinInvalidOffset ≤ desired) := by
  have hinfo : okAnd (s.cache.getBufferInfo offset.toNat)
      (fun location => location.left == sizeMax) = true :=
    okAnd_iff.2 ⟨_, CacheHelper.getBufferInfo_new hs.most _, beq_self_eq_true _⟩
  rw [Asks, hinfo, not_or, not_not, Nat.not_le]
  exact and_congr_right fun _ => and_iff_left rfl

variable (hsize : cfg.maxBufferSetSize ≤ uintMax)
include hsize

theorem regular_opened (buffers : Fin cfg.maxBufferSetSize → Option α) :
    (opened cfg buffers).Regular := by
  have hheight := maxSstableHeight_le cfg
  have hcache : (opened cfg buffers).cache
      = { CacheHelper.new cfg with freeBuffersLeft := cfg.maxSstableHeight } := by
    have hfree : (0 + cfg.maxSstableHeight) % 2 ^ 32 = cfg.maxSstableHeight := by
      simp only [uintMax] at hsize
      omega
    refine (iterate_addBuffer _ (CacheHelper.new cfg) (Nat.two_pow_pos 32)).trans ?_
    exact congrArg (fun k => { CacheHelper.new cfg with freeBuffersLeft := k }) hfree
  exact
    { least := by rw [hcache]; rfl
      most := by rw [hcache]; rfl
      free := by rw [hcache]
      insert := rfl
      length_buffers := List.length_ofFn
      length_queue := List.length_replicate ..
      numNew_lt := Nat.two_pow_pos 32
      reads_lt := fun _ hr => absurd hr List.not_mem_nil }

/-- **Buffers cannot be given away.**  With nothing mapped, `remove_buffer_range` begins at
`UINT_MAX`. -/
theorem Regular.giveAway_ne_ok (hs : s.Regular) {k : ℕ} (hk : k ≠ 0) : s.giveAway k ≠ .ok s' := by
  intro h
  rw [giveAway, if_neg hk] at h
  rcases bind_eq_ok.1 h with ⟨⟨bs, h₁⟩, htake, h⟩
  rcases Holding.takeBack_spec htake with ⟨hkle, -, rfl, -⟩
  rcases bind_eq_ok.1 h with ⟨cache, hremove, -⟩
  have hheight := maxSstableHeight_le cfg
  rw [CacheHelper.removeBufferRange_new hsize hs.most hs.least ?_] at hremove
  · cases hremove
  · rw [hs.insert] at hkle
    simp only [Holding.advance, hs.insert]
    omega

end Regular

/-- A read goes into the next buffer, and one ahead into the buffer behind that, with two free
ones. -/
theorem readsFor_target {h : CacheHelper cfg} {offset : ℕ} {r : ℕ × ℕ}
    (hr : r ∈ SSTableInfo.readsFor h offset) :
    r.2 = h.nextBuffer ∨ h.freeBuffersLeft = 2 ∧ r.2 = h.nextBuffer + 1 := by
  simp only [SSTableInfo.readsFor] at hr
  generalize (if cfg.roundToBlockSizeMultiple offset = 0 then
    cfg.fairAlignedSstablePageCacheBufferSize
    else cfg.roundToBlockSizeMultiple offset * 2 % 2 ^ 64) = ahead at hr
  split_ifs at hr with htwo
  · rcases List.mem_pair.1 hr with rfl | rfl
    · exact .inl rfl
    · exact .inr ⟨htwo.1, rfl⟩
  · rw [List.mem_singleton.1 hr]
    exact .inl rfl

/-! ## One event

For each kind of event: a sparing one has an outcome and keeps the account regular, and one behind
which the account is sound is sparing. -/

section Steps

variable {s s' : BufferAccount α cfg}

/-- What there is to say about an event. -/
def Decided (s : BufferAccount α cfg) (e : Event α) : Prop :=
  (s.Sparing e → ∃ s', s.step e = .ok s' ∧ s'.Regular) ∧
    ∀ s', s.step e = .ok s' → s'.Sound → s.Sparing e

/-- An SSTable that waits for reads does not begin anything. -/
theorem Regular.waits (hs : s.Regular) {e : Event α} (hstep : s.step e = .ok s)
    (hsparing : s.Sparing e) : s.Decided e :=
  ⟨fun _ => ⟨s, hstep, hs⟩, fun _ _ _ => hsparing⟩

theorem Regular.arrive (hs : s.Regular) (buffers : List α) : s.Decided (.arrive buffers) :=
  ⟨fun _ => ⟨_, rfl, hs.withQueue (BufferQueue.length_pushAll ..)
    (Buffers.numNew_lt_pushAll hs.numNew_lt)⟩, fun _ _ _ => trivial⟩

variable (hsize : cfg.maxBufferSetSize ≤ uintMax)
include hsize

theorem Regular.upstream (hs : s.Regular) : s.Decided .upstream := by
  by_cases hreads : s.reads = []
  · by_cases hnew : s.queue.numNewBuffers = 0
    · have hqueue := hs.withQueue (q := { s.queue with
        curNumBuffers := s.queue.curNumBuffers - Buffers.toGive cfg s.queue }) rfl hs.numNew_lt
      have hstep : s.step .upstream = giveAway _ (Buffers.toGive cfg s.queue) :=
        (if_neg (not_not.2 hreads)).trans (if_neg (not_not.2 hnew))
      constructor
      · intro hsparing
        have hnone := (Buffers.toGive_eq_zero cfg s.queue).2 (hsparing hreads hnew)
        exact ⟨_, hstep.trans (if_pos hnone), hqueue⟩
      · intro s' h _ _ _
        by_contra hcur
        rw [hstep] at h
        exact hqueue.giveAway_ne_ok hsize (mt (Buffers.toGive_eq_zero cfg s.queue).1 hcur) h
    · have hstep : s.step .upstream = .ok { s with queue :=
          (BufferQueue.popMany (min cfg.maxSstableHeight s.queue.numNewBuffers) s.queue).2 } :=
        (if_neg (not_not.2 hreads)).trans (if_pos hnew)
      exact ⟨fun _ => ⟨_, hstep, hs.withQueue (BufferQueue.length_popMany ..)
        (Buffers.numNew_lt_popMany hs.numNew_lt)⟩, fun _ _ _ _ h => absurd h hnew⟩
  · exact hs.waits (if_pos hreads) fun h => absurd h hreads

theorem Regular.collect (hs : s.Regular) : s.Decided .collect := by
  by_cases hreads : s.reads = []
  · have hstep : s.step .collect = _ := if_neg (not_not.2 hreads)
    constructor
    · intro hsparing
      have hnone : addBuffers (s.queue.queue.length + 1) s.cache s.holding s.queue
          = .ok (s.cache, s.holding, s.queue) := by rw [addBuffers, hsparing hreads]
      exact ⟨s, hstep.trans (bind_eq_ok.2 ⟨_, hnone, rfl⟩), hs⟩
    · intro s' h hsound _
      rw [hstep] at h
      rcases bind_eq_ok.1 h with ⟨⟨c, h₁, q⟩, hadd, hdone⟩
      cases hdone
      rcases addLoop_of_addBuffers hadd with ⟨hloop, k, hk, rfl, hfront | hpos⟩
      · exact hfront
      · -- a buffer that is collected is counted, and its slot is not owned
        have hheight := maxSstableHeight_le cfg
        have hlen := hs.length_queue
        simp only [uintMax] at hsize
        have hlt : s.cache.freeBuffersLeft < 2 ^ 32 := by
          rw [hs.free]
          omega
        have hfree := hsound.free
        rw [unmapped_new (by rw [iterate_addBuffer k _ hlt]; exact hs.most), List.length_range,
          iterate_addBuffer k _ hlt] at hfree
        dsimp only at hfree
        rw [(Buffers.addLoop_sizes hloop).1, hs.insert, hs.free] at hfree
        omega
  · exact hs.waits (if_pos hreads) fun h => absurd h hreads

/-- Without new buffers one is popped nevertheless, and the counter of those that are left passes
zero. -/
theorem Regular.not_keepBuffers (hs : s.Regular) (hnew : s.queue.numNewBuffers = 0)
    {r : CacheHelper cfg × Holding α × BufferQueue α} :
    keepBuffers (BufferQueue.popMany 1 s.queue).2.numNewBuffers s.cache s.holding
      (BufferQueue.popMany 1 s.queue).2 ≠ .ok r := by
  rcases r with ⟨c, h₁, q⟩
  intro hkeep
  have hnum : (BufferQueue.popMany 1 s.queue).2.numNewBuffers = uintMax := by
    rw [BufferQueue.numNew_popMany hs.numNew_lt, hnew]
    decide
  rcases Buffers.keepRest_ok (keepRest_of_keepBuffers hkeep) with hzero | hroom
  · rw [hnum] at hzero
    cases hzero
  · rw [hnum, hs.insert, hs.length_buffers] at hroom
    rcases Nat.eq_zero_or_pos cfg.maxSstableHeight with hheight | hheight
    · rw [Config.maxBufferSetSize, hheight, Nat.zero_mul] at hroom
      exact absurd hroom (by decide)
    · omega

theorem Regular.handOver (hs : s.Regular) (given : ℕ) : s.Decided (.handOver given) := by
  by_cases hwaits : s.reads ≠ [] ∨ Buffers.oldBufferLimit cfg s.queue < given
  · refine hs.waits (if_pos hwaits) fun hreads hle => ?_
    rcases hwaits with hne | hlt
    · exact absurd hreads hne
    · exact absurd hle (Nat.not_le.2 hlt)
  · by_cases hnew : s.queue.numNewBuffers = 0
    · refine ⟨fun hsparing => ?_, fun s' h _ => ?_⟩
      · rw [not_or, not_not, Nat.not_lt] at hwaits
        exact absurd hnew (hsparing hwaits.1 hwaits.2).1
      · simp only [step, if_neg hwaits, if_pos hnew] at h
        split_ifs at h
        rcases bind_eq_ok.1 h with ⟨r, hkeep, -⟩
        exact absurd hkeep (hs.not_keepBuffers hsize hnew)
    · by_cases hfits : cfg.maxSstableHeight < s.queue.numNewBuffers
      · refine ⟨fun hsparing => ?_, fun s' h _ => ?_⟩
        · rw [not_or, not_not, Nat.not_lt] at hwaits
          exact absurd hfits (Nat.not_lt.2 (hsparing hwaits.1 hwaits.2).2.1)
        · simp only [step, if_neg hwaits, if_neg hnew, if_pos hfits] at h
          cases h
      · -- all new buffers are popped, and none is left to be kept
        have hqueue := hs.withQueue
          (BufferQueue.length_popMany s.queue.numNewBuffers s.queue)
          (Buffers.numNew_lt_popMany hs.numNew_lt)
        have hstep : s.step (.handOver given) = giveAway
            { s with queue := (BufferQueue.popMany s.queue.numNewBuffers s.queue).2 } given := by
          simp only [step, if_neg hwaits, if_neg hnew, if_neg hfits,
            BufferQueue.numNew_popMany_self hs.numNew_lt]
          rfl
        refine ⟨fun hsparing => ?_, fun s' h _ _ _ => ⟨hnew, Nat.not_lt.1 hfits, ?_⟩⟩
        · rw [not_or, not_not, Nat.not_lt] at hwaits
          exact ⟨_, hstep.trans (if_pos (hsparing hwaits.1 hwaits.2).2.2), hqueue⟩
        · by_contra hgiven
          rw [hstep] at h
          exact hqueue.giveAway_ne_ok hsize hgiven h

omit hsize in
/-- With a free buffer, the reads go into the first ones. -/
theorem Regular.readsFor_lt (hs : s.Regular) (hfree : s.cache.freeBuffersLeft ≠ 0) (offset : ℕ) :
    ∀ r ∈ SSTableInfo.readsFor s.cache offset, r.2 < cfg.maxSstableHeight := by
  have hcount := hs.free
  intro r hr
  rcases readsFor_target hr with hnext | ⟨htwo, hnext⟩
  · rw [hnext, CacheHelper.nextBuffer_new hs.most]
    omega
  · rw [hnext, CacheHelper.nextBuffer_new hs.most]
    omega

omit hsize in
/-- A search that asks for reads submits them, if a buffer is free. -/
theorem Regular.issueReads_ok (hs : s.Regular) (hfree : s.cache.freeBuffersLeft ≠ 0)
    (offset : ℕ) :
    s.issueReads offset = .ok { s with
      reads := SSTableInfo.readsFor s.cache offset
      entered := [] } := by
  have hslots := maxSstableHeight_le cfg
  have hin : ∀ r ∈ SSTableInfo.readsFor s.cache offset,
      r.2 < s.holding.pageCacheBuffers.length := fun r hr => by
    rw [hs.length_buffers]
    exact (hs.readsFor_lt hfree offset r hr).trans_le hslots
  exact bind_eq_ok.2 ⟨s.cache, if_neg hfree, if_pos hin⟩

/-- Without one it gives up buffer `UINT_MAX`. -/
theorem Regular.issueReads_error (hs : s.Regular) (hfree : s.cache.freeBuffersLeft = 0)
    (offset : ℕ) : s.issueReads offset = .error .outOfBounds := by
  rw [issueReads, if_pos hfree, CacheHelper.replenish_new hsize hs.least]
  rfl

omit hsize in
theorem Regular.step_issue (hs : s.Regular) {desired : ℕ} {offset : UInt32}
    (hasks : s.Asks desired offset) :
    s.step (.issue desired offset) = s.issueReads offset.toNat := by
  simp only [step, if_neg ((hs.asks_iff desired offset).1 hasks),
    CacheHelper.getBufferInfo_new hs.most]
  rfl

theorem Regular.issue (hs : s.Regular) (desired : ℕ) (offset : UInt32) :
    s.Decided (.issue desired offset) := by
  by_cases hasks : s.Asks desired offset
  · have hstep := hs.step_issue hasks
    refine ⟨fun hsparing => ⟨_, hstep.trans (hs.issueReads_ok (hsparing hasks) _), ?_⟩,
      fun s' h _ _ hfree => ?_⟩
    · exact { hs with reads_lt := hs.readsFor_lt (hsparing hasks) _ }
    · rw [hstep, hs.issueReads_error hsize hfree] at h
      cases h
  · refine hs.waits ?_ fun h => absurd h hasks
    rw [hs.asks_iff, not_not] at hasks
    exact if_pos hasks

omit hsize in
/-- **The first read that brought data** cannot be entered; one that brought nothing moves the end
of the file, and no buffer. -/
theorem Regular.step_complete (hs : s.Regular) {r : ℕ × ℕ} {rest : List (ℕ × ℕ)}
    (hreads : s.reads = r :: rest) {res : ℤ} (hall : (∀ res' ∈ s.entered, 0 < res') ∨ res ≤ 0) :
    s.step (.complete res) =
      if 0 < res then .error .wildPointer
      else .ok { s with
        cache := s.cache.setCurMinInvalidOffset r.1
        reads := rest
        entered := s.entered ++ [res] } := by
  simp only [step, hreads, if_pos hall, Worker.enterCompletion,
    CacheHelper.mapBufferToOffsetBoundary_new hs.most]
  by_cases hres : 0 < res
  · rw [if_pos hres, if_pos hres]
    rfl
  · rw [if_neg hres, if_neg hres]
    rfl

omit hsize in
theorem Regular.complete (hs : s.Regular) (res : ℤ) : s.Decided (.complete res) := by
  cases hreads : s.reads with
  | nil =>
      refine hs.waits ?_ fun h => absurd hreads h
      simp only [step, hreads]
  | cons r rest =>
      have hne : s.reads ≠ [] := by
        rw [hreads]
        exact List.cons_ne_nil _ _
      by_cases hall : (∀ res' ∈ s.entered, 0 < res') ∨ res ≤ 0
      · have hstep := hs.step_complete hreads hall
        rcases lt_or_ge 0 res with hres | hres
        · have hpos := hall.resolve_right (Int.not_le.2 hres)
          refine ⟨fun hsparing => absurd (hsparing hne hpos) (Int.not_le.2 hres), fun s' h => ?_⟩
          rw [hstep, if_pos hres] at h
          cases h
        · refine ⟨fun _ => ⟨_, hstep.trans (if_neg (Int.not_lt.2 hres)), ?_⟩, fun _ _ _ _ _ => hres⟩
          refine { hs with reads_lt := fun r' hr' => hs.reads_lt r' ?_ }
          rw [hreads]
          exact List.mem_cons_of_mem _ hr'
      · rw [not_or] at hall
        refine hs.waits ?_ fun _ hpos => absurd hpos hall.1
        simp only [step, hreads, if_neg (not_or.2 hall)]

theorem Regular.decided (hs : s.Regular) : ∀ e : Event α, s.Decided e
  | .arrive buffers => hs.arrive buffers
  | .upstream => hs.upstream hsize
  | .collect => hs.collect hsize
  | .handOver given => hs.handOver hsize given
  | .issue desired offset => hs.issue hsize desired offset
  | .complete res => hs.complete res

/-- **The account of the free buffers.**  In every run of an SSTable from the end of its
initialization on, all events have an outcome, the free buffers are counted right and every read
goes into one of them, if and only if each of the events is sparing.  The number of buffers is an
`unsigned int`. -/
theorem account_iff (buffers : Fin cfg.maxBufferSetSize → Option α) (es : List (Event α)) :
    (∃ s', runEvents step (opened cfg buffers) es = .ok s')
        ∧ Throughout step Sound (opened cfg buffers) es
      ↔ AttemptsMeet step Sparing (opened cfg buffers) es :=
  run_throughout_iff_attemptsMeet (fun _ hs => hs.sound) (fun _ e hs => (hs.decided hsize e).1)
    (fun _ e s' hs => (hs.decided hsize e).2 s') (regular_opened hsize buffers)

end Steps

/-- The first read comes back empty, a second one, from an earlier offset, fails, and a new buffer
that arrives is passed on when the SSTable is idle. -/
theorem account_two_reads :
    (∃ s', runEvents step (opened pagedConfig fun i => some i.val)
        [.issue 600 600, .complete 0, .issue 0 0, .complete (-5), .arrive [20], .upstream] = .ok s')
      ∧ Throughout step Sound (opened pagedConfig fun i => some i.val)
        [.issue 600 600, .complete 0, .issue 0 0, .complete (-5), .arrive [20], .upstream] :=
  (account_iff (by decide) _ _).2 (by decide +kernel)

/-- A buffer arrives, the idle SSTable pops the empty slot in front of it, and the next batch of
reads collects it: there are 21 free buffers, of 20. -/
theorem collected_not_owned :
    ¬ ((∃ s', runEvents step (opened shippedConfig fun i => some i.val)
        [.arrive [20], .upstream, .collect] = .ok s')
      ∧ Throughout step Sound (opened shippedConfig fun i => some i.val)
        [.arrive [20], .upstream, .collect]) := by
  rintro ⟨⟨s', hrun⟩, hthrough⟩
  have hfree := (hthrough.final hrun).free
  have hwrong : okAnd (runEvents step (opened shippedConfig fun i => some i.val)
      [.arrive [20], .upstream, .collect])
      (fun s => s.cache.freeBuffersLeft != s.unmapped.length) = true := by
    decide +kernel
  rcases okAnd_iff.1 hwrong with ⟨t, ht, hne⟩
  rw [hrun] at ht
  cases ht
  exact absurd hfree (bne_iff_ne.1 hne)

end BufferAccount

end RingDB
