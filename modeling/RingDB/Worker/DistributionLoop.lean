import RingDB.Levels.Delivery
import RingDB.Worker.Proportions

/-!
# Whether the distribution of buffers ends

When a batch has been enqueued, its giver's buffers are distributed to the SSTables of the level
below, until as many SSTables were given some as the batch has parts.  The catch-all is one of the
parts, and no SSTable's: with a catch-all the counts never meet.  That the loop before may have set
its pointer to null makes no difference, since `num_req_batches` still counts it.

* `Distributing`, `offer`, `loop` — the loop.  Single-threaded queues look at no guard.
* `loop_null` — without a part below the catch-all it never ends, and `loop_single` — with one part
  it ends behind one pass.
* `decomposeRead_dead` — what becomes of a batch without a live request.
* **`distribute_ends_iff`** — for which batches the distribution ends.
-/

namespace RingDB

open Core

variable {α : Type} {cfg : Config}

namespace Distribution

section Model

/-- `given_buffers`, `num_given`, and what was given. -/
structure Distributing (α : Type) where
  givenBuffers : List Bool
  numGiven : ℕ
  giving : Giving α

def Distributing.start (cfg : Config) (holding : Holding α) (queues : List (BufferQueue α)) :
    Distributing α :=
  ⟨List.replicate cfg.levelFactor false, 0, .start holding queues⟩

/-- One value of `i`. -/
def offer (d : Decomposition cfg) (oldLimit : ℕ) (st : Distributing α) (i : ℕ) :
    Except Fault (Distributing α) :=
  if (Enqueue.part d i).isSome ∧ st.givenBuffers.getD i false = false then do
    let giving ← giveTo d oldLimit st.giving i
    pure
      { givenBuffers := st.givenBuffers.set i true
        numGiven := st.numGiven + 1
        giving }
  else .ok st

/-- The inner loop. -/
def pass (d : Decomposition cfg) (oldLimit : ℕ) (st : Distributing α) :
    Except Fault (Distributing α) :=
  (List.range cfg.levelFactor).foldlM (offer d oldLimit) st

/-- `while (num_given < decomp.num_req_batches)`, observed for `fuel` passes. -/
def loop (d : Decomposition cfg) (oldLimit : ℕ) :
    ℕ → Distributing α → Except Fault (Distributing α)
  | 0, st => if st.numGiven < d.numReqBatches then .error .diverges else .ok st
  | fuel + 1, st =>
      if st.numGiven < d.numReqBatches then do
        let st ← pass d oldLimit st
        loop d oldLimit fuel st
      else .ok st

/-- The proportions, each a division by the size of the decomposition, and the loop. -/
def distribute (d : Decomposition cfg) (oldLimit fuel : ℕ) (holding : Holding α)
    (queues : List (BufferQueue α)) : Except Fault (Giving α) :=
  if d.totalDecompSize = 0 then .error .divByZero
  else Distributing.giving <$> loop d oldLimit fuel (.start cfg holding queues)

/-- The distribution ends. -/
def Ends (d : Decomposition cfg) (oldLimit : ℕ) (holding : Holding α)
    (queues : List (BufferQueue α)) : Prop :=
  ∃ fuel st, distribute d oldLimit fuel holding queues = .ok st

end Model

section Passes

variable {d : Decomposition cfg} {oldLimit i : ℕ} {st : Distributing α}

/-- Steps that change nothing. -/
theorem foldlM_idle {σ : Type} {f : σ → ℕ → Except Fault σ} {s : σ} :
    ∀ {l : List ℕ}, (∀ j ∈ l, ∀ s, f s j = .ok s) → l.foldlM f s = .ok s
  | [], _ => rfl
  | j :: l, h => by
      rw [List.foldlM_cons, h j List.mem_cons_self s]
      exact foldlM_idle fun j' hj' => h j' (List.mem_cons_of_mem _ hj')

/-- All but one of the steps change nothing. -/
theorem foldlM_single {σ : Type} {f : σ → ℕ → Except Fault σ} {s : σ} :
    ∀ {l : List ℕ}, l.Nodup → i ∈ l → (∀ j ∈ l, j ≠ i → ∀ s, f s j = .ok s) → l.foldlM f s = f s i
  | j :: l, hnodup, hi, h => by
      obtain ⟨hj, hnodup⟩ := List.nodup_cons.mp hnodup
      have hrest : ∀ j' ∈ l, j' ≠ i → ∀ s, f s j' = .ok s :=
        fun j' hj' => h j' (List.mem_cons_of_mem _ hj')
      rw [List.foldlM_cons]
      by_cases hji : j = i
      · subst hji
        cases hstep : f s j with
        | error e => rfl
        | ok s' => exact foldlM_idle fun j' hj' => hrest j' hj' fun heq => hj (heq ▸ hj')
      · rw [h j List.mem_cons_self hji s]
        exact foldlM_single hnodup (List.mem_of_ne_of_mem (Ne.symm hji) hi) hrest

theorem offer_null (h : Enqueue.part d i = none) (st : Distributing α) :
    offer d oldLimit st i = .ok st := by
  rw [offer, if_neg (by simp [h])]

/-- **Without a part for an SSTable** nobody is given anything, and the loop goes on for ever. -/
theorem loop_null (hnull : ∀ i < cfg.levelFactor, Enqueue.part d i = none)
    (hcount : st.numGiven < d.numReqBatches) (fuel : ℕ) :
    loop d oldLimit fuel st = .error .diverges := by
  have hpass : pass d oldLimit st = .ok st :=
    foldlM_idle fun i hi st => offer_null (hnull i (List.mem_range.mp hi)) st
  induction fuel with
  | zero => rw [loop, if_pos hcount]
  | succ fuel ih =>
      rw [loop, if_pos hcount, hpass]
      exact ih

/-- **With one part, and no other**, the loop is one pass. -/
theorem loop_single (hi : i < cfg.levelFactor) (hpart : (Enqueue.part d i).isSome)
    (hnull : ∀ j < cfg.levelFactor, j ≠ i → Enqueue.part d j = none) (hnum : d.numReqBatches = 1)
    (holding : Holding α) (queues : List (BufferQueue α)) (fuel : ℕ) :
    Distributing.giving <$> loop d oldLimit (fuel + 1) (.start cfg holding queues)
      = giveTo d oldLimit (.start holding queues) i := by
  have hfresh : (Distributing.start cfg holding queues).givenBuffers.getD i false = false := by
    simp [Distributing.start, List.getD_eq_getElem?_getD, hi]
  have hpass : pass d oldLimit (.start cfg holding queues)
      = offer d oldLimit (.start cfg holding queues) i :=
    foldlM_single List.nodup_range (List.mem_range.mpr hi)
      fun j hj hne st => offer_null (hnull j (List.mem_range.mp hj) hne) st
  have hcount : (Distributing.start cfg holding queues).numGiven < d.numReqBatches := by
    rw [hnum]
    exact Nat.zero_lt_one
  have hstart : (Distributing.start cfg holding queues).giving = .start holding queues := rfl
  rw [loop, if_pos hcount, hpass, offer, if_pos ⟨hpart, hfresh⟩, hstart]
  cases giveTo d oldLimit (.start holding queues) i with
  | error e => rfl
  | ok giving =>
      -- the count is one, and the loop has ended
      cases fuel with
      | zero => simp [loop, hnum, bind, Except.bind, Distributing.start, pure, Except.pure]
      | succ fuel => simp [loop, hnum, bind, Except.bind, Distributing.start, pure, Except.pure]

end Passes

/-! ## The decompositions that are returned -/

section Returned

variable {oldLimit : ℕ} {holding : Holding α} {queues : List (BufferQueue α)}

/-- Requests without a client change nothing. -/
theorem restLoop_dead {mem : Memory} {alloc : Allocator cfg} {st : LevelInfo.Reading cfg} :
    ∀ {conns : List ConnectionRequest} {i : ℕ}, (∀ conn ∈ conns, conn.clientSockFd = -1) →
      LevelInfo.restLoop mem alloc conns i st = .ok st
  | [], _, _ => rfl
  | conn :: conns, i, h => by
      have hconn : conn.clientSockFd = -1 := h conn List.mem_cons_self
      rw [LevelInfo.restLoop, if_neg (not_not.mpr hconn)]
      exact restLoop_dead fun conn' hconn' => h conn' (List.mem_cons_of_mem _ hconn')

/-- Without a live request there is no part. -/
theorem decomposeRead_dead {mem : Memory} {alloc : Allocator cfg} {level : LevelInfo cfg}
    {heap heap' : Heap cfg} {reqBatch : ℕ} {b : RequestBatch cfg} {d : Decomposition cfg}
    (hb : heap[reqBatch]? = some b)
    (hdead : ∀ conn ∈ b.readwritePool.entries, conn.clientSockFd = -1)
    (h : level.decomposeRead mem alloc heap reqBatch = .ok (heap', d)) : d.numReqBatches = 0 := by
  have hderef := Heap.deref_ok_iff.mpr hb
  obtain ⟨b', -, h⟩ := bind_eq_ok.mp h
  obtain ⟨st, hrange, h⟩ := bind_eq_ok.mp h
  have hst := LevelInfo.rangeLoop_null (by rw [level.length_filters, Nat.zero_add]) rfl hrange
  subst hst
  obtain ⟨rest, hrest, h⟩ := bind_eq_ok.mp h
  cases hrest.symm.trans hderef
  obtain ⟨st', hloop, h⟩ := bind_eq_ok.mp h
  cases hloop.symm.trans (restLoop_dead hdead)
  cases h
  exact (LevelInfo.Slots.countP_isSome (fun i hi => LevelInfo.Slots.null_get hi.le)
    (LevelInfo.Slots.null_get (Nat.le_refl _))).trans (if_neg (by simp))

/-- No part, and the loop is not entered. -/
theorem ends_of_none {d : Decomposition cfg} (hsize : d.totalDecompSize ≠ 0)
    (hnum : d.numReqBatches = 0) : Ends d oldLimit holding queues := by
  refine ⟨0, .start holding queues, ?_⟩
  rw [distribute, if_neg hsize, loop, if_neg (by rw [hnum]; exact Nat.not_lt_zero _)]
  rfl

/-- The catch-all, and no other part. -/
theorem not_ends_catchAll {d : Decomposition cfg} (hnum : d.numReqBatches = 1)
    (hnull : ∀ i < cfg.levelFactor, Enqueue.part d i = none) :
    ¬ Ends d oldLimit holding queues := by
  rintro ⟨fuel, st, hok⟩
  have hdiverges : loop d oldLimit fuel (.start cfg holding queues) = .error .diverges :=
    loop_null hnull (by rw [hnum]; exact Nat.zero_lt_one) fuel
  rw [distribute, hdiverges] at hok
  split_ifs at hok
  cases hok

/-- The SSTable that a compaction goes to. -/
def compactionTarget (level : LevelInfo cfg) : ℕ :=
  if LevelInfo.firstEmptyFrom level.filters 0 < cfg.levelFactor then
    LevelInfo.firstEmptyFrom level.filters 0
  else 0

theorem compactionTarget_lt (level : LevelInfo cfg) : compactionTarget level < cfg.levelFactor := by
  unfold compactionTarget
  split_ifs with h
  · exact h
  · exact cfg.levelFactor_pos

theorem decomposeCompaction_target {level level' : LevelInfo cfg} {heap : Heap cfg} {reqBatch : ℕ}
    {d : Decomposition cfg} (h : level.decomposeCompaction heap reqBatch = .ok (level', d)) :
    d = LevelInfo.assign cfg reqBatch (compactionTarget level) := by
  unfold compactionTarget
  rcases LevelInfo.decomposeCompaction_cases h with ⟨hle, -, hd⟩ | ⟨hlt, -, hd⟩
  · rw [if_neg (Nat.not_lt.mpr hle), hd]
  · rw [if_pos hlt, hd]

/-- A compaction is the whole batch, and its SSTable gets all that there is to give. -/
theorem computedShare_assign (reqBatch : ℕ) {i : ℕ} (hi : i < cfg.levelFactor) :
    computedShare (LevelInfo.assign cfg reqBatch i) oldLimit i = oldLimit := by
  have hsize : expectedSize (LevelInfo.assign cfg reqBatch i) i = cfg.memtableSize := by
    simp [expectedSize, LevelInfo.assign, List.getD_eq_getElem?_getD, hi]
  have hpos : 0 < cfg.memtableSize := Nat.mul_pos (Nat.two_pow_pos _) (Nat.two_pow_pos _)
  rw [computedShare, proportion, hsize]
  show cfg.memtableSize / cfg.memtableSize * oldLimit = oldLimit
  rw [Nat.div_self hpos, Nat.one_mul]

/-- A compaction's SSTable needs no room, or the buffers have to be there. -/
theorem giveTo_assign_iff (reqBatch : ℕ) {i : ℕ} (hi : i < cfg.levelFactor) {q : BufferQueue α}
    (hq : queues[i]? = some q)
    (hlen : holding.insertBuffersFrom ≤ holding.pageCacheBuffers.length) :
    (∃ st, giveTo (LevelInfo.assign cfg reqBatch i) oldLimit (.start holding queues) i = .ok st)
      ↔ (q.curNumBuffers < cfg.maxSstableHeight →
        oldLimit ≤ intMax ∧ oldLimit ≤ holding.insertBuffersFrom) := by
  have hstart : (Giving.start holding queues).queues[i]? = some q := hq
  have hshare := @computedShare_assign cfg oldLimit reqBatch i hi
  have hmin : min oldLimit (oldLimit - (Giving.start holding queues).numOldBuffersGiven)
      = oldLimit := Nat.min_self _
  by_cases hroom : q.curNumBuffers < cfg.maxSstableHeight
  · rw [forall_prop_of_true hroom]
    constructor
    · rintro ⟨st, hst⟩
      obtain ⟨hint, bs, holding', htake, -⟩ := (giveTo_ok_iff hstart hroom).mp hst
      rw [hshare] at hint htake
      rw [hmin] at htake
      exact ⟨hint, (Holding.takeBack_spec htake).1⟩
    · rintro ⟨hint, hle⟩
      obtain ⟨⟨bs, holding'⟩, htake⟩ := Buffers.takeBack_of_le hle hlen
      refine ⟨_, (giveTo_ok_iff hstart hroom).mpr ⟨?_, bs, holding', ?_, rfl⟩⟩
      · rw [hshare]
        exact hint
      · rw [hshare, hmin]
        exact htake
  · refine iff_of_true ⟨.start holding queues, ?_⟩ fun h => absurd h hroom
    exact bind_eq_ok.mpr ⟨q, elementAt_ok.mpr hstart, if_neg hroom⟩

theorem ends_assign_iff (reqBatch : ℕ) {i : ℕ} (hi : i < cfg.levelFactor) :
    Ends (LevelInfo.assign cfg reqBatch i) oldLimit holding queues
      ↔ ∃ st,
        giveTo (LevelInfo.assign cfg reqBatch i) oldLimit (.start holding queues) i = .ok st := by
  have hpart : (Enqueue.part (LevelInfo.assign cfg reqBatch i) i).isSome := by
    rw [part_assign reqBatch hi, if_pos rfl]
    rfl
  have hnull : ∀ j < cfg.levelFactor, j ≠ i →
      Enqueue.part (LevelInfo.assign cfg reqBatch i) j = none := fun j _ hne => by
    rw [part_assign reqBatch hi, if_neg hne]
  have hloop := @loop_single α cfg _ oldLimit i hi hpart hnull rfl holding queues
  constructor
  · rintro ⟨fuel, st, hok⟩
    rw [distribute, if_neg (assign_size _ _)] at hok
    cases fuel with
    | zero =>
        have hcount : (Distributing.start cfg holding queues).numGiven
            < (LevelInfo.assign cfg reqBatch i).numReqBatches := Nat.zero_lt_one
        rw [loop, if_pos hcount] at hok
        cases hok
    | succ fuel => exact ⟨st, (hloop fuel).symm.trans hok⟩
  · rintro ⟨st, hok⟩
    refine ⟨1, st, ?_⟩
    rw [distribute, if_neg (assign_size _ _), hloop 0, hok]

/-- **The distribution of buffers.**  For every decomposition that is returned, every limit, and
every giver: the distribution ends if and only if the batch is a READ batch with requests, none of
which is live, or a compaction whose SSTable has no room or whose giver owns the buffers, an `int`
of them. -/
theorem distribute_ends_iff (r : Returned cfg) {b : RequestBatch cfg}
    (hb : r.heap[r.reqBatch]? = some b)
    (hlen : holding.insertBuffersFrom ≤ holding.pageCacheBuffers.length)
    (hqueues : queues.length = cfg.levelFactor) :
    Ends r.decomp oldLimit holding queues
      ↔ (b.reqType = .read ∧ b.readwritePool.entries ≠ []
          ∧ ∀ conn ∈ b.readwritePool.entries, conn.clientSockFd = -1)
        ∨ (b.reqType ≠ .read ∧ ∀ q, queues[compactionTarget r.level]? = some q →
          q.curNumBuffers < cfg.maxSstableHeight →
            oldLimit ≤ intMax ∧ oldLimit ≤ holding.insertBuffersFrom) := by
  obtain ⟨b', hderef, hdecompose⟩ := bind_eq_ok.mp r.decompose_eq
  cases (Heap.deref_ok_iff.mp hderef).symm.trans hb
  by_cases hread : b.reqType = .read
  · rw [if_pos hread] at hdecompose
    obtain ⟨⟨heap', d⟩, hd, hpure⟩ := bind_eq_ok.mp hdecompose
    obtain ⟨-, -, heq⟩ : _ ∧ _ ∧ d = r.decomp := by simpa [pure, Except.pure] using hpure
    subst heq
    obtain ⟨b'', hb'', hout⟩ := LevelInfo.decomposeRead_outcome hd
    cases hb''.symm.trans hb
    have hsize : r.decomp.totalDecompSize ≠ 0 ↔ b.readwritePool.entries ≠ [] := by
      rw [hout.total, Ne, List.length_eq_zero_iff]
    simp only [hread, true_and, not_true_eq_false, false_and, or_false, ne_eq]
    constructor
    · intro hends
      obtain ⟨fuel, st, hok⟩ := id hends
      have hentries : b.readwritePool.entries ≠ [] := by
        rw [← hsize]
        intro hzero
        rw [distribute, if_pos hzero] at hok
        cases hok
      rcases hout.parts with ⟨hdead, -⟩ | ⟨-, hnum, -⟩
      · exact ⟨hentries, hdead⟩
      · exact absurd hends
          (not_ends_catchAll hnum fun i hi => part_eq_none (hout.below i hi))
    · rintro ⟨hentries, hdead⟩
      exact ends_of_none (hsize.mpr hentries) (decomposeRead_dead hb hdead hd)
  · rw [if_neg hread] at hdecompose
    obtain ⟨⟨level', d⟩, hd, hpure⟩ := bind_eq_ok.mp hdecompose
    obtain ⟨-, -, heq⟩ : _ ∧ _ ∧ d = r.decomp := by simpa [pure, Except.pure] using hpure
    have hi := compactionTarget_lt r.level
    obtain ⟨q, hq⟩ : ∃ q, queues[compactionTarget r.level]? = some q :=
      ⟨_, List.getElem?_eq_getElem (by omega)⟩
    rw [← heq, decomposeCompaction_target hd, ends_assign_iff _ hi,
      giveTo_assign_iff _ hi hq hlen]
    simp [hread, hq]

/-- What a new level with one SSTable returns for a batch. -/
def returnedBy (b : RequestBatch oneTableConfig) {level' : LevelInfo oneTableConfig}
    {heap' : Heap oneTableConfig} {d : Decomposition oneTableConfig}
    (h : (LevelInfo.fresh oneTableConfig).decompose (fun _ => 0) (Allocator.zeroed oneTableConfig)
      [b] 0 = .ok (level', heap', d)) : Returned oneTableConfig where
  mem := fun _ => 0
  alloc := Allocator.zeroed oneTableConfig
  level := LevelInfo.fresh oneTableConfig
  heap := [b]
  reqBatch := 0
  level' := level'
  heap' := heap'
  decomp := d
  decompose_eq := h

/-- A compaction: its SSTable has room, and the giver owns the one buffer that it is to give. -/
theorem compaction_ends :
    ∃ r : Returned oneTableConfig, r.heap[r.reqBatch]? = some (.zeroed _ .compaction)
      ∧ fiveBuffers.curNumBuffers < oneTableConfig.maxSstableHeight
      ∧ Ends r.decomp 1 (⟨[some 7], 1⟩ : Holding ℕ) [fiveBuffers] := by
  refine ⟨returnedBy (.zeroed _ .compaction) rfl, rfl, by decide, ?_⟩
  refine (distribute_ends_iff (returnedBy (.zeroed _ .compaction) rfl) rfl (by decide) rfl).mpr ?_
  exact .inr ⟨nofun, fun _ _ _ => by decide⟩

/-- **One live request behind a removed one**: the batch is the catch-all alone, and its one buffer
is never given. -/
theorem removedThenLive_not_ends :
    ∃ r : Returned oneTableConfig, r.level = LevelInfo.fresh oneTableConfig
      ∧ r.heap[r.reqBatch]? = some removedThenLive
      ∧ ¬ Ends r.decomp 1 (⟨[some 7], 1⟩ : Holding ℕ) [fiveBuffers] := by
  refine ⟨returnedBy removedThenLive rfl, rfl, rfl, not_ends_catchAll rfl fun i hi => ?_⟩
  rw [Nat.lt_one_iff.1 hi]
  rfl

end Returned

end Distribution

end RingDB
