import RingDB.Levels.Decompose
import RingDB.Worker.LastBuffer

/-!
# The shares of the SSTables below

An SSTable that hands a batch on gives `old_buffer_limit` of its buffers to the SSTables that get a
part of it, in proportion to the expected sizes of the parts.  The proportions are `double`s, but
what is stored in them is the quotient of two `unsigned int`s: `0` for every part that is not the
whole batch.

* `proportion`, `oldQuantity` — the share of an SSTable as it is computed.
* `giveTo` — what one SSTable gets, `giveAll` — the SSTables in the order in which their queues can
  be had; `giveAll_giveShares` — the same as `giveShares`.
* `amounts` — how many buffers each one gets for given shares, as long as there are some.
* `SharedOut` — the amounts are the proportional ones.
* **`sharedOut_iff`** — that is so if every part before the first whole batch is too small for a
  buffer anyway.
-/

namespace RingDB

open Core

variable {α : Type} {cfg : Config}

namespace Distribution

section Model

/-- `expected_sstable_sizes[i]` -/
def expectedSize (d : Decomposition cfg) (i : ℕ) : ℕ := d.expectedSstableSizes.getD i 0

/-- `proportions[i]`: the division is one of integers. -/
def proportion (d : Decomposition cfg) (i : ℕ) : ℕ := expectedSize d i / d.totalDecompSize

/-- `proportional_old_quantity`, which is converted to an `int`. -/
def oldQuantity (d : Decomposition cfg) (oldLimit i : ℕ) : Except Fault ℕ :=
  if proportion d i * oldLimit ≤ intMax then .ok (proportion d i * oldLimit) else .error .overflow

/-- The variables of the distribution, and what every SSTable was given. -/
structure Giving (α : Type) where
  gifts : List (ℕ × List (Option α))
  numOldBuffersGiven : ℕ
  holding : Holding α
  queues : List (BufferQueue α)

/-- Before the distribution. -/
def Giving.start (holding : Holding α) (queues : List (BufferQueue α)) : Giving α :=
  ⟨[], 0, holding, queues⟩

/-- SSTable `i` gets its share, if there is room in its queue.  The outer `num_new_buffers` is `0`,
so there are no new buffers to give. -/
def giveTo (d : Decomposition cfg) (oldLimit : ℕ) (st : Giving α) (i : ℕ) :
    Except Fault (Giving α) := do
  let bq ← elementAt st.queues i
  if bq.curNumBuffers < cfg.maxSstableHeight then do
    let quantity ← oldQuantity d oldLimit i
    let (bs, holding) ← st.holding.takeBack (min quantity (oldLimit - st.numOldBuffersGiven))
    pure
      { gifts := st.gifts ++ [(i, bs)]
        numOldBuffersGiven := st.numOldBuffersGiven + bs.length
        holding
        queues := st.queues.set i (bq.pushAll bs) }
  else pure st

def giveAll (d : Decomposition cfg) (oldLimit : ℕ) : List ℕ → Giving α → Except Fault (Giving α)
  | [], st => .ok st
  | i :: targets, st => do
      let st ← giveTo d oldLimit st i
      giveAll d oldLimit targets st

/-- How many buffers each SSTable gets, where its share is `share i`. -/
def amounts (share : ℕ → ℕ) (oldLimit : ℕ) : List ℕ → ℕ → List (ℕ × ℕ)
  | [], _ => []
  | i :: targets, given =>
      (i, min (share i) (oldLimit - given))
        :: amounts share oldLimit targets (given + min (share i) (oldLimit - given))

/-- How many there are together. -/
def total (gifts : List (ℕ × ℕ)) : ℕ := (gifts.map Prod.snd).sum

/-- The share that is computed. -/
def computedShare (d : Decomposition cfg) (oldLimit i : ℕ) : ℕ := proportion d i * oldLimit

/-- The share that is meant. -/
def properShare (d : Decomposition cfg) (oldLimit i : ℕ) : ℕ :=
  expectedSize d i * oldLimit / d.totalDecompSize

/-- The distribution has an outcome, every SSTable gets its proper share as long as there are
buffers, and they get no more than the limit together. -/
def SharedOut (d : Decomposition cfg) (oldLimit : ℕ) (targets : List ℕ) (holding : Holding α)
    (queues : List (BufferQueue α)) : Prop :=
  ∃ st, giveAll d oldLimit targets (.start holding queues) = .ok st
    ∧ st.gifts.map (fun g => (g.1, g.2.length))
      = amounts (properShare d oldLimit) oldLimit targets 0
    ∧ st.numOldBuffersGiven ≤ oldLimit

end Model

section Giving

variable {d : Decomposition cfg} {oldLimit i : ℕ} {targets : List ℕ} {st st' : Giving α}
  {q : BufferQueue α}

/-- What one SSTable with room gets. -/
theorem giveTo_ok_iff (hq : st.queues[i]? = some q)
    (hroom : q.curNumBuffers < cfg.maxSstableHeight) :
    giveTo d oldLimit st i = .ok st' ↔ computedShare d oldLimit i ≤ intMax
      ∧ ∃ bs holding, st.holding.takeBack
          (min (computedShare d oldLimit i) (oldLimit - st.numOldBuffersGiven)) = .ok (bs, holding)
        ∧ st' =
          { gifts := st.gifts ++ [(i, bs)]
            numOldBuffersGiven := st.numOldBuffersGiven + bs.length
            holding
            queues := st.queues.set i (q.pushAll bs) } := by
  rw [giveTo, bind_eq_ok]
  simp only [elementAt_ok, hq, Option.some.injEq, exists_eq_left', if_pos hroom, bind_eq_ok]
  unfold oldQuantity computedShare
  constructor
  · rintro ⟨quantity, hquantity, ⟨bs, holding⟩, htake, heq⟩
    split_ifs at hquantity with hint
    cases hquantity
    exact ⟨hint, bs, holding, htake, (Except.ok.inj heq).symm⟩
  · rintro ⟨hint, bs, holding, htake, rfl⟩
    exact ⟨_, if_pos hint, (bs, holding), htake, rfl⟩

/-- The distribution is the one of `giveShares`, with the shares that are computed. -/
theorem giveAll_giveShares (hints : ∀ i ∈ targets, computedShare d oldLimit i ≤ intMax)
    (st : Giving α) :
    (giveAll d oldLimit targets st).map
        (fun st => (st.numOldBuffersGiven, st.holding, st.queues))
      = Buffers.giveShares cfg oldLimit (targets.map fun i => (i, computedShare d oldLimit i))
        st.numOldBuffersGiven st.holding st.queues := by
  induction targets generalizing st with
  | nil => rfl
  | cons i targets ih =>
      obtain ⟨hint, hints⟩ := List.forall_mem_cons.mp hints
      have hquantity : oldQuantity d oldLimit i = .ok (computedShare d oldLimit i) := if_pos hint
      rw [giveAll, giveTo, List.map_cons, Buffers.giveShares]
      cases elementAt st.queues i with
      | error e => rfl
      | ok q =>
          by_cases hroom : q.curNumBuffers < cfg.maxSstableHeight
          · simp only [bind, Except.bind, if_pos hroom, hquantity]
            cases htake : st.holding.takeBack
                (min (computedShare d oldLimit i) (oldLimit - st.numOldBuffersGiven)) with
            | error e => rfl
            | ok r =>
                obtain ⟨-, hlen, -, -⟩ := Holding.takeBack_spec htake
                rw [← hlen]
                exact ih hints _
          · simp only [bind, Except.bind, if_neg hroom]
            exact ih hints st

/-- The queues of the SSTables have room. -/
def Open (cfg : Config) (queues : List (BufferQueue α)) (targets : List ℕ) : Prop :=
  ∀ i ∈ targets, ∃ q, queues[i]? = some q ∧ q.curNumBuffers < cfg.maxSstableHeight

/-- A queue that is none of theirs does not matter. -/
theorem Open.set {queues : List (BufferQueue α)} (h : Open cfg queues targets) (hi : i ∉ targets)
    (q : BufferQueue α) : Open cfg (queues.set i q) targets := by
  intro j hj
  have hne : i ≠ j := fun heq => hi (heq ▸ hj)
  obtain ⟨q', hq', hroom⟩ := h j hj
  exact ⟨q', by rw [List.getElem?_set_ne hne, hq'], hroom⟩

theorem total_cons (g : ℕ × ℕ) (gifts : List (ℕ × ℕ)) : total (g :: gifts) = g.2 + total gifts := by
  rw [total, total, List.map_cons, List.sum_cons]

/-- What the distribution gives. -/
theorem giveAll_gifts (hnodup : targets.Nodup) (hopen : Open cfg st.queues targets)
    (hok : giveAll d oldLimit targets st = .ok st') :
    st'.gifts.map (fun g => (g.1, g.2.length)) = st.gifts.map (fun g => (g.1, g.2.length))
        ++ amounts (computedShare d oldLimit) oldLimit targets st.numOldBuffersGiven
      ∧ st'.numOldBuffersGiven = st.numOldBuffersGiven
        + total (amounts (computedShare d oldLimit) oldLimit targets st.numOldBuffersGiven) := by
  induction targets generalizing st with
  | nil =>
      cases hok
      exact ⟨(List.append_nil _).symm, rfl⟩
  | cons i targets ih =>
      obtain ⟨hi, hnodup⟩ := List.nodup_cons.mp hnodup
      obtain ⟨⟨q, hq, hroom⟩, hopen⟩ := List.forall_mem_cons.mp hopen
      obtain ⟨st₁, hone, hrest⟩ := bind_eq_ok.mp hok
      obtain ⟨-, bs, holding, htake, rfl⟩ := (giveTo_ok_iff hq hroom).mp hone
      obtain ⟨-, hlen, -, -⟩ := Holding.takeBack_spec htake
      obtain ⟨hgifts, hnum⟩ := ih hnodup (Open.set hopen hi _) hrest
      rw [hlen] at hgifts hnum
      rw [amounts, total_cons]
      refine ⟨?_, by rw [hnum, Nat.add_assoc]⟩
      rw [hgifts, List.map_append, List.append_assoc, List.map_singleton, List.singleton_append,
        hlen]

/-- It has an outcome if the shares are `int`s and the SSTable has the buffers. -/
theorem giveAll_ok_iff (hnodup : targets.Nodup) (hopen : Open cfg st.queues targets)
    (hlen : st.holding.insertBuffersFrom ≤ st.holding.pageCacheBuffers.length) :
    (∃ st', giveAll d oldLimit targets st = .ok st')
      ↔ (∀ i ∈ targets, computedShare d oldLimit i ≤ intMax)
        ∧ total (amounts (computedShare d oldLimit) oldLimit targets st.numOldBuffersGiven)
          ≤ st.holding.insertBuffersFrom := by
  induction targets generalizing st with
  | nil => exact iff_of_true ⟨st, rfl⟩ ⟨nofun, Nat.zero_le _⟩
  | cons i targets ih =>
      obtain ⟨hi, hnodup⟩ := List.nodup_cons.mp hnodup
      obtain ⟨⟨q, hq, hroom⟩, hopen⟩ := List.forall_mem_cons.mp hopen
      rw [amounts, total_cons, List.forall_mem_cons]
      constructor
      · rintro ⟨st', hok⟩
        obtain ⟨st₁, hone, hrest⟩ := bind_eq_ok.mp hok
        obtain ⟨hint, bs, holding, htake, rfl⟩ := (giveTo_ok_iff hq hroom).mp hone
        obtain ⟨hle, hbs, rfl, -⟩ := Holding.takeBack_spec htake
        obtain ⟨hints, htotal⟩ := (ih hnodup (Open.set hopen hi _)
          (by dsimp only; omega)).mp ⟨st', hrest⟩
        rw [hbs] at htotal
        dsimp only at htotal ⊢
        exact ⟨⟨hint, hints⟩, by omega⟩
      · rintro ⟨⟨hint, hints⟩, htotal⟩
        dsimp only at htotal
        obtain ⟨⟨bs, holding⟩, htake⟩ := Buffers.takeBack_of_le
          (k := min (computedShare d oldLimit i) (oldLimit - st.numOldBuffersGiven)) (by omega) hlen
        have hone := (@giveTo_ok_iff α cfg d oldLimit i st _ q hq hroom).mpr
          ⟨hint, bs, holding, htake, rfl⟩
        obtain ⟨-, hbs, rfl, -⟩ := Holding.takeBack_spec htake
        obtain ⟨st', hrest⟩ := (@ih
          { gifts := st.gifts ++ [(i, bs)]
            numOldBuffersGiven := st.numOldBuffersGiven + bs.length
            holding := { st.holding with
              insertBuffersFrom := st.holding.insertBuffersFrom
                - min (computedShare d oldLimit i) (oldLimit - st.numOldBuffersGiven) }
            queues := st.queues.set i (q.pushAll bs) }
          hnodup (Open.set hopen hi _) (by dsimp only; omega)).mpr
            ⟨hints, by rw [hbs]; dsimp only; omega⟩
        exact ⟨st', bind_eq_ok.mpr ⟨_, hone, hrest⟩⟩

end Giving

/-! ## Computed and proper shares -/

section Shares

variable {d : Decomposition cfg} {oldLimit i given : ℕ} {targets : List ℕ} {share : ℕ → ℕ}

/-- Nothing is left for anybody. -/
theorem amounts_exhausted (share : ℕ → ℕ) (targets : List ℕ) (hgiven : oldLimit ≤ given) :
    amounts share oldLimit targets given = targets.map fun i => (i, 0) := by
  induction targets with
  | nil => rfl
  | cons i targets ih =>
      rw [amounts, Nat.sub_eq_zero_of_le hgiven, Nat.min_zero, Nat.add_zero, ih, List.map_cons]

theorem total_exhausted (targets : List ℕ) : total (targets.map fun i => (i, 0)) = 0 := by
  rw [total, List.map_map]
  exact List.sum_map_zero

/-- A share that is at least the limit takes all there is. -/
theorem amounts_whole (targets : List ℕ) (hshare : oldLimit ≤ share i) :
    amounts share oldLimit (i :: targets) 0 = (i, oldLimit) :: targets.map fun i => (i, 0) := by
  rw [amounts, Nat.sub_zero, Nat.min_eq_right hshare, Nat.zero_add,
    amounts_exhausted share targets (Nat.le_refl _)]

theorem amounts_none (targets : List ℕ) (hshare : share i = 0) :
    amounts share oldLimit (i :: targets) 0 = (i, 0) :: amounts share oldLimit targets 0 := by
  rw [amounts, hshare, Nat.zero_min]

theorem computedShare_whole (hpos : 0 < d.totalDecompSize)
    (hwhole : d.totalDecompSize ≤ expectedSize d i) : oldLimit ≤ computedShare d oldLimit i :=
  Nat.le_mul_of_pos_left _ (Nat.div_pos hwhole hpos)

theorem computedShare_part (hpart : expectedSize d i < d.totalDecompSize) :
    computedShare d oldLimit i = 0 := by
  rw [computedShare, proportion, Nat.div_eq_of_lt hpart, Nat.zero_mul]

theorem properShare_whole (hpos : 0 < d.totalDecompSize)
    (hwhole : d.totalDecompSize ≤ expectedSize d i) : oldLimit ≤ properShare d oldLimit i := by
  rw [properShare, Nat.le_div_iff_mul_le hpos, Nat.mul_comm]
  exact Nat.mul_le_mul_right _ hwhole

/-- The two give the same amounts up to the first whole batch only if the proper shares before it
are none. -/
theorem amounts_eq_iff (hpos : 0 < d.totalDecompSize) (targets : List ℕ) :
    amounts (computedShare d oldLimit) oldLimit targets 0
        = amounts (properShare d oldLimit) oldLimit targets 0
      ↔ ∀ i ∈ targets.takeWhile (expectedSize d · < d.totalDecompSize),
        expectedSize d i * oldLimit < d.totalDecompSize := by
  induction targets with
  | nil => exact iff_of_true rfl nofun
  | cons i targets ih =>
      rcases Nat.lt_or_ge (expectedSize d i) d.totalDecompSize with hpart | hwhole
      · rw [amounts_none targets (computedShare_part hpart),
          List.takeWhile_cons_of_pos (by simpa using hpart), List.forall_mem_cons, ← ih]
        constructor
        · intro heq
          obtain ⟨hhead, htail⟩ := List.cons.inj heq
          have hmin : 0 = min (properShare d oldLimit i) (oldLimit - 0) := congrArg Prod.snd hhead
          have hzero : properShare d oldLimit i = 0 ∨ oldLimit = 0 := by omega
          rw [← hmin] at htail
          refine ⟨?_, htail⟩
          rcases hzero with hzero | hzero
          · exact (Nat.div_eq_zero_iff_lt hpos).mp hzero
          · rw [hzero, Nat.mul_zero]
            exact hpos
        · rintro ⟨hsmall, htail⟩
          have hnone : properShare d oldLimit i = 0 := Nat.div_eq_of_lt hsmall
          rw [amounts_none targets hnone, htail]
      · rw [amounts_whole targets (computedShare_whole hpos hwhole),
          amounts_whole targets (properShare_whole hpos hwhole),
          List.takeWhile_cons_of_neg (by simpa using hwhole)]
        exact iff_of_true rfl nofun

/-- Somebody gets all, or nobody gets anything. -/
theorem total_computed (hpos : 0 < d.totalDecompSize) (targets : List ℕ) :
    total (amounts (computedShare d oldLimit) oldLimit targets 0)
      = if ∃ i ∈ targets, d.totalDecompSize ≤ expectedSize d i then oldLimit else 0 := by
  induction targets with
  | nil => rw [if_neg (by simp)]; rfl
  | cons i targets ih =>
      rcases Nat.lt_or_ge (expectedSize d i) d.totalDecompSize with hpart | hwhole
      · rw [amounts_none targets (computedShare_part hpart), total_cons, Nat.zero_add, ih]
        simp [hpart.not_ge]
      · rw [amounts_whole targets (computedShare_whole hpos hwhole), total_cons, total_exhausted,
          Nat.add_zero, if_pos ⟨i, List.mem_cons_self, hwhole⟩]

/-- **The shares of a batch.**  For every decomposition with a size, every limit, and SSTables with
room in the order in which their queues can be had: each one gets its proper share of the buffers if
and only if the computed shares are `int`s, every part before the first one of the whole size is too
small for a buffer, and the SSTable owns the buffers if there is a part of the whole size. -/
theorem sharedOut_iff {holding : Holding α} {queues : List (BufferQueue α)}
    (hpos : 0 < d.totalDecompSize) (hnodup : targets.Nodup) (hopen : Open cfg queues targets)
    (hlen : holding.insertBuffersFrom ≤ holding.pageCacheBuffers.length) :
    SharedOut d oldLimit targets holding queues
      ↔ (∀ i ∈ targets, expectedSize d i / d.totalDecompSize * oldLimit ≤ intMax)
        ∧ (∀ i ∈ targets.takeWhile (expectedSize d · < d.totalDecompSize),
          expectedSize d i * oldLimit < d.totalDecompSize)
        ∧ ((∃ i ∈ targets, d.totalDecompSize ≤ expectedSize d i) →
          oldLimit ≤ holding.insertBuffersFrom) := by
  have hok := @giveAll_ok_iff α cfg d oldLimit targets (.start holding queues) hnodup hopen hlen
  have htotal := @total_computed cfg d oldLimit hpos targets
  have hle : total (amounts (computedShare d oldLimit) oldLimit targets 0) ≤ oldLimit := by
    rw [htotal]
    split_ifs
    · exact Nat.le_refl _
    · exact Nat.zero_le _
  have howns : total (amounts (computedShare d oldLimit) oldLimit targets 0)
        ≤ holding.insertBuffersFrom
      ↔ ((∃ i ∈ targets, d.totalDecompSize ≤ expectedSize d i) →
        oldLimit ≤ holding.insertBuffersFrom) := by
    rw [htotal]
    split_ifs with hwhole
    · exact ⟨fun h _ => h, fun h => h hwhole⟩
    · exact iff_of_true (Nat.zero_le _) fun h => absurd h hwhole
  rw [← amounts_eq_iff hpos, ← howns]
  constructor
  · rintro ⟨st, hst, hgifts, -⟩
    obtain ⟨hints, henough⟩ := hok.mp ⟨st, hst⟩
    exact ⟨hints, (giveAll_gifts hnodup hopen hst).1.symm.trans hgifts, henough⟩
  · rintro ⟨hints, heq, henough⟩
    obtain ⟨st, hst⟩ := hok.mpr ⟨hints, henough⟩
    obtain ⟨hgifts, hnum⟩ := giveAll_gifts hnodup hopen hst
    have hstart : (Giving.start holding queues).numOldBuffersGiven = 0 := rfl
    refine ⟨st, hst, hgifts.trans heq, ?_⟩
    rw [hnum, hstart, Nat.zero_add]
    exact hle

/-- A level of two SSTables. -/
def twoTableConfig : Config :=
  resizedConfig 1000 2 1 Nat.two_pos two_le_uintMax Nat.one_pos

/-- A batch of two requests, with the given number of them for each SSTable. -/
def twoRequests (first second : ℕ) : Decomposition twoTableConfig where
  slots := .null twoTableConfig
  expectedSstableSizes := [first, second]
  numReqBatches := 2
  totalDecompSize := 2

/-- A buffer queue that counts five buffers. -/
def fiveBuffers : BufferQueue ℕ := ⟨List.replicate 40 none, 0, 0, 5, 0⟩

theorem open_fiveBuffers : Open twoTableConfig [fiveBuffers, fiveBuffers] [0, 1] :=
  List.forall_mem_cons.mpr ⟨⟨fiveBuffers, rfl, by decide⟩,
    List.forall_mem_cons.mpr ⟨⟨fiveBuffers, rfl, by decide⟩, nofun⟩⟩

/-- Both requests are for the first SSTable, and it gets both buffers. -/
theorem sharedOut_whole_batch :
    SharedOut (twoRequests 2 0) 2 [0, 1] ⟨[some 7, some 8], 2⟩ [fiveBuffers, fiveBuffers] :=
  (sharedOut_iff (by decide) (by decide) open_fiveBuffers (by decide)).mpr (by decide)

/-- One request for each of them, and neither gets one of the two buffers. -/
theorem halves_not_sharedOut :
    ¬ SharedOut (twoRequests 1 1) 2 [0, 1] ⟨[some 7, some 8], 2⟩ [fiveBuffers, fiveBuffers] := by
  rintro ⟨st, hst, hgifts, -⟩
  have hcomputed := (giveAll_gifts (by decide) open_fiveBuffers hst).1
  rw [hgifts] at hcomputed
  exact absurd hcomputed (by decide)

end Shares

end Distribution

end RingDB
