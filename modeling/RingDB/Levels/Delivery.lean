import RingDB.Levels.Enqueue
import Mathlib.Data.List.Forall2

/-!
# Delivery of a decomposition

Every part of a decomposition is to reach the wait queue of its SSTable exactly once, and the
catch-all one queue of the level exactly once.  `Delivered` says so about the lists that the queues
hold before and after; `Delivers` adds that the loop ends.

`decompose` returns three shapes: nothing, the catch-all alone, and a compaction for one SSTable.
The first and the last are delivered, the one in between is not.
-/

namespace RingDB

open Core Enqueue

variable {cfg : Config}

/-- A decomposition that `decompose` returns, on some level and for some batch. -/
structure Returned (cfg : Config) where
  mem : Memory
  alloc : Allocator cfg
  level : LevelInfo cfg
  heap : Heap cfg
  reqBatch : ℕ
  level' : LevelInfo cfg
  heap' : Heap cfg
  decomp : Decomposition cfg
  decompose_eq : level.decompose mem alloc heap reqBatch = .ok (level', heap', decomp)

/-- The wait queue is single-threaded and holds the list. -/
def Quiet (q : WaitQueue) (l : List ℕ) : Prop := q.Holds l ∧ q.isSingleThread = true

/-- The wait queues of a level, all single-threaded, with the batches that they hold. -/
structure QuietLevel (cfg : Config) where
  queues : List WaitQueue
  contents : List (List ℕ)
  length_queues : queues.length = cfg.levelFactor
  quiet : List.Forall₂ Quiet queues contents

/-- Each part was appended to the queue of its SSTable, and the catch-all to the queue that
`rider` names. -/
def Delivered (d : Decomposition cfg) (before after : List (List ℕ)) : Prop :=
  ∃ rider : Option ℕ, ((part d cfg.levelFactor).isSome ↔ rider.isSome)
    ∧ (∀ j, rider = some j → j < cfg.levelFactor)
    ∧ ∀ i < cfg.levelFactor, after[i]? = before[i]?.map fun l =>
        l ++ (part d i).toList ++ if rider = some i then (part d cfg.levelFactor).toList else []

/-- The loop ends, and then everything is delivered. -/
def Delivers (d : Decomposition cfg) (q : QuietLevel cfg) (stale : List Bool) : Prop :=
  ∃ fuel queues after, enqueue d fuel q.queues stale = .ok queues
    ∧ List.Forall₂ Quiet queues after ∧ Delivered d q.contents after

/-! ## The three shapes -/

theorem part_eq_none {d : Decomposition cfg} {i : ℕ} (h : d.slots.data[i]? = some none) :
    part d i = none := by
  rw [part, h]
  rfl

/-- The only part of a compaction's decomposition is the compaction. -/
theorem part_assign (reqBatch : ℕ) {i : ℕ} (hi : i < cfg.levelFactor) (j : ℕ) :
    part (LevelInfo.assign cfg reqBatch i) j = if j = i then some reqBatch else none := by
  rw [part, LevelInfo.assign_slot hi j]
  split_ifs <;> rfl

theorem assign_size (reqBatch i : ℕ) : (LevelInfo.assign cfg reqBatch i).totalDecompSize ≠ 0 :=
  (Nat.mul_pos (Nat.two_pow_pos _) (Nat.two_pow_pos _)).ne'

/-- Nothing to deliver. -/
theorem delivers_null {d : Decomposition cfg} (q : QuietLevel cfg) (stale : List Bool)
    (hsize : d.totalDecompSize ≠ 0) (hnum : d.numReqBatches = 0)
    (hnull : ∀ i ≤ cfg.levelFactor, part d i = none) : Delivers d q stale := by
  refine ⟨0, q.queues, q.contents, ?_, q.quiet, none, ?_, by simp, fun i hi => ?_⟩
  · rw [enqueue, if_neg hsize, enqueueLoop, if_neg (by rw [hnum]; exact Nat.not_lt_zero _)]
    rfl
  · simp [hnull _ (Nat.le_refl _)]
  · simp [hnull i hi.le]

/-- The catch-all alone. -/
theorem not_delivers_catchAll {d : Decomposition cfg} (q : QuietLevel cfg) (stale : List Bool)
    (hnum : d.numReqBatches = 1) (hnull : ∀ i < cfg.levelFactor, part d i = none) :
    ¬ Delivers d q stale := by
  rintro ⟨fuel, queues, after, henq, -, -⟩
  have hloop : enqueueLoop d fuel (start d q.queues stale) = .error .diverges :=
    enqueueLoop_catchAll hnull (by rw [hnum]; exact Nat.zero_lt_one)
      (Nat.le_of_eq q.length_queues.symm) fuel
  rw [enqueue, hloop] at henq
  split_ifs at henq
  cases henq

/-- The push of one part onto a quiet queue, with no catch-all to ride on it. -/
theorem offer_quiet {d : Decomposition cfg} {st : Enqueue} {i p : ℕ} {wq : WaitQueue} {l : List ℕ}
    (hq : st.queues[i]? = some wq) (hquiet : Quiet wq l) (hpart : part d i = some p)
    (hins : st.inserted.getD i false = false) (hcatch : st.catchAll = none) :
    ∃ wq' st', offer d i st = .ok st' ∧ Quiet wq' (l ++ [p]) ∧ st'.queues = st.queues.set i wq'
      ∧ st'.numQueued = st.numQueued + 1 := by
  obtain ⟨wq', hpush, hholds, hs⟩ :=
    WaitQueue.tryPushBack_holds hquiet.1 p (st.couldContendWithConsumer.getD i false) hquiet.2
  refine ⟨wq', { st with
    queues := st.queues.set i wq'
    inserted := st.inserted.set i true
    couldContendWithConsumer := st.couldContendWithConsumer.set i false
    catchAll := none
    numQueued := st.numQueued + 1 }, ?_, ⟨hholds, hs⟩, rfl, rfl⟩
  simp only [offer, hq, hpart, hins, hquiet.2, push, hpush, ride, hcatch, bind, Except.bind, pure,
    Except.pure, Bool.not_true, hs, if_true, Bool.false_eq_true, if_false]

/-- Appending to one queue of a level. -/
theorem forall₂_append_quiet {queues : List WaitQueue} {contents : List (List ℕ)}
    (h : List.Forall₂ Quiet queues contents) {i p : ℕ} {wq : WaitQueue}
    (hnew : ∀ l, contents[i]? = some l → Quiet wq (l ++ [p])) :
    List.Forall₂ Quiet (queues.set i wq) (contents.modify i (· ++ [p])) := by
  induction h generalizing i with
  | nil => cases i <;> exact List.Forall₂.nil
  | cons hq hrest ih =>
      cases i with
      | zero => exact List.Forall₂.cons (hnew _ rfl) hrest
      | succ i => exact List.Forall₂.cons hq (ih hnew)

/-- A compaction for one SSTable: one pass, and the queue of that SSTable has it. -/
theorem enqueue_assign (reqBatch : ℕ) {i : ℕ} (hi : i < cfg.levelFactor) (q : QuietLevel cfg)
    (stale : List Bool) (fuel : ℕ) :
    ∃ queues, enqueue (LevelInfo.assign cfg reqBatch i) (fuel + 1) q.queues stale = .ok queues
      ∧ List.Forall₂ Quiet queues (q.contents.modify i (· ++ [reqBatch])) := by
  have hpart : ∀ j, part (LevelInfo.assign cfg reqBatch i) j
      = if j = i then some reqBatch else none := part_assign reqBatch hi
  have hlen := q.length_queues
  have hlt : i < q.queues.length := by omega
  have hlt' : i < q.contents.length := by rw [← q.quiet.length_eq]; exact hlt
  have hcatch : part (LevelInfo.assign cfg reqBatch i) cfg.levelFactor = none := by
    rw [hpart, if_neg (by omega)]
  have hqueue : (start (LevelInfo.assign cfg reqBatch i) q.queues stale).queues[i]?
      = some q.queues[i] := List.getElem?_eq_getElem hlt
  obtain ⟨wq, st, hoffer, hwq, hqueues, hnum⟩ := offer_quiet hqueue (q.quiet.get hlt hlt')
    ((hpart i).trans (if_pos rfl))
    (by simp only [start, List.getD_eq_getElem?_getD, List.getElem?_replicate, if_pos hi]; rfl)
    hcatch
  have hpass : pass (LevelInfo.assign cfg reqBatch i) cfg.levelFactor 0
      (start (LevelInfo.assign cfg reqBatch i) q.queues stale) = .ok st := by
    refine pass_single hi (Nat.le_of_eq hlen.symm) ?_ (fun j _ hne => ?_) hoffer
    · rw [hqueues, List.length_set]
      exact Nat.le_of_eq hlen.symm
    · rw [hpart, if_neg hne]
  have hone : ¬ st.numQueued < (LevelInfo.assign cfg reqBatch i).numReqBatches := by
    rw [hnum]
    exact Nat.lt_irrefl 1
  have hzero : (start (LevelInfo.assign cfg reqBatch i) q.queues stale).numQueued
      < (LevelInfo.assign cfg reqBatch i).numReqBatches := Nat.zero_lt_one
  have hdone : enqueueLoop (LevelInfo.assign cfg reqBatch i) fuel st = .ok st := by
    cases fuel with
    | zero => rw [enqueueLoop, if_neg hone]
    | succ fuel => rw [enqueueLoop, if_neg hone]
  refine ⟨q.queues.set i wq, ?_, forall₂_append_quiet q.quiet fun l hl => ?_⟩
  · rw [enqueue, if_neg (assign_size _ _), enqueueLoop, if_pos hzero, hpass]
    change Enqueue.queues <$> enqueueLoop _ fuel st = _
    rw [hdone]
    exact congrArg Except.ok hqueues
  · rw [List.getElem?_eq_getElem hlt'] at hl
    cases hl
    exact hwq

theorem delivers_assign {reqBatch i : ℕ} (hi : i < cfg.levelFactor) (q : QuietLevel cfg)
    (stale : List Bool) : Delivers (LevelInfo.assign cfg reqBatch i) q stale := by
  rcases enqueue_assign reqBatch hi q stale 0 with ⟨queues, henq, hquiet⟩
  have hcatch : part (LevelInfo.assign cfg reqBatch i) cfg.levelFactor = none := by
    rw [part_assign reqBatch hi, if_neg (by omega)]
  refine ⟨1, queues, _, henq, hquiet, none, by simp [hcatch], by simp, fun j hj => ?_⟩
  rw [part_assign reqBatch hi, List.getElem?_modify]
  by_cases hji : i = j
  · simp [hji]
  · simp [hji, Ne.symm hji]

/-! ## Delivery -/

/-- **A decomposition is delivered exactly when it has a size to divide by and is not the catch-all
alone.** -/
theorem returned_delivers_iff (r : Returned cfg) (q : QuietLevel cfg) (stale : List Bool) :
    Delivers r.decomp q stale
      ↔ r.decomp.totalDecompSize ≠ 0
        ∧ (part r.decomp cfg.levelFactor = none
          ∨ ∃ i < cfg.levelFactor, part r.decomp i ≠ none) := by
  rcases LevelInfo.decompose_cases r.decompose_eq with ⟨b, -, ⟨-, -, hout⟩ | ⟨-, -, i, hi, hd, -⟩⟩
  · have hnull : ∀ i < cfg.levelFactor, part r.decomp i = none :=
      fun i hi => part_eq_none (hout.below i hi)
    constructor
    · intro h
      have hsize : r.decomp.totalDecompSize ≠ 0 := by
        rintro hzero
        rcases h with ⟨fuel, queues, after, henq, -⟩
        rw [enqueue, if_pos hzero] at henq
        cases henq
      refine ⟨hsize, Or.inl ?_⟩
      rcases hout.parts with ⟨-, -, hslots, -⟩ | ⟨-, hnum, -⟩
      · exact part_eq_none (hslots ▸ LevelInfo.Slots.null_get (Nat.le_refl _))
      · exact absurd h (not_delivers_catchAll q stale hnum hnull)
    · rintro ⟨hsize, hcatch | ⟨i, hi, hpart⟩⟩
      · rcases hout.parts with ⟨-, -, -, hnum⟩ | ⟨-, -, p, hp⟩
        · refine delivers_null q stale hsize hnum fun i hi => ?_
          rcases Nat.lt_or_eq_of_le hi with hlt | rfl
          · exact hnull i hlt
          · exact hcatch
        · rw [part, hp] at hcatch
          cases hcatch
      · exact absurd (hnull i hi) hpart
  · rw [hd]
    have hself : part (LevelInfo.assign cfg r.reqBatch i) i ≠ none := by
      rw [part_assign _ hi, if_pos rfl]
      exact Option.some_ne_none _
    exact ⟨fun _ => ⟨assign_size _ _, Or.inr ⟨i, hi, hself⟩⟩, fun _ => delivers_assign hi q stale⟩

/-- The wait queues of a level as constructed. -/
def idleLevel (cfg : Config) : QuietLevel cfg where
  queues := List.replicate cfg.levelFactor { isSingleThread := true }
  contents := List.replicate cfg.levelFactor []
  length_queues := List.length_replicate ..
  quiet := by
    induction cfg.levelFactor with
    | zero => exact List.Forall₂.nil
    | succ n ih => exact List.Forall₂.cons ⟨Or.inl ⟨rfl, rfl⟩, rfl⟩ ih

/-- A READ batch of two requests, the first of them already removed. -/
def removedThenLive : RequestBatch oneTableConfig :=
  { RequestBatch.zeroed oneTableConfig .read with
    readwritePool := { entries := [⟨.read, 0, -1, 0⟩, ⟨.read, 0, 1, 8⟩] } }

/-- **On a new level with one SSTable that batch becomes the catch-all alone**, and the loop of
`insert_into_wqs` runs forever. -/
theorem removedThenLive_not_delivered :
    ∃ r : Returned oneTableConfig, r.level = LevelInfo.fresh oneTableConfig
      ∧ r.heap[r.reqBatch]? = some removedThenLive
      ∧ ¬ Delivers r.decomp (idleLevel oneTableConfig) [] := by
  let r : Returned oneTableConfig :=
    { mem := fun _ => 0
      alloc := Allocator.zeroed oneTableConfig
      level := LevelInfo.fresh oneTableConfig
      heap := [removedThenLive]
      reqBatch := 0
      level' := _
      heap' := _
      decomp := _
      decompose_eq := rfl }
  refine ⟨r, rfl, rfl, not_delivers_catchAll _ _ rfl fun i hi => ?_⟩
  rw [Nat.lt_one_iff.1 hi]
  rfl

end RingDB
