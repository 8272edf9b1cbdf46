import RingDB.Levels.SharedQueues
import RingDB.Threads.SingleThread

/-!
# The levels over their linked queues

In `System` a wait queue is the list that it holds, and an insertion is `deliver`.  Here the queues
are the linked nodes of the source, an insertion is the loop of `insert_into_wqs` observed for
`fuel` passes, and there is no record of what happened but the answers that went out and the flushes
that were submitted.  The buffers that `insert_into_wqs` hands to a lower level are left out, as in
`System`.

* `LinkedSystem` — the levels as the source has them, with the flags that `initialize` sets.
* `Represents` — the queues are single-threaded and hold the lists of a `System`, and all else is
  the same.
* **`insertIntoWqs_agrees`**, **`work_agrees`** — what the main thread and a worker do to the one
  they do to the other, where they end in an error as well.
-/

namespace RingDB

open Core

variable {cfg : Config}

/-- An SSTable as its worker sees it. -/
structure LinkedSstable where
  queue : WaitQueue
  isFlushedTo : Bool := false
  waitingOnIo : Bool := false

/-- A level with its SSTables. -/
structure LinkedLevel (cfg : Config) where
  info : LevelInfo cfg
  tables : List LinkedSstable

structure LinkedSystem (cfg : Config) where
  levels : List (LinkedLevel cfg)
  heap : Heap cfg
  mem : Memory
  isPracticallyFull : Bool := false
  /-- Level and index of the SSTables whose flush was submitted and is not reported yet. -/
  inFlight : List (ℕ × ℕ) := []
  /-- The flushes that were submitted: the batch, and the SSTable as above. -/
  flushes : List (ℕ × ℕ × ℕ) := []
  /-- The READ batches that went back to the network thread. -/
  answers : List ℕ := []

/-- The SSTables with their new queues. -/
def LinkedLevel.receive (lv : LinkedLevel cfg) (queues : List WaitQueue) : List LinkedSstable :=
  List.zipWith (fun t queue => { t with queue }) lv.tables queues

namespace LinkedSystem

/-- The levels as `initialize` sets them up.  `isFlushedTo` is what the initialisation reads found
on disk. -/
def start (cfg : Config) (flags : Flags) (isFlushedTo : ℕ → ℕ → Bool) (heap : Heap cfg)
    (mem : Memory) : LinkedSystem cfg where
  levels := (List.range cfg.numSstableLevels).map fun l =>
    { info := LevelInfo.fresh cfg
      tables := (List.range cfg.levelFactor).map fun i =>
        { queue := { isSingleThread := flags.waitQueue l i }, isFlushedTo := isFlushedTo l i } }
  heap := heap
  mem := mem

def table? (s : LinkedSystem cfg) (l i : ℕ) : Option LinkedSstable :=
  s.levels[l]?.bind fun lv => lv.tables[i]?

def modifyTable (s : LinkedSystem cfg) (l i : ℕ) (f : LinkedSstable → LinkedSstable) :
    LinkedSystem cfg :=
  { s with levels := s.levels.modify l fun lv => { lv with tables := lv.tables.modify i f } }

/-- `insert_into_wqs(l, level_infos, p)`, without the buffers as `System.insertIntoWqs`.  What the
stack holds where `could_contend_with_consumer` will be is `stale`, which may depend on memory. -/
def insertIntoWqs (alloc : Allocator cfg) (fuel : ℕ) (stale : Memory → List Bool)
    (s : LinkedSystem cfg) (l p : ℕ) : Except Fault (LinkedSystem cfg) :=
  match s.levels[l]? with
  | none => .error .outOfBounds
  | some lv => do
      let (info, heap, d) ← lv.info.decompose s.mem alloc s.heap p
      let queues ← enqueue d fuel (lv.tables.map LinkedSstable.queue) (stale s.mem)
      pure { s with levels := s.levels.set l { info, tables := lv.receive queues }, heap }

/-- A READ batch: searched for where it can be, else passed on, or back from the last level. -/
def workRead (alloc : Allocator cfg) (fuel : ℕ) (stale : Memory → List Bool)
    (search : LinkedSystem cfg → ℕ → ℕ → ℕ → Except Fault (LinkedSystem cfg))
    (s : LinkedSystem cfg) (l i p : ℕ) (presentInLevel isFlushedTo : Bool) :
    Except Fault (LinkedSystem cfg) :=
  if presentInLevel && isFlushedTo then search s l i p
  else if l + 1 < s.levels.length then s.insertIntoWqs alloc fuel stale (l + 1) p
  else .ok { s with answers := s.answers ++ [p] }

/-- A compaction batch: passed on, flushed, or deleted. -/
def workCompaction (alloc : Allocator cfg) (fuel : ℕ) (stale : Memory → List Bool)
    (s : LinkedSystem cfg) (l i p : ℕ) (isFlushedTo : Bool) : Except Fault (LinkedSystem cfg) :=
  if isFlushedTo ∧ l + 1 < s.levels.length then s.insertIntoWqs alloc fuel stale (l + 1) p
  else if ¬ isFlushedTo then
    .ok (modifyTable { s with
        inFlight := s.inFlight ++ [(l, i)]
        flushes := s.flushes ++ [(p, l, i)] }
      l i fun t => { t with waitingOnIo := true })
  else .ok s

/-- A worker's visit of SSTable `i` of level `l`. -/
def work (alloc : Allocator cfg) (fuel : ℕ) (stale : Memory → List Bool)
    (search : LinkedSystem cfg → ℕ → ℕ → ℕ → Except Fault (LinkedSystem cfg))
    (s : LinkedSystem cfg) (l i : ℕ) : Except Fault (LinkedSystem cfg) :=
  match s.table? l i with
  | none => .ok s
  | some t =>
      if t.waitingOnIo then .ok s
      else do
        let (queue, batch) ← t.queue.popFront
        let s := s.modifyTable l i fun t => { t with queue }
        match batch with
        | none => pure s
        | some p => do
            let b ← s.heap.deref p
            if b.reqType = .read then
              s.workRead alloc fuel stale search l i p b.readwritePool.presentInLevel t.isFlushedTo
            else s.workCompaction alloc fuel stale l i p t.isFlushedTo

/-- The scheduler message of a flush: the SSTable's ring is empty, so it counts as flushed to. -/
def report (s : LinkedSystem cfg) (l i : ℕ) : LinkedSystem cfg :=
  if (l, i) ∈ s.inFlight then
    modifyTable { s with
        inFlight := s.inFlight.erase (l, i)
        isPracticallyFull := l + 1 == s.levels.length }
      l i fun t => { t with isFlushedTo := true }
  else s

end LinkedSystem

/-! ## What the queues hold -/

/-- An SSTable with the list that its queue holds. -/
structure LinkedSstable.Represents (t : LinkedSstable) (t' : Sstable) : Prop where
  queue : Quiet t.queue t'.queue
  isFlushedTo : t.isFlushedTo = t'.isFlushedTo
  waitingOnIo : t.waitingOnIo = t'.waitingOnIo

structure LinkedLevel.Represents (lv : LinkedLevel cfg) (lv' : SystemLevel cfg) : Prop where
  info : lv.info = lv'.info
  length : lv.tables.length = cfg.levelFactor
  tables : List.Forall₂ LinkedSstable.Represents lv.tables lv'.tables

/-- Where a flush goes to, without the batch and the history. -/
def Placement.place (f : Placement) : ℕ × ℕ := (f.level, f.index)

/-- The system over lists that the linked queues stand for. -/
structure LinkedSystem.Represents (s : LinkedSystem cfg) (t : System cfg) : Prop where
  levels : List.Forall₂ LinkedLevel.Represents s.levels t.levels
  heap : s.heap = t.heap
  mem : s.mem = t.mem
  isPracticallyFull : s.isPracticallyFull = t.isPracticallyFull
  inFlight : s.inFlight = t.inFlight.map Placement.place
  flushes : s.flushes = t.flushes.map fun f => (f.batch, f.place)
  answers : s.answers = t.answers

namespace LinkedSystem

section

variable {alloc : Allocator cfg} {fuel : ℕ} {stale : Memory → List Bool}
  {s : LinkedSystem cfg} {t : System cfg}

theorem Represents.length (h : s.Represents t) : s.levels.length = t.levels.length :=
  h.levels.length_eq

/-- Over another heap and memory. -/
theorem Represents.rebase (h : s.Represents t) {heap heap' : Heap cfg} {mem mem' : Memory}
    (hheap : heap = heap') (hmem : mem = mem') :
    Represents { s with heap := heap, mem := mem } { t with heap := heap', mem := mem' } :=
  ⟨h.levels, hheap, hmem, h.isPracticallyFull, h.inFlight, h.flushes, h.answers⟩

/-- Changing an SSTable in both. -/
theorem Represents.modifyTable (h : s.Represents t) (l i : ℕ) {f : LinkedSstable → LinkedSstable}
    {g : Sstable → Sstable}
    (hfg : ∀ a b, s.table? l i = some a → t.table? l i = some b → a.Represents b →
      (f a).Represents (g b)) :
    (s.modifyTable l i f).Represents (t.modifyTable l i g) := by
  refine ⟨forall₂_modify h.levels fun lv lv' hlv hlv' hrep => ?_, h.heap, h.mem,
    h.isPracticallyFull, h.inFlight, h.flushes, h.answers⟩
  refine ⟨hrep.info, (List.length_modify ..).trans hrep.length,
    forall₂_modify hrep.tables fun a b ha hb => hfg a b ?_ ?_⟩
  · rw [table?, hlv]
    exact ha
  · rw [System.table?, hlv']
    exact hb

/-! ## Insertions -/

/-- The SSTables of a level with related queues. -/
theorem receive_represents {lv : LinkedLevel cfg} {lv' : SystemLevel cfg}
    (h : List.Forall₂ LinkedSstable.Represents lv.tables lv'.tables) {queues : List WaitQueue}
    {lists : List (List ℕ)} (hqueues : List.Forall₂ Quiet queues lists) :
    List.Forall₂ LinkedSstable.Represents (lv.receive queues) (lv'.receive lists) :=
  forall₂_zipWith h hqueues fun _ _ _ _ ht hq => ⟨hq, ht.isFlushedTo, ht.waitingOnIo⟩

theorem length_receive {lv : LinkedLevel cfg} (h : lv.tables.length = cfg.levelFactor)
    {queues : List WaitQueue} (hqueues : queues.length = cfg.levelFactor) :
    (lv.receive queues).length = cfg.levelFactor := by
  rw [LinkedLevel.receive, List.length_zipWith, h, hqueues, Nat.min_self]

/-- **An insertion.** -/
theorem insertIntoWqs_agrees (h : s.Represents t) (l p : ℕ) :
    Agree Represents (s.insertIntoWqs alloc (fuel + 1) stale l p) (t.insertIntoWqs alloc l p) := by
  cases hlv : s.levels[l]? with
  | none =>
      have hlv' : t.levels[l]? = none := forall₂_getElem?_none h.levels hlv
      simp only [insertIntoWqs, System.insertIntoWqs, hlv, hlv']
      rfl
  | some lv =>
      rcases forall₂_getElem? h.levels hlv with ⟨lv', hlv', hrep⟩
      have hlen : (lv.tables.map LinkedSstable.queue).length = cfg.levelFactor :=
        (List.length_map ..).trans hrep.length
      have hquiet : List.Forall₂ Quiet (lv.tables.map LinkedSstable.queue)
          (lv'.tables.map Sstable.queue) := by
        rw [List.forall₂_map_left_iff, List.forall₂_map_right_iff]
        exact hrep.tables.imp fun _ _ ht => ht.queue
      simp only [insertIntoWqs, System.insertIntoWqs, hlv, hlv']
      rw [hrep.info, h.mem, h.heap]
      refine (Agree.refl (lv'.info.decompose t.mem alloc t.heap p)).bind ?_
      rintro ⟨info, heap, d⟩ _ hd - rfl
      let r : Returned cfg := ⟨t.mem, alloc, lv'.info, t.heap, p, info, heap, d, hd⟩
      refine (enqueue_agrees_deliver r hlen hquiet (stale t.mem) fuel).bind ?_
      rintro queues lists - - ⟨hlen', hqueues⟩
      exact ⟨forall₂_set h.levels l ⟨rfl, length_receive hrep.length hlen',
        receive_represents hrep.tables hqueues⟩, rfl, rfl, h.isPracticallyFull, h.inFlight,
        h.flushes, h.answers⟩

/-! ## Workers -/

/-- Changing an SSTable of the linked levels in a way that does not show. -/
theorem Represents.modifyTable_left (h : s.Represents t) (l i : ℕ)
    {f : LinkedSstable → LinkedSstable}
    (hf : ∀ a b, s.table? l i = some a → t.table? l i = some b → a.Represents b →
      (f a).Represents b) : (s.modifyTable l i f).Represents t := by
  have hlevel : (fun lv : SystemLevel cfg => { lv with tables := lv.tables.modify i id }) = id := by
    funext lv
    rw [List.modify_id]
    rfl
  have hnone : t.modifyTable l i id = t := by
    rw [System.modifyTable, hlevel, List.modify_id]
  rw [← hnone]
  exact h.modifyTable l i hf

theorem table?_represents (h : s.Represents t) (l i : ℕ) :
    (s.table? l i = none ∧ t.table? l i = none)
      ∨ ∃ a b, s.table? l i = some a ∧ t.table? l i = some b ∧ a.Represents b := by
  cases hlv : s.levels[l]? with
  | none =>
      refine Or.inl ⟨by rw [table?, hlv]; rfl, ?_⟩
      rw [System.table?, forall₂_getElem?_none h.levels hlv]
      rfl
  | some lv =>
      rcases forall₂_getElem? h.levels hlv with ⟨lv', hlv', hrep⟩
      rw [table?, System.table?, hlv, hlv', Option.bind_some, Option.bind_some]
      cases ha : lv.tables[i]? with
      | none => exact Or.inl ⟨rfl, forall₂_getElem?_none hrep.tables ha⟩
      | some a =>
          rcases forall₂_getElem? hrep.tables ha with ⟨b, hb, hab⟩
          exact Or.inr ⟨a, b, rfl, hb, hab⟩

variable {search : LinkedSystem cfg → ℕ → ℕ → ℕ → Except Fault (LinkedSystem cfg)}
  {search' : System cfg → ℕ → ℕ → ℕ → Except Fault (System cfg)}

/-- **A READ batch**, over tree searches that agree. -/
theorem workRead_agrees (h : s.Represents t)
    (hsearch : ∀ l i p, Agree Represents (search s l i p) (search' t l i p)) (l i p : ℕ)
    (presentInLevel isFlushedTo : Bool) :
    Agree Represents (s.workRead alloc (fuel + 1) stale search l i p presentInLevel isFlushedTo)
      (t.workRead alloc search' l i p presentInLevel isFlushedTo) := by
  rw [workRead, System.workRead, h.length]
  split_ifs
  · exact hsearch l i p
  · exact insertIntoWqs_agrees h (l + 1) p
  · exact ⟨h.levels, h.heap, h.mem, h.isPracticallyFull, h.inFlight, h.flushes,
      congrArg (· ++ [p]) h.answers⟩

/-- **A compaction batch.** -/
theorem workCompaction_agrees (h : s.Represents t) (place : Placement) (isFlushedTo : Bool) :
    Agree Represents
      (s.workCompaction alloc (fuel + 1) stale place.level place.index place.batch isFlushedTo)
      (t.workCompaction alloc place isFlushedTo) := by
  rw [workCompaction, System.workCompaction, h.length]
  by_cases hforward : isFlushedTo ∧ place.level + 1 < t.levels.length
  · rw [if_pos hforward, if_pos hforward, ← bind_pure (s.insertIntoWqs _ _ _ _ _)]
    refine (insertIntoWqs_agrees h (place.level + 1) place.batch).bind fun s' t' _ _ h' => ?_
    exact ⟨h'.levels, h'.heap, h'.mem, h'.isPracticallyFull, h'.inFlight, h'.flushes, h'.answers⟩
  · rw [if_neg hforward, if_neg hforward]
    cases isFlushedTo with
    | true =>
        exact ⟨h.levels, h.heap, h.mem, h.isPracticallyFull, h.inFlight, h.flushes, h.answers⟩
    | false =>
        have hsubmitted : Represents
            { s with
              inFlight := s.inFlight ++ [(place.level, place.index)]
              flushes := s.flushes ++ [(place.batch, place.level, place.index)] }
            { t with
              inFlight := t.inFlight ++ [place]
              flushes := t.flushes ++ [place] } := by
          refine ⟨h.levels, h.heap, h.mem, h.isPracticallyFull, ?_, ?_, h.answers⟩
          · rw [h.inFlight, List.map_append]
            rfl
          · rw [h.flushes, List.map_append]
            rfl
        exact hsubmitted.modifyTable place.level place.index fun _ _ _ _ hab =>
          ⟨hab.queue, hab.isFlushedTo, rfl⟩

/-- **A visit of an SSTable.** -/
theorem work_agrees (h : s.Represents t)
    (hsearch : ∀ {s t}, Represents s t → ∀ l i p,
      Agree Represents (search s l i p) (search' t l i p)) (l i : ℕ) :
    Agree Represents (s.work alloc (fuel + 1) stale search l i) (t.work alloc search' l i) := by
  rcases table?_represents h l i with ⟨hs, ht⟩ | ⟨a, b, ha, hb, hab⟩
  · simp only [work, System.work, hs, ht]
    exact h
  · simp only [work, System.work, ha, hb, hab.waitingOnIo]
    cases b.waitingOnIo with
    | true => exact h
    | false =>
        rcases popFront_shows (o := some b.queue) hab.queue with ⟨q, hpop, hq⟩
        simp only [Bool.false_eq_true, if_false, hpop]
        cases hqueue : b.queue with
        | nil =>
            rw [hqueue] at hq
            refine h.modifyTable_left l i fun a' b' _ hb' hab' => ?_
            cases hb.symm.trans hb'
            exact ⟨by rw [hqueue]; exact hq, hab'.isFlushedTo, hab'.waitingOnIo⟩
        | cons p rest =>
            rw [hqueue] at hq
            have hnext : Represents (s.modifyTable l i fun t => { t with queue := q })
                (t.modifyTable l i fun t => { t with queue := rest, arrived := t.arrived.tail }) :=
              h.modifyTable l i fun _ _ _ _ hab' => ⟨hq, hab'.isFlushedTo, hab'.waitingOnIo⟩
            have hheap : (s.modifyTable l i fun t => { t with queue := q }).heap = t.heap := h.heap
            change Agree _ (Heap.deref _ p >>= _) _
            rw [hheap]
            refine (Agree.refl (t.heap.deref p)).bind ?_
            rintro batch _ - - rfl
            rw [hab.isFlushedTo]
            split_ifs
            · exact workRead_agrees hnext (hsearch hnext) l i p _ _
            · exact workCompaction_agrees hnext ⟨p, l, i, b.arrived.head?.join⟩ b.isFlushedTo

/-- **The report of a flush.** -/
theorem report_represents (h : s.Represents t) (l i : ℕ) :
    (s.report l i).Represents (t.report l i) := by
  have hfind : (fun f : Placement => f.level == l && f.index == i)
      = fun f => f.place == (l, i) := rfl
  rw [report, System.report, hfind]
  cases hf : t.inFlight.find? fun f => f.place == (l, i) with
  | none =>
      have hmem : (l, i) ∉ s.inFlight := by
        rw [h.inFlight, List.mem_map]
        rintro ⟨f, hf', hplace⟩
        exact absurd (beq_iff_eq.2 hplace) (by simpa using List.find?_eq_none.1 hf f hf')
      rw [if_neg hmem]
      exact h
  | some f =>
      have hmem : (l, i) ∈ s.inFlight := by
        rw [h.inFlight, List.mem_map]
        have hplace : (f.place == (l, i)) = true :=
          List.find?_some (p := fun f : Placement => f.place == (l, i)) hf
        exact ⟨f, List.mem_of_find?_eq_some hf, beq_iff_eq.1 hplace⟩
      have hreported : Represents
          { s with
            inFlight := s.inFlight.erase (l, i)
            isPracticallyFull := l + 1 == s.levels.length }
          { t with
            inFlight := t.inFlight.erase f
            isPracticallyFull := l + 1 == t.levels.length } := by
        refine ⟨h.levels, h.heap, h.mem, by rw [h.length], ?_, h.flushes, h.answers⟩
        rw [map_erase_of_find? hf, h.inFlight]
      rw [if_pos hmem]
      exact hreported.modifyTable l i fun _ _ _ _ hab => ⟨hab.queue, rfl, hab.waitingOnIo⟩

/-- Levels as constructed, where every wait queue is declared single-threaded. -/
theorem represents_start {flags : Flags}
    (hflags : ∀ l < cfg.numSstableLevels, ∀ i < cfg.levelFactor, flags.waitQueue l i = true)
    (isFlushedTo : ℕ → ℕ → Bool) (heap : Heap cfg) (mem : Memory) :
    (start cfg flags isFlushedTo heap mem).Represents (System.start cfg isFlushedTo heap mem) := by
  refine ⟨?_, rfl, rfl, rfl, rfl, rfl, rfl⟩
  rw [start, System.start, List.forall₂_map_left_iff, List.forall₂_map_right_iff,
    List.forall₂_same]
  refine fun l hl => ⟨rfl, by simp, ?_⟩
  rw [List.forall₂_map_left_iff, List.forall₂_map_right_iff, List.forall₂_same]
  exact fun i hi => ⟨⟨Or.inl ⟨rfl, rfl⟩, hflags l (List.mem_range.1 hl) i (List.mem_range.1 hi)⟩,
    rfl, rfl⟩

end

end LinkedSystem

end RingDB
