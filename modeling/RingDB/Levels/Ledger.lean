import RingDB.Core.Transit
import RingDB.Levels.Compaction

/-!
# Where the batches below level 0 are

What `insert_into_wqs` does on a level comes down to two cases (`System.insertIntoWqs_outcome`): a
compaction joins the wait queue of one SSTable, and a READ batch changes nothing at all, since a
decomposition of a READ batch that has an outcome the queues can take is empty.  A worker's visit
takes a compaction out of a queue and forwards, flushes or deletes it (`System.work_outcome`).

* `Accounted` — every compaction that was dispatched is in a wait queue, or was flushed, or was
  deleted, and in one of the three places only.
* `FlushedOnce` — no SSTable is flushed to twice, and none that held data at the start.
* `Stuck` — behind a flush, a wait queue only grows.

Each is kept by every step, whatever the other threads do to the batches in between.
-/

namespace RingDB

open Core

variable {cfg : Config}

namespace SystemLevel

/-- Queues that no batch joined. -/
theorem receive_same (lv : SystemLevel cfg) :
    lv.receive (lv.tables.map Sstable.queue) = lv.tables := by
  apply List.ext_getElem?
  intro j
  simp only [receive, List.getElem?_zipWith, List.getElem?_map]
  cases lv.tables[j]? with
  | none => rfl
  | some t => simp

end SystemLevel

namespace System

variable {alloc : Allocator cfg} {s s' : System cfg} {l i p : ℕ}

/-! ## What a step can do -/

/-- **What `insert_into_wqs` can do.**  A READ batch is only passed to a level when none of its
requests has a client any more, and it joins no queue; a compaction joins one. -/
theorem insertIntoWqs_outcome (h : s.insertIntoWqs alloc l p = .ok s') :
    ∃ b, s.heap[p]? = some b
      ∧ ((b.reqType = .read ∧ (∀ conn ∈ b.readwritePool.entries, conn.clientSockFd = -1) ∧ s' = s)
        ∨ (b.reqType ≠ .read ∧ ∃ lv info j, s.levels[l]? = some lv ∧ j < cfg.levelFactor
          ∧ s' = { s with
            levels := s.levels.set l
              ⟨info, lv.tables.modify j (Sstable.arrive p lv.firstEmpty)⟩ })) := by
  unfold insertIntoWqs at h
  split at h
  · cases h
  · rename_i lv hlv
    rcases bind_eq_ok.1 h with ⟨⟨info, heap, d⟩, hd, h⟩
    rcases bind_eq_ok.1 h with ⟨queues, hdel, h⟩
    cases h
    rcases LevelInfo.decompose_cases hd with
      ⟨b, hb, ⟨hread, rfl, hout⟩ | ⟨htype, rfl, j, hj, rfl, -⟩⟩
    · refine ⟨b, hb, .inl ⟨hread, ?_⟩⟩
      unfold deliver at hdel
      split_ifs at hdel with hsize hnum
      · -- nothing was decomposed
        rcases hout.parts with ⟨hdead, rfl, -, -⟩ | ⟨-, hone, -⟩
        · cases hdel
          refine ⟨hdead, ?_⟩
          rcases List.getElem?_eq_some_iff.1 hlv with ⟨hl, hget⟩
          have hself : s.levels.set l lv = s.levels := by rw [← hget, List.set_getElem_self]
          rw [lv.receive_same, hself]
        · rw [hone] at hnum
          cases hnum
      · -- a catch-all, with no part that it could ride on
        rw [firstPart_eq_none hout.below] at hdel
        cases hdel
    · rw [deliver_assign hj] at hdel
      cases hdel
      exact ⟨b, hb, .inr ⟨htype, lv, info, j, hlv, hj, by rw [lv.receive_modify]⟩⟩

/-- The first batch of a queue is taken out. -/
def pop (s : System cfg) (l i : ℕ) (rest : List ℕ) : System cfg :=
  s.modifyTable l i fun t => { t with queue := rest, arrived := t.arrived.tail }

/-- What a worker can do with a compaction that it took out of a queue. -/
inductive Disposed (alloc : Allocator cfg) (s : System cfg) (place : Placement)
    (isFlushedTo : Bool) :
    System cfg → Prop
  | forward {s' : System cfg} (hflushed : isFlushedTo = true)
      (hins : s.insertIntoWqs alloc (place.level + 1) place.batch = .ok s') :
      Disposed alloc s place isFlushedTo { s' with forwards := s'.forwards ++ [place] }
  | flush (hfree : isFlushedTo = false) :
      Disposed alloc s place isFlushedTo
        (modifyTable { s with
            inFlight := s.inFlight ++ [place]
            flushes := s.flushes ++ [place] }
          place.level place.index fun t => { t with waitingOnIo := true })
  | delete (hflushed : isFlushedTo = true) :
      Disposed alloc s place isFlushedTo { s with
        deletions := s.deletions ++ [(place.batch, s.levels.all SystemLevel.full)] }

theorem workCompaction_disposed {place : Placement} {isFlushedTo : Bool}
    (h : s.workCompaction alloc place isFlushedTo = .ok s') :
    Disposed alloc s place isFlushedTo s' := by
  unfold workCompaction at h
  split_ifs at h with hforward hflushed
  · rcases bind_eq_ok.1 h with ⟨s₁, hins, h⟩
    cases h
    exact .forward hforward.1 hins
  · cases h
    exact .delete hflushed
  · cases h
    exact .flush (by simpa using hflushed)

/-- **What a worker's visit can do.**  Nothing, or it takes the first batch of the queue of an
SSTable that does not wait. -/
theorem work_outcome {search : System cfg → ℕ → ℕ → ℕ → Except Fault (System cfg)}
    (h : s.work alloc search l i = .ok s') :
    s' = s ∨ ∃ t p rest b, s.table? l i = some t ∧ t.waitingOnIo = false ∧ t.queue = p :: rest
      ∧ s.heap[p]? = some b
      ∧ ((b.reqType = .read ∧ (s.pop l i rest).workRead alloc search l i p
            b.readwritePool.presentInLevel t.isFlushedTo = .ok s')
        ∨ (b.reqType ≠ .read ∧ Disposed alloc (s.pop l i rest) ⟨p, l, i, t.arrived.head?.join⟩
            t.isFlushedTo s')) := by
  unfold work at h
  split at h
  · cases h
    exact .inl rfl
  · rename_i t ht
    split_ifs at h with hwait
    · cases h
      exact .inl rfl
    · split at h
      · cases h
        exact .inl rfl
      · rename_i p rest hqueue
        rcases bind_eq_ok.1 h with ⟨b, hb, h⟩
        refine .inr ⟨t, p, rest, b, ht, by simpa using hwait, hqueue, Heap.deref_ok_iff.1 hb, ?_⟩
        dsimp only at h
        split_ifs at h with hread
        · exact .inl ⟨hread, h⟩
        · exact .inr ⟨hread, workCompaction_disposed h⟩

/-- A report, of a flush that is in flight or of none. -/
theorem report_cases (s : System cfg) (l i : ℕ) :
    s.report l i = s ∨ ∃ f ∈ s.inFlight, f.level = l ∧ f.index = i
      ∧ s.report l i = modifyTable { s with
          inFlight := s.inFlight.erase f
          isPracticallyFull := l + 1 == s.levels.length }
        l i fun t => { t with isFlushedTo := true } := by
  cases hfind : s.inFlight.find? (fun f => f.level == l && f.index == i) with
  | none => exact .inl (report_other hfind)
  | some f =>
      have hat := List.find?_some hfind
      simp only [Bool.and_eq_true, beq_iff_eq] at hat
      refine .inr ⟨f, List.mem_of_find?_eq_some hfind, hat.1, hat.2, ?_⟩
      rw [report, hfind]

/-! ## The tables after a step -/

theorem table?_modifyTable (s : System cfg) (l i l' i' : ℕ) (f : Sstable → Sstable) :
    (s.modifyTable l i f).table? l' i'
      = (s.table? l' i').map fun t => if l = l' ∧ i = i' then f t else t := by
  simp only [table?, modifyTable, List.getElem?_modify]
  by_cases hl : l = l'
  · subst hl
    cases s.levels[l]? with
    | none => rfl
    | some lv =>
        by_cases hi : i = i'
        · subst hi
          simp
        · cases hget : lv.tables[i']? <;> simp [hi, hget]
  · cases s.levels[l']? with
    | none => rfl
    | some lv => cases hget : lv.tables[i']? <;> simp [hl, hget]

/-- The tables as constructed. -/
theorem table?_start (isFlushedTo : ℕ → ℕ → Bool) (heap : Heap cfg) (mem : Memory) {t : Sstable}
    (ht : (start cfg isFlushedTo heap mem).table? l i = some t) :
    t = { isFlushedTo := isFlushedTo l i } := by
  rcases Option.bind_eq_some_iff.1 ht with ⟨lv, hlv, ht⟩
  simp only [start, List.getElem?_map] at hlv
  rcases Option.map_eq_some_iff.1 hlv with ⟨l', hl', rfl⟩
  simp only [List.getElem?_map] at ht
  rcases Option.map_eq_some_iff.1 ht with ⟨i', hi', rfl⟩
  rw [(List.getElem?_eq_some_iff.1 hl').2.symm, (List.getElem?_eq_some_iff.1 hi').2.symm]
  simp only [List.getElem_range]

/-- The tables after an arrival. -/
theorem table?_arrive {lv : SystemLevel cfg} (hlv : s.levels[l]? = some lv) (info : LevelInfo cfg)
    (j p l' i' : ℕ) :
    ({ s with
        levels := s.levels.set l ⟨info, lv.tables.modify j (Sstable.arrive p lv.firstEmpty)⟩ } :
        System cfg).table? l' i'
      = (s.table? l' i').map fun t =>
          if l = l' ∧ j = i' then Sstable.arrive p lv.firstEmpty t else t := by
  have hl := (List.getElem?_eq_some_iff.1 hlv).1
  simp only [table?]
  by_cases hll : l = l'
  · subst hll
    rw [List.getElem?_set_self hl, hlv]
    simp only [Option.bind_some, List.getElem?_modify]
    by_cases hj : j = i'
    · subst hj
      simp
    · cases lv.tables[i']? <;> simp [hj]
  · rw [List.getElem?_set_ne hll]
    cases s.levels[l']?.bind fun lv => lv.tables[i']? <;> simp [hll]

/-! ## Every compaction in one place -/

/-- Everything in the wait queues. -/
def queued (s : System cfg) : List ℕ := s.levels.flatMap fun lv => lv.tables.flatMap Sstable.queue

theorem mem_queued {s : System cfg} {p : ℕ} :
    p ∈ s.queued ↔ ∃ lv ∈ s.levels, ∃ t ∈ lv.tables, p ∈ t.queue := by
  simp [queued]

theorem mem_queued_of_table {t : Sstable} (ht : s.table? l i = some t) (hp : p ∈ t.queue) :
    p ∈ s.queued := by
  rcases Option.bind_eq_some_iff.1 ht with ⟨lv, hlv, ht⟩
  exact mem_queued.2 ⟨lv, List.mem_of_getElem? hlv, t, List.mem_of_getElem? ht, hp⟩

theorem count_queued_modifyTable {t : Sstable} (ht : s.table? l i = some t)
    (f : Sstable → Sstable) (p : ℕ) :
    (s.modifyTable l i f).queued.count p + t.queue.count p
      = s.queued.count p + (f t).queue.count p := by
  rcases Option.bind_eq_some_iff.1 ht with ⟨lv, hlv, ht⟩
  have houter := countP_flatMap_modify (f := fun lv : SystemLevel cfg =>
    lv.tables.flatMap Sstable.queue) (p := (· == p))
    (fun lv => { lv with tables := lv.tables.modify i f }) hlv
  have hinner := countP_flatMap_modify (f := Sstable.queue) (p := (· == p)) f ht
  dsimp only at houter
  simp only [queued, modifyTable, List.count]
  omega

/-- An arrival adds the batch, if the SSTable exists. -/
theorem count_queued_arrive {lv : SystemLevel cfg} (hlv : s.levels[l]? = some lv)
    (info : LevelInfo cfg) {j : ℕ} (hj : j < lv.tables.length) (p q : ℕ) :
    ({ s with
        levels := s.levels.set l ⟨info, lv.tables.modify j (Sstable.arrive p lv.firstEmpty)⟩ } :
        System cfg).queued.count q = s.queued.count q + [p].count q := by
  have houter := countP_flatMap_set (f := fun lv : SystemLevel cfg =>
    lv.tables.flatMap Sstable.queue) (p := (· == q))
    ⟨info, lv.tables.modify j (Sstable.arrive p lv.firstEmpty)⟩ hlv
  have hinner := countP_flatMap_modify (f := Sstable.queue) (p := (· == q))
    (Sstable.arrive p lv.firstEmpty) (List.getElem?_eq_getElem hj)
  have hqueue : (Sstable.arrive p lv.firstEmpty lv.tables[j]).queue.countP (· == q)
      = lv.tables[j].queue.countP (· == q) + [p].countP (· == q) := List.countP_append
  dsimp only at houter
  simp only [queued, List.count]
  omega

theorem lengths_modifyTable {n : ℕ} {f : Sstable → Sstable}
    (h : ∀ lv ∈ s.levels, lv.tables.length = n) :
    ∀ lv ∈ (s.modifyTable l i f).levels, lv.tables.length = n := by
  intro lv hlv
  rcases List.mem_iff_getElem?.1 hlv with ⟨l', hl'⟩
  simp only [modifyTable, List.getElem?_modify] at hl'
  rcases Option.map_eq_some_iff.1 hl' with ⟨lv₀, hlv₀, rfl⟩
  have hlen := h lv₀ (List.mem_of_getElem? hlv₀)
  split_ifs
  · exact (List.length_modify ..).trans hlen
  · exact hlen

/-- The compactions among `dispatched` are in a wait queue, flushed or deleted. -/
structure Accounted (dispatched : List ℕ) (s : System cfg) : Prop where
  tables : ∀ lv ∈ s.levels, lv.tables.length = cfg.levelFactor
  compactions : ∀ p ∈ s.queued, ∃ b, s.heap[p]? = some b ∧ b.reqType ≠ .read
  account : ∀ p, dispatched.count p = s.queued.count p
    + (s.flushes.map Placement.batch).count p + (s.deletions.map Prod.fst).count p
  answers : s.answers = []

theorem accounted_start (isFlushedTo : ℕ → ℕ → Bool) (heap : Heap cfg) (mem : Memory) :
    Accounted [] (start cfg isFlushedTo heap mem) := by
  have hqueued : (start cfg isFlushedTo heap mem).queued = [] := by
    simp [queued, start]
  refine ⟨fun lv hlv => ?_, fun p hp => ?_, fun p => ?_, rfl⟩
  · simp only [start, List.mem_map] at hlv
    rcases hlv with ⟨l, -, rfl⟩
    simp
  · rw [hqueued] at hp
    cases hp
  · rw [hqueued]
    rfl

/-- What other threads do to the batches leaves the account alone, if they change no type. -/
theorem Accounted.setHeap {dispatched : List ℕ} (h : Accounted dispatched s) {heap : Heap cfg}
    (mem : Memory) (htypes : ∀ (p : ℕ) (b : RequestBatch cfg), s.heap[p]? = some b →
      ∃ b', heap[p]? = some b' ∧ b'.reqType = b.reqType) :
    Accounted dispatched { s with heap, mem } := by
  refine ⟨h.tables, fun p hp => ?_, h.account, h.answers⟩
  rcases h.compactions p hp with ⟨b, hb, htype⟩
  rcases htypes p b hb with ⟨b', hb', heq⟩
  exact ⟨b', hb', heq ▸ htype⟩

/-- A batch is passed to a level: the queues have it exactly if it is a compaction. -/
theorem Accounted.insertIntoWqs {dispatched : List ℕ} (h : Accounted dispatched s)
    (hins : s.insertIntoWqs alloc l p = .ok s') :
    ∃ b, s.heap[p]? = some b
      ∧ ((b.reqType = .read ∧ s' = s)
        ∨ (b.reqType ≠ .read ∧ Accounted (dispatched ++ [p]) s')) := by
  rcases insertIntoWqs_outcome hins with ⟨b, hb,
    ⟨hread, -, rfl⟩ | ⟨htype, lv, info, j, hlv, hj, rfl⟩⟩
  · exact ⟨b, hb, .inl ⟨hread, rfl⟩⟩
  · have hlen : j < lv.tables.length := by
      rw [h.tables lv (List.mem_of_getElem? hlv)]
      exact hj
    have hcount := count_queued_arrive hlv info hlen p
    refine ⟨b, hb, .inr ⟨htype, fun lv' hlv' => ?_, fun q hq => ?_, fun q => ?_, h.answers⟩⟩
    · rcases List.mem_or_eq_of_mem_set hlv' with hold | rfl
      · exact h.tables lv' hold
      · rw [List.length_modify]
        exact h.tables lv (List.mem_of_getElem? hlv)
    · rw [← List.count_pos_iff, hcount] at hq
      by_cases hqp : q = p
      · exact ⟨b, hqp ▸ hb, htype⟩
      · rw [List.count_singleton, if_neg (by simpa using Ne.symm hqp), Nat.add_zero,
          List.count_pos_iff] at hq
        exact h.compactions q hq
    · rw [List.count_append, hcount q, h.account q]
      show _ = _ + _ + (s.flushes.map Placement.batch).count q
        + (s.deletions.map Prod.fst).count q
      omega

theorem Accounted.perm {dispatched dispatched' : List ℕ} (h : Accounted dispatched s)
    (hperm : dispatched.Perm dispatched') : Accounted dispatched' s :=
  ⟨h.tables, h.compactions, fun p => (hperm.count_eq p).symm.trans (h.account p), h.answers⟩

/-- A table is changed, but not its queue. -/
theorem Accounted.modifyTable {dispatched : List ℕ} (h : Accounted dispatched s)
    {f : Sstable → Sstable} (hf : ∀ t, (f t).queue = t.queue) :
    Accounted dispatched (s.modifyTable l i f) := by
  have hqueued : (s.modifyTable l i f).queued = s.queued :=
    flatMap_modify_of_eq (fun lv => flatMap_modify_of_eq hf lv.tables i) s.levels l
  refine ⟨lengths_modifyTable h.tables, fun p hp => ?_, fun p => ?_, h.answers⟩
  · rw [hqueued] at hp
    exact h.compactions p hp
  · rw [hqueued]
    exact h.account p

/-- A batch is taken out of a queue: until the worker has disposed of it, it is accounted for
nowhere. -/
theorem Accounted.pop {dispatched : List ℕ} (h : Accounted dispatched s) {t : Sstable}
    {rest : List ℕ} (ht : s.table? l i = some t) (hqueue : t.queue = p :: rest) :
    p ∈ dispatched ∧ Accounted (dispatched.erase p) (s.pop l i rest) := by
  have hmem : p ∈ s.queued := mem_queued_of_table ht (by rw [hqueue]; exact List.mem_cons_self)
  have hcount : ∀ q, s.queued.count q = (s.pop l i rest).queued.count q + [p].count q := by
    intro q
    have hq := count_queued_modifyTable ht
      (fun t => { t with queue := rest, arrived := t.arrived.tail }) q
    have hcons : (p :: rest).count q = rest.count q + [p].count q := by
      rw [List.count_cons, List.count_singleton]
    rw [hqueue, hcons] at hq
    simp only [System.pop] at hq ⊢
    omega
  have hdispatched : p ∈ dispatched := by
    rw [← List.count_pos_iff] at hmem ⊢
    have := h.account p
    omega
  refine ⟨hdispatched, lengths_modifyTable h.tables, fun q hq => ?_, fun q => ?_, h.answers⟩
  · refine h.compactions q ?_
    rw [← List.count_pos_iff] at hq ⊢
    have := hcount q
    omega
  · have hperm := (List.perm_cons_erase hdispatched).count_eq q
    have hcons : (p :: dispatched.erase p).count q
        = (dispatched.erase p).count q + [p].count q := by
      rw [List.count_cons, List.count_singleton]
    have haccount := h.account q
    have hpopped := hcount q
    show _ = _ + (s.flushes.map Placement.batch).count q + (s.deletions.map Prod.fst).count q
    omega

/-- The worker has disposed of the compaction that it took out. -/
theorem Accounted.disposed {dispatched : List ℕ} {place : Placement} {isFlushedTo : Bool}
    {b : RequestBatch cfg} (h : Accounted (dispatched.erase place.batch) s)
    (hmem : place.batch ∈ dispatched) (hb : s.heap[place.batch]? = some b)
    (htype : b.reqType ≠ .read) (hdisposed : Disposed alloc s place isFlushedTo s') :
    Accounted dispatched s' := by
  have hperm : (dispatched.erase place.batch ++ [place.batch]).Perm dispatched :=
    (List.perm_append_singleton ..).trans (List.perm_cons_erase hmem).symm
  cases hdisposed with
  | forward hflushed hins =>
      rcases h.insertIntoWqs hins with ⟨b', hb', ⟨hread, -⟩ | ⟨-, hnext⟩⟩
      · rw [hb] at hb'
        cases hb'
        exact absurd hread htype
      · have h' := hnext.perm hperm
        exact ⟨h'.tables, h'.compactions, h'.account, h'.answers⟩
  | flush hfree =>
      have hflushed : Accounted (dispatched.erase place.batch ++ [place.batch])
          { s with inFlight := s.inFlight ++ [place], flushes := s.flushes ++ [place] } := by
        refine ⟨h.tables, h.compactions, fun q => ?_, h.answers⟩
        have hq := h.account q
        show _ = s.queued.count q + ((s.flushes ++ [place]).map Placement.batch).count q
          + (s.deletions.map Prod.fst).count q
        rw [List.map_append, List.count_append, List.count_append, List.map_singleton]
        omega
      exact (hflushed.perm hperm).modifyTable fun _ => rfl
  | delete hflushed =>
      have hdeleted : Accounted (dispatched.erase place.batch ++ [place.batch])
          { s with
            deletions := s.deletions ++ [(place.batch, s.levels.all SystemLevel.full)] } := by
        refine ⟨h.tables, h.compactions, fun q => ?_, h.answers⟩
        have hq := h.account q
        show _ = s.queued.count q + (s.flushes.map Placement.batch).count q
          + ((s.deletions ++ [(place.batch, s.levels.all SystemLevel.full)]).map Prod.fst).count q
        rw [List.map_append, List.count_append, List.count_append, List.map_singleton]
        dsimp only
        omega
      exact hdeleted.perm hperm

/-- A worker's visit: the queues hold no READ batch that it could search for. -/
theorem Accounted.work_compaction
    {search : System cfg → ℕ → ℕ → ℕ → Except Fault (System cfg)} {dispatched : List ℕ}
    (h : Accounted dispatched s) (hwork : s.work alloc search l i = .ok s') :
    s' = s ∨ ∃ t p rest, s.table? l i = some t ∧ t.waitingOnIo = false
      ∧ (t.queue = p :: rest ∧ ∃ b, s.heap[p]? = some b ∧ b.reqType ≠ .read)
      ∧ Disposed alloc (s.pop l i rest) ⟨p, l, i, t.arrived.head?.join⟩ t.isFlushedTo s' := by
  rcases work_outcome hwork with rfl | ⟨t, p, rest, b, ht, hwait, hqueue, hb, hcase⟩
  · exact .inl rfl
  · rcases h.compactions p (mem_queued_of_table ht (by rw [hqueue]; exact List.mem_cons_self))
      with ⟨b', hb', htype⟩
    rw [hb] at hb'
    cases hb'
    rcases hcase with ⟨hread, -⟩ | ⟨-, hdisposed⟩
    · exact absurd hread htype
    · exact .inr ⟨t, p, rest, ht, hwait, ⟨hqueue, b, hb, htype⟩, hdisposed⟩

theorem Accounted.work {search : System cfg → ℕ → ℕ → ℕ → Except Fault (System cfg)}
    {dispatched : List ℕ} (h : Accounted dispatched s)
    (hwork : s.work alloc search l i = .ok s') : Accounted dispatched s' := by
  rcases h.work_compaction hwork with
    rfl | ⟨t, p, rest, ht, -, ⟨hqueue, b, hb, htype⟩, hdisposed⟩
  · exact h
  · rcases h.pop ht hqueue with ⟨hmem, hpop⟩
    exact hpop.disposed hmem hb htype hdisposed

theorem Accounted.report {dispatched : List ℕ} (h : Accounted dispatched s) (l i : ℕ) :
    Accounted dispatched (s.report l i) := by
  rcases report_cases s l i with heq | ⟨f, -, -, -, heq⟩
  · rw [heq]
    exact h
  · rw [heq]
    have herased : Accounted dispatched { s with
        inFlight := s.inFlight.erase f
        isPracticallyFull := l + 1 == s.levels.length } :=
      ⟨h.tables, h.compactions, h.account, h.answers⟩
    exact herased.modifyTable fun _ => rfl

/-! ## One flush for each SSTable -/

/-- Where the flushes went. -/
def flushedTo (s : System cfg) : List (ℕ × ℕ) := s.flushes.map fun f => (f.level, f.index)

/-- Each SSTable was flushed to at most once, and only if it held no data at the start; an SSTable
waits if and only if it was flushed to, and until then its flag is that of the start. -/
structure FlushedOnce (isFlushedTo : ℕ → ℕ → Bool) (s : System cfg) : Prop where
  nodup : s.flushedTo.Nodup
  exists_table : ∀ f ∈ s.flushes, ∃ t, s.table? f.level f.index = some t
  free : ∀ f ∈ s.flushes, isFlushedTo f.level f.index = false
  waiting : ∀ l i t, s.table? l i = some t → (t.waitingOnIo = true ↔ (l, i) ∈ s.flushedTo)
  flag : ∀ l i t, s.table? l i = some t → t.waitingOnIo = false → t.isFlushedTo = isFlushedTo l i
  inFlight : ∀ f ∈ s.inFlight, f ∈ s.flushes

theorem flushedOnce_start (isFlushedTo : ℕ → ℕ → Bool) (heap : Heap cfg) (mem : Memory) :
    FlushedOnce isFlushedTo (start cfg isFlushedTo heap mem) := by
  refine ⟨List.nodup_nil, fun f hf => absurd hf List.not_mem_nil,
    fun f hf => absurd hf List.not_mem_nil, fun l i t ht => ?_, fun l i t ht _ => ?_,
    fun f hf => absurd hf List.not_mem_nil⟩
  · rw [table?_start isFlushedTo heap mem ht]
    exact ⟨fun h => (by cases h), fun h => absurd h List.not_mem_nil⟩
  · rw [table?_start isFlushedTo heap mem ht]

/-- A step after which every table is the old one but for its queue. -/
theorem FlushedOnce.of_tables {isFlushedTo : ℕ → ℕ → Bool} (h : FlushedOnce isFlushedTo s)
    {g : ℕ → ℕ → Sstable → Sstable}
    (htable : ∀ l i, s'.table? l i = (s.table? l i).map (g l i))
    (hwait : ∀ l i t, (g l i t).waitingOnIo = t.waitingOnIo)
    (hflag : ∀ l i t, (g l i t).isFlushedTo = t.isFlushedTo)
    (hflushes : s'.flushes = s.flushes) (hflight : s'.inFlight = s.inFlight) :
    FlushedOnce isFlushedTo s' := by
  have hflushedTo : s'.flushedTo = s.flushedTo := by rw [flushedTo, flushedTo, hflushes]
  refine ⟨?_, fun f hf => ?_, fun f hf => ?_, fun l i t ht => ?_, fun l i t ht hfree => ?_,
    fun f hf => ?_⟩
  · rw [hflushedTo]
    exact h.nodup
  · rcases h.exists_table f (hflushes ▸ hf) with ⟨t, ht⟩
    exact ⟨g f.level f.index t, by rw [htable, ht, Option.map_some]⟩
  · exact h.free f (hflushes ▸ hf)
  · rw [htable] at ht
    rcases Option.map_eq_some_iff.1 ht with ⟨t₀, ht₀, rfl⟩
    rw [hflushedTo, hwait]
    exact h.waiting l i t₀ ht₀
  · rw [htable] at ht
    rcases Option.map_eq_some_iff.1 ht with ⟨t₀, ht₀, rfl⟩
    rw [hwait] at hfree
    rw [hflag]
    exact h.flag l i t₀ ht₀ hfree
  · rw [hflushes]
    exact h.inFlight f (hflight ▸ hf)

theorem FlushedOnce.insertIntoWqs {isFlushedTo : ℕ → ℕ → Bool} (h : FlushedOnce isFlushedTo s)
    (hins : s.insertIntoWqs alloc l p = .ok s') : FlushedOnce isFlushedTo s' := by
  rcases insertIntoWqs_outcome hins with ⟨b, -, ⟨-, -, rfl⟩ | ⟨-, lv, info, j, hlv, -, rfl⟩⟩
  · exact h
  · refine h.of_tables (fun l' i' => table?_arrive hlv info j p l' i') (fun l' i' t => ?_)
      (fun l' i' t => ?_) rfl rfl
    · split_ifs <;> rfl
    · split_ifs <;> rfl

theorem FlushedOnce.pop {isFlushedTo : ℕ → ℕ → Bool} (h : FlushedOnce isFlushedTo s) (l i : ℕ)
    (rest : List ℕ) : FlushedOnce isFlushedTo (s.pop l i rest) := by
  refine h.of_tables (fun l' i' => table?_modifyTable s l i l' i' _) (fun l' i' t => ?_)
    (fun l' i' t => ?_) rfl rfl
  · split_ifs <;> rfl
  · split_ifs <;> rfl

/-- A flush to an SSTable that holds no data and does not wait. -/
theorem FlushedOnce.flush {isFlushedTo : ℕ → ℕ → Bool} (h : FlushedOnce isFlushedTo s)
    {place : Placement} {t : Sstable} (ht : s.table? place.level place.index = some t)
    (hwait : t.waitingOnIo = false) (hfree : t.isFlushedTo = false) :
    FlushedOnce isFlushedTo (modifyTable { s with
        inFlight := s.inFlight ++ [place]
        flushes := s.flushes ++ [place] }
      place.level place.index fun t => { t with waitingOnIo := true }) := by
  have htable : ∀ l' i', (modifyTable { s with
        inFlight := s.inFlight ++ [place]
        flushes := s.flushes ++ [place] }
      place.level place.index fun t => { t with waitingOnIo := true }).table? l' i'
      = (s.table? l' i').map fun t =>
          if place.level = l' ∧ place.index = i' then { t with waitingOnIo := true } else t :=
    fun l' i' => table?_modifyTable _ place.level place.index l' i' _
  have hnew : (place.level, place.index) ∉ s.flushedTo := by
    rw [← h.waiting _ _ t ht, hwait]
    exact Bool.false_ne_true
  have hfree' : isFlushedTo place.level place.index = false :=
    (h.flag _ _ t ht hwait).symm.trans hfree
  have hflushedTo : (modifyTable { s with
        inFlight := s.inFlight ++ [place]
        flushes := s.flushes ++ [place] }
      place.level place.index fun t => { t with waitingOnIo := true }).flushedTo
      = s.flushedTo ++ [(place.level, place.index)] := by
    simp [flushedTo, modifyTable]
  refine ⟨?_, fun f hf => ?_, fun f hf => ?_, fun l' i' t' ht' => ?_, fun l' i' t' ht' hw => ?_,
    fun f hf => ?_⟩
  · rw [hflushedTo]
    refine List.nodup_append.2 ⟨h.nodup, List.pairwise_singleton _ _, fun a ha b hb => ?_⟩
    rw [List.mem_singleton.1 hb]
    exact fun heq => hnew (heq ▸ ha)
  · rcases List.mem_append.1 hf with hold | hlast
    · rcases h.exists_table f hold with ⟨t', ht'⟩
      exact ⟨_, by rw [htable, ht', Option.map_some]⟩
    · rw [List.mem_singleton.1 hlast]
      exact ⟨_, by rw [htable, ht, Option.map_some]⟩
  · rcases List.mem_append.1 hf with hold | hlast
    · exact h.free f hold
    · rw [List.mem_singleton.1 hlast]
      exact hfree'
  · rw [htable] at ht'
    rcases Option.map_eq_some_iff.1 ht' with ⟨t₀, ht₀, rfl⟩
    rw [hflushedTo, List.mem_append, List.mem_singleton, Prod.mk.injEq]
    split_ifs with hat
    · exact ⟨fun _ => .inr ⟨hat.1.symm, hat.2.symm⟩, fun _ => rfl⟩
    · rw [h.waiting l' i' t₀ ht₀]
      refine ⟨.inl, fun hor => hor.resolve_right fun heq => hat ⟨heq.1.symm, heq.2.symm⟩⟩
  · rw [htable] at ht'
    rcases Option.map_eq_some_iff.1 ht' with ⟨t₀, ht₀, rfl⟩
    split_ifs at hw ⊢
    exact h.flag l' i' t₀ ht₀ hw
  · exact (List.mem_append.1 hf).elim (fun hold => List.mem_append_left _ (h.inFlight f hold))
      (List.mem_append_right _)

/-- A report concerns an SSTable that waits. -/
theorem FlushedOnce.report {isFlushedTo : ℕ → ℕ → Bool} (h : FlushedOnce isFlushedTo s)
    (l i : ℕ) : FlushedOnce isFlushedTo (s.report l i) := by
  rcases report_cases s l i with heq | ⟨f, hf, rfl, rfl, heq⟩
  · rw [heq]
    exact h
  · rw [heq]
    have htable := fun l' i' => table?_modifyTable { s with
        inFlight := s.inFlight.erase f
        isPracticallyFull := f.level + 1 == s.levels.length } f.level f.index l' i'
      fun t => { t with isFlushedTo := true }
    have hflushed : (f.level, f.index) ∈ s.flushedTo :=
      List.mem_map_of_mem (f := fun f : Placement => (f.level, f.index)) (h.inFlight f hf)
    refine ⟨h.nodup, fun g hg => ?_, h.free, fun l' i' t ht => ?_, fun l' i' t ht hw => ?_,
      fun g hg => h.inFlight g (List.mem_of_mem_erase hg)⟩
    · rcases h.exists_table g hg with ⟨t, ht⟩
      have hold : ({ s with
        inFlight := s.inFlight.erase f
        isPracticallyFull := f.level + 1 == s.levels.length } : System cfg).table? g.level g.index
          = some t := ht
      exact ⟨_, by rw [htable, hold, Option.map_some]⟩
    · rw [htable] at ht
      rcases Option.map_eq_some_iff.1 ht with ⟨t₀, ht₀, rfl⟩
      have hold := h.waiting l' i' t₀ ht₀
      split_ifs <;> exact hold
    · rw [htable] at ht
      rcases Option.map_eq_some_iff.1 ht with ⟨t₀, ht₀, rfl⟩
      split_ifs at hw ⊢ with hat
      · -- the SSTable waits
        rcases hat with ⟨rfl, rfl⟩
        have := (h.waiting _ _ t₀ ht₀).2 hflushed
        rw [this] at hw
        cases hw
      · exact h.flag l' i' t₀ ht₀ hw

/-- A worker's visit, where no queue holds a READ batch. -/
theorem FlushedOnce.work {search : System cfg → ℕ → ℕ → ℕ → Except Fault (System cfg)}
    {isFlushedTo : ℕ → ℕ → Bool} {dispatched : List ℕ} (h : FlushedOnce isFlushedTo s)
    (haccount : Accounted dispatched s) (hwork : s.work alloc search l i = .ok s') :
    FlushedOnce isFlushedTo s' := by
  rcases haccount.work_compaction hwork with rfl | ⟨t, p, rest, ht, hwait, -, hdisposed⟩
  · exact h
  · have hpop := h.pop l i rest
    cases hdisposed with
    | forward hflushed hins =>
        have hnext := hpop.insertIntoWqs hins
        exact ⟨hnext.nodup, hnext.exists_table, hnext.free, hnext.waiting, hnext.flag,
          hnext.inFlight⟩
    | flush hfree =>
        refine hpop.flush (t := { t with queue := rest, arrived := t.arrived.tail }) ?_ hwait hfree
        show (s.modifyTable l i _).table? l i = _
        rw [table?_modifyTable, ht, Option.map_some, if_pos ⟨rfl, rfl⟩]
    | delete hflushed =>
        exact ⟨hpop.nodup, hpop.exists_table, hpop.free, hpop.waiting, hpop.flag, hpop.inFlight⟩

/-! ## Behind a flush -/

/-- The queue of every SSTable that waits is still there, with what joined it since. -/
def Stuck (s s' : System cfg) : Prop :=
  ∀ l i t, s.table? l i = some t → t.waitingOnIo = true →
    ∃ t', s'.table? l i = some t' ∧ t'.waitingOnIo = true ∧ t.queue <+: t'.queue

theorem Stuck.refl (s : System cfg) : Stuck s s := fun _ _ t ht hw => ⟨t, ht, hw, List.prefix_rfl⟩

theorem Stuck.trans {s₁ s₂ s₃ : System cfg} (h : Stuck s₁ s₂) (h' : Stuck s₂ s₃) : Stuck s₁ s₃ := by
  intro l i t ht hw
  rcases h l i t ht hw with ⟨t', ht', hw', hprefix⟩
  rcases h' l i t' ht' hw' with ⟨t'', ht'', hw'', hprefix'⟩
  exact ⟨t'', ht'', hw'', hprefix.trans hprefix'⟩

theorem Stuck.of_tables {g : ℕ → ℕ → Sstable → Sstable}
    (htable : ∀ l i, s'.table? l i = (s.table? l i).map (g l i))
    (hg : ∀ l i t, s.table? l i = some t → t.waitingOnIo = true →
      (g l i t).waitingOnIo = true ∧ t.queue <+: (g l i t).queue) : Stuck s s' := by
  intro l i t ht hw
  refine ⟨g l i t, by rw [htable, ht, Option.map_some], hg l i t ht hw⟩

theorem stuck_insertIntoWqs (hins : s.insertIntoWqs alloc l p = .ok s') : Stuck s s' := by
  rcases insertIntoWqs_outcome hins with ⟨b, -, ⟨-, -, rfl⟩ | ⟨-, lv, info, j, hlv, -, rfl⟩⟩
  · exact .refl _
  · refine .of_tables (fun l' i' => table?_arrive hlv info j p l' i') fun l' i' t _ hw => ?_
    split_ifs
    · exact ⟨hw, List.prefix_append ..⟩
    · exact ⟨hw, List.prefix_rfl⟩

/-- Only the queue of an SSTable that does not wait loses a batch. -/
theorem stuck_pop {t : Sstable} (ht : s.table? l i = some t) (hwait : t.waitingOnIo = false)
    (rest : List ℕ) : Stuck s (s.pop l i rest) := by
  refine .of_tables (fun l' i' => table?_modifyTable s l i l' i' _) fun l' i' t' ht' hw => ?_
  split_ifs with hat
  · rcases hat with ⟨rfl, rfl⟩
    rw [ht] at ht'
    cases ht'
    rw [hwait] at hw
    cases hw
  · exact ⟨hw, List.prefix_rfl⟩

theorem stuck_work {search : System cfg → ℕ → ℕ → ℕ → Except Fault (System cfg)}
    {dispatched : List ℕ} (haccount : Accounted dispatched s)
    (hwork : s.work alloc search l i = .ok s') : Stuck s s' := by
  rcases haccount.work_compaction hwork with rfl | ⟨t, p, rest, ht, hwait, -, hdisposed⟩
  · exact .refl _
  · refine (stuck_pop ht hwait rest).trans ?_
    cases hdisposed with
    | forward hflushed hins =>
        have hnext := stuck_insertIntoWqs hins
        exact hnext
    | flush hfree =>
        refine .of_tables (fun l' i' => table?_modifyTable _ l i l' i' _) fun l' i' t' _ hw => ?_
        split_ifs
        · exact ⟨rfl, List.prefix_rfl⟩
        · exact ⟨hw, List.prefix_rfl⟩
    | delete hflushed => exact .refl _

theorem stuck_report (s : System cfg) (l i : ℕ) : Stuck s (s.report l i) := by
  rcases report_cases s l i with heq | ⟨f, -, -, -, heq⟩
  · rw [heq]
    exact .refl _
  · rw [heq]
    refine .of_tables (fun l' i' => table?_modifyTable _ l i l' i' _) fun l' i' t' _ hw => ?_
    split_ifs
    · exact ⟨hw, List.prefix_rfl⟩
    · exact ⟨hw, List.prefix_rfl⟩

end System

end RingDB
