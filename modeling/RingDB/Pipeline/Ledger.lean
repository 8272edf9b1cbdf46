import RingDB.Levels.Ledger
import RingDB.Pipeline.Threads

/-!
# The compactions of a whole run

The main loop dispatches compactions into the first level while the network thread works on the same
heap of batches and the workers pass compactions down, flush them or delete them.  No thread changes
the type of a batch that exists (`TypesKept`), and so the accounts of `RingDB.Levels.Ledger` hold in
every order of all their steps.

* **`compactions_accounted`** — no compaction is lost and none is duplicated.
* **`flushed_once`** — each SSTable is flushed to at most once, and what joins its queue after that
  stays there.
-/

namespace RingDB

open Core

variable {cfg : Config}

namespace Network

variable {alloc : Allocator cfg} {s s' : State cfg}

theorem typesKept_deleteIfSent {p : ℕ} (h : s.deleteIfSent p = .ok s') :
    TypesKept s.heap s'.heap := by
  rcases State.deleteIfSent_frame h with ⟨log, rfl⟩
  exact .refl _

/-- The network thread makes batches, fills them and counts their answers. -/
theorem step_typesKept {e : Event} (h : step alloc s e = .ok s') : TypesKept s.heap s'.heap := by
  cases e with
  | wait =>
      cases h
      exact .refl _
  | memory mem =>
      cases h
      exact .refl _
  | cqe c =>
      cases c with
      | accept res more =>
          rcases State.acceptBranch_cases h with ⟨-, rfl⟩ | ⟨-, pool, i, -, rfl⟩
          · exact .refl _
          · cases more <;> exact .refl _
      | recv i =>
          obtain ⟨conn, mem, b, -, -, -, ⟨-, heap, hins, rfl⟩ | ⟨-, rfl⟩⟩ :=
            State.recvBranch_cases h
          · exact .insertReadWrite hins
          · exact .append _ _
      | send p j more =>
          rcases State.sendBranch_cases h with ⟨b, conn, -, -, ⟨-, rfl⟩ | ⟨-, b', -, hdel⟩⟩
          · exact .refl _
          · refine TypesKept.trans ?_ (typesKept_deleteIfSent hdel)
            exact .of_map (State.map_countSent (fun _ _ => rfl)
              (s.prep (.closeDirect conn.clientSockFd)) conn.reqBatchRef)
      | batch p =>
          rcases State.batchBranch_cases h with ⟨b, -, -, hdel⟩
          refine TypesKept.trans ?_ (typesKept_deleteIfSent hdel)
          exact .of_map (State.sendEntries_frame (fun _ _ => rfl) p
            { s with log := { s.log with delivered := s.log.delivered ++ [p] } } 0
            b.readwritePool.entries).1

end Network

/-! ## What the main loop dispatches -/

namespace MainState

variable {alloc : Allocator cfg} {s s' : MainState (systemLevelZero cfg)}

/-- A step of the main loop below which the levels are as they were, or one batch was passed to the
first level; the other batches keep their types. -/
inductive Passed (alloc : Allocator cfg) (s s' : MainState (systemLevelZero cfg)) : Prop
  | none (htypes : TypesKept s.batches s'.batches) (hlevels : s'.levels = s.levels)
      (hlog : s'.dispatched = s.dispatched)
  | one {heap : Heap cfg} {num : ℕ} {b : RequestBatch cfg} {levels : System cfg}
      (hbefore : TypesKept s.batches heap) (hb : heap[num]? = some b)
      (hins : System.insertIntoWqs alloc { (s.levels : System cfg) with mem := s.mem, heap } 0 num
        = .ok levels)
      (hafter : TypesKept levels.heap s'.batches) (hlevels : s'.levels = levels)
      (hlog : s'.dispatched = s.dispatched ++ [(num, b)])

/-- `insert_into_wqs(0, …)`, from batches that the caller has changed. -/
theorem insertIntoWqs_passed {num : ℕ} {s₀ : MainState (systemLevelZero cfg)}
    (h : s.insertIntoWqs alloc num = .ok s') (hbefore : TypesKept s₀.batches s.batches)
    (hlevels : s.levels = s₀.levels) (hmem : s.mem = s₀.mem)
    (hlog : s.dispatched = s₀.dispatched) : Passed alloc s₀ s' := by
  rcases bind_eq_ok.1 h with ⟨b, hb, h⟩
  rcases bind_eq_ok.1 h with ⟨⟨levels, batches⟩, hz, h⟩
  cases h
  rcases bind_eq_ok.1 hz with ⟨levels₁, hins, hz⟩
  cases hz
  refine .one hbefore (Heap.deref_ok_iff.1 hb) ?_ (.append _ _) rfl ?_
  · rw [← hlevels, ← hmem]
    exact hins
  · rw [← hlog]

theorem collectMiss_passed {conn : ConnectionRequest} (h : s.collectMiss alloc conn = .ok s') :
    Passed alloc s s' := by
  rcases bind_eq_ok.1 h with ⟨b, hb, h⟩
  rcases bind_eq_ok.1 h with ⟨b', hb', h⟩
  rcases bind_eq_ok.1 hb' with ⟨pool, -, hb'⟩
  cases hb'
  have htypes : TypesKept s.batches (s.batches.set s.readBatch { b with readwritePool := pool }) :=
    .set (Heap.deref_ok_iff.1 hb) rfl
  split_ifs at h
  · exact insertIntoWqs_passed h htypes rfl rfl rfl
  · cases h
    exact .none htypes rfl rfl

theorem writeTable_frame {conn : ConnectionRequest} {tableNum : ℕ} {table : MemTable cfg}
    (h : s.writeTable conn tableNum table = .ok s') :
    s'.batches = s.batches ∧ s'.levels = s.levels ∧ s'.dispatched = s.dispatched := by
  rcases bind_eq_ok.1 h with ⟨⟨table', index⟩, -, h⟩
  cases h
  exact ⟨rfl, rfl, rfl⟩

theorem passCompaction_passed {tableNum : ℕ} {table : MemTable cfg}
    (h : s.passCompaction alloc tableNum table = .ok s') : Passed alloc s s' := by
  rcases bind_eq_ok.1 h with ⟨index, -, h⟩
  rcases bind_eq_ok.1 h with ⟨b, hb, h⟩
  rcases bind_eq_ok.1 h with ⟨reqSeg, -, hins⟩
  have htypes : TypesKept s.batches (s.batches.set s.compactionBatch { b with reqSeg }) :=
    .set (Heap.deref_ok_iff.1 hb) rfl
  exact insertIntoWqs_passed hins htypes rfl rfl rfl

theorem compact_passed {conn : ConnectionRequest} {tableNum : ℕ} {table : MemTable cfg}
    (h : s.compact alloc conn tableNum table = .ok s') : Passed alloc s s' := by
  rcases bind_eq_ok.1 h with ⟨s₁, hpass, h⟩
  rcases writeTable_frame h with ⟨hbatches, hlevels, hlog⟩
  cases passCompaction_passed hpass with
  | none hkept hl hd =>
      exact .none (hbatches ▸ hkept) (hlevels.trans hl) (hlog.trans hd)
  | one hbefore hb' hwqs hafter hl hd =>
      exact .one hbefore hb' hwqs (hbatches ▸ hafter) (hlevels.trans hl) (hlog.trans hd)

/-- One request passes on at most one batch. -/
theorem request_passed {conn : ConnectionRequest} (h : s.request alloc conn = .ok s') :
    Passed alloc s s' := by
  rcases bind_eq_ok.1 h with ⟨⟨index, outcome⟩, -, h⟩
  have hreply : ∀ {s₁ : MainState (systemLevelZero cfg)} (replies : List ConnectionRequest),
      Passed alloc { s with index } s₁ → Passed alloc s { s₁ with replies } := by
    intro s₁ replies hpassed
    cases hpassed with
    | none htypes hlevels hlog => exact .none htypes hlevels hlog
    | one hbefore hb hins hafter hlevels hlog => exact .one hbefore hb hins hafter hlevels hlog
  cases outcome with
  | nullKey =>
      cases h
      exact .none (.refl _) rfl rfl
  | hit value =>
      cases h
      exact .none (.refl _) rfl rfl
  | miss =>
      rcases bind_eq_ok.1 h with ⟨s₁, hmiss, h⟩
      cases h
      exact hreply _ (collectMiss_passed hmiss)
  | write tableNum table =>
      rcases bind_eq_ok.1 h with ⟨s₁, hwrite, h⟩
      cases h
      rcases writeTable_frame hwrite with ⟨hbatches, hlevels, hlog⟩
      exact hreply _ (.none (hbatches ▸ .refl _) hlevels hlog)
  | compact tableNum table =>
      rcases bind_eq_ok.1 h with ⟨s₁, hcompact, h⟩
      cases h
      exact hreply _ (compact_passed hcompact)

end MainState

/-! ## All threads -/

/-- The compactions among the batches that were dispatched. -/
def compactionsOf (dispatched : List (ℕ × RequestBatch cfg)) : List ℕ :=
  (dispatched.filter fun d => d.2.reqType != .read).map Prod.fst

theorem compactionsOf_append (dispatched : List (ℕ × RequestBatch cfg)) (num : ℕ)
    (b : RequestBatch cfg) : compactionsOf (dispatched ++ [(num, b)])
      = compactionsOf dispatched ++ if b.reqType = .read then [] else [num] := by
  by_cases hread : b.reqType = .read
  · simp [compactionsOf, List.filter_append, hread]
  · simp [compactionsOf, List.filter_append, hread]

namespace Pipeline

variable {alloc : Allocator cfg} {s s' : Pipeline cfg}

/-- The compactions that the main loop dispatched are accounted for. -/
def CompactionsAccounted (s : Pipeline cfg) : Prop :=
  System.Accounted (compactionsOf s.main.dispatched) s.levels

/-- What a step can do to the levels: nothing, but the other threads may change the batches; a batch
is passed to the first level; a worker visits an SSTable; a flush is reported. -/
inductive LevelsMoved (alloc : Allocator cfg) (s s' : Pipeline cfg) : Prop
  | none (htypes : TypesKept s.heap s'.heap) (hlevels : s'.main.levels = s.main.levels)
      (hlog : s'.main.dispatched = s.main.dispatched)
  | passed {heap : Heap cfg} {num : ℕ} {b : RequestBatch cfg} {levels : System cfg}
      (hbefore : TypesKept s.heap heap) (hb : heap[num]? = some b)
      (hins : System.insertIntoWqs alloc { s.levels with heap } 0 num = .ok levels)
      (hafter : TypesKept levels.heap s'.heap) (hlevels : s'.main.levels = levels)
      (hlog : s'.main.dispatched = s.main.dispatched ++ [(num, b)])
  | worked {l i : ℕ} {found : Memory} {levels : System cfg}
      (hwork : s.levels.work alloc (search alloc found) l i = .ok levels)
      (heq : s' = s.setLevels levels)
  | reported {l i : ℕ} (heq : s' = s.setLevels (s.levels.report l i))

theorem step_levelsMoved {e : PipelineEvent} (h : s.step alloc e = .ok s') :
    LevelsMoved alloc s s' := by
  cases e with
  | network e =>
      rcases bind_eq_ok.1 h with ⟨net, hnet, h⟩
      cases h
      exact .none (Network.step_typesKept hnet) rfl rfl
  | take p =>
      cases h
      exact .none (.refl _) rfl rfl
  | request =>
      cases step_looped h with
      | idle hcurrent heq =>
          subst heq
          exact .none (.refl _) rfl rfl
      | ended hcurrent hb hend heq =>
          subst heq
          exact .none (.refl _) rfl rfl
      | @answered p i b conn main hcurrent hb hconn hmain heq =>
          subst heq
          have hreply : TypesKept main.batches (main.batches.modifyPool p fun pool =>
              { pool with entries := pool.entries.set i (main.replies.getLastD conn) }) :=
            .modifyPool _ _ _
          cases MainState.request_passed hmain with
          | none htypes hlevels hlog =>
              exact .none (htypes.trans hreply) hlevels hlog
          | one hbefore hb hins hafter hlevels hlog =>
              exact .passed hbefore hb hins (hafter.trans hreply) hlevels hlog
      | passed hcurrent hb hconn hroute hpass heq =>
          subst heq
          cases MainState.passCompaction_passed hpass with
          | none htypes hlevels hlog => exact .none htypes hlevels hlog
          | one hbefore hb hins hafter hlevels hlog =>
            exact .passed hbefore hb hins hafter hlevels hlog
      | written hcurrent hunwritten hwrite heq =>
          subst heq
          rcases MainState.writeTable_frame hwrite with ⟨-, hlevels, hlog⟩
          exact .none (.refl _) hlevels hlog
  | practicallyFull flag =>
      cases h
      exact .none (.refl _) rfl rfl
  | work l i found =>
      rcases bind_eq_ok.1 h with ⟨levels, hwork, h⟩
      cases h
      exact .worked hwork rfl
  | report l i =>
      cases h
      exact .reported rfl

theorem step_accounted {e : PipelineEvent} (h : s.CompactionsAccounted)
    (hstep : s.step alloc e = .ok s') : s'.CompactionsAccounted := by
  cases step_levelsMoved hstep with
  | none htypes hlevels hlog =>
      have hkept := h.setHeap s'.mem htypes
      rw [CompactionsAccounted, hlog, levels, hlevels]
      exact hkept
  | passed hbefore hb hins hafter hlevels hlog =>
      have hchanged := h.setHeap s.mem hbefore
      rw [CompactionsAccounted, hlog, compactionsOf_append, levels, hlevels]
      rcases hchanged.insertIntoWqs hins with ⟨b', hb', hcase⟩
      have heq := Option.some.inj (hb'.symm.trans hb)
      subst heq
      rcases hcase with ⟨hread, rfl⟩ | ⟨htype, hnext⟩
      · rw [if_pos hread, List.append_nil]
        exact hchanged.setHeap s'.mem hafter
      · rw [if_neg htype]
        exact hnext.setHeap s'.mem hafter
  | worked hwork heq =>
      subst heq
      exact h.work hwork
  | reported heq =>
      subst heq
      exact h.report _ _

theorem step_flushedOnce {isFlushedTo : ℕ → ℕ → Bool} {e : PipelineEvent}
    (h : s.levels.FlushedOnce isFlushedTo) (haccount : s.CompactionsAccounted)
    (hstep : s.step alloc e = .ok s') : s'.levels.FlushedOnce isFlushedTo := by
  cases step_levelsMoved hstep with
  | none htypes hlevels hlog =>
      rw [levels, hlevels]
      exact ⟨h.nodup, h.exists_table, h.free, h.waiting, h.flag, h.inFlight⟩
  | @passed heap num b levels hbefore hb hins hafter hlevels hlog =>
      have hchanged : System.FlushedOnce isFlushedTo { s.levels with heap } :=
        ⟨h.nodup, h.exists_table, h.free, h.waiting, h.flag, h.inFlight⟩
      have hnext := hchanged.insertIntoWqs hins
      rw [Pipeline.levels, hlevels]
      exact ⟨hnext.nodup, hnext.exists_table, hnext.free, hnext.waiting, hnext.flag, hnext.inFlight⟩
  | worked hwork heq =>
      subst heq
      exact h.work haccount hwork
  | reported heq =>
      subst heq
      exact h.report _ _

theorem step_stuck {e : PipelineEvent} (haccount : s.CompactionsAccounted)
    (hstep : s.step alloc e = .ok s') : System.Stuck s.levels s'.levels := by
  cases step_levelsMoved hstep with
  | none htypes hlevels hlog =>
      rw [levels, levels, hlevels]
      exact System.Stuck.refl s.levels
  | passed hbefore hb hins hafter hlevels hlog =>
      have hnext := System.stuck_insertIntoWqs hins
      rw [levels, levels, hlevels]
      exact hnext
  | worked hwork heq =>
      subst heq
      exact System.stuck_work haccount hwork
  | reported heq =>
      subst heq
      exact System.stuck_report _ _ _

theorem run_stuck {es : List PipelineEvent} (haccount : s.CompactionsAccounted)
    (hrun : runEvents (step alloc) s es = .ok s') : System.Stuck s.levels s'.levels := by
  induction es generalizing s with
  | nil =>
      cases hrun
      exact .refl _
  | cons e es ih =>
      rcases runEvents_cons_eq_ok hrun with ⟨t, ht, hrest⟩
      exact (step_stuck haccount ht).trans (ih (step_accounted haccount ht) hrest)

end Pipeline

section Start

variable (alloc : Allocator cfg) (index : SparseIndex cfg) (memtables : List (MemTable cfg))
  (isFlushedTo : ℕ → ℕ → Bool) (mem : Memory) (pool : ConnectionPool)

/-- All threads at their start, over levels as constructed. -/
def Pipeline.constructed : Pipeline cfg :=
  .start alloc index memtables (System.start cfg isFlushedTo [] mem) mem pool

theorem Pipeline.constructed_accounted :
    (Pipeline.constructed alloc index memtables isFlushedTo mem pool).CompactionsAccounted :=
  (System.accounted_start isFlushedTo [] mem).setHeap mem fun p b hb => by simp [System.start] at hb

/-- **No compaction is lost below level 0, and none is duplicated.**  In every state that all
threads together can reach, in any order of their steps, the compactions that the main loop
dispatched are those in the wait queues of the SSTables, those that were flushed and those that were
deleted, each as often as it was dispatched; no wait queue holds a READ batch, and none came back
from the levels. -/
theorem compactions_accounted (es : List PipelineEvent) :
    Throughout (Pipeline.step alloc) Pipeline.CompactionsAccounted
      (.constructed alloc index memtables isFlushedTo mem pool) es :=
  throughout_of_step (fun _ _ _ h hstep => Pipeline.step_accounted h hstep)
    (Pipeline.constructed_accounted alloc index memtables isFlushedTo mem pool)

/-- **An SSTable is flushed to at most once, and is stuck behind the flush.**  In every state of
every run, no two flushes went to one SSTable, none went to one that held data at the start, and an
SSTable waits if and only if it was flushed to; what is in its queue then is still there, in its
place, however the run goes on. -/
theorem flushed_once (es : List PipelineEvent) :
    Throughout (Pipeline.step alloc)
      (fun s => s.levels.FlushedOnce isFlushedTo
        ∧ ∀ later s', runEvents (Pipeline.step alloc) s later = .ok s' →
          System.Stuck s.levels s'.levels)
      (.constructed alloc index memtables isFlushedTo mem pool) es := by
  have hboth : Throughout (Pipeline.step alloc)
      (fun s => s.levels.FlushedOnce isFlushedTo ∧ s.CompactionsAccounted)
      (.constructed alloc index memtables isFlushedTo mem pool) es := by
    refine throughout_of_step (fun s e s' h hstep => ?_) ⟨?_, ?_⟩
    · exact ⟨Pipeline.step_flushedOnce h.1 h.2 hstep, Pipeline.step_accounted h.2 hstep⟩
    · have hstart := System.flushedOnce_start isFlushedTo ([] : Heap cfg) mem
      exact ⟨hstart.nodup, hstart.exists_table, hstart.free, hstart.waiting, hstart.flag,
        hstart.inFlight⟩
    · exact Pipeline.constructed_accounted alloc index memtables isFlushedTo mem pool
  exact hboth.mono fun s h => ⟨h.1, fun later s' hrun => Pipeline.run_stuck h.2 hrun⟩

end Start

end RingDB
