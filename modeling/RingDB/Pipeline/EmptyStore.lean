import RingDB.LevelZero.Routing
import RingDB.Pipeline.Ledger

/-!
# A database that is started empty stays empty

`main.cpp` starts with memtables, a sparse index and levels as constructed.  `get_table_num` finds
no table in such an index and sets no maximum key, so a WRITE of a key is sent to `memtables[-1]`,
which does not exist, and every READ misses; what is left are requests for the null key.  Without a
WRITE there is no compaction, and a READ batch leaves the levels as they are.

**`nothing_stored`**: in no order of the steps of all threads does anything get into a memtable, a
wait queue or a file.
-/

namespace RingDB

open Core

variable {cfg : Config}

/-- Memtables and index are as constructed, as far as a request can tell. -/
structure MainState.Blank (s : MainState (systemLevelZero cfg)) : Prop where
  noMax : SparseIndex.NoMax s.index
  memtables : s.memtables = List.replicate cfg.levelFactor (MemTable.fresh cfg)
  written : s.written = []

namespace MainState.Blank

variable {alloc : Allocator cfg} {s s' : MainState (systemLevelZero cfg)} {conn : ConnectionRequest}

theorem no_table (h : s.Blank) : s.memtables[uintMax]? = none := by
  have hlen : (List.replicate cfg.levelFactor (MemTable.fresh cfg)).length = cfg.levelFactor :=
    List.length_replicate ..
  rw [h.memtables]
  exact List.getElem?_eq_none (hlen.trans_le cfg.levelFactor_le)

/-- The index names no table and gets no maximum key, so a request is one for the null key or a READ
that misses. -/
theorem route (h : s.Blank) {index : SparseIndex cfg} {outcome : Outcome (systemLevelZero cfg)}
    (hroute : s.route conn = .ok (index, outcome)) :
    index.NoMax ∧ ((outcome = .nullKey ∧ keyAt cfg s.mem conn.buffer = nullKey cfg)
      ∨ (outcome = .miss ∧ conn.reqType = .read)) := by
  obtain ⟨index', hget, hmax⟩ :=
    SparseIndex.getTableNum_of_noMax h.noMax (length_keyAt cfg s.mem conn.buffer)
  have hget' : (systemLevelZero cfg).getTableNum s.index (keyAt cfg s.mem conn.buffer)
      = .ok (index', uintMax) := hget
  unfold MainState.route at hroute
  rcases bind_eq_ok.1 hroute with ⟨⟨index₁, tableNum⟩, hlookup, hroute⟩
  rw [hget'] at hlookup
  cases hlookup
  simp only [h.no_table] at hroute
  split_ifs at hroute with hnull hread
  · cases hroute
    exact ⟨hmax, .inl ⟨rfl, memcmp_eq_iff.1 hnull⟩⟩
  · cases hroute
    exact ⟨hmax, .inr ⟨rfl, hread⟩⟩

/-- A request in a blank state: only a READ batch can be dispatched. -/
theorem request (h : s.Blank) (hreq : s.request alloc conn = .ok s') :
    s'.Blank ∧ (keyAt cfg s.mem conn.buffer = nullKey cfg ∨ conn.reqType = .read)
      ∧ s'.readBatch = s.readBatch
      ∧ (s'.dispatched = s.dispatched
        ∨ ∃ b, s'.dispatched = s.dispatched ++ [(s.readBatch, b)]) := by
  rcases bind_eq_ok.1 hreq with ⟨⟨index, outcome⟩, hroute, hreq⟩
  rcases h.route hroute with ⟨hmax, ⟨rfl, hnull⟩ | ⟨rfl, hread⟩⟩
  · cases hreq
    exact ⟨⟨hmax, h.memtables, h.written⟩, .inl hnull, rfl, .inl rfl⟩
  · rcases bind_eq_ok.1 hreq with ⟨s₁, hmiss, hreq⟩
    cases hreq
    rcases bind_eq_ok.1 hmiss with ⟨b, -, hmiss⟩
    rcases bind_eq_ok.1 hmiss with ⟨b', -, hmiss⟩
    split_ifs at hmiss
    · rcases bind_eq_ok.1 hmiss with ⟨b₁, -, hmiss⟩
      rcases bind_eq_ok.1 hmiss with ⟨⟨levels, batches⟩, -, hmiss⟩
      cases hmiss
      exact ⟨⟨hmax, h.memtables, h.written⟩, .inr hread, rfl, .inr ⟨b₁, rfl⟩⟩
    · cases hmiss
      exact ⟨⟨hmax, h.memtables, h.written⟩, .inr hread, rfl, .inl rfl⟩

end MainState.Blank

namespace Pipeline

variable {alloc : Allocator cfg} {s s' : Pipeline cfg}

/-- The main loop in a step of any thread. -/
theorem step_blank {e : PipelineEvent} (h : s.main.Blank) (hnone : s.unwritten = none)
    (hstep : s.step alloc e = .ok s') :
    (s'.main.Blank ∧ s'.unwritten = none) ∧ s'.main.readBatch = s.main.readBatch
      ∧ (s'.main.dispatched = s.main.dispatched
        ∨ ∃ b, s'.main.dispatched = s.main.dispatched ++ [(s.main.readBatch, b)]) := by
  cases e with
  | network e =>
      rcases bind_eq_ok.1 hstep with ⟨net, -, hstep⟩
      cases hstep
      exact ⟨⟨h, hnone⟩, rfl, .inl rfl⟩
  | take p =>
      cases hstep
      exact ⟨⟨h, hnone⟩, rfl, .inl rfl⟩
  | request =>
      have hblank : s.mainLoop.Blank := ⟨h.noMax, h.memtables, h.written⟩
      cases step_looped hstep with
      | idle hcurrent heq =>
          subst heq
          exact ⟨⟨h, hnone⟩, rfl, .inl rfl⟩
      | ended hcurrent hb hend heq =>
          subst heq
          exact ⟨⟨h, hnone⟩, rfl, .inl rfl⟩
      | answered hcurrent hb hconn hmain heq =>
          subst heq
          rcases hblank.request hmain with ⟨hnext, -, hread, hlog⟩
          exact ⟨⟨hnext, hnone⟩, hread, hlog⟩
      | passed hcurrent hb hconn hroute hpass heq =>
          rcases (hblank.route hroute).2 with ⟨hout, -⟩ | ⟨hout, -⟩
          · cases hout
          · cases hout
      | written hcurrent hunwritten hwrite heq =>
          rw [hnone] at hunwritten
          cases hunwritten
  | practicallyFull flag =>
      cases hstep
      exact ⟨⟨⟨h.noMax, h.memtables, h.written⟩, hnone⟩, rfl, .inl rfl⟩
  | work l i found =>
      rcases bind_eq_ok.1 hstep with ⟨levels, -, hstep⟩
      cases hstep
      exact ⟨⟨⟨h.noMax, h.memtables, h.written⟩, hnone⟩, rfl, .inl rfl⟩
  | report l i =>
      cases hstep
      exact ⟨⟨⟨h.noMax, h.memtables, h.written⟩, hnone⟩, rfl, .inl rfl⟩

/-- Memtables, wait queues and files are as at the start. -/
structure StoresNothing (s : Pipeline cfg) : Prop where
  blank : s.main.Blank
  unwritten : s.unwritten = none
  queues : ∀ l i t, s.levels.table? l i = some t → t.queue = []
  inFlight : s.levels.inFlight = []
  flushes : s.levels.flushes = []
  forwards : s.levels.forwards = []
  deletions : s.levels.deletions = []
  answers : s.levels.answers = []
  /-- What was passed to the first level: READ batches in which no request has a client. -/
  dispatched : ∀ d ∈ s.main.dispatched, d.2.reqType = .read
    ∧ ∀ conn ∈ d.2.readwritePool.entries, conn.clientSockFd = -1

/-- The read batch of the main loop is a READ batch. -/
def ReadBatchTyped (s : Pipeline cfg) : Prop :=
  ∃ b, s.heap[s.main.readBatch]? = some b ∧ b.reqType = .read

theorem ReadBatchTyped.of_kept {heap : Heap cfg} (h : s.ReadBatchTyped)
    (htypes : TypesKept s.heap heap) :
    ∃ b, heap[s.main.readBatch]? = some b ∧ b.reqType = .read := by
  rcases h with ⟨b, hb, hread⟩
  rcases htypes _ b hb with ⟨b', hb', heq⟩
  exact ⟨b', hb', heq.trans hread⟩

/-- The levels are as they were, whatever the batches and memory. -/
theorem StoresNothing.of_levels (h : s.StoresNothing) (hblank : s'.main.Blank ∧ s'.unwritten = none)
    {heap : Heap cfg} {mem : Memory} (hlevels : s'.levels = { s.levels with heap, mem })
    (hlog : ∀ d ∈ s'.main.dispatched, d.2.reqType = .read
      ∧ ∀ conn ∈ d.2.readwritePool.entries, conn.clientSockFd = -1) : s'.StoresNothing := by
  refine ⟨hblank.1, hblank.2, ?_, ?_, ?_, ?_, ?_, ?_, hlog⟩
  all_goals rw [hlevels]
  · exact h.queues
  · exact h.inFlight
  · exact h.flushes
  · exact h.forwards
  · exact h.deletions
  · exact h.answers

/-- Workers find nothing to do. -/
theorem StoresNothing.work (h : s.StoresNothing) {l i : ℕ} {found : Memory} {levels : System cfg}
    (hwork : s.levels.work alloc (search alloc found) l i = .ok levels) : levels = s.levels := by
  rw [System.work_idle fun t ht => .inr (h.queues l i t ht)] at hwork
  cases hwork
  rfl

theorem StoresNothing.step {e : PipelineEvent} (h : s.StoresNothing) (hread : s.ReadBatchTyped)
    (hstep : s.step alloc e = .ok s') : s'.StoresNothing ∧ s'.ReadBatchTyped := by
  rcases step_blank h.blank h.unwritten hstep with ⟨hblank, hbatch, hdispatched⟩
  rw [ReadBatchTyped, hbatch]
  cases step_levelsMoved hstep with
  | none htypes hlevels hlog =>
      have hsame : s'.levels = { s.levels with heap := s'.heap, mem := s'.mem } := by
        rw [levels, hlevels]
        rfl
      exact ⟨h.of_levels hblank hsame (hlog ▸ h.dispatched), hread.of_kept htypes⟩
  | @passed heap num b levels hbefore hb hins hafter hlevels hlog =>
      -- it is the read batch that was passed on
      have hnum : num = s.main.readBatch := by
        rcases hdispatched with hsame | ⟨b', hb'⟩
        · rw [hlog] at hsame
          exact absurd (congrArg List.length hsame) (by simp)
        · rw [hlog] at hb'
          have hlast := List.append_cancel_left hb'
          simp only [List.cons.injEq, Prod.mk.injEq, and_true] at hlast
          exact hlast.1
      subst hnum
      rcases hread.of_kept hbefore with ⟨b₀, hb₀, htype⟩
      rw [hb] at hb₀
      cases hb₀
      rcases System.insertIntoWqs_outcome hins with ⟨b₁, hb₁, hcase⟩
      have heq := Option.some.inj (hb₁.symm.trans hb)
      subst heq
      rcases hcase with ⟨-, hdead, rfl⟩ | ⟨hwrong, -⟩
      · have hsame : s'.levels = { s.levels with heap := s'.heap, mem := s'.mem } := by
          rw [Pipeline.levels, hlevels]
        refine ⟨h.of_levels hblank hsame fun d hd => ?_, hread.of_kept (hbefore.trans hafter)⟩
        rw [hlog] at hd
        rcases List.mem_append.1 hd with hold | hlast
        · exact h.dispatched d hold
        · rw [List.mem_singleton.1 hlast]
          exact ⟨htype, hdead⟩
      · exact absurd htype hwrong
  | worked hwork heq =>
      subst heq
      rw [h.work hwork] at hblank ⊢
      exact ⟨h.of_levels hblank rfl h.dispatched, hread⟩
  | reported heq =>
      subst heq
      rw [System.report_idle h.inFlight] at hblank ⊢
      exact ⟨h.of_levels hblank rfl h.dispatched, hread⟩

/-- A WRITE of a key ends the run. -/
theorem StoresNothing.write_fails (h : s.StoresNothing) {p i : ℕ} {b : RequestBatch cfg}
    {conn : ConnectionRequest} (hcurrent : s.current = some (p, i)) (hb : s.heap[p]? = some b)
    (hconn : b.readwritePool.entries[i]? = some conn) (hwrite : conn.reqType ≠ .read)
    (hkey : keyAt cfg s.mem conn.buffer ≠ nullKey cfg) : s.step alloc .request ≠ .ok s' := by
  intro hstep
  simp only [Pipeline.step, hcurrent, h.unwritten] at hstep
  rcases bind_eq_ok.1 hstep with ⟨b', hb', hstep⟩
  rw [Heap.deref_ok_iff.2 hb] at hb'
  cases hb'
  simp only [hconn] at hstep
  rcases bind_eq_ok.1 hstep with ⟨⟨index, outcome⟩, hroute, -⟩
  have hblank : s.mainLoop.Blank := ⟨h.blank.noMax, h.blank.memtables, h.blank.written⟩
  rcases (hblank.route hroute).2 with ⟨-, hnull⟩ | ⟨-, hread⟩
  · exact hkey hnull
  · exact hwrite hread

end Pipeline

/-- All threads over an empty database. -/
def Pipeline.emptyDatabase (alloc : Allocator cfg) (isFlushedTo : ℕ → ℕ → Bool) (mem : Memory)
    (pool : ConnectionPool) : Pipeline cfg :=
  .constructed alloc (SparseIndex.fresh cfg) (List.replicate cfg.levelFactor (MemTable.fresh cfg))
    isFlushedTo mem pool

theorem Pipeline.emptyDatabase_storesNothing (alloc : Allocator cfg) (isFlushedTo : ℕ → ℕ → Bool)
    (mem : Memory) (pool : ConnectionPool) :
    (emptyDatabase alloc isFlushedTo mem pool).StoresNothing
      ∧ (emptyDatabase alloc isFlushedTo mem pool).ReadBatchTyped := by
  refine ⟨⟨⟨SparseIndex.noMax_fresh cfg, rfl, rfl⟩, rfl, fun l i t ht => ?_,
    rfl, rfl, rfl, rfl, rfl,
    fun d hd => absurd hd List.not_mem_nil⟩, RequestBatch.new .read (alloc.chunk 0), rfl, rfl⟩
  have htable := System.table?_start isFlushedTo [] mem ht
  rw [htable]

/-- **Nothing is ever stored.**  A database is started with memtables, sparse index and levels as
constructed, over whatever files.  In every state that all threads together can reach, in any order
of their steps, the memtables are as constructed, no WRITE was carried out, every wait queue is
empty, and nothing was flushed, forwarded, deleted or answered by the levels; all that was passed to
them are READ batches in which no request has a client.  A WRITE of a key has no outcome in any of
these states. -/
theorem nothing_stored (alloc : Allocator cfg) (isFlushedTo : ℕ → ℕ → Bool) (mem : Memory)
    (pool : ConnectionPool) (es : List PipelineEvent) :
    Throughout (Pipeline.step alloc)
      (fun s => s.StoresNothing ∧ ∀ p i b conn, s.current = some (p, i) → s.heap[p]? = some b →
        b.readwritePool.entries[i]? = some conn → conn.reqType ≠ .read →
        keyAt cfg s.mem conn.buffer ≠ nullKey cfg → ∀ s', s.step alloc .request ≠ .ok s')
      (.emptyDatabase alloc isFlushedTo mem pool) es := by
  have hboth : Throughout (Pipeline.step alloc) (fun s => s.StoresNothing ∧ s.ReadBatchTyped)
      (.emptyDatabase alloc isFlushedTo mem pool) es :=
    throughout_of_step (fun _ _ _ h hstep => h.1.step h.2 hstep)
      (Pipeline.emptyDatabase_storesNothing alloc isFlushedTo mem pool)
  exact hboth.mono fun s h => ⟨h.1, fun p i b conn hcurrent hb hconn hwrite hkey _ =>
    h.1.write_fails hcurrent hb hconn hwrite hkey⟩

end RingDB
