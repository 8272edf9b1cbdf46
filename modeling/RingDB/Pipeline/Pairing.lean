import RingDB.Pipeline.Threads

/-!
# Every descriptor with its own buffer

`ConnectionPool::insert` assigns a buffer to a client's descriptor.  From then on the pair travels:
it is copied into the network thread's batch, shifted there by later insertions, copied into the
read batch of the main loop, and from batch to batch by `decompose` on every level, while the
descriptor in the old place is set to -1.

* `Kept P` — all pairs in the pools of a heap satisfy `P`.  Every operation on batches keeps it,
  provided that `P` says nothing about the descriptor -1 and holds for what is inserted.  Making a
  batch keeps it if `P` holds for what its memory happens to hold (`Allocator.Keeps`).
* **`descriptors_paired`** — in every state of every run, the pairs in all pools and those of all
  sends are pairs that `insert` made, if the memory of new batches holds no entry with a client.
* `descriptorsPaired_start_iff` — for the batches that the threads begin with this is necessary.
-/

namespace RingDB

open Core

variable {cfg : Config}

/-- The object of descriptor `clientSockFd` was filled in by `insert`, with this buffer. -/
def ConnectionPool.Assigned (pool : ConnectionPool) (clientSockFd : ℤ) (buffer : ℕ) : Prop :=
  ∃ conn, pool.connections[(clientSockFd - 1).toNat]? = some (some conn)
    ∧ conn.clientSockFd = clientSockFd ∧ conn.buffer = buffer

/-- A pair without a client, or one that `insert` made. -/
def ConnectionPool.Paired (pool : ConnectionPool) (r : ℕ × ℤ) : Prop :=
  r.2 ≠ -1 → pool.Assigned r.2 r.1

/-- All pairs in the pools of a heap satisfy `P`. -/
def Kept (P : ℕ × ℤ → Prop) (heap : Heap cfg) : Prop :=
  ∀ b ∈ heap, ∀ c ∈ b.readwritePool.entries, P c.payload

/-- `P` says nothing about requests without a client. -/
def IgnoresDead (P : ℕ × ℤ → Prop) : Prop := ∀ buffer, P (buffer, -1)

/-- Whatever pool a new batch happens to hold, its pairs satisfy `P`. -/
def Allocator.Keeps (alloc : Allocator cfg) (P : ℕ × ℤ → Prop) : Prop :=
  ∀ n, ∀ c ∈ (alloc.chunk n).readwritePool.entries, P c.payload

/-- No entry that a new batch happens to hold has a client. -/
def Allocator.NoClients (alloc : Allocator cfg) : Prop :=
  ∀ n, ∀ c ∈ (alloc.chunk n).readwritePool.entries, c.clientSockFd = -1

theorem Allocator.EmptyPools.noClients {alloc : Allocator cfg} (h : alloc.EmptyPools) :
    alloc.NoClients := by
  intro n c hc
  rw [h n] at hc
  exact absurd hc List.not_mem_nil

theorem Allocator.NoClients.keeps {alloc : Allocator cfg} {P : ℕ × ℤ → Prop} (h : alloc.NoClients)
    (hdead : IgnoresDead P) : alloc.Keeps P := by
  intro n c hc
  have hpayload : c.payload = (c.buffer, -1) := by rw [ConnectionRequest.payload, h n c hc]
  rw [hpayload]
  exact hdead c.buffer

/-! ## Operations on batches -/

section

variable {P Q : ℕ × ℤ → Prop} {heap heap' : Heap cfg}

theorem Kept.mono (h : Kept P heap) (hPQ : ∀ r, P r → Q r) : Kept Q heap :=
  fun b hb c hc => hPQ _ (h b hb c hc)

theorem Kept.get {p : ℕ} {b : RequestBatch cfg} (h : Kept P heap) (hb : heap[p]? = some b)
    {c : ConnectionRequest} (hc : c ∈ b.readwritePool.entries) : P c.payload :=
  h b (List.mem_of_getElem? hb) c hc

/-- A new batch has the pool that its memory holds. -/
theorem Kept.append_new {alloc : Allocator cfg} (h : Kept P heap) (hnew : alloc.Keeps P)
    (reqType : RequestType) (n : ℕ) :
    Kept P (heap ++ [RequestBatch.new reqType (alloc.chunk n)]) := by
  intro b hb c hc
  rw [List.mem_append, List.mem_singleton] at hb
  rcases hb with hb | rfl
  · exact h b hb c hc
  · exact hnew n c hc

theorem Kept.set {p : ℕ} {b : RequestBatch cfg} (h : Kept P heap)
    (hb : ∀ c ∈ b.readwritePool.entries, P c.payload) : Kept P (heap.set p b) := by
  intro b' hb'
  rcases List.mem_or_eq_of_mem_set hb' with hold | rfl
  · exact h b' hold
  · exact hb

theorem Kept.modifyPool {f : ReadWritePool → ReadWritePool} (h : Kept P heap) (p : ℕ)
    (hf : ∀ pool : ReadWritePool, (∀ c ∈ pool.entries, P c.payload) →
      ∀ c ∈ (f pool).entries, P c.payload) : Kept P (heap.modifyPool p f) := by
  intro b hb
  rcases List.mem_iff_getElem?.1 hb with ⟨i, hi⟩
  rw [Heap.modifyPool, List.getElem?_modify] at hi
  rcases Option.map_eq_some_iff.1 hi with ⟨b₀, hb₀, rfl⟩
  have hold := h b₀ (List.mem_of_getElem? hb₀)
  split_ifs
  · exact hf _ hold
  · exact hold

theorem Kept.removeViaIndex (hdead : IgnoresDead P) (h : Kept P heap) (p i : ℕ) :
    Kept P (heap.modifyPool p (·.removeViaIndex i)) := by
  refine h.modifyPool p fun pool hpool c hc => ?_
  rcases List.mem_iff_getElem?.1 hc with ⟨j, hj⟩
  rw [ReadWritePool.removeViaIndex, List.getElem?_modify] at hj
  rcases Option.map_eq_some_iff.1 hj with ⟨c₀, hc₀, rfl⟩
  split_ifs
  · exact hdead _
  · exact hpool c₀ (List.mem_of_getElem? hc₀)

/-- A sorted insertion shifts entries and copies them field by field; no pair is torn apart. -/
theorem kept_of_insertReadWrite {b b' : RequestBatch cfg} {mem : Memory} {self buffer : ℕ}
    {clientSockFd : ℤ} {reqType : RequestType} (h : ∀ c ∈ b.readwritePool.entries, P c.payload)
    (hnew : P (buffer, clientSockFd))
    (hins : b.insertReadWrite mem self buffer clientSockFd reqType = .ok b') :
    ∀ c ∈ b'.readwritePool.entries, P c.payload := by
  rcases bind_eq_ok.1 hins with ⟨pool, hpool, hins⟩
  cases hins
  intro c hc
  have hmem := (ReadWritePool.insertReadWrite_payload hpool).mem_iff.1
    (List.mem_map_of_mem (f := ConnectionRequest.payload) hc)
  rcases List.mem_cons.1 hmem with heq | hold
  · rw [heq]
    exact hnew
  · rcases List.mem_map.1 hold with ⟨c₀, hc₀, heq⟩
    rw [← heq]
    exact h c₀ hc₀

theorem Kept.insertReadWrite {mem : Memory} {p buffer : ℕ} {clientSockFd : ℤ}
    {reqType : RequestType} (h : Kept P heap) (hnew : P (buffer, clientSockFd))
    (hins : heap.insertReadWrite mem p buffer clientSockFd reqType = .ok heap') :
    Kept P heap' := by
  rcases bind_eq_ok.1 hins with ⟨b, hb, hins⟩
  rcases bind_eq_ok.1 hins with ⟨b', hb', hins⟩
  cases hins
  exact h.set (kept_of_insertReadWrite (fun c hc => h.get (Heap.deref_ok_iff.1 hb) hc) hnew hb')

end

/-! ## `decompose` -/

namespace LevelInfo

variable {P : ℕ × ℤ → Prop} {mem : Memory} {alloc : Allocator cfg} {st st' : Reading cfg}

theorem Reading.insert_kept {slot : ℕ} {conn : ConnectionRequest} (h : Kept P st.heap)
    (hconn : P conn.payload) (hins : st.insert mem slot conn = .ok st') : Kept P st'.heap := by
  rcases bind_eq_ok.1 hins with ⟨p, -, hins⟩
  cases p with
  | none => cases hins
  | some p =>
      rcases bind_eq_ok.1 hins with ⟨heap, hheap, hins⟩
      cases hins
      exact h.insertReadWrite hconn hheap

theorem Reading.makeCatchAll_kept {i : ℕ} (hnew : alloc.Keeps P) (h : Kept P st.heap)
    (hmake : st.makeCatchAll alloc i = .ok st') : Kept P st'.heap := by
  rcases bind_eq_ok.1 hmake with ⟨p, -, hmake⟩
  cases p with
  | some p =>
      cases hmake
      exact h
  | none =>
      rcases bind_eq_ok.1 hmake with ⟨q, -, hmake⟩
      cases q with
      | none => cases hmake
      | some q =>
          cases hmake
          exact (h.append_new hnew .read _).modifyPool
            (f := fun pool => { pool with presentInLevel := false }) q fun _ hpool => hpool

theorem Reading.makePart_kept {i : ℕ} (hnew : alloc.Keeps P) (h : Kept P st.heap)
    (hmake : st.makePart alloc i = .ok st') : Kept P st'.heap := by
  rcases bind_eq_ok.1 hmake with ⟨p, -, hmake⟩
  cases p with
  | none =>
      cases hmake
      exact h
  | some p =>
      cases hmake
      exact (h.append_new hnew .read _).modifyPool
        (f := fun pool => { pool with presentInLevel := true }) st.heap.length fun _ hpool => hpool

theorem Reading.catchAll_kept {i : ℕ} {conn : ConnectionRequest} (hnew : alloc.Keeps P)
    (h : Kept P st.heap) (hconn : P conn.payload) (hput : st.catchAll mem alloc i conn = .ok st') :
    Kept P st'.heap := by
  rcases bind_eq_ok.1 hput with ⟨st₁, hmake, hins⟩
  exact Reading.insert_kept (Reading.makeCatchAll_kept hnew h hmake) hconn hins

theorem Reading.admit_kept {i : ℕ} {conn : ConnectionRequest} (hnew : alloc.Keeps P)
    (h : Kept P st.heap) (hconn : P conn.payload) (hput : st.admit mem alloc i conn = .ok st') :
    Kept P st'.heap := by
  rcases bind_eq_ok.1 hput with ⟨st₁, hmake, hput⟩
  rcases bind_eq_ok.1 hput with ⟨st₂, hins, hput⟩
  cases hput
  have hkept : Kept P st₂.heap :=
    Reading.insert_kept (Reading.makePart_kept hnew h hmake) hconn hins
  exact hkept

/-- A request is copied into a part, and its client is forgotten in the batch. -/
theorem visit_kept {f : Filter} {reqBatch i j : ℕ} (hnew : alloc.Keeps P)
    (hdead : IgnoresDead P) (h : Kept P st.heap)
    (hvisit : visit mem alloc f reqBatch i j st = .ok st') : Kept P st'.heap := by
  rcases bind_eq_ok.1 hvisit with ⟨b, hb, hvisit⟩
  cases hconn : b.readwritePool.entries[j]? with
  | none =>
      simp only [hconn] at hvisit
      cases hvisit
  | some conn =>
      simp only [hconn] at hvisit
      have hpair : P conn.payload :=
        h.get (Heap.deref_ok_iff.1 hb) (List.mem_of_getElem? hconn)
      rcases bind_eq_ok.1 hvisit with ⟨key, -, hvisit⟩
      rcases bind_eq_ok.1 hvisit with ⟨found, -, hvisit⟩
      rcases bind_eq_ok.1 hvisit with ⟨st₁, hput, hvisit⟩
      cases hvisit
      have hkept : Kept P st₁.heap := by
        split_ifs at hput
        · exact Reading.admit_kept hnew h hpair hput
        · exact Reading.catchAll_kept hnew h hpair hput
      exact hkept.removeViaIndex hdead reqBatch j

theorem visitRange_kept {f : Filter} {reqBatch i n j : ℕ} (hnew : alloc.Keeps P)
    (hdead : IgnoresDead P) (h : Kept P st.heap)
    (hloop : visitRange mem alloc f reqBatch i n j st = .ok st') :
    Kept P st'.heap := by
  induction n generalizing j st with
  | zero =>
      cases hloop
      exact h
  | succ n ih =>
      rcases bind_eq_ok.1 hloop with ⟨st₁, hvisit, hloop⟩
      exact ih (visit_kept hnew hdead h hvisit) hloop

theorem rangeLoop_kept {sparseIndex : SparseIndex cfg} {reqBatch : ℕ} {fs : List Filter} {i : ℕ}
    (hnew : alloc.Keeps P) (hdead : IgnoresDead P) (h : Kept P st.heap)
    (hloop : rangeLoop mem alloc sparseIndex reqBatch fs i st = .ok st') : Kept P st'.heap := by
  induction fs generalizing i st with
  | nil =>
      cases hloop
      exact h
  | cons f fs ih =>
      rw [rangeLoop] at hloop
      split_ifs at hloop
      · cases hloop
        exact h
      · rcases bind_eq_ok.1 hloop with ⟨b, -, hloop⟩
        rcases bind_eq_ok.1 hloop with ⟨left, -, hloop⟩
        rcases bind_eq_ok.1 hloop with ⟨right, -, hloop⟩
        rcases bind_eq_ok.1 hloop with ⟨st₁, hrange, hloop⟩
        exact ih (visitRange_kept hnew hdead h hrange) hloop

theorem restLoop_kept {conns : List ConnectionRequest} {i : ℕ} (hnew : alloc.Keeps P)
    (h : Kept P st.heap) (hconns : ∀ c ∈ conns, P c.payload)
    (hloop : restLoop mem alloc conns i st = .ok st') :
    Kept P st'.heap := by
  induction conns generalizing i st with
  | nil =>
      cases hloop
      exact h
  | cons conn conns ih =>
      rcases bind_eq_ok.1 hloop with ⟨st₁, hput, hloop⟩
      have hrest : ∀ c ∈ conns, P c.payload := fun c hc => hconns c (List.mem_cons_of_mem _ hc)
      refine ih ?_ hrest hloop
      split_ifs at hput
      · exact Reading.catchAll_kept hnew h (hconns conn List.mem_cons_self) hput
      · cases hput
        exact h

/-- A decomposition, of a READ batch or of a compaction, on any level. -/
theorem decompose_kept {level level' : LevelInfo cfg} {heap heap' : Heap cfg} {reqBatch : ℕ}
    {d : Decomposition cfg} (hnew : alloc.Keeps P) (hdead : IgnoresDead P) (h : Kept P heap)
    (hd : level.decompose mem alloc heap reqBatch = .ok (level', heap', d)) : Kept P heap' := by
  rcases bind_eq_ok.1 hd with ⟨b, -, hd⟩
  split_ifs at hd
  · rcases bind_eq_ok.1 hd with ⟨⟨heap₁, d₁⟩, hread, hd⟩
    cases hd
    rcases bind_eq_ok.1 hread with ⟨b, -, hread⟩
    rcases bind_eq_ok.1 hread with ⟨st, hrange, hread⟩
    rcases bind_eq_ok.1 hread with ⟨rest, hrest, hread⟩
    rcases bind_eq_ok.1 hread with ⟨st', hloop, hread⟩
    cases hread
    have hst : Kept P st.heap := rangeLoop_kept hnew hdead h hrange
    exact restLoop_kept hnew hst (fun c hc => hst.get (Heap.deref_ok_iff.1 hrest) hc) hloop
  · rcases bind_eq_ok.1 hd with ⟨⟨level₁, d₁⟩, -, hd⟩
    cases hd
    exact h

end LevelInfo

/-! ## The main loop and the levels -/

section

variable {P : ℕ × ℤ → Prop} {alloc : Allocator cfg}

theorem System.insertIntoWqs_kept {s s' : System cfg} {l p : ℕ} (hnew : alloc.Keeps P)
    (hdead : IgnoresDead P) (h : Kept P s.heap) (hins : s.insertIntoWqs alloc l p = .ok s') :
    Kept P s'.heap := by
  rcases System.insertIntoWqs_cases hins with ⟨lv, info, d, hd⟩
  exact LevelInfo.decompose_kept hnew hdead h hd

theorem System.workRead_kept {search : System cfg → ℕ → ℕ → ℕ → Except Fault (System cfg)}
    {s s' : System cfg} {l i p : ℕ} {present flushed : Bool} (hnew : alloc.Keeps P)
    (hdead : IgnoresDead P) (hsearch : ∀ s', search s l i p = .ok s' → Kept P s'.heap)
    (h : Kept P s.heap)
    (hwork : s.workRead alloc search l i p present flushed = .ok s') : Kept P s'.heap := by
  unfold System.workRead at hwork
  split_ifs at hwork
  · exact hsearch s' hwork
  · exact System.insertIntoWqs_kept hnew hdead h hwork
  · cases hwork
    exact h

theorem System.workCompaction_kept {s s' : System cfg} {place : Placement} {flushed : Bool}
    (hnew : alloc.Keeps P) (hdead : IgnoresDead P) (h : Kept P s.heap)
    (hwork : s.workCompaction alloc place flushed = .ok s') : Kept P s'.heap := by
  unfold System.workCompaction at hwork
  split_ifs at hwork
  · rcases bind_eq_ok.1 hwork with ⟨s₁, hins, hwork⟩
    cases hwork
    have hkept : Kept P s₁.heap := System.insertIntoWqs_kept hnew hdead h hins
    exact hkept
  · cases hwork
    exact h
  · cases hwork
    exact h

theorem Pipeline.search_kept {s s' : System cfg} {found : Memory} {l i p : ℕ}
    (hnew : alloc.Keeps P) (hdead : IgnoresDead P) (h : Kept P s.heap)
    (hsearch : Pipeline.search alloc found s l i p = .ok s') : Kept P s'.heap := by
  refine System.workRead_kept (s := { s with mem := found }) hnew hdead (fun s₁ hs₁ => ?_) h hsearch
  cases hs₁
  exact h

/-- A worker's visit, whatever the tree search finds. -/
theorem System.work_kept {s s' : System cfg} {found : Memory} {l i : ℕ} (hnew : alloc.Keeps P)
    (hdead : IgnoresDead P) (h : Kept P s.heap)
    (hwork : s.work alloc (Pipeline.search alloc found) l i = .ok s') :
    Kept P s'.heap := by
  unfold System.work at hwork
  split at hwork
  · cases hwork
    exact h
  · split_ifs at hwork
    · cases hwork
      exact h
    · split at hwork
      · cases hwork
        exact h
      · rename_i t _ _ p rest _
        have hpop : Kept P (s.modifyTable l i fun t =>
          { t with queue := rest, arrived := t.arrived.tail }).heap := h
        rcases bind_eq_ok.1 hwork with ⟨b, -, hwork⟩
        dsimp only at hwork
        split_ifs at hwork
        · exact System.workRead_kept hnew hdead
            (fun _ => Pipeline.search_kept hnew hdead hpop) hpop hwork
        · exact System.workCompaction_kept hnew hdead hpop hwork

namespace MainState

variable {s s' : MainState (systemLevelZero cfg)}

theorem insertIntoWqs_kept {num : ℕ} (hnew : alloc.Keeps P) (hdead : IgnoresDead P)
    (h : Kept P s.batches)
    (hins : s.insertIntoWqs alloc num = .ok s') : Kept P s'.batches := by
  rcases bind_eq_ok.1 hins with ⟨b, -, hins⟩
  rcases bind_eq_ok.1 hins with ⟨⟨levels, batches⟩, hz, hins⟩
  cases hins
  rcases bind_eq_ok.1 hz with ⟨levels₁, hlevels, hz⟩
  cases hz
  exact (System.insertIntoWqs_kept hnew hdead h hlevels).append_new hnew _ _

theorem collectMiss_kept {conn : ConnectionRequest} (hnew : alloc.Keeps P) (hdead : IgnoresDead P)
    (h : Kept P s.batches) (hconn : P conn.payload)
    (hmiss : s.collectMiss alloc conn = .ok s') : Kept P s'.batches := by
  rcases bind_eq_ok.1 hmiss with ⟨b, hb, hmiss⟩
  rcases bind_eq_ok.1 hmiss with ⟨b', hb', hmiss⟩
  have hset : Kept P (s.batches.set s.readBatch b') :=
    h.set (kept_of_insertReadWrite (fun c hc => h.get (Heap.deref_ok_iff.1 hb) hc) hconn hb')
  split_ifs at hmiss
  · exact insertIntoWqs_kept hnew hdead hset hmiss
  · cases hmiss
    exact hset

theorem writeTable_kept {conn : ConnectionRequest} {tableNum : ℕ} {table : MemTable cfg}
    (h : Kept P s.batches) (hwrite : s.writeTable conn tableNum table = .ok s') :
    Kept P s'.batches := by
  rcases bind_eq_ok.1 hwrite with ⟨⟨table', index⟩, -, hwrite⟩
  cases hwrite
  exact h

theorem passCompaction_kept {tableNum : ℕ} {table : MemTable cfg}
    (hnew : alloc.Keeps P) (hdead : IgnoresDead P) (h : Kept P s.batches)
    (hpass : s.passCompaction alloc tableNum table = .ok s') : Kept P s'.batches := by
  rcases bind_eq_ok.1 hpass with ⟨index, -, hpass⟩
  rcases bind_eq_ok.1 hpass with ⟨b, hb, hpass⟩
  rcases bind_eq_ok.1 hpass with ⟨reqSeg, -, hins⟩
  refine insertIntoWqs_kept hnew hdead ?_ hins
  exact h.set fun c hc => h.get (Heap.deref_ok_iff.1 hb) hc

/-- One request: whatever becomes of it, its answer is the request itself, or the request without
its client. -/
theorem request_kept {conn : ConnectionRequest} (hnew : alloc.Keeps P) (hdead : IgnoresDead P)
    (h : Kept P s.batches) (hconn : P conn.payload) (hreq : s.request alloc conn = .ok s') :
    Kept P s'.batches ∧ P (s'.replies.getLastD conn).payload := by
  rcases bind_eq_ok.1 hreq with ⟨⟨index, outcome⟩, -, hreq⟩
  have hindex : Kept P ({ s with index } : MainState (systemLevelZero cfg)).batches := h
  cases outcome with
  | nullKey =>
      cases hreq
      exact ⟨h, by simpa using hconn⟩
  | hit value =>
      cases hreq
      exact ⟨h, by simpa using hconn⟩
  | miss =>
      rcases bind_eq_ok.1 hreq with ⟨s₁, hmiss, hreq⟩
      cases hreq
      have hkept : Kept P s₁.batches := collectMiss_kept hnew hdead hindex hconn hmiss
      refine ⟨hkept, ?_⟩
      rw [List.getLastD_concat]
      exact hdead _
  | write tableNum table =>
      rcases bind_eq_ok.1 hreq with ⟨s₁, hwrite, hreq⟩
      cases hreq
      have hkept : Kept P s₁.batches := writeTable_kept hindex hwrite
      exact ⟨hkept, by simpa using hconn⟩
  | compact tableNum table =>
      rcases bind_eq_ok.1 hreq with ⟨s₁, hcompact, hreq⟩
      cases hreq
      rcases bind_eq_ok.1 hcompact with ⟨s₂, hpass, hwrite⟩
      have hkept : Kept P s₁.batches :=
        writeTable_kept (passCompaction_kept hnew hdead hindex hpass) hwrite
      exact ⟨hkept, by simpa using hconn⟩

end MainState

end

/-! ## The network thread -/

theorem ConnectionPool.ignoresDead (pool : ConnectionPool) : IgnoresDead pool.Paired :=
  fun _ hlive => absurd rfl hlive

/-- Every object that was filled in is that of its descriptor, with the buffer of its descriptor. -/
def ConnectionPool.WellFormed (pool : ConnectionPool) : Prop :=
  ∀ (i : ℕ) (conn : ConnectionRequest), pool.connections[i]? = some (some conn) →
    0 < conn.clientSockFd ∧ i = (conn.clientSockFd - 1).toNat
      ∧ conn.buffer = pool.bufferOf conn.clientSockFd

theorem ConnectionPool.wellFormed_new (numConnections bufferPool : ℕ) :
    (ConnectionPool.new numConnections bufferPool).WellFormed := by
  intro i conn h
  simp only [ConnectionPool.new, List.getElem?_replicate] at h
  split_ifs at h
  cases h

/-- An accept assigns the buffer of its descriptor, and changes no other assignment. -/
theorem ConnectionPool.WellFormed.insert {pool pool' : ConnectionPool} {clientSockFd : ℤ}
    {reqType : RequestType} {i : ℕ} (h : pool.WellFormed)
    (hins : pool.insert clientSockFd reqType = .ok (pool', i)) :
    pool'.WellFormed ∧ ∀ fd buffer, pool.Assigned fd buffer → pool'.Assigned fd buffer := by
  rcases ConnectionPool.insert_cases hins with ⟨hpos, rfl, hlt, conn, -, hfd, hbuffer, rfl⟩
  have hself :
      (pool.connections.set (clientSockFd - 1).toNat (some conn))[(clientSockFd - 1).toNat]?
      = some (some conn) := List.getElem?_set_self hlt
  constructor
  · intro j c hc
    by_cases hj : (clientSockFd - 1).toNat = j
    · subst hj
      rw [hself] at hc
      cases hc
      exact ⟨hfd ▸ hpos, by rw [hfd], by rw [hfd]; exact hbuffer⟩
    · rw [List.getElem?_set_ne hj] at hc
      exact h j c hc
  · rintro fd buffer ⟨c, hc, rfl, rfl⟩
    rcases h _ c hc with ⟨hcpos, -, hcbuffer⟩
    by_cases hj : (clientSockFd - 1).toNat = (c.clientSockFd - 1).toNat
    · -- the same descriptor again, with the same buffer
      have hsame : clientSockFd = c.clientSockFd := by omega
      refine ⟨conn, ?_, hfd.trans hsame, ?_⟩
      · rw [← hj]
        exact hself
      · rw [hbuffer, hcbuffer, hsame]
    · exact ⟨c, by rw [List.getElem?_set_ne hj]; exact hc, rfl, rfl⟩

namespace Network

/-- The pairs in all pools and those of all sends are pairs that `insert` made. -/
structure Paired (s : State cfg) : Prop where
  connections : s.pool.WellFormed
  pools : Kept s.pool.Paired s.heap
  sends : ∀ (clientSockFd : ℤ) (buffer p j : ℕ),
    .sendZc clientSockFd buffer p j ∈ s.subs.history → s.pool.Assigned clientSockFd buffer

section

variable {s s' : State cfg} {alloc : Allocator cfg}

theorem kept_of_map {P : ℕ × ℤ → Prop} {heap heap' : Heap cfg} (h : Kept P heap)
    (hmap : heap'.map (·.readwritePool.entries) = heap.map (·.readwritePool.entries)) :
    Kept P heap' := by
  intro b hb
  have hmem : b.readwritePool.entries ∈ heap.map (·.readwritePool.entries) := by
    rw [← hmap]
    exact List.mem_map_of_mem (f := fun b : RequestBatch cfg => b.readwritePool.entries) hb
  rcases List.mem_map.1 hmem with ⟨b₀, hb₀, heq⟩
  rw [← heq]
  exact h b₀ hb₀

theorem Paired.deleteIfSent {p : ℕ} (h : Paired s) (hdel : s.deleteIfSent p = .ok s') :
    Paired s' := by
  rcases State.deleteIfSent_frame hdel with ⟨log, rfl⟩
  exact ⟨h.connections, h.pools, h.sends⟩

theorem Paired.accept {res : ℤ} {pool : ConnectionPool} {i : ℕ} (h : Paired s)
    (hins : s.pool.insert res .recv = .ok (pool, i)) (more : Bool) :
    Paired (if more then { s with pool }.prep (.recv res (pool.bufferOf res) i)
      else ({ s with pool }.prep (.recv res (pool.bufferOf res) i)).prepFresh .accept) := by
  rcases h.connections.insert hins with ⟨hwell, hmono⟩
  have hpools : Kept pool.Paired s.heap := h.pools.mono fun r hr hlive => hmono _ _ (hr hlive)
  cases more with
  | true =>
      refine ⟨hwell, hpools, fun fd buffer p j hop => hmono _ _ (h.sends fd buffer p j ?_)⟩
      simpa [State.prep, Submissions.prep] using hop
  | false =>
      refine ⟨hwell, hpools, fun fd buffer p j hop => hmono _ _ (h.sends fd buffer p j ?_)⟩
      simpa [State.prep, State.prepFresh, Submissions.prep, Submissions.getSqe] using hop

/-- A request goes from its connection object into the current batch. -/
theorem Paired.recv {i : ℕ} (hnew : alloc.NoClients) (h : Paired s)
    (hrecv : s.recvBranch alloc i = .ok s') :
    Paired s' := by
  obtain ⟨conn, mem, b, hconn, -, -, ⟨-, heap, hins, rfl⟩ | ⟨-, rfl⟩⟩ :=
    State.recvBranch_cases hrecv
  · have hget := ConnectionPool.connection_ok_iff.1 hconn
    have hassigned : s.pool.Paired (conn.buffer, conn.clientSockFd) := by
      intro _
      rcases h.connections i conn hget with ⟨-, hi, -⟩
      exact ⟨conn, by rw [← hi]; exact hget, rfl, rfl⟩
    exact ⟨h.connections, h.pools.insertReadWrite hassigned hins, h.sends⟩
  · refine ⟨h.connections, h.pools.append_new (hnew.keeps s.pool.ignoresDead) _ _,
      fun fd buffer p j hop => ?_⟩
    refine h.sends fd buffer p j ?_
    simpa [State.prep, Submissions.prep, State.recordReceived] using hop

theorem Paired.send {p j : ℕ} {more : Bool} (h : Paired s)
    (hsend : s.sendBranch p j more = .ok s') : Paired s' := by
  rcases State.sendBranch_cases hsend with ⟨b, conn, -, -, ⟨-, rfl⟩ | ⟨-, b', -, hdel⟩⟩
  · exact h
  · have hpools := kept_of_map h.pools
      (State.map_countSent (fun _ _ => rfl) (s.prep (.closeDirect conn.clientSockFd))
        conn.reqBatchRef)
    refine Paired.deleteIfSent ?_ hdel
    refine ⟨h.connections, hpools, fun fd buffer p j hop => h.sends fd buffer p j ?_⟩
    simpa [State.prep, Submissions.prep, State.countSent] using hop

/-- The answers of a batch are sent to the clients in its pool, from their buffers. -/
theorem Paired.batch {p : ℕ} (h : Paired s) (hbatch : s.batchBranch p = .ok s') : Paired s' := by
  rcases State.batchBranch_cases hbatch with ⟨b, hb, -, hdel⟩
  obtain ⟨hmap, -, hpool⟩ := State.sendEntries_frame
    (f := fun b : RequestBatch cfg => b.readwritePool.entries) (fun _ _ => rfl) p
    { s with log := { s.log with delivered := s.log.delivered ++ [p] } } 0
    b.readwritePool.entries
  have hget : s.heap[p]? = some b := (State.deref_ok_iff.1 hb).2
  refine Paired.deleteIfSent ⟨?_, ?_, fun fd buffer q j hop => ?_⟩ hdel
  · rw [hpool]
    exact h.connections
  · rw [hpool]
    exact kept_of_map h.pools hmap
  · rw [hpool]
    rcases State.history_sendEntries p _ 0 _ hop with hop | ⟨conn, hconn, hlive, k, heq⟩
    · exact h.sends fd buffer q j hop
    · cases heq
      exact h.pools.get hget hconn hlive

theorem Paired.step {e : Event} (hnew : alloc.NoClients) (h : Paired s)
    (hstep : step alloc s e = .ok s') : Paired s' := by
  cases e with
  | wait =>
      cases hstep
      exact ⟨h.connections, h.pools, h.sends⟩
  | memory mem =>
      cases hstep
      exact ⟨h.connections, h.pools, h.sends⟩
  | cqe c =>
      cases c with
      | accept res more =>
          rcases State.acceptBranch_cases hstep with ⟨-, rfl⟩ | ⟨-, pool, i, hins, rfl⟩
          · exact h
          · exact h.accept hins more
      | recv i => exact h.recv hnew hstep
      | send p j more => exact h.send hstep
      | batch p => exact h.batch hstep

end

end Network

/-! ## All threads -/

namespace Pipeline

variable {alloc : Allocator cfg} {s s' : Pipeline cfg}

/-- A step of another thread, after which all pools are paired. -/
theorem paired_heap (h : Network.Paired s.network) (hnet : s'.net = s.net)
    (hheap : Kept s.net.pool.Paired s'.heap) : Network.Paired s'.network := by
  constructor
  · show s'.net.pool.WellFormed
    rw [hnet]
    exact h.connections
  · show Kept s'.net.pool.Paired s'.heap
    rw [hnet]
    exact hheap
  · show ∀ clientSockFd buffer p j, .sendZc clientSockFd buffer p j ∈ s'.net.subs.history →
      s'.net.pool.Assigned clientSockFd buffer
    rw [hnet]
    exact h.sends

theorem request_paired (hnew : alloc.NoClients) (h : Network.Paired s.network)
    (hstep : s.step alloc .request = .ok s') : Network.Paired s'.network := by
  have hkeeps := hnew.keeps s.net.pool.ignoresDead
  have hbatches : Kept s.net.pool.Paired s.mainLoop.batches := h.pools
  cases step_looped hstep with
  | idle hcurrent heq =>
      subst heq
      exact h
  | ended hcurrent hb hend heq =>
      subst heq
      exact h
  | @answered p i b conn main hcurrent hb hconn hmain heq =>
      subst heq
      have hpair : s.net.pool.Paired conn.payload := h.pools.get hb (List.mem_of_getElem? hconn)
      obtain ⟨hkept, hreply⟩ :=
        MainState.request_kept hkeeps s.net.pool.ignoresDead hbatches hpair hmain
      refine paired_heap h rfl (hkept.modifyPool (f := fun pool =>
        { pool with entries := pool.entries.set i (main.replies.getLastD conn) }) p ?_)
      intro pool hpool c hc
      rcases List.mem_or_eq_of_mem_set hc with hold | rfl
      · exact hpool c hold
      · exact hreply
  | @passed p i b conn index tableNum table main hcurrent hb hconn hroute hpass heq =>
      subst heq
      have hindex : Kept s.net.pool.Paired
          ({ s.mainLoop with index } : MainState (systemLevelZero cfg)).batches := h.pools
      exact paired_heap h rfl
        (MainState.passCompaction_kept hkeeps s.net.pool.ignoresDead hindex hpass)
  | written hcurrent hunwritten hwrite heq =>
      subst heq
      exact paired_heap h rfl h.pools

theorem step_paired {e : PipelineEvent} (hnew : alloc.NoClients) (h : Network.Paired s.network)
    (hstep : s.step alloc e = .ok s') : Network.Paired s'.network := by
  cases e with
  | network e =>
      rcases bind_eq_ok.1 hstep with ⟨net, hnet, hstep⟩
      cases hstep
      exact h.step hnew hnet
  | take p =>
      cases hstep
      exact h
  | request => exact request_paired hnew h hstep
  | practicallyFull flag =>
      cases hstep
      exact h
  | work l i found =>
      rcases bind_eq_ok.1 hstep with ⟨levels, hwork, hstep⟩
      cases hstep
      have hheap : Kept s.net.pool.Paired s.levels.heap := h.pools
      exact paired_heap h rfl (System.work_kept (hnew.keeps s.net.pool.ignoresDead)
        s.net.pool.ignoresDead hheap hwork)
  | report l i =>
      cases hstep
      refine paired_heap h rfl ?_
      show Kept s.net.pool.Paired (s.levels.report l i).heap
      unfold System.report
      split
      · exact h.pools
      · exact h.pools

theorem start_paired (hnew : alloc.NoClients) (index : SparseIndex cfg)
    (memtables : List (MemTable cfg)) (levels : System cfg) (mem : Memory)
    (numConnections bufferPool : ℕ) :
    Network.Paired (start alloc index memtables levels mem
      (.new numConnections bufferPool)).network := by
  refine ⟨ConnectionPool.wellFormed_new _ _, ?_, fun _ _ _ _ hop => absurd hop List.not_mem_nil⟩
  have hnone : Kept (ConnectionPool.new numConnections bufferPool).Paired ([] : Heap cfg) :=
    fun b hb => absurd hb List.not_mem_nil
  have hkeeps := hnew.keeps (ConnectionPool.new numConnections bufferPool).ignoresDead
  have htwo := (hnone.append_new hkeeps .read 0).append_new hkeeps .compaction 1
  exact htwo.append_new hkeeps .read 2

/-- Every pool entry with a client has the buffer that `insert` assigned to its descriptor, and so
has every answer that was sent. -/
structure DescriptorsPaired (s : Pipeline cfg) : Prop where
  pools : ∀ b ∈ s.heap, ∀ c ∈ b.readwritePool.entries, c.clientSockFd ≠ -1 →
    s.net.pool.Assigned c.clientSockFd c.buffer
  sends : ∀ (clientSockFd : ℤ) (buffer p j : ℕ),
    .sendZc clientSockFd buffer p j ∈ s.net.subs.history → s.net.pool.Assigned clientSockFd buffer

/-- Before the first client there is no assignment, so the batches that the threads begin with must
hold no entry with a client. -/
theorem descriptorsPaired_start_iff (alloc : Allocator cfg) (index : SparseIndex cfg)
    (memtables : List (MemTable cfg)) (levels : System cfg) (mem : Memory)
    (numConnections bufferPool : ℕ) :
    (start alloc index memtables levels mem (.new numConnections bufferPool)).DescriptorsPaired ↔
      ∀ n < 3, ∀ c ∈ (alloc.chunk n).readwritePool.entries, c.clientSockFd = -1 := by
  have hheap : (start alloc index memtables levels mem (.new numConnections bufferPool)).heap
      = [.new .read (alloc.chunk 0), .new .compaction (alloc.chunk 1),
        .new .read (alloc.chunk 2)] :=
    rfl
  have hnone : ∀ fd buffer,
      ¬ (ConnectionPool.new numConnections bufferPool).Assigned fd buffer := by
    rintro fd buffer ⟨conn, hconn, -⟩
    simp only [ConnectionPool.new, List.getElem?_replicate] at hconn
    split_ifs at hconn
    cases hconn
  constructor
  · intro h n hn c hc
    by_contra hlive
    have hmem : ∃ b ∈
        (start alloc index memtables levels mem (.new numConnections bufferPool)).heap,
        c ∈ b.readwritePool.entries := by
      rw [hheap]
      match n, hn with
      | 0, _ => exact ⟨_, List.mem_cons_self, hc⟩
      | 1, _ => exact ⟨_, List.mem_cons_of_mem _ List.mem_cons_self, hc⟩
      | 2, _ => exact ⟨_, List.mem_cons_of_mem _ (List.mem_cons_of_mem _ List.mem_cons_self), hc⟩
    rcases hmem with ⟨b, hb, hc⟩
    exact hnone _ _ (h.pools b hb c hc hlive)
  · intro h
    refine ⟨fun b hb c hc hlive => ?_, fun _ _ _ _ hop => absurd hop List.not_mem_nil⟩
    rw [hheap] at hb
    simp only [List.mem_cons, List.not_mem_nil, or_false] at hb
    rcases hb with rfl | rfl | rfl
    · exact absurd (h 0 (by decide) c hc) hlive
    · exact absurd (h 1 (by decide) c hc) hlive
    · exact absurd (h 2 (by decide) c hc) hlive

end Pipeline

/-- **Answers never cross clients**, if whatever the memory of new batches happens to hold are no
entries with a client.  In every state that all threads together can reach, in any order of their
steps, every entry with a client, in whatever pool, has as its buffer the one that
`ConnectionPool::insert` assigned to its descriptor, and every answer goes from a client's own
buffer to its descriptor. -/
theorem descriptors_paired (alloc : Allocator cfg) (hnew : alloc.NoClients)
    (index : SparseIndex cfg) (memtables : List (MemTable cfg)) (levels : System cfg) (mem : Memory)
    (numConnections bufferPool : ℕ) (es : List PipelineEvent) :
    Throughout (Pipeline.step alloc) Pipeline.DescriptorsPaired
      (.start alloc index memtables levels mem (.new numConnections bufferPool)) es := by
  have hpaired : Throughout (Pipeline.step alloc) (fun s => Network.Paired s.network)
      (.start alloc index memtables levels mem (.new numConnections bufferPool)) es :=
    throughout_of_step (fun _ _ _ h hstep => Pipeline.step_paired hnew h hstep)
      (Pipeline.start_paired hnew index memtables levels mem numConnections bufferPool)
  exact hpaired.mono fun s h => ⟨h.pools, h.sends⟩

/-- Two clients connect and send a request each, which find room for two in a batch; the first sends
another one, and the batch goes around and is answered.  The requests are for the null key. -/
def twoClients : List PipelineEvent :=
  [.network .wait, .network (.cqe (.accept 1 true)), .network .wait,
    .network (.cqe (.accept 2 true)),
    .network .wait, .network (.cqe (.recv 0)), .network (.cqe (.recv 1)), .network (.cqe (.recv 0)),
    .take 2, .request, .request, .request, .network .wait, .network (.cqe (.batch 2))]

/-- The threads over an empty store, in the memory of `alloc`. -/
def emptyPipeline (alloc : Allocator pairConfig) : Pipeline pairConfig :=
  .start alloc (SparseIndex.fresh pairConfig) []
    (.start pairConfig (fun _ _ => false) [] fun _ => 0)
    (fun _ => 0) (.new 4 0)

/-- Both are answered from their own buffers. -/
theorem twoClients_paired :
    okAnd (runEvents (Pipeline.step (.zeroed pairConfig)) (emptyPipeline (.zeroed pairConfig))
        twoClients) (fun s => s.net.log.sends == [(2, 0), (2, 1)]) = true
      ∧ Throughout (Pipeline.step (.zeroed pairConfig)) Pipeline.DescriptorsPaired
        (emptyPipeline (.zeroed pairConfig)) twoClients :=
  ⟨by decide +kernel, descriptors_paired (.zeroed pairConfig)
    (Allocator.emptyPools_zeroed pairConfig).noClients (SparseIndex.fresh pairConfig) []
    (.start pairConfig (fun _ _ => false) [] fun _ => 0) (fun _ => 0) 4 0 twoClients⟩

/-- Memory in which the pool of a new batch reads as one READ of descriptor 2, in the buffer of
descriptor 1. -/
def usedAllocator : Allocator pairConfig :=
  { Allocator.zeroed pairConfig with
    chunk := fun _ => { RequestBatch.zeroed pairConfig .read with
      readwritePool := { entries := [⟨.read, 0, 2, 0⟩] } } }

/-- **In such memory descriptor 2 is sent an answer from the buffer of descriptor 1.** -/
theorem usedAllocator_crosses :
    okAnd (runEvents (Pipeline.step usedAllocator) (emptyPipeline usedAllocator) twoClients)
        (fun s => decide (.sendZc 2 0 2 1 ∈ s.net.subs.history) && s.net.pool.bufferOf 2 == 1)
          = true
      ∧ ¬ Throughout (Pipeline.step usedAllocator) Pipeline.DescriptorsPaired
        (emptyPipeline usedAllocator) twoClients := by
  refine ⟨by decide +kernel, fun h => ?_⟩
  have hfirst := (Pipeline.descriptorsPaired_start_iff _ _ _ _ _ _ _).1 h.start 0 (by decide) _
    List.mem_cons_self
  exact absurd hfirst (by decide)

end RingDB
