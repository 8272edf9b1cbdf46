import RingDB.Core.Blocks
import RingDB.Network.OpenBatches
import RingDB.Network.Receiving

/-!
# How requests are grouped into batches

The request that finds the current batch full is in no batch, so the requests that arrive fall into
groups of `BATCH_NUM_REQUESTS + 1`, and each batch that goes to the main ring holds its group
without the last of it.

* `SameBatches` — what all branches but the RECV branch leave alone.
* `Grouped` — the invariant.
* **`requests_grouped`** — which requests are in which batch, and in which order the batches go,
  after any run of the network thread.
-/

namespace RingDB.Network

open Core

variable {cfg : Config}

namespace State

/-- The batches whose message to the main ring was prepared, in this order. -/
def messages (s : State cfg) : List ℕ := s.subs.history.filterMap Operation.batch?

end State

/-- What was received and grouped is the same. -/
structure SameBatches (s s' : State cfg) : Prop where
  entries : s'.entriesOf = s.entriesOf
  length : s'.heap.length = s.heap.length
  batch : s'.batch = s.batch
  received : s'.log.received = s.log.received
  handedOver : s'.log.handedOver = s.log.handedOver
  messages : s'.messages = s.messages

/-- The requests in the batches after any steps: the batches handed over hold the first
`BATCH_NUM_REQUESTS` of the groups that are complete, the current one what is left. -/
structure Grouped (s : State cfg) : Prop where
  batch_lt : s.batch < s.heap.length
  increasing : (s.log.handedOver ++ [s.batch]).Pairwise (· < ·)
  messages : s.messages = s.log.handedOver
  full : ∀ k p, s.log.handedOver[k]? = some p → (s.requestsIn p).Perm
    ((block (cfg.batchNumRequests + 1) k s.log.received).take cfg.batchNumRequests)
  begun : s.log.handedOver.length * (cfg.batchNumRequests + 1) ≤ s.log.received.length
  current : (s.requestsIn s.batch).Perm
    (s.log.received.drop (s.log.handedOver.length * (cfg.batchNumRequests + 1)))
  room : (s.requestsIn s.batch).length ≤ cfg.batchNumRequests

/-! ## The branches that receive nothing -/

section

variable {s s' t : State cfg} {p : ℕ}

theorem SameBatches.refl (s : State cfg) : SameBatches s s := ⟨rfl, rfl, rfl, rfl, rfl, rfl⟩

theorem SameBatches.trans (h : SameBatches s t) (h' : SameBatches t s') : SameBatches s s' where
  entries := h'.entries.trans h.entries
  length := h'.length.trans h.length
  batch := h'.batch.trans h.batch
  received := h'.received.trans h.received
  handedOver := h'.handedOver.trans h.handedOver
  messages := h'.messages.trans h.messages

theorem sameBatches_prep (op : Operation) (h : op.batch? = none) (s : State cfg) :
    SameBatches s (s.prep op) := by
  refine ⟨rfl, rfl, rfl, rfl, rfl, ?_⟩
  show (s.subs.history ++ [op]).filterMap Operation.batch? = _
  rw [List.filterMap_append, List.filterMap_cons_none h, List.filterMap_nil, List.append_nil]
  rfl

theorem sameBatches_prepFresh (op : Operation) (h : op.batch? = none) (s : State cfg) :
    SameBatches s (s.prepFresh op) :=
  ⟨rfl, rfl, rfl, rfl, rfl, (sameBatches_prep op h s.getSqe).messages⟩

theorem sameBatches_countSent (s : State cfg) (p : ℕ) : SameBatches s (s.countSent p) :=
  ⟨State.entriesOf_countSent s p, State.length_countSent s p, rfl, rfl, rfl, rfl⟩

theorem sameBatches_deleteIfSent (h : s.deleteIfSent p = .ok s') : SameBatches s s' := by
  rcases bind_eq_ok.1 h with ⟨b, -, h⟩
  split_ifs at h
  · cases h
    exact ⟨rfl, rfl, rfl, rfl, rfl, rfl⟩
  · cases h
    exact .refl s

theorem sameBatches_sendEntry (p : ℕ) (s : State cfg) (j : ℕ) (conn : ConnectionRequest) :
    SameBatches s (s.sendEntry p j conn) := by
  unfold State.sendEntry
  split_ifs
  · have hprep := sameBatches_prep (.sendZc conn.clientSockFd conn.buffer p j) rfl s
    exact ⟨hprep.entries, hprep.length, hprep.batch, hprep.received, hprep.handedOver,
      hprep.messages⟩
  · exact sameBatches_countSent s p

theorem sameBatches_sendEntries (p : ℕ) (s : State cfg) (j : ℕ) (es : List ConnectionRequest) :
    SameBatches s (State.sendEntries p s j es) := by
  induction es generalizing s j with
  | nil => exact .refl s
  | cons conn es ih =>
      have hfirst := sameBatches_sendEntry p s j conn
      cases es with
      | nil => exact hfirst
      | cons conn' es =>
          by_cases hdead : conn.clientSockFd = -1
          · rw [State.sendEntries_dead hdead]
            exact hfirst.trans (ih _ _)
          · rw [State.sendEntries_live hdead]
            have hsqe : SameBatches (s.sendEntry p j conn) (s.sendEntry p j conn).getSqe :=
              ⟨rfl, rfl, rfl, rfl, rfl, rfl⟩
            exact hfirst.trans (hsqe.trans (ih _ _))

theorem sameBatches_accept {res : ℤ} {more : Bool} (h : s.acceptBranch res more = .ok s') :
    SameBatches s s' := by
  rcases State.acceptBranch_cases h with ⟨-, rfl⟩ | ⟨-, pool, i, -, rfl⟩
  · exact .refl _
  · have hpool : SameBatches s { s with pool } := ⟨rfl, rfl, rfl, rfl, rfl, rfl⟩
    have hrecv := hpool.trans (sameBatches_prep (.recv res (pool.bufferOf res) i) rfl _)
    cases more with
    | true => exact hrecv
    | false => exact hrecv.trans (sameBatches_prepFresh .accept rfl _)

theorem sameBatches_send {j : ℕ} {more : Bool} (h : s.sendBranch p j more = .ok s') :
    SameBatches s s' := by
  obtain ⟨b, conn, -, -, ⟨-, rfl⟩ | ⟨-, b', -, hdel⟩⟩ := State.sendBranch_cases h
  · exact .refl _
  · have hclose := sameBatches_prep (.closeDirect conn.clientSockFd) rfl s
    have hcount := hclose.trans (sameBatches_countSent _ conn.reqBatchRef)
    have hlog := sameBatches_deleteIfSent hdel
    exact hcount.trans
      ⟨hlog.entries, hlog.length, hlog.batch, hlog.received, hlog.handedOver, hlog.messages⟩

theorem sameBatches_batch (h : s.batchBranch p = .ok s') : SameBatches s s' := by
  rcases State.batchBranch_cases h with ⟨b, -, -, hdel⟩
  have hdelivered : SameBatches s
      { s with log := { s.log with delivered := s.log.delivered ++ [p] } } :=
    ⟨rfl, rfl, rfl, rfl, rfl, rfl⟩
  exact (hdelivered.trans (sameBatches_sendEntries p _ 0 _)).trans (sameBatches_deleteIfSent hdel)

/-! ## The invariant -/

variable {alloc : Allocator cfg}

theorem grouped_start (hpools : alloc.EmptyPools) (heap : Heap cfg) (mem : Memory)
    (pool : ConnectionPool) : Grouped (State.start alloc heap mem pool) := by
  have hbatch : (State.start alloc heap mem pool).requestsIn
      (State.start alloc heap mem pool).batch = [] := by
    rw [requestsIn_start, hpools, List.map_nil]
  constructor
  · simp [State.start, Heap.alloc]
  · exact List.pairwise_singleton _ _
  · rfl
  · exact fun k p hp => absurd hp (by simp [State.start])
  · exact Nat.le_of_eq (Nat.zero_mul _)
  · rw [hbatch]
    exact List.Perm.of_eq (List.drop_nil).symm
  · rw [hbatch]
    exact Nat.zero_le _

theorem Grouped.congr (h : Grouped s) (hsame : SameBatches s s') : Grouped s' := by
  have hin : s'.requestsIn = s.requestsIn := by
    funext p
    rw [State.requestsIn, State.requestsIn, hsame.entries]
  constructor
  · rw [hsame.batch, hsame.length]; exact h.batch_lt
  · rw [hsame.handedOver, hsame.batch]; exact h.increasing
  · rw [hsame.messages, hsame.handedOver]; exact h.messages
  · rw [hsame.handedOver, hsame.received, hin]; exact h.full
  · rw [hsame.handedOver, hsame.received]; exact h.begun
  · rw [hin, hsame.batch, hsame.handedOver, hsame.received]; exact h.current
  · rw [hin, hsame.batch]; exact h.room

/-- The batches that were handed over lie below the current one. -/
theorem Grouped.below (h : Grouped s) : ∀ p ∈ s.log.handedOver, p < s.batch := fun p hp =>
  (List.pairwise_append.1 h.increasing).2.2 p hp s.batch (List.mem_singleton.2 rfl)

/-- The groups of the batches handed over are complete. -/
theorem Grouped.complete (h : Grouped s) {k : ℕ} (hk : k < s.log.handedOver.length) :
    k * (cfg.batchNumRequests + 1) + cfg.batchNumRequests ≤ s.log.received.length :=
  calc k * (cfg.batchNumRequests + 1) + cfg.batchNumRequests
      ≤ (k + 1) * (cfg.batchNumRequests + 1) := by rw [Nat.succ_mul]; omega
    _ ≤ s.log.handedOver.length * (cfg.batchNumRequests + 1) := Nat.mul_le_mul_right _ hk
    _ ≤ s.log.received.length := h.begun

/-- The batch has room: it holds one more request of its group. -/
theorem Grouped.insert {mem : Memory} {heap : Heap cfg} {conn : ConnectionRequest}
    {b : RequestBatch cfg} (h : Grouped s) (hb : s.heap[s.batch]? = some b)
    (hroom : b.readwritePool.entries.length < cfg.batchNumRequests)
    (hins : s.heap.insertReadWrite mem s.batch conn.buffer conn.clientSockFd
      (State.requestType mem conn.buffer) = .ok heap) :
    Grouped { s.recordReceived mem conn with heap } := by
  rcases Heap.insertReadWrite_cases hins with ⟨b', pool, hb', hpool, rfl⟩
  rw [hb] at hb'
  cases hb'
  have hperm := ReadWritePool.insertReadWrite_map (f := requestOf) (fun _ _ => rfl) hpool
  have hcur : s.requestsIn s.batch = b.readwritePool.entries.map requestOf := by
    rw [State.requestsIn, State.entriesOf_eq hb]
  have hother : ∀ p < s.batch, ∀ t : State cfg,
      t.heap = s.heap.set s.batch { b with readwritePool := pool } →
      t.requestsIn p = s.requestsIn p := by
    intro p hp t ht
    simp only [State.requestsIn, State.entriesOf, ht, List.getElem?_set_ne hp.ne']
  have hself : ∀ t : State cfg, t.heap = s.heap.set s.batch { b with readwritePool := pool } →
      t.requestsIn s.batch = pool.entries.map requestOf := by
    intro t ht
    simp [State.requestsIn, State.entriesOf, ht, h.batch_lt]
  constructor
  · rw [List.length_set]
    exact h.batch_lt
  · exact h.increasing
  · exact h.messages
  · intro k p hp
    have hk := (List.getElem?_eq_some_iff.1 hp).1
    show (State.requestsIn _ p).Perm ((block _ k (s.log.received ++ [_])).take _)
    rw [hother p (h.below p (List.mem_of_getElem? hp)) _ rfl,
      take_block_append _ (Nat.le_succ _) (h.complete hk)]
    exact h.full k p hp
  · refine h.begun.trans ?_
    show _ ≤ (s.log.received ++ [_]).length
    rw [List.length_append]
    exact Nat.le_add_right _ _
  · show (State.requestsIn _ s.batch).Perm ((s.log.received ++ [_]).drop
      (s.log.handedOver.length * (cfg.batchNumRequests + 1)))
    rw [hself _ rfl, List.drop_append_of_le_length h.begun]
    have hcurrent := h.current
    rw [hcur] at hcurrent
    exact hperm.trans ((hcurrent.cons _).trans (List.perm_append_singleton _ _).symm)
  · show (State.requestsIn _ s.batch).length ≤ _
    rw [hself _ rfl, hperm.length_eq, List.length_cons, List.length_map]
    exact hroom

/-- A new batch changes none of the others, … -/
theorem requestsIn_alloc {t : State cfg} (ht : t.heap = (s.heap.alloc alloc .read).1) {p : ℕ}
    (hp : p < s.heap.length) : t.requestsIn p = s.requestsIn p := by
  simp only [State.requestsIn, State.entriesOf, ht, Heap.alloc, List.getElem?_append_left hp]

/-- … and holds nothing if its memory does not. -/
theorem requestsIn_new (hpools : alloc.EmptyPools) {t : State cfg}
    (ht : t.heap = (s.heap.alloc alloc .read).1) :
    t.requestsIn s.heap.length = [] := by
  simp [State.requestsIn, State.entriesOf, ht, Heap.alloc, RequestBatch.new, hpools s.heap.length]

/-- How many requests have arrived when the current batch is full. -/
theorem Grouped.length_received {b : RequestBatch cfg} (h : Grouped s)
    (hb : s.heap[s.batch]? = some b)
    (hfull : ¬ b.readwritePool.entries.length < cfg.batchNumRequests) :
    s.log.received.length
      = s.log.handedOver.length * (cfg.batchNumRequests + 1) + cfg.batchNumRequests := by
  have hsize : (s.requestsIn s.batch).length = cfg.batchNumRequests := by
    have hroom := h.room
    rw [State.requestsIn, State.entriesOf_eq hb, List.length_map] at hroom ⊢
    omega
  have hrest := h.current.length_eq
  rw [hsize, List.length_drop] at hrest
  have hbegun := h.begun
  omega

/-- The batch is full: it goes, and the request that completes its group is in no batch. -/
theorem Grouped.handOver {mem : Memory} {conn : ConnectionRequest} {b : RequestBatch cfg}
    (h : Grouped s) (hpools : alloc.EmptyPools) (hb : s.heap[s.batch]? = some b)
    (hfull : ¬ b.readwritePool.entries.length < cfg.batchNumRequests) :
    Grouped { (s.recordReceived mem conn).prep (.message s.batch) with
      heap := (s.heap.alloc alloc .read).1
      batch := (s.heap.alloc alloc .read).2
      log := { (s.recordReceived mem conn).log with
        handedOver := s.log.handedOver ++ [s.batch] } } := by
  have hlen := h.length_received hb hfull
  have hcount : (s.log.handedOver ++ [s.batch]).length = s.log.handedOver.length + 1 := by
    rw [List.length_append, List.length_singleton]
  constructor
  · simp [Heap.alloc]
  · refine List.pairwise_append.2 ⟨h.increasing, List.pairwise_singleton _ _, ?_⟩
    intro p hp q hq
    rw [List.mem_singleton.1 hq]
    rcases List.mem_append.1 hp with hp | hp
    · exact (h.below p hp).trans h.batch_lt
    · rw [List.mem_singleton.1 hp]
      exact h.batch_lt
  · show (s.subs.history ++ [Operation.message s.batch]).filterMap Operation.batch? = _
    rw [List.filterMap_append]
    exact congrArg (· ++ [s.batch]) h.messages
  · intro k p hp
    show (State.requestsIn _ p).Perm ((block _ k (s.log.received ++ [_])).take _)
    have hk : k < s.log.handedOver.length + 1 := by
      rw [← hcount]
      exact (List.getElem?_eq_some_iff.1 hp).1
    rcases Nat.lt_or_eq_of_le (Nat.le_of_lt_succ hk) with hlt | rfl
    · rw [List.getElem?_append_left hlt] at hp
      have hmem := List.mem_of_getElem? hp
      rw [requestsIn_alloc rfl ((h.below p hmem).trans h.batch_lt),
        take_block_append _ (Nat.le_succ _) (h.complete hlt)]
      exact h.full k p hp
    · -- the batch that goes now
      rw [List.getElem?_concat_length] at hp
      cases hp
      rw [requestsIn_alloc rfl h.batch_lt, take_block_append _ (Nat.le_succ _) hlen.ge,
        take_block_last (Nat.le_succ _) hlen]
      exact h.current
  · show (s.log.handedOver ++ [s.batch]).length * _ ≤ (s.log.received ++ [_]).length
    rw [hcount, List.length_append, List.length_singleton, Nat.succ_mul]
    omega
  · show (State.requestsIn _ s.heap.length).Perm ((s.log.received ++ [_]).drop
      ((s.log.handedOver ++ [s.batch]).length * (cfg.batchNumRequests + 1)))
    rw [requestsIn_new hpools rfl, List.drop_eq_nil_of_le]
    rw [hcount, List.length_append, List.length_singleton, Nat.succ_mul]
    omega
  · show (State.requestsIn _ s.heap.length).length ≤ _
    rw [requestsIn_new hpools rfl]
    exact Nat.zero_le _

theorem Grouped.recv {i : ℕ} (h : Grouped s) (hpools : alloc.EmptyPools)
    (hrecv : s.recvBranch alloc i = .ok s') : Grouped s' := by
  obtain ⟨conn, mem, b, -, -, hb, ⟨hroom, heap, hins, rfl⟩ | ⟨hfull, rfl⟩⟩ :=
    State.recvBranch_cases hrecv
  · exact h.insert (State.deref_ok_iff.1 hb).2 hroom hins
  · exact h.handOver hpools (State.deref_ok_iff.1 hb).2 hfull

/-- One event of any kind. -/
theorem Grouped.step {e : Event} (h : Grouped s) (hpools : alloc.EmptyPools)
    (hstep : step alloc s e = .ok s') : Grouped s' := by
  cases e with
  | wait =>
      cases hstep
      exact h.congr ⟨rfl, rfl, rfl, rfl, rfl, rfl⟩
  | memory mem =>
      cases hstep
      exact h.congr ⟨rfl, rfl, rfl, rfl, rfl, rfl⟩
  | cqe c =>
      cases c with
      | accept res more => exact h.congr (sameBatches_accept hstep)
      | recv i => exact h.recv hpools hstep
      | send p j more => exact h.congr (sameBatches_send hstep)
      | batch p => exact h.congr (sameBatches_batch hstep)

end

/-- **Which request is in which batch.**  In every run of the network thread, over connections,
requests, answers and batches that come back in any order, and memory for new batches in which a
pool reads as empty, the requests that arrived fall into groups of `BATCH_NUM_REQUESTS + 1` in the
order of their arrival.  One batch after the other went to the main ring, each to be told apart from
all the others and announced by one message, one for each group that is complete: it holds all of
the group but the last request, which is nowhere.  The current batch holds the requests behind these
groups. -/
theorem requests_grouped (alloc : Allocator cfg) (hpools : alloc.EmptyPools) (heap : Heap cfg)
    (mem : Memory) (pool : ConnectionPool) {es : List Event} {s : State cfg}
    (h : runEvents (step alloc) (State.start alloc heap mem pool) es = .ok s) :
    s.messages = s.log.handedOver ∧ (s.log.handedOver ++ [s.batch]).Nodup ∧
      s.log.handedOver.length = s.log.received.length / (cfg.batchNumRequests + 1) ∧
      (∀ k p, s.log.handedOver[k]? = some p → (s.requestsIn p).Perm
        ((block (cfg.batchNumRequests + 1) k s.log.received).take cfg.batchNumRequests)) ∧
      (s.requestsIn s.batch).Perm
        (block (cfg.batchNumRequests + 1) s.log.handedOver.length s.log.received) := by
  have hgrouped : Grouped s :=
    (throughout_of_step (P := Grouped) (fun _ _ _ hs => hs.step hpools)
      (grouped_start hpools ..)).final h
  have hrest := hgrouped.current.length_eq
  rw [List.length_drop] at hrest
  have hroom := hgrouped.room
  have hbegun := hgrouped.begun
  refine ⟨hgrouped.messages, hgrouped.increasing.imp fun hlt => hlt.ne, ?_, hgrouped.full, ?_⟩
  · refine (Nat.div_eq_of_lt_le hbegun ?_).symm
    rw [Nat.succ_mul]
    omega
  · rw [block, List.take_of_length_le]
    · exact hgrouped.current
    · rw [List.length_drop]
      omega

/-- Three requests of three clients, with room for two: the batch of the first two goes, the third
request is in no batch. -/
theorem requests_grouped_three :
    ∃ s : State pairConfig, runEvents (step (.zeroed pairConfig))
        (State.start (.zeroed pairConfig) [] (fun _ => 0) threeClients) (recvs 3) = .ok s ∧
      s.messages = s.log.handedOver ∧
      (∀ k p, s.log.handedOver[k]? = some p → (s.requestsIn p).Perm
        ((block 3 k s.log.received).take 2)) ∧
      s.log.received.length = 3 ∧ s.log.handedOver.length = 1 := by
  have hrun : okAnd (runEvents (step (.zeroed pairConfig))
      (State.start (.zeroed pairConfig) [] (fun _ => 0) threeClients) (recvs 3))
      (fun s => s.log.received.length == 3 && s.log.handedOver.length == 1) = true := by
    decide +kernel
  rcases okAnd_iff.1 hrun with ⟨s, hs, htest⟩
  simp only [Bool.and_eq_true, beq_iff_eq] at htest
  obtain ⟨hmsg, -, -, hfull, -⟩ := requests_grouped _ (Allocator.emptyPools_zeroed _) _ _ _ hs
  exact ⟨s, hs, hmsg, hfull, htest.1, htest.2⟩

end RingDB.Network
