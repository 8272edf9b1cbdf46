import RingDB.Network.Thread

/-!
# What becomes of the requests that arrive

`recvBranch` puts a request into the current batch as long as the batch has room.  The request that
finds it full only sends the batch off, and is in neither that batch nor the new one.  What a new
batch holds is what its memory happened to hold.

* `Collected` — where the requests are after `n` of them arrived, over memory in which pools read as
  empty: every `BATCH_NUM_REQUESTS + 1`st is missing.
* **`received_kept_iff`** — no request is lost exactly if the first batch was empty, and as long as
  no batch had to be sent off.
-/

namespace RingDB.Network

open Core

variable {cfg : Config}

/-- What a pool entry keeps of its request. -/
def requestOf (c : ConnectionRequest) : Request := (c.buffer, c.clientSockFd, c.reqType)

namespace State

/-- The requests in batch `p`. -/
def requestsIn (s : State cfg) (p : ℕ) : List Request := (s.entriesOf p).map requestOf

/-- The batches that went to the main ring and the current one hold every request that arrived,
each of them once, and none holds more than `BATCH_NUM_REQUESTS`. -/
def NoneLost (s : State cfg) : Prop :=
  ((s.log.handedOver ++ [s.batch]).flatMap s.requestsIn).Perm s.log.received
    ∧ ∀ p ∈ s.log.handedOver ++ [s.batch], (s.requestsIn p).length ≤ cfg.batchNumRequests

end State

/-- A RECV completion of a connection of the pool, or something that leaves the batches alone. -/
def Receiving (pool : ConnectionPool) : Event → Prop
  | .wait => True
  | .memory _ => True
  | .cqe (.recv i) => ∃ conn, pool.connections[i]? = some (some conn)
  | .cqe _ => False

/-- Is it a RECV completion? -/
def Event.isRecv : Event → Bool
  | .cqe (.recv _) => true
  | _ => false

/-- The `std::fill` of the RECV branch has a range to fill. -/
def FillDefined (cfg : Config) : Prop := 5 + cfg.keyLength ≤ cfg.valueLength

/-- The batches after `n` requests arrived. -/
structure Collected (pool : ConnectionPool) (n : ℕ) (s : State cfg) : Prop where
  pool_eq : s.pool = pool
  deleted : s.log.deleted = []
  batch_lt : s.batch < s.heap.length
  received : s.log.received.length = n
  handedOver : s.log.handedOver.length = n / (cfg.batchNumRequests + 1)
  /-- The current batch was begun after the last of the others was sent off. -/
  length_batch : (s.requestsIn s.batch).length = n % (cfg.batchNumRequests + 1)
  below : ∀ p ∈ s.log.handedOver, p < s.batch
  length_full : ∀ p ∈ s.log.handedOver, (s.requestsIn p).length = cfg.batchNumRequests
  /-- Until then nothing is missing. -/
  kept : n ≤ cfg.batchNumRequests → (s.requestsIn s.batch).Perm s.log.received

section

variable {pool : ConnectionPool} {n : ℕ} {s s' : State cfg} {alloc : Allocator cfg}

/-- The first batch holds what its memory holds. -/
theorem requestsIn_start (alloc : Allocator cfg) (heap : Heap cfg) (mem : Memory)
    (pool : ConnectionPool) :
    (State.start alloc heap mem pool).requestsIn (State.start alloc heap mem pool).batch
      = (alloc.chunk heap.length).readwritePool.entries.map requestOf := by
  simp [State.requestsIn, State.entriesOf, State.start, Heap.alloc, RequestBatch.new]

theorem collected_start {heap : Heap cfg}
    (hfirst : (alloc.chunk heap.length).readwritePool.entries = []) (mem : Memory)
    (pool : ConnectionPool) : Collected pool 0 (State.start alloc heap mem pool) := by
  have hbatch : (State.start alloc heap mem pool).requestsIn
      (State.start alloc heap mem pool).batch = [] := by
    rw [requestsIn_start, hfirst, List.map_nil]
  constructor
  · rfl
  · rfl
  · simp [State.start, Heap.alloc]
  · rfl
  · exact (Nat.zero_div _).symm
  · rw [hbatch, Nat.zero_mod]
    rfl
  · exact fun p hp => absurd hp List.not_mem_nil
  · exact fun p hp => absurd hp List.not_mem_nil
  · intro _
    rw [hbatch]
    exact List.Perm.nil

/-- A change of memory or of the submission entries is none of the batches. -/
theorem Collected.congr (h : Collected pool n s) (hpool : s'.pool = s.pool)
    (hheap : s'.heap = s.heap) (hbatch : s'.batch = s.batch) (hlog : s'.log = s.log) :
    Collected pool n s' := by
  have hin : s'.requestsIn = s.requestsIn := by
    funext p
    rw [State.requestsIn, State.requestsIn, State.entriesOf_congr hheap]
  constructor
  · rw [hpool, h.pool_eq]
  · rw [hlog, h.deleted]
  · rw [hheap, hbatch]; exact h.batch_lt
  · rw [hlog, h.received]
  · rw [hlog, h.handedOver]
  · rw [hin, hbatch, h.length_batch]
  · rw [hlog, hbatch]; exact h.below
  · rw [hlog, hin]; exact h.length_full
  · rw [hlog, hin, hbatch]; exact h.kept

/-- The batch has room: the request goes in. -/
theorem Collected.insert {r : Request} {b b' : RequestBatch cfg} {mem : Memory}
    (h : Collected pool n s) (hb : s.heap[s.batch]? = some b)
    (hroom : b.readwritePool.entries.length < cfg.batchNumRequests)
    (hins : b.insertReadWrite mem s.batch r.1 r.2.1 r.2.2 = .ok b') :
    Collected pool (n + 1) { s with
      mem
      heap := s.heap.set s.batch b'
      log := { s.log with received := s.log.received ++ [r] } } := by
  rcases bind_eq_ok.1 hins with ⟨rw', hrw, hb'⟩
  cases hb'
  have hperm := ReadWritePool.insertReadWrite_map (f := requestOf) (fun _ _ => rfl) hrw
  have hlen : b.readwritePool.entries.length = n % (cfg.batchNumRequests + 1) := by
    simpa [State.requestsIn, State.entriesOf_eq hb] using h.length_batch
  have hmod : (n + 1) % (cfg.batchNumRequests + 1) = n % (cfg.batchNumRequests + 1) + 1 := by
    rw [Nat.add_mod, Nat.mod_eq_of_lt (a := 1) (by omega), Nat.mod_eq_of_lt (by omega)]
  have hdiv : (n + 1) / (cfg.batchNumRequests + 1) = n / (cfg.batchNumRequests + 1) := by
    rw [Nat.succ_div, if_neg, Nat.add_zero]
    intro hdvd
    rw [Nat.dvd_iff_mod_eq_zero, hmod] at hdvd
    omega
  have hself : ∀ (t : State cfg), t.heap = s.heap.set s.batch { b with readwritePool := rw' } →
      t.requestsIn s.batch = rw'.entries.map requestOf := by
    intro t ht
    simp [State.requestsIn, State.entriesOf, ht, h.batch_lt]
  have hother : ∀ (t : State cfg), t.heap = s.heap.set s.batch { b with readwritePool := rw' } →
      ∀ p < s.batch, t.requestsIn p = s.requestsIn p := by
    intro t ht p hp
    simp only [State.requestsIn, State.entriesOf, ht, List.getElem?_set_ne hp.ne']
  constructor
  · exact h.pool_eq
  · exact h.deleted
  · simpa using h.batch_lt
  · simp [h.received]
  · exact h.handedOver.trans hdiv.symm
  · rw [hself _ rfl, hperm.length_eq, List.length_cons, List.length_map, hlen, hmod]
  · exact h.below
  · intro p hp
    rw [hother _ rfl p (h.below p hp)]
    exact h.length_full p hp
  · intro hn
    rw [hself _ rfl]
    have hkept := h.kept (by omega)
    simp only [State.requestsIn, State.entriesOf_eq hb] at hkept
    exact hperm.trans ((List.Perm.cons _ hkept).trans (List.perm_append_singleton _ _).symm)

/-- The batch is full: it goes to the main ring, and the request nowhere. -/
theorem Collected.sendOff {r : Request} {b : RequestBatch cfg}
    (h : Collected pool n s) (hpools : alloc.EmptyPools) (hb : s.heap[s.batch]? = some b)
    (hfull : ¬ b.readwritePool.entries.length < cfg.batchNumRequests)
    (hheap : s'.heap = (s.heap.alloc alloc .read).1) (hbatch : s'.batch = s.heap.length)
    (hlog : s'.log = { s.log with
      received := s.log.received ++ [r], handedOver := s.log.handedOver ++ [s.batch] })
    (hpool : s'.pool = s.pool) : Collected pool (n + 1) s' := by
  have hlen : b.readwritePool.entries.length = n % (cfg.batchNumRequests + 1) := by
    simpa [State.requestsIn, State.entriesOf_eq hb] using h.length_batch
  have hlt : n % (cfg.batchNumRequests + 1) < cfg.batchNumRequests + 1 :=
    Nat.mod_lt n (Nat.succ_pos _)
  have hdvd : cfg.batchNumRequests + 1 ∣ n + 1 := by
    rw [Nat.dvd_iff_mod_eq_zero, Nat.add_mod]
    have hr : n % (cfg.batchNumRequests + 1) = cfg.batchNumRequests := by omega
    rw [hr, Nat.add_mod_mod, Nat.mod_self]
  have hnew : s'.requestsIn s'.batch = [] := by
    simp [State.requestsIn, State.entriesOf, hheap, hbatch, Heap.alloc, RequestBatch.new,
      hpools s.heap.length]
  have hold : ∀ p < s.heap.length, s'.requestsIn p = s.requestsIn p := by
    intro p hp
    simp only [State.requestsIn, State.entriesOf, hheap, Heap.alloc, List.getElem?_append_left hp]
  constructor
  · exact hpool.trans h.pool_eq
  · rw [hlog]; exact h.deleted
  · rw [hheap, hbatch]; simp [Heap.alloc]
  · rw [hlog]; simp [h.received]
  · rw [hlog, Nat.succ_div, if_pos hdvd]
    simp [h.handedOver]
  · rw [hnew, Nat.mod_eq_zero_of_dvd hdvd]
    rfl
  · intro p hp
    rw [hlog, List.mem_append, List.mem_singleton] at hp
    rw [hbatch]
    rcases hp with hp | rfl
    · exact (h.below p hp).trans h.batch_lt
    · exact h.batch_lt
  · intro p hp
    rw [hlog, List.mem_append, List.mem_singleton] at hp
    rcases hp with hp | rfl
    · rw [hold p ((h.below p hp).trans h.batch_lt)]
      exact h.length_full p hp
    · rw [hold _ h.batch_lt, h.length_batch]
      omega
  · intro hn
    have := Nat.le_of_dvd (Nat.succ_pos n) hdvd
    omega

/-- One RECV completion, where the fill has a range and the memory of a new batch, if one is made,
is that of an empty one. -/
theorem Collected.recv {i : ℕ} {conn : ConnectionRequest} (h : Collected pool n s)
    (hpools : alloc.EmptyPools ∨ n < cfg.batchNumRequests) (hfill : FillDefined cfg)
    (hconn : pool.connections[i]? = some (some conn)) :
    ∃ s', s.recvBranch alloc i = .ok s' ∧ Collected pool (n + 1) s' := by
  obtain ⟨b, hb⟩ : ∃ b, s.heap[s.batch]? = some b := ⟨_, List.getElem?_eq_getElem h.batch_lt⟩
  have hc : s.pool.connection i = .ok conn := by
    rw [ConnectionPool.connection, h.pool_eq, hconn]
  have hrange : conn.buffer + 5 + cfg.keyLength ≤ conn.buffer + cfg.valueLength := by
    unfold FillDefined at hfill
    omega
  obtain ⟨mem, hmem⟩ : ∃ mem, State.fillNul s.mem (conn.buffer + 5 + cfg.keyLength)
      (conn.buffer + cfg.valueLength) = .ok mem := ⟨_, if_pos hrange⟩
  have hderef : ∀ (t : State cfg), t.log.deleted = s.log.deleted → t.heap = s.heap →
      t.deref s.batch = .ok b := by
    intro t ht hheap
    rw [State.deref, ht, h.deleted, if_neg List.not_mem_nil, hheap, Heap.deref_ok_iff]
    exact hb
  simp only [State.recvBranch, hc, hmem, bind, Except.bind]
  rw [hderef { s with
    mem
    log := { s.log with received := s.log.received ++
      [(conn.buffer, conn.clientSockFd, State.requestType mem conn.buffer)] } } rfl rfl]
  by_cases hroom : b.readwritePool.entries.length < cfg.batchNumRequests
  · obtain ⟨rw', hrw⟩ : ∃ rw', b.readwritePool.insertReadWrite cfg mem
        ⟨State.requestType mem conn.buffer, s.batch, conn.clientSockFd, conn.buffer⟩ = .ok rw' :=
      ReadWritePool.insertReadWrite_ok _ (hroom.trans_le cfg.batchNumRequests_le_pageSize)
    have hins : b.insertReadWrite mem s.batch conn.buffer conn.clientSockFd
        (State.requestType mem conn.buffer) = .ok { b with readwritePool := rw' } := by
      simp only [RequestBatch.insertReadWrite, hrw, bind, Except.bind, pure, Except.pure]
    simp only [hroom, if_true, Heap.insertReadWrite, Heap.deref_ok_iff.2 hb, hins, bind,
      Except.bind, pure, Except.pure]
    exact ⟨_, rfl, h.insert (r := (conn.buffer, conn.clientSockFd, _)) hb hroom hins⟩
  · simp only [hroom, if_false, pure, Except.pure]
    refine ⟨_, rfl, h.sendOff (hpools.resolve_right fun hn => hroom ?_) hb hroom rfl rfl rfl rfl⟩
    have hlen := h.length_batch
    rw [State.requestsIn, State.entriesOf_eq hb, List.length_map,
      Nat.mod_eq_of_lt (by omega)] at hlen
    omega

/-- Without one the first RECV completion has no outcome. -/
theorem recvBranch_fill {i : ℕ} (hfill : ¬ FillDefined cfg) : s.recvBranch alloc i ≠ .ok s' := by
  intro h
  rcases bind_eq_ok.1 h with ⟨conn, -, h⟩
  rcases bind_eq_ok.1 h with ⟨mem, hmem, -⟩
  unfold FillDefined at hfill
  rw [State.fillNul, if_neg (by omega)] at hmem
  cases hmem

/-- Any sequence of RECV completions, where the fill has a range if it is ever done, and new batches
are empty if one is ever made. -/
theorem Collected.run {es : List Event}
    (hpools : alloc.EmptyPools ∨ n + es.countP Event.isRecv ≤ cfg.batchNumRequests)
    (hfill : FillDefined cfg ∨ es.countP Event.isRecv = 0)
    (hes : ∀ e ∈ es, Receiving pool e) (h : Collected pool n s) :
    ∃ s', runEvents (step alloc) s es = .ok s'
      ∧ Collected pool (n + es.countP Event.isRecv) s' := by
  induction es generalizing n s with
  | nil => exact ⟨s, rfl, h⟩
  | cons e es ih =>
      have hrest : ∀ e ∈ es, Receiving pool e := fun e he => hes e (List.mem_cons_of_mem _ he)
      have hfirst := hes e List.mem_cons_self
      rw [List.countP_cons] at hpools hfill ⊢
      cases e with
      | wait =>
          have hwait : Collected pool n s.wait := h.congr rfl rfl rfl rfl
          exact ih hpools hfill hrest hwait
      | memory mem =>
          have hmem : Collected pool n { s with mem } := h.congr rfl rfl rfl rfl
          exact ih hpools hfill hrest hmem
      | cqe c =>
          cases c with
          | accept res more => exact absurd hfirst id
          | send p j more => exact absurd hfirst id
          | batch p => exact absurd hfirst id
          | recv i =>
              rcases hfirst with ⟨conn, hconn⟩
              have hfill : FillDefined cfg := hfill.resolve_right (by simp [Event.isRecv])
              have hcount : n + (es.countP Event.isRecv
                + if Event.isRecv (.cqe (.recv i)) then 1 else 0)
                  = n + 1 + es.countP Event.isRecv := by
                simp [Event.isRecv]
                omega
              rw [hcount] at hpools ⊢
              obtain ⟨t, ht, hcol⟩ : ∃ t, step alloc s (.cqe (.recv i)) = .ok t
                ∧ Collected pool (n + 1) t :=
                  h.recv (hpools.imp_right fun hn => by omega) hfill hconn
              rcases ih hpools (.inl hfill) hrest hcol with ⟨s', hrun, hcol'⟩
              exact ⟨s', (runEvents_cons_ok ht es).trans hrun, hcol'⟩

/-- A run with a RECV completion has no outcome where the fill has no range. -/
theorem runEvents_fill {es : List Event} (hfill : ¬ FillDefined cfg)
    (h : runEvents (step alloc) s es = .ok s') : es.countP Event.isRecv = 0 := by
  induction es generalizing s with
  | nil => rfl
  | cons e es ih =>
      rcases runEvents_cons_eq_ok h with ⟨t, ht, hrun⟩
      rw [List.countP_cons, ih hrun, Nat.zero_add]
      split_ifs with he
      · cases e with
        | wait => cases he
        | memory mem => cases he
        | cqe c =>
            cases c with
            | accept res more => cases he
            | send p j more => cases he
            | batch p => cases he
            | recv i => exact absurd ht (recvBranch_fill hfill)
      · rfl

/-- The batches hold everything exactly as long as none was sent off. -/
theorem Collected.noneLost_iff (h : Collected pool n s) :
    s.NoneLost ↔ n ≤ cfg.batchNumRequests := by
  constructor
  · rintro ⟨hperm, -⟩
    by_contra hn
    have hdiv : 0 < n / (cfg.batchNumRequests + 1) := Nat.div_pos (by omega) (Nat.succ_pos _)
    have hfull : (s.log.handedOver.flatMap s.requestsIn).length
        = n / (cfg.batchNumRequests + 1) * cfg.batchNumRequests := by
      rw [List.length_flatMap, ← h.handedOver]
      have hmap : s.log.handedOver.map (fun p => (s.requestsIn p).length)
          = List.replicate s.log.handedOver.length cfg.batchNumRequests :=
        List.eq_replicate_iff.2 ⟨List.length_map .., by
          intro m hm
          rcases List.mem_map.1 hm with ⟨p, hp, rfl⟩
          exact h.length_full p hp⟩
      rw [hmap, List.sum_replicate_nat]
    have hlen := hperm.length_eq
    rw [List.flatMap_append, List.length_append, hfull, List.flatMap_singleton, h.length_batch,
      h.received] at hlen
    have hsplit := Nat.div_add_mod n (cfg.batchNumRequests + 1)
    rw [Nat.add_mul, Nat.one_mul, Nat.mul_comm cfg.batchNumRequests] at hsplit
    omega
  · intro hn
    have hnone : s.log.handedOver = [] := by
      rw [← List.length_eq_zero_iff, h.handedOver]
      exact Nat.div_eq_of_lt (by omega)
    refine ⟨by rw [hnone]; simpa using h.kept hn, fun p hp => ?_⟩
    rw [hnone, List.nil_append, List.mem_singleton] at hp
    subst hp
    rw [h.length_batch]
    exact (Nat.mod_le _ _).trans hn

end

/-- The memory in which all batches are made, where the first one is given and the others are
empty. -/
def emptyBehind (heap : Heap cfg) (first : RequestBatch cfg) : Allocator cfg :=
  { Allocator.zeroed cfg with
    chunk := fun n => if n = heap.length then first else .zeroed cfg .accept }

@[simp] theorem chunk_emptyBehind (heap : Heap cfg) (first : RequestBatch cfg) :
    (emptyBehind heap first).chunk heap.length = first := if_pos rfl

theorem emptyPools_emptyBehind {heap : Heap cfg} {first : RequestBatch cfg}
    (hfirst : first.readwritePool.entries = []) : (emptyBehind heap first).EmptyPools := by
  intro n
  simp only [emptyBehind]
  split_ifs
  · exact hfirst
  · rfl

/-- **When no request is lost.**  `first` is what the memory of the first batch holds; that of the
later ones may hold anything.  At every point of a sequence of RECV completions the batches that
were sent to the main ring and the current one hold every received request exactly once, and no
batch more than `BATCH_NUM_REQUESTS`, if and only if the pool of `first` is empty, and either there
is no such completion, or the range that the branch clears is one and there are at most
`BATCH_NUM_REQUESTS` of them. -/
theorem received_kept_iff (first : RequestBatch cfg) (heap : Heap cfg) (mem : Memory)
    (pool : ConnectionPool) (es : List Event) (hes : ∀ e ∈ es, Receiving pool e) :
    (∀ alloc : Allocator cfg, alloc.chunk heap.length = first → ∀ es', es' <+: es →
        ∃ s, runEvents (step alloc) (State.start alloc heap mem pool) es' = .ok s ∧ s.NoneLost)
      ↔ first.readwritePool.entries = [] ∧ (es.countP Event.isRecv = 0
        ∨ (FillDefined cfg ∧ es.countP Event.isRecv ≤ cfg.batchNumRequests)) := by
  constructor
  · intro hkept
    have hkept := hkept (emptyBehind heap first) (chunk_emptyBehind heap first)
    -- nothing has been received yet: what the first batch holds is there from before
    have hfirst : first.readwritePool.entries = [] := by
      rcases hkept [] es.nil_prefix with ⟨s, hs, hperm, -⟩
      cases hs
      have hnil : [(State.start (emptyBehind heap first) heap mem pool).batch].flatMap
          (State.start (emptyBehind heap first) heap mem pool).requestsIn = [] := hperm.eq_nil
      rw [List.flatMap_singleton, requestsIn_start, chunk_emptyBehind] at hnil
      exact List.map_eq_nil_iff.1 hnil
    refine ⟨hfirst, ?_⟩
    rcases hkept es List.prefix_rfl with ⟨s, hs, hnone⟩
    by_cases hfill : FillDefined cfg
    · have hpools : (emptyBehind heap first).EmptyPools := emptyPools_emptyBehind hfirst
      obtain ⟨s', hs', hcol⟩ := (collected_start (hpools heap.length) mem pool).run (.inl hpools)
        (.inl hfill) hes
      rw [hs] at hs'
      cases hs'
      rw [hcol.noneLost_iff, Nat.zero_add] at hnone
      exact .inr ⟨hfill, hnone⟩
    · exact .inl (runEvents_fill hfill hs)
  · rintro ⟨hfirst, hcond⟩ alloc hchunk es' hpre
    have hcount : es'.countP Event.isRecv ≤ es.countP Event.isRecv := hpre.sublist.countP_le
    have hle : 0 + es'.countP Event.isRecv ≤ cfg.batchNumRequests := by
      rcases hcond with hzero | ⟨-, hle⟩
      · omega
      · omega
    have hfill : FillDefined cfg ∨ es'.countP Event.isRecv = 0 := by
      rcases hcond with hzero | ⟨hfill, -⟩
      · exact .inr (by omega)
      · exact .inl hfill
    have hstart : Collected pool 0 (State.start alloc heap mem pool) :=
      collected_start (by rw [hchunk, hfirst]) mem pool
    obtain ⟨s, hs, hcol⟩ := hstart.run (.inr hle) hfill fun e he => hes e (hpre.subset he)
    exact ⟨s, hs, hcol.noneLost_iff.2 hle⟩

/-- Three clients, as `ConnectionPool.insert` enters them. -/
def threeClients : ConnectionPool where
  connections := [some ⟨.recv, 0, 1, 0⟩, some ⟨.recv, 0, 2, 1⟩, some ⟨.recv, 0, 3, 2⟩]
  bufferPool := 0

/-- One RECV completion of each of `n` clients, in one pass. -/
def recvs (n : ℕ) : List Event := .wait :: (List.range n).map fun i => .cqe (.recv i)

/-- Two requests in a batch for two. -/
theorem received_kept_two :
    (∀ e ∈ recvs 2, Receiving threeClients e) ∧
      ∃ s, runEvents (step (.zeroed pairConfig))
          (State.start (.zeroed pairConfig) [] (fun _ => 0) threeClients) (recvs 2) = .ok s
        ∧ s.NoneLost := by
  have hes : ∀ e ∈ recvs 2, Receiving threeClients e := by
    intro e he
    simp only [recvs, List.range, List.range.loop, List.map, List.mem_cons, List.not_mem_nil,
      or_false] at he
    rcases he with rfl | rfl | rfl
    · trivial
    · exact ⟨_, rfl⟩
    · exact ⟨_, rfl⟩
  exact ⟨hes, (received_kept_iff (.zeroed pairConfig .accept) [] _ _ _ hes).2
    ⟨rfl, .inr ⟨by unfold FillDefined; decide, by decide⟩⟩ (.zeroed pairConfig) rfl _
    List.prefix_rfl⟩

/-- A third one finds the batch full and is lost. -/
theorem third_request_lost :
    ¬ ∃ s, runEvents (step (.zeroed pairConfig))
          (State.start (.zeroed pairConfig) [] (fun _ => 0) threeClients) (recvs 3) = .ok s
        ∧ s.NoneLost := by
  have hrun : okAnd (runEvents (step (.zeroed pairConfig))
      (State.start (.zeroed pairConfig) [] (fun _ => 0) threeClients) (recvs 3))
      (fun s => ((s.log.handedOver ++ [s.batch]).flatMap s.requestsIn).length == 2
        && s.log.received.length == 3) = true := by decide +kernel
  rintro ⟨s, hs, hperm, -⟩
  rcases okAnd_iff.1 hrun with ⟨t, ht, htest⟩
  rw [hs] at ht
  cases ht
  simp only [Bool.and_eq_true, beq_iff_eq] at htest
  have hlen := hperm.length_eq
  omega

end RingDB.Network
