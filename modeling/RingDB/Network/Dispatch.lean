import Mathlib.Data.Nat.Pairing
import RingDB.Network.Thread

/-!
# How a completion finds its branch

The network thread reads the `user_data` of a completion as a pointer, and the branch that it takes
is selected by the `req_type` of the object there.  Four kinds of operations complete on its ring,
and each has its own idea of what to put into `user_data`:

* an accept and a completed batch put the pointer to a `RequestBatch`, whose `req_type` is right;
* a `recv` puts the first eight bytes *of* its connection object, which are its `req_type` and the
  padding behind it, and no address;
* an answer puts the pointer to its pool entry, whose `req_type` is still that of the request, so
  that its completion is taken for a batch.

**`dispatch_iff`** — in every state of every run an operation is dispatched right if and only if it
is an accept or a completed batch.
-/

namespace RingDB.Network

open Core

variable {cfg : Config}

/-- The values of `enum RequestType`. -/
def typeCode : RequestType → ℕ
  | .accept => 0
  | .recv => 1
  | .send => 2
  | .read => 3
  | .write => 4
  | .compaction => 5

/-- What a `user_data` can be meant to point to. -/
inductive Object where
  | acceptBatch
  | connection (i : ℕ)
  | batch (p : ℕ)
  | entry (p j : ℕ)
  deriving DecidableEq, Repr

/-- Where the objects lie, and what stands in the four bytes between the `req_type` and the
`req_batch_ref` of a connection object.  All of them have a pointer among their members. -/
structure Layout where
  address : Object → ℕ
  padding : ℕ → ℕ
  aligned : ∀ o, 8 ∣ address o

/-- The operations that complete on the network ring. -/
inductive Submitted where
  | accept
  | recv (conn : ℕ)
  | sendZc (batch entry : ℕ)
  | completedBatch (batch : ℕ)
  deriving DecidableEq, Repr

/-- The branches of the loop body. -/
inductive Branch where
  | accept
  | recv
  | send
  | readWrite
  deriving DecidableEq, Repr

/-- The branch for a `req_type`. -/
def branchOf : RequestType → Option Branch
  | .accept => some .accept
  | .recv => some .recv
  | .send => some .send
  | .read => some .readWrite
  | .write => some .readWrite
  | .compaction => none

namespace Submitted

/-- The object that the operation is submitted for. -/
def subject : Submitted → Object
  | accept => .acceptBatch
  | recv i => .connection i
  | sendZc p j => .entry p j
  | completedBatch p => .batch p

/-- The branch that its completion is meant for. -/
def branch : Submitted → Branch
  | accept => .accept
  | recv _ => .recv
  | sendZc _ _ => .send
  | completedBatch _ => .readWrite

/-- The operations whose `user_data` points to a batch. -/
def OfBatch : Submitted → Prop
  | accept => True
  | completedBatch _ => True
  | _ => False

/-- A prepared operation whose completion comes to the network ring.  A message to the main ring
and a close leave none. -/
def ofOperation : Operation → Option Submitted
  | .accept => some .accept
  | .recv _ _ i => some (.recv i)
  | .sendZc _ _ p j => some (.sendZc p j)
  | .message _ => none
  | .closeDirect _ => none

end Submitted

namespace State

/-- The `req_type` that stands in an object. -/
def tagOf (s : State cfg) : Object → Option RequestType
  | .acceptBatch => some .accept
  | .connection i => s.pool.connections[i]?.join.map ConnectionRequest.reqType
  | .batch p => s.heap[p]?.map RequestBatch.reqType
  | .entry p j => (s.entriesOf p)[j]?.map ConnectionRequest.reqType

/-- The `user_data` of an operation.  A `recv` is given `*reinterpret_cast<__u64*>(conn_req)`. -/
def userData (L : Layout) (s : State cfg) : Submitted → ℕ
  | .accept => L.address .acceptBatch
  | .recv i => ((s.tagOf (.connection i)).map typeCode).getD 0 + 2 ^ 32 * L.padding i
  | .sendZc p j => L.address (.entry p j)
  | .completedBatch p => L.address (.batch p)

/-- Everything submitted towards the network ring: the first accept, what the network thread
prepared, and the batches that the other threads send back. -/
def submitted (s : State cfg) : List Submitted :=
  .accept :: s.subs.history.filterMap Submitted.ofOperation
    ++ (List.range s.heap.length).map .completedBatch

end State

/-- The pointer read from the completion leads to the object that the operation was submitted for,
and the `req_type` there selects the branch that is meant for it. -/
structure DispatchedRight (L : Layout) (s : State cfg) (op : Submitted) : Prop where
  object : s.userData L op = L.address op.subject
  branch : ∃ t, s.tagOf op.subject = some t ∧ branchOf t = some op.branch

/-- A batch of client requests: made by `new RequestBatch(READ)`, its entries by `recvBranch`. -/
def ClientBatch (b : RequestBatch cfg) : Prop :=
  b.reqType = .read ∧ ∀ c ∈ b.readwritePool.entries, c.reqType = .read ∨ c.reqType = .write

/-- Whatever batch of reads the allocator makes room for, the requests that the chunk holds already
are READs and WRITEs.  In an empty pool there are none. -/
def MakesClientBatches (alloc : Allocator cfg) : Prop :=
  ∀ n, ClientBatch (.new .read (alloc.chunk n))

theorem makesClientBatches_of_empty {alloc : Allocator cfg} (h : alloc.EmptyPools) :
    MakesClientBatches alloc := by
  refine fun n => ⟨rfl, fun c hc => ?_⟩
  rw [RequestBatch.new, h n] at hc
  cases hc

/-- What the `req_type`s are at all times. -/
structure Tagged (s : State cfg) : Prop where
  connections : ∀ (i : ℕ) (conn : ConnectionRequest),
    s.pool.connections[i]? = some (some conn) → conn.reqType = .recv
  receiving : ∀ (clientSockFd : ℤ) (buffer i : ℕ), .recv clientSockFd buffer i ∈ s.subs.history →
    ∃ conn, s.pool.connections[i]? = some (some conn)
  batches : ∀ b ∈ s.heap, ClientBatch b

section

variable {s s' : State cfg} {L : Layout}

/-! ## The `req_type`s along a run -/

theorem tagged_start {alloc : Allocator cfg} (hchunk : MakesClientBatches alloc) {heap : Heap cfg}
    (mem : Memory) (numConnections bufferPool : ℕ) (hheap : ∀ b ∈ heap, ClientBatch b) :
    Tagged (State.start alloc heap mem (.new numConnections bufferPool)) := by
  refine ⟨fun i conn h => ?_, fun _ _ _ h => absurd h List.not_mem_nil, fun b hb => ?_⟩
  · simp only [State.start, ConnectionPool.new, List.getElem?_replicate] at h
    split_ifs at h
    cases h
  · simp only [State.start, Heap.alloc, List.mem_append, List.mem_singleton] at hb
    rcases hb with hb | rfl
    · exact hheap b hb
    · exact hchunk _

/-- A batch keeps its types when `num_sent` changes. -/
theorem clientBatch_of_map
    (h : s'.heap.map (fun b => (b.reqType, b.readwritePool.entries))
      = s.heap.map (fun b => (b.reqType, b.readwritePool.entries)))
    (hs : ∀ b ∈ s.heap, ClientBatch b) : ∀ b ∈ s'.heap, ClientBatch b := by
  intro b hb
  have hmem : (b.reqType, b.readwritePool.entries)
      ∈ s.heap.map (fun b => (b.reqType, b.readwritePool.entries)) :=
    h ▸ List.mem_map_of_mem (f := fun b => (b.reqType, b.readwritePool.entries)) hb
  rcases List.mem_map.1 hmem with ⟨b₀, hb₀, heq⟩
  simp only [Prod.mk.injEq] at heq
  rcases hs b₀ hb₀ with ⟨htype, hentries⟩
  exact ⟨heq.1 ▸ htype, heq.2 ▸ hentries⟩

/-- A new connection: its object is tagged RECV. -/
theorem Tagged.accept {res : ℤ} {pool : ConnectionPool} {i : ℕ} (h : Tagged s)
    (hins : s.pool.insert res .recv = .ok (pool, i)) (more : Bool) :
    Tagged (if more then { s with pool }.prep (.recv res (pool.bufferOf res) i)
      else ({ s with pool }.prep (.recv res (pool.bufferOf res) i)).prepFresh .accept) := by
  rcases ConnectionPool.insert_cases hins with ⟨-, -, hlt, conn, htag, -, -, rfl⟩
  have hself : (s.pool.connections.set i (some conn))[i]? = some (some conn) :=
    List.getElem?_set_self hlt
  have hconn : ∀ (k : ℕ) (c : ConnectionRequest),
      (s.pool.connections.set i (some conn))[k]? = some (some c) → c.reqType = .recv := by
    intro k c hk
    by_cases hik : i = k
    · subst hik
      rw [hself] at hk
      cases hk
      exact htag
    · rw [List.getElem?_set_ne hik] at hk
      exact h.connections k c hk
  have hrecv : ∀ k : ℕ, (∃ c, s.pool.connections[k]? = some (some c)) ∨ k = i →
      ∃ c, (s.pool.connections.set i (some conn))[k]? = some (some c) := by
    rintro k (⟨c, hc⟩ | rfl)
    · by_cases hik : i = k
      · subst hik
        exact ⟨conn, hself⟩
      · exact ⟨c, by rw [List.getElem?_set_ne hik]; exact hc⟩
    · exact ⟨conn, hself⟩
  cases more with
  | true =>
      refine ⟨hconn, fun fd buf k hk => hrecv k ?_, h.batches⟩
      simp only [if_true, State.prep, Submissions.prep, List.mem_append, List.mem_singleton,
        Operation.recv.injEq] at hk
      exact hk.imp (h.receiving fd buf k) fun heq => heq.2.2
  | false =>
      refine ⟨hconn, fun fd buf k hk => hrecv k ?_, h.batches⟩
      simp only [Bool.false_eq_true, if_false, State.prepFresh, State.prep, Submissions.getSqe,
        Submissions.prep, List.mem_append, List.mem_singleton, Operation.recv.injEq,
        reduceCtorEq, or_false] at hk
      exact hk.imp (h.receiving fd buf k) fun heq => heq.2.2

/-- A request is READ or WRITE. -/
theorem requestType_cases (mem : Memory) (buffer : ℕ) :
    State.requestType mem buffer = .read ∨ State.requestType mem buffer = .write := by
  unfold State.requestType
  split_ifs
  · exact .inl rfl
  · exact .inr rfl

/-- A request goes into the current batch. -/
theorem clientBatch_insert {heap heap' : Heap cfg} {mem : Memory} {p buffer : ℕ}
    {clientSockFd : ℤ} {reqType : RequestType} (hs : ∀ b ∈ heap, ClientBatch b)
    (htype : reqType = .read ∨ reqType = .write)
    (h : heap.insertReadWrite mem p buffer clientSockFd reqType = .ok heap') :
    ∀ b ∈ heap', ClientBatch b := by
  rcases Heap.insertReadWrite_cases h with ⟨b, pool, hb, hpool, rfl⟩
  rcases hs b (List.mem_of_getElem? hb) with ⟨hread, hentries⟩
  intro c hc
  rcases List.mem_or_eq_of_mem_set hc with hc | rfl
  · exact hs c hc
  · refine ⟨hread, fun e he => ?_⟩
    have hmem := (ReadWritePool.insertReadWrite_map (f := ConnectionRequest.reqType)
      (fun _ _ => rfl) hpool).mem_iff.1 (List.mem_map_of_mem he)
    rcases List.mem_cons.1 hmem with heq | hold
    · rw [heq]
      exact htype
    · rcases List.mem_map.1 hold with ⟨e₀, he₀, heq⟩
      rw [← heq]
      exact hentries e₀ he₀

theorem Tagged.handle {alloc : Allocator cfg} (hchunk : MakesClientBatches alloc) {c : Completion}
    (h : Tagged s) (hh : s.handle alloc c = .ok s') : Tagged s' := by
  have hdelete : ∀ {t : State cfg} {p : ℕ}, t.deleteIfSent p = .ok s' → Tagged t → Tagged s' := by
    intro t p hdel ht
    rcases State.deleteIfSent_frame hdel with ⟨log, rfl⟩
    exact ⟨ht.connections, ht.receiving, ht.batches⟩
  cases c with
  | accept res more =>
      rcases State.acceptBranch_cases hh with ⟨-, rfl⟩ | ⟨-, pool, i, hins, rfl⟩
      · exact h
      · exact h.accept hins more
  | recv i =>
      rcases State.recvBranch_cases hh with ⟨conn, mem, b, -, -, -, ⟨-, heap, hins, rfl⟩ | ⟨-, rfl⟩⟩
      · exact ⟨h.connections, h.receiving,
          clientBatch_insert h.batches (requestType_cases mem conn.buffer) hins⟩
      · refine ⟨h.connections, fun fd buf k hk => h.receiving fd buf k ?_, fun b hb => ?_⟩
        · simpa [State.prep, Submissions.prep, State.recordReceived] using hk
        · simp only [Heap.alloc, List.mem_append, List.mem_singleton] at hb
          rcases hb with hb | rfl
          · exact h.batches b hb
          · exact hchunk _
  | send p j more =>
      rcases State.sendBranch_cases hh with ⟨b, conn, -, -, ⟨-, rfl⟩ | ⟨-, b', -, hdel⟩⟩
      · exact h
      · refine hdelete hdel ⟨h.connections, fun fd buf k hk => h.receiving fd buf k ?_, ?_⟩
        · simpa [State.prep, Submissions.prep, State.countSent] using hk
        · exact clientBatch_of_map (State.map_countSent (fun _ _ => rfl) _ _) h.batches
  | batch p =>
      rcases State.batchBranch_cases hh with ⟨b, -, -, hdel⟩
      obtain ⟨hmap, -, hpool⟩ := State.sendEntries_frame
        (f := fun b => (b.reqType, b.readwritePool.entries)) (fun _ _ => rfl) p
        { s with log := { s.log with delivered := s.log.delivered ++ [p] } } 0
        b.readwritePool.entries
      refine hdelete hdel ⟨?_, fun fd buf k hk => ?_, clientBatch_of_map hmap h.batches⟩
      · rw [hpool]
        exact h.connections
      · rw [hpool]
        rcases State.history_sendEntries p _ 0 _ hk with hk | ⟨_, _, _, _, heq⟩
        · exact h.receiving fd buf k hk
        · cases heq

theorem Tagged.step {alloc : Allocator cfg} (hchunk : MakesClientBatches alloc) {e : Event}
    (h : Tagged s) (hstep : step alloc s e = .ok s') : Tagged s' := by
  cases e with
  | wait =>
      cases hstep
      exact ⟨h.connections, h.receiving, h.batches⟩
  | memory mem =>
      cases hstep
      exact ⟨h.connections, h.receiving, h.batches⟩
  | cqe c => exact h.handle hchunk hstep

/-! ## The operations -/

/-- The first eight bytes of a connection object are no address of anything. -/
theorem userData_recv {i : ℕ} {conn : ConnectionRequest} (h : Tagged s)
    (hconn : s.pool.connections[i]? = some (some conn)) (o : Object) :
    s.userData L (.recv i) ≠ L.address o := by
  have htag : s.tagOf (.connection i) = some .recv := by
    simp [State.tagOf, hconn, h.connections i conn hconn]
  intro heq
  have hdvd := L.aligned o
  rw [← heq, State.userData, htag] at hdvd
  simp only [Option.map_some, Option.getD_some, typeCode] at hdvd
  omega

/-- The `req_type` of a pool entry is that of its request. -/
theorem tagOf_entry {p j : ℕ} {t : RequestType} (h : Tagged s)
    (ht : s.tagOf (.entry p j) = some t) : branchOf t = some .readWrite := by
  simp only [State.tagOf, Option.map_eq_some_iff] at ht
  rcases ht with ⟨c, hc, rfl⟩
  unfold State.entriesOf at hc
  split at hc
  · simp at hc
  · rename_i b hb
    rcases (h.batches b (List.mem_of_getElem? hb)).2 c (List.mem_of_getElem? hc) with ht | ht
    · rw [ht]
      rfl
    · rw [ht]
      rfl

theorem Tagged.dispatched (h : Tagged s) {op : Submitted} (hop : op ∈ s.submitted) :
    DispatchedRight L s op ↔ op.OfBatch := by
  cases op with
  | accept => exact iff_of_true ⟨rfl, .accept, rfl, rfl⟩ trivial
  | recv i =>
      have hconn : ∃ conn, s.pool.connections[i]? = some (some conn) := by
        simp only [State.submitted, List.mem_append, List.mem_cons, List.mem_filterMap,
          List.mem_map,
          reduceCtorEq, and_false, exists_false, or_false, false_or] at hop
        rcases hop with ⟨o, ho, heq⟩
        cases o with
        | recv fd buf k =>
            cases heq
            exact h.receiving fd buf i ho
        | accept => cases heq
        | message p => cases heq
        | sendZc fd buf p j => cases heq
        | closeDirect fd => cases heq
      rcases hconn with ⟨conn, hconn⟩
      exact iff_of_false (fun hd => userData_recv h hconn _ hd.object) id
  | sendZc p j =>
      refine iff_of_false (fun hd => ?_) id
      rcases hd.branch with ⟨t, ht, hbranch⟩
      rw [tagOf_entry h ht] at hbranch
      cases hbranch
  | completedBatch p =>
      have hp : p < s.heap.length := by
        simp only [State.submitted, List.mem_append, List.mem_cons, List.mem_filterMap,
          List.mem_map,
          List.mem_range, reduceCtorEq, false_or, Submitted.completedBatch.injEq,
          exists_eq_right] at hop
        rcases hop with ⟨o, -, heq⟩ | hp
        · cases o <;> cases heq
        · exact hp
      refine iff_of_true ⟨rfl, .read, ?_, rfl⟩ trivial
      have hread := (h.batches _ (List.getElem_mem hp)).1
      simp [State.tagOf, Submitted.subject, List.getElem?_eq_getElem hp, hread]

end

/-- **Which completions are dispatched right.**  In every state of every run of the network thread,
whatever the layout of the objects, an operation submitted towards its ring is decoded to the object
it was submitted for and takes the branch meant for it if and only if it is an accept or a completed
batch.  The batches are those of clients, and the memory for new ones holds nothing else. -/
theorem dispatch_iff (alloc : Allocator cfg) (L : Layout) (heap : Heap cfg) (mem : Memory)
    (numConnections bufferPool : ℕ) (es : List Event) (hchunk : MakesClientBatches alloc)
    (hheap : ∀ b ∈ heap, ClientBatch b) :
    Throughout (step alloc) (fun s => ∀ op ∈ s.submitted, DispatchedRight L s op ↔ op.OfBatch)
      (State.start alloc heap mem (.new numConnections bufferPool)) es := by
  have htagged : Throughout (step alloc) Tagged
      (State.start alloc heap mem (.new numConnections bufferPool)) es :=
    throughout_of_step (fun _ _ _ h hstep => h.step hchunk hstep)
      (tagged_start hchunk mem numConnections bufferPool hheap)
  refine htagged.mono ?_
  intro s h op hop
  exact h.dispatched hop

/-- A place for every object, eight bytes apart. -/
def spaced : Object → ℕ
  | .acceptBatch => 0
  | .connection i => 8 * (4 * i + 1)
  | .batch p => 8 * (4 * p + 2)
  | .entry p j => 8 * (4 * Nat.pair p j + 3)

theorem spaced_aligned (o : Object) : 8 ∣ spaced o := by
  cases o with
  | acceptBatch => exact Nat.dvd_zero 8
  | connection i => exact Nat.dvd_mul_right 8 _
  | batch p => exact Nat.dvd_mul_right 8 _
  | entry p j => exact Nat.dvd_mul_right 8 _

/-- The objects in these places, with zeroed padding. -/
def spacedLayout : Layout where
  address := spaced
  padding _ := 0
  aligned := spaced_aligned

/-- A client connects, and its request comes in. -/
theorem dispatch_oneClient :
    Throughout (step (.zeroed pairConfig))
      (fun s => ∀ op ∈ s.submitted, DispatchedRight spacedLayout s op ↔ op.OfBatch)
      (State.start (.zeroed pairConfig) [] (fun _ => 0) (.new 2 0))
      [.wait, .cqe (.accept 1 true), .cqe (.recv 0)] :=
  dispatch_iff (.zeroed pairConfig) spacedLayout [] (fun _ => 0) 2 0 _
    (makesClientBatches_of_empty (Allocator.emptyPools_zeroed _)) fun _ h =>
      absurd h List.not_mem_nil

/-- A client connects: the completion of its `recv` is decoded to the pointer `1`, the value of
RECV, and its connection object lies elsewhere. -/
theorem recv_decoded_to_its_tag :
    ∃ s' : State pairConfig,
      runEvents (step (.zeroed pairConfig))
          (State.start (.zeroed pairConfig) [] (fun _ => 0) (.new 2 0))
          [.wait, .cqe (.accept 1 true)] = .ok s'
        ∧ .recv 0 ∈ s'.submitted ∧ s'.userData spacedLayout (.recv 0) = 1
        ∧ ¬ DispatchedRight spacedLayout s' (.recv 0) := by
  obtain ⟨s', hs', htest⟩ := okAnd_iff.1 (show okAnd
    (runEvents (step (.zeroed pairConfig))
      (State.start (.zeroed pairConfig) [] (fun _ => 0) (.new 2 0)) [.wait, .cqe (.accept 1 true)])
    (fun s => decide (.recv 0 ∈ s.submitted) && decide (s.userData spacedLayout (.recv 0) = 1))
      = true by decide +kernel)
  simp only [Bool.and_eq_true, decide_eq_true_eq] at htest
  refine ⟨s', hs', htest.1, htest.2, fun hd => ?_⟩
  have hobject := hd.object
  rw [htest.2] at hobject
  exact absurd hobject (by decide)

end RingDB.Network
