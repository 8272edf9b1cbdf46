import RingDB.Core.Tokens
import RingDB.Network.Thread

/-!
# Batches on their way around

A batch leaves the network thread as a message to the main ring and is to come back once, to be
answered once.  In between it is *open*: its message stands in a submission entry, or somewhere
behind it on the way.  `Tracked held s` says, for the batches `held` that are further on the way,

* that no batch is open twice or open and delivered, and that the current batch is neither;
* that for every client there are at most as many answers, together with the requests in open
  batches and in the current one, as there were requests received.

A step of the network thread keeps it (`Tracked.handle`, `Tracked.deliver`, `Tracked.submit`); what
the holders of the other open batches may do is `Tracked.setHeap`.
-/

namespace RingDB.Network

open Core

variable {cfg : Config}

/-! ## Messages and requests -/

/-- The batch that an operation passes to the main ring. -/
def Operation.batch? : Operation → Option ℕ
  | .message p => some p
  | _ => none

/-- The batches whose message stands in a submission entry. -/
def messagesOf (entries : List (Option Operation)) : List ℕ :=
  entries.filterMap fun e => e.bind Operation.batch?

/-- The requests in batch `p`, as buffer and client. -/
def payloadsOf (heap : Heap cfg) (p : ℕ) : List (ℕ × ℤ) :=
  ((heap[p]?.map fun b => b.readwritePool.entries).getD []).map ConnectionRequest.payload

/-- The operation answers the request `r`. -/
def Operation.answers (r : ℕ × ℤ) : Operation → Bool
  | .sendZc clientSockFd buffer _ _ => (buffer, clientSockFd) == r
  | _ => false

/-- The request was received from this client into this buffer. -/
def Request.payload (q : Request) : ℕ × ℤ := (q.1, q.2.1)

theorem messagesOf_cons (e : Option Operation) (entries : List (Option Operation)) :
    messagesOf (e :: entries) = (e.bind Operation.batch?).toList ++ messagesOf entries := by
  cases he : e.bind Operation.batch? <;> simp [messagesOf, he]

/-- A fresh entry has no message. -/
theorem messagesOf_append_none (entries : List (Option Operation)) :
    messagesOf (entries ++ [none]) = messagesOf entries := by
  simp [messagesOf]

/-- Writing to an entry adds at most the message that is written, and may lose one. -/
theorem messagesOf_set (entries : List (Option Operation)) (k : ℕ) (op : Operation) :
    (messagesOf (entries.set k (some op))).Subperm (op.batch?.toList ++ messagesOf entries) := by
  induction entries generalizing k with
  | nil =>
      rw [List.set_nil]
      exact List.nil_subperm
  | cons e entries ih =>
      cases k with
      | zero =>
          rw [List.set_cons_zero, messagesOf_cons, messagesOf_cons]
          exact ((List.sublist_append_right _ _).append_left _).subperm
      | succ k =>
          rw [List.set_cons_succ, messagesOf_cons, messagesOf_cons]
          refine ((List.Subperm.refl _).append (ih k)).trans (List.Perm.subperm ?_)
          rw [← List.append_assoc, ← List.append_assoc]
          exact List.perm_append_comm.append_right _

theorem messagesOf_set_other {op : Operation} (h : op.batch? = none)
    (entries : List (Option Operation)) (k : ℕ) :
    (messagesOf (entries.set k (some op))).Subperm (messagesOf entries) := by
  have hset := messagesOf_set entries k op
  rwa [h, Option.toList_none, List.nil_append] at hset

theorem payloadsOf_of_map {heap heap' : Heap cfg} (h : heap'.map (·.readwritePool.entries)
    = heap.map (·.readwritePool.entries)) (p : ℕ) : payloadsOf heap' p = payloadsOf heap p := by
  have hp := congrArg (·[p]?) h
  simp only [List.getElem?_map] at hp
  rw [payloadsOf, payloadsOf, hp]

theorem payloadsOf_eq {heap : Heap cfg} {p : ℕ} {b : RequestBatch cfg} (h : heap[p]? = some b) :
    payloadsOf heap p = b.readwritePool.entries.map ConnectionRequest.payload := by
  rw [payloadsOf, h]
  rfl

theorem payloadsOf_alloc_of_lt {heap : Heap cfg} {p : ℕ} (type : RequestType)
    (hp : p < heap.length) : payloadsOf (heap.alloc alloc type).1 p = payloadsOf heap p := by
  rw [payloadsOf, payloadsOf, Heap.alloc, List.getElem?_append_left hp]

/-- A new batch has no request if its memory has none. -/
theorem payloadsOf_alloc_new (hpools : alloc.EmptyPools) (heap : Heap cfg) (type : RequestType) :
    payloadsOf (heap.alloc alloc type).1 heap.length = [] := by
  simp [payloadsOf, Heap.alloc, RequestBatch.new, hpools heap.length]

/-! ## Open batches -/

/-- The open batches: those whose message has not been submitted, and those further on the way. -/
def State.openBatches (s : State cfg) (held : List ℕ) : List ℕ := messagesOf s.subs.entries ++ held

/-- The batches `held` are further on the way; none of the batches of the network thread is among
`reserved`, the main loop's own. -/
structure Tracked (reserved held : List ℕ) (s : State cfg) : Prop where
  nodup : (s.openBatches held ++ s.log.delivered).Nodup
  handed : ∀ p ∈ s.openBatches held ++ s.log.delivered, p ∈ s.log.handedOver
  current : s.batch ∉ s.log.handedOver
  range : ∀ p ∈ s.batch :: s.log.handedOver, p < s.heap.length ∧ p ∉ reserved
  account : ∀ r : ℕ × ℤ, r.2 ≠ -1 → s.subs.history.countP (Operation.answers r)
      + ((s.batch :: s.openBatches held).flatMap (payloadsOf s.heap)).count r
    ≤ (s.log.received.map Request.payload).count r

section

variable {reserved held held' : List ℕ} {s s' : State cfg}

/-- A step after which a part of the open batches is left, with a part of their requests. -/
theorem Tracked.of_part (h : Tracked reserved held s)
    (hpart : (s'.openBatches held').Subperm (s.openBatches held))
    (hdelivered : s'.log.delivered = s.log.delivered)
    (hhanded : s'.log.handedOver = s.log.handedOver) (hreceived : s'.log.received = s.log.received)
    (hbatch : s'.batch = s.batch) (hlen : s.heap.length ≤ s'.heap.length)
    (hload : ∀ p ∈ s.batch :: s.log.handedOver, ∀ r : ℕ × ℤ, r.2 ≠ -1 →
      (payloadsOf s'.heap p).count r ≤ (payloadsOf s.heap p).count r)
    (hanswers : ∀ r, s'.subs.history.countP (Operation.answers r)
      = s.subs.history.countP (Operation.answers r)) : Tracked reserved held' s' := by
  refine ⟨?_, fun p hp => ?_, ?_, fun p hp => ?_, fun r hr => ?_⟩
  · rw [hdelivered]
    exact nodup_append_of_subperm hpart h.nodup
  · rw [hdelivered] at hp
    rw [hhanded]
    refine h.handed p ?_
    rcases List.mem_append.1 hp with hopen | hdone
    · exact List.mem_append_left _ (hpart.subset hopen)
    · exact List.mem_append_right _ hdone
  · rw [hbatch, hhanded]
    exact h.current
  · rw [hbatch, hhanded] at hp
    rcases h.range p hp with ⟨hlt, hres⟩
    exact ⟨hlt.trans_le hlen, hres⟩
  · have hparts : (s'.batch :: s'.openBatches held').Subperm (s.batch :: s.openBatches held) := by
      rw [hbatch]
      exact (List.subperm_cons _).2 hpart
    have hfewer := count_flatMap_le_of_subperm (f := payloadsOf s'.heap) hparts r
    have hless : ((s.batch :: s.openBatches held).flatMap (payloadsOf s'.heap)).count r
        ≤ ((s.batch :: s.openBatches held).flatMap (payloadsOf s.heap)).count r := by
      refine count_flatMap_le r fun p hp => hload p ?_ r hr
      rcases List.mem_cons.1 hp with rfl | hp
      · exact List.mem_cons_self
      · exact List.mem_cons_of_mem _ (h.handed p (List.mem_append_left _ hp))
    have haccount := h.account r hr
    rw [hanswers, hreceived]
    omega

/-- Other threads hand the open batches around, and write to batches in a way that adds no
request. -/
theorem Tracked.setHeap (h : Tracked reserved held s) (hheld : held'.Subperm held)
    {heap : Heap cfg} (mem : Memory) (hlen : s.heap.length ≤ heap.length)
    (hload : ∀ p ∈ s.batch :: s.log.handedOver, ∀ r : ℕ × ℤ, r.2 ≠ -1 →
      (payloadsOf heap p).count r ≤ (payloadsOf s.heap p).count r) :
    Tracked reserved held' { s with heap, mem } :=
  h.of_part ((List.Subperm.refl _).append hheld) rfl rfl rfl rfl hlen hload fun _ => rfl

theorem Tracked.part (h : Tracked reserved held s) (hheld : held'.Subperm held) :
    Tracked reserved held' s :=
  h.setHeap hheld s.mem (Nat.le_refl _) fun _ _ _ _ => Nat.le_refl _

/-- `io_uring_submit_and_wait` sends the messages off. -/
theorem Tracked.submit (h : Tracked reserved held s) :
    Tracked reserved (messagesOf s.subs.entries ++ held) s.wait :=
  h.of_part (List.Subperm.refl _) rfl rfl rfl rfl (Nat.le_refl _) (fun _ _ _ _ => Nat.le_refl _)
    fun _ => rfl

/-- An operation that is no message and no answer. -/
theorem Tracked.prep (h : Tracked reserved held s) {op : Operation} (hbatch : op.batch? = none)
    (hanswers : ∀ r, op.answers r = false) : Tracked reserved held (s.prep op) := by
  refine h.of_part ((messagesOf_set_other hbatch _ _).append (.refl _)) rfl rfl rfl rfl
    (Nat.le_refl _) (fun _ _ _ _ => Nat.le_refl _) fun r => ?_
  show (s.subs.history ++ [op]).countP _ = _
  rw [List.countP_append, List.countP_singleton, hanswers r]
  rfl

theorem Tracked.getSqe (h : Tracked reserved held s) : Tracked reserved held s.getSqe := by
  refine h.of_part (List.Perm.subperm (List.Perm.of_eq ?_)) rfl rfl rfl rfl (Nat.le_refl _)
    (fun _ _ _ _ => Nat.le_refl _) fun r => rfl
  show messagesOf (s.subs.entries ++ [none]) ++ held = _
  rw [messagesOf_append_none]
  rfl

theorem Tracked.prepFresh (h : Tracked reserved held s) {op : Operation} (hbatch : op.batch? = none)
    (hanswers : ∀ r, op.answers r = false) : Tracked reserved held (s.prepFresh op) := by
  have hprep := h.getSqe.prep hbatch hanswers
  exact ⟨hprep.nodup, hprep.handed, hprep.current, hprep.range, hprep.account⟩

/-! ## The branches -/

variable {alloc : Allocator cfg}

theorem Tracked.deleteIfSent {p : ℕ} (h : Tracked reserved held s)
    (hdel : s.deleteIfSent p = .ok s') : Tracked reserved held s' := by
  rcases bind_eq_ok.1 hdel with ⟨b, -, hdel⟩
  split_ifs at hdel
  · cases hdel
    exact ⟨h.nodup, h.handed, h.current, h.range, h.account⟩
  · cases hdel
    exact h

/-- Counting changes no request. -/
theorem Tracked.countSent (h : Tracked reserved held s) (p : ℕ) :
    Tracked reserved held (s.countSent p) := by
  have hmap := State.map_countSent (f := (·.readwritePool.entries)) (fun _ _ => rfl) s p
  refine h.of_part (.refl _) rfl rfl rfl rfl (State.length_countSent s p).ge
    (fun q _ r _ => ?_) fun _ => rfl
  rw [payloadsOf_of_map hmap]

theorem Tracked.accept {res : ℤ} {more : Bool} (h : Tracked reserved held s)
    (haccept : s.acceptBranch res more = .ok s') : Tracked reserved held s' := by
  rcases State.acceptBranch_cases haccept with ⟨-, rfl⟩ | ⟨-, pool, i, -, rfl⟩
  · exact h
  · have hpool : Tracked reserved held { s with pool } :=
      ⟨h.nodup, h.handed, h.current, h.range, h.account⟩
    have hprep : Tracked reserved held ({ s with pool }.prep (.recv res (pool.bufferOf res) i)) :=
      hpool.prep rfl fun _ => rfl
    cases more with
    | true => exact hprep
    | false => exact hprep.prepFresh rfl fun _ => rfl

theorem Tracked.send {p j : ℕ} {more : Bool} (h : Tracked reserved held s)
    (hsend : s.sendBranch p j more = .ok s') : Tracked reserved held s' := by
  rcases State.sendBranch_cases hsend with ⟨b, conn, -, -, ⟨-, rfl⟩ | ⟨-, b', -, hdel⟩⟩
  · exact h
  · refine Tracked.deleteIfSent ?_ hdel
    have hprep : Tracked reserved held (s.prep (.closeDirect conn.clientSockFd)) :=
      h.prep rfl fun _ => rfl
    have hcount := hprep.countSent conn.reqBatchRef
    exact ⟨hcount.nodup, hcount.handed, hcount.current, hcount.range, hcount.account⟩

/-- A request that is put into the current batch is one more there, and one more received. -/
theorem Tracked.insert {mem : Memory} {heap : Heap cfg} {conn : ConnectionRequest}
    (h : Tracked reserved held s)
    (hins : s.heap.insertReadWrite mem s.batch conn.buffer conn.clientSockFd
      (State.requestType mem conn.buffer) = .ok heap) :
    Tracked reserved held { s.recordReceived mem conn with heap } := by
  rcases Heap.insertReadWrite_cases hins with ⟨b, pool, hb, hpool, rfl⟩
  have hlt := (List.getElem?_eq_some_iff.1 hb).1
  have hopen : ∀ p ∈ s.openBatches held, p ≠ s.batch := by
    rintro p hp rfl
    exact h.current (h.handed _ (List.mem_append_left _ hp))
  have hother : ∀ p ≠ s.batch, payloadsOf (s.heap.set s.batch { b with readwritePool := pool }) p
      = payloadsOf s.heap p := by
    intro p hp
    rw [payloadsOf, payloadsOf, List.getElem?_set_ne (Ne.symm hp)]
  have hself : (payloadsOf (s.heap.set s.batch { b with readwritePool := pool }) s.batch).Perm
      ((conn.buffer, conn.clientSockFd) :: payloadsOf s.heap s.batch) := by
    rw [payloadsOf_eq (List.getElem?_set_self hlt), payloadsOf_eq hb]
    have hperm := ReadWritePool.insertReadWrite_payload hpool
    exact hperm
  refine ⟨h.nodup, h.handed, h.current, fun p hp => ?_, fun r hr => ?_⟩
  · rw [List.length_set]
    exact h.range p hp
  · have haccount := h.account r hr
    have hrest : (s.openBatches held).flatMap
        (payloadsOf (s.heap.set s.batch { b with readwritePool := pool }))
        = (s.openBatches held).flatMap (payloadsOf s.heap) :=
      List.flatMap_congr fun p hp => hother p (hopen p hp)
    show s.subs.history.countP _ + ((s.batch :: s.openBatches held).flatMap
        (payloadsOf (s.heap.set s.batch { b with readwritePool := pool }))).count r
      ≤ ((s.log.received
          ++ [(conn.buffer, conn.clientSockFd, State.requestType mem conn.buffer)]).map
          Request.payload).count r
    rw [List.flatMap_cons, hrest, List.count_append, hself.count_eq, List.map_append,
      List.count_append]
    rw [List.flatMap_cons, List.count_append] at haccount
    simp only [List.map_cons, List.map_nil, Request.payload, List.count_cons, List.count_nil]
    omega

/-- The batch that is handed over now has its place in the heap as those before it. -/
theorem Tracked.handedOver_range (h : Tracked reserved held s) {p : ℕ}
    (hp : p ∈ s.log.handedOver ++ [s.batch]) : p < s.heap.length ∧ p ∉ reserved := by
  refine h.range p ?_
  rcases List.mem_append.1 hp with hp | hp
  · exact List.mem_cons_of_mem _ hp
  · exact List.mem_cons.2 (.inl (List.mem_singleton.1 hp))

/-- The full batch becomes an open one, and the request that found it full is dropped. -/
theorem Tracked.handOver {mem : Memory} {conn : ConnectionRequest} (h : Tracked reserved held s)
    (hpools : alloc.EmptyPools) (hreserved : ∀ p ∈ reserved, p < s.heap.length) :
    Tracked reserved held { (s.recordReceived mem conn).prep (.message s.batch) with
      heap := (s.heap.alloc alloc .read).1
      batch := (s.heap.alloc alloc .read).2
      log := { (s.recordReceived mem conn).log with
        handedOver := s.log.handedOver ++ [s.batch] } } := by
  have hpart : (messagesOf (s.subs.entries.set s.sqe (some (.message s.batch))) ++ held).Subperm
      (s.batch :: s.openBatches held) :=
    (messagesOf_set s.subs.entries s.sqe (.message s.batch)).append (.refl held)
  have hcurrent : s.batch ∉ s.openBatches held ++ s.log.delivered :=
    fun hmem => h.current (h.handed _ hmem)
  refine ⟨?_, fun p hp => ?_, ?_, fun p hp => ?_, fun r hr => ?_⟩
  · refine nodup_append_of_subperm hpart ?_
    rw [List.cons_append, List.nodup_cons]
    exact ⟨hcurrent, h.nodup⟩
  · rcases List.mem_append.1 hp with hopen | hdone
    · rcases List.mem_cons.1 (hpart.subset hopen) with rfl | hopen
      · exact List.mem_append_right _ (List.mem_singleton.2 rfl)
      · exact List.mem_append_left _ (h.handed p (List.mem_append_left _ hopen))
    · exact List.mem_append_left _ (h.handed p (List.mem_append_right _ hdone))
  · intro hmem
    exact absurd (h.handedOver_range hmem).1 (Nat.lt_irrefl _)
  · rw [Heap.alloc, List.length_append, List.length_singleton]
    rcases List.mem_cons.1 hp with rfl | hp
    · exact ⟨Nat.lt_succ_self _, fun hres => absurd (hreserved _ hres) (Nat.lt_irrefl _)⟩
    · exact (h.handedOver_range hp).imp_left Nat.lt_succ_of_lt
  · have haccount := h.account r hr
    have hfewer := count_flatMap_le_of_subperm
      (f := payloadsOf (s.heap.alloc alloc .read).1) hpart r
    have hsame : (s.batch :: s.openBatches held).flatMap (payloadsOf (s.heap.alloc alloc .read).1)
        = (s.batch :: s.openBatches held).flatMap (payloadsOf s.heap) := by
      refine List.flatMap_congr fun p hp => payloadsOf_alloc_of_lt _ ?_
      rcases List.mem_cons.1 hp with rfl | hp
      · exact (h.range _ List.mem_cons_self).1
      · exact (h.range p (List.mem_cons_of_mem _ (h.handed p (List.mem_append_left _ hp)))).1
    show (s.subs.history ++ [Operation.message s.batch]).countP _
        + ((s.heap.length ::
            (messagesOf (s.subs.entries.set s.sqe (some (.message s.batch))) ++ held)).flatMap
          (payloadsOf (s.heap.alloc alloc .read).1)).count r
      ≤ ((s.log.received
          ++ [(conn.buffer, conn.clientSockFd, State.requestType mem conn.buffer)]).map
          Request.payload).count r
    rw [List.flatMap_cons, payloadsOf_alloc_new hpools, List.nil_append, List.countP_append,
      List.countP_singleton, List.map_append, List.count_append]
    rw [hsame] at hfewer
    simp only [Operation.answers, Bool.false_eq_true, if_false]
    omega

theorem Tracked.recv {i : ℕ} (h : Tracked reserved held s) (hpools : alloc.EmptyPools)
    (hreserved : ∀ p ∈ reserved, p < s.heap.length) (hrecv : s.recvBranch alloc i = .ok s') :
    Tracked reserved held s' := by
  obtain ⟨conn, mem, b, -, -, -, ⟨-, heap, hins, rfl⟩ | ⟨-, rfl⟩⟩ := State.recvBranch_cases hrecv
  · exact h.insert hins
  · exact h.handOver hpools hreserved

/-! ## A batch that comes back -/

/-- What was done between two states is to answer the requests `es`, as far as they have a
client. -/
structure AnswersOnly (es : List ConnectionRequest) (s s' : State cfg) : Prop where
  messages : (messagesOf s'.subs.entries).Subperm (messagesOf s.subs.entries)
  answers : ∀ r : ℕ × ℤ, r.2 ≠ -1 → s'.subs.history.countP (Operation.answers r)
    = s.subs.history.countP (Operation.answers r) + (es.map ConnectionRequest.payload).count r
  log : ∃ sends, s'.log = { s.log with sends }

theorem AnswersOnly.refl (s : State cfg) : AnswersOnly [] s s :=
  ⟨.refl _, fun _ _ => rfl, s.log.sends, rfl⟩

theorem AnswersOnly.trans {es es' : List ConnectionRequest} {t : State cfg}
    (h : AnswersOnly es s t) (h' : AnswersOnly es' t s') : AnswersOnly (es ++ es') s s' := by
  rcases h.log with ⟨sends, hlog⟩
  rcases h'.log with ⟨sends', hlog'⟩
  refine ⟨h'.messages.trans h.messages, fun r hr => ?_, sends', by rw [hlog', hlog]⟩
  rw [h'.answers r hr, h.answers r hr, List.map_append, List.count_append, Nat.add_assoc]

theorem AnswersOnly.getSqe {es : List ConnectionRequest} (h : AnswersOnly es s s') :
    AnswersOnly es s s'.getSqe := by
  refine ⟨?_, h.answers, h.log⟩
  show (messagesOf (s'.subs.entries ++ [none])).Subperm _
  rw [messagesOf_append_none]
  exact h.messages

theorem answersOnly_sendEntry (p : ℕ) (s : State cfg) (j : ℕ) (conn : ConnectionRequest) :
    AnswersOnly [conn] s (s.sendEntry p j conn) := by
  unfold State.sendEntry
  by_cases hdead : conn.clientSockFd = -1
  · rw [if_neg (not_not.2 hdead)]
    refine ⟨.refl _, fun r hr => ?_, s.log.sends, rfl⟩
    have hne : conn.payload ≠ r := by
      rintro rfl
      exact hr hdead
    rw [List.map_singleton, List.count_singleton, if_neg (by simpa using hne), Nat.add_zero]
    rfl
  · rw [if_pos hdead]
    refine ⟨messagesOf_set_other rfl _ _, fun r hr => ?_, _, rfl⟩
    show (s.subs.history ++ [Operation.sendZc conn.clientSockFd conn.buffer p j]).countP _ = _
    rw [List.countP_append, List.countP_singleton, List.map_singleton, List.count_singleton]
    rfl

/-- The loop over the entries of a batch that came back. -/
theorem answersOnly_sendEntries (p : ℕ) (s : State cfg) (j : ℕ) (es : List ConnectionRequest) :
    AnswersOnly es s (State.sendEntries p s j es) := by
  induction es generalizing s j with
  | nil => exact .refl s
  | cons conn es ih =>
      have hfirst := answersOnly_sendEntry p s j conn
      cases es with
      | nil => exact hfirst
      | cons conn' es =>
          by_cases hdead : conn.clientSockFd = -1
          · rw [State.sendEntries_dead hdead]
            exact hfirst.trans (ih _ _)
          · rw [State.sendEntries_live hdead]
            exact hfirst.getSqe.trans (ih _ _)

/-- A batch comes back: it is open no more, and its requests are answered. -/
theorem Tracked.deliver {p : ℕ} (h : Tracked reserved (p :: held) s)
    (hbatch : s.batchBranch p = .ok s') : Tracked reserved held s' := by
  rcases State.batchBranch_cases hbatch with ⟨b, hb, -, hdel⟩
  refine Tracked.deleteIfSent ?_ hdel
  have hget : s.heap[p]? = some b := (State.deref_ok_iff.1 hb).2
  obtain ⟨hmsg, hanswers, sends, hlog⟩ := answersOnly_sendEntries p
    { s with log := { s.log with delivered := s.log.delivered ++ [p] } } 0 b.readwritePool.entries
  obtain ⟨hmap, hcurrent, -⟩ := State.sendEntries_frame (f := (·.readwritePool.entries))
    (fun _ _ => rfl) p { s with log := { s.log with delivered := s.log.delivered ++ [p] } } 0
    b.readwritePool.entries
  generalize State.sendEntries p
    { s with log := { s.log with delivered := s.log.delivered ++ [p] } } 0
    b.readwritePool.entries = t at *
  -- the open batches and the delivered ones are the same as before
  have hpart : (p :: t.openBatches held).Subperm (s.openBatches (p :: held)) := by
    refine List.Subperm.trans ((List.subperm_cons p).2 (hmsg.append (.refl held))) ?_
    exact List.perm_middle.symm.subperm
  have hmoved : (t.openBatches held ++ (s.log.delivered ++ [p])).Perm
      (p :: t.openBatches held ++ s.log.delivered) := by
    rw [← List.append_assoc]
    exact List.perm_append_singleton ..
  have hlen : t.heap.length = s.heap.length := by simpa using congrArg List.length hmap
  refine ⟨?_, fun q hq => ?_, ?_, fun q hq => ?_, fun r hr => ?_⟩
  · rw [hlog, hmoved.nodup_iff]
    exact nodup_append_of_subperm hpart h.nodup
  · rw [hlog] at hq ⊢
    refine h.handed q ?_
    rcases List.mem_append.1 (hmoved.mem_iff.1 hq) with hopen | hdone
    · exact List.mem_append_left _ (hpart.subset hopen)
    · exact List.mem_append_right _ hdone
  · rw [hcurrent, hlog]
    exact h.current
  · rw [hcurrent, hlog] at hq
    rw [hlen]
    exact h.range q hq
  · have haccount := h.account r hr
    have hfewer := count_flatMap_le_of_subperm (f := payloadsOf s.heap)
      ((List.subperm_cons s.batch).2 hpart) r
    have hload : (t.batch :: t.openBatches held).flatMap (payloadsOf t.heap)
        = (s.batch :: t.openBatches held).flatMap (payloadsOf s.heap) := by
      rw [hcurrent]
      exact List.flatMap_congr fun q _ => payloadsOf_of_map hmap q
    rw [hload, hanswers r hr, hlog]
    rw [List.flatMap_cons, List.flatMap_cons, List.count_append, List.count_append,
      payloadsOf_eq hget] at hfewer
    rw [List.flatMap_cons, List.count_append]
    show s.subs.history.countP _ + _ + _ ≤ (s.log.received.map Request.payload).count r
    omega

end

end RingDB.Network
