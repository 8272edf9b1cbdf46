import RingDB.Network.OpenBatches
import RingDB.Pipeline.Ledger

/-!
# All threads and the rings between them

In `Pipeline` the main loop may be sent any batch and the network thread may find any completion.
Here the messages are kept: a batch reaches the main loop because the network thread submitted a
message with it, and comes back because the main loop, or a worker, posted it.  The network thread's
completion ring is the list of everything that was posted to it, with the place `head` that the ring
is advanced to and the place `next` that `io_uring_for_each_cqe` is at; as in the source, the ring
is advanced by `BATCH_NUM_REQUESTS` after a pass, however many completions the pass has visited.

**`answered_at_most_once`**: in every run in which the passes visit as many completions as the ring
is advanced by, no batch is answered twice, and no client gets more answers than it sent requests.
-/

namespace RingDB

open Core

variable {cfg : Config}

/-- Where the network thread is: before a submission, behind it, in a pass over its completions. -/
inductive PassPhase where
  | idle
  | waiting
  | visiting
  deriving DecidableEq, Repr

/-- All threads, with the messages to the main loop and the completion ring of the network
thread. -/
structure Rings (cfg : Config) where
  pipe : Pipeline cfg
  mainRing : List ℕ := []
  /-- Every completion that was ever posted. -/
  posted : List Network.Completion := []
  head : ℕ := 0
  next : ℕ := 0
  phase : PassPhase := .idle

inductive RingsEvent where
  /-- `io_uring_submit_and_wait` submits, … -/
  | submit
  /-- … and returns when there are enough completions. -/
  | wake
  /-- The pass comes to its next completion. -/
  | visit
  | advance
  /-- The kernel posts the completion of an accept, a receive or a send. -/
  | complete (c : Network.Completion)
  /-- A socket buffer is written to. -/
  | memory (mem : Memory)
  /-- The main loop waits for its next message. -/
  | take
  | request
  | practicallyFull (flag : Bool)
  | work (level index : ℕ) (found : Memory)
  | report (level index : ℕ)

namespace Rings

/-- The completion is that of a message with a batch. -/
def isBatch : Network.Completion → Bool
  | .batch _ => true
  | _ => false

/-- The batches among posted completions. -/
def batchesOf (cs : List Network.Completion) : List ℕ :=
  cs.filterMap fun
    | .batch p => some p
    | _ => none

/-- A step of the threads, after which these batches are posted to the network thread. -/
def posting (s : Rings cfg) (pipe : Pipeline cfg) (batches : List ℕ) : Rings cfg :=
  { s with pipe, posted := s.posted ++ batches.map .batch }

/-- One event; one that cannot happen in a state leaves it as it is. -/
def step (alloc : Allocator cfg) (s : Rings cfg) : RingsEvent → Except Fault (Rings cfg)
  | .submit =>
      if s.phase = .idle then do
        let pipe ← s.pipe.step alloc (.network .wait)
        pure { s with
          pipe
          mainRing := s.mainRing ++ Network.messagesOf s.pipe.net.subs.entries
          phase := .waiting }
      else .ok s
  | .wake =>
      if s.phase = .waiting ∧ s.head + cfg.batchNumRequests ≤ s.posted.length then
        .ok { s with next := s.head, phase := .visiting }
      else .ok s
  | .visit =>
      if s.phase = .visiting then
        match s.posted[s.next]? with
        | none => .ok s
        | some c => do
            let pipe ← s.pipe.step alloc (.network (.cqe c))
            pure { s with pipe, next := s.next + 1 }
      else .ok s
  | .advance =>
      if s.phase = .visiting ∧ s.posted.length ≤ s.next then
        .ok { s with head := s.head + cfg.batchNumRequests, phase := .idle }
      else .ok s
  | .complete c => if isBatch c then .ok s else .ok { s with posted := s.posted ++ [c] }
  | .memory mem => do
      let pipe ← s.pipe.step alloc (.network (.memory mem))
      pure { s with pipe }
  | .take =>
      match s.pipe.current, s.mainRing with
      | none, p :: rest => do
          let pipe ← s.pipe.step alloc (.take p)
          pure { s with pipe, mainRing := rest }
      | _, _ => .ok s
  | .request => do
      let pipe ← s.pipe.step alloc .request
      -- the loop over the requests of a batch has ended: the batch goes back
      let done := if pipe.current = none then (s.pipe.current.map Prod.fst).toList else []
      pure (s.posting pipe done)
  | .practicallyFull flag => do
      let pipe ← s.pipe.step alloc (.practicallyFull flag)
      pure { s with pipe }
  | .work l i found => do
      let pipe ← s.pipe.step alloc (.work l i found)
      pure (s.posting pipe (pipe.levels.answers.drop s.pipe.levels.answers.length))
  | .report l i => do
      let pipe ← s.pipe.step alloc (.report l i)
      pure { s with pipe }

/-- A pass that ends has visited as many completions as the ring is then advanced by. -/
def ExactPass (s : Rings cfg) : RingsEvent → Prop
  | .advance => s.phase = .visiting → s.posted.length ≤ s.next →
      s.next = s.head + cfg.batchNumRequests
  | _ => True

instance decidableExactPass (s : Rings cfg) : ∀ e, Decidable (ExactPass s e)
  | .advance => inferInstanceAs (Decidable (s.phase = .visiting → s.posted.length ≤ s.next →
      s.next = s.head + cfg.batchNumRequests))
  | .submit => isTrue trivial
  | .wake => isTrue trivial
  | .visit => isTrue trivial
  | .complete _ => isTrue trivial
  | .memory _ => isTrue trivial
  | .take => isTrue trivial
  | .request => isTrue trivial
  | .practicallyFull _ => isTrue trivial
  | .work _ _ _ => isTrue trivial
  | .report _ _ => isTrue trivial

/-- Every batch was delivered once at most, and after it was handed over; every client got at most
as many answers as it sent requests. -/
structure AnsweredOnce (s : Rings cfg) : Prop where
  delivered : s.pipe.net.log.delivered.Nodup
  handed : ∀ p ∈ s.pipe.net.log.delivered, p ∈ s.pipe.net.log.handedOver
  answers : ∀ r : ℕ × ℤ, r.2 ≠ -1 →
    s.pipe.net.subs.history.countP (Network.Operation.answers r)
      ≤ (s.pipe.net.log.received.map Network.Request.payload).count r

end Rings

/-! ## What the main loop and the workers do to the batches of the network thread -/

namespace MainState

variable {alloc : Allocator cfg} {s s' s₀ : MainState (systemLevelZero cfg)}

/-- The main loop writes to its own two batches only, and makes new ones. -/
structure PoolsKept (s s' : MainState (systemLevelZero cfg)) : Prop where
  readBatch : s'.readBatch = s.readBatch
  compactionBatch : s'.compactionBatch = s.compactionBatch
  length_le : s.batches.length ≤ s'.batches.length
  frame : ∀ q < s.batches.length, q ≠ s.readBatch → q ≠ s.compactionBatch →
    s'.batches[q]? = s.batches[q]?

theorem PoolsKept.insertIntoWqs {num : ℕ} (h : PoolsKept s₀ s)
    (hins : s.insertIntoWqs alloc num = .ok s') : PoolsKept s₀ s' := by
  rcases bind_eq_ok.1 hins with ⟨b, -, hins⟩
  rcases bind_eq_ok.1 hins with ⟨⟨levels, batches⟩, hz, hins⟩
  cases hins
  have hframe := (systemLevelZero cfg).insertIntoWqs_frame hz
  have hlen : s.batches.length ≤ batches.length := by
    by_contra hlt
    have hlast := hframe batches.length (by omega)
    rw [List.getElem?_eq_none (Nat.le_refl _), eq_comm, List.getElem?_eq_none_iff] at hlast
    omega
  refine ⟨h.readBatch, h.compactionBatch, ?_, fun q hq hread hcomp => ?_⟩
  · have := h.length_le
    simp only [List.length_append]
    omega
  · have hq' := hq.trans_le h.length_le
    rw [← h.frame q hq hread hcomp, ← hframe q hq']
    exact List.getElem?_append_left (hq'.trans_le hlen)

theorem poolsKept_collectMiss {conn : ConnectionRequest} (h : s.collectMiss alloc conn = .ok s') :
    PoolsKept s s' := by
  rcases bind_eq_ok.1 h with ⟨b, -, h⟩
  rcases bind_eq_ok.1 h with ⟨b', -, h⟩
  have hset : PoolsKept s { s with
      batches := s.batches.set s.readBatch b', missed := s.missed ++ [conn.payload] } :=
    ⟨rfl, rfl, (List.length_set ..).ge, fun q _ hq _ => List.getElem?_set_ne (Ne.symm hq)⟩
  split_ifs at h
  · exact hset.insertIntoWqs h
  · cases h
    exact hset

theorem poolsKept_writeTable {conn : ConnectionRequest} {tableNum : ℕ} {table : MemTable cfg}
    (h : s.writeTable conn tableNum table = .ok s') (h₀ : PoolsKept s₀ s) : PoolsKept s₀ s' := by
  rcases bind_eq_ok.1 h with ⟨⟨table', index⟩, -, h⟩
  cases h
  exact ⟨h₀.readBatch, h₀.compactionBatch, h₀.length_le, h₀.frame⟩

theorem poolsKept_passCompaction {tableNum : ℕ} {table : MemTable cfg}
    (h : s.passCompaction alloc tableNum table = .ok s') : PoolsKept s s' := by
  rcases bind_eq_ok.1 h with ⟨index, -, h⟩
  rcases bind_eq_ok.1 h with ⟨b, -, h⟩
  rcases bind_eq_ok.1 h with ⟨reqSeg, -, hins⟩
  refine PoolsKept.insertIntoWqs ?_ hins
  exact ⟨rfl, rfl, (List.length_set ..).ge, fun q _ _ hq => List.getElem?_set_ne (Ne.symm hq)⟩

/-- One request: it is answered as it is, or without its client. -/
theorem request_pools {conn : ConnectionRequest} (h : s.request alloc conn = .ok s') :
    PoolsKept s s' ∧ (s'.replies.getLastD conn = conn
      ∨ s'.replies.getLastD conn = { conn with clientSockFd := -1 }) := by
  rcases bind_eq_ok.1 h with ⟨⟨index, outcome⟩, -, h⟩
  have hreply : ∀ {s₁ : MainState (systemLevelZero cfg)} (replies : List ConnectionRequest),
      PoolsKept { s with index } s₁ → PoolsKept s { s₁ with replies } := fun _ hkept =>
    ⟨hkept.readBatch, hkept.compactionBatch, hkept.length_le, hkept.frame⟩
  cases outcome with
  | nullKey =>
      cases h
      exact ⟨⟨rfl, rfl, Nat.le_refl _, fun _ _ _ _ => rfl⟩, .inl (by simp)⟩
  | hit value =>
      cases h
      exact ⟨⟨rfl, rfl, Nat.le_refl _, fun _ _ _ _ => rfl⟩, .inl (by simp)⟩
  | miss =>
      rcases bind_eq_ok.1 h with ⟨s₁, hmiss, h⟩
      cases h
      exact ⟨hreply _ (poolsKept_collectMiss hmiss), .inr (by rw [List.getLastD_concat])⟩
  | write tableNum table =>
      rcases bind_eq_ok.1 h with ⟨s₁, hwrite, h⟩
      cases h
      have hkept : PoolsKept { s with index } { s with index } :=
        ⟨rfl, rfl, Nat.le_refl _, fun _ _ _ _ => rfl⟩
      exact ⟨hreply _ (poolsKept_writeTable hwrite hkept), .inl (by rw [List.getLastD_concat])⟩
  | compact tableNum table =>
      rcases bind_eq_ok.1 h with ⟨s₁, hcompact, h⟩
      cases h
      rcases bind_eq_ok.1 hcompact with ⟨s₂, hpass, hwrite⟩
      exact ⟨hreply _ (poolsKept_writeTable hwrite (poolsKept_passCompaction hpass)),
        .inl (by rw [List.getLastD_concat])⟩

end MainState

/-- Where no READ batch is queued, a worker's visit changes no batch and answers none. -/
theorem System.Accounted.work_heap {alloc : Allocator cfg} {dispatched : List ℕ}
    {s s' : System cfg} {search : System cfg → ℕ → ℕ → ℕ → Except Fault (System cfg)} {l i : ℕ}
    (h : System.Accounted dispatched s) (hwork : s.work alloc search l i = .ok s') :
    s'.heap = s.heap ∧ s'.mem = s.mem ∧ s'.answers = s.answers := by
  rcases h.work_compaction hwork with rfl | ⟨t, p, rest, -, -, -, hdisposed⟩
  · exact ⟨rfl, rfl, rfl⟩
  · cases hdisposed with
    | forward hflushed hins =>
        rcases System.insertIntoWqs_outcome hins with
          ⟨b, -, ⟨-, -, rfl⟩ | ⟨-, lv, info, j, -, -, rfl⟩⟩
        · exact ⟨rfl, rfl, rfl⟩
        · exact ⟨rfl, rfl, rfl⟩
    | flush hfree => exact ⟨rfl, rfl, rfl⟩
    | delete hflushed => exact ⟨rfl, rfl, rfl⟩

/-! ## Every batch in one place -/

namespace Rings

variable {alloc : Allocator cfg} {s s' : Rings cfg}

@[simp] theorem batchesOf_append (cs cs' : List Network.Completion) :
    batchesOf (cs ++ cs') = batchesOf cs ++ batchesOf cs' := List.filterMap_append

@[simp] theorem batchesOf_map (ps : List ℕ) : batchesOf (ps.map .batch) = ps := by
  induction ps with
  | nil => rfl
  | cons p ps ih => exact congrArg (p :: ·) ih

theorem batchesOf_other {c : Network.Completion} (h : isBatch c = false)
    (cs : List Network.Completion) : batchesOf (c :: cs) = batchesOf cs := by
  cases c with
  | batch p => cases h
  | accept res more => rfl
  | recv i => rfl
  | send p j more => rfl

/-- The batches behind the submission: on the way to the main loop, in its hands, on the way
back. -/
def held (s : Rings cfg) : List ℕ :=
  s.mainRing ++ (s.pipe.current.map Prod.fst).toList ++ batchesOf (s.posted.drop s.next)

/-- The batches that the main loop keeps for itself. -/
def reserved (s : Rings cfg) : List ℕ := [s.pipe.main.readBatch, s.pipe.main.compactionBatch]

/-- What holds as long as the passes are exact: what has been visited is what is before `next`. -/
structure Regular (s : Rings cfg) : Prop where
  compactions : s.pipe.CompactionsAccounted
  aligned : s.phase ≠ .visiting → s.next = s.head
  next_le : s.next ≤ s.posted.length
  tracked : Network.Tracked s.reserved s.held s.pipe.network
  reserved_lt : ∀ p ∈ s.reserved, p < s.pipe.heap.length

theorem Regular.answeredOnce (h : s.Regular) : s.AnsweredOnce := by
  refine ⟨(List.nodup_append.1 h.tracked.nodup).2.1,
    fun p hp => h.tracked.handed p (List.mem_append_right _ hp), fun r hr => ?_⟩
  exact (Nat.le_add_right _ _).trans (h.tracked.account r hr)

/-- A step of the network thread. -/
theorem Regular.network {pipe : Pipeline cfg} {e : Network.Event} (h : s.Regular)
    (hstep : s.pipe.step alloc (.network e) = .ok pipe) :
    pipe.CompactionsAccounted ∧ pipe.current = s.pipe.current ∧ pipe.main = s.pipe.main
      ∧ (∀ p ∈ s.reserved, p < pipe.heap.length)
      ∧ Network.step alloc s.pipe.network e = .ok pipe.network := by
  have haccount := Pipeline.step_accounted h.compactions hstep
  rcases bind_eq_ok.1 hstep with ⟨net, hnet, hstep⟩
  cases hstep
  refine ⟨haccount, rfl, rfl, fun p hp => ?_, hnet⟩
  have hlt := h.reserved_lt p hp
  rcases Network.step_typesKept hnet p _ (List.getElem?_eq_getElem hlt) with ⟨b, hb, -⟩
  exact (List.getElem?_eq_some_iff.1 hb).1

/-- A step of another thread that changes no batch. -/
theorem Regular.quiet {pipe : Pipeline cfg} (h : s.Regular) (haccount : pipe.CompactionsAccounted)
    (hheap : pipe.heap = s.pipe.heap) (hnet : pipe.net = s.pipe.net)
    (hcurrent : pipe.current = s.pipe.current) (hread : pipe.main.readBatch = s.pipe.main.readBatch)
    (hcompaction : pipe.main.compactionBatch = s.pipe.main.compactionBatch) :
    ({ s with pipe } : Rings cfg).Regular := by
  have hreserved : ({ s with pipe } : Rings cfg).reserved = s.reserved := by
    simp only [reserved, hread, hcompaction]
  have hheld : ({ s with pipe } : Rings cfg).held = s.held := by simp only [held, hcurrent]
  have hnetwork : pipe.network = { s.pipe.network with heap := s.pipe.heap, mem := pipe.mem } := by
    simp only [Pipeline.network, hheap, hnet]
  refine ⟨haccount, h.aligned, h.next_le, ?_, ?_⟩
  · rw [hreserved, hheld, hnetwork]
    exact h.tracked.setHeap (.refl _) pipe.mem (Nat.le_refl _) fun _ _ _ _ => Nat.le_refl _
  · rw [hreserved, hheap]
    exact h.reserved_lt

theorem Regular.submit (h : s.Regular) (hstep : s.step alloc .submit = .ok s') : s'.Regular := by
  simp only [step] at hstep
  split_ifs at hstep with hphase
  · rcases bind_eq_ok.1 hstep with ⟨pipe, hpipe, hstep⟩
    cases hstep
    rcases h.network hpipe with ⟨haccount, hcurrent, hmain, hlt, hnet⟩
    refine ⟨haccount, fun _ => h.aligned (by rw [hphase]; decide), h.next_le, ?_, ?_⟩
    · have hwait : s.pipe.network.wait = pipe.network := Except.ok.inj hnet
      have hsent := h.tracked.submit
      simp only [reserved, held, hcurrent, hmain, ← hwait]
      refine hsent.part (List.Perm.subperm ?_)
      simp only [held, Pipeline.network, ← List.append_assoc]
      exact (List.perm_append_comm.append_right _).append_right _
    · simp only [reserved, hmain]
      exact hlt
  · cases hstep
    exact h

theorem Regular.visit (h : s.Regular) (hpools : alloc.EmptyPools)
    (hstep : s.step alloc .visit = .ok s') : s'.Regular := by
  simp only [step] at hstep
  split_ifs at hstep with hphase
  · split at hstep
    · cases hstep
      exact h
    · rename_i c hc
      rcases bind_eq_ok.1 hstep with ⟨pipe, hpipe, hstep⟩
      cases hstep
      rcases h.network hpipe with ⟨haccount, hcurrent, hmain, hlt, hnet⟩
      have hnext := (List.getElem?_eq_some_iff.1 hc).1
      have hdrop : s.posted.drop s.next = c :: s.posted.drop (s.next + 1) := by
        rw [List.drop_eq_getElem_cons hnext]
        rw [(List.getElem?_eq_some_iff.1 hc).2]
      refine ⟨haccount, fun hne => absurd hphase hne, hnext, ?_, ?_⟩
      · have htracked := h.tracked
        simp only [held, hdrop] at htracked
        simp only [reserved, held, hcurrent, hmain]
        cases c with
        | batch p =>
            have hfront := htracked.part (List.perm_middle.symm.subperm)
            exact hfront.deliver hnet
        | accept res more => exact htracked.accept hnet
        | recv i => exact htracked.recv hpools h.reserved_lt hnet
        | send p j more => exact htracked.send hnet
      · simp only [reserved, hmain]
        exact hlt
  · cases hstep
    exact h

/-- A pass ends where it has to. -/
theorem Regular.advance (h : s.Regular) (hexact : s.ExactPass .advance)
    (hstep : s.step alloc .advance = .ok s') : s'.Regular := by
  simp only [step] at hstep
  split_ifs at hstep with hend
  · cases hstep
    exact ⟨h.compactions, fun _ => hexact hend.1 hend.2, h.next_le, h.tracked, h.reserved_lt⟩
  · cases hstep
    exact h

theorem Regular.wake (h : s.Regular) (hstep : s.step alloc .wake = .ok s') : s'.Regular := by
  simp only [step] at hstep
  split_ifs at hstep with hready
  · cases hstep
    have hnext : s.next = s.head := h.aligned (by rw [hready.1]; decide)
    refine ⟨h.compactions, fun hne => absurd rfl hne, hnext ▸ h.next_le, ?_, h.reserved_lt⟩
    have hheld : ({ s with next := s.head, phase := .visiting } : Rings cfg).held = s.held := by
      simp only [held, hnext]
    rw [hheld]
    exact h.tracked
  · cases hstep
    exact h

theorem Regular.complete {c : Network.Completion} (h : s.Regular)
    (hstep : s.step alloc (.complete c) = .ok s') : s'.Regular := by
  simp only [step] at hstep
  split_ifs at hstep with hbatch
  · cases hstep
    exact h
  · cases hstep
    have hposted : batchesOf ((s.posted ++ [c]).drop s.next)
        = batchesOf (s.posted.drop s.next) := by
      rw [List.drop_append_of_le_length h.next_le, batchesOf_append,
        batchesOf_other (by simpa using hbatch)]
      exact List.append_nil _
    refine ⟨h.compactions, h.aligned, ?_, ?_, h.reserved_lt⟩
    · have := h.next_le
      simp only [List.length_append]
      omega
    · have hheld : ({ s with posted := s.posted ++ [c] } : Rings cfg).held = s.held := by
        simp only [held, hposted]
      rw [hheld]
      exact h.tracked

theorem Regular.memory {mem : Memory} (h : s.Regular)
    (hstep : s.step alloc (.memory mem) = .ok s') : s'.Regular := by
  rcases bind_eq_ok.1 hstep with ⟨pipe, hpipe, hstep⟩
  cases hstep
  have haccount := Pipeline.step_accounted h.compactions hpipe
  cases hpipe
  have htracked := h.tracked.setHeap (.refl _) mem (Nat.le_refl s.pipe.heap.length)
    fun _ _ _ _ => Nat.le_refl _
  exact ⟨haccount, h.aligned, h.next_le, htracked, h.reserved_lt⟩

/-- The main loop takes a message when it is done with its batch. -/
theorem Regular.take (h : s.Regular) (hstep : s.step alloc .take = .ok s') : s'.Regular := by
  simp only [step] at hstep
  split at hstep
  · rename_i p rest hnone hring
    rcases bind_eq_ok.1 hstep with ⟨pipe, hpipe, hstep⟩
    cases hstep
    have haccount := Pipeline.step_accounted h.compactions hpipe
    cases hpipe
    refine ⟨haccount, h.aligned, h.next_le, ?_, h.reserved_lt⟩
    have htracked := h.tracked
    simp only [held, hnone, hring, Option.map_none, Option.toList_none, List.append_nil] at htracked
    simp only [held, Option.map_some, Option.toList_some]
    refine htracked.part (List.Perm.subperm ?_)
    exact (List.perm_append_singleton ..).append_right _
  · cases hstep
    exact h

/-- The reply to request `i` of batch `p` is the request, or the request without its client. -/
theorem count_reply {pool : ReadWritePool} {i : ℕ} {conn reply : ConnectionRequest}
    (hconn : pool.entries[i]? = some conn)
    (hreply : reply = conn ∨ reply = { conn with clientSockFd := -1 }) {r : ℕ × ℤ} (hr : r.2 ≠ -1) :
    ((pool.entries.set i reply).map ConnectionRequest.payload).count r
      ≤ (pool.entries.map ConnectionRequest.payload).count r := by
  rcases exists_split hconn with ⟨pre, post, hentries, -, -, hset⟩
  rw [hset, hentries]
  simp only [List.map_append, List.map_cons, List.count_append, List.count_cons]
  rcases hreply with rfl | rfl
  · exact Nat.le_refl _
  · have hne : (({ conn with clientSockFd := -1 } : ConnectionRequest).payload == r) = false := by
      rw [beq_eq_false_iff_ne]
      rintro rfl
      exact hr rfl
    rw [hne]
    simp

/-- Batches that the main loop does not write to hold the same requests. -/
theorem payloads_of_poolsKept {main main' : MainState (systemLevelZero cfg)}
    (h : main.PoolsKept main') {q : ℕ} (hq : q < main.batches.length) (hread : q ≠ main.readBatch)
    (hcomp : q ≠ main.compactionBatch) :
    Network.payloadsOf main'.batches q = Network.payloadsOf main.batches q := by
  rw [Network.payloadsOf, h.frame q hq hread hcomp]
  rfl

/-- As long as the main loop has its batch, it leaves the requests in the batches of the network
thread as they are, but that the one it is at may lose its client. -/
theorem looped_payloads {pipe pipe' : Pipeline cfg} {p i : ℕ} (h : pipe.Looped alloc pipe')
    (hcurrent : pipe.current = some (p, i)) (hlive : pipe'.current ≠ none) :
    pipe'.net = pipe.net ∧ pipe'.current.map Prod.fst = some p
      ∧ pipe'.main.readBatch = pipe.main.readBatch
      ∧ pipe'.main.compactionBatch = pipe.main.compactionBatch
      ∧ pipe.heap.length ≤ pipe'.heap.length
      ∧ ∀ q < pipe.heap.length, q ≠ pipe.main.readBatch → q ≠ pipe.main.compactionBatch →
        ∀ r : ℕ × ℤ, r.2 ≠ -1 →
          (Network.payloadsOf pipe'.heap q).count r ≤ (Network.payloadsOf pipe.heap q).count r := by
  cases h with
  | idle hnone heq =>
      rw [hcurrent] at hnone
      cases hnone
  | ended hat hb hend heq =>
      subst heq
      exact absurd rfl hlive
  | @answered p' i' b conn main hat hb hconn hmain heq =>
      subst heq
      cases hcurrent.symm.trans hat
      rcases MainState.request_pools hmain with ⟨hkept, hreply⟩
      have hlen : (main.batches.modifyPool p fun pool =>
          { pool with entries := pool.entries.set i (main.replies.getLastD conn) }).length
          = main.batches.length := List.length_modify ..
      refine ⟨rfl, rfl, hkept.readBatch, hkept.compactionBatch, ?_, fun q hq hread hcomp r hr => ?_⟩
      · rw [hlen]
        exact hkept.length_le
      · have hsame : main.batches[q]? = pipe.heap[q]? := hkept.frame q hq hread hcomp
        simp only [Network.payloadsOf, Heap.modifyPool, List.getElem?_modify, hsame]
        by_cases hpq : p = q
        · subst hpq
          simp only [hb, if_true, Option.map_eq_map, Option.map_some, Option.getD_some]
          exact count_reply hconn hreply hr
        · simp [hpq]
  | @passed p' i' b conn index tableNum table main hat hb hconn hroute hpass heq =>
      subst heq
      have hkept := MainState.poolsKept_passCompaction hpass
      have hsame : pipe.current.map Prod.fst = some p := by rw [hcurrent, Option.map_some]
      exact ⟨rfl, hsame, hkept.readBatch, hkept.compactionBatch, hkept.length_le,
        fun q hq hread hcomp r _ => (congrArg (List.count r)
          (payloads_of_poolsKept hkept hq hread hcomp)).le⟩
  | written hat hunwritten hwrite heq =>
      subst heq
      cases hcurrent.symm.trans hat
      have hself : pipe.mainLoop.PoolsKept pipe.mainLoop :=
        ⟨rfl, rfl, Nat.le_refl _, fun _ _ _ _ => rfl⟩
      have hkept := MainState.poolsKept_writeTable hwrite hself
      exact ⟨rfl, rfl, hkept.readBatch, hkept.compactionBatch, Nat.le_refl _,
        fun _ _ _ _ _ _ => Nat.le_refl _⟩

/-- The main loop is done with its batch, which goes back. -/
theorem Regular.ended {p i : ℕ} (h : s.Regular) (hcurrent : s.pipe.current = some (p, i))
    (haccount : Pipeline.CompactionsAccounted { s.pipe with current := none }) :
    (s.posting { s.pipe with current := none } [p]).Regular := by
  refine ⟨haccount, h.aligned, ?_, ?_, h.reserved_lt⟩
  · have := h.next_le
    simp only [posting, List.length_append]
    omega
  · have htracked := h.tracked
    simp only [held, hcurrent, Option.map_some, Option.toList_some] at htracked
    simp only [held, posting, Option.map_none, Option.toList_none, List.append_nil]
    rw [List.drop_append_of_le_length h.next_le, batchesOf_append, batchesOf_map]
    refine htracked.part (List.Perm.subperm ?_)
    rw [List.append_assoc]
    exact List.perm_append_comm.append_left _

/-- A step in which it keeps its batch. -/
theorem Regular.kept {pipe : Pipeline cfg} {p i : ℕ} (h : s.Regular)
    (haccount : pipe.CompactionsAccounted) (hlooped : s.pipe.Looped alloc pipe)
    (hcurrent : s.pipe.current = some (p, i)) (hlive : pipe.current ≠ none) :
    ({ s with pipe } : Rings cfg).Regular := by
  rcases looped_payloads hlooped hcurrent hlive with ⟨hnet, hnext, hread, hcomp, hlen, hload⟩
  have hreserved : ({ s with pipe } : Rings cfg).reserved = s.reserved := by
    simp only [reserved, hread, hcomp]
  have hheld : ({ s with pipe } : Rings cfg).held = s.held := by
    simp only [held, hnext, hcurrent, Option.map_some]
  have hnetwork : pipe.network = { s.pipe.network with heap := pipe.heap, mem := pipe.mem } := by
    simp only [Pipeline.network, hnet]
  refine ⟨haccount, h.aligned, h.next_le, ?_, fun q hq => ?_⟩
  · rw [hreserved, hheld, hnetwork]
    refine h.tracked.setHeap (.refl _) pipe.mem hlen fun q hq r hr => ?_
    rcases h.tracked.range q hq with ⟨hlt, hown⟩
    have hne : q ≠ s.pipe.main.readBatch ∧ q ≠ s.pipe.main.compactionBatch := by
      simpa [reserved] using hown
    exact hload q hlt hne.1 hne.2 r hr
  · rw [hreserved] at hq
    exact (h.reserved_lt q hq).trans_le hlen

/-- A step of the main loop, with the batch that it has in hand. -/
theorem Regular.mainRequest (h : s.Regular) (hstep : s.step alloc .request = .ok s') :
    s'.Regular := by
  rcases bind_eq_ok.1 hstep with ⟨pipe, hpipe, hstep⟩
  cases hstep
  have haccount := Pipeline.step_accounted h.compactions hpipe
  have hlooped := Pipeline.step_looped hpipe
  by_cases hend : pipe.current = none
  · cases hlooped with
    | idle hcurrent heq =>
        subst heq
        simp only [posting, hcurrent, Option.map_none, Option.toList_none, ite_self, List.map_nil,
          List.append_nil]
        exact h
    | ended hcurrent hb hnone heq =>
        subst heq
        simp only [hcurrent, Option.map_some, Option.toList_some, if_true]
        exact h.ended hcurrent haccount
    | answered hcurrent hb hconn hmain heq =>
        subst heq
        cases hend
    | passed hcurrent hb hconn hroute hpass heq =>
        subst heq
        cases hcurrent.symm.trans hend
    | written hcurrent hunwritten hwrite heq =>
        subst heq
        cases hend
  · simp only [posting, if_neg hend, List.map_nil, List.append_nil]
    cases hcurrent : s.pipe.current with
    | none =>
        -- without a batch, nothing happens
        have hsame : pipe = s.pipe := by
          cases hlooped with
          | idle _ heq => exact heq
          | ended hat | answered hat | passed hat | written hat => cases hcurrent.symm.trans hat
        rw [hsame] at hend
        exact absurd hcurrent hend
    | some pi => exact h.kept haccount hlooped hcurrent hend

theorem Regular.step {e : RingsEvent} (h : s.Regular) (hpools : alloc.EmptyPools)
    (hexact : s.ExactPass e) (hstep : s.step alloc e = .ok s') : s'.Regular := by
  cases e with
  | submit => exact h.submit hstep
  | wake => exact h.wake hstep
  | visit => exact h.visit hpools hstep
  | advance => exact h.advance hexact hstep
  | complete c => exact h.complete hstep
  | memory mem => exact h.memory hstep
  | take => exact h.take hstep
  | request => exact h.mainRequest hstep
  | practicallyFull flag =>
      rcases bind_eq_ok.1 hstep with ⟨pipe, hpipe, hstep⟩
      cases hstep
      have haccount := Pipeline.step_accounted h.compactions hpipe
      cases hpipe
      exact h.quiet haccount rfl rfl rfl rfl rfl
  | work l i found =>
      rcases bind_eq_ok.1 hstep with ⟨pipe, hpipe, hstep⟩
      cases hstep
      have haccount := Pipeline.step_accounted h.compactions hpipe
      rcases bind_eq_ok.1 hpipe with ⟨levels, hwork, hpipe⟩
      cases hpipe
      rcases h.compactions.work_heap hwork with ⟨hheap, -, hanswers⟩
      have hnone :
          (s.pipe.setLevels levels).levels.answers.drop s.pipe.levels.answers.length = [] := by
        have hsame : (s.pipe.setLevels levels).levels.answers = s.pipe.levels.answers := hanswers
        rw [hsame, List.drop_length]
      have hquiet := h.quiet haccount hheap rfl rfl rfl rfl
      rw [hnone]
      simp only [posting, List.map_nil, List.append_nil]
      exact hquiet
  | report l i =>
      rcases bind_eq_ok.1 hstep with ⟨pipe, hpipe, hstep⟩
      cases hstep
      have haccount := Pipeline.step_accounted h.compactions hpipe
      cases hpipe
      refine h.quiet haccount ?_ rfl rfl rfl rfl
      show (s.pipe.levels.report l i).heap = _
      rcases System.report_cases s.pipe.levels l i with heq | ⟨f, -, -, -, heq⟩
      · rw [heq]
        rfl
      · rw [heq]
        rfl

/-- All threads at their start, and no message on the way. -/
def start (alloc : Allocator cfg) (index : SparseIndex cfg) (memtables : List (MemTable cfg))
    (isFlushedTo : ℕ → ℕ → Bool) (mem : Memory) (pool : ConnectionPool) : Rings cfg where
  pipe := .constructed alloc index memtables isFlushedTo mem pool

theorem regular_start (hpools : alloc.EmptyPools) (index : SparseIndex cfg)
    (memtables : List (MemTable cfg)) (isFlushedTo : ℕ → ℕ → Bool) (mem : Memory)
    (pool : ConnectionPool) : (start alloc index memtables isFlushedTo mem pool).Regular := by
  have hempty : Network.payloadsOf (start alloc index memtables isFlushedTo mem pool).pipe.heap 2
      = [] := List.map_eq_nil_iff.2 (hpools 2)
  refine ⟨Pipeline.constructed_accounted alloc index memtables isFlushedTo mem pool, fun _ => rfl,
    Nat.le_refl _, ⟨List.nodup_nil, fun p hp => absurd hp List.not_mem_nil, List.not_mem_nil,
      fun p hp => ?_, fun r _ => ?_⟩, fun p hp => ?_⟩
  · have hfirst : p ∈ [2] := hp
    rw [List.mem_singleton] at hfirst
    subst hfirst
    have hnot : 2 ∉ [0, 1] := by decide
    exact ⟨Nat.lt_succ_self 2, hnot⟩
  · show 0 + (([2] : List ℕ).flatMap (Network.payloadsOf
      (start alloc index memtables isFlushedTo mem pool).pipe.heap)).count r ≤ 0
    rw [List.flatMap_singleton, hempty]
    exact Nat.le_refl _
  · have hown : p ∈ [0, 1] := hp
    rcases List.mem_pair.1 hown with rfl | rfl
    · exact Nat.zero_lt_succ _
    · exact Nat.succ_lt_succ (Nat.zero_lt_succ _)

end Rings

/-- **No request is answered twice.**  In every run of all threads, in any order of their steps, in
which every pass of the network thread visits as many completions as its ring is advanced by, and
new batches are made in memory in which a pool reads as empty: no batch comes back to the network
thread twice, or without having been handed over, and no client gets more answers from a buffer than
requests were received from it there. -/
theorem answered_at_most_once (alloc : Allocator cfg) (hpools : alloc.EmptyPools)
    (index : SparseIndex cfg) (memtables : List (MemTable cfg)) (isFlushedTo : ℕ → ℕ → Bool)
    (mem : Memory) (pool : ConnectionPool) (es : List RingsEvent)
    (hexact : StepsMeet (Rings.step alloc) Rings.ExactPass
      (.start alloc index memtables isFlushedTo mem pool) es) :
    Throughout (Rings.step alloc) Rings.AnsweredOnce
      (.start alloc index memtables isFlushedTo mem pool) es :=
  (throughout_of_stepsMeet (fun _ _ _ h hC hstep => h.step hpools hC hstep)
    (Rings.regular_start hpools index memtables isFlushedTo mem pool) hexact).mono
    fun _ h => h.answeredOnce

/-- The threads over an empty database whose clients send nothing but zeros. -/
def zeroRings : Rings pairConfig :=
  .start (Allocator.zeroed pairConfig) (SparseIndex.fresh pairConfig) [] (fun _ _ => false)
    (fun _ => 0) (.new 4 0)

/-- Three clients send a request each; the batch of the first two goes around and is answered. -/
def threeClients : List RingsEvent :=
  [.submit, .complete (.accept 1 true), .complete (.accept 2 true), .wake, .visit, .visit, .advance,
    .submit, .complete (.recv 0), .complete (.recv 1), .wake, .visit, .visit, .advance,
    .submit, .complete (.accept 3 true), .complete (.recv 2), .wake, .visit, .visit, .advance,
    .submit, .take, .request, .request, .request, .complete (.accept 4 true), .wake, .visit, .visit,
    .advance]

/-- **In that run two answers go out, and no request is answered twice.** -/
theorem threeClients_answered :
    okAnd (runEvents (Rings.step (Allocator.zeroed pairConfig)) zeroRings threeClients)
        (fun s => s.pipe.net.log.delivered == [2] && s.pipe.net.log.sends == [(2, 0), (2, 1)])
          = true
      ∧ Throughout (Rings.step (Allocator.zeroed pairConfig)) Rings.AnsweredOnce zeroRings
        threeClients :=
  ⟨by decide +kernel, answered_at_most_once (Allocator.zeroed pairConfig)
    (Allocator.emptyPools_zeroed pairConfig) (SparseIndex.fresh pairConfig) [] (fun _ _ => false)
    (fun _ => 0) (.new 4 0) threeClients
    (by decide +kernel)⟩

end RingDB
