import RingDB.Worker.Turns

/-!
# Prepared operations are submitted

A worker prepares operations in the submission queue of an SSTable's ring; they take effect when
`io_uring_submit` is called on that ring.  Every chain is submitted where it is prepared.  The
message by which a batch of reads goes back to the network thread is not: the search prepares it
when a batch is finished at the last level, the main loop when it is skipped there, and both leave
it in the queue.

* `Operation`, `RingOp` — what is done to a ring; `queueAfter` — what it leaves unsubmitted.
* `Submitting` — the workers with the submission queues of all SSTables.
* `ReadLeaves` — a batch of reads is finished or skipped at an SSTable.
* **`submitted_iff`** — nothing is ever left unsubmitted if and only if no batch of reads is
  finished or skipped at the last level.
-/

namespace RingDB

open Core

namespace Worker

variable {cfg : Config}

/-- An entry of a submission queue. -/
inductive Operation where
  | openat
  | read (offset : ℕ)
  | write
  /-- The SSTable's number, to the scheduler ring. -/
  | msgScheduler
  /-- The address of a batch, to the network ring. -/
  | msgNetwork (batch : Option ℕ)
  deriving DecidableEq, Repr

inductive RingOp where
  | prep (op : Operation)
  | submit
  deriving DecidableEq, Repr

/-- The submission queue `q` after these calls. -/
def queueAfter : List Operation → List RingOp → List Operation
  | q, [] => q
  | q, .prep op :: ops => queueAfter (q ++ [op]) ops
  | _, .submit :: ops => queueAfter [] ops

/-- The calls that make up a chain. -/
def chainOps (cfg : Config) : ChainKind → List RingOp
  | .openFile => [.prep .openat, .prep .msgScheduler, .submit]
  | .initRead offset =>
      [.prep (.read offset), .prep (.read (offset + cfg.fairAlignedSstablePageCacheBufferSize)),
        .prep .msgScheduler, .submit]
  | .cacheRead reads => reads.map (fun r => .prep (.read r.1)) ++ [.prep .msgScheduler, .submit]
  | .flush => [.prep .write, .prep .msgScheduler, .submit]

/-- The search has emptied the stack. -/
def searchEnds (r : Except Fault (SSTableInfo.ReadState cfg)) : Bool :=
  okAnd r fun r => r.table.stack.empty

/-- A message in the main loop resumes a search that ends. -/
def messageEnds (heap : Heap cfg) (mem : Memory) (fuel : ℕ) (t : SSTableInfo cfg) : Bool :=
  match t.ring with
  | [] => false
  | _ :: _ => searchEnds (takeCompletions t >>= fun t => t.trySstableTreeReadInMemory heap fuel mem)

/-- A batch of reads is skipped, or its search ends in the turn in which it begins. -/
def batchEnds (heap : Heap cfg) (mem : Memory) (fuel : ℕ) (transfers : Transfers cfg)
    (b : RequestBatch cfg) (t : SSTableInfo cfg) : Bool :=
  if b.reqType = .read then
    if (b.readwritePool.presentInLevel && t.isFlushedTo) = false then true
    else okAnd (beginRead heap mem fuel transfers b.readwritePool.entries.length t)
      fun o => o.table.stack.empty
  else false

/-- The same of the visit of an SSTable. -/
def visitEnds (heap : Heap cfg) (mem : Memory) (fuel : ℕ) (transfers : Transfers cfg)
    (t : SSTableInfo cfg) : Bool :=
  if t.waitingOnIo = true then false
  else match t.reqBatchWq with
    | [] => false
    | p :: rest => okAnd (heap.deref p) fun b =>
        batchEnds heap mem fuel transfers b { t with reqBatchWq := rest, reqBatch := some p }

/-- The calls of a turn with this outcome: each chain with its `io_uring_submit`, and, if a batch of
reads has come to its end at the last level, the message to the network ring, without one. -/
def outcomeOps (level : ℕ) (ends : Bool) (o : Outcome cfg) : List RingOp :=
  o.submitted.flatMap (chainOps cfg) ++
    if ends = true ∧ ¬ level < cfg.numSstableLevels - 1 then [.prep (.msgNetwork o.table.reqBatch)]
    else []

/-- On whose ring the next turn of a worker makes which calls. -/
def turnOps (s : State cfg) (fuel : ℕ) (transfers : Transfers cfg) (ws : WorkerState) :
    Except Fault (ℕ × List RingOp) :=
  match ws.phase, ws.turn, ws.scheduler with
  | .init, .peek, m :: _ => do
      let t ← s.table m.userData
      pure (m.userData, outcomeOps (m.userData / cfg.levelFactor) false (initHandler t))
  | .init, .visit, _ => do
      let t ← s.table ws.i
      pure (ws.i, outcomeOps (ws.i / cfg.levelFactor) false (openTable t))
  | .main, .peek, m :: _ => do
      let t ← s.table m.userData
      let o ← mainHandler s.heap s.mem fuel (m.userData / cfg.levelFactor) t
      pure (m.userData, outcomeOps (m.userData / cfg.levelFactor)
        (messageEnds s.heap s.mem fuel t) o)
  | .main, .visit, _ => do
      let t ← s.table ws.i
      let o ← visitTable s.heap s.mem fuel transfers (ws.i / cfg.levelFactor) t
      pure (ws.i, outcomeOps (ws.i / cfg.levelFactor)
        (visitEnds s.heap s.mem fuel transfers t) o)
  | _, _, _ => .ok (0, [])

/-- On whose ring an event makes which calls.  Only the turns of workers make any. -/
def eventOps (s : State cfg) : Event cfg → Except Fault (ℕ × List RingOp)
  | .run w fuel transfers =>
      match s.workers[w]? with
      | none => .ok (0, [])
      | some ws => turnOps s fuel transfers ws
  | _ => .ok (0, [])

/-- The workers, with what is prepared and not submitted on the ring of each SSTable. -/
structure Submitting (cfg : Config) where
  base : State cfg
  queues : ℕ → List Operation

namespace Submitting

def start (slots : ℕ → Stack cfg.maxSstableHeight) (heap : Heap cfg) (mem : Memory) :
    Submitting cfg where
  base := .start slots heap mem
  queues := fun _ => []

def step (s : Submitting cfg) (e : Event cfg) : Except Fault (Submitting cfg) := do
  let base ← Worker.step s.base e
  let (n, ops) ← eventOps s.base e
  pure { base, queues := Function.update s.queues n (queueAfter (s.queues n) ops) }

/-- Everything prepared has been submitted. -/
def AllSubmitted (s : Submitting cfg) : Prop := ∀ n, s.queues n = []

end Submitting

/-- In this event a batch of reads is finished or skipped at SSTable `n`. -/
def ReadLeaves (s : State cfg) (n : ℕ) : Event cfg → Prop
  | .run w fuel transfers => ∃ ws t, s.workers[w]? = some ws ∧ ws.phase = .main ∧
      s.tables[n]? = some t ∧
      ((ws.turn = .peek ∧ (∃ m ms, ws.scheduler = m :: ms ∧ m.userData = n) ∧
          messageEnds s.heap s.mem fuel t = true) ∨
        (ws.turn = .visit ∧ ws.i = n ∧ visitEnds s.heap s.mem fuel transfers t = true))
  | _ => False

/-- No batch of reads is finished or skipped at the last level. -/
def NoneLeavesLast (s : Submitting cfg) (e : Event cfg) : Prop :=
  ∀ n, ReadLeaves s.base n e → n / cfg.levelFactor < cfg.numSstableLevels - 1

/-! ## What is left in the queue -/

theorem queueAfter_append (q : List Operation) (ops ops' : List RingOp) :
    queueAfter q (ops ++ ops') = queueAfter (queueAfter q ops) ops' := by
  induction ops generalizing q with
  | nil => rfl
  | cons op ops ih =>
      cases op with
      | prep op => exact ih _
      | submit => exact ih _

/-- A chain is submitted with everything before it. -/
theorem queueAfter_chainOps (q : List Operation) (k : ChainKind) :
    queueAfter q (chainOps cfg k) = [] := by
  cases k with
  | openFile => rfl
  | initRead offset => rfl
  | cacheRead reads =>
      rw [chainOps, queueAfter_append]
      rfl
  | flush => rfl

theorem queueAfter_chains (kinds : List ChainKind) :
    queueAfter [] (kinds.flatMap (chainOps cfg)) = [] := by
  induction kinds with
  | nil => rfl
  | cons k kinds ih => rw [List.flatMap_cons, queueAfter_append, queueAfter_chainOps, ih]

/-- A turn leaves something in an empty queue exactly if a batch comes to its end at the last
level. -/
theorem queueAfter_outcomeOps (level : ℕ) (ends : Bool) (o : Outcome cfg) :
    queueAfter [] (outcomeOps level ends o) = [] ↔
      (ends = true → level < cfg.numSstableLevels - 1) := by
  rw [outcomeOps, queueAfter_append, queueAfter_chains]
  split_ifs with h
  · simp only [queueAfter, List.nil_append, reduceCtorEq, false_iff]
    intro himp
    exact h.2 (himp h.1)
  · simp only [queueAfter, true_iff]
    intro hends
    by_contra hlast
    exact h ⟨hends, hlast⟩

section

variable {s : State cfg} {w fuel n : ℕ} {transfers : Transfers cfg} {ws : WorkerState}
  {t : SSTableInfo cfg} {o : Outcome cfg} {ops : List RingOp}

/-- A worker that is not in its main loop ends no batch. -/
theorem not_readLeaves (hws : s.workers[w]? = some ws) (hphase : ws.phase ≠ .main) (k : ℕ) :
    ¬ ReadLeaves s k (.run w fuel transfers) := by
  rintro ⟨ws', t, hws', hmain, -⟩
  rw [hws] at hws'
  cases hws'
  exact hphase hmain

/-- The message that the main loop handles ends a batch at the SSTable it names, or none. -/
theorem readLeaves_peek {m : Message} {ms : List Message} (hws : s.workers[w]? = some ws)
    (hphase : ws.phase = .main) (hturn : ws.turn = .peek) (hs : ws.scheduler = m :: ms)
    (ht : s.tables[m.userData]? = some t) {k : ℕ} :
    ReadLeaves s k (.run w fuel transfers)
      ↔ k = m.userData ∧ messageEnds s.heap s.mem fuel t = true := by
  constructor
  · rintro ⟨ws', t', hws', -, ht', hleaves⟩
    rw [hws] at hws'
    cases hws'
    rcases hleaves with ⟨-, ⟨m', ms', hs', rfl⟩, hend⟩ | ⟨hvisit, -⟩
    · rw [hs] at hs'
      cases hs'
      rw [ht] at ht'
      cases ht'
      exact ⟨rfl, hend⟩
    · rw [hturn] at hvisit
      cases hvisit
  · rintro ⟨rfl, hend⟩
    exact ⟨ws, t, hws, hphase, ht, .inl ⟨hturn, ⟨m, ms, hs, rfl⟩, hend⟩⟩

/-- The visit in the main loop ends a batch at the SSTable it is for, or none. -/
theorem readLeaves_visit (hws : s.workers[w]? = some ws) (hphase : ws.phase = .main)
    (hturn : ws.turn = .visit) (ht : s.tables[ws.i]? = some t) {k : ℕ} :
    ReadLeaves s k (.run w fuel transfers)
      ↔ k = ws.i ∧ visitEnds s.heap s.mem fuel transfers t = true := by
  constructor
  · rintro ⟨ws', t', hws', -, ht', hleaves⟩
    rw [hws] at hws'
    cases hws'
    rcases hleaves with ⟨hpeek, -⟩ | ⟨-, rfl, hend⟩
    · rw [hturn] at hpeek
      cases hpeek
    · rw [ht] at ht'
      cases ht'
      exact ⟨rfl, hend⟩
  · rintro ⟨rfl, hend⟩
    exact ⟨ws, t, hws, hphase, ht, .inr ⟨hturn, rfl, hend⟩⟩

theorem turnOps_queue (hws : s.workers[w]? = some ws)
    (h : turnOps s fuel transfers ws = .ok (n, ops)) :
    queueAfter [] ops = [] ↔ ∀ k, ReadLeaves s k (.run w fuel transfers) →
      k / cfg.levelFactor < cfg.numSstableLevels - 1 := by
  unfold turnOps at h
  split at h
  · next m ms hphase hturn hs =>
      rcases bind_eq_ok.1 h with ⟨t, ht, h⟩
      cases h
      rw [queueAfter_outcomeOps]
      exact iff_of_true (by simp) fun k hk => absurd hk (not_readLeaves hws (by simp [hphase]) k)
  · next hphase hturn =>
      rcases bind_eq_ok.1 h with ⟨t, ht, h⟩
      cases h
      rw [queueAfter_outcomeOps]
      exact iff_of_true (by simp) fun k hk => absurd hk (not_readLeaves hws (by simp [hphase]) k)
  · next m ms hphase hturn hs =>
      rcases bind_eq_ok.1 h with ⟨t, ht, h⟩
      rcases bind_eq_ok.1 h with ⟨o, ho, h⟩
      cases h
      simp only [queueAfter_outcomeOps,
        readLeaves_peek hws hphase hturn hs (State.table_eq_ok.1 ht), and_imp, forall_eq]
  · next hphase hturn =>
      rcases bind_eq_ok.1 h with ⟨t, ht, h⟩
      rcases bind_eq_ok.1 h with ⟨o, ho, h⟩
      cases h
      simp only [queueAfter_outcomeOps,
        readLeaves_visit hws hphase hturn (State.table_eq_ok.1 ht), and_imp, forall_eq]
  · next _ hmainVisit _ hmainPeek =>
      cases h
      refine iff_of_true rfl fun k hk => ?_
      rcases hk with ⟨ws', t, hws', hmain, -, hleaves⟩
      rw [hws] at hws'
      cases hws'
      rcases hleaves with ⟨hturn, ⟨m, ms, hs, -⟩, -⟩ | ⟨hturn, -⟩
      · exact absurd hs (hmainPeek m ms hmain hturn)
      · exact absurd hturn (hmainVisit hmain)

/-- **The calls of one event**, on an empty queue. -/
theorem eventOps_queue {e : Event cfg} (h : eventOps s e = .ok (n, ops)) :
    queueAfter [] ops = [] ↔
      ∀ k, ReadLeaves s k e → k / cfg.levelFactor < cfg.numSstableLevels - 1 := by
  cases e with
  | run w fuel transfers =>
      simp only [eventOps] at h
      split at h
      · next hws =>
          cases h
          refine iff_of_true rfl fun k hk => ?_
          rcases hk with ⟨ws, t, hws', -⟩
          rw [hws] at hws'
          cases hws'
      · next ws hws => exact turnOps_queue hws h
  | complete | announce | arrive | others | refill =>
      cases h
      exact iff_of_true rfl fun k hk => absurd hk id

end

namespace Submitting

variable {s s' : Submitting cfg} {e : Event cfg}

/-- From empty queues one event leads to empty queues exactly if no batch of reads is finished or
skipped at the last level. -/
theorem AllSubmitted.step_iff (h : s.AllSubmitted) (hstep : s.step e = .ok s') :
    s'.AllSubmitted ↔ NoneLeavesLast s e := by
  rcases bind_eq_ok.1 hstep with ⟨base, -, hrest⟩
  rcases bind_eq_ok.1 hrest with ⟨⟨n, ops⟩, hops, hs'⟩
  cases hs'
  rw [NoneLeavesLast, ← eventOps_queue hops]
  constructor
  · intro hall
    simpa [h n] using hall n
  · intro hn k
    by_cases hk : k = n
    · subst hk
      simpa [h k] using hn
    · simp [hk, h k]

end Submitting

/-- **When everything prepared is submitted.**  In every run of the workers, with completions,
messages and arrivals in any order, every operation that is prepared on the ring of an SSTable has
been submitted when its handler returns, if and only if no batch of reads is finished or skipped at
the last level. -/
theorem submitted_iff (slots : ℕ → Stack cfg.maxSstableHeight) (heap : Heap cfg) (mem : Memory)
    (es : List (Event cfg)) :
    Throughout Submitting.step Submitting.AllSubmitted (.start slots heap mem) es
      ↔ StepsMeet Submitting.step NoneLeavesLast (.start slots heap mem) es :=
  throughout_iff_stepsMeet (fun _ h => h) (fun _ _ _ h hc hstep => (h.step_iff hstep).2 hc)
    (fun _ _ _ h hstep h' => (h.step_iff hstep).1 h') fun _ => rfl

/-- A batch of reads that no SSTable has to look at. -/
def absentBatch (cfg : Config) : RequestBatch cfg :=
  RequestBatch.zeroed cfg .read

/-- The worker counts SSTables 2 and 3 after each of two pairs of full reads, goes on to its main
loop, and visits SSTable 2, on the last level, when a batch of reads has arrived there. -/
def skippedRun : List (Event fourTableConfig) :=
  turns 0 8 ++ [.complete 2 [⟨0, 9⟩], .complete 2 [⟨0, 10⟩]] ++ turns 0 8 ++
    List.replicate 2 (fullReads 2) ++ turns 0 8 ++
    List.replicate 2 (fullReads 2) ++ turns 0 8 ++
    [.announce 0 1, .arrive 2 0] ++ turns 0 7

/-- The message that would return the batch stays in the queue. -/
theorem skipped_read_unsent :
    ¬ Throughout Submitting.step Submitting.AllSubmitted
      (.start (fun _ => Stack.zeroed _) [absentBatch _] fun _ => 0)
      skippedRun := by
  intro h
  have hend : okAnd (runEvents Submitting.step
      (.start (fun _ => Stack.zeroed _) [absentBatch _] fun _ => 0)
      skippedRun) (fun s => s.queues 2 == [.msgNetwork (some 0)]) = true := by
    decide +kernel
  rcases okAnd_iff.1 hend with ⟨s, hs, hfinal⟩
  rw [beq_iff_eq, h.final hs 2] at hfinal
  cases hfinal

end Worker

end RingDB
