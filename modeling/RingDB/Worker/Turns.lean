import RingDB.Worker.EventLoop

/-!
# What a turn of a worker can do

For every handler of the event loops, what it can do to the two flags of its SSTable and what it
can submit; from that, the results of a turn (`TurnResult`) and of an event (`StepResult`), with
everything an invariant needs and without the code of the handlers.

* **`mainHandler_cases`** — the main loop takes a message for the report of a flush exactly if the
  SSTable's ring is empty, and does not lower `waiting_on_io` then.
* **`visitTable_outcome`** — a visit that submits something raises the flag.
* **`inRange_step`** — a worker stays with its own SSTables.
-/

namespace RingDB

open Core

namespace Worker

variable {cfg : Config}

/-! ## What the handlers can do -/

section

variable {t : SSTableInfo cfg} {o : Outcome cfg}

/-- What initialization keeps up in the handling of the completions of one message. -/
structure InitOutcome (t : SSTableInfo cfg) (o : Outcome cfg) : Prop where
  waitingOnIo : t.waitingOnIo = false → o.table.waitingOnIo = false
  isFlushedTo : t.isFlushedTo = true → o.table.isFlushedTo = true
  submitted : ∀ k ∈ o.submitted, k.isInitRead = true

theorem initResult_submitted (o : Outcome cfg) (j : ℕ) (res : ℤ) :
    (initResult o j res).submitted = o.submitted ∨
      ∃ offset, (initResult o j res).submitted = o.submitted ++ [.initRead offset] := by
  simp only [initResult]
  by_cases hshort : ReadWritePool.toUint res < cfg.fairAlignedSstablePageCacheBufferSize
  · exact .inl (by simp [hshort])
  · by_cases hj : j = 1
    · simp only [hshort, if_false, hj, if_true]
      exact .inr ⟨_, rfl⟩
    · exact .inl (by simp [hshort, hj])

theorem initResult_outcome {j : ℕ} {res : ℤ} (h : InitOutcome t o) :
    InitOutcome t (initResult o j res) := by
  constructor
  · intro ht
    have hw := h.waitingOnIo ht
    simp only [initResult]
    split_ifs <;> simp [hw]
  · intro ht
    have hf := h.isFlushedTo ht
    simp only [initResult]
    split_ifs <;> simp [hf]
  · intro k hk
    rcases initResult_submitted o j res with hs | ⟨offset, hs⟩
    · rw [hs] at hk
      exact h.submitted k hk
    · rw [hs, List.mem_append, List.mem_singleton] at hk
      rcases hk with hk | rfl
      · exact h.submitted k hk
      · rfl

/-- A message during initialization never raises the flag, never takes `is_flushed_to` back, and
submits initialization reads only. -/
theorem initHandler_outcome (t : SSTableInfo cfg) : InitOutcome t (initHandler t) := by
  have hnew : InitOutcome t { table := t } := ⟨id, id, by simp⟩
  have hopened : InitOutcome t
      { table := { t with desiredSstableOffset := 0 }, submitted := [.initRead 0] } :=
    ⟨id, id, by simp [ChainKind.isInitRead]⟩
  unfold initHandler
  split
  · exact initResult_outcome (initResult_outcome hnew)
  · exact hopened

/-- The visit of an SSTable during initialization opens its file at most. -/
theorem openTable_outcome (t : SSTableInfo cfg) :
    (openTable t).table.waitingOnIo = t.waitingOnIo ∧
      (openTable t).table.isFlushedTo = t.isFlushedTo ∧
      ∀ k ∈ (openTable t).submitted, k = .openFile := by
  unfold openTable
  split_ifs
  · exact ⟨rfl, rfl, by simp⟩
  · exact ⟨rfl, rfl, by simp⟩

/-- Nothing is counted by it, and the completions stay. -/
theorem openTable_quiet (t : SSTableInfo cfg) :
    (openTable t).counted = 0 ∧ (openTable t).table.ring = t.ring := by
  unfold openTable
  split_ifs
  · exact ⟨rfl, rfl⟩
  · exact ⟨rfl, rfl⟩

theorem takeCompletions_untouched {t' : SSTableInfo cfg} (h : takeCompletions t = .ok t') :
    t'.waitingOnIo = t.waitingOnIo ∧ t'.isFlushedTo = t.isFlushedTo := by
  rcases bind_eq_ok.1 h with ⟨helper, -, h⟩
  cases h
  exact ⟨rfl, rfl⟩

variable {heap : Heap cfg} {mem : Memory} {fuel level : ℕ} {transfers : Transfers cfg}

/-- **The handler of the main loop.**  An empty ring is all it takes to have been flushed to, and
on that path `waiting_on_io` is not touched; otherwise a search is resumed. -/
theorem mainHandler_cases (h : mainHandler heap mem fuel level t = .ok o) :
    (t.ring = [] ∧ o =
      { table := { t with isFlushedTo := true }
        isPracticallyFull := some (level == cfg.numSstableLevels - 1) }) ∨
      (t.ring ≠ [] ∧ ∃ t₁ r, takeCompletions t = .ok t₁ ∧
        t₁.trySstableTreeReadInMemory heap fuel mem = .ok r ∧ o = outcomeOf r) := by
  unfold mainHandler at h
  split at h
  · next hring =>
      cases h
      exact .inl ⟨hring, rfl⟩
  · next hring =>
      rcases bind_eq_ok.1 h with ⟨t₁, h₁, h⟩
      rcases bind_eq_ok.1 h with ⟨r, hr, h⟩
      cases h
      exact .inr ⟨by simp [hring], t₁, r, h₁, hr, rfl⟩

theorem visitIdle_untouched (transfers : Transfers cfg) (level : ℕ) (t : SSTableInfo cfg) :
    (visitIdle transfers level t).waitingOnIo = t.waitingOnIo ∧
      (visitIdle transfers level t).isFlushedTo = t.isFlushedTo := by
  unfold visitIdle
  split_ifs
  · exact ⟨rfl, rfl⟩
  · exact ⟨rfl, rfl⟩
  · split <;> exact ⟨rfl, rfl⟩

/-- What the visit of an SSTable in the main loop can do: nothing that concerns the flag, a
flush, or the begin of a search. -/
inductive VisitOutcome (t : SSTableInfo cfg) (o : Outcome cfg) : Prop
  | quiet : o.submitted = [] → o.table.waitingOnIo = t.waitingOnIo → VisitOutcome t o
  | flush : t.waitingOnIo = false → t.isFlushedTo = false → o.submitted = [.flush] →
      o.table.waitingOnIo = true → VisitOutcome t o
  | search (issued : Option (List (ℕ × ℕ))) : t.waitingOnIo = false →
      o.submitted = (issued.map ChainKind.cacheRead).toList →
      issued.isSome = o.table.waitingOnIo → VisitOutcome t o

theorem beginRead_outcome {length : ℕ} (hw : t.waitingOnIo = false)
    (h : beginRead heap mem fuel transfers length t = .ok o) :
    o.table.isFlushedTo = t.isFlushedTo ∧ VisitOutcome t o := by
  rcases bind_eq_ok.1 h with ⟨stack, hstack, h⟩
  rcases bind_eq_ok.1 h with ⟨r, hr, h⟩
  cases h
  have hs : stack.empty = false := by
    unfold Stack.pushTop at hstack
    split_ifs at hstack
    cases hstack
    simp [Stack.empty]
  rcases SSTableInfo.tryRead_fresh (by exact hw) (by exact hs) hr with ⟨hu, hi⟩
  exact ⟨hu.isFlushedTo, .search r.issued hw rfl hi⟩

theorem visitBatch_outcome {b : RequestBatch cfg} (hw : t.waitingOnIo = false)
    (h : visitBatch heap mem fuel transfers level b t = .ok o) :
    o.table.isFlushedTo = t.isFlushedTo ∧ VisitOutcome t o := by
  unfold visitBatch at h
  split_ifs at h with hread hskip hpass hflush
  · cases h
    exact ⟨rfl, .quiet rfl rfl⟩
  · exact beginRead_outcome hw h
  · cases h
    exact ⟨rfl, .quiet rfl rfl⟩
  · cases h
    exact ⟨rfl, .flush hw hflush rfl rfl⟩
  · cases h
    exact ⟨rfl, .quiet rfl rfl⟩

theorem visitTable_outcome (h : visitTable heap mem fuel transfers level t = .ok o) :
    o.table.isFlushedTo = t.isFlushedTo ∧ VisitOutcome t o := by
  unfold visitTable at h
  split_ifs at h with hw
  · cases h
    exact ⟨rfl, .quiet rfl rfl⟩
  · rw [Bool.not_eq_true] at hw
    split at h
    · cases h
      rcases visitIdle_untouched transfers level { t with reqBatch := none } with ⟨hw', hf'⟩
      exact ⟨hf', .quiet rfl hw'⟩
    · rcases bind_eq_ok.1 h with ⟨b, -, h⟩
      rcases visitBatch_outcome (by exact hw) h with ⟨hf, hv⟩
      refine ⟨hf, ?_⟩
      cases hv with
      | quiet hs hw' => exact .quiet hs hw'
      | flush hw hf hs hw' => exact .flush hw hf hs hw'
      | search issued hw hs hi => exact .search issued hw hs hi

/-- What is counted and announced elsewhere: no visit counts an SSTable or assigns to
`is_practically_full`. -/
structure Unannounced (o : Outcome cfg) : Prop where
  counted : o.counted = 0
  isPracticallyFull : o.isPracticallyFull = none

theorem visitBatch_unannounced {b : RequestBatch cfg}
    (h : visitBatch heap mem fuel transfers level b t = .ok o) : Unannounced o := by
  unfold visitBatch at h
  split_ifs at h
  · cases h
    exact ⟨rfl, rfl⟩
  · rcases bind_eq_ok.1 h with ⟨stack, -, hrest⟩
    rcases bind_eq_ok.1 hrest with ⟨r, -, ho⟩
    cases ho
    exact ⟨rfl, rfl⟩
  all_goals
    cases h
    exact ⟨rfl, rfl⟩

theorem visitTable_unannounced (h : visitTable heap mem fuel transfers level t = .ok o) :
    Unannounced o := by
  unfold visitTable at h
  split_ifs at h
  · cases h
    exact ⟨rfl, rfl⟩
  · split at h
    · cases h
      exact ⟨rfl, rfl⟩
    · rcases bind_eq_ok.1 h with ⟨b, -, hbatch⟩
      exact visitBatch_unannounced hbatch

end

/-! ## What a turn can do -/

/-- The results of a turn of worker `w`, one case for each kind of turn. -/
inductive TurnResult (s : State cfg) (w : ℕ) (ws : WorkerState) : State cfg → Prop
  | stay : TurnResult s w ws s
  | noMessage : TurnResult s w ws (s.setWorker w { ws with turn := .visit })
  | initMessage {m : Message} {ms : List Message} {t : SSTableInfo cfg} : ws.phase = .init →
      ws.turn = .peek → ws.scheduler = m :: ms → s.tables[m.userData]? = some t →
      TurnResult s w ws ((s.apply w m.userData (initHandler t)).setWorker w
        { ws with
          turn := .visit
          scheduler := ms
          numInitializedRead := ws.numInitializedRead + (initHandler t).counted })
  | initVisit {t : SSTableInfo cfg} : ws.phase = .init → ws.turn = .visit →
      s.tables[ws.i]? = some t →
      TurnResult s w ws ((s.apply w ws.i (openTable t)).setWorker w (ws.advanceInit cfg w))
  | enterMain {m : Message} {ms : List Message} : ws.phase = .awaitFd →
      ws.scheduler = m :: ms → TurnResult s w ws (s.setWorker w { ws with phase := .main })
  | mainMessage {m : Message} {ms : List Message} {t : SSTableInfo cfg} {fuel : ℕ}
      {o : Outcome cfg} : ws.phase = .main → ws.turn = .peek → ws.scheduler = m :: ms →
      s.tables[m.userData]? = some t →
      mainHandler s.heap s.mem fuel (m.userData / cfg.levelFactor) t = .ok o →
      TurnResult s w ws ((s.apply w m.userData o).setWorker w
        { ws with turn := .visit, scheduler := ms })
  | mainVisit {t : SSTableInfo cfg} {fuel : ℕ} {transfers : Transfers cfg} {o : Outcome cfg} :
      ws.phase = .main → ws.turn = .visit → s.tables[ws.i]? = some t →
      visitTable s.heap s.mem fuel transfers (ws.i / cfg.levelFactor) t = .ok o →
      TurnResult s w ws ((s.apply w ws.i o).setWorker w (ws.advance cfg w))

theorem State.table_eq_ok {s : State cfg} {n : ℕ} {t : SSTableInfo cfg} :
    s.table n = .ok t ↔ s.tables[n]? = some t := by
  unfold State.table
  cases s.tables[n]? with
  | none => simp
  | some t' => simp

theorem turn_result {s s' : State cfg} {w fuel : ℕ} {transfers : Transfers cfg}
    {ws : WorkerState} (h : s.turn w fuel transfers ws = .ok s') : TurnResult s w ws s' := by
  unfold State.turn at h
  split at h
  · next hphase hturn =>
      unfold State.initPeek at h
      split at h
      · cases h
        exact .noMessage
      · next m ms hms =>
          rcases bind_eq_ok.1 h with ⟨t, ht, h⟩
          cases h
          exact .initMessage hphase hturn hms (State.table_eq_ok.1 ht)
  · next hphase hturn =>
      rcases bind_eq_ok.1 h with ⟨t, ht, h⟩
      cases h
      exact .initVisit hphase hturn (State.table_eq_ok.1 ht)
  · next hphase =>
      cases h
      unfold State.awaitNetworkRing
      split
      · exact .stay
      · next m ms hms =>
          split_ifs
          · exact .stay
          · exact .enterMain hphase hms
  · next hphase hturn =>
      unfold State.mainPeek at h
      split at h
      · cases h
        exact .noMessage
      · next m ms hms =>
          rcases bind_eq_ok.1 h with ⟨t, ht, h⟩
          rcases bind_eq_ok.1 h with ⟨o, ho, h⟩
          cases h
          exact .mainMessage hphase hturn hms (State.table_eq_ok.1 ht) ho
  · next hphase hturn =>
      rcases bind_eq_ok.1 h with ⟨t, ht, h⟩
      rcases bind_eq_ok.1 h with ⟨o, ho, h⟩
      cases h
      exact .mainVisit hphase hturn (State.table_eq_ok.1 ht) ho

/-- The two flags of every SSTable are as before. -/
def SameFlags (tables tables' : List (SSTableInfo cfg)) : Prop :=
  ∀ (n : ℕ) (t' : SSTableInfo cfg), tables'[n]? = some t' → ∃ t, tables[n]? = some t ∧
    t'.waitingOnIo = t.waitingOnIo ∧ t'.isFlushedTo = t.isFlushedTo

theorem sameFlags_modify {tables : List (SSTableInfo cfg)} (n : ℕ)
    {f : SSTableInfo cfg → SSTableInfo cfg} (hw : ∀ t, (f t).waitingOnIo = t.waitingOnIo)
    (hf : ∀ t, (f t).isFlushedTo = t.isFlushedTo) : SameFlags tables (tables.modify n f) := by
  intro m t' h
  rw [List.getElem?_modify, Option.map_eq_map, Option.map_eq_some_iff] at h
  rcases h with ⟨t, ht, rfl⟩
  refine ⟨t, ht, ?_⟩
  split_ifs
  · exact ⟨hw t, hf t⟩
  · exact ⟨rfl, rfl⟩

theorem report_sameFlags (s : State cfg) (k : ℕ) (c : Chain) (cqes : List Cqe) :
    SameFlags s.tables (s.report k c cqes).tables :=
  sameFlags_modify c.table (fun _ => rfl) fun _ => rfl

/-- The results of an event: the flags change in a turn of a worker and nowhere else. -/
inductive StepResult (s : State cfg) : Event cfg → State cfg → Prop
  | unchanged {e : Event cfg} : StepResult s e s
  | reported {k : ℕ} {c : Chain} {cqes : List Cqe} : s.inFlight[k]? = some c →
      StepResult s (.complete k cqes) (s.report k c cqes)
  | announced {w fd : ℕ} : StepResult s (.announce w fd) (s.post w (.announcement fd))
  | outside {e : Event cfg} {tables : List (SSTableInfo cfg)} {heap : Heap cfg} {mem : Memory} :
      SameFlags s.tables tables → StepResult s e { s with tables, heap, mem }
  | turned {w fuel : ℕ} {transfers : Transfers cfg} {ws : WorkerState} {s' : State cfg} :
      s.workers[w]? = some ws → TurnResult s w ws s' → StepResult s (.run w fuel transfers) s'

theorem step_result {s s' : State cfg} {e : Event cfg} (h : step s e = .ok s') :
    StepResult s e s' := by
  cases e with
  | complete k cqes =>
      simp only [step] at h
      split at h
      · cases h
        exact .unchanged
      · next c hc =>
          cases h
          split_ifs
          · exact .reported hc
          · exact .unchanged
  | announce w fd =>
      cases h
      split_ifs
      · exact .announced
      · exact .unchanged
  | arrive n batch =>
      cases h
      exact .outside (sameFlags_modify n (fun _ => rfl) fun _ => rfl)
  | others heap mem =>
      cases h
      exact .outside fun n t h => ⟨t, h, rfl, rfl⟩
  | refill n buffers =>
      cases h
      exact .outside (sameFlags_modify n (fun _ => rfl) fun _ => rfl)
  | run w fuel transfers =>
      simp only [step] at h
      split at h
      · cases h
        exact .unchanged
      · next ws hws => exact .turned hws (turn_result h)

/-! ## Workers stay with their SSTables -/

theorem owns_firstSstableNum (w : ℕ) : cfg.owns w (cfg.firstSstableNum w) := by
  unfold Config.owns Config.secondSstableNum
  split_ifs with h
  · simp [Config.firstSstableNum, h]
  · exact ⟨Nat.le_refl _, by omega⟩

/-- No SSTable has two owners, unless the batches are empty. -/
theorem owns_unique {v w n : ℕ} (hpos : 0 < cfg.workerSstableBatchSize) (hv : cfg.owns v n)
    (hw : cfg.owns w n) : v = w := by
  have key : ∀ u, cfg.owns u n → n / cfg.workerSstableBatchSize = u := by
    intro u hu
    simp only [Config.owns, Config.secondSstableNum, Config.firstSstableNum,
      Nat.pos_iff_ne_zero.1 hpos, if_false] at hu
    refine Nat.div_eq_of_lt_le hu.1 ?_
    rw [Nat.add_mul, Nat.one_mul]
    omega
  exact (key v hv).symm.trans (key w hw)

theorem advance_owns {w : ℕ} {ws : WorkerState} (h : cfg.owns w ws.i) :
    cfg.owns w (ws.advance cfg w).i := by
  simp only [WorkerState.advance]
  split_ifs with hlt
  · exact ⟨Nat.le_succ_of_le h.1, hlt⟩
  · exact owns_firstSstableNum w

/-- The initialization loop takes no message out and counts nothing. -/
theorem advanceInit_keeps (w : ℕ) (ws : WorkerState) :
    (ws.advanceInit cfg w).scheduler = ws.scheduler ∧
      (ws.advanceInit cfg w).numInitializedRead = ws.numInitializedRead := by
  unfold WorkerState.advanceInit
  split_ifs
  · exact ⟨rfl, rfl⟩
  · exact ⟨rfl, rfl⟩

/-- The main loop is not entered from it. -/
theorem advanceInit_ne_main {w : ℕ} {ws : WorkerState} (hphase : ws.phase = .init) :
    (ws.advanceInit cfg w).phase ≠ .main := by
  unfold WorkerState.advanceInit
  split_ifs
  · simp [WorkerState.advance, hphase]
  · simp

/-- The `for` loops stay in their range, and only a worker with a batch initializes. -/
def InRange (s : State cfg) : Prop :=
  ∀ w ws, s.workers[w]? = some ws →
    cfg.owns w ws.i ∧ (ws.phase = .init → 0 < cfg.workerSstableBatchSize)

/-- What a turn makes of the worker that takes it. -/
theorem TurnResult.worker {s s' : State cfg} {w : ℕ} {ws : WorkerState}
    (h : TurnResult s w ws s') (hw : s.workers[w]? = some ws) :
    ∃ ws', s'.workers = s.workers.set w ws' ∧ (cfg.owns w ws.i → cfg.owns w ws'.i) ∧
      (ws'.phase = .init → ws.phase = .init) := by
  cases h with
  | stay =>
      refine ⟨ws, ?_, id, id⟩
      refine List.ext_getElem? fun i => ?_
      rw [List.getElem?_set]
      split_ifs with hi hlen
      · rw [← hi, hw]
      · rw [← hi, List.getElem?_eq_none (Nat.not_lt.1 hlen)]
      · rfl
  | noMessage => exact ⟨_, rfl, id, id⟩
  | initMessage => exact ⟨_, rfl, id, id⟩
  | initVisit hphase =>
      refine ⟨_, rfl, fun hi => ?_, fun _ => hphase⟩
      unfold WorkerState.advanceInit
      split_ifs <;> exact advance_owns hi
  | enterMain => exact ⟨_, rfl, id, by simp⟩
  | mainMessage => exact ⟨_, rfl, id, id⟩
  | mainVisit => exact ⟨_, rfl, advance_owns, id⟩

/-- The SSTable that a turn concerns, and the others. -/
theorem table_turn {s : State cfg} {w n k : ℕ} {ws' : WorkerState} {o : Outcome cfg}
    {t' : SSTableInfo cfg}
    (h : ((s.apply w n o).setWorker w ws').tables[k]? = some t') :
    (k = n ∧ t' = o.table) ∨ (k ≠ n ∧ s.tables[k]? = some t') := by
  simp only [State.setWorker, State.apply, List.getElem?_set] at h
  split_ifs at h with hk
  · cases h
    exact .inl ⟨hk.symm, rfl⟩
  · exact .inr ⟨fun e => hk e.symm, h⟩

theorem set_worker_cases {l : List WorkerState} {w v : ℕ} {ws' x : WorkerState}
    (h : (l.set w ws')[v]? = some x) : (v = w ∧ x = ws') ∨ (v ≠ w ∧ l[v]? = some x) := by
  rw [List.getElem?_set] at h
  split_ifs at h with hv
  · cases h
    exact .inl ⟨hv.symm, rfl⟩
  · exact .inr ⟨fun e => hv e.symm, h⟩

/-- What a message put into a scheduler ring changes: nothing else. -/
theorem post_worker_cases {s : State cfg} {w v : ℕ} {m : Message} {x : WorkerState}
    (h : (s.post w m).workers[v]? = some x) :
    ∃ ws, s.workers[v]? = some ws ∧ (x = ws ∨ (v = w ∧ x = ws.receive m)) := by
  simp only [State.post, List.getElem?_modify, Option.map_eq_map, Option.map_eq_some_iff] at h
  rcases h with ⟨ws, hws, rfl⟩
  refine ⟨ws, hws, ?_⟩
  split_ifs with hv
  · exact .inr ⟨hv.symm, rfl⟩
  · exact .inl rfl

theorem inRange_start (slots : ℕ → Stack cfg.maxSstableHeight) (heap : Heap cfg) (mem : Memory) :
    InRange (State.start slots heap mem) := by
  intro w ws h
  simp only [State.start, List.getElem?_map, Option.map_eq_some_iff] at h
  rcases h with ⟨v, hv, rfl⟩
  rcases List.getElem?_eq_some_iff.1 hv with ⟨hlt, hv⟩
  rw [List.getElem_range] at hv
  subst hv
  refine ⟨owns_firstSstableNum w, fun hphase => ?_⟩
  by_contra hpos
  simp [WorkerState.start, hpos] at hphase

theorem InRange.post {s : State cfg} (hr : InRange s) (w : ℕ) (m : Message) :
    InRange (s.post w m) := by
  intro v x hx
  rcases post_worker_cases hx with ⟨ws, hws, rfl | ⟨-, rfl⟩⟩
  · exact hr v x hws
  · exact hr v ws hws

theorem inRange_step {s s' : State cfg} {e : Event cfg} (hr : InRange s)
    (h : step s e = .ok s') : InRange s' := by
  cases step_result h with
  | unchanged => exact hr
  | reported => exact hr.post _ _
  | announced => exact hr.post _ _
  | outside => exact hr
  | turned hws hturn =>
      rcases hturn.worker hws with ⟨ws', hs', hi, hp⟩
      intro v x hx
      rw [hs'] at hx
      rcases set_worker_cases hx with ⟨rfl, rfl⟩ | ⟨-, hx⟩
      · exact ⟨hi (hr v _ hws).1, fun hinit => (hr v _ hws).2 (hp hinit)⟩
      · exact hr v x hx

/-! ## How far the owners of an SSTable are -/

/-- SSTable `n` has an owner in one of the phases `P`. -/
def State.OwnedIn (s : State cfg) (P : Phase → Prop) (n : ℕ) : Prop :=
  ∃ w ws, s.workers[w]? = some ws ∧ P ws.phase ∧ cfg.owns w n

section

variable {s : State cfg} {w n k : ℕ} {ws ws' : WorkerState} {o : Outcome cfg} {P : Phase → Prop}

/-- A worker that does not leave the phases `P` leaves no SSTable without an owner in one of
them. -/
theorem State.OwnedIn.setWorker (h : s.OwnedIn P k) (hw : s.workers[w]? = some ws)
    (hp : P ws.phase → P ws'.phase) : (s.setWorker w ws').OwnedIn P k := by
  have hlen : w < s.workers.length := (List.getElem?_eq_some_iff.1 hw).1
  rcases h with ⟨v, x, hx, hphase, hown⟩
  by_cases hv : w = v
  · subst hv
    rw [hw] at hx
    cases hx
    exact ⟨w, ws', List.getElem?_set_self hlen, hp hphase, hown⟩
  · exact ⟨v, x, (List.getElem?_set_ne hv).trans hx, hphase, hown⟩

/-- Only the worker itself can be a new owner. -/
theorem ownedIn_of_setWorker (h : (s.setWorker w ws').OwnedIn P k) :
    s.OwnedIn P k ∨ (P ws'.phase ∧ cfg.owns w k) := by
  rcases h with ⟨v, x, hx, hphase, hown⟩
  rcases set_worker_cases hx with ⟨rfl, rfl⟩ | ⟨-, hx⟩
  · exact .inr ⟨hphase, hown⟩
  · exact .inl ⟨v, x, hx, hphase, hown⟩

theorem ownedIn_setWorker (hw : s.workers[w]? = some ws) (hp : P ws'.phase ↔ P ws.phase) :
    (s.setWorker w ws').OwnedIn P k ↔ s.OwnedIn P k := by
  constructor
  · intro h
    rcases ownedIn_of_setWorker h with hold | ⟨hphase, hown⟩
    · exact hold
    · exact ⟨w, ws, hw, hp.1 hphase, hown⟩
  · intro h
    exact h.setWorker hw hp.2

theorem ownedIn_turn (hw : s.workers[w]? = some ws) (hp : P ws'.phase ↔ P ws.phase) :
    ((s.apply w n o).setWorker w ws').OwnedIn P k ↔ s.OwnedIn P k :=
  ownedIn_setWorker (s := s.apply w n o) hw hp

theorem ownedIn_post (m : Message) : (s.post w m).OwnedIn P k ↔ s.OwnedIn P k := by
  constructor
  · rintro ⟨v, x, hx, hphase, hown⟩
    rcases post_worker_cases hx with ⟨ws, hws, rfl | ⟨-, rfl⟩⟩
    · exact ⟨v, x, hws, hphase, hown⟩
    · exact ⟨v, ws, hws, hphase, hown⟩
  · rintro ⟨v, x, hx, hphase, hown⟩
    have hget : (s.post w m).workers[v]? = some (if w = v then x.receive m else x) := by
      simp [State.post, List.getElem?_modify, hx]
    refine ⟨v, _, hget, ?_, hown⟩
    split_ifs
    · exact hphase
    · exact hphase

theorem ownedIn_report (i : ℕ) (c : Chain) (cqes : List Cqe) :
    (s.report i c cqes).OwnedIn P k ↔ s.OwnedIn P k :=
  ownedIn_post (.done c)

/-- An SSTable that a worker still initializes has no other owner. -/
theorem not_ownedIn_of_init (hr : InRange s) (hw : s.workers[w]? = some ws)
    (hphase : ws.phase = .init) (hown : cfg.owns w n) (hP : ¬ P .init) : ¬ s.OwnedIn P n := by
  rintro ⟨v, x, hx, hx', hv⟩
  rw [owns_unique ((hr w ws hw).2 hphase) hv hown, hw] at hx
  cases hx
  rw [hphase] at hx'
  exact hP hx'

end

end Worker

end RingDB
