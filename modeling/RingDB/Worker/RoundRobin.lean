import RingDB.Worker.BatchOrder

/-!
# How long a batch waits

In the main loop a worker takes its SSTables in turn, two turns for each of them: it looks at its
scheduler ring, then it visits the SSTable.  Which message it finds, what a visit does and what the
other threads do in between changes nothing in this order.  The wait queues are those of a single
thread, lists to which the others append.

* `turnsUntilVisit` — how many turns of its own a worker needs until it has visited an SSTable.
* `Progress` — what is counted along a run.
* **`waits_at_most`** — a batch with `j` batches before it in the wait queue is taken within `j + 1`
  rounds of its worker, if the SSTable does not wait whenever it is visited.
-/

namespace RingDB

open Core

variable {cfg : Config}

/-- How many SSTables the loops of worker `w` visit. -/
def Config.numOwned (cfg : Config) (w : ℕ) : ℕ :=
  cfg.secondSstableNum w - cfg.firstSstableNum w + 1

namespace WorkerState

/-- How many turns of its own worker `w` needs in the main loop until it has visited SSTable `n`. -/
def turnsUntilVisit (cfg : Config) (w n : ℕ) (ws : WorkerState) : ℕ :=
  2 * (if ws.i ≤ n then n - ws.i else n + cfg.numOwned w - ws.i) +
    match ws.turn with
    | .peek => 2
    | .visit => 1

section

variable {w n : ℕ} {ws : WorkerState}

theorem turnsUntilVisit_pos : 1 ≤ ws.turnsUntilVisit cfg w n := by
  unfold turnsUntilVisit
  cases ws.turn <;> dsimp only <;> omega

/-- No SSTable of the worker is further away than a round. -/
theorem turnsUntilVisit_le (hi : cfg.owns w ws.i) (hn : cfg.owns w n) :
    ws.turnsUntilVisit cfg w n ≤ 2 * cfg.numOwned w := by
  rcases hi with ⟨hi, hi'⟩
  rcases hn with ⟨hn, hn'⟩
  unfold turnsUntilVisit Config.numOwned
  cases ws.turn <;> split_ifs <;> simp only <;> omega

theorem turnsUntilVisit_peek (hturn : ws.turn = .peek) (scheduler : List Message) :
    ({ ws with turn := .visit, scheduler } : WorkerState).turnsUntilVisit cfg w n + 1
      = ws.turnsUntilVisit cfg w n := by
  simp only [turnsUntilVisit, hturn]

/-- The visit of the SSTable itself begins a new round. -/
theorem turnsUntilVisit_advance_self (hturn : ws.turn = .visit) (hn : cfg.owns w ws.i) :
    ws.turnsUntilVisit cfg w ws.i = 1 ∧
      (ws.advance cfg w).turnsUntilVisit cfg w ws.i = 2 * cfg.numOwned w := by
  rcases hn with ⟨hn, hn'⟩
  constructor
  · simp [turnsUntilVisit, hturn]
  · simp only [turnsUntilVisit, advance, Config.numOwned]
    split_ifs <;> omega

/-- The visit of another one brings it nearer. -/
theorem turnsUntilVisit_advance_ne (hturn : ws.turn = .visit) (hi : cfg.owns w ws.i)
    (hn : cfg.owns w n) (hne : ws.i ≠ n) :
    (ws.advance cfg w).turnsUntilVisit cfg w n + 1 = ws.turnsUntilVisit cfg w n := by
  rcases hi with ⟨hi, hi'⟩
  rcases hn with ⟨hn, hn'⟩
  simp only [turnsUntilVisit, advance, hturn, Config.numOwned]
  split_ifs <;> omega

end

end WorkerState

namespace Worker

/-! ## The wait queue in a turn -/

section

variable {heap : Heap cfg} {mem : Memory} {fuel level : ℕ} {transfers : Transfers cfg}
  {t : SSTableInfo cfg} {o : Outcome cfg}

theorem visitBatch_queue {b : RequestBatch cfg}
    (h : visitBatch heap mem fuel transfers level b t = .ok o) :
    o.table.reqBatchWq = t.reqBatchWq := by
  unfold visitBatch at h
  split_ifs at h
  · cases h
    rfl
  · rcases bind_eq_ok.1 h with ⟨stack, -, h⟩
    rcases bind_eq_ok.1 h with ⟨r, hr, h⟩
    cases h
    exact (SSTableInfo.tryRead_untouched hr).reqBatchWq
  all_goals
    cases h
    rfl

/-- A visit takes the first batch of the queue, if there is one, unless the SSTable waits. -/
theorem visitTable_queue (h : visitTable heap mem fuel transfers level t = .ok o) :
    o.table.reqBatchWq = if t.waitingOnIo then t.reqBatchWq else t.reqBatchWq.tail := by
  unfold visitTable at h
  split_ifs at h with hw
  · cases h
    rw [if_pos hw]
  · rw [if_neg hw]
    split at h
    · next hq =>
        cases h
        rw [(visitIdle_batches _).1, hq]
        rfl
    · next p rest hq =>
        rcases bind_eq_ok.1 h with ⟨b, -, h⟩
        rw [visitBatch_queue h, hq]
        rfl

theorem mainHandler_queue (h : mainHandler heap mem fuel level t = .ok o) :
    o.table.reqBatchWq = t.reqBatchWq := by
  rcases mainHandler_cases h with ⟨-, rfl⟩ | ⟨-, t₁, r, htake, hr, rfl⟩
  · rfl
  · rcases bind_eq_ok.1 htake with ⟨helper, -, ht₁⟩
    cases ht₁
    have hread := (SSTableInfo.tryRead_untouched hr).reqBatchWq
    exact hread

end

section

variable {s s' : State cfg} {w n : ℕ} {ws : WorkerState} {t : SSTableInfo cfg}

/-- The queue of an SSTable after a turn that handles SSTable `m`. -/
theorem queue_apply {m : ℕ} {u : SSTableInfo cfg} {o : Outcome cfg} {ws' : WorkerState}
    (taken : List ℕ) (hu : s.tables[m]? = some u) (hq : u.reqBatchWq = taken ++ o.table.reqBatchWq)
    (ht : s.tables[n]? = some t) :
    ∃ t' new, ((s.apply w m o).setWorker w ws').tables[n]? = some t' ∧
      t.reqBatchWq = new ++ t'.reqBatchWq := by
  have hlen := (List.getElem?_eq_some_iff.1 hu).1
  by_cases hmn : m = n
  · subst hmn
    rw [hu] at ht
    cases ht
    exact ⟨o.table, taken, List.getElem?_set_self hlen, hq⟩
  · exact ⟨t, [], (List.getElem?_set_ne hmn).trans ht, rfl⟩

/-- **No turn** puts a batch into a queue, and it takes batches from the front. -/
theorem turn_queue (h : TurnResult s w ws s') (ht : s.tables[n]? = some t) :
    ∃ t' new, s'.tables[n]? = some t' ∧ t.reqBatchWq = new ++ t'.reqBatchWq := by
  cases h with
  | stay => exact ⟨t, [], ht, rfl⟩
  | noMessage => exact ⟨t, [], ht, rfl⟩
  | enterMain => exact ⟨t, [], ht, rfl⟩
  | initMessage hphase hpeek hs hu =>
      exact queue_apply [] hu (initHandler_batches _).1.symm ht
  | initVisit hphase hvisit hu =>
      exact queue_apply [] hu (openTable_batches _).1.symm ht
  | mainMessage hphase hpeek hs hu ho =>
      exact queue_apply [] hu (mainHandler_queue ho).symm ht
  | @mainVisit u fuel transfers o hphase hvisit hu ho =>
      have hqueue := visitTable_queue ho
      split_ifs at hqueue
      · exact queue_apply [] hu hqueue.symm ht
      · refine queue_apply (u.reqBatchWq.take 1) hu ?_ ht
        rw [hqueue, ← List.drop_one, List.take_append_drop]

/-- A turn of another worker. -/
theorem turn_worker_ne {v : ℕ} {vs : WorkerState} (h : TurnResult s v vs s')
    (hv : s.workers[v]? = some vs) (hne : v ≠ w) : s'.workers[w]? = s.workers[w]? := by
  rcases h.worker hv with ⟨vs', hworkers, -⟩
  rw [hworkers, List.getElem?_set_ne hne]

end

/-! ## The rounds of a worker -/

/-- A turn of worker `w`. -/
def Event.isTurnOf (w : ℕ) : Event cfg → Bool
  | .run v _ _ => v == w
  | _ => false

/-- Where worker `w` visits SSTable `n`, the SSTable does not wait. -/
def readyAtVisit (w n : ℕ) (s : State cfg) : Event cfg → Bool
  | .run v _ _ =>
      v != w || s.workers[w]?.all fun ws =>
        !(ws.turn == .visit && ws.i == n) || s.tables[n]?.all fun t => !t.waitingOnIo
  | _ => true

/-- After `events` worker `w`, once `start` turns away from the visit of SSTable `n`, has visited it
`visits` times, and so many batches of those that were waiting have been taken, or all of them. -/
structure Progress (w n start : ℕ) (waiting : List ℕ) (events : List (Event cfg)) (s : State cfg)
    (visits : ℕ) (ws : WorkerState) (t : SSTableInfo cfg) (taken : List ℕ) : Prop where
  worker : s.workers[w]? = some ws
  phase : ws.phase = .main
  owns : cfg.owns w ws.i
  table : s.tables[n]? = some t
  queue : waiting ++ events.filterMap (Event.arrival n) = taken ++ t.reqBatchWq
  turns : events.countP (Event.isTurnOf w) + ws.turnsUntilVisit cfg w n
    = visits * (2 * cfg.numOwned w) + start
  taken_ge : min visits waiting.length ≤ taken.length

section

variable {w n start visits : ℕ} {waiting taken : List ℕ} {events : List (Event cfg)}
  {s s' : State cfg} {ws : WorkerState} {t : SSTableInfo cfg} {e : Event cfg}

/-- What is not a turn of the worker: batches may arrive at the SSTable, or be taken by others. -/
theorem Progress.elsewhere (h : Progress w n start waiting events s visits ws t taken)
    {ws' : WorkerState} {t' : SSTableInfo cfg} {new : List ℕ} (he : e.isTurnOf w = false)
    (hworker : s'.workers[w]? = some ws')
    (hsame : ws'.phase = ws.phase ∧ ws'.turn = ws.turn ∧ ws'.i = ws.i)
    (ht' : s'.tables[n]? = some t')
    (hqueue : t.reqBatchWq ++ (Event.arrival n e).toList = new ++ t'.reqBatchWq) :
    Progress w n start waiting (events ++ [e]) s' visits ws' t' (taken ++ new) where
  worker := hworker
  phase := hsame.1.trans h.phase
  owns := hsame.2.2 ▸ h.owns
  table := ht'
  queue := by
    have hone : [e].filterMap (Event.arrival n) = (Event.arrival n e).toList := by
      cases ha : Event.arrival n e <;> simp [ha]
    rw [List.filterMap_append, ← List.append_assoc, h.queue, hone, List.append_assoc, hqueue,
      List.append_assoc]
  turns := by
    have hdist : ws'.turnsUntilVisit cfg w n = ws.turnsUntilVisit cfg w n := by
      simp only [WorkerState.turnsUntilVisit, hsame.2.1, hsame.2.2]
    rw [List.countP_append, List.countP_singleton, he, hdist]
    exact h.turns
  taken_ge := by
    rw [List.length_append]
    exact h.taken_ge.trans (Nat.le_add_right _ _)

/-- A turn of the worker that is not the visit of the SSTable. -/
theorem Progress.nearer (h : Progress w n start waiting events s visits ws t taken)
    {ws' : WorkerState} {t' : SSTableInfo cfg} {new : List ℕ} (he : e.isTurnOf w = true)
    (harrival : Event.arrival n e = none) (hworker : s'.workers[w]? = some ws')
    (hphase : ws'.phase = .main) (howns : cfg.owns w ws'.i)
    (hdist : ws'.turnsUntilVisit cfg w n + 1 = ws.turnsUntilVisit cfg w n)
    (ht' : s'.tables[n]? = some t') (hqueue : t.reqBatchWq = new ++ t'.reqBatchWq) :
    Progress w n start waiting (events ++ [e]) s' visits ws' t' (taken ++ new) where
  worker := hworker
  phase := hphase
  owns := howns
  table := ht'
  queue := by
    have hnone : [e].filterMap (Event.arrival n) = [] := by simp [harrival]
    rw [List.filterMap_append, hnone, List.append_nil, h.queue, hqueue, List.append_assoc]
  turns := by
    have hturns := h.turns
    rw [List.countP_append, List.countP_singleton, he, if_pos rfl]
    omega
  taken_ge := by
    rw [List.length_append]
    exact h.taken_ge.trans (Nat.le_add_right _ _)

/-- **The visit of the SSTable**, where it does not wait. -/
theorem Progress.visited (h : Progress w n start waiting events s visits ws t taken)
    {t' : SSTableInfo cfg} (he : e.isTurnOf w = true) (harrival : Event.arrival n e = none)
    (hturn : ws.turn = .visit) (hi : ws.i = n)
    (hworker : s'.workers[w]? = some (ws.advance cfg w)) (ht' : s'.tables[n]? = some t')
    (hqueue : t'.reqBatchWq = t.reqBatchWq.tail) :
    Progress w n start waiting (events ++ [e]) s' (visits + 1) (ws.advance cfg w) t'
      (taken ++ t.reqBatchWq.take 1) where
  worker := hworker
  phase := h.phase
  owns := advance_owns h.owns
  table := ht'
  queue := by
    have hnone : [e].filterMap (Event.arrival n) = [] := by simp [harrival]
    rw [List.filterMap_append, hnone, List.append_nil, h.queue, hqueue, List.append_assoc,
      ← List.drop_one, List.take_append_drop]
  turns := by
    have hturns := h.turns
    rcases WorkerState.turnsUntilVisit_advance_self hturn h.owns with ⟨hnow, hnext⟩
    rw [hi] at hnow hnext
    rw [List.countP_append, List.countP_singleton, he, if_pos rfl, Nat.add_mul]
    omega
  taken_ge := by
    have htaken := h.taken_ge
    have hqueued := congrArg List.length h.queue
    simp only [List.length_append] at hqueued ⊢
    cases hwq : t.reqBatchWq with
    | nil =>
        -- what was waiting at the beginning has been taken
        rw [hwq] at hqueued
        simp only [List.length_nil, List.take_nil] at hqueued ⊢
        omega
    | cons p rest =>
        simp only [List.take_succ_cons, List.take_zero, List.length_singleton]
        omega

/-- The worker after a turn of its own. -/
theorem Progress.setWorker (h : Progress w n start waiting events s visits ws t taken)
    {u : State cfg} (hu : u.workers = s.workers) (ws' : WorkerState) :
    (u.setWorker w ws').workers[w]? = some ws' := by
  rw [State.setWorker, hu]
  exact List.getElem?_set_self (List.getElem?_eq_some_iff.1 h.worker).1

/-- **A look at the scheduler ring**, with or without a message there. -/
theorem Progress.peek (h : Progress w n start waiting events s visits ws t taken) {fuel : ℕ}
    (he : e.isTurnOf w = true) (harrival : Event.arrival n e = none) (hkind : ws.turn = .peek)
    (hturn : s.mainPeek w fuel ws = .ok s') :
    ∃ ws' t' new, Progress w n start waiting (events ++ [e]) s' visits ws' t' (taken ++ new) := by
  unfold State.mainPeek at hturn
  split at hturn
  · cases hturn
    have hdist := @WorkerState.turnsUntilVisit_peek cfg w n ws hkind ws.scheduler
    exact ⟨_, t, [], h.nearer he harrival (h.setWorker rfl _) h.phase h.owns hdist h.table rfl⟩
  · next m ms hms =>
      rcases bind_eq_ok.1 hturn with ⟨u, hu, hturn⟩
      rcases bind_eq_ok.1 hturn with ⟨o, ho, hturn⟩
      cases hturn
      have hdist := @WorkerState.turnsUntilVisit_peek cfg w n ws hkind ms
      rcases queue_apply (w := w) [] (State.table_eq_ok.1 hu)
        (mainHandler_queue ho).symm h.table with ⟨t', new, ht', hqueue⟩
      exact ⟨_, t', new, h.nearer he harrival (h.setWorker rfl _) h.phase h.owns hdist ht' hqueue⟩

/-- **A visit**, of the SSTable or of another one. -/
theorem Progress.visit (h : Progress w n start waiting events s visits ws t taken) {fuel : ℕ}
    {transfers : Transfers cfg} {u : SSTableInfo cfg} {o : Outcome cfg} (hn : cfg.owns w n)
    (he : e.isTurnOf w = true) (harrival : Event.arrival n e = none) (hkind : ws.turn = .visit)
    (hwait : ws.i = n → t.waitingOnIo = false) (hu : s.tables[ws.i]? = some u) {level : ℕ}
    (ho : visitTable s.heap s.mem fuel transfers level u = .ok o) :
    ∃ visits' t' new, Progress w n start waiting (events ++ [e])
      ((s.apply w ws.i o).setWorker w (ws.advance cfg w)) visits' (ws.advance cfg w) t'
      (taken ++ new) := by
  by_cases hi : ws.i = n
  · have hut : u = t := by
      rw [hi, h.table] at hu
      exact (Option.some.inj hu).symm
    have hqueue := visitTable_queue ho
    rw [hut, hwait hi] at hqueue
    have ht' : (s.apply w ws.i o).tables[n]? = some o.table := by
      rw [hi] at hu ⊢
      exact List.getElem?_set_self (List.getElem?_eq_some_iff.1 hu).1
    exact ⟨visits + 1, o.table, _, h.visited he harrival hkind hi (h.setWorker rfl _) ht' hqueue⟩
  · have hdist := WorkerState.turnsUntilVisit_advance_ne hkind h.owns hn hi
    have ht' : (s.apply w ws.i o).tables[n]? = some t :=
      (List.getElem?_set_ne hi).trans h.table
    exact ⟨visits, t, [], h.nearer he harrival (h.setWorker rfl _) h.phase
      (advance_owns h.owns) hdist ht' rfl⟩

/-- **A turn of the worker.** -/
theorem Progress.turn (h : Progress w n start waiting events s visits ws t taken) {fuel : ℕ}
    {transfers : Transfers cfg} (hn : cfg.owns w n)
    (hready : readyAtVisit w n s (.run w fuel transfers) = true)
    (hturn : s.turn w fuel transfers ws = .ok s') :
    ∃ visits' ws' t' taken',
      Progress w n start waiting (events ++ [.run w fuel transfers]) s' visits' ws' t' taken' := by
  have he : Event.isTurnOf w (.run w fuel transfers : Event cfg) = true := by
    simp [Event.isTurnOf]
  unfold State.turn at hturn
  rw [h.phase] at hturn
  cases hkind : ws.turn with
  | peek =>
      simp only [hkind] at hturn
      rcases h.peek he rfl hkind hturn with ⟨ws', t', new, hnext⟩
      exact ⟨visits, ws', t', taken ++ new, hnext⟩
  | visit =>
      simp only [hkind] at hturn
      rcases bind_eq_ok.1 hturn with ⟨u, hu, hturn⟩
      rcases bind_eq_ok.1 hturn with ⟨o, ho, hturn⟩
      cases hturn
      have hwait : ws.i = n → t.waitingOnIo = false := fun hi => by
        simpa [readyAtVisit, h.worker, h.table, hkind, hi] using hready
      rcases h.visit hn he rfl hkind hwait (State.table_eq_ok.1 hu) ho with
        ⟨visits', t', new, hnext⟩
      exact ⟨visits', _, t', taken ++ new, hnext⟩

/-- Nothing happens. -/
theorem Progress.still (h : Progress w n start waiting events s visits ws t taken)
    (he : e.isTurnOf w = false) (harrival : Event.arrival n e = none) :
    Progress w n start waiting (events ++ [e]) s visits ws t (taken ++ []) :=
  h.elsewhere he h.worker ⟨rfl, rfl, rfl⟩ h.table (by simp [harrival])

/-- A turn of another worker. -/
theorem Progress.foreign (h : Progress w n start waiting events s visits ws t taken) {v : ℕ}
    {vs : WorkerState} (he : e.isTurnOf w = false) (harrival : Event.arrival n e = none)
    (hv : v ≠ w) (hvs : s.workers[v]? = some vs) (hresult : TurnResult s v vs s') :
    ∃ t' taken', Progress w n start waiting (events ++ [e]) s' visits ws t' taken' := by
  rcases turn_queue hresult h.table with ⟨t', new, ht', hqueue⟩
  have hworker := (turn_worker_ne hresult hvs hv).trans h.worker
  refine ⟨t', taken ++ new, h.elsewhere he hworker ⟨rfl, rfl, rfl⟩ ht' ?_⟩
  rw [harrival]
  exact (List.append_nil _).trans hqueue

/-- A message arrives in a scheduler ring. -/
theorem posted (v : ℕ) (m : Message) (hw : s.workers[w]? = some ws) :
    ∃ ws', (s.post v m).workers[w]? = some ws' ∧
      ws'.phase = ws.phase ∧ ws'.turn = ws.turn ∧ ws'.i = ws.i := by
  refine ⟨if v = w then ws.receive m else ws, ?_, ?_⟩
  · simp [State.post, List.getElem?_modify, hw]
  · split_ifs
    · exact ⟨rfl, rfl, rfl⟩
    · exact ⟨rfl, rfl, rfl⟩

/-- An SSTable is changed, but not its queue. -/
theorem modified {m : ℕ} {f : SSTableInfo cfg → SSTableInfo cfg}
    (hf : ∀ t, (f t).reqBatchWq = t.reqBatchWq) (ht : s.tables[n]? = some t) :
    ∃ t', (s.tables.modify m f)[n]? = some t' ∧ t'.reqBatchWq = t.reqBatchWq := by
  refine ⟨if m = n then f t else t, ?_, ?_⟩
  · simp [List.getElem?_modify, ht]
  · split_ifs
    · exact hf t
    · rfl

/-- **The step lemma.** -/
theorem Progress.step (h : Progress w n start waiting events s visits ws t taken)
    (hn : cfg.owns w n) (hready : readyAtVisit w n s e = true) (hstep : step s e = .ok s') :
    ∃ visits' ws' t' taken',
      Progress w n start waiting (events ++ [e]) s' visits' ws' t' taken' := by
  cases e with
  | complete k cqes =>
      simp only [Worker.step] at hstep
      split at hstep
      · cases hstep
        exact ⟨_, _, _, _, h.still rfl rfl⟩
      · next c hc =>
          cases hstep
          split_ifs
          · rcases posted c.worker (.done c) h.worker with ⟨ws', hworker, hsame⟩
            rcases modified (m := c.table) (f := fun t => { t with ring := t.ring ++ cqes })
              (fun _ => rfl) h.table with ⟨t', ht', hqueue⟩
            refine ⟨visits, ws', t', taken ++ [], h.elsewhere rfl hworker hsame ht' ?_⟩
            rw [hqueue]
            exact List.append_nil _
          · exact ⟨_, _, _, _, h.still rfl rfl⟩
  | announce v fd =>
      cases hstep
      split_ifs
      · rcases posted v (.announcement fd) h.worker with ⟨ws', hworker, hsame⟩
        exact ⟨visits, ws', t, taken ++ [],
          h.elsewhere rfl hworker hsame h.table (List.append_nil _)⟩
      · exact ⟨_, _, _, _, h.still rfl rfl⟩
  | arrive m batch =>
      cases hstep
      refine ⟨visits, ws, if m = n then { t with reqBatchWq := t.reqBatchWq ++ [batch] } else t,
        taken ++ [], h.elsewhere rfl h.worker ⟨rfl, rfl, rfl⟩ ?_ ?_⟩
      · simp [List.getElem?_modify, h.table]
      · by_cases hm : m = n
        · simp [Event.arrival, hm]
        · simp [Event.arrival, hm]
  | others heap mem =>
      cases hstep
      exact ⟨visits, ws, t, taken ++ [],
        h.elsewhere rfl h.worker ⟨rfl, rfl, rfl⟩ h.table (List.append_nil _)⟩
  | refill m buffers =>
      cases hstep
      rcases modified (m := m) (f := fun t =>
        { t with
          cache :=
            { t.cache with
              buffers := if buffers.length = t.cache.buffers.length then buffers
                else t.cache.buffers } }) (fun _ => rfl) h.table with ⟨t', ht', hqueue⟩
      refine ⟨visits, ws, t', taken ++ [], h.elsewhere rfl h.worker ⟨rfl, rfl, rfl⟩ ht' ?_⟩
      rw [hqueue]
      exact List.append_nil _
  | run v fuel transfers =>
      simp only [Worker.step] at hstep
      split at hstep
      · cases hstep
        next hnone =>
          have hv : v ≠ w := by
            rintro rfl
            rw [h.worker] at hnone
            cases hnone
          exact ⟨_, _, _, _, h.still (by simp [Event.isTurnOf, hv]) rfl⟩
      · next vs hvs =>
          by_cases hv : v = w
          · subst hv
            rw [h.worker] at hvs
            cases hvs
            exact h.turn hn hready hstep
          · exact ⟨visits, ws, h.foreign (by simp [Event.isTurnOf, hv]) rfl hv hvs
              (turn_result hstep)⟩

end

/-- **No batch waits for long.**  From any state in which worker `w` is in its main loop, in every
run in which it takes `2 * numOwned` turns `m` times over, whatever the other threads do in between:
if SSTable `n` of the worker does not wait where it is visited, then the first `m` batches of its
wait queue have been taken, in their order, or all that were in it.  A batch with `j` batches before
it is taken within `j + 1` rounds. -/
theorem waits_at_most {s s' : State cfg} {events : List (Event cfg)} {w n m : ℕ} {ws : WorkerState}
    {t : SSTableInfo cfg} (hw : s.workers[w]? = some ws) (hphase : ws.phase = .main)
    (hi : cfg.owns w ws.i) (hn : cfg.owns w n) (ht : s.tables[n]? = some t)
    (hready : AttemptsMeet step (fun s e => readyAtVisit w n s e = true) s events)
    (hrun : runEvents step s events = .ok s')
    (hm : m * (2 * cfg.numOwned w) ≤ events.countP (Event.isTurnOf w)) :
    ∃ t' taken, s'.tables[n]? = some t' ∧
      t.reqBatchWq ++ events.filterMap (Event.arrival n) = taken ++ t'.reqBatchWq ∧
      min m t.reqBatchWq.length ≤ taken.length := by
  have hstart : Progress w n (ws.turnsUntilVisit cfg w n) t.reqBatchWq [] s 0 ws t [] :=
    { worker := hw
      phase := hphase
      owns := hi
      table := ht
      queue := List.append_nil _
      turns := by simp
      taken_ge := by simp }
  have hend : ∃ visits' ws' t' taken', Progress w n (ws.turnsUntilVisit cfg w n) t.reqBatchWq
      ([] ++ events) s' visits' ws' t' taken' :=
    run_history
      (I := fun past s => ∃ visits' ws' t' taken',
        Progress w n (ws.turnsUntilVisit cfg w n) t.reqBatchWq past s visits' ws' t' taken')
      (fun _ _ _ _ ⟨_, _, _, _, h⟩ hc hs => h.step hn hc hs) ⟨0, ws, t, [], hstart⟩ hready hrun
  rcases hend with ⟨visits, ws', t', taken, h⟩
  refine ⟨t', taken, h.table, h.queue, ?_⟩
  have hle := WorkerState.turnsUntilVisit_le hi hn
  have hpos := @WorkerState.turnsUntilVisit_pos cfg w n ws'
  have hturns := h.turns
  rw [List.nil_append] at hturns
  -- at most one round is not yet a visit
  have hvisits : m ≤ visits := by
    by_contra hlt
    have hmul := Nat.mul_le_mul_right (2 * cfg.numOwned w) (Nat.lt_of_not_le hlt)
    rw [Nat.succ_mul] at hmul
    omega
  exact (min_le_min_right _ hvisits).trans h.taken_ge

/-- A worker in its main loop, with four SSTables that have been flushed to; two compactions wait at
SSTable 2, on the last level. -/
def twoWaiting : State fourTableConfig where
  tables :=
    (List.replicate 4
      { SSTableInfo.new (Stack.zeroed _) with isFlushedTo := true }).modify 2
        fun t => { t with reqBatchWq := [0, 1] }
  workers := [⟨.main, .peek, 0, 4, []⟩]
  inFlight := []
  submitted := []
  completed := []
  numRead := 4
  isPracticallyFull := true
  handedOver := []
  heap := List.replicate 2 (RequestBatch.zeroed _ .compaction)
  mem := fun _ => 0

/-- After two rounds both have been taken. -/
theorem waits_at_most_twoWaiting :
    ∃ s t, runEvents step twoWaiting (turns 0 16) = .ok s ∧ s.tables[2]? = some t ∧
      ∃ taken, [0, 1] = taken ++ t.reqBatchWq ∧ 2 ≤ taken.length := by
  have hrun : okAnd (runEvents step twoWaiting (turns 0 16)) (fun _ => true) = true := by
    decide +kernel
  have hready : AttemptsMeet step (fun s e => readyAtVisit 0 2 s e = true) twoWaiting
      (turns 0 16) := by
    decide +kernel
  rcases okAnd_iff.1 hrun with ⟨s, hs, -⟩
  rcases waits_at_most (m := 2)
    (show twoWaiting.workers[0]? = some ⟨.main, .peek, 0, 4, []⟩ from rfl) rfl (by decide)
    (by decide)
    (show twoWaiting.tables[2]? = some _ from rfl) hready hs (by decide)
    with ⟨t, taken, ht, hqueue, htaken⟩
  exact ⟨s, t, hs, ht, taken, hqueue, htaken⟩

end Worker

end RingDB
