import RingDB.Worker.Outstanding

/-!
# Does a search keep its batch?

A search is a loop that is left when it has to wait for a read and entered again when the read is
reported.  What it keeps in between is `req_batch`, the traversal stack and `waiting_on_io`: while
requests are on the stack the flag has to be up, so that no visit takes the next batch, and a
search may only be entered again while there are requests on the stack.

The loop itself sees to both (`readLoop_keeps`).  What can go wrong is that it is entered for
another reason: the main loop takes any message for an SSTable whose ring is not empty for the
report of a read, and initialization leaves its completions in the rings.  So the announcement of
the network ring, which stays in the scheduler ring, resumes a search that nobody began.
`traversalCondition` excludes that, and announcements that initialization takes for reports.

* `PopsRequests` — no pass of a search pops an empty stack.
* `StackOk` — the invariant of one SSTable.
* **`keepsBatch_throughout`** — in every run that meets the condition, batches are taken and the
  stack is popped only as they should be.
-/

namespace RingDB

open Core

/-- A chain of reads into the page cache. -/
def ChainKind.isCacheRead : ChainKind → Bool
  | cacheRead _ => true
  | _ => false

namespace SSTableInfo

variable {cfg : Config}

/-- Where a pass of the loop calls `move_down_to_children`, the stack is not empty. -/
def PopsRequests (heap : Heap cfg) : ℕ → Memory → SSTableInfo cfg → Prop
  | 0, _, _ => True
  | fuel + 1, mem, t =>
      (t.endsRequest heap mem = true → t.stack.empty = false) ∧
        ∀ r, t.readPass heap mem = .ok r → (r.table.stack.empty || r.table.waitingOnIo) = false →
          PopsRequests heap fuel r.mem r.table

section

variable {heap : Heap cfg} {mem : Memory} {t : SSTableInfo cfg} {fuel : ℕ} {r : ReadState cfg}

/-- A loop that is entered with a request on the stack goes on only with one. -/
theorem popsRequests_of_nonempty (hs : t.stack.empty = false) : t.PopsRequests heap fuel mem := by
  induction fuel generalizing mem t with
  | zero => trivial
  | succ fuel ih =>
      refine ⟨fun _ => hs, fun r _ hgo => ih ?_⟩
      rw [Bool.or_eq_false_iff] at hgo
      exact hgo.1

/-- It is left with an empty stack or waiting, and a read is submitted for a request only. -/
theorem readLoop_keeps (hs : t.stack.empty = false) (h : readLoop heap fuel mem t = .ok r) :
    (r.table.stack.empty || r.table.waitingOnIo) = true ∧
      (r.issued.isSome = true → r.table.stack.empty = false) := by
  induction fuel generalizing mem t with
  | zero => cases h
  | succ fuel ih =>
      rcases bind_eq_ok.1 h with ⟨r₁, h₁, h⟩
      split_ifs at h with hend
      · cases h
        refine ⟨hend, fun hissued => ?_⟩
        rcases (readPass_cases h₁).2 with ⟨hnone, -⟩ | ⟨-, -, hstack⟩
        · rw [hnone] at hissued
          cases hissued
        · rw [hstack]
          exact hs
      · rw [Bool.not_eq_true, Bool.or_eq_false_iff] at hend
        exact ih hend.1 h

theorem tryRead_keeps (hs : t.stack.empty = false)
    (h : t.trySstableTreeReadInMemory heap fuel mem = .ok r) :
    (r.table.stack.empty = false → r.table.waitingOnIo = true) ∧
      (r.issued.isSome = true → r.table.stack.empty = false) := by
  rcases bind_eq_ok.1 h with ⟨r₁, h₁, h⟩
  rcases readLoop_keeps hs h₁ with ⟨hend, hissued⟩
  cases h
  split_ifs with hempty
  · exact ⟨fun hne => absurd hempty (by simp [hne]), hissued⟩
  · refine ⟨fun hne => ?_, hissued⟩
    rw [hne, Bool.false_or] at hend
    exact hend

end

end SSTableInfo

namespace Worker

variable {cfg : Config}

/-! ## What a turn does with a stack -/

/-- What the turn has left on the stack waits, and only for requests on the stack a read was
submitted. -/
structure Kept (o : Outcome cfg) : Prop where
  waits : o.table.stack.empty = false → o.table.waitingOnIo = true
  reads : o.submitted.countP ChainKind.isCacheRead ≤ if o.table.stack.empty then 0 else 1

section

variable {heap : Heap cfg} {mem : Memory} {fuel level : ℕ} {transfers : Transfers cfg}
  {t : SSTableInfo cfg} {o : Outcome cfg}

theorem kept_outcomeOf {r : SSTableInfo.ReadState cfg} (hs : t.stack.empty = false)
    (h : t.trySstableTreeReadInMemory heap fuel mem = .ok r) : Kept (outcomeOf r) := by
  rcases SSTableInfo.tryRead_keeps hs h with ⟨hwaits, hissued⟩
  refine ⟨hwaits, ?_⟩
  cases hr : r.issued with
  | none => simp [outcomeOf, hr]
  | some reads =>
      rw [hr] at hissued
      simp [outcomeOf, hr, hissued, ChainKind.isCacheRead]

/-- Without a search an empty stack stays empty. -/
theorem kept_of_empty (hs : o.table.stack.empty = true)
    (hsub : o.submitted.countP ChainKind.isCacheRead = 0) : Kept o where
  waits := fun hne => absurd hs (by simp [hne])
  reads := by rw [hsub]; exact Nat.zero_le _

theorem pushTop_nonempty {length : ℕ} {st st' : Stack length} {q : Quad}
    (h : st.pushTop q = .ok st') : st'.empty = false := by
  unfold Stack.pushTop at h
  split_ifs at h
  cases h
  simp [Stack.empty]

theorem visitBatch_kept {b : RequestBatch cfg} (hs : t.stack.empty = true)
    (h : visitBatch heap mem fuel transfers level b t = .ok o) : Kept o := by
  unfold visitBatch at h
  split_ifs at h
  · cases h
    exact kept_of_empty hs rfl
  · rcases bind_eq_ok.1 h with ⟨stack, hpush, h⟩
    rcases bind_eq_ok.1 h with ⟨r, hr, h⟩
    cases h
    exact kept_outcomeOf (pushTop_nonempty hpush) hr
  all_goals
    cases h
    exact kept_of_empty hs rfl

/-- **The visit of an SSTable that does not wait**, with an empty stack. -/
theorem visitTable_kept (hw : t.waitingOnIo = false) (hs : t.stack.empty = true)
    (h : visitTable heap mem fuel transfers level t = .ok o) : Kept o := by
  unfold visitTable at h
  rw [if_neg (by simp [hw])] at h
  split at h
  · cases h
    have hidle : (visitIdle transfers level { t with reqBatch := none }).stack = t.stack := by
      unfold visitIdle
      split_ifs
      · rfl
      · rfl
      · split <;> rfl
    exact kept_of_empty (by rw [hidle]; exact hs) rfl
  · rcases bind_eq_ok.1 h with ⟨b, -, h⟩
    exact visitBatch_kept (by exact hs) h

theorem takeCompletions_stack {t' : SSTableInfo cfg} (h : takeCompletions t = .ok t') :
    t'.stack = t.stack := by
  rcases bind_eq_ok.1 h with ⟨helper, -, h⟩
  cases h
  rfl

theorem initResult_stack (o : Outcome cfg) (j : ℕ) (res : ℤ) :
    (initResult o j res).table.stack = o.table.stack := by
  simp only [initResult]
  split_ifs <;> rfl

/-- Initialization does not touch the stack and reads into no cache. -/
theorem initHandler_stack (t : SSTableInfo cfg) : (initHandler t).table.stack = t.stack ∧
    (initHandler t).submitted.countP ChainKind.isCacheRead = 0 := by
  constructor
  · unfold initHandler
    split
    · rw [initResult_stack, initResult_stack]
    · rfl
  · rw [List.countP_eq_zero]
    intro k hk
    have hinit := (initHandler_outcome t).submitted k hk
    cases k with
    | initRead offset => simp [ChainKind.isCacheRead]
    | openFile => cases hinit
    | cacheRead reads => cases hinit
    | flush => cases hinit

theorem openTable_stack (t : SSTableInfo cfg) : (openTable t).table.stack = t.stack ∧
    (openTable t).submitted.countP ChainKind.isCacheRead = 0 := by
  unfold openTable
  split_ifs
  · exact ⟨rfl, rfl⟩
  · exact ⟨rfl, rfl⟩

end

/-! ## What is claimed of a turn -/

/-- The SSTable on which the next turn of a worker calls `try_sstable_tree_read_in_memory`: a search
is resumed, or one is begun for the batch that was taken. -/
inductive Searches (s : State cfg) (ws : WorkerState) (transfers : Transfers cfg) :
    SSTableInfo cfg → Prop
  | resumed {m : Message} {ms : List Message} {t t₁ : SSTableInfo cfg} : ws.phase = .main →
      ws.turn = .peek → ws.scheduler = m :: ms → s.tables[m.userData]? = some t → t.ring ≠ [] →
      takeCompletions t = .ok t₁ → Searches s ws transfers t₁
  | begun {t : SSTableInfo cfg} {p : ℕ} {rest : List ℕ} {b : RequestBatch cfg}
      {stack : Stack cfg.maxSstableHeight} : ws.phase = .main → ws.turn = .visit →
      s.tables[ws.i]? = some t → t.waitingOnIo = false → t.reqBatchWq = p :: rest →
      s.heap.deref p = .ok b → b.reqType = .read →
      (b.readwritePool.presentInLevel && t.isFlushedTo) = true →
      t.stack.pushTop (0, b.readwritePool.entries.length / 2, 0, b.readwritePool.entries.length)
        = .ok stack →
      Searches s ws transfers { t with
        reqBatchWq := rest
        reqBatch := some p
        cache := transfers.addBuffers t.cache
        desiredSstableOffset := 0
        stack }

/-- The next batch is taken where the stack is empty, and `move_down_to_children` pops where it is
not. -/
def KeepsBatch (s : State cfg) : Event cfg → Prop
  | .run w fuel transfers => ∀ ws, s.workers[w]? = some ws →
      (ws.phase = .main → ws.turn = .visit → ∀ t, s.tables[ws.i]? = some t →
        t.waitingOnIo = false → t.stack.empty = true) ∧
      ∀ t, Searches s ws transfers t → t.PopsRequests s.heap fuel s.mem
  | _ => True

/-- The condition on an event: initialization handles reports only, and the main loop finds
completions in the ring of an SSTable only if the message reports a cache read of it. -/
def traversalCondition (s : State cfg) : Event cfg → Bool
  | .run w _ _ =>
      match s.workers[w]? with
      | none => true
      | some ws =>
          match ws.phase, ws.turn, ws.scheduler with
          | .init, .peek, m :: _ => m.chain?.isSome
          | .main, .peek, m :: _ =>
              (s.tables[m.userData]?.all fun t => t.ring.isEmpty) ||
                m.chain?.any (·.kind.isCacheRead)
          | _, _, _ => true
  | _ => true

/-! ## The invariant -/

/-- Requests on the stack of a served SSTable wait, and at most one read is outstanding for them,
and none for an empty stack. -/
structure StackOk (s : State cfg) (n : ℕ) (t : SSTableInfo cfg) : Prop where
  waits : t.stack.empty = false → t.waitingOnIo = true ∧ s.Served n
  reads : s.countOf ChainKind.isCacheRead n ≤ if t.stack.empty then 0 else 1

structure StackInvariant (s : State cfg) : Prop where
  inRange : InRange s
  owned : Owned s
  tables : ∀ n t, s.tables[n]? = some t → StackOk s n t

theorem StackOk.mono {s s' : State cfg} {n : ℕ} {t t' : SSTableInfo cfg} (h : StackOk s n t)
    (hstack : t'.stack = t.stack) (hwaits : t.waitingOnIo = true → t'.waitingOnIo = true)
    (hserved : s.Served n → s'.Served n)
    (hcount : s'.countOf ChainKind.isCacheRead n ≤ s.countOf ChainKind.isCacheRead n) :
    StackOk s' n t' := by
  constructor
  · intro hne
    rw [hstack] at hne
    rcases h.waits hne with ⟨hw, hs⟩
    exact ⟨hwaits hw, hserved hs⟩
  · rw [hstack]
    exact hcount.trans h.reads

/-- An SSTable that does not wait has an empty stack. -/
theorem StackOk.empty {s : State cfg} {n : ℕ} {t : SSTableInfo cfg} (h : StackOk s n t)
    (hw : t.waitingOnIo = false) : t.stack.empty = true := by
  rw [← Bool.not_eq_false]
  intro hne
  rw [(h.waits hne).1] at hw
  cases hw

theorem stackInvariant_start (slots : ℕ → Stack cfg.maxSstableHeight) (heap : Heap cfg)
    (mem : Memory) : StackInvariant (State.start slots heap mem) := by
  refine ⟨inRange_start slots heap mem, owned_start slots heap mem, fun n t ht => ?_⟩
  simp only [State.start, List.getElem?_map, Option.map_eq_some_iff] at ht
  rcases ht with ⟨v, -, rfl⟩
  refine ⟨fun hne => (by cases hne), ?_⟩
  have hnone : (State.start slots heap mem).outstanding = [] := by
    refine List.eq_nil_iff_forall_not_mem.2 fun c hc => ?_
    rcases mem_inTransit.1 hc with hc | ⟨ws, hws, hc⟩
    · cases hc
    · rcases List.getElem?_of_mem hws with ⟨w, hw⟩
      simp [WorkerState.reported, (start_worker hw).2] at hc
  rw [State.countOf, hnone]
  exact Nat.zero_le _

/-! ## The turns keep it -/

section

variable {s s' : State cfg} {w n : ℕ} {ws ws' : WorkerState} {o : Outcome cfg} {t : SSTableInfo cfg}

/-- A turn concerns the stack of one SSTable: the one it submits for, which is also the one that
the message it takes out names. -/
theorem tables_turn (hinv : StackInvariant s) (hw : s.workers[w]? = some ws)
    (hp : ws'.phase = .main ↔ ws.phase = .main)
    (hcount : ∀ k, k ≠ n → ws.reported.countP (Chain.isOf ChainKind.isCacheRead k)
      = ws'.reported.countP (Chain.isOf ChainKind.isCacheRead k))
    (hn : StackOk ((s.apply w n o).setWorker w ws') n o.table) :
    ∀ k t', ((s.apply w n o).setWorker w ws').tables[k]? = some t' →
      StackOk ((s.apply w n o).setWorker w ws') k t' := by
  intro k t' ht'
  rcases table_turn ht' with ⟨rfl, rfl⟩ | ⟨hk, ht⟩
  · exact hn
  · exact (hinv.tables k t' ht).mono rfl id (ownedIn_turn hw hp).2
      (countOf_turn_ne ChainKind.isCacheRead hw hk (hcount k hk)).le

/-- A turn that leaves the stack alone, and submits no reads for it. -/
theorem stackOk_still (hinv : StackInvariant s) (hw : s.workers[w]? = some ws)
    (hp : ws'.phase = .main ↔ ws.phase = .main) (ht : s.tables[n]? = some t)
    (hstack : o.table.stack = t.stack) (hsub : o.submitted.countP ChainKind.isCacheRead = 0)
    (hle : ws'.reported.countP (Chain.isOf ChainKind.isCacheRead n)
      ≤ ws.reported.countP (Chain.isOf ChainKind.isCacheRead n))
    (hwaits : t.stack.empty = false → o.table.waitingOnIo = true) :
    StackOk ((s.apply w n o).setWorker w ws') n o.table := by
  have hok := hinv.tables n t ht
  have hturn := @countOf_turn _ ChainKind.isCacheRead s w n n ws ws' o hw
  rw [if_pos rfl, hsub] at hturn
  constructor
  · intro hne
    rw [hstack] at hne
    exact ⟨hwaits hne, (ownedIn_turn hw hp).2 (hok.waits hne).2⟩
  · rw [hstack]
    exact le_trans (by omega) hok.reads

/-- A search that was resumed for the report of its read, or begun with an empty stack: the reads
that were outstanding before are none now. -/
theorem stackOk_searched (hw : s.workers[w]? = some ws) (hp : ws'.phase = .main ↔ ws.phase = .main)
    (hserved : s.Served n) (hkept : Kept o)
    (hcount : s.countOf ChainKind.isCacheRead n
        + ws'.reported.countP (Chain.isOf ChainKind.isCacheRead n)
      ≤ ws.reported.countP (Chain.isOf ChainKind.isCacheRead n)) :
    StackOk ((s.apply w n o).setWorker w ws') n o.table := by
  have hturn := @countOf_turn _ ChainKind.isCacheRead s w n n ws ws' o hw
  rw [if_pos rfl] at hturn
  exact ⟨fun hne => ⟨hkept.waits hne, (ownedIn_turn hw hp).2 hserved⟩,
    le_trans (by omega) hkept.reads⟩

/-- Taking a message out of the ring leaves no more reports there. -/
theorem countP_taken_le {m : Message} {ms : List Message} (hs : ws.scheduler = m :: ms)
    (hs' : ws'.scheduler = ms) :
    ws'.reported.countP (Chain.isOf ChainKind.isCacheRead n)
      ≤ ws.reported.countP (Chain.isOf ChainKind.isCacheRead n) := by
  rw [countP_reported_cons _ hs hs']
  exact Nat.le_add_left _ _

/-- A read that is reported was submitted for a request on the stack. -/
theorem StackInvariant.nonempty_of_report (hinv : StackInvariant s) {c : Chain} {ms : List Message}
    (hw : s.workers[w]? = some ws) (hs : ws.scheduler = .done c :: ms)
    (ht : s.tables[c.table]? = some t) (hread : c.kind.isCacheRead = true) :
    t.stack.empty = false := by
  have hmem : c ∈ s.outstanding := mem_outstanding hw (by simp [hs])
  have hpos : 0 < s.countOf ChainKind.isCacheRead c.table :=
    List.countP_pos_iff.2 ⟨c, hmem, by simp [Chain.isOf, hread]⟩
  have hreads := (hinv.tables c.table t ht).reads
  rw [← Bool.not_eq_true]
  intro hempty
  rw [hempty, if_pos rfl] at hreads
  omega

/-- A report that initialization handles. -/
theorem stacks_initMessage (hinv : StackInvariant s) (hw : s.workers[w]? = some ws) {c : Chain}
    {ms : List Message} (hphase : ws.phase = .init) (hown : cfg.owns w c.table)
    (hs : ws.scheduler = .done c :: ms) (ht : s.tables[c.table]? = some t)
    (hs' : ws'.scheduler = ms) (hp' : ws'.phase = .init) :
    ∀ k t', ((s.apply w c.table (initHandler t)).setWorker w ws').tables[k]? = some t' →
      StackOk ((s.apply w c.table (initHandler t)).setWorker w ws') k t' := by
  have hp : ws'.phase = .main ↔ ws.phase = .main := by rw [hp', hphase]
  rcases initHandler_stack t with ⟨hstack, hsub⟩
  refine tables_turn hinv hw hp (fun k hk => countP_taken_ne _ hs hs' hk) ?_
  refine stackOk_still hinv hw hp ht hstack hsub (countP_taken_le hs hs') fun hne => ?_
  -- an SSTable that is still initialized has no other owner, so no search was begun
  have hserved : ¬ s.Served c.table := not_ownedIn_of_init hinv.inRange hw hphase hown (by simp)
  exact absurd ((hinv.tables c.table t ht).waits hne).2 hserved

/-- The open of a file. -/
theorem stacks_initVisit (hinv : StackInvariant s) (hw : s.workers[w]? = some ws)
    (hphase : ws.phase = .init) (ht : s.tables[ws.i]? = some t)
    (hs' : ws'.scheduler = ws.scheduler) (hp' : ws'.phase ≠ .main) :
    ∀ k t', ((s.apply w ws.i (openTable t)).setWorker w ws').tables[k]? = some t' →
      StackOk ((s.apply w ws.i (openTable t)).setWorker w ws') k t' := by
  have hp : ws'.phase = .main ↔ ws.phase = .main := by simp [hp', hphase]
  have hsame : ws'.reported = ws.reported := by simp only [WorkerState.reported, hs']
  rcases openTable_stack t with ⟨hstack, hsub⟩
  refine tables_turn hinv hw hp (fun k _ => by rw [hsame]) ?_
  refine stackOk_still hinv hw hp ht hstack hsub (by rw [hsame]) fun hne => ?_
  rw [(openTable_outcome t).1]
  exact ((hinv.tables ws.i t ht).waits hne).1

/-- What was served before a worker enters the main loop is served behind it. -/
theorem stacks_enterMain (hinv : StackInvariant s) (hw : s.workers[w]? = some ws) {k : ℕ}
    (ht : s.tables[k]? = some t) :
    StackOk (s.setWorker w { ws with phase := .main }) k t := by
  refine (hinv.tables k t ht).mono rfl id ?_ (Nat.le_of_eq (countOf_setWorker _ hw rfl))
  intro hserved
  exact hserved.setWorker hw fun _ => rfl

/-- A visit in the main loop: an SSTable that waits is left alone, and one that does not has an
empty stack. -/
theorem stacks_mainVisit (hinv : StackInvariant s) (hw : s.workers[w]? = some ws)
    (hphase : ws.phase = .main) (ht : s.tables[ws.i]? = some t) {fuel level : ℕ}
    {transfers : Transfers cfg} (ho : visitTable s.heap s.mem fuel transfers level t = .ok o)
    (hs' : ws'.scheduler = ws.scheduler) (hp' : ws'.phase = .main) :
    ∀ k t', ((s.apply w ws.i o).setWorker w ws').tables[k]? = some t' →
      StackOk ((s.apply w ws.i o).setWorker w ws') k t' := by
  have hp : ws'.phase = .main ↔ ws.phase = .main := by rw [hp', hphase]
  have hsame : ws'.reported = ws.reported := by simp only [WorkerState.reported, hs']
  have hok := hinv.tables ws.i t ht
  refine tables_turn hinv hw hp (fun k _ => by rw [hsame]) ?_
  by_cases hwait : t.waitingOnIo = true
  · have hleft : o = { table := t } := by
      simp only [visitTable, hwait, if_true] at ho
      cases ho
      rfl
    rw [hleft]
    exact stackOk_still hinv hw hp ht rfl rfl (by rw [hsame]) fun hne => (hok.waits hne).1
  · rw [Bool.not_eq_true] at hwait
    have hempty := hok.empty hwait
    have hreads := hok.reads
    rw [hempty, if_pos rfl] at hreads
    have hserved : s.Served ws.i := ⟨w, ws, hw, hphase, (hinv.inRange w ws hw).1⟩
    refine stackOk_searched hw hp hserved (visitTable_kept hwait hempty ho) ?_
    rw [hsame]
    omega

/-- **A message that the main loop handles** where the condition is met. -/
theorem stacks_mainMessage (hinv : StackInvariant s) {fuel : ℕ} {m : Message}
    {ms : List Message} (hw : s.workers[w]? = some ws) (hphase : ws.phase = .main)
    (hs : ws.scheduler = m :: ms) (ht : s.tables[m.userData]? = some t)
    (hc : t.ring ≠ [] → ∃ c, m = .done c ∧ c.kind.isCacheRead = true)
    (ho : mainHandler s.heap s.mem fuel (m.userData / cfg.levelFactor) t = .ok o)
    (hs' : ws'.scheduler = ms) (hp' : ws'.phase = .main) :
    ∀ k t', ((s.apply w m.userData o).setWorker w ws').tables[k]? = some t' →
      StackOk ((s.apply w m.userData o).setWorker w ws') k t' := by
  have hp : ws'.phase = .main ↔ ws.phase = .main := by rw [hp', hphase]
  have hok := hinv.tables m.userData t ht
  refine tables_turn hinv hw hp (fun k hk => countP_taken_ne _ hs hs' hk) ?_
  rcases mainHandler_cases ho with ⟨-, rfl⟩ | ⟨hring, t₁, r, htake, hread, rfl⟩
  · exact stackOk_still hinv hw hp ht rfl rfl (countP_taken_le hs hs') fun hne => (hok.waits hne).1
  · rcases hc hring with ⟨c, rfl, hread'⟩
    -- the read that is reported was the one outstanding
    have htaken := @countP_reported_cons ChainKind.isCacheRead c.table ws ws' _ _ hs hs'
    have hc' : c.isOf ChainKind.isCacheRead c.table = true := by simp [Chain.isOf, hread']
    simp only [Message.chain?, Option.toList_some, List.countP_singleton, hc', if_true] at htaken
    have hne : t.stack.empty = false := hinv.nonempty_of_report hw hs ht hread'
    have hreads : s.countOf ChainKind.isCacheRead c.table ≤ if t.stack.empty then 0 else 1 :=
      hok.reads
    rw [hne, if_neg Bool.false_ne_true] at hreads
    have hstack : t₁.stack.empty = false := by rw [takeCompletions_stack htake, hne]
    have hserved : s.Served c.table := (hok.waits hne).2
    have hnone : s.countOf ChainKind.isCacheRead c.table
        + ws'.reported.countP (Chain.isOf ChainKind.isCacheRead c.table)
      ≤ ws.reported.countP (Chain.isOf ChainKind.isCacheRead c.table) := by omega
    exact stackOk_searched hw hp hserved (kept_outcomeOf hstack hread) hnone

/-- A turn that meets the condition keeps the invariant. -/
theorem stackInvariant_turn (hinv : StackInvariant s) {fuel : ℕ} {transfers : Transfers cfg}
    (hw : s.workers[w]? = some ws) (hturn : TurnResult s w ws s')
    (hc : traversalCondition s (.run w fuel transfers) = true) (hr : InRange s') :
    StackInvariant s' := by
  simp only [traversalCondition, hw] at hc
  cases hturn with
  | stay => exact hinv
  | noMessage =>
      refine ⟨hr, hinv.owned.setWorker hw fun _ h => h, fun k t ht => ?_⟩
      exact (hinv.tables k t ht).mono rfl id (Iff.mpr (ownedIn_setWorker hw Iff.rfl))
        (Nat.le_of_eq (countOf_setWorker _ hw rfl))
  | @initMessage m ms t hphase hpeek hs ht =>
      simp only [hphase, hpeek, hs] at hc
      cases m with
      | announcement fd => simp [Message.chain?] at hc
      | done c =>
          have hown := (hinv.owned.messages w ws c hw (by simp [hs])).2
          refine ⟨hr, hinv.owned.turn hw (fun _ => hown) fun m hm => ?_, ?_⟩
          · rw [hs]
            exact List.mem_cons_of_mem _ hm
          · exact stacks_initMessage hinv hw hphase hown hs ht rfl hphase
  | initVisit hphase hvisit ht =>
      have hown := (hinv.inRange w ws hw).1
      have hsched := (@advanceInit_keeps cfg w ws).1
      refine ⟨hr, hinv.owned.turn hw (fun _ => hown) fun m hm => hsched ▸ hm, ?_⟩
      exact stacks_initVisit hinv hw hphase ht hsched (advanceInit_ne_main hphase)
  | enterMain hphase hs =>
      refine ⟨hr, hinv.owned.setWorker hw fun _ h => h, fun k t ht => ?_⟩
      exact stacks_enterMain hinv hw ht
  | @mainMessage m ms t _ o hphase hpeek hs ht ho =>
      simp only [hphase, hpeek, hs, ht, Option.all_some, Bool.or_eq_true, List.isEmpty_iff,
        Option.any_eq_true] at hc
      have hsub : o.submitted ≠ [] → cfg.owns w m.userData := by
        intro hne
        rcases mainHandler_cases ho with ⟨-, rfl⟩ | ⟨hring, -⟩
        · exact absurd rfl hne
        · rcases hc.resolve_left hring with ⟨c, hchain, -⟩
          cases m with
          | announcement fd => cases hchain
          | done c => exact (hinv.owned.messages w ws c hw (by simp [hs])).2
      refine ⟨hr, hinv.owned.turn hw hsub fun m' hm' => hs ▸ List.mem_cons_of_mem m hm', ?_⟩
      refine stacks_mainMessage hinv hw hphase hs ht (fun hring => ?_) ho rfl hphase
      rcases hc.resolve_left hring with ⟨c, hchain, hread⟩
      cases m with
      | announcement fd => cases hchain
      | done c' =>
          cases hchain
          exact ⟨c, rfl, hread⟩
  | mainVisit hphase hvisit ht ho =>
      have hown := (hinv.inRange w ws hw).1
      refine ⟨hr, hinv.owned.turn hw (fun _ => hown) fun _ h => h, ?_⟩
      exact stacks_mainVisit hinv hw hphase ht ho rfl hphase

end

/-! ## Every event keeps it -/

section

variable {s s' : State cfg} {e : Event cfg}

/-- What comes from outside changes no stack and no flag. -/
theorem StackInvariant.modify (hinv : StackInvariant s) {n : ℕ} {heap : Heap cfg} {mem : Memory}
    {f : SSTableInfo cfg → SSTableInfo cfg} (hstack : ∀ t, (f t).stack = t.stack)
    (hflag : ∀ t, (f t).waitingOnIo = t.waitingOnIo) :
    StackInvariant { s with tables := s.tables.modify n f, heap, mem } := by
  refine ⟨hinv.inRange, ⟨hinv.owned.inFlight, hinv.owned.messages⟩, fun k t' ht' => ?_⟩
  rw [List.getElem?_modify, Option.map_eq_map, Option.map_eq_some_iff] at ht'
  rcases ht' with ⟨t, ht, rfl⟩
  have hok := hinv.tables k t ht
  split_ifs
  · exact hok.mono (hstack t) (fun hw => (hflag t).trans hw) id le_rfl
  · exact hok.mono rfl id id le_rfl

/-- **The step lemma.** -/
theorem stackInvariant_step (hinv : StackInvariant s) (hc : traversalCondition s e = true)
    (h : step s e = .ok s') : StackInvariant s' := by
  have hr := inRange_step hinv.inRange h
  cases e with
  | complete k cqes =>
      simp only [step] at h
      split at h
      · cases h
        exact hinv
      · next c hk =>
          cases h
          split_ifs
          · refine ⟨?_, hinv.owned.report hk, fun n t' ht' => ?_⟩
            · exact hinv.inRange.post _ _
            · simp only [State.report, List.getElem?_modify, Option.map_eq_map,
                Option.map_eq_some_iff] at ht'
              rcases ht' with ⟨t, ht, rfl⟩
              refine (hinv.tables n t ht).mono ?_ ?_ (ownedIn_report k c cqes).2
                (Nat.le_of_eq (countOf_report _ hinv.owned hk n))
              · split_ifs <;> rfl
              · split_ifs <;> exact id
          · exact hinv
  | announce w fd =>
      cases h
      split_ifs
      · refine ⟨hinv.inRange.post _ _, hinv.owned.post fun c hc => (by cases hc), fun n t ht => ?_⟩
        exact (hinv.tables n t ht).mono rfl id (ownedIn_post _).2
          (Nat.le_of_eq (countOf_announcement _ _ _ n))
      · exact hinv
  | arrive n batch =>
      cases h
      exact hinv.modify (fun _ => rfl) fun _ => rfl
  | others heap mem =>
      cases h
      exact ⟨hinv.inRange, ⟨hinv.owned.inFlight, hinv.owned.messages⟩, fun n t ht =>
        (hinv.tables n t ht).mono rfl id id le_rfl⟩
  | refill n buffers =>
      cases h
      exact hinv.modify (fun _ => rfl) fun _ => rfl
  | run w fuel transfers =>
      simp only [step] at h
      split at h
      · cases h
        exact hinv
      · next ws hws => exact stackInvariant_turn hinv hws (turn_result h) hc hr

/-- In the states of the invariant an event that meets the condition keeps the batches. -/
theorem StackInvariant.keepsBatch (hinv : StackInvariant s) (hc : traversalCondition s e = true) :
    KeepsBatch s e := by
  cases e with
  | run w fuel transfers =>
      intro ws hw
      refine ⟨fun _ _ t ht hwait => (hinv.tables ws.i t ht).empty hwait, fun t₁ hsearch => ?_⟩
      refine SSTableInfo.popsRequests_of_nonempty ?_
      simp only [traversalCondition, hw] at hc
      cases hsearch with
      | @resumed m ms t _ hphase hpeek hs ht hring htake =>
          simp only [hphase, hpeek, hs, ht, Option.all_some, Bool.or_eq_true, List.isEmpty_iff,
            Option.any_eq_true] at hc
          rcases hc.resolve_left hring with ⟨c, hchain, hread⟩
          cases m with
          | announcement fd => cases hchain
          | done c' =>
              cases hchain
              rw [takeCompletions_stack htake]
              exact hinv.nonempty_of_report hw hs ht hread
      | begun _ _ _ _ _ _ _ _ hpush => exact pushTop_nonempty hpush
  | _ => trivial

/-- **A search keeps its batch.**  In every run of the workers, from the start of the threads on,
for any order of arrivals and completions: if the events that are attempted meet the condition, the
next batch of an SSTable is taken only with an empty stack, and no pass of a search pops an empty
one. -/
theorem keepsBatch_throughout {slots : ℕ → Stack cfg.maxSstableHeight} {heap : Heap cfg}
    {mem : Memory} {events : List (Event cfg)}
    (h : AttemptsMeet step (fun s e => traversalCondition s e = true) (State.start slots heap mem)
      events) :
    AttemptsMeet step KeepsBatch (State.start slots heap mem) events :=
  AttemptsMeet.imp (fun _ _ _ hinv hc hs => stackInvariant_step hinv hc hs)
    (fun _ _ hinv hc => hinv.keepsBatch hc) (stackInvariant_start slots heap mem) h

end

/-! ## A search that is resumed, and one that is not -/

/-- Two workers with four SSTables each. -/
def eightTableConfig : Config := resizedConfig 16 2 2 Nat.two_pos two_le_uintMax Nat.two_pos

/-- A batch with one request, which the SSTable it is sent to is said to hold. -/
def singleRead : RequestBatch eightTableConfig :=
  { RequestBatch.zeroed eightTableConfig .read with
    readwritePool := { entries := [⟨.read, 0, 5, 0⟩], presentInLevel := true } }

/-- The workers before their first turn, and two such batches. -/
def eightTables : State eightTableConfig :=
  State.start (fun _ => Stack.zeroed _) [singleRead, singleRead] fun _ => 0

/-- Worker 0 leaves initialization while the file of its SSTable 3 is still being opened, because
its other SSTables are counted after each pair of reads. -/
def hurriedRun : List (Event eightTableConfig) :=
  turns 0 8 ++ List.replicate 3 (.complete 0 [⟨0, 7⟩]) ++ turns 0 8 ++
    List.replicate 3 (fullReads 1) ++ turns 0 8 ++
    List.replicate 3 (fullReads 1) ++ turns 0 8

/-- SSTable 4 of worker 1 is counted twice as well, and the network ring is announced to both
workers. -/
def announcedRun : List (Event eightTableConfig) :=
  turns 1 8 ++ [.complete 4 [⟨0, 7⟩]] ++ turns 1 2 ++ [fullReads 7] ++ turns 1 2 ++
    [fullReads 7] ++ turns 1 2 ++ [.announce 0 3, .announce 1 3]

/-- Worker 0 takes the descriptor 3 for a flush of SSTable 3, gets two batches for it, and searches
it for the first one until a read is submitted. -/
def begunRun : List (Event eightTableConfig) :=
  hurriedRun ++ announcedRun ++ [.arrive 3 0, .arrive 3 1] ++ turns 0 9

/-- The read is reported and the search resumed. -/
def resumedRun : List (Event eightTableConfig) := begunRun ++ [.complete 8 [⟨0, 0⟩]] ++ turns 0 1

/-- The resumed search has its batch, ends it and hands it over. -/
theorem keepsBatch_resumedRun :
    AttemptsMeet step KeepsBatch eightTables resumedRun ∧
      okAnd (runEvents step eightTables resumedRun) (fun s => s.handedOver == [(3, 0)]) = true := by
  have hmeets : AttemptsMeet step (fun s e => traversalCondition s e = true)
      (State.start (fun _ => Stack.zeroed _) [singleRead, singleRead] fun _ => 0)
      resumedRun := by
    decide +kernel
  exact ⟨keepsBatch_throughout hmeets, by decide +kernel⟩

/-- Worker 1 has not left initialization when it comes to its announcement.  By now the file of
SSTable 3 is open and its read has completed, so that there are two completions in its ring, and
worker 1 takes them for an initialization read. -/
def interruptedRun : List (Event eightTableConfig) :=
  begunRun ++ turns 0 7 ++ [.complete 0 [⟨0, 7⟩], .complete 7 [⟨0, 0⟩]] ++ turns 1 1

/-- **The flag of SSTable 3 is down with a request on its stack**, and the next batch replaces the
one that is searched for. -/
theorem interruptedRun_replaces_batch :
    ¬ AttemptsMeet step KeepsBatch eightTables (interruptedRun ++ [.run 0 1 {}]) ∧
      okAnd (runEvents step eightTables (interruptedRun ++ [.run 0 1 {}]))
        (fun s => s.handedOver.isEmpty && s.tables[3]?.any (·.reqBatch == some 1)) = true := by
  refine ⟨fun h => ?_, by decide +kernel⟩
  have hend : okAnd (runEvents step eightTables interruptedRun)
      (fun s => s.workers[0]?.any (fun ws => ws.phase == .main && ws.turn == .visit && ws.i == 3) &&
        s.tables[3]?.any (fun t => !t.waitingOnIo && !t.stack.empty)) = true := by
    decide +kernel
  rcases okAnd_iff.1 hend with ⟨s, hs, hfinal⟩
  simp only [Bool.and_eq_true, Option.any_eq_true, beq_iff_eq, Bool.not_eq_true'] at hfinal
  rcases hfinal with ⟨⟨ws, hws, ⟨hphase, hturn⟩, hi⟩, t, ht, hdown, hstack⟩
  have hempty := (h.next hs ws hws).1 hphase hturn t (by rw [hi]; exact ht) hdown
  rw [hstack] at hempty
  cases hempty

end Worker

end RingDB
