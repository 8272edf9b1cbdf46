import RingDB.Worker.WaitingFlag

/-!
# What a scheduler message is taken for

A message in a scheduler ring is the number of an SSTable and nothing else.  What it reports is
inferred from the completions in the SSTable's own ring: during initialization two of them mean an
initialization read and fewer the opening of the file; in the main loop none mean a flush and some a
cache read.

Nothing consumes completions during initialization.  The completion of the opening is therefore
still there when the first initialization read reports, and it is taken for that of the first half
of the read.

* `ClassifiedRight` — a message is taken for what its SSTable's last chain is, and the completions
  looked at are all of that chain.
* `Opening` — the stages of an SSTable, up to the report of its first initialization read.
* **`classified_iff`** — along a run every message is classified right if and only if every message
  that is handled reports the opening of a file.
-/

namespace RingDB

open Core

namespace Worker

variable {cfg : Config}

/-- What a worker takes a message for. -/
inductive Handling where
  | fileOpen
  | initRead
  | cacheRead
  | flush
  deriving DecidableEq, Repr

namespace Handling

def ofKind : ChainKind → Handling
  | .openFile => fileOpen
  | .initRead _ => initRead
  | .cacheRead _ => cacheRead
  | .flush => flush

/-- Of how many completions `res` or `user_data` is used. -/
def looksAt : Handling → ℕ
  | fileOpen => 1
  | initRead => 2
  | cacheRead => 2
  | flush => 0

end Handling

/-- The decision of the two loops: `io_uring_peek_batch_cqe(…, 2) == 2` during initialization,
`!num_chunks_queued` in the main loop. -/
def handlingOf : Phase → List Cqe → Handling
  | .init, _ :: _ :: _ => .initRead
  | .init, _ => .fileOpen
  | _, [] => .flush
  | _, _ :: _ => .cacheRead

namespace State

/-- The chains submitted for SSTable `n`. -/
def submittedFor (s : State cfg) (n : ℕ) : List Chain := s.submitted.filter (·.table == n)

/-- All completions ever posted to the ring of SSTable `n`, each with the chain it belongs to. -/
def posted (s : State cfg) (n : ℕ) : List (Chain × Cqe) :=
  (s.completed.filter (·.1.table == n)).flatMap fun r => r.2.map (r.1, ·)

/-- The completions in the ring of SSTable `n`, with their chains: as many of the last ones posted,
since the oldest are consumed first. -/
def origins (s : State cfg) (n : ℕ) (ring : List Cqe) : List (Chain × Cqe) :=
  (s.posted n).drop ((s.posted n).length - ring.length)

end State

/-- A message for SSTable `n` is taken for the chain last submitted for it, and the completions
looked at belong to that chain. -/
def ClassifiedRight (s : State cfg) (phase : Phase) (n : ℕ) (ring : List Cqe) : Prop :=
  ∃ c, (s.submittedFor n).getLast? = some c ∧ handlingOf phase ring = .ofKind c.kind ∧
    ∀ x ∈ (s.origins n ring).take (handlingOf phase ring).looksAt, x.1 = c

/-- In this event a worker in one of its two loops takes the message `m` out of its scheduler ring,
which names SSTable `t`. -/
def MessageHandled (s : State cfg) (e : Event cfg) (phase : Phase) (m : Message)
    (t : SSTableInfo cfg) : Prop :=
  ∃ w fuel transfers ws ms, e = .run w fuel transfers ∧ s.workers[w]? = some ws ∧
    ws.phase = phase ∧ phase ≠ .awaitFd ∧ ws.turn = .peek ∧ ws.scheduler = m :: ms ∧
    s.tables[m.userData]? = some t

/-- Every message that is handled is classified right. -/
def MessagesClassified (s : State cfg) (e : Event cfg) : Prop :=
  ∀ phase m t, MessageHandled s e phase m t → ClassifiedRight s phase m.userData t.ring

/-- Every message that is handled reports the opening of a file. -/
def ReportsOpening (s : State cfg) (e : Event cfg) : Prop :=
  ∀ phase m t, MessageHandled s e phase m t → ∃ c, m = .done c ∧ c.kind = .openFile

/-! ## The stages of an SSTable -/

/-- What concerns one SSTable. -/
structure View where
  submitted : List Chain
  inFlight : List Chain
  reported : List Chain
  completed : List (Chain × List Cqe)
  ring : List Cqe
  offset : ℕ

def State.view (s : State cfg) (n : ℕ) (t : SSTableInfo cfg) : View where
  submitted := s.submittedFor n
  inFlight := s.inFlight.filter (·.table == n)
  reported := (s.workers.flatMap WorkerState.reported).filter (·.table == n)
  completed := s.completed.filter (·.1.table == n)
  ring := t.ring
  offset := t.desiredSstableOffset

/-- From the first visit of an SSTable to the report of its first initialization read, with nothing
consumed on the way. -/
inductive Opening : View → Prop
  | untouched : Opening ⟨[], [], [], [], [], sizeMax - 1⟩
  | opening (o : Chain) (ho : o.kind = .openFile) : Opening ⟨[o], [o], [], [], [], 0⟩
  | opened (o : Chain) (x : Cqe) (ho : o.kind = .openFile) :
      Opening ⟨[o], [], [o], [(o, [x])], [x], 0⟩
  | reading (o r : Chain) (x : Cqe) (ho : o.kind = .openFile) (hr : r.kind = .initRead 0) :
      Opening ⟨[o, r], [r], [], [(o, [x])], [x], 0⟩
  | read (o r : Chain) (x y z : Cqe) (ho : o.kind = .openFile) (hr : r.kind = .initRead 0) :
      Opening ⟨[o, r], [], [r], [(o, [x]), (r, [y, z])], [x, y, z], 0⟩

namespace Opening

variable {v : View} {c : Chain} {pre post : List Chain}

theorem eq_of_singleton {d : Chain} (h : [d] = pre ++ c :: post) :
    d = c ∧ pre = [] ∧ post = [] := by
  cases pre with
  | nil =>
      simp only [List.nil_append, List.cons.injEq] at h
      exact ⟨h.1, rfl, h.2.symm⟩
  | cons a pre => simp at h

/-- The first visit. -/
theorem launch (h : Opening v) (hoffset : v.offset = sizeMax - 1) (hc : c.kind = .openFile) :
    Opening { v with
      submitted := v.submitted ++ [c]
      inFlight := v.inFlight ++ [c]
      offset := 0 } := by
  have hvisited : 0 ≠ sizeMax - 1 := by decide
  cases h with
  | untouched => exact .opening c hc
  | opening o ho => exact absurd hoffset hvisited
  | opened o x ho => exact absurd hoffset hvisited
  | reading o r x ho hr => exact absurd hoffset hvisited
  | read o r x y z ho hr => exact absurd hoffset hvisited

/-- A chain completes. -/
theorem report {cqes : List Cqe} {before after : List Chain} (h : Opening v)
    (hflight : v.inFlight = pre ++ c :: post) (hposts : c.kind.posts cqes = true)
    (hreported : v.reported = before ++ after) :
    Opening { v with
      inFlight := pre ++ post
      reported := before ++ c :: after
      completed := v.completed ++ [(c, cqes)]
      ring := v.ring ++ cqes } := by
  cases h with
  | untouched => simp at hflight
  | opening o ho =>
      rcases eq_of_singleton hflight with ⟨rfl, rfl, rfl⟩
      rcases List.append_eq_nil_iff.1 hreported.symm with ⟨rfl, rfl⟩
      rw [ho, ChainKind.posts, beq_iff_eq, List.length_eq_one_iff] at hposts
      rcases hposts with ⟨x, rfl⟩
      exact .opened o x ho
  | opened o x ho => simp at hflight
  | reading o r x ho hr =>
      rcases eq_of_singleton hflight with ⟨rfl, rfl, rfl⟩
      rcases List.append_eq_nil_iff.1 hreported.symm with ⟨rfl, rfl⟩
      rw [hr, ChainKind.posts, beq_iff_eq, List.length_eq_two] at hposts
      rcases hposts with ⟨y, z, rfl⟩
      exact .read o r x y z ho hr
  | read o r x y z ho hr => simp at hflight

/-- What a report can be of. -/
theorem reported_cases (h : Opening v) (hreported : v.reported = pre ++ c :: post) :
    (c.kind = .openFile ∧ ∃ x, v.submitted = [c] ∧ v.completed = [(c, [x])] ∧ v.ring = [x]) ∨
      (c.kind = .initRead 0 ∧ ∃ o x y z, o.kind = .openFile ∧ v.submitted = [o, c] ∧
        v.completed = [(o, [x]), (c, [y, z])] ∧ v.ring = [x, y, z]) := by
  cases h with
  | untouched => simp at hreported
  | opening o ho => simp at hreported
  | opened o x ho =>
      rcases eq_of_singleton hreported with ⟨rfl, -, -⟩
      exact .inl ⟨ho, x, rfl, rfl, rfl⟩
  | reading o r x ho hr => simp at hreported
  | read o r x y z ho hr =>
      rcases eq_of_singleton hreported with ⟨rfl, -, -⟩
      exact .inr ⟨hr, o, x, y, z, ho, rfl, rfl, rfl⟩

/-- There is no other report. -/
theorem alone (h : Opening v) (hreported : v.reported = pre ++ c :: post) :
    pre = [] ∧ post = [] := by
  cases h with
  | untouched => simp at hreported
  | opening o ho => simp at hreported
  | opened o x ho => exact (eq_of_singleton hreported).2
  | reading o r x ho hr => simp at hreported
  | read o r x y z ho hr => exact (eq_of_singleton hreported).2

/-- The report of the opening is handled. -/
theorem take {r : Chain} (h : Opening v) (hreported : v.reported = pre ++ c :: post)
    (hc : c.kind = .openFile) (hr : r.kind = .initRead 0) :
    Opening { v with
      submitted := v.submitted ++ [r]
      inFlight := v.inFlight ++ [r]
      reported := pre ++ post
      offset := 0 } := by
  cases h with
  | untouched => simp at hreported
  | opening o ho => simp at hreported
  | opened o x ho =>
      rcases eq_of_singleton hreported with ⟨rfl, rfl, rfl⟩
      exact .reading o r x ho hr
  | reading o r' x ho hr' => simp at hreported
  | read o r' x y z ho hr' =>
      rcases eq_of_singleton hreported with ⟨rfl, -, -⟩
      rw [hr'] at hc
      cases hc

end Opening

/-! ## What an event does to the view of an SSTable -/

section

variable {s : State cfg} {w n k : ℕ} {ws ws' : WorkerState} {o : Outcome cfg} {t : SSTableInfo cfg}

/-- The chains of one SSTable among those after a submission for another, or for itself. -/
theorem filter_launched (l : List Chain) (w n k : ℕ) (kinds : List ChainKind) :
    (l ++ kinds.map (Chain.mk w n)).filter (·.table == k)
      = l.filter (·.table == k) ++ if n = k then kinds.map (Chain.mk w n) else [] := by
  rw [List.filter_append]
  congr 1
  split_ifs with hk
  · rw [List.filter_eq_self]
    intro c hc
    rcases List.mem_map.1 hc with ⟨kind, -, rfl⟩
    simpa using hk
  · rw [List.filter_eq_nil_iff]
    intro c hc
    rcases List.mem_map.1 hc with ⟨kind, -, rfl⟩
    simpa using hk

/-- The reports around those in the scheduler ring of one worker. -/
theorem exists_reports (hw : s.workers[w]? = some ws) (k : ℕ) :
    ∃ before after, ∀ ws',
      ((s.workers.set w ws').flatMap WorkerState.reported).filter (·.table == k)
        = before ++ ws'.reported.filter (·.table == k) ++ after
      ∧ (s.workers.flatMap WorkerState.reported).filter (·.table == k)
        = before ++ ws.reported.filter (·.table == k) ++ after := by
  rcases exists_split hw with ⟨pre, post, hsplit, -, -, hset⟩
  refine ⟨(pre.flatMap WorkerState.reported).filter (·.table == k),
    (post.flatMap WorkerState.reported).filter (·.table == k), fun ws' => ⟨?_, ?_⟩⟩
  · rw [hset]
    simp [List.flatMap_append, List.filter_append, List.append_assoc]
  · conv_lhs => rw [hsplit]
    simp [List.flatMap_append, List.filter_append, List.append_assoc]

theorem view_setWorker (hw : s.workers[w]? = some ws) (hs : ws'.scheduler = ws.scheduler) :
    (s.setWorker w ws').view n t = s.view n t := by
  rcases exists_reports hw n with ⟨before, after, h⟩
  rcases h ws' with ⟨hnew, hold⟩
  simp only [State.view, State.setWorker, State.submittedFor, hnew, hold, WorkerState.reported, hs]

/-- A turn that submits nothing for SSTable `k` and takes out no report of it. -/
theorem view_turn_other (hw : s.workers[w]? = some ws) (hk : n ≠ k)
    (hs : ws'.reported.filter (·.table == k) = ws.reported.filter (·.table == k)) :
    ((s.apply w n o).setWorker w ws').view k t = s.view k t := by
  rcases exists_reports hw k with ⟨before, after, h⟩
  rcases h ws' with ⟨hnew, hold⟩
  simp only [State.view, State.setWorker, State.apply, State.submittedFor, filter_launched, hk,
    if_false, List.append_nil, hold, hnew, hs]

/-- The message at the head of a scheduler ring, among the reports of its SSTable. -/
theorem exists_reported {c : Chain} {ms : List Message} (hw : s.workers[w]? = some ws)
    (hs : ws.scheduler = .done c :: ms) : ∃ before after,
      (s.workers.flatMap WorkerState.reported).filter (·.table == c.table)
        = before ++ c :: ((ms.filterMap Message.chain?).filter (·.table == c.table) ++ after) ∧
      ∀ ws', ((s.workers.set w ws').flatMap WorkerState.reported).filter (·.table == c.table)
        = before ++ ws'.reported.filter (·.table == c.table) ++ after := by
  rcases exists_reports hw c.table with ⟨before, after, hreports⟩
  refine ⟨before, after, ?_, fun ws' => (hreports ws').1⟩
  rw [(hreports ws).2]
  simp [WorkerState.reported, hs, Message.chain?]

/-- The report of an opening is handled, and the first read submitted. -/
theorem Opening.handled {c : Chain} {ms : List Message} (h : Opening (s.view c.table t))
    (hw : s.workers[w]? = some ws) (hs : ws.scheduler = .done c :: ms)
    (hs' : ws'.scheduler = ms) (hopen : c.kind = .openFile) :
    Opening (((s.apply w c.table
      { table := { t with desiredSstableOffset := 0 }, submitted := [.initRead 0] }).setWorker w
        ws').view c.table { t with desiredSstableOffset := 0 }) := by
  rcases exists_reported hw hs with ⟨before, after, hreported, hnew⟩
  have htaken := h.take (r := ⟨w, c.table, .initRead 0⟩) hreported hopen rfl
  refine cast (congrArg Opening ?_) htaken
  simp [State.view, State.setWorker, State.apply, State.submittedFor, hnew, WorkerState.reported,
    hs']

/-- An SSTable is visited, and its file opened if it was not visited yet. -/
theorem Opening.visited (h : Opening (s.view n t)) (hw : s.workers[w]? = some ws)
    (hs : ws'.scheduler = ws.scheduler) :
    Opening (((s.apply w n (openTable t)).setWorker w ws').view n (openTable t).table) := by
  have hreported : ((s.workers.set w ws').flatMap WorkerState.reported).filter (·.table == n)
      = (s.view n t).reported :=
    congrArg View.reported (view_setWorker (t := t) hw hs)
  unfold openTable
  split_ifs with hfirst
  · have hlaunched := h.launch (c := ⟨w, n, .openFile⟩) hfirst rfl
    refine cast (congrArg Opening ?_) hlaunched
    simp [State.view, State.setWorker, State.apply, State.submittedFor, hreported]
  · refine cast (congrArg Opening ?_) h
    simp only [State.view, State.setWorker, State.apply, State.submittedFor, List.map_nil,
      List.append_nil, hreported]

/-- A chain completes, of this SSTable or of another one. -/
theorem Opening.completed {c : Chain} {cqes : List Cqe} {t' : SSTableInfo cfg}
    (h : Opening (s.view n t)) (hc : s.inFlight[k]? = some c) (hposts : c.kind.posts cqes = true)
    (hw : s.workers[c.worker]? = some ws)
    (ht' : t' = if c.table = n then { t with ring := t.ring ++ cqes } else t) :
    Opening ((s.report k c cqes).view n t') := by
  rcases exists_split hc with ⟨pre, post, hflight, herase, -⟩
  have hworkers : (s.report k c cqes).workers = s.workers.set c.worker (ws.receive (.done c)) := by
    rcases exists_split hw with ⟨_, _, -, -, hmodify, hset⟩
    exact (hmodify _).trans (hset _).symm
  rcases exists_reports hw n with ⟨before, after, hreports⟩
  rcases hreports (ws.receive (.done c)) with ⟨hnew, hold⟩
  have hsame : (s.report k c cqes).view n t' = ⟨s.submittedFor n,
      (pre ++ post).filter (·.table == n),
      before ++ (ws.reported.filter (·.table == n) ++ [c].filter (·.table == n)) ++ after,
      s.completed.filter (·.1.table == n) ++ [(c, cqes)].filter (·.1.table == n), t'.ring,
      t'.desiredSstableOffset⟩ := by
    have hreceived : (ws.receive (.done c)).reported = ws.reported ++ [c] := by
      simp [WorkerState.reported, WorkerState.receive, Message.chain?]
    simp only [State.view, hworkers, hnew, hreceived, List.filter_append]
    simp only [State.report, State.post, State.submittedFor, herase, List.filter_append]
  rw [hsame, ht']
  by_cases hn : c.table = n
  · have hinFlight : (s.view n t).inFlight
        = pre.filter (·.table == n) ++ c :: post.filter (·.table == n) := by
      simp [State.view, hflight, hn]
    have hreported := h.report hinFlight hposts hold
    refine cast (congrArg Opening ?_) hreported
    simp [State.view, hn]
  · refine cast (congrArg Opening ?_) h
    simp [State.view, hn, hflight, hold]

end

/-! ## The invariant -/

/-- As long as no report of an initialization read was handled, every worker initializes, or waits
for the network ring and has no message. -/
structure InitInvariant (s : State cfg) : Prop where
  numRead : s.numRead = 0
  workers : ∀ ws ∈ s.workers,
    (ws.phase = .init ∧ ws.numInitializedRead = 0 ∧ 0 < cfg.workerSstableBatchSize) ∨
      (ws.phase = .awaitFd ∧ ws.scheduler = [])
  reports : ∀ ws ∈ s.workers, ∀ m ∈ ws.scheduler, ∃ c, m = .done c
  flights : ∀ c ∈ s.inFlight, ∃ ws, s.workers[c.worker]? = some ws ∧ ws.phase = .init
  tables : ∀ n t, s.tables[n]? = some t → Opening (s.view n t)

theorem initInvariant_start (slots : ℕ → Stack cfg.maxSstableHeight) (heap : Heap cfg)
    (mem : Memory) : InitInvariant (State.start slots heap mem) := by
  have hworker : ∀ ws ∈ (State.start slots heap mem).workers,
      ∃ w, ws = WorkerState.start cfg w := by
    intro ws hws
    rcases List.mem_map.1 hws with ⟨w, -, rfl⟩
    exact ⟨w, rfl⟩
  refine ⟨rfl, fun ws hws => ?_, fun ws hws m hm => ?_, fun c hc => absurd hc List.not_mem_nil,
    fun n t ht => ?_⟩
  · rcases hworker ws hws with ⟨w, rfl⟩
    by_cases hpos : 0 < cfg.workerSstableBatchSize
    · exact .inl ⟨if_pos hpos, rfl, hpos⟩
    · exact .inr ⟨if_neg hpos, rfl⟩
  · rcases hworker ws hws with ⟨w, rfl⟩
    exact absurd hm List.not_mem_nil
  · simp only [State.start, List.getElem?_map, Option.map_eq_some_iff] at ht
    rcases ht with ⟨v, -, rfl⟩
    have hreported : (State.start slots heap mem).workers.flatMap WorkerState.reported = [] := by
      rw [List.flatMap_eq_nil_iff]
      intro ws hws
      rcases hworker ws hws with ⟨w, rfl⟩
      rfl
    have hview : (State.start slots heap mem).view n (.new (slots v))
        = ⟨[], [], [], [], [], sizeMax - 1⟩ := by
      simp only [State.view, hreported]
      rfl
    rw [hview]
    exact .untouched

section

variable {s s' : State cfg} {w n : ℕ} {ws ws' : WorkerState} {o : Outcome cfg}
  {t : SSTableInfo cfg} {e : Event cfg}

/-- A worker that handles a message is one that initializes. -/
theorem InitInvariant.handled {phase : Phase} {m : Message} (h : InitInvariant s)
    (hm : MessageHandled s e phase m t) :
    phase = .init ∧ ∃ c pre post, m = .done c ∧ s.tables[c.table]? = some t ∧
      (s.view c.table t).reported = pre ++ c :: post := by
  rcases hm with ⟨w, fuel, transfers, ws, ms, -, hws, hphase, hnot, -, hscheduler, ht⟩
  have hmem := List.mem_of_getElem? hws
  have hinit : phase = .init := by
    rcases h.workers ws hmem with ⟨hp, -⟩ | ⟨-, hempty⟩
    · rw [← hphase, hp]
    · rw [hempty] at hscheduler
      cases hscheduler
  rcases h.reports ws hmem m (by rw [hscheduler]; exact List.mem_cons_self) with ⟨c, rfl⟩
  rcases exists_reported hws hscheduler with ⟨before, after, hreported, -⟩
  exact ⟨hinit, c, before, _, rfl, ht, hreported⟩

/-- **Which messages are classified right.** -/
theorem InitInvariant.messagesClassified_iff (h : InitInvariant s) :
    MessagesClassified s e ↔ ReportsOpening s e := by
  have hcases : ∀ {phase m t}, MessageHandled s e phase m t → ∃ c, m = .done c ∧
      (ClassifiedRight s phase m.userData t.ring ↔ c.kind = .openFile) := by
    intro phase m t hm
    rcases h.handled hm with ⟨rfl, c, pre, post, rfl, ht, hreported⟩
    refine ⟨c, rfl, ?_⟩
    rcases (h.tables _ t ht).reported_cases hreported with
      ⟨hopen, x, hsub, hcomp, hring⟩ | ⟨hread, o, x, y, z, ho, hsub, hcomp, hring⟩
    · refine iff_of_true ⟨c, ?_, ?_, ?_⟩ hopen
      · show (s.submittedFor c.table).getLast? = some c
        rw [show s.submittedFor c.table = [c] from hsub]
        rfl
      · rw [show t.ring = [x] from hring, hopen]
        rfl
      · rw [show t.ring = [x] from hring]
        simp only [State.origins, State.posted, Message.userData,
          show s.completed.filter (·.1.table == c.table) = [(c, [x])] from hcomp]
        simp [handlingOf, Handling.looksAt]
    · refine iff_of_false ?_ (by rw [hread]; simp)
      rintro ⟨c', hlast, -, horigins⟩
      -- the first completion in the ring is still that of the opening
      have hc : c' = c := by
        rw [show s.submittedFor (Message.done c).userData = [o, c] from hsub] at hlast
        exact (Option.some.inj hlast).symm
      have hfirst : o = c' := by
        refine horigins (o, x) ?_
        rw [show t.ring = [x, y, z] from hring]
        simp [State.origins, State.posted, Message.userData, handlingOf, Handling.looksAt,
          show s.completed.filter (·.1.table == c.table) = [(o, [x]), (c, [y, z])] from hcomp]
      rw [hfirst, hc, hread] at ho
      cases ho
  constructor
  · intro hC phase m t hm
    rcases hcases hm with ⟨c, rfl, hiff⟩
    exact ⟨c, rfl, hiff.1 (hC phase _ t hm)⟩
  · intro hD phase m t hm
    rcases hcases hm with ⟨c, rfl, hiff⟩
    rcases hD phase _ t hm with ⟨c', heq, hopen⟩
    cases heq
    exact hiff.2 hopen

/-! ## The steps keep it -/

/-- Nothing that concerns the SSTables' files. -/
theorem InitInvariant.congr (h : InitInvariant s) (hworkers : s'.workers = s.workers)
    (hflight : s'.inFlight = s.inFlight) (hsub : s'.submitted = s.submitted)
    (hcomp : s'.completed = s.completed) (hread : s'.numRead = s.numRead)
    (htables : ∀ (n : ℕ) (t' : SSTableInfo cfg), s'.tables[n]? = some t' →
      ∃ t, s.tables[n]? = some t ∧ t'.ring = t.ring ∧
        t'.desiredSstableOffset = t.desiredSstableOffset) : InitInvariant s' := by
  refine ⟨hread.trans h.numRead, ?_, ?_, ?_, fun n t' ht' => ?_⟩
  · rw [hworkers]
    exact h.workers
  · rw [hworkers]
    exact h.reports
  · rw [hworkers, hflight]
    exact h.flights
  · rcases htables n t' ht' with ⟨t, ht, hring, hoffset⟩
    have hview : s'.view n t' = s.view n t := by
      simp only [State.view, State.submittedFor, hworkers, hflight, hsub, hcomp, hring, hoffset]
    rw [hview]
    exact h.tables n t ht

/-- What one worker keeps when it takes a turn, all of them keep. -/
theorem InitInvariant.workers_set (h : InitInvariant s) (hws : s.workers[w]? = some ws)
    (hphase : ws'.phase = ws.phase) (hnum : ws'.numInitializedRead = ws.numInitializedRead)
    (hsub : ∀ m ∈ ws'.scheduler, m ∈ ws.scheduler) :
    (∀ x ∈ s.workers.set w ws', (x.phase = .init ∧ x.numInitializedRead = 0 ∧
        0 < cfg.workerSstableBatchSize) ∨ (x.phase = .awaitFd ∧ x.scheduler = [])) ∧
      (∀ x ∈ s.workers.set w ws', ∀ m ∈ x.scheduler, ∃ c, m = .done c) ∧
      ∀ v : ℕ, (∃ x : WorkerState, s.workers[v]? = some x ∧ x.phase = .init) →
        ∃ x : WorkerState, (s.workers.set w ws')[v]? = some x ∧ x.phase = .init := by
  have hmem := List.mem_of_getElem? hws
  have hlen : w < s.workers.length := (List.getElem?_eq_some_iff.1 hws).1
  refine ⟨fun x hx => ?_, fun x hx m hm => ?_, fun v hv => ?_⟩
  · rcases List.mem_or_eq_of_mem_set hx with hx | rfl
    · exact h.workers x hx
    · rw [hphase, hnum]
      refine (h.workers ws hmem).imp id ?_
      rintro ⟨hawait, hempty⟩
      rw [hempty] at hsub
      exact ⟨hawait, List.eq_nil_iff_forall_not_mem.2 fun m hm =>
        absurd (hsub m hm) List.not_mem_nil⟩
  · rcases List.mem_or_eq_of_mem_set hx with hx | rfl
    · exact h.reports x hx m hm
    · exact h.reports ws hmem m (hsub m hm)
  · rcases hv with ⟨x, hx, hinit⟩
    by_cases hwv : w = v
    · subst hwv
      rw [hws] at hx
      cases hx
      exact ⟨ws', List.getElem?_set_self hlen, hphase.trans hinit⟩
    · exact ⟨x, (List.getElem?_set_ne hwv).trans hx, hinit⟩

/-- A look at an empty scheduler ring. -/
theorem InitInvariant.idle (h : InitInvariant s) (hws : s.workers[w]? = some ws) :
    InitInvariant (s.setWorker w { ws with turn := .visit }) := by
  have hset := @workers_set cfg s w ws { ws with turn := .visit } h hws rfl rfl fun _ hm => hm
  refine ⟨h.numRead, hset.1, hset.2.1, fun c hc => hset.2.2 _ (h.flights c hc), fun n t ht => ?_⟩
  have hview : (s.setWorker w { ws with turn := .visit }).view n t = s.view n t :=
    view_setWorker hws rfl
  rw [hview]
  exact h.tables n t ht

/-- A turn of a worker that initializes, on SSTable `n`. -/
theorem InitInvariant.turn (h : InitInvariant s) (hws : s.workers[w]? = some ws)
    (hinit : ws.phase = .init) (hphase : ws'.phase = ws.phase)
    (hnum : ws'.numInitializedRead = ws.numInitializedRead)
    (hsub : ∀ m ∈ ws'.scheduler, m ∈ ws.scheduler) (hcounted : o.counted = 0)
    (hother : ∀ k, n ≠ k →
      ws'.reported.filter (·.table == k) = ws.reported.filter (·.table == k))
    (hself : Opening (((s.apply w n o).setWorker w ws').view n o.table)) :
    InitInvariant ((s.apply w n o).setWorker w ws') := by
  rcases h.workers_set hws hphase hnum hsub with ⟨hworkers, hreports, hflights⟩
  refine ⟨?_, hworkers, hreports, fun c hc => hflights _ ?_, fun k t' ht' => ?_⟩
  · show (s.numRead + o.counted) % 2 ^ 32 = 0
    simp [h.numRead, hcounted]
  · rcases List.mem_append.1 hc with hc | hc
    · exact h.flights c hc
    · rcases List.mem_map.1 hc with ⟨kind, -, rfl⟩
      exact ⟨ws, hws, hinit⟩
  · rcases table_turn ht' with ⟨rfl, rfl⟩ | ⟨hk, ht⟩
    · exact hself
    · rw [view_turn_other hws hk.symm (hother k hk.symm)]
      exact h.tables k t' ht

/-- The report of an opening is handled: the first read is submitted. -/
theorem InitInvariant.initMessage {c : Chain} {ms : List Message} (h : InitInvariant s)
    (hws : s.workers[w]? = some ws) (hphase : ws.phase = .init)
    (hs : ws.scheduler = .done c :: ms) (ht : s.tables[c.table]? = some t)
    (hopen : c.kind = .openFile) :
    InitInvariant ((s.apply w c.table (initHandler t)).setWorker w
      { ws with
        turn := .visit
        scheduler := ms
        numInitializedRead := ws.numInitializedRead + (initHandler t).counted }) := by
  rcases exists_reported hws hs with ⟨before, after, hreported, -⟩
  have hstage := h.tables c.table t ht
  have hhandler : initHandler t
      = { table := { t with desiredSstableOffset := 0 }, submitted := [.initRead 0] } := by
    rcases hstage.reported_cases hreported with ⟨-, x, -, -, hring⟩ | ⟨hread, -⟩
    · rw [initHandler, show t.ring = [x] from hring]
    · rw [hopen] at hread
      cases hread
  rw [hhandler]
  refine h.turn hws hphase rfl rfl (fun m hm => ?_) rfl (fun k hk => ?_) ?_
  · rw [hs]
    exact List.mem_cons_of_mem _ hm
  · have hne : (c.table == k) = false := by simpa using hk
    simp [WorkerState.reported, hs, Message.chain?, hne]
  · exact hstage.handled hws hs rfl hopen

/-- A worker that initializes has counted nothing. -/
theorem InitInvariant.initializing (h : InitInvariant s) (hws : s.workers[w]? = some ws)
    (hphase : ws.phase = .init) :
    ws.numInitializedRead = 0 ∧ 0 < cfg.workerSstableBatchSize := by
  rcases h.workers ws (List.mem_of_getElem? hws) with ⟨-, hnum, hpos⟩ | ⟨hawait, -⟩
  · exact ⟨hnum, hpos⟩
  · rw [hphase] at hawait
    cases hawait

/-- No worker has come to its main loop. -/
theorem InitInvariant.not_main (h : InitInvariant s) (hws : s.workers[w]? = some ws) :
    ws.phase ≠ .main := by
  rcases h.workers ws (List.mem_of_getElem? hws) with ⟨hinit, -⟩ | ⟨hawait, -⟩
  · rw [hinit]
    decide
  · rw [hawait]
    decide

/-- The visit of an SSTable: its file is opened if it was not visited yet. -/
theorem InitInvariant.initVisit (h : InitInvariant s) (hws : s.workers[w]? = some ws)
    (hphase : ws.phase = .init) (ht : s.tables[ws.i]? = some t) :
    InitInvariant ((s.apply w ws.i (openTable t)).setWorker w (ws.advanceInit cfg w)) := by
  have hworker := h.initializing hws hphase
  have hadvance : ws.advanceInit cfg w = ws.advance cfg w := by
    rw [WorkerState.advanceInit, if_pos]
    right
    rw [hworker.1]
    exact hworker.2
  rw [hadvance]
  refine h.turn hws hphase rfl rfl (fun m hm => hm) (openTable_quiet t).1 (fun k _ => rfl) ?_
  exact (h.tables ws.i t ht).visited hws rfl

/-- A chain completes. -/
theorem InitInvariant.report {k : ℕ} {c : Chain} {cqes : List Cqe} (h : InitInvariant s)
    (hc : s.inFlight[k]? = some c) (hposts : c.kind.posts cqes = true) :
    InitInvariant (s.report k c cqes) := by
  rcases h.flights c (List.mem_of_getElem? hc) with ⟨ws, hws, hphase⟩
  have hworkers : (s.report k c cqes).workers
      = s.workers.set c.worker (ws.receive (.done c)) := by
    rcases exists_split hws with ⟨_, _, -, -, hmodify, hset⟩
    exact (hmodify _).trans (hset _).symm
  have hnum := h.initializing hws hphase
  have hlen : c.worker < s.workers.length := (List.getElem?_eq_some_iff.1 hws).1
  refine ⟨h.numRead, ?_, ?_, ?_, fun n t' ht' => ?_⟩
  · rw [hworkers]
    intro x hx
    rcases List.mem_or_eq_of_mem_set hx with hx | rfl
    · exact h.workers x hx
    · exact .inl ⟨hphase, hnum⟩
  · rw [hworkers]
    intro x hx m hm
    rcases List.mem_or_eq_of_mem_set hx with hx | rfl
    · exact h.reports x hx m hm
    · rcases List.mem_append.1 hm with hm | hm
      · exact h.reports ws (List.mem_of_getElem? hws) m hm
      · exact ⟨c, List.mem_singleton.1 hm⟩
  · rw [hworkers]
    intro d hd
    by_cases hdw : c.worker = d.worker
    · rw [← hdw]
      exact ⟨_, List.getElem?_set_self hlen, hphase⟩
    · rw [List.getElem?_set_ne hdw]
      exact h.flights d (List.mem_of_mem_eraseIdx hd)
  · have htables : (s.tables.modify c.table fun t => { t with ring := t.ring ++ cqes })[n]?
        = some t' := ht'
    rw [List.getElem?_modify, Option.map_eq_map, Option.map_eq_some_iff] at htables
    rcases htables with ⟨t, ht, rfl⟩
    exact (h.tables n t ht).completed hc hposts hws rfl

/-- A change of an SSTable that leaves its ring and its offset alone. -/
theorem InitInvariant.modify_table (h : InitInvariant s) (n : ℕ)
    {f : SSTableInfo cfg → SSTableInfo cfg} (hring : ∀ t, (f t).ring = t.ring)
    (hoffset : ∀ t, (f t).desiredSstableOffset = t.desiredSstableOffset) :
    InitInvariant { s with tables := s.tables.modify n f } := by
  refine h.congr rfl rfl rfl rfl rfl fun k t' ht' => ?_
  rw [List.getElem?_modify, Option.map_eq_map, Option.map_eq_some_iff] at ht'
  rcases ht' with ⟨t, ht, rfl⟩
  refine ⟨t, ht, ?_⟩
  split_ifs
  · exact ⟨hring t, hoffset t⟩
  · exact ⟨rfl, rfl⟩

/-- Every event that handles no report but that of an opening keeps the invariant. -/
theorem InitInvariant.step (hpos : 0 < cfg.numSstables) (h : InitInvariant s)
    (hD : ReportsOpening s e) (hstep : step s e = .ok s') : InitInvariant s' := by
  cases e with
  | complete k cqes =>
      simp only [Worker.step] at hstep
      split at hstep
      · cases hstep
        exact h
      · next c hc =>
          cases hstep
          split_ifs with hposts
          · exact h.report hc hposts
          · exact h
  | announce w fd =>
      simp only [Worker.step, h.numRead, Nat.not_le.2 hpos, if_false] at hstep
      cases hstep
      exact h
  | arrive n batch =>
      cases hstep
      exact h.modify_table n (fun _ => rfl) fun _ => rfl
  | others heap mem =>
      cases hstep
      exact h.congr rfl rfl rfl rfl rfl fun n t ht => ⟨t, ht, rfl, rfl⟩
  | refill n buffers =>
      cases hstep
      exact h.modify_table n (fun _ => rfl) fun _ => rfl
  | run w fuel transfers =>
      simp only [Worker.step] at hstep
      split at hstep
      · cases hstep
        exact h
      · next ws hws =>
          cases turn_result hstep with
          | stay => exact h
          | noMessage => exact h.idle hws
          | initMessage hphase hturn hs ht =>
              rename_i m ms t
              obtain ⟨c, rfl, hopen⟩ := hD .init m t
                ⟨w, fuel, transfers, ws, ms, rfl, hws, hphase, by simp, hturn, hs, ht⟩
              exact h.initMessage hws hphase hs ht hopen
          | initVisit hphase hturn ht => exact h.initVisit hws hphase ht
          | enterMain hphase hs =>
              rcases h.workers ws (List.mem_of_getElem? hws) with ⟨hinit, -⟩ | ⟨-, hempty⟩
              · rw [hphase] at hinit
                cases hinit
              · rw [hempty] at hs
                cases hs
          | mainMessage hphase => exact absurd hphase (h.not_main hws)
          | mainVisit hphase => exact absurd hphase (h.not_main hws)

/-- Where there are no SSTables none appears. -/
theorem tables_nil_step (h : s.tables = []) (hstep : Worker.step s e = .ok s') :
    s'.tables = [] := by
  cases step_result hstep with
  | unchanged => exact h
  | reported => simp [State.report, h]
  | announced => exact h
  | outside hsame =>
      refine List.eq_nil_iff_forall_not_mem.2 fun t ht => ?_
      rcases List.mem_iff_getElem?.1 ht with ⟨n, hn⟩
      rcases hsame n t hn with ⟨t₀, ht₀, -⟩
      rw [h] at ht₀
      simp at ht₀
  | turned hws hturn =>
      cases hturn with
      | stay => exact h
      | noMessage => exact h
      | initMessage => simp [State.setWorker, State.apply, h]
      | initVisit => simp [State.setWorker, State.apply, h]
      | enterMain => exact h
      | mainMessage => simp [State.setWorker, State.apply, h]
      | mainVisit => simp [State.setWorker, State.apply, h]

end

/-- **When messages are classified right.**  In every run of the workers, with the completions and
messages in any order, every scheduler message is taken for what the chain last submitted for its
SSTable is, and only completions of that chain are looked at, if and only if every message that is
handled reports the opening of a file.  The report of an initialization read is never handled
right. -/
theorem classified_iff (slots : ℕ → Stack cfg.maxSstableHeight) (heap : Heap cfg) (mem : Memory)
    (es : List (Event cfg)) :
    AttemptsMeet step MessagesClassified (State.start slots heap mem) es
      ↔ AttemptsMeet step ReportsOpening (State.start slots heap mem) es := by
  by_cases hpos : 0 < cfg.numSstables
  · exact attemptsMeet_congr (fun _ _ _ h hD hstep => h.step hpos hD hstep)
      (fun _ _ h => h.messagesClassified_iff) (initInvariant_start slots heap mem)
  · have hnone : (State.start slots heap mem : State cfg).tables = [] := by
      have hzero : cfg.numSstables = 0 := by omega
      simp [State.start, Config.numSstableLevels, hzero]
    refine attemptsMeet_congr (fun _ _ _ h _ hstep => tables_nil_step h hstep) ?_ hnone
    intro s e h
    have hhandled : ∀ phase m t, ¬ MessageHandled s e phase m t := by
      rintro phase m t ⟨w, fuel, transfers, ws, ms, -, -, -, -, -, -, ht⟩
      rw [h] at ht
      simp at ht
    exact iff_of_true (fun _ _ _ hm => absurd hm (hhandled _ _ _))
      fun _ _ _ hm => absurd hm (hhandled _ _ _)

/-- The file of SSTable 0 is opened, its opening is reported and handled, and its first two reads
are reported, which have filled their buffers. -/
def firstReadRun : List (Event fourTableConfig) :=
  turns 0 2 ++ [.complete 0 [⟨0, 3⟩]] ++ turns 0 2 ++ [fullReads 0]

/-- When the read's report is handled next, the completion of the opening, whose result is the
descriptor 3, is taken for that of the first half of the read. -/
theorem opening_taken_for_read :
    ¬ AttemptsMeet step MessagesClassified
      (State.start (fun _ => Stack.zeroed _) [] fun _ => 0)
      (firstReadRun ++ [.run 0 1 {}]) := by
  intro h
  have hend : okAnd (runEvents step
      (State.start (fun _ => Stack.zeroed _) [] fun _ => 0) firstReadRun)
      (fun s => s.workers[0]?.any (fun ws => ws.phase == .init && ws.turn == .peek &&
          ws.scheduler == [.done ⟨0, 0, .initRead 0⟩]) &&
        s.tables[0]?.any (fun t => handlingOf .init t.ring == .initRead &&
          (s.origins 0 t.ring).take 2 == [(⟨0, 0, .openFile⟩, ⟨0, 3⟩),
            (⟨0, 0, .initRead 0⟩, ⟨0, 12288⟩)]) &&
        (s.submittedFor 0).getLast? == some ⟨0, 0, .initRead 0⟩) = true := by
    decide +kernel
  rcases okAnd_iff.1 hend with ⟨s, hs, hfinal⟩
  simp only [Bool.and_eq_true, Option.any_eq_true, beq_iff_eq] at hfinal
  rcases hfinal with ⟨⟨⟨ws, hws, ⟨hphase, hturn⟩, hscheduler⟩, t, ht, hhandling, htake⟩, hsub⟩
  have hhandled : MessageHandled s (.run 0 1 {}) .init (.done ⟨0, 0, .initRead 0⟩) t :=
    ⟨0, 1, {}, ws, [], rfl, hws, hphase, by simp, hturn, hscheduler, ht⟩
  rcases h.next hs _ _ _ hhandled with ⟨c, hlast, -, horigins⟩
  have hc : c = ⟨0, 0, .initRead 0⟩ := Option.some.inj (hlast.symm.trans hsub)
  have hopen : (⟨0, 0, .openFile⟩ : Chain) = c := by
    refine horigins (⟨0, 0, .openFile⟩, ⟨0, 3⟩) ?_
    rw [hhandling]
    show _ ∈ (s.origins 0 t.ring).take 2
    rw [htake]
    exact List.mem_cons_self
  rw [hc] at hopen
  cases hopen

end Worker

end RingDB
