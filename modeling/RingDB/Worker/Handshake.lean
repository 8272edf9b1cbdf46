import RingDB.Worker.Turns

/-!
# The descriptor of the network ring

When the SSTables are read, the network thread sends the descriptor of its ring to every worker.  It
takes the descriptors of the workers' scheduler rings from the first slots of `fixed_file_fds`, but
what is written there are the `user_data` of the completions by which the files of the SSTables were
opened.  A worker that has left initialization takes the first message in its scheduler ring for the
descriptor, whatever it reports, and does not consume it: the main loop finds it again and takes it
for the number of an SSTable.

* `Handshake` — the workers with the descriptor table and the network thread's loop.
* `HandshakeRight` — an announcement goes to the ring of its worker, what a worker adopts is an
  announcement, and neither loop takes one for the number of an SSTable.
* `HandshakeInvariant` — a worker that came to its main loop has the announcement still before it.
* **`handshake_iff`** — as long as no worker takes a turn of its main loop, and how else.
-/

namespace RingDB

open Core

namespace Worker

variable {cfg : Config}

/-- The descriptors of the rings.  No two open rings have the same. -/
structure Descriptors where
  scheduler : ℕ → ℤ
  network : ℕ
  scheduler_injective : Function.Injective scheduler

/-- The workers, the entries of `fixed_file_fds` that have been written, and the loop in which the
network thread announces its ring. -/
structure Handshake (cfg : Config) where
  base : State cfg
  fixedFileFds : ℕ → Option ℤ
  /-- The network thread has its server socket. -/
  serving : Bool
  /-- The loop variable. -/
  announced : ℕ

inductive HandshakeEvent (cfg : Config) where
  | worker (e : Event cfg)
  /-- The network thread is started and gets its server socket. -/
  | serve (serverSockFd : ℤ)
  /-- The next pass of its announcing loop. -/
  | announce

/-- What a worker that initializes writes to the descriptor table in its next turn.  Without a
completion in the SSTable's ring, `cqes[0]` is still the message. -/
def openedBy (s : State cfg) (w : ℕ) : Option (ℕ × ℤ) := do
  let ws ← s.workers[w]?
  guard (ws.phase = .init ∧ ws.turn = .peek)
  let m ← ws.scheduler.head?
  let t ← s.tables[m.userData]?
  match t.ring with
  | [] => some (m.userData, asInt (m.userData % 2 ^ 32))
  | [c] => some (m.userData, asInt (c.userData % 2 ^ 32))
  | _ => none

namespace Handshake

def start (slots : ℕ → Stack cfg.maxSstableHeight) (heap : Heap cfg) (mem : Memory) :
    Handshake cfg where
  base := .start slots heap mem
  fixedFileFds := fun _ => none
  serving := false
  announced := 0

/-- The announcing loop has a pass left. -/
def mayAnnounce (s : Handshake cfg) : Prop :=
  s.serving = true ∧ s.announced < cfg.numSstableWorkerThreads

instance (s : Handshake cfg) : Decidable s.mayAnnounce := inferInstanceAs (Decidable (_ ∧ _))

/-- A message to the ring with this descriptor.  If it is not a scheduler ring, no worker sees
it. -/
def send (fds : Descriptors) (fd : ℤ) (s : State cfg) : State cfg :=
  match (List.range cfg.numSstableWorkerThreads).find? fun v => fds.scheduler v == fd with
  | none => s
  | some v => s.post v (.announcement fds.network)

/-- One event.  In this system announcements come from the network thread's loop only. -/
def step (fds : Descriptors) (s : Handshake cfg) :
    HandshakeEvent cfg → Except Fault (Handshake cfg)
  | .worker (.announce _ _) => .ok s
  | .worker (.run w fuel transfers) => do
      let base ← Worker.step s.base (.run w fuel transfers)
      pure { s with
        base
        fixedFileFds := match openedBy s.base w with
          | none => s.fixedFileFds
          | some (n, fd) => Function.update s.fixedFileFds n (some fd) }
  | .worker e => do
      let base ← Worker.step s.base e
      pure { s with base }
  | .serve serverSockFd =>
      .ok (if cfg.numSstables ≤ s.base.numRead ∧ s.serving = false then
        { s with
          fixedFileFds := Function.update s.fixedFileFds cfg.numSstables (some serverSockFd)
          serving := true }
        else s)
  | .announce =>
      if s.mayAnnounce then
        match s.fixedFileFds s.announced with
        | none => .error .uninitialised
        | some fd => .ok { s with base := send fds fd s.base, announced := s.announced + 1 }
      else .ok s

end Handshake

/-- In its next turn worker `w` adopts `m` as the descriptor of the network ring. -/
def Adopts (s : State cfg) (w : ℕ) (m : Message) : Prop :=
  ∃ ws ms, s.workers[w]? = some ws ∧ ws.phase = .awaitFd ∧ ws.scheduler = m :: ms ∧
    m.userData ≠ uintMax

/-- In its next turn worker `w` takes `m` for the number of an SSTable. -/
def TakesForTable (s : State cfg) (w : ℕ) (m : Message) : Prop :=
  ∃ ws ms, s.workers[w]? = some ws ∧ ws.phase ≠ .awaitFd ∧ ws.turn = .peek ∧
    ws.scheduler = m :: ms

/-- Pass `i` of the announcing loop puts the announcement into the scheduler ring of worker `i`;
what a worker adopts is the announced descriptor; and no worker takes an announcement for the number
of an SSTable. -/
def HandshakeRight (fds : Descriptors) (s : Handshake cfg) : HandshakeEvent cfg → Prop
  | .announce => s.mayAnnounce → ∃ s', s.step fds .announce = .ok s' ∧
      s'.base = s.base.post s.announced (.announcement fds.network)
  | .worker (.run w _ _) => (∀ m, Adopts s.base w m → m = .announcement fds.network) ∧
      ∀ fd, ¬ TakesForTable s.base w (.announcement fd)
  | _ => True

/-- Slot `i` of the descriptor table holds the descriptor of the scheduler ring of worker `i` in
pass `i` of the announcing loop; no worker takes a turn of its main loop; no worker that initializes
finds an announcement; and no worker that waits for the descriptor finds a report. -/
def HandshakeCondition (fds : Descriptors) (s : Handshake cfg) : HandshakeEvent cfg → Prop
  | .announce => s.mayAnnounce → s.fixedFileFds s.announced = some (fds.scheduler s.announced)
  | .worker (.run w _ _) => ∀ ws, s.base.workers[w]? = some ws → ws.phase ≠ .main ∧
      (ws.phase = .init → ws.turn = .peek → ∀ fd ms, ws.scheduler ≠ .announcement fd :: ms) ∧
      (ws.phase = .awaitFd → ∀ c ms, ws.scheduler = .done c :: ms → c.table = uintMax)
  | _ => True

/-! ## Where an announcement goes -/

theorem send_scheduler (fds : Descriptors) {i : ℕ} (hi : i < cfg.numSstableWorkerThreads)
    (s : State cfg) :
    Handshake.send fds (fds.scheduler i) s = s.post i (.announcement fds.network) := by
  unfold Handshake.send
  split
  · next hnone =>
      have hnot := List.find?_eq_none.1 hnone i (List.mem_range.2 hi)
      simp at hnot
  · next v hv =>
      have hfd := List.find?_some hv
      rw [fds.scheduler_injective (beq_iff_eq.1 hfd)]

/-- How many messages are in the scheduler ring of worker `i`. -/
def pendingMessages (s : State cfg) (i : ℕ) : ℕ := (s.workers[i]?.map (·.scheduler.length)).getD 0

theorem pendingMessages_post_self {s : State cfg} {i : ℕ} (hi : i < s.workers.length)
    (m : Message) : pendingMessages (s.post i m) i = pendingMessages s i + 1 := by
  simp [pendingMessages, State.post, List.getElem?_eq_getElem hi, WorkerState.receive]

theorem pendingMessages_post_ne (s : State cfg) {i v : ℕ} (hv : v ≠ i) (m : Message) :
    pendingMessages (s.post v m) i = pendingMessages s i := by
  simp [pendingMessages, State.post, hv]

/-- Under another descriptor the announcement does not get to worker `i`. -/
theorem send_other (fds : Descriptors) {i : ℕ} {fd : ℤ} (hfd : fd ≠ fds.scheduler i)
    {s : State cfg} (hi : i < s.workers.length) :
    Handshake.send fds fd s ≠ s.post i (.announcement fds.network) := by
  intro heq
  have hpending : pendingMessages (Handshake.send fds fd s) i = pendingMessages s i := by
    unfold Handshake.send
    split
    · rfl
    · next v hv =>
        have hvfd := List.find?_some hv
        refine pendingMessages_post_ne s ?_ _
        rintro rfl
        exact hfd (beq_iff_eq.1 hvfd).symm
  rw [heq, pendingMessages_post_self hi] at hpending
  omega

/-! ## The invariant -/

/-- What is known of a worker as long as it has not taken a turn of its main loop. -/
structure Waiting (fds : Descriptors) (ws : WorkerState) : Prop where
  turn : ws.phase ≠ .init → ws.turn = .peek
  adopted : ws.phase = .main → ∃ fd ms, ws.scheduler = .announcement fd :: ms
  announced : ∀ fd, .announcement fd ∈ ws.scheduler → fd = fds.network

structure HandshakeInvariant (fds : Descriptors) (s : Handshake cfg) : Prop where
  numWorkers : s.base.workers.length = cfg.numSstableWorkerThreads
  workers : ∀ ws ∈ s.base.workers, Waiting fds ws

section

variable {fds : Descriptors} {s s' : Handshake cfg} {w : ℕ} {ws ws' : WorkerState} {m : Message}

theorem Waiting.receive (h : Waiting fds ws) (hm : ∀ fd, m = .announcement fd → fd = fds.network) :
    Waiting fds (ws.receive m) where
  turn := h.turn
  adopted := by
    intro hphase
    rcases h.adopted hphase with ⟨fd, ms, hs⟩
    exact ⟨fd, ms ++ [m], by simp [WorkerState.receive, hs]⟩
  announced := by
    intro fd hfd
    rcases List.mem_append.1 hfd with hfd | hfd
    · exact h.announced fd hfd
    · exact hm fd (List.mem_singleton.1 hfd).symm

/-- A worker that stays in initialization, with fewer messages. -/
theorem Waiting.init (h : Waiting fds ws) (hphase : ws'.phase = .init)
    (hsub : ∀ m ∈ ws'.scheduler, m ∈ ws.scheduler) : Waiting fds ws' where
  turn := fun hne => absurd hphase hne
  adopted := by
    intro hmain
    rw [hphase] at hmain
    cases hmain
  announced := fun fd hfd => h.announced fd (hsub _ hfd)

theorem Waiting.advanceInit (h : Waiting fds ws) (hphase : ws.phase = .init) :
    Waiting fds (ws.advanceInit cfg w) := by
  unfold WorkerState.advanceInit
  split_ifs
  · exact h.init hphase fun m hm => hm
  · refine ⟨fun _ => rfl, fun hmain => ?_, h.announced⟩
    cases hmain

theorem handshakeInvariant_start (fds : Descriptors) (slots : ℕ → Stack cfg.maxSstableHeight)
    (heap : Heap cfg) (mem : Memory) : HandshakeInvariant fds (.start slots heap mem) where
  numWorkers := by simp [Handshake.start, State.start]
  workers := by
    intro ws hws
    rcases List.mem_map.1 hws with ⟨v, -, rfl⟩
    refine ⟨fun _ => rfl, fun hmain => ?_, fun fd hfd => absurd hfd List.not_mem_nil⟩
    simp only [WorkerState.start] at hmain
    split_ifs at hmain

theorem waiting_post {s : State cfg} (h : ∀ ws ∈ s.workers, Waiting fds ws)
    (hm : ∀ fd, m = .announcement fd → fd = fds.network) :
    ∀ ws ∈ (s.post w m).workers, Waiting fds ws := by
  intro ws hws
  rcases List.mem_iff_getElem?.1 hws with ⟨v, hv⟩
  rcases post_worker_cases hv with ⟨x, hx, rfl | ⟨-, rfl⟩⟩
  · exact h _ (List.mem_of_getElem? hx)
  · exact (h x (List.mem_of_getElem? hx)).receive hm

theorem waiting_set {l : List WorkerState} (h : ∀ ws ∈ l, Waiting fds ws)
    (hws' : Waiting fds ws') : ∀ ws ∈ l.set w ws', Waiting fds ws := by
  intro ws hws
  rcases List.mem_or_eq_of_mem_set hws with hws | rfl
  · exact h ws hws
  · exact hws'

/-- **A turn** that meets the condition. -/
theorem HandshakeInvariant.turn {base : State cfg} {fuel : ℕ} {transfers : Transfers cfg}
    (h : HandshakeInvariant fds s) (hws : s.base.workers[w]? = some ws)
    (hC : HandshakeCondition fds s (.worker (.run w fuel transfers)))
    (hturn : s.base.turn w fuel transfers ws = .ok base) :
    base.workers.length = cfg.numSstableWorkerThreads ∧ ∀ ws ∈ base.workers, Waiting fds ws := by
  rcases hC ws hws with ⟨hmain, -, hreport⟩
  have hwaiting := h.workers ws (List.mem_of_getElem? hws)
  have hset : ∀ {base : State cfg} {ws'}, base.workers = s.base.workers.set w ws' →
      Waiting fds ws' → base.workers.length = cfg.numSstableWorkerThreads ∧
        ∀ ws ∈ base.workers, Waiting fds ws := by
    intro base ws' hbase hws'
    rw [hbase, List.length_set]
    exact ⟨h.numWorkers, waiting_set h.workers hws'⟩
  unfold State.turn at hturn
  split at hturn
  · next hphase hpeek =>
      unfold State.initPeek at hturn
      split at hturn
      · cases hturn
        exact hset rfl (hwaiting.init hphase fun m hm => hm)
      · next m ms hs =>
          rcases bind_eq_ok.1 hturn with ⟨t, -, hdone⟩
          cases hdone
          refine hset rfl (hwaiting.init hphase fun m' hm' => ?_)
          rw [hs]
          exact List.mem_cons_of_mem _ hm'
  · next hphase hvisit =>
      rcases bind_eq_ok.1 hturn with ⟨t, -, hdone⟩
      cases hdone
      exact hset rfl (hwaiting.advanceInit hphase)
  · next hphase =>
      cases hturn
      unfold State.awaitNetworkRing
      split
      · exact ⟨h.numWorkers, h.workers⟩
      · next m ms hs =>
          split_ifs with hfd
          · exact ⟨h.numWorkers, h.workers⟩
          · refine hset rfl ⟨fun _ => hwaiting.turn (by simp [hphase]), fun _ => ?_,
              hwaiting.announced⟩
            cases m with
            | done c => exact absurd (hreport hphase c ms hs) hfd
            | announcement fd => exact ⟨fd, ms, hs⟩
  · next hphase _ => exact absurd hphase hmain
  · next hphase _ => exact absurd hphase hmain

/-- An event other than a turn and an announcement: reports come in, and that is all. -/
theorem HandshakeInvariant.outside {base : State cfg} {e : Event cfg}
    (h : HandshakeInvariant fds s) (hrun : ∀ w fuel transfers, e ≠ .run w fuel transfers)
    (hannounce : ∀ w fd, e ≠ .announce w fd) (hstep : Worker.step s.base e = .ok base) :
    base.workers.length = cfg.numSstableWorkerThreads ∧ ∀ ws ∈ base.workers, Waiting fds ws := by
  cases step_result hstep with
  | unchanged => exact ⟨h.numWorkers, h.workers⟩
  | reported hc =>
      refine ⟨?_, waiting_post h.workers fun fd hfd => by cases hfd⟩
      simpa [State.report, State.post] using h.numWorkers
  | announced => exact absurd rfl (hannounce _ _)
  | outside => exact ⟨h.numWorkers, h.workers⟩
  | turned => exact absurd rfl (hrun _ _ _)

/-- **An event** that meets the condition. -/
theorem HandshakeInvariant.step {e : HandshakeEvent cfg} (h : HandshakeInvariant fds s)
    (hC : HandshakeCondition fds s e) (hstep : s.step fds e = .ok s') :
    HandshakeInvariant fds s' := by
  cases e with
  | worker e =>
      cases e with
      | announce v fd =>
          cases hstep
          exact h
      | run w fuel transfers =>
          rcases bind_eq_ok.1 hstep with ⟨base, hbase, hdone⟩
          cases hdone
          simp only [Worker.step] at hbase
          split at hbase
          · cases hbase
            exact ⟨h.numWorkers, h.workers⟩
          · next ws hws =>
              rcases h.turn hws hC hbase with ⟨hlen, hworkers⟩
              exact ⟨hlen, hworkers⟩
      | complete | arrive | others | refill =>
          rcases bind_eq_ok.1 hstep with ⟨base, hbase, hdone⟩
          cases hdone
          rcases h.outside (fun _ _ _ he => by cases he) (fun _ _ he => by cases he) hbase with
            ⟨hlen, hworkers⟩
          exact ⟨hlen, hworkers⟩
  | serve serverSockFd =>
      cases hstep
      split_ifs
      · exact ⟨h.numWorkers, h.workers⟩
      · exact h
  | announce =>
      simp only [Handshake.step] at hstep
      split_ifs at hstep
      · split at hstep
        · cases hstep
        · next fd hfd =>
            cases hstep
            have hsend : ∀ ws ∈ (Handshake.send fds fd s.base).workers, Waiting fds ws := by
              unfold Handshake.send
              split
              · exact h.workers
              · exact waiting_post h.workers fun fd hfd => (Message.announcement.inj hfd).symm
            refine ⟨?_, hsend⟩
            show (Handshake.send fds fd s.base).workers.length = _
            unfold Handshake.send
            split
            · exact h.numWorkers
            · simpa [State.post] using h.numWorkers
      · cases hstep
        exact h

/-! ## Which events are right -/

theorem HandshakeInvariant.announce_iff (h : HandshakeInvariant fds s) :
    HandshakeRight fds s .announce ↔ HandshakeCondition fds s .announce := by
  refine forall_congr' fun hmay => ?_
  constructor
  · rintro ⟨s', hstep, hbase⟩
    simp only [Handshake.step, if_pos hmay] at hstep
    split at hstep
    · cases hstep
    · next fd hfd =>
        cases hstep
        rw [hfd]
        by_contra hne
        refine send_other fds (fun heq => hne (congrArg some heq)) ?_ hbase
        rw [h.numWorkers]
        exact hmay.2
  · intro hslot
    refine ⟨{ s with
      base := Handshake.send fds (fds.scheduler s.announced) s.base
      announced := s.announced + 1 }, ?_, send_scheduler fds hmay.2 s.base⟩
    simp only [Handshake.step, if_pos hmay, hslot]

theorem HandshakeInvariant.run_iff (h : HandshakeInvariant fds s) {fuel : ℕ}
    {transfers : Transfers cfg} :
    HandshakeRight fds s (.worker (.run w fuel transfers))
      ↔ HandshakeCondition fds s (.worker (.run w fuel transfers)) := by
  constructor
  · rintro ⟨hadopts, htakes⟩ ws hws
    have hwaiting := h.workers ws (List.mem_of_getElem? hws)
    refine ⟨fun hmain => ?_, fun hinit hpeek fd ms hs => ?_, fun hawait c ms hs => ?_⟩
    · -- what the worker adopted is still the first message
      rcases hwaiting.adopted hmain with ⟨fd, ms, hs⟩
      exact htakes fd ⟨ws, ms, hws, by simp [hmain], hwaiting.turn (by simp [hmain]), hs⟩
    · exact htakes fd ⟨ws, ms, hws, by simp [hinit], hpeek, hs⟩
    · by_contra hfd
      have hdone := hadopts (.done c) ⟨ws, ms, hws, hawait, hs, hfd⟩
      cases hdone
  · intro hC
    refine ⟨?_, ?_⟩
    · rintro m ⟨ws, ms, hws, hawait, hs, hfd⟩
      cases m with
      | done c => exact absurd ((hC ws hws).2.2 hawait c ms hs) hfd
      | announcement fd =>
          have hmem : Message.announcement fd ∈ ws.scheduler := by
            rw [hs]
            exact List.mem_cons_self
          rw [(h.workers ws (List.mem_of_getElem? hws)).announced fd hmem]
    · rintro fd ⟨ws, ms, hws, hnot, hpeek, hs⟩
      rcases hC ws hws with ⟨hmain, hinit, -⟩
      cases hphase : ws.phase with
      | init => exact hinit hphase hpeek fd ms hs
      | awaitFd => exact hnot hphase
      | main => exact hmain hphase

theorem HandshakeInvariant.right_iff (h : HandshakeInvariant fds s) (e : HandshakeEvent cfg) :
    HandshakeRight fds s e ↔ HandshakeCondition fds s e := by
  cases e with
  | worker e =>
      cases e with
      | run w fuel transfers => exact h.run_iff
      | complete | announce | arrive | others | refill => exact Iff.rfl
  | serve serverSockFd => exact Iff.rfl
  | announce => exact h.announce_iff

end

/-- **When the handshake works.**  In every run of the workers and the network thread, with reports
and announcements in any order and for any number of workers: every announcement goes to the
scheduler ring of its worker, every worker adopts the announced descriptor and not the number of an
SSTable, and no announcement is taken for the number of an SSTable, if and only if

* in pass `i` of the announcing loop slot `i` of the descriptor table holds the descriptor of worker
  `i`'s scheduler ring,
* no worker that waits for the descriptor finds a report first, no worker that still initializes
  finds an announcement, and
* no worker takes a turn of its main loop. -/
theorem handshake_iff (fds : Descriptors) (slots : ℕ → Stack cfg.maxSstableHeight)
    (heap : Heap cfg) (mem : Memory) (es : List (HandshakeEvent cfg)) :
    AttemptsMeet (Handshake.step fds) (HandshakeRight fds) (.start slots heap mem) es
      ↔ AttemptsMeet (Handshake.step fds) (HandshakeCondition fds) (.start slots heap mem) es :=
  attemptsMeet_congr (fun _ _ _ h hC hstep => h.step hC hstep) (fun _ e h => h.right_iff e)
    (handshakeInvariant_start fds slots heap mem)

theorem natCast_injective : Function.Injective fun w : ℕ => (w : ℤ) + 5 := by
  intro v w h
  simpa using h

/-- The scheduler rings have the descriptors 5, 6, …, the network ring has 4. -/
def someDescriptors : Descriptors where
  scheduler := fun w => w + 5
  network := 4
  scheduler_injective := natCast_injective

/-- The completions of the openings have the `user_data` 0, so the first announcement is sent to the
descriptor 0. -/
theorem announcement_lost :
    ¬ AttemptsMeet (Handshake.step someDescriptors) (HandshakeRight someDescriptors)
      (.start (fun _ => Stack.zeroed _) [] fun _ => 0)
      (fullRun.map .worker ++ [.serve 3] ++ [.announce]) := by
  intro h
  have hend : okAnd (runEvents (Handshake.step someDescriptors)
      (.start (fun _ => Stack.zeroed _) [] fun _ => 0)
      (fullRun.map .worker ++ [.serve 3]))
      (fun s => decide s.mayAnnounce && s.announced == 0 && s.fixedFileFds 0 == some 0 &&
        s.base.workers.length == 1) = true := by
    decide +kernel
  rcases okAnd_iff.1 hend with ⟨s, hs, hfinal⟩
  simp only [Bool.and_eq_true, decide_eq_true_eq, beq_iff_eq] at hfinal
  rcases hfinal with ⟨⟨⟨hmay, hfirst⟩, hslot⟩, hworkers⟩
  rcases h.next hs hmay with ⟨s', hstep, hbase⟩
  rw [← hfirst] at hslot
  simp only [Handshake.step, if_pos hmay, hslot] at hstep
  cases hstep
  rw [hfirst] at hbase
  have hother : (0 : ℤ) ≠ someDescriptors.scheduler 0 := by decide
  have hlen : 0 < s.base.workers.length := by
    rw [hworkers]
    exact Nat.one_pos
  exact send_other someDescriptors hother hlen hbase

end Worker

end RingDB
