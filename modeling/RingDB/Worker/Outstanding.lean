import RingDB.Core.Transit
import RingDB.Worker.Turns

/-!
# Outstanding chains

A chain is outstanding from its submission until a worker takes its report out of the scheduler
ring.  An invariant about outstanding chains of one kind needs three facts, and they are the same
for every kind `q`: what a turn adds and takes away (`countOf_turn`), that a completion only moves
a chain (`countOf_report`), and that a chain reports to an owner of its SSTable (`Owned`).
-/

namespace RingDB

open Core

/-- The chains whose report waits in the worker's scheduler ring. -/
def WorkerState.reported (ws : WorkerState) : List Chain := ws.scheduler.filterMap Message.chain?

/-- A chain for SSTable `n`, of the kinds `q`. -/
def Chain.isOf (q : ChainKind → Bool) (n : ℕ) (c : Chain) : Bool := q c.kind && c.table == n

namespace Worker

variable {cfg : Config}

namespace State

/-- The chains whose report no worker has handled yet: in flight, or in a scheduler ring. -/
def outstanding (s : State cfg) : List Chain :=
  inTransit WorkerState.reported s.inFlight s.workers

/-- How many of them are for SSTable `n`, of the kinds `q`. -/
def countOf (q : ChainKind → Bool) (s : State cfg) (n : ℕ) : ℕ :=
  s.outstanding.countP (Chain.isOf q n)

/-- SSTable `n` is visited by a worker that has reached the main loop. -/
abbrev Served (s : State cfg) (n : ℕ) : Prop := s.OwnedIn (· = .main) n

end State

/-! ## How their number changes -/

section

variable (q : ChainKind → Bool) {s : State cfg} {w n k : ℕ} {ws ws' : WorkerState} {o : Outcome cfg}

/-- The chains of SSTable `n` are chains of no other. -/
theorem countP_isOf_map (w n k : ℕ) (kinds : List ChainKind) :
    (kinds.map (Chain.mk w n)).countP (Chain.isOf q k) = if k = n then kinds.countP q else 0 := by
  rw [List.countP_map]
  split_ifs with hk
  · subst hk
    refine List.countP_congr fun x _ => ?_
    simp [Chain.isOf]
  · rw [List.countP_eq_zero]
    intro x _
    simp [Chain.isOf, Ne.symm hk]

/-- A turn submits chains and takes messages out of the worker's scheduler ring. -/
theorem countOf_turn (hw : s.workers[w]? = some ws) :
    ((s.apply w n o).setWorker w ws').countOf q k + ws.reported.countP (Chain.isOf q k)
      = s.countOf q k + (if k = n then o.submitted.countP q else 0)
        + ws'.reported.countP (Chain.isOf q k) := by
  have hmod := countP_inTransit_modify (f := WorkerState.reported) (p := Chain.isOf q k)
    (s.inFlight ++ o.submitted.map (Chain.mk w n)) (fun _ => ws') hw
  rw [← List.set_eq_modify] at hmod
  have hlaunch := countP_inTransit_launch (f := WorkerState.reported) (p := Chain.isOf q k)
    s.inFlight s.workers (o.submitted.map (Chain.mk w n))
  rw [countP_isOf_map] at hlaunch
  rw [hlaunch] at hmod
  exact hmod

/-- It does not concern the chains of other SSTables. -/
theorem countOf_turn_ne (hw : s.workers[w]? = some ws) (hk : k ≠ n)
    (hsame : ws.reported.countP (Chain.isOf q k) = ws'.reported.countP (Chain.isOf q k)) :
    ((s.apply w n o).setWorker w ws').countOf q k = s.countOf q k := by
  have hturn := @countOf_turn _ q s w n k ws ws' o hw
  rw [if_neg hk, hsame] at hturn
  exact Nat.add_right_cancel hturn

theorem countOf_setWorker (hw : s.workers[w]? = some ws) (hs : ws'.scheduler = ws.scheduler) :
    (s.setWorker w ws').countOf q k = s.countOf q k := by
  have hmod := countP_inTransit_modify (f := WorkerState.reported) (p := Chain.isOf q k)
    s.inFlight (fun _ => ws') hw
  rw [← List.set_eq_modify] at hmod
  simp only [WorkerState.reported, hs] at hmod
  exact Nat.add_right_cancel hmod

/-- The first message of a scheduler ring, if it is a report, is one of the chains reported. -/
theorem countP_reported_cons {m : Message} {ms : List Message} (hs : ws.scheduler = m :: ms)
    (hs' : ws'.scheduler = ms) :
    ws.reported.countP (Chain.isOf q k)
      = m.chain?.toList.countP (Chain.isOf q k) + ws'.reported.countP (Chain.isOf q k) := by
  simp only [WorkerState.reported, hs, hs', List.filterMap_cons]
  cases m.chain? with
  | none => simp
  | some c => simp [List.countP_cons, Nat.add_comm]

/-- The report that is taken out of the ring names the SSTable that is handled. -/
theorem countP_taken_ne {m : Message} {ms : List Message} (hs : ws.scheduler = m :: ms)
    (hs' : ws'.scheduler = ms) (hk : k ≠ m.userData) :
    ws.reported.countP (Chain.isOf q k) = ws'.reported.countP (Chain.isOf q k) := by
  rw [countP_reported_cons q hs hs']
  cases m with
  | done c =>
      have hc : c.isOf q k = false := by
        simp only [Chain.isOf, Bool.and_eq_false_iff, beq_eq_false_iff_ne]
        exact .inr fun e => hk e.symm
      simp [Message.chain?, hc]
  | announcement fd => simp [Message.chain?]

/-- A report that waits in a scheduler ring is one of an outstanding chain. -/
theorem mem_outstanding {c : Chain} (hw : s.workers[w]? = some ws)
    (hc : Message.done c ∈ ws.scheduler) : c ∈ s.outstanding := by
  refine mem_inTransit.2 (.inr ⟨ws, List.mem_of_getElem? hw, ?_⟩)
  exact List.mem_filterMap.2 ⟨.done c, hc, rfl⟩

/-- An announcement is no report. -/
theorem countOf_announcement (w fd n : ℕ) :
    (s.post w (.announcement fd)).countOf q n = s.countOf q n := by
  cases hw : s.workers[w]? with
  | none =>
      have hlen : s.workers.length ≤ w := List.getElem?_eq_none_iff.1 hw
      simp only [State.countOf, State.outstanding, State.post, List.modify_eq_self hlen]
  | some ws =>
      have hmod := countP_inTransit_modify (f := WorkerState.reported) (p := Chain.isOf q n)
        s.inFlight (WorkerState.receive (.announcement fd)) hw
      have hsame : (ws.receive (.announcement fd)).reported = ws.reported := by
        simp [WorkerState.reported, WorkerState.receive, Message.chain?]
      rw [hsame] at hmod
      exact Nat.add_right_cancel hmod

end

/-! ## Chains report to the owners of their SSTables -/

structure Owned (s : State cfg) : Prop where
  inFlight : ∀ c ∈ s.inFlight, c.worker < s.workers.length ∧ cfg.owns c.worker c.table
  messages : ∀ w ws c, s.workers[w]? = some ws → Message.done c ∈ ws.scheduler →
    c.worker = w ∧ cfg.owns w c.table

section

variable {s : State cfg} {w n : ℕ} {ws ws' : WorkerState} {o : Outcome cfg}

theorem Owned.setWorker (h : Owned s) (hw : s.workers[w]? = some ws)
    (hsub : ∀ m ∈ ws'.scheduler, m ∈ ws.scheduler) : Owned (s.setWorker w ws') := by
  refine ⟨fun c hc => ?_, fun v x c hx hc => ?_⟩
  · simpa only [State.setWorker, List.length_set] using h.inFlight c hc
  · rcases set_worker_cases hx with ⟨rfl, rfl⟩ | ⟨-, hx⟩
    · exact h.messages v ws c hw (hsub _ hc)
    · exact h.messages v x c hx hc

/-- A turn of worker `w` that submits chains for an SSTable of its own. -/
theorem Owned.turn (h : Owned s) (hw : s.workers[w]? = some ws)
    (ho : o.submitted ≠ [] → cfg.owns w n) (hsub : ∀ m ∈ ws'.scheduler, m ∈ ws.scheduler) :
    Owned ((s.apply w n o).setWorker w ws') := by
  have happly : Owned (s.apply w n o) := by
    refine ⟨fun c hc => ?_, h.messages⟩
    have hlen : w < s.workers.length := (List.getElem?_eq_some_iff.1 hw).1
    simp only [State.apply, List.mem_append, List.mem_map] at hc
    rcases hc with hc | ⟨k, hk, rfl⟩
    · exact h.inFlight c hc
    · exact ⟨hlen, ho (List.ne_nil_of_mem hk)⟩
  exact happly.setWorker hw hsub

theorem Owned.post (h : Owned s) {m : Message}
    (hm : ∀ c, m = .done c → c.worker = w ∧ cfg.owns w c.table) : Owned (s.post w m) := by
  refine ⟨fun c hc => ?_, fun v x c hx hc => ?_⟩
  · simpa only [State.post, List.length_modify] using h.inFlight c hc
  · rcases post_worker_cases hx with ⟨ws, hws, rfl | ⟨rfl, rfl⟩⟩
    · exact h.messages v x c hws hc
    · simp only [WorkerState.receive, List.mem_append, List.mem_singleton] at hc
      rcases hc with hc | hc
      · exact h.messages v ws c hws hc
      · exact hm c hc.symm

theorem Owned.report (h : Owned s) {k : ℕ} {c : Chain} {cqes : List Cqe}
    (hc : s.inFlight[k]? = some c) : Owned (s.report k c cqes) := by
  have hown := h.inFlight c (List.mem_of_getElem? hc)
  have hpost : Owned (s.post c.worker (.done c)) := by
    refine h.post fun c' hc' => ?_
    cases hc'
    exact ⟨rfl, hown.2⟩
  exact ⟨fun d hd => hpost.inFlight d (List.mem_of_mem_eraseIdx hd), hpost.messages⟩

end

/-- A worker that has just been started has not reached the main loop and has no messages. -/
theorem start_worker {slots : ℕ → Stack cfg.maxSstableHeight} {heap : Heap cfg} {mem : Memory}
    {w : ℕ} {ws : WorkerState} (h : (State.start slots heap mem).workers[w]? = some ws) :
    ws.phase ≠ .main ∧ ws.scheduler = [] := by
  simp only [State.start, List.getElem?_map, Option.map_eq_some_iff] at h
  rcases h with ⟨v, -, rfl⟩
  refine ⟨?_, rfl⟩
  simp only [WorkerState.start]
  split_ifs <;> simp

theorem owned_start (slots : ℕ → Stack cfg.maxSstableHeight) (heap : Heap cfg) (mem : Memory) :
    Owned (State.start slots heap mem) := by
  refine ⟨fun c hc => ?_, fun w ws c hw hc => ?_⟩
  · cases hc
  · rw [(start_worker hw).2] at hc
    cases hc

/-- Delivering a report loses no chain. -/
theorem countOf_report (q : ChainKind → Bool) {s : State cfg} (howned : Owned s) {k : ℕ} {c : Chain}
    {cqes : List Cqe} (hc : s.inFlight[k]? = some c) (n : ℕ) :
    (s.report k c cqes).countOf q n = s.countOf q n := by
  have hlen := (howned.inFlight c (List.mem_of_getElem? hc)).1
  refine countP_inTransit_deliver hc (List.getElem?_eq_getElem hlen) ?_
  simp [WorkerState.reported, WorkerState.receive, Message.chain?]

end Worker

end RingDB
