import RingDB.Worker.Outstanding

/-!
# Does `waiting_on_io` tell whether something is outstanding?

In the main loop an SSTable with the flag set is left alone, so the flag has to be set while a
read or write chain of the SSTable has not been reported, and it has to be down otherwise.
`FlagTellsOutstanding` says so for every SSTable whose worker has reached the main loop.

It can fail in four places, and `flagCondition` names them:

* during initialization a message is taken for a chain's report whoever sent it;
* initialization counts completions and not SSTables, and a worker can leave it while
  initialization reads of its SSTables are on their way;
* the report of a flush does not lower the flag;
* a search is resumed with the flag set, so it makes one pass, and if that pass neither reads on
  nor ends the batch the flag stays up with nothing outstanding.

**`waitingOnIo_iff_outstanding`**: in every run that avoids them, the flag tells the truth.
-/

namespace RingDB

open Core

namespace Worker

variable {cfg : Config}

namespace State

/-- How many outstanding chains read or write the file of SSTable `n`. -/
def unreported (s : State cfg) (n : ℕ) : ℕ := s.outstanding.countP (Chain.isIoOf n)

end State

/-- The flag of an SSTable is set exactly while a read or write chain of it is outstanding. -/
def FlagTellsOutstanding (s : State cfg) : Prop :=
  ∀ n t, s.Served n → s.tables[n]? = some t →
    (t.waitingOnIo = true ↔ ∃ c ∈ s.outstanding, c.isIoOf n = true)

/-- The condition on a message that the main loop handles: it names an SSTable that has no
completions and does not wait, or it reports a read of an SSTable that waits, and one pass of the
resumed search is enough. -/
def messageCondition (s : State cfg) (m : Message) : Bool :=
  match s.tables[m.userData]? with
  | none => true
  | some t =>
      t.ring.isEmpty && !t.waitingOnIo ||
        m.chain?.any (·.kind.isIo) && !t.ring.isEmpty && t.waitingOnIo &&
          okAnd (takeCompletions t) (SSTableInfo.onePassIsEnough s.heap s.mem)

/-- The condition on an event: during initialization only reports are handled, no worker enters
the main loop with a read or write chain of its own SSTables outstanding, and the messages of the
main loop meet `messageCondition`. -/
def flagCondition (s : State cfg) : Event cfg → Bool
  | .run w _ _ =>
      match s.workers[w]? with
      | none => true
      | some ws =>
          match ws.phase, ws.turn, ws.scheduler with
          | .init, .peek, m :: _ => m.chain?.isSome
          | .awaitFd, _, _ :: _ =>
              s.outstanding.all fun c => !(c.kind.isIo && decide (cfg.owns w c.table))
          | .main, .peek, m :: _ => messageCondition s m
          | _, _, _ => true
  | _ => true

/-! ## How the outstanding chains change -/

section

variable {s : State cfg} {w n k : ℕ} {ws ws' : WorkerState} {o : Outcome cfg}

theorem unreported_turn (hw : s.workers[w]? = some ws) :
    ((s.apply w n o).setWorker w ws').unreported k + ws.reported.countP (Chain.isIoOf k)
      = s.unreported k + (if k = n then o.submitted.countP ChainKind.isIo else 0)
        + ws'.reported.countP (Chain.isIoOf k) :=
  countOf_turn ChainKind.isIo hw

theorem unreported_setWorker (hw : s.workers[w]? = some ws)
    (hs : ws'.scheduler = ws.scheduler) : (s.setWorker w ws').unreported k = s.unreported k :=
  countOf_setWorker ChainKind.isIo hw hs

theorem reportedIo_cons {m : Message} {ms : List Message} (hs : ws.scheduler = m :: ms)
    (hs' : ws'.scheduler = ms) :
    ws.reported.countP (Chain.isIoOf k)
      = m.chain?.toList.countP (Chain.isIoOf k) + ws'.reported.countP (Chain.isIoOf k) :=
  countP_reported_cons ChainKind.isIo hs hs'

end

/-! ## The invariant -/

/-- What the flag `b` of SSTable `n` has to be: while the SSTable is served, one chain is
outstanding or none, as the flag says; before that the flag is down. -/
def FlagOk (s : State cfg) (n : ℕ) (b : Bool) : Prop :=
  (s.Served n → s.unreported n = if b then 1 else 0) ∧ (¬ s.Served n → b = false)

/-- The invariant of a run that meets `flagCondition`. -/
structure FlagInvariant (s : State cfg) : Prop where
  inRange : InRange s
  owned : Owned s
  flags : ∀ n t, s.tables[n]? = some t → FlagOk s n t.waitingOnIo

theorem FlagOk.congr {s s' : State cfg} {n : ℕ} {b : Bool} (h : FlagOk s n b)
    (hserved : s'.Served n ↔ s.Served n) (hcount : s'.unreported n = s.unreported n) :
    FlagOk s' n b := by
  rw [FlagOk, hserved, hcount]
  exact h

theorem FlagInvariant.tellsOutstanding {s : State cfg} (h : FlagInvariant s) :
    FlagTellsOutstanding s := by
  intro n t hserved ht
  have hcount := (h.flags n t ht).1 hserved
  rw [← List.countP_pos_iff]
  change _ ↔ 0 < s.unreported n
  rw [hcount]
  cases t.waitingOnIo with
  | false => simp
  | true => simp

theorem flagInvariant_start (slots : ℕ → Stack cfg.maxSstableHeight) (heap : Heap cfg)
    (mem : Memory) : FlagInvariant (State.start slots heap mem) := by
  refine ⟨inRange_start slots heap mem, owned_start slots heap mem, fun n t ht => ?_⟩
  simp only [State.start, List.getElem?_map, Option.map_eq_some_iff] at ht
  rcases ht with ⟨v, -, rfl⟩
  refine ⟨?_, fun _ => rfl⟩
  rintro ⟨w, ws, hw, hmain, -⟩
  exact absurd hmain (start_worker hw).1

/-! ## The turns keep the invariant -/

section

variable {s : State cfg} {w n : ℕ} {ws ws' : WorkerState} {o : Outcome cfg} {t : SSTableInfo cfg}

/-- A turn concerns the flag of one SSTable: the one it submits for, which is also the one that
the message it takes out names. -/
theorem flags_turn (hinv : FlagInvariant s) (hw : s.workers[w]? = some ws)
    (hp : ws'.phase = .main ↔ ws.phase = .main)
    (hcount : ∀ k, k ≠ n →
      ws.reported.countP (Chain.isIoOf k) = ws'.reported.countP (Chain.isIoOf k))
    (hn : FlagOk ((s.apply w n o).setWorker w ws') n o.table.waitingOnIo) :
    ∀ k t', ((s.apply w n o).setWorker w ws').tables[k]? = some t' →
      FlagOk ((s.apply w n o).setWorker w ws') k t'.waitingOnIo := by
  intro k t' ht'
  rcases table_turn ht' with ⟨rfl, rfl⟩ | ⟨hk, ht⟩
  · exact hn
  · exact (hinv.flags k t' ht).congr (ownedIn_turn hw hp)
      (countOf_turn_ne ChainKind.isIo hw hk (hcount k hk))

/-- Initialization takes the flag down where it is down already. -/
theorem flags_initMessage (hinv : FlagInvariant s) (hw : s.workers[w]? = some ws)
    {c : Chain} {ms : List Message} (hphase : ws.phase = .init) (hown : cfg.owns w c.table)
    (hs : ws.scheduler = .done c :: ms) (ht : s.tables[c.table]? = some t)
    (hs' : ws'.scheduler = ms) (hp : ws'.phase = .init) :
    ∀ k t', ((s.apply w c.table (initHandler t)).setWorker w ws').tables[k]? = some t' →
      FlagOk ((s.apply w c.table (initHandler t)).setWorker w ws') k t'.waitingOnIo := by
  have hphases : ws'.phase = .main ↔ ws.phase = .main := by rw [hp, hphase]
  have hserved : ¬ s.Served c.table :=
    not_ownedIn_of_init hinv.inRange hw hphase hown (by simp)
  refine flags_turn hinv hw hphases (fun k hk => countP_taken_ne ChainKind.isIo hs hs' hk) ⟨?_, ?_⟩
  · intro h
    exact absurd ((ownedIn_turn hw hphases).1 h) hserved
  · intro _
    exact (initHandler_outcome t).waitingOnIo ((hinv.flags c.table t ht).2 hserved)

/-- The open of a file is no read or write. -/
theorem flags_initVisit (hinv : FlagInvariant s) (hw : s.workers[w]? = some ws)
    (hphase : ws.phase = .init) (ht : s.tables[ws.i]? = some t)
    (hs' : ws'.scheduler = ws.scheduler) (hp : ws'.phase ≠ .main) :
    ∀ k t', ((s.apply w ws.i (openTable t)).setWorker w ws').tables[k]? = some t' →
      FlagOk ((s.apply w ws.i (openTable t)).setWorker w ws') k t'.waitingOnIo := by
  have hphases : ws'.phase = .main ↔ ws.phase = .main := by simp [hp, hphase]
  rcases openTable_outcome t with ⟨hflag, -, hopen⟩
  have hio : (openTable t).submitted.countP ChainKind.isIo = 0 := by
    rw [List.countP_eq_zero]
    intro k hk
    rw [hopen k hk]
    simp [ChainKind.isIo]
  refine flags_turn hinv hw hphases (fun k _ => by simp only [WorkerState.reported, hs']) ?_
  rw [hflag]
  refine (hinv.flags ws.i t ht).congr (ownedIn_turn hw hphases) ?_
  have hturn := @unreported_turn _ s w ws.i ws.i ws ws' (openTable t) hw
  simp only [if_true, hio, WorkerState.reported, hs'] at hturn
  omega

/-- A worker with nothing outstanding enters the main loop. -/
theorem flags_enterMain (hinv : FlagInvariant s) (hw : s.workers[w]? = some ws)
    (hnone : ∀ c ∈ s.outstanding, c.kind.isIo = true → ¬ cfg.owns w c.table) {k : ℕ}
    (ht : s.tables[k]? = some t) :
    FlagOk (s.setWorker w { ws with phase := .main }) k t.waitingOnIo := by
  have hcount : (s.setWorker w { ws with phase := .main }).unreported k = s.unreported k :=
    unreported_setWorker hw rfl
  have hflags := hinv.flags k t ht
  rw [FlagOk, hcount]
  by_cases hk : s.Served k
  · exact ⟨fun _ => hflags.1 hk, fun h => absurd (hk.setWorker hw fun _ => rfl) h⟩
  · have hdown := hflags.2 hk
    refine ⟨fun hserved => ?_, fun _ => hdown⟩
    rcases ownedIn_of_setWorker hserved with hold | ⟨-, hown⟩
    · exact absurd hold hk
    · have hzero : s.unreported k = 0 := by
        refine List.countP_eq_zero.2 fun c hc hio => ?_
        simp only [Chain.isIoOf, Bool.and_eq_true, beq_iff_eq] at hio
        exact hnone c hc hio.1 (hio.2 ▸ hown)
      rw [hzero, hdown]
      rfl

/-- A message for an SSTable that has no completions and does not wait. -/
theorem flags_mainMessage_idle (hinv : FlagInvariant s) (hw : s.workers[w]? = some ws)
    {m : Message} {ms : List Message} (hphase : ws.phase = .main) (hs : ws.scheduler = m :: ms)
    (ht : s.tables[m.userData]? = some t) (hdown : t.waitingOnIo = false)
    (ho : o.table.waitingOnIo = t.waitingOnIo) (hsub : o.submitted = [])
    (hs' : ws'.scheduler = ms) (hp : ws'.phase = .main) :
    ∀ k t', ((s.apply w m.userData o).setWorker w ws').tables[k]? = some t' →
      FlagOk ((s.apply w m.userData o).setWorker w ws') k t'.waitingOnIo := by
  have hphases : ws'.phase = .main ↔ ws.phase = .main := by rw [hp, hphase]
  refine flags_turn hinv hw hphases (fun k hk => countP_taken_ne ChainKind.isIo hs hs' hk) ?_
  -- the message is not the report of a chain: its worker would know of the chain by the flag
  have hm : m.chain?.toList.countP (Chain.isIoOf m.userData) = 0 := by
    cases m with
    | announcement fd => simp [Message.chain?]
    | done c =>
        have hown := (hinv.owned.messages w ws c hw (by simp [hs])).2
        have hzero := (hinv.flags c.table t ht).1 ⟨w, ws, hw, hphase, hown⟩
        rw [hdown] at hzero
        have hmem : c ∈ s.outstanding := mem_outstanding hw (by simp [hs])
        have hnot := List.countP_eq_zero.1 hzero c hmem
        simpa [Message.chain?, Message.userData] using hnot
  rw [ho]
  refine (hinv.flags m.userData t ht).congr (ownedIn_turn hw hphases) ?_
  have hturn := @unreported_turn _ s w m.userData m.userData ws ws' o hw
  rw [reportedIo_cons hs hs', hm] at hturn
  simp only [if_true, hsub, List.countP_nil] at hturn
  omega

/-- The report of the outstanding read of an SSTable that waits. -/
theorem flags_mainMessage_read (hinv : FlagInvariant s) (hw : s.workers[w]? = some ws)
    {c : Chain} {ms : List Message} (hphase : ws.phase = .main) (hio : c.kind.isIo = true)
    (hs : ws.scheduler = .done c :: ms) (ht : s.tables[c.table]? = some t)
    (hup : t.waitingOnIo = true)
    (ho : o.submitted.countP ChainKind.isIo = if o.table.waitingOnIo then 1 else 0)
    (hs' : ws'.scheduler = ms) (hp : ws'.phase = .main) :
    ∀ k t', ((s.apply w c.table o).setWorker w ws').tables[k]? = some t' →
      FlagOk ((s.apply w c.table o).setWorker w ws') k t'.waitingOnIo := by
  have hphases : ws'.phase = .main ↔ ws.phase = .main := by rw [hp, hphase]
  have hserved : s.Served c.table :=
    ⟨w, ws, hw, hphase, (hinv.owned.messages w ws c hw (by simp [hs])).2⟩
  have hone := (hinv.flags c.table t ht).1 hserved
  rw [hup, if_pos rfl] at hone
  refine flags_turn hinv hw hphases (fun k hk => countP_taken_ne ChainKind.isIo hs hs' hk)
    ⟨fun _ => ?_, ?_⟩
  · have hturn := @unreported_turn _ s w c.table c.table ws ws' o hw
    have hc : c.isIoOf c.table = true := by simp [Chain.isIoOf, hio]
    rw [reportedIo_cons hs hs'] at hturn
    simp only [Message.chain?, Option.toList_some, List.countP_singleton, hc, if_true, ho] at hturn
    omega
  · intro h
    exact absurd ((ownedIn_turn hw hphases).2 hserved) h

/-- A visit of an SSTable that does not wait submits one chain and raises the flag, or neither. -/
theorem flags_mainVisit (hinv : FlagInvariant s) (hw : s.workers[w]? = some ws)
    (hphase : ws.phase = .main) (ht : s.tables[ws.i]? = some t) (hvisit : VisitOutcome t o)
    (hs' : ws'.scheduler = ws.scheduler) (hp : ws'.phase = .main) :
    ∀ k t', ((s.apply w ws.i o).setWorker w ws').tables[k]? = some t' →
      FlagOk ((s.apply w ws.i o).setWorker w ws') k t'.waitingOnIo := by
  have hphases : ws'.phase = .main ↔ ws.phase = .main := by rw [hp, hphase]
  have hserved : s.Served ws.i := ⟨w, ws, hw, hphase, (hinv.inRange w ws hw).1⟩
  have hcount := (hinv.flags ws.i t ht).1 hserved
  refine flags_turn hinv hw hphases (fun k _ => by simp only [WorkerState.reported, hs']) ?_
  have hturn := @unreported_turn _ s w ws.i ws.i ws ws' o hw
  simp only [if_true, WorkerState.reported, hs'] at hturn
  refine ⟨fun _ => ?_, fun h => absurd ((ownedIn_turn hw hphases).2 hserved) h⟩
  cases hvisit with
  | quiet hsub hsame =>
      simp only [hsub, List.countP_nil] at hturn
      rw [hsame]
      omega
  | flush hdown _ hsub hup =>
      simp only [hdown, Bool.false_eq_true, if_false] at hcount
      simp only [hsub, List.countP_singleton, ChainKind.isIo, if_true] at hturn
      rw [hup, if_pos rfl]
      omega
  | search issued hdown hsub hflag =>
      simp only [hdown, Bool.false_eq_true, if_false] at hcount
      rw [hsub] at hturn
      rw [← hflag]
      cases issued with
      | none =>
          simp only [Option.map_none, Option.toList_none, List.countP_nil] at hturn
          simp only [Option.isSome_none, Bool.false_eq_true, if_false]
          omega
      | some reads =>
          simp only [Option.map_some, Option.toList_some, List.countP_singleton, ChainKind.isIo,
            if_true] at hturn
          simp only [Option.isSome_some, if_true]
          omega

end

/-! ## Every event keeps the invariant -/

section

variable {s s' : State cfg}

/-- A message that the main loop handles under `messageCondition`. -/
theorem flagInvariant_mainMessage (hinv : FlagInvariant s) {w fuel : ℕ} {ws : WorkerState}
    {m : Message} {ms : List Message} {t : SSTableInfo cfg} {o : Outcome cfg}
    (hw : s.workers[w]? = some ws) (hphase : ws.phase = .main) (hs : ws.scheduler = m :: ms)
    (ht : s.tables[m.userData]? = some t) (hm : messageCondition s m = true)
    (ho : mainHandler s.heap s.mem fuel (m.userData / cfg.levelFactor) t = .ok o)
    (hr : InRange ((s.apply w m.userData o).setWorker w
      { ws with turn := .visit, scheduler := ms })) :
    FlagInvariant ((s.apply w m.userData o).setWorker w
      { ws with turn := .visit, scheduler := ms }) := by
  have htaken : ∀ m' ∈ ms, m' ∈ ws.scheduler := fun m' hm' => hs ▸ List.mem_cons_of_mem m hm'
  simp only [messageCondition, ht, Bool.or_eq_true, Bool.and_eq_true, List.isEmpty_iff,
    Bool.not_eq_true', List.isEmpty_eq_false_iff] at hm
  rcases hm with ⟨hring, hdown⟩ | ⟨⟨⟨hchain, hring⟩, hup⟩, htake⟩
  · rcases mainHandler_cases ho with ⟨-, rfl⟩ | ⟨hne, -⟩
    · refine ⟨hr, hinv.owned.turn hw (fun hne => absurd rfl hne) htaken, ?_⟩
      exact flags_mainMessage_idle hinv hw hphase hs ht hdown rfl rfl rfl hphase
    · exact absurd hring hne
  · cases m with
    | announcement fd => simp [Message.chain?] at hchain
    | done c =>
        have hio : c.kind.isIo = true := by simpa [Message.chain?] using hchain
        have hown := (hinv.owned.messages w ws c hw (by simp [hs])).2
        rcases mainHandler_cases ho with ⟨hempty, -⟩ | ⟨-, t₁, r, htake', hread, rfl⟩
        · exact absurd hempty hring
        · rcases okAnd_iff.1 htake with ⟨t₂, htake₂, hone⟩
          rw [htake'] at htake₂
          cases htake₂
          have hup₁ : t₁.waitingOnIo = true := (takeCompletions_untouched htake').1.trans hup
          have hissued := SSTableInfo.tryRead_onePass hup₁ hone hread
          refine ⟨hr, hinv.owned.turn hw (fun _ => hown) htaken, ?_⟩
          refine flags_mainMessage_read hinv hw hphase hio hs ht hup ?_ rfl hphase
          simp only [outcomeOf, ← hissued]
          cases r.issued with
          | none => simp
          | some reads => simp [ChainKind.isIo]

/-- A turn that meets `flagCondition` keeps the invariant. -/
theorem flagInvariant_turn (hinv : FlagInvariant s) {w fuel : ℕ} {transfers : Transfers cfg}
    {ws : WorkerState} (hw : s.workers[w]? = some ws) (hturn : TurnResult s w ws s')
    (hc : flagCondition s (.run w fuel transfers) = true) (hr : InRange s') :
    FlagInvariant s' := by
  simp only [flagCondition, hw] at hc
  cases hturn with
  | stay => exact hinv
  | noMessage =>
      refine ⟨hr, hinv.owned.setWorker hw fun _ h => h, fun k t ht => ?_⟩
      exact (hinv.flags k t ht).congr (ownedIn_setWorker hw Iff.rfl) (unreported_setWorker hw rfl)
  | @initMessage m ms t hphase hpeek hs ht =>
      simp only [hphase, hpeek, hs] at hc
      cases m with
      | announcement fd => simp [Message.chain?] at hc
      | done c =>
          have hown := (hinv.owned.messages w ws c hw (by simp [hs])).2
          refine ⟨hr, hinv.owned.turn hw (fun _ => hown) fun m hm => ?_, ?_⟩
          · rw [hs]
            exact List.mem_cons_of_mem _ hm
          · exact flags_initMessage hinv hw hphase hown hs ht rfl hphase
  | initVisit hphase hvisit ht =>
      have hown := (hinv.inRange w ws hw).1
      have hsched := (@advanceInit_keeps cfg w ws).1
      refine ⟨hr, hinv.owned.turn hw (fun _ => hown) fun m hm => hsched ▸ hm, ?_⟩
      exact flags_initVisit hinv hw hphase ht hsched (advanceInit_ne_main hphase)
  | enterMain hphase hs =>
      simp only [hphase, hs, List.all_eq_true, Bool.not_eq_true', Bool.and_eq_false_iff,
        decide_eq_false_iff_not] at hc
      refine ⟨hr, hinv.owned.setWorker hw fun _ h => h, fun k t ht => ?_⟩
      refine flags_enterMain hinv hw (fun c hmem hio => ?_) ht
      exact (hc c hmem).resolve_left (by simp [hio])
  | mainMessage hphase hpeek hs ht ho =>
      simp only [hphase, hpeek, hs] at hc
      exact flagInvariant_mainMessage hinv hw hphase hs ht hc ho hr
  | mainVisit hphase hvisit ht ho =>
      have hown := (hinv.inRange w ws hw).1
      refine ⟨hr, hinv.owned.turn hw (fun _ => hown) fun _ h => h, ?_⟩
      exact flags_mainVisit hinv hw hphase ht (visitTable_outcome ho).2 rfl hphase

/-- **The step lemma.** -/
theorem flagInvariant_step {e : Event cfg} (hinv : FlagInvariant s)
    (hc : flagCondition s e = true) (h : step s e = .ok s') : FlagInvariant s' := by
  have hr := inRange_step hinv.inRange h
  cases step_result h with
  | unchanged => exact hinv
  | @reported k c cqes hk =>
      refine ⟨hr, hinv.owned.report hk, fun n t' ht' => ?_⟩
      rcases report_sameFlags s k c cqes n t' ht' with ⟨t, ht, hflag, -⟩
      rw [hflag]
      exact (hinv.flags n t ht).congr (ownedIn_report k c cqes)
        (countOf_report ChainKind.isIo hinv.owned hk n)
  | announced =>
      refine ⟨hr, hinv.owned.post fun c hc => (by cases hc), fun n t ht => ?_⟩
      exact (hinv.flags n t ht).congr (ownedIn_post _) (countOf_announcement ChainKind.isIo _ _ n)
  | outside hsame =>
      refine ⟨hr, ⟨hinv.owned.inFlight, hinv.owned.messages⟩, fun n t' ht' => ?_⟩
      rcases hsame n t' ht' with ⟨t, ht, hflag, -⟩
      rw [hflag]
      exact (hinv.flags n t ht).congr Iff.rfl rfl
  | turned hws hturn => exact flagInvariant_turn hinv hws hturn hc hr

/-- **The flag tells the truth.**  In every run, from the start of the threads on, for any order
of completions and arrivals: if every event meets `flagCondition`, then between any two handlers
the flag of an SSTable in the main loop is set exactly while a read or write chain of it is
outstanding. -/
theorem waitingOnIo_iff_outstanding {slots : ℕ → Stack cfg.maxSstableHeight} {heap : Heap cfg}
    {mem : Memory} {events : List (Event cfg)}
    (h : StepsMeet step (fun s e => flagCondition s e = true) (State.start slots heap mem) events) :
    Throughout step FlagTellsOutstanding (State.start slots heap mem) events := by
  have hrun : Throughout step FlagInvariant (State.start slots heap mem) events :=
    throughout_of_stepsMeet (fun _ _ _ hinv hc hs => flagInvariant_step hinv hc hs)
      (flagInvariant_start slots heap mem) h
  exact hrun.mono fun s hs => hs.tellsOutstanding

end

/-! ## Two runs -/

/-- Two workers with one SSTable each. -/
def twoWorkerConfig : Config := resizedConfig 4 2 2 Nat.two_pos two_le_uintMax Nat.two_pos

/-- A batch with one request, which the SSTable it is sent to is said to hold. -/
def oneReadBatch : RequestBatch twoWorkerConfig :=
  { RequestBatch.zeroed twoWorkerConfig .read with
    readwritePool := { entries := [⟨.read, 0, 5, 0⟩], presentInLevel := true } }

/-- Worker 0 opens and reads the file of SSTable 0, learns the descriptor of the network ring, and
searches the SSTable for a batch of one read.  Had the first buffer been filled, the worker would
have left initialization with a second pair of reads in flight. -/
def searchRun : List (Event twoWorkerConfig) :=
  turns 0 2 ++ [.complete 0 [⟨0, 7⟩]] ++ turns 0 2 ++ [.complete 0 [⟨0, 3⟩, ⟨0, 0⟩]] ++ turns 0 2 ++
    [.announce 0 1] ++ turns 0 2 ++ [.arrive 0 0] ++ turns 0 1

/-- `searchRun` meets the condition, and ends with a read outstanding and the flag set. -/
theorem waitingOnIo_iff_outstanding_searchRun :
    StepsMeet step (fun s e => flagCondition s e = true)
        (State.start (fun _ => Stack.zeroed _) [oneReadBatch] fun _ => 0) searchRun ∧
      Throughout step FlagTellsOutstanding
        (State.start (fun _ => Stack.zeroed _) [oneReadBatch] fun _ => 0) searchRun ∧
      okAnd (runEvents step
          (State.start (fun _ => Stack.zeroed _) [oneReadBatch] fun _ => 0) searchRun)
        (fun s => s.tables.any SSTableInfo.waitingOnIo && s.unreported 0 == 1) = true := by
  have hmeets : StepsMeet step (fun s e => flagCondition s e = true)
      (State.start (fun _ => Stack.zeroed _) [oneReadBatch] fun _ => 0) searchRun := by
    decide +kernel
  exact ⟨hmeets, waitingOnIo_iff_outstanding hmeets, by decide +kernel⟩

/-- The descriptor that the opening left in the ring of an SSTable is taken for the result of its
first read, so each is counted with a second pair of reads in flight; the worker leaves
initialization, and goes on to its main loop when the network ring is announced. -/
def earlyLeave : List (Event fourTableConfig) := fullRun ++ [.announce 0 1] ++ turns 0 1

/-- The worker is in the main loop, reads of SSTable 2 are in flight, and its flag is down. -/
theorem earlyLeave_flag_down :
    ¬ Throughout step FlagTellsOutstanding
      (State.start (fun _ => Stack.zeroed _) [] fun _ => 0)
      earlyLeave := by
  intro h
  have hend : okAnd (runEvents step
      (State.start (fun _ => Stack.zeroed _) [] fun _ => 0) earlyLeave)
      (fun s => s.workers[0]?.any (·.phase == .main) && s.tables[2]?.any (!·.waitingOnIo) &&
        s.inFlight[2]? == some ⟨0, 2, .initRead 12287⟩) = true := by
    decide +kernel
  rcases okAnd_iff.1 hend with ⟨s, hs, hfinal⟩
  simp only [Bool.and_eq_true, Option.any_eq_true, beq_iff_eq, Bool.not_eq_true'] at hfinal
  rcases hfinal with ⟨⟨⟨ws, hws, hphase⟩, t, ht, hdown⟩, hflight⟩
  have hserved : s.Served 2 := ⟨0, ws, hws, hphase, by decide⟩
  have hflag : t.waitingOnIo = true := by
    refine (h.final hs 2 t hserved ht).2 ⟨⟨0, 2, .initRead 12287⟩, ?_, by decide⟩
    exact mem_inTransit.2 (.inl (List.mem_of_getElem? hflight))
  rw [hdown] at hflag
  cases hflag

end Worker

end RingDB
