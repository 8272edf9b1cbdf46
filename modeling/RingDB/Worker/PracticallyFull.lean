import RingDB.Worker.Classification

/-!
# The flag for a full database

The database is documented to be practically full if at least one SSTable of the last level is
flushed to.  `is_practically_full` is one variable for all workers, and every report of a flush
assigns to it whether *that* flush was at the last level: a later flush further up takes it back.
An SSTable that is found not to be empty when the database starts is flushed to as well, and there
the variable is not assigned at all.

* `State.flushed` — `is_flushed_to` of every SSTable, which never falls (`flushed_step`).
* `FullTold` — the variable says what it is documented to say.
* **`practicallyFull_iff`** — in which runs it does, and stays up once it is.
-/

namespace RingDB

open Core

/-- `level == NUM_SSTABLE_LEVELS - 1`, for the level of SSTable `n`. -/
def Config.onLastLevel (cfg : Config) (n : ℕ) : Bool :=
  n / cfg.levelFactor == cfg.numSstableLevels - 1

namespace Worker

variable {cfg : Config}

namespace State

def flushed (s : State cfg) : List Bool := s.tables.map SSTableInfo.isFlushedTo

/-- At least one SSTable of the last level has been flushed to. -/
def LastLevelFlushed (s : State cfg) : Prop :=
  ∃ n, s.flushed[n]? = some true ∧ cfg.onLastLevel n = true

end State

/-- `is_practically_full` is true if and only if an SSTable of the last level is flushed to. -/
def FullTold (s : State cfg) : Prop := s.isPracticallyFull = true ↔ s.LastLevelFlushed

/-- The event does not lower `is_practically_full`. -/
def StaysFull (s : State cfg) (e : Event cfg) : Prop :=
  s.isPracticallyFull = true → ∀ s', step s e = .ok s' → s'.isPracticallyFull = true

/-- One of the completions that initialization looks at counts bytes. -/
def findsData (t : SSTableInfo cfg) : Bool :=
  match t.ring with
  | c₀ :: c₁ :: _ => decide (0 < c₀.res) || decide (0 < c₁.res)
  | _ => false

/-- Of a message that is handled: during initialization it finds data for an SSTable of the last
level only if the flag is up already; in the main loop it is taken for a flush above the last level
only as long as the flag is down. -/
def FullMessages (s : State cfg) (e : Event cfg) : Prop :=
  (∀ m t, MessageHandled s e .init m t → findsData t = true → cfg.onLastLevel m.userData = true →
    s.isPracticallyFull = true) ∧
  ∀ m t, MessageHandled s e .main m t → t.ring = [] → s.isPracticallyFull = true →
    cfg.onLastLevel m.userData = true

/-! ## What the handlers do to the flags -/

section

variable {t : SSTableInfo cfg} {o : Outcome cfg} {s s' : State cfg} {e : Event cfg} {w : ℕ}
  {ws : WorkerState}

theorem initResult_isFlushedTo (o : Outcome cfg) (j : ℕ) (res : ℤ) :
    (initResult o j res).table.isFlushedTo = (o.table.isFlushedTo || decide (0 < res)) := by
  simp only [initResult]
  by_cases hres : 0 < res
  · simp only [hres, if_true]
    split_ifs <;> simp
  · simp only [hres, if_false]
    split_ifs <;> simp

theorem initResult_isPracticallyFull (o : Outcome cfg) (j : ℕ) (res : ℤ) :
    (initResult o j res).isPracticallyFull = o.isPracticallyFull := by
  simp only [initResult]
  split_ifs <;> rfl

/-- Initialization: an SSTable is flushed to if data is found, and the variable is left alone. -/
theorem initHandler_full (t : SSTableInfo cfg) :
    (initHandler t).table.isFlushedTo = (t.isFlushedTo || findsData t) ∧
      (initHandler t).isPracticallyFull = none := by
  rcases hring : t.ring with _ | ⟨c₀, _ | ⟨c₁, rest⟩⟩
  · simp [initHandler, findsData, hring]
  · simp [initHandler, findsData, hring]
  · simp [initHandler, findsData, hring, initResult_isFlushedTo, initResult_isPracticallyFull,
      Bool.or_assoc]

/-- The main loop: a message for an empty ring is taken for a flush and assigned to the variable;
another one leaves both alone. -/
theorem mainHandler_full {heap : Heap cfg} {mem : Memory} {fuel level : ℕ}
    (h : mainHandler heap mem fuel level t = .ok o) :
    (t.ring = [] ∧ o.table.isFlushedTo = true ∧
        o.isPracticallyFull = some (level == cfg.numSstableLevels - 1)) ∨
      (t.ring ≠ [] ∧ o.table.isFlushedTo = t.isFlushedTo ∧ o.isPracticallyFull = none) := by
  rcases mainHandler_cases h with ⟨hring, rfl⟩ | ⟨hring, t₁, r, h₁, hr, rfl⟩
  · exact .inl ⟨hring, rfl, rfl⟩
  · refine .inr ⟨hring, ?_, rfl⟩
    exact (SSTableInfo.tryRead_untouched hr).isFlushedTo.trans (takeCompletions_untouched h₁).2

/-! ## What an event does to the flags -/

theorem flushed_modify (s : State cfg) (n : ℕ) {f : SSTableInfo cfg → SSTableInfo cfg}
    (hf : ∀ t, (f t).isFlushedTo = t.isFlushedTo) :
    (s.tables.modify n f).map SSTableInfo.isFlushedTo = s.flushed := by
  refine List.ext_getElem? fun k => ?_
  simp only [State.flushed, List.getElem?_map, List.getElem?_modify]
  cases s.tables[k]? with
  | none => simp
  | some t =>
      simp only [Option.map_eq_map, Option.map_some]
      split_ifs <;> simp [hf]

theorem flushed_turn (s : State cfg) (w n : ℕ) (o : Outcome cfg) (ws' : WorkerState) :
    ((s.apply w n o).setWorker w ws').flushed = s.flushed.set n o.table.isFlushedTo := by
  simp [State.flushed, State.setWorker, State.apply, List.map_set]

/-- To set a flag to what it is changes nothing. -/
theorem set_same {l : List Bool} {n : ℕ} {b : Bool} (h : l[n]? = some b) : l.set n b = l := by
  refine List.ext_getElem? fun k => ?_
  rw [List.getElem?_set]
  split_ifs with hk hlt
  · rw [← hk, h]
  · rw [← hk, List.getElem?_eq_none (Nat.not_lt.1 hlt)]
  · rfl

/-- What an event can do to the flags. -/
inductive FlagStep (s : State cfg) (e : Event cfg) (s' : State cfg) : Prop
  | same : s'.flushed = s.flushed → s'.isPracticallyFull = s.isPracticallyFull → FlagStep s e s'
  | init {m : Message} {t : SSTableInfo cfg} : MessageHandled s e .init m t →
      s'.flushed = s.flushed.set m.userData (t.isFlushedTo || findsData t) →
      s'.isPracticallyFull = s.isPracticallyFull → FlagStep s e s'
  | flush {m : Message} {t : SSTableInfo cfg} : MessageHandled s e .main m t → t.ring = [] →
      s'.flushed = s.flushed.set m.userData true →
      s'.isPracticallyFull = cfg.onLastLevel m.userData → FlagStep s e s'

theorem flushed_getElem? {n : ℕ} (ht : s.tables[n]? = some t) :
    s.flushed[n]? = some t.isFlushedTo := by
  simp [State.flushed, ht]

/-- A turn that leaves the flag of its SSTable and the variable alone. -/
theorem FlagStep.quiet {n : ℕ} {ws' : WorkerState} (ht : s.tables[n]? = some t)
    (hflushed : o.table.isFlushedTo = t.isFlushedTo) (hfull : o.isPracticallyFull = none) :
    FlagStep s e ((s.apply w n o).setWorker w ws') := by
  refine .same ?_ ?_
  · rw [flushed_turn, hflushed, set_same (flushed_getElem? ht)]
  · simp [State.setWorker, State.apply, hfull]

theorem flagStep_turn {fuel : ℕ} {transfers : Transfers cfg} (hws : s.workers[w]? = some ws)
    (h : TurnResult s w ws s') : FlagStep s (.run w fuel transfers) s' := by
  cases h with
  | stay => exact .same rfl rfl
  | noMessage => exact .same rfl rfl
  | initMessage hphase hturn hs ht =>
      rename_i m ms t
      refine .init (m := m) (t := t)
        ⟨w, fuel, transfers, ws, ms, rfl, hws, hphase, by simp, hturn, hs, ht⟩ ?_ ?_
      · rw [flushed_turn, (initHandler_full t).1]
      · simp [State.setWorker, State.apply, (initHandler_full t).2]
  | initVisit hphase hturn ht =>
      refine FlagStep.quiet ht (openTable_outcome _).2.1 ?_
      unfold openTable
      split_ifs <;> rfl
  | enterMain => exact .same rfl rfl
  | mainMessage hphase hturn hs ht ho =>
      rename_i m ms t fuel' o
      rcases mainHandler_full ho with ⟨hring, hflushed, hfull⟩ | ⟨-, hflushed, hfull⟩
      · refine .flush (m := m) (t := t)
          ⟨w, fuel, transfers, ws, ms, rfl, hws, hphase, by simp, hturn, hs, ht⟩ hring ?_ ?_
        · rw [flushed_turn, hflushed]
        · simp [State.setWorker, State.apply, hfull, Config.onLastLevel]
      · exact FlagStep.quiet ht hflushed hfull
  | mainVisit hphase hturn ht ho =>
      exact FlagStep.quiet ht (visitTable_outcome ho).1
        (visitTable_unannounced ho).isPracticallyFull

theorem flagStep (h : step s e = .ok s') : FlagStep s e s' := by
  cases e with
  | complete k cqes =>
      simp only [step] at h
      split at h
      · cases h
        exact .same rfl rfl
      · cases h
        split_ifs
        · exact .same (flushed_modify s _ fun _ => rfl) rfl
        · exact .same rfl rfl
  | announce w fd =>
      cases h
      split_ifs
      · exact .same rfl rfl
      · exact .same rfl rfl
  | arrive n batch =>
      cases h
      exact .same (flushed_modify s n fun _ => rfl) rfl
  | others heap mem =>
      cases h
      exact .same rfl rfl
  | refill n buffers =>
      cases h
      exact .same (flushed_modify s n fun _ => rfl) rfl
  | run w fuel transfers =>
      simp only [step] at h
      split at h
      · cases h
        exact .same rfl rfl
      · next ws hws => exact flagStep_turn hws (turn_result h)

/-- A flag that is up stays up. -/
theorem flushed_step {n : ℕ} (h : step s e = .ok s') (hn : s.flushed[n]? = some true) :
    s'.flushed[n]? = some true := by
  have hset : ∀ k b, (k = n → b = true) → (s.flushed.set k b)[n]? = some true := by
    intro k b hb
    have hlen : n < s.flushed.length := (List.getElem?_eq_some_iff.1 hn).1
    rw [List.getElem?_set]
    split_ifs with hk
    · rw [hb hk]
    · exact absurd (hk ▸ hlen) ‹_›
    · exact hn
  cases flagStep h with
  | same hflushed => rw [hflushed, hn]
  | init hm hflushed =>
      rename_i m t
      rw [hflushed]
      refine hset _ _ fun hk => ?_
      rcases hm with ⟨_, _, _, _, _, -, -, -, -, -, -, ht⟩
      rw [← hk, flushed_getElem? ht] at hn
      simp [Option.some.inj hn]
  | flush hm hring hflushed =>
      rw [hflushed]
      exact hset _ _ fun _ => rfl

theorem lastLevelFlushed_step (h : s.LastLevelFlushed) (hstep : Worker.step s e = .ok s') :
    s'.LastLevelFlushed := by
  rcases h with ⟨n, hn, hlast⟩
  exact ⟨n, flushed_step hstep hn, hlast⟩

/-- An SSTable of the last level that was not flushed to before is the one of the event. -/
theorem lastLevelFlushed_set {n : ℕ} {b : Bool} (hset : s'.flushed = s.flushed.set n b)
    (h : s'.LastLevelFlushed) :
    s.LastLevelFlushed ∨ (b = true ∧ cfg.onLastLevel n = true) := by
  rcases h with ⟨k, hk, hlast⟩
  rw [hset, List.getElem?_set] at hk
  split_ifs at hk with hn
  · rw [hn]
    exact .inr ⟨Option.some.inj hk, hlast⟩
  · exact .inl ⟨k, hk, hlast⟩

/-! ## In which runs the variable tells -/

/-- **One event.**  It keeps the variable right if its message is one of `FullMessages`. -/
theorem FullTold.step (h : FullTold s) (hc : FullMessages s e) (hstep : Worker.step s e = .ok s') :
    FullTold s' := by
  cases flagStep hstep with
  | same hflushed hfull =>
      unfold FullTold State.LastLevelFlushed
      rw [hflushed, hfull]
      exact h
  | init hm hflushed hfull =>
      rename_i m t
      unfold FullTold
      rw [hfull]
      constructor
      · intro hup
        exact lastLevelFlushed_step (h.1 hup) hstep
      · intro hlast
        rcases lastLevelFlushed_set hflushed hlast with hlast | ⟨hdata, hlevel⟩
        · exact h.2 hlast
        · rw [Bool.or_eq_true] at hdata
          rcases hdata with hdata | hdata
          · rcases hm with ⟨_, _, _, _, _, -, -, -, -, -, -, ht⟩
            exact h.2 ⟨m.userData, by rw [flushed_getElem? ht, hdata], hlevel⟩
          · exact hc.1 m t hm hdata hlevel
  | flush hm hring hflushed hfull =>
      rename_i m t
      unfold FullTold
      rw [hfull]
      constructor
      · intro hlevel
        rcases hm with ⟨_, _, _, _, _, -, -, -, -, -, -, ht⟩
        have hlen := (List.getElem?_eq_some_iff.1 (flushed_getElem? ht)).1
        exact ⟨m.userData, by rw [hflushed, List.getElem?_set_self hlen], hlevel⟩
      · intro hlast
        rcases lastLevelFlushed_set hflushed hlast with hlast | ⟨-, hlevel⟩
        · exact hc.2 m t hm hring (h.2 hlast)
        · exact hlevel

/-- A message that initialization handles leads to this state. -/
theorem step_initMessage {m : Message} (hm : MessageHandled s e .init m t)
    (hstep : Worker.step s e = .ok s') :
    s'.flushed = s.flushed.set m.userData (t.isFlushedTo || findsData t) ∧
      s'.isPracticallyFull = s.isPracticallyFull := by
  rcases hm with ⟨w, fuel, transfers, ws, ms, rfl, hws, hphase, -, hturn, hs, ht⟩
  simp only [Worker.step, hws, State.turn, hphase, hturn, State.initPeek, hs] at hstep
  rw [State.table_eq_ok.2 ht] at hstep
  cases hstep
  refine ⟨?_, ?_⟩
  · rw [flushed_turn, (initHandler_full t).1]
  · simp [State.setWorker, State.apply, (initHandler_full t).2]

/-- A message that the main loop takes for a flush leads to this state. -/
theorem step_flushMessage {m : Message} (hm : MessageHandled s e .main m t) (hring : t.ring = [])
    (hstep : Worker.step s e = .ok s') :
    s'.isPracticallyFull = cfg.onLastLevel m.userData := by
  rcases hm with ⟨w, fuel, transfers, ws, ms, rfl, hws, hphase, -, hturn, hs, ht⟩
  simp only [Worker.step, hws, State.turn, hphase, hturn, State.mainPeek, hs] at hstep
  rw [State.table_eq_ok.2 ht] at hstep
  rcases bind_eq_ok.1 hstep with ⟨t', h', hstep⟩
  cases h'
  rcases bind_eq_ok.1 hstep with ⟨o, ho, hstep⟩
  cases hstep
  rcases mainHandler_full ho with ⟨-, -, hfull⟩ | ⟨hne, -⟩
  · simp [State.setWorker, State.apply, hfull, Config.onLastLevel]
  · exact absurd hring hne

/-- No other event keeps it right. -/
theorem FullTold.fullMessages (h : FullTold s) (hstep : Worker.step s e = .ok s')
    (h' : FullTold s') : FullMessages s e := by
  constructor
  · intro m t hm hdata hlevel
    rcases step_initMessage hm hstep with ⟨hflushed, hfull⟩
    rw [← hfull]
    refine h'.2 ⟨m.userData, ?_, hlevel⟩
    rcases hm with ⟨_, _, _, _, _, -, -, -, -, -, -, ht⟩
    have hlen := (List.getElem?_eq_some_iff.1 (flushed_getElem? ht)).1
    rw [hflushed, List.getElem?_set_self hlen, hdata, Bool.or_true]
  · intro m t hm hring hup
    rw [← step_flushMessage hm hring hstep]
    exact h'.2 (lastLevelFlushed_step (h.1 hup) hstep)

theorem FullTold.staysFull (h : FullTold s) (hc : FullMessages s e) : StaysFull s e := by
  intro hup s' hstep
  exact (h.step hc hstep).2 (lastLevelFlushed_step (h.1 hup) hstep)

theorem fullTold_start (slots : ℕ → Stack cfg.maxSstableHeight) (heap : Heap cfg) (mem : Memory) :
    FullTold (State.start slots heap mem) := by
  refine iff_of_false (by simp [State.start]) ?_
  rintro ⟨n, hn, -⟩
  simp only [State.flushed, State.start, List.getElem?_map, Option.map_eq_some_iff] at hn
  rcases hn with ⟨t, ⟨k, -, rfl⟩, ht⟩
  cases ht

end

/-- Steps that meet `FullMessages` keep the variable up. -/
theorem staysFull_of_stepsMeet {s : State cfg} {es : List (Event cfg)} (h : FullTold s)
    (hc : StepsMeet step FullMessages s es) : StepsMeet step StaysFull s es := by
  induction es generalizing s with
  | nil => trivial
  | cons e es ih =>
      intro s' hstep
      rcases hc s' hstep with ⟨hce, hrest⟩
      exact ⟨h.staysFull hce, ih (h.step hce hstep) hrest⟩

/-- **When `is_practically_full` tells that the database is practically full.**  In every run of the
workers, with completions and messages in any order, the variable is true in every state if and
only if an SSTable of the last level is flushed to there, and stays true once it is, if and only if

* no message that is handled during initialization finds data for an SSTable of the last level
  while the variable is false, and
* no message that the main loop takes for a flush above the last level is handled while the
  variable is true. -/
theorem practicallyFull_iff (slots : ℕ → Stack cfg.maxSstableHeight) (heap : Heap cfg)
    (mem : Memory) (es : List (Event cfg)) :
    (Throughout step FullTold (State.start slots heap mem) es ∧
        StepsMeet step StaysFull (State.start slots heap mem) es)
      ↔ StepsMeet step FullMessages (State.start slots heap mem) es := by
  have hstart := fullTold_start slots heap mem
  have hexact : Throughout step FullTold (State.start slots heap mem) es
      ↔ StepsMeet step FullMessages (State.start slots heap mem) es :=
    throughout_iff_stepsMeet (fun _ h => h) (fun _ _ _ h hc hstep => h.step hc hstep)
      (fun _ _ _ h hstep h' => h.fullMessages hstep h') hstart
  constructor
  · rintro ⟨htold, -⟩
    exact hexact.1 htold
  · intro hc
    exact ⟨hexact.2 hc, staysFull_of_stepsMeet hstart hc⟩

/-- SSTable 2, on the last level, is opened, and two buffers are filled from its file. -/
def restartRun : List (Event fourTableConfig) :=
  turns 0 8 ++ [.complete 2 [⟨0, 9⟩]] ++ turns 0 8 ++ [fullReads 3] ++ turns 0 2

/-- After a restart the last level is in use and the variable is false. -/
theorem restart_not_full :
    ¬ (Throughout step FullTold
        (State.start (fun _ => Stack.zeroed _) [] fun _ => 0) restartRun ∧
      StepsMeet step StaysFull
        (State.start (fun _ => Stack.zeroed _) [] fun _ => 0)
        restartRun) := by
  rintro ⟨h, -⟩
  have hend : okAnd (runEvents step
      (State.start (fun _ => Stack.zeroed _) [] fun _ => 0) restartRun)
      (fun s => !s.isPracticallyFull && s.flushed[2]? == some true) = true := by
    decide +kernel
  rcases okAnd_iff.1 hend with ⟨s, hs, hfinal⟩
  simp only [Bool.and_eq_true, Bool.not_eq_true', beq_iff_eq] at hfinal
  have hup := (h.final hs).2 ⟨2, hfinal.2, by decide⟩
  rw [hfinal.1] at hup
  cases hup

end Worker

end RingDB
