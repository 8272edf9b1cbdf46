import RingDB.Worker.Outstanding

/-!
# Is an SSTable written once?

A flush is submitted for an SSTable that is not flushed to and does not wait.  `WriteOnce` says
that this happens once per SSTable at most, and never after an initialization read found data in
the file.

Both rest on how messages are told apart.  Initialization sets `is_flushed_to` when it handles the
read, but a worker leaves it when enough completions were counted, whether or not each of its
SSTables was among them.  The main loop sets the flag when the report of the flush finds the
SSTable's ring empty; completions that initialization left there turn the report into that of a
read, after which the SSTable neither waits nor is flushed to.  `flushCondition` excludes these
two, and messages that initialization handles for SSTables of other workers.

**`writeOnce_throughout`**: in every run that meets it, SSTables are written once.
-/

namespace RingDB

open Core

namespace Worker

variable {cfg : Config}

/-- An initialization read of SSTable `n` that found data. -/
def foundData (n : ℕ) (done : Chain × List Cqe) : Bool :=
  done.1.kind.isInitRead && done.1.table == n && done.2.any fun c => 0 < c.res

namespace State

/-- How many flushes were ever submitted for SSTable `n`. -/
def flushes (s : State cfg) (n : ℕ) : ℕ := s.submitted.countP (Chain.isFlushOf n)

/-- An initialization read of SSTable `n` has found data. -/
def FoundData (s : State cfg) (n : ℕ) : Prop := ∃ done ∈ s.completed, foundData n done = true

/-- SSTable `n` has an owner that has left initialization. -/
abbrev Started (s : State cfg) (n : ℕ) : Prop := s.OwnedIn (· ≠ .init) n

end State

/-- No SSTable is flushed to twice, and none that held data. -/
def WriteOnce (s : State cfg) : Prop :=
  ∀ n, s.flushes n ≤ 1 ∧ (s.FoundData n → s.flushes n = 0)

/-- The condition on a worker that leaves initialization: no initialization read of its SSTables
is in flight, and those that found data were noticed. -/
def leaveCondition (s : State cfg) (w : ℕ) : Bool :=
  (s.inFlight.all fun c => !(c.kind.isInitRead && decide (cfg.owns w c.table))) &&
    s.completed.all fun done =>
      !(foundData done.1.table done && decide (cfg.owns w done.1.table)) ||
        s.tables[done.1.table]?.all SSTableInfo.isFlushedTo

/-- The condition on an event: initialization handles messages for a worker's own SSTables only
and ends as `leaveCondition` says, and the main loop handles no message for an SSTable with
completions in its ring between the submission and the report of its flush. -/
def flushCondition (s : State cfg) : Event cfg → Bool
  | .run w _ _ =>
      match s.workers[w]? with
      | none => true
      | some ws =>
          match ws.phase, ws.turn, ws.scheduler with
          | .init, .peek, m :: _ => decide (cfg.owns w m.userData)
          | .init, .visit, _ => (ws.advanceInit cfg w).phase == .init || leaveCondition s w
          | .main, .peek, m :: _ =>
              s.flushes m.userData == 0 ||
                s.tables[m.userData]?.all fun t => t.isFlushedTo || t.ring.isEmpty
          | _, _, _ => true
  | _ => true

/-! ## How the history changes -/

section

variable {s : State cfg} {w n k : ℕ} {ws ws' : WorkerState} {o : Outcome cfg}

theorem flushes_turn :
    ((s.apply w n o).setWorker w ws').flushes k
      = s.flushes k + if k = n then o.submitted.count .flush else 0 := by
  have hcount : (o.submitted.map (Chain.mk w n)).countP (Chain.isFlushOf k)
      = if k = n then o.submitted.count .flush else 0 := countP_isOf_map (· == .flush) w n k _
  simp only [State.flushes, State.setWorker, State.apply, List.countP_append, hcount]

theorem foundData_report {c : Chain} {cqes : List Cqe} {i : ℕ}
    (h : (s.report i c cqes).FoundData n) :
    s.FoundData n ∨ (c.kind.isInitRead = true ∧ c.table = n) := by
  rcases h with ⟨done, hmem, hfound⟩
  simp only [State.report, List.mem_append, List.mem_singleton] at hmem
  rcases hmem with hmem | rfl
  · exact .inl ⟨done, hmem, hfound⟩
  · simp only [foundData, Bool.and_eq_true, beq_iff_eq] at hfound
    exact .inr hfound.1

end

/-! ## The invariant -/

/-- Initialization is over for SSTable `n`: no read of it is in flight, and data that one found was
noticed. -/
structure Settled (s : State cfg) (n : ℕ) : Prop where
  reads : ∀ c ∈ s.inFlight, c.kind.isInitRead = true → c.table ≠ n
  found : ∀ t, s.tables[n]? = some t → s.FoundData n → t.isFlushedTo = true

/-- The invariant of a run that meets `flushCondition`. -/
structure WriteInvariant (s : State cfg) : Prop where
  inRange : InRange s
  atMostOne : ∀ n, s.flushes n ≤ 1
  /-- A flush that was submitted has been noticed or is waited for. -/
  pending : ∀ n t, s.tables[n]? = some t → s.flushes n ≠ 0 →
    t.isFlushedTo = true ∨ t.waitingOnIo = true
  started : ∀ n, s.flushes n ≠ 0 → s.Started n
  settled : ∀ n, s.Started n → Settled s n
  untouched : ∀ n, s.FoundData n → s.flushes n = 0

theorem WriteInvariant.writeOnce {s : State cfg} (h : WriteInvariant s) : WriteOnce s :=
  fun n => ⟨h.atMostOne n, h.untouched n⟩

theorem writeInvariant_start (slots : ℕ → Stack cfg.maxSstableHeight) (heap : Heap cfg)
    (mem : Memory) : WriteInvariant (State.start slots heap mem) where
  inRange := inRange_start slots heap mem
  atMostOne n := Nat.zero_le 1
  pending n t _ h := absurd rfl h
  started n h := absurd rfl h
  settled n _ := by
    refine ⟨fun c hc => ?_, fun t _ h => ?_⟩
    · cases hc
    · rcases h with ⟨done, hmem, -⟩
      cases hmem
  untouched n _ := rfl

/-! ## The turns keep the invariant -/

section

variable {s : State cfg} {w n : ℕ} {ws ws' : WorkerState} {o : Outcome cfg} {t : SSTableInfo cfg}

/-- Initialization stays over for an SSTable as long as no initialization read is submitted for it
and `is_flushed_to` is not taken back. -/
theorem Settled.turn {k : ℕ} (h : Settled s k) (ht : s.tables[n]? = some t)
    (hread : k = n → ∀ kind ∈ o.submitted, kind.isInitRead = false)
    (hflushed : k = n → t.isFlushedTo = true → o.table.isFlushedTo = true) :
    Settled ((s.apply w n o).setWorker w ws') k := by
  refine ⟨fun c hc hinit => ?_, fun t' ht' hfound => ?_⟩
  · simp only [State.setWorker, State.apply, List.mem_append, List.mem_map] at hc
    rcases hc with hc | ⟨kind, hkind, rfl⟩
    · exact h.reads c hc hinit
    · rintro rfl
      rw [hread rfl kind hkind] at hinit
      cases hinit
  · rcases table_turn ht' with ⟨rfl, rfl⟩ | ⟨-, ht'⟩
    · exact hflushed rfl (h.found t ht hfound)
    · exact h.found t' ht' hfound

/-- A turn that submits no flush. -/
theorem WriteInvariant.turn (hinv : WriteInvariant s)
    (hr : InRange ((s.apply w n o).setWorker w ws'))
    (hmono : ∀ k, s.Started k → ((s.apply w n o).setWorker w ws').Started k)
    (hsettled : ∀ k, ((s.apply w n o).setWorker w ws').Started k →
      Settled ((s.apply w n o).setWorker w ws') k)
    (hflush : .flush ∉ o.submitted)
    (hpending : s.flushes n ≠ 0 → o.table.isFlushedTo = true ∨ o.table.waitingOnIo = true) :
    WriteInvariant ((s.apply w n o).setWorker w ws') := by
  have hsame : ∀ k, ((s.apply w n o).setWorker w ws').flushes k = s.flushes k := by
    intro k
    rw [flushes_turn, List.count_eq_zero.2 hflush, ite_self, Nat.add_zero]
  refine ⟨hr, fun k => ?_, fun k t' ht' h => ?_, fun k h => ?_, hsettled, fun k h => ?_⟩
  · rw [hsame]
    exact hinv.atMostOne k
  · rw [hsame] at h
    rcases table_turn ht' with ⟨rfl, rfl⟩ | ⟨-, ht'⟩
    · exact hpending h
    · exact hinv.pending k t' ht' h
  · rw [hsame] at h
    exact hmono k (hinv.started k h)
  · rw [hsame]
    exact hinv.untouched k h

/-- A message during initialization, for an SSTable of the worker's own. -/
theorem writeInvariant_initMessage (hinv : WriteInvariant s) (hw : s.workers[w]? = some ws)
    (hr : InRange ((s.apply w n (initHandler t)).setWorker w ws')) (hphase : ws.phase = .init)
    (hp : ws'.phase = .init) (hown : cfg.owns w n) (ht : s.tables[n]? = some t) :
    WriteInvariant ((s.apply w n (initHandler t)).setWorker w ws') := by
  have hphases : ws'.phase ≠ .init ↔ ws.phase ≠ .init := by rw [hp, hphase]
  have hnot : ¬ s.Started n := not_ownedIn_of_init hinv.inRange hw hphase hown (by simp)
  refine hinv.turn hr (fun k h => (ownedIn_turn hw hphases).2 h) (fun k h => ?_) ?_ ?_
  · have hstart := (ownedIn_turn hw hphases).1 h
    refine (hinv.settled k hstart).turn ht ?_ ?_
    · rintro rfl
      exact absurd hstart hnot
    · rintro rfl
      exact absurd hstart hnot
  · intro hmem
    simpa [ChainKind.isInitRead] using (initHandler_outcome t).submitted _ hmem
  · intro h
    exact absurd (hinv.started n h) hnot

/-- What `leaveCondition` is for. -/
theorem settled_of_leaveCondition (hc : leaveCondition s w = true) {k : ℕ} (hown : cfg.owns w k) :
    Settled s k := by
  simp only [leaveCondition, Bool.and_eq_true, List.all_eq_true, Bool.not_eq_true',
    Bool.and_eq_false_iff, Bool.or_eq_true, decide_eq_false_iff_not] at hc
  rcases hc with ⟨hflight, hdone⟩
  refine ⟨fun c hmem hinit => ?_, fun t ht hfound => ?_⟩
  · rintro rfl
    rcases hflight c hmem with h | h
    · rw [hinit] at h
      cases h
    · exact h hown
  · rcases hfound with ⟨done, hmem, hdata⟩
    have htable : done.1.table = k := by
      simp only [foundData, Bool.and_eq_true, beq_iff_eq] at hdata
      exact hdata.1.2
    subst htable
    rcases hdone done hmem with (h | h) | h
    · rw [hdata] at h
      cases h
    · exact absurd hown h
    · simpa [ht] using h

/-- A visit during initialization, after which the worker may leave it. -/
theorem writeInvariant_initVisit (hinv : WriteInvariant s) (hw : s.workers[w]? = some ws)
    (hr : InRange ((s.apply w n (openTable t)).setWorker w ws')) (hphase : ws.phase = .init)
    (ht : s.tables[n]? = some t) (hleave : ws'.phase ≠ .init → leaveCondition s w = true) :
    WriteInvariant ((s.apply w n (openTable t)).setWorker w ws') := by
  rcases openTable_outcome t with ⟨hwait, hflushed, hopen⟩
  refine hinv.turn hr ?_ ?_ ?_ ?_
  · intro k hstart
    have happlied : (s.apply w n (openTable t)).Started k := hstart
    exact happlied.setWorker hw fun hne => absurd hphase hne
  · intro k hstart
    have hsettled : Settled s k := by
      rcases ownedIn_of_setWorker hstart with hold | ⟨hleft, hown⟩
      · exact hinv.settled k hold
      · exact settled_of_leaveCondition (hleave hleft) hown
    refine hsettled.turn ht (fun _ kind hkind => ?_) fun _ h => hflushed.trans h
    rw [hopen kind hkind]
    rfl
  · intro hmem
    cases hopen _ hmem
  · intro h
    rw [hwait, hflushed]
    exact hinv.pending n t ht h

/-- A message in the main loop that finds the ring empty or the flush noticed, if there was
one. -/
theorem writeInvariant_mainMessage (hinv : WriteInvariant s) (hw : s.workers[w]? = some ws)
    (hr : InRange ((s.apply w n o).setWorker w ws')) (hphase : ws.phase = .main)
    (hp : ws'.phase = .main) (ht : s.tables[n]? = some t) {fuel level : ℕ}
    (ho : mainHandler s.heap s.mem fuel level t = .ok o)
    (hc : s.flushes n = 0 ∨ t.isFlushedTo = true ∨ t.ring = []) :
    WriteInvariant ((s.apply w n o).setWorker w ws') := by
  have hphases : ws'.phase ≠ .init ↔ ws.phase ≠ .init := by rw [hp, hphase]
  have hsub : ∀ kind ∈ o.submitted, kind ≠ .flush ∧ kind.isInitRead = false := by
    intro kind hkind
    rcases mainHandler_cases ho with ⟨-, rfl⟩ | ⟨-, t₁, r, -, -, rfl⟩
    · simp at hkind
    · simp only [outcomeOf, Option.mem_toList, Option.map_eq_some_iff] at hkind
      rcases hkind with ⟨reads, -, rfl⟩
      exact ⟨by simp, rfl⟩
  have hflushed : (t.isFlushedTo = true ∨ t.ring = []) → o.table.isFlushedTo = true := by
    rcases mainHandler_cases ho with ⟨-, rfl⟩ | ⟨hne, t₁, r, htake, hread, rfl⟩
    · intro _
      rfl
    · rintro (h | h)
      · change r.table.isFlushedTo = true
        rw [(SSTableInfo.tryRead_untouched hread).isFlushedTo, (takeCompletions_untouched htake).2,
          h]
      · exact absurd h hne
  refine hinv.turn hr (fun k h => (ownedIn_turn hw hphases).2 h) (fun k h => ?_) ?_ ?_
  · refine (hinv.settled k ((ownedIn_turn hw hphases).1 h)).turn ht ?_ ?_
    · exact fun _ kind hkind => (hsub kind hkind).2
    · exact fun _ h => hflushed (.inl h)
  · exact fun hmem => (hsub _ hmem).1 rfl
  · intro h
    exact .inl (hflushed (hc.resolve_left h))

/-- **A flush.**  It is the first one, and the file was found empty. -/
theorem writeInvariant_flush (hinv : WriteInvariant s) (hw : s.workers[w]? = some ws)
    (hr : InRange ((s.apply w n o).setWorker w ws')) (hphase : ws.phase = .main)
    (hp : ws'.phase = .main) (hown : cfg.owns w n) (ht : s.tables[n]? = some t)
    (hdown : t.waitingOnIo = false) (hfresh : t.isFlushedTo = false)
    (hsub : o.submitted = [.flush]) (hup : o.table.waitingOnIo = true)
    (hflushed : o.table.isFlushedTo = t.isFlushedTo) :
    WriteInvariant ((s.apply w n o).setWorker w ws') := by
  have hphases : ws'.phase ≠ .init ↔ ws.phase ≠ .init := by rw [hp, hphase]
  have hstart : s.Started n := ⟨w, ws, hw, by simp [hphase], hown⟩
  have hfirst : s.flushes n = 0 := by
    by_contra h
    rcases hinv.pending n t ht h with h | h
    · rw [hfresh] at h
      cases h
    · rw [hdown] at h
      cases h
  have hempty : ¬ s.FoundData n := by
    intro h
    rw [(hinv.settled n hstart).found t ht h] at hfresh
    cases hfresh
  have hcount : ∀ k, ((s.apply w n o).setWorker w ws').flushes k
      = s.flushes k + if k = n then 1 else 0 := by
    intro k
    rw [flushes_turn, hsub, List.count_singleton_self]
  refine ⟨hr, fun k => ?_, fun k t' ht' h => ?_, fun k h => ?_, fun k h => ?_, fun k h => ?_⟩
  · rw [hcount]
    split_ifs with hk
    · rw [hk, hfirst]
    · exact hinv.atMostOne k
  · rcases table_turn ht' with ⟨rfl, rfl⟩ | ⟨hk, ht'⟩
    · exact .inr hup
    · rw [hcount, if_neg hk] at h
      exact hinv.pending k t' ht' h
  · refine (ownedIn_turn hw hphases).2 ?_
    by_cases hk : k = n
    · rw [hk]
      exact hstart
    · rw [hcount, if_neg hk] at h
      exact hinv.started k h
  · refine (hinv.settled k ((ownedIn_turn hw hphases).1 h)).turn ht ?_ ?_
    · intro _ kind hkind
      rw [hsub, List.mem_singleton] at hkind
      rw [hkind]
      rfl
    · exact fun _ h => hflushed.trans h
  · have hk : k ≠ n := by
      rintro rfl
      exact hempty h
    rw [hcount, if_neg hk]
    exact hinv.untouched k h

/-- A visit in the main loop. -/
theorem writeInvariant_mainVisit (hinv : WriteInvariant s) (hw : s.workers[w]? = some ws)
    (hr : InRange ((s.apply w n o).setWorker w ws')) (hphase : ws.phase = .main)
    (hp : ws'.phase = .main) (hown : cfg.owns w n) (ht : s.tables[n]? = some t)
    (hflushed : o.table.isFlushedTo = t.isFlushedTo) (hvisit : VisitOutcome t o) :
    WriteInvariant ((s.apply w n o).setWorker w ws') := by
  have hphases : ws'.phase ≠ .init ↔ ws.phase ≠ .init := by rw [hp, hphase]
  have hquiet : (∀ kind ∈ o.submitted, kind ≠ .flush ∧ kind.isInitRead = false) →
      (t.isFlushedTo = true ∨ t.waitingOnIo = true →
        o.table.isFlushedTo = true ∨ o.table.waitingOnIo = true) →
      WriteInvariant ((s.apply w n o).setWorker w ws') := by
    intro hsub hkeep
    refine hinv.turn hr (fun k h => (ownedIn_turn hw hphases).2 h) (fun k h => ?_) ?_ ?_
    · refine (hinv.settled k ((ownedIn_turn hw hphases).1 h)).turn ht ?_ ?_
      · exact fun _ kind hkind => (hsub kind hkind).2
      · exact fun _ h => hflushed.trans h
    · exact fun hmem => (hsub _ hmem).1 rfl
    · exact fun h => hkeep (hinv.pending n t ht h)
  cases hvisit with
  | quiet hsub hsame =>
      refine hquiet (fun kind hkind => ?_) fun h => ?_
      · rw [hsub] at hkind
        cases hkind
      · rw [hflushed, hsame]
        exact h
  | flush hdown hfresh hsub hup =>
      exact writeInvariant_flush hinv hw hr hphase hp hown ht hdown hfresh hsub hup hflushed
  | search issued hdown hsub _ =>
      refine hquiet (fun kind hkind => ?_) fun h => ?_
      · simp only [hsub, Option.mem_toList, Option.map_eq_some_iff] at hkind
        rcases hkind with ⟨reads, -, rfl⟩
        exact ⟨by simp, rfl⟩
      · rw [hdown] at h
        exact .inl (hflushed.trans (h.resolve_right (by simp)))

end

/-! ## Every event keeps the invariant -/

section

variable {s s' : State cfg}

/-- A change outside that keeps the history, the chains in flight, the phases and the flags. -/
theorem WriteInvariant.outside (hinv : WriteInvariant s) (hr : InRange s')
    (hflags : SameFlags s.tables s'.tables) (hsub : s'.submitted = s.submitted)
    (hflight : ∀ c ∈ s'.inFlight, c ∈ s.inFlight)
    (hstart : ∀ n, s'.Started n ↔ s.Started n)
    (hfound : ∀ n, s'.FoundData n → s.FoundData n ∨ ¬ s.Started n) : WriteInvariant s' := by
  have hsame : ∀ n, s'.flushes n = s.flushes n := fun n => by
    simp only [State.flushes, hsub]
  refine ⟨hr, fun n => ?_, fun n t' ht' h => ?_, fun n h => ?_, fun n h => ⟨?_, ?_⟩, fun n h => ?_⟩
  · rw [hsame]
    exact hinv.atMostOne n
  · rcases hflags n t' ht' with ⟨t, ht, hw, hf⟩
    rw [hsame] at h
    rw [hw, hf]
    exact hinv.pending n t ht h
  · rw [hsame] at h
    exact (hstart n).2 (hinv.started n h)
  · exact fun c hc => (hinv.settled n ((hstart n).1 h)).reads c (hflight c hc)
  · intro t' ht' hdata
    rcases hflags n t' ht' with ⟨t, ht, -, hf⟩
    have hold := (hstart n).1 h
    rw [hf]
    exact (hinv.settled n hold).found t ht ((hfound n hdata).resolve_right (not_not.2 hold))
  · rw [hsame]
    rcases hfound n h with h | h
    · exact hinv.untouched n h
    · by_contra hne
      exact h (hinv.started n hne)

theorem writeInvariant_turn (hinv : WriteInvariant s) {w fuel : ℕ} {transfers : Transfers cfg}
    {ws : WorkerState} (hw : s.workers[w]? = some ws) (hturn : TurnResult s w ws s')
    (hc : flushCondition s (.run w fuel transfers) = true) (hr : InRange s') :
    WriteInvariant s' := by
  simp only [flushCondition, hw] at hc
  have hown := (hinv.inRange w ws hw).1
  cases hturn with
  | stay => exact hinv
  | noMessage =>
      refine hinv.outside hr (fun n t h => ⟨t, h, rfl, rfl⟩) rfl (fun c h => h) (fun n => ?_)
        fun n h => .inl h
      exact ownedIn_setWorker hw Iff.rfl
  | initMessage hphase hpeek hs ht =>
      simp only [hphase, hpeek, hs, decide_eq_true_eq] at hc
      exact writeInvariant_initMessage hinv hw hr hphase hphase hc ht
  | initVisit hphase hvisit ht =>
      simp only [hphase, hvisit, Bool.or_eq_true, beq_iff_eq] at hc
      exact writeInvariant_initVisit hinv hw hr hphase ht fun h => hc.resolve_left h
  | enterMain hphase hs =>
      refine hinv.outside hr (fun n t h => ⟨t, h, rfl, rfl⟩) rfl (fun c h => h) (fun n => ?_)
        fun n h => .inl h
      exact ownedIn_setWorker hw (by simp [hphase])
  | @mainMessage m ms t fuel' o hphase hpeek hs ht ho =>
      simp only [hphase, hpeek, hs, ht, Bool.or_eq_true, beq_iff_eq, Option.all_some,
        List.isEmpty_iff] at hc
      exact writeInvariant_mainMessage hinv hw hr hphase hphase ht ho hc
  | mainVisit hphase hvisit ht ho =>
      rcases visitTable_outcome ho with ⟨hflushed, hout⟩
      exact writeInvariant_mainVisit hinv hw hr hphase hphase hown ht hflushed hout

/-- **The step lemma.** -/
theorem writeInvariant_step {e : Event cfg} (hinv : WriteInvariant s)
    (hc : flushCondition s e = true) (h : step s e = .ok s') : WriteInvariant s' := by
  have hr := inRange_step hinv.inRange h
  cases step_result h with
  | unchanged => exact hinv
  | @reported k c cqes hk =>
      refine hinv.outside hr (report_sameFlags s k c cqes) rfl
        (fun d hd => List.mem_of_mem_eraseIdx hd) (fun n => ownedIn_report k c cqes) fun n h => ?_
      rcases foundData_report h with h | ⟨hinit, rfl⟩
      · exact .inl h
      · refine .inr fun hstart => ?_
        exact (hinv.settled c.table hstart).reads c (List.mem_of_getElem? hk) hinit rfl
  | announced =>
      exact hinv.outside hr (fun n t h => ⟨t, h, rfl, rfl⟩) rfl (fun c h => h)
        (fun n => ownedIn_post _) fun n h => .inl h
  | outside hsame =>
      exact hinv.outside hr hsame rfl (fun c h => h) (fun n => Iff.rfl) fun n h => .inl h
  | turned hws hturn => exact writeInvariant_turn hinv hws hturn hc hr

/-- **SSTables are written once.**  In every run, from the start of the threads on, for any order
of completions and arrivals: if every event meets `flushCondition`, then at most one flush is ever
submitted for each SSTable, and none for one whose initialization read found data. -/
theorem writeOnce_throughout {slots : ℕ → Stack cfg.maxSstableHeight} {heap : Heap cfg}
    {mem : Memory} {events : List (Event cfg)}
    (h : StepsMeet step (fun s e => flushCondition s e = true) (State.start slots heap mem)
      events) :
    Throughout step WriteOnce (State.start slots heap mem) events := by
  have hrun : Throughout step WriteInvariant (State.start slots heap mem) events :=
    throughout_of_stepsMeet (fun _ _ _ hinv hc hs => writeInvariant_step hinv hc hs)
      (writeInvariant_start slots heap mem) h
  exact hrun.mono fun s hs => hs.writeOnce

end

/-! ## Two runs -/

/-- A memtable on its way to an SSTable. -/
def compactionBatch (cfg : Config) : RequestBatch cfg :=
  RequestBatch.zeroed cfg .compaction

/-- The reads of SSTables 2 and 3 are reported before the files of SSTables 0 and 1 are open; the
worker goes on, takes the announcement for the report of a flush of SSTable 1, and flushes to
SSTable 0. -/
def flushRun : List (Event fourTableConfig) :=
  turns 0 8 ++ [.complete 2 [⟨0, 9⟩], .complete 2 [⟨0, 10⟩]] ++ turns 0 8 ++
    [.complete 2 [⟨0, 0⟩, ⟨0, 0⟩], .complete 2 [⟨0, 0⟩, ⟨0, 0⟩]] ++ turns 0 8 ++
    [.announce 0 1] ++ turns 0 2 ++ [.arrive 0 0] ++ turns 0 1 ++ [.complete 2 []] ++ turns 0 1

/-- `flushRun` meets the condition, and submits a flush. -/
theorem writeOnce_throughout_flushRun :
    StepsMeet step (fun s e => flushCondition s e = true)
        (State.start (fun _ => Stack.zeroed _) [compactionBatch _] fun _ => 0)
        flushRun ∧
      Throughout step WriteOnce
        (State.start (fun _ => Stack.zeroed _) [compactionBatch _] fun _ => 0)
        flushRun ∧
      okAnd (runEvents step
          (State.start (fun _ => Stack.zeroed _) [compactionBatch _] fun _ => 0)
          flushRun)
        (fun s => s.flushes 0 == 1 && s.tables[0]?.any SSTableInfo.isFlushedTo) = true := by
  have hmeets : StepsMeet step (fun s e => flushCondition s e = true)
      (State.start (fun _ => Stack.zeroed _) [compactionBatch _] fun _ => 0)
      flushRun := by
    decide +kernel
  exact ⟨hmeets, writeOnce_throughout hmeets, by decide +kernel⟩

/-- Two workers with two SSTables each. -/
def twoByTwoConfig : Config := resizedConfig 8 2 2 Nat.two_pos two_le_uintMax Nat.two_pos

/-- Worker 0 counts SSTable 1 after each of its two pairs of reads and leaves initialization with
the first reads of SSTable 0 in flight; worker 1 does the same with SSTables 2 and 3, so the network
ring is announced.  Its descriptor is taken for SSTable 3, whose ring is empty.  Then the reads of
SSTable 0 fill both buffers, and a compaction arrives there before the report is handled. -/
def overwriteRun : List (Event twoByTwoConfig) :=
  turns 0 4 ++ [.complete 0 [⟨0, 6⟩], .complete 0 [⟨0, 7⟩]] ++ turns 0 4 ++
    [fullReads 1] ++ turns 0 4 ++ [fullReads 1] ++ turns 0 4 ++
    turns 1 4 ++ [.complete 2 [⟨0, 8⟩]] ++ turns 1 4 ++
    [fullReads 3] ++ turns 1 4 ++ [fullReads 3] ++ turns 1 4 ++
    [.announce 0 3] ++ turns 0 2 ++ [fullReads 0, .arrive 0 0] ++ turns 0 1

/-- A flush is submitted for SSTable 0, whose initialization reads found data. -/
theorem overwriteRun_not_writeOnce :
    ¬ Throughout step WriteOnce
      (State.start (fun _ => Stack.zeroed _)
        [compactionBatch twoByTwoConfig] fun _ => 0) overwriteRun := by
  intro h
  have hend : okAnd (runEvents step
      (State.start (fun _ => Stack.zeroed _)
        [compactionBatch twoByTwoConfig] fun _ => 0) overwriteRun)
      (fun s => s.flushes 0 == 1 && s.completed.any (foundData 0)) = true := by
    decide +kernel
  rcases okAnd_iff.1 hend with ⟨s, hs, hfinal⟩
  simp only [Bool.and_eq_true, beq_iff_eq, List.any_eq_true] at hfinal
  have hzero : s.flushes 0 = 0 := (h.final hs 0).2 hfinal.2
  rw [hfinal.1] at hzero
  cases hzero

end Worker

end RingDB
