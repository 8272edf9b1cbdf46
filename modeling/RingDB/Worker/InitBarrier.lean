import RingDB.Worker.InitCounting

/-!
# The barrier of initialization

The events of a run one by one, each of which keeps `BarrierInvariant` if it counts right, and the
case of more workers than SSTables, in which no worker initializes at all.

* `BarrierInvariant.initMessage`, `BarrierInvariant.initVisit`, `BarrierInvariant.mainTurn`,
  `BarrierInvariant.report` — the events.
* **`barrier_holds`** — the barrier holds in every run in which no completion of an opening counts,
  and the one behind it counts for the report of the first pair of reads only.
-/

namespace RingDB

open Core

namespace Worker

variable {cfg : Config}

section

variable {files : ℕ → SSTableFile} {s : Counting cfg} {w n : ℕ} {ws ws' : WorkerState}
  {o : Outcome cfg} {t : SSTableInfo cfg} {m : Message} {ms : List Message}

/-- An announcement is no report. -/
theorem view_announcement (s : State cfg) (v fd n : ℕ) (t : SSTableInfo cfg) :
    (s.post v (.announcement fd)).view n t = s.view n t := by
  have hreported : (s.post v (.announcement fd)).workers.flatMap WorkerState.reported
      = s.workers.flatMap WorkerState.reported := by
    rw [List.flatMap_def, List.flatMap_def]
    congr 1
    refine List.ext_getElem? fun k => ?_
    simp only [State.post, List.getElem?_map, List.getElem?_modify]
    cases s.workers[k]? with
    | none => simp
    | some ws =>
        simp only [Option.map_eq_map, Option.map_some]
        split_ifs <;> simp [WorkerState.reported, WorkerState.receive, Message.chain?]
  simp only [State.view, hreported]
  rfl

/-- What has been read stays read. -/
theorem State.ReadCompletely.mono {s s' : State cfg} (hsub : ∀ r ∈ s.completed, r ∈ s'.completed)
    (h : s.ReadCompletely files n) : s'.ReadCompletely files n := by
  have hhalf : ∀ {offset j res}, s.HalfRead n offset j res → s'.HalfRead n offset j res := by
    rintro offset j res ⟨c, cqes, cqe, hc, hrest⟩
    exact ⟨c, cqes, cqe, hsub _ hc, hrest⟩
  refine ⟨fun b hb => ?_, ?_⟩
  · rcases h.1 b hb with ⟨offset, j, res, hread, hin⟩
    exact ⟨offset, j, res, hhalf hread, hin⟩
  · rcases h.2 with ⟨offset, j, res, hread, hend⟩
    exact ⟨offset, j, res, hhalf hread, hend⟩

/-- A chain completes. -/
theorem BarrierInvariant.report {k : ℕ} {c : Chain} {cqes : List Cqe}
    (h : BarrierInvariant files s) (hc : s.base.inFlight[k]? = some c)
    (hposts : c.kind.posts cqes = true)
    (hallowed : AllowedResults cfg (files c.table) c.kind cqes)
    (hr : InRange (s.base.report k c cqes)) :
    BarrierInvariant files ⟨s.base.report k c cqes, s.entries⟩ := by
  have hmem := List.mem_of_getElem? hc
  rcases h.progress_post c.worker (.done c) with ⟨hcounted, hleft⟩
  rcases h.receive (m := .done c) c.worker (by rintro d ⟨⟩; exact h.flights c hmem)
    (by rintro fd ⟨⟩) with ⟨hreports, hannounced⟩
  have hlength : (s.base.report k c cqes).tables.length = s.base.tables.length :=
    List.length_modify ..
  exact
    { inRange := hr
      numTables := hlength.trans h.numTables
      once := h.once
      inTables := fun n hn => hlength ▸ h.inTables n hn
      read := fun n hn => (h.read n hn).mono fun r hr => List.mem_append_left _ hr
      numRead := h.numRead
      counted := hcounted
      left := hleft
      flights := fun d hd => h.flights d (List.mem_of_mem_eraseIdx hd)
      senders := fun d hd =>
        (length_post ..).symm ▸ h.senders d (List.mem_of_mem_eraseIdx hd)
      reports := hreports
      announced := fun w ws hws fd hfd n hn => hannounced w ws hws fd hfd n (hlength ▸ hn)
      allowed := by
        intro d qs hd
        rcases List.mem_append.1 hd with hd | hd
        · exact h.allowed d qs hd
        · cases List.mem_singleton.1 hd
          exact hallowed
      stages := by
        intro n t' ht' hn
        have htables : (s.base.tables.modify c.table fun t =>
            { t with ring := t.ring ++ cqes })[n]? = some t' := ht'
        rw [List.getElem?_modify, Option.map_eq_map, Option.map_eq_some_iff] at htables
        rcases htables with ⟨t, ht, rfl⟩
        rcases h.stages n t ht hn with hopening | ⟨c₀, c₁, rest, hring, hnot⟩
        · have hw := List.getElem?_eq_getElem (h.senders c hmem)
          exact .inl (hopening.completed hc hposts hw rfl)
        · right
          split_ifs
          · exact ⟨c₀, c₁, rest ++ cqes, by simp [hring], hnot⟩
          · exact ⟨c₀, c₁, rest, hring, hnot⟩
      posted := h.posted.report hc hposts }

/-- An SSTable that comes short in the first half of its first read is read completely. -/
theorem readCompletely_of_short {s : State cfg} {c : Chain} {y z : Cqe}
    (hc : (c, [y, z]) ∈ s.completed) (hkind : c.kind = .initRead 0)
    (hallowed : AllowedResults cfg (files c.table) c.kind [y, z]) (hshort : cfg.short y.res)
    (hres : 0 ≤ y.res) : s.ReadCompletely files c.table := by
  have hhalf : s.HalfRead c.table 0 0 y.res := ⟨c, [y, z], y, hc, rfl, hkind, rfl, rfl⟩
  have hsize : (files c.table).size ≤ y.res := by
    have hfile : (files c.table).Allowed cfg 0 y.res := by
      simp only [AllowedResults, hkind] at hallowed
      simpa using hallowed (y, 0) (by simp)
    unfold SSTableFile.Allowed at hfile
    rcases hfile with ⟨hlt, hpos, hzero⟩
    have huint : ReadWritePool.toUint y.res = y.res.toNat := by
      unfold ReadWritePool.toUint
      rw [Int.emod_eq_of_lt hres (by omega)]
    unfold Config.short at hshort
    rw [huint] at hshort
    rcases hres.lt_or_eq with hbytes | hnone
    · have hend := (hpos hbytes).2 (by omega)
      omega
    · have hend := hzero hnone.symm
      omega
  refine ⟨fun b hb => ⟨0, 0, y.res, hhalf, by omega, by omega⟩, 0, 0, y.res, hhalf, hres, by omega⟩

/-- What is known of an SSTable that is not counted when a message of it is handled: its opening is
reported, or its first read is, or it is one that is never counted. -/
theorem BarrierInvariant.handled {c : Chain} (h : BarrierInvariant files s)
    (hws : s.base.workers[w]? = some ws) (hs : ws.scheduler = .done c :: ms)
    (ht : s.base.tables[c.table]? = some t) (hnot : c.table ∉ s.entries) :
    (Opening (s.base.view c.table t) ∧ c.kind = .openFile ∧ ∃ x, t.ring = [x]) ∨
      (c.kind = .initRead 0 ∧ ∃ x y z, t.ring = [x, y, z] ∧ (c, [y, z]) ∈ s.base.completed) ∨
      NeverCounted t := by
  rcases h.stages _ t ht hnot with hopening | hnever
  · rcases exists_reported hws hs with ⟨before, after, hreported, -⟩
    rcases hopening.reported_cases hreported with
      ⟨hopen, x, -, -, hring⟩ | ⟨hread, o, x, y, z, -, -, hcompleted, hring⟩
    · exact .inl ⟨hopening, hopen, x, hring⟩
    · refine .inr (.inl ⟨hread, x, y, z, hring, ?_⟩)
      have hmem : (c, [y, z]) ∈ s.base.completed.filter (·.1.table == c.table) := by
        rw [show s.base.completed.filter (·.1.table == c.table) = [(o, [x]), (c, [y, z])]
          from hcompleted]
        simp
      exact List.mem_of_mem_filter hmem
  · exact .inr (.inr hnever)

/-- A message that is taken out is a report of the SSTable it names, or of none. -/
theorem reported_taken {k : ℕ} (hs : ws.scheduler = m :: ms) (hs' : ws'.scheduler = ms)
    (hk : m.userData ≠ k) :
    ws'.reported.filter (·.table == k) = ws.reported.filter (·.table == k) := by
  cases m with
  | done c =>
      have hne : c.table ≠ k := hk
      simp [WorkerState.reported, hs, hs', Message.chain?, hne]
  | announcement fd => simp [WorkerState.reported, hs, hs', List.filterMap_cons, Message.chain?]

/-- A message that counts nothing: the first read is submitted, or the same two completions stay for
ever. -/
theorem BarrierInvariant.uncounted_handled {c : Chain} (h : BarrierInvariant files s)
    (hws : s.base.workers[w]? = some ws) (hs : ws.scheduler = .done c :: ms)
    (hs' : ws'.scheduler = ms) (ht : s.base.tables[c.table]? = some t)
    (hC : ringCounts s.base (.done c) t.ring) (hcount : (initHandler t).counted = 0)
    (hnot : c.table ∉ s.entries) :
    Uncounted ((s.base.apply w c.table (initHandler t)).setWorker w ws') c.table
      (initHandler t).table := by
  rcases h.handled hws hs ht hnot with
    ⟨hopening, hopen, x, hring⟩ | ⟨-, x, y, z, hring, -⟩ | ⟨c₀, c₁, rest, hring, hfull⟩
  · have hhandler : initHandler t
        = { table := { t with desiredSstableOffset := 0 }, submitted := [.initRead 0] } := by
      rw [initHandler, hring]
    rw [hhandler]
    exact .inl (hopening.handled hws hs hs' hopen)
  · rw [hring] at hC
    rcases hC with ⟨hx, -⟩
    refine .inr ⟨x, y, [z], (initHandler_ring t).trans hring, hx, fun hy => ?_⟩
    rw [(initHandler_short hring hx hy).1] at hcount
    cases hcount
  · exact .inr ⟨c₀, c₁, rest, (initHandler_ring t).trans hring, hfull⟩

/-- A message that counts an SSTable that was not: the first half of its first read came short. -/
theorem BarrierInvariant.read_handled {c : Chain} {c₀ c₁ : Cqe} {rest : List Cqe}
    (h : BarrierInvariant files s) (hws : s.base.workers[w]? = some ws)
    (hs : ws.scheduler = .done c :: ms) (ht : s.base.tables[c.table]? = some t)
    (hring : t.ring = c₀ :: c₁ :: rest) (hshort : cfg.short c₁.res) (hres : 0 ≤ c₁.res)
    (hnot : c.table ∉ s.entries) : s.base.ReadCompletely files c.table := by
  rcases h.handled hws hs ht hnot with
    ⟨-, -, x, hone⟩ | ⟨hkind, x, y, z, hthree, hmem⟩ | ⟨d₀, d₁, rest', hring', -, hlong⟩
  · rw [hring] at hone
    cases hone
  · rw [hring] at hthree
    cases hthree
    exact readCompletely_of_short hmem hkind (h.allowed _ _ hmem) hshort hres
  · rw [hring] at hring'
    cases hring'
    exact absurd hshort hlong

/-- The report of its first read is the only one of an SSTable that is being opened and read. -/
theorem none_reported {s : State cfg} {c : Chain} (hws : s.workers[w]? = some ws)
    (hs : ws.scheduler = .done c :: ms) (hs' : ws'.scheduler = ms)
    (hopening : Opening (s.view c.table t)) :
    ((s.workers.set w ws').flatMap WorkerState.reported).filter (·.table == c.table) = [] := by
  rcases exists_reported hws hs with ⟨before, after, hreported, hnew⟩
  rcases hopening.alone hreported with ⟨rfl, hrest⟩
  rcases List.append_eq_nil_iff.1 hrest with ⟨hms, rfl⟩
  rw [hnew ws', WorkerState.reported, hs', hms]
  rfl

/-- What is submitted during initialization leaves completions. -/
theorem leavesCqe_initHandler (t : SSTableInfo cfg) :
    ∀ kind ∈ (initHandler t).submitted, kind.LeavesCqe := by
  have hread : ∀ kinds : List ChainKind, (∃ offset, kinds = [.initRead offset]) ∨ kinds = [] →
      ∀ kind ∈ kinds, kind.LeavesCqe := by
    rintro _ (⟨offset, rfl⟩ | rfl) kind hkind
    · cases List.mem_singleton.1 hkind
      exact ChainKind.leavesCqe_initRead offset
    · cases hkind
  refine hread _ ?_
  unfold initHandler
  split
  · simp only [initResult]
    split_ifs <;> simp_all
  · exact .inl ⟨0, rfl⟩

theorem leavesCqe_openTable (t : SSTableInfo cfg) :
    ∀ kind ∈ (openTable t).submitted, kind.LeavesCqe := by
  intro kind hkind
  unfold openTable at hkind
  split_ifs at hkind
  · cases List.mem_singleton.1 hkind
    exact ChainKind.leavesCqe_openFile
  · cases hkind

/-- A message that counts is the report of the first read of an SSTable that was not counted. -/
theorem BarrierInvariant.first_report {c₀ c₁ : Cqe} {rest : List Cqe}
    (h : BarrierInvariant files s) (hws : s.base.workers[w]? = some ws) (hphase : ws.phase = .init)
    (hs : ws.scheduler = m :: ms) (ht : s.base.tables[m.userData]? = some t)
    (hring : t.ring = c₀ :: c₁ :: rest) (hshort : cfg.short c₁.res)
    (hC : cfg.short c₁.res → 0 ≤ c₁.res ∧ m.chain?.isSome = true ∧
      (s.base.posted m.userData).length = 3) :
    ∃ c, m = .done c ∧ m.userData ∉ s.entries ∧ s.base.ReadCompletely files m.userData ∧
      Opening (s.base.view m.userData t) := by
  rcases hC hshort with ⟨hres, hreport, hthree⟩
  cases m with
  | announcement fd => cases hreport
  | done c =>
      have hnot : c.table ∉ s.entries := by
        intro hmem
        have hmore := h.posted.reported w ws hws hphase c (hs ▸ List.mem_cons_self) hmem
        exact hmore.ne' hthree
      refine ⟨c, rfl, hnot, h.read_handled hws hs ht hring hshort hres hnot, ?_⟩
      rcases h.stages _ t ht hnot with hopening | ⟨d₀, d₁, rest', hring', -, hlong⟩
      · exact hopening
      · rw [hring] at hring'
        cases hring'
        exact absurd hshort hlong

/-- **A message is handled during initialization.** -/
theorem BarrierInvariant.initMessage (h : BarrierInvariant files s)
    (hws : s.base.workers[w]? = some ws) (hphase : ws.phase = .init)
    (hs : ws.scheduler = m :: ms) (ht : s.base.tables[m.userData]? = some t)
    (hC : ringCounts s.base m t.ring)
    (hws' : ws' = { ws with
      turn := .visit
      scheduler := ms
      numInitializedRead := ws.numInitializedRead + (initHandler t).counted })
    (hr : InRange ((s.base.apply w m.userData (initHandler t)).setWorker w ws')) :
    BarrierInvariant files ⟨(s.base.apply w m.userData (initHandler t)).setWorker w ws',
      s.entries ++ List.replicate (initHandler t).counted m.userData⟩ := by
  have hs' : ws'.scheduler = ms := by rw [hws']
  have hnamed := h.named hws hs ht
  have hdone : m.userData ∉ s.entries → cfg.waitsFor w m.userData = true ∧ ∃ c, m = .done c :=
    fun hnot => hnamed.resolve_left hnot
  have hsub : ∀ m' ∈ ws'.scheduler, m' ∈ ws.scheduler := by
    intro m' hm'
    rw [hs]
    rw [hs'] at hm'
    exact List.mem_cons_of_mem _ hm'
  have hturn := fun honce hadd hself =>
    h.turn hws (List.replicate (initHandler t).counted m.userData) hr
      (List.getElem?_eq_some_iff.1 ht).1 honce hadd (List.length_replicate ..).symm
      (fun _ => ⟨hphase, by simp [hws']⟩) (fun hne => absurd (by simp [hws', hphase]) hne) hsub
      (fun _ => hnamed.imp id And.left) (fun k hk => reported_taken hs hs' hk) hself
  have hposted : CqesPosted s.entries
      ((s.base.apply w m.userData (initHandler t)).setWorker w ws') :=
    h.posted.turn hws (fun _ => hphase) hsub fun _ => leavesCqe_initHandler t
  by_cases hcount : (initHandler t).counted = 0
  · refine hturn (by simpa [hcount] using h.once) (by simp [hcount]) (fun hnot => ?_)
      (by simpa [hcount] using hposted)
    simp only [hcount, List.replicate_zero, List.append_nil] at hnot
    rcases hdone hnot with ⟨-, c, rfl⟩
    exact h.uncounted_handled hws hs hs' ht hC hcount hnot
  · rcases exists_ring_of_counted hcount with ⟨c₀, c₁, rest, hring⟩
    have hC' : ringCounts s.base m (c₀ :: c₁ :: rest) := hring ▸ hC
    have hshort : cfg.short c₁.res := by
      by_contra hlong
      exact hcount (initHandler_uncounted hring hC'.1 hlong)
    rcases h.first_report hws hphase hs ht hring hshort hC'.2 with ⟨c, rfl, hnot, hread, hopening⟩
    have hnone := none_reported hws hs hs' hopening
    rw [(initHandler_short hring hC'.1 hshort).1] at hturn ⊢
    refine hturn ?_ ?_ (fun hnot' => absurd (by simp) hnot')
      (hposted.count (hC'.2 hshort).2.2 hnone)
    · simp only [List.replicate_one]
      exact h.once.append (List.nodup_singleton _) (by simpa using hnot)
    · intro k hk
      cases List.mem_singleton.1 hk
      exact ⟨rfl, (hdone hnot).1, hread⟩

/-- A worker that has counted as many SSTables as it waits for has counted them all. -/
theorem BarrierInvariant.batch_counted (h : BarrierInvariant files s)
    (hws : s.base.workers[w]? = some ws) (hphase : ws.phase = .init)
    (hnum : cfg.workerSstableBatchSize ≤ ws.numInitializedRead) {k : ℕ}
    (hk : cfg.waitsFor w k = true) : k ∈ s.entries := by
  rw [h.counted w ws hws hphase] at hnum
  have hall : ∀ n, cfg.firstSstableNum w ≤ n →
      n < cfg.firstSstableNum w + cfg.workerSstableBatchSize →
      n ∈ s.entries.filter (cfg.waitsFor w) := by
    refine mem_of_nodup_of_length (h.once.filter _) (fun x hx => ?_) (by omega)
    exact Config.waitsFor_iff.1 (List.mem_filter.1 hx).2
  rcases Config.waitsFor_iff.1 hk with ⟨hle, hlt⟩
  exact List.mem_of_mem_filter (hall k hle hlt)

/-- The visit of an SSTable during initialization, after which the worker may leave it. -/
theorem BarrierInvariant.initVisit (h : BarrierInvariant files s)
    (hws : s.base.workers[w]? = some ws) (hphase : ws.phase = .init)
    (ht : s.base.tables[ws.i]? = some t)
    (hr : InRange ((s.base.apply w ws.i (openTable t)).setWorker w (ws.advanceInit cfg w))) :
    BarrierInvariant files
      ⟨(s.base.apply w ws.i (openTable t)).setWorker w (ws.advanceInit cfg w), s.entries⟩ := by
  rcases h.inRange w ws hws with ⟨howns, hpos⟩
  rcases @advanceInit_keeps cfg w ws with ⟨hscheduler, hnum⟩
  rcases openTable_quiet t with ⟨hcounted, hring⟩
  have hposted : CqesPosted s.entries
      ((s.base.apply w ws.i (openTable t)).setWorker w (ws.advanceInit cfg w)) :=
    h.posted.turn hws (fun _ => hphase) (fun m hm => hscheduler ▸ hm) fun _ =>
      leavesCqe_openTable t
  have hturn := h.turn hws [] hr (List.getElem?_eq_some_iff.1 ht).1
    (by simpa using h.once) (by simp) hcounted (fun _ => ⟨hphase, by simp [hnum]⟩)
    (fun hout k hk => ?_) (fun m hm => hscheduler ▸ hm)
    (fun _ => .inr ((Config.waitsFor_iff_owns (hpos hphase)).2 howns)) (fun k _ => ?_)
    (fun hnot => ?_) (by simpa using hposted)
  · simpa using hturn
  · refine h.batch_counted hws hphase ?_ hk
    by_contra hfew
    refine hout ?_
    rw [WorkerState.advanceInit, if_pos (.inr (by omega))]
    exact hphase
  · rw [WorkerState.reported, hscheduler, WorkerState.reported]
  · rw [List.append_nil] at hnot
    rcases h.stages ws.i t ht hnot with hopening | ⟨c₀, c₁, rest, hfirst, hfull⟩
    · exact .inl (hopening.visited hws hscheduler)
    · exact .inr ⟨c₀, c₁, rest, hring.trans hfirst, hfull⟩

/-- A turn of the main loop, on an SSTable that is counted. -/
theorem BarrierInvariant.mainTurn (h : BarrierInvariant files s)
    (hws : s.base.workers[w]? = some ws) (hphase : ws.phase = .main)
    (hr : InRange ((s.base.apply w n o).setWorker w ws')) (hn : n ∈ s.entries)
    (hcounted : o.counted = 0) (hphase' : ws'.phase = .main)
    (hsub : ∀ m ∈ ws'.scheduler, m ∈ ws.scheduler)
    (hother : ∀ k, n ≠ k →
      ws'.reported.filter (·.table == k) = ws.reported.filter (·.table == k)) :
    BarrierInvariant files ⟨(s.base.apply w n o).setWorker w ws', s.entries⟩ := by
  have hnot : ws'.phase ≠ .init := by simp [hphase']
  have hposted : CqesPosted s.entries ((s.base.apply w n o).setWorker w ws') :=
    h.posted.turn hws (fun hinit => absurd hinit hnot) hsub fun hinit => absurd hinit hnot
  have hturn := h.turn hws [] hr (h.inTables n hn) (by simpa using h.once) (by simp)
    hcounted (fun hinit => absurd hinit hnot)
    (fun _ => h.left w ws hws (by simp [hphase])) hsub (fun _ => .inl hn) hother
    (fun hnot => absurd (List.mem_append_left _ hn) hnot) (by simpa using hposted)
  simpa using hturn

theorem mainHandler_counted {heap : Heap cfg} {mem : Memory} {fuel level : ℕ}
    (h : mainHandler heap mem fuel level t = .ok o) : o.counted = 0 := by
  rcases mainHandler_cases h with ⟨-, rfl⟩ | ⟨-, t₁, r, -, -, rfl⟩
  · rfl
  · rfl

/-- Behind initialization nothing is counted. -/
theorem countedIn_of_phase {x : State cfg} {fuel : ℕ} {transfers : Transfers cfg}
    (hws : x.workers[w]? = some ws) (hphase : ws.phase ≠ .init) :
    countedIn x (.run w fuel transfers) = [] := by
  simp only [countedIn, hws]
  split
  · next hinit _ _ => exact absurd hinit hphase
  · rfl

/-- **A turn.** -/
theorem BarrierInvariant.run {s' : State cfg} {fuel : ℕ} {transfers : Transfers cfg}
    (hpos : 0 < cfg.workerSstableBatchSize) (h : BarrierInvariant files s)
    (hws : s.base.workers[w]? = some ws) (hC : CountsRight s (.run w fuel transfers))
    (hr : InRange s') (hturn : s.base.turn w fuel transfers ws = .ok s') :
    BarrierInvariant files ⟨s', s.entries ++ countedIn s.base (.run w fuel transfers)⟩ := by
  unfold State.turn at hturn
  split at hturn
  · next hphase hpeek =>
      unfold State.initPeek at hturn
      split at hturn
      · next hs =>
          cases hturn
          simpa [countedIn, hws, hphase, hpeek, hs] using
            h.setWorker hws hr rfl (fun _ => ⟨hphase, rfl⟩) id
      · next m ms hs =>
          rcases bind_eq_ok.1 hturn with ⟨t, ht, hdone⟩
          rw [State.table_eq_ok] at ht
          cases hdone
          have hmessage := h.initMessage hws hphase hs ht
            (hC ws hws hphase hpeek m (by rw [hs]; rfl) t ht) rfl hr
          simpa [countedIn, hws, hphase, hpeek, hs, ht] using hmessage
  · next hphase hvisit =>
      rcases bind_eq_ok.1 hturn with ⟨t, ht, hdone⟩
      rw [State.table_eq_ok] at ht
      cases hdone
      simpa [countedIn, hws, hphase, hvisit] using h.initVisit hws hphase ht hr
  · next hphase =>
      cases hturn
      rw [countedIn_of_phase hws (by simp [hphase]), List.append_nil]
      rcases hs : ws.scheduler with _ | ⟨m, ms⟩
      · simpa only [State.awaitNetworkRing, hs] using h
      · by_cases hfd : m.userData = uintMax
        · simpa only [State.awaitNetworkRing, hs, hfd, if_true] using h
        · simp only [State.awaitNetworkRing, hs, hfd, if_false] at hr ⊢
          exact h.setWorker hws hr hs.symm (fun hinit => by cases hinit) fun _ => by simp [hphase]
  · next hphase hpeek =>
      rw [countedIn_of_phase hws (by simp [hphase]), List.append_nil]
      unfold State.mainPeek at hturn
      split at hturn
      · cases hturn
        exact h.setWorker hws hr rfl (fun hinit => by simp [hphase] at hinit) id
      · next m ms hs =>
          rcases bind_eq_ok.1 hturn with ⟨t, ht, hrest⟩
          rcases bind_eq_ok.1 hrest with ⟨o, ho, hdone⟩
          rw [State.table_eq_ok] at ht
          cases hdone
          refine h.mainTurn hws hphase hr (h.named_main hws hphase hs ht) (mainHandler_counted ho)
            hphase (fun m' hm' => ?_) fun k hk => reported_taken hs rfl hk
          rw [hs]
          exact List.mem_cons_of_mem _ hm'
  · next hphase hvisit =>
      rw [countedIn_of_phase hws (by simp [hphase]), List.append_nil]
      rcases bind_eq_ok.1 hturn with ⟨t, ht, hrest⟩
      rcases bind_eq_ok.1 hrest with ⟨o, ho, hdone⟩
      rw [State.table_eq_ok] at ht
      cases hdone
      have hwaits := (Config.waitsFor_iff_owns hpos).2 (h.inRange w ws hws).1
      exact h.mainTurn hws hphase hr (h.left w ws hws (by simp [hphase]) _ hwaits)
        (visitTable_unannounced ho).counted hphase (fun m hm => hm) fun k _ => rfl

/-- A change of an SSTable that leaves its ring and its offset alone. -/
theorem BarrierInvariant.modify_table (h : BarrierInvariant files s) (k : ℕ)
    {f : SSTableInfo cfg → SSTableInfo cfg} (hring : ∀ t, (f t).ring = t.ring)
    (hoffset : ∀ t, (f t).desiredSstableOffset = t.desiredSstableOffset)
    (hr : InRange { s.base with tables := s.base.tables.modify k f }) :
    BarrierInvariant files ⟨{ s.base with tables := s.base.tables.modify k f }, s.entries⟩ := by
  have hlength : (s.base.tables.modify k f).length = s.base.tables.length := List.length_modify ..
  exact
    { inRange := hr
      numTables := hlength.trans h.numTables
      once := h.once
      inTables := fun n hn => hlength ▸ h.inTables n hn
      read := h.read
      numRead := h.numRead
      counted := h.counted
      left := h.left
      flights := h.flights
      senders := h.senders
      reports := h.reports
      announced := fun w ws hws fd hfd n hn => h.announced w ws hws fd hfd n (hlength ▸ hn)
      allowed := h.allowed
      stages := by
        intro n t' ht' hn
        have htables : (s.base.tables.modify k f)[n]? = some t' := ht'
        rw [List.getElem?_modify, Option.map_eq_map, Option.map_eq_some_iff] at htables
        rcases htables with ⟨t, ht, rfl⟩
        have hsame : (if k = n then f t else t).ring = t.ring ∧
            (if k = n then f t else t).desiredSstableOffset = t.desiredSstableOffset := by
          split_ifs
          · exact ⟨hring t, hoffset t⟩
          · exact ⟨rfl, rfl⟩
        rcases h.stages n t ht hn with hopening | ⟨c₀, c₁, rest, hfirst, hfull⟩
        · left
          refine cast (congrArg Opening ?_) hopening
          simp only [State.view, State.submittedFor, hsame.1, hsame.2]
        · exact .inr ⟨c₀, c₁, rest, hsame.1.trans hfirst, hfull⟩
      posted := h.posted.congr rfl rfl rfl }

/-- The network thread sends an announcement, which it does when all SSTables have been counted. -/
theorem BarrierInvariant.announce (h : BarrierInvariant files s) (v fd : ℕ)
    (hpassed : cfg.numSstables ≤ s.base.numRead)
    (hr : InRange (s.base.post v (.announcement fd))) :
    BarrierInvariant files ⟨s.base.post v (.announcement fd), s.entries⟩ := by
  rcases h.progress_post v (.announcement fd) with ⟨hcounted, hleft⟩
  rcases h.receive (m := .announcement fd) v (by rintro c ⟨⟩)
    (fun _ _ => (h.all_counted hpassed).2) with ⟨hreports, hannounced⟩
  exact
    { inRange := hr
      numTables := h.numTables
      once := h.once
      inTables := h.inTables
      read := h.read
      numRead := h.numRead
      counted := hcounted
      left := hleft
      flights := h.flights
      senders := fun c hc => (length_post ..).symm ▸ h.senders c hc
      reports := hreports
      announced := hannounced
      allowed := h.allowed
      stages := by
        intro n t ht hn
        rw [Uncounted, view_announcement]
        exact h.stages n t ht hn
      posted := h.posted.post v (by rintro ws - - c ⟨⟩) }

/-- **An event.** -/
theorem BarrierInvariant.step {s' : Counting cfg} {e : Event cfg}
    (hpos : 0 < cfg.workerSstableBatchSize) (h : BarrierInvariant files s)
    (hfiles : ResultsAllowed files s e) (hC : CountsRight s e)
    (hstep : s.step e = .ok s') : BarrierInvariant files s' := by
  rcases bind_eq_ok.1 hstep with ⟨base, hbase, hdone⟩
  cases hdone
  have hr := inRange_step h.inRange hbase
  cases e with
  | complete k cqes =>
      simp only [countedIn, List.append_nil]
      simp only [Worker.step] at hbase
      split at hbase
      · cases hbase
        exact h
      · next c hc =>
          cases hbase
          split_ifs at hr ⊢ with hposts
          · exact h.report hc hposts (hfiles c hc) hr
          · exact h
  | announce v fd =>
      simp only [countedIn, List.append_nil]
      cases hbase
      split_ifs at hr ⊢ with hpassed
      · exact h.announce v fd hpassed hr
      · exact h
  | arrive n batch =>
      simp only [countedIn, List.append_nil]
      cases hbase
      exact h.modify_table n (fun _ => rfl) (fun _ => rfl) hr
  | others heap mem =>
      simp only [countedIn, List.append_nil]
      cases hbase
      exact ⟨hr, h.numTables, h.once, h.inTables, h.read, h.numRead, h.counted, h.left, h.flights,
        h.senders, h.reports, h.announced, h.allowed, h.stages, h.posted.congr rfl rfl rfl⟩
  | refill n buffers =>
      simp only [countedIn, List.append_nil]
      cases hbase
      exact h.modify_table n (fun _ => rfl) (fun _ => rfl) hr
  | run w fuel transfers =>
      simp only [Worker.step] at hbase
      split at hbase
      · next hws =>
          cases hbase
          simpa [countedIn, hws] using h
      · next ws hws => exact h.run hpos hws hC hr hbase

theorem barrierInvariant_start (files : ℕ → SSTableFile) (slots : ℕ → Stack cfg.maxSstableHeight)
    (heap : Heap cfg) (mem : Memory) : BarrierInvariant files (.start slots heap mem) := by
  have hworker : ∀ (w : ℕ) (ws : WorkerState),
      (State.start slots heap mem).workers[w]? = some ws → ws = WorkerState.start cfg w := by
    intro w ws hws
    simp only [State.start, List.getElem?_map, Option.map_eq_some_iff] at hws
    rcases hws with ⟨v, hv, rfl⟩
    rcases List.getElem?_eq_some_iff.1 hv with ⟨_, hv⟩
    rw [List.getElem_range] at hv
    rw [hv]
  exact
    { inRange := inRange_start slots heap mem
      numTables := by simp [Counting.start, State.start]
      once := List.nodup_nil
      inTables := by simp [Counting.start]
      read := by simp [Counting.start]
      numRead := rfl
      counted := by
        intro w ws hws _
        rw [hworker w ws hws]
        rfl
      left := by
        intro w ws hws hphase n hn
        rw [hworker w ws hws] at hphase
        rw [Config.waitsFor_iff] at hn
        exact absurd (if_pos (by omega)) hphase
      flights := by simp [Counting.start, State.start]
      senders := by simp [Counting.start, State.start]
      reports := by
        intro w ws hws c hc
        rw [hworker w ws hws] at hc
        exact absurd hc List.not_mem_nil
      announced := by
        intro w ws hws fd hfd
        rw [hworker w ws hws] at hfd
        exact absurd hfd List.not_mem_nil
      allowed := by simp [Counting.start, State.start]
      stages := fun n t ht _ => .inl ((initInvariant_start slots heap mem).tables n t ht)
      posted := ⟨by simp [Counting.start], by simp [Counting.start],
        by simp [Counting.start, State.start]⟩ }

end

/-! ## Workers without a batch -/

/-- There are more workers than SSTables: no worker initializes, and nothing is ever counted. -/
structure NothingCounted (s : Counting cfg) : Prop where
  entries : s.entries = []
  base : (cfg.numSstables = 0 ∧ s.base.tables = []) ∨
    (0 < cfg.numSstables ∧ InitInvariant s.base)

section

variable {files : ℕ → SSTableFile} {s s' : Counting cfg} {e : Event cfg}

theorem NothingCounted.barrier (hnone : cfg.workerSstableBatchSize = 0) (h : NothingCounted s) :
    Barrier files s where
  once := by
    rw [h.entries]
    exact List.nodup_nil
  mainThread := by
    intro hpassed n hn
    rcases h.base with ⟨hzero, -⟩ | ⟨hpos, hinit⟩
    · omega
    · rw [hinit.numRead] at hpassed
      omega
  workers := by
    intro w ws _ _ n hn
    rw [Config.waitsFor_iff] at hn
    omega

/-- A worker without a batch gets no message before the network ring is announced. -/
theorem InitInvariant.not_handled {s : State cfg} (hnone : cfg.workerSstableBatchSize = 0)
    (h : InitInvariant s) (phase : Phase) (m : Message) (t : SSTableInfo cfg) :
    ¬ MessageHandled s e phase m t := by
  rintro ⟨w, fuel, transfers, ws, ms, -, hws, -, -, -, hs, -⟩
  rcases h.workers ws (List.mem_of_getElem? hws) with ⟨-, -, hpos⟩ | ⟨-, hempty⟩
  · omega
  · rw [hempty] at hs
    cases hs

theorem countedIn_eq_nil {s : State cfg} (h : ∀ m t, ¬ MessageHandled s e .init m t) :
    countedIn s e = [] := by
  cases e with
  | run w fuel transfers =>
      simp only [countedIn]
      split
      · rfl
      · next ws hws =>
          split
          · next m ms hphase hturn hs =>
              split
              · rfl
              · next t ht =>
                  exact absurd ⟨w, fuel, transfers, ws, ms, rfl, hws, hphase, by simp, hturn, hs,
                    ht⟩ (h m t)
          · rfl
  | complete | announce | arrive | others | refill => rfl

theorem NothingCounted.step (hnone : cfg.workerSstableBatchSize = 0) (h : NothingCounted s)
    (hstep : s.step e = .ok s') : NothingCounted s' := by
  rcases bind_eq_ok.1 hstep with ⟨base, hbase, hdone⟩
  cases hdone
  have hhandled : ∀ phase m t, ¬ MessageHandled s.base e phase m t := by
    intro phase m t hm
    rcases h.base with ⟨-, hempty⟩ | ⟨-, hinit⟩
    · rcases hm with ⟨_, _, _, _, _, -, -, -, -, -, -, ht⟩
      simp [hempty] at ht
    · exact hinit.not_handled hnone phase m t hm
  refine ⟨by simp [h.entries, countedIn_eq_nil fun m t => hhandled .init m t], ?_⟩
  refine h.base.imp (fun ⟨hzero, hempty⟩ => ⟨hzero, tables_nil_step hempty hbase⟩)
    fun ⟨hpos, hinit⟩ => ⟨hpos, hinit.step hpos ?_ hbase⟩
  intro phase m t hm
  exact absurd hm (hhandled phase m t)

theorem nothingCounted_start (slots : ℕ → Stack cfg.maxSstableHeight) (heap : Heap cfg)
    (mem : Memory) : NothingCounted (.start slots heap mem : Counting cfg) := by
  refine ⟨rfl, ?_⟩
  rcases Nat.eq_zero_or_pos cfg.numSstables with hzero | hpos
  · exact .inl ⟨hzero, by simp [Counting.start, State.start, Config.numSstableLevels, hzero]⟩
  · exact .inr ⟨hpos, initInvariant_start slots heap mem⟩

end

/-- **When the barrier of initialization holds.**  Whatever the sizes of the files and the order of
completions and messages: in every run in which no message that is handled during initialization
counts the first completion of its SSTable's ring, which is that of the opening, and one that counts
the second completion reports a chain when no more than the completions of the opening and of the
first two reads have been posted for the SSTable, and no error of these, no SSTable is counted
twice, the main thread does not go on before every SSTable is read completely and entered in its
sparse index, and no worker leaves initialization before this is so for the SSTables of its
batch. -/
theorem barrier_holds (files : ℕ → SSTableFile) (slots : ℕ → Stack cfg.maxSstableHeight)
    (heap : Heap cfg) (mem : Memory) (es : List (Event cfg))
    (hfiles : StepsMeet Counting.step (ResultsAllowed files) (.start slots heap mem) es)
    (hcounts : StepsMeet Counting.step CountsRight (.start slots heap mem) es) :
    Throughout Counting.step (Barrier files) (.start slots heap mem) es := by
  rcases Nat.eq_zero_or_pos cfg.workerSstableBatchSize with hnone | hpos
  · have hrun : Throughout Counting.step NothingCounted (.start slots heap mem) es :=
      throughout_of_step (fun _ _ _ h hstep => h.step hnone hstep)
        (nothingCounted_start slots heap mem)
    exact hrun.mono fun s hs => hs.barrier hnone
  · have hrun : Throughout Counting.step (BarrierInvariant files) (.start slots heap mem) es :=
      throughout_of_stepsMeet (fun _ _ _ h hc hstep => h.step hpos hc.1 hc.2 hstep)
        (barrierInvariant_start files slots heap mem) (hfiles.and hcounts)
    exact hrun.mono fun s hs => hs.barrier

/-- The file of every SSTable is empty. -/
def emptyFiles : ℕ → SSTableFile := fun _ => ⟨0, by decide⟩

/-- The four files are opened, under a descriptor beyond the size of a buffer, and read.  An SSTable
whose first buffer is filled would be read on and on, and never counted. -/
def patientRun : List (Event fourTableConfig) :=
  turns 0 8 ++ List.replicate 4 (.complete 0 [⟨0, 20000⟩]) ++ turns 0 8 ++
    List.replicate 4 (.complete 0 [⟨0, 0⟩, ⟨0, 0⟩]) ++ turns 0 8

/-- The worker leaves initialization with four SSTables read and counted. -/
theorem barrier_holds_patient :
    Throughout Counting.step (Barrier emptyFiles)
        (.start (fun _ => Stack.zeroed _) [] fun _ => 0) patientRun ∧
      okAnd (runEvents Counting.step
          (.start (fun _ => Stack.zeroed _) [] fun _ => 0) patientRun)
        (fun s => s.entries == [0, 1, 2, 3] && s.base.workers.all (·.phase == .awaitFd)) = true :=
  ⟨barrier_holds emptyFiles _ _ _ patientRun (by decide +kernel) (by decide +kernel),
    by decide +kernel⟩

/-- The file of every SSTable is a megabyte long and can be read from any offset on. -/
def longFiles : ℕ → SSTableFile := fun _ => ⟨2 ^ 20, by decide⟩

/-- The files of SSTables 0 and 1 are opened, under the descriptors 3 and 4, and two pairs of
buffers are filled from each; those of SSTables 2 and 3 are still being opened. -/
def impatientRun : List (Event fourTableConfig) :=
  turns 0 8 ++ [.complete 0 [⟨0, 3⟩], .complete 0 [⟨0, 4⟩]] ++ turns 0 8 ++
    List.replicate 2 (fullReads 2) ++ turns 0 8 ++ List.replicate 2 (fullReads 2) ++ turns 0 8

/-- SSTables 0 and 1 are counted after each pair; the worker has left initialization, and the main
thread goes on. -/
theorem counted_twice :
    StepsMeet Counting.step (ResultsAllowed longFiles)
        (.start (fun _ => Stack.zeroed _) [] fun _ => 0) impatientRun ∧
      ¬ Throughout Counting.step (Barrier longFiles)
        (.start (fun _ => Stack.zeroed _) [] fun _ => 0)
        impatientRun := by
  refine ⟨by decide +kernel, fun h => ?_⟩
  have hend : okAnd (runEvents Counting.step
      (.start (fun _ => Stack.zeroed _) [] fun _ => 0) impatientRun)
      (fun s => s.entries == [0, 1, 0, 1] && s.base.numRead == 4 &&
        s.base.workers.all (·.phase == .awaitFd)) = true := by
    decide +kernel
  rcases okAnd_iff.1 hend with ⟨s, hs, hfinal⟩
  simp only [Bool.and_eq_true, beq_iff_eq] at hfinal
  have honce := (h.final hs).once
  rw [hfinal.1.1] at honce
  simp at honce

end Worker

end RingDB
