import RingDB.Worker.Classification
import RingDB.Worker.EndOfFile
import Mathlib.Order.Interval.Finset.Nat

/-!
# The counters of initialization

A worker leaves initialization when `num_initialized_read` has reached the size of its batch, and
the main thread starts the network thread when `num_read` has reached `NUM_SSTABLES`.  Both
counters are incremented, and the SSTable is entered in the sparse index, for each of the two
completions looked at whose result is less than a buffer.  A file shorter than a buffer is counted
for both halves of its read; and as the first completion looked at is still that of the opening, the
descriptor of the file, if it is a small number, is counted as the end of the file as well.

* `Counting` — the workers with the record of what was counted.
* `Barrier` — no SSTable is counted twice, and neither the main thread nor a worker goes on before
  the SSTables it waits for are read and entered.
* `CountsRight` — the completion of an opening does not count, and the one looked at behind it
  counts for the report of the first pair of reads only.
* `CqesPosted` — behind an SSTable that is counted there are further completions whenever a worker
  that initializes gets a further report of it.
* `BarrierInvariant` — an SSTable that is not counted is still being opened and read for the first
  time, or is one that never will be counted.
* **`BarrierInvariant.barrier`** — the invariant implies the barrier;
  **`BarrierInvariant.turn`** — what a turn of a worker has to respect to keep it.
-/

namespace RingDB

open Core

namespace Config

variable (cfg : Config)

/-- Worker `w` waits for SSTable `n` to be counted. -/
def waitsFor (w n : ℕ) : Bool :=
  decide (cfg.firstSstableNum w ≤ n ∧ n < cfg.firstSstableNum w + cfg.workerSstableBatchSize)

/-- `res < fair_aligned_sstable_page_cache_buffer_size`, compared as `unsigned int`. -/
def short (res : ℤ) : Prop := ReadWritePool.toUint res < cfg.fairAlignedSstablePageCacheBufferSize

instance (res : ℤ) : Decidable (cfg.short res) := inferInstanceAs (Decidable (_ < _))

variable {cfg}

theorem waitsFor_iff {w n : ℕ} : cfg.waitsFor w n = true ↔
    cfg.firstSstableNum w ≤ n ∧ n < cfg.firstSstableNum w + cfg.workerSstableBatchSize :=
  decide_eq_true_iff

/-- The SSTables that a worker waits for are those its loops visit. -/
theorem waitsFor_iff_owns (hpos : 0 < cfg.workerSstableBatchSize) {w n : ℕ} :
    cfg.waitsFor w n = true ↔ cfg.owns w n := by
  simp only [waitsFor_iff, owns, secondSstableNum, Nat.pos_iff_ne_zero.1 hpos, if_false]
  omega

/-- Every SSTable has a number below `NUM_SSTABLES`. -/
theorem numTables_le : cfg.numSstableLevels * cfg.levelFactor ≤ cfg.numSstables :=
  Nat.div_mul_le_self _ _

end Config

/-- As many different numbers as there are in an interval are all of them. -/
theorem mem_of_nodup_of_length {l : List ℕ} {a b : ℕ} (hnodup : l.Nodup)
    (hsub : ∀ x ∈ l, a ≤ x ∧ x < b) (hlen : b - a ≤ l.length) :
    ∀ n, a ≤ n → n < b → n ∈ l := by
  have heq : l.toFinset = Finset.Ico a b := by
    refine Finset.eq_of_subset_of_card_le ?_ ?_
    · intro x hx
      rw [Finset.mem_Ico]
      exact hsub x (List.mem_toFinset.1 hx)
    · rw [Nat.card_Ico, List.toFinset_card_of_nodup hnodup]
      exact hlen
  intro n ha hb
  rw [← List.mem_toFinset, heq, Finset.mem_Ico]
  exact ⟨ha, hb⟩

/-- A chain of this kind leaves a completion. -/
def ChainKind.LeavesCqe (kind : ChainKind) : Prop := ∀ cqes, kind.posts cqes = true → cqes ≠ []

theorem ChainKind.leavesCqe_openFile : ChainKind.LeavesCqe .openFile := by
  rintro cqes h rfl
  cases h

theorem ChainKind.leavesCqe_initRead (offset : ℕ) : ChainKind.LeavesCqe (.initRead offset) := by
  rintro cqes h rfl
  cases h

namespace Worker

variable {cfg : Config}

/-- The SSTables counted in an event, each once for each increment of the counters.  `insert_range`
is called where they are incremented. -/
def countedIn (s : State cfg) : Event cfg → List ℕ
  | .run w _ _ =>
      match s.workers[w]? with
      | none => []
      | some ws =>
          match ws.phase, ws.turn, ws.scheduler with
          | .init, .peek, m :: _ =>
              match s.tables[m.userData]? with
              | none => []
              | some t => List.replicate (initHandler t).counted m.userData
          | _, _, _ => []
  | _ => []

/-- The workers, with the SSTables for which the counters were incremented and `insert_range` was
called. -/
structure Counting (cfg : Config) where
  base : State cfg
  entries : List ℕ

namespace Counting

def start (slots : ℕ → Stack cfg.maxSstableHeight) (heap : Heap cfg) (mem : Memory) :
    Counting cfg where
  base := .start slots heap mem
  entries := []

def step (s : Counting cfg) (e : Event cfg) : Except Fault (Counting cfg) := do
  let base ← Worker.step s.base e
  pure { base, entries := s.entries ++ countedIn s.base e }

end Counting

namespace State

/-- Half `j` of an initialization read of SSTable `n` from `offset` on has come back with `res`. -/
def HalfRead (s : State cfg) (n offset j : ℕ) (res : ℤ) : Prop :=
  ∃ c cqes cqe, (c, cqes) ∈ s.completed ∧ c.table = n ∧ c.kind = .initRead offset ∧
    cqes[j]? = some cqe ∧ cqe.res = res

/-- Every byte of the file has been read, and so has the end of the file. -/
def ReadCompletely (files : ℕ → SSTableFile) (s : State cfg) (n : ℕ) : Prop :=
  (∀ b < (files n).size, ∃ offset j res, s.HalfRead n offset j res ∧
    offset + j * cfg.fairAlignedSstablePageCacheBufferSize ≤ b ∧
    (b : ℤ) < offset + j * cfg.fairAlignedSstablePageCacheBufferSize + res) ∧
  ∃ offset j res, s.HalfRead n offset j res ∧ 0 ≤ res ∧
    (files n).size ≤ offset + j * cfg.fairAlignedSstablePageCacheBufferSize + res

end State

/-- The results of a chain are such as the file allows. -/
def AllowedResults (cfg : Config) (file : SSTableFile) : ChainKind → List Cqe → Prop
  | .initRead offset, cqes => ∀ half ∈ cqes.zipIdx,
      file.Allowed cfg (offset + half.2 * cfg.fairAlignedSstablePageCacheBufferSize) half.1.res
  | _, _ => True

instance (file : SSTableFile) : ∀ kind cqes, Decidable (AllowedResults cfg file kind cqes)
  | .initRead _, cqes => inferInstanceAs (Decidable (∀ half ∈ cqes.zipIdx, _))
  | .openFile, _ => isTrue trivial
  | .cacheRead _, _ => isTrue trivial
  | .flush, _ => isTrue trivial

/-- What the kernel reports of the reads of a file is true of that file. -/
def ResultsAllowed (files : ℕ → SSTableFile) (s : Counting cfg) : Event cfg → Prop
  | .complete k cqes => ∀ c ∈ s.base.inFlight[k]?,
      AllowedResults cfg (files c.table) c.kind cqes
  | _ => True

instance (files : ℕ → SSTableFile) (s : Counting cfg) :
    ∀ e, Decidable (ResultsAllowed files s e)
  | .complete k cqes => inferInstanceAs (Decidable (∀ c ∈ s.base.inFlight[k]?,
      AllowedResults cfg (files c.table) c.kind cqes))
  | .announce .. => isTrue trivial
  | .arrive .. => isTrue trivial
  | .others .. => isTrue trivial
  | .refill .. => isTrue trivial
  | .run .. => isTrue trivial

/-- **The barrier.** -/
structure Barrier (files : ℕ → SSTableFile) (s : Counting cfg) : Prop where
  /-- No SSTable is counted twice. -/
  once : s.entries.Nodup
  /-- The main thread goes on only when all SSTables are entered and read. -/
  mainThread : cfg.numSstables ≤ s.base.numRead → ∀ n < cfg.numSstables,
    n ∈ s.entries ∧ s.base.ReadCompletely files n
  /-- A worker leaves initialization only when those it waits for are entered and read. -/
  workers : ∀ w ws, s.base.workers[w]? = some ws → ws.phase ≠ .init → ∀ n,
    cfg.waitsFor w n = true → n ∈ s.entries ∧ s.base.ReadCompletely files n

/-- Of the completions that initialization looks at for a message the first one does not count.  If
the second one does, it is no error, and the message reports a chain at a time when three
completions have been posted for the SSTable, the one of its opening and the two of its first
reads. -/
def ringCounts (s : State cfg) (m : Message) : List Cqe → Prop
  | c₀ :: c₁ :: _ => ¬ cfg.short c₀.res ∧ (cfg.short c₁.res →
      0 ≤ c₁.res ∧ m.chain?.isSome = true ∧ (s.posted m.userData).length = 3)
  | _ => True

instance (s : State cfg) (m : Message) : ∀ ring, Decidable (ringCounts s m ring)
  | [] => isTrue trivial
  | [_] => isTrue trivial
  | _ :: _ :: _ => inferInstanceAs (Decidable (_ ∧ _))

/-- This holds of a message that is handled during initialization. -/
def CountsRight (s : Counting cfg) : Event cfg → Prop
  | .run w _ _ => ∀ ws ∈ s.base.workers[w]?, ws.phase = .init → ws.turn = .peek →
      ∀ m ∈ ws.scheduler.head?, ∀ t ∈ s.base.tables[m.userData]?, ringCounts s.base m t.ring
  | _ => True

instance (s : Counting cfg) : ∀ e, Decidable (CountsRight s e)
  | .run w _ _ => inferInstanceAs (Decidable (∀ ws ∈ s.base.workers[w]?, ws.phase = .init →
      ws.turn = .peek → ∀ m ∈ ws.scheduler.head?, ∀ t ∈ s.base.tables[m.userData]?,
        ringCounts s.base m t.ring))
  | .complete .. => isTrue trivial
  | .announce .. => isTrue trivial
  | .arrive .. => isTrue trivial
  | .others .. => isTrue trivial
  | .refill .. => isTrue trivial

/-! ## What a message counts -/

section

variable {t : SSTableInfo cfg} {c₀ c₁ : Cqe} {rest : List Cqe}

theorem initResult_ring (o : Outcome cfg) (j : ℕ) (res : ℤ) :
    (initResult o j res).table.ring = o.table.ring := by
  simp only [initResult]
  split_ifs <;> rfl

theorem initHandler_ring (t : SSTableInfo cfg) : (initHandler t).table.ring = t.ring := by
  unfold initHandler
  split
  · rw [initResult_ring, initResult_ring]
  · rfl

theorem initResult_short (o : Outcome cfg) (j : ℕ) {res : ℤ} (h : cfg.short res) :
    (initResult o j res).counted = o.counted + 1 ∧
      (initResult o j res).submitted = o.submitted := by
  unfold Config.short at h
  simp [initResult, h]

theorem initResult_full (o : Outcome cfg) (j : ℕ) {res : ℤ} (h : ¬ cfg.short res) :
    (initResult o j res).counted = o.counted := by
  unfold Config.short at h
  simp only [initResult, h, if_false]
  split_ifs <;> rfl

/-- The second half came short: the SSTable is counted, and nothing is submitted. -/
theorem initHandler_short (hring : t.ring = c₀ :: c₁ :: rest) (h₀ : ¬ cfg.short c₀.res)
    (h₁ : cfg.short c₁.res) : (initHandler t).counted = 1 ∧ (initHandler t).submitted = [] := by
  have hfirst : (initResult { table := t } 0 c₀.res).submitted = [] := by
    unfold Config.short at h₀
    simp [initResult, h₀]
  rw [initHandler, hring]
  simp [initResult_short _ _ h₁, initResult_full _ _ h₀, hfirst]

/-- Only a message with two completions counts. -/
theorem exists_ring_of_counted (h : (initHandler t).counted ≠ 0) :
    ∃ c₀ c₁ rest, t.ring = c₀ :: c₁ :: rest := by
  rcases hring : t.ring with _ | ⟨c₀, _ | ⟨c₁, rest⟩⟩
  · simp [initHandler, hring] at h
  · simp [initHandler, hring] at h
  · exact ⟨c₀, c₁, rest, rfl⟩

/-- Neither half came short: nothing is counted. -/
theorem initHandler_uncounted (hring : t.ring = c₀ :: c₁ :: rest) (h₀ : ¬ cfg.short c₀.res)
    (h₁ : ¬ cfg.short c₁.res) : (initHandler t).counted = 0 := by
  rw [initHandler, hring]
  simp [initResult_full _ _ h₁, initResult_full _ _ h₀]

end

/-! ## Reports of an SSTable that is counted -/

/-- Three completions are posted for an SSTable before it is counted, and more before a worker that
initializes gets another report of it. -/
structure CqesPosted (entries : List ℕ) (s : State cfg) : Prop where
  counted : ∀ n ∈ entries, 3 ≤ (s.posted n).length
  reported : ∀ (w : ℕ) (ws : WorkerState), s.workers[w]? = some ws → ws.phase = .init → ∀ c,
    Message.done c ∈ ws.scheduler → c.table ∈ entries → 3 < (s.posted c.table).length
  leavesCqe : ∀ c ∈ s.inFlight, ∀ ws, s.workers[c.worker]? = some ws → ws.phase = .init →
    c.kind.LeavesCqe

namespace CqesPosted

variable {entries : List ℕ} {s : State cfg} {w n k : ℕ} {ws ws' : WorkerState} {o : Outcome cfg}
  {m : Message} {c : Chain}

/-- Only the number of completions, the chains in flight and the workers matter. -/
theorem congr {s' : State cfg} (h : CqesPosted entries s) (hworkers : s'.workers = s.workers)
    (hflight : s'.inFlight = s.inFlight) (hcompleted : s'.completed = s.completed) :
    CqesPosted entries s' := by
  have hposted : ∀ n, s'.posted n = s.posted n := fun n => by rw [State.posted, hcompleted]; rfl
  refine ⟨fun n hn => ?_, fun w ws hws hphase c hc hn => ?_, fun c hc ws hws => ?_⟩
  · rw [hposted]
    exact h.counted n hn
  · rw [hposted]
    exact h.reported w ws (hworkers ▸ hws) hphase c hc hn
  · exact h.leavesCqe c (hflight ▸ hc) ws (hworkers ▸ hws)

/-- A worker goes on and may take messages out. -/
theorem setWorker (h : CqesPosted entries s) (hws : s.workers[w]? = some ws)
    (hphase : ws'.phase = .init → ws.phase = .init)
    (hsub : ∀ m ∈ ws'.scheduler, m ∈ ws.scheduler) : CqesPosted entries (s.setWorker w ws') where
  counted := h.counted
  reported := by
    intro v x hx hinit c hc hn
    rcases set_worker_cases hx with ⟨rfl, rfl⟩ | ⟨-, hx⟩
    · exact h.reported v ws hws (hphase hinit) c (hsub _ hc) hn
    · exact h.reported v x hx hinit c hc hn
  leavesCqe := by
    intro c hc x hx hinit
    rcases set_worker_cases hx with ⟨hw, rfl⟩ | ⟨-, hx⟩
    · exact h.leavesCqe c hc ws (hw ▸ hws) (hphase hinit)
    · exact h.leavesCqe c hc x hx hinit

/-- A worker that initializes submits only such chains as leave a completion. -/
theorem apply (h : CqesPosted entries s) (hws : s.workers[w]? = some ws)
    (hkinds : ws.phase = .init → ∀ kind ∈ o.submitted, kind.LeavesCqe) :
    CqesPosted entries (s.apply w n o) where
  counted := h.counted
  reported := h.reported
  leavesCqe := by
    intro c hc x hx hinit
    rcases List.mem_append.1 hc with hc | hc
    · exact h.leavesCqe c hc x hx hinit
    · rcases List.mem_map.1 hc with ⟨kind, hkind, rfl⟩
      cases hws.symm.trans hx
      exact hkinds hinit kind hkind

/-- A worker takes its turn. -/
theorem turn (h : CqesPosted entries s) (hws : s.workers[w]? = some ws)
    (hphase : ws'.phase = .init → ws.phase = .init)
    (hsub : ∀ m ∈ ws'.scheduler, m ∈ ws.scheduler)
    (hkinds : ws'.phase = .init → ∀ kind ∈ o.submitted, kind.LeavesCqe) :
    CqesPosted entries ((s.apply w n o).setWorker w ws') := by
  have hset : (s.setWorker w ws').workers[w]? = some ws' :=
    List.getElem?_set_self (List.getElem?_eq_some_iff.1 hws).1
  exact (h.setWorker hws hphase hsub).apply hset hkinds

/-- An SSTable is counted of which no report is left. -/
theorem count (h : CqesPosted entries s) (hthree : (s.posted n).length = 3)
    (hnone : (s.workers.flatMap WorkerState.reported).filter (·.table == n) = []) :
    CqesPosted (entries ++ [n]) s where
  counted := by
    intro k hk
    rcases List.mem_append.1 hk with hk | hk
    · exact h.counted k hk
    · cases List.mem_singleton.1 hk
      exact hthree.ge
  reported := by
    intro w ws hws hphase c hc hn
    rcases List.mem_append.1 hn with hn | hn
    · exact h.reported w ws hws hphase c hc hn
    · rw [List.filter_eq_nil_iff] at hnone
      have hmem : c ∈ s.workers.flatMap WorkerState.reported := by
        refine List.mem_flatMap.2 ⟨ws, List.mem_of_getElem? hws, ?_⟩
        exact List.mem_filterMap.2 ⟨.done c, hc, rfl⟩
      exact absurd (beq_iff_eq.2 (List.mem_singleton.1 hn)) (hnone c hmem)
  leavesCqe := h.leavesCqe

/-- A message comes in: an announcement, or a report of which the completions are posted. -/
theorem post (h : CqesPosted entries s) (v : ℕ)
    (hdone : ∀ ws, s.workers[v]? = some ws → ws.phase = .init → ∀ c, m = .done c →
      c.table ∈ entries → 3 < (s.posted c.table).length) : CqesPosted entries (s.post v m) where
  counted := h.counted
  reported := by
    intro w ws hws hphase c hc hn
    rcases post_worker_cases hws with ⟨x, hx, rfl | ⟨rfl, rfl⟩⟩
    · exact h.reported w _ hx hphase c hc hn
    · rcases List.mem_append.1 hc with hc | hc
      · exact h.reported w x hx hphase c hc hn
      · exact hdone x hx hphase c (List.mem_singleton.1 hc).symm hn
  leavesCqe := by
    intro c hc ws hws hphase
    rcases post_worker_cases hws with ⟨x, hx, rfl | ⟨-, rfl⟩⟩
    · exact h.leavesCqe c hc _ hx hphase
    · exact h.leavesCqe c hc x hx hphase

theorem length_posted {s' : State cfg} {cqes : List Cqe}
    (h : s'.completed = s.completed ++ [(c, cqes)]) (n : ℕ) :
    (s'.posted n).length = (s.posted n).length + if c.table = n then cqes.length else 0 := by
  simp only [State.posted, h, List.filter_append, List.flatMap_append, List.length_append]
  by_cases hn : c.table = n <;> simp [hn]

/-- A chain completes: its completions are posted before its report comes in. -/
theorem report {cqes : List Cqe} (h : CqesPosted entries s) (hc : s.inFlight[k]? = some c)
    (hposts : c.kind.posts cqes = true) : CqesPosted entries (s.report k c cqes) := by
  let s' : State cfg :=
    { s with completed := s.completed ++ [(c, cqes)], inFlight := s.inFlight.eraseIdx k }
  have hcqes : s'.completed = s.completed ++ [(c, cqes)] := rfl
  have hlength := length_posted hcqes
  have hcompleted : CqesPosted entries s' :=
    { counted := fun n hn => (h.counted n hn).trans (by rw [hlength]; omega)
      reported := fun w ws hws hphase d hd hn =>
        (h.reported w ws hws hphase d hd hn).trans_le (by rw [hlength]; omega)
      leavesCqe := fun d hd => h.leavesCqe d (List.mem_of_mem_eraseIdx hd) }
  refine (hcompleted.post (m := .done c) c.worker ?_).congr rfl rfl rfl
  rintro ws hws hphase d ⟨⟩ hn
  have hsome := h.leavesCqe c (List.mem_of_getElem? hc) ws hws hphase cqes hposts
  have hpos := List.length_pos_iff.2 hsome
  have hbefore := h.counted _ hn
  rw [hlength, if_pos rfl]
  omega

end CqesPosted

/-! ## The invariant -/

/-- Two completions stay in the ring that initialization looks at and that count nothing. -/
def NeverCounted (t : SSTableInfo cfg) : Prop :=
  ∃ c₀ c₁ rest, t.ring = c₀ :: c₁ :: rest ∧ ¬ cfg.short c₀.res ∧ ¬ cfg.short c₁.res

/-- How far an SSTable is that is not counted. -/
def Uncounted (s : State cfg) (n : ℕ) (t : SSTableInfo cfg) : Prop :=
  Opening (s.view n t) ∨ NeverCounted t

structure BarrierInvariant (files : ℕ → SSTableFile) (s : Counting cfg) : Prop where
  inRange : InRange s.base
  numTables : s.base.tables.length = cfg.numSstableLevels * cfg.levelFactor
  once : s.entries.Nodup
  inTables : ∀ n ∈ s.entries, n < s.base.tables.length
  read : ∀ n ∈ s.entries, s.base.ReadCompletely files n
  numRead : s.base.numRead = s.entries.length % 2 ^ 32
  counted : ∀ w ws, s.base.workers[w]? = some ws → ws.phase = .init →
    ws.numInitializedRead = (s.entries.filter (cfg.waitsFor w)).length
  left : ∀ w ws, s.base.workers[w]? = some ws → ws.phase ≠ .init → ∀ n,
    cfg.waitsFor w n = true → n ∈ s.entries
  flights : ∀ c ∈ s.base.inFlight, c.table ∈ s.entries ∨ cfg.waitsFor c.worker c.table = true
  senders : ∀ c ∈ s.base.inFlight, c.worker < s.base.workers.length
  reports : ∀ (w : ℕ) (ws : WorkerState), s.base.workers[w]? = some ws → ∀ c,
    Message.done c ∈ ws.scheduler → c.table ∈ s.entries ∨ cfg.waitsFor w c.table = true
  announced : ∀ (w : ℕ) (ws : WorkerState), s.base.workers[w]? = some ws → ∀ fd,
    Message.announcement fd ∈ ws.scheduler → ∀ n < s.base.tables.length, n ∈ s.entries
  allowed : ∀ c cqes, (c, cqes) ∈ s.base.completed →
    AllowedResults cfg (files c.table) c.kind cqes
  stages : ∀ n t, s.base.tables[n]? = some t → n ∉ s.entries → Uncounted s.base n t
  posted : CqesPosted s.entries s.base

section

variable {files : ℕ → SSTableFile} {s : Counting cfg} {w n : ℕ} {ws ws' : WorkerState}
  {o : Outcome cfg} {t : SSTableInfo cfg} {m : Message} {ms : List Message}

/-- `num_read` has reached `NUM_SSTABLES`: everything is counted. -/
theorem BarrierInvariant.all_counted (h : BarrierInvariant files s)
    (hpassed : cfg.numSstables ≤ s.base.numRead) :
    cfg.numSstables ≤ s.base.tables.length ∧ ∀ n < s.base.tables.length, n ∈ s.entries := by
  have hlen : s.base.tables.length ≤ s.entries.length :=
    calc s.base.tables.length ≤ cfg.numSstables := h.numTables ▸ Config.numTables_le
      _ ≤ s.entries.length % 2 ^ 32 := h.numRead ▸ hpassed
      _ ≤ s.entries.length := Nat.mod_le _ _
  have hall : ∀ n, 0 ≤ n → n < s.base.tables.length → n ∈ s.entries :=
    mem_of_nodup_of_length h.once (fun x hx => ⟨Nat.zero_le x, h.inTables x hx⟩) (by omega)
  refine ⟨?_, fun n hn => hall n (Nat.zero_le n) hn⟩
  have hsub : s.entries.length ≤ s.base.tables.length := by
    have hcard : s.entries.toFinset.card ≤ (Finset.range s.base.tables.length).card := by
      refine Finset.card_le_card fun x hx => ?_
      rw [Finset.mem_range]
      exact h.inTables x (List.mem_toFinset.1 hx)
    rwa [List.toFinset_card_of_nodup h.once, Finset.card_range] at hcard
  calc cfg.numSstables ≤ s.entries.length % 2 ^ 32 := h.numRead ▸ hpassed
    _ ≤ s.entries.length := Nat.mod_le _ _
    _ ≤ s.base.tables.length := hsub

theorem BarrierInvariant.barrier (h : BarrierInvariant files s) : Barrier files s where
  once := h.once
  mainThread := by
    intro hpassed n hn
    rcases h.all_counted hpassed with ⟨hle, hall⟩
    have hmem := hall n (by omega)
    exact ⟨hmem, h.read n hmem⟩
  workers := by
    intro w ws hws hphase n hn
    have hmem := h.left w ws hws hphase n hn
    exact ⟨hmem, h.read n hmem⟩

/-- A message names an SSTable that is counted, or one that its worker waits for. -/
theorem BarrierInvariant.named (h : BarrierInvariant files s) (hws : s.base.workers[w]? = some ws)
    (hs : ws.scheduler = m :: ms) (ht : s.base.tables[m.userData]? = some t) :
    m.userData ∈ s.entries ∨ (cfg.waitsFor w m.userData = true ∧ ∃ c, m = .done c) := by
  have hmem : m ∈ ws.scheduler := by rw [hs]; exact List.mem_cons_self
  cases m with
  | done c =>
      rcases h.reports w ws hws c hmem with hc | hc
      · exact .inl hc
      · exact .inr ⟨hc, c, rfl⟩
  | announcement fd =>
      exact .inl (h.announced w ws hws fd hmem _ (List.getElem?_eq_some_iff.1 ht).1)

/-- In the main loop a worker has to do only with SSTables that are counted. -/
theorem BarrierInvariant.named_main (h : BarrierInvariant files s)
    (hws : s.base.workers[w]? = some ws) (hphase : ws.phase = .main)
    (hs : ws.scheduler = m :: ms) (ht : s.base.tables[m.userData]? = some t) :
    m.userData ∈ s.entries := by
  rcases h.named hws hs ht with hmem | ⟨hwaits, -⟩
  · exact hmem
  · exact h.left w ws hws (by simp [hphase]) _ hwaits

theorem waitsFor_unique {v w n : ℕ} (hv : cfg.waitsFor v n = true) (hw : cfg.waitsFor w n = true) :
    v = w := by
  have hpos : 0 < cfg.workerSstableBatchSize := by
    rw [Config.waitsFor_iff] at hv
    omega
  exact owns_unique hpos ((Config.waitsFor_iff_owns hpos).1 hv)
    ((Config.waitsFor_iff_owns hpos).1 hw)

/-- What a turn adds to the SSTables counted among those that worker `v` waits for. -/
theorem filter_waitsFor {add : List ℕ} (hadd : ∀ k ∈ add, cfg.waitsFor w k = true) (v : ℕ) :
    (s.entries ++ add).filter (cfg.waitsFor v)
      = s.entries.filter (cfg.waitsFor v) ++ if v = w then add else [] := by
  rw [List.filter_append]
  congr 1
  split_ifs with hv
  · rw [List.filter_eq_self, hv]
    exact hadd
  · rw [List.filter_eq_nil_iff]
    intro k hk hwaits
    exact hv (waitsFor_unique hwaits (hadd k hk))

theorem length_tables_turn :
    ((s.base.apply w n o).setWorker w ws').tables.length = s.base.tables.length := by
  simp only [State.setWorker, State.apply, List.length_set]

/-- A turn takes messages out of the scheduler ring of its worker, and puts none in. -/
theorem BarrierInvariant.messages (h : BarrierInvariant files s)
    (hws : s.base.workers[w]? = some ws) (hsub : ∀ m ∈ ws'.scheduler, m ∈ ws.scheduler) :
    (∀ (v : ℕ) (x : WorkerState), (s.base.workers.set w ws')[v]? = some x → ∀ c,
        Message.done c ∈ x.scheduler → c.table ∈ s.entries ∨ cfg.waitsFor v c.table = true) ∧
      ∀ (v : ℕ) (x : WorkerState), (s.base.workers.set w ws')[v]? = some x → ∀ fd,
        Message.announcement fd ∈ x.scheduler → ∀ k < s.base.tables.length, k ∈ s.entries := by
  refine ⟨fun v x hx c hc => ?_, fun v x hx fd hfd => ?_⟩
  · rcases set_worker_cases hx with ⟨rfl, rfl⟩ | ⟨-, hx⟩
    · exact h.reports v ws hws c (hsub _ hc)
    · exact h.reports v x hx c hc
  · rcases set_worker_cases hx with ⟨rfl, rfl⟩ | ⟨-, hx⟩
    · exact h.announced v ws hws fd (hsub _ hfd)
    · exact h.announced v x hx fd hfd

/-- The chains in flight behind a turn belong to a worker, and to an SSTable that it waits for or
that is counted. -/
theorem BarrierInvariant.chains (h : BarrierInvariant files s) (hws : s.base.workers[w]? = some ws)
    (hchain : o.submitted ≠ [] → n ∈ s.entries ∨ cfg.waitsFor w n = true) {c : Chain}
    (hc : c ∈ (s.base.apply w n o).inFlight) :
    (c.table ∈ s.entries ∨ cfg.waitsFor c.worker c.table = true)
      ∧ c.worker < s.base.workers.length := by
  rcases List.mem_append.1 hc with hc | hc
  · exact ⟨h.flights c hc, h.senders c hc⟩
  · rcases List.mem_map.1 hc with ⟨kind, hkind, rfl⟩
    exact ⟨hchain (List.ne_nil_of_mem hkind), (List.getElem?_eq_some_iff.1 hws).1⟩

/-- **A turn of worker `w` on SSTable `n`**, in which the SSTables `add` are counted. -/
theorem BarrierInvariant.turn (h : BarrierInvariant files s) (hws : s.base.workers[w]? = some ws)
    (add : List ℕ) (hr : InRange ((s.base.apply w n o).setWorker w ws'))
    (hn : n < s.base.tables.length) (honce : (s.entries ++ add).Nodup)
    (hadd : ∀ k ∈ add, k = n ∧ cfg.waitsFor w k = true ∧ s.base.ReadCompletely files k)
    (hcounted : o.counted = add.length)
    (hinit : ws'.phase = .init → ws.phase = .init ∧
      ws'.numInitializedRead = ws.numInitializedRead + add.length)
    (hleft : ws'.phase ≠ .init → ∀ k, cfg.waitsFor w k = true → k ∈ s.entries)
    (hsub : ∀ m ∈ ws'.scheduler, m ∈ ws.scheduler)
    (hchain : o.submitted ≠ [] → n ∈ s.entries ∨ cfg.waitsFor w n = true)
    (hother : ∀ k, n ≠ k →
      ws'.reported.filter (·.table == k) = ws.reported.filter (·.table == k))
    (hself : n ∉ s.entries ++ add → Uncounted ((s.base.apply w n o).setWorker w ws') n o.table)
    (hposted : CqesPosted (s.entries ++ add) ((s.base.apply w n o).setWorker w ws')) :
    BarrierInvariant files
      ⟨(s.base.apply w n o).setWorker w ws', s.entries ++ add⟩ where
  inRange := hr
  numTables := length_tables_turn.trans h.numTables
  once := honce
  inTables := by
    intro k hk
    rw [length_tables_turn]
    rcases List.mem_append.1 hk with hk | hk
    · exact h.inTables k hk
    · rw [(hadd k hk).1]
      exact hn
  read := by
    intro k hk
    rcases List.mem_append.1 hk with hk | hk
    · exact h.read k hk
    · exact (hadd k hk).2.2
  numRead := by
    show (s.base.numRead + o.counted) % 2 ^ 32 = (s.entries ++ add).length % 2 ^ 32
    rw [h.numRead, hcounted, List.length_append, Nat.mod_add_mod]
  counted := by
    intro v x hx hphase
    rw [filter_waitsFor (fun k hk => (hadd k hk).2.1), List.length_append]
    rcases set_worker_cases hx with ⟨rfl, rfl⟩ | ⟨hv, hx⟩
    · rcases hinit hphase with ⟨hphase', hnum⟩
      rw [hnum, h.counted v ws hws hphase', if_pos rfl]
    · rw [h.counted v x hx hphase, if_neg hv]
      rfl
  left := by
    intro v x hx hphase k hk
    refine List.mem_append_left _ ?_
    rcases set_worker_cases hx with ⟨rfl, rfl⟩ | ⟨-, hx⟩
    · exact hleft hphase k hk
    · exact h.left v x hx hphase k hk
  flights := by
    intro c hc
    exact (h.chains hws hchain hc).1.imp_left (List.mem_append_left _)
  senders := by
    intro c hc
    simp only [State.setWorker, List.length_set]
    exact (h.chains hws hchain hc).2
  reports := by
    intro v x hx c hc
    exact ((h.messages hws hsub).1 v x hx c hc).imp_left (List.mem_append_left _)
  announced := by
    intro v x hx fd hfd k hk
    rw [length_tables_turn] at hk
    exact List.mem_append_left _ ((h.messages hws hsub).2 v x hx fd hfd k hk)
  allowed := h.allowed
  stages := by
    intro k t' ht' hk
    rcases table_turn ht' with ⟨rfl, rfl⟩ | ⟨hnk, ht⟩
    · exact hself hk
    · have hstage := h.stages k t' ht fun hmem => hk (List.mem_append_left _ hmem)
      rw [Uncounted, view_turn_other hws hnk.symm (hother k hnk.symm)]
      exact hstage
  posted := hposted

/-- A turn that only changes the state of its worker. -/
theorem BarrierInvariant.setWorker (h : BarrierInvariant files s)
    (hws : s.base.workers[w]? = some ws) (hr : InRange (s.base.setWorker w ws'))
    (hs : ws'.scheduler = ws.scheduler)
    (hinit : ws'.phase = .init → ws.phase = .init ∧
      ws'.numInitializedRead = ws.numInitializedRead)
    (hleft : ws'.phase ≠ .init → ws.phase ≠ .init) :
    BarrierInvariant files ⟨s.base.setWorker w ws', s.entries⟩ where
  inRange := hr
  numTables := h.numTables
  once := h.once
  inTables := h.inTables
  read := h.read
  numRead := h.numRead
  counted := by
    intro v x hx hphase
    rcases set_worker_cases hx with ⟨rfl, rfl⟩ | ⟨-, hx⟩
    · rcases hinit hphase with ⟨hphase', hnum⟩
      rw [hnum, h.counted v ws hws hphase']
    · exact h.counted v x hx hphase
  left := by
    intro v x hx hphase
    rcases set_worker_cases hx with ⟨rfl, rfl⟩ | ⟨-, hx⟩
    · exact h.left v ws hws (hleft hphase)
    · exact h.left v x hx hphase
  flights := h.flights
  senders := by
    intro c hc
    simp only [State.setWorker, List.length_set]
    exact h.senders c hc
  reports := (h.messages hws fun _ hm => hs ▸ hm).1
  announced := (h.messages hws fun _ hm => hs ▸ hm).2
  allowed := h.allowed
  stages := by
    intro k t' ht' hk
    rw [Uncounted, view_setWorker hws hs]
    exact h.stages k t' ht' hk
  posted := h.posted.setWorker hws (fun hphase => (hinit hphase).1) fun m hm => hs ▸ hm

/-- A message comes in: the report of a chain of this worker, or an announcement after all SSTables
have been counted. -/
theorem BarrierInvariant.receive (h : BarrierInvariant files s) (v : ℕ)
    (hdone : ∀ c, m = .done c → c.table ∈ s.entries ∨ cfg.waitsFor v c.table = true)
    (hannounced : ∀ fd, m = .announcement fd → ∀ n < s.base.tables.length, n ∈ s.entries) :
    (∀ (w : ℕ) (ws : WorkerState), (s.base.post v m).workers[w]? = some ws → ∀ c,
        Message.done c ∈ ws.scheduler → c.table ∈ s.entries ∨ cfg.waitsFor w c.table = true) ∧
      ∀ (w : ℕ) (ws : WorkerState), (s.base.post v m).workers[w]? = some ws → ∀ fd,
        Message.announcement fd ∈ ws.scheduler → ∀ n < s.base.tables.length, n ∈ s.entries := by
  refine ⟨fun w ws hws c hc => ?_, fun w ws hws fd hfd => ?_⟩
  · rcases post_worker_cases hws with ⟨x, hx, rfl | ⟨rfl, rfl⟩⟩
    · exact h.reports w _ hx c hc
    · rcases List.mem_append.1 hc with hc | hc
      · exact h.reports w x hx c hc
      · exact hdone c (List.mem_singleton.1 hc).symm
  · rcases post_worker_cases hws with ⟨x, hx, rfl | ⟨rfl, rfl⟩⟩
    · exact h.announced w _ hx fd hfd
    · rcases List.mem_append.1 hfd with hfd | hfd
      · exact h.announced w x hx fd hfd
      · exact hannounced fd (List.mem_singleton.1 hfd).symm

/-- A message changes neither how far a worker is nor what it has counted. -/
theorem BarrierInvariant.progress_post (h : BarrierInvariant files s) (v : ℕ) (m : Message) :
    (∀ w ws, (s.base.post v m).workers[w]? = some ws → ws.phase = .init →
        ws.numInitializedRead = (s.entries.filter (cfg.waitsFor w)).length) ∧
      ∀ w ws, (s.base.post v m).workers[w]? = some ws → ws.phase ≠ .init → ∀ n,
        cfg.waitsFor w n = true → n ∈ s.entries := by
  refine ⟨fun w ws hws hphase => ?_, fun w ws hws hphase => ?_⟩
  · rcases post_worker_cases hws with ⟨x, hx, rfl | ⟨rfl, rfl⟩⟩
    · exact h.counted w _ hx hphase
    · exact h.counted w x hx hphase
  · rcases post_worker_cases hws with ⟨x, hx, rfl | ⟨rfl, rfl⟩⟩
    · exact h.left w _ hx hphase
    · exact h.left w x hx hphase

theorem length_post (s : State cfg) (v : ℕ) (m : Message) :
    (s.post v m).workers.length = s.workers.length := by
  simp [State.post]

end

end Worker

end RingDB
