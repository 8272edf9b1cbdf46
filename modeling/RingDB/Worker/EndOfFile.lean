import RingDB.Worker.EventLoop

/-!
# The offset from which there is no data

`cur_min_invalid_offset` is documented to be at least the size of the SSTable's file: the search
takes every offset from there on for absent.  It is overwritten by every completion that is short,
empty or negative.  A short or an empty read says where the file ends.  A read that failed, or was
cancelled because the read before it in the chain came short, says nothing, and its offset is
entered all the same.

`CacheReads` is one SSTable with the reads it has submitted: `step` begins a batch, enters one
completion, goes on with the search, or hands buffers over.  `mainHandler_refines` says that these
steps are what `mainHandler` makes of a message; **`endOfFile_iff`** says in which runs the marker
stays at or behind the end of the file.
-/

namespace RingDB

open Core

namespace SSTableInfo

variable {cfg : Config} {heap : Heap cfg} {mem : Memory} {t t' : SSTableInfo cfg}

/-! ## A search does not move the marker -/

theorem pushIf_cache {c : Prop} [Decidable c] {child left right : ℕ}
    (h : (if c then t.pushChild heap mem child left right else pure t) = .ok t') :
    t'.cache = t.cache := by
  split_ifs at h
  · rcases bind_eq_ok.1 h with ⟨pool, -, h⟩
    rcases bind_eq_ok.1 h with ⟨buffer, -, h⟩
    split_ifs at h
    · cases h
      rfl
    · rcases bind_eq_ok.1 h with ⟨stack, -, h⟩
      cases h
      rfl
  · cases h
    rfl

theorem moveDownToChildren_cache (h : t.moveDownToChildren heap mem = .ok t') :
    t'.cache = t.cache := by
  rcases bind_eq_ok.1 h with ⟨q, -, h⟩
  rcases bind_eq_ok.1 h with ⟨t₁, h₁, h⟩
  rw [pushIf_cache h, pushIf_cache h₁]

theorem continueCached_cache {location : CacheLocation} {cur : ℕ} {r : ReadState cfg}
    (h : t.continueCached heap mem location cur = .ok r) : r.table.cache = t.cache := by
  rcases bind_eq_ok.1 h with ⟨⟨index, res⟩, -, h⟩
  cases res with
  | none => cases h
  | some res =>
      cases res with
      | eq =>
          rcases bind_eq_ok.1 h with ⟨pool, -, h⟩
          rcases bind_eq_ok.1 h with ⟨buffer, -, h⟩
          rcases bind_eq_ok.1 h with ⟨value, -, h⟩
          rcases bind_eq_ok.1 h with ⟨t₁, h₁, h⟩
          cases h
          exact moveDownToChildren_cache h₁
      | lt =>
          cases h
          rfl
      | gt =>
          cases h
          rfl

/-- `get_cur_min_invalid_offset` -/
def endMarker (t : SSTableInfo cfg) : ℕ := t.cache.helper.curMinInvalidOffset

theorem issueRead_endMarker {reads : List (ℕ × ℕ)} (h : t.issueRead = .ok (t', reads)) :
    t'.endMarker = t.endMarker := by
  rcases bind_eq_ok.1 h with ⟨helper, hhelper, h⟩
  split_ifs at h hhelper
  · cases h
    exact CacheHelper.replenish_curMinInvalidOffset hhelper
  · cases hhelper
    cases h
    rfl

theorem readPass_endMarker {r : ReadState cfg} (h : t.readPass heap mem = .ok r) :
    r.table.endMarker = t.endMarker := by
  unfold readPass at h
  split_ifs at h
  · rcases bind_eq_ok.1 h with ⟨t₁, h₁, h⟩
    cases h
    simp only [endMarker, moveDownToChildren_cache h₁]
  · rcases bind_eq_ok.1 h with ⟨q, -, h⟩
    rcases bind_eq_ok.1 h with ⟨pool, -, h⟩
    rcases bind_eq_ok.1 h with ⟨location, -, h⟩
    split_ifs at h
    · rcases bind_eq_ok.1 h with ⟨⟨t₁, reads⟩, h₁, h⟩
      cases h
      have hissue := issueRead_endMarker h₁
      exact hissue
    · simp only [endMarker, continueCached_cache h]

theorem readLoop_endMarker {fuel : ℕ} {r : ReadState cfg} (h : readLoop heap fuel mem t = .ok r) :
    r.table.endMarker = t.endMarker := by
  induction fuel generalizing mem t with
  | zero => cases h
  | succ fuel ih =>
      rcases bind_eq_ok.1 h with ⟨r₁, h₁, h⟩
      have hpass := readPass_endMarker h₁
      split_ifs at h
      · cases h
        exact hpass
      · exact (ih h).trans hpass

theorem tryRead_endMarker {fuel : ℕ} {r : ReadState cfg}
    (h : t.trySstableTreeReadInMemory heap fuel mem = .ok r) :
    r.table.endMarker = t.endMarker := by
  rcases bind_eq_ok.1 h with ⟨r₁, h₁, h⟩
  have hloop := readLoop_endMarker h₁
  cases h
  split_ifs
  · exact hloop
  · exact hloop

end SSTableInfo

namespace Worker

variable {cfg : Config}

/-- The file of an SSTable.  Its size is an `off_t`. -/
structure SSTableFile where
  size : ℕ
  size_lt : size < 2 ^ 63

/-- The result that a read of one buffer at `left` can have: so many bytes of the file, all up to
its end if they do not fill the buffer; none, from the end of the file on; or an error, at any
place. -/
def SSTableFile.Allowed (cfg : Config) (file : SSTableFile) (left : ℕ) (res : ℤ) : Prop :=
  res < 2 ^ 31 ∧
    (0 < res → left + res ≤ file.size ∧
      (res < cfg.fairAlignedSstablePageCacheBufferSize → left + res = file.size)) ∧
    (res = 0 → file.size ≤ left)

instance (file : SSTableFile) (left : ℕ) (res : ℤ) : Decidable (file.Allowed cfg left res) :=
  inferInstanceAs (Decidable (_ ∧ _ ∧ _))

/-- An SSTable in the main loop, the offsets of its reads that have not been entered, and how many
completions of their chain have been. -/
structure CacheReads (cfg : Config) where
  table : SSTableInfo cfg
  awaited : List ℕ := []
  entered : ℕ := 0

/-- The offsets of the reads that a turn submitted. -/
def readsOf (o : Outcome cfg) : List ℕ :=
  o.submitted.flatMap fun
    | .cacheRead reads => reads.map Prod.fst
    | _ => []

namespace CacheReads

inductive Event (cfg : Config) where
  /-- A batch of reads, of this length, is taken from the wait queue. -/
  | begin (heap : Heap cfg) (mem : Memory) (fuel batch length : ℕ)
  /-- The next completion is entered. -/
  | complete (res : ℤ)
  /-- All completions are entered, and the search is called again. -/
  | resume (heap : Heap cfg) (mem : Memory) (fuel : ℕ)
  /-- A buffer comes from a neighbour, buffers go to one. -/
  | addBuffer
  | removeBufferRange (bufferId₁ bufferId₂ : ℕ)

/-- One event.  One that cannot happen changes nothing. -/
def step (file : SSTableFile) (s : CacheReads cfg) : Event cfg → Except Fault (CacheReads cfg)
  | .begin heap mem fuel batch length =>
      if s.table.waitingOnIo then .ok s
      else do
        let o ← beginRead heap mem fuel {} length { s.table with reqBatch := some batch }
        pure { table := o.table, awaited := readsOf o }
  | .complete res =>
      match s.awaited with
      | [] => .ok s
      | left :: rest =>
          if file.Allowed cfg left res then do
            let helper ← enterCompletion s.entered ⟨left, res⟩ s.table.cache.helper
            pure
              { table := { s.table with cache := { s.table.cache with helper } }
                awaited := rest
                entered := s.entered + 1 }
          else .ok s
  | .resume heap mem fuel =>
      if s.awaited = [] then do
        let r ← s.table.trySstableTreeReadInMemory heap fuel mem
        pure { table := r.table, awaited := readsOf (outcomeOf r) }
      else .ok s
  | .addBuffer =>
      .ok { s with table :=
        { s.table with cache := { s.table.cache with helper := s.table.cache.helper.addBuffer } } }
  | .removeBufferRange bufferId₁ bufferId₂ => do
      let helper ← s.table.cache.helper.removeBufferRange bufferId₁ bufferId₂
      pure { s with table := { s.table with cache := { s.table.cache with helper } } }

/-- The marker is at or behind the end of the file. -/
def MarkerValid (file : SSTableFile) (s : CacheReads cfg) : Prop := file.size ≤ s.table.endMarker

/-- If the event enters a read that failed, the read was at or behind the end of the file. -/
def FailsBehindEnd (file : SSTableFile) (s : CacheReads cfg) : Event cfg → Prop
  | .complete res => ∀ left ∈ s.awaited.head?, res < 0 → file.size ≤ left
  | _ => True

instance (file : SSTableFile) (s : CacheReads cfg) :
    ∀ e : Event cfg, Decidable (s.FailsBehindEnd file e)
  | .complete res => inferInstanceAs (Decidable (∀ left ∈ s.awaited.head?, res < 0 → _))
  | .begin .. => isTrue trivial
  | .resume .. => isTrue trivial
  | .addBuffer => isTrue trivial
  | .removeBufferRange .. => isTrue trivial

end CacheReads

/-- One completion that is entered. -/
theorem enterCompletion_marker {file : SSTableFile} {j left : ℕ} {res : ℤ}
    {h h' : CacheHelper cfg} (hallowed : file.Allowed cfg left res)
    (hvalid : file.size ≤ h.curMinInvalidOffset) (he : enterCompletion j ⟨left, res⟩ h = .ok h') :
    file.size ≤ h'.curMinInvalidOffset ↔ (res < 0 → file.size ≤ left) := by
  rcases hallowed with ⟨hint, hpos, hzero⟩
  have hsize := file.size_lt
  simp only [enterCompletion] at he
  by_cases hres : 0 < res
  · rcases hpos hres with ⟨hle, hshort⟩
    rw [if_pos hres] at he
    rcases bind_eq_ok.1 he with ⟨h₁, hmap, he⟩
    refine iff_of_true ?_ fun hneg => absurd hres (by omega)
    have huint : ReadWritePool.toUint res = res.toNat := by
      unfold ReadWritePool.toUint
      omega
    split_ifs at he with hlt
    · cases he
      have hend := hshort (by omega)
      simp only [CacheHelper.setCurMinInvalidOffset]
      omega
    · cases he
      rw [CacheHelper.map_curMinInvalidOffset hmap]
      exact hvalid
  · rw [if_neg hres] at he
    cases he
    simp only [CacheHelper.setCurMinInvalidOffset]
    constructor
    · exact fun hle _ => hle
    · intro hneg
      rcases lt_or_eq_of_le (not_lt.1 hres) with hlt | heq
      · exact hneg hlt
      · exact hzero heq

namespace CacheReads

variable {file : SSTableFile} {s s' : CacheReads cfg}

/-- The next completion leaves the marker valid exactly if it is not that of a failed read from
before the end of the file. -/
theorem complete_markerValid {res : ℤ} (hvalid : s.MarkerValid file)
    (h : step file s (.complete res) = .ok s') :
    s'.MarkerValid file ↔ s.FailsBehindEnd file (.complete res) := by
  simp only [step] at h
  cases hawaited : s.awaited with
  | nil =>
      rw [hawaited] at h
      cases h
      exact iff_of_true hvalid (by simp [FailsBehindEnd, hawaited])
  | cons left rest =>
      simp only [hawaited] at h
      have hcond : s.FailsBehindEnd file (.complete res) ↔ (res < 0 → file.size ≤ left) := by
        simp [FailsBehindEnd, hawaited]
      rw [hcond]
      split_ifs at h with hallowed
      · rcases bind_eq_ok.1 h with ⟨helper, henter, hdone⟩
        cases hdone
        exact enterCompletion_marker hallowed hvalid henter
      · cases h
        -- a negative result is always possible
        refine iff_of_true hvalid fun hneg => absurd ⟨by omega, ?_, ?_⟩ hallowed
        · exact fun hpos => absurd hneg (by omega)
        · exact fun hzero => absurd hneg (by omega)

/-- **One event.**  It leaves the marker valid exactly if it enters no failed read from before the
end of the file. -/
theorem step_markerValid {e : Event cfg} (hvalid : s.MarkerValid file)
    (h : step file s e = .ok s') : s'.MarkerValid file ↔ s.FailsBehindEnd file e := by
  cases e with
  | begin heap mem fuel batch length =>
      refine iff_of_true ?_ trivial
      simp only [step] at h
      split_ifs at h
      · cases h
        exact hvalid
      · rcases bind_eq_ok.1 h with ⟨o, ho, h⟩
        rcases bind_eq_ok.1 ho with ⟨stack, -, ho⟩
        rcases bind_eq_ok.1 ho with ⟨r, hr, ho⟩
        cases ho
        cases h
        have hkept := SSTableInfo.tryRead_endMarker hr
        exact le_of_le_of_eq hvalid hkept.symm
  | complete res => exact complete_markerValid hvalid h
  | resume heap mem fuel =>
      refine iff_of_true ?_ trivial
      simp only [step] at h
      split_ifs at h
      · rcases bind_eq_ok.1 h with ⟨r, hr, h⟩
        cases h
        have hkept := SSTableInfo.tryRead_endMarker hr
        exact le_of_le_of_eq hvalid hkept.symm
      · cases h
        exact hvalid
  | addBuffer =>
      cases h
      exact iff_of_true hvalid trivial
  | removeBufferRange bufferId₁ bufferId₂ =>
      refine iff_of_true ?_ trivial
      rcases bind_eq_ok.1 h with ⟨helper, hremove, h⟩
      cases h
      exact le_of_le_of_eq hvalid (CacheHelper.remove_curMinInvalidOffset hremove).symm

/-- The loop over the completions is the run that enters them one by one. -/
theorem enterCompletions_run : ∀ {cqes : List Cqe} {j : ℕ} {t : SSTableInfo cfg}
    {helper : CacheHelper cfg}, (∀ c ∈ cqes, file.Allowed cfg c.userData c.res) →
    enterCompletions j cqes t.cache.helper = .ok helper →
    runEvents (step file) ⟨t, cqes.map Cqe.userData, j⟩ (cqes.map fun c => .complete c.res)
      = .ok ⟨{ t with cache := { t.cache with helper } }, [], j + cqes.length⟩ := by
  intro cqes
  induction cqes with
  | nil =>
      intro j t helper _ h
      cases h
      rfl
  | cons c cqes ih =>
      intro j t helper hall h
      rcases bind_eq_ok.1 h with ⟨h₁, henter, h⟩
      have hfirst : step file ⟨t, (c :: cqes).map Cqe.userData, j⟩ (.complete c.res)
          = .ok ⟨{ t with cache := { t.cache with helper := h₁ } }, cqes.map Cqe.userData,
              j + 1⟩ := by
        simp only [step, List.map_cons, if_pos (hall c (by simp))]
        exact bind_eq_ok.2 ⟨h₁, henter, rfl⟩
      rw [List.map_cons (f := fun c : Cqe => Event.complete c.res), runEvents_cons_ok hfirst,
        ih (t := { t with cache := { t.cache with helper := h₁ } })
          (fun c' hc' => hall c' (List.mem_cons_of_mem _ hc')) h]
      simp only [List.length_cons, Nat.add_comm, Nat.add_left_comm]

/-- What `mainHandler` does with the completions of a chain of cache reads is a run of these
steps. -/
theorem mainHandler_refines {heap : Heap cfg} {mem : Memory} {fuel level : ℕ}
    {t : SSTableInfo cfg} {cqes : List Cqe} {o : Outcome cfg} (hne : cqes ≠ [])
    (hlen : cqes.length ≤ 2) (hall : ∀ c ∈ cqes, file.Allowed cfg c.userData c.res)
    (hring : t.ring = [])
    (h : mainHandler heap mem fuel level { t with ring := cqes } = .ok o) :
    runEvents (step file) ⟨t, cqes.map Cqe.userData, 0⟩
        ((cqes.map fun c => .complete c.res) ++ [.resume heap mem fuel])
      = .ok ⟨o.table, readsOf o, 0⟩ := by
  cases cqes with
  | nil => exact absurd rfl hne
  | cons c cqes =>
      rcases bind_eq_ok.1 h with ⟨t₁, htake, hrest⟩
      rcases bind_eq_ok.1 htake with ⟨helper, henter, ht₁⟩
      rcases bind_eq_ok.1 hrest with ⟨r, hr, ho⟩
      cases ht₁
      cases ho
      rw [List.take_of_length_le hlen] at henter
      have hrun := enterCompletions_run (t := t) hall henter
      have hsame : ({ t with
          cache := { t.cache with helper }
          ring := (c :: cqes).drop 2 } : SSTableInfo cfg)
          = { t with cache := { t.cache with helper } } := by
        rw [List.drop_of_length_le hlen, ← hring]
      rw [runEvents_append hrun]
      refine (runEvents_cons_ok ?_ []).trans rfl
      simp only [step, if_true]
      exact bind_eq_ok.2 ⟨r, by rw [← hr]; simp only [hsame], rfl⟩

/-- In every run of an SSTable that begins with a valid marker, the marker is valid throughout if
and only if every failed or cancelled read that is entered was at or behind the end of the file. -/
theorem endOfFile_iff (file : SSTableFile) (s : CacheReads cfg) (hvalid : s.MarkerValid file)
    (es : List (Event cfg)) :
    Throughout (step file) (MarkerValid file) s es
      ↔ StepsMeet (step file) (FailsBehindEnd file) s es :=
  throughout_iff_stepsMeet (I := MarkerValid file) (fun _ h => h)
    (fun _ _ _ h hc hs => (step_markerValid h hs).2 hc)
    (fun _ _ _ h hs h' => (step_markerValid h hs).1 h') hvalid

/-- An SSTable as `openTable` leaves it, which has been flushed to since. -/
def opened (cfg : Config) : CacheReads cfg where
  table := { (openTable (SSTableInfo.new (Stack.zeroed _))).table with isFlushedTo := true }

/-- One READ of the key `k`. -/
def oneRead (cfg : Config) : Heap cfg :=
  [{ RequestBatch.zeroed cfg .read with
      readwritePool := { entries := [⟨.read, 0, 5, 0⟩] } }]

def readOfK : Memory := fun a => if a = 5 then 107 else 0

theorem three_lt_off : 3 < 2 ^ 63 := by decide

def oneEntryFile : SSTableFile where
  size := 3
  size_lt := three_lt_off

/-- Another one, with this quadruple in all of its stack slots. -/
def openedOver (cfg : Config) (slot : Quad) : CacheReads cfg where
  table :=
    { (openTable (SSTableInfo.new (Stack.new (List.replicate _ slot) List.length_replicate))).table
      with isFlushedTo := true }

/-- The same READ four times. -/
def fourReads (cfg : Config) : Heap cfg :=
  [{ RequestBatch.zeroed cfg .read with
      readwritePool := { entries := List.replicate 4 ⟨.read, 0, 5, 0⟩ } }]

/-- The search begins at the offset `3` that it finds in its stack, which is the end of the file.
The read from there fails, and the marker is the end of the file from then on. -/
theorem endOfFile_failed_behind :
    Throughout (step oneEntryFile) (MarkerValid oneEntryFile) (openedOver pagedConfig (3, 0, 0, 0))
        [.begin (fourReads _) readOfK 1 0 4, .complete (-5), .resume (fourReads _) readOfK 1]
      ∧ okAnd (runEvents (step oneEntryFile) (openedOver pagedConfig (3, 0, 0, 0))
        [.begin (fourReads _) readOfK 1 0 4, .complete (-5), .resume (fourReads _) readOfK 1])
        (fun s => s.table.endMarker == 3) = true := by
  have hvalid : 3 ≤ (openedOver pagedConfig (3, 0, 0, 0)).table.endMarker := by decide +kernel
  exact ⟨(endOfFile_iff oneEntryFile _ hvalid _).2 (by decide +kernel), by decide +kernel⟩

/-- The file has an entry, but the first read fails with `-EIO`: from then on the search takes the
offset `0` for the end of the file. -/
theorem failed_read_hides_file :
    (opened pagedConfig).MarkerValid oneEntryFile ∧
      ¬ Throughout (step oneEntryFile) (MarkerValid oneEntryFile) (opened pagedConfig)
        [.begin (oneRead _) readOfK 1 0 1, .complete (-5)] := by
  have hstart : 3 ≤ (opened pagedConfig).table.endMarker := by decide +kernel
  refine ⟨hstart, fun h => ?_⟩
  have hrun : okAnd (runEvents (step oneEntryFile) (opened pagedConfig)
      [.begin (oneRead _) readOfK 1 0 1, .complete (-5)]) (fun s => s.table.endMarker == 0)
      = true := by
    decide +kernel
  rcases okAnd_iff.1 hrun with ⟨s, hs, hzero⟩
  have hvalid : 3 ≤ s.table.endMarker := h.final hs
  rw [beq_iff_eq.1 hzero] at hvalid
  exact absurd hvalid (by decide)

end CacheReads

end Worker

end RingDB
