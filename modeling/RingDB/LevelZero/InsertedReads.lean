import Mathlib.Order.CompletePartialOrder
import RingDB.LevelZero.Routing
import RingDB.Levels.Partition

/-!
# What additional READs change at level 0

Two runs of the request loop from a fresh start: one over given events, and one over the same
events with READs inserted between them.  `observe` records what the first run and the second run
say about the given events: the answer of level 0 to each of them and the memtables after it.

`get_table_num` stores the key of a READ in the sparse index, but as long as no table has a maximum
key that decides nothing (`Untouched`).  What an additional READ does change is the read batch.
A READ that fills it hands it over to level 1, and there the main thread ends (`decompose_live`).

* `ReadsInserted` — the marked events are READs of clients, in buffers of their own.
* `Collecting` — the invariant of both runs: nothing at level 0 is touched, and the read batch holds
  requests of clients.
* **`observe_inserted_iff`** — the two runs agree if and only if no READ fills the read batch.
-/

namespace RingDB

open Core

variable {cfg : Config}

/-! ## Two runs -/

/-- The addresses that an event reads or writes. -/
def MainEvent.footprint (cfg : Config) : MainEvent → Set ℕ
  | .receive buffer message => Set.Ico buffer (buffer + message.length)
  | .practicallyFull _ => ∅
  | .request conn => Set.Ico conn.buffer (conn.buffer + cfg.socketBufferLength)

/-- The message of a READ is received, or the READ is taken. -/
def MainEvent.OfRead : MainEvent → Prop
  | .receive _ _ => True
  | .practicallyFull _ => False
  | .request conn => conn.reqType = .read

/-- The events marked with `true` belong to additional READs, whose buffers are the addresses `own`;
every request has a client. -/
structure ReadsInserted (cfg : Config) (own : Set ℕ) (es : List (Bool × MainEvent)) : Prop where
  ofRead : ∀ e, (true, e) ∈ es → e.OfRead
  inside : ∀ e, (true, e) ∈ es → e.footprint cfg ⊆ own
  outside : ∀ e, (false, e) ∈ es → Disjoint (e.footprint cfg) own
  live : ∀ inserted conn, (inserted, .request conn) ∈ es → conn.clientSockFd ≠ -1

/-- The events that were not inserted. -/
def originals (es : List (Bool × MainEvent)) : List (Bool × MainEvent) := es.filter (!·.1)

theorem ReadsInserted.tail {own : Set ℕ} {e : Bool × MainEvent} {es : List (Bool × MainEvent)}
    (h : ReadsInserted cfg own (e :: es)) : ReadsInserted cfg own es where
  ofRead := fun e' he => h.ofRead e' (List.mem_cons_of_mem _ he)
  inside := fun e' he => h.inside e' (List.mem_cons_of_mem _ he)
  outside := fun e' he => h.outside e' (List.mem_cons_of_mem _ he)
  live := fun inserted conn he => h.live inserted conn (List.mem_cons_of_mem _ he)

namespace MainState

variable {Z : LevelZero cfg}

/-- The answer of level 0 to an event. -/
def answer (s : MainState Z) : MainEvent → Except Fault (Option (Outcome Z))
  | .request conn => do
      let (_, outcome) ← s.route conn
      pure (some outcome)
  | _ => pure none

/-- What a run says about the events that were not inserted: the answers to them, the memtables
after each of them, and the memtables at its end. -/
def observe (alloc : Allocator cfg) :
    MainState Z → List (Bool × MainEvent) →
      Except Fault (List (Option (Outcome Z) × List Z.Table))
  | s, [] => .ok [(none, s.memtables)]
  | s, (inserted, e) :: es => do
      let outcome ← s.answer e
      let s' ← s.step alloc e
      let rest ← observe alloc s' es
      pure (if inserted then rest else (outcome, s'.memtables) :: rest)

/-- A READ of a key finds room in the read batch and does not fill it. -/
def FitsReadBatch (s : MainState Z) : MainEvent → Prop
  | .request conn => conn.reqType = .read → keyAt cfg s.mem conn.buffer ≠ nullKey cfg →
      ∀ b ∈ s.batches[s.readBatch]?, b.readwritePool.entries.length < cfg.pageSize
        ∧ b.readwritePool.entries.length + 1 ≠ cfg.batchNumRequests
  | _ => True

instance (s : MainState Z) : DecidablePred s.FitsReadBatch
  | .receive _ _ => inferInstanceAs (Decidable True)
  | .practicallyFull _ => inferInstanceAs (Decidable True)
  | .request conn => inferInstanceAs (Decidable (conn.reqType = .read →
      keyAt cfg s.mem conn.buffer ≠ nullKey cfg →
        ∀ b ∈ s.batches[s.readBatch]?, b.readwritePool.entries.length < cfg.pageSize
          ∧ b.readwritePool.entries.length + 1 ≠ cfg.batchNumRequests))

end MainState

/-! ## Memory outside the additional buffers -/

/-- What an event leaves in memory, as long as no READ finds its key at level 0. -/
def memAfter (cfg : Config) (mem : Memory) : MainEvent → Memory
  | .receive buffer message => store mem buffer message
  | .practicallyFull _ => mem
  | .request conn =>
      if keyAt cfg mem conn.buffer = nullKey cfg then
        store mem conn.buffer (nulBytes cfg.socketBufferLength)
      else mem

section Memory

variable {mem mem' : Memory} {own : Set ℕ} {e : MainEvent}

/-- The key of a request lies in its footprint. -/
theorem keyAt_congr {buffer : ℕ}
    (h : Set.EqOn mem mem' (Set.Ico buffer (buffer + cfg.socketBufferLength))) :
    keyAt cfg mem buffer = keyAt cfg mem' buffer := by
  refine List.map_congr_left fun j hj => h ?_
  rw [List.mem_range] at hj
  rw [Set.mem_Ico, Config.socketBufferLength]
  omega

/-- An inserted event writes to the additional buffers only. -/
theorem memAfter_inserted (h : Set.EqOn mem mem' ownᶜ) (hin : e.footprint cfg ⊆ own) :
    Set.EqOn mem (memAfter cfg mem' e) ownᶜ := by
  intro q hq
  have hout : q ∉ e.footprint cfg := fun hmem => hq (hin hmem)
  rw [h hq]
  cases e with
  | receive buffer message =>
      rw [MainEvent.footprint, Set.mem_Ico] at hout
      exact (store_outside (by omega)).symm
  | practicallyFull flag => rfl
  | request conn =>
      rw [MainEvent.footprint, Set.mem_Ico] at hout
      simp only [memAfter]
      split_ifs
      · exact (store_outside (by rw [length_nulBytes]; omega)).symm
      · rfl

/-- One copy into two memories keeps them alike. -/
theorem store_congr {p : ℕ} {b : Bytes} (h : Set.EqOn mem mem' ownᶜ) :
    Set.EqOn (store mem p b) (store mem' p b) ownᶜ := by
  intro q hq
  simp only [store, h hq]

theorem memAfter_original (h : Set.EqOn mem mem' ownᶜ) (hout : Disjoint (e.footprint cfg) own) :
    Set.EqOn (memAfter cfg mem e) (memAfter cfg mem' e) ownᶜ := by
  cases e with
  | receive buffer message => exact store_congr h
  | practicallyFull flag => exact h
  | request conn =>
      have hkey : keyAt cfg mem conn.buffer = keyAt cfg mem' conn.buffer :=
        keyAt_congr (h.mono hout.subset_compl_right)
      simp only [memAfter, hkey]
      split_ifs
      · exact store_congr h
      · exact h

end Memory

/-! ## The read batch -/

/-- Nothing at level 0 is touched, and `b` is the read batch, with requests of clients. -/
structure Collecting (s : MainState (ringLevelZero cfg)) (b : RequestBatch cfg) : Prop where
  untouched : Untouched s
  batch : s.batches[s.readBatch]? = some b
  isRead : b.reqType = .read
  live : ∀ conn ∈ b.readwritePool.entries, conn.clientSockFd ≠ -1

theorem collecting_freshMain {alloc : Allocator cfg}
    (hempty : (alloc.chunk 0).readwritePool.entries = []) (mem : Memory) :
    Collecting (freshMain cfg alloc mem) (RequestBatch.new .read (alloc.chunk 0)) where
  untouched := untouched_freshMain alloc mem
  batch := rfl
  isRead := rfl
  live := by
    intro conn hconn
    rw [RequestBatch.new, hempty] at hconn
    exact absurd hconn List.not_mem_nil

/-- A request of a client joins requests of clients. -/
theorem insertReadWrite_live {mem : Memory} {pool pool' : ReadWritePool} {conn : ConnectionRequest}
    (h : pool.insertReadWrite cfg mem conn = .ok pool') (hconn : conn.clientSockFd ≠ -1)
    (hlive : ∀ c ∈ pool.entries, c.clientSockFd ≠ -1) :
    ∀ c ∈ pool'.entries, c.clientSockFd ≠ -1 := by
  have hperm := ReadWritePool.insertReadWrite_map (f := ConnectionRequest.clientSockFd)
    (fun _ _ => rfl) h
  intro c hc
  have hmem := hperm.mem_iff.1 (List.mem_map_of_mem hc)
  rcases List.mem_cons.1 hmem with hfd | hfd
  · rw [hfd]
    exact hconn
  · rcases List.mem_map.1 hfd with ⟨c', hc', hfd⟩
    rw [← hfd]
    exact hlive c' hc'

section

variable {alloc : Allocator cfg} {s s' : MainState (ringLevelZero cfg)} {b : RequestBatch cfg}
  {conn : ConnectionRequest} {e : MainEvent}

/-- **A READ batch of clients' requests is not handed over**: the main thread ends there. -/
theorem Collecting.insertIntoWqs_ne_ok (h : Collecting s b) (hne : b.readwritePool.entries ≠ []) :
    s.insertIntoWqs alloc s.readBatch ≠ .ok s' := by
  intro hover
  rcases bind_eq_ok.1 hover with ⟨b', -, hover⟩
  rcases bind_eq_ok.1 hover with ⟨⟨levels, batches⟩, hlevel, -⟩
  rcases bind_eq_ok.1
    (show s.levels.insertIntoWqs s.mem alloc s.batches s.readBatch = _ from hlevel)
    with ⟨r, hd, -⟩
  exact hne (LevelInfo.decompose_live h.batch h.isRead h.live hd)

/-- The state after a READ joined the read batch. -/
def collected (s : MainState (ringLevelZero cfg)) (conn : ConnectionRequest)
    (b' : RequestBatch cfg) :
    MainState (ringLevelZero cfg) :=
  { s with batches := s.batches.set s.readBatch b', missed := s.missed ++ [conn.payload] }

theorem Collecting.collected (h : Collecting s b) {pool : ReadWritePool}
    (hconn : conn.clientSockFd ≠ -1)
    (hins : b.readwritePool.insertReadWrite cfg s.mem
      ⟨.read, s.readBatch, conn.clientSockFd, conn.buffer⟩ = .ok pool) :
    Collecting (collected s conn { b with readwritePool := pool })
      { b with readwritePool := pool } where
  untouched := ⟨h.untouched.noMax, h.untouched.nothingWritten, h.untouched.memtables_le⟩
  batch := List.getElem?_set_self (List.getElem?_eq_some_iff.1 h.batch).1
  isRead := h.isRead
  live := insertReadWrite_live hins hconn h.live

/-- **A READ that misses level 0** stays in the read batch, or the main thread ends. -/
theorem Collecting.collectMiss (h : Collecting s b) (hconn : conn.clientSockFd ≠ -1)
    (hmiss : s.collectMiss alloc conn = .ok s') :
    (b.readwritePool.entries.length < cfg.pageSize
        ∧ b.readwritePool.entries.length + 1 ≠ cfg.batchNumRequests)
      ∧ ∃ b', Collecting s' b' ∧ s' = RingDB.collected s conn b' := by
  rcases bind_eq_ok.1 hmiss with ⟨b₀, hb₀, hmiss⟩
  rw [Heap.deref_ok_iff.2 h.batch] at hb₀
  cases hb₀
  rcases bind_eq_ok.1 hmiss with ⟨b', hb', hmiss⟩
  rcases bind_eq_ok.1 hb' with ⟨pool, hpool, hb'⟩
  cases hb'
  have hcollected := h.collected hconn hpool
  have hlen := ReadWritePool.insertReadWrite_length hpool
  have hroom : b.readwritePool.entries.length < cfg.pageSize := by
    unfold ReadWritePool.insertReadWrite at hpool
    split_ifs at hpool with hroom
    exact hroom
  dsimp only at hmiss
  split_ifs at hmiss with hfull
  · refine absurd hmiss (hcollected.insertIntoWqs_ne_ok ?_)
    intro hnil
    have hlen' : pool.entries.length = 0 := by
      rw [show pool.entries = [] from hnil]
      rfl
    omega
  · cases hmiss
    exact ⟨⟨hroom, by rw [← hlen]; exact hfull⟩, _, hcollected, rfl⟩

/-- With room for it a READ joins the read batch. -/
theorem Collecting.collectMiss_ok (h : Collecting s b)
    (hroom : b.readwritePool.entries.length < cfg.pageSize)
    (hfits : b.readwritePool.entries.length + 1 ≠ cfg.batchNumRequests) :
    ∃ s', s.collectMiss alloc conn = .ok s' := by
  rcases @ReadWritePool.insertReadWrite_ok cfg s.mem _
    ⟨.read, s.readBatch, conn.clientSockFd, conn.buffer⟩ hroom with ⟨pool, hpool⟩
  have hlen := ReadWritePool.insertReadWrite_length hpool
  refine ⟨RingDB.collected s conn { b with readwritePool := pool },
    bind_eq_ok.2 ⟨b, Heap.deref_ok_iff.2 h.batch, bind_eq_ok.2
      ⟨_, bind_eq_ok.2 ⟨pool, hpool, rfl⟩, ?_⟩⟩⟩
  exact if_neg (show pool.entries.length ≠ _ by rw [hlen]; exact hfits)

/-! ## One event -/

theorem not_isKeyedWrite (h : e.OfRead) : ¬ IsKeyedWrite s e := by
  cases e with
  | receive buffer message => exact id
  | practicallyFull flag => exact id
  | request conn => exact fun hwrite => hwrite.1 h

/-- What level 0 answers in an untouched state. -/
def expected (s : MainState (ringLevelZero cfg)) : MainEvent → Option (Outcome (ringLevelZero cfg))
  | .request conn => some (if keyAt cfg s.mem conn.buffer = nullKey cfg then .nullKey else .miss)
  | _ => none

theorem Untouched.route_eq (h : Untouched s) (hno : ¬ IsKeyedWrite s (.request conn)) :
    ∃ ix, s.route conn
        = .ok (ix, if keyAt cfg s.mem conn.buffer = nullKey cfg then .nullKey else .miss)
      ∧ ix.NoMax := by
  obtain ⟨ix, hget, hmax⟩ :=
    SparseIndex.getTableNum_of_noMax h.noMax (length_keyAt cfg s.mem conn.buffer)
  refine ⟨ix, bind_eq_ok.2 ⟨(ix, uintMax), hget, ?_⟩, hmax⟩
  by_cases hkey : keyAt cfg s.mem conn.buffer = nullKey cfg
  · simp [hkey, memcmp_self]
    rfl
  · have hread : conn.reqType = .read := not_not.1 fun hne => hno ⟨hne, hkey⟩
    simp [hkey, hread, memcmp_eq_iff]
    rfl

/-- A WRITE of a key has no answer. -/
theorem Untouched.answer_write (h : Untouched s) (hwrite : IsKeyedWrite s e)
    {o : Option (Outcome (ringLevelZero cfg))} : s.answer e ≠ .ok o := by
  intro hans
  cases e with
  | receive buffer message => exact hwrite
  | practicallyFull flag => exact hwrite
  | request conn =>
      rcases bind_eq_ok.1 hans with ⟨⟨ix, o⟩, hroute, -⟩
      obtain ⟨ix', hget, -⟩ :=
        SparseIndex.getTableNum_of_noMax h.noMax (length_keyAt cfg s.mem conn.buffer)
      rcases bind_eq_ok.1 hroute with ⟨⟨ix₁, t⟩, hlookup, hroute⟩
      rw [show (ringLevelZero cfg).getTableNum s.index _ = _ from hget] at hlookup
      cases hlookup
      simp [hwrite.1, hwrite.2, memcmp_eq_iff, h.no_table] at hroute

theorem Untouched.answer_eq (h : Untouched s) (hno : ¬ IsKeyedWrite s e) :
    s.answer e = .ok (expected s e) := by
  cases e with
  | receive buffer message => rfl
  | practicallyFull flag => rfl
  | request conn =>
      rcases h.route_eq hno with ⟨ix, hroute, -⟩
      exact bind_eq_ok.2 ⟨_, hroute, rfl⟩

/-- The state after the index was asked. -/
theorem Collecting.withIndex (h : Collecting s b) {ix : SparseIndex cfg} (hmax : ix.NoMax) :
    Collecting { s with index := ix } b where
  untouched := ⟨hmax, h.untouched.nothingWritten, h.untouched.memtables_le⟩
  batch := h.batch
  isRead := h.isRead
  live := h.live

/-- **One event that has an outcome**: it fits the read batch, and it leaves the memtables alone. -/
theorem Collecting.step (h : Collecting s b) (hno : ¬ IsKeyedWrite s e)
    (hlive : ∀ conn, e = .request conn → conn.clientSockFd ≠ -1)
    (hs : s.step alloc e = .ok s') :
    s.FitsReadBatch e ∧ (∃ b', Collecting s' b') ∧ s'.memtables = s.memtables
      ∧ s'.mem = memAfter cfg s.mem e := by
  cases e with
  | receive buffer message =>
      cases hs
      exact ⟨trivial, ⟨b, ⟨h.untouched.noMax, h.untouched.nothingWritten, h.untouched.memtables_le⟩,
        h.batch, h.isRead, h.live⟩, rfl, rfl⟩
  | practicallyFull flag =>
      cases hs
      exact ⟨trivial, ⟨b, ⟨h.untouched.noMax, h.untouched.nothingWritten, h.untouched.memtables_le⟩,
        h.batch, h.isRead, h.live⟩, rfl, rfl⟩
  | request conn =>
      rcases h.untouched.route_eq hno with ⟨ix, hroute, hmax⟩
      have hix := h.withIndex hmax
      rcases bind_eq_ok.1 hs with ⟨r, hr, hs⟩
      rw [hroute] at hr
      cases hr
      by_cases hkey : keyAt cfg s.mem conn.buffer = nullKey cfg
      · simp only [hkey, if_true] at hs
        cases hs
        refine ⟨fun _ hne => absurd hkey hne, ⟨b, ⟨hmax, h.untouched.nothingWritten,
          h.untouched.memtables_le⟩, h.batch, h.isRead, h.live⟩, rfl, ?_⟩
        simp only [memAfter, hkey, if_true]
      · simp only [hkey, if_false] at hs
        rcases bind_eq_ok.1 hs with ⟨s₁, hmiss, hs⟩
        rcases hix.collectMiss (hlive conn rfl) hmiss with ⟨hfits, b', hb', rfl⟩
        cases hs
        refine ⟨fun _ _ b₀ hb₀ => ?_, ⟨b', ⟨hmax, h.untouched.nothingWritten,
          h.untouched.memtables_le⟩, hb'.batch, hb'.isRead, hb'.live⟩, rfl, ?_⟩
        · rw [h.batch, Option.mem_some_iff] at hb₀
          rw [← hb₀]
          exact hfits
        · simp only [memAfter, hkey, if_false]
          rfl

/-- An event that fits the read batch has an outcome, unless it is a WRITE of a key. -/
theorem Collecting.step_ok (h : Collecting s b) (hno : ¬ IsKeyedWrite s e)
    (hfits : s.FitsReadBatch e) : ∃ s', s.step alloc e = .ok s' := by
  cases e with
  | receive buffer message => exact ⟨_, rfl⟩
  | practicallyFull flag => exact ⟨_, rfl⟩
  | request conn =>
      rcases h.untouched.route_eq hno with ⟨ix, hroute, hmax⟩
      by_cases hkey : keyAt cfg s.mem conn.buffer = nullKey cfg
      · simp only [hkey, if_true] at hroute
        exact ⟨_, bind_eq_ok.2 ⟨_, hroute, rfl⟩⟩
      · simp only [hkey, if_false] at hroute
        have hread : conn.reqType = .read := not_not.1 fun hne => hno ⟨hne, hkey⟩
        rcases hfits hread hkey b h.batch with ⟨hroom, hfits⟩
        have hcollect : ∃ s₁, MainState.collectMiss alloc { s with index := ix } conn = .ok s₁ :=
          (h.withIndex hmax).collectMiss_ok hroom hfits
        rcases hcollect with ⟨s₁, hmiss⟩
        exact ⟨_, bind_eq_ok.2 ⟨_, hroute, bind_eq_ok.2 ⟨s₁, hmiss, rfl⟩⟩⟩

/-- So having an outcome and fitting the read batch are the same. -/
theorem Collecting.step_iff (h : Collecting s b) (hno : ¬ IsKeyedWrite s e)
    (hlive : ∀ conn, e = .request conn → conn.clientSockFd ≠ -1) :
    (∃ s', s.step alloc e = .ok s') ↔ s.FitsReadBatch e := by
  constructor
  · rintro ⟨s', hs⟩
    exact (h.step hno hlive hs).1
  · intro hfits
    exact h.step_ok hno hfits

end

/-! ## Whole runs -/

/-- The two runs, between two events: `s` is the state without the inserted READs. -/
structure Alike (own : Set ℕ) (s s' : MainState (ringLevelZero cfg)) : Prop where
  left : ∃ b, Collecting s b
  right : ∃ b, Collecting s' b
  memtables : s'.memtables = s.memtables
  mem : Set.EqOn s.mem s'.mem ownᶜ

section

variable {alloc : Allocator cfg} {own : Set ℕ} {s s' t t' : MainState (ringLevelZero cfg)}
  {e : MainEvent}

/-- A request that was not inserted has the same key in both runs. -/
theorem Alike.same_key (h : Alike own s s') (hout : Disjoint (e.footprint cfg) own) :
    expected s' e = expected s e ∧ (IsKeyedWrite s' e ↔ IsKeyedWrite s e) := by
  cases e with
  | receive buffer message => exact ⟨rfl, Iff.rfl⟩
  | practicallyFull flag => exact ⟨rfl, Iff.rfl⟩
  | request conn =>
      have hkey : keyAt cfg s.mem conn.buffer = keyAt cfg s'.mem conn.buffer :=
        keyAt_congr (h.mem.mono hout.subset_compl_right)
      constructor
      · simp only [expected, hkey]
      · simp only [IsKeyedWrite, hkey]

/-- An inserted event that has an outcome. -/
theorem Alike.inserted (h : Alike own s s') (hread : e.OfRead) (hin : e.footprint cfg ⊆ own)
    (hlive : ∀ conn, e = .request conn → conn.clientSockFd ≠ -1)
    (hs : s'.step alloc e = .ok t') : Alike own s t' := by
  rcases h.right with ⟨b, hb⟩
  rcases hb.step (not_isKeyedWrite hread) hlive hs with ⟨-, hright, htables, hmem⟩
  refine ⟨h.left, hright, htables.trans h.memtables, ?_⟩
  rw [hmem]
  exact memAfter_inserted h.mem hin

/-- An event of both runs that has an outcome in both. -/
theorem Alike.original (h : Alike own s s') (hout : Disjoint (e.footprint cfg) own)
    (hno : ¬ IsKeyedWrite s e) (hlive : ∀ conn, e = .request conn → conn.clientSockFd ≠ -1)
    (hs : s.step alloc e = .ok t) (hs' : s'.step alloc e = .ok t') : Alike own t t' := by
  rcases h.left with ⟨b, hb⟩
  rcases h.right with ⟨b', hb'⟩
  have hno' : ¬ IsKeyedWrite s' e := fun hwrite => hno ((h.same_key hout).2.1 hwrite)
  rcases hb.step hno hlive hs with ⟨-, hleft, htables, hmem⟩
  rcases hb'.step hno' hlive hs' with ⟨-, hright, htables', hmem'⟩
  refine ⟨hleft, hright, ?_, ?_⟩
  · rw [htables', htables, h.memtables]
  · rw [hmem, hmem']
    exact memAfter_original h.mem hout

/-- What a run says from an inserted event on: what it says behind the event. -/
theorem observe_inserted (hanswer : ∃ o, s.answer e = .ok o) {es : List (Bool × MainEvent)}
    {obs : List (Option (Outcome (ringLevelZero cfg)) × List (MemTable cfg))} :
    s.observe alloc ((true, e) :: es) = .ok obs
      ↔ ∃ t, s.step alloc e = .ok t ∧ t.observe alloc es = .ok obs := by
  rcases hanswer with ⟨o, ho⟩
  constructor
  · intro h
    rcases bind_eq_ok.1 h with ⟨o', -, h⟩
    rcases bind_eq_ok.1 h with ⟨t, ht, h⟩
    rcases bind_eq_ok.1 h with ⟨rest, hrest, h⟩
    cases h
    exact ⟨t, ht, hrest⟩
  · rintro ⟨t, ht, hrest⟩
    exact bind_eq_ok.2 ⟨o, ho, bind_eq_ok.2 ⟨t, ht, bind_eq_ok.2 ⟨obs, hrest, rfl⟩⟩⟩

/-- What it says from another event on. -/
theorem observe_original {o : Option (Outcome (ringLevelZero cfg))} (ho : s.answer e = .ok o)
    {es : List (Bool × MainEvent)}
    {obs : List (Option (Outcome (ringLevelZero cfg)) × List (MemTable cfg))} :
    s.observe alloc ((false, e) :: es) = .ok obs
      ↔ ∃ t, s.step alloc e = .ok t ∧
        ∃ rest, t.observe alloc es = .ok rest ∧ obs = (o, t.memtables) :: rest := by
  constructor
  · intro h
    rcases bind_eq_ok.1 h with ⟨o', ho', h⟩
    rcases bind_eq_ok.1 h with ⟨t, ht, h⟩
    rcases bind_eq_ok.1 h with ⟨rest, hrest, h⟩
    rw [ho] at ho'
    cases ho'
    cases h
    exact ⟨t, ht, rest, hrest, rfl⟩
  · rintro ⟨t, ht, rest, hrest, rfl⟩
    exact bind_eq_ok.2 ⟨o, ho, bind_eq_ok.2 ⟨t, ht, bind_eq_ok.2 ⟨rest, hrest, rfl⟩⟩⟩

/-- **The run with the READs agrees with the run without them** exactly as long as every READ fits
the read batch. -/
theorem Alike.observe_iff {es : List (Bool × MainEvent)} (h : Alike own s s')
    (hins : ReadsInserted cfg own es)
    {obs : List (Option (Outcome (ringLevelZero cfg)) × List (MemTable cfg))}
    (hobs : s.observe alloc (originals es) = .ok obs) :
    s'.observe alloc es = .ok obs
      ↔ AttemptsMeet (MainState.step alloc) MainState.FitsReadBatch s' (es.map Prod.snd) := by
  induction es generalizing s s' obs with
  | nil =>
      refine ⟨fun _ => trivial, fun _ => ?_⟩
      rw [← hobs]
      show Except.ok [(none, s'.memtables)] = Except.ok [(none, s.memtables)]
      rw [h.memtables]
  | cons head es ih =>
      rcases head with ⟨inserted, e⟩
      have hlive : ∀ conn, e = .request conn → conn.clientSockFd ≠ -1 :=
        fun conn hconn => hins.live inserted conn (hconn ▸ List.mem_cons_self)
      rcases h.left with ⟨b, hb⟩
      rcases h.right with ⟨b', hb'⟩
      cases inserted with
      | true =>
          have hno' : ¬ IsKeyedWrite s' e := not_isKeyedWrite (hins.ofRead e List.mem_cons_self)
          rw [observe_inserted ⟨_, hb'.untouched.answer_eq hno'⟩, List.map_cons,
            attemptsMeet_cons_iff (hb'.step_iff hno' hlive)]
          refine exists_congr fun t' => and_congr_right fun ht' => ih ?_ hins.tail hobs
          exact h.inserted (hins.ofRead e List.mem_cons_self) (hins.inside e List.mem_cons_self)
            hlive ht'
      | false =>
          have hout := hins.outside e List.mem_cons_self
          rcases bind_eq_ok.1 hobs with ⟨o, ho, -⟩
          rcases (observe_original ho).1 hobs with ⟨t, ht, rest, hrest, rfl⟩
          have hno : ¬ IsKeyedWrite s e := fun hwrite => hb.untouched.answer_write hwrite ho
          have hno' : ¬ IsKeyedWrite s' e := fun hwrite => hno ((h.same_key hout).2.1 hwrite)
          -- both runs answer alike
          have ho' : s'.answer e = .ok o := by
            rw [hb'.untouched.answer_eq hno', (h.same_key hout).1, ← hb.untouched.answer_eq hno, ho]
          refine (observe_original ho').trans ?_
          rw [List.map_cons, attemptsMeet_cons_iff (hb'.step_iff hno' hlive)]
          refine exists_congr fun t' => and_congr_right fun ht' => ?_
          have halike : Alike own t t' := h.original hout hno hlive ht ht'
          rw [← ih halike hins.tail hrest]
          constructor
          · rintro ⟨rest', hrest', hsame⟩
            rw [(List.cons.inj hsame).2]
            exact hrest'
          · intro hrest'
            exact ⟨rest, hrest', by rw [halike.memtables]⟩

end

/-- **From a fresh start additional READs do not disturb level 0** if and only if no READ of the
whole run fills the read batch.  The read batch is one that was made in memory in which a pool reads
as empty. -/
theorem observe_inserted_iff (cfg : Config) (alloc : Allocator cfg)
    (hempty : (alloc.chunk 0).readwritePool.entries = []) (mem : Memory) {own : Set ℕ}
    {es : List (Bool × MainEvent)} (hins : ReadsInserted cfg own es)
    {obs : List (Option (Outcome (ringLevelZero cfg)) × List (MemTable cfg))}
    (hobs : (freshMain cfg alloc mem).observe alloc (originals es) = .ok obs) :
    (freshMain cfg alloc mem).observe alloc es = .ok obs
      ↔ AttemptsMeet (MainState.step alloc) MainState.FitsReadBatch (freshMain cfg alloc mem)
          (es.map Prod.snd) :=
  have hstart := collecting_freshMain hempty mem
  Alike.observe_iff ⟨⟨_, hstart⟩, ⟨_, hstart⟩, rfl, fun _ _ => rfl⟩ hins hobs

/-! ## One READ before another -/

/-- A READ of the client with descriptor 1. -/
def readOf (buffer : ℕ) : MainEvent := .request ⟨.read, 0, 1, buffer⟩

/-- A READ in the buffer at address 0, and before it an additional READ in the next buffer. -/
def oneInserted (cfg : Config) : List (Bool × MainEvent) :=
  [(true, readOf cfg.socketBufferLength), (false, readOf 0)]

theorem oneInserted_reads (cfg : Config) :
    ReadsInserted cfg (Set.Ici cfg.socketBufferLength) (oneInserted cfg) where
  ofRead := by simp [oneInserted, readOf, MainEvent.OfRead]
  inside := by
    simp only [oneInserted, readOf, List.mem_cons, Prod.mk.injEq]
    rintro e (⟨-, rfl⟩ | ⟨hfalse, -⟩ | hnil)
    · exact Set.Ico_subset_Ici_self
    · cases hfalse
    · cases hnil
  outside := by
    simp only [oneInserted, readOf, List.mem_cons, Prod.mk.injEq]
    rintro e (⟨hfalse, -⟩ | ⟨-, rfl⟩ | hnil)
    · cases hfalse
    · rw [MainEvent.footprint, Nat.zero_add]
      exact Set.disjoint_left.2 fun q hq hq' => absurd hq.2 (Nat.not_lt.2 hq')
    · cases hnil
  live := by simp [oneInserted, readOf]

/-- With the shipped values the additional READ changes nothing.  The keys are the letter `a`. -/
theorem oneInserted_undisturbed :
    ∃ obs, (freshMain shippedConfig (.zeroed shippedConfig) fun _ => 97).observe
        (.zeroed shippedConfig) (originals (oneInserted shippedConfig)) = .ok obs
      ∧ (freshMain shippedConfig (.zeroed shippedConfig) fun _ => 97).observe
        (.zeroed shippedConfig) (oneInserted shippedConfig) = .ok obs := by
  have hrun : okAnd ((freshMain shippedConfig (.zeroed shippedConfig) fun _ => 97).observe
      (.zeroed shippedConfig) (originals (oneInserted shippedConfig))) (fun _ => true) = true := by
    decide +kernel
  rcases okAnd_iff.1 hrun with ⟨obs, hobs, -⟩
  exact ⟨obs, hobs, (observe_inserted_iff shippedConfig (.zeroed shippedConfig) rfl (fun _ => 97)
    (oneInserted_reads shippedConfig) hobs).2 (by decide +kernel)⟩

/-- **With two requests on a page the additional READ ends the main thread**, and the READ behind it
is not answered. -/
theorem oneInserted_unanswered :
    ReadsInserted pairConfig (Set.Ici pairConfig.socketBufferLength) (oneInserted pairConfig)
      ∧ (∃ obs, (freshMain pairConfig (.zeroed pairConfig) fun _ => 97).observe
        (.zeroed pairConfig) (originals (oneInserted pairConfig)) = .ok obs)
      ∧ ∀ obs, (freshMain pairConfig (.zeroed pairConfig) fun _ => 97).observe
        (.zeroed pairConfig) (oneInserted pairConfig) ≠ .ok obs := by
  refine ⟨oneInserted_reads pairConfig, ?_, fun obs hobs => ?_⟩
  · have hrun : okAnd ((freshMain pairConfig (.zeroed pairConfig) fun _ => 97).observe
        (.zeroed pairConfig) (originals (oneInserted pairConfig))) (fun _ => true) = true := by
      decide +kernel
    rcases okAnd_iff.1 hrun with ⟨obs, hobs, -⟩
    exact ⟨obs, hobs⟩
  · have hrun : okAnd ((freshMain pairConfig (.zeroed pairConfig) fun _ => 97).observe
        (.zeroed pairConfig) (oneInserted pairConfig)) (fun _ => true) = false := by
      decide +kernel
    rw [hobs] at hrun
    cases hrun

end RingDB
