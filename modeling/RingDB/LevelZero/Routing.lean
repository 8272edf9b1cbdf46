import RingDB.LevelZero.MainLoop

/-!
# Routing at level 0

Every WRITE of a key goes to the memtable that `get_table_num` names, and a later READ of that key
is to be sent to the same memtable.  `RoutedToWriter` says so for one request, and a run is routed
correctly when every request it attempts is.

From a fresh start there is no such run with a WRITE in it.  The sparse index begins without
maximum keys, `get_table_num` answers `-1` on such an index and leaves it so
(`SparseIndex.getTableNum_of_noMax`), and only a WRITE could set a maximum key — but the WRITE is
sent to `memtables[-1]` before it can.
-/

namespace RingDB

open Core

variable {cfg : Config}

/-- The memtable that the last WRITE of `key` went to. -/
def lastTable (written : List (Bytes × ℕ)) (key : Bytes) : Option ℕ :=
  (written.reverse.find? fun w => w.1 == key).map Prod.snd

/-- One request is routed as level 0 needs it: a WRITE of a key to an existing memtable, a READ of
a key that was written to the memtable of its last WRITE. -/
def RoutedToWriter (s : MainState (ringLevelZero cfg)) : MainEvent → Prop
  | .request conn =>
      let key := keyAt cfg s.mem conn.buffer
      key ≠ nullKey cfg →
        (conn.reqType ≠ .read →
          ∃ ix t, SparseIndex.getTableNum s.index key = .ok (ix, t) ∧ t < cfg.levelFactor)
        ∧ (conn.reqType = .read → ∀ t, lastTable s.written key = some t →
          ∃ ix, SparseIndex.getTableNum s.index key = .ok (ix, t))
  | _ => True

/-- The event is a WRITE of a key; the loop takes every request for one that is not a READ. -/
def IsKeyedWrite (s : MainState (ringLevelZero cfg)) : MainEvent → Prop
  | .request conn => conn.reqType ≠ .read ∧ keyAt cfg s.mem conn.buffer ≠ nullKey cfg
  | _ => False

/-- The state in which the main thread starts: memtables, index and levels as constructed. -/
def freshMain (cfg : Config) (alloc : Allocator cfg) (mem : Memory) :
    MainState (ringLevelZero cfg) :=
  MainState.start alloc (SparseIndex.fresh cfg)
    (List.replicate cfg.levelFactor (MemTable.fresh cfg)) (FirstLevel.fresh cfg) mem

/-- No maximum key, nothing written, and no more memtables than there are. -/
structure Untouched (s : MainState (ringLevelZero cfg)) : Prop where
  noMax : SparseIndex.NoMax s.index
  nothingWritten : s.written = []
  memtables_le : s.memtables.length ≤ cfg.levelFactor

theorem untouched_freshMain (alloc : Allocator cfg) (mem : Memory) :
    Untouched (freshMain cfg alloc mem) where
  noMax := SparseIndex.noMax_fresh cfg
  nothingWritten := rfl
  memtables_le := Nat.le_of_eq (List.length_replicate ..)

/-- There is no memtable number `-1`. -/
theorem Untouched.no_table {s : MainState (ringLevelZero cfg)} (h : Untouched s) :
    s.memtables[uintMax]? = none :=
  List.getElem?_eq_none (h.memtables_le.trans cfg.levelFactor_le)

/-- In an untouched state a request ends in one of two ways, or not at all. -/
theorem Untouched.route {s : MainState (ringLevelZero cfg)} (h : Untouched s)
    {conn : ConnectionRequest} {ix : SparseIndex cfg} {o : Outcome (ringLevelZero cfg)}
    (hr : s.route conn = .ok (ix, o)) : ix.NoMax ∧ (o = .nullKey ∨ o = .miss) := by
  obtain ⟨ix', hget, hmax⟩ :=
    SparseIndex.getTableNum_of_noMax h.noMax (length_keyAt cfg s.mem conn.buffer)
  have hget' : (ringLevelZero cfg).getTableNum s.index (keyAt cfg s.mem conn.buffer)
      = .ok (ix', uintMax) := hget
  unfold MainState.route at hr
  rcases bind_eq_ok.1 hr with ⟨⟨ix₁, t⟩, hlookup, hr⟩
  rw [hget'] at hlookup
  cases hlookup
  simp only [h.no_table] at hr
  split_ifs at hr
  · cases hr
    exact ⟨hmax, Or.inl rfl⟩
  · cases hr
    exact ⟨hmax, Or.inr rfl⟩

theorem collectMiss_frame {alloc : Allocator cfg} {s s' : MainState (ringLevelZero cfg)}
    {conn : ConnectionRequest} (h : s.collectMiss alloc conn = .ok s') :
    s'.index = s.index ∧ s'.written = s.written ∧ s'.memtables = s.memtables := by
  rcases bind_eq_ok.1 h with ⟨b, -, h⟩
  rcases bind_eq_ok.1 h with ⟨b', -, h⟩
  split_ifs at h
  · rcases bind_eq_ok.1 h with ⟨b₁, -, h⟩
    rcases bind_eq_ok.1 h with ⟨⟨levels, batches⟩, -, h⟩
    cases h
    exact ⟨rfl, rfl, rfl⟩
  · cases h
    exact ⟨rfl, rfl, rfl⟩

/-- An untouched state stays untouched: what would touch it has no outcome. -/
theorem Untouched.step {alloc : Allocator cfg} {s s' : MainState (ringLevelZero cfg)}
    {e : MainEvent} (h : Untouched s) (hs : s.step alloc e = .ok s') : Untouched s' := by
  cases e with
  | receive buffer message =>
      cases hs
      exact ⟨h.noMax, h.nothingWritten, h.memtables_le⟩
  | practicallyFull flag =>
      cases hs
      exact ⟨h.noMax, h.nothingWritten, h.memtables_le⟩
  | request conn =>
      rcases bind_eq_ok.1 hs with ⟨⟨ix, o⟩, hroute, hs⟩
      rcases h.route hroute with ⟨hmax, rfl | rfl⟩
      · cases hs
        exact ⟨hmax, h.nothingWritten, h.memtables_le⟩
      · rcases bind_eq_ok.1 hs with ⟨s₁, hmiss, hs⟩
        rcases collectMiss_frame hmiss with ⟨hix, hw, hm⟩
        cases hs
        exact ⟨hix ▸ hmax, hw.trans h.nothingWritten, hm ▸ h.memtables_le⟩

/-- **In an untouched state a request is routed correctly exactly when it is no WRITE of a key.** -/
theorem Untouched.routedToWriter_iff {s : MainState (ringLevelZero cfg)} (h : Untouched s)
    (e : MainEvent) : RoutedToWriter s e ↔ ¬ IsKeyedWrite s e := by
  cases e with
  | receive buffer message => exact ⟨fun _ => id, fun _ => trivial⟩
  | practicallyFull flag => exact ⟨fun _ => id, fun _ => trivial⟩
  | request conn =>
      obtain ⟨ix, hget, -⟩ :=
        SparseIndex.getTableNum_of_noMax h.noMax (length_keyAt cfg s.mem conn.buffer)
      constructor
      · rintro hrouted ⟨hwrite, hkey⟩
        rcases (hrouted hkey).1 hwrite with ⟨ix', t, hget', ht⟩
        rw [hget] at hget'
        cases hget'
        exact absurd ht (Nat.not_lt.2 cfg.levelFactor_le)
      · intro hno hkey
        refine ⟨fun hwrite => absurd ⟨hwrite, hkey⟩ hno, fun _ t ht => ?_⟩
        rw [h.nothingWritten] at ht
        cases ht

/-- **A run from a fresh start is routed correctly exactly when it attempts no WRITE of a key.** -/
theorem freshMain_routed_iff (cfg : Config) (alloc : Allocator cfg) (mem : Memory)
    (events : List MainEvent) :
    AttemptsMeet (MainState.step alloc) RoutedToWriter (freshMain cfg alloc mem) events
      ↔ AttemptsMeet (MainState.step alloc) (fun s e => ¬ IsKeyedWrite s e)
          (freshMain cfg alloc mem) events :=
  attemptsMeet_congr (fun _ _ _ h _ hs => h.step hs) (fun _ e h => h.routedToWriter_iff e)
    (untouched_freshMain alloc mem)

/-- The message `write`, key `a`, value `bb` of `test_ringdb.hpp`. -/
def testWrite : Bytes := [119, 114, 105, 116, 101, 97, 98, 98]

/-- **The first WRITE of the repository's own test** is sent to memtable `-1`: received into the
buffer at address 0 and taken as the first request of a fresh main thread, it is not routed to a
memtable. -/
theorem testWrite_not_routed :
    ¬ AttemptsMeet (MainState.step (Allocator.zeroed shippedConfig)) RoutedToWriter
        (freshMain shippedConfig (Allocator.zeroed shippedConfig) fun _ => 0)
        [.receive 0 testWrite, .request ⟨.write, 0, 1, 0⟩] := by
  rintro ⟨-, h⟩
  rcases h _ rfl with ⟨hrouted, -⟩
  have hstart := untouched_freshMain (Allocator.zeroed shippedConfig) fun _ => 0
  have huntouched : Untouched
      { freshMain shippedConfig (Allocator.zeroed shippedConfig) (fun _ => 0) with
        mem := store (fun _ => 0) 0 testWrite } :=
    ⟨hstart.noMax, hstart.nothingWritten, hstart.memtables_le⟩
  have hkey : keyAt shippedConfig (store (fun _ => 0) 0 testWrite) 0 ≠ nullKey shippedConfig := by
    decide
  exact (huntouched.routedToWriter_iff _).1 hrouted ⟨RequestType.noConfusion, hkey⟩

end RingDB
