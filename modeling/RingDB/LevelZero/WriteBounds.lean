import RingDB.LevelZero.MainLoop
import RingDB.LevelZero.MemTableMap

/-!
# Whether writes stay inside a memtable

The main loop writes into a memtable whose size is below its capacity, and empties any other one
first.  Emptying clears the bytes and keeps the size, and a table that is not empty may still lack
the room for one more entry, or for the entries that a write at `left` moves: it moves one for every
byte from `left` up to `size`.

* `Directed`, `directWrite` — a WRITE as the main loop carries it out; `request_directs` connects it
  with `MainState.request`.
* `HasRoom` — the room that one write needs.
* **`writes_stay_inside_iff`** — a run of writes stays inside if and only if every one of them has
  room.
* `writes_stay_inside_of_few` — few enough writes always have.
-/

namespace RingDB

open Core

namespace MemTable

variable {cfg : Config}

section Model

/-- A WRITE for a memtable, with the sparse index as the lookup of its key leaves it. -/
structure Directed (cfg : Config) where
  write : Write
  index : SparseIndex cfg

/-- The branches of the main loop for a WRITE, without the batches and the levels. -/
def directWrite (tableNum : ℕ) (tbl : MemTable cfg) (d : Directed cfg) :
    Except Fault (MemTable cfg × SparseIndex cfg) :=
  if tbl.size < cfg.memtableSize then
    tbl.write d.write.mem d.write.key d.write.value tableNum d.index
  else do
    let ix ← d.index.removeTable tableNum
    tbl.emptyOut.write d.write.mem d.write.key d.write.value tableNum ix

def stepDirected (tableNum : ℕ) (tbl : MemTable cfg) (d : Directed cfg) :
    Except Fault (MemTable cfg) :=
  Prod.fst <$> tbl.directWrite tableNum d

/-- All writes are carried out without a copy that leaves the array, and the size never exceeds the
capacity. -/
structure StaysInside (tableNum : ℕ) (ds : List (Directed cfg)) : Prop where
  outcome : ∃ tbl, runEvents (stepDirected tableNum) (fresh cfg) ds = .ok tbl
  size : Throughout (stepDirected tableNum) (·.size ≤ cfg.memtableSize) (fresh cfg) ds

/-- There is room for one more entry, and unless the search for the key ends at the end of the
table, for one entry more than there are bytes from there up to the end. -/
def HasRoom (tbl : MemTable cfg) (d : Directed cfg) : Prop :=
  tbl.size + cfg.memtableEntryLength ≤ cfg.memtableSize ∧
    ∃ left, tbl.search (d.write.keyBytes cfg) = .ok left ∧ (left ≠ tbl.size →
      left + (tbl.size - left + 1) * cfg.memtableEntryLength ≤ cfg.memtableSize)

end Model

section Steps

@[simp] theorem size_emptyOut (tbl : MemTable cfg) : tbl.emptyOut.size = tbl.size := by
  cases tbl with
  | mk data size hlen => exact (rfl : (emptyOut ⟨data, size, hlen⟩).size = size)

variable {tbl tbl' : MemTable cfg} {tableNum : ℕ} {d : Directed cfg}

/-- A write that has the room is carried out. -/
theorem write_ok {w : Write} (htable : tableNum < cfg.levelFactor) (ix : SparseIndex cfg) {left : ℕ}
    (hend : tbl.size + cfg.memtableEntryLength ≤ cfg.memtableSize)
    (hsearch : tbl.search (w.keyBytes cfg) = .ok left) (hmove : left ≠ tbl.size →
      left + (tbl.size - left + 1) * cfg.memtableEntryLength ≤ cfg.memtableSize) :
    ∃ s, tbl.write w.mem w.key w.value tableNum ix = .ok s := by
  have hkey := length_bytesAt w.mem w.value cfg.keyLength
  by_cases hleft : left = tbl.size
  · have hcopy : left + cfg.keyLength + (bytesAt w.mem w.value cfg.valueLength).length
        ≤ cfg.memtableSize := by
      rw [length_bytesAt, hleft, Nat.add_assoc]
      exact hend
    rcases tbl.copyTo_of_le _ _ hcopy with ⟨t, ht, -⟩
    rcases ix.copyKey_ok htable (Nat.le_refl _) hkey with ⟨ix', hix⟩
    refine ⟨({ t with size := tbl.size + cfg.memtableEntryLength }, ix'),
      bind_eq_ok.2 ⟨left, hsearch, ?_⟩⟩
    rw [if_pos hleft]
    exact bind_eq_ok.2 ⟨t, ht, bind_eq_ok.2 ⟨ix', hix, rfl⟩⟩
  · rcases shift_of_le (tbl.size - left) left tbl (length_entry w) (hmove hleft) with ⟨t, ht, -⟩
    by_cases hzero : left = 0
    · rcases ix.copyKey_ok htable (Nat.zero_le _) hkey with ⟨ix', hix⟩
      refine ⟨({ t with size := tbl.size + cfg.memtableEntryLength }, ix'),
        bind_eq_ok.2 ⟨left, hsearch, ?_⟩⟩
      rw [if_neg hleft, if_pos hzero]
      exact bind_eq_ok.2 ⟨ix', hix, bind_eq_ok.2 ⟨t, ht, rfl⟩⟩
    · refine ⟨({ t with size := tbl.size + cfg.memtableEntryLength }, ix),
        bind_eq_ok.2 ⟨left, hsearch, ?_⟩⟩
      rw [if_neg hleft, if_neg hzero]
      exact bind_eq_ok.2 ⟨ix, rfl, bind_eq_ok.2 ⟨t, ht, rfl⟩⟩

/-- The bytes that a write needs up to its place. -/
theorem place_of_write {w : Write} {ix ix' : SparseIndex cfg}
    (h : tbl.write w.mem w.key w.value tableNum ix = .ok (tbl', ix')) :
    ∃ left, tbl.search (w.keyBytes cfg) = .ok left ∧
      (left = tbl.size → tbl.size + cfg.memtableEntryLength ≤ cfg.memtableSize) ∧
      (left ≠ tbl.size →
        left + (tbl.size - left + 1) * cfg.memtableEntryLength ≤ cfg.memtableSize) := by
  rcases write_cases h with ⟨left, hsearch, -, ⟨hend, hcopy, -⟩ | ⟨hleft, ⟨t, hshift, -⟩, -, -⟩⟩
  · refine ⟨left, hsearch, fun _ => ?_, fun hne => absurd hend hne⟩
    have hle := (writeAt_ok_iff.1 hcopy).1
    rw [tbl.length_data, Write.valueBytes, length_bytesAt, hend, Nat.add_assoc] at hle
    exact hle
  · exact ⟨left, hsearch, fun heq => absurd heq hleft,
      fun _ => le_of_shift (length_entry w) hshift⟩

/-- The table that a directed write works on has the size of the one it is directed to. -/
theorem directWrite_cases {s : MemTable cfg × SparseIndex cfg}
    (h : tbl.directWrite tableNum d = .ok s) :
    ∃ (t : MemTable cfg) (ix : SparseIndex cfg), t.size = tbl.size ∧
      t.write d.write.mem d.write.key d.write.value tableNum ix = .ok (s.1, s.2) := by
  unfold directWrite at h
  split_ifs at h
  · exact ⟨tbl, d.index, rfl, h⟩
  · rcases bind_eq_ok.1 h with ⟨ix, -, hw⟩
    exact ⟨tbl.emptyOut, ix, size_emptyOut tbl, hw⟩

/-- Whichever branch a write takes, the size grows by one entry. -/
theorem size_stepDirected (h : tbl.stepDirected tableNum d = .ok tbl') :
    tbl'.size = tbl.size + cfg.memtableEntryLength := by
  rcases map_eq_ok.1 h with ⟨s, hs, rfl⟩
  rcases directWrite_cases hs with ⟨t, ix, hsize, hw⟩
  rw [size_write hw, hsize]

/-- A write needs a table that is not full. -/
theorem lt_of_write {w : Write} {ix ix' : SparseIndex cfg}
    (h : tbl.write w.mem w.key w.value tableNum ix = .ok (tbl', ix')) :
    tbl.size < cfg.memtableSize := by
  have hpos := entryLength_pos cfg
  rcases place_of_write h with ⟨left, -, hend, hmove⟩
  by_cases hleft : left = tbl.size
  · have := hend hleft
    omega
  · have hle := hmove hleft
    have hbytes : tbl.size - left + 1 ≤ (tbl.size - left + 1) * cfg.memtableEntryLength :=
      Nat.le_mul_of_pos_right _ hpos
    omega

/-- So the write behind a compaction, which did not change the size, always leaves the table. -/
theorem lt_of_directWrite {s : MemTable cfg × SparseIndex cfg}
    (h : tbl.directWrite tableNum d = .ok s) : tbl.size < cfg.memtableSize := by
  rcases directWrite_cases h with ⟨t, ix, hsize, hw⟩
  rw [← hsize]
  exact lt_of_write hw

/-- Whatever is written, the capacity is at least one entry. -/
theorem entry_le_of_write {w : Write} {ix ix' : SparseIndex cfg}
    (h : tbl.write w.mem w.key w.value tableNum ix = .ok (tbl', ix')) :
    cfg.memtableEntryLength ≤ cfg.memtableSize := by
  rcases place_of_write h with ⟨left, -, hend, hmove⟩
  by_cases hleft : left = tbl.size
  · have := hend hleft
    omega
  · have hle := hmove hleft
    rw [Nat.succ_mul] at hle
    omega

/-- **One write** is carried out and leaves the size inside if and only if it has room. -/
theorem hasRoom_iff (htable : tableNum < cfg.levelFactor) :
    (∃ tbl', tbl.stepDirected tableNum d = .ok tbl' ∧ tbl'.size ≤ cfg.memtableSize)
      ↔ tbl.HasRoom d := by
  constructor
  · rintro ⟨tbl', hstep, hsize⟩
    have hend := hsize
    rw [size_stepDirected hstep] at hend
    rcases map_eq_ok.1 hstep with ⟨s, hs, rfl⟩
    rw [directWrite, if_pos (lt_of_directWrite hs)] at hs
    rcases @place_of_write _ _ s.1 _ _ _ s.2 hs with ⟨left, hsearch, -, hmove⟩
    exact ⟨hend, left, hsearch, hmove⟩
  · rintro ⟨hend, left, hsearch, hmove⟩
    have hpos := entryLength_pos cfg
    have hlt : tbl.size < cfg.memtableSize := by omega
    rcases write_ok htable d.index hend hsearch hmove with ⟨s, hs⟩
    have hstep : tbl.stepDirected tableNum d = .ok s.1 :=
      map_eq_ok.2 ⟨s, by rw [directWrite, if_pos hlt]; exact hs, rfl⟩
    refine ⟨s.1, hstep, ?_⟩
    rw [size_stepDirected hstep]
    exact hend

/-- After `n` writes there are `n` entries. -/
theorem size_runDirected {ds : List (Directed cfg)}
    (h : runEvents (stepDirected tableNum) tbl ds = .ok tbl') :
    tbl'.size = tbl.size + ds.length * cfg.memtableEntryLength := by
  induction ds generalizing tbl with
  | nil =>
      cases h
      simp
  | cons d ds ih =>
      rcases runEvents_cons_eq_ok h with ⟨t, hstep, hrest⟩
      rw [ih hrest, size_stepDirected hstep, List.length_cons, Nat.succ_mul]
      omega

/-- Entries that stay inside fit side by side. -/
theorem StaysInside.le {ds : List (Directed cfg)} (h : StaysInside tableNum ds) :
    ds.length * cfg.memtableEntryLength ≤ cfg.memtableSize := by
  rcases h.outcome with ⟨tbl, hrun⟩
  have hsize := size_runDirected hrun
  have hle := h.size.final hrun
  simp only [fresh, Nat.zero_add] at hsize
  rwa [← hsize]

/-- The search has an outcome as long as there is room for one more entry. -/
theorem search_ok (hend : tbl.size + cfg.memtableEntryLength ≤ cfg.memtableSize) (key : Bytes) :
    ∃ left, tbl.search key = .ok left := by
  have hkey : cfg.keyLength ≤ cfg.memtableEntryLength := Nat.le_add_right _ _
  exact bisect_defined fun j hj => below_of_le (by omega)

/-- The search passes the end of the table by less than an entry, if at all. -/
theorem search_lt {left : ℕ} {key : Bytes} (h : tbl.search key = .ok left) :
    left < tbl.size + cfg.memtableEntryLength := by
  have hpos := entryLength_pos cfg
  refine bisect_lt_add hpos ?_ h
  omega

/-- Few enough writes have room wherever their keys are to go. -/
theorem hasRoom_of_le {n : ℕ} (hsize : tbl.size = n * cfg.memtableEntryLength)
    (hroom : (n * cfg.memtableEntryLength + 1) * cfg.memtableEntryLength ≤ cfg.memtableSize) :
    tbl.HasRoom d := by
  have hpos := entryLength_pos cfg
  rw [← hsize] at hroom
  -- the bytes up to the end, each of which stands for an entry
  have hbytes : ∀ left, left ≤ tbl.size → left + (tbl.size - left + 1) * cfg.memtableEntryLength
      ≤ (tbl.size + 1) * cfg.memtableEntryLength := by
    intro left hle
    have hmul : left + (tbl.size - left + 1) * cfg.memtableEntryLength
        ≤ left * cfg.memtableEntryLength + (tbl.size - left + 1) * cfg.memtableEntryLength :=
      Nat.add_le_add_right (Nat.le_mul_of_pos_right _ hpos) _
    rw [← Nat.add_mul] at hmul
    rwa [show left + (tbl.size - left + 1) = tbl.size + 1 by omega] at hmul
  have hend : tbl.size + cfg.memtableEntryLength ≤ cfg.memtableSize := by
    have := hbytes tbl.size (Nat.le_refl _)
    rw [Nat.sub_self, Nat.zero_add, Nat.one_mul] at this
    omega
  rcases search_ok hend (d.write.keyBytes cfg) with ⟨left, hsearch⟩
  refine ⟨hend, left, hsearch, fun _ => ?_⟩
  by_cases hle : left ≤ tbl.size
  · exact (hbytes left hle).trans hroom
  · -- the search passed the end, which is at least one entry from the beginning
    have hlt := search_lt hsearch
    have htwo : 2 ≤ cfg.memtableEntryLength := Nat.add_le_add cfg.keyLength_pos cfg.valueLength_pos
    have hn : 1 ≤ n := by
      rcases n with _ | n
      · have hstart : tbl.search (d.write.keyBytes cfg) = .ok 0 := bisect_of_le (by omega)
        rw [hstart] at hsearch
        cases hsearch
        omega
      · omega
    have hone : 1 * cfg.memtableEntryLength ≤ n * cfg.memtableEntryLength :=
      Nat.mul_le_mul_right _ hn
    have hdouble : tbl.size * 2 ≤ tbl.size * cfg.memtableEntryLength := Nat.mul_le_mul_left _ htwo
    rw [Nat.succ_mul] at hroom
    rw [show tbl.size - left = 0 by omega]
    omega

end Steps

section Runs

variable {tableNum : ℕ}

/-- A run stays inside if and only if its writes have room. -/
theorem run_inside_iff (htable : tableNum < cfg.levelFactor) {ds : List (Directed cfg)} :
    (∃ tbl, runEvents (stepDirected tableNum) (fresh cfg) ds = .ok tbl) ∧
        Throughout (stepDirected tableNum) (·.size ≤ cfg.memtableSize) (fresh cfg) ds
      ↔ AttemptsMeet (stepDirected tableNum) HasRoom (fresh cfg) ds :=
  run_iff_attemptsMeet (fun _ _ _ => hasRoom_iff htable) (Nat.zero_le cfg.memtableSize)

/-- **Writes that stay inside.**  For all lengths of keys and values, every capacity and every
sequence of writes that the main loop directs to one of its memtables: no byte is copied outside the
array and the size never exceeds the capacity if and only if every write has room. -/
theorem writes_stay_inside_iff (htable : tableNum < cfg.levelFactor) (ds : List (Directed cfg)) :
    StaysInside tableNum ds ↔ AttemptsMeet (stepDirected tableNum) HasRoom (fresh cfg) ds := by
  rw [← run_inside_iff htable]
  exact ⟨fun h => ⟨h.outcome, h.size⟩, fun h => ⟨h.1, h.2⟩⟩

/-- The first write of a table that is large enough for an entry. -/
theorem first_write_inside :
    StaysInside 0 [⟨⟨fun _ => 97, 5, 6⟩, SparseIndex.fresh shippedConfig⟩] :=
  (writes_stay_inside_iff (by decide) _).2
    ⟨⟨by decide +kernel, 0, rfl, fun h => absurd rfl h⟩, fun _ _ => trivial⟩

/-- With the shipped values a table is left after 699050 writes at the latest, whatever is
written. -/
theorem long_run_leaves : ¬ StaysInside 0
    (List.replicate 699051 ⟨⟨fun _ => 97, 5, 6⟩, SparseIndex.fresh shippedConfig⟩) := by
  intro h
  have hle := h.le
  rw [List.length_replicate] at hle
  exact absurd hle (by decide +kernel)

/-- As many writes as have room if each of them moves all entries. -/
theorem writes_stay_inside_of_few (htable : tableNum < cfg.levelFactor) {ds : List (Directed cfg)}
    (hfew : ∀ n, n < ds.length →
      (n * cfg.memtableEntryLength + 1) * cfg.memtableEntryLength ≤ cfg.memtableSize) :
    StaysInside tableNum ds := by
  have hroom : ∀ {n : ℕ} {tbl : MemTable cfg} {ds : List (Directed cfg)},
      tbl.size = n * cfg.memtableEntryLength →
      (∀ m, m < n + ds.length →
        (m * cfg.memtableEntryLength + 1) * cfg.memtableEntryLength ≤ cfg.memtableSize) →
      AttemptsMeet (stepDirected tableNum) HasRoom tbl ds := by
    intro n tbl ds
    induction ds generalizing n tbl with
    | nil => exact fun _ _ => trivial
    | cons d ds ih =>
        intro hsize hfew
        refine ⟨hasRoom_of_le hsize (hfew n (by simp)), fun t hstep => ?_⟩
        refine ih (n := n + 1) ?_ fun m hm => hfew m (by rw [List.length_cons]; omega)
        rw [size_stepDirected hstep, hsize, Nat.succ_mul]
  have hempty : (fresh cfg).size = 0 * cfg.memtableEntryLength := by
    rw [Nat.zero_mul]
    rfl
  rcases (run_inside_iff htable).2 (hroom hempty (by simpa using hfew)) with ⟨houtcome, hsize⟩
  exact ⟨houtcome, hsize⟩

end Runs

/-! ## In the main loop -/

section Loop

variable {alloc : Allocator cfg} {s s' : MainState (ringLevelZero cfg)} {conn : ConnectionRequest}
  {tableNum : ℕ} {tbl : MemTable cfg} {ix : SparseIndex cfg}

/-- The WRITE that a request stands for. -/
def writeOf (cfg : Config) (mem : Memory) (conn : ConnectionRequest) : Write :=
  ⟨mem, conn.buffer + 5, conn.buffer + 5 + cfg.keyLength⟩

/-- The outcome for a WRITE depends on the fullness of the memtable. -/
theorem route_full {o : Outcome (ringLevelZero cfg)} (h : s.route conn = .ok (ix, o)) :
    (o = .write tableNum tbl → tbl.size < cfg.memtableSize) ∧
      (o = .compact tableNum tbl → ¬ tbl.size < cfg.memtableSize) := by
  rcases bind_eq_ok.1 h with ⟨⟨ix', n⟩, -, h⟩
  dsimp only at h
  split_ifs at h with hnul hread hmiss
  · cases h
    exact ⟨nofun, nofun⟩
  · cases h
    exact ⟨nofun, nofun⟩
  · split at h
    · cases h
    · rcases bind_eq_ok.1 h with ⟨value, -, h⟩
      cases value with
      | none =>
          cases h
          exact ⟨nofun, nofun⟩
      | some v =>
          cases h
          exact ⟨nofun, nofun⟩
  · split at h
    · cases h
    · split_ifs at h with hsize
      · cases h
        refine ⟨fun heq => ?_, nofun⟩
        cases heq
        exact hsize
      · cases h
        refine ⟨nofun, fun heq => ?_⟩
        cases heq
        exact hsize

/-- The write at the end of either branch. -/
theorem writeTable_ok (h : s.writeTable conn tableNum tbl = .ok s') :
    ∃ tbl' ix', tbl.write s.mem (conn.buffer + 5) (conn.buffer + 5 + cfg.keyLength) tableNum s.index
        = .ok (tbl', ix') ∧
      s'.memtables = s.memtables.set tableNum tbl' ∧ s'.index = ix' := by
  rcases bind_eq_ok.1 h with ⟨⟨tbl', ix'⟩, hw, ⟨⟩⟩
  exact ⟨tbl', ix', hw, rfl, rfl⟩

/-- A request that is written, directly or after a compaction, changes its memtable and the sparse
index as `directWrite` says. -/
theorem request_directs (h : s.request alloc conn = .ok s')
    (hroute : s.route conn = .ok (ix, .write tableNum tbl) ∨
      s.route conn = .ok (ix, .compact tableNum tbl)) :
    ∃ tbl' ix', tbl.directWrite tableNum ⟨writeOf cfg s.mem conn, ix⟩ = .ok (tbl', ix') ∧
      s'.memtables = s.memtables.set tableNum tbl' ∧ s'.index = ix' := by
  rcases bind_eq_ok.1 h with ⟨⟨ix₁, o⟩, hr, h⟩
  rcases hroute with hroute | hroute
  · obtain ⟨rfl, rfl⟩ := Prod.mk.inj (Except.ok.inj (hr.symm.trans hroute))
    rcases bind_eq_ok.1 h with ⟨s₁, hw, ⟨⟩⟩
    rcases writeTable_ok hw with ⟨tbl', ix', hwrite, htables, hindex⟩
    refine ⟨tbl', ix', ?_, htables, hindex⟩
    rw [directWrite, if_pos ((route_full hr).1 rfl)]
    exact hwrite
  · obtain ⟨rfl, rfl⟩ := Prod.mk.inj (Except.ok.inj (hr.symm.trans hroute))
    rcases bind_eq_ok.1 h with ⟨s₁, hc, ⟨⟩⟩
    rcases bind_eq_ok.1 hc with ⟨s₂, hpass, hw⟩
    rcases bind_eq_ok.1 hpass with ⟨ix₂, hremove, hpass⟩
    rcases bind_eq_ok.1 hpass with ⟨b, -, hpass⟩
    rcases bind_eq_ok.1 hpass with ⟨reqSeg, -, hpass⟩
    rcases bind_eq_ok.1 hpass with ⟨b', -, hpass⟩
    rcases bind_eq_ok.1 hpass with ⟨⟨levels, batches⟩, -, ⟨⟩⟩
    rcases writeTable_ok hw with ⟨tbl', ix', hwrite, htables, hindex⟩
    refine ⟨tbl', ix', ?_, ?_, hindex⟩
    · rw [directWrite, if_neg ((route_full hr).2 rfl)]
      exact bind_eq_ok.2 ⟨ix₂, hremove, hwrite⟩
    · rw [htables]
      exact List.set_set ..

end Loop

end MemTable

end RingDB
