import RingDB.LevelZero.MainLoop

/-!
# The request loop over other levels

The request loop is a template over its levels, and calls one function of them.  Let the levels be
replaced by others, of which each state stands for one of the old: where `insert_into_wqs` agrees,
so does every request, and the loop ends in an error over the ones where it does over the others.

* `LevelsBelow` — levels, as the loop uses them; `LevelZero.overLevels` and
  `MainState.overLevels` put them below given memtables and a given loop.
* **`request_agrees`** — a request does the same over either.
-/

namespace RingDB

open Core

variable {cfg : Config}

/-- The operation of `LevelInfoLike` that the request loop calls. -/
structure LevelsBelow (cfg : Config) where
  Levels : Type
  insertIntoWqs : Memory → Allocator cfg → Levels → Heap cfg → ℕ →
    Except Fault (Levels × Heap cfg)
  insertIntoWqs_frame : ∀ {mem alloc levels heap p levels' heap'},
    insertIntoWqs mem alloc levels heap p = .ok (levels', heap') →
      ∀ q < heap.length, heap'[q]? = heap[q]?

/-- The same memtables and sparse index over other levels. -/
abbrev LevelZero.overLevels (Z : LevelZero cfg) (B : LevelsBelow cfg) : LevelZero cfg :=
  { Z with
    Levels := B.Levels
    insertIntoWqs := B.insertIntoWqs
    insertIntoWqs_frame := B.insertIntoWqs_frame }

section

variable {Z : LevelZero cfg} {B : LevelsBelow cfg} {R : B.Levels → Z.Levels → Prop}

/-- The variables of the loop over other levels. -/
def MainState.overLevels (levels : B.Levels) (t : MainState Z) : MainState (Z.overLevels B) where
  index := t.index
  memtables := t.memtables
  levels := levels
  mem := t.mem
  isPracticallyFull := t.isPracticallyFull
  batches := t.batches
  readBatch := t.readBatch
  compactionBatch := t.compactionBatch
  numBlocks := t.numBlocks
  replies := t.replies
  dispatched := t.dispatched
  missed := t.missed
  written := t.written

/-- A decision does not speak of the levels. -/
def Outcome.overLevels (B : LevelsBelow cfg) : Outcome Z → Outcome (Z.overLevels B)
  | .nullKey => .nullKey
  | .hit value => .hit value
  | .miss => .miss
  | .write tableNum table => .write tableNum table
  | .compact tableNum table => .compact tableNum table

/-- The loop over the levels of one kind stands for the loop over those of the other. -/
def MainState.StandsFor (R : B.Levels → Z.Levels → Prop) (s : MainState (Z.overLevels B))
    (t : MainState Z) : Prop :=
  ∃ levels, s = t.overLevels levels ∧ R levels t.levels

namespace MainState

variable {t : MainState Z} {levels : B.Levels}

theorem route_overLevels (conn : ConnectionRequest) :
    Agree (fun x y => x = (y.1, y.2.overLevels B)) ((t.overLevels levels).route conn)
      (t.route conn) := by
  refine (Agree.refl (Z.getTableNum t.index (keyAt cfg t.mem conn.buffer))).bind ?_
  rintro ⟨index, tableNum⟩ _ - - rfl
  simp only [overLevels]
  split_ifs
  · rfl
  · rfl
  · cases t.memtables[tableNum]? with
    | none => rfl
    | some table =>
        refine (Agree.refl (Z.read table (keyAt cfg t.mem conn.buffer))).bind ?_
        rintro value _ - - rfl
        cases value <;> rfl
  · cases t.memtables[tableNum]? with
    | none => rfl
    | some table =>
        simp only
        split_ifs <;> rfl

theorem writeTable_overLevels (h : R levels t.levels) (conn : ConnectionRequest) (tableNum : ℕ)
    (table : Z.Table) :
    Agree (StandsFor R) ((t.overLevels levels).writeTable conn tableNum table)
      (t.writeTable conn tableNum table) := by
  refine (Agree.refl (Z.write t.mem table (conn.buffer + 5) (conn.buffer + 5 + cfg.keyLength)
    tableNum t.index)).bind ?_
  rintro ⟨table, index⟩ _ - - rfl
  exact ⟨levels, rfl, h⟩

variable {alloc : Allocator cfg}

/-- The levels do to a batch what the others do. -/
def InsertsAlike (alloc : Allocator cfg) (R : B.Levels → Z.Levels → Prop) : Prop :=
  ∀ {levels levels'}, R levels levels' → ∀ mem heap p,
    Agree (fun x y => R x.1 y.1 ∧ x.2 = y.2) (B.insertIntoWqs mem alloc levels heap p)
      (Z.insertIntoWqs mem alloc levels' heap p)

/-- `insert_into_wqs(0, level_infos, batch)` as its caller sees it. -/
theorem insertIntoWqs_agrees (hinsert : InsertsAlike alloc R) (h : R levels t.levels) (num : ℕ) :
    Agree (StandsFor R) ((t.overLevels levels).insertIntoWqs alloc num)
      (t.insertIntoWqs alloc num) := by
  refine (Agree.refl (t.batches.deref num)).bind ?_
  rintro b _ - - rfl
  refine (hinsert h t.mem t.batches num).bind ?_
  rintro ⟨levels₁, heap⟩ ⟨levels₂, _⟩ - - ⟨hR, rfl⟩
  exact ⟨levels₁, rfl, hR⟩

theorem collectMiss_agrees (hinsert : InsertsAlike alloc R) (h : R levels t.levels)
    (conn : ConnectionRequest) :
    Agree (StandsFor R) ((t.overLevels levels).collectMiss alloc conn)
      (t.collectMiss alloc conn) := by
  refine (Agree.refl (t.batches.deref t.readBatch)).bind ?_
  rintro b _ - - rfl
  refine (Agree.refl (b.insertReadWrite t.mem t.readBatch conn.buffer conn.clientSockFd
    .read)).bind ?_
  rintro b' _ - - rfl
  split_ifs with hfull
  · exact insertIntoWqs_agrees (t := { t with
      batches := t.batches.set t.readBatch b', missed := t.missed ++ [conn.payload] }) hinsert h _
  · exact ⟨levels, rfl, h⟩

theorem passCompaction_agrees (hinsert : InsertsAlike alloc R) (h : R levels t.levels)
    (tableNum : ℕ) (table : Z.Table) :
    Agree (StandsFor R) ((t.overLevels levels).passCompaction alloc tableNum table)
      (t.passCompaction alloc tableNum table) := by
  refine (Agree.refl (Z.removeTable t.index tableNum)).bind ?_
  rintro index _ - - rfl
  refine (Agree.refl (t.batches.deref t.compactionBatch)).bind ?_
  rintro b _ - - rfl
  refine (Agree.refl (b.reqSeg.insertMemtable cfg.memtableSize t.numBlocks
    (alloc.block t.numBlocks) (Z.data table))).bind ?_
  rintro reqSeg _ - - rfl
  let emptied : MainState Z := { t with
    index
    memtables := t.memtables.set tableNum (Z.emptyOut table)
    batches := t.batches.set t.compactionBatch { b with reqSeg }
    numBlocks := t.numBlocks + 1 }
  exact insertIntoWqs_agrees (t := emptied) hinsert h t.compactionBatch

theorem compact_agrees (hinsert : InsertsAlike alloc R) (h : R levels t.levels)
    (conn : ConnectionRequest) (tableNum : ℕ) (table : Z.Table) :
    Agree (StandsFor R) ((t.overLevels levels).compact alloc conn tableNum table)
      (t.compact alloc conn tableNum table) := by
  refine (passCompaction_agrees (t := t) hinsert h tableNum table).bind ?_
  rintro _ t' - - ⟨levels', rfl, h'⟩
  exact writeTable_overLevels h' conn tableNum (Z.emptyOut table)

/-- **A request.** -/
theorem request_agrees (hinsert : InsertsAlike alloc R) (h : R levels t.levels)
    (conn : ConnectionRequest) :
    Agree (StandsFor R) ((t.overLevels levels).request alloc conn) (t.request alloc conn) := by
  refine (route_overLevels conn).bind ?_
  rintro _ ⟨index, outcome⟩ - - rfl
  cases outcome with
  | nullKey => exact ⟨levels, rfl, h⟩
  | hit value => exact ⟨levels, rfl, h⟩
  | miss =>
      refine (collectMiss_agrees (t := { t with index }) hinsert h conn).bind ?_
      rintro _ t' - - ⟨levels', rfl, h'⟩
      exact ⟨levels', rfl, h'⟩
  | write tableNum table =>
      refine (writeTable_overLevels (t := { t with index }) h conn tableNum table).bind ?_
      rintro _ t' - - ⟨levels', rfl, h'⟩
      exact ⟨levels', rfl, h'⟩
  | compact tableNum table =>
      refine (compact_agrees (t := { t with index }) hinsert h conn tableNum table).bind ?_
      rintro _ t' - - ⟨levels', rfl, h'⟩
      exact ⟨levels', rfl, h'⟩

end MainState

end

end RingDB
