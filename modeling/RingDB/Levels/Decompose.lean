import RingDB.LevelZero.SparseIndex
import RingDB.Levels.Filter
import RingDB.Requests.Batch

/-!
# Splitting a batch over the SSTables of a level

`LevelInfo::decompose` divides a READ batch by the SSTables whose key range and filter admit a
request, with one more part, the catch-all, for the requests that no SSTable admits; a compaction
goes undivided to one SSTable.

The READ branch tests its pointers the wrong way round.  It makes the part of SSTable `i` when
there already is one, and it marks the catch-all through `decomposition[i]`, where `i` counts
SSTables in one loop and requests in the other.  What is left of it:

* an SSTable is never given a part of a READ batch: below the catch-all every result is null;
* a READ batch whose first live request is not request number `LEVEL_FACTOR` has no result.

**`decomposeRead_outcome`** states both.  The compaction branch leaves its search with the index
behind the first empty filter (`firstEmptyFrom`), and gives up for SSTable 0 when there is none.
-/

namespace RingDB

open Core

/-- The array `decomposition[LEVEL_FACTOR + 1]` of batch pointers. -/
structure Slots (cfg : Config) where
  data : List (Option ℕ)
  length_data : data.length = cfg.levelFactor + 1

namespace Slots

variable {cfg : Config}

/-- All pointers null. -/
def null (cfg : Config) : Slots cfg := ⟨List.replicate (cfg.levelFactor + 1) none, by simp⟩

def get (s : Slots cfg) (i : ℕ) : Except Fault (Option ℕ) :=
  match s.data[i]? with
  | none => .error .outOfBounds
  | some p => .ok p

def set (s : Slots cfg) (i p : ℕ) : Slots cfg :=
  ⟨s.data.set i (some p), by rw [List.length_set, s.length_data]⟩

end Slots

/-- `Decomposition` -/
structure Decomposition (cfg : Config) where
  slots : Slots cfg
  expectedSstableSizes : List ℕ
  numReqBatches : ℕ
  totalDecompSize : ℕ

/-- The members of `LevelInfo` that `decompose` uses. -/
structure LevelInfo (cfg : Config) where
  filters : List Filter
  sparseIndex : SparseIndex cfg
  length_filters : filters.length = cfg.levelFactor

namespace LevelInfo

variable {cfg : Config}

/-- A level as constructed: no filter has a key, no SSTable has a range. -/
def fresh (cfg : Config) : LevelInfo cfg where
  filters := List.replicate cfg.levelFactor {}
  sparseIndex := SparseIndex.fresh cfg
  length_filters := by simp

/-! ## The READ branch -/

/-- What the READ branch has changed so far. -/
structure Reading (cfg : Config) where
  heap : Heap cfg
  slots : Slots cfg
  sizes : List ℕ

section

variable (mem : Memory) (alloc : Allocator cfg)

/-- `decomp.decomposition[slot]->insert_read_write(…)` -/
def Reading.insert (st : Reading cfg) (slot : ℕ) (conn : ConnectionRequest) :
    Except Fault (Reading cfg) := do
  match ← st.slots.get slot with
  | none => .error .nullDeref
  | some p =>
      let heap ← st.heap.insertReadWrite mem p conn.buffer conn.clientSockFd conn.reqType
      pure { st with heap }

/-- `if (!decomp.decomposition[LEVEL_FACTOR]) …`: the catch-all is made if it is null, and marked
through `decomposition[i]`. -/
def Reading.makeCatchAll (st : Reading cfg) (i : ℕ) : Except Fault (Reading cfg) := do
  match ← st.slots.get cfg.levelFactor with
  | some _ => pure st
  | none =>
      let (heap, p) := st.heap.alloc alloc .read
      let slots := st.slots.set cfg.levelFactor p
      match ← slots.get i with
      | none => .error .nullDeref
      | some q =>
          pure { st with
            heap := heap.modifyPool q fun pool => { pool with presentInLevel := false }
            slots }

/-- A request into the catch-all. -/
def Reading.catchAll (st : Reading cfg) (i : ℕ) (conn : ConnectionRequest) :
    Except Fault (Reading cfg) := do
  let st ← st.makeCatchAll alloc i
  st.insert mem cfg.levelFactor conn

/-- `if (decomp.decomposition[i]) …`: the part of SSTable `i` is made if it is not null. -/
def Reading.makePart (st : Reading cfg) (i : ℕ) : Except Fault (Reading cfg) := do
  match ← st.slots.get i with
  | none => pure st
  | some _ =>
      let (heap, p) := st.heap.alloc alloc .read
      pure { st with
        heap := heap.modifyPool p fun pool => { pool with presentInLevel := true }
        slots := st.slots.set i p }

/-- A request into the part of SSTable `i`. -/
def Reading.admit (st : Reading cfg) (i : ℕ) (conn : ConnectionRequest) :
    Except Fault (Reading cfg) := do
  let st ← st.makePart alloc i
  let st ← st.insert mem i conn
  pure { st with sizes := st.sizes.modify i (· + 1) }

/-- Request `j` of the batch, in the range of SSTable `i`. -/
def visit (f : Filter) (reqBatch i j : ℕ) (st : Reading cfg) : Except Fault (Reading cfg) := do
  let b ← st.heap.deref reqBatch
  match b.readwritePool.entries[j]? with
  | none => .error .wildPointer
  | some conn =>
      let key ← cStringAt mem sizeMax (conn.buffer + 5)
      let found ← f.probContainsKey cfg key
      let st ← (if found then st.admit mem alloc i conn else st.catchAll mem alloc i conn)
      pure { st with heap := st.heap.modifyPool reqBatch (·.removeViaIndex j) }

/-- `for (j = left_index; j < right_index; ++j)`, for the `n` values of `j` from `j` on. -/
def visitRange (f : Filter) (reqBatch i : ℕ) :
    ℕ → ℕ → Reading cfg → Except Fault (Reading cfg)
  | 0, _, st => .ok st
  | n + 1, j, st => do
      let st ← visit mem alloc f reqBatch i j st
      visitRange f reqBatch i n (j + 1) st

/-- The loop over the SSTables, up to the first one whose filter is empty.  The two indices are
`int`s, and the loop between them runs over an `unsigned int`. -/
def rangeLoop (sparseIndex : SparseIndex cfg) (reqBatch : ℕ) :
    List Filter → ℕ → Reading cfg → Except Fault (Reading cfg)
  | [], _, st => .ok st
  | f :: fs, i, st =>
      if f.empty then .ok st
      else do
        let b ← st.heap.deref reqBatch
        let pool := b.readwritePool
        let left ← pool.findIndexStartingFrom cfg mem 0 (sparseIndex.getTableMinKey i)
        let left := ReadWritePool.toUint left
        let right ← pool.findIndexStartingFrom cfg mem left (sparseIndex.getTableMaxKey i)
        let right := ReadWritePool.toUint right
        let st ← visitRange mem alloc f reqBatch i (right - left) left st
        rangeLoop sparseIndex reqBatch fs (i + 1) st

/-- The loop over all requests: what still has a client goes into the catch-all. -/
def restLoop : List ConnectionRequest → ℕ → Reading cfg → Except Fault (Reading cfg)
  | [], _, st => .ok st
  | conn :: conns, i, st => do
      let st ← (if conn.clientSockFd ≠ -1 then st.catchAll mem alloc i conn else pure st)
      restLoop conns (i + 1) st

/-- `decompose` of a READ batch. -/
def decomposeRead (level : LevelInfo cfg) (heap : Heap cfg) (reqBatch : ℕ) :
    Except Fault (Heap cfg × Decomposition cfg) := do
  let b ← heap.deref reqBatch
  let st ← rangeLoop mem alloc level.sparseIndex reqBatch level.filters 0
    { heap, slots := Slots.null cfg, sizes := List.replicate cfg.levelFactor 0 }
  let rest ← st.heap.deref reqBatch
  let st ← restLoop mem alloc rest.readwritePool.entries 0 st
  pure (st.heap, {
    slots := st.slots
    expectedSstableSizes := st.sizes
    numReqBatches := st.slots.data.countP Option.isSome
    totalDecompSize := b.readwritePool.entries.length })

end

/-! ## The compaction branch -/

/-- `while (i < LEVEL_FACTOR && !filters[i++].empty());` — the final value of `i`, from `i` on.
The increment is made before the loop is left. -/
def firstEmptyFrom : List Filter → ℕ → ℕ
  | [], i => i
  | f :: fs, i => if f.empty then i + 1 else firstEmptyFrom fs (i + 1)

/-- The loop that inserts the keys of an image into a filter: `j` steps from entry to entry, and
the key pointer is advanced by `j`. -/
def insertKeys (cfg : Config) (data : Bytes) : ℕ → ℕ → ℕ → Filter → Except Fault Filter
  | 0, _, _, f => .ok f
  | fuel + 1, j, key, f =>
      if j < cfg.memtableSize then do
        let key := key + j
        let str ← cString data key
        let f ← f.insertKey cfg str
        insertKeys cfg data fuel (j + cfg.memtableEntryLength) key f
      else .ok f

/-- The decomposition that gives a compaction to SSTable `i`. -/
def assign (cfg : Config) (reqBatch i : ℕ) : Decomposition cfg where
  slots := (Slots.null cfg).set i reqBatch
  expectedSstableSizes := (List.replicate cfg.levelFactor 0).set i cfg.memtableSize
  numReqBatches := 1
  totalDecompSize := cfg.memtableSize

def setFilter (level : LevelInfo cfg) (i : ℕ) (f : Filter) : LevelInfo cfg where
  filters := level.filters.set i f
  sparseIndex := level.sparseIndex
  length_filters := by rw [List.length_set, level.length_filters]

/-- `decompose` of a batch that is not a READ batch.  The sparse index is not told. -/
def decomposeCompaction (level : LevelInfo cfg) (heap : Heap cfg) (reqBatch : ℕ) :
    Except Fault (LevelInfo cfg × Decomposition cfg) := do
  let i := firstEmptyFrom level.filters 0
  match level.filters[i]? with
  | some f => do
      let b ← heap.deref reqBatch
      if b.reqSeg.block = none then .error .wildPointer
      else
        let f ← insertKeys cfg b.reqSeg.data cfg.memtableSize 0 0 f
        pure (level.setFilter i f, assign cfg reqBatch i)
  | none => pure (level, assign cfg reqBatch 0)

/-- `LevelInfo::decompose` -/
def decompose (mem : Memory) (alloc : Allocator cfg) (level : LevelInfo cfg) (heap : Heap cfg)
    (reqBatch : ℕ) : Except Fault (LevelInfo cfg × Heap cfg × Decomposition cfg) := do
  let b ← heap.deref reqBatch
  if b.reqType = .read then
    let (heap, decomp) ← level.decomposeRead mem alloc heap reqBatch
    pure (level, heap, decomp)
  else
    let (level, decomp) ← level.decomposeCompaction heap reqBatch
    pure (level, heap, decomp)

/-! ## What is left of the READ branch -/

section

variable {mem : Memory} {alloc : Allocator cfg}

theorem Slots.get_ok_iff {s : Slots cfg} {i : ℕ} {p : Option ℕ} :
    s.get i = .ok p ↔ s.data[i]? = some p := by
  unfold Slots.get
  cases s.data[i]? with
  | none => simp
  | some q => simp

theorem Slots.null_get {i : ℕ} (h : i ≤ cfg.levelFactor) :
    (Slots.null cfg).data[i]? = some none := by
  simp only [Slots.null, List.getElem?_replicate]
  rw [if_pos (by omega)]

theorem Slots.set_get_self (s : Slots cfg) {i : ℕ} (p : ℕ) (h : i ≤ cfg.levelFactor) :
    (s.set i p).data[i]? = some (some p) := by
  simp only [Slots.set, List.getElem?_set_self (by rw [s.length_data]; omega : i < s.data.length)]

theorem Slots.set_get_ne (s : Slots cfg) {i j : ℕ} (p : ℕ) (h : i ≠ j) :
    (s.set i p).data[j]? = s.data[j]? := by
  simp only [Slots.set, List.getElem?_set_ne h]

/-- Inserting through a null pointer. -/
theorem Reading.insert_null {st st' : Reading cfg} {i : ℕ} {conn : ConnectionRequest}
    (h : st.slots.data[i]? = some none) : st.insert mem i conn ≠ .ok st' := by
  intro hins
  rcases bind_eq_ok.1 hins with ⟨p, hp, hins⟩
  rw [Slots.get_ok_iff.1 hp] at h
  cases h
  cases hins

/-- **A catch-all can only be made by request number `LEVEL_FACTOR`**: the pointer it is marked
through is its own. -/
theorem Reading.makeCatchAll_null {st st' : Reading cfg} {i : ℕ}
    (hbelow : ∀ j < cfg.levelFactor, st.slots.data[j]? = some none)
    (hnull : st.slots.data[cfg.levelFactor]? = some none)
    (h : st.makeCatchAll alloc i = .ok st') :
    i = cfg.levelFactor ∧ st' = { st with
      heap := Heap.modifyPool (st.heap ++ [.new .read (alloc.chunk st.heap.length)]) st.heap.length
        fun pool => { pool with presentInLevel := false }
      slots := st.slots.set cfg.levelFactor st.heap.length } := by
  rcases bind_eq_ok.1 h with ⟨p, hp, h⟩
  rw [Slots.get_ok_iff.2 hnull] at hp
  cases hp
  rcases bind_eq_ok.1 h with ⟨q, hq, h⟩
  have hq' := Slots.get_ok_iff.1 hq
  rcases Nat.lt_trichotomy i cfg.levelFactor with hlt | rfl | hgt
  · rw [Slots.set_get_ne _ _ hlt.ne', hbelow i hlt] at hq'
    cases hq'
    cases h
  · rw [Slots.set_get_self _ _ (Nat.le_refl _)] at hq'
    cases hq'
    cases h
    exact ⟨rfl, rfl⟩
  · rw [Slots.set_get_ne _ _ hgt.ne, List.getElem?_eq_none
      (by rw [st.slots.length_data]; exact hgt)] at hq'
    cases hq'

/-- The first request that an SSTable's range admits ends the loop without a result, whatever the
filter answers: the part of the SSTable is null, and so is the pointer that the catch-all is marked
through. -/
theorem visit_null {f : Filter} {reqBatch i j : ℕ} {st st' : Reading cfg}
    (hi : i < cfg.levelFactor) (hnull : st.slots = Slots.null cfg) :
    visit mem alloc f reqBatch i j st ≠ .ok st' := by
  have hslot : st.slots.data[i]? = some none := hnull ▸ Slots.null_get hi.le
  intro h
  rcases bind_eq_ok.1 h with ⟨b, -, h⟩
  split at h
  · cases h
  · rcases bind_eq_ok.1 h with ⟨key, -, h⟩
    rcases bind_eq_ok.1 h with ⟨found, -, h⟩
    rcases bind_eq_ok.1 h with ⟨st₁, hput, -⟩
    split_ifs at hput
    · rcases bind_eq_ok.1 hput with ⟨st₂, hmake, hput⟩
      rcases bind_eq_ok.1 hmake with ⟨p, hp, hmake⟩
      rw [Slots.get_ok_iff.2 hslot] at hp
      cases hp
      cases hmake
      rcases bind_eq_ok.1 hput with ⟨st₃, hins, -⟩
      exact Reading.insert_null hslot hins
    · rcases bind_eq_ok.1 hput with ⟨st₂, hmake, -⟩
      obtain ⟨hi', -⟩ := Reading.makeCatchAll_null
        (fun j hj => hnull ▸ Slots.null_get hj.le) (hnull ▸ Slots.null_get (Nat.le_refl _)) hmake
      exact hi.ne hi'

/-- So the loop over the SSTables changes nothing, if it ends. -/
theorem rangeLoop_null {sparseIndex : SparseIndex cfg} {reqBatch : ℕ} {fs : List Filter} {i : ℕ}
    {st st' : Reading cfg} (hi : i + fs.length ≤ cfg.levelFactor)
    (hnull : st.slots = Slots.null cfg)
    (h : rangeLoop mem alloc sparseIndex reqBatch fs i st = .ok st') : st' = st := by
  induction fs generalizing i with
  | nil =>
      cases h
      rfl
  | cons f fs ih =>
      rw [List.length_cons] at hi
      rw [rangeLoop] at h
      split_ifs at h
      · cases h
        rfl
      · rcases bind_eq_ok.1 h with ⟨b, -, h⟩
        rcases bind_eq_ok.1 h with ⟨left, -, h⟩
        rcases bind_eq_ok.1 h with ⟨right, -, h⟩
        rcases bind_eq_ok.1 h with ⟨st₁, hvisit, h⟩
        cases hn : ReadWritePool.toUint right - ReadWritePool.toUint left with
        | zero =>
            rw [hn] at hvisit
            cases hvisit
            exact ih (by omega) h
        | succ n =>
            rw [hn] at hvisit
            rcases bind_eq_ok.1 hvisit with ⟨st₂, hfirst, -⟩
            exact absurd hfirst (visit_null (by omega) hnull)

/-- Only the catch-all exists, and the batches of `before` are as they were. -/
structure OnlyCatchAll (before : Heap cfg) (st : Reading cfg) : Prop where
  below : ∀ i < cfg.levelFactor, st.slots.data[i]? = some none
  made : ∀ q, st.slots.data[cfg.levelFactor]? = some (some q) → before.length ≤ q
  length : before.length ≤ st.heap.length
  frame : ∀ p < before.length, st.heap[p]? = before[p]?

theorem onlyCatchAll_start (heap : Heap cfg) (sizes : List ℕ) :
    OnlyCatchAll heap ⟨heap, Slots.null cfg, sizes⟩ where
  below := fun _ hi => Slots.null_get hi.le
  made := fun q hq => by
    rw [Slots.null_get (Nat.le_refl _)] at hq
    cases hq
  length := Nat.le_refl _
  frame := fun _ _ => rfl

/-- An insertion into the catch-all writes to no batch of `before`. -/
theorem OnlyCatchAll.insert {before : Heap cfg} {st st' : Reading cfg} {conn : ConnectionRequest}
    (h : OnlyCatchAll before st) (hins : st.insert mem cfg.levelFactor conn = .ok st') :
    OnlyCatchAll before st' ∧ st'.slots = st.slots := by
  rcases bind_eq_ok.1 hins with ⟨p, hp, hins⟩
  cases p with
  | none => cases hins
  | some p =>
      have hle := h.made p (Slots.get_ok_iff.1 hp)
      rcases bind_eq_ok.1 hins with ⟨heap, hheap, hins⟩
      cases hins
      rcases Heap.insertReadWrite_cases hheap with ⟨b, pool, -, -, rfl⟩
      refine ⟨⟨h.below, h.made, ?_, fun q hq => ?_⟩, rfl⟩
      · rw [List.length_set]
        exact h.length
      · rw [List.getElem?_set_ne (by omega)]
        exact h.frame q hq

/-- A new catch-all is a new batch. -/
theorem OnlyCatchAll.makeCatchAll {before : Heap cfg} {st : Reading cfg}
    (h : OnlyCatchAll before st) (alloc : Allocator cfg) :
    OnlyCatchAll before { st with
      heap := Heap.modifyPool (st.heap ++ [.new .read (alloc.chunk st.heap.length)]) st.heap.length
        fun pool => { pool with presentInLevel := false }
      slots := st.slots.set cfg.levelFactor st.heap.length } := by
  have hlen := h.length
  constructor
  · exact fun j hj => (Slots.set_get_ne _ _ hj.ne').trans (h.below j hj)
  · intro r hr
    rw [Slots.set_get_self _ _ (Nat.le_refl _)] at hr
    cases hr
    exact hlen
  · rw [Heap.modifyPool, List.length_modify, List.length_append]
    omega
  · intro r hr
    rw [Heap.modifyPool, List.getElem?_modify_ne _ _ (by omega),
      List.getElem?_append_left (by omega)]
    exact h.frame r hr

/-- What a request into the catch-all leaves: the catch-all, and nothing else. -/
theorem OnlyCatchAll.catchAll {before : Heap cfg} {st st' : Reading cfg} {i : ℕ}
    {conn : ConnectionRequest} (h : OnlyCatchAll before st)
    (hput : st.catchAll mem alloc i conn = .ok st') :
    OnlyCatchAll before st' ∧ (∃ q, st'.slots.data[cfg.levelFactor]? = some (some q))
      ∧ (st.slots.data[cfg.levelFactor]? = some none → i = cfg.levelFactor) := by
  rcases bind_eq_ok.1 hput with ⟨st₁, hmake, hins⟩
  cases hslot : st.slots.data[cfg.levelFactor]? with
  | none =>
      rw [List.getElem?_eq_none_iff, st.slots.length_data] at hslot
      omega
  | some p =>
      cases p with
      | some q =>
          rcases bind_eq_ok.1 hmake with ⟨p, hp, hmake⟩
          rw [Slots.get_ok_iff.2 hslot] at hp
          cases hp
          cases hmake
          rcases h.insert hins with ⟨h', hslots⟩
          exact ⟨h', ⟨q, by rw [hslots]; exact hslot⟩, fun hnone => by cases hnone⟩
      | none =>
          rcases Reading.makeCatchAll_null h.below hslot hmake with ⟨hi, rfl⟩
          have hself := Slots.set_get_self st.slots st.heap.length (Nat.le_refl cfg.levelFactor)
          rcases (h.makeCatchAll alloc).insert hins with ⟨h', hslots⟩
          exact ⟨h', ⟨st.heap.length, by rw [hslots]; exact hself⟩, fun _ => hi⟩

theorem OnlyCatchAll.restLoop {before : Heap cfg} {conns : List ConnectionRequest} {i : ℕ}
    {st st' : Reading cfg} (h : OnlyCatchAll before st)
    (hloop : restLoop mem alloc conns i st = .ok st') : OnlyCatchAll before st' := by
  induction conns generalizing i st with
  | nil =>
      cases hloop
      exact h
  | cons conn conns ih =>
      rcases bind_eq_ok.1 hloop with ⟨st₁, hput, hloop⟩
      split_ifs at hput with hlive
      · exact ih (h.catchAll hput).1 hloop
      · cases hput
        exact ih h hloop

/-- A catch-all is not lost again. -/
theorem restLoop_keeps {before : Heap cfg} {conns : List ConnectionRequest} {i : ℕ}
    {st st' : Reading cfg} (h : OnlyCatchAll before st)
    (hq : ∃ q, st.slots.data[cfg.levelFactor]? = some (some q))
    (hloop : restLoop mem alloc conns i st = .ok st') :
    ∃ q, st'.slots.data[cfg.levelFactor]? = some (some q) := by
  induction conns generalizing i st with
  | nil =>
      cases hloop
      exact hq
  | cons conn conns ih =>
      rcases bind_eq_ok.1 hloop with ⟨st₁, hput, hloop⟩
      split_ifs at hput with hlive
      · rcases h.catchAll hput with ⟨h', hq', -⟩
        exact ih h' hq' hloop
      · cases hput
        exact ih h hq hloop

/-- The requests before the first live one. -/
def deadPrefix (conns : List ConnectionRequest) : List ConnectionRequest :=
  conns.takeWhile fun conn => conn.clientSockFd == -1

/-- The loop over all requests ends only if none of them is live, or if the first live one is
request number `LEVEL_FACTOR`; then there is a catch-all. -/
theorem restLoop_live {before : Heap cfg} {conns : List ConnectionRequest} {i : ℕ}
    {st st' : Reading cfg} (h : OnlyCatchAll before st)
    (hnull : st.slots.data[cfg.levelFactor]? = some none)
    (hloop : restLoop mem alloc conns i st = .ok st') :
    ((∀ conn ∈ conns, conn.clientSockFd = -1) ∧ st' = st)
      ∨ (i + (deadPrefix conns).length = cfg.levelFactor
        ∧ ∃ q, st'.slots.data[cfg.levelFactor]? = some (some q)) := by
  induction conns generalizing i with
  | nil =>
      cases hloop
      exact Or.inl ⟨fun _ hc => absurd hc List.not_mem_nil, rfl⟩
  | cons conn conns ih =>
      rcases bind_eq_ok.1 hloop with ⟨st₁, hput, hloop⟩
      split_ifs at hput with hlive
      · rcases h.catchAll hput with ⟨h', hq, hi⟩
        have hpre : deadPrefix (conn :: conns) = [] := by simp [deadPrefix, hlive]
        exact Or.inr ⟨by rw [hpre]; exact hi hnull, restLoop_keeps h' hq hloop⟩
      · cases hput
        have hdead : conn.clientSockFd = -1 := not_not.1 hlive
        have hpre : deadPrefix (conn :: conns) = conn :: deadPrefix conns := by
          simp [deadPrefix, hdead]
        rcases ih hloop with ⟨hall, rfl⟩ | ⟨hlen, hq⟩
        · exact Or.inl ⟨List.forall_mem_cons.2 ⟨hdead, hall⟩, rfl⟩
        · refine Or.inr ⟨?_, hq⟩
          rw [hpre, List.length_cons]
          omega

/-- With null pointers below the catch-all, `num_req_batches` counts the catch-all alone. -/
theorem Slots.countP_isSome {s : Slots cfg} {c : Option ℕ}
    (hbelow : ∀ i < cfg.levelFactor, s.data[i]? = some none)
    (hcatch : s.data[cfg.levelFactor]? = some c) :
    s.data.countP Option.isSome = if c.isSome then 1 else 0 := by
  have hdata : s.data = List.replicate cfg.levelFactor none ++ [c] := by
    apply List.ext_getElem?
    intro i
    rcases Nat.lt_trichotomy i cfg.levelFactor with hlt | rfl | hgt
    · rw [hbelow i hlt, List.getElem?_append_left (by simpa using hlt), List.getElem?_replicate,
        if_pos hlt]
    · rw [hcatch, List.getElem?_append_right (by simp)]
      simp
    · rw [List.getElem?_eq_none (by rw [s.length_data]; exact hgt),
        List.getElem?_eq_none (by simpa using Nat.succ_le_of_lt hgt)]
  rw [hdata]
  simp [List.countP_append, List.countP_replicate, List.countP_cons]

/-- What a READ batch `b` can be decomposed into. -/
structure ReadOutcome (b : RequestBatch cfg) (heap heap' : Heap cfg) (d : Decomposition cfg) :
    Prop where
  total : d.totalDecompSize = b.readwritePool.entries.length
  below : ∀ i < cfg.levelFactor, d.slots.data[i]? = some none
  frame : ∀ p < heap.length, heap'[p]? = heap[p]?
  /-- Nothing at all, or a catch-all. -/
  parts : ((∀ conn ∈ b.readwritePool.entries, conn.clientSockFd = -1) ∧ heap' = heap
      ∧ d.slots = Slots.null cfg ∧ d.numReqBatches = 0)
    ∨ ((deadPrefix b.readwritePool.entries).length = cfg.levelFactor ∧ d.numReqBatches = 1
      ∧ ∃ q, d.slots.data[cfg.levelFactor]? = some (some q))

/-- **The READ branch at a glance.**  Whatever the state of the level, an SSTable is given no
part of a READ batch. -/
theorem decomposeRead_outcome {level : LevelInfo cfg} {heap heap' : Heap cfg} {reqBatch : ℕ}
    {d : Decomposition cfg} (h : level.decomposeRead mem alloc heap reqBatch = .ok (heap', d)) :
    ∃ b, heap[reqBatch]? = some b ∧ ReadOutcome b heap heap' d := by
  rcases bind_eq_ok.1 h with ⟨b, hb, h⟩
  rcases bind_eq_ok.1 h with ⟨st, hrange, h⟩
  have hst := rangeLoop_null (by rw [level.length_filters, Nat.zero_add]) rfl hrange
  subst hst
  rcases bind_eq_ok.1 h with ⟨rest, hrest, h⟩
  rw [hb] at hrest
  cases hrest
  rcases bind_eq_ok.1 h with ⟨st', hloop, h⟩
  cases h
  have hstart := onlyCatchAll_start heap (List.replicate cfg.levelFactor 0)
  have hnull : (Slots.null cfg).data[cfg.levelFactor]? = some none :=
    Slots.null_get (Nat.le_refl _)
  have hend := hstart.restLoop hloop
  refine ⟨b, Heap.deref_ok_iff.1 hb, rfl, hend.below, hend.frame, ?_⟩
  rcases restLoop_live hstart hnull hloop with ⟨hdead, rfl⟩ | ⟨hlen, q, hq⟩
  · exact Or.inl ⟨hdead, rfl, rfl, Slots.countP_isSome hend.below hnull⟩
  · refine Or.inr ⟨by rw [← hlen, Nat.zero_add], ?_, q, hq⟩
    exact Slots.countP_isSome hend.below hq

/-! ## What the compaction branch answers -/

theorem assign_slot {reqBatch i : ℕ} (h : i < cfg.levelFactor) (j : ℕ) :
    (assign cfg reqBatch i).slots.data[j]?
      = if j = i then some (some reqBatch)
        else if j ≤ cfg.levelFactor then some none else none := by
  split_ifs with hj hle
  · subst hj
    exact Slots.set_get_self _ _ h.le
  · exact (Slots.set_get_ne _ _ (Ne.symm hj)).trans (Slots.null_get hle)
  · refine List.getElem?_eq_none ?_
    rw [Slots.length_data]
    omega

/-- A compaction goes to the SSTable behind the first one with an empty filter, whose own filter
gets the keys; if that is no SSTable of the level, it goes to SSTable 0. -/
theorem decomposeCompaction_cases {level level' : LevelInfo cfg} {heap : Heap cfg} {reqBatch : ℕ}
    {d : Decomposition cfg} (h : level.decomposeCompaction heap reqBatch = .ok (level', d)) :
    (cfg.levelFactor ≤ firstEmptyFrom level.filters 0 ∧ level' = level
        ∧ d = assign cfg reqBatch 0)
      ∨ (firstEmptyFrom level.filters 0 < cfg.levelFactor
        ∧ (∃ f, level' = level.setFilter (firstEmptyFrom level.filters 0) f)
        ∧ d = assign cfg reqBatch (firstEmptyFrom level.filters 0)) := by
  cases hf : level.filters[firstEmptyFrom level.filters 0]? with
  | none =>
      simp only [decomposeCompaction, hf] at h
      cases h
      rw [List.getElem?_eq_none_iff, level.length_filters] at hf
      exact Or.inl ⟨hf, rfl, rfl⟩
  | some f =>
      simp only [decomposeCompaction, hf] at h
      rcases bind_eq_ok.1 h with ⟨b, -, h⟩
      split_ifs at h
      rcases bind_eq_ok.1 h with ⟨f', -, h⟩
      cases h
      have hlt := (List.getElem?_eq_some_iff.1 hf).1
      rw [level.length_filters] at hlt
      exact Or.inr ⟨hlt, ⟨f', rfl⟩, rfl⟩

/-- A compaction goes to one SSTable of the level. -/
theorem decomposeCompaction_assign {level level' : LevelInfo cfg} {heap : Heap cfg} {reqBatch : ℕ}
    {d : Decomposition cfg} (h : level.decomposeCompaction heap reqBatch = .ok (level', d)) :
    ∃ i < cfg.levelFactor, d = assign cfg reqBatch i := by
  rcases decomposeCompaction_cases h with ⟨-, -, rfl⟩ | ⟨hlt, -, rfl⟩
  · exact ⟨0, cfg.levelFactor_pos, rfl⟩
  · exact ⟨_, hlt, rfl⟩

/-- The two branches of `decompose`. -/
theorem decompose_cases {level level' : LevelInfo cfg} {heap heap' : Heap cfg} {reqBatch : ℕ}
    {d : Decomposition cfg}
    (h : level.decompose mem alloc heap reqBatch = .ok (level', heap', d)) :
    ∃ b, heap[reqBatch]? = some b
      ∧ ((b.reqType = .read ∧ level' = level ∧ ReadOutcome b heap heap' d)
        ∨ (b.reqType ≠ .read ∧ heap' = heap ∧ ∃ i < cfg.levelFactor, d = assign cfg reqBatch i
          ∧ level.decomposeCompaction heap reqBatch = .ok (level', d))) := by
  rcases bind_eq_ok.1 h with ⟨b, hb, h⟩
  have hb' := Heap.deref_ok_iff.1 hb
  refine ⟨b, hb', ?_⟩
  split_ifs at h with hread
  · rcases bind_eq_ok.1 h with ⟨⟨heap₁, d₁⟩, hd, h⟩
    cases h
    rcases decomposeRead_outcome hd with ⟨b₁, hb₁, hout⟩
    rw [hb'] at hb₁
    cases hb₁
    exact Or.inl ⟨hread, rfl, hout⟩
  · rcases bind_eq_ok.1 h with ⟨⟨level₁, d₁⟩, hd, h⟩
    cases h
    rcases decomposeCompaction_assign hd with ⟨i, hi, rfl⟩
    exact Or.inr ⟨hread, rfl, i, hi, rfl, hd⟩

end

end LevelInfo

end RingDB
