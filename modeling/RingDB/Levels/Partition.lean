import RingDB.Levels.Decompose

/-!
# Which READ batches are partitioned

A decomposition partitions a READ batch if the live requests of its parts are those of the batch,
each in one place, if it counts its parts, and if it expects no more requests than there are.

A batch of live requests begins with a live request, and no part can be made for request number 0
(`restLoop_live`): `decompose_partitions_iff` leaves the empty batch.
-/

namespace RingDB.LevelInfo

open Core

variable {cfg : Config}

/-- `client_sock_fd` is not -1. -/
def isLive (conn : ConnectionRequest) : Bool := conn.clientSockFd != -1

/-- The live requests of the part that a slot names. -/
def liveRequests (heap : Heap cfg) (slot : Option ℕ) : List (ℕ × ℤ) :=
  match slot.bind (heap[·]?) with
  | none => []
  | some b => (b.readwritePool.entries.filter isLive).map ConnectionRequest.payload

/-- `d` partitions the READ batch `b`. -/
structure Partitions (b : RequestBatch cfg) (heap : Heap cfg) (d : Decomposition cfg) : Prop where
  /-- Each request of the batch is live in one slot, with its buffer and its client. -/
  parts : (d.slots.data.flatMap (liveRequests heap)).Perm (requestsOf b)
  numReqBatches : d.numReqBatches = d.slots.data.countP Option.isSome
  sizes : d.expectedSstableSizes.sum ≤ d.totalDecompSize

/-- The decomposition of an empty batch. -/
def noParts (cfg : Config) : Decomposition cfg where
  slots := Slots.null cfg
  expectedSstableSizes := List.replicate cfg.levelFactor 0
  numReqBatches := (Slots.null cfg).data.countP Option.isSome
  totalDecompSize := 0

section

variable {mem : Memory} {alloc : Allocator cfg}

/-- In an empty pool a search ends where it begins. -/
theorem findIndexStartingFrom_nil {pool : ReadWritePool} (hnil : pool.entries = []) (start : ℕ)
    (buffer : Bytes) : pool.findIndexStartingFrom cfg mem start buffer
      = .ok (if start = 0 then -1 else ReadWritePool.toInt start) := by
  rw [ReadWritePool.findIndexStartingFrom, hnil, List.length_nil, bisect_of_le (Nat.zero_le _)]
  show (if start = 0 then _ else if start = 0 then _ else _) = _
  split_ifs with h
  · rfl
  · rfl

theorem toUint_le (i : ℤ) : ReadWritePool.toUint i ≤ uintMax := by
  have hlt := Int.emod_lt_of_pos i (show (0 : ℤ) < 2 ^ 32 by decide)
  simp only [uintMax, ReadWritePool.toUint]
  omega

theorem toUint_neg_one : ReadWritePool.toUint (-1) = uintMax := rfl

/-- An empty batch has no request in the range of an SSTable. -/
theorem rangeLoop_nil {sparseIndex : SparseIndex cfg} {reqBatch : ℕ} {b : RequestBatch cfg}
    (hnil : b.readwritePool.entries = []) {st : Reading cfg}
    (hb : st.heap.deref reqBatch = .ok b) {fs : List Filter} {i : ℕ} :
    rangeLoop mem alloc sparseIndex reqBatch fs i st = .ok st := by
  induction fs generalizing i with
  | nil => rfl
  | cons f fs ih =>
      rw [rangeLoop]
      split_ifs with hempty
      · rfl
      · have hleft := @findIndexStartingFrom_nil cfg mem _ hnil 0 (sparseIndex.getTableMinKey i)
        have hright := @findIndexStartingFrom_nil cfg mem _ hnil uintMax
          (sparseIndex.getTableMaxKey i)
        -- the search for the left end fails, and its `-1` is behind every index
        have hrange : ReadWritePool.toUint (if uintMax = 0 then -1 else
            ReadWritePool.toInt uintMax) - uintMax = 0 := Nat.sub_eq_zero_of_le (toUint_le _)
        refine bind_eq_ok.2 ⟨b, hb, bind_eq_ok.2 ⟨_, hleft, ?_⟩⟩
        rw [if_pos rfl, toUint_neg_one]
        refine bind_eq_ok.2 ⟨_, hright, bind_eq_ok.2 ⟨st, ?_, ih⟩⟩
        rw [hrange]
        rfl

theorem decomposeRead_nil {level : LevelInfo cfg} {heap : Heap cfg} {p : ℕ} {b : RequestBatch cfg}
    (hb : heap[p]? = some b) (hnil : b.readwritePool.entries = []) :
    level.decomposeRead mem alloc heap p = .ok (heap, noParts cfg) := by
  have hderef := Heap.deref_ok_iff.2 hb
  refine bind_eq_ok.2 ⟨b, hderef, bind_eq_ok.2 ⟨_, rangeLoop_nil hnil hderef,
    bind_eq_ok.2 ⟨b, hderef, ?_⟩⟩⟩
  rw [hnil]
  rfl

theorem noParts_partitions {b : RequestBatch cfg} (hnil : b.readwritePool.entries = [])
    (heap : Heap cfg) : Partitions b heap (noParts cfg) where
  parts := by
    have hempty : (noParts cfg).slots.data.flatMap (liveRequests heap) = [] := by
      rw [List.flatMap_eq_nil_iff]
      intro slot hslot
      rw [List.eq_of_mem_replicate hslot]
      rfl
    rw [hempty, requestsOf, hnil]
    exact List.Perm.nil
  numReqBatches := rfl
  sizes := by simp [noParts]

/-- Of the batches of live requests only the empty one has a decomposition. -/
theorem decomposeRead_live {level : LevelInfo cfg} {heap heap' : Heap cfg} {p : ℕ}
    {b : RequestBatch cfg} {d : Decomposition cfg} (hb : heap[p]? = some b)
    (hlive : ∀ conn ∈ b.readwritePool.entries, conn.clientSockFd ≠ -1)
    (h : level.decomposeRead mem alloc heap p = .ok (heap', d)) :
    b.readwritePool.entries = [] := by
  rcases decomposeRead_outcome h with ⟨b', hb', hout⟩
  rw [hb] at hb'
  cases hb'
  cases hconns : b.readwritePool.entries with
  | nil => rfl
  | cons conn conns =>
      have hconn := hlive conn (by rw [hconns]; exact List.mem_cons_self)
      rcases hout.parts with ⟨hdead, -⟩ | ⟨hlen, -⟩
      · exact absurd (hdead conn (by rw [hconns]; exact List.mem_cons_self)) hconn
      · have hpos := cfg.levelFactor_pos
        simp [hconns, deadPrefix, hconn] at hlen
        omega

theorem decompose_live {level : LevelInfo cfg} {heap : Heap cfg} {p : ℕ} {b : RequestBatch cfg}
    {r : LevelInfo cfg × Heap cfg × Decomposition cfg} (hb : heap[p]? = some b)
    (hread : b.reqType = .read) (hlive : ∀ conn ∈ b.readwritePool.entries, conn.clientSockFd ≠ -1)
    (h : level.decompose mem alloc heap p = .ok r) : b.readwritePool.entries = [] := by
  rcases bind_eq_ok.1 h with ⟨b', hb', h⟩
  rw [Heap.deref_ok_iff.2 hb] at hb'
  cases hb'
  rw [if_pos hread] at h
  rcases bind_eq_ok.1 h with ⟨⟨heap₁, d₁⟩, hd, -⟩
  exact decomposeRead_live hb hlive hd

/-- **A READ batch of live requests is partitioned if and only if it is empty**, at every level. -/
theorem decompose_partitions_iff {level : LevelInfo cfg} {heap : Heap cfg} {p : ℕ}
    {b : RequestBatch cfg} (hb : heap[p]? = some b) (hread : b.reqType = .read)
    (hlive : ∀ conn ∈ b.readwritePool.entries, conn.clientSockFd ≠ -1) :
    (∃ level' heap' d, level.decompose mem alloc heap p = .ok (level', heap', d)
      ∧ Partitions b heap' d) ↔ b.readwritePool.entries = [] := by
  constructor
  · rintro ⟨level', heap', d, h, -⟩
    exact decompose_live hb hread hlive h
  · intro hnil
    refine ⟨level, heap, noParts cfg, bind_eq_ok.2 ⟨b, Heap.deref_ok_iff.2 hb, ?_⟩,
      noParts_partitions hnil heap⟩
    rw [if_pos hread]
    exact bind_eq_ok.2 ⟨_, decomposeRead_nil hb hnil, rfl⟩

end

/-! ## The shipped configuration -/

/-- A READ batch of the requests `conns`. -/
def readBatch (conns : List ConnectionRequest) : RequestBatch shippedConfig :=
  { RequestBatch.zeroed shippedConfig .read with
    readwritePool := { entries := conns } }

theorem decompose_partitions_empty :
    ∃ level' heap' d, (fresh shippedConfig).decompose (fun _ => 0) (.zeroed shippedConfig)
        [readBatch []] 0 = .ok (level', heap', d) ∧ Partitions (readBatch []) heap' d :=
  (decompose_partitions_iff (b := readBatch []) rfl rfl (by simp [readBatch])).2 rfl

/-- One request at a level without data: the catch-all is made, and marked through the null pointer
of SSTable 0. -/
theorem decompose_one_faults :
    (fresh shippedConfig).decompose (fun _ => 0) (.zeroed shippedConfig)
      [readBatch [⟨.read, 0, 1, 0⟩]] 0 = .error .nullDeref := rfl

theorem decompose_one_not_partitioned :
    ¬ ∃ level' heap' d, (fresh shippedConfig).decompose (fun _ => 0) (.zeroed shippedConfig)
        [readBatch [⟨.read, 0, 1, 0⟩]] 0 = .ok (level', heap', d)
      ∧ Partitions (readBatch [⟨.read, 0, 1, 0⟩]) heap' d := by
  rintro ⟨level', heap', d, h, -⟩
  rw [decompose_one_faults] at h
  cases h

end RingDB.LevelInfo
