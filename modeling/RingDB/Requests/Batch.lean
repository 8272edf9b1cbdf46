import RingDB.Requests.Pool

/-!
# Request batches

A `RequestBatch` is either a pool of client requests or the image of a memtable on its way to an
SSTable.  The image is built by `RequestSegment::insert_memtable`, a traversal of the sorted
memtable that is meant to lay it out as an array tree; the traversal uses the `Stack` below.

`Stack::top` returns `data[back]`, the slot above the top one, where `push_top` fills
`data[back++]`: what a traversal reads is what some earlier push or the allocator left there.
The model keeps the whole array for that reason.
-/

namespace RingDB

open Core

/-- One stack slot, `data[i][0..3]`. -/
abbrev Quad := ℕ × ℕ × ℕ × ℕ

/-- `Stack<length>`: an array of slots and the counter `back`. -/
structure Stack (length : ℕ) where
  data : List Quad
  back : ℕ
  length_data : data.length = length

namespace Stack

variable {length : ℕ}

/-- A constructed stack: `back` is `0`, the slots are whatever the allocator left. -/
def new (data : List Quad) (h : data.length = length) : Stack length := ⟨data, 0, h⟩

/-- A constructed stack over zeroed slots. -/
def zeroed (length : ℕ) : Stack length :=
  new (List.replicate length (0, 0, 0, 0)) List.length_replicate

/-- The slots of `st` under `back = 0`, as a constructor that sets nothing else leaves them. -/
def reset (st : Stack length) : Stack length := { st with back := 0 }

def pushTop (st : Stack length) (q : Quad) : Except Fault (Stack length) :=
  if st.back < length then
    .ok { st with
      data := st.data.set st.back q
      back := st.back + 1
      length_data := by rw [List.length_set, st.length_data] }
  else .error .outOfBounds

/-- `top` returns `data[back]`. -/
def top (st : Stack length) : Except Fault Quad :=
  match st.data[st.back]? with
  | none => .error .outOfBounds
  | some q => .ok q

/-- `--back`, on an `unsigned int`. -/
def popTop (st : Stack length) : Stack length := { st with back := (st.back + uintMax) % 2 ^ 32 }

@[simp] theorem data_popTop (st : Stack length) : st.popTop.data = st.data := by
  cases st
  rfl

def empty (st : Stack length) : Bool := st.back == 0

end Stack

/-- `RequestSegment`: its stack and the bytes of its image.  `block` tells which allocation `data`
points to, so that two images with equal bytes are still two. -/
structure RequestSegment (cfg : Config) where
  stack : Stack cfg.maxSstableHeight
  block : Option ℕ
  data : Bytes

namespace RequestSegment

variable {cfg : Config}

/-- The variables of the loop in `insert_memtable`.  `none` marks a slot of `top_tree_index` that
was never set. -/
structure Build (cfg : Config) where
  stack : Stack cfg.maxSstableHeight
  topTreeIndex : List (Option ℕ)
  back : ℤ
  data : Bytes

namespace Build

/-- `top_tree_index[back]`. -/
def treeIndex (b : Build cfg) : Except Fault ℕ :=
  if 0 ≤ b.back then
    match b.topTreeIndex[b.back.toNat]? with
    | none => .error .outOfBounds
    | some none => .error .uninitialised
    | some (some i) => .ok i
  else .error .outOfBounds

/-- Push a child, record its tree index, copy its entry into the image. -/
def addChild (memtable : Bytes) (b : Build cfg) (q : Quad) (treeIndex source : ℕ) :
    Except Fault (Build cfg) := do
  let stack ← b.stack.pushTop q
  if 0 ≤ b.back ∧ b.back.toNat < b.topTreeIndex.length then
    let entry ← readAt memtable source cfg.memtableEntryLength
    let data ← writeAt b.data treeIndex entry
    pure { stack
           topTreeIndex := b.topTreeIndex.set b.back.toNat (some treeIndex)
           back := b.back + 1
           data }
  else .error .outOfBounds

/-- One pass of the loop.  A child's entry is copied from `left`, respectively `right`, and not
from the child's own position. -/
def pass (memtable : Bytes) (b : Build cfg) : Except Fault (Build cfg) := do
  let (current, left, right, _) ← b.stack.top
  let leftChild := (left + current) % 2 ^ 32 / 2
  let rightChild := (current + right) % 2 ^ 32 / 2
  let treeBase ← b.treeIndex
  let b := { b with stack := b.stack.popTop, back := b.back - 1 }
  let b ←
    if leftChild < current then
      b.addChild memtable (leftChild, left, current, 0) (2 * treeBase + 1) left
    else pure b
  if rightChild > current then
    b.addChild memtable (rightChild, current, right, 0) (2 * treeBase + 2) right
  else pure b

/-- `while (!stack.empty())`, observed for `fuel` passes. -/
def loop (memtable : Bytes) : ℕ → Build cfg → Except Fault (Build cfg)
  | 0, b => if b.stack.empty then .ok b else .error .diverges
  | fuel + 1, b =>
      if b.stack.empty then .ok b
      else do
        let b ← b.pass memtable
        loop memtable fuel b

end Build

/-- `insert_memtable`: push the middle of the table, copy its entry to the front of a new block of
`MEMTABLE_SIZE` bytes, traverse. -/
def insertMemtable (fuel block : ℕ) (allocated memtable : Bytes) (seg : RequestSegment cfg) :
    Except Fault (RequestSegment cfg) := do
  let stack ← seg.stack.pushTop (cfg.memtableSize / 2, 0, cfg.memtableSize, 0)
  let root ← readAt memtable (cfg.memtableSize / 2) cfg.memtableEntryLength
  let data ← writeAt allocated 0 root
  let b ← Build.loop memtable fuel
    { stack
      topTreeIndex := (List.replicate cfg.maxSstableHeight none).set 0 (some 0)
      back := 0
      data }
  pure { stack := b.stack, block := some block, data := b.data }

/-- The image points to the block that was allocated for it. -/
theorem insertMemtable_block {fuel block : ℕ} {allocated memtable : Bytes}
    {seg seg' : RequestSegment cfg}
    (h : seg.insertMemtable fuel block allocated memtable = .ok seg') :
    seg'.block = some block := by
  rcases bind_eq_ok.1 h with ⟨stack, -, h⟩
  rcases bind_eq_ok.1 h with ⟨root, -, h⟩
  rcases bind_eq_ok.1 h with ⟨data, -, h⟩
  rcases bind_eq_ok.1 h with ⟨b, -, h⟩
  cases h
  rfl

end RequestSegment

/-- `RequestBatch`.  The two members of the union are kept side by side; `reqType` tells which one
the code uses. -/
structure RequestBatch (cfg : Config) where
  reqType : RequestType
  readwritePool : ReadWritePool
  reqSeg : RequestSegment cfg

namespace RequestBatch

variable {cfg : Config}

/-- `new RequestBatch(req_type)` over the memory `chunk`, read as a batch.  The constructor of the
union sets nothing, so that the pool's `length`, `num_sent` and `data` and the segment's stack are
what that memory holds. -/
def new (reqType : RequestType) (chunk : RequestBatch cfg) : RequestBatch cfg :=
  { chunk with reqType }

/-- A batch over zeroed memory. -/
def zeroed (cfg : Config) (reqType : RequestType) : RequestBatch cfg where
  reqType := reqType
  readwritePool := {}
  reqSeg := { stack := .zeroed _, block := none, data := [] }

/-- `insert_read_write` of batch object `self`. -/
def insertReadWrite (mem : Memory) (self : ℕ) (b : RequestBatch cfg) (buffer : ℕ)
    (clientSockFd : ℤ) (reqType : RequestType) : Except Fault (RequestBatch cfg) := do
  let pool ← b.readwritePool.insertReadWrite cfg mem
    { reqType, reqBatchRef := self, clientSockFd, buffer }
  pure { b with readwritePool := pool }

end RequestBatch

/-- The requests in a batch's pool. -/
def requestsOf {cfg : Config} (b : RequestBatch cfg) : List (ℕ × ℤ) :=
  b.readwritePool.entries.map ConnectionRequest.payload

/-! ## The batch objects

A pointer to a batch is the batch's place in the list of all batches ever made, so that two
variables can name the same one. -/

/-- What the allocator hands out: the bytes of the `n`th block of `new char[MEMTABLE_SIZE]`, and the
memory that batch object `n` is made in.  A chunk that was in use before holds what was left
there. -/
structure Allocator (cfg : Config) where
  block : ℕ → Bytes
  chunk : ℕ → RequestBatch cfg
  length_block : ∀ n, (block n).length = cfg.memtableSize

namespace Allocator

/-- Every chunk is one in which a pool reads as empty. -/
def EmptyPools {cfg : Config} (mem : Allocator cfg) : Prop :=
  ∀ n, (mem.chunk n).readwritePool.entries = []

/-- The allocator that hands out zeroed memory. -/
def zeroed (cfg : Config) : Allocator cfg where
  block := fun _ => nulBytes cfg.memtableSize
  chunk := fun _ => .zeroed cfg .accept
  length_block := fun _ => length_nulBytes _

theorem emptyPools_zeroed (cfg : Config) : (zeroed cfg).EmptyPools := fun _ => rfl

end Allocator

abbrev Heap (cfg : Config) := List (RequestBatch cfg)

namespace Heap

variable {cfg : Config}

/-- The object that a batch pointer names. -/
def deref (heap : Heap cfg) (p : ℕ) : Except Fault (RequestBatch cfg) :=
  match heap[p]? with
  | none => .error .wildPointer
  | some b => .ok b

/-- `new RequestBatch(req_type)`, with the pointer to it. -/
def alloc (mem : Allocator cfg) (heap : Heap cfg) (reqType : RequestType) : Heap cfg × ℕ :=
  (heap ++ [RequestBatch.new reqType (mem.chunk heap.length)], heap.length)

/-- `p->insert_read_write(buffer, client_sock_fd, req_type)` -/
def insertReadWrite (mem : Memory) (heap : Heap cfg) (p buffer : ℕ) (clientSockFd : ℤ)
    (reqType : RequestType) : Except Fault (Heap cfg) := do
  let b ← heap.deref p
  let b ← b.insertReadWrite mem p buffer clientSockFd reqType
  pure (heap.set p b)

/-- A change of the pool of `*p`. -/
def modifyPool (heap : Heap cfg) (p : ℕ) (f : ReadWritePool → ReadWritePool) : Heap cfg :=
  heap.modify p fun b => { b with readwritePool := f b.readwritePool }

theorem deref_ok_iff {heap : Heap cfg} {p : ℕ} {b : RequestBatch cfg} :
    heap.deref p = .ok b ↔ heap[p]? = some b := by
  unfold deref
  cases heap[p]? with
  | none => simp
  | some b' => simp

/-- An insertion that has an outcome: the batch, and its pool after it. -/
theorem insertReadWrite_cases {mem : Memory} {heap heap' : Heap cfg} {p buffer : ℕ}
    {clientSockFd : ℤ} {reqType : RequestType}
    (h : heap.insertReadWrite mem p buffer clientSockFd reqType = .ok heap') :
    ∃ b pool, heap[p]? = some b ∧
      b.readwritePool.insertReadWrite cfg mem { reqType, reqBatchRef := p, clientSockFd, buffer }
        = .ok pool ∧
      heap' = heap.set p { b with readwritePool := pool } := by
  rcases bind_eq_ok.1 h with ⟨b, hb, h⟩
  rcases bind_eq_ok.1 h with ⟨b', hb', h⟩
  cases h
  rcases bind_eq_ok.1 hb' with ⟨pool, hpool, hb'⟩
  cases hb'
  exact ⟨b, pool, deref_ok_iff.1 hb, hpool, rfl⟩

end Heap

/-! ## Types of batches -/

variable {cfg : Config}

/-- Every batch is still there, with its type. -/
def TypesKept (heap heap' : Heap cfg) : Prop :=
  ∀ (p : ℕ) (b : RequestBatch cfg), heap[p]? = some b →
    ∃ b', heap'[p]? = some b' ∧ b'.reqType = b.reqType

namespace TypesKept

variable {heap heap₁ heap₂ heap' : Heap cfg}

theorem refl (heap : Heap cfg) : TypesKept heap heap := fun _ b hb => ⟨b, hb, rfl⟩

theorem trans (h : TypesKept heap heap₁) (h' : TypesKept heap₁ heap₂) : TypesKept heap heap₂ := by
  intro p b hb
  rcases h p b hb with ⟨b₁, hb₁, heq⟩
  rcases h' p b₁ hb₁ with ⟨b₂, hb₂, heq'⟩
  exact ⟨b₂, hb₂, heq'.trans heq⟩

theorem of_map (h : heap'.map (·.reqType) = heap.map (·.reqType)) : TypesKept heap heap' := by
  intro p b hb
  have hp := congrArg (·[p]?) h
  simp only [List.getElem?_map, hb, Option.map_some] at hp
  exact Option.map_eq_some_iff.1 hp

theorem of_frame (h : ∀ q < heap.length, heap'[q]? = heap[q]?) : TypesKept heap heap' := by
  intro p b hb
  exact ⟨b, (h p (List.getElem?_eq_some_iff.1 hb).1).trans hb, rfl⟩

theorem append (heap new : Heap cfg) : TypesKept heap (heap ++ new) :=
  of_frame fun _ hq => List.getElem?_append_left hq

theorem set {p : ℕ} {b b' : RequestBatch cfg} (hb : heap[p]? = some b)
    (htype : b'.reqType = b.reqType) : TypesKept heap (heap.set p b') := by
  intro q c hc
  by_cases hpq : p = q
  · subst hpq
    rw [hb] at hc
    cases hc
    exact ⟨b', List.getElem?_set_self (List.getElem?_eq_some_iff.1 hb).1, htype⟩
  · exact ⟨c, by rw [List.getElem?_set_ne hpq]; exact hc, rfl⟩

theorem modifyPool (heap : Heap cfg) (p : ℕ) (f : ReadWritePool → ReadWritePool) :
    TypesKept heap (heap.modifyPool p f) := by
  refine of_map (List.ext_getElem? fun q => ?_)
  simp only [Heap.modifyPool, List.getElem?_map, List.getElem?_modify]
  cases heap[q]? with
  | none => rfl
  | some b =>
      by_cases hpq : p = q
      · simp [hpq]
      · simp [hpq]

theorem insertReadWrite {mem : Memory} {p buffer : ℕ} {clientSockFd : ℤ} {reqType : RequestType}
    (h : heap.insertReadWrite mem p buffer clientSockFd reqType = .ok heap') :
    TypesKept heap heap' := by
  rcases Heap.insertReadWrite_cases h with ⟨b, pool, hb, -, rfl⟩
  exact .set hb rfl

end TypesKept

end RingDB
