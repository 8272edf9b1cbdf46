import RingDB.Config
import RingDB.Core.Search

/-!
# Requests and the pools that hold them

A `ConnectionRequest` names a client and the socket buffer that holds its request: five bytes of
request type, `KEY_LENGTH` bytes of key, `VALUE_LENGTH` bytes of value.  A `ReadWritePool` is the
array of requests of one batch, kept sorted by key; the keys are read through the buffers, so
every operation takes the memory that holds them.
-/

namespace RingDB

open Core

inductive RequestType where
  | accept
  | recv
  | send
  | read
  | write
  | compaction
  deriving DecidableEq, Repr

structure ConnectionRequest where
  reqType : RequestType
  /-- The batch that the entry belongs to, as an object number. -/
  reqBatchRef : ℕ
  clientSockFd : ℤ
  /-- The address of the client's socket buffer. -/
  buffer : ℕ
  deriving DecidableEq, Repr

/-- The key of the request in `buffer`. -/
def keyAt (cfg : Config) (mem : Memory) (buffer : ℕ) : Bytes :=
  bytesAt mem (buffer + 5) cfg.keyLength

@[simp] theorem length_keyAt (cfg : Config) (mem : Memory) (buffer : ℕ) :
    (keyAt cfg mem buffer).length = cfg.keyLength := length_bytesAt ..

/-- What identifies a request: its buffer and its client. -/
def ConnectionRequest.payload (c : ConnectionRequest) : ℕ × ℤ := (c.buffer, c.clientSockFd)

structure ReadWritePool where
  /-- `data[0 .. length)` -/
  entries : List ConnectionRequest := []
  numSent : ℕ := 0
  presentInLevel : Bool := false
  deriving DecidableEq, Repr

namespace ReadWritePool

variable (cfg : Config) (mem : Memory)

/-- The comparison of the two binary searches: is the key of entry `j` below `key`?  The array has
`PAGE_SIZE` slots, but only the first `length` of them were ever set. -/
def keyBelow (pool : ReadWritePool) (key : Bytes) (j : ℕ) : Except Fault Bool :=
  match pool.entries[j]? with
  | none => .error .wildPointer
  | some c => .ok (memcmp (keyAt cfg mem c.buffer) key == .lt)

/-- The shifting loop of `insert_read_write`: the carried entry is stored and the one it displaces
is carried on.  Of the displaced entry the loop copies every field but `req_batch_ref`, which
keeps the value carried before. -/
def shiftRight (carried : ConnectionRequest) : List ConnectionRequest → List ConnectionRequest
  | [] => [carried]
  | c :: cs => carried :: shiftRight { c with reqBatchRef := carried.reqBatchRef } cs

/-- `insert_read_write`: binary search for the first entry that is not below the new key, and
insertion there.  The array is allocated with `PAGE_SIZE` slots. -/
def insertReadWrite (pool : ReadWritePool) (conn : ConnectionRequest) :
    Except Fault ReadWritePool :=
  if pool.entries.length < cfg.pageSize then do
    let left ← bisect (pool.keyBelow cfg mem (keyAt cfg mem conn.buffer)) (· + 1)
      pool.entries.length 0 pool.entries.length
    pure { pool with
      entries := pool.entries.take left ++ shiftRight conn (pool.entries.drop left) }
  else .error .outOfBounds

/-- An `unsigned int` read as an `int`. -/
def toInt (n : ℕ) : ℤ := if n < 2 ^ 31 then n else (n : ℤ) - 2 ^ 32

/-- An `int` converted to `unsigned int`. -/
def toUint (i : ℤ) : ℕ := (i % 2 ^ 32).toNat

/-- `find_index_starting_from`.  `buffer` is the array that the pointer points into, from the
pointer on; the key it is compared with begins five bytes further. -/
def findIndexStartingFrom (pool : ReadWritePool) (start : ℕ) (buffer : Bytes) :
    Except Fault ℤ := do
  let left ← bisect
    (fun j => do
      let key ← readAt buffer 5 cfg.keyLength
      pool.keyBelow cfg mem key j)
    (· + 1) (pool.entries.length - start) start pool.entries.length
  if left = pool.entries.length then pure (-1)
  else if left = 0 then
    match pool.entries[0]? with
    | none => .error .wildPointer
    | some c => do
        let key ← readAt buffer 5 cfg.keyLength
        if memcmp (keyAt cfg mem c.buffer) key ≠ .eq then pure (-1) else pure (toInt left)
  else pure (toInt left)

/-- `remove_via_index`: the entry stays, its client is forgotten. -/
def removeViaIndex (pool : ReadWritePool) (index : ℕ) : ReadWritePool :=
  { pool with
    entries := pool.entries.modify index fun c => { c with clientSockFd := -1 } }

/-! ## Insertion adds one request and loses none -/

variable {cfg mem}

/-- What the shifting loop does to every part of the entries but `req_batch_ref`: it inserts. -/
theorem shiftRight_map {α : Type} {f : ConnectionRequest → α}
    (hf : ∀ c r, f { c with reqBatchRef := r } = f c) (carried : ConnectionRequest)
    (cs : List ConnectionRequest) : (shiftRight carried cs).map f = f carried :: cs.map f := by
  induction cs generalizing carried with
  | nil => rfl
  | cons c cs ih => simp [shiftRight, ih, hf]

/-- An insertion that has an outcome: the place it found, and the entries after it. -/
theorem insertReadWrite_cases {pool pool' : ReadWritePool} {conn : ConnectionRequest}
    (h : pool.insertReadWrite cfg mem conn = .ok pool') :
    ∃ left, bisect (pool.keyBelow cfg mem (keyAt cfg mem conn.buffer)) (· + 1)
        pool.entries.length 0 pool.entries.length = .ok left
      ∧ pool' = { pool with
        entries := pool.entries.take left ++ shiftRight conn (pool.entries.drop left) } := by
  unfold insertReadWrite at h
  split_ifs at h
  rcases bind_eq_ok.1 h with ⟨left, hleft, h⟩
  cases h
  exact ⟨left, hleft, rfl⟩

/-- The entries after an insertion: the new one among the old ones. -/
theorem insertReadWrite_map {α : Type} {f : ConnectionRequest → α}
    (hf : ∀ c r, f { c with reqBatchRef := r } = f c) {pool pool' : ReadWritePool}
    {conn : ConnectionRequest} (h : pool.insertReadWrite cfg mem conn = .ok pool') :
    (pool'.entries.map f).Perm (f conn :: pool.entries.map f) := by
  rcases insertReadWrite_cases h with ⟨left, -, rfl⟩
  show ((pool.entries.take left ++ shiftRight conn (pool.entries.drop left)).map f).Perm _
  rw [List.map_append, shiftRight_map hf]
  refine List.perm_middle.trans (List.Perm.of_eq ?_)
  rw [← List.map_append, List.take_append_drop]

/-- The payloads after an insertion: the new one among the old ones. -/
theorem insertReadWrite_payload {pool pool' : ReadWritePool} {conn : ConnectionRequest}
    (h : pool.insertReadWrite cfg mem conn = .ok pool') :
    (pool'.entries.map ConnectionRequest.payload).Perm
      (conn.payload :: pool.entries.map ConnectionRequest.payload) :=
  insertReadWrite_map (fun _ _ => rfl) h

/-- The shifting loop gives every entry it touches the reference of the new one. -/
theorem shiftRight_reqBatchRef {carried c : ConnectionRequest} {cs : List ConnectionRequest}
    (h : c ∈ shiftRight carried cs) : c.reqBatchRef = carried.reqBatchRef := by
  induction cs generalizing carried with
  | nil =>
      rw [shiftRight, List.mem_singleton] at h
      rw [h]
  | cons d cs ih =>
      rw [shiftRight, List.mem_cons] at h
      rcases h with rfl | h
      · rfl
      · have hrest := ih h
        exact hrest

theorem insertReadWrite_length {pool pool' : ReadWritePool} {conn : ConnectionRequest}
    (h : pool.insertReadWrite cfg mem conn = .ok pool') :
    pool'.entries.length = pool.entries.length + 1 := by
  simpa using (insertReadWrite_payload h).length_eq

/-- There is room for `PAGE_SIZE` requests. -/
theorem insertReadWrite_ok {pool : ReadWritePool} (conn : ConnectionRequest)
    (h : pool.entries.length < cfg.pageSize) :
    ∃ pool', pool.insertReadWrite cfg mem conn = .ok pool' := by
  have hb : ∀ j, 0 ≤ j → j < pool.entries.length →
      ∃ b, pool.keyBelow cfg mem (keyAt cfg mem conn.buffer) j = .ok b := by
    intro j _ hj
    simp only [keyBelow, List.getElem?_eq_getElem hj]
    exact ⟨_, rfl⟩
  rcases @bisect_ok _ pool.entries.length _ _ (Nat.zero_le _) hb with ⟨pos, hpos, -⟩
  rw [insertReadWrite, if_pos h, hpos]
  exact ⟨_, rfl⟩

end ReadWritePool

end RingDB
