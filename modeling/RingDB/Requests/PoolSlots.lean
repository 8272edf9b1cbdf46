import RingDB.Requests.Pool

/-!
# The array under a pool

`ReadWritePool::insert_read_write` as it works on memory: `data` is allocated with `PAGE_SIZE` slots
at the first insertion, and `conn_req` is a pointer into it.  A request with the largest key goes to
the slot behind the one that the binary search looked at last; any other request is put where the
search ended, and the requests from there on are moved up by one slot, field by field, through
`conn_req2` and `conn_req3`.

`Represents` relates the array to the list of `ReadWritePool`, and **`insertReadWrite_represents`**
says that both kinds of insertion are the one of that list.
-/

namespace RingDB

open Core

/-- `data` and `length`.  A slot that was not filled yet holds whatever the allocator left there. -/
structure PoolSlots where
  data : List ConnectionRequest := []
  length : ℕ := 0
  deriving DecidableEq, Repr

namespace PoolSlots

variable (cfg : Config) (mem : Memory)

/-- The binary search over the slots: `left` and `conn_req` after it. -/
def search (data : List ConnectionRequest) (key : Bytes) :
    ℕ → ℕ → ℕ → ℕ → Except Fault (ℕ × ℕ)
  | 0, left, _, connReq => .ok (left, connReq)
  | fuel + 1, left, right, connReq =>
      if left < right then
        match data[(left + right) / 2]? with
        | none => .error .outOfBounds
        | some c =>
            if memcmp (keyAt cfg mem c.buffer) key = .lt then
              search data key fuel ((left + right) / 2 + 1) right ((left + right) / 2)
            else search data key fuel left ((left + right) / 2) ((left + right) / 2)
      else .ok (left, connReq)

/-- The four assignments to the fields of `*conn_req`. -/
def store (data : List ConnectionRequest) (connReq : ℕ) (c : ConnectionRequest) :
    Except Fault (List ConnectionRequest) :=
  if connReq < data.length then .ok (data.set connReq c) else .error .outOfBounds

/-- The loop that moves requests up, for `n` of them from `conn_req` on: `conn_req2` is stored, and
the request that was there becomes the next `conn_req2`.  Its `req_batch_ref` does not, which is
assigned to itself. -/
def shift : ℕ → ℕ → ConnectionRequest → List ConnectionRequest →
    Except Fault (List ConnectionRequest × ℕ × ConnectionRequest)
  | 0, connReq, connReq2, data => .ok (data, connReq, connReq2)
  | n + 1, connReq, connReq2, data => do
      match data[connReq]? with
      | none => .error .outOfBounds
      | some connReq3 =>
          let data ← store data connReq connReq2
          shift n (connReq + 1) { connReq3 with reqBatchRef := connReq2.reqBatchRef } data

/-- `insert_read_write`.  `allocated` is what `new ConnectionRequest[PAGE_SIZE]` returns. -/
def insertReadWrite (allocated : List ConnectionRequest) (pool : PoolSlots)
    (conn : ConnectionRequest) : Except Fault PoolSlots := do
  let data := if pool.length = 0 then allocated else pool.data
  let (left, connReq) ← search cfg mem data (keyAt cfg mem conn.buffer) pool.length 0 pool.length 0
  if left = pool.length then
    let data ← store data (if 0 < left then connReq + 1 else connReq) conn
    pure { data, length := pool.length + 1 }
  else
    let (data, connReq, connReq2) ← shift (pool.length - left) left conn data
    let data ← store data connReq connReq2
    pure { data, length := pool.length + 1 }

variable {cfg mem}

/-- The filled slots hold the requests of `pool`, in an array of `PAGE_SIZE` slots. -/
structure Represents (cfg : Config) (slots : PoolSlots) (pool : ReadWritePool) : Prop where
  length : slots.length = pool.entries.length
  filled : slots.data.take slots.length = pool.entries
  allocated : slots.length ≠ 0 → slots.data.length = cfg.pageSize

/-! ## The search -/

section

variable {data : List ConnectionRequest} {pool : ReadWritePool} {key : Bytes}

/-- The search of the slots is the search of the list, and where it ends at the upper end,
`conn_req` is one slot below. -/
theorem search_eq {fuel left right pos : ℕ} (connReq : ℕ)
    (hdata : data.take pool.entries.length = pool.entries) (hright : right ≤ pool.entries.length)
    (hfuel : right - left ≤ fuel)
    (h : bisect (pool.keyBelow cfg mem key) (· + 1) fuel left right = .ok pos) :
    ∃ connReq', search cfg mem data key fuel left right connReq = .ok (pos, connReq') ∧
      (left < right → pos = right → connReq' + 1 = right) ∧
      (right ≤ left → connReq' = connReq) := by
  induction fuel generalizing left right connReq with
  | zero =>
      cases h
      exact ⟨connReq, rfl, fun hlt => by omega, fun _ => rfl⟩
  | succ fuel ih =>
      rw [bisect_succ] at h
      rw [search]
      split_ifs at h ⊢ with hlt
      · have hin : (left + right) / 2 < pool.entries.length := by omega
        have hget : data[(left + right) / 2]? = some pool.entries[(left + right) / 2] := by
          rw [← List.getElem?_eq_getElem hin]
          conv_rhs => rw [← hdata]
          exact (List.getElem?_take_of_lt hin).symm
        simp only [hget]
        simp only [ReadWritePool.keyBelow, List.getElem?_eq_getElem hin] at h
        split_ifs with hbelow
        · simp only [hbelow, beq_self_eq_true] at h
          rcases @ih ((left + right) / 2 + 1) right ((left + right) / 2) hright (by omega) h
            with ⟨connReq', hsearch, hend, hstop⟩
          refine ⟨connReq', hsearch, fun _ hpos => ?_, fun hle => by omega⟩
          by_cases hmore : (left + right) / 2 + 1 < right
          · exact hend hmore hpos
          · rw [hstop (by omega)]
            omega
        · simp only [beq_eq_false_iff_ne.2 hbelow] at h
          rcases @ih left ((left + right) / 2) ((left + right) / 2) (by omega) (by omega) h
            with ⟨connReq', hsearch, -, -⟩
          have hle := (bisect_le (by omega) h).2
          exact ⟨connReq', hsearch, fun _ hpos => by omega, fun hle => by omega⟩
      · cases h
        exact ⟨connReq, rfl, fun hlt' => absurd hlt' hlt, fun _ => rfl⟩

end

/-! ## The shifting loop -/

section

variable {data : List ConnectionRequest} {c : ConnectionRequest}

theorem store_ok {connReq : ℕ} (h : connReq < data.length) :
    store data connReq c = .ok (data.set connReq c) := if_pos h

/-- Moving the requests of `moved` up by one slot, and storing what is carried at the end. -/
theorem shift_store (pre moved : List ConnectionRequest) {post : List ConnectionRequest}
    (hpost : post ≠ []) :
    ∃ data connReq connReq2, shift moved.length pre.length c (pre ++ (moved ++ post))
        = .ok (data, connReq, connReq2) ∧
      store data connReq connReq2
        = .ok (pre ++ (ReadWritePool.shiftRight c moved ++ post.tail)) := by
  induction moved generalizing pre c with
  | nil =>
      rcases post with _ | ⟨p, post⟩
      · exact absurd rfl hpost
      · refine ⟨_, _, _, rfl, ?_⟩
        rw [store_ok (by simp)]
        simp [ReadWritePool.shiftRight]
  | cons d moved ih =>
      have hget : (pre ++ (d :: moved ++ post))[pre.length]? = some d := by simp
      have hset : store (pre ++ (d :: moved ++ post)) pre.length c
          = .ok ((pre ++ [c]) ++ (moved ++ post)) := by
        rw [store_ok (by simp)]
        simp
      rcases ih (pre ++ [c]) (c := { d with reqBatchRef := c.reqBatchRef })
        with ⟨data, connReq, connReq2, hshift, hstore⟩
      refine ⟨data, connReq, connReq2, ?_, ?_⟩
      · rw [List.length_cons, shift]
        simp only [hget, hset, bind, Except.bind]
        rw [List.length_append] at hshift
        exact hshift
      · rw [hstore, ReadWritePool.shiftRight]
        simp

end

/-! ## The insertion -/

section

variable {slots : PoolSlots} {pool : ReadWritePool} {allocated data : List ConnectionRequest}

/-- The array that an insertion works on begins with the requests of the pool. -/
theorem Represents.array (hr : Represents cfg slots pool)
    (halloc : allocated.length = cfg.pageSize) :
    ∃ data, (if slots.length = 0 then allocated else slots.data) = data ∧
      data.length = cfg.pageSize ∧ data.take pool.entries.length = pool.entries := by
  refine ⟨_, rfl, ?_⟩
  split_ifs with hzero
  · have hnil : pool.entries = [] := List.length_eq_zero_iff.1 (hr.length ▸ hzero)
    exact ⟨halloc, by simp [hnil]⟩
  · exact ⟨hr.allocated hzero, hr.length ▸ hr.filled⟩

/-- One more slot is filled, and the others stay as they are. -/
theorem represents_of_filled {entries : List ConnectionRequest} {n : ℕ}
    (hlen : data.length = cfg.pageSize) (hroom : n < cfg.pageSize)
    (hentries : entries.length = n + 1) :
    Represents cfg ⟨entries ++ (data.drop n).tail, n + 1⟩ { pool with entries } where
  length := hentries.symm
  filled := by
    show List.take (n + 1) _ = _
    rw [← hentries, List.take_left]
  allocated := fun _ => by
    simp only [List.length_append, List.length_tail, List.length_drop, hentries, hlen]
    omega

/-- Storing behind the filled slots. -/
theorem store_behind (hfilled : data.take pool.entries.length = pool.entries)
    (hroom : pool.entries.length < data.length) (conn : ConnectionRequest) :
    store data pool.entries.length conn
      = .ok (pool.entries ++ [conn] ++ (data.drop pool.entries.length).tail) := by
  rw [store_ok hroom, List.set_eq_take_append_cons_drop, if_pos hroom, hfilled, List.tail_drop,
    List.append_assoc]
  rfl

/-- Shifting from `left` on, and storing what is carried at the end. -/
theorem shift_from (hfilled : data.take pool.entries.length = pool.entries)
    (hroom : pool.entries.length < data.length) {left : ℕ} (hleft : left ≤ pool.entries.length)
    (conn : ConnectionRequest) :
    ∃ data' connReq connReq2,
      shift (pool.entries.length - left) left conn data = .ok (data', connReq, connReq2) ∧
      store data' connReq connReq2
        = .ok (pool.entries.take left ++ ReadWritePool.shiftRight conn (pool.entries.drop left)
          ++ (data.drop pool.entries.length).tail) := by
  have hrest : data.drop pool.entries.length ≠ [] := by
    rw [← List.length_pos_iff, List.length_drop]
    omega
  have harray : pool.entries.take left
      ++ (pool.entries.drop left ++ data.drop pool.entries.length) = data := by
    rw [← List.append_assoc, List.take_append_drop]
    conv_rhs => rw [← List.take_append_drop pool.entries.length data, hfilled]
  have hmoved : (pool.entries.drop left).length = pool.entries.length - left := List.length_drop ..
  have hbelow : (pool.entries.take left).length = left := List.length_take_of_le hleft
  rcases shift_store (c := conn) (pool.entries.take left) (pool.entries.drop left) hrest
    with ⟨data', connReq, connReq2, hshift, hstore⟩
  rw [hmoved, hbelow, harray] at hshift
  rw [← List.append_assoc] at hstore
  exact ⟨data', connReq, connReq2, hshift, hstore⟩

/-- **Both kinds of insertion** are the insertion into the list. -/
theorem insertReadWrite_represents (hr : Represents cfg slots pool)
    (halloc : allocated.length = cfg.pageSize) (conn : ConnectionRequest)
    (hroom : pool.entries.length < cfg.pageSize) :
    ∃ slots' pool', slots.insertReadWrite cfg mem allocated conn = .ok slots' ∧
      pool.insertReadWrite cfg mem conn = .ok pool' ∧ Represents cfg slots' pool' := by
  obtain ⟨pool', hins⟩ : ∃ pool', pool.insertReadWrite cfg mem conn = .ok pool' :=
    ReadWritePool.insertReadWrite_ok conn hroom
  rcases ReadWritePool.insertReadWrite_cases hins with ⟨left, hleft, rfl⟩
  rcases hr.array halloc with ⟨data, hdata, hlen, hfilled⟩
  rcases search_eq 0 hfilled (Nat.le_refl _) (Nat.sub_le _ _) hleft
    with ⟨connReq, hsearch, hend, hstop⟩
  have hin : pool.entries.length < data.length := hlen ▸ hroom
  have hbound := (bisect_le (Nat.zero_le _) hleft).2
  have hnew := ReadWritePool.insertReadWrite_length hins
  unfold insertReadWrite
  rw [hdata, hr.length]
  simp only [hsearch, bind, Except.bind]
  by_cases hlast : left = pool.entries.length
  · subst hlast
    have hplace : (if 0 < pool.entries.length then connReq + 1 else connReq)
        = pool.entries.length := by
      split_ifs with hpos
      · exact hend hpos rfl
      · rw [hstop (by omega)]
        omega
    have hentries : pool.entries.take pool.entries.length
        ++ ReadWritePool.shiftRight conn (pool.entries.drop pool.entries.length)
          = pool.entries ++ [conn] := by
      simp [ReadWritePool.shiftRight]
    rw [if_pos rfl, hplace, store_behind hfilled hin, ← hentries]
    exact ⟨_, _, rfl, hins, represents_of_filled hlen hroom hnew⟩
  · rcases shift_from hfilled hin hbound conn with ⟨data', connReq', connReq2, hshift, hstore⟩
    simp only [if_neg hlast, hshift, hstore]
    exact ⟨_, _, rfl, hins, represents_of_filled hlen hroom hnew⟩

end

end PoolSlots

end RingDB
