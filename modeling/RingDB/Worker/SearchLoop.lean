import RingDB.Worker.FileTree
import RingDB.Worker.RequestTraversal

/-!
# Whether the search loop ends

`try_sstable_tree_read_in_memory` keeps the place that the search has come to twice, in
`desired_sstable_offset` and in the slot on top of the stack.  A pass that leaves a buffer without
having found the key stores the new place in the one, and the next pass takes the old place from the
other.  Nothing else changes between the two, so once that has happened with a place that is not
behind the end of the file, every pass is like the one before.

* `readPassWith`, `readLoopWith` — the loop over a stack that is read through a parameter; with
  `Stack.top` they are `readPass` and `readLoop`.
* `passes` — the state that pass `k` begins with, if the loop comes to it.
* `descend`, `LeavesBuffer` — where the search path of a key leaves the entries of a buffer.
* `Called` — the states that the function is called in.
* **`loopEnds_iff`** — the loop ends if and only if the path in the first buffer does not leave it
  below the end of the file.
-/

namespace RingDB

open Core

namespace SSTableInfo

variable {cfg : Config}

section Model

variable (top : Stack cfg.maxSstableHeight → Except Fault Quad)

/-- `continueCached`, with the top of the stack read by `top`. -/
def continueCachedWith (heap : Heap cfg) (mem : Memory) (t : SSTableInfo cfg)
    (location : CacheLocation) (cur : ℕ) : Except Fault (ReadState cfg) := do
  let (index, res) ← t.searchCached heap mem location cur
  match res with
  | none => .error .uninitialised
  | some .eq => do
      let pool ← t.pool heap
      let buffer ← requestBuffer pool cur
      let entries := t.cache.buffers.getD location.bufferId []
      let value ← readAt entries (index * cfg.memtableEntryLength + cfg.keyLength) cfg.valueLength
      let mem := store mem (buffer + 5 + cfg.keyLength) value
      let t ← t.moveDownToChildrenWith top heap mem
      pure { table := t, mem }
  | some _ =>
      pure { table := { t with desiredSstableOffset := (index + location.left) % 2 ^ 64 }, mem }

/-- `readPass`, with the top of the stack read by `top`. -/
def readPassWith (heap : Heap cfg) (mem : Memory) (t : SSTableInfo cfg) :
    Except Fault (ReadState cfg) :=
  if t.cache.helper.curMinInvalidOffset ≤ t.desiredSstableOffset then do
    let t ← t.moveDownToChildrenWith top heap mem
    pure { table := t, mem }
  else do
    let q ← top t.stack
    let t := { t with desiredSstableOffset := q.1 }
    let _ ← t.pool heap
    let location ← t.cache.helper.getBufferInfo q.1
    if location.left = sizeMax then do
      let (t, reads) ← t.issueRead
      pure { table := t, mem, issued := some reads }
    else t.continueCachedWith top heap mem location q.2.1

/-- `readLoop`, with the top of the stack read by `top`. -/
def readLoopWith (heap : Heap cfg) : ℕ → Memory → SSTableInfo cfg → Except Fault (ReadState cfg)
  | 0, _, _ => .error .diverges
  | fuel + 1, mem, t => do
      let r ← t.readPassWith top heap mem
      if r.table.stack.empty || r.table.waitingOnIo then pure r
      else readLoopWith heap fuel r.mem r.table

/-- Memory and the SSTable after `k` passes, if the loop makes another one. -/
def passes (heap : Heap cfg) : ℕ → Memory × SSTableInfo cfg → Option (Memory × SSTableInfo cfg)
  | 0, s => some s
  | k + 1, s =>
      match s.2.readPassWith top heap s.1 with
      | .error _ => none
      | .ok r =>
          if r.table.stack.empty || r.table.waitingOnIo then none
          else passes heap k (r.mem, r.table)

/-- The loop makes finitely many passes, and none of those that it goes on behind leaves everything
as it was. -/
structure LoopEnds (heap : Heap cfg) (mem : Memory) (t : SSTableInfo cfg) : Prop where
  finite : ∃ k, passes top heap k (mem, t) = none
  progress : ∀ k s s', passes top heap k (mem, t) = some s →
    passes top heap (k + 1) (mem, t) = some s' → s' ≠ s

end Model

/-! ## The loop that the source has -/

section

variable {heap : Heap cfg} {mem : Memory} {t : SSTableInfo cfg}

theorem readPassWith_top (heap : Heap cfg) (mem : Memory) (t : SSTableInfo cfg) :
    t.readPassWith Stack.top heap mem = t.readPass heap mem := rfl

theorem readLoopWith_top (heap : Heap cfg) (fuel : ℕ) (mem : Memory) (t : SSTableInfo cfg) :
    readLoopWith Stack.top heap fuel mem t = readLoop heap fuel mem t := by
  induction fuel generalizing mem t with
  | zero => rfl
  | succ fuel ih =>
      simp only [readLoopWith, readLoop, readPassWith_top, ih]

variable {top : Stack cfg.maxSstableHeight → Except Fault Quad}

/-- The loop from its `k`th pass on. -/
theorem readLoopWith_of_passes {k : ℕ} {s s' : Memory × SSTableInfo cfg}
    (h : passes top heap k s = some s') (fuel : ℕ) :
    readLoopWith top heap (fuel + k) s.1 s.2 = readLoopWith top heap fuel s'.1 s'.2 := by
  induction k generalizing s with
  | zero =>
      cases h
      rfl
  | succ k ih =>
      rw [passes] at h
      rw [← Nat.add_assoc, readLoopWith]
      cases hpass : s.2.readPassWith top heap s.1 with
      | error f => simp only [hpass] at h; cases h
      | ok r =>
          simp only [hpass] at h
          split_ifs at h with hstop
          simp only [bind, Except.bind, if_neg hstop]
          exact ih h

/-- A loop that ends has emptied the stack or waits. -/
theorem readLoopWith_stops {fuel : ℕ} {r : ReadState cfg}
    (h : readLoopWith top heap fuel mem t = .ok r) :
    (r.table.stack.empty || r.table.waitingOnIo) = true := by
  induction fuel generalizing mem t with
  | zero => cases h
  | succ fuel ih =>
      rcases bind_eq_ok.1 h with ⟨r₁, -, h⟩
      split_ifs at h with hstop
      · cases h
        exact hstop
      · exact ih h

/-! ## What a pass leaves alone -/

theorem moveDownToChildrenWith_waiting {t' : SSTableInfo cfg}
    (h : t.moveDownToChildrenWith top heap mem = .ok t') : t'.waitingOnIo = t.waitingOnIo := by
  rcases bind_eq_ok.1 h with ⟨q, -, h⟩
  rcases bind_eq_ok.1 h with ⟨t₁, h₁, h⟩
  exact (pushIf_untouched h).2.trans (pushIf_untouched h₁).2

/-- The flag stays set. -/
theorem readPassWith_waiting {r : ReadState cfg} (hw : t.waitingOnIo = true)
    (h : t.readPassWith top heap mem = .ok r) : r.table.waitingOnIo = true := by
  unfold readPassWith at h
  split_ifs at h
  · rcases bind_eq_ok.1 h with ⟨t₁, h₁, ⟨⟩⟩
    exact (moveDownToChildrenWith_waiting h₁).trans hw
  · rcases bind_eq_ok.1 h with ⟨q, -, h⟩
    rcases bind_eq_ok.1 h with ⟨pool, -, h⟩
    rcases bind_eq_ok.1 h with ⟨location, -, h⟩
    split_ifs at h
    · rcases bind_eq_ok.1 h with ⟨⟨t₁, reads⟩, h₁, ⟨⟩⟩
      exact (issueRead_untouched h₁).2.1
    · rcases bind_eq_ok.1 h with ⟨⟨index, res⟩, -, h⟩
      rcases res with _ | _ | _ | _
      · cases h
      · cases h
        exact hw
      · rcases bind_eq_ok.1 h with ⟨pool', -, h⟩
        rcases bind_eq_ok.1 h with ⟨buffer, -, h⟩
        rcases bind_eq_ok.1 h with ⟨value, -, h⟩
        rcases bind_eq_ok.1 h with ⟨t₁, h₁, ⟨⟩⟩
        exact (moveDownToChildrenWith_waiting h₁).trans hw
      · cases h
        exact hw

/-- With the flag set there is one pass. -/
theorem passes_waiting (hw : t.waitingOnIo = true) (k : ℕ) :
    passes top heap (k + 1) (mem, t) = none := by
  rw [passes]
  cases hpass : t.readPassWith top heap mem with
  | error f => rfl
  | ok r => simp [readPassWith_waiting hw hpass]

end

/-! ## The search path in a buffer -/

/-- Where the search for `key` goes on behind entry `i` of a buffer of `numEntries` entries.  The
places are counted by an `unsigned int`. -/
def nextPlace (cfg : Config) (buffer key : Bytes) (numEntries i : ℕ) : Option ℕ :=
  if i < numEntries then
    match readAt buffer (i * cfg.memtableEntryLength) cfg.keyLength with
    | .error _ => none
    | .ok entry =>
        if entry = nulBytes cfg.keyLength then none
        else match memcmp entry key with
          | .eq => none
          | .gt => some ((2 * i + 1) % 2 ^ 32)
          | .lt => some ((2 * i + 2) % 2 ^ 32)
  else none

/-- The place on the search path that is `k` comparisons behind entry `i`. -/
def descend (cfg : Config) (buffer key : Bytes) (numEntries : ℕ) : ℕ → ℕ → Option ℕ
  | 0, i => some i
  | k + 1, i => (nextPlace cfg buffer key numEntries i).bind (descend cfg buffer key numEntries k)

/-- There is no entry at place `j`, or an empty one. -/
def EndsAt (cfg : Config) (buffer : Bytes) (numEntries j : ℕ) : Prop :=
  numEntries ≤ j ∨
    readAt buffer (j * cfg.memtableEntryLength) cfg.keyLength = .ok (nulBytes cfg.keyLength)

/-- The search path of `key` from entry `i` on ends at place `j`, after less than `fuel`
comparisons. -/
def Leaves (cfg : Config) (buffer key : Bytes) (numEntries fuel i j : ℕ) (res : Option Ordering) :
    Prop :=
  ∃ k, k < fuel ∧ descend cfg buffer key numEntries k i = some j ∧ EndsAt cfg buffer numEntries j ∧
    (k = 0 → ∃ o, o ≠ .eq ∧ res = some o)

section

variable {buffer key : Bytes} {n fuel i j : ℕ} {res : Option Ordering}

/-- A path that does not go on ends where it is, or nowhere. -/
theorem leaves_of_next_none (hnext : nextPlace cfg buffer key n i = none) :
    Leaves cfg buffer key n (fuel + 1) i j res
      ↔ EndsAt cfg buffer n i ∧ i = j ∧ ∃ o, o ≠ .eq ∧ res = some o := by
  constructor
  · rintro ⟨k, -, hd, he, hres⟩
    cases k with
    | zero =>
        cases hd
        exact ⟨he, rfl, hres rfl⟩
    | succ k => simp [descend, hnext] at hd
  · rintro ⟨he, rfl, hres⟩
    exact ⟨0, Nat.succ_pos _, rfl, he, fun _ => hres⟩

/-- A path that goes on ends where it goes on to end. -/
theorem leaves_of_next_some {i' : ℕ} {o : Ordering} (ho : o ≠ .eq)
    (hnext : nextPlace cfg buffer key n i = some i') (hends : ¬ EndsAt cfg buffer n i) :
    Leaves cfg buffer key n (fuel + 1) i j res ↔ Leaves cfg buffer key n fuel i' j (some o) := by
  constructor
  · rintro ⟨k, hk, hd, he, -⟩
    cases k with
    | zero =>
        cases hd
        exact absurd he hends
    | succ k =>
        rw [descend, hnext] at hd
        exact ⟨k, Nat.lt_of_succ_lt_succ hk, hd, he, fun _ => ⟨o, ho, rfl⟩⟩
  · rintro ⟨k, hk, hd, he, -⟩
    refine ⟨k + 1, Nat.succ_lt_succ hk, ?_, he, fun h => absurd h (Nat.succ_ne_zero k)⟩
    rw [descend, hnext]
    exact hd

/-- The loop inside a buffer reports that it did not find the key if and only if the path ends. -/
theorem searchBuffer_misses_iff :
    (∃ o, o ≠ .eq ∧ searchBuffer cfg buffer (.ok key) n fuel i res = .ok (j, some o))
      ↔ Leaves cfg buffer key n fuel i j res := by
  induction fuel generalizing i res with
  | zero =>
      constructor
      · rintro ⟨o, -, h⟩
        cases h
      · rintro ⟨k, hk, -⟩
        omega
  | succ fuel ih =>
      rw [searchBuffer]
      by_cases hlt : i < n
      · rw [if_pos hlt]
        cases hread : readAt buffer (i * cfg.memtableEntryLength) cfg.keyLength with
        | error f =>
            have hnext : nextPlace cfg buffer key n i = none := by simp [nextPlace, hread]
            rw [leaves_of_next_none hnext]
            simp [bind, Except.bind, EndsAt, hread, Nat.not_le.2 hlt]
        | ok entry =>
            by_cases hnul : entry = nulBytes cfg.keyLength
            · have hnext : nextPlace cfg buffer key n i = none := by simp [nextPlace, hread, hnul]
              rw [leaves_of_next_none hnext]
              simp [bind, Except.bind, EndsAt, hread, hnul, pure, Except.pure,
                and_left_comm]
            · have hends : ¬ EndsAt cfg buffer n i := by
                simp [EndsAt, hread, hnul, Nat.not_le.2 hlt]
              simp only [bind, Except.bind, if_neg hnul]
              cases hcmp : memcmp entry key with
              | eq =>
                  have hnext : nextPlace cfg buffer key n i = none := by
                    simp [nextPlace, hread, hnul, hcmp]
                  rw [leaves_of_next_none hnext]
                  simp [hends, pure, Except.pure]
              | gt =>
                  have hnext : nextPlace cfg buffer key n i = some ((2 * i + 1) % 2 ^ 32) := by
                    simp [nextPlace, hlt, hread, hnul, hcmp]
                  rw [leaves_of_next_some (o := .gt) (by simp) hnext hends]
                  exact ih
              | lt =>
                  have hnext : nextPlace cfg buffer key n i = some ((2 * i + 2) % 2 ^ 32) := by
                    simp [nextPlace, hlt, hread, hnul, hcmp]
                  rw [leaves_of_next_some (o := .lt) (by simp) hnext hends]
                  exact ih
      · have hnext : nextPlace cfg buffer key n i = none := if_neg hlt
        rw [if_neg hlt, leaves_of_next_none hnext]
        simp [EndsAt, Nat.not_lt.1 hlt, pure, Except.pure, and_left_comm]

end

/-! ## The passes of a search that is begun -/

/-- The number of entries in the range at `location`. -/
def entriesIn (cfg : Config) (location : CacheLocation) : ℕ :=
  (location.right - location.left) / cfg.memtableEntryLength % 2 ^ 32

/-- The beginning of the file is in a buffer, and the search path of the key of the request in the
middle of the batch leaves that buffer for offset `x`. -/
def LeavesBuffer (heap : Heap cfg) (mem : Memory) (t : SSTableInfo cfg) (x : ℕ) : Prop :=
  ∃ pool c location buffer j, t.pool heap = .ok pool ∧
    pool.entries[pool.entries.length / 2]? = some c ∧
    t.cache.helper.getBufferInfo 0 = .ok location ∧ location.left ≠ sizeMax ∧
    t.cache.buffers[location.bufferId]? = some buffer ∧
    Leaves cfg buffer (keyAt cfg mem c.buffer) (entriesIn cfg location) (entriesIn cfg location + 1)
      0 j none ∧
    x = (j + location.left) % 2 ^ 64

/-- On the stack is the slot that the worker pushed, and the SSTable does not wait. -/
structure Begun (heap : Heap cfg) (t : SSTableInfo cfg) (pool : ReadWritePool) : Prop where
  pool_eq : t.pool heap = .ok pool
  top_eq : t.stack.topLifo = .ok (0, pool.entries.length / 2, 0, pool.entries.length)
  back_eq : t.stack.back = 1
  waiting : t.waitingOnIo = false

section

variable {heap : Heap cfg} {mem : Memory} {t : SSTableInfo cfg} {pool : ReadWritePool}

theorem searchCached_misses_iff (hpool : t.pool heap = .ok pool) {location : CacheLocation}
    {cur j : ℕ} :
    (∃ o, o ≠ .eq ∧
        { t with desiredSstableOffset := 0 }.searchCached heap mem location cur = .ok (j, some o))
      ↔ ∃ c buffer, pool.entries[cur]? = some c ∧
        t.cache.buffers[location.bufferId]? = some buffer ∧
        Leaves cfg buffer (keyAt cfg mem c.buffer) (entriesIn cfg location)
          (entriesIn cfg location + 1) 0 j none := by
  have hpool' : ({ t with desiredSstableOffset := 0 } : SSTableInfo cfg).pool heap = .ok pool :=
    hpool
  simp only [searchCached, hpool', bind, Except.bind, Nat.zero_sub, Nat.zero_mod]
  cases hbuffer : t.cache.buffers[location.bufferId]? with
  | none => simp
  | some buffer =>
      cases hc : pool.entries[cur]? with
      | none =>
          simp only [requestBuffer, hc, Functor.map, Except.map]
          constructor
          · rintro ⟨o, -, h⟩
            exact absurd (Worker.searchBuffer_noKey h) (by simp)
          · rintro ⟨c, -, h, -⟩
            cases h
      | some c =>
          simp only [requestBuffer, hc, Functor.map, Except.map]
          refine searchBuffer_misses_iff.trans ?_
          simp [entriesIn]

/-- **A pass that the loop goes on behind** has left the buffer, and has changed nothing but the
offset. -/
theorem readPassWith_goesOn (hb : Begun heap t pool)
    (hoffset : t.desiredSstableOffset < t.cache.helper.curMinInvalidOffset) {r : ReadState cfg}
    (h : t.readPassWith Stack.topLifo heap mem = .ok r)
    (hstop : (r.table.stack.empty || r.table.waitingOnIo) = false) :
    ∃ x, LeavesBuffer heap mem t x ∧ r.mem = mem ∧
      r.table = { t with desiredSstableOffset := x } := by
  rcases Bool.or_eq_false_iff.1 hstop with ⟨hfull, hrunning⟩
  rw [readPassWith, if_neg (Nat.not_le.2 hoffset)] at h
  rcases bind_eq_ok.1 h with ⟨q, hq, h⟩
  obtain rfl := Except.ok.inj (hb.top_eq.symm.trans hq)
  rcases bind_eq_ok.1 h with ⟨pool', -, h⟩
  rcases bind_eq_ok.1 h with ⟨location, hlocation, h⟩
  split_ifs at h with hleft
  · rcases bind_eq_ok.1 h with ⟨⟨t₁, reads⟩, hissue, ⟨⟩⟩
    rw [(issueRead_untouched hissue).2.1] at hrunning
    cases hrunning
  · rcases bind_eq_ok.1 h with ⟨⟨j, res⟩, hsearch, h⟩
    have hleaves : ∀ o, o ≠ .eq → res = some o → LeavesBuffer heap mem t
        ((j + location.left) % 2 ^ 64) := by
      rintro o ho rfl
      rcases (searchCached_misses_iff hb.pool_eq).1 ⟨o, ho, hsearch⟩
        with ⟨c, buffer, hc, hbuffer, hleaves⟩
      exact ⟨pool, c, location, buffer, j, hb.pool_eq, hc, hlocation, hleft, hbuffer, hleaves, rfl⟩
    rcases res with _ | _ | _ | _
    · cases h
    · cases h
      exact ⟨_, hleaves .lt (by simp) rfl, rfl, rfl⟩
    · -- the key was found, and the request has no children
      rcases bind_eq_ok.1 h with ⟨pool', -, h⟩
      rcases bind_eq_ok.1 h with ⟨buffer, -, h⟩
      rcases bind_eq_ok.1 h with ⟨value, -, h⟩
      rcases bind_eq_ok.1 h with ⟨t₁, hmove, ⟨⟩⟩
      obtain rfl := Except.ok.inj (hmove.symm.trans
        (moveDownToChildrenWith_root (t := { t with desiredSstableOffset := 0 }) hb.top_eq))
      simp [Stack.empty, Stack.popTop_back_of_one hb.back_eq] at hfull
    · cases h
      exact ⟨_, hleaves .gt (by simp) rfl, rfl, rfl⟩

/-- A pass that leaves the buffer. -/
theorem readPassWith_leaves (hb : Begun heap t pool)
    (hoffset : t.desiredSstableOffset < t.cache.helper.curMinInvalidOffset) {x : ℕ}
    (h : LeavesBuffer heap mem t x) :
    t.readPassWith Stack.topLifo heap mem
      = .ok { table := { t with desiredSstableOffset := x }, mem } := by
  rcases h with ⟨pool', c, location, buffer, j, hpool, hc, hlocation, hleft, hbuffer, hleaves, rfl⟩
  obtain rfl := Except.ok.inj (hb.pool_eq.symm.trans hpool)
  rcases (searchCached_misses_iff hpool).2 ⟨c, buffer, hc, hbuffer, hleaves⟩ with ⟨o, ho, hsearch⟩
  have hpool' : ({ t with desiredSstableOffset := 0 } : SSTableInfo cfg).pool heap = .ok pool :=
    hpool
  rw [readPassWith, if_neg (Nat.not_le.2 hoffset)]
  simp only [hb.top_eq, hpool', hlocation, bind, Except.bind, if_neg hleft, continueCachedWith,
    hsearch]
  cases o with
  | eq => exact absurd rfl ho
  | lt => rfl
  | gt => rfl

/-- A request that leaves the stack empty is the last one. -/
theorem passes_of_move (hoffset : t.cache.helper.curMinInvalidOffset ≤ t.desiredSstableOffset)
    {stack : Stack cfg.maxSstableHeight} (hback : stack.back = 0)
    (hmove : t.moveDownToChildrenWith Stack.topLifo heap mem = .ok { t with stack }) (k : ℕ) :
    passes Stack.topLifo heap (k + 1) (mem, t) = none := by
  have hpass : t.readPassWith Stack.topLifo heap mem = .ok { table := { t with stack }, mem } := by
    simp only [readPassWith, if_pos hoffset, hmove, bind, Except.bind, pure, Except.pure]
  simp [passes, hpass, Stack.empty, hback]

/-- A pass behind the end of the file ends the only request. -/
theorem passes_behind_end (hb : Begun heap t pool)
    (hoffset : t.cache.helper.curMinInvalidOffset ≤ t.desiredSstableOffset) (k : ℕ) :
    passes Stack.topLifo heap (k + 1) (mem, t) = none :=
  passes_of_move hoffset (Stack.popTop_back_of_one hb.back_eq)
    (moveDownToChildrenWith_root hb.top_eq) k

/-- Only the offset tells one pass from the next. -/
theorem Begun.setOffset (hb : Begun heap t pool) (x : ℕ) :
    Begun heap { t with desiredSstableOffset := x } pool :=
  ⟨hb.pool_eq, hb.top_eq, hb.back_eq, hb.waiting⟩

theorem passes_leaves (hb : Begun heap t pool)
    (hoffset : t.desiredSstableOffset < t.cache.helper.curMinInvalidOffset) {x : ℕ}
    (h : LeavesBuffer heap mem t x) (k : ℕ) :
    passes Stack.topLifo heap (k + 1) (mem, t)
      = passes Stack.topLifo heap k (mem, { t with desiredSstableOffset := x }) := by
  rw [passes]
  simp [readPassWith_leaves hb hoffset h, Stack.empty, hb.back_eq, hb.waiting]

/-- **The same pass over and over**, where the path leaves the buffer below the end of the file. -/
theorem passes_repeat (hb : Begun heap t pool) {x : ℕ} (h : LeavesBuffer heap mem t x)
    (hoffset : t.desiredSstableOffset < t.cache.helper.curMinInvalidOffset)
    (hx : x < t.cache.helper.curMinInvalidOffset) (k : ℕ) :
    passes Stack.topLifo heap (k + 1) (mem, t)
      = some (mem, { t with desiredSstableOffset := x }) := by
  induction k generalizing t with
  | zero => exact passes_leaves hb hoffset h 0
  | succ k ih =>
      rw [passes_leaves hb hoffset h]
      exact ih (hb.setOffset x) h hx hx

/-- Otherwise the second pass is the last one. -/
theorem passes_two (hb : Begun heap t pool)
    (hno : ∀ x, LeavesBuffer heap mem t x → t.cache.helper.curMinInvalidOffset ≤ x) (k : ℕ) :
    passes Stack.topLifo heap (k + 2) (mem, t) = none := by
  by_cases hoffset : t.desiredSstableOffset < t.cache.helper.curMinInvalidOffset
  · cases hpass : t.readPassWith Stack.topLifo heap mem with
    | error f => simp [passes, hpass]
    | ok r =>
        by_cases hstop : (r.table.stack.empty || r.table.waitingOnIo) = true
        · rw [passes]
          simp only [hpass, if_pos hstop]
        · rw [Bool.not_eq_true] at hstop
          rcases readPassWith_goesOn hb hoffset hpass hstop with ⟨x, hx, -⟩
          rw [passes_leaves hb hoffset hx]
          exact passes_behind_end (hb.setOffset x) (hno x hx) k
  · exact passes_behind_end hb (Nat.not_lt.1 hoffset) (k + 1)

end

/-! ## The calls -/

/-- The SSTable as one of the calls finds it, with the batches and the memory of that moment.  The
first call of a search is the worker's; another one follows when the reads of a call that left the
flag set are reported, and finds the stack and the flag as that one left them. -/
inductive Called : Heap cfg → Memory → SSTableInfo cfg → Prop where
  | begun {heap : Heap cfg} {mem : Memory} {t : SSTableInfo cfg} {pool : ReadWritePool}
      {stack : Stack cfg.maxSstableHeight} : t.pool heap = .ok pool → t.waitingOnIo = false →
      t.stack.back = 0 →
      t.stack.pushTop (0, pool.entries.length / 2, 0, pool.entries.length) = .ok stack →
      Called heap mem { t with desiredSstableOffset := 0, stack }
  | resumed {heap heap' : Heap cfg} {mem mem' : Memory} {t t' : SSTableInfo cfg} {fuel : ℕ}
      {r : ReadState cfg} : Called heap mem t →
      readLoopWith Stack.topLifo heap fuel mem t = .ok r → r.table.stack.empty = false →
      t'.stack = r.table.stack → t'.waitingOnIo = r.table.waitingOnIo → Called heap' mem' t'

/-- Either the flag is set, or the search is begun with the offset `0`. -/
theorem Called.cases {heap : Heap cfg} {mem : Memory} {t : SSTableInfo cfg}
    (h : Called heap mem t) :
    t.waitingOnIo = true ∨ ∃ pool, Begun heap t pool ∧ t.desiredSstableOffset = 0 := by
  cases h with
  | begun hpool hw hempty hpush =>
      exact .inr ⟨_, ⟨hpool, Stack.topLifo_pushTop hpush,
        Stack.pushTop_back_of_empty hempty hpush, hw⟩, rfl⟩
  | resumed _ hr hfull _ hw =>
      have hstop := readLoopWith_stops hr
      rw [hfull, Bool.false_or] at hstop
      exact .inl (hw.trans hstop)

/-- The path in the buffer with the beginning of the file leaves it below the end of the file, and
the search is not a resumed one. -/
def Repeats (heap : Heap cfg) (mem : Memory) (t : SSTableInfo cfg) : Prop :=
  t.waitingOnIo = false ∧
    ∃ x, LeavesBuffer heap mem t x ∧ x < t.cache.helper.curMinInvalidOffset

/-- Such a search goes on for as long as it is observed. -/
theorem readLoop_of_repeats {heap : Heap cfg} {mem : Memory} {t : SSTableInfo cfg}
    (hcalled : Called heap mem t) (h : Repeats heap mem t) :
    ¬ LoopEnds Stack.topLifo heap mem t ∧
      ∀ fuel, readLoopWith Stack.topLifo heap fuel mem t = .error .diverges := by
  rcases h with ⟨hw, x, hx, hlt⟩
  rcases hcalled.cases with hw' | ⟨pool, hb, h0⟩
  · rw [hw] at hw'
    cases hw'
  · have hrepeat := passes_repeat hb hx (by omega) hlt
    refine ⟨fun hends => ?_, fun fuel => ?_⟩
    · exact hends.progress 1 _ _ (hrepeat 0) (hrepeat 1) rfl
    · cases fuel with
      | zero => rfl
      | succ fuel =>
          have hloop := readLoopWith_of_passes (hrepeat fuel) 0
          rw [Nat.zero_add] at hloop
          exact hloop

end SSTableInfo

open SSTableInfo

/-- **When the search loop ends.**  For every image of the file, every batch and every content of
the page cache, in every call: the loop makes finitely many passes, and none without effect, if and
only if the search is a resumed one, or the path in the first buffer does not leave it below the end
of the file. -/
theorem loopEnds_iff {cfg : Config} {heap : Heap cfg} {mem : Memory} {t : SSTableInfo cfg}
    (hcalled : Called heap mem t) :
    LoopEnds Stack.topLifo heap mem t ↔ ¬ Repeats heap mem t := by
  constructor
  · intro hends hrepeats
    exact (readLoop_of_repeats hcalled hrepeats).1 hends
  · intro hno
    rcases hcalled.cases with hw | ⟨pool, hb, h0⟩
    · refine ⟨⟨1, passes_waiting hw 0⟩, fun k s s' _ hnext => ?_⟩
      rw [passes_waiting hw] at hnext
      cases hnext
    · have hbehind : ∀ x, LeavesBuffer heap mem t x → t.cache.helper.curMinInvalidOffset ≤ x :=
        fun x hx => Nat.not_lt.1 fun hlt => hno ⟨hb.waiting, x, hx, hlt⟩
      refine ⟨⟨2, passes_two hb hbehind 0⟩, fun k s s' hs hnext => ?_⟩
      cases k with
      | succ k =>
          rw [passes_two hb hbehind] at hnext
          cases hnext
      | zero =>
          cases hs
          rintro rfl
          -- a first pass that changes nothing is followed by another
          by_cases hoffset : t.desiredSstableOffset < t.cache.helper.curMinInvalidOffset
          · rw [passes] at hnext
            cases hpass : t.readPassWith Stack.topLifo heap mem with
            | error f => simp only [hpass] at hnext; cases hnext
            | ok r =>
                simp only [hpass] at hnext
                split_ifs at hnext with hstop
                rw [Bool.not_eq_true] at hstop
                rcases readPassWith_goesOn hb hoffset hpass hstop with ⟨x, hx, -, htable⟩
                have hsame : r.table = t := congrArg Prod.snd (Option.some.inj hnext)
                have hle := hbehind x hx
                have hzero : x = 0 := by
                  rw [← h0, ← hsame, htable]
                omega
          · rw [passes_behind_end hb (Nat.not_lt.1 hoffset)] at hnext
            cases hnext

/-- A fresh cache holds nothing, so the first search submits a read. -/
theorem loopEnds_fresh : ∃ stack,
    takenBy.stack.pushTop (0, 0, 0, 1) = .ok stack ∧
      LoopEnds Stack.topLifo [readsOf 1] (fun _ => 97) { takenBy with
        desiredSstableOffset := 0, stack } := by
  rcases Stack.pushTop_ok_iff.2 (show takenBy.stack.back < shippedConfig.maxSstableHeight by decide)
    with ⟨stack, hpush⟩
  have hcalled : Called [readsOf 1] (fun _ => 97) { takenBy with
      desiredSstableOffset := 0, stack } :=
    @Called.begun shippedConfig _ _ _ (readsOf 1).readwritePool _ rfl rfl rfl hpush
  refine ⟨stack, hpush, (loopEnds_iff hcalled).2 ?_⟩
  rintro ⟨-, x, ⟨pool, c, location, buffer, j, -, -, hlocation, hleft, -⟩, -⟩
  rcases okAnd_iff.1 (show okAnd (takenBy.cache.helper.getBufferInfo 0)
    (fun l => l.left = sizeMax) = true by decide +kernel) with ⟨location', hfresh, hend⟩
  obtain rfl := Except.ok.inj (hfresh.symm.trans hlocation)
  exact hleft (of_decide_eq_true hend)

/-- The SSTable with one buffer, which holds an entry for the key `b`. -/
def cachedB : SSTableInfo shippedConfig :=
  { takenBy with
    cache :=
      { helper :=
          { CacheHelper.new shippedConfig with
            cacheLocations :=
              (List.replicate shippedConfig.maxBufferSetSize none).set 0 (some ⟨0, 3, 0⟩)
            idOfMostRecentlySelectedBuffer := 0
            length_cacheLocations := by rw [List.length_set, List.length_replicate] }
        buffers := [[98, 0, 0]] } }

/-- The key `a` is looked for in that buffer for ever. -/
theorem loop_repeats : ∃ stack,
    cachedB.stack.pushTop (0, 0, 0, 1) = .ok stack ∧
      Called [readsOf 1] (fun _ => 97) { cachedB with desiredSstableOffset := 0, stack } ∧
      ¬ LoopEnds Stack.topLifo [readsOf 1] (fun _ => 97) { cachedB with
        desiredSstableOffset := 0, stack } := by
  rcases Stack.pushTop_ok_iff.2 (show cachedB.stack.back < shippedConfig.maxSstableHeight by decide)
    with ⟨stack, hpush⟩
  have hcalled : Called [readsOf 1] (fun _ => 97) { cachedB with
      desiredSstableOffset := 0, stack } :=
    @Called.begun shippedConfig _ _ _ (readsOf 1).readwritePool _ rfl rfl rfl hpush
  rcases okAnd_iff.1 (show okAnd (cachedB.cache.helper.getBufferInfo 0)
    (fun l => l = ⟨0, 3, 0⟩) = true by decide +kernel) with ⟨location, hlocation, hrange⟩
  obtain rfl := of_decide_eq_true hrange
  have hpath : Leaves shippedConfig [98, 0, 0] (keyAt shippedConfig (fun _ => 97) 0) 1 2 0 1 none :=
    ⟨1, by decide, by decide +kernel, .inl (Nat.le_refl 1), fun h => absurd h (by decide)⟩
  have hleaves : LeavesBuffer [readsOf 1] (fun _ => 97)
      { cachedB with desiredSstableOffset := 0, stack } 1 :=
    ⟨(readsOf 1).readwritePool, ⟨.read, 0, 0, 0⟩, ⟨0, 3, 0⟩, [98, 0, 0], 1, rfl, rfl, hlocation,
      by decide +kernel, rfl, hpath, by decide⟩
  have hbelow : 1 < cachedB.cache.helper.curMinInvalidOffset := by decide +kernel
  exact ⟨stack, hpush, hcalled, (readLoop_of_repeats hcalled ⟨rfl, 1, hleaves, hbelow⟩).1⟩

end RingDB
