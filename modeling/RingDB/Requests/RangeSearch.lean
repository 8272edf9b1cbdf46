import RingDB.Core.WrappedSearch
import RingDB.Requests.Pool

/-!
# The search for the first request at or above a key

`find_index_starting_from` bisects the requests of a sorted pool from an index on.  Its caller hands
it a pointer to a key in the sparse index.  The comparisons read the key five bytes further, where a
socket buffer has it, so the search is for other bytes of the sparse index; and an index of `0` is
answered with `-1` unless the first request has exactly these bytes.

* `wrappedFindIndexStartingFrom` — the search, with cursors in `unsigned int`, and
  `findIndexStartingFrom_of_wrapped` — up to `2 ^ 31` requests it is `findIndexStartingFrom`.
* `IsLeastFrom` — the index that it should answer, `FindsLeast` — it answers that from every start.
* `keysBelow` — how many requests are below a key: in a sorted pool, where the search for it ends.
* **`findsLeast_iff`** — the pools and pointers for which the answer is right.
-/

namespace RingDB

open Core

namespace ReadWritePool

section Model

variable (cfg : Config) (mem : Memory) (pool : ReadWritePool)

/-- The loop of `find_index_starting_from`, for `fuel` passes. -/
def wrappedSearch (fuel start : ℕ) (buffer : Bytes) : Except Fault ℕ :=
  wrappedBisect (2 ^ 32) (fun j => do
    let key ← readAt buffer 5 cfg.keyLength
    pool.keyBelow cfg mem key j) fuel start pool.entries.length

/-- `find_index_starting_from`, with `fuel` passes of its loop. -/
def wrappedFindIndexStartingFrom (fuel start : ℕ) (buffer : Bytes) : Except Fault ℤ := do
  let left ← pool.wrappedSearch cfg mem fuel start buffer
  if left = pool.entries.length then pure (-1)
  else if left = 0 then
    match pool.entries[0]? with
    | none => .error .wildPointer
    | some c => do
        let key ← readAt buffer 5 cfg.keyLength
        if memcmp (keyAt cfg mem c.buffer) key ≠ .eq then pure (-1) else pure (toInt left)
  else pure (toInt left)

/-- The pool is sorted by key. -/
def SortedByKey : Prop :=
  pool.entries.Pairwise fun c d => memcmp (keyAt cfg mem c.buffer) (keyAt cfg mem d.buffer) ≠ .gt

/-- `index` is the least one from `start` on whose request is not below `key`, or `-1` and there is
no such request. -/
def IsLeastFrom (start : ℕ) (key : Bytes) (index : ℤ) : Prop :=
  (∃ j c, index = (j : ℕ) ∧ start ≤ j ∧ pool.entries[j]? = some c ∧
      memcmp (keyAt cfg mem c.buffer) key ≠ .lt ∧
      ∀ i d, start ≤ i → i < j → pool.entries[i]? = some d →
        memcmp (keyAt cfg mem d.buffer) key = .lt) ∨
    index = -1 ∧ ∀ j c, start ≤ j → pool.entries[j]? = some c →
      memcmp (keyAt cfg mem c.buffer) key = .lt

/-- From every index up to the length the search ends with the answer that it should have for the
key that `buffer` points to. -/
def FindsLeast (buffer : Bytes) : Prop :=
  ∀ start ≤ pool.entries.length, ∃ fuel index,
    pool.wrappedFindIndexStartingFrom cfg mem fuel start buffer = .ok index ∧
      pool.IsLeastFrom cfg mem start (buffer.take cfg.keyLength) index

/-- A place in an array as an answer. -/
def indexOrNone (length pos : ℕ) : ℤ := if pos = length then -1 else (pos : ℤ)

/-- How many requests are below `key`. -/
def keysBelow (key : Bytes) : ℕ :=
  pool.entries.countP fun c => memcmp (keyAt cfg mem c.buffer) key == .lt

/-- How many requests are not above `key`. -/
def keysUpTo (key : Bytes) : ℕ :=
  pool.entries.countP fun c => memcmp (keyAt cfg mem c.buffer) key != .gt

/-- The bytes that a search reads for the key that `buffer` points to. -/
def keyRead (buffer : Bytes) : Bytes := (buffer.drop 5).take cfg.keyLength

/-- The first request has the bytes that are read for its key. -/
def FirstHasKeyRead (buffer : Bytes) : Prop :=
  ∀ c, pool.entries[0]? = some c → keyAt cfg mem c.buffer = keyRead cfg buffer

instance (buffer : Bytes) : Decidable (pool.FirstHasKeyRead cfg mem buffer) :=
  match h : pool.entries[0]? with
  | none => isTrue fun _ hc => nomatch h.symm.trans hc
  | some c => decidable_of_iff (keyAt cfg mem c.buffer = keyRead cfg buffer)
      ⟨fun heq _ hc => Option.some.inj (h.symm.trans hc) ▸ heq, fun hfirst => hfirst c h⟩

/-- What a search from `start` answers. -/
def answerFrom (start : ℕ) (buffer : Bytes) : ℤ :=
  if max start (pool.keysBelow cfg mem (keyRead cfg buffer)) = 0
      ∧ ¬ pool.FirstHasKeyRead cfg mem buffer then -1
  else indexOrNone pool.entries.length (max start (pool.keysBelow cfg mem (keyRead cfg buffer)))

/-- The bytes that are read are in the array and tell the requests apart as the key does.  If no
request is below them, the first one must have them; a single request may also be above them and
below the key. -/
structure SearchAgrees (buffer : Bytes) : Prop where
  length : pool.entries.length ≤ 2 ^ 31
  inside : 5 + cfg.keyLength ≤ buffer.length
  agrees : pool.keysBelow cfg mem (keyRead cfg buffer)
        = pool.keysBelow cfg mem (buffer.take cfg.keyLength) ∧
      (pool.keysBelow cfg mem (keyRead cfg buffer) = 0 → pool.FirstHasKeyRead cfg mem buffer) ∨
    pool.entries.length = 1 ∧ pool.keysBelow cfg mem (buffer.take cfg.keyLength) = 1 ∧
      pool.keysBelow cfg mem (keyRead cfg buffer) = 0 ∧ ¬ pool.FirstHasKeyRead cfg mem buffer

end Model

variable {cfg : Config} {mem : Memory} {pool : ReadWritePool} {buffer : Bytes}

/-- Up to `2 ^ 31` requests no sum of the cursors wraps around, and what is answered is what
`findIndexStartingFrom` answers. -/
theorem findIndexStartingFrom_of_wrapped (hlen : pool.entries.length ≤ 2 ^ 31) {fuel start : ℕ}
    {index : ℤ} (h : pool.wrappedFindIndexStartingFrom cfg mem fuel start buffer = .ok index) :
    pool.findIndexStartingFrom cfg mem start buffer = .ok index := by
  rcases bind_eq_ok.1 h with ⟨pos, hsearch, hanswer⟩
  exact bind_eq_ok.2 ⟨pos, bisect_of_wrappedBisect (Nat.le_refl _) (by omega) hsearch, hanswer⟩

/-- What is answered does not depend on how long the search is observed. -/
theorem wrappedFindIndexStartingFrom_unique {fuel fuel' start : ℕ} {index index' : ℤ}
    (h : pool.wrappedFindIndexStartingFrom cfg mem fuel start buffer = .ok index)
    (h' : pool.wrappedFindIndexStartingFrom cfg mem fuel' start buffer = .ok index') :
    index = index' := by
  rcases bind_eq_ok.1 h with ⟨pos, hsearch, hanswer⟩
  rcases bind_eq_ok.1 h' with ⟨pos', hsearch', hanswer'⟩
  obtain rfl := wrappedBisect_unique hsearch hsearch'
  exact Except.ok.inj (hanswer.symm.trans hanswer')

/-- An empty pool has no request to find. -/
theorem wrappedFindIndexStartingFrom_nil (hzero : pool.entries.length = 0) :
    pool.wrappedFindIndexStartingFrom cfg mem 0 0 buffer = .ok (-1) := by
  have hsearch : pool.wrappedSearch cfg mem 0 0 buffer = .ok 0 := wrappedBisect_of_le hzero.le
  exact bind_eq_ok.2 ⟨0, hsearch, if_pos hzero.symm⟩

section Keys

/-! ## Where a key belongs -/

/-- In a sorted pool the requests below a key are the first ones. -/
theorem below_iff (hsorted : pool.SortedByKey cfg mem) (key : Bytes) {j : ℕ} {c : ConnectionRequest}
    (hc : pool.entries[j]? = some c) :
    memcmp (keyAt cfg mem c.buffer) key = .lt ↔ j < pool.keysBelow cfg mem key := by
  have hdown : pool.entries.Pairwise fun c d =>
      (memcmp (keyAt cfg mem d.buffer) key == .lt) = true →
        (memcmp (keyAt cfg mem c.buffer) key == .lt) = true := by
    refine hsorted.imp fun {c d} hcd hd => ?_
    rw [beq_iff_eq, memcmp_lt_iff] at hd ⊢
    rw [Ne, memcmp_gt_iff, memcmp_lt_iff, List.not_lt] at hcd
    exact List.lt_of_le_of_lt hcd hd
  rw [keysBelow, ← iff_lt_countP hdown hc, beq_iff_eq]

/-- So are the requests that are not above it. -/
theorem upTo_iff (hsorted : pool.SortedByKey cfg mem) (key : Bytes) {j : ℕ} {c : ConnectionRequest}
    (hc : pool.entries[j]? = some c) :
    memcmp (keyAt cfg mem c.buffer) key ≠ .gt ↔ j < pool.keysUpTo cfg mem key := by
  have hdown : pool.entries.Pairwise fun c d =>
      (memcmp (keyAt cfg mem d.buffer) key != .gt) = true →
        (memcmp (keyAt cfg mem c.buffer) key != .gt) = true := by
    refine hsorted.imp fun {c d} hcd hd => ?_
    rw [bne_iff_ne] at hd ⊢
    exact memcmp_trans hcd hd
  rw [keysUpTo, ← iff_lt_countP hdown hc, bne_iff_ne]

theorem keysUpTo_le (key : Bytes) : pool.keysUpTo cfg mem key ≤ pool.entries.length :=
  List.countP_le_length

theorem keysBelow_le_keysUpTo (key : Bytes) :
    pool.keysBelow cfg mem key ≤ pool.keysUpTo cfg mem key := by
  refine List.countP_mono_left fun c _ hc => ?_
  rw [beq_iff_eq] at hc
  rw [hc]
  rfl

theorem keysBelow_le (key : Bytes) : pool.keysBelow cfg mem key ≤ pool.entries.length :=
  List.countP_le_length

/-- The answer that a search from `start` should have. -/
theorem isLeastFrom_iff (hsorted : pool.SortedByKey cfg mem) {start : ℕ}
    (hstart : start ≤ pool.entries.length) (key : Bytes) (index : ℤ) :
    pool.IsLeastFrom cfg mem start key index ↔
      index = indexOrNone pool.entries.length (max start (pool.keysBelow cfg mem key)) := by
  have hle : pool.keysBelow cfg mem key ≤ pool.entries.length := keysBelow_le key
  have hbelow : ∀ {j : ℕ} {c : ConnectionRequest}, pool.entries[j]? = some c →
      (memcmp (keyAt cfg mem c.buffer) key = .lt ↔ j < pool.keysBelow cfg mem key) :=
    below_iff hsorted key
  generalize pool.keysBelow cfg mem key = n at *
  constructor
  · rintro (⟨j, c, rfl, hj, hc, hge, hleast⟩ | ⟨rfl, hall⟩)
    · have hlt : j < pool.entries.length := (List.getElem?_eq_some_iff.1 hc).1
      rw [Ne, hbelow hc] at hge
      -- were the place before `j`, the request there would be below the key
      have hplace : j ≤ max start n := by
        by_contra hgt
        have hslot := List.getElem?_eq_getElem (show max start n < pool.entries.length by omega)
        have := (hbelow hslot).1 (hleast _ _ (le_max_left _ _) (by omega) hslot)
        omega
      have hj : max start n = j := by omega
      rw [indexOrNone, hj, if_neg (by omega)]
    · rw [indexOrNone, if_pos]
      by_contra hne
      have hslot := List.getElem?_eq_getElem (show max start n < pool.entries.length by omega)
      have := (hbelow hslot).1 (hall _ _ (le_max_left _ _) hslot)
      omega
  · rintro rfl
    rw [indexOrNone]
    split_ifs with hend
    · refine .inr ⟨rfl, fun j c hj hc => (hbelow hc).2 ?_⟩
      have hlt : j < pool.entries.length := (List.getElem?_eq_some_iff.1 hc).1
      omega
    · have hslot := List.getElem?_eq_getElem (show max start n < pool.entries.length by omega)
      refine .inl ⟨max start n, _, rfl, le_max_left _ _, hslot, ?_, fun i d hi hlt hd => ?_⟩
      · rw [Ne, hbelow hslot]
        omega
      · rw [hbelow hd]
        omega

end Keys

section Search

/-! ## Where the search ends -/

theorem readAt_keyRead (hin : 5 + cfg.keyLength ≤ buffer.length) :
    readAt buffer 5 cfg.keyLength = .ok (keyRead cfg buffer) :=
  readAt_of_le hin

/-- It ends where the bytes that it reads belong. -/
theorem wrappedSearch_ok (hsorted : pool.SortedByKey cfg mem)
    (hlen : pool.entries.length ≤ 2 ^ 31) (hin : 5 + cfg.keyLength ≤ buffer.length) {start : ℕ}
    (hstart : start ≤ pool.entries.length) :
    pool.wrappedSearch cfg mem (pool.entries.length - start) start buffer
      = .ok (max start (pool.keysBelow cfg mem (keyRead cfg buffer))) := by
  have hle : pool.keysBelow cfg mem (keyRead cfg buffer) ≤ pool.entries.length := keysBelow_le _
  have hstep : ∀ {j : ℕ}, j < pool.entries.length →
      (do
        let key ← readAt buffer 5 cfg.keyLength
        pool.keyBelow cfg mem key j)
      = .ok (decide (j < pool.keysBelow cfg mem (keyRead cfg buffer))) := by
    intro j hj
    have hslot := List.getElem?_eq_getElem hj
    rw [readAt_keyRead hin]
    show pool.keyBelow cfg mem (keyRead cfg buffer) j = _
    rw [keyBelow, hslot]
    refine congrArg Except.ok (Bool.eq_iff_iff.2 ?_)
    rw [beq_iff_eq, decide_eq_true_eq]
    exact below_iff hsorted _ hslot
  refine wrappedBisect_boundary (le_max_left _ _) (max_le hstart hle) (Nat.le_refl _) (by omega)
    ?_ ?_
  · intro j hj hlt
    rw [hstep (by omega), decide_eq_true (by omega)]
  · intro j hj hlt
    rw [hstep hlt, decide_eq_false (by omega)]

/-- What is answered for the place where the search ends. -/
theorem wrappedFindIndexStartingFrom_of_search {fuel start pos : ℕ}
    (hsearch : pool.wrappedSearch cfg mem fuel start buffer = .ok pos)
    (hin : 5 + cfg.keyLength ≤ buffer.length) (hpos : 0 < pool.entries.length) :
    pool.wrappedFindIndexStartingFrom cfg mem fuel start buffer
      = .ok (if pos = pool.entries.length ∨ pos = 0 ∧ ¬ pool.FirstHasKeyRead cfg mem buffer then -1
        else toInt pos) := by
  refine bind_eq_ok.2 ⟨pos, hsearch, ?_⟩
  have hslot := List.getElem?_eq_getElem hpos
  have hfirst : pool.FirstHasKeyRead cfg mem buffer ↔
      memcmp (keyAt cfg mem (pool.entries[0]).buffer) (keyRead cfg buffer) = .eq := by
    rw [memcmp_eq_iff]
    exact ⟨fun h => h _ hslot, fun h c hc => Option.some.inj (hslot.symm.trans hc) ▸ h⟩
  by_cases hend : pos = pool.entries.length
  · rw [if_pos hend, if_pos (.inl hend)]
    rfl
  · rw [if_neg hend]
    by_cases hzero : pos = 0
    · rw [if_pos hzero, hslot, readAt_keyRead hin]
      show (if _ then _ else _) = _
      by_cases hkey : memcmp (keyAt cfg mem (pool.entries[0]).buffer) (keyRead cfg buffer) = .eq
      · rw [if_neg (not_not_intro hkey), if_neg]
        · rfl
        · rintro (h | ⟨-, h⟩)
          · exact hend h
          · exact h (hfirst.2 hkey)
      · rw [if_pos hkey, if_pos (.inr ⟨hzero, fun h => hkey (hfirst.1 h)⟩)]
        rfl
    · rw [if_neg hzero, if_neg]
      · rfl
      · rintro (h | ⟨h, -⟩)
        · exact hend h
        · exact hzero h

/-- The answer from every start, where the bytes that are read are in the array. -/
theorem wrappedFindIndexStartingFrom_ok (hsorted : pool.SortedByKey cfg mem)
    (hlen : pool.entries.length ≤ 2 ^ 31) (hin : 5 + cfg.keyLength ≤ buffer.length)
    (hpos : 0 < pool.entries.length) {start : ℕ} (hstart : start ≤ pool.entries.length) :
    pool.wrappedFindIndexStartingFrom cfg mem (pool.entries.length - start) start buffer
      = .ok (pool.answerFrom cfg mem start buffer) := by
  rw [wrappedFindIndexStartingFrom_of_search (wrappedSearch_ok hsorted hlen hin hstart) hin hpos,
    answerFrom]
  have hle : pool.keysBelow cfg mem (keyRead cfg buffer) ≤ pool.entries.length := keysBelow_le _
  generalize pool.keysBelow cfg mem (keyRead cfg buffer) = n at *
  by_cases hzero : max start n = 0 ∧ ¬ pool.FirstHasKeyRead cfg mem buffer
  · rw [if_pos (.inr hzero), if_pos hzero]
  · rw [if_neg hzero, indexOrNone]
    by_cases hend : max start n = pool.entries.length
    · rw [if_pos (.inl hend), if_pos hend]
    · rw [if_neg (not_or_intro hend hzero), if_neg hend, toInt, if_pos (by omega)]

end Search

section Answers

/-! ## Which answers are right -/

theorem indexOrNone_inj {length pos pos' : ℕ} :
    indexOrNone length pos = indexOrNone length pos' ↔ pos = pos' := by
  constructor
  · intro h
    unfold indexOrNone at h
    split_ifs at h <;> omega
  · rintro rfl
    rfl

/-- Two searches, one that ends at `n'` and one that ends at `n` and tests the first request, answer
the same from every start if they do so from the first two. -/
theorem answers_iff {length n n' : ℕ} {first : Prop} [Decidable first] (hpos : 0 < length)
    (hn : n ≤ length) (hn' : n' ≤ length) :
    (∀ start ≤ length, (if max start n = 0 ∧ ¬ first then -1 else indexOrNone length (max start n))
        = indexOrNone length (max start n')) ↔
      n = n' ∧ (n = 0 → first) ∨ length = 1 ∧ n' = 1 ∧ n = 0 ∧ ¬ first := by
  constructor
  · intro hall
    have hzero := hall 0 (Nat.zero_le _)
    have hone := hall 1 hpos
    have hstart : ¬ (max 1 n = 0 ∧ ¬ first) := by omega
    rw [if_neg hstart, indexOrNone_inj] at hone
    rw [Nat.zero_max, Nat.zero_max] at hzero
    by_cases hfirst : n = 0 ∧ ¬ first
    · -- the test fails, so there must be no request to find
      rw [if_pos hfirst, indexOrNone] at hzero
      have hend : n' = length := by
        by_contra hend
        rw [if_neg hend] at hzero
        omega
      exact .inr ⟨by omega, by omega, hfirst⟩
    · rw [if_neg hfirst, indexOrNone_inj] at hzero
      exact .inl ⟨hzero, fun h => by_contra fun hf => hfirst ⟨h, hf⟩⟩
  · rintro (⟨rfl, hfirst⟩ | ⟨rfl, rfl, rfl, hfirst⟩) start hstart
    · rw [if_neg]
      rintro ⟨hmax, hf⟩
      exact hf (hfirst (by omega))
    · have hright : indexOrNone 1 (max start 1) = -1 := if_pos (by omega)
      rw [hright]
      split_ifs with hmax
      · rfl
      · refine if_pos ?_
        by_contra hne
        exact hmax ⟨by omega, hfirst⟩

/-- With more than `2 ^ 31` requests the search from the last one has no right answer: its index is
not an `int`, and a search that ends behind it has not moved. -/
theorem length_le_of_findsLeast (hsorted : pool.SortedByKey cfg mem)
    (hlen : pool.entries.length ≤ uintMax) (h : pool.FindsLeast cfg mem buffer) :
    pool.entries.length ≤ 2 ^ 31 := by
  by_contra hgt
  simp only [uintMax] at hlen
  rcases h (pool.entries.length - 1) (Nat.sub_le _ _) with ⟨fuel, index, hindex, hleast⟩
  rw [isLeastFrom_iff hsorted (Nat.sub_le _ _)] at hleast
  have hright : index = -1 ∨ (2 ^ 31 : ℤ) ≤ index := by
    rw [hleast, indexOrNone]
    split_ifs
    · exact .inl rfl
    · refine .inr ?_
      have := le_max_left (pool.entries.length - 1)
        (pool.keysBelow cfg mem (buffer.take cfg.keyLength))
      omega
  rcases bind_eq_ok.1 hindex with ⟨pos, hsearch, hanswer⟩
  have hpos := wrappedBisect_cases (by decide) hsearch
  rw [if_neg (by omega), if_neg (by omega)] at hanswer
  have hint : index = toInt pos := (Except.ok.inj hanswer).symm
  rw [toInt] at hint
  split_ifs at hint <;> omega

/-- A search that ends from the first request has read its key. -/
theorem inside_of_findsLeast (h : pool.FindsLeast cfg mem buffer) (hpos : 0 < pool.entries.length) :
    5 + cfg.keyLength ≤ buffer.length := by
  rcases h 0 (Nat.zero_le _) with ⟨fuel, index, hindex, -⟩
  rcases bind_eq_ok.1 hindex with ⟨pos, hsearch, -⟩
  rcases wrappedBisect_first hpos hsearch with ⟨b, hb⟩
  rcases bind_eq_ok.1 hb with ⟨key, hkey, -⟩
  by_contra hout
  rw [readAt, if_neg hout] at hkey
  cases hkey

/-- **The search.**  In a sorted pool the search for the key that `buffer` points to answers right
from every start if and only if the pool is empty or the bytes that are read tell the requests apart
as the key does. -/
theorem findsLeast_iff (hsorted : pool.SortedByKey cfg mem)
    (hlen : pool.entries.length ≤ uintMax) :
    pool.FindsLeast cfg mem buffer ↔
      pool.entries.length = 0 ∨ pool.SearchAgrees cfg mem buffer := by
  rcases Nat.eq_zero_or_pos pool.entries.length with hzero | hpos
  · refine iff_of_true (fun start hstart => ⟨0, -1, ?_, ?_⟩) (.inl hzero)
    · obtain rfl : start = 0 := by omega
      exact wrappedFindIndexStartingFrom_nil hzero
    · refine .inr ⟨rfl, fun j c _ hc => ?_⟩
      have := (List.getElem?_eq_some_iff.1 hc).1
      omega
  · have hanswers : (∀ start ≤ pool.entries.length, pool.answerFrom cfg mem start buffer
        = indexOrNone pool.entries.length
          (max start (pool.keysBelow cfg mem (buffer.take cfg.keyLength)))) ↔ _ :=
      answers_iff hpos (keysBelow_le _) (keysBelow_le _)
    constructor
    · intro h
      have hle := length_le_of_findsLeast hsorted hlen h
      have hin := inside_of_findsLeast h hpos
      refine .inr ⟨hle, hin, hanswers.1 fun start hstart => ?_⟩
      rcases h start hstart with ⟨fuel, index, hindex, hleast⟩
      rw [isLeastFrom_iff hsorted hstart] at hleast
      have hok := wrappedFindIndexStartingFrom_ok hsorted hle hin hpos hstart
      exact (wrappedFindIndexStartingFrom_unique hok hindex).trans hleast
    · rintro (hzero | ⟨hle, hin, hagrees⟩) start hstart
      · omega
      · refine ⟨_, _, wrappedFindIndexStartingFrom_ok hsorted hle hin hpos hstart, ?_⟩
        rw [isLeastFrom_iff hsorted hstart]
        exact hanswers.2 hagrees start hstart

theorem SearchAgrees.answer (h : pool.SearchAgrees cfg mem buffer)
    (hsorted : pool.SortedByKey cfg mem) (hpos : 0 < pool.entries.length) {start : ℕ}
    (hstart : start ≤ pool.entries.length) :
    ∃ fuel, pool.wrappedFindIndexStartingFrom cfg mem fuel start buffer
      = .ok (indexOrNone pool.entries.length
        (max start (pool.keysBelow cfg mem (buffer.take cfg.keyLength)))) := by
  have hanswer : pool.answerFrom cfg mem start buffer = _ :=
    (answers_iff hpos (keysBelow_le _) (keysBelow_le _)).2 h.agrees start hstart
  rw [← hanswer]
  exact ⟨_, wrappedFindIndexStartingFrom_ok hsorted h.length h.inside hpos hstart⟩

end Answers

end ReadWritePool

end RingDB
