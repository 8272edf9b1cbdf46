import RingDB.Levels.Partition
import RingDB.Requests.RangeSearch

/-!
# The requests that an SSTable is asked for

`decompose` searches the requests of a batch for the first one at or above the minimum key of an
SSTable and from there on for the first one at or above its maximum key, and visits what is between
the two answers, the second one left out.  An answer of `-1` is the largest `unsigned int` as a
start or an end of the loop.

* `VisitsRange` — the loop visits the requests whose keys are in the range of the SSTable, and
  `rangeLoop_of_visitsRange` — so `rangeLoop` visits these.
* **`rangeSearch_iff`** — the batches and SSTables for which both searches and the loop are right.
-/

namespace RingDB.LevelInfo

open Core ReadWritePool

variable {cfg : Config}

section Model

variable (mem : Memory) (pool : ReadWritePool) (sparseIndex : SparseIndex cfg) (i : ℕ)

/-- The minimum key of SSTable `i`. -/
def minKey : Bytes := (sparseIndex.getTableMinKey i).take cfg.keyLength

/-- The maximum key of SSTable `i`. -/
def maxKey : Bytes := (sparseIndex.getTableMaxKey i).take cfg.keyLength

/-- The loop between the two answers visits request `j` if and only if its key is in the range of
SSTable `i`, both ends included. -/
def VisitsRange : Prop :=
  ∃ fuel fuel' left right,
    pool.wrappedFindIndexStartingFrom cfg mem fuel 0 (sparseIndex.getTableMinKey i) = .ok left ∧
    pool.wrappedFindIndexStartingFrom cfg mem fuel' (toUint left) (sparseIndex.getTableMaxKey i)
      = .ok right ∧
    ∀ j, (toUint left ≤ j ∧ j < toUint right) ↔ ∃ c, pool.entries[j]? = some c ∧
      memcmp (minKey sparseIndex i) (keyAt cfg mem c.buffer) ≠ .gt ∧
      memcmp (keyAt cfg mem c.buffer) (maxKey sparseIndex i) ≠ .gt

/-- Both searches answer right from every start, and the loop visits the requests in the range. -/
structure RangeSearch : Prop where
  findsMin : pool.FindsLeast cfg mem (sparseIndex.getTableMinKey i)
  findsMax : pool.FindsLeast cfg mem (sparseIndex.getTableMaxKey i)
  visits : VisitsRange mem pool sparseIndex i

/-- Both searches go by the right bytes.  All requests are below the range; or there is one at or
above its end, and none in it or none at its end. -/
structure RangeAgrees : Prop where
  agreesMin : pool.SearchAgrees cfg mem (sparseIndex.getTableMinKey i)
  agreesMax : pool.SearchAgrees cfg mem (sparseIndex.getTableMaxKey i)
  ends : pool.keysBelow cfg mem (minKey sparseIndex i) = pool.entries.length ∨
    pool.keysBelow cfg mem (maxKey sparseIndex i) < pool.entries.length ∧
      (pool.keysUpTo cfg mem (maxKey sparseIndex i)
          ≤ pool.keysBelow cfg mem (minKey sparseIndex i) ∨
        pool.keysBelow cfg mem (maxKey sparseIndex i)
          = pool.keysUpTo cfg mem (maxKey sparseIndex i))

end Model

section Loop

variable {mem : Memory} {alloc : Allocator cfg} {pool : ReadWritePool}
  {sparseIndex : SparseIndex cfg} {i : ℕ}

theorem visitRange_eq_foldlM (f : Filter) (reqBatch i : ℕ) : ∀ (n j : ℕ) (st : Reading cfg),
    visitRange mem alloc f reqBatch i n j st
      = (List.range' j n).foldlM (fun st j => visit mem alloc f reqBatch i j st) st
  | 0, _, _ => rfl
  | n + 1, j, st => by
      rw [visitRange, List.range'_succ, List.foldlM_cons]
      exact congrArg _ (funext fun st => visitRange_eq_foldlM f reqBatch i n (j + 1) st)

/-- What `rangeLoop` does for an SSTable is a loop over the requests in its range, in order. -/
theorem rangeLoop_of_visitsRange {f : Filter} {fs : List Filter} {reqBatch : ℕ} {st : Reading cfg}
    {b : RequestBatch cfg} (hf : f.empty = false) (hb : st.heap.deref reqBatch = .ok b)
    (hlen : b.readwritePool.entries.length ≤ 2 ^ 31)
    (h : VisitsRange mem b.readwritePool sparseIndex i) :
    ∃ js : List ℕ, js.Pairwise (· < ·) ∧
      (∀ j, j ∈ js ↔ ∃ c, b.readwritePool.entries[j]? = some c ∧
        memcmp (minKey sparseIndex i) (keyAt cfg mem c.buffer) ≠ .gt ∧
        memcmp (keyAt cfg mem c.buffer) (maxKey sparseIndex i) ≠ .gt) ∧
      rangeLoop mem alloc sparseIndex reqBatch (f :: fs) i st
        = js.foldlM (fun st j => visit mem alloc f reqBatch i j st) st
          >>= rangeLoop mem alloc sparseIndex reqBatch fs (i + 1) := by
  rcases h with ⟨fuel, fuel', left, right, hleft, hright, hvisits⟩
  refine ⟨List.range' (toUint left) (toUint right - toUint left), List.pairwise_lt_range', ?_, ?_⟩
  · intro j
    rw [← hvisits j, List.mem_range'_1]
    omega
  · rw [rangeLoop, if_neg (by rw [hf]; decide), hb]
    show (b.readwritePool.findIndexStartingFrom cfg mem 0 (sparseIndex.getTableMinKey i) >>= _) = _
    rw [findIndexStartingFrom_of_wrapped hlen hleft]
    show (b.readwritePool.findIndexStartingFrom cfg mem (toUint left)
      (sparseIndex.getTableMaxKey i) >>= _) = _
    rw [findIndexStartingFrom_of_wrapped hlen hright]
    show (visitRange mem alloc f reqBatch i (toUint right - toUint left) (toUint left) st >>= _) = _
    rw [visitRange_eq_foldlM]

end Loop

section Range

variable {mem : Memory} {pool : ReadWritePool} {sparseIndex : SparseIndex cfg} {i : ℕ}

/-- The requests in the range of a SSTable are those between two places. -/
theorem inRange_iff (hsorted : pool.SortedByKey cfg mem) (j : ℕ) :
    (∃ c, pool.entries[j]? = some c ∧
      memcmp (minKey sparseIndex i) (keyAt cfg mem c.buffer) ≠ .gt ∧
      memcmp (keyAt cfg mem c.buffer) (maxKey sparseIndex i) ≠ .gt) ↔
    pool.keysBelow cfg mem (minKey sparseIndex i) ≤ j ∧
      j < pool.keysUpTo cfg mem (maxKey sparseIndex i) := by
  constructor
  · rintro ⟨c, hc, hmin, hmax⟩
    rw [Ne, memcmp_gt_iff, below_iff hsorted _ hc] at hmin
    exact ⟨Nat.not_lt.1 hmin, (upTo_iff hsorted _ hc).1 hmax⟩
  · rintro ⟨hmin, hmax⟩
    have hc := List.getElem?_eq_getElem (hmax.trans_le (keysUpTo_le _))
    refine ⟨_, hc, ?_, (upTo_iff hsorted _ hc).2 hmax⟩
    rw [Ne, memcmp_gt_iff, below_iff hsorted _ hc]
    exact Nat.not_lt.2 hmin

theorem toUint_natCast {n : ℕ} (hn : n < 2 ^ 32) : toUint (n : ℤ) = n := by
  rw [toUint]
  omega

/-- A search from behind the pool answers where it started, which is `-1` again. -/
theorem search_from_none (hlen : pool.entries.length < uintMax) {fuel : ℕ} {buffer : Bytes} :
    pool.wrappedFindIndexStartingFrom cfg mem fuel uintMax buffer = .ok (-1) := by
  have hsearch : pool.wrappedSearch cfg mem fuel uintMax buffer = .ok uintMax :=
    wrappedBisect_of_le hlen.le
  refine bind_eq_ok.2 ⟨uintMax, hsearch, ?_⟩
  rw [if_neg hlen.ne', if_neg (by decide)]
  rfl

theorem visitsRange_nil (hzero : pool.entries.length = 0) : VisitsRange mem pool sparseIndex i := by
  have hbehind : pool.entries.length < uintMax := by
    rw [hzero]
    decide
  refine ⟨0, 0, -1, -1, wrappedFindIndexStartingFrom_nil hzero, search_from_none hbehind,
    fun j => ⟨fun h => ?_, ?_⟩⟩
  · omega
  · rintro ⟨c, hc, -⟩
    have := (List.getElem?_eq_some_iff.1 hc).1
    omega

/-- There is one pair of answers only. -/
theorem visitsRange_of_answers (hsorted : pool.SortedByKey cfg mem) {fuel fuel' : ℕ}
    {left right : ℤ}
    (hleft : pool.wrappedFindIndexStartingFrom cfg mem fuel 0 (sparseIndex.getTableMinKey i)
      = .ok left)
    (hright : pool.wrappedFindIndexStartingFrom cfg mem fuel' (toUint left)
      (sparseIndex.getTableMaxKey i) = .ok right) :
    VisitsRange mem pool sparseIndex i ↔ ∀ j, (toUint left ≤ j ∧ j < toUint right) ↔
      pool.keysBelow cfg mem (minKey sparseIndex i) ≤ j ∧
        j < pool.keysUpTo cfg mem (maxKey sparseIndex i) := by
  simp only [← inRange_iff hsorted]
  constructor
  · rintro ⟨_, _, left', right', hleft', hright', hvisits⟩
    obtain rfl := wrappedFindIndexStartingFrom_unique hleft hleft'
    obtain rfl := wrappedFindIndexStartingFrom_unique hright hright'
    exact hvisits
  · intro hvisits
    exact ⟨_, _, left, right, hleft, hright, hvisits⟩

/-- The range from `a` to `c`, as far as the loop goes: to the place `b` where the second search
ends, or without end. -/
theorem ends_iff {length a b c : ℕ} (hlen : length ≤ 2 ^ 31) (ha : a < length) (hb : b ≤ c)
    (hc : c ≤ length) :
    (∀ j, (a ≤ j ∧ j < toUint (indexOrNone length (max a b))) ↔ a ≤ j ∧ j < c) ↔
      b < length ∧ (c ≤ a ∨ b = c) := by
  rw [indexOrNone]
  by_cases hend : max a b = length
  · rw [if_pos hend, toUint_neg_one]
    -- the loop goes on behind the last request
    refine iff_of_false (fun hall => ?_) (by omega)
    have hbehind := (hall length).1 ⟨ha.le, by simp only [uintMax]; omega⟩
    omega
  · rw [if_neg hend, toUint_natCast (by omega)]
    rcases Nat.le_total a b with hab | hba
    · rw [max_eq_right hab] at hend ⊢
      constructor
      · intro hall
        have hatEnd := hall b
        have hatUpTo := hall c
        omega
      · intro hends j
        omega
    · rw [max_eq_left hba] at hend ⊢
      constructor
      · intro hall
        have hatStart := hall a
        omega
      · intro hends j
        omega

/-- Of the two answers only the second one can be wrong for the loop: where no request is at or
above the maximum key, and where one is at it. -/
theorem visitsRange_iff (hsorted : pool.SortedByKey cfg mem) (hpos : 0 < pool.entries.length)
    (hmin : pool.SearchAgrees cfg mem (sparseIndex.getTableMinKey i))
    (hmax : pool.SearchAgrees cfg mem (sparseIndex.getTableMaxKey i)) :
    VisitsRange mem pool sparseIndex i ↔
      pool.keysBelow cfg mem (minKey sparseIndex i) = pool.entries.length ∨
      pool.keysBelow cfg mem (maxKey sparseIndex i) < pool.entries.length ∧
        (pool.keysUpTo cfg mem (maxKey sparseIndex i)
            ≤ pool.keysBelow cfg mem (minKey sparseIndex i) ∨
          pool.keysBelow cfg mem (maxKey sparseIndex i)
            = pool.keysUpTo cfg mem (maxKey sparseIndex i)) := by
  have hlen := hmin.length
  have hbelow : pool.keysBelow cfg mem (minKey sparseIndex i) ≤ pool.entries.length :=
    keysBelow_le _
  obtain ⟨fuel, hleft⟩ : ∃ fuel, pool.wrappedFindIndexStartingFrom cfg mem fuel 0
      (sparseIndex.getTableMinKey i) = .ok (indexOrNone pool.entries.length
        (max 0 (pool.keysBelow cfg mem (minKey sparseIndex i)))) :=
    hmin.answer hsorted hpos (Nat.zero_le _)
  rw [Nat.zero_max, indexOrNone] at hleft
  by_cases hnone : pool.keysBelow cfg mem (minKey sparseIndex i) = pool.entries.length
  · -- the first search finds nothing, and the second one starts behind the pool
    rw [if_pos hnone] at hleft
    have hbehind : pool.entries.length < uintMax := by
      simp only [uintMax]
      omega
    refine iff_of_true ?_ (.inl hnone)
    have hfrom : pool.wrappedFindIndexStartingFrom cfg mem 0 (toUint (-1))
        (sparseIndex.getTableMaxKey i) = .ok (-1) := search_from_none hbehind
    rw [visitsRange_of_answers hsorted hleft hfrom]
    have hupTo : pool.keysUpTo cfg mem (maxKey sparseIndex i) ≤ pool.entries.length :=
      keysUpTo_le _
    intro j
    rw [toUint_neg_one]
    omega
  · rw [if_neg hnone] at hleft
    obtain ⟨fuel', hright⟩ : ∃ fuel', pool.wrappedFindIndexStartingFrom cfg mem fuel'
        (pool.keysBelow cfg mem (minKey sparseIndex i)) (sparseIndex.getTableMaxKey i)
        = .ok (indexOrNone pool.entries.length
          (max (pool.keysBelow cfg mem (minKey sparseIndex i))
            (pool.keysBelow cfg mem (maxKey sparseIndex i)))) :=
      hmax.answer hsorted hpos hbelow
    have hstart : toUint (pool.keysBelow cfg mem (minKey sparseIndex i) : ℕ)
        = pool.keysBelow cfg mem (minKey sparseIndex i) := toUint_natCast (by omega)
    rw [visitsRange_of_answers hsorted hleft (hstart.symm ▸ hright), hstart]
    refine (ends_iff hlen (by omega) (keysBelow_le_keysUpTo _) (keysUpTo_le _)).trans ?_
    exact (or_iff_right hnone).symm

/-- **The range search.**  In a sorted pool both searches for the keys of an SSTable answer right
from every start and the loop visits the requests between these keys, both included, if and only if
the pool is empty or the searches and the end of the range agree with the keys. -/
theorem rangeSearch_iff (hsorted : pool.SortedByKey cfg mem)
    (hlen : pool.entries.length ≤ uintMax) :
    RangeSearch mem pool sparseIndex i ↔
      pool.entries.length = 0 ∨ RangeAgrees mem pool sparseIndex i := by
  rcases Nat.eq_zero_or_pos pool.entries.length with hzero | hpos
  · have hfinds : ∀ buffer, pool.FindsLeast cfg mem buffer := fun _ =>
      (findsLeast_iff hsorted hlen).2 (.inl hzero)
    exact iff_of_true ⟨hfinds _, hfinds _, visitsRange_nil hzero⟩ (.inl hzero)
  · constructor
    · rintro ⟨hmin, hmax, hvisits⟩
      have hmin := ((findsLeast_iff hsorted hlen).1 hmin).resolve_left hpos.ne'
      have hmax := ((findsLeast_iff hsorted hlen).1 hmax).resolve_left hpos.ne'
      exact .inr ⟨hmin, hmax, (visitsRange_iff hsorted hpos hmin hmax).1 hvisits⟩
    · rintro (hzero | ⟨hmin, hmax, hends⟩)
      · omega
      · exact ⟨(findsLeast_iff hsorted hlen).2 (.inr hmin),
          (findsLeast_iff hsorted hlen).2 (.inr hmax),
          (visitsRange_iff hsorted hpos hmin hmax).2 hends⟩

end Range

/-- Two READ requests, for `"b"` and `"d"`. -/
def bAndD : ReadWritePool where
  entries := [⟨.read, 0, 1, 0⟩, ⟨.read, 0, 2, 8⟩]

/-- Memory with the keys of these requests. -/
def bAndDMemory : Memory := fun p => if p = 5 then 98 else if p = 13 then 100 else 0

/-- SSTable 0 from `"b"` to `"c"`, and the same bytes five further. -/
def bToC : SparseIndex shippedConfig where
  index := [98, 99, 0, 0, 0, 98, 99] ++ nulBytes 13
  length_index := rfl

theorem sortedByKey_bAndD : bAndD.SortedByKey shippedConfig bAndDMemory := by
  unfold SortedByKey
  decide

theorem rangeSearch_bToC : RangeSearch bAndDMemory bAndD bToC 0 := by
  have hfirst : ∀ c, bAndD.entries[0]? = some c →
      keyAt shippedConfig bAndDMemory c.buffer = [98] := by
    rintro _ ⟨⟩
    decide
  refine (rangeSearch_iff sortedByKey_bAndD (by decide)).2 (.inr ⟨?_, ?_, .inr (by decide)⟩)
  · exact ⟨by decide, by decide, .inl ⟨by decide, fun _ => hfirst⟩⟩
  · exact ⟨by decide, by decide, .inl ⟨by decide, by decide⟩⟩

/-- One READ request, for `"c"`. -/
def onlyC : ReadWritePool where
  entries := [⟨.read, 0, 1, 0⟩]

def onlyCMemory : Memory := fun p => if p = 5 then 99 else 0

/-- SSTable 0 from `"a"` to `"z"`. -/
def aToZ : SparseIndex shippedConfig where
  index := [97, 122] ++ nulBytes 18
  length_index := rfl

/-- As shipped, the request for `"c"` is not found from `"a"` on: the search reads the NUL five
bytes further, ends at index `0` and answers `-1`, since the first key is not NUL. -/
theorem aToZ_misses_c : onlyC.SortedByKey shippedConfig onlyCMemory ∧
    ¬ RangeSearch onlyCMemory onlyC aToZ 0 := by
  have hsorted : onlyC.SortedByKey shippedConfig onlyCMemory := List.pairwise_singleton _ _
  refine ⟨hsorted, fun h => ?_⟩
  rcases (findsLeast_iff hsorted (by decide)).1 h.findsMin with hzero | hagrees
  · exact absurd hzero (by decide)
  · exact absurd hagrees.agrees (by decide)

end RingDB.LevelInfo
