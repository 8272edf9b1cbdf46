import RingDB.LevelZero.ArrivalOrder
import RingDB.Requests.PoolSlots

/-!
# What the pool of a batch is

The calls of `RequestBatch::insert_read_write` for one batch, on the array of its pool.  As long as
the keys stand in the buffers the array is what the list of `ReadWritePool` says it is, and that
list is the sorted list of the requests (`fillBatch_eq`).

* `fillSlots_represents` — the calls on the array and on the list, side by side.
* **`pool_sorted_multiset`** — after every call the filled slots are sorted by key, they are the
  requests that were inserted, each as often as it was, and all belong to the batch.
-/

namespace RingDB

open Core

variable {cfg : Config}

/-- The calls of `insert_read_write` for the batch object `ref`, which hands itself to its pool. -/
def fillSlots (cfg : Config) (allocated : List ConnectionRequest) (ref : ℕ) :
    PoolSlots → List Arrival → Except Fault PoolSlots
  | slots, [] => .ok slots
  | slots, a :: as => do
      let slots ← slots.insertReadWrite cfg a.mem allocated (a.request ref)
      fillSlots cfg allocated ref slots as

/-- The requests of a pool, as an array. -/
def PoolSlots.requests (slots : PoolSlots) : List ConnectionRequest :=
  slots.data.take slots.length

/-- What a request asks for: its buffer, its client and its type. -/
def ConnectionRequest.triple (c : ConnectionRequest) : ℕ × ℤ × RequestType :=
  (c.buffer, c.clientSockFd, c.reqType)

def Arrival.triple (a : Arrival) : ℕ × ℤ × RequestType := (a.buffer, a.clientSockFd, a.reqType)

/-- The pool `slots` of batch `ref`, with memory as it is now and after `inserted`. -/
structure SortedMultiset (cfg : Config) (mem : Memory) (ref : ℕ) (inserted : List Arrival)
    (slots : PoolSlots) : Prop where
  length : slots.length = inserted.length
  sorted : slots.requests.Pairwise fun c d =>
    memcmp (keyAt cfg mem c.buffer) (keyAt cfg mem d.buffer) ≠ .gt
  multiset : (slots.requests.map ConnectionRequest.triple).Perm (inserted.map Arrival.triple)
  owned : ∀ c ∈ slots.requests, c.reqBatchRef = ref

/-- The keys that stand in `mem`. -/
def standingIn (cfg : Config) (mem : Memory) : Filling cfg where
  arrivals := []
  final := mem
  fits := Nat.zero_le _
  arrived := fun _ h => absurd h List.not_mem_nil
  stands := .nil

theorem fillSlots_represents {slots : PoolSlots} {b b' : RequestBatch cfg} {ref : ℕ}
    {allocated : List ConnectionRequest} (halloc : allocated.length = cfg.pageSize)
    {as : List Arrival} (hr : slots.Represents cfg b.readwritePool)
    (hfits : b.readwritePool.entries.length + as.length ≤ cfg.pageSize)
    (h : fillBatch ref b as = .ok b') :
    ∃ slots', fillSlots cfg allocated ref slots as = .ok slots' ∧
      slots'.Represents cfg b'.readwritePool := by
  induction as generalizing slots b with
  | nil =>
      cases h
      exact ⟨slots, rfl, hr⟩
  | cons a as ih =>
      rw [List.length_cons] at hfits
      rcases bind_eq_ok.1 h with ⟨b₁, hfirst, hrest⟩
      rcases bind_eq_ok.1 hfirst with ⟨pool, hins, ⟨⟩⟩
      rcases @PoolSlots.insertReadWrite_represents cfg a.mem _ _ _ hr halloc (a.request ref)
        (by omega) with ⟨slots₁, pool', hslots, hins', hr₁⟩
      obtain rfl : pool = pool' := Except.ok.inj (hins.symm.trans hins')
      have hlen := ReadWritePool.insertReadWrite_length hins
      rcases ih (b := { b with readwritePool := pool }) hr₁ (by simp only [hlen]; omega) hrest
        with ⟨slots', hrun, hr'⟩
      exact ⟨slots', by simp only [fillSlots, hslots, bind, Except.bind]; exact hrun, hr'⟩

/-- Requests in the order of their keys are sorted by `memcmp`. -/
theorem memcmp_ne_gt_of_keyLe {mem : Memory} {c d : ConnectionRequest}
    (h : KeyLe (standingIn cfg mem).keyOf c d) :
    memcmp (keyAt cfg mem c.buffer) (keyAt cfg mem d.buffer) ≠ .gt := by
  intro hgt
  exact absurd (memcmp_lt_iff.1 (memcmp_gt_iff.1 hgt)) (not_lt.2 h)

/-- **The pool is a sorted multiset owned by its batch.**  For any sequence of insertions into an
empty pool, of which `a` is the last: if there are fewer than `PAGE_SIZE` of them and the keys stay
what they were at the insertions, all of them have an outcome, and after `a` the filled slots are
sorted, the requests inserted so far, and those of batch `ref`. -/
theorem pool_sorted_multiset {allocated : List ConnectionRequest}
    (halloc : allocated.length = cfg.pageSize) {empty : PoolSlots} (hempty : empty.length = 0)
    (ref : ℕ) (as : List Arrival) (a : Arrival) (hfew : (as ++ [a]).length < cfg.pageSize)
    (hkeys : (as ++ [a]).Pairwise fun x y =>
      keyAt cfg y.mem x.buffer = keyAt cfg x.mem x.buffer) :
    ∃ slots, fillSlots cfg allocated ref empty (as ++ [a]) = .ok slots ∧
      SortedMultiset cfg a.mem ref (as ++ [a]) slots := by
  set f := standingIn cfg a.mem
  -- with the last call the keys are the ones of all calls
  have hlast : ∀ x ∈ as ++ [a], keyAt cfg a.mem x.buffer = keyAt cfg x.mem x.buffer := by
    intro x hx
    rcases List.mem_append.1 hx with hx | hx
    · exact (List.pairwise_append.1 hkeys).2.2 x hx a List.mem_cons_self
    · rw [List.mem_singleton.1 hx]
  have hstands : (as ++ [a]).Pairwise fun x y =>
      keyAt cfg y.mem x.buffer = keyAt cfg f.final x.buffer := by
    refine hkeys.imp_of_mem ?_
    intro x y hx _ hxy
    exact hxy.trans (hlast x hx).symm
  have hnone : ∀ e : ConnectionRequest, e ∉ (RequestBatch.zeroed cfg .read).readwritePool.entries :=
    fun e => List.not_mem_nil
  have hfill := @fillBatch_eq cfg f ref (.zeroed cfg .read) _
    (by simpa [RequestBatch.zeroed] using hfew.le) .nil (fun e he => absurd he (hnone e))
    (fun e he => absurd he (hnone e)) (fun x hx => (hlast x hx).symm) hstands
  have hr : empty.Represents cfg (RequestBatch.zeroed cfg .read).readwritePool :=
    ⟨hempty, by rw [hempty]; rfl, fun h => absurd hempty h⟩
  rcases fillSlots_represents halloc hr (by simpa [RequestBatch.zeroed] using hfew.le) hfill
    with ⟨slots, hrun, hslots⟩
  have hentries : slots.requests
      = ((as ++ [a]).map (Arrival.request ref)).reverse.insertionSort (KeyLe f.keyOf) := by
    rw [PoolSlots.requests, hslots.filled, List.insertionSort, List.foldr_reverse]
    rfl
  have hperm : slots.requests.Perm ((as ++ [a]).map (Arrival.request ref)) := by
    rw [hentries]
    exact (List.perm_insertionSort _ _).trans (List.reverse_perm _)
  refine ⟨slots, hrun, ?_, ?_, ?_, ?_⟩
  · rw [hslots.length, ← hslots.filled]
    exact hperm.length_eq.trans (List.length_map _)
  · rw [hentries]
    exact (List.pairwise_insertionSort _ _).imp memcmp_ne_gt_of_keyLe
  · refine (hperm.map _).trans (List.Perm.of_eq ?_)
    rw [List.map_map]
    rfl
  · intro c hc
    rcases List.mem_map.1 (hperm.mem_iff.1 hc) with ⟨x, -, rfl⟩
    rfl

/-- The array of a pool with the shipped values. -/
def zeroedSlots : List ConnectionRequest :=
  List.replicate shippedConfig.pageSize ⟨.read, 0, 0, 0⟩

/-- Two requests for the key `a`. -/
theorem twoWrites_sorted :
    ∃ slots, fillSlots shippedConfig zeroedSlots 7 {} twoWrites = .ok slots ∧
      SortedMultiset shippedConfig (fun _ => 97) 7 twoWrites slots :=
  @pool_sorted_multiset shippedConfig _ (List.length_replicate ..) _ rfl 7
    [⟨fun _ => 97, 0, 1, .write⟩] ⟨fun _ => 97, 1, 2, .write⟩ (by decide) (by decide)

end RingDB
