import Mathlib.Data.List.Lex
import RingDB.Core.Sort
import RingDB.LevelZero.Routing

/-!
# The order in which the requests of a batch are worked off

The network thread inserts every request it receives into the pool of its current batch, sorted by
key, and the request loop works the pool off from front to back.  Among requests for one key the
insertion places a new one *before* those that are there: the binary search looks for the first
entry whose key is not below the new one.

* **`fill_eq`** — the pool is the stable sort of the requests in the *reverse* order of their
  arrival.
* **`arrivalOrder_iff`** — the requests of every key are worked off in the order of their arrival if
  and only if for every key this order is the same backwards.
-/

namespace RingDB

open Core

variable {cfg : Config}

/-- A request as the RECV branch hands it to the batch, with memory at that moment. -/
structure Arrival where
  mem : Memory
  buffer : ℕ
  clientSockFd : ℤ
  reqType : RequestType

/-- The entry for it in the pool of batch object `ref`. -/
def Arrival.request (ref : ℕ) (a : Arrival) : ConnectionRequest :=
  ⟨a.reqType, ref, a.clientSockFd, a.buffer⟩

/-- The requests that are received into one batch, in the order of their arrival.  A request is one
for the key that stands in its buffer from its arrival until the main loop takes the batch. -/
structure Filling (cfg : Config) where
  arrivals : List Arrival
  /-- Memory when the main loop takes the batch. -/
  final : Memory
  fits : arrivals.length ≤ cfg.batchNumRequests
  arrived : ∀ a ∈ arrivals, keyAt cfg a.mem a.buffer = keyAt cfg final a.buffer
  stands : arrivals.Pairwise fun a b => keyAt cfg b.mem a.buffer = keyAt cfg final a.buffer

/-- The calls of `insert_read_write` for the batch object `ref`. -/
def fillBatch (ref : ℕ) : RequestBatch cfg → List Arrival → Except Fault (RequestBatch cfg)
  | b, [] => .ok b
  | b, a :: as => do
      let b ← b.insertReadWrite a.mem ref a.buffer a.clientSockFd a.reqType
      fillBatch ref b as

namespace Filling

/-- The requests as entries of batch object `ref`, in the order of their arrival. -/
def requests (f : Filling cfg) (ref : ℕ) : List ConnectionRequest :=
  f.arrivals.map (Arrival.request ref)

/-- Those for one key. -/
def requestsFor (f : Filling cfg) (ref : ℕ) (key : Bytes) : List ConnectionRequest :=
  (f.requests ref).filter (keyAt cfg f.final ·.buffer = key)

/-- The key of a request, as a string of numbers. -/
def keyOf (f : Filling cfg) (c : ConnectionRequest) : List ℕ :=
  (keyAt cfg f.final c.buffer).map UInt8.toNat

/-- The requests by key, those of one key in the order of their arrival. -/
def inArrivalOrder (f : Filling cfg) (ref : ℕ) : List ConnectionRequest :=
  (f.requests ref).insertionSort (KeyLe f.keyOf)

end Filling

/-- The requests of each key stand in the pool of `b` in the order of their arrival, and working the
pool off leads to the same state as working the requests off by key and arrival. -/
structure KeepsArrivalOrder {Z : LevelZero cfg} (alloc : Allocator cfg) (s : MainState Z)
    (f : Filling cfg) (ref : ℕ) (b : RequestBatch cfg) : Prop where
  order : ∀ key, b.readwritePool.entries.filter (keyAt cfg f.final ·.buffer = key)
    = f.requestsFor ref key
  state : runEvents (MainState.step alloc) s (b.readwritePool.entries.map .request)
    = runEvents (MainState.step alloc) s ((f.inArrivalOrder ref).map .request)

section

variable {f : Filling cfg} {ref : ℕ}

theorem keyOf_eq_iff {c : ConnectionRequest} {key : Bytes} :
    f.keyOf c = key.map UInt8.toNat ↔ keyAt cfg f.final c.buffer = key :=
  (List.map_injective_iff.2 fun _ _ => UInt8.toNat_inj.1).eq_iff

/-- The requests for a key, by the numbers of the key. -/
theorem filter_keyOf (l : List ConnectionRequest) (key : Bytes) :
    l.filter (keyAt cfg f.final ·.buffer = key) = l.filter (f.keyOf · = key.map UInt8.toNat) := by
  simp only [keyOf_eq_iff]

/-- Numbers that are not those of a key of the pool select nothing. -/
theorem filter_keyOf_eq {l₁ l₂ : List ConnectionRequest}
    (h : ∀ key, l₁.filter (keyAt cfg f.final ·.buffer = key)
      = l₂.filter (keyAt cfg f.final ·.buffer = key)) (k : List ℕ) :
    l₁.filter (f.keyOf · = k) = l₂.filter (f.keyOf · = k) := by
  by_cases hk : ∃ key : Bytes, key.map UInt8.toNat = k
  · rcases hk with ⟨key, rfl⟩
    rw [← filter_keyOf, ← filter_keyOf]
    exact h key
  · have hnone : ∀ c : ConnectionRequest, f.keyOf c ≠ k := fun c hc => hk ⟨_, hc⟩
    simp [hnone]

/-! ## One insertion -/

/-- The shifting loop inserts, where all entries belong to the same batch. -/
theorem shiftRight_eq_cons {c : ConnectionRequest} {l : List ConnectionRequest}
    (h : ∀ e ∈ l, e.reqBatchRef = c.reqBatchRef) : ReadWritePool.shiftRight c l = c :: l := by
  induction l generalizing c with
  | nil => rfl
  | cons e l ih =>
      have he : e.reqBatchRef = c.reqBatchRef := h e List.mem_cons_self
      have hsame : { e with reqBatchRef := c.reqBatchRef } = e := by rw [← he]
      rw [ReadWritePool.shiftRight, hsame, ih]
      intro e' he'
      rw [he]
      exact h e' (List.mem_cons_of_mem _ he')

/-- A sorted pool, all of whose keys still stand: the new request goes to the front of those with
its key. -/
theorem insertReadWrite_eq {pool : ReadWritePool} {mem : Memory} {c : ConnectionRequest}
    (hroom : pool.entries.length < cfg.pageSize) (hsorted : pool.entries.Pairwise (KeyLe f.keyOf))
    (href : ∀ e ∈ pool.entries, e.reqBatchRef = c.reqBatchRef)
    (hstands : ∀ e ∈ c :: pool.entries, keyAt cfg mem e.buffer = keyAt cfg f.final e.buffer) :
    pool.insertReadWrite cfg mem c
      = .ok { pool with entries := pool.entries.orderedInsert (KeyLe f.keyOf) c } := by
  have hbelow : ∀ j e, pool.entries[j]? = some e →
      pool.keyBelow cfg mem (keyAt cfg mem c.buffer) j = .ok (decide (f.keyOf e < f.keyOf c)) := by
    intro j e he
    have hin : e ∈ c :: pool.entries := List.mem_cons_of_mem _ (List.mem_of_getElem? he)
    simp only [ReadWritePool.keyBelow, he, hstands e hin, hstands c List.mem_cons_self,
      Except.ok.injEq]
    rw [Bool.eq_iff_iff, beq_iff_eq, decide_eq_true_eq]
    exact memcmp_lt_iff
  have hplace : bisect (pool.keyBelow cfg mem (keyAt cfg mem c.buffer)) (· + 1)
      pool.entries.length 0 pool.entries.length = .ok (placeOf f.keyOf c pool.entries) := by
    refine bisect_boundary (Nat.zero_le _) (placeOf_le _ _) (by omega) ?_ ?_
    · intro j _ hj
      have hj' : j < pool.entries.length := hj.trans_le (placeOf_le _ _)
      have he := List.getElem?_eq_getElem hj'
      rw [hbelow j _ he, decide_eq_true (key_lt_of_lt_placeOf hj he)]
    · intro j hj hj'
      have he := List.getElem?_eq_getElem hj'
      rw [hbelow j _ he, decide_eq_false (not_key_lt_of_placeOf_le hsorted hj he)]
  have hshift : ReadWritePool.shiftRight c (pool.entries.drop (placeOf f.keyOf c pool.entries))
      = c :: pool.entries.drop (placeOf f.keyOf c pool.entries) :=
    shiftRight_eq_cons fun e he => href e (List.mem_of_mem_drop he)
  rw [ReadWritePool.insertReadWrite, if_pos hroom, hplace]
  simp only [bind, Except.bind, pure, Except.pure, hshift, take_drop_eq_orderedInsert]

/-! ## All of them -/

/-- The batch after further arrivals. -/
theorem fillBatch_eq {b : RequestBatch cfg} {as : List Arrival}
    (hfits : b.readwritePool.entries.length + as.length ≤ cfg.pageSize)
    (hsorted : b.readwritePool.entries.Pairwise (KeyLe f.keyOf))
    (href : ∀ e ∈ b.readwritePool.entries, e.reqBatchRef = ref)
    (hold : ∀ e ∈ b.readwritePool.entries, ∀ a ∈ as,
      keyAt cfg a.mem e.buffer = keyAt cfg f.final e.buffer)
    (harrived : ∀ a ∈ as, keyAt cfg a.mem a.buffer = keyAt cfg f.final a.buffer)
    (hstands : as.Pairwise fun a a' => keyAt cfg a'.mem a.buffer = keyAt cfg f.final a.buffer) :
    fillBatch ref b as = .ok { b with
      readwritePool := { b.readwritePool with
        entries := (as.map (Arrival.request ref)).foldl
          (fun l c => l.orderedInsert (KeyLe f.keyOf) c) b.readwritePool.entries } } := by
  induction as generalizing b with
  | nil => rfl
  | cons a as ih =>
      rw [List.length_cons] at hfits
      rw [List.pairwise_cons] at hstands
      have hkeys : ∀ e ∈ a.request ref :: b.readwritePool.entries,
          keyAt cfg a.mem e.buffer = keyAt cfg f.final e.buffer := by
        intro e he
        rcases List.mem_cons.1 he with rfl | he
        · exact harrived a List.mem_cons_self
        · exact hold e he a List.mem_cons_self
      have hins := insertReadWrite_eq (by omega) hsorted href hkeys
      have hmem : ∀ e, e ∈ b.readwritePool.entries.orderedInsert (KeyLe f.keyOf) (a.request ref) →
          e = a.request ref ∨ e ∈ b.readwritePool.entries :=
        fun e => (List.mem_orderedInsert _).1
      have hfirst : b.insertReadWrite a.mem ref a.buffer a.clientSockFd a.reqType
          = .ok { b with readwritePool := { b.readwritePool with
            entries := b.readwritePool.entries.orderedInsert (KeyLe f.keyOf)
              (a.request ref) } } := by
        simp only [Arrival.request] at hins
        simp only [RequestBatch.insertReadWrite, hins, bind, Except.bind, pure, Except.pure,
          Arrival.request]
      simp only [fillBatch, hfirst, bind, Except.bind]
      refine (ih ?_ (hsorted.orderedInsert _ _) ?_ ?_ ?_ hstands.2).trans rfl
      · simp only [List.orderedInsert_length]
        omega
      · intro e he
        rcases hmem e he with rfl | he
        · rfl
        · exact href e he
      · intro e he a' ha'
        rcases hmem e he with rfl | he
        · exact hstands.1 a' ha'
        · exact hold e he a' (List.mem_cons_of_mem _ ha')
      · exact fun a' ha' => harrived a' (List.mem_cons_of_mem _ ha')

/-- **The pool of a batch** that was empty and is filled is the stable sort of the requests, last
arrival first. -/
theorem fill_eq {b : RequestBatch cfg} (hempty : b.readwritePool.entries = []) (f : Filling cfg)
    (ref : ℕ) :
    ∃ b', fillBatch ref b f.arrivals = .ok b'
      ∧ b'.readwritePool.entries = (f.requests ref).reverse.insertionSort (KeyLe f.keyOf) := by
  have hnone : ∀ e, e ∉ b.readwritePool.entries := by
    rw [hempty]
    exact fun _ => List.not_mem_nil
  refine ⟨_, fillBatch_eq (f := f) ?_ ?_ ?_ ?_ f.arrived f.stands, ?_⟩
  · rw [hempty, List.length_nil, Nat.zero_add]
    exact f.fits.trans cfg.batchNumRequests_le_pageSize
  · rw [hempty]
    exact List.Pairwise.nil
  · exact fun e he => absurd he (hnone e)
  · exact fun e he => absurd he (hnone e)
  · show (f.requests ref).foldl (fun l c => List.orderedInsert (KeyLe f.keyOf) c l)
      b.readwritePool.entries = _
    rw [hempty, List.insertionSort, List.foldr_reverse]

end

/-- **When the arrival order is kept.**  For every batch whose pool is empty, whatever keys, clients
and types of requests are received into it: the requests of every key are worked off in the order of
their arrival, and the state after the batch is that of working them off so, if and only if for
every key the list of its requests is the same backwards. -/
theorem arrivalOrder_iff {Z : LevelZero cfg} (alloc : Allocator cfg) (s : MainState Z)
    (b₀ : RequestBatch cfg) (hempty : b₀.readwritePool.entries = []) (f : Filling cfg) (ref : ℕ) :
    (∃ b, fillBatch ref b₀ f.arrivals = .ok b ∧ KeepsArrivalOrder alloc s f ref b)
      ↔ ∀ key, (f.requestsFor ref key).reverse = f.requestsFor ref key := by
  rcases fill_eq hempty f ref with ⟨b, hb, hentries⟩
  have hfilter : ∀ key, b.readwritePool.entries.filter (keyAt cfg f.final ·.buffer = key)
      = (f.requestsFor ref key).reverse := by
    intro key
    rw [hentries, filter_keyOf, filter_insertionSort, ← filter_keyOf, List.filter_reverse,
      Filling.requestsFor]
  constructor
  · rintro ⟨b', hb', hkeeps⟩ key
    rw [hb] at hb'
    cases hb'
    rw [← hfilter]
    exact hkeeps.order key
  · intro hsame
    have horder : ∀ key, b.readwritePool.entries.filter (keyAt cfg f.final ·.buffer = key)
        = f.requestsFor ref key := fun key => (hfilter key).trans (hsame key)
    have hlist : b.readwritePool.entries = f.inArrivalOrder ref := by
      refine eq_of_filter_eq (κ := f.keyOf) ?_ (List.pairwise_insertionSort _ _) ?_
      · rw [hentries]
        exact List.pairwise_insertionSort _ _
      · refine filter_keyOf_eq fun key => ?_
        rw [horder, filter_keyOf, Filling.inArrivalOrder, filter_insertionSort, ← filter_keyOf,
          Filling.requestsFor]
    exact ⟨b, hb, horder, by rw [hlist]⟩

/-- Two clients in buffers of eight bytes, one with the letter `a` in every byte and one with
`b`. -/
def twoKeys : Filling shippedConfig where
  arrivals := [⟨fun i => if i < 8 then 97 else 98, 8, 1, .write⟩,
    ⟨fun i => if i < 8 then 97 else 98, 0, 2, .read⟩]
  final := fun i => if i < 8 then 97 else 98
  fits := by decide
  arrived := by decide
  stands := by decide

/-- A batch in memory that was in use before: its pool has no entries, but answers that were
sent. -/
def usedBatch : RequestBatch shippedConfig :=
  .new .read { RequestBatch.zeroed shippedConfig .send with readwritePool := ⟨[], 7, true⟩ }

/-- There is one request for each key. -/
theorem twoKeys_keepOrder :
    ∃ b, fillBatch 0 usedBatch twoKeys.arrivals = .ok b
      ∧ KeepsArrivalOrder (.zeroed shippedConfig)
        (freshMain shippedConfig (.zeroed shippedConfig) twoKeys.final) twoKeys 0 b := by
  refine (arrivalOrder_iff _ _ usedBatch rfl _ _).2 fun key => ?_
  have hkeys : keyAt shippedConfig twoKeys.final 8 = [98]
      ∧ keyAt shippedConfig twoKeys.final 0 = [97] := by decide
  have hlist : twoKeys.requests 0 = [⟨.write, 0, 1, 8⟩, ⟨.read, 0, 2, 0⟩] := rfl
  rw [Filling.requestsFor, hlist]
  simp only [List.filter_cons, List.filter_nil, hkeys]
  by_cases hb : [98] = key
  · subst hb
    rfl
  · by_cases ha : [97] = key
    · subst ha
      rfl
    · simp [ha, hb]

/-- Two clients, in adjacent buffers from address 0 on, of which every byte is the letter `a`. -/
def twoWrites : List Arrival :=
  [⟨fun _ => 97, 0, 1, .write⟩, ⟨fun _ => 97, 1, 2, .write⟩]

theorem twoWrites_fit : twoWrites.length ≤ shippedConfig.batchNumRequests := by decide

theorem twoWrites_arrived :
    ∀ a ∈ twoWrites, keyAt shippedConfig a.mem a.buffer
      = keyAt shippedConfig (fun _ => 97) a.buffer := by decide

theorem twoWrites_stand :
    twoWrites.Pairwise fun a b => keyAt shippedConfig b.mem a.buffer
      = keyAt shippedConfig (fun _ => 97) a.buffer := by decide

/-- Both write the key `a`. -/
def sameKey : Filling shippedConfig where
  arrivals := twoWrites
  final := fun _ => 97
  fits := twoWrites_fit
  arrived := twoWrites_arrived
  stands := twoWrites_stand

/-- The second write is worked off first. -/
theorem later_write_first :
    ∃ b, fillBatch 0 (.zeroed shippedConfig .read) sameKey.arrivals = .ok b
      ∧ b.readwritePool.entries = [⟨.write, 0, 2, 1⟩, ⟨.write, 0, 1, 0⟩]
      ∧ ¬ KeepsArrivalOrder (.zeroed shippedConfig)
        (freshMain shippedConfig (.zeroed shippedConfig) sameKey.final) sameKey 0 b := by
  obtain ⟨b, hb, htest⟩ := okAnd_iff.1 (show okAnd
    (fillBatch 0 (.zeroed shippedConfig .read) sameKey.arrivals)
    (fun b => decide (b.readwritePool.entries = [⟨.write, 0, 2, 1⟩, ⟨.write, 0, 1, 0⟩])) = true
    by decide +kernel)
  rw [decide_eq_true_eq] at htest
  refine ⟨b, hb, htest, fun hkeeps => ?_⟩
  have horder := hkeeps.order [97]
  rw [htest] at horder
  exact absurd horder (by decide +kernel)

end RingDB
