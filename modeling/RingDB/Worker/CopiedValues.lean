import Mathlib.Data.Set.Insert
import RingDB.Worker.Answers
import RingDB.Worker.BatchOrder

/-!
# What the workers write into the socket buffers

The only memory that a worker writes to are the value fields of the requests in the batches it
searches for, and all it writes there are values that stand beside the key of the request in a
page-cache buffer.  That is so whatever the stack slots, the account of the cache and the offsets
are that a search goes by: a search that goes wrong finds nothing, or what stands with the right
key.

* `Copies` — one value is copied.
* `tryRead_copies`, `turn_copies` — a search and a turn do nothing else to the memory.
* **`answers_from_buffers`** — in every run, from any state on, a request keeps its type and its
  key, and what it gets as its value stood beside its key in a buffer.
-/

namespace RingDB

open Core Relation

variable {cfg : Config}

/-- Somewhere in the buffer `value` stands beside `key`. -/
def Beside (cfg : Config) (buffer key value : Bytes) : Prop :=
  ∃ i, readAt buffer (i * cfg.memtableEntryLength) cfg.keyLength = .ok key ∧
    readAt buffer (i * cfg.memtableEntryLength + cfg.keyLength) cfg.valueLength = .ok value

namespace SSTableInfo

/-- A value that stands beside the key of a request is copied into its socket buffer. -/
def Copies (heap : Heap cfg) (t : SSTableInfo cfg) (mem mem' : Memory) : Prop :=
  ∃ pool c buffer value, t.pool heap = .ok pool ∧ c ∈ pool.entries ∧ buffer ∈ t.cache.buffers ∧
    Beside cfg buffer (keyAt cfg mem c.buffer) value ∧
    mem' = store mem (c.buffer + 5 + cfg.keyLength) value

section

variable {heap : Heap cfg} {mem : Memory} {t t' : SSTableInfo cfg} {r : ReadState cfg}

/-- It does not matter at which point of its search an SSTable is. -/
theorem Attached.copies (h : Attached t t') : t'.Copies heap = t.Copies heap := by
  unfold Copies SSTableInfo.pool
  rw [h.reqBatch, h.buffers]

/-- An equal key that the loop in a buffer reports stands where the loop ended. -/
theorem searchBuffer_eq {buffer : Bytes} {key : Except Fault Bytes} {n fuel index index' : ℕ}
    {res : Option Ordering} (hres : res ≠ some .eq)
    (h : searchBuffer cfg buffer key n fuel index res = .ok (index', some .eq)) :
    ∃ k, key = .ok k ∧ readAt buffer (index' * cfg.memtableEntryLength) cfg.keyLength = .ok k := by
  induction fuel generalizing index res with
  | zero => cases h
  | succ fuel ih =>
      rw [searchBuffer] at h
      split_ifs at h
      · rcases bind_eq_ok.1 h with ⟨entry, hentry, h⟩
        split_ifs at h
        · cases h
          exact absurd rfl hres
        · rcases bind_eq_ok.1 h with ⟨k, hk, h⟩
          cases hcmp : memcmp entry k with
          | eq =>
              simp only [hcmp] at h
              cases h
              rw [memcmp_eq_iff] at hcmp
              exact ⟨k, hk, hcmp ▸ hentry⟩
          | gt =>
              simp only [hcmp] at h
              exact ih (by simp) h
          | lt =>
              simp only [hcmp] at h
              exact ih (by simp) h
      · cases h
        exact absurd rfl hres

/-- The search of a buffer that is there. -/
theorem searchCached_eq {location : CacheLocation} {cur index : ℕ}
    (h : t.searchCached heap mem location cur = .ok (index, some .eq)) :
    ∃ pool c, t.pool heap = .ok pool ∧ pool.entries[cur]? = some c ∧
      t.cache.buffers.getD location.bufferId [] ∈ t.cache.buffers ∧
      readAt (t.cache.buffers.getD location.bufferId []) (index * cfg.memtableEntryLength)
        cfg.keyLength = .ok (keyAt cfg mem c.buffer) := by
  rcases bind_eq_ok.1 h with ⟨pool, hpool, h⟩
  cases hbuffer : t.cache.buffers[location.bufferId]? with
  | none =>
      simp only [hbuffer] at h
      cases h
  | some buffer =>
      simp only [hbuffer] at h
      have hget : t.cache.buffers.getD location.bufferId [] = buffer := by
        simp [List.getD_eq_getElem?_getD, hbuffer]
      rcases searchBuffer_eq (by simp) h with ⟨k, hk, hread⟩
      rcases map_eq_ok.1 hk with ⟨address, haddress, rfl⟩
      unfold requestBuffer at haddress
      split at haddress
      · cases haddress
      · next c hc =>
          cases haddress
          rw [hget]
          exact ⟨pool, c, hpool, hc, List.mem_of_getElem? hbuffer, hread⟩

theorem continueCached_copies {location : CacheLocation} {cur : ℕ}
    (h : t.continueCached heap mem location cur = .ok r) :
    r.mem = mem ∨ t.Copies heap mem r.mem := by
  rcases bind_eq_ok.1 h with ⟨⟨index, res⟩, hsearch, h⟩
  cases res with
  | none => cases h
  | some res =>
      cases res with
      | eq =>
          rcases searchCached_eq hsearch with ⟨pool, c, hpool, hc, hmem, hkey⟩
          rcases bind_eq_ok.1 h with ⟨pool', hpool', h⟩
          rw [hpool] at hpool'
          cases hpool'
          rcases bind_eq_ok.1 h with ⟨address, haddress, h⟩
          simp only [requestBuffer, hc] at haddress
          cases haddress
          rcases bind_eq_ok.1 h with ⟨value, hvalue, h⟩
          rcases bind_eq_ok.1 h with ⟨t₁, -, h⟩
          cases h
          exact .inr ⟨pool, c, _, value, hpool, List.mem_of_getElem? hc, hmem,
            ⟨index, hkey, hvalue⟩, rfl⟩
      | lt =>
          cases h
          exact .inl rfl
      | gt =>
          cases h
          exact .inl rfl

/-- **One pass** copies a value or leaves the memory alone. -/
theorem readPass_copies (h : t.readPass heap mem = .ok r) :
    r.mem = mem ∨ t.Copies heap mem r.mem := by
  unfold readPass at h
  split_ifs at h
  · rcases bind_eq_ok.1 h with ⟨t₁, -, h⟩
    cases h
    exact .inl rfl
  · rcases bind_eq_ok.1 h with ⟨q, -, h⟩
    rcases bind_eq_ok.1 h with ⟨pool, -, h⟩
    rcases bind_eq_ok.1 h with ⟨location, -, h⟩
    split_ifs at h
    · rcases bind_eq_ok.1 h with ⟨⟨t₁, reads⟩, -, h⟩
      cases h
      exact .inl rfl
    · have hset : Attached t { t with desiredSstableOffset := q.1 } := ⟨rfl, rfl⟩
      rw [← hset.copies]
      exact continueCached_copies h

theorem readLoop_copies {fuel : ℕ} (h : readLoop heap fuel mem t = .ok r) :
    ReflTransGen (t.Copies heap) mem r.mem := by
  induction fuel generalizing mem t with
  | zero => cases h
  | succ fuel ih =>
      rcases bind_eq_ok.1 h with ⟨r₁, h₁, h⟩
      have hpass : ReflTransGen (t.Copies heap) mem r₁.mem := by
        rcases readPass_copies h₁ with hsame | hcopies
        · rw [hsame]
        · exact .single hcopies
      split_ifs at h
      · cases h
        exact hpass
      · have hrest := ih h
        rw [(readPass_attached h₁).copies] at hrest
        exact hpass.trans hrest

/-- **A search** copies values one after the other, and does nothing else to the memory. -/
theorem tryRead_copies {fuel : ℕ} (h : t.trySstableTreeReadInMemory heap fuel mem = .ok r) :
    ReflTransGen (r.table.Copies heap) mem r.mem := by
  rw [(tryRead_attached h).copies]
  rcases bind_eq_ok.1 h with ⟨r₁, h₁, h⟩
  have hloop := readLoop_copies h₁
  cases h
  split_ifs
  · exact hloop
  · exact hloop

end

end SSTableInfo

namespace Worker

/-! ## One turn -/

section

variable {heap : Heap cfg} {mem : Memory} {fuel level : ℕ} {transfers : Transfers cfg}
  {t : SSTableInfo cfg} {o : Outcome cfg}

theorem copies_of_none (h : o.mem = none) :
    ReflTransGen (o.table.Copies heap) mem (o.mem.getD mem) := by
  rw [h]
  exact .refl

theorem visitBatch_copies {b : RequestBatch cfg}
    (h : visitBatch heap mem fuel transfers level b t = .ok o) :
    ReflTransGen (o.table.Copies heap) mem (o.mem.getD mem) := by
  unfold visitBatch at h
  split_ifs at h
  · cases h
    exact copies_of_none rfl
  · rcases bind_eq_ok.1 h with ⟨stack, -, h⟩
    rcases bind_eq_ok.1 h with ⟨r, hr, h⟩
    cases h
    exact SSTableInfo.tryRead_copies hr
  all_goals
    cases h
    exact copies_of_none rfl

theorem visitTable_copies (h : visitTable heap mem fuel transfers level t = .ok o) :
    ReflTransGen (o.table.Copies heap) mem (o.mem.getD mem) := by
  unfold visitTable at h
  split_ifs at h
  · cases h
    exact copies_of_none rfl
  · split at h
    · cases h
      exact copies_of_none rfl
    · rcases bind_eq_ok.1 h with ⟨b, -, h⟩
      exact visitBatch_copies h

theorem mainHandler_copies (h : mainHandler heap mem fuel level t = .ok o) :
    ReflTransGen (o.table.Copies heap) mem (o.mem.getD mem) := by
  rcases mainHandler_cases h with ⟨-, rfl⟩ | ⟨-, t₁, r, -, hr, rfl⟩
  · exact copies_of_none rfl
  · exact SSTableInfo.tryRead_copies hr

theorem initHandler_mem (t : SSTableInfo cfg) : (initHandler t).mem = none := by
  have hresult : ∀ (o : Outcome cfg) (j : ℕ) (res : ℤ), (initResult o j res).mem = o.mem := by
    intro o j res
    simp only [initResult]
    split_ifs <;> rfl
  unfold initHandler
  split
  · rw [hresult, hresult]
  · rfl

theorem openTable_mem (t : SSTableInfo cfg) : (openTable t).mem = none := by
  unfold openTable
  split_ifs <;> rfl

end

section

variable {s s' : State cfg} {w : ℕ} {ws : WorkerState}

theorem mem_tables_of_apply {n : ℕ} {t : SSTableInfo cfg} {o : Outcome cfg} {ws' : WorkerState}
    (ht : s.tables[n]? = some t) : o.table ∈ ((s.apply w n o).setWorker w ws').tables :=
  List.mem_set (List.getElem?_eq_some_iff.1 ht).1 o.table

/-- **A turn of a worker** leaves the memory alone, or copies values for one SSTable. -/
theorem turn_copies (h : TurnResult s w ws s') : s'.heap = s.heap ∧
    (s'.mem = s.mem ∨ ∃ t ∈ s'.tables, ReflTransGen (t.Copies s.heap) s.mem s'.mem) := by
  cases h with
  | stay => exact ⟨rfl, .inl rfl⟩
  | noMessage => exact ⟨rfl, .inl rfl⟩
  | enterMain => exact ⟨rfl, .inl rfl⟩
  | initMessage =>
      refine ⟨rfl, .inl ?_⟩
      simp only [State.setWorker, State.apply, initHandler_mem, Option.getD_none]
  | initVisit =>
      refine ⟨rfl, .inl ?_⟩
      simp only [State.setWorker, State.apply, openTable_mem, Option.getD_none]
  | mainMessage hphase hpeek hs ht ho =>
      exact ⟨rfl, .inr ⟨_, mem_tables_of_apply ht, mainHandler_copies ho⟩⟩
  | mainVisit hphase hvisit ht ho =>
      exact ⟨rfl, .inr ⟨_, mem_tables_of_apply ht, visitTable_copies ho⟩⟩

end

/-! ## A whole run -/

/-- The requests of all batches are in socket buffers of `R`. -/
def RequestsIn (R : Set ℕ) (heap : Heap cfg) : Prop :=
  ∀ b ∈ heap, ∀ c ∈ b.readwritePool.entries, c.buffer ∈ R

/-- The socket buffers of `R` do not overlap. -/
def Apart (cfg : Config) (R : Set ℕ) : Prop :=
  R.Pairwise fun q q' =>
    q + cfg.socketBufferLength ≤ q' ∨ q' + cfg.socketBufferLength ≤ q

/-- Values stand beside keys in the buffers as `Stands` says. -/
def HoldOnly (Stands : Bytes → Bytes → Prop) (cache : PageCache cfg) : Prop :=
  ∀ buffer ∈ cache.buffers, ∀ key value, Beside cfg buffer key value → Stands key value

def BuffersHold (Stands : Bytes → Bytes → Prop) (s : State cfg) : Prop :=
  ∀ t ∈ s.tables, HoldOnly Stands t.cache

/-- The other threads leave the socket buffer at `p` alone, and use those of `R`. -/
def Spares (R : Set ℕ) (p : ℕ) (s : State cfg) : Event cfg → Prop
  | .others heap mem =>
      RequestsIn R heap ∧
        bytesAt mem p cfg.socketBufferLength = bytesAt s.mem p cfg.socketBufferLength
  | _ => True

/-- The request at `p` is the one that it was, and its value is the old one or one that stands
beside its key. -/
structure Answered (cfg : Config) (Stands : Bytes → Bytes → Prop) (p : ℕ) (mem mem' : Memory) :
    Prop where
  head : bytesAt mem' p (5 + cfg.keyLength) = bytesAt mem p (5 + cfg.keyLength)
  value : valueAt cfg mem' p = valueAt cfg mem p ∨ Stands (keyAt cfg mem p) (valueAt cfg mem' p)

section

variable {R : Set ℕ} {Stands : Bytes → Bytes → Prop} {p : ℕ} {mem mem' mem'' : Memory}

theorem keyAt_of_head (h : bytesAt mem' p (5 + cfg.keyLength) = bytesAt mem p (5 + cfg.keyLength)) :
    keyAt cfg mem' p = keyAt cfg mem p := by
  rw [bytesAt_add, bytesAt_add] at h
  exact (List.append_inj h (by simp)).2

theorem Answered.refl (mem : Memory) : Answered cfg Stands p mem mem := ⟨rfl, .inl rfl⟩

/-- What leaves the whole socket buffer as it is. -/
theorem Answered.spared (h : Answered cfg Stands p mem mem')
    (hsame : bytesAt mem'' p cfg.socketBufferLength = bytesAt mem' p cfg.socketBufferLength) :
    Answered cfg Stands p mem mem'' := by
  rw [Config.socketBufferLength, bytesAt_add mem'' p (5 + cfg.keyLength),
    bytesAt_add mem' p (5 + cfg.keyLength)] at hsame
  rcases List.append_inj hsame (by simp) with ⟨hhead, hvalue⟩
  have hvalue' : valueAt cfg mem'' p = valueAt cfg mem' p := by
    rwa [← Nat.add_assoc] at hvalue
  exact ⟨hhead.trans h.head, by rw [hvalue']; exact h.value⟩

/-- **A value that is copied** for the request at `p` or for another one. -/
theorem Answered.copies {heap : Heap cfg} {t : SSTableInfo cfg}
    (hapart : Apart cfg R) (hp : p ∈ R) (hin : RequestsIn R heap)
    (hstands : HoldOnly Stands t.cache)
    (h : Answered cfg Stands p mem mem') (hcopies : t.Copies heap mem' mem'') :
    Answered cfg Stands p mem mem'' := by
  rcases hcopies with ⟨pool, c, buffer, value, hpool, hc, hbuffer, hbeside, rfl⟩
  have hlen : value.length = cfg.valueLength := by
    rcases hbeside with ⟨i, -, hvalue⟩
    exact length_of_readAt hvalue
  have hsize : cfg.socketBufferLength = 5 + cfg.keyLength + cfg.valueLength := rfl
  by_cases hpc : c.buffer = p
  · subst hpc
    refine ⟨?_, .inr ?_⟩
    · rw [bytesAt_store_disjoint (.inl (by omega))]
      exact h.head
    · have hself : valueAt cfg (store mem' (c.buffer + 5 + cfg.keyLength) value) c.buffer
          = value := by
        rw [valueAt, ← hlen]
        exact bytesAt_store_self ..
      rw [hself, ← keyAt_of_head h.head]
      exact hstands buffer hbuffer _ _ hbeside
  · have hcR : c.buffer ∈ R := by
      unfold SSTableInfo.pool at hpool
      split at hpool
      · cases hpool
      · rcases bind_eq_ok.1 hpool with ⟨b, hb, hpool⟩
        cases hpool
        exact hin b (List.mem_of_getElem? (Heap.deref_ok_iff.1 hb)) c hc
    refine h.spared (bytesAt_store_disjoint ?_)
    rcases hapart hp hcR (Ne.symm hpc) with hbelow | habove
    · exact .inl (by omega)
    · exact .inr (by omega)

theorem Answered.chain {heap : Heap cfg} {t : SSTableInfo cfg}
    (hapart : Apart cfg R) (hp : p ∈ R) (hin : RequestsIn R heap)
    (hstands : HoldOnly Stands t.cache)
    (h : Answered cfg Stands p mem mem') (hcopies : ReflTransGen (t.Copies heap) mem' mem'') :
    Answered cfg Stands p mem mem'' := by
  induction hcopies with
  | refl => exact h
  | tail _ hcopy ih => exact ih.copies hapart hp hin hstands hcopy

/-- **The step lemma.** -/
theorem Answered.step {s s' : State cfg} {e : Event cfg}
    (hapart : Apart cfg R) (hp : p ∈ R) (hin : RequestsIn R s.heap)
    (h : Answered cfg Stands p mem s.mem)
    (hspares : Spares R p s e) (hhold : BuffersHold Stands s') (hstep : step s e = .ok s') :
    RequestsIn R s'.heap ∧ Answered cfg Stands p mem s'.mem := by
  cases e with
  | complete k cqes =>
      simp only [Worker.step] at hstep
      split at hstep
      · cases hstep
        exact ⟨hin, h⟩
      · cases hstep
        split_ifs
        · exact ⟨hin, h⟩
        · exact ⟨hin, h⟩
  | announce w fd =>
      cases hstep
      split_ifs
      · exact ⟨hin, h⟩
      · exact ⟨hin, h⟩
  | arrive n batch =>
      cases hstep
      exact ⟨hin, h⟩
  | others heap mem' =>
      cases hstep
      exact ⟨hspares.1, h.spared hspares.2⟩
  | refill n buffers =>
      cases hstep
      exact ⟨hin, h⟩
  | run w fuel transfers =>
      simp only [Worker.step] at hstep
      split at hstep
      · cases hstep
        exact ⟨hin, h⟩
      · rcases turn_copies (turn_result hstep) with ⟨hheap, hsame | ⟨t, ht, hcopies⟩⟩
        · rw [hheap, hsame]
          exact ⟨hin, h⟩
        · rw [hheap]
          exact ⟨hin, h.chain hapart hp hin (hhold t ht) hcopies⟩

end

/-- **Answers come from the buffers.**  Let the socket buffers of the requests lie apart, and let
values stand beside keys in the page-cache buffers, whenever the run has them there, as `Stands`
says.  Then in every run from any state on, for any order of arrivals, completions and turns, as
long as the other threads leave it alone, a request keeps its type and its key, and its value is the
old one or one that stands beside its key. -/
theorem answers_from_buffers {R : Set ℕ} {Stands : Bytes → Bytes → Prop} {p : ℕ} {s : State cfg}
    {events : List (Event cfg)}
    (hapart : Apart cfg R) (hp : p ∈ R) (hin : RequestsIn R s.heap)
    (hspares : AttemptsMeet step (Spares R p) s events)
    (hhold : Throughout step (BuffersHold Stands) s events) :
    Throughout step (fun s' => Answered cfg Stands p s.mem s'.mem) s events := by
  have hrun : Throughout step
      (fun s' => RequestsIn R s'.heap ∧ Answered cfg Stands p s.mem s'.mem) s events :=
    throughout_of_attemptsMeet
      (fun _ _ s' h hc hs => h.2.step hapart hp h.1 hc.1 (hc.2 s' hs) hs)
      ⟨hin, .refl s.mem⟩ (hspares.and hhold.attemptsMeet)
  exact hrun.mono fun _ h => h.2

/-! ## A value that is copied -/

/-- The file with the key `1`, in a buffer. -/
def copyBuffer : Bytes := Search.oneStoredImage ++ nulBytes 1533

/-- A worker is about to visit an SSTable that has the file in its buffer and a batch with READs of
`1` and `2` in its wait queue. -/
def aboutToVisit : State Search.bufferedConfig where
  tables :=
    [{ SSTableInfo.new (Stack.zeroed _) with
        reqBatchWq := [0]
        isFlushedTo := true
        cache := Search.inOneBuffer Search.oneStoredImage }]
  workers := [⟨.main, .visit, 0, 2, []⟩]
  inFlight := []
  submitted := []
  completed := []
  numRead := 2
  isPracticallyFull := false
  handedOver := []
  heap :=
    [{ RequestBatch.zeroed _ .read with
        readwritePool := { entries := Search.twoRequests, presentInLevel := true } }]
  mem := Search.twoReads

/-- The visit copies the value of `1`. -/
theorem answered_aboutToVisit :
    ∃ s, runEvents step aboutToVisit [.run 0 1 {}] = .ok s ∧
      valueAt Search.bufferedConfig s.mem 0 = [10, 11] ∧
      Answered Search.bufferedConfig (Beside Search.bufferedConfig copyBuffer) 0 Search.twoReads
        s.mem := by
  have hrun : okAnd (runEvents step aboutToVisit [.run 0 1 {}]) (fun s =>
      valueAt Search.bufferedConfig s.mem 0 == [10, 11] &&
        s.tables.all (·.cache.buffers == [copyBuffer])) = true := by
    decide +kernel
  rcases okAnd_iff.1 hrun with ⟨s, hs, hend⟩
  rw [Bool.and_eq_true, beq_iff_eq, List.all_eq_true] at hend
  rcases hend with ⟨hvalue, htables⟩
  have hhold : ∀ cache : PageCache Search.bufferedConfig, cache.buffers = [copyBuffer] →
      HoldOnly (Beside Search.bufferedConfig copyBuffer) cache := by
    intro cache hcache buffer hbuffer key value hbeside
    rw [hcache, List.mem_singleton] at hbuffer
    rwa [hbuffer] at hbeside
  have hstart : BuffersHold (Beside Search.bufferedConfig copyBuffer) aboutToVisit := by
    intro t ht
    rw [List.mem_singleton.1 ht]
    exact hhold _ rfl
  have hthrough : Throughout step (BuffersHold (Beside Search.bufferedConfig copyBuffer))
      aboutToVisit [.run 0 1 {}] := by
    refine ⟨hstart, fun s' hs' => ?_⟩
    rcases runEvents_cons_eq_ok hs with ⟨s₁, hs₁, hrest⟩
    rw [hs₁] at hs'
    cases hs'
    cases hrest
    exact fun t ht => hhold t.cache (beq_iff_eq.1 (htables t ht))
  refine ⟨s, hs, hvalue, (answers_from_buffers (R := {0, 8}) ?_ ?_ ?_ ?_ hthrough).final hs⟩
  · intro q hq q' hq' hne
    simp only [Set.mem_insert_iff, Set.mem_singleton_iff] at hq hq'
    rcases hq with rfl | rfl <;> rcases hq' with rfl | rfl <;> revert hne <;> decide
  · simp
  · intro b hb c hc
    rw [List.mem_singleton.1 hb] at hc
    have hall : ∀ c ∈ Search.twoRequests, c.buffer = 0 ∨ c.buffer = 8 := by decide
    exact hall c hc
  · exact ⟨trivial, fun _ _ => trivial⟩

end Worker

end RingDB
