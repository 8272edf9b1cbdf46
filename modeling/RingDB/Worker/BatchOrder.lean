import RingDB.Worker.Traversal

/-!
# The order in which an SSTable serves its batches

An SSTable takes batches from its wait queue one at a time.  A batch of reads leaves it at once, if
nothing has to be looked for, or when the search for it ends, any number of turns and of completions
later; a compaction leaves it for the next level, is written to the file, or is deleted.  The wait
queue is that of a single thread, a list.

* `Heap.isRead` — is this a batch of reads?
* `SSTableInfo.searched` — the batch that is searched for.
* `InOrder` — the account of one SSTable: what arrived at it, what it took, what left it.
* **`served_in_order`** — in every run that meets the condition under which searches keep their
  batches, each SSTable serves its batches of reads in the order of their arrival, each exactly
  once.
-/

namespace RingDB

open Core

variable {cfg : Config}

/-- The batch `p` consists of reads. -/
def Heap.isRead (heap : Heap cfg) (p : ℕ) : Bool := okAnd (heap.deref p) fun b => b.reqType == .read

theorem Heap.isRead_of_deref {heap : Heap cfg} {p : ℕ} {b : RequestBatch cfg}
    (h : heap.deref p = .ok b) : heap.isRead p = (b.reqType == .read) := by
  simp only [isRead, h, okAnd]

/-- Among batches that exist, the batches of reads stay what they are. -/
theorem TypesKept.filter_isRead {heap heap' : Heap cfg} (h : TypesKept heap heap') {l : List ℕ}
    (hl : ∀ p ∈ l, p < heap.length) : l.filter heap'.isRead = l.filter heap.isRead := by
  refine List.filter_congr fun p hp => ?_
  have hb := List.getElem?_eq_getElem (hl p hp)
  rcases h p _ hb with ⟨b', hb', htype⟩
  rw [Heap.isRead_of_deref (Heap.deref_ok_iff.2 hb'),
    Heap.isRead_of_deref (Heap.deref_ok_iff.2 hb), htype]

theorem TypesKept.prefixed_iff {heap heap' : Heap cfg} :
    TypesKept heap heap' ↔ heap.map (·.reqType) <+: heap'.map (·.reqType) := by
  rw [List.prefix_iff_getElem?]
  constructor
  · intro h p hp
    rw [List.length_map] at hp
    rcases h p _ (List.getElem?_eq_getElem hp) with ⟨b', hb', htype⟩
    simp [hb', htype]
  · intro h p b hb
    rcases List.getElem?_eq_some_iff.1 hb with ⟨hp, rfl⟩
    have htype := h p (by rwa [List.length_map])
    rw [List.getElem?_map, List.getElem_map, Option.map_eq_some_iff] at htype
    exact htype

instance (heap heap' : Heap cfg) : Decidable (TypesKept heap heap') :=
  decidable_of_iff _ TypesKept.prefixed_iff.symm

theorem TypesKept.length_le {heap heap' : Heap cfg} (h : TypesKept heap heap') :
    heap.length ≤ heap'.length := by
  simpa only [List.length_map] using (prefixed_iff.1 h).length_le

/-! ## A search keeps its batch -/

namespace SSTableInfo

/-- The batch and the buffers of the SSTable are the same. -/
structure Attached (t t' : SSTableInfo cfg) : Prop where
  reqBatch : t'.reqBatch = t.reqBatch
  buffers : t'.cache.buffers = t.cache.buffers

/-- The batch whose requests are on the stack. -/
def searched (t : SSTableInfo cfg) : List ℕ := if t.stack.empty then [] else t.reqBatch.toList

section

variable {heap : Heap cfg} {mem : Memory} {t t' : SSTableInfo cfg} {r : ReadState cfg}

theorem searched_of_empty (h : t.stack.empty = true) : t.searched = [] := if_pos h

theorem searched_of_nonempty (h : t.stack.empty = false) : t.searched = t.reqBatch.toList :=
  if_neg (by simp [h])

theorem Attached.trans {t'' : SSTableInfo cfg} (h : Attached t t') (h' : Attached t' t'') :
    Attached t t'' :=
  ⟨h'.reqBatch.trans h.reqBatch, h'.buffers.trans h.buffers⟩

theorem pushChild_attached {child left right : ℕ}
    (h : t.pushChild heap mem child left right = .ok t') : Attached t t' := by
  rcases bind_eq_ok.1 h with ⟨pool, -, h⟩
  rcases bind_eq_ok.1 h with ⟨buffer, -, h⟩
  split_ifs at h
  · cases h
    exact ⟨rfl, rfl⟩
  · rcases bind_eq_ok.1 h with ⟨stack, -, h⟩
    cases h
    exact ⟨rfl, rfl⟩

/-- A child that is pushed or not. -/
theorem pushIf_attached {c : Prop} [Decidable c] {child left right : ℕ}
    (h : (if c then t.pushChild heap mem child left right else pure t) = .ok t') :
    Attached t t' := by
  split_ifs at h
  · exact pushChild_attached h
  · cases h
    exact ⟨rfl, rfl⟩

theorem moveDownToChildren_attached (h : t.moveDownToChildren heap mem = .ok t') :
    Attached t t' := by
  rcases bind_eq_ok.1 h with ⟨q, -, h⟩
  rcases bind_eq_ok.1 h with ⟨t₁, h₁, h⟩
  have hpop : Attached t { t with stack := t.stack.popTop } := ⟨rfl, rfl⟩
  exact (hpop.trans (pushIf_attached h₁)).trans (pushIf_attached h)

theorem continueCached_attached {location : CacheLocation} {cur : ℕ}
    (h : t.continueCached heap mem location cur = .ok r) : Attached t r.table := by
  rcases bind_eq_ok.1 h with ⟨⟨index, res⟩, -, h⟩
  cases res with
  | none => cases h
  | some res =>
      cases res with
      | eq =>
          rcases bind_eq_ok.1 h with ⟨pool, -, h⟩
          rcases bind_eq_ok.1 h with ⟨buffer, -, h⟩
          rcases bind_eq_ok.1 h with ⟨value, -, h⟩
          rcases bind_eq_ok.1 h with ⟨t₁, h₁, h⟩
          cases h
          exact moveDownToChildren_attached h₁
      | lt =>
          cases h
          exact ⟨rfl, rfl⟩
      | gt =>
          cases h
          exact ⟨rfl, rfl⟩

theorem readPass_attached (h : t.readPass heap mem = .ok r) : Attached t r.table := by
  unfold readPass at h
  split_ifs at h
  · rcases bind_eq_ok.1 h with ⟨t₁, h₁, h⟩
    cases h
    exact moveDownToChildren_attached h₁
  · rcases bind_eq_ok.1 h with ⟨q, -, h⟩
    rcases bind_eq_ok.1 h with ⟨pool, -, h⟩
    rcases bind_eq_ok.1 h with ⟨location, -, h⟩
    have hset : Attached t { t with desiredSstableOffset := q.1 } := ⟨rfl, rfl⟩
    split_ifs at h
    · rcases bind_eq_ok.1 h with ⟨⟨t₁, reads⟩, h₁, h⟩
      cases h
      rcases bind_eq_ok.1 h₁ with ⟨helper, -, h₁⟩
      split_ifs at h₁
      cases h₁
      exact ⟨rfl, rfl⟩
    · exact hset.trans (continueCached_attached h)

theorem readLoop_attached {fuel : ℕ} (h : readLoop heap fuel mem t = .ok r) :
    Attached t r.table := by
  induction fuel generalizing mem t with
  | zero => cases h
  | succ fuel ih =>
      rcases bind_eq_ok.1 h with ⟨r₁, h₁, h⟩
      have hpass := readPass_attached h₁
      split_ifs at h
      · cases h
        exact hpass
      · exact hpass.trans (ih h)

/-- Neither is changed by a search. -/
theorem tryRead_attached {fuel : ℕ} (h : t.trySstableTreeReadInMemory heap fuel mem = .ok r) :
    Attached t r.table := by
  rcases bind_eq_ok.1 h with ⟨r₁, h₁, h⟩
  have hloop := readLoop_attached h₁
  cases h
  split_ifs
  · exact ⟨hloop.reqBatch, hloop.buffers⟩
  · exact hloop

end

end SSTableInfo

namespace Worker

/-! ## What one turn does with the batches of its SSTable -/

/-- The turn takes `new` from the wait queue.  What was searched for and what was taken leaves the
SSTable or is searched for now, except for compactions. -/
structure Serves (heap : Heap cfg) (t : SSTableInfo cfg) (o : Outcome cfg) (new : List ℕ) :
    Prop where
  queue : t.reqBatchWq = new ++ o.table.reqBatchWq
  exist : ∀ p ∈ new, p < heap.length
  order : (o.handedOver.toList ++ o.table.searched).Sublist (t.searched ++ new)
  reads : (t.searched ++ new).filter heap.isRead
    = o.handedOver.toList.filter heap.isRead ++ o.table.searched

section

variable {heap : Heap cfg} {mem : Memory} {fuel level : ℕ} {transfers : Transfers cfg}
  {t : SSTableInfo cfg} {o : Outcome cfg}

/-- A turn that has nothing to do with batches. -/
theorem serves_still (hq : o.table.reqBatchWq = t.reqBatchWq)
    (hs : o.table.searched = t.searched) (ho : o.handedOver = none)
    (hread : ∀ p ∈ t.searched, heap.isRead p = true) : Serves heap t o [] where
  queue := hq.symm
  exist := fun p hp => absurd hp List.not_mem_nil
  order := by
    rw [ho, hs, List.append_nil]
    exact List.Sublist.refl _
  reads := by
    rw [ho, hs, List.append_nil]
    exact List.filter_eq_self.2 hread

/-- A search with a request on the stack ends its batch or keeps it. -/
theorem serves_search {t₀ : SSTableInfo cfg} {r : SSTableInfo.ReadState cfg} {new : List ℕ}
    (h : t.trySstableTreeReadInMemory heap fuel mem = .ok r)
    (hq : t₀.reqBatchWq = new ++ t.reqBatchWq) (hnew : ∀ p ∈ new, p < heap.length)
    (hbatch : t₀.searched ++ new = t.reqBatch.toList)
    (hread : ∀ p ∈ t.reqBatch.toList, heap.isRead p = true) :
    Serves heap t₀ (outcomeOf r) new := by
  have hkeeps := (SSTableInfo.tryRead_attached h).reqBatch
  have hqueue := (SSTableInfo.tryRead_untouched h).reqBatchWq
  have hsame : (outcomeOf r).handedOver.toList ++ (outcomeOf r).table.searched
      = t.reqBatch.toList := by
    by_cases hend : r.table.stack.empty = true
    · simp [outcomeOf, SSTableInfo.searched, hend, hkeeps]
    · simp [outcomeOf, SSTableInfo.searched, hend, hkeeps]
  have hafter : ∀ p ∈ (outcomeOf r).table.searched, heap.isRead p = true := by
    intro p hp
    refine hread p ?_
    rw [← hsame]
    exact List.mem_append_right _ hp
  refine ⟨hq.trans (congrArg (new ++ ·) hqueue.symm), hnew, ?_, ?_⟩
  · rw [hsame, hbatch]
  · rw [hbatch, ← hsame, List.filter_append, List.filter_eq_self.2 hafter]

/-- A batch that is taken and not searched for, with an empty stack. -/
theorem serves_taken {p : ℕ} {b : RequestBatch cfg} (hs : t.stack.empty = true)
    (hb : heap.deref p = .ok b) (hq : t.reqBatchWq = p :: o.table.reqBatchWq)
    (hs' : o.table.stack.empty = true)
    (ho : o.handedOver = some p ∨ o.handedOver = none ∧ b.reqType ≠ .read) :
    Serves heap t o [p] := by
  have hp : p < heap.length := (List.getElem?_eq_some_iff.1 (Heap.deref_ok_iff.1 hb)).1
  refine ⟨hq, fun q hq => List.mem_singleton.1 hq ▸ hp, ?_, ?_⟩
  all_goals
    rw [SSTableInfo.searched_of_empty hs, SSTableInfo.searched_of_empty hs', List.append_nil,
      List.nil_append]
  · rcases ho with ho | ⟨ho, -⟩
    · rw [ho]
      exact List.Sublist.refl _
    · rw [ho]
      exact List.nil_sublist _
  · rcases ho with ho | ⟨ho, htype⟩
    · rw [ho]
      rfl
    · simp [ho, Heap.isRead_of_deref hb, htype]

theorem visitBatch_serves {p : ℕ} {rest : List ℕ} {b : RequestBatch cfg}
    (hs : t.stack.empty = true) (hb : heap.deref p = .ok b) (hq : t.reqBatchWq = p :: rest)
    (h : visitBatch heap mem fuel transfers level b
      { t with reqBatchWq := rest, reqBatch := some p } = .ok o) : Serves heap t o [p] := by
  have hp : p < heap.length := (List.getElem?_eq_some_iff.1 (Heap.deref_ok_iff.1 hb)).1
  unfold visitBatch at h
  split_ifs at h with hread
  · cases h
    exact serves_taken hs hb hq hs (.inl rfl)
  · rcases bind_eq_ok.1 h with ⟨stack, hpush, h⟩
    rcases bind_eq_ok.1 h with ⟨r, hr, h⟩
    cases h
    refine serves_search hr hq ?_ ?_ ?_
    · intro q hq
      rw [List.mem_singleton.1 hq]
      exact hp
    · rw [SSTableInfo.searched_of_empty hs]
      rfl
    · intro q hq
      have hq' : p = q := Option.some.inj (Option.mem_toList.1 hq)
      rw [← hq', Heap.isRead_of_deref hb, hread]
      rfl
  · cases h
    exact serves_taken hs hb hq hs (.inl rfl)
  · cases h
    exact serves_taken hs hb hq hs (.inr ⟨rfl, hread⟩)
  · cases h
    exact serves_taken hs hb hq hs (.inr ⟨rfl, hread⟩)

/-- An SSTable without a batch keeps its queue and its stack. -/
theorem visitIdle_batches (t : SSTableInfo cfg) :
    (visitIdle transfers level t).reqBatchWq = t.reqBatchWq ∧
      (visitIdle transfers level t).stack = t.stack := by
  unfold visitIdle
  split_ifs
  · exact ⟨rfl, rfl⟩
  · exact ⟨rfl, rfl⟩
  · split <;> exact ⟨rfl, rfl⟩

/-- **The visit of an SSTable** takes the batch that has waited longest, and only with an empty
stack. -/
theorem visitTable_serves (hempty : t.waitingOnIo = false → t.stack.empty = true)
    (hread : ∀ p ∈ t.searched, heap.isRead p = true)
    (h : visitTable heap mem fuel transfers level t = .ok o) : ∃ new, Serves heap t o new := by
  unfold visitTable at h
  split_ifs at h with hw
  · cases h
    exact ⟨[], serves_still rfl rfl rfl hread⟩
  · have hs := hempty (Bool.not_eq_true _ ▸ hw)
    split at h
    · cases h
      rcases visitIdle_batches { t with reqBatch := none } with ⟨hqueue, hstack⟩
      refine ⟨[], serves_still hqueue ?_ rfl hread⟩
      rw [SSTableInfo.searched_of_empty hs, SSTableInfo.searched_of_empty]
      rw [hstack]
      exact hs
    · next p rest hq =>
        rcases bind_eq_ok.1 h with ⟨b, hb, h⟩
        exact ⟨[p], visitBatch_serves hs hb hq h⟩

/-- A message in the main loop: a search goes on only with a request on the stack. -/
theorem mainHandler_serves (hresumed : t.ring ≠ [] → t.stack.empty = false)
    (hread : ∀ p ∈ t.searched, heap.isRead p = true)
    (h : mainHandler heap mem fuel level t = .ok o) : Serves heap t o [] := by
  rcases mainHandler_cases h with ⟨-, rfl⟩ | ⟨hring, t₁, r, htake, hr, rfl⟩
  · exact serves_still rfl rfl rfl hread
  · have hs := hresumed hring
    have hsame : t₁.reqBatch = t.reqBatch ∧ t₁.reqBatchWq = t.reqBatchWq := by
      rcases bind_eq_ok.1 htake with ⟨helper, -, ht₁⟩
      cases ht₁
      exact ⟨rfl, rfl⟩
    rw [SSTableInfo.searched_of_nonempty hs] at hread
    refine serves_search hr hsame.2.symm ?_ ?_ ?_
    · exact fun p hp => absurd hp List.not_mem_nil
    · rw [List.append_nil, SSTableInfo.searched_of_nonempty hs, hsame.1]
    · rw [hsame.1]
      exact hread

end

/-! ## The account of an SSTable -/

/-- What an event brings to the wait queue of SSTable `n`. -/
def Event.arrival (n : ℕ) : Event cfg → Option ℕ
  | .arrive m batch => if m = n then some batch else none
  | _ => none

/-- The batches that have left SSTable `n`. -/
def State.left (s : State cfg) (n : ℕ) : List ℕ :=
  s.handedOver.filterMap fun x => if x.1 = n then some x.2 else none

/-- What SSTable `n` has done with the batches that arrived at it: it has taken the first ones of
them, and what has left it and what it searches for follows their order; every batch of reads among
those it has taken has left it, once, or is the one it searches for. -/
structure InOrder (s : State cfg) (n : ℕ) (t : SSTableInfo cfg) (arrived taken : List ℕ) :
    Prop where
  queue : arrived = taken ++ t.reqBatchWq
  exist : ∀ p ∈ taken, p < s.heap.length
  order : (s.left n ++ t.searched).Sublist taken
  reads : taken.filter s.heap.isRead = (s.left n).filter s.heap.isRead ++ t.searched

/-- Batches keep their types: the other threads turn none into another. -/
def KeepsTypes (s : State cfg) : Event cfg → Prop
  | .others heap _ => TypesKept s.heap heap
  | _ => True

instance (s : State cfg) (e : Event cfg) : Decidable (KeepsTypes s e) :=
  match e with
  | .others heap _ => inferInstanceAs (Decidable (TypesKept s.heap heap))
  | .complete .. | .announce .. | .arrive .. | .refill .. | .run .. => isTrue trivial

section

variable {s : State cfg} {n : ℕ} {t t' : SSTableInfo cfg} {arrived taken : List ℕ}

/-- What is searched for is a batch of reads. -/
theorem InOrder.searched_isRead (h : InOrder s n t arrived taken) :
    ∀ p ∈ t.searched, s.heap.isRead p = true := by
  intro p hp
  have hmem : p ∈ taken.filter s.heap.isRead := by
    rw [h.reads]
    exact List.mem_append_right _ hp
  exact (List.mem_filter.1 hmem).2

/-- What does not concern the batches of an SSTable. -/
theorem InOrder.congr {s' : State cfg} (h : InOrder s n t arrived taken) (hheap : s'.heap = s.heap)
    (hleft : s'.left n = s.left n) (hq : t'.reqBatchWq = t.reqBatchWq)
    (hs : t'.searched = t.searched) : InOrder s' n t' arrived taken where
  queue := hq ▸ h.queue
  exist := hheap ▸ h.exist
  order := by
    rw [hleft, hs]
    exact h.order
  reads := by
    rw [hheap, hleft, hs]
    exact h.reads

/-- A turn on the SSTable. -/
theorem InOrder.turn {s' : State cfg} {o : Outcome cfg} {new : List ℕ}
    (h : InOrder s n t arrived taken) (hserves : Serves s.heap t o new) (hheap : s'.heap = s.heap)
    (hleft : s'.left n = s.left n ++ o.handedOver.toList) :
    InOrder s' n o.table arrived (taken ++ new) where
  queue := by rw [h.queue, hserves.queue, List.append_assoc]
  exist := by
    intro p hp
    rw [hheap]
    rcases List.mem_append.1 hp with hp | hp
    · exact h.exist p hp
    · exact hserves.exist p hp
  order := by
    -- what was searched for before is the last of the batches taken that is still here
    have hmid : (s.left n ++ (t.searched ++ new)).Sublist (taken ++ new) := by
      rw [← List.append_assoc]
      exact h.order.append (List.Sublist.refl new)
    rw [hleft, List.append_assoc]
    exact ((List.Sublist.refl (s.left n)).append hserves.order).trans hmid
  reads := by
    have hsame : t.searched.filter s.heap.isRead = t.searched :=
      List.filter_eq_self.2 h.searched_isRead
    have hnew := hserves.reads
    rw [List.filter_append, hsame] at hnew
    rw [hheap, hleft, List.filter_append, List.filter_append, h.reads, List.append_assoc, hnew,
      List.append_assoc]

/-- The other threads change batches. -/
theorem InOrder.others {heap : Heap cfg} {mem : Memory} (h : InOrder s n t arrived taken)
    (htypes : TypesKept s.heap heap) : InOrder { s with heap, mem } n t arrived taken where
  queue := h.queue
  exist := fun p hp => (h.exist p hp).trans_le htypes.length_le
  order := h.order
  reads := by
    have hleft : ∀ p ∈ s.left n, p < s.heap.length := fun p hp =>
      h.exist p (h.order.subset (List.mem_append_left _ hp))
    change taken.filter heap.isRead = (s.left n).filter heap.isRead ++ t.searched
    rw [htypes.filter_isRead h.exist, htypes.filter_isRead hleft]
    exact h.reads

/-- A batch arrives. -/
theorem InOrder.arrive {batch : ℕ} (h : InOrder s n t arrived taken)
    (hq : t'.reqBatchWq = t.reqBatchWq ++ [batch]) (hs : t'.searched = t.searched) :
    InOrder s n t' (arrived ++ [batch]) taken where
  queue := by rw [h.queue, hq, List.append_assoc]
  exist := h.exist
  order := by
    rw [hs]
    exact h.order
  reads := by
    rw [hs]
    exact h.reads

end

/-! ## Every event keeps the accounts -/

/-- Every SSTable has its account, of the batches that `events` have brought it. -/
structure Orderly (events : List (Event cfg)) (s : State cfg) : Prop where
  stackInvariant : StackInvariant s
  accounts : ∀ n t, s.tables[n]? = some t →
    ∃ taken, InOrder s n t (events.filterMap (Event.arrival n)) taken

section

variable {s s' : State cfg} {w n : ℕ} {ws ws' : WorkerState} {o : Outcome cfg} {t : SSTableInfo cfg}
  {events : List (Event cfg)}

theorem initResult_batches (o : Outcome cfg) (j : ℕ) (res : ℤ) :
    (initResult o j res).table.reqBatchWq = o.table.reqBatchWq ∧
      (initResult o j res).table.reqBatch = o.table.reqBatch ∧
      (initResult o j res).handedOver = o.handedOver := by
  simp only [initResult]
  split_ifs <;> exact ⟨rfl, rfl, rfl⟩

/-- Initialization has nothing to do with batches. -/
theorem initHandler_batches (t : SSTableInfo cfg) :
    (initHandler t).table.reqBatchWq = t.reqBatchWq ∧
      (initHandler t).table.reqBatch = t.reqBatch ∧ (initHandler t).handedOver = none := by
  unfold initHandler
  split
  · next c₀ c₁ cqes hring =>
      rcases initResult_batches { table := t } 0 c₀.res with ⟨hq, hb, ho⟩
      rcases initResult_batches (initResult { table := t } 0 c₀.res) 1 c₁.res with ⟨hq', hb', ho'⟩
      exact ⟨hq'.trans hq, hb'.trans hb, ho'.trans ho⟩
  · exact ⟨rfl, rfl, rfl⟩

theorem openTable_batches (t : SSTableInfo cfg) :
    (openTable t).table.reqBatchWq = t.reqBatchWq ∧
      (openTable t).table.reqBatch = t.reqBatch ∧ (openTable t).handedOver = none := by
  unfold openTable
  split_ifs
  · exact ⟨rfl, rfl, rfl⟩
  · exact ⟨rfl, rfl, rfl⟩

theorem left_turn (k : ℕ) : ((s.apply w n o).setWorker w ws').left k
    = s.left k ++ if n = k then o.handedOver.toList else [] := by
  simp only [State.left, State.setWorker, State.apply, List.filterMap_append]
  congr 1
  cases o.handedOver with
  | none => simp
  | some p => by_cases hk : n = k <;> simp [hk]

/-- What a turn does with the batches of one SSTable. -/
theorem Orderly.apply (h : Orderly events s) (ht : s.tables[n]? = some t) {new : List ℕ}
    (hserves : Serves s.heap t o new) (k : ℕ) (t' : SSTableInfo cfg)
    (ht' : ((s.apply w n o).setWorker w ws').tables[k]? = some t') :
    ∃ taken, InOrder ((s.apply w n o).setWorker w ws') k t'
      (events.filterMap (Event.arrival k)) taken := by
  rcases table_turn ht' with ⟨rfl, rfl⟩ | ⟨hk, ht'⟩
  · rcases h.accounts k t ht with ⟨taken, haccount⟩
    refine ⟨taken ++ new, haccount.turn hserves rfl ?_⟩
    rw [left_turn, if_pos rfl]
  · rcases h.accounts k t' ht' with ⟨taken, haccount⟩
    refine ⟨taken, haccount.congr rfl ?_ rfl rfl⟩
    rw [left_turn, if_neg (Ne.symm hk), List.append_nil]

/-- What is searched for is a batch of reads. -/
theorem Orderly.searched_isRead (h : Orderly events s) (ht : s.tables[n]? = some t) :
    ∀ p ∈ t.searched, s.heap.isRead p = true := by
  rcases h.accounts n t ht with ⟨taken, haccount⟩
  exact haccount.searched_isRead

/-- **A turn of a worker.** -/
theorem Orderly.turned (h : Orderly events s) {fuel : ℕ} {transfers : Transfers cfg}
    (hw : s.workers[w]? = some ws) (hturn : TurnResult s w ws s')
    (hc : traversalCondition s (.run w fuel transfers) = true) (k : ℕ) (t' : SSTableInfo cfg)
    (ht' : s'.tables[k]? = some t') :
    ∃ taken, InOrder s' k t' (events.filterMap (Event.arrival k)) taken := by
  simp only [traversalCondition, hw] at hc
  cases hturn with
  | stay => exact h.accounts k t' ht'
  | noMessage =>
      rcases h.accounts k t' ht' with ⟨taken, haccount⟩
      exact ⟨taken, haccount.congr rfl rfl rfl rfl⟩
  | enterMain =>
      rcases h.accounts k t' ht' with ⟨taken, haccount⟩
      exact ⟨taken, haccount.congr rfl rfl rfl rfl⟩
  | @initMessage m ms t hphase hpeek hs ht =>
      rcases initHandler_batches t with ⟨hq, hb, ho⟩
      have hsearched : (initHandler t).table.searched = t.searched := by
        simp only [SSTableInfo.searched, (initHandler_stack t).1, hb]
      exact h.apply ht (serves_still hq hsearched ho (h.searched_isRead ht)) k t' ht'
  | @initVisit t hphase hvisit ht =>
      rcases openTable_batches t with ⟨hq, hb, ho⟩
      have hsearched : (openTable t).table.searched = t.searched := by
        simp only [SSTableInfo.searched, (openTable_stack t).1, hb]
      exact h.apply ht (serves_still hq hsearched ho (h.searched_isRead ht)) k t' ht'
  | @mainMessage m ms t _ o hphase hpeek hs ht ho =>
      simp only [hphase, hpeek, hs, ht, Option.all_some, Bool.or_eq_true, List.isEmpty_iff,
        Option.any_eq_true] at hc
      -- a search goes on for the report of its read only
      have hresumed : t.ring ≠ [] → t.stack.empty = false := by
        intro hring
        rcases hc.resolve_left hring with ⟨c, hchain, hread⟩
        cases m with
        | announcement fd => cases hchain
        | done c' =>
            cases hchain
            exact h.stackInvariant.nonempty_of_report hw hs ht hread
      exact h.apply ht (mainHandler_serves hresumed (h.searched_isRead ht) ho) k t' ht'
  | mainVisit hphase hvisit ht ho =>
      rcases visitTable_serves (h.stackInvariant.tables ws.i _ ht).empty (h.searched_isRead ht) ho
        with ⟨new, hserves⟩
      exact h.apply ht hserves k t' ht'

/-- What comes from outside does nothing with batches. -/
theorem Orderly.modify (h : Orderly events s) {f : SSTableInfo cfg → SSTableInfo cfg}
    (hq : ∀ t, (f t).reqBatchWq = t.reqBatchWq) (hs : ∀ t, (f t).searched = t.searched) (k : ℕ)
    (t' : SSTableInfo cfg) (ht' : (s.tables.modify n f)[k]? = some t') :
    ∃ taken, InOrder s k t' (events.filterMap (Event.arrival k)) taken := by
  rw [List.getElem?_modify, Option.map_eq_map, Option.map_eq_some_iff] at ht'
  rcases ht' with ⟨t, ht, rfl⟩
  rcases h.accounts k t ht with ⟨taken, haccount⟩
  refine ⟨taken, haccount.congr rfl rfl ?_ ?_⟩
  · split_ifs
    · exact hq t
    · rfl
  · split_ifs
    · exact hs t
    · rfl

/-- A batch that arrives at one SSTable. -/
theorem Orderly.arrive (h : Orderly events s) {batch : ℕ} (k : ℕ) (t' : SSTableInfo cfg)
    (ht' : (s.tables.modify n fun t => { t with reqBatchWq := t.reqBatchWq ++ [batch] })[k]?
      = some t') :
    ∃ taken, InOrder s k t'
      ((events ++ [Event.arrive n batch]).filterMap (Event.arrival k)) taken := by
  rw [List.getElem?_modify, Option.map_eq_map, Option.map_eq_some_iff] at ht'
  rcases ht' with ⟨t, ht, rfl⟩
  rcases h.accounts k t ht with ⟨taken, haccount⟩
  rw [List.filterMap_append]
  by_cases hk : n = k
  · subst hk
    simp only [if_true, List.filterMap_cons, List.filterMap_nil, Event.arrival]
    exact ⟨taken, haccount.arrive rfl rfl⟩
  · simp only [if_neg hk, List.filterMap_cons, List.filterMap_nil, Event.arrival, List.append_nil]
    exact ⟨taken, haccount⟩

/-- **The step lemma.** -/
theorem orderly_step {e : Event cfg} (h : Orderly events s) (hc : traversalCondition s e = true)
    (htypes : KeepsTypes s e) (hstep : step s e = .ok s') : Orderly (events ++ [e]) s' := by
  refine ⟨stackInvariant_step h.stackInvariant hc hstep, fun k t' ht' => ?_⟩
  have hquiet : ∀ e : Event cfg, Event.arrival k e = none →
      (events ++ [e]).filterMap (Event.arrival k) = events.filterMap (Event.arrival k) := by
    intro e he
    simp [he]
  cases e with
  | complete i cqes =>
      rw [hquiet _ rfl]
      simp only [step] at hstep
      split at hstep
      · cases hstep
        exact h.accounts k t' ht'
      · next c hget =>
          cases hstep
          split_ifs at ht' ⊢
          · rcases h.modify (fun _ => by rfl) (fun _ => by rfl) k t' ht' with ⟨taken, haccount⟩
            exact ⟨taken, haccount.congr rfl rfl rfl rfl⟩
          · exact h.accounts k t' ht'
  | announce v fd =>
      rw [hquiet _ rfl]
      cases hstep
      split_ifs at ht' ⊢
      · rcases h.accounts k t' ht' with ⟨taken, haccount⟩
        exact ⟨taken, haccount.congr rfl rfl rfl rfl⟩
      · exact h.accounts k t' ht'
  | arrive m batch =>
      cases hstep
      rcases h.arrive k t' ht' with ⟨taken, haccount⟩
      exact ⟨taken, haccount.congr rfl rfl rfl rfl⟩
  | others heap mem =>
      rw [hquiet _ rfl]
      cases hstep
      rcases h.accounts k t' ht' with ⟨taken, haccount⟩
      exact ⟨taken, haccount.others htypes⟩
  | refill m buffers =>
      rw [hquiet _ rfl]
      cases hstep
      rcases h.modify (fun _ => by rfl) (fun _ => by rfl) k t' ht' with ⟨taken, haccount⟩
      exact ⟨taken, haccount.congr rfl rfl rfl rfl⟩
  | run v fuel transfers =>
      rw [hquiet _ rfl]
      simp only [step] at hstep
      split at hstep
      · cases hstep
        exact h.accounts k t' ht'
      · next ws hws => exact h.turned hws (turn_result hstep) hc k t' ht'

end

theorem orderly_start (slots : ℕ → Stack cfg.maxSstableHeight) (heap : Heap cfg) (mem : Memory) :
    Orderly [] (State.start slots heap mem) := by
  refine ⟨stackInvariant_start slots heap mem, fun n t ht => ⟨[], ?_⟩⟩
  simp only [State.start, List.getElem?_map, Option.map_eq_some_iff] at ht
  rcases ht with ⟨v, -, rfl⟩
  exact ⟨rfl, fun p hp => absurd hp List.not_mem_nil, List.Sublist.refl _, rfl⟩

/-- **Batches are served in the order of their arrival.**  In every run of the workers, from the
start of the threads on, for any order of arrivals and completions: if the events that are attempted
meet the condition under which searches keep their batches, and no other thread turns a batch of
reads into something else or the other way round, then at the end every SSTable has taken the first
ones of the batches that arrived at it; those that have left it, followed by the one it searches
for, are among those in the same order; and the batches of reads that it has taken are, in this
order, those that have left it and the one it searches for. -/
theorem served_in_order {slots : ℕ → Stack cfg.maxSstableHeight} {heap : Heap cfg} {mem : Memory}
    {events : List (Event cfg)} {s : State cfg} {n : ℕ} {t : SSTableInfo cfg}
    (h : AttemptsMeet step (fun s e => traversalCondition s e = true ∧ KeepsTypes s e)
      (State.start slots heap mem) events)
    (hrun : runEvents step (State.start slots heap mem) events = .ok s)
    (ht : s.tables[n]? = some t) :
    ∃ taken, events.filterMap (Event.arrival n) = taken ++ t.reqBatchWq ∧
      (s.left n ++ t.searched).Sublist taken ∧
      taken.filter s.heap.isRead = (s.left n).filter s.heap.isRead ++ t.searched := by
  have hend : Orderly ([] ++ events) s :=
    run_history (fun _ _ _ _ hinv hc hs => orderly_step hinv hc.1 hc.2 hs)
      (orderly_start slots heap mem) h hrun
  rcases hend.accounts n t ht with ⟨taken, haccount⟩
  exact ⟨taken, haccount.queue, haccount.order, haccount.reads⟩

/-- SSTable 3 has handed over the first of the two batches that arrived at it, and the second one
waits. -/
theorem served_resumedRun :
    ∃ s t taken, runEvents step eightTables resumedRun = .ok s ∧ s.tables[3]? = some t ∧
      s.left 3 = [0] ∧ [0, 1] = taken ++ t.reqBatchWq ∧
      (s.left 3 ++ t.searched).Sublist taken ∧
      taken.filter s.heap.isRead = (s.left 3).filter s.heap.isRead ++ t.searched := by
  have hmeets : AttemptsMeet step (fun s e => traversalCondition s e = true ∧ KeepsTypes s e)
      (State.start (fun _ => Stack.zeroed _) [singleRead, singleRead] fun _ => 0)
      resumedRun := by
    decide +kernel
  have hend : okAnd (runEvents step eightTables resumedRun)
      (fun s => s.left 3 == [0] && s.tables[3]?.isSome) = true := by
    decide +kernel
  rcases okAnd_iff.1 hend with ⟨s, hs, hfinal⟩
  rw [Bool.and_eq_true, beq_iff_eq, Option.isSome_iff_exists] at hfinal
  rcases hfinal with ⟨hleft, t, ht⟩
  rcases served_in_order hmeets hs ht with ⟨taken, hqueue, horder, hreads⟩
  exact ⟨s, t, taken, hs, ht, hleft, hqueue, horder, hreads⟩

end Worker

end RingDB
