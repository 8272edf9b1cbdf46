import RingDB.Network.Thread

/-!
# The life of a response batch

A batch that comes back to the network thread is kept until all of its answers are out.
`batchBranch` prepares an answer for every entry that still has a client and counts the others in
`num_sent`; `sendBranch` counts the answers as they finish, finding the batch through the entry;
whoever brings `num_sent` to `length` deletes the batch.

* `Built p` — the pools that `insert_read_write` builds in batch `p`; every entry points to `p`,
  however often it was shifted.
* `Account` — what `num_sent`, the answers and the deletions of a batch come to.
* **`responseBatch_account`** — it holds in every state of every run in which each batch is
  delivered once and each of its answers finishes once, in any order.  No step of such a run uses a
  deleted batch.
-/

namespace RingDB.Network

open Core

variable {cfg : Config}

/-! ## Pools -/

/-- The pools of batch `p`: requests are inserted, and clients forgotten. -/
inductive Built (cfg : Config) (p : ℕ) : ReadWritePool → Prop
  | new (presentInLevel : Bool) : Built cfg p { presentInLevel }
  | insert {pool pool' : ReadWritePool} {mem : Memory} {conn : ConnectionRequest} :
      Built cfg p pool → conn.reqBatchRef = p → pool.insertReadWrite cfg mem conn = .ok pool' →
        Built cfg p pool'
  | remove {pool : ReadWritePool} (index : ℕ) : Built cfg p pool →
      Built cfg p (pool.removeViaIndex index)

theorem Built.numSent {p : ℕ} {pool : ReadWritePool} (h : Built cfg p pool) : pool.numSent = 0 := by
  induction h with
  | new presentInLevel => rfl
  | insert _ _ hins ih =>
      rcases ReadWritePool.insertReadWrite_cases hins with ⟨left, -, rfl⟩
      exact ih
  | remove index _ ih => exact ih

/-- The back pointers survive every shift. -/
theorem Built.reqBatchRef {p : ℕ} {pool : ReadWritePool} (h : Built cfg p pool) :
    ∀ c ∈ pool.entries, c.reqBatchRef = p := by
  induction h with
  | new presentInLevel => exact fun c hc => absurd hc List.not_mem_nil
  | insert _ href hins ih =>
      rcases ReadWritePool.insertReadWrite_cases hins with ⟨left, -, rfl⟩
      intro c hc
      rcases List.mem_append.1 hc with hc | hc
      · exact ih c (List.mem_of_mem_take hc)
      · rw [ReadWritePool.shiftRight_reqBatchRef hc, href]
  | remove index _ ih =>
      intro c hc
      rcases List.mem_iff_getElem?.1 hc with ⟨i, hi⟩
      simp only [ReadWritePool.removeViaIndex, List.getElem?_modify, Option.map_eq_map,
        Option.map_eq_some_iff] at hi
      rcases hi with ⟨d, hd, rfl⟩
      have href := ih d (List.mem_of_getElem? hd)
      split_ifs
      · exact href
      · exact href

/-- Batches as they come to the network thread. -/
structure CompletedBatches (cfg : Config) where
  heap : Heap cfg
  built : ∀ (p : ℕ) (b : RequestBatch cfg), heap[p]? = some b → Built cfg p b.readwritePool
  nonempty : ∀ (p : ℕ) (b : RequestBatch cfg), heap[p]? = some b → b.readwritePool.entries ≠ []

/-! ## The account of a batch -/

/-- The entries that need no answer. -/
def deadCount (es : List ConnectionRequest) : ℕ := es.countP fun c => !isLive c

/-- The places of the entries that do, counted from `j` on. -/
def livePlaces : ℕ → List ConnectionRequest → List ℕ
  | _, [] => []
  | j, c :: cs => if isLive c then j :: livePlaces (j + 1) cs else livePlaces (j + 1) cs

theorem deadCount_add_live (j : ℕ) (es : List ConnectionRequest) :
    deadCount es + (livePlaces j es).length = es.length := by
  induction es generalizing j with
  | nil => rfl
  | cons c cs ih =>
      have := ih (j + 1)
      simp only [deadCount, livePlaces, List.countP_cons, List.length_cons] at this ⊢
      cases hlive : isLive c with
      | true => simp; omega
      | false => simp; omega

/-- A place that needs an answer is the place of an entry. -/
theorem livePlaces_lt {i j : ℕ} {es : List ConnectionRequest} (h : i ∈ livePlaces j es) :
    j ≤ i ∧ i < j + es.length := by
  induction es generalizing j with
  | nil => exact absurd h List.not_mem_nil
  | cons c cs ih =>
      rw [livePlaces] at h
      split_ifs at h
      · rcases List.mem_cons.1 h with rfl | h
        · exact ⟨Nat.le_refl _, by simp⟩
        · have := ih h
          simp only [List.length_cons]
          omega
      · have := ih h
        simp only [List.length_cons]
        omega

namespace State

/-- `num_sent` of batch `p`. -/
def numSentOf (s : State cfg) (p : ℕ) : ℕ :=
  match s.heap[p]? with
  | none => 0
  | some b => b.readwritePool.numSent

/-- The entries of batch `p` whose answer was prepared. -/
def sendsOf (s : State cfg) (p : ℕ) : List ℕ := (s.log.sends.filter (·.1 == p)).map Prod.snd

/-- The entries of batch `p` whose answer is out. -/
def finishedOf (s : State cfg) (p : ℕ) : List ℕ := (s.log.finished.filter (·.1 == p)).map Prod.snd

end State

/-- The account of batch `p` with the entries `es`: `num_sent` is the number of entries without a
client plus that of the finished answers, one answer was prepared for each of the others, and the
batch is deleted once, from the moment on at which all of them are out. -/
structure Account (es : List ConnectionRequest) (s : State cfg) (p : ℕ) : Prop where
  numSent : p ∈ s.log.delivered → s.numSentOf p = deadCount es + (s.finishedOf p).length
  sends : s.sendsOf p = if p ∈ s.log.delivered then livePlaces 0 es else []
  deleted : s.log.deleted.count p =
    if p ∈ s.log.delivered ∧ (s.finishedOf p).length = (livePlaces 0 es).length then 1 else 0

/-- What may happen to the `n` batches: each is delivered once, and an answer that was prepared
finishes once, perhaps after completions that announce more. -/
def Admissible (n : ℕ) (s : State cfg) : Event → Prop
  | .wait => True
  | .memory _ => True
  | .cqe (.batch p) => p < n ∧ p ∉ s.log.delivered
  | .cqe (.send p j _) => (p, j) ∈ s.log.sends ∧ (p, j) ∉ s.log.finished
  | .cqe _ => False

instance decidableAdmissible (n : ℕ) (s : State cfg) : ∀ e, Decidable (Admissible n s e)
  | .wait => isTrue trivial
  | .memory _ => isTrue trivial
  | .cqe (.batch p) => inferInstanceAs (Decidable (p < n ∧ p ∉ s.log.delivered))
  | .cqe (.send p j _) =>
      inferInstanceAs (Decidable ((p, j) ∈ s.log.sends ∧ (p, j) ∉ s.log.finished))
  | .cqe (.accept _ _) => isFalse id
  | .cqe (.recv _) => isFalse id

/-! ## What the branches do to the accounts -/

namespace State

variable {s s' : State cfg} {p q : ℕ}

theorem numSentOf_eq {b : RequestBatch cfg} (h : s.heap[p]? = some b) :
    s.numSentOf p = b.readwritePool.numSent := by
  rw [numSentOf, h]

theorem numSentOf_countSent (s : State cfg) (p q : ℕ) (hq : q < s.heap.length) :
    (s.countSent p).numSentOf q = s.numSentOf q + if p = q then 1 else 0 := by
  simp only [numSentOf, countSent, Heap.modifyPool, List.getElem?_modify,
    List.getElem?_eq_getElem hq]
  by_cases h : p = q
  · simp [h]
  · simp [h]

/-- A live entry is answered, a dead one counted. -/
theorem sendEntry_effect (p : ℕ) (s : State cfg) (j : ℕ) (conn : ConnectionRequest) :
    (s.sendEntry p j conn).log = { s.log with
        sends := s.log.sends ++ (livePlaces j [conn]).map (p, ·) }
      ∧ ∀ q < s.heap.length, (s.sendEntry p j conn).numSentOf q
        = s.numSentOf q + if p = q then deadCount [conn] else 0 := by
  unfold sendEntry
  by_cases hdead : conn.clientSockFd = -1
  · have hlive : isLive conn = false := by simp [isLive, hdead]
    rw [if_neg (not_not.2 hdead)]
    refine ⟨by simp [livePlaces, hlive, countSent], fun q hq => ?_⟩
    rw [numSentOf_countSent s p q hq]
    simp [deadCount, hlive]
  · have hlive : isLive conn = true := bne_iff_ne.2 hdead
    rw [if_pos hdead]
    refine ⟨by simp [livePlaces, hlive], fun q _ => ?_⟩
    simp only [deadCount, List.countP_singleton, hlive, Bool.not_true, Bool.false_eq_true,
      if_false, ite_self]
    rfl

/-- One answer for every live entry, one more in `num_sent` for every dead one. -/
theorem sendEntries_effect (p : ℕ) (s : State cfg) (j : ℕ) (es : List ConnectionRequest) :
    (sendEntries p s j es).log = { s.log with
        sends := s.log.sends ++ (livePlaces j es).map (p, ·) }
      ∧ ∀ q < s.heap.length, (sendEntries p s j es).numSentOf q
        = s.numSentOf q + if p = q then deadCount es else 0 := by
  have hsplit : ∀ (conn : ConnectionRequest) (k : ℕ) (cs : List ConnectionRequest),
      livePlaces k (conn :: cs) = livePlaces k [conn] ++ livePlaces (k + 1) cs
        ∧ deadCount (conn :: cs) = deadCount [conn] + deadCount cs := by
    intro conn k cs
    constructor
    · simp only [livePlaces]
      split_ifs
      · rfl
      · rfl
    · show ([conn] ++ cs).countP _ = _
      exact List.countP_append
  induction es generalizing s j with
  | nil => exact ⟨by simp [sendEntries, livePlaces], fun q _ => by simp [sendEntries, deadCount]⟩
  | cons conn es ih =>
      rcases sendEntry_effect p s j conn with ⟨hlog, hsent⟩
      cases es with
      | nil => exact ⟨hlog, hsent⟩
      | cons conn' es =>
          rcases hsplit conn j (conn' :: es) with ⟨hplaces, hcount⟩
          have hlen : (s.sendEntry p j conn).heap.length = s.heap.length :=
            (entriesOf_sendEntries p s j [conn]).2.2
          -- a fresh entry is none of the batches
          have hnext : ∃ t : State cfg, sendEntries p s j (conn :: conn' :: es)
              = sendEntries p t (j + 1) (conn' :: es) ∧ t.log = (s.sendEntry p j conn).log
              ∧ t.heap = (s.sendEntry p j conn).heap := by
            by_cases hdead : conn.clientSockFd = -1
            · exact ⟨_, sendEntries_dead hdead, rfl, rfl⟩
            · exact ⟨_, sendEntries_live hdead, rfl, rfl⟩
          rcases hnext with ⟨t, ht, htlog, htheap⟩
          rcases ih t (j + 1) with ⟨hlog', hsent'⟩
          rw [ht, hplaces, hcount]
          constructor
          · rw [hlog', htlog, hlog]
            simp [List.append_assoc]
          · intro q hq
            have htn : t.numSentOf q = (s.sendEntry p j conn).numSentOf q := by
              simp only [numSentOf, htheap]
            rw [hsent' q (by rw [htheap, hlen]; exact hq), htn, hsent q hq]
            split_ifs
            · omega
            · rfl

/-- `num_sent == length`, on a batch that is there. -/
theorem deleteIfSent_ok (hp : p < s.heap.length) (hdel : p ∉ s.log.deleted) :
    s.deleteIfSent p = .ok (if s.numSentOf p = (s.entriesOf p).length
      then { s with log := { s.log with deleted := s.log.deleted ++ [p] } } else s) := by
  have hb := List.getElem?_eq_getElem hp
  simp only [deleteIfSent, deref_ok_iff.2 ⟨hdel, hb⟩, numSentOf_eq hb, entriesOf_eq hb, bind,
    Except.bind, pure, Except.pure]
  split_ifs
  · rfl
  · rfl

end State

/-- The entries of batch `p` as they came. -/
def CompletedBatches.entries (set : CompletedBatches cfg) (p : ℕ) : List ConnectionRequest :=
  match set.heap[p]? with
  | none => []
  | some b => b.readwritePool.entries

/-- The accounts of all batches, with what keeps them: every finished answer was prepared and
finishes once. -/
structure Settling (set : CompletedBatches cfg) (s : State cfg) : Prop where
  length_le : set.heap.length ≤ s.heap.length
  entries : ∀ p < set.heap.length, s.entriesOf p = set.entries p
  undelivered : ∀ p < set.heap.length, p ∉ s.log.delivered → s.numSentOf p = 0
  account : ∀ p < set.heap.length, Account (set.entries p) s p
  nodup : s.log.finished.Nodup
  prepared : ∀ x ∈ s.log.finished, x ∈ s.log.sends
  range : ∀ x ∈ s.log.sends, x.1 < set.heap.length

section

variable {set : CompletedBatches cfg} {s s' : State cfg} {p q j : ℕ}

theorem Account.congr {es : List ConnectionRequest} (h : Account es s q)
    (hdelivered : q ∈ s'.log.delivered ↔ q ∈ s.log.delivered)
    (hsent : s'.numSentOf q = s.numSentOf q) (hsends : s'.sendsOf q = s.sendsOf q)
    (hfin : s'.finishedOf q = s.finishedOf q)
    (hdel : s'.log.deleted.count q = s.log.deleted.count q) : Account es s' q := by
  constructor
  · intro hq
    rw [hsent, hfin, h.numSent (hdelivered.1 hq)]
  · rw [hsends, h.sends]
    simp only [hdelivered]
  · rw [hdel, h.deleted]
    simp only [hdelivered, hfin]

theorem mem_sendsOf : j ∈ s.sendsOf p ↔ (p, j) ∈ s.log.sends := by
  simp [State.sendsOf]

/-- Before it is delivered, nothing happens to a batch. -/
theorem Settling.finishedOf_nil (h : Settling set s) (hp : p < set.heap.length)
    (hnew : p ∉ s.log.delivered) : s.finishedOf p = [] := by
  have hnone : s.sendsOf p = [] := by
    rw [(h.account p hp).sends, if_neg hnew]
  rw [State.finishedOf, List.map_eq_nil_iff, List.filter_eq_nil_iff]
  intro x hx hxp
  rw [beq_iff_eq] at hxp
  have hmem : x.2 ∈ s.sendsOf p := mem_sendsOf.2 (hxp ▸ h.prepared x hx)
  rw [hnone] at hmem
  exact absurd hmem List.not_mem_nil

/-- An answer that is not out yet is one more than those that are. -/
theorem Settling.finishedOf_lt (h : Settling set s) (hsend : (p, j) ∈ s.log.sends)
    (hfin : (p, j) ∉ s.log.finished) : (s.finishedOf p).length < (s.sendsOf p).length := by
  have hsub : (p, j) :: s.log.finished.filter (·.1 == p) ⊆ s.log.sends.filter (·.1 == p) := by
    intro x hx
    rcases List.mem_cons.1 hx with rfl | hx
    · exact List.mem_filter.2 ⟨hsend, beq_self_eq_true p⟩
    · rcases List.mem_filter.1 hx with ⟨hx, hxp⟩
      exact List.mem_filter.2 ⟨h.prepared x hx, hxp⟩
  have hnodup : ((p, j) :: s.log.finished.filter (·.1 == p)).Nodup :=
    List.nodup_cons.2 ⟨fun hmem => hfin (List.mem_filter.1 hmem).1, h.nodup.filter _⟩
  have hle := hnodup.length_le_of_subset hsub
  rw [List.length_cons] at hle
  rw [State.finishedOf, State.sendsOf, List.length_map, List.length_map]
  exact hle

/-- A batch with an answer that is not out yet was delivered, and is not deleted. -/
theorem Settling.outstanding (h : Settling set s) (hsend : (p, j) ∈ s.log.sends)
    (hfin : (p, j) ∉ s.log.finished) :
    p < set.heap.length ∧ p ∈ s.log.delivered ∧ j ∈ livePlaces 0 (set.entries p)
      ∧ (s.finishedOf p).length < (livePlaces 0 (set.entries p)).length
      ∧ p ∉ s.log.deleted := by
  have hp : p < set.heap.length := h.range _ hsend
  have hacc := h.account p hp
  have hmem := mem_sendsOf.2 hsend
  have hdelivered : p ∈ s.log.delivered := by
    by_contra hnew
    rw [hacc.sends, if_neg hnew] at hmem
    exact absurd hmem List.not_mem_nil
  have hlt := h.finishedOf_lt hsend hfin
  rw [hacc.sends, if_pos hdelivered] at hmem hlt
  refine ⟨hp, hdelivered, hmem, hlt, ?_⟩
  rw [← List.count_eq_zero, hacc.deleted, if_neg (fun hall => hlt.ne hall.2)]

theorem sendsOf_append {places : List ℕ} {l : List (ℕ × ℕ)}
    (h : s'.log.sends = l ++ places.map (p, ·)) (q : ℕ) :
    s'.sendsOf q = (l.filter (·.1 == q)).map Prod.snd ++ if p = q then places else [] := by
  rw [State.sendsOf, h, List.filter_append, List.map_append, List.filter_map]
  by_cases hpq : p = q
  · simp [Function.comp_def, hpq]
  · simp [Function.comp_def, hpq]

/-- The accounts just before batch `p` is deleted, if it is to be. -/
structure Unsettled (set : CompletedBatches cfg) (s : State cfg) (p : ℕ) : Prop where
  length_le : set.heap.length ≤ s.heap.length
  entries : ∀ q < set.heap.length, s.entriesOf q = set.entries q
  undelivered : ∀ q < set.heap.length, q ∉ s.log.delivered → s.numSentOf q = 0
  others : ∀ q < set.heap.length, p ≠ q → Account (set.entries q) s q
  nodup : s.log.finished.Nodup
  prepared : ∀ x ∈ s.log.finished, x ∈ s.log.sends
  range : ∀ x ∈ s.log.sends, x.1 < set.heap.length
  lt : p < set.heap.length
  delivered : p ∈ s.log.delivered
  numSent : s.numSentOf p = deadCount (set.entries p) + (s.finishedOf p).length
  sends : s.sendsOf p = livePlaces 0 (set.entries p)
  deleted : p ∉ s.log.deleted

/-- It is deleted exactly if every answer is out. -/
theorem Unsettled.settle (h : Unsettled set s p) :
    ∃ s', s.deleteIfSent p = .ok s' ∧ Settling set s' := by
  refine ⟨_, State.deleteIfSent_ok (h.lt.trans_le h.length_le) h.deleted, ?_⟩
  have hiff : s.numSentOf p = (s.entriesOf p).length
      ↔ (s.finishedOf p).length = (livePlaces 0 (set.entries p)).length := by
    have hsum := deadCount_add_live 0 (set.entries p)
    rw [h.numSent, h.entries p h.lt]
    omega
  have hsends : s.sendsOf p
      = if p ∈ s.log.delivered then livePlaces 0 (set.entries p) else [] := by
    rw [if_pos h.delivered]
    exact h.sends
  have hcount := List.count_eq_zero.2 h.deleted
  by_cases hall : s.numSentOf p = (s.entriesOf p).length
  · rw [if_pos hall]
    refine ⟨h.length_le, h.entries, h.undelivered, fun q hq => ?_, h.nodup, h.prepared, h.range⟩
    by_cases hpq : p = q
    · subst hpq
      refine ⟨fun _ => h.numSent, hsends, ?_⟩
      rw [if_pos ⟨h.delivered, hiff.1 hall⟩, List.count_append, hcount, List.count_singleton_self]
    · refine (h.others q hq hpq).congr Iff.rfl rfl rfl rfl ?_
      rw [List.count_append, List.count_singleton, if_neg (by simpa using hpq), Nat.add_zero]
  · rw [if_neg hall]
    refine ⟨h.length_le, h.entries, h.undelivered, fun q hq => ?_, h.nodup, h.prepared, h.range⟩
    by_cases hpq : p = q
    · subst hpq
      refine ⟨fun _ => h.numSent, hsends, ?_⟩
      rw [if_neg fun hd => hall (hiff.2 hd.2), hcount]
    · exact h.others q hq hpq

/-- A batch of the set is still there, with its entries. -/
theorem Settling.batch_eq (h : Settling set s) (hp : p < set.heap.length) :
    ∃ b, s.heap[p]? = some b ∧ b.readwritePool.entries = set.entries p := by
  obtain ⟨b, hb⟩ : ∃ b, s.heap[p]? = some b :=
    ⟨_, List.getElem?_eq_getElem (hp.trans_le h.length_le)⟩
  exact ⟨b, hb, by rw [← h.entries p hp, State.entriesOf_eq hb]⟩

/-- Before it is delivered, a batch is not deleted. -/
theorem Settling.not_deleted (h : Settling set s) (hp : p < set.heap.length)
    (hnew : p ∉ s.log.delivered) : p ∉ s.log.deleted := by
  rw [← List.count_eq_zero, (h.account p hp).deleted, if_neg fun hall => hnew hall.1]

/-- The loop over the entries of a delivered batch opens its account. -/
theorem Settling.opened (h : Settling set s) (hp : p < set.heap.length)
    (hnew : p ∉ s.log.delivered) :
    Unsettled set (State.sendEntries p
      { s with
        log := { s.log with delivered := s.log.delivered ++ [p] } } 0 (set.entries p)) p := by
  have hacc := h.account p hp
  have hfin := h.finishedOf_nil hp hnew
  obtain ⟨hlog, hsent⟩ := State.sendEntries_effect p
    { s with log := { s.log with delivered := s.log.delivered ++ [p] } } 0 (set.entries p)
  obtain ⟨hent, -, hlen⟩ := State.entriesOf_sendEntries p
    { s with log := { s.log with delivered := s.log.delivered ++ [p] } } 0 (set.entries p)
  generalize State.sendEntries p
    { s with log := { s.log with delivered := s.log.delivered ++ [p] } } 0 (set.entries p) = t
    at hlog hsent hent hlen ⊢
  have hsent : ∀ q < set.heap.length,
      t.numSentOf q = s.numSentOf q + if p = q then deadCount (set.entries p) else 0 :=
    fun q hq => hsent q (hq.trans_le h.length_le)
  have hfin' : t.finishedOf = s.finishedOf := by
    funext q
    rw [State.finishedOf, State.finishedOf, hlog]
  have hsends : ∀ q, t.sendsOf q = (s.log.sends.filter (·.1 == q)).map Prod.snd
      ++ if p = q then livePlaces 0 (set.entries p) else [] :=
    sendsOf_append (congrArg Log.sends hlog)
  refine ⟨?_, ?_, ?_, ?_, ?_, ?_, ?_, hp, ?_, ?_, ?_, ?_⟩
  · rw [hlen]
    exact h.length_le
  · intro q hq
    rw [hent]
    exact h.entries q hq
  · intro q hq hq'
    rw [hlog, List.mem_append, List.mem_singleton, not_or] at hq'
    rw [hsent q hq, if_neg (Ne.symm hq'.2)]
    exact h.undelivered q hq hq'.1
  · intro q hq hpq
    refine (h.account q hq).congr ?_ ?_ ?_ ?_ ?_
    · rw [hlog, List.mem_append, List.mem_singleton]
      exact or_iff_left (Ne.symm hpq)
    · rw [hsent q hq, if_neg hpq, Nat.add_zero]
    · rw [hsends q, if_neg hpq, List.append_nil]
      rfl
    · rw [hfin']
    · rw [hlog]
  · rw [hlog]
    exact h.nodup
  · intro x hx
    rw [hlog] at hx ⊢
    exact List.mem_append_left _ (h.prepared x hx)
  · intro x hx
    rw [hlog] at hx
    rcases List.mem_append.1 hx with hx | hx
    · exact h.range x hx
    · rcases List.mem_map.1 hx with ⟨i, -, rfl⟩
      exact hp
  · rw [hlog]
    exact List.mem_append_right _ (List.mem_singleton_self p)
  · rw [hsent p hp, if_pos rfl, h.undelivered p hp hnew, hfin', hfin, Nat.zero_add]
    rfl
  · have hnone : (s.log.sends.filter (·.1 == p)).map Prod.snd = [] := by
      have hs := hacc.sends
      rw [if_neg hnew] at hs
      exact hs
    rw [hsends p, if_pos rfl, hnone, List.nil_append]
  · rw [hlog]
    exact h.not_deleted hp hnew

/-- A batch is delivered: its account is opened, and closed at once if nobody waits for an
answer. -/
theorem Settling.deliver (h : Settling set s) (hp : p < set.heap.length)
    (hnew : p ∉ s.log.delivered) : ∃ s', s.batchBranch p = .ok s' ∧ Settling set s' := by
  obtain ⟨b, hb⟩ : ∃ b, set.heap[p]? = some b := ⟨_, List.getElem?_eq_getElem hp⟩
  rcases h.batch_eq hp with ⟨b', hb', hes⟩
  have hne : set.entries p ≠ [] := by
    rw [CompletedBatches.entries, hb]
    exact set.nonempty p b hb
  have hderef := State.deref_ok_iff.2 ⟨h.not_deleted hp hnew, hb'⟩
  have hrun : s.batchBranch p = (State.sendEntries p
      { s with log := { s.log with delivered := s.log.delivered ++ [p] } } 0
      (set.entries p)).deleteIfSent p := by
    simp only [State.batchBranch, hderef, bind, Except.bind, hes, if_neg hne]
  rw [hrun]
  exact (h.opened hp hnew).settle

/-- An answer that is out counts in its account; where the state it is counted in came from does not
matter. -/
theorem Settling.answered {t : State cfg} (h : Settling set s) (hsend : (p, j) ∈ s.log.sends)
    (hfin : (p, j) ∉ s.log.finished) (hlen : t.heap.length = s.heap.length)
    (hent : t.entriesOf = s.entriesOf)
    (hsent : ∀ q < set.heap.length, t.numSentOf q = s.numSentOf q + if p = q then 1 else 0) :
    Unsettled set { t with log := { s.log with finished := s.log.finished ++ [(p, j)] } } p := by
  rcases h.outstanding hsend hfin with ⟨hp, hdelivered, -, -, hdel⟩
  have hfin' : ∀ q, State.finishedOf
      { t with log := { s.log with finished := s.log.finished ++ [(p, j)] } } q
        = s.finishedOf q ++ if p = q then [j] else [] := by
    intro q
    simp only [State.finishedOf, List.filter_append, List.map_append]
    by_cases hpq : p = q
    · simp [hpq]
    · simp [hpq]
  refine ⟨?_, ?_, ?_, ?_, ?_, ?_, h.range, hp, hdelivered, ?_, ?_, hdel⟩
  · rw [hlen]
    exact h.length_le
  · intro q hq
    exact (congrFun hent q).trans (h.entries q hq)
  · intro q hq hq'
    refine (hsent q hq).trans ?_
    have hpq : p ≠ q := fun hpq => hq' (hpq ▸ hdelivered)
    rw [if_neg hpq, Nat.add_zero]
    exact h.undelivered q hq hq'
  · intro q hq hpq
    refine (h.account q hq).congr Iff.rfl ?_ rfl ?_ rfl
    · refine (hsent q hq).trans ?_
      rw [if_neg hpq, Nat.add_zero]
    · rw [hfin' q, if_neg hpq, List.append_nil]
  · rw [List.nodup_append]
    refine ⟨h.nodup, by simp, fun x hx y hy hxy => ?_⟩
    rw [List.mem_singleton] at hy
    exact hfin (hy ▸ hxy ▸ hx)
  · intro x hx
    rcases List.mem_append.1 hx with hx | hx
    · exact h.prepared x hx
    · rw [List.mem_singleton] at hx
      exact hx ▸ hsend
  · refine (hsent p hp).trans ?_
    rw [if_pos rfl, (h.account p hp).numSent hdelivered, hfin' p, if_pos rfl,
      List.length_append, List.length_singleton, Nat.add_assoc]
  · have hs := (h.account p hp).sends
    rw [if_pos hdelivered] at hs
    exact hs

/-- An answer is out: one more in `num_sent`, and the last one closes the account. -/
theorem Settling.finish (h : Settling set s) (hsend : (p, j) ∈ s.log.sends)
    (hfin : (p, j) ∉ s.log.finished) (more : Bool) :
    ∃ s', s.sendBranch p j more = .ok s' ∧ Settling set s' := by
  rcases h.outstanding hsend hfin with ⟨hp, -, hplace, -, hdel⟩
  obtain ⟨b, hb⟩ : ∃ b, set.heap[p]? = some b := ⟨_, List.getElem?_eq_getElem hp⟩
  rcases h.batch_eq hp with ⟨b', hb', hes⟩
  have hderef := State.deref_ok_iff.2 ⟨hdel, hb'⟩
  have hj : j < b'.readwritePool.entries.length := by
    rw [hes]
    simpa using (livePlaces_lt hplace).2
  obtain ⟨conn, hconn⟩ : ∃ conn, b'.readwritePool.entries[j]? = some conn :=
    ⟨_, List.getElem?_eq_getElem hj⟩
  have href : conn.reqBatchRef = p := by
    rw [hes, CompletedBatches.entries, hb] at hconn
    exact (set.built p b hb).reqBatchRef conn (List.mem_of_getElem? hconn)
  cases more with
  | true =>
      refine ⟨s, ?_, h⟩
      simp only [State.sendBranch, hderef, hconn, bind, Except.bind, if_true, pure, Except.pure]
  | false =>
      have hrun : s.sendBranch p j false = State.deleteIfSent
          { (s.prep (.closeDirect conn.clientSockFd)).countSent p with
            log := { s.log with finished := s.log.finished ++ [(p, j)] } } p := by
        simp only [State.sendBranch, hderef, hconn, href, bind, Except.bind, Bool.false_eq_true,
          if_false]
        rfl
      rw [hrun]
      refine (h.answered hsend hfin ?_ ?_ fun q hq => ?_).settle
      · exact State.length_countSent _ p
      · exact State.entriesOf_countSent _ p
      · exact State.numSentOf_countSent (s.prep _) p q (hq.trans_le h.length_le)

/-- Before the first delivery. -/
theorem settling_start (set : CompletedBatches cfg) (alloc : Allocator cfg) (mem : Memory)
    (pool : ConnectionPool) : Settling set (State.start alloc set.heap mem pool) := by
  have hheap : ∀ p < set.heap.length,
      (State.start alloc set.heap mem pool).heap[p]? = set.heap[p]? := fun p hp => by
    simp only [State.start, Heap.alloc, List.getElem?_append_left hp]
  refine ⟨?_, ?_, ?_, ?_, List.nodup_nil, fun x hx => absurd hx List.not_mem_nil,
    fun x hx => absurd hx List.not_mem_nil⟩
  · simp [State.start, Heap.alloc]
  · intro p hp
    rw [State.entriesOf, hheap p hp]
    rfl
  · intro p hp _
    rw [State.numSentOf, hheap p hp, List.getElem?_eq_getElem hp]
    exact (set.built p _ (List.getElem?_eq_getElem hp)).numSent
  · intro p hp
    exact ⟨fun hd => absurd hd List.not_mem_nil, rfl, by
      rw [if_neg fun hd => absurd hd.1 List.not_mem_nil]
      rfl⟩

/-- Every admissible event has an outcome, and the accounts stay right. -/
theorem Settling.step {alloc : Allocator cfg} {e : Event} (h : Settling set s)
    (he : Admissible set.heap.length s e) : ∃ s', step alloc s e = .ok s' ∧ Settling set s' := by
  cases e with
  | wait =>
      exact ⟨s.wait, rfl, h.length_le, h.entries, h.undelivered,
        fun p hp => (h.account p hp).congr Iff.rfl rfl rfl rfl rfl, h.nodup, h.prepared, h.range⟩
  | memory mem =>
      exact ⟨{ s with mem }, rfl, h.length_le, h.entries, h.undelivered,
        fun p hp => (h.account p hp).congr Iff.rfl rfl rfl rfl rfl, h.nodup, h.prepared, h.range⟩
  | cqe c =>
      cases c with
      | accept res more => exact absurd he id
      | recv i => exact absurd he id
      | send p j more => exact h.finish he.1 he.2 more
      | batch p => exact h.deliver he.1 he.2

/-- **Every response batch is deleted once, when its last answer is out.**  Let any set of batches
be delivered to the network thread, each once, and let every answer that is prepared for them finish
once, in any order.  Then no step fails, and in every state on the way `num_sent` of a delivered
batch is the number of its entries without a client plus that of its finished answers, exactly one
answer was prepared for each of its other entries, and the batch has been deleted once if they are
all out, and not yet if they are not. -/
theorem responseBatch_account (alloc : Allocator cfg) (set : CompletedBatches cfg) (mem : Memory)
    (pool : ConnectionPool) (es : List Event)
    (hes : AttemptsMeet (Network.step alloc) (Admissible set.heap.length)
      (State.start alloc set.heap mem pool) es) :
    (∃ s, runEvents (Network.step alloc) (State.start alloc set.heap mem pool) es = .ok s)
      ∧ Throughout (Network.step alloc)
        (fun s => ∀ p < set.heap.length, Account (set.entries p) s p)
        (State.start alloc set.heap mem pool) es := by
  obtain ⟨hok, hthrough⟩ := run_of_attemptsMeet (fun _ _ h he => Settling.step h he)
    (settling_start set alloc mem pool) hes
  exact ⟨hok, hthrough.mono fun s h => h.account⟩

end

/-- A batch of two requests with the same key, the first of which was taken out again. -/
def answeredPool : ReadWritePool where
  entries := [⟨.write, 0, -1, 1⟩, ⟨.read, 0, 1, 0⟩]

theorem answeredPool_built : Built pairConfig 0 answeredPool := by
  have hfirst : ReadWritePool.insertReadWrite pairConfig (fun _ => 0) {} ⟨.read, 0, 1, 0⟩
      = .ok { entries := [⟨.read, 0, 1, 0⟩] } := rfl
  have hsecond : ReadWritePool.insertReadWrite pairConfig (fun _ => 0)
      { entries := [⟨.read, 0, 1, 0⟩] } ⟨.write, 0, 2, 1⟩
        = .ok { entries := [⟨.write, 0, 2, 1⟩, ⟨.read, 0, 1, 0⟩] } := rfl
  refine .remove 0 (.insert (.insert (.new false) ?_ hfirst) ?_ hsecond)
  · rfl
  · rfl

/-- The heap with that batch. -/
def answeredHeap : Heap pairConfig :=
  [{ RequestBatch.zeroed pairConfig .read with readwritePool := answeredPool }]

theorem answeredHeap_pool {p : ℕ} {b : RequestBatch pairConfig} (h : answeredHeap[p]? = some b) :
    p = 0 ∧ b.readwritePool = answeredPool := by
  cases p with
  | zero =>
      cases h
      exact ⟨rfl, rfl⟩
  | succ p => simp [answeredHeap] at h

theorem answeredHeap_built (p : ℕ) (b : RequestBatch pairConfig) (h : answeredHeap[p]? = some b) :
    Built pairConfig p b.readwritePool := by
  rcases answeredHeap_pool h with ⟨rfl, hpool⟩
  rw [hpool]
  exact answeredPool_built

theorem answeredHeap_nonempty (p : ℕ) (b : RequestBatch pairConfig)
    (h : answeredHeap[p]? = some b) : b.readwritePool.entries ≠ [] := by
  rw [(answeredHeap_pool h).2]
  exact List.cons_ne_nil _ _

def answeredBatch : CompletedBatches pairConfig :=
  ⟨answeredHeap, answeredHeap_built, answeredHeap_nonempty⟩

/-- The batch is delivered; its one answer announces a second completion and then is out. -/
def answeredRun : List Event :=
  [.wait, .cqe (.batch 0), .wait, .cqe (.send 0 1 true), .cqe (.send 0 1 false)]

theorem responseBatch_account_answeredRun :
    AttemptsMeet (step (.zeroed pairConfig)) (Admissible 1)
        (State.start (.zeroed pairConfig) answeredHeap (fun _ => 0) (.new 2 0)) answeredRun
      ∧ ∃ s, runEvents (step (.zeroed pairConfig))
        (State.start (.zeroed pairConfig) answeredHeap (fun _ => 0) (.new 2 0)) answeredRun
          = .ok s := by
  have hmeet : AttemptsMeet (step (.zeroed pairConfig)) (Admissible 1)
      (State.start (.zeroed pairConfig) answeredHeap (fun _ => 0) (.new 2 0)) answeredRun := by
    decide +kernel
  exact ⟨hmeet, (responseBatch_account _ answeredBatch _ _ _ hmeet).1⟩

end RingDB.Network
