import RingDB.Network.Thread

/-!
# Which submission entry an operation is written to

A pass of the network thread takes one submission entry for `sqe` and shares it among the
completions: a `recv`, a message, a close and the first answer of a batch are all written to the
entry that `sqe` points to at that moment.  Only `batchBranch` takes new entries for it, one after
each answer except that of the last entry of the batch.

* `Cursor s used` — every operation so far has its own entry, and `used` tells whether the current
  entry holds one.
* `Clash s` — some entry was written twice; nothing that follows can mend that.
* **`handle_cursor`** — what one completion does to the cursor.
* **`ownEntries_iff`** — a pass overwrites nothing exactly if no completion that prepares an
  operation follows one that left its own in the current entry.
-/

namespace RingDB.Network

open Core

variable {cfg : Config}

/-! ## The conditions, read off the completions -/

/-- The completion prepares an operation in the current entry.  `pools` are the batches, `fill` the
number of requests in the current one. -/
def prepares (cfg : Config) (pools : ℕ → List ConnectionRequest) (fill : ℕ) : Completion → Bool
  | .accept res _ => decide (0 < res)
  | .recv _ => decide (cfg.batchNumRequests ≤ fill)
  | .send _ _ more => !more
  | .batch p => (pools p).any isLive

/-- The completion leaves an operation in the entry that is current after it. -/
def leaves (cfg : Config) (pools : ℕ → List ConnectionRequest) (fill : ℕ) : Completion → Bool
  | .batch p => (pools p).getLast?.any isLive
  | c => prepares cfg pools fill c

/-- The number of batches made, and of the requests in the current one, after the completion.  A
full batch is replaced by a new one, with as many requests as its memory happens to hold. -/
def fillAfter (alloc : Allocator cfg) (made fill : ℕ) : Completion → ℕ × ℕ
  | .recv _ =>
      if fill < cfg.batchNumRequests then (made, fill + 1)
      else (made + 1, (alloc.chunk made).readwritePool.entries.length)
  | _ => (made, fill)

/-- The completions of a pass, each with the number of requests in the batch that is current
then. -/
def withFill (alloc : Allocator cfg) : ℕ × ℕ → List Completion → List (ℕ × Completion)
  | _, [] => []
  | (made, fill), c :: cs => (fill, c) :: withFill alloc (fillAfter alloc made fill c) cs

/-- No completion that prepares an operation follows one that left its own in the current entry. -/
def Undisturbed (alloc : Allocator cfg) (pools : ℕ → List ConnectionRequest) (start : ℕ × ℕ)
    (cqes : List Completion) : Prop :=
  (withFill alloc start cqes).Pairwise fun a b =>
    ¬ (leaves cfg pools a.1 a.2 = true ∧ prepares cfg pools b.1 b.2 = true)

theorem prepares_of_leaves {pools : ℕ → List ConnectionRequest} {fill : ℕ} {c : Completion}
    (h : leaves cfg pools fill c = true) : prepares cfg pools fill c = true := by
  cases c with
  | batch p =>
      simp only [leaves, Option.any_eq_true] at h
      rcases h with ⟨conn, hlast, hlive⟩
      exact List.any_eq_true.2 ⟨conn, List.mem_of_getLast? hlast, hlive⟩
  | accept res more => exact h
  | recv i => exact h
  | send p j more => exact h

/-! ## The cursor -/

/-- The entry numbers of the operations so far. -/
def State.slots (s : State cfg) : List ℕ := s.subs.prepared.map Prod.fst

/-- Every operation has its own entry; the current one holds an operation if `used`. -/
structure Cursor (s : State cfg) (used : Bool) : Prop where
  sqe_lt : s.sqe < s.subs.entries.length
  below : ∀ w ∈ s.subs.prepared, w.1 < s.subs.entries.length
  own : s.subs.OwnEntries
  used_iff : s.sqe ∈ s.slots ↔ used = true

/-- An entry was written twice. -/
def Clash (s : State cfg) : Prop := ¬ s.slots.Nodup

section

variable {s s' : State cfg} {used : Bool} {op : Operation}

theorem cursor_wait (s : State cfg) : Cursor s.wait false where
  sqe_lt := Nat.zero_lt_one
  below := fun _ hw => absurd hw List.not_mem_nil
  own := ⟨List.nodup_nil, fun _ hw => absurd hw List.not_mem_nil⟩
  used_iff := iff_of_false List.not_mem_nil Bool.false_ne_true

/-- The cursor depends on the submission entries alone. -/
theorem Cursor.congr (h : Cursor s used) (hsubs : s'.subs = s.subs) (hsqe : s'.sqe = s.sqe) :
    Cursor s' used := by
  constructor
  · rw [hsubs, hsqe]; exact h.sqe_lt
  · rw [hsubs]; exact h.below
  · rw [hsubs]; exact h.own
  · rw [State.slots, hsubs, hsqe]; exact h.used_iff

/-- An operation written to an entry that holds none. -/
theorem ownEntries_prep {q : Submissions} {sqe : ℕ} (h : q.OwnEntries)
    (hlt : sqe < q.entries.length) (hfree : sqe ∉ q.prepared.map Prod.fst) :
    (q.prep sqe op).OwnEntries := by
  constructor
  · simp only [Submissions.prep, List.map_append, List.map_cons, List.map_nil]
    rw [List.nodup_append]
    refine ⟨h.1, by simp, fun a ha b hb hab => ?_⟩
    rw [List.mem_singleton] at hb
    exact hfree (hb ▸ hab ▸ ha)
  · intro w hw
    simp only [Submissions.prep, List.mem_append, List.mem_singleton] at hw ⊢
    rcases hw with hw | rfl
    · have hne : sqe ≠ w.1 := fun heq => hfree (heq ▸ List.mem_map_of_mem hw)
      rw [List.getElem?_set_ne hne]
      exact h.2 w hw
    · exact List.getElem?_set_self hlt

theorem Cursor.prep (h : Cursor s false) : Cursor (s.prep op) true := by
  have hfree : s.sqe ∉ s.slots := fun hmem => by simpa using h.used_iff.1 hmem
  constructor
  · simpa [State.prep, Submissions.prep] using h.sqe_lt
  · intro w hw
    simp only [State.prep, Submissions.prep, List.mem_append, List.mem_singleton,
      List.length_set] at hw ⊢
    rcases hw with hw | rfl
    · exact h.below w hw
    · exact h.sqe_lt
  · exact ownEntries_prep h.own h.sqe_lt hfree
  · simp [State.slots, State.prep, Submissions.prep]

/-- An operation written to an entry that holds one already. -/
theorem Cursor.clash (h : Cursor s true) : Clash (s.prep op) := by
  intro hnodup
  have hmem : s.sqe ∈ s.slots := h.used_iff.2 rfl
  simp only [State.slots, State.prep, Submissions.prep, List.map_append, List.map_cons,
    List.map_nil] at hnodup
  exact (List.nodup_append.1 hnodup).2.2 _ hmem _ (List.mem_singleton_self _) rfl

/-- A fresh entry is no entry of the operations so far. -/
theorem Cursor.fresh (h : Cursor s used) : s.subs.entries.length ∉ s.slots := by
  intro hmem
  rcases List.mem_map.1 hmem with ⟨w, hw, heq⟩
  exact (h.below w hw).ne heq

theorem ownEntries_getSqe {q : Submissions} (h : q.OwnEntries)
    (hbelow : ∀ w ∈ q.prepared, w.1 < q.entries.length) : q.getSqe.1.OwnEntries := by
  refine ⟨h.1, fun w hw => ?_⟩
  simp only [Submissions.getSqe, List.getElem?_append_left (hbelow w hw)]
  exact h.2 w hw

theorem Cursor.getSqe (h : Cursor s used) : Cursor s.getSqe false := by
  constructor
  · simp [State.getSqe, Submissions.getSqe]
  · intro w hw
    have hlt := h.below w hw
    simp only [State.getSqe, Submissions.getSqe, List.length_append, List.length_singleton]
    omega
  · exact ownEntries_getSqe h.own h.below
  · simpa [State.getSqe, Submissions.getSqe, State.slots] using h.fresh

/-- An operation in an entry of its own leaves the current one alone. -/
theorem Cursor.prepFresh (h : Cursor s used) : Cursor (s.prepFresh op) used := by
  have hlt := h.sqe_lt
  constructor
  · simp only [State.prepFresh, Submissions.prep, Submissions.getSqe, List.length_set,
      List.length_append, List.length_singleton]
    omega
  · intro w hw
    simp only [State.prepFresh, Submissions.prep, Submissions.getSqe, List.mem_append,
      List.mem_singleton, List.length_set, List.length_append, List.length_singleton] at hw ⊢
    rcases hw with hw | rfl
    · have := h.below w hw
      omega
    · exact Nat.lt_succ_self _
  · refine ownEntries_prep (ownEntries_getSqe h.own h.below) ?_ h.fresh
    simp [Submissions.getSqe]
  · rw [← h.used_iff]
    simp only [State.slots, State.prepFresh, Submissions.prep, Submissions.getSqe,
      List.map_append, List.map_cons, List.map_nil, List.mem_append, List.mem_singleton]
    exact or_iff_left hlt.ne

/-- Operations are only ever added. -/
theorem Clash.mono (h : Clash s) (hpre : s.slots <+: s'.slots) : Clash s' :=
  fun hnodup => h (hnodup.sublist hpre.sublist)

theorem slots_prep : s.slots <+: (s.prep op).slots := by
  simp [State.slots, State.prep, Submissions.prep]

theorem slots_prepFresh : s.slots <+: (s.prepFresh op).slots := by
  simp [State.slots, State.prepFresh, Submissions.prep, Submissions.getSqe]

/-- What became of the cursor: it moved on, unless an operation was prepared in a used entry. -/
def Moved (used prepares leaves : Bool) (s' : State cfg) : Prop :=
  (¬ (prepares = true ∧ used = true) ∧ Cursor s' (if prepares then leaves else used))
    ∨ (prepares = true ∧ used = true ∧ Clash s')

/-- One operation in the current entry, and nothing more. -/
theorem Cursor.moved_prep (h : Cursor s used) : Moved used true true (s.prep op) := by
  cases used with
  | false => exact .inl ⟨by simp, h.prep⟩
  | true => exact .inr ⟨rfl, rfl, h.clash⟩

theorem Moved.congr {p l : Bool} (h : Moved used p l s) (hsubs : s'.subs = s.subs)
    (hsqe : s'.sqe = s.sqe) : Moved used p l s' := by
  rcases h with ⟨hno, hcur⟩ | ⟨hp, hu, hclash⟩
  · exact .inl ⟨hno, hcur.congr hsubs hsqe⟩
  · refine .inr ⟨hp, hu, ?_⟩
    rw [Clash, State.slots, hsubs]
    exact hclash

/-! ## One completion -/

theorem slots_sendEntry (p j : ℕ) (conn : ConnectionRequest) :
    s.slots <+: (s.sendEntry p j conn).slots := by
  unfold State.sendEntry
  split_ifs
  · exact slots_prep
  · exact List.prefix_rfl

theorem slots_sendEntries (p : ℕ) (s : State cfg) (j : ℕ) (es : List ConnectionRequest) :
    s.slots <+: (State.sendEntries p s j es).slots := by
  induction es generalizing s j with
  | nil => exact List.prefix_rfl
  | cons conn es ih =>
      cases es with
      | nil => exact slots_sendEntry p j conn
      | cons conn' es =>
          by_cases hlive : conn.clientSockFd = -1
          · rw [State.sendEntries_dead hlive]
            exact (slots_sendEntry p j conn).trans (ih _ _)
          · rw [State.sendEntries_live hlive]
            exact (slots_sendEntry p j conn).trans (ih (s.sendEntry p j conn).getSqe _)

/-- A live entry is answered from the current entry, a dead one needs none. -/
theorem Cursor.sendEntry (h : Cursor s used) (p j : ℕ) (conn : ConnectionRequest) :
    Moved used (isLive conn) (isLive conn) (s.sendEntry p j conn) := by
  unfold State.sendEntry isLive
  by_cases hlive : conn.clientSockFd = -1
  · rw [if_neg (not_not.2 hlive), hlive]
    exact .inl ⟨by simp, h.congr rfl rfl⟩
  · rw [if_pos hlive, bne_iff_ne.2 hlive]
    exact h.moved_prep.congr rfl rfl

/-- The loop over a batch: the first answer needs the current entry, the others have their own,
and the current one is left used if the last entry is live. -/
theorem Cursor.sendEntries {es : List ConnectionRequest} {j : ℕ} (h : Cursor s used) (p : ℕ) :
    Moved used (es.any isLive) (es.getLast?.any isLive) (State.sendEntries p s j es) := by
  induction es generalizing s used j with
  | nil => exact .inl ⟨by simp, h⟩
  | cons conn es ih =>
      cases es with
      | nil => simpa [State.sendEntries_last] using h.sendEntry p j conn
      | cons conn' es =>
          rw [List.getLast?_cons_cons, List.any_cons]
          have hfirst := h.sendEntry p j conn
          by_cases hdead : conn.clientSockFd = -1
          · have hlive : isLive conn = false := by simp [isLive, hdead]
            rw [State.sendEntries_dead hdead, hlive, Bool.false_or]
            rcases hfirst with ⟨-, hcur⟩ | ⟨hlive', -, -⟩
            · exact ih (by simpa [hlive] using hcur)
            · exact absurd (hlive.symm.trans hlive') Bool.false_ne_true
          · have hlive : isLive conn = true := bne_iff_ne.2 hdead
            rw [State.sendEntries_live hdead, hlive, Bool.true_or]
            rcases hfirst with ⟨hno, hcur⟩ | ⟨-, hused, hclash⟩
            · have hused : used = false := by simpa [hlive] using hno
              refine .inl ⟨by simp [hused], ?_⟩
              rcases ih (j := j + 1) hcur.getSqe with ⟨-, hcur'⟩ | ⟨-, hfalse, -⟩
              · -- without a further answer the fresh entry is still fresh, and the last one is dead
                by_cases hany : (conn' :: es).any isLive = true
                · simpa [hany] using hcur'
                · rw [if_neg hany] at hcur'
                  have hlast : (List.getLast? (conn' :: es)).any isLive = false := by
                    rw [Option.any_eq_false]
                    intro c hc
                    rw [Bool.eq_false_iff]
                    exact fun hcl => hany (List.any_eq_true.2 ⟨c, List.mem_of_getLast? hc, hcl⟩)
                  rw [if_pos rfl, hlast]
                  exact hcur'
              · exact absurd hfalse Bool.false_ne_true
            · exact .inr ⟨rfl, hused, hclash.mono (slots_sendEntries p
                (s.sendEntry p j conn).getSqe (j + 1) (conn' :: es))⟩

/-- **One completion.**  It needs the current entry if it prepares an operation, and leaves it used
or fresh. -/
theorem handle_cursor {alloc : Allocator cfg} {c : Completion} (h : Cursor s used)
    (hh : s.handle alloc c = .ok s') :
    Moved used (prepares cfg s.entriesOf (s.entriesOf s.batch).length c)
      (leaves cfg s.entriesOf (s.entriesOf s.batch).length c) s' := by
  cases c with
  | accept res more =>
      rcases State.acceptBranch_cases hh with ⟨hres, rfl⟩ | ⟨hres, pool, conn, -, rfl⟩
      · simp only [prepares, leaves, hres, decide_false]
        exact .inl ⟨by simp, h⟩
      · simp only [prepares, leaves, hres, decide_true]
        have hcur : Cursor { s with pool } used := h.congr rfl rfl
        have hmoved : Moved used true true
            ({ s with pool }.prep (.recv res (pool.bufferOf res) conn)) := hcur.moved_prep
        cases more with
        | true => exact hmoved
        | false =>
            rcases hmoved with ⟨hno, hcur⟩ | ⟨hp, hu, hclash⟩
            · exact .inl ⟨hno, hcur.prepFresh⟩
            · exact .inr ⟨hp, hu, hclash.mono slots_prepFresh⟩
  | recv i =>
      rcases State.recvBranch_cases hh with ⟨conn, mem, b, -, -, hb, hcase⟩
      have hlen : (s.entriesOf s.batch).length = b.readwritePool.entries.length := by
        rw [State.entriesOf_eq (State.deref_ok_iff.1 hb).2]
      simp only [prepares, leaves, hlen]
      rcases hcase with ⟨hroom, heap, -, rfl⟩ | ⟨hroom, rfl⟩
      · rw [decide_eq_false (Nat.not_le.2 hroom)]
        exact .inl ⟨by simp, h.congr rfl rfl⟩
      · rw [decide_eq_true (Nat.not_lt.1 hroom)]
        have hcur : Cursor (s.recordReceived mem conn) used := h.congr rfl rfl
        have hmoved : Moved used true true ((s.recordReceived mem conn).prep (.message s.batch)) :=
          hcur.moved_prep
        exact hmoved.congr rfl rfl
  | send p j more =>
      rcases State.sendBranch_cases hh with ⟨b, conn, -, -, ⟨rfl, rfl⟩ | ⟨rfl, b', -, hdel⟩⟩
      · exact .inl ⟨by simp [prepares], by simpa [prepares] using h⟩
      · rcases State.deleteIfSent_frame hdel with ⟨log, rfl⟩
        have hmoved : Moved used true true (s.prep (.closeDirect conn.clientSockFd)) :=
          h.moved_prep
        exact hmoved.congr rfl rfl
  | batch p =>
      rcases State.batchBranch_cases hh with ⟨b, hb, -, hdel⟩
      rcases State.deleteIfSent_frame hdel with ⟨log, rfl⟩
      simp only [prepares, leaves, State.entriesOf_eq (State.deref_ok_iff.1 hb).2]
      have hcur : Cursor { s with
          log := { s.log with delivered := s.log.delivered ++ [p] } } used :=
        h.congr rfl rfl
      exact (hcur.sendEntries p).congr rfl rfl

/-! ## What a completion does to the batches -/

/-- The number of batches made, and of the requests in the current one. -/
def State.madeAndFill (s : State cfg) : ℕ × ℕ := (s.heap.length, (s.entriesOf s.batch).length)

/-- The batches that are not being filled keep their entries, and the current one has the length
that `fillAfter` says. -/
theorem handle_entries {alloc : Allocator cfg} {c : Completion}
    (hh : s.handle alloc c = .ok s') :
    s'.madeAndFill = fillAfter alloc s.heap.length (s.entriesOf s.batch).length c
      ∧ ∀ p < s.heap.length, p ≠ s.batch →
        s'.entriesOf p = s.entriesOf p ∧ p < s'.heap.length ∧ p ≠ s'.batch := by
  have hsame : s'.entriesOf = s.entriesOf → s'.batch = s.batch →
      s'.heap.length = s.heap.length → ∀ p < s.heap.length, p ≠ s.batch →
        s'.entriesOf p = s.entriesOf p ∧ p < s'.heap.length ∧ p ≠ s'.batch := by
    intro he hb hl p hp hne
    exact ⟨by rw [he], by rw [hl]; exact hp, by rw [hb]; exact hne⟩
  cases c with
  | accept res more =>
      rcases State.acceptBranch_cases hh with ⟨-, rfl⟩ | ⟨-, pool, conn, -, rfl⟩
      · exact ⟨rfl, hsame rfl rfl rfl⟩
      · cases more with
        | true => exact ⟨rfl, hsame rfl rfl rfl⟩
        | false => exact ⟨rfl, hsame rfl rfl rfl⟩
  | recv i =>
      rcases State.recvBranch_cases hh with ⟨conn, mem, b, -, -, hb, hcase⟩
      have hb' := (State.deref_ok_iff.1 hb).2
      have hlt : s.batch < s.heap.length := (List.getElem?_eq_some_iff.1 hb').1
      simp only [fillAfter, State.entriesOf_eq hb']
      rcases hcase with ⟨hroom, heap, hins, rfl⟩ | ⟨hroom, rfl⟩
      · rcases Heap.insertReadWrite_cases hins with ⟨b₁, rw', hb₁, hrw, rfl⟩
        rw [hb'] at hb₁
        cases hb₁
        rw [if_pos hroom]
        refine ⟨?_, fun p hp hne => ⟨?_, by simpa using hp, hne⟩⟩
        · have hlen := ReadWritePool.insertReadWrite_length hrw
          simpa [State.madeAndFill, State.entriesOf, State.recordReceived, hlt] using hlen
        · simp only [State.entriesOf, List.getElem?_set_ne (Ne.symm hne)]
      · rw [if_neg hroom]
        refine ⟨by simp [State.madeAndFill, State.entriesOf, Heap.alloc, RequestBatch.new],
          fun p hp hne => ?_⟩
        refine ⟨?_, ?_, hp.ne⟩
        · simp only [State.entriesOf, Heap.alloc, List.getElem?_append_left hp]
        · simp only [Heap.alloc, List.length_append]
          omega
  | send p j more =>
      rcases State.sendBranch_cases hh with ⟨b, conn, -, -, ⟨-, rfl⟩ | ⟨-, b', -, hdel⟩⟩
      · exact ⟨rfl, hsame rfl rfl rfl⟩
      · have hcount := State.entriesOf_countSent s conn.reqBatchRef
        rcases State.deleteIfSent_frame hdel with ⟨log, rfl⟩
        have hlen := State.length_countSent s conn.reqBatchRef
        refine ⟨?_, hsame hcount rfl hlen⟩
        exact Prod.ext hlen (congrArg (fun e => (e s.batch).length) hcount)
  | batch p =>
      rcases State.batchBranch_cases hh with ⟨b, -, -, hdel⟩
      obtain ⟨he, hb, hl⟩ := State.entriesOf_sendEntries p
        { s with log := { s.log with delivered := s.log.delivered ++ [p] } } 0
        b.readwritePool.entries
      rcases State.deleteIfSent_frame hdel with ⟨log, rfl⟩
      refine ⟨?_, hsame he hb hl⟩
      exact Prod.ext hl (congrArg List.length (congr he hb))

/-! ## A pass -/

/-- The batches that `cqes` reports exist and are not being filled, and `pools` are their
entries. -/
def Completed (pools : ℕ → List ConnectionRequest) (s : State cfg) (cqes : List Completion) :
    Prop :=
  ∀ p, .batch p ∈ cqes → p < s.heap.length ∧ p ≠ s.batch ∧ s.entriesOf p = pools p

theorem Completed.next {pools : ℕ → List ConnectionRequest} {alloc : Allocator cfg}
    {c : Completion} {cqes : List Completion} (h : Completed pools s (c :: cqes))
    (hh : s.handle alloc c = .ok s') : Completed pools s' cqes := by
  intro p hp
  rcases h p (List.mem_cons_of_mem _ hp) with ⟨hlt, hne, heq⟩
  rcases (handle_entries hh).2 p hlt hne with ⟨he, hlt', hne'⟩
  exact ⟨hlt', hne', he.trans heq⟩

/-- The conditions see no more of the batches than the reported one. -/
theorem Completed.conditions {pools : ℕ → List ConnectionRequest} {c : Completion}
    {cqes : List Completion} (h : Completed pools s (c :: cqes)) (fill : ℕ) :
    prepares cfg s.entriesOf fill c = prepares cfg pools fill c
      ∧ leaves cfg s.entriesOf fill c = leaves cfg pools fill c := by
  cases c with
  | accept res more => exact ⟨rfl, rfl⟩
  | recv i => exact ⟨rfl, rfl⟩
  | send p j more => exact ⟨rfl, rfl⟩
  | batch p =>
      rcases h p List.mem_cons_self with ⟨-, -, heq⟩
      simp only [prepares, leaves, heq]
      exact ⟨trivial, trivial⟩

theorem handle_slots {alloc : Allocator cfg} {c : Completion} (hh : s.handle alloc c = .ok s') :
    s.slots <+: s'.slots := by
  have hdelete : ∀ {t : State cfg} {p : ℕ}, t.deleteIfSent p = .ok s' → s.slots <+: t.slots →
      s.slots <+: s'.slots := by
    intro t p hdel hpre
    rcases State.deleteIfSent_frame hdel with ⟨log, rfl⟩
    exact hpre
  cases c with
  | accept res more =>
      rcases State.acceptBranch_cases hh with ⟨-, rfl⟩ | ⟨-, pool, conn, -, rfl⟩
      · exact List.prefix_rfl
      · have hpre : s.slots <+: ({ s with pool }.prep (.recv res (pool.bufferOf res) conn)).slots :=
          slots_prep (s := { s with pool })
        cases more with
        | true => exact hpre
        | false => exact hpre.trans slots_prepFresh
  | recv i =>
      rcases State.recvBranch_cases hh with ⟨conn, mem, b, -, -, -, ⟨-, heap, -, rfl⟩ | ⟨-, rfl⟩⟩
      · exact List.prefix_rfl
      · exact slots_prep (s := s.recordReceived mem conn)
  | send p j more =>
      rcases State.sendBranch_cases hh with ⟨b, conn, -, -, ⟨-, rfl⟩ | ⟨-, b', -, hdel⟩⟩
      · exact List.prefix_rfl
      · exact hdelete hdel (slots_prep (s := s))
  | batch p =>
      rcases State.batchBranch_cases hh with ⟨b, -, -, hdel⟩
      exact hdelete hdel (slots_sendEntries p
        { s with log := { s.log with delivered := s.log.delivered ++ [p] } } 0 _)

/-- An entry that was written twice stays so. -/
theorem Clash.run {alloc : Allocator cfg} {cqes : List Completion} (h : Clash s)
    (hrun : runEvents (State.handle alloc) s cqes = .ok s') : Clash s' := by
  induction cqes generalizing s with
  | nil =>
      cases hrun
      exact h
  | cons c cqes ih =>
      rcases runEvents_cons_eq_ok hrun with ⟨t, ht, hrun⟩
      exact ih (h.mono (handle_slots ht)) hrun

/-- The completions of a pass, from any cursor on: with a used entry nothing more may be prepared,
and with a fresh one nothing after the first that leaves it used. -/
theorem Cursor.run {alloc : Allocator cfg} {pools : ℕ → List ConnectionRequest}
    {cqes : List Completion} (h : Cursor s used) (hc : Completed pools s cqes)
    (hrun : runEvents (State.handle alloc) s cqes = .ok s') :
    s'.subs.OwnEntries ↔
      (used = true → ∀ b ∈ withFill alloc s.madeAndFill cqes,
          ¬ prepares cfg pools b.1 b.2 = true)
        ∧ Undisturbed alloc pools s.madeAndFill cqes := by
  induction cqes generalizing s used with
  | nil =>
      cases hrun
      exact iff_of_true h.own ⟨fun _ _ hb => absurd hb List.not_mem_nil, List.Pairwise.nil⟩
  | cons c cqes ih =>
      rcases runEvents_cons_eq_ok hrun with ⟨t, ht, hrun⟩
      have hmoved := handle_cursor h ht
      rw [(hc.conditions _).1, (hc.conditions _).2] at hmoved
      rw [Undisturbed, State.madeAndFill]
      simp only [withFill, List.pairwise_cons, List.forall_mem_cons]
      rcases hmoved with ⟨hno, hcur⟩ | ⟨hp, hu, hclash⟩
      · have hrest := ih hcur (hc.next ht) hrun
        rw [(handle_entries ht).1] at hrest
        rw [hrest]
        simp only [Undisturbed]
        by_cases hp : prepares cfg pools (s.entriesOf s.batch).length c = true
        · have hu : used = false := by simpa [hp] using hno
          simp only [hp, hu, if_true, Bool.false_eq_true, false_implies, true_and]
          exact and_congr_left' ⟨fun hnext b hb hlp => hnext hlp.1 b hb hlp.2,
            fun hnext hl b hb hbp => hnext b hb ⟨hl, hbp⟩⟩
        · have hl : ¬ leaves cfg pools (s.entriesOf s.batch).length c = true :=
            fun hl => hp (prepares_of_leaves hl)
          simp [hp, hl]
      · refine iff_of_false (fun hown => hclash.run hrun hown.1) ?_
        rintro ⟨hnone, -⟩
        exact (hnone hu).1 hp

end

/-- **When a pass overwrites no operation.**  After a pass over the completions that are there,
every operation it prepared stands in its own submission entry, if and only if no completion that
prepares one follows a completion that left its operation in the current entry.  A completed batch
is one that exists and is not being filled. -/
theorem ownEntries_iff (alloc : Allocator cfg) (s s' : State cfg) (cqes : List Completion)
    (hbatches : ∀ p, .batch p ∈ cqes → p < s.heap.length ∧ p ≠ s.batch)
    (hpass : s.pass alloc cqes = .ok s') :
    s'.subs.OwnEntries ↔ Undisturbed alloc s.entriesOf s.madeAndFill cqes := by
  have hc : Completed s.entriesOf s.wait cqes := by
    intro p hp
    exact ⟨(hbatches p hp).1, (hbatches p hp).2, rfl⟩
  rw [(cursor_wait s).run hc hpass]
  simp only [Bool.false_eq_true, false_implies, true_and]
  exact Iff.rfl

/-- A client connects and the next accept fails: the `recv` stands in its entry. -/
theorem ownEntries_accept :
    ∃ s' : State pairConfig,
      (State.start (.zeroed pairConfig) [] (fun _ => 0) (.new 3 0)).pass (.zeroed pairConfig)
          [.accept 1 true, .accept 0 true] = .ok s'
        ∧ s'.subs.OwnEntries := by
  obtain ⟨s', hs', -⟩ := okAnd_iff.1 (show okAnd
    ((State.start (.zeroed pairConfig) [] (fun _ => 0) (.new 3 0)).pass (.zeroed pairConfig)
      [.accept 1 true, .accept 0 true]) (fun _ => true) = true by decide +kernel)
  refine ⟨s', hs', (ownEntries_iff _ _ _ _ (fun p hp => ?_) hs').2 ?_⟩
  · simp at hp
  · simp [Undisturbed, withFill, leaves, prepares]

/-- Two clients connect in one pass: the `recv` of the second is written over that of the first. -/
theorem second_recv_overwrites_first :
    ∃ s' : State pairConfig,
      (State.start (.zeroed pairConfig) [] (fun _ => 0) (.new 3 0)).pass (.zeroed pairConfig)
          [.accept 1 true, .accept 2 true] = .ok s'
        ∧ s'.subs.entries = [some (.recv 2 1 1)] ∧ ¬ s'.subs.OwnEntries := by
  obtain ⟨s', hs', htest⟩ := okAnd_iff.1 (show okAnd
    ((State.start (.zeroed pairConfig) [] (fun _ => 0) (.new 3 0)).pass (.zeroed pairConfig)
      [.accept 1 true, .accept 2 true])
    (fun s => decide (s.subs.entries = [some (.recv 2 1 1)]) && decide (s.slots = [0, 0])) = true
    by decide +kernel)
  simp only [Bool.and_eq_true, decide_eq_true_eq] at htest
  refine ⟨s', hs', htest.1, fun hown => ?_⟩
  have hnodup : s'.slots.Nodup := hown.1
  rw [htest.2] at hnodup
  simp at hnodup

end RingDB.Network
