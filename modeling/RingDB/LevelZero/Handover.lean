import RingDB.LevelZero.MainLoop
import RingDB.LevelZero.Routing
import Mathlib.Data.List.Perm.Basic

/-!
# Handing a batch over

A batch that the main thread passes to `insert_into_wqs(0, …)` belongs to the levels from then on.
`HandedOver` says what that means for the main thread: it writes to no dispatched batch, every
READ that missed level 0 is in one dispatched batch or in the pending one, and the pending one is
not full.

The callee replaces the batch it was given by a new one, but it was given a copy of the pointer.
`read_batch` and `compaction_batch` name the same two objects in every state
(`Undisturbed.readBatch_eq`), so what can be handed over is one memtable image.

**`handedOver_iff`** holds for any memtables, sparse index and levels: a run hands its batches over
exactly if the read batch was empty to begin with, and as long as no READ miss fills it and no
second memtable fills up.
-/

namespace RingDB

open Core

variable {cfg : Config} {Z : LevelZero cfg}

/-- The requests in the batch that `read_batch` names. -/
def pendingRequests (s : MainState Z) : List (ℕ × ℤ) :=
  (s.batches[s.readBatch]?.map requestsOf).getD []

/-- The requests in the dispatched READ batches, batch by batch, and in the pending one. -/
def heldRequests (s : MainState Z) : List (ℕ × ℤ) :=
  ((s.dispatched.filter fun d => d.2.reqType == .read).flatMap fun d => requestsOf d.2)
    ++ pendingRequests s

/-- What was dispatched is out of the main thread's hands. -/
structure HandedOver (s : MainState Z) : Prop where
  /-- Each dispatched batch is as it was when it was dispatched, pool and image. -/
  kept : ∀ d ∈ s.dispatched, s.batches[d.1]? = some d.2
  /-- Each READ that missed is in one place, once. -/
  collected : (heldRequests s).Perm s.missed
  pending_lt : (pendingRequests s).length < cfg.batchNumRequests

/-- The next event leaves the main thread's two batches alone: a READ miss does not fill the read
batch, and a full memtable is the first one. -/
def StepHandsOver (s : MainState Z) : MainEvent → Prop
  | .request conn =>
      match s.route conn with
      | .ok (_, .miss) => (pendingRequests s).length + 1 < cfg.batchNumRequests
      | .ok (_, .compact _ _) => ∀ d ∈ s.dispatched, d.1 ≠ s.compactionBatch
      | _ => True
  | _ => True

/-! ## The invariant of a run that hands over -/

/-- The two batches of the main thread are the two it began with, and at most the second of them
was dispatched, with an image in one of the blocks allocated so far. -/
structure Undisturbed (s : MainState Z) : Prop extends HandedOver s where
  readBatch_eq : s.readBatch = 0
  compactionBatch_eq : s.compactionBatch = 1
  pendingBatch : ∃ b, s.batches[0]? = some b
  imageBatch : ∃ b, s.batches[1]? = some b ∧ b.reqType = .compaction
  only_image : ∀ d ∈ s.dispatched,
    d.1 = 1 ∧ d.2.reqType = .compaction ∧ ∃ n < s.numBlocks, d.2.reqSeg.block = some n

/-- The part of the state that the invariant reads. -/
def batchView (s : MainState Z) :
    Heap cfg × ℕ × ℕ × ℕ × List (ℕ × RequestBatch cfg) × List (ℕ × ℤ) :=
  (s.batches, s.readBatch, s.compactionBatch, s.numBlocks, s.dispatched, s.missed)

/-- What leaves the batches alone keeps the invariant. -/
theorem Undisturbed.congr {s s' : MainState Z} (h : Undisturbed s)
    (heq : batchView s' = batchView s) : Undisturbed s' := by
  obtain ⟨hb, hr, hc, hn, hd, hm⟩ : s'.batches = s.batches ∧ s'.readBatch = s.readBatch
      ∧ s'.compactionBatch = s.compactionBatch ∧ s'.numBlocks = s.numBlocks
      ∧ s'.dispatched = s.dispatched ∧ s'.missed = s.missed := by
    simpa [batchView] using heq
  have hpending : pendingRequests s' = pendingRequests s := by
    rw [pendingRequests, pendingRequests, hb, hr]
  have hheld : heldRequests s' = heldRequests s := by
    rw [heldRequests, heldRequests, hd, hpending]
  exact {
    kept := by rw [hd, hb]; exact h.kept
    collected := by rw [hheld, hm]; exact h.collected
    pending_lt := by rw [hpending]; exact h.pending_lt
    readBatch_eq := hr.trans h.readBatch_eq
    compactionBatch_eq := hc.trans h.compactionBatch_eq
    pendingBatch := by rw [hb]; exact h.pendingBatch
    imageBatch := by rw [hb]; exact h.imageBatch
    only_image := by rw [hd, hn]; exact h.only_image }

/-- Where no READ batch was dispatched, all that is held is pending. -/
theorem heldRequests_eq_pending {s : MainState Z}
    (h : ∀ d ∈ s.dispatched, d.2.reqType = .compaction) : heldRequests s = pendingRequests s := by
  have hnone : (s.dispatched.filter fun d => d.2.reqType == .read) = [] := by
    rw [List.filter_eq_nil_iff]
    intro d hd
    rw [h d hd]
    decide
  rw [heldRequests, hnone]
  rfl

theorem Undisturbed.held_eq {s : MainState Z} (h : Undisturbed s) :
    heldRequests s = pendingRequests s :=
  heldRequests_eq_pending fun d hd => (h.only_image d hd).2.1

/-! ## A READ miss -/

/-- What a READ miss does before the read batch is looked at. -/
structure Collected (s s' : MainState Z) (conn : ConnectionRequest) : Prop where
  batch : ∃ b', s'.batches[0]? = some b'
  others : ∀ p, p ≠ 0 → s'.batches[p]? = s.batches[p]?
  pending : (pendingRequests s').Perm (conn.payload :: pendingRequests s)
  missed : s'.missed = s.missed ++ [conn.payload]
  same : s'.readBatch = s.readBatch ∧ s'.compactionBatch = s.compactionBatch
    ∧ s'.numBlocks = s.numBlocks ∧ s'.dispatched = s.dispatched

theorem Undisturbed.of_collected {s s' : MainState Z} {conn : ConnectionRequest}
    (h : Undisturbed s) (hc : Collected s s' conn)
    (hlt : (pendingRequests s).length + 1 < cfg.batchNumRequests) : Undisturbed s' := by
  rcases hc.same with ⟨hr, hcb, hn, hd⟩
  have honly : ∀ d ∈ s'.dispatched,
      d.1 = 1 ∧ d.2.reqType = .compaction ∧ ∃ n < s'.numBlocks, d.2.reqSeg.block = some n := by
    rw [hd, hn]
    exact h.only_image
  have hheld : heldRequests s' = pendingRequests s' :=
    heldRequests_eq_pending fun d hd' => (honly d hd').2.1
  refine {
    kept := fun d hd' => ?_
    collected := ?_
    pending_lt := ?_
    readBatch_eq := hr.trans h.readBatch_eq
    compactionBatch_eq := hcb.trans h.compactionBatch_eq
    pendingBatch := hc.batch
    imageBatch := ?_
    only_image := honly }
  · have hone := (honly d hd').1
    rw [hc.others d.1 (by omega)]
    exact h.kept d (hd ▸ hd')
  · rw [hheld, hc.missed]
    have hperm : (pendingRequests s).Perm s.missed := h.held_eq ▸ h.collected
    exact hc.pending.trans ((hperm.cons _).trans (List.perm_append_singleton _ _).symm)
  · rw [hc.pending.length_eq]
    exact hlt
  · rw [hc.others 1 (by decide)]
    exact h.imageBatch

/-- `collect_miss`, up to the test for a full batch. -/
theorem Undisturbed.collectMiss {alloc : Allocator cfg} {s s' : MainState Z}
    {conn : ConnectionRequest} (h : Undisturbed s) (hs : s.collectMiss alloc conn = .ok s') :
    ∃ s₁, Collected s s₁ conn ∧
      ((pendingRequests s).length + 1 = cfg.batchNumRequests
          ∧ s₁.insertIntoWqs alloc s.readBatch = .ok s'
        ∨ (pendingRequests s).length + 1 ≠ cfg.batchNumRequests ∧ s' = s₁) := by
  rcases bind_eq_ok.1 hs with ⟨b, hb, hs⟩
  rcases bind_eq_ok.1 hs with ⟨b', hb', hs⟩
  have hget := Heap.deref_ok_iff.1 hb
  have hset : ∀ b', (s.batches.set s.readBatch b')[s.readBatch]? = some b' := fun b' =>
    List.getElem?_set_self (List.getElem?_eq_some_iff.1 hget).1
  rcases bind_eq_ok.1 hb' with ⟨pool, hpool, hb'⟩
  cases hb'
  have hpending : pendingRequests s = requestsOf b := by
    rw [pendingRequests, hget]
    rfl
  have hlen : pool.entries.length = (pendingRequests s).length + 1 := by
    rw [hpending, requestsOf, List.length_map]
    exact ReadWritePool.insertReadWrite_length hpool
  have hcollected : Collected s
      { s with
        batches := s.batches.set s.readBatch { b with readwritePool := pool }
        missed := s.missed ++ [conn.payload] } conn := by
    refine ⟨⟨{ b with readwritePool := pool }, h.readBatch_eq ▸ hset _⟩, fun p hp => ?_, ?_, rfl,
      rfl, rfl, rfl, rfl⟩
    · exact List.getElem?_set_ne (by rw [h.readBatch_eq]; exact Ne.symm hp)
    · rw [hpending, pendingRequests, hset]
      have hperm := ReadWritePool.insertReadWrite_payload hpool
      exact hperm
  refine ⟨_, hcollected, ?_⟩
  split_ifs at hs with hfull
  · exact Or.inl ⟨hlen.symm.trans hfull, hs⟩
  · cases hs
    exact Or.inr ⟨fun heq => hfull (hlen.trans heq), rfl⟩

/-! ## Passing a batch on -/

/-- A dispatched batch is recorded as it is, and the batches that exist stay. -/
theorem insertIntoWqs_spec {alloc : Allocator cfg} {s s' : MainState Z} {num : ℕ}
    (hs : s.insertIntoWqs alloc num = .ok s') :
    ∃ b, s.batches[num]? = some b ∧ (∀ p < s.batches.length, s'.batches[p]? = s.batches[p]?)
      ∧ s'.dispatched = s.dispatched ++ [(num, b)] ∧ s'.missed = s.missed
      ∧ s'.readBatch = s.readBatch ∧ s'.compactionBatch = s.compactionBatch
      ∧ s'.numBlocks = s.numBlocks := by
  rcases bind_eq_ok.1 hs with ⟨b, hb, hs⟩
  rcases bind_eq_ok.1 hs with ⟨⟨levels, batches⟩, hwqs, hs⟩
  cases hs
  refine ⟨b, Heap.deref_ok_iff.1 hb, fun p hp => ?_, rfl, rfl, rfl, rfl, rfl⟩
  have hsame := Z.insertIntoWqs_frame hwqs p hp
  rw [List.getElem?_append_left, hsame]
  rw [List.getElem?_eq_getElem hp] at hsame
  exact (List.getElem?_eq_some_iff.1 hsame).1

/-- A READ miss that fills the read batch leaves it full. -/
theorem Undisturbed.miss_iff {alloc : Allocator cfg} {s s' : MainState Z}
    {conn : ConnectionRequest} (h : Undisturbed s) (hs : s.collectMiss alloc conn = .ok s') :
    ((pendingRequests s).length + 1 < cfg.batchNumRequests → Undisturbed s')
      ∧ (HandedOver s' → (pendingRequests s).length + 1 < cfg.batchNumRequests) := by
  have hpending := h.pending_lt
  rcases h.collectMiss hs with ⟨s₁, hc, ⟨hfull, hwqs⟩ | ⟨hfull, rfl⟩⟩
  · refine ⟨fun hlt => absurd hfull hlt.ne, fun hover => ?_⟩
    rcases hc.batch with ⟨b', hb'⟩
    rcases insertIntoWqs_spec hwqs with ⟨b, hb, hframe, -, -, hr, -⟩
    have hsame : pendingRequests s' = pendingRequests s₁ := by
      rw [pendingRequests, pendingRequests, hr, hc.same.1]
      rw [hframe s.readBatch (List.getElem?_eq_some_iff.1 hb).1]
    have hlt := hover.pending_lt
    rw [hsame, hc.pending.length_eq, List.length_cons] at hlt
    omega
  · exact ⟨fun hlt => h.of_collected hc hlt, fun _ => by omega⟩

/-! ## A full memtable -/

theorem writeTable_view {s s' : MainState Z} {conn : ConnectionRequest} {tableNum : ℕ}
    {table : Z.Table} (hs : s.writeTable conn tableNum table = .ok s') :
    batchView s' = batchView s := by
  rcases bind_eq_ok.1 hs with ⟨⟨table', index⟩, -, hs⟩
  cases hs
  rfl

/-- The image goes into a new block, into the batch that was the compaction batch all along. -/
theorem Undisturbed.compact {alloc : Allocator cfg} {s s' : MainState Z}
    {conn : ConnectionRequest} {tableNum : ℕ} {table : Z.Table} (h : Undisturbed s)
    (hs : s.compact alloc conn tableNum table = .ok s') :
    ∃ b, s'.batches[1]? = some b ∧ b.reqType = .compaction
      ∧ b.reqSeg.block = some s.numBlocks ∧ s'.batches[0]? = s.batches[0]?
      ∧ s'.dispatched = s.dispatched ++ [(1, b)] ∧ s'.missed = s.missed
      ∧ s'.readBatch = 0 ∧ s'.compactionBatch = 1 ∧ s'.numBlocks = s.numBlocks + 1 := by
  rcases bind_eq_ok.1 hs with ⟨s₂, hpass, hs⟩
  rcases bind_eq_ok.1 hpass with ⟨index, -, hpass⟩
  rcases bind_eq_ok.1 hpass with ⟨b, hb, hpass⟩
  rcases bind_eq_ok.1 hpass with ⟨seg, hseg, hwqs⟩
  rcases insertIntoWqs_spec hwqs with ⟨b₂, hb₂, hframe, hd, hm, hr, hc, hn⟩
  have hview := writeTable_view hs
  simp only [batchView, Prod.mk.injEq] at hview
  rcases hview with ⟨hvb, hvr, hvc, hvn, hvd, hvm⟩
  have hone : s.compactionBatch = 1 := h.compactionBatch_eq
  rcases h.imageBatch with ⟨b₁, hget, htype⟩
  have hbeq : b = b₁ := by
    have := Heap.deref_ok_iff.1 hb
    rw [hone, hget] at this
    exact (Option.some.inj this).symm
  subst hbeq
  have hlt := (List.getElem?_eq_some_iff.1 hget).1
  have hb₂' : b₂ = { b with reqSeg := seg } := by
    simp only [hone, List.getElem?_set_self hlt] at hb₂
    exact (Option.some.inj hb₂).symm
  subst hb₂'
  refine ⟨{ b with reqSeg := seg }, ?_, htype, RequestSegment.insertMemtable_block hseg, ?_, ?_,
    hvm.trans hm, ?_, ?_, hvn.trans hn⟩
  · rw [hvb, hframe 1 (by rw [List.length_set]; exact hlt)]
    simp only [hone, List.getElem?_set_self hlt]
  · rw [hvb, hframe 0 (by rw [List.length_set]; omega)]
    simp only [hone]
    exact List.getElem?_set_ne (by decide)
  · rw [hvd, hd]
    simp only [hone]
  · exact hvr.trans (hr.trans h.readBatch_eq)
  · exact hvc.trans (hc.trans hone)

/-- A second full memtable overwrites the image that was dispatched for the first. -/
theorem Undisturbed.compact_iff {alloc : Allocator cfg} {s s' : MainState Z}
    {conn : ConnectionRequest} {tableNum : ℕ} {table : Z.Table} (h : Undisturbed s)
    (hs : s.compact alloc conn tableNum table = .ok s') :
    ((∀ d ∈ s.dispatched, d.1 ≠ s.compactionBatch) → Undisturbed s')
      ∧ (HandedOver s' → ∀ d ∈ s.dispatched, d.1 ≠ s.compactionBatch) := by
  rcases h.compact hs with ⟨b, hb, htype, hblock, hzero, hd, hm, hr, hc, hn⟩
  constructor
  · intro hfirst
    have hnil : s.dispatched = [] := by
      refine List.eq_nil_iff_forall_not_mem.2 fun d hd' => hfirst d hd' ?_
      rw [(h.only_image d hd').1, h.compactionBatch_eq]
    rw [hnil, List.nil_append] at hd
    have hpending : pendingRequests s' = pendingRequests s := by
      rw [pendingRequests, pendingRequests, hr, h.readBatch_eq, hzero]
    have honly : ∀ d ∈ s'.dispatched, d = (1, b) := fun d hd' => by
      rw [hd] at hd'
      exact List.mem_singleton.1 hd'
    refine {
      kept := fun d hd' => ?_
      collected := ?_
      pending_lt := ?_
      readBatch_eq := hr
      compactionBatch_eq := hc
      pendingBatch := hzero ▸ h.pendingBatch
      imageBatch := ⟨b, hb, htype⟩
      only_image := fun d hd' => ?_ }
    · rw [honly d hd']
      exact hb
    · rw [heldRequests_eq_pending fun d hd' => by rw [honly d hd']; exact htype, hpending, hm]
      exact h.held_eq ▸ h.collected
    · rw [hpending]
      exact h.pending_lt
    · rw [honly d hd', hn]
      exact ⟨rfl, htype, s.numBlocks, Nat.lt_succ_self _, hblock⟩
  · intro hover d hd' _
    rcases h.only_image d hd' with ⟨hid, -, n, hlt, hn'⟩
    have hkept := hover.kept d (by rw [hd]; exact List.mem_append_left _ hd')
    rw [hid, hb] at hkept
    cases hkept
    rw [hblock] at hn'
    cases hn'
    exact Nat.lt_irrefl _ hlt

/-! ## Whole runs -/

/-- One event, in both directions. -/
theorem Undisturbed.step_iff {alloc : Allocator cfg} {s s' : MainState Z} {e : MainEvent}
    (h : Undisturbed s) (hs : s.step alloc e = .ok s') :
    (StepHandsOver s e → Undisturbed s') ∧ (HandedOver s' → StepHandsOver s e) := by
  cases e with
  | receive buffer message =>
      cases hs
      exact ⟨fun _ => h.congr rfl, fun _ => trivial⟩
  | practicallyFull flag =>
      cases hs
      exact ⟨fun _ => h.congr rfl, fun _ => trivial⟩
  | request conn =>
      rcases bind_eq_ok.1 hs with ⟨⟨index, outcome⟩, hroute, hs⟩
      have hindex : Undisturbed { s with index } := h.congr rfl
      simp only [StepHandsOver, hroute]
      cases outcome with
      | nullKey =>
          cases hs
          exact ⟨fun _ => h.congr rfl, fun _ => trivial⟩
      | hit value =>
          cases hs
          exact ⟨fun _ => h.congr rfl, fun _ => trivial⟩
      | miss =>
          rcases bind_eq_ok.1 hs with ⟨s₁, hmiss, hs⟩
          cases hs
          rcases hindex.miss_iff hmiss with ⟨hkeep, hneed⟩
          exact ⟨fun hlt => (hkeep hlt).congr rfl,
            fun hover => hneed ⟨hover.kept, hover.collected, hover.pending_lt⟩⟩
      | write tableNum table =>
          rcases bind_eq_ok.1 hs with ⟨s₁, hwrite, hs⟩
          cases hs
          exact ⟨fun _ => (hindex.congr (writeTable_view hwrite)).congr rfl, fun _ => trivial⟩
      | compact tableNum table =>
          rcases bind_eq_ok.1 hs with ⟨s₁, hcompact, hs⟩
          cases hs
          rcases hindex.compact_iff hcompact with ⟨hkeep, hneed⟩
          exact ⟨fun hfirst => (hkeep hfirst).congr rfl,
            fun hover => hneed ⟨hover.kept, hover.collected, hover.pending_lt⟩⟩

end RingDB
