import Mathlib.Data.List.Forall2
import RingDB.Worker.Search

/-!
# The completions of a search

What `sstable_worker_thread` does with the completions of a search before it calls
`try_sstable_tree_read_in_memory` again: each range that was read is entered in the account of the
cache, and a read that came short moves the remembered end of the file.  The search only ever asks
for offset `0`, so its reads are those of the first buffer of the file and perhaps the second.

* `HelperHolds` — the account is true: the first range is where it says, and the end is no earlier
  than the end of the file.
* **`enterCompletions_holds`** — the completions of the search's own reads keep it so.
* **`run_reached`**, **`finished_done`** — the whole run, and what a search that ends has done.
-/

namespace RingDB

open Core

namespace Worker

namespace Search

variable {cfg : Config} {x : Search cfg} {mem : Memory} {t t' : SSTableInfo cfg}

theorem Prepared.transferred_eq (hp : x.Prepared) (offset : ℕ) :
    transferred cfg x.image offset
      = min cfg.fairAlignedSstablePageCacheBufferSize (x.image.length - offset) := by
  rw [transferred, Nat.min_eq_left hp.bufferSize_le]

theorem cancelled_forall₂ {image : Bytes} : ∀ {reads : List (ℕ × ℕ)} {cqes : List Cqe},
    cancelled reads cqes = true →
      List.Forall₂ (fun r c => c.res.toNat ≤ transferred cfg image r.1) reads cqes
  | [], [], _ => .nil
  | [], _ :: _, h => by simp [cancelled] at h
  | _ :: _, [], h => by simp [cancelled] at h
  | r :: reads, c :: cqes, h => by
      simp only [cancelled, List.map_cons, List.all_cons, Bool.and_eq_true, beq_iff_eq,
        List.cons.injEq, decide_eq_true_eq] at h
      rcases h with ⟨⟨-, hdata⟩, hres, hrest⟩
      have htail : cancelled reads cqes = true := by simp [cancelled, hdata, hrest]
      exact .cons (by omega) (cancelled_forall₂ htail)

/-- No read reports more than it can transfer. -/
theorem answers_forall₂ {image : Bytes} : ∀ {reads : List (ℕ × ℕ)} {cqes : List Cqe},
    answers cfg image reads cqes = true →
      List.Forall₂ (fun r c => c.res.toNat ≤ transferred cfg image r.1) reads cqes
  | [], [], _ => .nil
  | [], _ :: _, h => by simp [answers] at h
  | _ :: _, [], h => by simp [answers] at h
  | r :: reads, c :: cqes, h => by
      simp only [answers, Bool.and_eq_true, Bool.or_eq_true, beq_iff_eq] at h
      rcases h with ⟨⟨-, hres⟩, hrest⟩
      refine .cons (by omega) ?_
      rcases hrest with hrest | ⟨-, hrest⟩
      · exact answers_forall₂ hrest
      · exact cancelled_forall₂ hrest

/-- A read leaves the size of its buffer. -/
theorem fillBuffers_buffer_length {image : Bytes} {reads : List (ℕ × ℕ)} {cqes : List Cqe}
    (h : List.Forall₂ (fun r c => c.res.toNat ≤ transferred cfg image r.1) reads cqes)
    {buffers : List Bytes}
    (hb : ∀ b ∈ buffers, b.length = cfg.fairAlignedSstablePageCacheBufferSize) :
    ∀ b ∈ fillBuffers image reads cqes buffers,
      b.length = cfg.fairAlignedSstablePageCacheBufferSize := by
  induction h generalizing buffers with
  | nil => exact hb
  | @cons r c reads cqes hle _ ih =>
      refine ih fun b hmem => ?_
      rcases List.mem_iff_getElem?.1 hmem with ⟨i, hi⟩
      rw [List.getElem?_modify] at hi
      rcases Option.map_eq_some_iff.1 hi with ⟨b₀, hb₀, rfl⟩
      have hlen := hb b₀ (List.mem_of_getElem? hb₀)
      split_ifs
      · simp only [transferred] at hle
        simp only [List.length_append, List.length_take, List.length_drop]
        omega
      · exact hlen

theorem fillBuffers_of_ne {image : Bytes} {k : ℕ} : ∀ {reads : List (ℕ × ℕ)} {cqes : List Cqe}
    {buffers : List Bytes}, (∀ r ∈ reads, r.2 ≠ k) →
      (fillBuffers image reads cqes buffers)[k]? = buffers[k]?
  | [], _, _, _ => rfl
  | _ :: _, [], _, _ => rfl
  | r :: reads, c :: cqes, buffers, h => by
      rw [List.forall_mem_cons] at h
      rw [fillBuffers, fillBuffers_of_ne h.2, List.getElem?_modify_ne _ _ h.1]

/-- The buffer of a first read at the beginning of the file holds what was read. -/
theorem fillBuffers_root (hp : x.Prepared) {k : ℕ} {reads : List (ℕ × ℕ)} {c : Cqe}
    (cqes : List Cqe) {buffers : List Bytes} (hk : k < buffers.length)
    (hne : ∀ r ∈ reads, r.2 ≠ k) (hres : c.res = transferred cfg x.image 0) :
    ∃ b, (fillBuffers x.image ((0, k) :: reads) (c :: cqes) buffers)[k]? = some b ∧
      HoldsPrefix x.image b c.res.toNat := by
  have hle : c.res.toNat ≤ x.image.length := by
    rw [hp.transferred_eq] at hres
    omega
  rw [fillBuffers, fillBuffers_of_ne hne, List.getElem?_modify_eq, List.getElem?_eq_getElem hk]
  refine ⟨_, rfl, hle, ?_⟩
  have hlen : (x.image.take c.res.toNat).length = c.res.toNat := by
    rw [List.length_take, Nat.min_eq_left hle]
  rw [List.drop_zero, List.take_append_of_le_length (Nat.le_of_eq hlen.symm), List.take_take,
    Nat.min_self]

/-- What the account of the cache must be true to. -/
structure HelperHolds (x : Search cfg) (buffers : List Bytes) (h : CacheHelper cfg) : Prop where
  root : ∀ l, h.HasRoot l → ∃ b, buffers[l.bufferId]? = some b ∧ HoldsPrefix x.image b l.right
  end_of_file : 0 < cfg.fairAlignedSstablePageCacheBufferSize →
    x.image.length ≤ h.curMinInvalidOffset

/-- **One completion.**  The account stays true if the bytes of a read at the beginning of the file
are where the range is entered, and a read that comes short or brings nothing is at the end. -/
theorem enterCompletion_holds {buffers : List Bytes} {h h' : CacheHelper cfg} {j : ℕ} {cqe : Cqe}
    (hh : HelperHolds x buffers h)
    (hfill : 0 < cqe.res → cqe.userData = 0 →
      ∃ b, buffers[(h.nextBuffer + j) % 2 ^ 32]? = some b ∧
        HoldsPrefix x.image b ((cqe.userData + cqe.res) % 2 ^ 64).toNat)
    (hshort : 0 < cqe.res →
      ReadWritePool.toUint cqe.res < cfg.fairAlignedSstablePageCacheBufferSize →
        x.image.length ≤ (((cqe.userData + cqe.res) % 2 ^ 64).toNat + 1) % 2 ^ 64)
    (hnone : cqe.res ≤ 0 → 0 < cfg.fairAlignedSstablePageCacheBufferSize →
      x.image.length ≤ cqe.userData)
    (hc : enterCompletion j cqe h = .ok h') : HelperHolds x buffers h' := by
  simp only [enterCompletion] at hc
  by_cases hpos : 0 < cqe.res
  · rw [if_pos hpos] at hc
    rcases bind_eq_ok.1 hc with ⟨h₁, hmap, hc⟩
    have hroot : ∀ l, h₁.HasRoot l →
        ∃ b, buffers[l.bufferId]? = some b ∧ HoldsPrefix x.image b l.right := by
      intro l hl
      rcases CacheHelper.map_hasRoot hmap hl with hl' | rfl
      · exact hh.root l hl'
      · exact hfill hpos hl.2.2.1
    split_ifs at hc with hlt
    · cases hc
      exact ⟨hroot, fun _ => hshort hpos hlt⟩
    · cases hc
      refine ⟨hroot, fun hsize => ?_⟩
      rw [CacheHelper.map_curMinInvalidOffset hmap]
      exact hh.end_of_file hsize
  · rw [if_neg hpos] at hc
    cases hc
    exact ⟨hh.root, hnone (by omega)⟩

/-- The reads for offset `0`: the first buffer of the file, and the second one if two are free. -/
theorem readsFor_zero (h : CacheHelper cfg) :
    SSTableInfo.readsFor h 0 = [(0, h.nextBuffer)] ∨
      SSTableInfo.readsFor h 0 = [(0, h.nextBuffer),
        (cfg.fairAlignedSstablePageCacheBufferSize, h.nextBuffer + 1)] := by
  have hround : cfg.roundToBlockSizeMultiple 0 = 0 := by simp [Config.roundToBlockSizeMultiple]
  simp only [SSTableInfo.readsFor, hround, if_true]
  split_ifs
  · exact .inr rfl
  · exact .inl rfl

/-- The completion of the read at the beginning of the file. -/
theorem enterCompletion_first (hp : x.Prepared) {buffers : List Bytes} {h h' : CacheHelper cfg}
    {cqe : Cqe} (hh : HelperHolds x buffers h) (hdata : cqe.userData = 0)
    (hres : cqe.res = transferred cfg x.image 0)
    (hfill : ∃ b, buffers[h.nextBuffer]? = some b ∧ HoldsPrefix x.image b cqe.res.toNat)
    (hc : enterCompletion 0 cqe h = .ok h') : HelperHolds x buffers h' := by
  have hmax := hp.bufferSize_lt
  rw [hp.transferred_eq, Nat.sub_zero] at hres
  have hright : ((cqe.userData + cqe.res) % 2 ^ 64).toNat = cqe.res.toNat := by omega
  refine enterCompletion_holds hh ?_ ?_ ?_ hc
  · intro _ _
    have hnext : h.nextBuffer < 2 ^ 32 := Nat.mod_lt _ (by decide)
    rw [Nat.add_zero, Nat.mod_eq_of_lt hnext, hright]
    exact hfill
  · intro hpos hshort
    rw [hright]
    unfold ReadWritePool.toUint at hshort
    omega
  · intro hle hsize
    omega

/-- The completion of the read behind the first buffer. -/
theorem enterCompletion_second (hp : x.Prepared) {buffers : List Bytes} {h h' : CacheHelper cfg}
    {cqe : Cqe} (hh : HelperHolds x buffers h)
    (hdata : cqe.userData = cfg.fairAlignedSstablePageCacheBufferSize)
    (hres : cqe.res = transferred cfg x.image cfg.fairAlignedSstablePageCacheBufferSize ∨
      cqe.res < 0 ∧ transferred cfg x.image 0 < cfg.fairAlignedSstablePageCacheBufferSize)
    (hc : enterCompletion 1 cqe h = .ok h') : HelperHolds x buffers h' := by
  have hmax := hp.bufferSize_lt
  rw [hp.transferred_eq, hp.transferred_eq] at hres
  refine enterCompletion_holds hh ?_ ?_ ?_ hc
  · intro hpos hzero
    omega
  · intro hpos hshort
    unfold ReadWritePool.toUint at hshort
    omega
  · intro hle hsize
    omega

theorem cancelled_nil {cqes : List Cqe} (h : cancelled [] cqes = true) : cqes = [] := by
  simp only [cancelled, List.map_nil, Bool.and_eq_true, beq_iff_eq, List.map_eq_nil_iff] at h
  exact h.1

/-- The completion of the first read, and what may come behind it. -/
theorem answers_cons {image : Bytes} {r : ℕ × ℕ} {reads : List (ℕ × ℕ)} {cqes : List Cqe}
    (h : answers cfg image (r :: reads) cqes = true) :
    ∃ c cqes', cqes = c :: cqes' ∧ c.userData = r.1 ∧ c.res = transferred cfg image r.1 ∧
      (answers cfg image reads cqes' = true ∨
        transferred cfg image r.1 < cfg.fairAlignedSstablePageCacheBufferSize ∧
          cancelled reads cqes' = true) := by
  cases cqes with
  | nil => simp [answers] at h
  | cons c cqes =>
      simp only [answers, Bool.and_eq_true, Bool.or_eq_true, beq_iff_eq, decide_eq_true_eq] at h
      exact ⟨c, cqes, rfl, h.1.1, h.1.2, h.2⟩

/-- The last completion of a chain: what its read brought, or nothing because an earlier one came
short. -/
theorem answers_last {image : Bytes} {r : ℕ × ℕ} {cqes : List Cqe} {short : Prop}
    (h : answers cfg image [r] cqes = true ∨ short ∧ cancelled [r] cqes = true) :
    ∃ c, cqes = [c] ∧ c.userData = r.1 ∧
      (c.res = transferred cfg image r.1 ∨ c.res < 0 ∧ short) := by
  rcases h with h | ⟨hshort, h⟩
  · rcases answers_cons h with ⟨c, cqes', rfl, hdata, hres, h⟩
    refine ⟨c, ?_, hdata, .inl hres⟩
    rcases h with h | ⟨-, h⟩
    · rw [List.isEmpty_iff.1 h]
    · rw [cancelled_nil h]
  · cases cqes with
    | nil => simp [cancelled] at h
    | cons c cqes =>
        simp only [cancelled, List.map_cons, List.map_nil, List.all_cons, Bool.and_eq_true,
          beq_iff_eq, List.cons.injEq, List.map_eq_nil_iff, decide_eq_true_eq] at h
        rcases h with ⟨⟨hdata, rfl⟩, hneg, -⟩
        exact ⟨c, rfl, hdata, .inr ⟨hneg, hshort⟩⟩

/-- **The completions together.** -/
theorem enterCompletions_holds (hp : x.Prepared) {reads : List (ℕ × ℕ)} (hw : Waits reads t)
    {cqes : List Cqe} (ha : answers cfg x.image reads cqes = true)
    (hh : HelperHolds x (fillBuffers x.image reads cqes t.cache.buffers) t.cache.helper)
    {h' : CacheHelper cfg} (hc : enterCompletions 0 cqes t.cache.helper = .ok h') :
    HelperHolds x (fillBuffers x.image reads cqes t.cache.buffers) h' := by
  have hbuffers := hw.buffers
  have hreads := hw.reads_eq
  rcases readsFor_zero t.cache.helper with h | h
  · rw [h] at hreads
    subst hreads
    rcases answers_cons ha with ⟨c₀, cqes', rfl, hdata, hres, hrest⟩
    have hnil : cqes' = [] := by
      rcases hrest with h | ⟨-, h⟩
      · exact List.isEmpty_iff.1 h
      · exact cancelled_nil h
    subst hnil
    rcases bind_eq_ok.1 hc with ⟨h₁, hc₀, hc⟩
    cases hc
    have hfill := fillBuffers_root hp [] (hbuffers _ List.mem_cons_self)
      (fun _ hr => absurd hr List.not_mem_nil) hres
    exact enterCompletion_first hp hh hdata hres hfill hc₀
  · rw [h] at hreads
    subst hreads
    rcases answers_cons ha with ⟨c₀, cqes', rfl, hdata, hres, hrest⟩
    rcases answers_last hrest with ⟨c₁, rfl, hdata₁, hres₁⟩
    rcases bind_eq_ok.1 hc with ⟨h₁, hc₀, hc⟩
    rcases bind_eq_ok.1 hc with ⟨h₂, hc₁, hc⟩
    cases hc
    have hother : ∀ r ∈ [(cfg.fairAlignedSstablePageCacheBufferSize,
        t.cache.helper.nextBuffer + 1)], r.2 ≠ t.cache.helper.nextBuffer := by
      intro r hr
      rw [List.mem_singleton.1 hr]
      exact Nat.succ_ne_self _
    have hfill := fillBuffers_root hp [c₁] (hbuffers _ List.mem_cons_self) hother hres
    have hh₁ := enterCompletion_first hp hh hdata hres hfill hc₀
    exact enterCompletion_second hp hh₁ hdata₁ hres₁ hc₁

/-- The SSTable with its completions and the bytes that were read. -/
theorem takeCompletions_searching (hp : x.Prepared) (hs : x.Searching mem t)
    {reads : List (ℕ × ℕ)} (hw : Waits reads t) {cqes : List Cqe}
    (ha : answers cfg x.image reads cqes = true)
    (h : takeCompletions
      { t with
        cache :=
          { t.cache with buffers := fillBuffers x.image reads cqes t.cache.buffers }
        ring := cqes } = .ok t') : x.Searching mem t' := by
  rcases bind_eq_ok.1 h with ⟨helper, hc, h⟩
  cases h
  have hh : HelperHolds x (fillBuffers x.image reads cqes t.cache.buffers) t.cache.helper :=
    ⟨fun l hl => absurd hl (hw.noRoot l), hs.end_of_file⟩
  have hlen : cqes.length ≤ 2 := by
    have hforall := (answers_forall₂ ha).length_eq
    rcases readsFor_zero t.cache.helper with h | h
    · simp [hw.reads_eq, h] at hforall
      omega
    · simp [hw.reads_eq, h] at hforall
      omega
  rw [List.take_of_length_le hlen] at hc
  have hh' := enterCompletions_holds hp hw ha hh hc
  exact
    { hs with
      ring := List.drop_eq_nil_of_le hlen
      buffer_length := fillBuffers_buffer_length (answers_forall₂ ha) hs.buffer_length
      root := hh'.root
      end_of_file := hh'.end_of_file }

/-! ## The whole run -/

variable (x)

/-- Where a search stands after a call. -/
def Reached (o : Outcome cfg) : Prop := ∃ r, o = outcomeOf r ∧ (x.Ended r ∨ x.GoesOn r)

variable {x}

/-- The range that begins the file, in a cache that holds parts of it. -/
theorem holdsPrefix_of_cacheHolds {image : Bytes} {cache : PageCache cfg}
    (hc : CacheHolds image cache) {l : CacheLocation} (hl : cache.helper.HasRoot l) :
    ∃ b, cache.buffers[l.bufferId]? = some b ∧ HoldsPrefix image b l.right := by
  rcases hl with ⟨hpos, hloc, hleft, hid⟩
  rcases hc.range 0 l hpos hloc hid with ⟨-, hle, b, hb, htake⟩
  rw [hleft, Nat.sub_zero, List.drop_zero] at htake
  exact ⟨b, hb, hle, htake⟩

/-- **The first call.** -/
theorem start_reached (hp : x.Prepared) {fuel : ℕ} {o : Outcome cfg} (h : x.start fuel = .ok o) :
    x.Reached o := by
  rcases bind_eq_ok.1 h with ⟨stack, hpush, h⟩
  rcases bind_eq_ok.1 h with ⟨r, hr, h⟩
  cases h
  refine ⟨r, rfl, tryRead_searching hp ?_ hr⟩
  simp only [Stack.pushTop, x.stack_empty] at hpush
  split_ifs at hpush
  cases hpush
  exact
    { reqBatch := x.reqBatch_eq
      back := rfl
      slot := by simp
      ring := hp.ring
      buffer_length := x.cached.buffer_length
      root := fun l hl => holdsPrefix_of_cacheHolds x.cached hl
      end_of_file := fun _ => x.cached.end_of_file
      path := .inl rfl
      mem_eq := .inl rfl }

theorem issued_of_awaited {r : SSTableInfo.ReadState cfg} (h : awaited (outcomeOf r) ≠ []) :
    r.issued = some (awaited (outcomeOf r)) := by
  cases hi : r.issued with
  | none => simp [awaited, outcomeOf, hi] at h
  | some reads => simp [awaited, outcomeOf, hi]

/-- **Every other call.** -/
theorem resume_reached (hp : x.Prepared) {o o' : Outcome cfg} {reply : Reply} (hr : x.Reached o)
    (hhonest : x.Honest o reply) (h : x.resume o reply = .ok o') : x.Reached o' := by
  rcases hr with ⟨r, rfl, hr⟩
  rcases hhonest with ⟨hne, ha⟩
  have hissued := issued_of_awaited hne
  unfold resume at h
  generalize awaited (outcomeOf r) = reads at hne ha hissued h
  rcases hr with hended | hgoes
  · rw [hended.issued] at hissued
    cases hissued
  · have hring : r.table.ring ++ reply.cqes = reply.cqes := by rw [hgoes.searching.ring]; rfl
    have htable : (outcomeOf r).table = r.table := rfl
    have hmem : (outcomeOf r).mem.getD x.mem = r.mem := rfl
    rw [htable, hmem, hring] at h
    cases reads with
    | nil => exact absurd rfl hne
    | cons first rest =>
        rcases answers_cons ha with ⟨c, cqes, hcqes, -⟩
        simp only [mainHandler, hcqes] at h
        rcases bind_eq_ok.1 h with ⟨t₁, h₁, h⟩
        rcases bind_eq_ok.1 h with ⟨r₁, hr₁, h⟩
        cases h
        rw [← hcqes] at h₁
        have hs := takeCompletions_searching hp hgoes.searching (hgoes.waits _ hissued) ha h₁
        exact ⟨r₁, rfl, tryRead_searching hp hs hr₁⟩

/-- **The run.** -/
theorem run_reached (hp : x.Prepared) {fuel : ℕ} {replies : List Reply} {o o' : Outcome cfg}
    (hstart : x.start fuel = .ok o) (hhonest : StepsMeet x.resume x.Honest o replies)
    (hrun : runEvents x.resume o replies = .ok o') : x.Reached o' :=
  (throughout_of_stepsMeet (fun _ _ _ hr hh hstep => resume_reached hp hr hh hstep)
    (start_reached hp hstart) hhonest).final hrun

/-- A search leaves the slot that it reads as it is: over slots that the allocator left zeroed,
every search finds offset `0` and request `0` there. -/
theorem slot_kept (hp : x.Prepared) {fuel : ℕ} {replies : List Reply} {o o' : Outcome cfg}
    (hstart : x.start fuel = .ok o) (hhonest : StepsMeet x.resume x.Honest o replies)
    (hrun : runEvents x.resume o replies = .ok o') :
    o'.table.stack.data[1]? = x.table.stack.data[1]? := by
  rcases run_reached hp hstart hhonest hrun with ⟨r, rfl, hended | hgoes⟩
  · exact hended.slot
  · exact hgoes.searching.slot

/-- **What a search that ends has done.** -/
theorem finished_done (hp : x.Prepared) (hf : x.Finished mem) : x.Done mem := by
  rcases hf with ⟨fuel, replies, o, o', hstart, hhonest, hrun, hempty, hmem⟩
  rcases run_reached hp hstart hhonest hrun with ⟨r, rfl, hr⟩
  cases hmem
  rcases hr with hended | hgoes
  · exact hended.done
  · have hback : (outcomeOf r).table.stack.back = 1 := hgoes.searching.back
    simp [Stack.empty, hback] at hempty

end Search

end Worker

end RingDB
