import RingDB.Worker.BlockRounding
import RingDB.Worker.BufferAccount

/-!
# Whether cached ranges overlap

The helper is to search its ranges by bisection, which needs them apart.  A range is entered behind
a read that brought data, and there the first one goes through a pointer that was never set; so in a
run that goes on, no range is ever there to overlap another.

Nor would the ranges be apart if the pointer were set.  A range is read when an offset is in none of
those that are mapped: one buffer from the rounded offset on.  Rounding keeps only the low bits of
the offset, fewer than a block has, so all first reads begin within the first half of the first
block, wherever the offset is.

* `Request`, `answer` — one request of the search, with the results of its reads.
* `Apart`, `Disjoint` — no two ranges overlap.
* **`neverOverlaps_iff`** — requests are all answered, with the ranges apart, if and only if none of
  their reads brings data.
* **`readsFor_not_apart`** — two first reads that fill their buffers are of ranges that overlap.
-/

namespace RingDB

open Core

variable {α : Type} {cfg : Config}

/-- An offset on the stack is rounded to less than the size of a buffer. -/
theorem Config.roundToBlockSizeMultiple_lt (hpos : 0 < cfg.fairAlignedSstablePageCacheBufferSize)
    {i : ℕ} (hi : i < 2 ^ 32) :
    cfg.roundToBlockSizeMultiple i < cfg.fairAlignedSstablePageCacheBufferSize := by
  have hblock : cfg.blockSize ≠ 0 := by
    intro hzero
    rw [Config.fairAlignedSstablePageCacheBufferSize, hzero, Nat.lcm_zero_right] at hpos
    exact Nat.lt_irrefl 0 hpos
  have hle : cfg.blockSize ≤ cfg.fairAlignedSstablePageCacheBufferSize :=
    Nat.le_of_dvd hpos (Nat.dvd_lcm_right _ _)
  have hlog : 2 ^ (cfg.blockSize.log2 - 1) ≤ cfg.blockSize :=
    (Nat.pow_le_pow_right Nat.two_pos (Nat.sub_le _ 1)).trans (Nat.log2_self_le hblock)
  rw [Config.roundToBlockSizeMultiple]
  by_cases hq : cfg.blockSize.log2 - 1 ≤ 63
  · have hlow := Nat.mod_lt i (Nat.two_pow_pos (cfg.blockSize.log2 - 1))
    rw [and_mask hq, Nat.mod_eq_of_lt (hi.trans (by decide : 2 ^ 32 < 2 ^ 63))]
    have := Nat.mod_le i (2 ^ (cfg.blockSize.log2 - 1))
    omega
  · have hfar : 2 ^ 32 ≤ 2 ^ (cfg.blockSize.log2 - 1) :=
      Nat.pow_le_pow_right Nat.two_pos (by omega)
    omega

namespace BufferAccount

section Model

/-- The search is at `desired`, and the request on the stack is to be looked for at `offset`.  If
this takes a read, these are the results of it and of the one ahead. -/
structure Request where
  desired : ℕ
  offset : UInt32
  first : ℤ
  second : ℤ
  deriving DecidableEq

/-- Neither read brings more than a buffer holds. -/
def Request.Fits (cfg : Config) (r : Request) : Prop :=
  r.first ≤ cfg.fairAlignedSstablePageCacheBufferSize ∧
    r.second ≤ cfg.fairAlignedSstablePageCacheBufferSize

instance (r : Request) : Decidable (r.Fits cfg) := inferInstanceAs (Decidable (_ ∧ _))

/-- The request, and the completions of its reads if there are any. -/
def answer (s : BufferAccount α cfg) (r : Request) : Except Fault (BufferAccount α cfg) :=
  if r.Fits cfg then
    runEvents step s [.issue r.desired r.offset, .complete r.first, .complete r.second]
  else .ok s

/-- The bytes of the two ranges are different ones. -/
def Apart (l m : CacheLocation) : Prop := l.right ≤ m.left ∨ m.right ≤ l.left

instance : DecidableRel Apart := fun _ _ => inferInstanceAs (Decidable (_ ∨ _))

/-- The ranges that are mapped are disjoint. -/
def Disjoint (s : BufferAccount α cfg) : Prop := s.cache.held.Pairwise Apart

/-- If the request takes a read, there is a buffer for it and it brings nothing. -/
def BringsNothing (s : BufferAccount α cfg) (r : Request) : Prop :=
  r.Fits cfg → s.Asks r.desired r.offset → s.cache.freeBuffersLeft ≠ 0 ∧ r.first ≤ 0

instance (s : BufferAccount α cfg) (r : Request) : Decidable (s.BringsNothing r) :=
  inferInstanceAs (Decidable (_ → _ → _))

end Model

/-- The first of the reads is at the rounded offset. -/
theorem readsFor_head {h : CacheHelper cfg} {offset : ℕ} {r : ℕ × ℕ}
    (hr : r ∈ (SSTableInfo.readsFor h offset).head?) :
    r.1 = cfg.roundToBlockSizeMultiple offset := by
  simp only [SSTableInfo.readsFor] at hr
  generalize (if cfg.roundToBlockSizeMultiple offset = 0 then
    cfg.fairAlignedSstablePageCacheBufferSize
    else cfg.roundToBlockSizeMultiple offset * 2 % 2 ^ 64) = ahead at hr
  split_ifs at hr
  · cases hr
    rfl
  · cases hr
    rfl

section Ranges

variable {s s' : BufferAccount α cfg} {r : Request}

/-- Between two requests the account is right, and no read is pending. -/
structure Idle (s : BufferAccount α cfg) : Prop extends s.Regular where
  reads : s.reads = []

theorem Regular.disjoint (hs : s.Regular) : s.Disjoint := by
  rw [Disjoint, CacheHelper.held_new hs.most]
  exact List.Pairwise.nil

/-- The number of buffers is a multiple of 20, and so never the two for which a read ahead is
submitted. -/
theorem Regular.readsFor_eq (hs : s.Regular) (offset : ℕ) :
    SSTableInfo.readsFor s.cache offset = [(cfg.roundToBlockSizeMultiple offset, 0)] := by
  have hfree : s.cache.freeBuffersLeft ≠ 2 := by
    rw [hs.free, Config.maxSstableHeight]
    omega
  rw [SSTableInfo.readsFor, CacheHelper.nextBuffer_new hs.most]
  exact if_neg fun h => hfree h.1

/-- Without a read, nothing changes. -/
theorem Idle.answer_of_not_asks (hs : s.Idle) (hasks : ¬ s.Asks r.desired r.offset) :
    answer s r = .ok s := by
  have hissue : s.step (.issue r.desired r.offset) = .ok s := by
    rw [hs.asks_iff, not_not] at hasks
    exact if_pos hasks
  have hcomplete : ∀ res, s.step (.complete res) = .ok s := fun res => by
    simp only [step, hs.reads]
  rw [answer, runEvents_cons_ok hissue, runEvents_cons_ok (hcomplete _),
    runEvents_cons_ok (hcomplete _)]
  exact ite_self _

variable (hsize : cfg.maxBufferSetSize ≤ uintMax)

include hsize in
/-- A request that takes a read is answered if there is a buffer for it and it brings nothing; the
file is taken to end there. -/
theorem Idle.answer_of_asks (hs : s.Idle) (hfits : r.Fits cfg)
    (hasks : s.Asks r.desired r.offset) :
    answer s r =
      if s.cache.freeBuffersLeft = 0 then .error .outOfBounds
      else if 0 < r.first then .error .wildPointer
      else .ok { s with
        cache := s.cache.setCurMinInvalidOffset (cfg.roundToBlockSizeMultiple r.offset.toNat)
        entered := [r.first] } := by
  have hissue := hs.step_issue hasks
  rw [answer, if_pos hfits]
  by_cases hfree : s.cache.freeBuffersLeft = 0
  · rw [hs.issueReads_error hsize hfree] at hissue
    rw [runEvents_cons_error hissue, if_pos hfree]
  · rw [hs.issueReads_ok hfree] at hissue
    have hread := hs.readsFor_eq r.offset.toNat
    have hpending : ({ s with
        reads := SSTableInfo.readsFor s.cache r.offset.toNat
        entered := [] } : BufferAccount α cfg).Regular :=
      { hs.toRegular with reads_lt := hs.readsFor_lt hfree _ }
    have hfirst :=
      hpending.step_complete hread (.inl fun _ h => absurd h (by simp) : _ ∨ r.first ≤ 0)
    rw [runEvents_cons_ok hissue, if_neg hfree]
    by_cases hres : 0 < r.first
    · rw [if_pos hres] at hfirst
      rw [runEvents_cons_error hfirst, if_pos hres]
    · rw [if_neg hres] at hfirst
      rw [runEvents_cons_ok hfirst, if_neg hres]
      -- the second completion is of no read
      exact congrArg Except.ok (by rw [hs.reads]; rfl)

include hsize in
/-- A request is answered if and only if its reads bring nothing. -/
theorem Idle.answers_iff (hs : s.Idle) (r : Request) :
    (∃ s', answer s r = .ok s' ∧ s'.Idle) ∧ s.BringsNothing r ∨
      (∀ s', answer s r ≠ .ok s') ∧ ¬ s.BringsNothing r := by
  by_cases hfits : r.Fits cfg
  · by_cases hasks : s.Asks r.desired r.offset
    · have hanswer := hs.answer_of_asks hsize hfits hasks
      by_cases hfree : s.cache.freeBuffersLeft = 0
      · rw [if_pos hfree] at hanswer
        refine .inr ⟨fun s' h => ?_, fun hnothing => (hnothing hfits hasks).1 hfree⟩
        rw [hanswer] at h
        cases h
      · rw [if_neg hfree] at hanswer
        by_cases hres : 0 < r.first
        · rw [if_pos hres] at hanswer
          refine .inr ⟨fun s' h => ?_, fun hnothing =>
            absurd (hnothing hfits hasks).2 (Int.not_le.2 hres)⟩
          rw [hanswer] at h
          cases h
        · rw [if_neg hres] at hanswer
          exact .inl ⟨⟨_, hanswer, { hs with }⟩, fun _ _ => ⟨hfree, Int.not_lt.1 hres⟩⟩
    · exact .inl ⟨⟨s, hs.answer_of_not_asks hasks, hs⟩, fun _ h => absurd h hasks⟩
  · exact .inl ⟨⟨s, if_neg hfits, hs⟩, fun h => absurd h hfits⟩

include hsize in
theorem idle_opened (buffers : Fin cfg.maxBufferSetSize → Option α) :
    (opened cfg buffers).Idle where
  toRegular := regular_opened hsize buffers
  reads := rfl

include hsize in
/-- **The ranges of the page cache.**  In every run of requests from the end of the initialization
on, every request is answered and the ranges that are mapped are disjoint all the way, if and only
if no request takes a read that brings data, or one for which there is no buffer.  The number of
buffers is an `unsigned int`. -/
theorem neverOverlaps_iff (buffers : Fin cfg.maxBufferSetSize → Option α) (rs : List Request) :
    (∃ s', runEvents answer (opened cfg buffers) rs = .ok s')
        ∧ Throughout answer Disjoint (opened cfg buffers) rs
      ↔ AttemptsMeet answer BringsNothing (opened cfg buffers) rs := by
  refine run_throughout_iff_attemptsMeet (I := Idle) (fun _ hs => hs.disjoint) (fun s r hs h => ?_)
    (fun s r s' hs h _ => ?_) (idle_opened hsize buffers)
  · exact ((hs.answers_iff hsize r).resolve_right fun hnone => hnone.2 h).1
  · exact ((hs.answers_iff hsize r).resolve_right fun hnone => hnone.1 s' h).2

end Ranges

/-- The first read comes back empty and a second one, from an earlier offset, fails; from there on
the search is behind the end of the file. -/
theorem neverOverlaps_empty_reads :
    (∃ s', runEvents answer (opened pagedConfig fun i => some i.val)
        [⟨600, 600, 0, 0⟩, ⟨0, 0, -5, 0⟩, ⟨0, 0, 1536, 1536⟩] = .ok s')
      ∧ Throughout answer Disjoint (opened pagedConfig fun i => some i.val)
        [⟨600, 600, 0, 0⟩, ⟨0, 0, -5, 0⟩, ⟨0, 0, 1536, 1536⟩] :=
  (neverOverlaps_iff (by decide) _ _).2 (by decide +kernel)

/-- A read from the offset 0 on that fills its buffer: the range is never entered, because
`location2` points nowhere. -/
theorem filled_buffer_lost :
    ¬ ((∃ s', runEvents answer (opened pagedConfig fun i => some i.val) [⟨0, 0, 1536, 0⟩] = .ok s')
      ∧ Throughout answer Disjoint (opened pagedConfig fun i => some i.val) [⟨0, 0, 1536, 0⟩]) := by
  rintro ⟨⟨s', hrun⟩, -⟩
  have hlost : okAnd (runEvents answer (opened pagedConfig fun i => some i.val) [⟨0, 0, 1536, 0⟩])
      (fun _ => true) = false := by
    decide +kernel
  rw [hrun] at hlost
  cases hlost

/-! ## Where the reads are -/

/-- **First reads overlap.**  Of a helper in any state and for any two offsets on the stack, the
ranges of two first reads that fill their buffers have bytes in common. -/
theorem readsFor_not_apart (hpos : 0 < cfg.fairAlignedSstablePageCacheBufferSize)
    (h h' : CacheHelper cfg) (i j : UInt32) {r r' : ℕ × ℕ}
    (hr : r ∈ (SSTableInfo.readsFor h i.toNat).head?)
    (hr' : r' ∈ (SSTableInfo.readsFor h' j.toNat).head?) :
    ¬ Apart ⟨r.1, r.1 + cfg.fairAlignedSstablePageCacheBufferSize, r.2⟩
      ⟨r'.1, r'.1 + cfg.fairAlignedSstablePageCacheBufferSize, r'.2⟩ := by
  have hlt := Config.roundToBlockSizeMultiple_lt hpos i.toNat_lt
  have hlt' := Config.roundToBlockSizeMultiple_lt hpos j.toNat_lt
  rw [readsFor_head hr, readsFor_head hr', Apart]
  dsimp only
  omega

end BufferAccount

end RingDB
