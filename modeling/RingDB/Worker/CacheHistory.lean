import RingDB.Core.Run
import RingDB.Worker.CacheHelper

/-!
# The page cache after a sequence of calls

What a worker does to the `SSTableCacheHelper` of one SSTable over time is a list of `CacheCall`s.
Beside the helper, `Ledger` keeps the ranges that are mapped at the moment, the oldest first, as
the calls mean it: `LookupsRight` compares what `get_buffer_info` answers with them.

The helper does not survive its first use.  The constructor sets both cursor ids to `-1`, and from
there every call but `add_buffer` leaves the arrays or follows a pointer that was never set; an
`add_buffer` does not touch the cursors.  So `lookups_right_iff` has the simplest possible right
side.
-/

namespace RingDB

open Core

/-- A call of the worker.  The buffer that a range is mapped to is computed from the most recently
selected one, the `j`-th behind it; the arguments of a removal are `unsigned int`s. -/
inductive CacheCall where
  | addBuffer
  | mapBufferToOffsetBoundary (j offset₁ offset₂ : ℕ)
  | replenishLeastRecentlySelectedBuffer
  | removeBufferRange (bufferId₁ bufferId₂ : UInt32)
  deriving DecidableEq

/-- The helper, and the ranges that are mapped. -/
structure Ledger (cfg : Config) where
  helper : CacheHelper cfg
  mapped : List CacheLocation

namespace Ledger

variable {cfg : Config}

/-- The helper as constructed: nothing is mapped. -/
def new (cfg : Config) : Ledger cfg where
  helper := CacheHelper.new cfg
  mapped := []

/-- One call, and what it means for the mapped ranges. -/
def call (s : Ledger cfg) : CacheCall → Except Fault (Ledger cfg)
  | .addBuffer => .ok { s with helper := s.helper.addBuffer }
  | .mapBufferToOffsetBoundary j offset₁ offset₂ => do
      let bufferId := (s.helper.nextBuffer + j) % 2 ^ 32
      let helper ← s.helper.mapBufferToOffsetBoundary bufferId offset₁ offset₂
      pure { helper, mapped := s.mapped ++ [⟨offset₁, offset₂, bufferId⟩] }
  | .replenishLeastRecentlySelectedBuffer => do
      let helper ← s.helper.replenishLeastRecentlySelectedBuffer
      pure { helper, mapped := s.mapped.tail }
  | .removeBufferRange bufferId₁ bufferId₂ => do
      let helper ← s.helper.removeBufferRange bufferId₁.toNat bufferId₂.toNat
      pure { helper, mapped := s.mapped.filter fun l =>
        ¬ (bufferId₁.toNat ≤ l.bufferId ∧ l.bufferId ≤ bufferId₂.toNat) }

/-- The range covers the offset. -/
def Covers (l : CacheLocation) (offset : ℕ) : Prop := l.left ≤ offset ∧ offset ≤ l.right

/-- Every lookup ends, and answers with a mapped range that covers the offset if there is one. -/
def LookupsRight (s : Ledger cfg) : Prop :=
  ∀ offset, ∃ l, s.helper.getBufferInfo offset = .ok l ∧
    ((l ∈ s.mapped ∧ Covers l offset) ∨
      (l = CacheLocation.notFound ∧ ∀ m ∈ s.mapped, ¬ Covers m offset))

/-- The whole sequence of calls has an outcome, and lookups are right all the way. -/
def RightThroughout (s : Ledger cfg) (calls : List CacheCall) : Prop :=
  (∃ s', runEvents call s calls = .ok s') ∧ Throughout call LookupsRight s calls

/-- No buffer was ever mapped. -/
structure Untouched (s : Ledger cfg) : Prop where
  most : s.helper.idOfMostRecentlySelectedBuffer = uintMax
  least : s.helper.idOfLeastRecentlySelectedBuffer = uintMax
  mapped : s.mapped = []

theorem untouched_new (cfg : Config) : (new cfg).Untouched := ⟨rfl, rfl, rfl⟩

variable {s s' : Ledger cfg}

theorem Untouched.lookupsRight (h : s.Untouched) : s.LookupsRight := fun offset =>
  ⟨CacheLocation.notFound, CacheHelper.getBufferInfo_new h.most offset,
    .inr ⟨rfl, by simp [h.mapped]⟩⟩

theorem Untouched.addBuffer (h : s.Untouched) :
    ∃ s', s.call .addBuffer = .ok s' ∧ s'.Untouched :=
  ⟨_, rfl, h.most, h.least, h.mapped⟩

/-- Of an untouched helper every other call is undefined. -/
theorem Untouched.call_error (hsize : cfg.maxBufferSetSize ≤ uintMax) (h : s.Untouched)
    {c : CacheCall} (hc : c ≠ .addBuffer) : s.call c ≠ .ok s' := by
  intro hs
  cases c with
  | addBuffer => exact hc rfl
  | mapBufferToOffsetBoundary j offset₁ offset₂ =>
      rcases bind_eq_ok.1 hs with ⟨helper, hmap, -⟩
      rw [CacheHelper.mapBufferToOffsetBoundary_new h.most] at hmap
      cases hmap
  | replenishLeastRecentlySelectedBuffer =>
      rcases bind_eq_ok.1 hs with ⟨helper, hrep, -⟩
      rw [CacheHelper.replenish_new hsize h.least] at hrep
      cases hrep
  | removeBufferRange bufferId₁ bufferId₂ =>
      rcases bind_eq_ok.1 hs with ⟨helper, hrem, -⟩
      rw [CacheHelper.removeBufferRange_new hsize h.most h.least
        (Nat.le_pred_of_lt bufferId₁.toNat_lt)] at hrem
      cases hrem

/-- Of an untouched helper the calls are defined and lookups right if and only if no call but
`add_buffer` is made. -/
theorem Untouched.rightThroughout_iff (hsize : cfg.maxBufferSetSize ≤ uintMax)
    {calls : List CacheCall} (h : s.Untouched) :
    s.RightThroughout calls ↔ ∀ c ∈ calls, c = .addBuffer := by
  induction calls generalizing s with
  | nil => simpa using ⟨⟨s, rfl⟩, h.lookupsRight⟩
  | cons c calls ih =>
      by_cases hc : c = .addBuffer
      · subst hc
        rcases h.addBuffer with ⟨t, ht, hunt⟩
        rw [List.forall_mem_cons, ← ih hunt]
        constructor
        · rintro ⟨⟨s', hrun⟩, hthrough⟩
          rw [runEvents_cons_ok ht] at hrun
          exact ⟨rfl, ⟨s', hrun⟩, hthrough.2 t ht⟩
        · rintro ⟨-, ⟨s', hrun⟩, hthrough⟩
          refine ⟨⟨s', (runEvents_cons_ok ht calls).trans hrun⟩, h.lookupsRight, fun u hu => ?_⟩
          rw [ht] at hu
          cases hu
          exact hthrough
      · constructor
        · rintro ⟨⟨s', hrun⟩, -⟩
          rcases runEvents_cons_eq_ok hrun with ⟨t, ht, -⟩
          exact absurd ht (h.call_error hsize hc)
        · intro hall
          exact absurd (hall c (by simp)) hc

/-- From a helper as constructed, a sequence of calls stays inside the arrays and leaves the lookups
right if and only if it consists of `add_buffer` calls alone.  The number of buffers is an
`unsigned int`. -/
theorem lookups_right_iff (cfg : Config) (hsize : cfg.maxBufferSetSize ≤ uintMax)
    (calls : List CacheCall) :
    (new cfg).RightThroughout calls ↔ ∀ c ∈ calls, c = .addBuffer :=
  (untouched_new cfg).rightThroughout_iff hsize

/-- The calls with which a worker starts. -/
theorem lookups_right_start :
    (new pagedConfig).RightThroughout (List.replicate pagedConfig.maxSstableHeight .addBuffer) :=
  (lookups_right_iff pagedConfig (by decide) _).2 fun _ h => List.eq_of_mem_replicate h

/-- The worker adds its buffers and reads the first 1536 bytes of the file into the first of them:
the range is never entered, because `location2` points nowhere. -/
theorem first_range_lost :
    ¬ (new pagedConfig).RightThroughout
      (List.replicate pagedConfig.maxSstableHeight .addBuffer
        ++ [.mapBufferToOffsetBoundary 0 0 1536]) := by
  rintro ⟨⟨s', hrun⟩, -⟩
  have hlost : okAnd (runEvents call (new pagedConfig)
      (List.replicate pagedConfig.maxSstableHeight .addBuffer
        ++ [.mapBufferToOffsetBoundary 0 0 1536])) (fun _ => true) = false := by
    decide +kernel
  rw [hrun] at hlost
  cases hlost

end Ledger

end RingDB
