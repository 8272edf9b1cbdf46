import RingDB.Core.WrappedSearch
import RingDB.Worker.CacheHelper

/-!
# The lookup of an offset in the page cache

`get_buffer_info` bisects the ranges by their right ends and then looks at the one range that is
left.  Where the ranges are sorted and disjoint, that is the only one that can contain the offset.

`find` adds the cursors as natural numbers.  Here their sum is an `unsigned int`, as it is in the
source: with more than `2 ^ 31` ranges it wraps around.

* `wrappedFind`, `wrappedGetBufferInfo` — the lookup with such a sum.  `wrappedFind_eq` — with fewer
  ranges it is `find`.
* `SortedRanges` — the ranges are set, sorted and disjoint, and `SortedRanges.unique` — so an offset
  is in one of them at most.
* **`intervalLookup_iff`** — every offset is looked up correctly if and only if no sum can wrap
  around.
-/

namespace RingDB

open Core

namespace CacheHelper

variable {cfg : Config}

section Model

/-- `cache_locations[mid].sstable_offset_boundary[1] < desired_sstable_offset` -/
def endsBelow (h : CacheHelper cfg) (offset mid : ℕ) : Except Fault Bool := do
  let l ← h.location mid
  pure (decide (l.right < offset))

/-- The bisection of `get_buffer_info`, for `fuel` passes. -/
def wrappedFind (h : CacheHelper cfg) (fuel offset : ℕ) : Except Fault ℕ :=
  wrappedBisect (2 ^ 32) (h.endsBelow offset) fuel 0 h.nextBuffer

/-- `get_buffer_info`, with `fuel` passes of its loop. -/
def wrappedGetBufferInfo (h : CacheHelper cfg) (fuel offset : ℕ) : Except Fault CacheLocation := do
  let left ← h.wrappedFind fuel offset
  if left = h.nextBuffer then pure CacheLocation.notFound
  else
    let l ← h.location left
    pure (if l.left ≤ offset ∧ offset ≤ l.right ∧ l.bufferId ≠ uintMax then l
      else CacheLocation.notFound)

/-- The ranges are set.  Their ends are offsets, in order, and each range ends before the next one
begins. -/
structure SortedRanges (h : CacheHelper cfg) : Prop where
  set : ∀ i < h.nextBuffer, ∃ l, h.location i = .ok l
  ordered : ∀ i < h.nextBuffer, ∀ l, h.location i = .ok l → l.left ≤ l.right ∧ l.right ≤ sizeMax
  sorted : ∀ i j, i < j → j < h.nextBuffer → ∀ l l', h.location i = .ok l → h.location j = .ok l' →
    l.right < l'.left

/-- Range `i` contains the offset. -/
def InRange (h : CacheHelper cfg) (offset i : ℕ) (l : CacheLocation) : Prop :=
  i < h.nextBuffer ∧ h.location i = .ok l ∧ l.left ≤ offset ∧ offset ≤ l.right

/-- The one range with the offset if it is in a buffer; the answer for an offset in no buffer if
not. -/
def IsAnswer (h : CacheHelper cfg) (offset : ℕ) (answer : CacheLocation) : Prop :=
  (∃ i l, h.InRange offset i l ∧ (∀ j l', h.InRange offset j l' → i = j ∧ l = l') ∧
    l.bufferId ≠ uintMax ∧ answer = l) ∨
  (∀ i l, h.InRange offset i l → l.bufferId = uintMax) ∧ answer = CacheLocation.notFound

/-- The lookup of every offset ends, with the answer that it should have. -/
def LooksUp (h : CacheHelper cfg) : Prop :=
  ∀ offset ≤ sizeMax, ∃ fuel answer, h.wrappedGetBufferInfo fuel offset = .ok answer ∧
    h.IsAnswer offset answer

end Model

/-- Up to `2 ^ 31` ranges it is the lookup with unlimited cursors. -/
theorem wrappedFind_eq {h : CacheHelper cfg} (hle : h.nextBuffer ≤ 2 ^ 31) (offset : ℕ) :
    h.wrappedFind h.nextBuffer offset = h.find offset :=
  wrappedBisect_eq (Nat.sub_le _ _) (by omega)

theorem wrappedGetBufferInfo_eq {h : CacheHelper cfg} (hle : h.nextBuffer ≤ 2 ^ 31) (offset : ℕ) :
    h.wrappedGetBufferInfo h.nextBuffer offset = h.getBufferInfo offset := by
  rw [wrappedGetBufferInfo, wrappedFind_eq hle]
  rfl

namespace SortedRanges

variable {h : CacheHelper cfg} {offset : ℕ}

theorem endsBelow_eq {i : ℕ} {l : CacheLocation} (hl : h.location i = .ok l) :
    h.endsBelow offset i = .ok (decide (l.right < offset)) := by
  rw [endsBelow, hl]
  rfl

/-- An offset is in one range at most. -/
theorem unique (hs : SortedRanges h) {i j : ℕ} {l l' : CacheLocation}
    (hi : h.InRange offset i l) (hj : h.InRange offset j l') : i = j ∧ l = l' := by
  obtain ⟨hilt, hil, hileft, hiright⟩ := hi
  obtain ⟨hjlt, hjl, hjleft, hjright⟩ := hj
  rcases Nat.lt_trichotomy i j with hij | rfl | hji
  · have := hs.sorted i j hij hjlt l l' hil hjl
    omega
  · exact ⟨rfl, Except.ok.inj (hil.symm.trans hjl)⟩
  · have := hs.sorted j i hji hilt l' l hjl hil
    omega

/-- The ranges that end below an offset are those up to some place. -/
theorem exists_place (hs : SortedRanges h) (offset : ℕ) : ∃ pos ≤ h.nextBuffer,
    ∀ j < h.nextBuffer, ∀ l, h.location j = .ok l → (l.right < offset ↔ j < pos) := by
  have hdown : ∀ i j, i < j → j < h.nextBuffer → (∀ l, h.location j = .ok l → l.right < offset) →
      ∀ l, h.location i = .ok l → l.right < offset := by
    intro i j hij hj hend l hl
    rcases hs.set j hj with ⟨l', hl'⟩
    have hsorted := hs.sorted i j hij hj l l' hl hl'
    have hordered := hs.ordered j hj l' hl'
    have := hend l' hl'
    omega
  rcases exists_boundary hdown with ⟨pos, hpos, hiff⟩
  refine ⟨pos, hpos, fun j hj l hl => (Iff.intro ?_ fun hend => hend l hl).trans (hiff j hj)⟩
  intro hlt l' hl'
  rw [hl] at hl'
  cases hl'
  exact hlt

/-- The search ends at that place, if the sum does not wrap around. -/
theorem wrappedFind_place (hs : SortedRanges h) (hle : h.nextBuffer ≤ 2 ^ 31) {pos : ℕ}
    (hpos : pos ≤ h.nextBuffer)
    (hplace : ∀ j < h.nextBuffer, ∀ l, h.location j = .ok l → (l.right < offset ↔ j < pos)) :
    h.wrappedFind h.nextBuffer offset = .ok pos := by
  refine wrappedBisect_boundary (Nat.zero_le _) hpos (Nat.sub_le _ _) (by omega) ?_ ?_
  · intro j _ hj
    rcases hs.set j (hj.trans_le hpos) with ⟨l, hl⟩
    rw [endsBelow_eq hl, decide_eq_true ((hplace j (hj.trans_le hpos) l hl).2 hj)]
  · intro j hj hlt
    rcases hs.set j hlt with ⟨l, hl⟩
    rw [endsBelow_eq hl, decide_eq_false fun hend => Nat.not_lt.2 hj ((hplace j hlt l hl).1 hend)]

/-- What contains the offset is at that place. -/
theorem inRange_place (hs : SortedRanges h) {pos i : ℕ} {l : CacheLocation}
    (hplace : ∀ j < h.nextBuffer, ∀ l, h.location j = .ok l → (l.right < offset ↔ j < pos))
    (hin : h.InRange offset i l) : i = pos := by
  obtain ⟨hi, hl, hleft, hright⟩ := hin
  rcases Nat.lt_trichotomy i pos with hlt | heq | hgt
  · have := (hplace i hi l hl).2 hlt
    omega
  · exact heq
  · have hp : pos < h.nextBuffer := hgt.trans hi
    rcases hs.set pos hp with ⟨l', hl'⟩
    have hsorted := hs.sorted pos i hgt hi l' l hl' hl
    have hend : ¬ l'.right < offset := fun hend => absurd ((hplace pos hp l' hl').1 hend) (by omega)
    omega

/-- So the lookup of every offset is right. -/
theorem wrappedGetBufferInfo_ok (hs : SortedRanges h) (hle : h.nextBuffer ≤ 2 ^ 31)
    (offset : ℕ) : ∃ answer, h.wrappedGetBufferInfo h.nextBuffer offset = .ok answer ∧
      h.IsAnswer offset answer := by
  rcases hs.exists_place offset with ⟨pos, hpos, hplace⟩
  have hfind := hs.wrappedFind_place hle hpos hplace
  by_cases hend : pos = h.nextBuffer
  · refine ⟨CacheLocation.notFound, ?_, .inr ⟨fun i l hin => ?_, rfl⟩⟩
    · exact bind_eq_ok.2 ⟨pos, hfind, if_pos hend⟩
    · have := hs.inRange_place hplace hin
      have := hin.1
      omega
  · have hlt : pos < h.nextBuffer := by omega
    rcases hs.set pos hlt with ⟨l, hl⟩
    have hright : offset ≤ l.right := Nat.not_lt.1 fun hend =>
      absurd ((hplace pos hlt l hl).1 hend) (Nat.lt_irrefl pos)
    refine ⟨_, bind_eq_ok.2 ⟨pos, hfind, (if_neg hend).trans (bind_eq_ok.2 ⟨l, hl, rfl⟩)⟩, ?_⟩
    split_ifs with hin
    · have hself : h.InRange offset pos l := ⟨hlt, hl, hin.1, hin.2.1⟩
      exact .inl ⟨pos, l, hself, fun _ _ => hs.unique hself, hin.2.2, rfl⟩
    · refine .inr ⟨fun i l' hin' => ?_, rfl⟩
      obtain rfl := hs.inRange_place hplace hin'
      have hsame := Except.ok.inj (hl.symm.trans hin'.2.1)
      subst hsame
      by_contra hid
      exact hin ⟨hin'.2.2.1, hin'.2.2.2, hid⟩

/-- Of more than `2 ^ 31` ranges the last one is never found: all the search looks at are ranges in
the lower half, and these end below it. -/
theorem wrappedGetBufferInfo_diverges (hs : SortedRanges h) (hgt : 2 ^ 31 < h.nextBuffer)
    {l : CacheLocation} (hl : h.location (h.nextBuffer - 1) = .ok l) (fuel : ℕ) :
    h.wrappedGetBufferInfo fuel l.right = .error .diverges := by
  have hlast : h.nextBuffer - 1 < h.nextBuffer := by omega
  have hordered := hs.ordered _ hlast l hl
  have hfind : h.wrappedFind fuel l.right = .error .diverges := by
    refine wrappedBisect_diverges (by decide) (by omega) ?_ (Nat.zero_le _)
    intro j hj
    rcases hs.set j (by omega) with ⟨l', hl'⟩
    have hsorted := hs.sorted j _ (by omega) hlast l' l hl' hl
    rw [endsBelow_eq hl', decide_eq_true (by omega)]
  rw [wrappedGetBufferInfo, hfind]
  rfl

theorem not_looksUp (hs : SortedRanges h) (hgt : 2 ^ 31 < h.nextBuffer) : ¬ h.LooksUp := by
  intro hall
  have hlast : h.nextBuffer - 1 < h.nextBuffer := by omega
  rcases hs.set _ hlast with ⟨l, hl⟩
  rcases hall l.right (hs.ordered _ hlast l hl).2 with ⟨fuel, answer, hanswer, -⟩
  rw [hs.wrappedGetBufferInfo_diverges hgt hl fuel] at hanswer
  cases hanswer

end SortedRanges

/-- **The lookup in the page cache.**  Where the ranges are sorted and disjoint, the lookup of every
offset ends with the one range that contains it, or without one if there is none in a buffer, if and
only if there are no more than `2 ^ 31` ranges. -/
theorem intervalLookup_iff {h : CacheHelper cfg} (hs : SortedRanges h) :
    h.LooksUp ↔ h.nextBuffer ≤ 2 ^ 31 := by
  constructor
  · intro hall
    by_contra hgt
    exact hs.not_looksUp (Nat.lt_of_not_le hgt) hall
  · intro hle offset _
    rcases hs.wrappedGetBufferInfo_ok hle offset with ⟨answer, hanswer, hright⟩
    exact ⟨_, answer, hanswer, hright⟩

/-- Two ranges with a gap, the second one given up. -/
def twoRanges : CacheHelper pagedConfig where
  cacheLocations := [some ⟨0, 1535, 0⟩, some ⟨3072, 4607, uintMax⟩] ++ List.replicate 18 none
  sparseBufferIndexLocations := List.replicate 20 none
  curMinInvalidOffset := sizeMax
  idOfMostRecentlySelectedBuffer := 1
  idOfLeastRecentlySelectedBuffer := 0
  freeBuffersLeft := 18
  length_cacheLocations := rfl
  length_indexLocations := rfl

theorem sortedRanges_twoRanges : SortedRanges twoRanges := by
  have hfirst : twoRanges.location 0 = .ok ⟨0, 1535, 0⟩ := rfl
  have hsecond : twoRanges.location 1 = .ok ⟨3072, 4607, uintMax⟩ := rfl
  have hnext : twoRanges.nextBuffer = 2 := rfl
  refine ⟨?_, ?_, ?_⟩
  all_goals rw [hnext]
  · intro i hi
    match i, hi with
    | 0, _ => exact ⟨_, hfirst⟩
    | 1, _ => exact ⟨_, hsecond⟩
  · intro i hi l hl
    match i, hi with
    | 0, _ =>
        cases hfirst.symm.trans hl
        decide
    | 1, _ =>
        cases hsecond.symm.trans hl
        decide
  · intro i j hij hj l l' hl hl'
    obtain ⟨rfl, rfl⟩ : i = 0 ∧ j = 1 := by omega
    cases hfirst.symm.trans hl
    cases hsecond.symm.trans hl'
    decide

theorem lookup_twoRanges : twoRanges.LooksUp :=
  (intervalLookup_iff sortedRanges_twoRanges).2 (by decide)

/-- A range of one offset in every slot. -/
def everyOffset (cfg : Config) (idOfMostRecentlySelectedBuffer : ℕ) : CacheHelper cfg :=
  { new cfg with
    cacheLocations := (List.range cfg.maxBufferSetSize).map fun i => some ⟨i, i, 0⟩
    idOfMostRecentlySelectedBuffer
    length_cacheLocations := (List.length_map ..).trans List.length_range }

theorem location_everyOffset {id i : ℕ} (hi : i < cfg.maxBufferSetSize) :
    (everyOffset cfg id).location i = .ok ⟨i, i, 0⟩ := by
  have hslot : (everyOffset cfg id).cacheLocations[i]? = some (some ⟨i, i, 0⟩) := by
    rw [everyOffset, List.getElem?_map, List.getElem?_range hi]
    rfl
  simp only [location, hslot]

theorem sortedRanges_everyOffset {id : ℕ} (hid : id < cfg.maxBufferSetSize) (hlt : id < uintMax) :
    SortedRanges (everyOffset cfg id) := by
  have hnext : (everyOffset cfg id).nextBuffer = id + 1 := by
    simp only [uintMax] at hlt
    show (id + 1) % 2 ^ 32 = id + 1
    omega
  refine ⟨fun i hi => ⟨_, location_everyOffset (by omega)⟩, ?_, ?_⟩
  · intro i hi l hl
    cases (location_everyOffset (by omega)).symm.trans hl
    refine ⟨Nat.le_refl i, ?_⟩
    show i ≤ sizeMax
    simp only [uintMax, sizeMax] at hlt ⊢
    omega
  · intro i j hij hj l l' hl hl'
    cases (location_everyOffset (by omega)).symm.trans hl
    cases (location_everyOffset (by omega)).symm.trans hl'
    exact hij

theorem twoToTwentySeven_pos : 0 < 2 ^ 27 := by decide

theorem twoToTwentySeven_le : 2 ^ 27 ≤ uintMax := by decide

theorem twoHundred_pos : 0 < 200 := by decide

/-- The shipped values with `2 ^ 27` SSTables on a level: the array has `20 * 2 ^ 27` slots. -/
def manyBuffersConfig : Config :=
  resizedConfig 1000 (2 ^ 27) 200 twoToTwentySeven_pos twoToTwentySeven_le twoHundred_pos

/-- The last of `2 ^ 31 + 1` ranges is not found, and the search for it does not end. -/
theorem manyRanges_lost : SortedRanges (everyOffset manyBuffersConfig (2 ^ 31)) ∧
    ¬ (everyOffset manyBuffersConfig (2 ^ 31)).LooksUp := by
  have hs : SortedRanges (everyOffset manyBuffersConfig (2 ^ 31)) :=
    sortedRanges_everyOffset (by decide) (by decide)
  exact ⟨hs, hs.not_looksUp (by decide)⟩

end CacheHelper

end RingDB
