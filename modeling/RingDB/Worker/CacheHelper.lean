import RingDB.Config
import RingDB.Core.Search

/-!
# The page cache of an SSTable

`SSTableCacheHelper` remembers which range of the file each page-cache buffer holds.  The ranges
stand in `cache_locations`, sorted and searched by bisection;
`sparse_buffer_index_locations` leads from a buffer back to its range.

All counters start at `-1` or `0` as the constructor sets them, so the first buffer ever mapped
meets an `id_of_most_recently_selected_buffer` of `UINT_MAX`: the test that tells the last slot
from an inner one fails there, and the branch for an inner slot writes through `location2`, a
pointer that was never set (`mapBufferToOffsetBoundary_new`).
-/

namespace RingDB

open Core

/-- `CacheLocation`: the two ends of a range of offsets and the buffer that holds it. -/
structure CacheLocation where
  left : ℕ
  right : ℕ
  bufferId : ℕ
  deriving DecidableEq, Repr

/-- `CacheLocation(-1, -1, 0)`, the answer for an offset that is in no buffer. -/
def CacheLocation.notFound : CacheLocation := ⟨sizeMax, sizeMax, 0⟩

/-- `SSTableCacheHelper` with its `SparseBufferIndex`.  `none` marks an array slot that was never
set. -/
structure CacheHelper (cfg : Config) where
  cacheLocations : List (Option CacheLocation)
  sparseBufferIndexLocations : List (Option ℕ)
  curMinInvalidOffset : ℕ
  idOfMostRecentlySelectedBuffer : ℕ
  idOfLeastRecentlySelectedBuffer : ℕ
  freeBuffersLeft : ℕ
  length_cacheLocations : cacheLocations.length = cfg.maxBufferSetSize
  length_indexLocations : sparseBufferIndexLocations.length = cfg.maxBufferSetSize

namespace CacheHelper

variable {cfg : Config}

/-- The constructor. -/
def new (cfg : Config) : CacheHelper cfg where
  cacheLocations := List.replicate cfg.maxBufferSetSize none
  sparseBufferIndexLocations := List.replicate cfg.maxBufferSetSize none
  curMinInvalidOffset := sizeMax
  idOfMostRecentlySelectedBuffer := uintMax
  idOfLeastRecentlySelectedBuffer := uintMax
  freeBuffersLeft := 0
  length_cacheLocations := List.length_replicate ..
  length_indexLocations := List.length_replicate ..

def setCurMinInvalidOffset (h : CacheHelper cfg) (offset : ℕ) : CacheHelper cfg :=
  { h with curMinInvalidOffset := offset }

def addBuffer (h : CacheHelper cfg) : CacheHelper cfg :=
  { h with freeBuffersLeft := (h.freeBuffersLeft + 1) % 2 ^ 32 }

/-- `id_of_most_recently_selected_buffer + 1`: the number of ranges, and the buffer used next. -/
def nextBuffer (h : CacheHelper cfg) : ℕ := (h.idOfMostRecentlySelectedBuffer + 1) % 2 ^ 32

/-- `cache_locations[i]` -/
def location (h : CacheHelper cfg) (i : ℕ) : Except Fault CacheLocation :=
  match h.cacheLocations[i]? with
  | none => .error .outOfBounds
  | some none => .error .uninitialised
  | some (some l) => .ok l

/-- The bisection of `get_buffer_info` and `map_buffer_to_offset_boundary`: the first range that
does not end below `offset`. -/
def find (h : CacheHelper cfg) (offset : ℕ) : Except Fault ℕ :=
  bisect (fun mid => do
    let l ← h.location mid
    pure (decide (l.right < offset))) (· + 1) h.nextBuffer 0 h.nextBuffer

/-- `get_buffer_info` -/
def getBufferInfo (h : CacheHelper cfg) (offset : ℕ) : Except Fault CacheLocation := do
  let left ← h.find offset
  if left = h.nextBuffer then pure CacheLocation.notFound
  else
    let l ← h.location left
    pure (if l.left ≤ offset ∧ offset ≤ l.right ∧ l.bufferId ≠ uintMax then l
      else CacheLocation.notFound)

/-- `replenish_least_recently_selected_buffer`: the range of the oldest buffer is given up. -/
def replenishLeastRecentlySelectedBuffer (h : CacheHelper cfg) :
    Except Fault (CacheHelper cfg) :=
  match h.sparseBufferIndexLocations[h.idOfLeastRecentlySelectedBuffer]? with
  | none => .error .outOfBounds
  | some none => .error .uninitialised
  | some (some i) =>
      if i < h.cacheLocations.length then
        .ok { h with
          freeBuffersLeft := (h.freeBuffersLeft + 1) % 2 ^ 32
          idOfLeastRecentlySelectedBuffer := (h.idOfLeastRecentlySelectedBuffer + 1) % 2 ^ 32
          cacheLocations := h.cacheLocations.modify i (Option.map ({ · with bufferId := uintMax }))
          length_cacheLocations := by rw [List.length_modify, h.length_cacheLocations] }
      else .error .outOfBounds

/-- `map_buffer_to_offset_boundary`.  Away from the last slot the code shifts the ranges through
`location2` and `location3`, which point nowhere. -/
def mapBufferToOffsetBoundary (h : CacheHelper cfg) (bufferId offset₁ offset₂ : ℕ) :
    Except Fault (CacheHelper cfg) := do
  let left ← h.find offset₁
  if left = h.idOfMostRecentlySelectedBuffer then
    if left < h.cacheLocations.length ∧ bufferId < h.sparseBufferIndexLocations.length then
      pure { h with
        cacheLocations := h.cacheLocations.set left (some ⟨offset₁, offset₂, bufferId⟩)
        sparseBufferIndexLocations := h.sparseBufferIndexLocations.set bufferId (some left)
        idOfMostRecentlySelectedBuffer := h.nextBuffer
        freeBuffersLeft := (h.freeBuffersLeft + uintMax) % 2 ^ 32
        length_cacheLocations := by rw [List.length_set, h.length_cacheLocations]
        length_indexLocations := by rw [List.length_set, h.length_indexLocations] }
    else .error .outOfBounds
  else .error .wildPointer

/-- The range of one buffer is marked as given up: the loop body of `remove_buffer_range`. -/
def giveUp (h : CacheHelper cfg) (bufferId : ℕ) : Except Fault (CacheHelper cfg) :=
  match h.sparseBufferIndexLocations[bufferId]? with
  | none => .error .outOfBounds
  | some none => .error .uninitialised
  | some (some i) =>
      if i < h.cacheLocations.length then
        .ok { h with
          cacheLocations := h.cacheLocations.modify i (Option.map ({ · with bufferId := uintMax }))
          length_cacheLocations := by rw [List.length_modify, h.length_cacheLocations] }
      else .error .outOfBounds

/-- `remove_buffer_range`.  A loop up to `UINT_MAX` does not end: its counter wraps around. -/
def removeBufferRange (h : CacheHelper cfg) (bufferId₁ bufferId₂ : ℕ) :
    Except Fault (CacheHelper cfg) :=
  let removed := (bufferId₂ + 2 ^ 32 - bufferId₁ + 1) % 2 ^ 32
  let h₁ := { h with freeBuffersLeft := (h.freeBuffersLeft + 2 ^ 32 - removed) % 2 ^ 32 }
  if bufferId₁ ≤ h.idOfMostRecentlySelectedBuffer then do
    let old := h.idOfMostRecentlySelectedBuffer
    let first := max bufferId₁ h.idOfLeastRecentlySelectedBuffer
    let h₂ ← (List.range' first (old + 1 - first)).foldlM giveUp
      { h₁ with idOfMostRecentlySelectedBuffer := (bufferId₁ + uintMax) % 2 ^ 32 }
    if old = uintMax then .error .diverges
    else if bufferId₁ < h.idOfLeastRecentlySelectedBuffer then
      pure { h₂ with
        idOfLeastRecentlySelectedBuffer := uintMax
        idOfMostRecentlySelectedBuffer := uintMax }
    else pure h₂
  else .ok h₁

/-! ## As long as no range was entered

Both cursors are `UINT_MAX` then, and every call but `add_buffer` leaves the arrays or follows a
pointer that was never set. -/

section New

variable {h : CacheHelper cfg}

theorem nextBuffer_new (hid : h.idOfMostRecentlySelectedBuffer = uintMax) : h.nextBuffer = 0 := by
  simp [nextBuffer, hid]

theorem find_new (hid : h.idOfMostRecentlySelectedBuffer = uintMax) (offset : ℕ) :
    h.find offset = .ok 0 := by
  simp only [find, nextBuffer_new hid]
  exact bisect_of_le (Nat.le_refl 0)

/-- No offset is in a buffer. -/
theorem getBufferInfo_new (hid : h.idOfMostRecentlySelectedBuffer = uintMax) (offset : ℕ) :
    h.getBufferInfo offset = .ok CacheLocation.notFound := by
  rw [getBufferInfo, find_new hid]
  exact if_pos (nextBuffer_new hid).symm

/-- As long as no buffer was mapped, none can be: the first call writes through a pointer that
was never set. -/
theorem mapBufferToOffsetBoundary_new (hid : h.idOfMostRecentlySelectedBuffer = uintMax)
    (bufferId offset₁ offset₂ : ℕ) :
    h.mapBufferToOffsetBoundary bufferId offset₁ offset₂ = .error .wildPointer := by
  simp [mapBufferToOffsetBoundary, find_new hid, hid, bind, Except.bind]

/-- The index of the buffers has no slot `UINT_MAX`. -/
theorem indexLocations_uintMax (hsize : cfg.maxBufferSetSize ≤ uintMax) (h : CacheHelper cfg) :
    h.sparseBufferIndexLocations[uintMax]? = none := by
  rw [List.getElem?_eq_none_iff, h.length_indexLocations]
  exact hsize

theorem replenish_new (hsize : cfg.maxBufferSetSize ≤ uintMax)
    (hleast : h.idOfLeastRecentlySelectedBuffer = uintMax) :
    h.replenishLeastRecentlySelectedBuffer = .error .outOfBounds := by
  simp only [replenishLeastRecentlySelectedBuffer, hleast, indexLocations_uintMax hsize]

/-- The loop of `remove_buffer_range` begins at `UINT_MAX`, and its first access leaves the
array. -/
theorem removeBufferRange_new (hsize : cfg.maxBufferSetSize ≤ uintMax)
    (hmost : h.idOfMostRecentlySelectedBuffer = uintMax)
    (hleast : h.idOfLeastRecentlySelectedBuffer = uintMax) {bufferId₁ : ℕ}
    (hle : bufferId₁ ≤ uintMax) (bufferId₂ : ℕ) :
    h.removeBufferRange bufferId₁ bufferId₂ = .error .outOfBounds := by
  simp only [removeBufferRange, hmost, hleast, if_pos hle, max_eq_right hle,
    Nat.add_sub_cancel_left, List.range'_one, List.foldlM_cons, giveUp,
    indexLocations_uintMax hsize]
  rfl

end New

/-! ## The range of the first offset

No range ends below offset `0`, so a search for it comes to the first range. -/

/-- The first range begins with the file and is in a buffer. -/
def HasRoot (h : CacheHelper cfg) (l : CacheLocation) : Prop :=
  0 < h.nextBuffer ∧ h.location 0 = .ok l ∧ l.left = 0 ∧ l.bufferId ≠ uintMax

theorem find_zero {h : CacheHelper cfg} {i : ℕ} (hf : h.find 0 = .ok i) : i = 0 := by
  refine bisect_of_false ?_ hf
  intro j b hb
  rcases bind_eq_ok.1 hb with ⟨l, -, hb⟩
  cases hb
  exact decide_eq_false (Nat.not_lt_zero _)

/-- The answer for offset `0` is the first range, if that begins the file, and no other. -/
theorem getBufferInfo_zero {h : CacheHelper cfg} {l : CacheLocation}
    (hg : h.getBufferInfo 0 = .ok l) :
    h.HasRoot l ∨ (l.left = sizeMax ∧ ∀ l', ¬ h.HasRoot l') := by
  rcases bind_eq_ok.1 hg with ⟨i, hi, hg⟩
  cases find_zero hi
  split_ifs at hg with hnext
  · cases hg
    refine .inr ⟨rfl, ?_⟩
    rintro l' ⟨hpos, -⟩
    exact absurd hnext (Nat.ne_of_lt hpos)
  · rcases bind_eq_ok.1 hg with ⟨l₀, hl₀, hg⟩
    cases hg
    have hpos : 0 < h.nextBuffer := Nat.pos_of_ne_zero (Ne.symm hnext)
    split_ifs with hin
    · exact .inl ⟨hpos, hl₀, Nat.le_zero.1 hin.1, hin.2.2⟩
    · refine .inr ⟨rfl, ?_⟩
      rintro l' ⟨-, hl', hleft, hid⟩
      rw [hl₀] at hl'
      cases hl'
      exact hin ⟨Nat.le_of_eq hleft, Nat.zero_le _, hid⟩

/-- Giving up a buffer brings no range into a buffer. -/
theorem replenish_hasRoot {h h' : CacheHelper cfg} {l : CacheLocation}
    (hr : h.replenishLeastRecentlySelectedBuffer = .ok h') (hl : h'.HasRoot l) : h.HasRoot l := by
  unfold replenishLeastRecentlySelectedBuffer at hr
  split at hr
  · cases hr
  · cases hr
  · rename_i i _
    split_ifs at hr
    cases hr
    rcases hl with ⟨hpos, hloc, hleft, hid⟩
    refine ⟨hpos, ?_, hleft, hid⟩
    simp only [location, List.getElem?_modify] at hloc ⊢
    by_cases hi : i = 0
    · subst hi
      cases h0 : h.cacheLocations[0]? with
      | none => simp [h0] at hloc
      | some o =>
          cases o with
          | none => simp [h0] at hloc
          | some l₀ =>
              simp only [h0, if_true] at hloc
              cases hloc
              exact absurd rfl hid
    · simpa [hi] using hloc

theorem replenish_curMinInvalidOffset {h h' : CacheHelper cfg}
    (hr : h.replenishLeastRecentlySelectedBuffer = .ok h') :
    h'.curMinInvalidOffset = h.curMinInvalidOffset := by
  unfold replenishLeastRecentlySelectedBuffer at hr
  split at hr
  · cases hr
  · cases hr
  · split_ifs at hr
    cases hr
    rfl

/-- A buffer is entered in the last slot or not at all; the first range is another one afterwards
only if that slot is the first. -/
theorem map_hasRoot {h h' : CacheHelper cfg} {bufferId offset₁ offset₂ : ℕ} {l : CacheLocation}
    (hm : h.mapBufferToOffsetBoundary bufferId offset₁ offset₂ = .ok h') (hl : h'.HasRoot l) :
    h.HasRoot l ∨ l = ⟨offset₁, offset₂, bufferId⟩ := by
  rcases bind_eq_ok.1 hm with ⟨left, hfind, hm⟩
  split_ifs at hm with hlast hin
  cases hm
  rcases hl with ⟨-, hloc, hleft, hid⟩
  have hle : left ≤ h.nextBuffer := (bisect_le (Nat.zero_le _) hfind).2
  by_cases h0 : left = 0
  · subst h0
    simp only [location, List.getElem?_set, if_true, hin.1] at hloc
    cases hloc
    exact .inr rfl
  · refine .inl ⟨by omega, ?_, hleft, hid⟩
    simpa [location, List.getElem?_set, h0] using hloc

theorem map_curMinInvalidOffset {h h' : CacheHelper cfg} {bufferId offset₁ offset₂ : ℕ}
    (hm : h.mapBufferToOffsetBoundary bufferId offset₁ offset₂ = .ok h') :
    h'.curMinInvalidOffset = h.curMinInvalidOffset := by
  rcases bind_eq_ok.1 hm with ⟨left, -, hm⟩
  split_ifs at hm
  cases hm
  rfl

theorem giveUps_curMinInvalidOffset {ids : List ℕ} {h h' : CacheHelper cfg}
    (hg : ids.foldlM giveUp h = .ok h') : h'.curMinInvalidOffset = h.curMinInvalidOffset := by
  induction ids generalizing h with
  | nil =>
      cases hg
      rfl
  | cons id ids ih =>
      rw [List.foldlM_cons] at hg
      rcases bind_eq_ok.1 hg with ⟨h₁, h₁_eq, hg⟩
      rw [ih hg]
      unfold giveUp at h₁_eq
      split at h₁_eq
      · cases h₁_eq
      · cases h₁_eq
      · split_ifs at h₁_eq
        cases h₁_eq
        rfl

theorem remove_curMinInvalidOffset {h h' : CacheHelper cfg} {bufferId₁ bufferId₂ : ℕ}
    (hr : h.removeBufferRange bufferId₁ bufferId₂ = .ok h') :
    h'.curMinInvalidOffset = h.curMinInvalidOffset := by
  simp only [removeBufferRange] at hr
  by_cases hle : bufferId₁ ≤ h.idOfMostRecentlySelectedBuffer
  · rw [if_pos hle] at hr
    rcases bind_eq_ok.1 hr with ⟨h₂, hloop, hr⟩
    have hkept := giveUps_curMinInvalidOffset hloop
    split_ifs at hr
    · cases hr
      exact hkept
    · cases hr
      exact hkept
  · rw [if_neg hle] at hr
    cases hr
    rfl

end CacheHelper

end RingDB
