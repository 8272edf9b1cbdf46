import RingDB.Worker.Completions

/-!
# Which requests of a batch are answered

`finished_done` says what a search that ends has done: it has looked for one request, the one whose
number stands in the stack slot that `top` reads.  Here that is turned into what the requests of
the batch get.

* **`lookup_iff`** — a batch of one request: with buffers of some size the request gets the value
  that is stored with its key, or keeps what it had; without, it keeps what it had.
* **`reuse_iff`** — a batch of any number of requests: each gets what a search for it alone should
  find, if and only if there is nothing to be found for the requests that are not in the
  socket buffer of the slot's request.
-/

namespace RingDB

open Core

namespace Worker

variable {cfg : Config}

namespace Search

variable (x : Search cfg) {mem : Memory}

/-- Nothing has to be copied for the request: nothing is stored with its key, or it has the value
already. -/
def NothingToCopy (c : ConnectionRequest) : Prop :=
  ∀ v, Stored cfg x.image (keyAt cfg x.mem c.buffer) v → valueAt cfg x.mem c.buffer = v

/-- The request is in the socket buffer that the search looks at, and the buffers have a size. -/
def Served (c : ConnectionRequest) : Prop :=
  0 < cfg.fairAlignedSstablePageCacheBufferSize ∧
    ∃ c₀, x.slotRequest = some c₀ ∧ c₀.buffer = c.buffer

/-- Two requests are in the same socket buffer or in two that do not overlap. -/
def SocketsApart : Prop :=
  ∀ c ∈ x.entries, ∀ c' ∈ x.entries, c.buffer = c'.buffer ∨
    c.buffer + cfg.socketBufferLength ≤ c'.buffer ∨ c'.buffer + cfg.socketBufferLength ≤ c.buffer

variable {x}

theorem slotRequest_mem {c : ConnectionRequest} (h : x.slotRequest = some c) : c ∈ x.entries := by
  unfold slotRequest at h
  rcases Option.bind_eq_some_iff.1 h with ⟨q, -, hc⟩
  exact List.mem_of_getElem? hc

theorem answeredBy_unchanged {c : ConnectionRequest} :
    x.AnsweredBy c x.mem ↔ x.NothingToCopy c :=
  ⟨And.left, fun h => ⟨h, fun _ => rfl⟩⟩

/-- A request that ends with another value than the stored one. -/
theorem not_answeredBy {c : ConnectionRequest} {v v' : Bytes}
    (hv : Stored cfg x.image (keyAt cfg x.mem c.buffer) v)
    (hvalue : (valueAt cfg mem c.buffer == v') = true) (hne : v' ≠ v) : ¬ x.AnsweredBy c mem := by
  intro h
  have hright := h.1 v hv
  rw [beq_iff_eq.1 hvalue] at hright
  exact hne hright

/-- A request in the socket buffer that the value was copied to. -/
theorem answeredBy_copied {c : ConnectionRequest} {v : Bytes}
    (hv : Stored cfg x.image (keyAt cfg x.mem c.buffer) v) :
    x.AnsweredBy c (store x.mem (c.buffer + 5 + cfg.keyLength) v) := by
  have hvalue : valueAt cfg (store x.mem (c.buffer + 5 + cfg.keyLength) v) c.buffer = v := by
    rw [valueAt, ← hv.length_eq]
    exact bytesAt_store_self ..
  exact ⟨fun v' hv' => hvalue.trans (hv.unique hv'), fun hnone => absurd hv (hnone v)⟩

/-- A request in another one: nothing happens to it. -/
theorem answeredBy_apart {c c₀ : ConnectionRequest} {v : Bytes} (hlen : v.length = cfg.valueLength)
    (hapart : c₀.buffer + cfg.socketBufferLength ≤ c.buffer ∨
      c.buffer + cfg.socketBufferLength ≤ c₀.buffer) :
    x.AnsweredBy c (store x.mem (c₀.buffer + 5 + cfg.keyLength) v) ↔ x.NothingToCopy c := by
  have hsocket : cfg.socketBufferLength = 5 + cfg.keyLength + cfg.valueLength := rfl
  have hvalue : valueAt cfg (store x.mem (c₀.buffer + 5 + cfg.keyLength) v) c.buffer
      = valueAt cfg x.mem c.buffer :=
    bytesAt_store_disjoint (by omega)
  rw [← answeredBy_unchanged, AnsweredBy, AnsweredBy, hvalue]

/-- **One request of a batch** that is finished. -/
theorem answeredBy_iff (hp : x.Prepared) (hapart : x.SocketsApart) (hf : x.Finished mem)
    {c : ConnectionRequest} (hc : c ∈ x.entries) :
    x.AnsweredBy c mem ↔ x.NothingToCopy c ∨ x.Served c := by
  rcases finished_done hp hf with ⟨c₀, v, hpos, hc₀, hv, rfl⟩ | ⟨rfl, hnothing⟩
  · by_cases hsame : c₀.buffer = c.buffer
    · rw [hsame] at hv ⊢
      exact iff_of_true (answeredBy_copied hv) (.inr ⟨hpos, c₀, hc₀, hsame⟩)
    · have hserved : ¬ x.Served c := by
        rintro ⟨-, c₁, hc₁, hbuffer⟩
        rw [hc₀] at hc₁
        cases hc₁
        exact hsame hbuffer
      have hdisjoint := (hapart c₀ (slotRequest_mem hc₀) c hc).resolve_left hsame
      rw [answeredBy_apart hv.length_eq hdisjoint, or_iff_left hserved]
  · rw [answeredBy_unchanged, iff_self_or]
    rintro ⟨hpos, c₀, hc₀, hbuffer⟩ v hv
    rcases hnothing hpos with hnone | ⟨c₁, hc₁, hnone⟩
    · exact absurd hv (hnone _ v)
    · rw [hc₀] at hc₁
      cases hc₁
      rw [hbuffer] at hnone
      exact absurd hv (hnone v)

/-- **A batch of one request.**  When the search has finished it, it holds the value stored with its
key on the search path of the file, and is unchanged if there is none: if and only if the buffers
have a size, or nothing had to be copied. -/
theorem lookup_iff (x : Search cfg) (c : ConnectionRequest) (hone : x.entries = [c])
    (hp : x.Prepared) (mem : Memory) (hf : x.Finished mem) :
    x.AnsweredBy c mem ↔ 0 < cfg.fairAlignedSstablePageCacheBufferSize ∨ x.NothingToCopy c := by
  have hapart : x.SocketsApart := by
    intro c₁ h₁ c₂ h₂
    rw [hone, List.mem_singleton] at h₁ h₂
    exact .inl (by rw [h₁, h₂])
  have hmem : c ∈ x.entries := by simp [hone]
  rw [answeredBy_iff hp hapart hf hmem, or_comm]
  refine or_congr_left' fun hcopy => ⟨And.left, fun hpos => ⟨hpos, ?_⟩⟩
  -- the slot names the one request, or the file is empty
  rcases finished_done hp hf with ⟨c₀, -, -, hc₀, -, -⟩ | ⟨-, hnothing⟩
  · have hmem₀ := slotRequest_mem hc₀
    rw [hone, List.mem_singleton] at hmem₀
    exact ⟨c₀, hc₀, by rw [hmem₀]⟩
  · rcases hnothing hpos with hnone | ⟨c₀, hc₀, -⟩
    · exact absurd (fun v hv => absurd hv (hnone _ v)) hcopy
    · have hmem₀ := slotRequest_mem hc₀
      rw [hone, List.mem_singleton] at hmem₀
      exact ⟨c₀, hc₀, by rw [hmem₀]⟩

/-! ### Searches over zeroed stack slots -/

/-- A batch of reads at an SSTable with this cache. -/
def overZeroes (image : Bytes) (mem : Memory) (entries : List ConnectionRequest)
    (cache : PageCache cfg) (cached : CacheHolds image cache) : Search cfg where
  image
  heap := [{ RequestBatch.zeroed cfg .read with readwritePool := { entries } }]
  mem
  batch := 0
  requests :=
    { RequestBatch.zeroed cfg .read with readwritePool := { entries } }
  batch_eq := rfl
  table := { SSTableInfo.new (Stack.zeroed _) with cache, reqBatch := some 0 }
  reqBatch_eq := rfl
  stack_empty := rfl
  level := 0
  transfers := {}
  cached

section

variable {image : Bytes} {entries : List ConnectionRequest} {cache : PageCache cfg}
  {cached : CacheHolds image cache}

theorem overZeroes_slot {q : Quad}
    (h : (overZeroes image mem entries cache cached).table.stack.data[1]? = some q) :
    q = (0, 0, 0, 0) :=
  List.eq_of_mem_replicate (List.mem_of_getElem? h)

theorem overZeroes_prepared (hsize : cfg.fairAlignedSstablePageCacheBufferSize ≤ maxRwCount) :
    (overZeroes image mem entries cache cached).Prepared where
  slot q h := by rw [overZeroes_slot h]
  ring := rfl
  bufferSize_le := hsize

end

/-- A run that finishes, found by taking it. -/
theorem finished_of_run (fuel : ℕ) (replies : List Reply) {test : Memory → Bool}
    (h : okAnd (x.start fuel) (fun o => decide (StepsMeet x.resume x.Honest o replies) &&
      okAnd (runEvents x.resume o replies) fun o' => o'.table.stack.empty && o'.mem.any test)
        = true) : ∃ mem, x.Finished mem ∧ test mem = true := by
  rcases okAnd_iff.1 h with ⟨o, hstart, h⟩
  simp only [Bool.and_eq_true, decide_eq_true_eq, okAnd_iff, Option.any_eq_true] at h
  rcases h with ⟨hmeets, o', hrun, hempty, mem, hmem, htest⟩
  exact ⟨mem, ⟨fuel, replies, o, o', hstart, hmeets, hrun, hempty, hmem⟩, htest⟩

theorem iterate_addBuffer (n : ℕ) (h : CacheHelper cfg) :
    (CacheHelper.addBuffer^[n] h).nextBuffer = h.nextBuffer ∧
      (CacheHelper.addBuffer^[n] h).curMinInvalidOffset = h.curMinInvalidOffset := by
  induction n generalizing h with
  | zero => exact ⟨rfl, rfl⟩
  | succ n ih =>
      rw [Function.iterate_succ_apply]
      exact ih h.addBuffer

/-- The cache of an SSTable that has been opened holds as much of its file as it says: nothing. -/
theorem openTable_cacheHolds (image : Bytes) (hlen : image.length ≤ sizeMax)
    (slots : Stack cfg.maxSstableHeight) :
    CacheHolds image (openTable (SSTableInfo.new slots)).table.cache where
  buffer_length b hb := by
    rw [List.eq_of_mem_replicate hb, length_nulBytes]
  range i l hi := by
    have hnext := (iterate_addBuffer cfg.maxSstableHeight (CacheHelper.new cfg)).1
    have hzero : (CacheHelper.new cfg).nextBuffer = 0 := by simp [CacheHelper.nextBuffer,
      CacheHelper.new]
    rw [hzero] at hnext
    exact absurd (Nat.lt_of_lt_of_eq hi hnext) (Nat.not_lt_zero i)
  end_of_file := by
    have hend := (iterate_addBuffer cfg.maxSstableHeight (CacheHelper.new cfg)).2
    exact hlen.trans (Nat.le_of_eq hend.symm)

/-- A file of one entry, `k` with the value `1 2`. -/
def oneEntryImage : Bytes := [107, 1, 2]

/-- One READ of `k`, in the socket buffer at address `0`. -/
def readOfK : Memory := fun a => if a = 5 then 107 else 0

theorem stored_oneEntryImage (cfg : Config)
    (hroot : entryAt cfg oneEntryImage 0 = some ([107], [1, 2])) :
    Stored cfg oneEntryImage [107] [1, 2] :=
  ⟨0, [107], ArrayTree.onPath_root, hroot, by decide⟩

theorem length_oneEntryImage_le : oneEntryImage.length ≤ sizeMax := by decide

/-- The file is there, the SSTable has been opened, and no buffer has been read yet. -/
def afterOpening : Search shippedConfig :=
  overZeroes oneEntryImage readOfK [⟨.read, 0, 5, 0⟩] _
    (openTable_cacheHolds oneEntryImage length_oneEntryImage_le (Stack.zeroed _))

/-- Two SSTables on two levels, with a page cache of which each buffer gets some bytes. -/
def bufferedConfig : Config :=
  { oneTableConfig with totalSstablePageCacheSize := 40, blockSize := 512 }

theorem length_slots (a b : Option CacheLocation) :
    (a :: b :: List.replicate 18 none).length = bufferedConfig.maxBufferSetSize := by
  simp only [List.length_cons, List.length_replicate]
  decide

theorem length_noIndex :
    (List.replicate 20 (none : Option ℕ)).length = bufferedConfig.maxBufferSetSize := by
  rw [List.length_replicate]
  decide

/-- An account of one range, in front of a slot that is no longer in use. -/
def oneRange (l stale : CacheLocation) : CacheHelper bufferedConfig where
  cacheLocations := some l :: some stale :: List.replicate 18 none
  sparseBufferIndexLocations := List.replicate 20 none
  curMinInvalidOffset := sizeMax
  idOfMostRecentlySelectedBuffer := 0
  idOfLeastRecentlySelectedBuffer := 1
  freeBuffersLeft := 1
  length_cacheLocations := length_slots ..
  length_indexLocations := length_noIndex

/-- The only range has been given up; two buffers. -/
def givenUp : PageCache bufferedConfig where
  helper := oneRange ⟨0, 3, uintMax⟩ ⟨3, 3, uintMax⟩
  buffers := List.replicate 2 (nulBytes 1536)

theorem givenUp_holds : CacheHolds oneEntryImage givenUp where
  buffer_length b hb := by
    rw [List.eq_of_mem_replicate hb, length_nulBytes]
    decide
  range i l hi hloc hid := by
    have hi : i < 1 := hi
    obtain rfl : i = 0 := by omega
    cases hloc
    exact absurd rfl hid
  end_of_file := by decide

/-- The file is read on demand. -/
def readBack : Search bufferedConfig :=
  overZeroes oneEntryImage readOfK [⟨.read, 0, 5, 0⟩] givenUp givenUp_holds

/-- The entry is read into the second buffer, and found there. -/
theorem lookup_iff_readBack :
    ∃ mem, readBack.Finished mem ∧ readBack.AnsweredBy ⟨.read, 0, 5, 0⟩ mem ∧
      valueAt bufferedConfig mem 0 = [1, 2] := by
  have hrun : ∃ mem, readBack.Finished mem ∧
      (valueAt bufferedConfig mem 0 == [1, 2]) = true :=
    finished_of_run 1 [⟨1, [⟨0, 3⟩]⟩] (by decide +kernel)
  rcases hrun with ⟨mem, hf, hvalue⟩
  refine ⟨mem, hf, ?_, beq_iff_eq.1 hvalue⟩
  exact (lookup_iff readBack _ rfl (overZeroes_prepared (by decide)) mem hf).2 (.inl (by decide))

/-- What was left in the slots of the stack: the offset `3` and the request number `3` among it. -/
def misleading : Stack bufferedConfig.maxSstableHeight :=
  .new ((0, 0, 0, 0) :: (3, 3, 0, 0) :: List.replicate 18 (0, 0, 0, 0)) rfl

/-- The same file and cache under such slots. -/
def misled : Search bufferedConfig where
  __ := readBack
  table :=
    { SSTableInfo.new misleading with
      cache := givenUp
      reqBatch := some 0 }
  reqBatch_eq := rfl
  stack_empty := rfl
  cached := givenUp_holds

/-- **A key at the root is not found.**  The buffers of `CMakeLists.txt` have no size: the read of
the first one brings nothing, and the offset `0` is taken for the end of the file.  With buffers of
1536 bytes the search begins at the offset that happens to be in the slot, which is that of the end
of the file. -/
theorem root_key_not_found :
    (∃ (x : Search shippedConfig) (c : ConnectionRequest) (mem : Memory),
      x.entries = [c] ∧ x.Prepared ∧ x.Finished mem ∧ ¬ x.AnsweredBy c mem) ∧
    ∃ (x : Search bufferedConfig) (c : ConnectionRequest) (mem : Memory),
      x.entries = [c] ∧ x.table.ring = [] ∧ x.Finished mem ∧ ¬ x.AnsweredBy c mem := by
  constructor
  · have hrun : ∃ mem, afterOpening.Finished mem ∧
        (valueAt shippedConfig mem 0 == [0, 0]) = true :=
      finished_of_run 1 [⟨1, [⟨0, 0⟩]⟩] (by decide +kernel)
    rcases hrun with ⟨mem, hf, hvalue⟩
    exact ⟨afterOpening, ⟨.read, 0, 5, 0⟩, mem, rfl, overZeroes_prepared (by decide), hf,
      not_answeredBy (stored_oneEntryImage shippedConfig (by decide)) hvalue (by decide)⟩
  · have hrun : ∃ mem, misled.Finished mem ∧ (valueAt bufferedConfig mem 0 == [0, 0]) = true :=
      finished_of_run 1 [⟨1, [⟨3, 0⟩]⟩] (by decide +kernel)
    rcases hrun with ⟨mem, hf, hvalue⟩
    exact ⟨misled, ⟨.read, 0, 5, 0⟩, mem, rfl, rfl, hf,
      not_answeredBy (stored_oneEntryImage bufferedConfig (by decide)) hvalue (by decide)⟩

/-- **A batch of any number of requests.**  When the search has finished it, every request has what
a search for it alone should find: if and only if nothing had to be copied for any request but those
in the socket buffer of the slot's request, and for these neither if the buffers have no size.  What
a search for a request alone should find is the value on the search path of the file; with buffers
of no size the code finds nothing for a request alone either, by `lookup_iff`, so there the two
sides say that nothing had to be found. -/
theorem reuse_iff (x : Search cfg) (hp : x.Prepared) (hapart : x.SocketsApart) (mem : Memory)
    (hf : x.Finished mem) :
    (∀ c ∈ x.entries, x.AnsweredBy c mem) ↔ ∀ c ∈ x.entries, x.NothingToCopy c ∨ x.Served c :=
  forall₂_congr fun _ hc => answeredBy_iff hp hapart hf hc

/-- READs of the keys `1` and `2`, in the socket buffers at `0` and `8`. -/
def twoReads : Memory := fun a => if a = 5 then 1 else if a = 13 then 2 else 0

def twoRequests : List ConnectionRequest := [⟨.read, 0, 5, 0⟩, ⟨.read, 0, 6, 8⟩]

/-- The file is in the first buffer. -/
def inOneBuffer (image : Bytes) : PageCache bufferedConfig where
  helper := oneRange ⟨0, image.length, 0⟩ ⟨0, 0, uintMax⟩
  buffers := [image ++ nulBytes (1536 - image.length)]

theorem inOneBuffer_holds {image : Bytes} (hlen : image.length ≤ 1536) :
    CacheHolds image (inOneBuffer image) where
  buffer_length b hb := by
    rw [List.mem_singleton.1 hb, List.length_append, length_nulBytes]
    have hsize : bufferedConfig.fairAlignedSstablePageCacheBufferSize = 1536 := by decide
    omega
  range i l hi hloc hid := by
    have hi : i < 1 := hi
    obtain rfl : i = 0 := by omega
    cases hloc
    exact ⟨Nat.zero_le _, Nat.le_refl _, _, rfl, by simp⟩
  end_of_file := hlen.trans (show 1536 ≤ sizeMax by decide)

/-- The two requests at an SSTable whose file is in the first buffer. -/
def twoAtOnce (image : Bytes) (hlen : image.length ≤ 1536) : Search bufferedConfig :=
  overZeroes image twoReads twoRequests (inOneBuffer image) (inOneBuffer_holds hlen)

section

variable {image : Bytes} {hlen : image.length ≤ 1536}

theorem twoAtOnce_prepared : (twoAtOnce image hlen).Prepared := overZeroes_prepared (by decide)

theorem twoAtOnce_apart : (twoAtOnce image hlen).SocketsApart := by
  have h : ∀ c ∈ twoRequests, ∀ c' ∈ twoRequests, c.buffer = c'.buffer ∨
      c.buffer + bufferedConfig.socketBufferLength ≤ c'.buffer ∨
        c'.buffer + bufferedConfig.socketBufferLength ≤ c.buffer := by
    decide
  exact h

end

/-- A file with the key `1` only, and one with both. -/
def oneStoredImage : Bytes := [1, 10, 11]

def bothStoredImage : Bytes := [1, 10, 11, 0, 0, 0, 2, 20, 21]

theorem length_oneStoredImage_le : oneStoredImage.length ≤ 1536 := by decide

theorem length_bothStoredImage_le : bothStoredImage.length ≤ 1536 := by decide

/-- With `1` only both requests get what they would get alone. -/
theorem reuse_iff_oneStored :
    ∃ mem, (twoAtOnce oneStoredImage length_oneStoredImage_le).Finished mem ∧
      ∀ c ∈ twoRequests,
        (twoAtOnce oneStoredImage length_oneStoredImage_le).AnsweredBy c mem := by
  have hrun : ∃ mem, (twoAtOnce oneStoredImage length_oneStoredImage_le).Finished mem ∧
      (valueAt bufferedConfig mem 0 == [10, 11]) = true :=
    finished_of_run 1 [] (by decide +kernel)
  rcases hrun with ⟨mem, hf, -⟩
  refine ⟨mem, hf, (reuse_iff _ twoAtOnce_prepared twoAtOnce_apart mem hf).2 ?_⟩
  intro c hc
  have hmem : c = ⟨.read, 0, 5, 0⟩ ∨ c = ⟨.read, 0, 6, 8⟩ := by
    simpa [twoRequests] using (show c ∈ twoRequests from hc)
  rcases hmem with rfl | rfl
  · exact .inr ⟨by decide, _, rfl, rfl⟩
  · refine .inl fun v hv => absurd hv ?_
    have hroot : entryAt bufferedConfig oneStoredImage 0 = some ([1], [10, 11]) := by decide
    exact (ArrayTree.onPath_root.right hroot (by decide)).not_finds (by decide)

/-- With `2` stored as well it is not found: the traversal ends with the first request. -/
theorem second_request_not_found :
    ∃ (x : Search bufferedConfig) (mem : Memory) (c : ConnectionRequest),
      x.Prepared ∧ x.SocketsApart ∧
      (x.entries.map fun c => keyAt bufferedConfig x.mem c.buffer).Pairwise
        (fun a b => memcmp a b ≠ .gt) ∧
      c ∈ x.entries ∧ x.Finished mem ∧ ¬ x.AnsweredBy c mem := by
  have hrun : ∃ mem, (twoAtOnce bothStoredImage length_bothStoredImage_le).Finished mem ∧
      (valueAt bufferedConfig mem 8 == [0, 0]) = true :=
    finished_of_run 1 [] (by decide +kernel)
  rcases hrun with ⟨mem, hf, hvalue⟩
  refine ⟨_, mem, ⟨.read, 0, 6, 8⟩, twoAtOnce_prepared, twoAtOnce_apart, ?_, ?_, hf, ?_⟩
  · have hsorted : (twoRequests.map fun c => keyAt bufferedConfig twoReads c.buffer).Pairwise
        (fun a b => memcmp a b ≠ .gt) := by
      decide
    exact hsorted
  · exact List.mem_cons_of_mem _ List.mem_cons_self
  · have hroot : entryAt bufferedConfig bothStoredImage 0 = some ([1], [10, 11]) := by decide
    have hstored : Stored bufferedConfig bothStoredImage [2] [20, 21] :=
      ⟨2, [2], ArrayTree.onPath_root.right hroot (by decide), by decide, by decide⟩
    exact not_answeredBy hstored hvalue (by decide)

end Search

end Worker

end RingDB
