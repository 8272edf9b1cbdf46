import RingDB.Requests.Batch

/-!
# The image of a memtable as a search tree

`insert_memtable` is meant to lay the sorted entries of a memtable out as an array tree.  With the
stack as it is, what the traversal does depends on what the allocator left (`Stack.top`).  Here the
stack is read as the last-in-first-out stack that it is meant to be.

That leaves the array `top_tree_index`.  Its index `back` starts at the slot that was filled and is
decremented behind every slot that is read, so the first pass stores the tree index of its left
child at `top_tree_index[-1]`: `insertMemtableLifo_not_tree`.

* `ArrangedAt` — the slots from one on hold a tree whose in-order walk is a given list.
* `passWith`, `loopWith`, `insertMemtableWith` — the traversal over a stack that is read through a
  parameter; with `Stack.top` they are `pass`, `loop` and `insertMemtable`.
* `insertMemtable_zeroed` — the source's traversal over zeroed memory, which ends at once with an
  image of one entry.
-/

namespace RingDB

open Core

namespace Stack

variable {length : ℕ}

/-- The slot that the last push filled. -/
def topLifo (st : Stack length) : Except Fault Quad :=
  match st.back with
  | 0 => .error .outOfBounds
  | k + 1 =>
      match st.data[k]? with
      | none => .error .outOfBounds
      | some q => .ok q

/-- A push is on top. -/
theorem topLifo_pushTop {st st' : Stack length} {q : Quad} (h : st.pushTop q = .ok st') :
    st'.topLifo = .ok q := by
  unfold pushTop at h
  split_ifs at h with hlt
  cases h
  have hself : (st.data.set st.back q)[st.back]? = some q :=
    List.getElem?_set_self (by rwa [st.length_data])
  simp only [topLifo, hself]

end Stack

namespace RequestSegment

variable {cfg : Config}

/-- The slots of `image` from slot `i` on hold a tree, whose in-order walk is `entries`.  The
children of slot `i` are the slots `2 * i + 1` and `2 * i + 2`. -/
inductive ArrangedAt (cfg : Config) (image : Bytes) : ℕ → List Bytes → Prop where
  | nil (i : ℕ) : ArrangedAt cfg image i []
  | node {i : ℕ} {entry : Bytes} {left right : List Bytes} :
      readAt image (i * cfg.memtableEntryLength) cfg.memtableEntryLength = .ok entry →
      ArrangedAt cfg image (2 * i + 1) left → ArrangedAt cfg image (2 * i + 2) right →
      ArrangedAt cfg image i (left ++ entry :: right)

/-- The first `n` entries of a memtable. -/
def entriesOf (cfg : Config) (memtable : Bytes) (n : ℕ) : List Bytes :=
  (List.range n).map fun j =>
    (memtable.drop (j * cfg.memtableEntryLength)).take cfg.memtableEntryLength

namespace Build

variable (top : Stack cfg.maxSstableHeight → Except Fault Quad)

/-- `pass`, with the top of the stack read by `top`. -/
def passWith (memtable : Bytes) (b : Build cfg) : Except Fault (Build cfg) := do
  let (current, left, right, _) ← top b.stack
  let leftChild := (left + current) % 2 ^ 32 / 2
  let rightChild := (current + right) % 2 ^ 32 / 2
  let treeBase ← b.treeIndex
  let b := { b with stack := b.stack.popTop, back := b.back - 1 }
  let b ←
    if leftChild < current then
      b.addChild memtable (leftChild, left, current, 0) (2 * treeBase + 1) left
    else pure b
  if rightChild > current then
    b.addChild memtable (rightChild, current, right, 0) (2 * treeBase + 2) right
  else pure b

/-- `loop`, with the top of the stack read by `top`. -/
def loopWith (memtable : Bytes) : ℕ → Build cfg → Except Fault (Build cfg)
  | 0, b => if b.stack.empty then .ok b else .error .diverges
  | fuel + 1, b =>
      if b.stack.empty then .ok b
      else do
        let b ← b.passWith top memtable
        loopWith memtable fuel b

end Build

/-- `insertMemtable`, with the top of the stack read by `top`. -/
def insertMemtableWith (top : Stack cfg.maxSstableHeight → Except Fault Quad) (fuel block : ℕ)
    (allocated memtable : Bytes) (seg : RequestSegment cfg) :
    Except Fault (RequestSegment cfg) := do
  let stack ← seg.stack.pushTop (cfg.memtableSize / 2, 0, cfg.memtableSize, 0)
  let root ← readAt memtable (cfg.memtableSize / 2) cfg.memtableEntryLength
  let data ← writeAt allocated 0 root
  let b ← Build.loopWith top memtable fuel
    { stack
      topTreeIndex := (List.replicate cfg.maxSstableHeight none).set 0 (some 0)
      back := 0
      data }
  pure { stack := b.stack, block := some block, data := b.data }

/-- `insert_memtable` over a stack that is read as a LIFO stack. -/
def insertMemtableLifo (fuel block : ℕ) (allocated memtable : Bytes) (seg : RequestSegment cfg) :
    Except Fault (RequestSegment cfg) :=
  seg.insertMemtableWith Stack.topLifo fuel block allocated memtable

/-! ## The traversal that the source has -/

theorem Build.loopWith_top (memtable : Bytes) (fuel : ℕ) (b : Build cfg) :
    Build.loopWith Stack.top memtable fuel b = Build.loop memtable fuel b := by
  induction fuel generalizing b with
  | zero => rfl
  | succ fuel ih =>
      rw [Build.loopWith, Build.loop]
      split_ifs
      · rfl
      · show b.pass memtable >>= _ = b.pass memtable >>= _
        simp only [ih]

/-- Over the stack of the source it is the source's traversal. -/
theorem insertMemtableWith_top (fuel block : ℕ) (allocated memtable : Bytes)
    (seg : RequestSegment cfg) :
    seg.insertMemtableWith Stack.top fuel block allocated memtable
      = seg.insertMemtable fuel block allocated memtable := by
  simp only [insertMemtableWith, insertMemtable, Build.loopWith_top]

/-! ### Over zeroed slots -/

end RequestSegment

theorem Stack.top_pushTop_zeroed {length : ℕ} (h : 1 < length) (q : Quad) :
    ∃ st, (Stack.zeroed length).pushTop q = .ok st ∧ st.top = .ok (0, 0, 0, 0) ∧ st.back = 1 := by
  have hslot : ((List.replicate length ((0, 0, 0, 0) : Quad)).set 0 q)[1]? = some (0, 0, 0, 0) := by
    rw [List.getElem?_set_ne Nat.zero_ne_one, List.getElem?_replicate, if_pos h]
  refine ⟨_, if_pos (Nat.zero_lt_of_lt h), ?_, rfl⟩
  simp only [Stack.top, Stack.zeroed, Stack.new, Nat.zero_add, hslot]

namespace RequestSegment

/-- A quadruple of zeros has no children. -/
theorem Build.pass_zeros {b : Build cfg} {memtable : Bytes} {i : ℕ}
    (htop : b.stack.top = .ok (0, 0, 0, 0)) (hindex : b.treeIndex = .ok i) :
    b.pass memtable = .ok { b with stack := b.stack.popTop, back := b.back - 1 } :=
  bind_eq_ok.2 ⟨_, htop, bind_eq_ok.2 ⟨i, hindex, rfl⟩⟩

theorem Build.loop_zeros {b : Build cfg} {memtable : Bytes} {i : ℕ}
    (htop : b.stack.top = .ok (0, 0, 0, 0)) (hback : b.stack.back = 1)
    (hindex : b.treeIndex = .ok i) {fuel : ℕ} (hfuel : 0 < fuel) :
    Build.loop memtable fuel b = .ok { b with stack := b.stack.popTop, back := b.back - 1 } := by
  rcases Nat.exists_eq_succ_of_ne_zero hfuel.ne' with ⟨n, rfl⟩
  have hfull : b.stack.empty = false := by
    rw [Stack.empty, hback]
    rfl
  have hempty : b.stack.popTop.empty = true := by simp [Stack.empty, Stack.popTop, hback]
  rw [Build.loop, if_neg (by rw [hfull]; exact Bool.false_ne_true)]
  refine bind_eq_ok.2 ⟨_, Build.pass_zeros htop hindex, ?_⟩
  cases n with
  | zero => exact if_pos hempty
  | succ n => exact if_pos hempty

/-- The traversal is over after its first pass: what `top` finds above the root is a middle without
children. -/
theorem insertMemtable_zeroed {seg : RequestSegment cfg} (hstack : seg.stack = .zeroed _)
    (hheight : 1 < cfg.maxSstableHeight) (hentry : cfg.memtableEntryLength ≤ cfg.memtableSize / 2)
    {allocated memtable : Bytes} (hallocated : allocated.length = cfg.memtableSize)
    (hmemtable : memtable.length = cfg.memtableSize) {fuel : ℕ} (hfuel : 0 < fuel) (block : ℕ) :
    ∃ seg', seg.insertMemtable fuel block allocated memtable = .ok seg' := by
  rcases Stack.top_pushTop_zeroed hheight (cfg.memtableSize / 2, 0, cfg.memtableSize, 0)
    with ⟨st, hpush, htop, hback⟩
  have hroot : readAt memtable (cfg.memtableSize / 2) cfg.memtableEntryLength = _ :=
    readAt_of_le (by omega)
  have hlen := length_of_readAt hroot
  have hwrite : writeAt allocated 0
      ((memtable.drop (cfg.memtableSize / 2)).take cfg.memtableEntryLength) = _ :=
    writeAt_of_le (by omega)
  have hslot : ((List.replicate cfg.maxSstableHeight (none : Option ℕ)).set 0 (some 0))[0]?
      = some (some 0) :=
    List.getElem?_set_self (by rw [List.length_replicate]; omega)
  refine ⟨_, bind_eq_ok.2 ⟨st, hstack ▸ hpush, bind_eq_ok.2 ⟨_, hroot, bind_eq_ok.2 ⟨_, hwrite,
    bind_eq_ok.2 ⟨_, Build.loop_zeros (i := 0) htop hback ?_ hfuel, rfl⟩⟩⟩⟩⟩
  simp only [Build.treeIndex, le_refl, if_true, Int.toNat_zero, hslot]

/-! ## The first pass -/

namespace Build

variable {memtable : Bytes} {b b' : Build cfg}

/-- A child is not recorded in front of the array. -/
theorem addChild_of_neg {q : Quad} {treeIndex source : ℕ} (h : b.back < 0) :
    b.addChild memtable q treeIndex source ≠ .ok b' := by
  intro hadd
  rcases bind_eq_ok.1 hadd with ⟨stack, -, hadd⟩
  rw [if_neg fun hback => absurd hback.1 (Int.not_le.2 h)] at hadd
  cases hadd

/-- **A pass that reads slot 0 of `top_tree_index` has no outcome if it has a left child**, however
the stack is read. -/
theorem passWith_of_back_zero {top : Stack cfg.maxSstableHeight → Except Fault Quad}
    {current left right unused : ℕ} (hback : b.back = 0)
    (htop : top b.stack = .ok (current, left, right, unused))
    (hchild : (left + current) % 2 ^ 32 / 2 < current) : b.passWith top memtable ≠ .ok b' := by
  intro h
  rcases bind_eq_ok.1 h with ⟨q, hq, h⟩
  rw [htop] at hq
  cases hq
  rcases bind_eq_ok.1 h with ⟨treeBase, -, h⟩
  dsimp only at h
  rw [if_pos hchild] at h
  rcases bind_eq_ok.1 h with ⟨b₁, hadd, -⟩
  exact addChild_of_neg (show b.back - 1 < 0 by rw [hback]; decide) hadd

end Build

/-- The middle of the table has a left child. -/
theorem middle_leftChild (cfg : Config) :
    (0 + cfg.memtableSize / 2) % 2 ^ 32 / 2 < cfg.memtableSize / 2 := by
  have hsize : 2 ≤ cfg.memtableSize :=
    Nat.le_mul_of_pos_left (2 ^ 20) (Nat.pow_pos (Nat.succ_pos 1)) |>.trans' (by decide)
  have hmod := Nat.mod_le (0 + cfg.memtableSize / 2) (2 ^ 32)
  omega

/-- So the traversal ends in its first pass, whatever the memtable holds. -/
theorem insertMemtableLifo_ne_ok {fuel block : ℕ} {allocated memtable : Bytes}
    {seg seg' : RequestSegment cfg} :
    seg.insertMemtableLifo fuel block allocated memtable ≠ .ok seg' := by
  intro h
  rcases bind_eq_ok.1 h with ⟨stack, hpush, h⟩
  rcases bind_eq_ok.1 h with ⟨root, -, h⟩
  rcases bind_eq_ok.1 h with ⟨data, -, h⟩
  rcases bind_eq_ok.1 h with ⟨b, hloop, -⟩
  have hfull : ¬ stack.empty = true := by
    unfold Stack.pushTop at hpush
    split_ifs at hpush
    cases hpush
    simp [Stack.empty]
  cases fuel with
  | zero =>
      rw [Build.loopWith, if_neg hfull] at hloop
      cases hloop
  | succ fuel =>
      rw [Build.loopWith, if_neg hfull] at hloop
      rcases bind_eq_ok.1 hloop with ⟨b₁, hpass, -⟩
      exact Build.passWith_of_back_zero rfl (Stack.topLifo_pushTop hpush) (middle_leftChild cfg)
        hpass

/-- `insert_memtable` stays inside its arrays, and the image is a search tree of the first `n`
entries of the memtable. -/
def BuildsTree (seg : RequestSegment cfg) (allocated memtable : Bytes) (n : ℕ) : Prop :=
  ∃ fuel block seg', seg.insertMemtableLifo fuel block allocated memtable = .ok seg'
    ∧ ArrangedAt cfg seg'.data 0 (entriesOf cfg memtable n)

/-- **No image is ever built**, of no memtable, sorted or not, and into no block. -/
theorem insertMemtableLifo_not_tree (seg : RequestSegment cfg) (allocated memtable : Bytes)
    (n : ℕ) : ¬ seg.BuildsTree allocated memtable n := by
  rintro ⟨fuel, block, seg', h, -⟩
  exact insertMemtableLifo_ne_ok h

/-- The memtable of one entry, the key `a` with the value `bb`. -/
def oneEntry : Bytes := [97, 98, 98] ++ nulBytes (shippedConfig.memtableSize - 3)

theorem oneEntry_not_tree :
    entriesOf shippedConfig oneEntry 1 = [[97, 98, 98]]
      ∧ ¬ (RequestBatch.zeroed shippedConfig .compaction).reqSeg.BuildsTree
        ((Allocator.zeroed shippedConfig).block 0) oneEntry 1 := by
  refine ⟨rfl, ?_⟩
  rintro ⟨fuel, block, seg', h, -⟩
  exact insertMemtableLifo_ne_ok h

end RequestSegment

end RingDB
