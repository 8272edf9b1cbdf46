import Mathlib.Data.Nat.Log
import RingDB.Core.Depth
import RingDB.Requests.MemtableImage
import RingDB.Requests.StackOrder
import RingDB.Worker.Splitting

/-!
# How deep the stack of `insert_memtable` gets

The nodes of the traversal wait on a stack of `max_sstable_height` slots.  A node whose halves are
`2 ^ h` long has at most `h + 1` nodes on the stack before its subtree is done: its right child,
whose halves are half as long, stands above its left child.  From the root of `2 ^ (b + 20)` bytes
that makes `b + 20` nodes, and the capacity is `20 * b`.

* `stackPass` — a pass of the loop on its stack alone, and `passWith_stack` — what `passWith` leaves
  on it.
* `stackPass_visit` — as long as there are slots a pass is a visit of the newest node.
* `hasRoom_children` — the height of a node bounds what its children need.
* **`stackSuffices_iff`** — the capacity suffices from two bits on.  With the one bit of the shipped
  build the stack has one slot too few.
-/

namespace RingDB

open Core

namespace Splitting

open SSTableInfo (leftChild rightChild)

section Model

/-- The children that are pushed, the newest first. -/
def children (q : Quad) : List Quad :=
  (if rightChild q > q.1 then [rightNode q] else []) ++
    if leftChild q < q.1 then [leftNode q] else []

/-- The nodes on the stack behind `k` passes of `insert_memtable`, the newest first. -/
def nodesBehind (cfg : Config) (k : ℕ) : List Quad := (visit children)^[k] [root cfg.memtableSize]

/-- The traversal never has more nodes on the stack than `max_sstable_height`. -/
def StackSuffices (cfg : Config) : Prop :=
  ∀ k, (nodesBehind cfg k).length ≤ cfg.maxSstableHeight

variable {length : ℕ}

/-- A child is pushed if there is one. -/
def pushChild (isChild : Prop) [Decidable isChild] (q : Quad) (st : Stack length) :
    Except Fault (Stack length) :=
  if isChild then st.pushTop q else pure st

/-- What a pass of the loop does to its stack. -/
def stackPass (st : Stack length) : Except Fault (Stack length) := do
  let q ← st.topLifo
  let st ← pushChild (leftChild q < q.1) (leftNode q) st.popTop
  pushChild (rightChild q > q.1) (rightNode q) st

/-- The loop on its stack alone, for `fuel` passes. -/
def stackLoop : ℕ → Stack length → Except Fault (Stack length)
  | 0, st => if st.empty then .ok st else .error .diverges
  | fuel + 1, st => if st.empty then .ok st else stackPass st >>= stackLoop fuel

/-- A traversal from the root, over slots that hold anything. -/
def stackTraversal (cfg : Config) (fuel : ℕ) (slots : List Quad)
    (hslots : slots.length = cfg.maxSstableHeight) :
    Except Fault (Stack cfg.maxSstableHeight) :=
  (Stack.new slots hslots).pushTop (root cfg.memtableSize) >>= stackLoop fuel

end Model

/-! ## The stack of the source -/

theorem addChild_stack {cfg : Config} {memtable : Bytes} {b b' : RequestSegment.Build cfg}
    {q : Quad} {treeIndex source : ℕ} (h : b.addChild memtable q treeIndex source = .ok b') :
    b.stack.pushTop q = .ok b'.stack := by
  rcases bind_eq_ok.1 h with ⟨stack, hpush, h⟩
  split_ifs at h with hback
  rcases bind_eq_ok.1 h with ⟨entry, -, h⟩
  rcases bind_eq_ok.1 h with ⟨data, -, h⟩
  cases h
  exact hpush

theorem addIf_stack {cfg : Config} {memtable : Bytes} {b b' : RequestSegment.Build cfg} {q : Quad}
    {treeIndex source : ℕ} {isChild : Prop} [Decidable isChild]
    (h : (if isChild then b.addChild memtable q treeIndex source else pure b) = .ok b') :
    pushChild isChild q b.stack = .ok b'.stack := by
  unfold pushChild
  split_ifs at h ⊢ with hchild
  · exact addChild_stack h
  · cases h
    rfl

/-- Whatever else a pass does, this is what it does to the stack. -/
theorem passWith_stack {cfg : Config} {memtable : Bytes} {b b' : RequestSegment.Build cfg}
    (h : b.passWith Stack.topLifo memtable = .ok b') : stackPass b.stack = .ok b'.stack := by
  rcases bind_eq_ok.1 h with ⟨⟨current, left, right, unused⟩, htop, h⟩
  rcases bind_eq_ok.1 h with ⟨treeBase, -, h⟩
  refine bind_eq_ok.2 ⟨_, htop, ?_⟩
  by_cases hlower : leftChild (current, left, right, unused) < current
  · rcases bind_eq_ok.1 ((if_pos hlower).symm.trans h) with ⟨b₁, hadd, h⟩
    have hpush := addChild_stack hadd
    refine bind_eq_ok.2 ⟨b₁.stack, ?_, addIf_stack h⟩
    rw [pushChild, if_pos hlower]
    exact hpush
  · refine bind_eq_ok.2 ⟨b.stack.popTop, if_neg hlower, ?_⟩
    have hrest := (if_neg hlower).symm.trans h
    rw [pure_bind] at hrest
    have hpush := addIf_stack hrest
    exact hpush

/-! ## The nodes on it -/

section Slots

open Stack (Represents)

variable {length : ℕ} {st : Stack length} {f : Stack.Lifo}

theorem topLifo_eq {q : Quad} {rest : List Quad} (h : Represents st f) (hq : f.pushed = q :: rest) :
    st.topLifo = .ok q := by
  have hback := h.back
  have hdata := h.data
  rw [hq, List.length_cons] at hback
  have hslot : st.data[rest.length]? = some q := by
    rw [hdata, hq, List.reverse_cons, List.append_assoc,
      List.getElem?_append_right (by rw [List.length_reverse]), List.length_reverse, Nat.sub_self]
    rfl
  simp only [Stack.topLifo, hback, hslot]

theorem pushChild_room {isChild : Prop} [Decidable isChild] {q : Quad} (h : Represents st f)
    (hroom : ((if isChild then [q] else []) ++ f.pushed).length ≤ length) :
    ∃ st' above, pushChild isChild q st = .ok st' ∧
      Represents st' ⟨(if isChild then [q] else []) ++ f.pushed, above⟩ := by
  unfold pushChild
  split_ifs at hroom ⊢
  · have hlen := h.length_eq
    rw [List.length_append, List.length_singleton] at hroom
    cases habove : f.above with
    | nil =>
        rw [habove, List.length_nil] at hlen
        omega
    | cons unused above =>
        rcases h.push habove with ⟨st', hst', hrep⟩
        exact ⟨st', above, hst', hrep⟩
  · exact ⟨st, f.above, rfl, h⟩

theorem pushChild_full {isChild : Prop} [Decidable isChild] {q : Quad} (h : Represents st f)
    (hfull : length < ((if isChild then [q] else []) ++ f.pushed).length) :
    pushChild isChild q st = .error .outOfBounds := by
  have hlen := h.length_eq
  have hback := h.back
  rw [List.length_append] at hfull
  unfold pushChild
  split_ifs at hfull ⊢
  · rw [List.length_singleton] at hfull
    rw [Stack.pushTop, if_neg (by omega)]
  · rw [List.length_nil] at hfull
    omega

/-- A pass is a visit of the newest node if there are slots for its children; if not, it leaves the
array. -/
theorem stackPass_visit {q : Quad} {rest : List Quad} (hlt : length < 2 ^ 32)
    (h : Represents st f) (hq : f.pushed = q :: rest) :
    ((visit children f.pushed).length ≤ length → ∃ st' above, stackPass st = .ok st' ∧
      Represents st' ⟨visit children f.pushed, above⟩) ∧
    (length < (visit children f.pushed).length → stackPass st = .error .outOfBounds) := by
  have hlen := h.length_eq
  have hpop := h.pop hlt hq
  rw [hq, List.length_cons] at hlen
  -- the slot of the node itself is free for the left child
  have hfirst : ((if leftChild q < q.1 then [leftNode q] else []) ++ rest).length ≤ length := by
    rw [List.length_append]
    split_ifs <;> simp only [List.length_singleton, List.length_nil] <;> omega
  rcases pushChild_room hpop hfirst with ⟨st₁, above₁, hst₁, hrep₁⟩
  have hpass : stackPass st = pushChild (rightChild q > q.1) (rightNode q) st₁ := by
    rw [stackPass, topLifo_eq h hq]
    show pushChild (leftChild q < q.1) (leftNode q) st.popTop >>= _ = _
    rw [hst₁]
    rfl
  rw [hpass, hq, visit_cons, children, List.append_assoc]
  exact ⟨pushChild_room hrep₁, pushChild_full hrep₁⟩

/-- The loop stays in the array for as long as the nodes have slots. -/
theorem stackLoop_inside_iff (hlt : length < 2 ^ 32) {fuel : ℕ} (h : Represents st f) :
    stackLoop fuel st ≠ .error .outOfBounds ↔
      ∀ k ≤ fuel, ((visit children)^[k] f.pushed).length ≤ length := by
  have hstart : f.pushed.length ≤ length := by
    have := h.length_eq
    omega
  induction fuel generalizing st f with
  | zero =>
      refine iff_of_true ?_ fun k hk => ?_
      · rw [stackLoop]
        split_ifs <;> exact fun h => nomatch h
      · obtain rfl := Nat.le_zero.1 hk
        exact hstart
  | succ fuel ih =>
      rw [stackLoop]
      cases hq : f.pushed with
      | nil =>
          rw [if_pos (h.empty_iff.2 hq)]
          refine iff_of_true (fun h => nomatch h) fun k _ => ?_
          rw [iterate_visit_nil]
          exact Nat.zero_le _
      | cons q rest =>
          have hfull : ¬ st.empty = true := by
            rw [h.empty_iff, hq]
            exact List.cons_ne_nil q rest
          have hpass := stackPass_visit hlt h hq
          rw [if_neg hfull, ← hq]
          by_cases hroom : (visit children f.pushed).length ≤ length
          · rcases hpass.1 hroom with ⟨st', above, hst', hrep⟩
            rw [hst']
            refine (ih hrep hroom).trans ⟨fun hall k hk => ?_, fun hall k hk => ?_⟩
            · cases k with
              | zero => exact hstart
              | succ k => exact hall k (by omega)
            · exact hall (k + 1) (by omega)
          · rw [hpass.2 (Nat.lt_of_not_le hroom)]
            refine iff_of_false (fun h => h rfl) fun hall => ?_
            exact hroom (hall 1 (by omega))

end Slots

/-- So the traversal stays in its array, whatever the slots hold at first, if and only if the
capacity suffices. -/
theorem stackTraversal_inside_iff {cfg : Config} (hpos : 0 < cfg.maxSstableHeight)
    (hlt : cfg.maxSstableHeight < 2 ^ 32) {slots : List Quad}
    (hslots : slots.length = cfg.maxSstableHeight) :
    (∀ fuel, stackTraversal cfg fuel slots hslots ≠ .error .outOfBounds) ↔ StackSuffices cfg := by
  cases slots with
  | nil =>
      rw [← hslots] at hpos
      cases hpos
  | cons unused above =>
      rcases (Stack.represents_new hslots).push rfl with ⟨st, hst, hrep⟩
      have hrun : ∀ fuel, stackTraversal cfg fuel (unused :: above) hslots = stackLoop fuel st := by
        intro fuel
        rw [stackTraversal, hst]
        rfl
      simp only [hrun, stackLoop_inside_iff hlt hrep, StackSuffices]
      exact ⟨fun h k => h k k (Nat.le_refl k), fun h _ k _ => h k⟩

/-! ## How many there are -/

/-- One more than the number of halvings that take the longer half of `q` to a single byte. -/
def height (q : Quad) : ℕ := Nat.clog 2 (max (q.1 - q.2.1) (q.2.2.1 - q.1)) + 1

/-- A right child is in the middle: where the sum overflows there is none. -/
theorem Fits.rightChild_eq {q : Quad} (h : Fits q) (hchild : q.1 < rightChild q) :
    rightChild q = (q.1 + q.2.2.1) / 2 := by
  obtain ⟨cur, left, right, unused⟩ := q
  have hright : right < 2 ^ 32 := h.right_lt
  simp only [rightChild] at hchild ⊢
  omega

/-- The left child needs no more than its parent. -/
theorem Fits.height_leftNode {q : Quad} (h : Fits q) :
    height (Splitting.leftNode q) ≤ height q := by
  have heq := h.leftChild_eq
  refine Nat.succ_le_succ (Nat.clog_mono_right 2 ?_)
  simp only [Splitting.leftNode, heq]
  omega

/-- The right child needs one less: the left child waits below it. -/
theorem Fits.height_rightNode {q : Quad} (h : Fits q) (hchild : q.1 < rightChild q) :
    height (Splitting.rightNode q) + 1 ≤ height q := by
  have heq := h.rightChild_eq hchild
  have hhalf : max ((Splitting.rightNode q).1 - (Splitting.rightNode q).2.1)
      ((Splitting.rightNode q).2.2.1 - (Splitting.rightNode q).1)
        = (q.2.2.1 - q.1 + 2 - 1) / 2 := by
    simp only [Splitting.rightNode, heq]
    omega
  have hlong : 2 ≤ q.2.2.1 - q.1 := by omega
  rw [height, hhalf, ← Nat.clog_of_two_le Nat.one_lt_two hlong]
  exact Nat.succ_le_succ (Nat.clog_mono_right 2 (le_max_right _ _))

theorem hasRoom_children {q : Quad} (h : Fits q) : HasRoom Fits height (height q) (children q) := by
  have hlower : HasRoom Fits height (height q)
      (if leftChild q < q.1 then [leftNode q] else []) := by
    split_ifs with hchild
    · exact .singleton (h.leftNode hchild) h.height_leftNode
    · trivial
  rw [children]
  by_cases hchild : q.1 < rightChild q
  · rw [if_pos hchild]
    have hheight := h.height_rightNode hchild
    refine ⟨h.rightNode hchild, ?_, hlower⟩
    show (if leftChild q < q.1 then [leftNode q] else []).length + _ ≤ _
    split_ifs <;> simp only [List.length_singleton, List.length_nil] <;> omega
  · rw [if_neg hchild]
    exact hlower

/-- Down the right spine each pass leaves a left child behind. -/
theorem length_spine : ∀ {m : ℕ} {q : Quad} {rest : List Quad}, Fits q → q.2.1 < q.1 →
    q.2.2.1 ≤ 2 ^ 31 → q.1 + 2 ^ m = q.2.2.1 →
    ((visit children)^[m] (q :: rest)).length = m + 1 + rest.length
  | 0, _, _, _, _, _, _ => by
      rw [Function.iterate_zero_apply, List.length_cons]
      omega
  | m + 1, q, rest, h, hleft, hle, hright => by
      have hpow : 0 < 2 ^ m := Nat.two_pow_pos m
      rw [Nat.pow_succ] at hright
      have hlower : leftChild q < q.1 := by
        have := h.leftChild_eq
        omega
      have hupper : q.1 < rightChild q := by
        obtain ⟨cur, left, right, unused⟩ := q
        have hsmall : cur < 2 ^ 31 := h.small
        simp only [rightChild] at *
        omega
      have heq := h.rightChild_eq hupper
      have hnext : q.1 + 2 ^ m = rightChild q := by omega
      rw [Function.iterate_succ_apply, visit_cons, children, if_pos hlower, if_pos hupper]
      refine (length_spine (h.rightNode hupper) hupper hle ?_).trans ?_
      · show rightChild q + 2 ^ m = q.2.2.1
        omega
      · show m + 1 + (leftNode q :: rest).length = m + 1 + 1 + rest.length
        rw [List.length_cons]
        omega

section Root

variable {cfg : Config}

theorem memtableSize_eq (cfg : Config) :
    cfg.memtableSize = 2 * 2 ^ (cfg.memtableSizeMbBits + 19) := by
  rw [Config.memtableSize, ← Nat.pow_add, Nat.mul_comm, ← Nat.pow_succ]

theorem root_eq (cfg : Config) : root cfg.memtableSize =
    (2 ^ (cfg.memtableSizeMbBits + 19), 0, 2 * 2 ^ (cfg.memtableSizeMbBits + 19), 0) := by
  rw [root, memtableSize_eq, Nat.mul_div_cancel_left _ Nat.two_pos]

theorem pow_le (hb : cfg.memtableSizeMbBits ≤ 11) : 2 ^ (cfg.memtableSizeMbBits + 19) ≤ 2 ^ 30 :=
  Nat.pow_le_pow_right Nat.two_pos (by omega)

theorem fits_memtable (hb : cfg.memtableSizeMbBits ≤ 11) : Fits (root cfg.memtableSize) := by
  have hpow := pow_le hb
  have hpos : 0 < 2 ^ (cfg.memtableSizeMbBits + 19) := Nat.two_pow_pos _
  refine fits_root ?_ ?_ <;> rw [memtableSize_eq] <;> omega

/-- The traversal gets as deep as the table has bits. -/
theorem depth_reached (hb : cfg.memtableSizeMbBits ≤ 11) :
    (nodesBehind cfg (cfg.memtableSizeMbBits + 19)).length = cfg.memtableSizeMbBits + 20 := by
  refine (length_spine (fits_memtable hb) ?_ ?_ ?_).trans rfl
  · rw [root_eq]
    exact Nat.two_pow_pos _
  · have := pow_le hb
    rw [root_eq]
    show 2 * 2 ^ (cfg.memtableSizeMbBits + 19) ≤ 2 ^ 31
    omega
  · rw [root_eq]
    exact (Nat.two_mul _).symm

/-- And no deeper. -/
theorem depth_le (hb : cfg.memtableSizeMbBits ≤ 11) (k : ℕ) :
    (nodesBehind cfg k).length ≤ cfg.memtableSizeMbBits + 20 := by
  have hheight : height (root cfg.memtableSize) = cfg.memtableSizeMbBits + 20 := by
    have hmax : max (2 ^ (cfg.memtableSizeMbBits + 19) - 0)
        (2 * 2 ^ (cfg.memtableSizeMbBits + 19) - 2 ^ (cfg.memtableSizeMbBits + 19))
        = 2 ^ (cfg.memtableSizeMbBits + 19) := by omega
    rw [root_eq, height, hmax, Nat.clog_pow 2 _ Nat.one_lt_two]
  have hroom : HasRoom Fits height (cfg.memtableSizeMbBits + 20) [root cfg.memtableSize] :=
    .singleton (fits_memtable hb) hheight.le
  exact (hroom.iterate (fun _ => hasRoom_children) k).length_le fun _ => Nat.succ_pos _

/-! With more bits the sum for the right child of the root overflows. -/

theorem pow_eq {e : ℕ} (he : cfg.memtableSizeMbBits + 19 = 31 + e) :
    2 ^ (cfg.memtableSizeMbBits + 19) = 2 ^ 31 * 2 ^ e := by rw [he, Nat.pow_add]

theorem visit_root {e : ℕ} (he : cfg.memtableSizeMbBits + 19 = 31 + e) :
    visit children [root cfg.memtableSize] = [leftNode (root cfg.memtableSize)] := by
  have hpow := pow_eq he
  have hpos : 0 < 2 ^ e := Nat.two_pow_pos e
  have hlower : leftChild (root cfg.memtableSize) < (root cfg.memtableSize).1 := by
    rw [root_eq, hpow]
    simp only [leftChild]
    omega
  have hupper : ¬ rightChild (root cfg.memtableSize) > (root cfg.memtableSize).1 := by
    rw [root_eq, hpow]
    simp only [rightChild]
    omega
  rw [visit_cons, children, if_pos hlower, if_neg hupper]
  rfl

/-- With twelve bits its left child is the root of half the table. -/
theorem hasRoom_leftNode (hb : cfg.memtableSizeMbBits = 12) :
    HasRoom Fits height 31 [leftNode (root cfg.memtableSize)] := by
  have hnode : leftNode (root cfg.memtableSize) = (2 ^ 30, 0, 2 ^ 31, 0) := by
    rw [root_eq, hb]
    rfl
  have hfits : Fits (2 ^ 30, 0, 2 ^ 31, 0) := by constructor <;> decide
  have hheight : height (2 ^ 30, 0, 2 ^ 31, 0) = 31 :=
    congrArg (· + 1) (Nat.clog_pow 2 30 Nat.one_lt_two)
  rw [hnode]
  exact .singleton hfits hheight.le

/-- With more than twelve it has no children. -/
theorem visit_leftNode {e : ℕ} (he : cfg.memtableSizeMbBits + 19 = 31 + (e + 1)) :
    visit children [leftNode (root cfg.memtableSize)] = [] := by
  have hzero : 2 ^ 31 * 2 ^ (e + 1) % 2 ^ 32 = 0 := by
    rw [Nat.pow_succ]
    omega
  have hnode : leftNode (root cfg.memtableSize) = (0, 0, 2 ^ 31 * 2 ^ (e + 1), 0) := by
    rw [root_eq, pow_eq he]
    simp only [leftNode, leftChild, Nat.zero_add, hzero]
  rw [hnode, visit_cons, children]
  simp only [leftChild, rightChild, Nat.zero_add, hzero]
  rfl

theorem depth_le_of_overflow (hb : 12 ≤ cfg.memtableSizeMbBits) (k : ℕ) :
    (nodesBehind cfg k).length ≤ 31 := by
  obtain ⟨e, he⟩ : ∃ e, cfg.memtableSizeMbBits + 19 = 31 + e :=
    ⟨cfg.memtableSizeMbBits - 12, by omega⟩
  cases k with
  | zero => exact (by decide : 1 ≤ 31)
  | succ k =>
      rw [nodesBehind, Function.iterate_succ_apply, visit_root he]
      cases e with
      | zero =>
          have hroom : HasRoom Fits height 31 [leftNode (root cfg.memtableSize)] :=
            hasRoom_leftNode (by omega)
          exact (hroom.iterate (fun _ => hasRoom_children) k).length_le fun _ => Nat.succ_pos _
      | succ e =>
          cases k with
          | zero => exact (by decide : 1 ≤ 31)
          | succ k =>
              rw [Function.iterate_succ_apply, visit_leftNode he, iterate_visit_nil]
              exact Nat.zero_le _

end Root

/-- **The depth of the stack.**  The nodes of a traversal fit on a stack of `max_sstable_height`
slots if and only if the size of a table has two bits at least. -/
theorem stackSuffices_iff (cfg : Config) : StackSuffices cfg ↔ 2 ≤ cfg.memtableSizeMbBits := by
  constructor
  · intro h
    by_contra hb
    have hreached : (nodesBehind cfg _).length = cfg.memtableSizeMbBits + 20 :=
      depth_reached (by omega)
    have hle := h (cfg.memtableSizeMbBits + 19)
    rw [hreached, Config.maxSstableHeight] at hle
    omega
  · intro hb k
    rw [Config.maxSstableHeight]
    by_cases hsmall : cfg.memtableSizeMbBits ≤ 11
    · have := depth_le hsmall k
      omega
    · have hle : (nodesBehind cfg k).length ≤ 31 := depth_le_of_overflow (by omega) k
      omega

/-- As shipped, with one bit: behind 20 passes there are 21 nodes for 20 slots. -/
theorem shipped_stack_too_short : ¬ StackSuffices shippedConfig := by
  intro h
  have hreached : (nodesBehind shippedConfig 20).length = 21 := depth_reached (by decide)
  have hle : (nodesBehind shippedConfig 20).length ≤ 20 := h 20
  omega

end Splitting

end RingDB
