import RingDB.Worker.TreeRead

/-!
# Splitting an interval at its middle

`insert_memtable` and `move_down_to_children` take a node `(cur, left, right)` apart in the same
way: its left child stands in the middle of `left` and `cur`, its right child in the middle of
`cur` and `right`, and a child whose middle is `cur` again is left out.  `left` is still to be
visited while no ancestor stood on it, which holds on the left spine of the root; below a right
child `left` is the parent itself.

* `grow` — the nodes of the tree in preorder, and `grow_terminates` — there are finitely many.
* `Fits` — what every node keeps: `left ≤ cur < right`, and `cur` in the lower half of
  `unsigned int`.
* `Fits.bounds` — a subtree stays in its interval, and **`Fits.left_grown`** — it always has a
  node that stands on `left`.
* **`splitsOnce_iff`** — so each index has one node up to `n = 2` only: from `3` on the root is
  repeated below its right child, and where `cur + right` overflows there is no right child.
-/

namespace RingDB

open Core

namespace Splitting

open SSTableInfo (leftChild rightChild)

/-- The left child of a node.  Its fourth number is not used here. -/
def leftNode (q : Quad) : Quad := (leftChild q, q.2.1, q.1, 0)

/-- The right child of a node. -/
def rightNode (q : Quad) : Quad := (rightChild q, q.1, q.2.2.1, 0)

/-- The node that a traversal of `n` elements starts with. -/
def root (n : ℕ) : Quad := (n / 2, 0, n, 0)

/-- The nodes grown from `q`, in preorder; `none` if `fuel` levels do not hold them. -/
def grow : ℕ → Quad → Option (List Quad)
  | 0, _ => none
  | fuel + 1, q => do
      let lower ← (if leftChild q < q.1 then grow fuel (leftNode q) else some [])
      let upper ← (if rightChild q > q.1 then grow fuel (rightNode q) else some [])
      some (q :: lower ++ upper)

/-- The tree of `n` elements is finite, and each index below `n` is the `cur` of one node. -/
def SplitsOnce (n : ℕ) : Prop :=
  ∃ fuel nodes, grow fuel (root n) = some nodes ∧ ∀ i < n, (nodes.map Prod.fst).count i = 1

/-- The children that a pass of `insert_memtable` pushes. -/
theorem pass_pushes {cfg : Config} (memtable : Bytes) (b : RequestSegment.Build cfg) :
    b.pass memtable = (do
      let q ← b.stack.top
      let treeBase ← b.treeIndex
      let b : RequestSegment.Build cfg := { b with stack := b.stack.popTop, back := b.back - 1 }
      let b ←
        if leftChild q < q.1 then b.addChild memtable (leftNode q) (2 * treeBase + 1) q.2.1
        else pure b
      if rightChild q > q.1 then
        b.addChild memtable (rightNode q) (2 * treeBase + 2) q.2.2.1
      else pure b) := by
  unfold RequestSegment.Build.pass
  cases b.stack.top with
  | error e => rfl
  | ok q =>
      obtain ⟨cur, left, right, unused⟩ := q
      rfl

/-- `move_down_to_children` pushes the same two. -/
theorem moveDownToChildren_pushes {cfg : Config} (heap : Heap cfg) (mem : Memory)
    (t : SSTableInfo cfg) :
    t.moveDownToChildren heap mem = (do
      let q ← t.stack.top
      let t := { t with stack := t.stack.popTop }
      let t ← (if rightChild q > q.1 then
          t.pushChild heap mem (rightNode q).1 (rightNode q).2.1 (rightNode q).2.2.1
        else pure t)
      if leftChild q < q.1 then
        t.pushChild heap mem (leftNode q).1 (leftNode q).2.1 (leftNode q).2.2.1
      else pure t) :=
  rfl

/-! ## What a node keeps -/

structure Fits (q : Quad) : Prop where
  left_le : q.2.1 ≤ q.1
  lt_right : q.1 < q.2.2.1
  right_lt : q.2.2.1 < 2 ^ 32
  small : q.1 < 2 ^ 31

theorem fits_root {n : ℕ} (hpos : 0 < n) (hlt : n < 2 ^ 32) : Fits (root n) where
  left_le := Nat.zero_le _
  lt_right := Nat.div_lt_self hpos Nat.one_lt_two
  right_lt := hlt
  small := by
    rw [root]
    omega

namespace Fits

variable {q : Quad}

/-- Nothing is lost in `left + cur`. -/
theorem leftChild_eq (h : Fits q) : leftChild q = (q.2.1 + q.1) / 2 := by
  obtain ⟨cur, left, right, unused⟩ := q
  have hle : left ≤ cur := h.left_le
  have hlt : cur < 2 ^ 31 := h.small
  rw [leftChild, Nat.mod_eq_of_lt (by omega)]

theorem rightChild_le (q : Quad) : rightChild q ≤ (q.1 + q.2.2.1) / 2 :=
  Nat.div_le_div_right (Nat.mod_le _ _)

theorem leftNode (h : Fits q) (hchild : leftChild q < q.1) : Fits (leftNode q) where
  left_le := by
    have := h.left_le
    have := h.leftChild_eq
    simp only [Splitting.leftNode]
    omega
  lt_right := hchild
  right_lt := h.lt_right.trans h.right_lt
  small := hchild.trans h.small

theorem rightNode (h : Fits q) (hchild : q.1 < rightChild q) : Fits (rightNode q) where
  left_le := hchild.le
  lt_right := by
    have := rightChild_le q
    have := h.lt_right
    simp only [Splitting.rightNode]
    omega
  right_lt := h.right_lt
  small := by
    obtain ⟨cur, left, right, unused⟩ := q
    simp only [Splitting.rightNode, rightChild]
    omega

/-! ## The tree is finite -/

/-- The length of the interval, doubled, so that a node in its first place can be told from the
others: a right child of that node has the same interval. -/
def extent (q : Quad) : ℕ := 2 * (q.2.2.1 - q.2.1) + if q.1 = q.2.1 then 1 else 0

theorem extent_leftNode (h : Fits q) : extent (Splitting.leftNode q) < extent q := by
  have := h.left_le
  have := h.lt_right
  unfold extent Splitting.leftNode
  dsimp only
  split_ifs <;> omega

theorem extent_rightNode (h : Fits q) (hchild : q.1 < rightChild q) :
    extent (Splitting.rightNode q) < extent q := by
  have := h.left_le
  have := h.lt_right
  unfold extent Splitting.rightNode
  dsimp only
  split_ifs <;> omega

theorem grow_terminates : ∀ {fuel : ℕ} {q : Quad}, Fits q → extent q < fuel →
    ∃ nodes, grow fuel q = some nodes
  | fuel + 1, q, h, hfuel => by
      have hlower : ∃ lower, (if leftChild q < q.1 then grow fuel (Splitting.leftNode q)
          else some []) = some lower := by
        split
        · next hchild =>
            have := h.extent_leftNode
            exact grow_terminates (h.leftNode hchild) (by omega)
        · exact ⟨[], rfl⟩
      have hupper : ∃ upper, (if rightChild q > q.1 then grow fuel (Splitting.rightNode q)
          else some []) = some upper := by
        split
        · next hchild =>
            have := h.extent_rightNode hchild
            exact grow_terminates (h.rightNode hchild) (by omega)
        · exact ⟨[], rfl⟩
      obtain ⟨lower, hlower⟩ := hlower
      obtain ⟨upper, hupper⟩ := hupper
      exact ⟨q :: lower ++ upper, by rw [grow, hlower, hupper]; rfl⟩

end Fits

/-! ## Which indexes it has -/

/-- A grown tree is its root with the trees of its children. -/
theorem grow_cases {fuel : ℕ} {q : Quad} {nodes : List Quad} (h : grow fuel q = some nodes) :
    ∃ fuel' lower upper, fuel = fuel' + 1 ∧ nodes = q :: lower ++ upper
      ∧ (if leftChild q < q.1 then grow fuel' (leftNode q) else some []) = some lower
      ∧ (if rightChild q > q.1 then grow fuel' (rightNode q) else some []) = some upper := by
  cases fuel with
  | zero => simp [grow] at h
  | succ fuel =>
      rw [grow] at h
      simp only [Option.bind_eq_bind, Option.bind_eq_some_iff, Option.some.injEq] at h
      obtain ⟨lower, hlower, upper, hupper, rfl⟩ := h
      exact ⟨fuel, lower, upper, rfl, rfl, hlower, hupper⟩

namespace Fits

/-- A subtree stays in the interval of its root. -/
theorem bounds : ∀ {fuel : ℕ} {q : Quad} {nodes : List Quad}, Fits q → grow fuel q = some nodes →
    ∀ m ∈ nodes, q.2.1 ≤ m.1 ∧ m.1 < q.2.2.1
  | 0, _, _, _, hgrow => by simp [grow] at hgrow
  | fuel + 1, q, _, h, hgrow => by
      obtain ⟨fuel', lower, upper, hfuel, rfl, hlower, hupper⟩ := grow_cases hgrow
      obtain rfl : fuel = fuel' := by omega
      have hleft := h.left_le
      have hright := h.lt_right
      intro m hm
      rw [List.cons_append, List.mem_cons, List.mem_append] at hm
      rcases hm with rfl | hm | hm
      · exact ⟨hleft, hright⟩
      · split at hlower
        · next hchild =>
            have hm := bounds (h.leftNode hchild) hlower m hm
            exact ⟨hm.1, hm.2.trans hright⟩
        · cases hlower
          cases hm
      · split at hupper
        · next hchild =>
            have hm := bounds (h.rightNode hchild) hupper m hm
            exact ⟨hleft.trans hm.1, hm.2⟩
        · cases hupper
          cases hm

/-- The left spine ends on `left`: each step halves the distance. -/
theorem left_grown : ∀ {fuel : ℕ} {q : Quad} {nodes : List Quad}, Fits q →
    grow fuel q = some nodes → q.2.1 ∈ nodes.map Prod.fst
  | 0, _, _, _, hgrow => by simp [grow] at hgrow
  | fuel + 1, q, _, h, hgrow => by
      obtain ⟨fuel', lower, upper, hfuel, rfl, hlower, -⟩ := grow_cases hgrow
      obtain rfl : fuel = fuel' := by omega
      have hleft := h.left_le
      have heq := h.leftChild_eq
      by_cases hcur : q.2.1 = q.1
      · simp [hcur]
      · have hchild : leftChild q < q.1 := by omega
        rw [if_pos hchild] at hlower
        have hmem : (Splitting.leftNode q).2.1 ∈ lower.map Prod.fst :=
          left_grown (h.leftNode hchild) hlower
        rw [List.cons_append, List.map_cons, List.map_append]
        exact List.mem_cons_of_mem _ (List.mem_append_left _ hmem)

end Fits

/-- Without overflow the root is repeated below its right child. -/
theorem root_repeated {n fuel : ℕ} {nodes : List Quad} (hn : 3 ≤ n) (hsum : n / 2 + n < 2 ^ 32)
    (hgrow : grow fuel (root n) = some nodes) : 1 < (nodes.map Prod.fst).count (n / 2) := by
  have hroot : Fits (root n) := fits_root (by omega) (by omega)
  obtain ⟨fuel', lower, upper, -, rfl, -, hupper⟩ := grow_cases hgrow
  have hchild : rightChild (root n) > (root n).1 := by
    simp only [root, rightChild]
    omega
  rw [if_pos hchild] at hupper
  have hmem : n / 2 ∈ upper.map Prod.fst := (hroot.rightNode hchild).left_grown hupper
  have hpos : 0 < (upper.map Prod.fst).count (n / 2) := List.count_pos_iff.mpr hmem
  have hself : (root n).1 = n / 2 := rfl
  rw [List.cons_append, List.map_cons, List.map_append, hself, List.count_cons_self,
    List.count_append]
  omega

/-- With overflow the upper half is left out. -/
theorem last_missing {n fuel : ℕ} {nodes : List Quad} (hlt : n < 2 ^ 32)
    (hsum : 2 ^ 32 ≤ n / 2 + n) (hgrow : grow fuel (root n) = some nodes) :
    n - 1 ∉ nodes.map Prod.fst := by
  have hroot : Fits (root n) := fits_root (by omega) hlt
  obtain ⟨fuel', lower, upper, -, rfl, hlower, hupper⟩ := grow_cases hgrow
  have hnone : ¬ rightChild (root n) > (root n).1 := by
    simp only [root, rightChild]
    omega
  rw [if_neg hnone] at hupper
  cases hupper
  intro hmem
  rw [List.append_nil, List.map_cons, List.mem_cons] at hmem
  rcases hmem with hself | hmem
  · simp only [root] at hself
    omega
  · obtain ⟨m, hm, hcur⟩ := List.mem_map.mp hmem
    split at hlower
    · next hchild =>
        have hlt : m.1 < n / 2 := ((hroot.leftNode hchild).bounds hlower m hm).2
        omega
    · cases hlower
      cases hm

/-- The rule enumerates each index once for at most two elements. -/
theorem splitsOnce_iff {n : ℕ} (hlt : n < 2 ^ 32) : SplitsOnce n ↔ n ≤ 2 := by
  constructor
  · rintro ⟨fuel, nodes, hgrow, honce⟩
    by_contra hn
    by_cases hsum : n / 2 + n < 2 ^ 32
    · have hrepeated := root_repeated (by omega) hsum hgrow
      have := honce (n / 2) (by omega)
      omega
    · have hmissing := last_missing hlt (by omega) hgrow
      have := honce (n - 1) (by omega)
      rw [List.count_eq_zero_of_not_mem hmissing] at this
      cases this
  · intro hn
    match n, hn with
    | 0, _ => exact ⟨1, [root 0], rfl, fun i hi => absurd hi (Nat.not_lt_zero i)⟩
    | 1, _ => exact ⟨1, [root 1], rfl, by decide⟩
    | 2, _ => exact ⟨2, [root 2, leftNode (root 2)], rfl, by decide⟩

theorem splitsOnce_iff_two : SplitsOnce 2 ↔ 2 ≤ 2 := splitsOnce_iff (by decide)

/-- Of three elements the middle one has two nodes: the root, and the left child of its right
child. -/
theorem three_elements_four_nodes : ¬ SplitsOnce 3 := by
  rintro ⟨fuel, nodes, hgrow, honce⟩
  have hrepeated : 1 < (nodes.map Prod.fst).count 1 :=
    root_repeated (Nat.le_refl 3) (by decide) hgrow
  have := honce 1 (by decide)
  omega

end Splitting

end RingDB
