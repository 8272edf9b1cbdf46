import Mathlib.Data.Fin.Tuple.Basic
import RingDB.Core.Blocks
import RingDB.Core.Run
import RingDB.LevelZero.RangeLookup

/-!
# The sparse index as an array of ranges

What `SparseIndex` keeps in its bytes is one range for each table, and nothing else.  `encode`
writes ranges into the bytes; the operations on the bytes do what `Ranges.perform` does to the
ranges.

A lookup does not only look: the first table that it meets without a minimum key takes the key as
its minimum key, and the lookup misses.  `Ranges.stop` is the table at which a lookup ends.

* `ranges_encode`, `encode_ranges` — there and back.
* **`operations_on_ranges`** — every sequence of operations on the bytes is one on the ranges, with
  the same answers.
-/

namespace RingDB

open Core

namespace SparseIndex

variable {cfg : Config}

section Model

/-- A key as the operations copy it: `KEY_LENGTH` bytes. -/
abbrev TableKey (cfg : Config) : Type := {key : Bytes // key.length = cfg.keyLength}

def noKey (cfg : Config) : TableKey cfg := ⟨nullKey cfg, length_nulBytes _⟩

/-- The operations of an index. -/
inductive IndexOp (cfg : Config) where
  | insertRange (minKey maxKey : TableKey cfg) (tableNum : Fin cfg.levelFactor)
  | removeTable (tableNum : Fin cfg.levelFactor)
  | setTableMinKey (tableNum : Fin cfg.levelFactor) (key : TableKey cfg)
  | setTableMaxKey (tableNum : Fin cfg.levelFactor) (key : TableKey cfg)
  | getTableNum (key : TableKey cfg)

/-- One operation on the bytes.  The answers of the lookups are collected. -/
def perform (s : SparseIndex cfg × List ℕ) : IndexOp cfg → Except Fault (SparseIndex cfg × List ℕ)
  | .insertRange minKey maxKey tableNum => do
      let ix ← s.1.insertRange minKey.1 maxKey.1 tableNum
      pure (ix, s.2)
  | .removeTable tableNum => do
      let ix ← s.1.removeTable tableNum
      pure (ix, s.2)
  | .setTableMinKey tableNum key => do
      let ix ← s.1.setTableMinKey tableNum key.1
      pure (ix, s.2)
  | .setTableMaxKey tableNum key => do
      let ix ← s.1.setTableMaxKey tableNum key.1
      pure (ix, s.2)
  | .getTableNum key => do
      let (ix, tableNum) ← s.1.getTableNum key.1
      pure (ix, s.2 ++ [tableNum])

end Model

/-! ## Ranges -/

/-- A minimum key and a maximum key for every table. -/
abbrev Ranges (cfg : Config) : Type := Fin cfg.levelFactor → TableKey cfg × TableKey cfg

namespace Ranges

/-- No table has a range. -/
def empty (cfg : Config) : Ranges cfg := fun _ => (noKey cfg, noKey cfg)

/-- A lookup that comes to table `m` ends there: the table has no minimum key, or its range has the
key. -/
def StopsAt (r : Ranges cfg) (key : TableKey cfg) (m : Fin cfg.levelFactor) : Prop :=
  2 * cfg.keyLength * m < cfg.levelFactor ∧
    ((r m).1 = noKey cfg ∨ InRange ((r m).1.1, (r m).2.1) key.1)

instance (r : Ranges cfg) (key : TableKey cfg) (m : Fin cfg.levelFactor) :
    Decidable (r.StopsAt key m) := inferInstanceAs (Decidable (_ ∧ _))

/-- The table at which a lookup ends. -/
def stop (r : Ranges cfg) (key : TableKey cfg) : Option (Fin cfg.levelFactor) :=
  Fin.find? fun m => decide (r.StopsAt key m)

/-- A lookup: the ranges behind it, and its answer. -/
def lookUp (r : Ranges cfg) (key : TableKey cfg) : Ranges cfg × ℕ :=
  match r.stop key with
  | none => (r, uintMax)
  | some m =>
      if (r m).1 = noKey cfg then (Function.update r m (key, (r m).2), uintMax)
      else (r, 2 * cfg.keyLength * m)

theorem lookUp_of_stop {r : Ranges cfg} {key : TableKey cfg} {m : Fin cfg.levelFactor}
    (h : r.stop key = some m) : r.lookUp key =
      if (r m).1 = noKey cfg then (Function.update r m (key, (r m).2), uintMax)
      else (r, 2 * cfg.keyLength * m) := by
  rw [lookUp, h]

/-- One operation on the ranges. -/
def perform (s : Ranges cfg × List ℕ) : IndexOp cfg → Ranges cfg × List ℕ
  | .insertRange minKey maxKey m => (Function.update s.1 m (minKey, maxKey), s.2)
  | .removeTable m => (Function.update s.1 m (noKey cfg, noKey cfg), s.2)
  | .setTableMinKey m key => (Function.update s.1 m (key, (s.1 m).2), s.2)
  | .setTableMaxKey m key => (Function.update s.1 m ((s.1 m).1, key), s.2)
  | .getTableNum key => ((s.1.lookUp key).1, s.2 ++ [(s.1.lookUp key).2])

end Ranges

/-! ## There and back -/

section Encode

theorem length_keys (r : Ranges cfg) (m : Fin cfg.levelFactor) :
    ((r m).1.1 ++ (r m).2.1).length = 2 * cfg.keyLength := by
  rw [List.length_append, (r m).1.2, (r m).2.2, Nat.two_mul]

/-- The bytes of ranges: the keys of one table behind those of the other. -/
def encode (r : Ranges cfg) : SparseIndex cfg where
  index := (List.ofFn fun m => (r m).1.1 ++ (r m).2.1).flatten
  length_index := (length_flatten_ofFn (length_keys r)).trans (Nat.mul_comm _ _)

theorem length_range (ix : SparseIndex cfg) (m : Fin cfg.levelFactor) :
    (ix.range m).1.length = cfg.keyLength ∧ (ix.range m).2.length = cfg.keyLength :=
  ⟨length_of_readAt (ix.readAt_minKey m.2), length_of_readAt (ix.readAt_maxKey m.2)⟩

/-- The ranges that the accessors find. -/
def ranges (ix : SparseIndex cfg) : Ranges cfg := fun m =>
  (⟨(ix.range m).1, (ix.length_range m).1⟩, ⟨(ix.range m).2, (ix.length_range m).2⟩)

/-- The bytes of a table are its two keys. -/
theorem block_index (hfits : StructFits cfg) (ix : SparseIndex cfg) (m : Fin cfg.levelFactor) :
    block (2 * cfg.keyLength) m ix.index = (ix.range m).1 ++ (ix.range m).2 := by
  rw [range, getTableMinKey, getTableMaxKey, tableOffset_eq hfits m.2, block, Nat.two_mul,
    List.take_add, List.drop_drop, Nat.mul_comm m.val]

theorem eq_of_index {ix ix' : SparseIndex cfg} (h : ix.index = ix'.index) : ix = ix' := by
  cases ix
  cases ix'
  cases h
  rfl

theorem encode_ranges (hfits : StructFits cfg) (ix : SparseIndex cfg) : encode ix.ranges = ix := by
  have hlen : ix.index.length = cfg.levelFactor * (2 * cfg.keyLength) := by
    rw [ix.length_index, Nat.mul_comm]
  refine eq_of_index (Eq.trans ?_ (flatten_blocks hlen))
  simp only [encode, ranges, block_index hfits]

theorem ranges_encode (hfits : StructFits cfg) (r : Ranges cfg) : (encode r).ranges = r := by
  funext m
  have hkeys : ((encode r).range m).1 ++ ((encode r).range m).2 = (r m).1.1 ++ (r m).2.1 := by
    rw [← block_index hfits]
    exact block_flatten (length_keys r) m
  have hsame := List.append_inj hkeys (((encode r).length_range m).1.trans (r m).1.2.symm)
  exact Prod.ext (Subtype.ext hsame.1) (Subtype.ext hsame.2)

theorem fresh_eq_encode (hfits : StructFits cfg) : fresh cfg = encode (Ranges.empty cfg) := by
  have hranges : (fresh cfg).ranges = Ranges.empty cfg := by
    funext m
    have hempty := (holdsRanges_fresh cfg).empty m (Nat.zero_le _) m.2
    exact Prod.ext (Subtype.ext (congrArg Prod.fst hempty))
      (Subtype.ext (congrArg Prod.snd hempty))
  rw [← hranges, encode_ranges hfits]

end Encode

/-! ## The operations -/

section Operations

variable {ix : SparseIndex cfg} {m : Fin cfg.levelFactor} {key : TableKey cfg}

/-- A write inside the range of one table changes at most this range. -/
theorem ranges_copyTo (hfits : StructFits cfg) {ix' : SparseIndex cfg} {off : ℕ}
    {minKey maxKey : TableKey cfg} (hoff : off + key.1.length ≤ 2 * cfg.keyLength)
    (hcopy : ix.copyTo (tableOffset cfg m + off) key.1 = .ok ix')
    (hmin : (ix'.range m).1 = minKey.1)
    (hmax : (ix'.range m).2 = maxKey.1) :
    ix'.ranges = Function.update ix.ranges m (minKey, maxKey) := by
  funext other
  by_cases hother : other = m
  · subst hother
    rw [Function.update_self]
    exact Prod.ext (Subtype.ext hmin) (Subtype.ext hmax)
  · have hne : (other : ℕ) ≠ m := fun h => hother (Fin.ext h)
    have hframe := range_copyTo hfits m.2 other.2 hne hoff hcopy
    rw [Function.update_of_ne hother]
    exact Prod.ext (Subtype.ext (congrArg Prod.fst hframe))
      (Subtype.ext (congrArg Prod.snd hframe))

theorem setTableMinKey_ranges (hfits : StructFits cfg) (ix : SparseIndex cfg)
    (m : Fin cfg.levelFactor) (key : TableKey cfg) :
    ∃ ix', ix.setTableMinKey m key.1 = .ok ix' ∧
      ix'.ranges = Function.update ix.ranges m (key, (ix.ranges m).2) := by
  rcases ix.copyKey_ok m.2 (Nat.zero_le _) key.2 with ⟨ix', hcopy⟩
  have hset : ix.setTableMinKey m key.1 = .ok ix' := hcopy
  obtain ⟨hmin, hmax⟩ := setTableMinKey_spec m.2 key.2 hset
  exact ⟨ix', hset, ranges_copyTo hfits (by rw [key.2]; omega) hcopy hmin hmax⟩

theorem setTableMaxKey_ranges (hfits : StructFits cfg) (ix : SparseIndex cfg)
    (m : Fin cfg.levelFactor) (key : TableKey cfg) :
    ∃ ix', ix.setTableMaxKey m key.1 = .ok ix' ∧
      ix'.ranges = Function.update ix.ranges m ((ix.ranges m).1, key) := by
  rcases ix.copyKey_ok m.2 (Nat.le_refl _) key.2 with ⟨ix', hcopy⟩
  have hset : ix.setTableMaxKey m key.1 = .ok ix' := hcopy
  obtain ⟨hmax, hmin⟩ := setTableMaxKey_spec m.2 key.2 hset
  exact ⟨ix', hset, ranges_copyTo hfits (by rw [key.2]; omega) hcopy hmin hmax⟩

theorem insertRange_ranges (hfits : StructFits cfg) (ix : SparseIndex cfg)
    (minKey maxKey : TableKey cfg) (m : Fin cfg.levelFactor) :
    ∃ ix', ix.insertRange minKey.1 maxKey.1 m = .ok ix' ∧
      ix'.ranges = Function.update ix.ranges m (minKey, maxKey) := by
  rcases setTableMinKey_ranges hfits ix m minKey with ⟨ix₁, hmin, hranges₁⟩
  rcases setTableMaxKey_ranges hfits ix₁ m maxKey with ⟨ix₂, hmax, hranges₂⟩
  refine ⟨ix₂, bind_eq_ok.2 ⟨ix₁, hmin, hmax⟩, ?_⟩
  rw [hranges₂, hranges₁, Function.update_self, Function.update_idem]

/-- The loop of a lookup at a table that has no minimum key. -/
theorem getTableNumFrom_unset (hfits : StructFits cfg) {fuel : ℕ}
    (hm : 2 * cfg.keyLength * m < cfg.levelFactor) (hunset : (ix.ranges m).1 = noKey cfg) :
    ∃ ix', getTableNumFrom key.1 (fuel + 1) (2 * cfg.keyLength * m) ix = .ok (ix', uintMax) ∧
      ix'.ranges = Function.update ix.ranges m (key, (ix.ranges m).2) := by
  rcases setTableMinKey_ranges hfits ix m key with ⟨ix', hset, hranges⟩
  refine ⟨ix', ?_, hranges⟩
  have hmin : readAt ix.index (tableOffset cfg m) cfg.keyLength = .ok (ix.range m).1 :=
    readAt_minKey ix m.2
  have hnull : memcmp (ix.range m).1 (nullKey cfg) = .eq :=
    memcmp_eq_iff.2 (congrArg Subtype.val hunset)
  have hcopy : ix.copyTo (tableOffset cfg m) key.1 = .ok ix' := hset
  rw [tableOffset_eq hfits m.2] at hmin hcopy
  rw [getTableNumFrom, if_pos hm, hmin]
  simp only [bind, Except.bind, hnull, if_true, hcopy]
  rfl

/-- The loop of a lookup, from a table on that it comes to. -/
theorem getTableNumFrom_ranges (hfits : StructFits cfg) (ix : SparseIndex cfg)
    (key : TableKey cfg) :
    ∀ (fuel m : ℕ), (∀ j : Fin cfg.levelFactor, j < m → ¬ ix.ranges.StopsAt key j) →
      cfg.levelFactor ≤ 2 * cfg.keyLength * m + fuel →
      ∃ ix', getTableNumFrom key.1 fuel (2 * cfg.keyLength * m) ix
          = .ok (ix', (ix.ranges.lookUp key).2) ∧
        ix'.ranges = (ix.ranges.lookUp key).1 := by
  -- behind the last table that is visited there is none to stop at
  have hpast : ∀ {m : ℕ}, (∀ j : Fin cfg.levelFactor, j < m → ¬ ix.ranges.StopsAt key j) →
      cfg.levelFactor ≤ 2 * cfg.keyLength * m →
      ix.ranges.lookUp key = (ix.ranges, uintMax) := by
    intro m hbefore hm
    have hnone : ix.ranges.stop key = none := by
      refine Fin.find?_eq_none_iff.2 fun j => decide_eq_false ?_
      by_cases hj : (j : ℕ) < m
      · exact hbefore j hj
      · intro hstop
        have hmul := Nat.mul_le_mul_left (2 * cfg.keyLength) (Nat.le_of_not_lt hj)
        have hlt := hstop.1
        omega
    rw [Ranges.lookUp, hnone]
  intro fuel
  induction fuel with
  | zero =>
      intro m hbefore hfuel
      rw [hpast hbefore hfuel]
      exact ⟨ix, rfl, rfl⟩
  | succ fuel ih =>
      intro m hbefore hfuel
      by_cases hm : 2 * cfg.keyLength * m < cfg.levelFactor
      · have htable : m < cfg.levelFactor :=
          (Nat.le_mul_of_pos_left m (Nat.mul_pos (by omega) cfg.keyLength_pos)).trans_lt hm
        by_cases hstop : ix.ranges.StopsAt key ⟨m, htable⟩
        · have hsome : ix.ranges.stop key = some ⟨m, htable⟩ :=
            Fin.find?_eq_some_iff.2 ⟨decide_eq_true hstop,
              fun j hj => decide_eq_false (hbefore j hj)⟩
          rw [Ranges.lookUp_of_stop hsome]
          by_cases hunset : (ix.ranges ⟨m, htable⟩).1 = noKey cfg
          · rw [if_pos hunset]
            exact getTableNumFrom_unset hfits hm hunset
          · have hnull : (ix.range m).1 ≠ nullKey cfg := fun h => hunset (Subtype.ext h)
            have hin : InRange (ix.range m) key.1 := hstop.2.resolve_left hunset
            rw [if_neg hunset, getTableNumFrom_table hfits hm hnull, if_pos hin]
            exact ⟨ix, rfl, rfl⟩
        · have hunset : (ix.ranges ⟨m, htable⟩).1 ≠ noKey cfg := fun h => hstop ⟨hm, .inl h⟩
          have hnull : (ix.range m).1 ≠ nullKey cfg := fun h => hunset (Subtype.ext h)
          have hout : ¬ InRange (ix.range m) key.1 := fun h => hstop ⟨hm, .inr h⟩
          have hpos : 1 ≤ 2 * cfg.keyLength := Nat.mul_pos (by omega) cfg.keyLength_pos
          rw [getTableNumFrom_table hfits hm hnull, if_neg hout]
          refine ih (m + 1) (fun j hj => ?_) (by rw [Nat.mul_succ]; omega)
          rcases Nat.lt_or_eq_of_le (Nat.le_of_lt_succ hj) with hlt | heq
          · exact hbefore j hlt
          · have hjm : j = ⟨m, htable⟩ := Fin.ext heq
            rw [hjm]
            exact hstop
      · rw [hpast hbefore (Nat.le_of_not_lt hm), getTableNumFrom, if_neg hm]
        exact ⟨ix, rfl, rfl⟩

theorem getTableNum_ranges (hfits : StructFits cfg) (ix : SparseIndex cfg) (key : TableKey cfg) :
    ∃ ix', ix.getTableNum key.1 = .ok (ix', (ix.ranges.lookUp key).2) ∧
      ix'.ranges = (ix.ranges.lookUp key).1 := by
  have hloop := getTableNumFrom_ranges hfits ix key cfg.levelFactor 0
    (fun _ hj => absurd hj (Nat.not_lt_zero _)) (Nat.le_add_left _ _)
  rwa [Nat.mul_zero] at hloop

/-- **One operation** on the bytes is one on the ranges. -/
theorem perform_encode (hfits : StructFits cfg) (r : Ranges cfg) (ts : List ℕ) (op : IndexOp cfg) :
    perform (encode r, ts) op
      = .ok (encode (Ranges.perform (r, ts) op).1, (Ranges.perform (r, ts) op).2) := by
  have hr := ranges_encode hfits r
  -- the bytes behind the operation are those of its ranges
  have hend : ∀ {ix' : SparseIndex cfg} {r' : Ranges cfg}, ix'.ranges = r' → ix' = encode r' := by
    intro ix' r' h
    rw [← h, encode_ranges hfits]
  cases op with
  | insertRange minKey maxKey m =>
      rcases insertRange_ranges hfits (encode r) minKey maxKey m with ⟨ix', hop, h⟩
      rw [hr] at h
      exact bind_eq_ok.2 ⟨ix', hop, by rw [hend h]; rfl⟩
  | removeTable m =>
      rcases insertRange_ranges hfits (encode r) (noKey cfg) (noKey cfg) m with ⟨ix', hop, h⟩
      rw [hr] at h
      exact bind_eq_ok.2 ⟨ix', hop, by rw [hend h]; rfl⟩
  | setTableMinKey m key =>
      rcases setTableMinKey_ranges hfits (encode r) m key with ⟨ix', hop, h⟩
      rw [hr] at h
      exact bind_eq_ok.2 ⟨ix', hop, by rw [hend h]; rfl⟩
  | setTableMaxKey m key =>
      rcases setTableMaxKey_ranges hfits (encode r) m key with ⟨ix', hop, h⟩
      rw [hr] at h
      exact bind_eq_ok.2 ⟨ix', hop, by rw [hend h]; rfl⟩
  | getTableNum key =>
      rcases getTableNum_ranges hfits (encode r) key with ⟨ix', hop, h⟩
      rw [hr] at hop h
      exact bind_eq_ok.2 ⟨_, hop, by rw [hend h]; rfl⟩

/-- **The index is its ranges.**  For all lengths of keys and numbers of tables: the bytes of an
index are the bytes of exactly one array of ranges, those of a new index of the one without ranges,
and every sequence of operations - ranges inserted, tables removed, minimum and maximum keys set,
keys looked up, on any tables and any keys, in any order - does to the bytes what it does to the
ranges and gives the same answers. -/
theorem operations_on_ranges (hfits : StructFits cfg) (r : Ranges cfg) (ops : List (IndexOp cfg)) :
    Function.Bijective (encode : Ranges cfg → SparseIndex cfg) ∧
      fresh cfg = encode (Ranges.empty cfg) ∧
      runEvents perform (encode r, []) ops
        = .ok (encode (ops.foldl Ranges.perform (r, [])).1,
          (ops.foldl Ranges.perform (r, [])).2) := by
  refine ⟨⟨?_, ?_⟩, fresh_eq_encode hfits, ?_⟩
  · exact Function.LeftInverse.injective (ranges_encode hfits)
  · exact Function.RightInverse.surjective (encode_ranges hfits)
  · generalize ([] : List ℕ) = ts
    induction ops generalizing r ts with
    | nil => rfl
    | cons op ops ih =>
        rw [runEvents_cons_ok (perform_encode hfits r ts op)]
        exact ih _ _

/-- A key of the shipped length, one byte. -/
def shippedKey (byte : UInt8) : TableKey shippedConfig := ⟨[byte], rfl⟩

/-- Two lookups in a new index: both miss, the first gives table 0 its key as minimum key, the
second table 1, since a range without maximum key has no key. -/
theorem operations_on_ranges_lookups : ∃ r : Ranges shippedConfig,
    runEvents perform (fresh shippedConfig, [])
      [.getTableNum (shippedKey 98), .getTableNum (shippedKey 99)]
        = .ok (encode r, [uintMax, uintMax]) ∧
      (r ⟨0, by decide⟩).1 = shippedKey 98 ∧ (r ⟨1, by decide⟩).1 = shippedKey 99 := by
  have hfits : StructFits shippedConfig := by decide +kernel
  obtain ⟨-, hfresh, hrun⟩ := operations_on_ranges hfits (Ranges.empty shippedConfig)
    [.getTableNum (shippedKey 98), .getTableNum (shippedKey 99)]
  rw [← hfresh] at hrun
  refine ⟨_, hrun, ?_, ?_⟩
  · decide +kernel
  · decide +kernel

end Operations

end SparseIndex

end RingDB
