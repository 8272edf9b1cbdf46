import RingDB.LevelZero.SparseIndex

/-!
# Looking a key up among ranges

`get_table_num` steps through the sparse index by the length of a range, compares the byte offset it
has reached with the number of tables, and returns the offset.  So it meets the tables one after the
other, but only as far as their offsets are below `LEVEL_FACTOR`, and returns a table number that is
`2 * KEY_LENGTH` times the one it means.

* `HoldsRanges` — the first tables hold ranges, the others none; `insertRanges_ok` gets there by
  `insert_range`.
* `getTableNum_of_holds` — what the lookup returns, in terms of the first range with the key.
* **`rangeLookup_iff`** — when that is a table whose range has the key.
-/

namespace RingDB

open Core

namespace SparseIndex

variable {cfg : Config}

section Model

/-- The key is in the range. -/
def InRange (r : Bytes × Bytes) (key : Bytes) : Prop :=
  memcmp r.1 key ≠ .gt ∧ memcmp key r.2 ≠ .gt

instance (r : Bytes × Bytes) (key : Bytes) : Decidable (InRange r key) :=
  inferInstanceAs (Decidable (_ ∧ _))

/-- The range of a table, as the accessors find it. -/
def range (ix : SparseIndex cfg) (tableNum : ℕ) : Bytes × Bytes :=
  ((ix.getTableMinKey tableNum).take cfg.keyLength, (ix.getTableMaxKey tableNum).take cfg.keyLength)

/-- `struct_size`, from which the alignment of an index is computed, is an `unsigned int`. -/
def StructFits (cfg : Config) : Prop :=
  cfg.keyLength + 2 * cfg.keyLength * cfg.levelFactor < 2 ^ 32

instance (cfg : Config) : Decidable (StructFits cfg) := inferInstanceAs (Decidable (_ < _))

/-- The first tables have these ranges, none of which begins with the null key, and the others are
empty. -/
structure HoldsRanges (ix : SparseIndex cfg) (rs : List (Bytes × Bytes)) : Prop where
  length_le : rs.length ≤ cfg.levelFactor
  given : ∀ m r, rs[m]? = some r → ix.range m = r
  empty : ∀ m, rs.length ≤ m → m < cfg.levelFactor → ix.range m = (nullKey cfg, nullKey cfg)
  nonNull : ∀ r ∈ rs, r.1 ≠ nullKey cfg

/-- Ranges for the tables from `tableNum` on. -/
def insertRanges :
    List (Bytes × Bytes) → ℕ → SparseIndex cfg → Except Fault (SparseIndex cfg)
  | [], _, ix => .ok ix
  | r :: rs, tableNum, ix => do
      let ix ← ix.insertRange r.1 r.2 tableNum
      insertRanges rs (tableNum + 1) ix

/-- The lookup returns a table whose range has the key, and leaves the index as it is. -/
def LooksUp (ix : SparseIndex cfg) (n : ℕ) (key : Bytes) : Prop :=
  ∃ t, ix.getTableNum key = .ok (ix, t) ∧ t < n ∧ InRange (ix.range t) key

/-- The first of the ranges with the key. -/
def firstRange (rs : List (Bytes × Bytes)) (key : Bytes) : ℕ :=
  rs.findIdx fun r => decide (InRange r key)

end Model

section Inserting

variable {ix ix' : SparseIndex cfg} {rs : List (Bytes × Bytes)} {tableNum : ℕ}

theorem tableOffset_eq (hfits : StructFits cfg) (htable : tableNum < cfg.levelFactor) :
    tableOffset cfg tableNum = 2 * cfg.keyLength * tableNum := by
  have hle : 2 * cfg.keyLength * tableNum ≤ 2 * cfg.keyLength * cfg.levelFactor :=
    Nat.mul_le_mul_left _ htable.le
  unfold StructFits at hfits
  exact Nat.mod_eq_of_lt (by omega)

/-- What is written inside the range of one table leaves the ranges of the others. -/
theorem range_copyTo (hfits : StructFits cfg) {other off : ℕ} {key : Bytes}
    (htable : tableNum < cfg.levelFactor) (hother : other < cfg.levelFactor)
    (hne : other ≠ tableNum) (hoff : off + key.length ≤ 2 * cfg.keyLength)
    (h : ix.copyTo (tableOffset cfg tableNum + off) key = .ok ix') :
    ix'.range other = ix.range other := by
  have hwrite := copyTo_ok h
  rw [tableOffset_eq hfits htable] at hwrite
  have hslots : 2 * cfg.keyLength * other + 2 * cfg.keyLength ≤ 2 * cfg.keyLength * tableNum ∨
      2 * cfg.keyLength * tableNum + 2 * cfg.keyLength ≤ 2 * cfg.keyLength * other := by
    rcases Nat.lt_or_gt_of_ne hne with hlt | hgt
    · exact .inl (Nat.mul_le_mul_left _ hlt)
    · exact .inr (Nat.mul_le_mul_left _ hgt)
  have hmin := readAt_minKey ix' hother
  have hmax := readAt_maxKey ix' hother
  rw [tableOffset_eq hfits hother, readAt_writeAt_disjoint hwrite (by omega),
    ← tableOffset_eq hfits hother] at hmin hmax
  rw [readAt_minKey ix hother] at hmin
  rw [readAt_maxKey ix hother] at hmax
  exact Prod.ext (Except.ok.inj hmin).symm (Except.ok.inj hmax).symm

theorem holdsRanges_fresh (cfg : Config) : HoldsRanges (fresh cfg) [] where
  length_le := Nat.zero_le _
  given := nofun
  empty := fun _ _ hm =>
    Prod.ext (eq_nulBytes_of_readAt ((fresh cfg).readAt_minKey hm))
      (eq_nulBytes_of_readAt ((fresh cfg).readAt_maxKey hm))
  nonNull := nofun

/-- One more range. -/
theorem HoldsRanges.insert (hfits : StructFits cfg) (h : HoldsRanges ix rs) {r : Bytes × Bytes}
    (hmin : r.1.length = cfg.keyLength) (hmax : r.2.length = cfg.keyLength)
    (hnull : r.1 ≠ nullKey cfg) (hroom : rs.length < cfg.levelFactor) :
    ∃ ix', ix.insertRange r.1 r.2 rs.length = .ok ix' ∧ HoldsRanges ix' (rs ++ [r]) := by
  rcases ix.insertRange_spec hmin hmax hroom with ⟨ix', hinsert, hmin', hmax'⟩
  refine ⟨ix', hinsert, ?_⟩
  have hown : ix'.range rs.length = r := Prod.ext hmin' hmax'
  have hframe : ∀ m, m < cfg.levelFactor → m ≠ rs.length → ix'.range m = ix.range m := by
    intro m hm hne
    rcases bind_eq_ok.1 hinsert with ⟨ix₁, hcopy₁, hcopy₂⟩
    rw [range_copyTo hfits hroom hm hne (by omega) hcopy₂]
    have hcopy : ix.copyTo (tableOffset cfg rs.length + 0) r.1 = .ok ix₁ := hcopy₁
    exact range_copyTo hfits hroom hm hne (by omega) hcopy
  refine ⟨?_, fun m r' hr' => ?_, fun m hle hm => ?_, fun r' hr' => ?_⟩
  · rw [List.length_append, List.length_singleton]
    exact hroom
  · rcases Nat.lt_trichotomy m rs.length with hlt | rfl | hgt
    · rw [List.getElem?_append_left hlt] at hr'
      rw [hframe m (hlt.trans hroom) hlt.ne]
      exact h.given m r' hr'
    · rw [List.getElem?_concat_length] at hr'
      rw [hown]
      exact Option.some.inj hr'
    · rw [List.getElem?_eq_none (by rw [List.length_append, List.length_singleton]; omega)] at hr'
      cases hr'
  · rw [List.length_append, List.length_singleton] at hle
    rw [hframe m hm (by omega)]
    exact h.empty m (by omega) hm
  · rcases List.mem_append.1 hr' with hr' | hr'
    · exact h.nonNull r' hr'
    · rw [List.mem_singleton.1 hr']
      exact hnull

/-- **Ranges that were inserted** are held. -/
theorem insertRanges_ok (hfits : StructFits cfg) : ∀ (rs : List (Bytes × Bytes))
    {done : List (Bytes × Bytes)} {ix : SparseIndex cfg}, HoldsRanges ix done →
    done.length + rs.length ≤ cfg.levelFactor →
    (∀ r ∈ rs, r.1.length = cfg.keyLength ∧ r.2.length = cfg.keyLength ∧ r.1 ≠ nullKey cfg) →
    ∃ ix', insertRanges rs done.length ix = .ok ix' ∧ HoldsRanges ix' (done ++ rs) := by
  intro rs
  induction rs with
  | nil =>
      intro done ix h _ _
      exact ⟨ix, rfl, by rwa [List.append_nil]⟩
  | cons r rs ih =>
      intro done ix h hroom hkeys
      rw [List.length_cons] at hroom
      rcases hkeys r (by simp) with ⟨hmin, hmax, hnull⟩
      rcases h.insert hfits hmin hmax hnull (by omega) with ⟨ix₁, hinsert, h₁⟩
      have hlen : (done ++ [r]).length = done.length + 1 := by simp
      rcases ih h₁ (by omega) (fun r' hr' => hkeys r' (List.mem_cons_of_mem _ hr'))
        with ⟨ix', hrest, h'⟩
      rw [hlen] at hrest
      rw [List.append_assoc] at h'
      exact ⟨ix', bind_eq_ok.2 ⟨ix₁, hinsert, hrest⟩, h'⟩

end Inserting

section Lookup

variable {ix : SparseIndex cfg} {rs : List (Bytes × Bytes)} {key : Bytes}

/-- A range that does not begin with the null key and has a key does not end with the null key. -/
theorem InRange.max_ne {r : Bytes × Bytes} (h : InRange r key) (hmin : r.1.length = cfg.keyLength)
    (hnull : r.1 ≠ nullKey cfg) : r.2 ≠ nullKey cfg := by
  intro hmax
  have hle := memcmp_trans h.1 h.2
  rw [hmax, nullKey, memcmp_nulBytes_gt hmin hnull] at hle
  exact hle rfl

/-- One pass of the loop, at the offset of a table that has a range. -/
theorem getTableNumFrom_table (hfits : StructFits cfg) {fuel m : ℕ}
    (hm : 2 * cfg.keyLength * m < cfg.levelFactor) (hnull : (ix.range m).1 ≠ nullKey cfg) :
    getTableNumFrom key (fuel + 1) (2 * cfg.keyLength * m) ix
      = if InRange (ix.range m) key then .ok (ix, 2 * cfg.keyLength * m)
        else getTableNumFrom key fuel (2 * cfg.keyLength * (m + 1)) ix := by
  have htable : m < cfg.levelFactor :=
    (Nat.le_mul_of_pos_left m (Nat.mul_pos (by omega) cfg.keyLength_pos)).trans_lt hm
  have hmin : readAt ix.index (tableOffset cfg m) cfg.keyLength = .ok (ix.range m).1 :=
    readAt_minKey ix htable
  have hmax : readAt ix.index (tableOffset cfg m + cfg.keyLength) cfg.keyLength
      = .ok (ix.range m).2 := readAt_maxKey ix htable
  have hlen := length_of_readAt hmin
  rw [tableOffset_eq hfits htable] at hmin hmax
  have hnext : 2 * cfg.keyLength * m + 2 * cfg.keyLength = 2 * cfg.keyLength * (m + 1) := by ring
  have hset : ¬ memcmp (ix.range m).1 (nullKey cfg) = .eq := fun h => hnull (memcmp_eq_iff.1 h)
  rw [getTableNumFrom, if_pos hm, hmin, hmax, hnext]
  simp only [bind, Except.bind]
  rw [if_neg hset]
  by_cases hin : InRange (ix.range m) key
  · have htest : memcmp (ix.range m).1 key ≠ .gt ∧ memcmp (ix.range m).2 key ≠ .lt :=
      ⟨hin.1, fun hlt => hin.2 (memcmp_gt_iff.2 hlt)⟩
    have hmaxSet : ¬ memcmp (ix.range m).2 (nullKey cfg) = .eq :=
      fun h => hin.max_ne hlen hnull (memcmp_eq_iff.1 h)
    rw [if_pos hin, if_pos htest, if_neg hmaxSet]
    rfl
  · have htest : ¬ (memcmp (ix.range m).1 key ≠ .gt ∧ memcmp (ix.range m).2 key ≠ .lt) :=
      fun h => hin ⟨h.1, fun hgt => h.2 (memcmp_gt_iff.1 hgt)⟩
    rw [if_neg hin, if_neg htest]

/-- The loop passes the tables before the first one whose range has the key. -/
theorem getTableNumFrom_first (hfits : StructFits cfg) (h : HoldsRanges ix rs)
    (hin : firstRange rs key < rs.length) : ∀ (fuel : ℕ) {m : ℕ}, m ≤ firstRange rs key →
    cfg.levelFactor ≤ 2 * cfg.keyLength * m + fuel →
    getTableNumFrom key fuel (2 * cfg.keyLength * m) ix
      = .ok (ix, if 2 * cfg.keyLength * firstRange rs key < cfg.levelFactor
          then 2 * cfg.keyLength * firstRange rs key else uintMax) := by
  have hmiss : ∀ {m : ℕ}, m ≤ firstRange rs key → cfg.levelFactor ≤ 2 * cfg.keyLength * m →
      ¬ 2 * cfg.keyLength * firstRange rs key < cfg.levelFactor := by
    intro m hm hle
    have hmul : 2 * cfg.keyLength * m ≤ 2 * cfg.keyLength * firstRange rs key :=
      Nat.mul_le_mul_left _ hm
    omega
  intro fuel
  induction fuel with
  | zero =>
      intro m hm hfuel
      rw [if_neg (hmiss hm (by omega))]
      rfl
  | succ fuel ih =>
      intro m hm hfuel
      by_cases hlt : 2 * cfg.keyLength * m < cfg.levelFactor
      · have hget : rs[m]? = some rs[m] := List.getElem?_eq_getElem (by omega)
        have hrange := h.given m _ hget
        have hnull : (ix.range m).1 ≠ nullKey cfg := by
          rw [hrange]
          exact h.nonNull _ (List.getElem_mem _)
        rw [getTableNumFrom_table hfits hlt hnull, hrange]
        rcases Nat.lt_or_eq_of_le hm with hbefore | rfl
        · have hnot : ¬ InRange rs[m] key :=
            of_decide_eq_false (List.not_of_lt_findIdx hbefore)
          have hpos : 1 ≤ 2 * cfg.keyLength := Nat.mul_pos (by omega) cfg.keyLength_pos
          rw [if_neg hnot]
          exact ih hbefore (by rw [Nat.mul_succ]; omega)
        · have hhas : InRange rs[firstRange rs key] key :=
            of_decide_eq_true (List.findIdx_getElem (w := hin))
          rw [if_pos hhas, if_pos hlt]
      · rw [if_neg (hmiss hm (by omega)), getTableNumFrom, if_neg hlt]

/-- **What the lookup returns** for a key of one of the ranges: the offset of the first range with
the key, or nothing if that is not below the number of tables.  The index stays as it is. -/
theorem getTableNum_of_holds (hfits : StructFits cfg) (h : HoldsRanges ix rs)
    (hin : ∃ r ∈ rs, InRange r key) :
    ix.getTableNum key
      = .ok (ix, if 2 * cfg.keyLength * firstRange rs key < cfg.levelFactor
          then 2 * cfg.keyLength * firstRange rs key else uintMax) := by
  have hlt : firstRange rs key < rs.length := by
    rcases hin with ⟨r, hr, hhas⟩
    exact List.findIdx_lt_length_of_exists ⟨r, hr, by simpa using hhas⟩
  have hloop := getTableNumFrom_first hfits h hlt cfg.levelFactor (Nat.zero_le _) (by omega)
  rwa [Nat.mul_zero] at hloop

/-- **Looking up a key.**  For all lengths of keys and numbers of tables, every sparse index whose
first tables have ranges and every key in one of them: the lookup returns a table whose range has
the key if and only if the table whose number is the offset of the first such table has a range with
the key. -/
theorem rangeLookup_iff (hfits : StructFits cfg) (h : HoldsRanges ix rs)
    (hin : ∃ r ∈ rs, InRange r key) :
    LooksUp ix rs.length key
      ↔ ∃ r, rs[2 * cfg.keyLength * firstRange rs key]? = some r ∧ InRange r key := by
  have hloop := getTableNum_of_holds hfits h hin
  have hle := h.length_le
  have hfactor := cfg.levelFactor_le
  constructor
  · rintro ⟨t, ht, hlt, hhas⟩
    obtain rfl := (Prod.mk.inj (Except.ok.inj (ht.symm.trans hloop))).2
    split_ifs at hlt hhas with hoff
    · have hget := List.getElem?_eq_getElem hlt
      rw [h.given _ _ hget] at hhas
      exact ⟨_, hget, hhas⟩
    · omega
  · rintro ⟨r, hr, hhas⟩
    have hlt := (List.getElem?_eq_some_iff.1 hr).1
    rw [if_pos (by omega)] at hloop
    refine ⟨_, hloop, hlt, ?_⟩
    rw [h.given _ r hr]
    exact hhas

/-- The ranges of two tables. -/
def twoRanges : List (Bytes × Bytes) := [([97], [99]), ([100], [120])]

/-- A key of the first range is found. -/
theorem first_range_found :
    ∃ ix : SparseIndex shippedConfig, HoldsRanges ix twoRanges ∧ LooksUp ix 2 [98] := by
  have hfits : StructFits shippedConfig := by decide +kernel
  rcases insertRanges_ok hfits twoRanges (holdsRanges_fresh _) (by decide) (by decide)
    with ⟨ix, -, hix⟩
  exact ⟨ix, hix, (rangeLookup_iff hfits hix (by decide)).2 ⟨_, rfl, by decide⟩⟩

/-- For a key of the second range the lookup returns a table that has no range. -/
theorem second_range_missed : ∃ ix : SparseIndex shippedConfig,
    insertRanges twoRanges 0 (fresh shippedConfig) = .ok ix ∧ HoldsRanges ix twoRanges ∧
      (∃ r ∈ twoRanges, InRange r [110]) ∧ ix.getTableNum [110] = .ok (ix, 2) ∧
      ¬ LooksUp ix 2 [110] := by
  have hfits : StructFits shippedConfig := by decide +kernel
  rcases insertRanges_ok hfits twoRanges (holdsRanges_fresh _) (by decide) (by decide)
    with ⟨ix, hinsert, hix⟩
  have hin : ∃ r ∈ twoRanges, InRange r [110] := by decide
  have hlookup : ix.getTableNum [110] = .ok (ix, 2) := getTableNum_of_holds hfits hix hin
  refine ⟨ix, hinsert, hix, hin, hlookup, ?_⟩
  rintro ⟨t, ht, hlt, -⟩
  obtain rfl := (Prod.mk.inj (Except.ok.inj (ht.symm.trans hlookup))).2
  exact absurd hlt (by decide)

end Lookup

end SparseIndex

end RingDB
