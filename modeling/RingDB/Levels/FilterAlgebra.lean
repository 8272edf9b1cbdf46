import Mathlib.Data.Set.Card
import Mathlib.Logic.Function.Basic
import RingDB.Core.Run
import RingDB.Levels.BloomFilter

/-!
# Merging and counting filters

The vendored filter comes with functions that no insertion and no check uses: a filter is cleared,
two filters are merged into a third by `bloom_filter_union` or `bloom_filter_intersect`, and the set
bits of a filter, or of two that would be merged, are counted from a table.

The three filters of a merge are pointers, which may be equal; here they are places in a list of
objects.  `number_hashes` and `number_bits` are those of the type, for all filters alike, so of what
`__check_if_union_or_intersection_ok` compares only the hash functions can differ.  The estimate
of `elements_added` is computed in floating point and is a parameter.

* `sumBitsSetChar_eq` — the table counts the bits of a byte.
* `mergeFrom_spec` — the loop of a merge goes byte by byte, also when it writes into what it reads.
* **`bits_of_run`** — any operations on any filters do to their bits what the operations on sets do.
* **`counts_of_merges`** — what the counting functions count.
-/

namespace RingDB

open Core

namespace BloomFilter

section Model

theorem length_insertKey {cfg : Config} {hf : BloomHashFunction} {bf bf' : BloomFilter}
    {str : Bytes}
    (h : insertKey cfg hf bf str = .ok bf') : bf'.bloom.length = bf.bloom.length := by
  rcases bind_eq_ok.1 h with ⟨ks, -, h⟩
  rcases bind_eq_ok.1 h with ⟨bloom, hset, h⟩
  cases h
  exact length_setBits hset

def b2 (n : ℕ) : List ℕ := [n, n + 1, n + 1, n + 2]

def b4 (n : ℕ) : List ℕ := b2 n ++ b2 (n + 1) ++ b2 (n + 1) ++ b2 (n + 2)

def b6 (n : ℕ) : List ℕ := b4 n ++ b4 (n + 1) ++ b4 (n + 1) ++ b4 (n + 2)

def bitsSetTable : List ℕ := b6 0 ++ b6 1 ++ b6 1 ++ b6 2

/-- `__sum_bits_set_char` -/
def sumBitsSetChar (c : UInt8) : ℕ := bitsSetTable.getD c.toNat 0

/-- The loop over an array that adds up a `uint64_t`. -/
def countSetBits (bytes : Bytes) : ℕ :=
  bytes.foldl (fun res c => (res + sumBitsSetChar c) % 2 ^ 64) 0

/-- A filter with its array of `bloom_length` bytes and the address of its hash function. -/
structure FilterObject (cfg : Config) (Fn : Type) where
  filter : BloomFilter
  length_bloom : filter.bloom.length = cfg.bloomLength
  hashFunction : Fn

variable {cfg : Config} {Fn : Type}

/-- The filters that there are; a pointer is a place in the list. -/
abbrev Filters (cfg : Config) (Fn : Type) : Type := List (FilterObject cfg Fn)

namespace Filters

def deref (objs : Filters cfg Fn) (p : ℕ) : Except Fault (FilterObject cfg Fn) :=
  match objs[p]? with
  | none => .error .wildPointer
  | some bf => .ok bf

/-- `bloom_filter_clear` -/
def clear (objs : Filters cfg Fn) (p : ℕ) : Except Fault (Filters cfg Fn) := do
  let bf ← objs.deref p
  pure (objs.set p
    { filter := { bloom := bf.filter.bloom.map fun _ => 0, elementsAdded := 0 }
      length_bloom := (List.length_map _).trans bf.length_bloom
      hashFunction := bf.hashFunction })

/-- `bf->bloom[i]` -/
def byteAt (objs : Filters cfg Fn) (p i : ℕ) : Except Fault UInt8 := do
  let bf ← objs.deref p
  match bf.filter.bloom[i]? with
  | none => .error .outOfBounds
  | some c => .ok c

/-- `bf->bloom[i] = c` -/
def setByte (objs : Filters cfg Fn) (p i : ℕ) (c : UInt8) : Except Fault (Filters cfg Fn) := do
  let bf ← objs.deref p
  if i < bf.filter.bloom.length then
    pure (objs.set p
      { filter := { bf.filter with bloom := bf.filter.bloom.set i c }
        length_bloom := List.length_set.trans bf.length_bloom
        hashFunction := bf.hashFunction })
  else .error .outOfBounds

/-- `n` iterations of the loop of a merge, from byte `i` on. -/
def mergeFrom (op : UInt8 → UInt8 → UInt8) (res p q : ℕ) :
    ℕ → ℕ → Filters cfg Fn → Except Fault (Filters cfg Fn)
  | 0, _, objs => .ok objs
  | n + 1, i, objs => do
      let a ← objs.byteAt p i
      let b ← objs.byteAt q i
      let objs ← objs.setByte res i (op a b)
      mergeFrom op res p q n (i + 1) objs

/-- `bloom_filter_estimate_elements`: the estimate for the number of bits, the set bits among them
and the number of hashes. -/
def estimateElements (estimate : ℕ → ℕ → ℤ → Except Fault ℕ) (bf : FilterObject cfg Fn) :
    Except Fault ℕ :=
  estimate cfg.numberBits (countSetBits bf.filter.bloom) (asInt cfg.numberHashes)

/-- `bloom_filter_set_elements_to_estimated` -/
def setElementsToEstimated (estimate : ℕ → ℕ → ℤ → Except Fault ℕ) (objs : Filters cfg Fn) (p : ℕ) :
    Except Fault (Filters cfg Fn) := do
  let bf ← objs.deref p
  let elementsAdded ← estimateElements estimate bf
  pure (objs.set p { bf with filter := { bf.filter with elementsAdded } })

/-- `bloom_filter_add_string` for one of the filters -/
def addString (code : Fn → BloomHashFunction) (objs : Filters cfg Fn) (p : ℕ) (str : Bytes) :
    Except Fault (Filters cfg Fn) := do
  let bf ← objs.deref p
  match h : insertKey cfg (code bf.hashFunction) bf.filter str with
  | .error f => .error f
  | .ok filter =>
      .ok (objs.set p ⟨filter, (length_insertKey h).trans bf.length_bloom, bf.hashFunction⟩)

variable [DecidableEq Fn]

/-- `__check_if_union_or_intersection_ok` -/
def checkIfUnionOrIntersectionOk (res bf₁ bf₂ : FilterObject cfg Fn) : Bool :=
  !(res.hashFunction != bf₁.hashFunction || bf₁.hashFunction != bf₂.hashFunction)

/-- A merge, and whether it was one. -/
def merge (estimate : ℕ → ℕ → ℤ → Except Fault ℕ) (op : UInt8 → UInt8 → UInt8)
    (objs : Filters cfg Fn) (res p q : ℕ) : Except Fault (Filters cfg Fn × Bool) := do
  let r ← objs.deref res
  let bf₁ ← objs.deref p
  let bf₂ ← objs.deref q
  if checkIfUnionOrIntersectionOk r bf₁ bf₂ then
    let objs ← mergeFrom op res p q cfg.bloomLength 0 objs
    let objs ← setElementsToEstimated estimate objs res
    pure (objs, true)
  else pure (objs, false)

/-- `bloom_filter_union` -/
def union (estimate : ℕ → ℕ → ℤ → Except Fault ℕ) (objs : Filters cfg Fn) (res p q : ℕ) :
    Except Fault (Filters cfg Fn × Bool) :=
  merge estimate (· ||| ·) objs res p q

/-- `bloom_filter_intersect` -/
def intersect (estimate : ℕ → ℕ → ℤ → Except Fault ℕ) (objs : Filters cfg Fn) (res p q : ℕ) :
    Except Fault (Filters cfg Fn × Bool) :=
  merge estimate (· &&& ·) objs res p q

/-- The loop over two arrays that counts what a merge would set. -/
def countMerged (op : UInt8 → UInt8 → UInt8) (objs : Filters cfg Fn) (p q : ℕ) :
    Except Fault ℕ := do
  let bf₁ ← objs.deref p
  let bf₂ ← objs.deref q
  if checkIfUnionOrIntersectionOk bf₁ bf₁ bf₂ then
    pure (countSetBits (List.zipWith op bf₁.filter.bloom bf₂.filter.bloom))
  else pure 0

/-- `bloom_filter_count_union_bits_set` -/
def countUnionBitsSet (objs : Filters cfg Fn) (p q : ℕ) : Except Fault ℕ :=
  countMerged (· ||| ·) objs p q

/-- `bloom_filter_count_intersection_bits_set` -/
def countIntersectionBitsSet (objs : Filters cfg Fn) (p q : ℕ) : Except Fault ℕ :=
  countMerged (· &&& ·) objs p q

end Filters

end Model

/-! ## Counting -/

section Counting

theorem sumBitsSetChar_eq (c : UInt8) :
    sumBitsSetChar c = (List.range 8).countP (c.toNat.testBit ·) := by
  have htable : ∀ n < 256, bitsSetTable.getD n 0 = (List.range 8).countP (n.testBit ·) := by
    decide +kernel
  exact htable c.toNat c.toNat_lt

/-- The loop counts the set bits, as a `uint64_t`. -/
theorem countSetBits_eq (bytes : Bytes) : countSetBits bytes = bitCount bytes % 2 ^ 64 := by
  suffices h : ∀ res, bytes.foldl (fun res c => (res + sumBitsSetChar c) % 2 ^ 64) (res % 2 ^ 64)
      = (res + bitCount bytes) % 2 ^ 64 by
    have hzero := h 0
    rwa [Nat.zero_add, Nat.zero_mod] at hzero
  induction bytes with
  | nil => exact fun res => rfl
  | cons c bytes ih =>
      intro res
      rw [List.foldl_cons, Nat.mod_add_mod, ih, sumBitsSetChar_eq, bitCount_cons, Nat.add_assoc]

end Counting

/-! ## Merging -/

section Merging

variable {cfg : Config} {Fn : Type} {objs objs' : Filters cfg Fn} {p q res : ℕ}

namespace Filters

theorem deref_ok_iff {bf : FilterObject cfg Fn} : objs.deref p = .ok bf ↔ objs[p]? = some bf := by
  unfold deref
  cases objs[p]? with
  | none => simp
  | some bf' => simp

/-- Byte `i` of filter `p`. -/
def byteOf (objs : Filters cfg Fn) (p i : ℕ) : UInt8 :=
  ((objs[p]?.map fun bf => bf.filter.bloom).getD []).getD i 0

/-- The hash function of filter `p`. -/
def hashOf (objs : Filters cfg Fn) (p : ℕ) : Option Fn := objs[p]?.map FilterObject.hashFunction

theorem byteAt_eq {bf : FilterObject cfg Fn} (h : objs[p]? = some bf) {i : ℕ}
    (hi : i < cfg.bloomLength) : objs.byteAt p i = .ok (objs.byteOf p i) := by
  have hlt : i < bf.filter.bloom.length := by rwa [bf.length_bloom]
  have hget := List.getElem?_eq_getElem hlt
  simp [byteAt, deref_ok_iff.2 h, byteOf, h, hget, bind, Except.bind]

/-- An object is replaced. -/
theorem byteOf_set (hp : p < objs.length) (bf : FilterObject cfg Fn) (o i : ℕ) :
    byteOf (objs.set p bf) o i = if o = p then bf.filter.bloom.getD i 0 else objs.byteOf o i := by
  by_cases ho : o = p
  · subst ho
    rw [byteOf, List.getElem?_set_self hp, if_pos rfl]
    rfl
  · rw [byteOf, byteOf, List.getElem?_set_ne (Ne.symm ho), if_neg ho]

theorem hashOf_set {bf : FilterObject cfg Fn} (h : objs[p]? = some bf) {bf' : FilterObject cfg Fn}
    (hhash : bf'.hashFunction = bf.hashFunction) : hashOf (objs.set p bf') = objs.hashOf := by
  funext o
  by_cases ho : o = p
  · subst ho
    rw [hashOf, hashOf, List.getElem?_set_self (List.getElem?_eq_some_iff.1 h).1, h,
      Option.map_some,
      Option.map_some, hhash]
  · rw [hashOf, hashOf, List.getElem?_set_ne (Ne.symm ho)]

theorem byteOf_eq {bf : FilterObject cfg Fn} (h : objs[p]? = some bf) (i : ℕ) :
    objs.byteOf p i = bf.filter.bloom.getD i 0 := by
  rw [byteOf, h]
  rfl

/-- A byte that is written is there, and nothing else changes. -/
theorem setByte_spec {bf : FilterObject cfg Fn} (h : objs[p]? = some bf) {i : ℕ}
    (hi : i < cfg.bloomLength) (c : UInt8) :
    ∃ objs', objs.setByte p i c = .ok objs' ∧ objs'.length = objs.length ∧
      objs'.hashOf = objs.hashOf ∧
      ∀ o j, objs'.byteOf o j = if o = p ∧ j = i then c else objs.byteOf o j := by
  have hlen : i < bf.filter.bloom.length := by rwa [bf.length_bloom]
  have hp := (List.getElem?_eq_some_iff.1 h).1
  refine ⟨_, bind_eq_ok.2 ⟨bf, deref_ok_iff.2 h, if_pos hlen⟩, List.length_set, hashOf_set h rfl,
    fun o j => ?_⟩
  rw [byteOf_set hp]
  by_cases ho : o = p
  · subst ho
    rw [if_pos rfl, byteOf_eq h, List.getD_eq_getElem?_getD, List.getD_eq_getElem?_getD]
    by_cases hj : j = i
    · rw [hj, List.getElem?_set_self hlen, if_pos ⟨rfl, rfl⟩, Option.getD_some]
    · rw [List.getElem?_set_ne (Ne.symm hj), if_neg fun hboth => hj hboth.2]
  · rw [if_neg ho, if_neg fun hboth => ho hboth.1]

/-- **The loop of a merge** sets every byte of the result to what the operation makes of the bytes
of the two filters before the loop, whichever of the three are one filter, and changes no other. -/
theorem mergeFrom_spec (op : UInt8 → UInt8 → UInt8) (hres : res < objs.length)
    (hp : p < objs.length) (hq : q < objs.length) {n i : ℕ} (hn : i + n ≤ cfg.bloomLength) :
    ∃ objs', mergeFrom op res p q n i objs = .ok objs' ∧ objs'.length = objs.length ∧
      objs'.hashOf = objs.hashOf ∧
      ∀ o j, objs'.byteOf o j = if o = res ∧ i ≤ j ∧ j < i + n
        then op (objs.byteOf p j) (objs.byteOf q j) else objs.byteOf o j := by
  induction n generalizing objs i with
  | zero =>
      refine ⟨objs, rfl, rfl, rfl, fun o j => ?_⟩
      rw [if_neg]
      omega
  | succ n ih =>
      have hi : i < cfg.bloomLength := by omega
      have ha := byteAt_eq (List.getElem?_eq_getElem hp) hi
      have hb := byteAt_eq (List.getElem?_eq_getElem hq) hi
      rcases setByte_spec (List.getElem?_eq_getElem hres) hi
        (op (objs.byteOf p i) (objs.byteOf q i))
        with ⟨objs₁, hset, hlen₁, hhash₁, hbyte₁⟩
      have hrest := @ih objs₁ (hlen₁ ▸ hres) (hlen₁ ▸ hp) (hlen₁ ▸ hq) (i + 1) (by omega)
      rcases hrest with ⟨objs', hloop, hlen', hhash', hbyte'⟩
      refine ⟨objs', ?_, hlen'.trans hlen₁, hhash'.trans hhash₁, fun o j => ?_⟩
      · simp only [mergeFrom, ha, hb, hset, bind, Except.bind]
        exact hloop
      · -- the bytes behind `i` are as they were, also those of the result
        have hlater : ∀ r, i + 1 ≤ j → objs₁.byteOf r j = objs.byteOf r j := by
          intro r hj
          rw [hbyte₁, if_neg]
          omega
        rw [hbyte']
        by_cases hin : o = res ∧ i + 1 ≤ j ∧ j < i + 1 + n
        · rw [if_pos hin, if_pos ⟨hin.1, by omega⟩, hlater p hin.2.1, hlater q hin.2.1]
        · rw [if_neg hin, hbyte₁]
          by_cases hj : o = res ∧ j = i
          · rw [if_pos hj, if_pos ⟨hj.1, by omega⟩, hj.2]
          · rw [if_neg hj, if_neg]
            omega

/-- Bit `k` of filter `p`. -/
def bitOf (objs : Filters cfg Fn) (p k : ℕ) : Bool := (objs.byteOf p (k / 8)).toNat.testBit (k % 8)

theorem bitOf_eq {bf : FilterObject cfg Fn} (h : objs[p]? = some bf) (k : ℕ) :
    objs.bitOf p k = hasBit bf.filter.bloom k := by
  rw [bitOf, byteOf_eq h]
  rfl

theorem bitOf_set (hp : p < objs.length) (bf : FilterObject cfg Fn) (o k : ℕ) :
    bitOf (objs.set p bf) o k = if o = p then hasBit bf.filter.bloom k else objs.bitOf o k := by
  rw [bitOf, byteOf_set hp]
  split_ifs
  · rfl
  · rfl

/-- No filter has bits behind its array. -/
theorem byteOf_of_le {i : ℕ} (hi : cfg.bloomLength ≤ i) (objs : Filters cfg Fn) (p : ℕ) :
    objs.byteOf p i = 0 := by
  cases h : objs[p]? with
  | none =>
      rw [byteOf, h]
      rfl
  | some bf =>
      rw [byteOf_eq h, List.getD_eq_default]
      rwa [bf.length_bloom]

theorem setElementsToEstimated_spec {estimate : ℕ → ℕ → ℤ → Except Fault ℕ}
    (h : objs.setElementsToEstimated estimate p = .ok objs') :
    objs'.bitOf = objs.bitOf ∧ objs'.hashOf = objs.hashOf := by
  rcases bind_eq_ok.1 h with ⟨bf, hbf, h⟩
  rcases bind_eq_ok.1 h with ⟨n, -, h⟩
  cases h
  rw [deref_ok_iff] at hbf
  refine ⟨?_, hashOf_set hbf rfl⟩
  funext o k
  rw [bitOf_set (List.getElem?_eq_some_iff.1 hbf).1]
  split_ifs with ho
  · rw [ho, bitOf_eq hbf]
  · rfl

/-- The set bits of filter `p`. -/
def bitSet (objs : Filters cfg Fn) (p : ℕ) : Set ℕ := {k | objs.bitOf p k = true}

theorem mem_bitSet {k : ℕ} : k ∈ objs.bitSet p ↔ objs.bitOf p k = true := Iff.rfl

theorem clear_spec (h : objs.clear p = .ok objs') :
    objs'.hashOf = objs.hashOf ∧ objs'.bitSet = Function.update objs.bitSet p ∅ := by
  rcases bind_eq_ok.1 h with ⟨bf, hbf, h⟩
  cases h
  rw [deref_ok_iff] at hbf
  refine ⟨hashOf_set hbf rfl, ?_⟩
  have hzero : ∀ k, hasBit (bf.filter.bloom.map fun _ => 0) k = false := by
    intro k
    rw [List.map_const']
    exact hasBit_nulBytes _ _
  funext o
  ext k
  rw [mem_bitSet, bitOf_set (List.getElem?_eq_some_iff.1 hbf).1]
  by_cases ho : o = p
  · rw [ho, if_pos rfl, hzero, Function.update_self]
    simp
  · rw [if_neg ho, Function.update_of_ne ho]
    rfl

theorem addString_spec {code : Fn → BloomHashFunction} (hn : cfg.numberHashes ≤ uintMax)
    (hbits : 0 < cfg.numberBits) {str : Bytes} (h : objs.addString code p str = .ok objs') :
    objs'.hashOf = objs.hashOf ∧
      objs'.bitSet = Function.update objs.bitSet p
        (objs.bitSet p ∪ {k | ∃ fn, objs.hashOf p = some fn ∧ k ∈ bitsOf cfg (code fn) str}) := by
  rcases bind_eq_ok.1 h with ⟨bf, hbf, h⟩
  rw [deref_ok_iff] at hbf
  split at h
  · cases h
  · rename_i filter hins
    cases h
    have hhash : objs.hashOf p = some bf.hashFunction := by rw [hashOf, hbf, Option.map_some]
    rcases insertKey_ok hn hbits hins with ⟨hn', hin⟩
    rcases insertKey_of_inBounds hn' hbits hin with ⟨filter', hins', -, hbit⟩
    rw [hins] at hins'
    cases hins'
    refine ⟨hashOf_set hbf rfl, ?_⟩
    funext o
    ext k
    rw [mem_bitSet, bitOf_set (List.getElem?_eq_some_iff.1 hbf).1]
    by_cases ho : o = p
    · rw [ho, if_pos rfl, hbit, Function.update_self, ← bitOf_eq hbf]
      simp [mem_bitSet, hhash]
    · rw [if_neg ho, Function.update_of_ne ho]
      rfl

/-- The bits of an array are all below its length. -/
theorem ncard_bitSet {bf : FilterObject cfg Fn} (h : objs[p]? = some bf) :
    (objs.bitSet p).Finite ∧ (objs.bitSet p).ncard = bitCount bf.filter.bloom := by
  have hset : objs.bitSet p
      = ((List.range (8 * bf.filter.bloom.length)).filter (hasBit bf.filter.bloom)).toFinset := by
    ext k
    rw [mem_bitSet, bitOf_eq h, List.coe_toFinset, Set.mem_ofPred_eq,
      List.mem_filter]
    refine ⟨fun hk => ⟨List.mem_range.2 ?_, hk⟩, And.right⟩
    by_contra hle
    have hbyte : bf.filter.bloom.length ≤ k / 8 := by omega
    rw [hasBit, List.getD_eq_default _ _ hbyte] at hk
    simp at hk
  rw [hset]
  refine ⟨Finset.finite_toSet _, ?_⟩
  rw [Set.ncard_coe_finset, List.toFinset_card_of_nodup (List.nodup_range.filter _), bitCount,
    List.countP_eq_length_filter]

variable [DecidableEq Fn] {estimate : ℕ → ℕ → ℤ → Except Fault ℕ}

theorem check_iff {r a b : FilterObject cfg Fn} (hr : objs[res]? = some r) (ha : objs[p]? = some a)
    (hb : objs[q]? = some b) : checkIfUnionOrIntersectionOk r a b = true ↔
      objs.hashOf res = objs.hashOf p ∧ objs.hashOf p = objs.hashOf q := by
  simp [checkIfUnionOrIntersectionOk, hashOf, hr, ha, hb]

/-- What a merge does to the bits, if the filters have one hash function; otherwise it does
nothing. -/
theorem merge_spec {op : UInt8 → UInt8 → UInt8} {f : Bool → Bool → Bool} (hop : Bitwise op f)
    {done : Bool} (h : objs.merge estimate op res p q = .ok (objs', done)) :
    objs'.hashOf = objs.hashOf ∧ ∀ o k, objs'.bitOf o k =
      if o = res ∧ objs.hashOf res = objs.hashOf p ∧ objs.hashOf p = objs.hashOf q
        then f (objs.bitOf p k) (objs.bitOf q k) else objs.bitOf o k := by
  rcases bind_eq_ok.1 h with ⟨r, hr, h⟩
  rcases bind_eq_ok.1 h with ⟨a, ha, h⟩
  rcases bind_eq_ok.1 h with ⟨b, hb, h⟩
  rw [deref_ok_iff] at hr ha hb
  have hcheck := check_iff hr ha hb
  by_cases hsame : checkIfUnionOrIntersectionOk r a b = true
  · rw [if_pos hsame] at h
    rcases bind_eq_ok.1 h with ⟨objs₁, hloop, h⟩
    rcases bind_eq_ok.1 h with ⟨objs₂, helem, h⟩
    cases h
    rcases mergeFrom_spec op (List.getElem?_eq_some_iff.1 hr).1 (List.getElem?_eq_some_iff.1 ha).1
      (List.getElem?_eq_some_iff.1 hb).1 (Nat.le_of_eq (Nat.zero_add cfg.bloomLength))
      with ⟨objs₁', hloop', -, hhash, hbyte⟩
    rw [hloop] at hloop'
    cases hloop'
    rcases setElementsToEstimated_spec helem with ⟨hbit₂, hhash₂⟩
    refine ⟨hhash₂.trans hhash, fun o k => ?_⟩
    rw [hbit₂, bitOf, hbyte]
    by_cases ho : o = res
    · rw [if_pos (c := o = res ∧ objs.hashOf res = objs.hashOf p ∧ _) ⟨ho, hcheck.1 hsame⟩]
      by_cases hk : k / 8 < cfg.bloomLength
      · rw [if_pos ⟨ho, Nat.zero_le _, by omega⟩]
        exact hop _ _ _
      · have hzero := byteOf_of_le (Nat.le_of_not_lt hk) objs
        rw [if_neg (by omega), bitOf, bitOf, hzero, hzero, hzero]
        simp [hop.false_false]
    · rw [if_neg (fun hboth => ho hboth.1), if_neg (fun hboth => ho hboth.1)]
      rfl
  · rw [if_neg hsame] at h
    cases h
    refine ⟨rfl, fun o k => ?_⟩
    rw [if_neg]
    rintro ⟨-, heq⟩
    exact hsame (hcheck.2 heq)

end Filters

end Merging

/-! ## Runs -/

/-- The operations that change filters. -/
inductive FilterOp where
  | clear (p : ℕ)
  | addString (p : ℕ) (str : Bytes)
  | union (res p q : ℕ)
  | intersect (res p q : ℕ)

section Runs

variable {cfg : Config} {Fn : Type} [DecidableEq Fn] (code : Fn → BloomHashFunction)
variable (estimate : ℕ → ℕ → ℤ → Except Fault ℕ)

/-- One operation; whether the filters of a merge could be merged is not looked at. -/
def Filters.perform (objs : Filters cfg Fn) : FilterOp → Except Fault (Filters cfg Fn)
  | .clear p => objs.clear p
  | .addString p str => objs.addString code p str
  | .union res p q => do
      let (objs, _) ← objs.union estimate res p q
      pure objs
  | .intersect res p q => do
      let (objs, _) ← objs.intersect estimate res p q
      pure objs

/-- What an operation does to the sets of bits of all filters, for the hash functions that they
have. -/
def performOnSets (cfg : Config) (code : Fn → BloomHashFunction) (hashOf : ℕ → Option Fn)
    (s : ℕ → Set ℕ) : FilterOp → ℕ → Set ℕ
  | .clear p => Function.update s p ∅
  | .addString p str =>
      Function.update s p (s p ∪ {k | ∃ fn, hashOf p = some fn ∧ k ∈ bitsOf cfg (code fn) str})
  | .union res p q =>
      if hashOf res = hashOf p ∧ hashOf p = hashOf q then Function.update s res (s p ∪ s q) else s
  | .intersect res p q =>
      if hashOf res = hashOf p ∧ hashOf p = hashOf q then Function.update s res (s p ∩ s q) else s

variable {code estimate} {objs objs' : Filters cfg Fn} {p q res : ℕ}

/-- A merge goes to the sets as the operation goes bit by bit. -/
theorem merge_bitSet {op : UInt8 → UInt8 → UInt8} {f : Bool → Bool → Bool} (hop : Bitwise op f)
    {done : Bool} (h : objs.merge estimate op res p q = .ok (objs', done)) :
    objs'.hashOf = objs.hashOf ∧ objs'.bitSet =
      if objs.hashOf res = objs.hashOf p ∧ objs.hashOf p = objs.hashOf q
        then Function.update objs.bitSet res {k | f (objs.bitOf p k) (objs.bitOf q k) = true}
        else objs.bitSet := by
  rcases Filters.merge_spec hop h with ⟨hhash, hbit⟩
  refine ⟨hhash, ?_⟩
  funext o
  ext k
  rw [Filters.mem_bitSet, hbit]
  by_cases hsame : objs.hashOf res = objs.hashOf p ∧ objs.hashOf p = objs.hashOf q
  · rw [if_pos hsame]
    by_cases ho : o = res
    · rw [if_pos ⟨ho, hsame⟩, ho, Function.update_self]
      rfl
    · rw [if_neg fun hboth => ho hboth.1, Function.update_of_ne ho]
      rfl
  · rw [if_neg hsame, if_neg fun hboth => hsame hboth.2]
    rfl

/-- One operation. -/
theorem perform_spec (hn : cfg.numberHashes ≤ uintMax) (hbits : 0 < cfg.numberBits) {op : FilterOp}
    (h : objs.perform code estimate op = .ok objs') : objs'.hashOf = objs.hashOf ∧
      objs'.bitSet = performOnSets cfg code objs.hashOf objs.bitSet op := by
  cases op with
  | clear p => exact Filters.clear_spec h
  | addString p str => exact Filters.addString_spec hn hbits h
  | union res p q =>
      rcases bind_eq_ok.1 h with ⟨⟨objs₁, done⟩, hmerge, h⟩
      cases h
      have hsets := merge_bitSet bitwise_or hmerge
      simp only [Bool.or_eq_true] at hsets
      exact hsets
  | intersect res p q =>
      rcases bind_eq_ok.1 h with ⟨⟨objs₁, done⟩, hmerge, h⟩
      cases h
      have hsets := merge_bitSet bitwise_and hmerge
      simp only [Bool.and_eq_true] at hsets
      exact hsets

/-- **Filters are sets of bits.**  After every sequence of operations - filters cleared, strings
added, two filters united or intersected into a third or into one of the two, in any order - the set
bits of every filter are what the operations on sets make of the sets before: nothing, the bits of
the string in addition, the union, the intersection; and a merge of filters with different hash
functions leaves all as they are. -/
theorem bits_of_run (hn : cfg.numberHashes ≤ uintMax) (hbits : 0 < cfg.numberBits)
    {ops : List FilterOp} (h : runEvents (Filters.perform code estimate) objs ops = .ok objs') :
    objs'.bitSet = ops.foldl (performOnSets cfg code objs.hashOf) objs.bitSet := by
  induction ops generalizing objs with
  | nil =>
      cases h
      rfl
  | cons op ops ih =>
      rcases runEvents_cons_eq_ok h with ⟨objs₁, hop, hrest⟩
      rcases perform_spec hn hbits hop with ⟨hhash, hsets⟩
      rw [ih hrest, List.foldl_cons, hhash, hsets]

omit [DecidableEq Fn] in
/-- The set bits of a filter are counted, as a `uint64_t`. -/
theorem Filters.countSetBits_eq_ncard {a : FilterObject cfg Fn} (ha : objs[p]? = some a) :
    countSetBits a.filter.bloom = (objs.bitSet p).ncard % 2 ^ 64 := by
  rw [countSetBits_eq, (Filters.ncard_bitSet ha).2]

/-- The set bits of a merge that is only counted. -/
theorem countMerged_spec {op : UInt8 → UInt8 → UInt8} {f : Bool → Bool → Bool} (hop : Bitwise op f)
    {a b : FilterObject cfg Fn} (ha : objs[p]? = some a) (hb : objs[q]? = some b)
    (hsame : a.hashFunction = b.hashFunction) :
    objs.countMerged op p q
      = .ok ({k | f (objs.bitOf p k) (objs.bitOf q k) = true}.ncard % 2 ^ 64) := by
  have hlen : a.filter.bloom.length = b.filter.bloom.length := by
    rw [a.length_bloom, b.length_bloom]
  have hcheck : Filters.checkIfUnionOrIntersectionOk a a b = true := by
    simp [Filters.checkIfUnionOrIntersectionOk, hsame]
  -- a filter that holds the merged bytes
  have hmerged : (List.zipWith op a.filter.bloom b.filter.bloom).length = cfg.bloomLength := by
    rw [List.length_zipWith, ← hlen, Nat.min_self, a.length_bloom]
  obtain ⟨m, hm⟩ : ∃ m : FilterObject cfg Fn,
      m.filter.bloom = List.zipWith op a.filter.bloom b.filter.bloom :=
    ⟨⟨⟨_, 0⟩, hmerged, a.hashFunction⟩, rfl⟩
  have hget : ([m] : Filters cfg Fn)[0]? = some m := rfl
  have hbits : Filters.bitSet [m] 0 = {k | f (objs.bitOf p k) (objs.bitOf q k) = true} := by
    ext k
    rw [Filters.mem_bitSet, Filters.bitOf_eq hget, hm, hasBit_zipWith hop hlen,
      ← Filters.bitOf_eq ha, ← Filters.bitOf_eq hb]
    rfl
  have hcount := Filters.countSetBits_eq_ncard hget
  rw [hbits, hm] at hcount
  simp only [Filters.countMerged, Filters.deref_ok_iff.2 ha, Filters.deref_ok_iff.2 hb, hcheck,
    bind, Except.bind, pure, Except.pure, if_true, hcount]

/-- **What is counted.**  For any two filters with one hash function, `bloom_filter_count_set_bits`,
`bloom_filter_count_union_bits_set` and `bloom_filter_count_intersection_bits_set` return the
numbers of elements of their sets of bits, of the union and of the intersection, as 64-bit integers;
so the counts of union and intersection add up to the counts of the two. -/
theorem counts_of_merges {a b : FilterObject cfg Fn} (ha : objs[p]? = some a)
    (hb : objs[q]? = some b) (hsame : a.hashFunction = b.hashFunction) :
    ∃ united common, objs.countUnionBitsSet p q = .ok united ∧
      objs.countIntersectionBitsSet p q = .ok common ∧
      countSetBits a.filter.bloom = (objs.bitSet p).ncard % 2 ^ 64 ∧
      countSetBits b.filter.bloom = (objs.bitSet q).ncard % 2 ^ 64 ∧
      united = (objs.bitSet p ∪ objs.bitSet q).ncard % 2 ^ 64 ∧
      common = (objs.bitSet p ∩ objs.bitSet q).ncard % 2 ^ 64 ∧
      (united + common) % 2 ^ 64
        = (countSetBits a.filter.bloom + countSetBits b.filter.bloom) % 2 ^ 64 := by
  have hunion := countMerged_spec bitwise_or ha hb hsame
  have hinter := countMerged_spec bitwise_and ha hb hsame
  simp only [Bool.or_eq_true] at hunion
  simp only [Bool.and_eq_true] at hinter
  refine ⟨_, _, hunion, hinter, Filters.countSetBits_eq_ncard ha, Filters.countSetBits_eq_ncard hb,
    rfl, rfl, ?_⟩
  have hsum := Set.ncard_union_add_ncard_inter (objs.bitSet p) (objs.bitSet q)
    (Filters.ncard_bitSet ha).1 (Filters.ncard_bitSet hb).1
  rw [Filters.countSetBits_eq_ncard ha, Filters.countSetBits_eq_ncard hb, ← Nat.add_mod,
    ← Nat.add_mod, ← hsum]
  rfl

/-- A filter with the bits 0 and 2, and one with the bits 0, 8 and 9. -/
def twoFilters : Filters sixteenBits Unit :=
  [⟨⟨[5] ++ nulBytes 63, 2⟩, by decide, ()⟩, ⟨⟨[1, 3] ++ nulBytes 62, 3⟩, by decide, ()⟩]

/-- They have four bits together, and one in common. -/
theorem counts_of_two :
    twoFilters.countUnionBitsSet 0 1 = .ok 4 ∧ twoFilters.countIntersectionBitsSet 0 1 = .ok 1 ∧
      (twoFilters.bitSet 0).ncard % 2 ^ 64 = 2 ∧ (twoFilters.bitSet 1).ncard % 2 ^ 64 = 3 ∧
      (twoFilters.bitSet 0 ∪ twoFilters.bitSet 1).ncard % 2 ^ 64 = 4 ∧
      (twoFilters.bitSet 0 ∩ twoFilters.bitSet 1).ncard % 2 ^ 64 = 1 := by
  have hunion : twoFilters.countUnionBitsSet 0 1 = .ok 4 := by decide +kernel
  have hinter : twoFilters.countIntersectionBitsSet 0 1 = .ok 1 := by decide +kernel
  have hzero : twoFilters[0]? = some _ := rfl
  have hone : twoFilters[1]? = some _ := rfl
  rcases counts_of_merges hzero hone rfl with ⟨united, common, hu, hc, ha, hb, hunited, hcommon, -⟩
  cases hunion.symm.trans hu
  cases hinter.symm.trans hc
  exact ⟨hunion, hinter, ha.symm.trans (by decide +kernel), hb.symm.trans (by decide +kernel),
    hunited.symm, hcommon.symm⟩

/-- Three new filters with the one hash function. -/
def threeFilters : Filters sixteenBits Unit :=
  List.replicate 3 ⟨new sixteenBits, length_nulBytes _, ()⟩

/-- One string goes into each of two filters; the third is made their union. -/
theorem bits_of_union : ∃ objs' : Filters sixteenBits Unit,
    runEvents (Filters.perform (fun _ => defaultHashFunction) fun _ ones _ => .ok ones) threeFilters
      [.addString 0 [1], .addString 1 [2], .union 2 0 1] = .ok objs' ∧
    objs'.bitSet = [FilterOp.addString 0 [1], .addString 1 [2], .union 2 0 1].foldl
      (performOnSets sixteenBits (fun _ => defaultHashFunction) threeFilters.hashOf)
      threeFilters.bitSet := by
  have hrun : okAnd (runEvents
      (Filters.perform (fun _ => defaultHashFunction) fun _ ones _ => .ok ones) threeFilters
      [.addString 0 [1], .addString 1 [2], .union 2 0 1]) (fun _ => true) = true := by
    decide +kernel
  rcases okAnd_iff.1 hrun with ⟨objs', hobjs', -⟩
  exact ⟨objs', hobjs', bits_of_run (by decide) (by decide) hobjs'⟩

end Runs

end BloomFilter

end RingDB
