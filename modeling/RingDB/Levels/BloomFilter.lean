import Mathlib.Algebra.Order.BigOperators.Group.List
import RingDB.Core.Bitmap
import RingDB.Levels.Filter

/-!
# The vendored Bloom filter, byte by byte

`Levels.Filter` keeps the positions of the set bits and the one hash function that the program
installs.  Here the array is an array of bytes, the hash function is any, and the sum of
`bloom_filter_check_string_alt` is an `int` that can overflow.  `Represents` ties the two together:
an answer of this filter is the answer of that one.

The iterations of both loops run in parallel.  Their updates are atomic and commute, so the loops
are written in the order of the hashes.

`contains_inserted_iff` says for which keys the check finds what was inserted.  It adds up masked
bytes, `2 ^ (k % 8)` for a set bit `k`, and compares the sum with the *number* of hashes.
-/

namespace RingDB

open Core

/-- `BloomHashFunction`: as many hashes of a string as asked for. -/
structure BloomHashFunction where
  hashes : ℤ → Bytes → List UInt64
  length_hashes : ∀ n str, (hashes n str).length = n.toNat

theorem length_defaultHash (n : ℤ) (str : Bytes) : (defaultHash n.toNat str).length = n.toNat := by
  simp [defaultHash]

/-- The function that `bloom_filter_set_hash_function` installs for `nullptr`. -/
def defaultHashFunction : BloomHashFunction where
  hashes n str := defaultHash n.toNat str
  length_hashes := length_defaultHash

structure BloomFilter where
  bloom : Bytes
  elementsAdded : ℕ

namespace BloomFilter

section Model

variable (cfg : Config) (hf : BloomHashFunction)

/-- The constructor. -/
def new : BloomFilter where
  bloom := nulBytes cfg.bloomLength
  elementsAdded := 0

/-- `hashes[i] % number_bits` for one of the hashes of `bloom_filter_calculate_hashes`. -/
def place (str : Bytes) (i : ℕ) : Except Fault ℕ :=
  match (hf.hashes (asInt cfg.numberHashes) str)[i]? with
  | none => .error .outOfBounds
  | some h => if cfg.numberBits = 0 then .error .divByZero else .ok (h.toNat % cfg.numberBits)

/-- The places that the loops over `number_hashes` visit. -/
def places (str : Bytes) : Except Fault (List ℕ) :=
  (List.range cfg.numberHashes).mapM (place cfg hf str)

/-- `Filter::insert_key` and `bloom_filter_add_string` -/
def insertKey (bf : BloomFilter) (str : Bytes) : Except Fault BloomFilter := do
  let ks ← places cfg hf str
  let bloom ← setBits bf.bloom ks
  pure { bloom, elementsAdded := (bf.elementsAdded + 1) % 2 ^ 64 }

/-- The loop of `bloom_filter_check_string_alt`, with `r` so far. -/
def sumBits (bloom : Bytes) : List ℕ → ℕ → Except Fault ℕ
  | [], r => .ok r
  | k :: ks, r => do
      let c ← maskBit bloom k
      if r + c ≤ intMax then sumBits bloom ks (r + c) else .error .overflow

/-- `Filter::prob_contains_key` and `bloom_filter_check_string` -/
def probContainsKey (bf : BloomFilter) (str : Bytes) : Except Fault Bool := do
  let ks ← places cfg hf str
  let r ← sumBits bf.bloom ks 0
  pure (r == cfg.numberHashes)

/-- The filter after a sequence of insertions. -/
def insertKeys (bf : BloomFilter) (strs : List Bytes) : Except Fault BloomFilter :=
  strs.foldlM (insertKey cfg hf) bf

end Model

section Places

variable {cfg : Config} {hf : BloomHashFunction} {str : Bytes}

/-- The bits of a string, without the checks. -/
def bitsOf (cfg : Config) (hf : BloomHashFunction) (str : Bytes) : List ℕ :=
  (hf.hashes cfg.numberHashes str).map fun h => h.toNat % cfg.numberBits

theorem length_bitsOf : (bitsOf cfg hf str).length = cfg.numberHashes := by
  simp [bitsOf, hf.length_hashes]

theorem place_of_lt {i : ℕ} (hn : cfg.numberHashes ≤ intMax) (hbits : 0 < cfg.numberBits)
    (hi : i < (bitsOf cfg hf str).length) : place cfg hf str i = .ok ((bitsOf cfg hf str)[i]) := by
  have hi' : i < (hf.hashes cfg.numberHashes str).length := by simpa [bitsOf] using hi
  simp [place, asInt, hn, hbits.ne', bitsOf, List.getElem?_eq_getElem hi']

/-- A loop that cannot fail collects what its iterations yield. -/
theorem mapM_of_ok {α β : Type} {f : α → Except Fault β} {g : α → β} {l : List α}
    (h : ∀ a ∈ l, f a = .ok (g a)) : l.mapM f = .ok (l.map g) := by
  induction l with
  | nil => rfl
  | cons a l ih =>
      have htail := ih fun b hb => h b (List.mem_cons_of_mem _ hb)
      rw [List.mapM_cons]
      exact bind_eq_ok.2 ⟨g a, h a (by simp), bind_eq_ok.2 ⟨l.map g, htail, rfl⟩⟩

theorem places_of_le (hn : cfg.numberHashes ≤ intMax) (hbits : 0 < cfg.numberBits) :
    places cfg hf str = .ok (bitsOf cfg hf str) := by
  have hrange : (List.range cfg.numberHashes).map ((bitsOf cfg hf str).getD · 0)
      = bitsOf cfg hf str := by
    refine List.ext_getElem (by simp [length_bitsOf]) fun i _ hi => ?_
    simp [List.getElem?_eq_getElem hi]
  rw [← hrange]
  refine mapM_of_ok fun i hi => ?_
  have hlt : i < (bitsOf cfg hf str).length := by simpa [length_bitsOf] using hi
  rw [place_of_lt hn hbits hlt, List.getD_eq_getElem _ _ hlt]

/-- A number of hashes that is negative as an `int` leaves the loops without hashes to read. -/
theorem places_of_gt {ks : List ℕ} (hn : ¬ cfg.numberHashes ≤ intMax)
    (hn' : cfg.numberHashes ≤ uintMax) : places cfg hf str ≠ .ok ks := by
  intro h
  have hnone : (hf.hashes (asInt cfg.numberHashes) str)[0]? = none := by
    rw [List.getElem?_eq_none_iff, hf.length_hashes, asInt, if_neg hn]
    simp only [uintMax] at hn'
    omega
  rcases Nat.exists_eq_succ_of_ne_zero (n := cfg.numberHashes) (by omega) with ⟨m, hm⟩
  rw [places, hm, List.range_succ_eq_map, List.mapM_cons] at h
  rcases bind_eq_ok.1 h with ⟨k, hk, -⟩
  simp only [place, hnone] at hk
  cases hk

end Places

section Contents

variable {cfg : Config} {hf : BloomHashFunction} {str : Bytes} {bf bf' : BloomFilter}

/-- Every bit of the string has a byte in an array of `n` bytes. -/
def InBounds (cfg : Config) (hf : BloomHashFunction) (n : ℕ) (str : Bytes) : Prop :=
  ∀ k ∈ bitsOf cfg hf str, k / 8 < n

/-- An array with a bit for every remainder has one for every bit of every string. -/
theorem inBounds_of_room (hbits : 0 < cfg.numberBits) {n : ℕ} (hroom : cfg.numberBits ≤ 8 * n)
    (hf : BloomHashFunction) (str : Bytes) : InBounds cfg hf n str := by
  intro k hk
  rcases List.mem_map.1 hk with ⟨hash, -, rfl⟩
  have hlt := Nat.mod_lt hash.toNat hbits
  omega

theorem insertKey_of_inBounds (hn : cfg.numberHashes ≤ intMax) (hbits : 0 < cfg.numberBits)
    (hin : InBounds cfg hf bf.bloom.length str) :
    ∃ bf', insertKey cfg hf bf str = .ok bf' ∧ bf'.bloom.length = bf.bloom.length ∧
      ∀ j, hasBit bf'.bloom j = (hasBit bf.bloom j || decide (j ∈ bitsOf cfg hf str)) := by
  rcases setBits_of_lt hin with ⟨bloom, hset, hlen, hbit⟩
  exact ⟨_, bind_eq_ok.2 ⟨_, places_of_le hn hbits, bind_eq_ok.2 ⟨bloom, hset, rfl⟩⟩, hlen, hbit⟩

theorem insertKey_ok (hn' : cfg.numberHashes ≤ uintMax) (hbits : 0 < cfg.numberBits)
    (h : insertKey cfg hf bf str = .ok bf') :
    cfg.numberHashes ≤ intMax ∧ InBounds cfg hf bf.bloom.length str := by
  rcases bind_eq_ok.1 h with ⟨ks, hks, hrest⟩
  by_cases hn : cfg.numberHashes ≤ intMax
  · rw [places_of_le hn hbits] at hks
    cases hks
    rcases bind_eq_ok.1 hrest with ⟨bloom, hset, -⟩
    exact ⟨hn, setBits_ok hset⟩
  · exact absurd hks (places_of_gt hn hn')

/-- Strings whose bits have bytes can be inserted, and then the bits of all of them are set. -/
theorem insertKeys_of_inBounds (hn : cfg.numberHashes ≤ intMax) (hbits : 0 < cfg.numberBits) :
    ∀ {strs : List Bytes} {bf : BloomFilter},
      (∀ s ∈ strs, InBounds cfg hf bf.bloom.length s) →
      ∃ bf', insertKeys cfg hf bf strs = .ok bf' ∧ bf'.bloom.length = bf.bloom.length ∧
        ∀ s ∈ strs, ∀ k ∈ bitsOf cfg hf s, hasBit bf'.bloom k = true := by
  -- the bits that are set already are carried along in the induction
  suffices h : ∀ {strs : List Bytes} {bf : BloomFilter},
      (∀ s ∈ strs, InBounds cfg hf bf.bloom.length s) →
      ∃ bf', insertKeys cfg hf bf strs = .ok bf' ∧ bf'.bloom.length = bf.bloom.length ∧
        (∀ j, hasBit bf.bloom j = true → hasBit bf'.bloom j = true) ∧
        ∀ s ∈ strs, ∀ k ∈ bitsOf cfg hf s, hasBit bf'.bloom k = true by
    intro strs bf hin
    rcases h hin with ⟨bf', hins, hlen, -, hall⟩
    exact ⟨bf', hins, hlen, hall⟩
  intro strs
  induction strs with
  | nil =>
      intro bf _
      exact ⟨bf, rfl, rfl, fun _ h => h, by simp⟩
  | cons s strs ih =>
      intro bf hin
      rcases insertKey_of_inBounds hn hbits (hin s (by simp)) with ⟨bf₁, hins₁, hlen₁, hbit₁⟩
      have hin₁ : ∀ s ∈ strs, InBounds cfg hf bf₁.bloom.length s := by
        intro s' hs'
        rw [hlen₁]
        exact hin s' (List.mem_cons_of_mem _ hs')
      rcases ih hin₁ with ⟨bf₂, hins₂, hlen₂, hold₂, hall₂⟩
      refine ⟨bf₂, ?_, hlen₂.trans hlen₁, ?_, ?_⟩
      · rw [insertKeys, List.foldlM_cons]
        exact bind_eq_ok.2 ⟨bf₁, hins₁, hins₂⟩
      · intro j hj
        exact hold₂ j (by simp [hbit₁, hj])
      · intro s' hs' k hk
        rcases List.mem_cons.1 hs' with rfl | hs'
        · exact hold₂ k (by simp [hbit₁, hk])
        · exact hall₂ s' hs' k hk

/-- Nothing else can be inserted. -/
theorem insertKeys_ok (hn' : cfg.numberHashes ≤ uintMax) (hbits : 0 < cfg.numberBits) :
    ∀ {strs : List Bytes} {bf bf' : BloomFilter}, insertKeys cfg hf bf strs = .ok bf' →
      ∀ s ∈ strs, cfg.numberHashes ≤ intMax ∧ InBounds cfg hf bf.bloom.length s := by
  intro strs
  induction strs with
  | nil => simp
  | cons s strs ih =>
      intro bf bf' h
      rw [insertKeys, List.foldlM_cons] at h
      rcases bind_eq_ok.1 h with ⟨bf₁, hins₁, hrest⟩
      have hs := insertKey_ok hn' hbits hins₁
      rcases insertKey_of_inBounds hs.1 hbits hs.2 with ⟨bf₁', hins₁', hlen₁, -⟩
      rw [hins₁] at hins₁'
      cases hins₁'
      intro s' hs'
      rcases List.mem_cons.1 hs' with rfl | hs'
      · exact hs
      · rw [← hlen₁]
        exact ih hrest s' hs'

end Contents

section Sum

/-- The sum of the place values of the bits. -/
def placeValues (ks : List ℕ) : ℕ := (ks.map fun k => 2 ^ (k % 8)).sum

@[simp] theorem placeValues_cons (k : ℕ) (ks : List ℕ) :
    placeValues (k :: ks) = 2 ^ (k % 8) + placeValues ks := by simp [placeValues]

/-- Over bits that are all set the loop adds up their place values, as long as an `int` holds
them. -/
theorem sumBits_of_set {bloom : Bytes} : ∀ {ks : List ℕ} {r : ℕ}, r ≤ intMax →
    (∀ k ∈ ks, k / 8 < bloom.length) → (∀ k ∈ ks, hasBit bloom k = true) →
    sumBits bloom ks r
      = if r + placeValues ks ≤ intMax then .ok (r + placeValues ks) else .error .overflow := by
  intro ks
  induction ks with
  | nil =>
      intro r hr _ _
      have hsum : r + placeValues [] = r := by simp [placeValues]
      rw [hsum, if_pos hr, sumBits]
  | cons k ks ih =>
      intro r hr hin hset
      have hmask := maskBit_of_lt (hin k (by simp))
      rw [hset k (by simp), if_pos rfl] at hmask
      simp only [sumBits, hmask, bind, Except.bind, placeValues_cons, ← Nat.add_assoc]
      by_cases hle : r + 2 ^ (k % 8) ≤ intMax
      · rw [if_pos hle]
        exact ih hle (fun j hj => hin j (List.mem_cons_of_mem _ hj))
          fun j hj => hset j (List.mem_cons_of_mem _ hj)
      · rw [if_neg hle, if_neg (by omega)]

/-- Every place value is at least one, so the sum is the number of bits only if all of them are the
lowest bits of their bytes. -/
theorem placeValues_spec (ks : List ℕ) :
    ks.length ≤ placeValues ks ∧ (placeValues ks = ks.length ↔ ∀ k ∈ ks, 8 ∣ k) := by
  induction ks with
  | nil => simp [placeValues]
  | cons k ks ih =>
      rcases ih with ⟨hle, hiff⟩
      have hone : 1 ≤ 2 ^ (k % 8) := Nat.one_le_two_pow
      have heq : 2 ^ (k % 8) = 1 ↔ 8 ∣ k := by
        rw [Nat.pow_eq_one, Nat.dvd_iff_mod_eq_zero]
        omega
      simp only [placeValues_cons, List.length_cons, List.forall_mem_cons, ← hiff, ← heq]
      omega

end Sum

section Membership

variable {cfg : Config} {hf : BloomHashFunction} {str : Bytes} {bf : BloomFilter}

/-- The check of a string whose bits are all set. -/
theorem probContainsKey_of_set (hn : cfg.numberHashes ≤ intMax) (hbits : 0 < cfg.numberBits)
    (hin : InBounds cfg hf bf.bloom.length str)
    (hset : ∀ k ∈ bitsOf cfg hf str, hasBit bf.bloom k = true) :
    probContainsKey cfg hf bf str
      = if placeValues (bitsOf cfg hf str) ≤ intMax then
          .ok (decide (∀ k ∈ bitsOf cfg hf str, 8 ∣ k))
        else .error .overflow := by
  have hsum := sumBits_of_set (r := 0) (Nat.zero_le _) hin hset
  have hspec := (placeValues_spec (bitsOf cfg hf str)).2
  rw [length_bitsOf] at hspec
  simp only [probContainsKey, places_of_le hn hbits, bind, Except.bind, hsum, Nat.zero_add]
  split_ifs with hle
  · simp only [pure, Except.pure, beq_eq_decide, hspec]
  · rfl

/-- A key that was inserted, whenever that was, is found if and only if the hash function was asked
for a number of hashes that an `int` holds, all bits of all inserted keys lie inside the array, and
every bit of the key is the lowest bit of its byte. -/
theorem contains_inserted_iff (cfg : Config) (hf : BloomHashFunction)
    (hbits : 0 < cfg.numberBits) (hn : cfg.numberHashes ≤ uintMax) {keys : List Bytes} {key : Bytes}
    (hkey : key ∈ keys) :
    (insertKeys cfg hf (new cfg) keys >>= fun bf => probContainsKey cfg hf bf key) = .ok true
      ↔ cfg.numberHashes ≤ intMax ∧ (∀ k ∈ keys, InBounds cfg hf cfg.bloomLength k) ∧
        ∀ bit ∈ bitsOf cfg hf key, 8 ∣ bit := by
  have hlength : (new cfg).bloom.length = cfg.bloomLength := length_nulBytes _
  constructor
  · intro h
    rcases bind_eq_ok.1 h with ⟨bf, hins, hcheck⟩
    have hall := insertKeys_ok hn hbits hins
    have hn' := (hall key hkey).1
    rcases insertKeys_of_inBounds hn' hbits (fun s hs => (hall s hs).2)
      with ⟨bf', hins', hlen, hset⟩
    rw [hins] at hins'
    cases hins'
    rw [probContainsKey_of_set hn' hbits (hlen ▸ (hall key hkey).2) (hset key hkey)] at hcheck
    refine ⟨hn', fun k hk => hlength ▸ (hall k hk).2, ?_⟩
    split_ifs at hcheck
    simpa using hcheck
  · rintro ⟨hn', hin, hlow⟩
    have hin' : ∀ s ∈ keys, InBounds cfg hf (new cfg).bloom.length s := by
      rw [hlength]
      exact hin
    rcases insertKeys_of_inBounds hn' hbits hin' with ⟨bf, hins, hlen, hset⟩
    refine bind_eq_ok.2 ⟨bf, hins, ?_⟩
    have hsum := (placeValues_spec (bitsOf cfg hf key)).2.2 hlow
    rw [length_bitsOf] at hsum
    rw [probContainsKey_of_set hn' hbits (hlen ▸ hin' key hkey) (hset key hkey),
      if_pos (hsum ▸ hn')]
    simpa using hlow

/-- Two bytes' worth of bits, and one hash. -/
def sixteenBits : Config := { shippedConfig with numberHashes := 1, numberBits := 16 }

/-- The key `"e"` has its one bit at the bottom of a byte. -/
theorem contains_inserted_low :
    (insertKeys sixteenBits defaultHashFunction (new sixteenBits) [[1], [101], [2]]
      >>= fun bf => probContainsKey sixteenBits defaultHashFunction bf [101]) = .ok true :=
  (contains_inserted_iff sixteenBits defaultHashFunction (by decide) (by decide) (by decide)).2
    ⟨by decide, by unfold InBounds; decide +kernel, by decide +kernel⟩

/-- As shipped, the filter does not find the key `"\x01"` that was just inserted: the masked bytes
of its seven bits add up to more than seven. -/
theorem shipped_forgets_one :
    (insertKeys shippedConfig defaultHashFunction (new shippedConfig) [[1]]
      >>= fun bf => probContainsKey shippedConfig defaultHashFunction bf [1]) = .ok false := by
  have hin : InBounds shippedConfig defaultHashFunction shippedConfig.bloomLength [1] := by
    unfold InBounds
    decide +kernel
  have hin' : ∀ s ∈ [([1] : Bytes)],
      InBounds shippedConfig defaultHashFunction (new shippedConfig).bloom.length s := by
    rw [show (new shippedConfig).bloom.length = _ from length_nulBytes _]
    simpa using hin
  rcases insertKeys_of_inBounds (by decide) (by decide) hin' with ⟨bf, hins, hlen, hset⟩
  refine bind_eq_ok.2 ⟨bf, hins, ?_⟩
  rw [probContainsKey_of_set (by decide) (by decide) (hlen ▸ hin' [1] (by simp))
    (hset [1] (by simp)), if_pos (by decide +kernel)]
  exact congrArg _ (by decide +kernel)

end Membership

/-! ## The filter of the levels -/

section Represents

variable {cfg : Config} {bf bf' : BloomFilter} {f : Filter} {str : Bytes}

/-- The positions that the levels keep are those of the set bits. -/
structure Represents (cfg : Config) (bf : BloomFilter) (f : Filter) : Prop where
  length : bf.bloom.length = cfg.bloomLength
  bits : ∀ k, hasBit bf.bloom k = decide (k ∈ f.setBits)
  elementsAdded : bf.elementsAdded = f.elementsAdded

theorem represents_new (cfg : Config) : Represents cfg (new cfg) {} where
  length := length_nulBytes _
  bits k := by simp [new]
  elementsAdded := rfl

theorem levelBits_of_inBounds (hbits : 0 < cfg.numberBits)
    (hin : InBounds cfg defaultHashFunction cfg.bloomLength str) :
    Filter.bitsOf cfg str = .ok (bitsOf cfg defaultHashFunction str) := by
  refine mapM_of_ok fun h hh => ?_
  have hlt : h.toNat % cfg.numberBits / 8 < cfg.bloomLength :=
    hin _ (List.mem_map.2 ⟨h, hh, rfl⟩)
  rw [if_neg hbits.ne', if_pos hlt]

/-- An insertion into the byte array is one into the positions. -/
theorem Represents.insertKey (h : Represents cfg bf f) (hn : cfg.numberHashes ≤ uintMax)
    (hbits : 0 < cfg.numberBits)
    (hins : insertKey cfg defaultHashFunction bf str = .ok bf') :
    ∃ f', f.insertKey cfg str = .ok f' ∧ Represents cfg bf' f' := by
  rcases insertKey_ok hn hbits hins with ⟨hn', hin⟩
  rcases bind_eq_ok.1 hins with ⟨ks, hks, hrest⟩
  rw [places_of_le hn' hbits] at hks
  cases hks
  rcases setBits_of_lt hin with ⟨bloom, hset, hlen, hbit⟩
  rcases bind_eq_ok.1 hrest with ⟨bloom', hset', hbf⟩
  rw [hset] at hset'
  cases hset'
  cases hbf
  refine ⟨_, bind_eq_ok.2 ⟨_, levelBits_of_inBounds hbits (h.length ▸ hin), rfl⟩, ?_⟩
  exact
    { length := hlen.trans h.length
      bits := fun k => by simp [hbit, h.bits]
      elementsAdded := by simp [h.elementsAdded] }

/-- The sum over the byte array is the one over the positions. -/
theorem Represents.sumBits (h : Represents cfg bf f) : ∀ {ks : List ℕ} {r t : ℕ},
    sumBits bf.bloom ks r = .ok t →
      t = r + (ks.map f.checkBit).sum ∧ ∀ k ∈ ks, k / 8 < cfg.bloomLength := by
  intro ks
  induction ks with
  | nil =>
      intro r t ht
      cases ht
      simp
  | cons k ks ih =>
      intro r t ht
      rcases bind_eq_ok.1 ht with ⟨c, hc, hrest⟩
      have hk : k / 8 < bf.bloom.length := by
        by_contra hk
        have hnone : bf.bloom[k / 8]? = none := List.getElem?_eq_none (Nat.le_of_not_lt hk)
        simp [maskBit, hnone] at hc
      have hcheck : maskBit bf.bloom k = .ok (f.checkBit k) := by
        simp [maskBit_of_lt hk, Filter.checkBit, h.bits]
      rw [hcheck] at hc
      cases hc
      split_ifs at hrest
      rcases ih hrest with ⟨hsum, hin⟩
      refine ⟨?_, ?_⟩
      · rw [hsum, List.map_cons, List.sum_cons, Nat.add_assoc]
      · intro j hj
        rcases List.mem_cons.1 hj with rfl | hj
        · exact h.length ▸ hk
        · exact hin j hj

/-- What the check of the byte array answers, the levels' filter answers too. -/
theorem Represents.probContainsKey {r : Bool} (h : Represents cfg bf f)
    (hn : cfg.numberHashes ≤ uintMax) (hbits : 0 < cfg.numberBits)
    (hcheck : probContainsKey cfg defaultHashFunction bf str = .ok r) :
    f.probContainsKey cfg str = .ok r := by
  rcases bind_eq_ok.1 hcheck with ⟨ks, hks, hrest⟩
  rcases bind_eq_ok.1 hrest with ⟨t, ht, hr⟩
  by_cases hn' : cfg.numberHashes ≤ intMax
  · rw [places_of_le hn' hbits] at hks
    cases hks
    rcases h.sumBits ht with ⟨hsum, hin⟩
    cases hr
    refine bind_eq_ok.2 ⟨_, levelBits_of_inBounds hbits hin, ?_⟩
    rw [hsum, Nat.zero_add]
    rfl
  · exact absurd hks (places_of_gt hn' hn)

end Represents

end BloomFilter

end RingDB
