import Mathlib.Data.Nat.Bitwise
import RingDB.Core.AnyOrder

/-!
# Bits of a byte array

Bit `k` of an array is bit `k % 8` of its byte `k / 8`.  `setBit` and `maskBit` are what
`a[k / 8] |= 1 << (k % 8)` and `a[k / 8] & (1 << (k % 8))` do, with the access checked; the second
one yields the masked byte and not a truth value.  `hasBit` is the view of the array that the
lemmas are stated in.
-/

namespace Core

/-- Bit `k` of `a`; behind the end there are no bits. -/
def hasBit (a : Bytes) (k : ℕ) : Bool := (a.getD (k / 8) 0).toNat.testBit (k % 8)

/-- The byte that holds bit `j` alone. -/
def bitMask (j : ℕ) : UInt8 := UInt8.ofNat (2 ^ j)

def setBit (a : Bytes) (k : ℕ) : Except Fault Bytes :=
  match a[k / 8]? with
  | none => .error .outOfBounds
  | some c => .ok (a.set (k / 8) (c ||| bitMask (k % 8)))

def maskBit (a : Bytes) (k : ℕ) : Except Fault ℕ :=
  match a[k / 8]? with
  | none => .error .outOfBounds
  | some c => .ok (c &&& bitMask (k % 8)).toNat

/-- The bits of `ks` set one after the other. -/
def setBits (a : Bytes) (ks : List ℕ) : Except Fault Bytes := ks.foldlM setBit a

theorem toNat_bitMask {j : ℕ} (hj : j < 8) : (bitMask j).toNat = 2 ^ j :=
  UInt8.toNat_ofNat_of_lt' (Nat.pow_lt_pow_right (by decide) hj : 2 ^ j < 2 ^ 8)

@[simp] theorem hasBit_nulBytes (n k : ℕ) : hasBit (nulBytes n) k = false := by
  simp [hasBit, nulBytes, List.getD_eq_getElem?_getD, List.getElem?_replicate]
  split_ifs <;> simp

theorem hasBit_set {a : Bytes} {i k : ℕ} {c : UInt8} (hi : i < a.length) :
    hasBit (a.set i c) k = if k / 8 = i then c.toNat.testBit (k % 8) else hasBit a k := by
  simp only [hasBit, List.getD_eq_getElem?_getD, List.getElem?_set]
  by_cases hk : k / 8 = i
  · rw [if_pos hk, if_pos hk.symm, if_pos hi, Option.getD_some]
  · rw [if_neg hk, if_neg (Ne.symm hk)]

/-- A set bit is set, and no other bit changes. -/
theorem setBit_of_lt {a : Bytes} {k : ℕ} (hk : k / 8 < a.length) :
    ∃ b, setBit a k = .ok b ∧ b.length = a.length ∧
      ∀ j, hasBit b j = (hasBit a j || decide (j = k)) := by
  have hget := List.getElem?_eq_getElem hk
  refine ⟨a.set (k / 8) (a[k / 8] ||| bitMask (k % 8)), by simp only [setBit, hget],
    List.length_set .., fun j => ?_⟩
  rw [hasBit_set hk]
  split_ifs with hj
  · have hbyte : hasBit a j = (a[k / 8]).toNat.testBit (j % 8) := by
      simp [hasBit, List.getD_eq_getElem?_getD, hj, hget]
    have hmod : (k % 8 = j % 8) ↔ j = k := by omega
    simp [hbyte, UInt8.toNat_or, toNat_bitMask (Nat.mod_lt k (by decide)), Nat.testBit_two_pow,
      hmod]
  · have hne : j ≠ k := by
      rintro rfl
      exact hj rfl
    simp [hne]

theorem setBit_ok {a b : Bytes} {k : ℕ} (h : setBit a k = .ok b) : k / 8 < a.length := by
  unfold setBit at h
  split at h
  · cases h
  · rename_i c hget
    exact (List.getElem?_eq_some_iff.1 hget).1

/-- The masked byte is the place value of the bit, or zero. -/
theorem maskBit_of_lt {a : Bytes} {k : ℕ} (hk : k / 8 < a.length) :
    maskBit a k = .ok (if hasBit a k then 2 ^ (k % 8) else 0) := by
  have hget := List.getElem?_eq_getElem hk
  have hbyte : hasBit a k = (a[k / 8]).toNat.testBit (k % 8) := by
    simp [hasBit, List.getD_eq_getElem?_getD, hget]
  simp only [maskBit, hget, UInt8.toNat_and, toNat_bitMask (Nat.mod_lt k (by decide)),
    Nat.and_two_pow, hbyte]
  cases (a[k / 8]).toNat.testBit (k % 8) <;> simp

/-- Bits inside the array can be set, and then these bits are set in addition to the old ones. -/
theorem setBits_of_lt {ks : List ℕ} : ∀ {a : Bytes}, (∀ k ∈ ks, k / 8 < a.length) →
    ∃ b, setBits a ks = .ok b ∧ b.length = a.length ∧
      ∀ j, hasBit b j = (hasBit a j || decide (j ∈ ks)) := by
  induction ks with
  | nil =>
      intro a _
      exact ⟨a, rfl, rfl, by simp⟩
  | cons k ks ih =>
      intro a hks
      rcases setBit_of_lt (hks k (by simp)) with ⟨b, hb, hlen, hbits⟩
      have hrest : ∀ k ∈ ks, k / 8 < b.length := by
        intro k' hk'
        rw [hlen]
        exact hks k' (List.mem_cons_of_mem _ hk')
      rcases ih hrest with ⟨c, hc, hlen', hbits'⟩
      refine ⟨c, ?_, hlen'.trans hlen, fun j => ?_⟩
      · rw [setBits, List.foldlM_cons]
        exact bind_eq_ok.2 ⟨b, hb, hc⟩
      · simp [hbits', hbits, Bool.or_assoc]

theorem setBits_ok {ks : List ℕ} : ∀ {a b : Bytes}, setBits a ks = .ok b →
    ∀ k ∈ ks, k / 8 < a.length := by
  induction ks with
  | nil => simp
  | cons k ks ih =>
      intro a b h
      rw [setBits, List.foldlM_cons] at h
      rcases bind_eq_ok.1 h with ⟨c, hc, hrest⟩
      have hk := setBit_ok hc
      rcases setBit_of_lt hk with ⟨c', hc', hlen, -⟩
      rw [hc] at hc'
      cases hc'
      intro k' hk'
      rcases List.mem_cons.1 hk' with rfl | hk'
      · exact hk
      · rw [← hlen]
        exact ih hrest k' hk'

theorem length_setBits {ks : List ℕ} {a b : Bytes} (h : setBits a ks = .ok b) :
    b.length = a.length := by
  rcases setBits_of_lt (setBits_ok h) with ⟨b', hb', hlen, -⟩
  rw [h] at hb'
  cases hb'
  exact hlen

/-- An update of one byte of an array, as a function of the array. -/
theorem setBit_ok_iff {a b : Bytes} {k : ℕ} :
    setBit a k = .ok b ↔ k / 8 < a.length ∧ b = a.modify (k / 8) (· ||| bitMask (k % 8)) := by
  by_cases hk : k / 8 < a.length
  · have hget := List.getElem?_eq_getElem hk
    simp only [setBit, hget, hk, true_and, Except.ok.injEq, List.modify_eq_set, Option.getD_some]
    exact eq_comm
  · constructor
    · intro h
      exact absurd (setBit_ok h) hk
    · rintro ⟨hk', -⟩
      exact absurd hk' hk

/-- Two updates of the array, also of one byte, can be exchanged. -/
theorem setBit_exchange : Exchange setBit := by
  intro a j k c h
  rcases foldlM_cons_ok.1 h with ⟨a₁, hj, h₁⟩
  rcases foldlM_cons_ok.1 h₁ with ⟨a₂, hk, h₂⟩
  cases h₂
  rcases setBit_ok_iff.1 hj with ⟨hjlt, rfl⟩
  rcases setBit_ok_iff.1 hk with ⟨hklt, rfl⟩
  rw [List.length_modify] at hklt
  refine foldlM_cons_ok.2 ⟨_, setBit_ok_iff.2 ⟨hklt, rfl⟩, foldlM_cons_ok.2 ⟨_, ?_, rfl⟩⟩
  refine setBit_ok_iff.2 ⟨by rwa [List.length_modify], ?_⟩
  have hor : ∀ b m n : UInt8, b ||| m ||| n = b ||| n ||| m := by
    intro b m n
    rw [UInt8.or_assoc, UInt8.or_comm m n, ← UInt8.or_assoc]
  refine List.ext_getElem? fun i => ?_
  simp only [List.getElem?_modify]
  cases a[i]? with
  | none => simp
  | some b =>
      by_cases hij : j / 8 = i
      · by_cases hik : k / 8 = i
        · simp [hij, hik, hor b (bitMask (j % 8))]
        · simp [hij, hik]
      · simp [hij]

/-! ## Two arrays, and the number of bits -/

/-- The operation on bytes goes bit by bit. -/
def Bitwise (op : UInt8 → UInt8 → UInt8) (f : Bool → Bool → Bool) : Prop :=
  ∀ x y j, (op x y).toNat.testBit j = f (x.toNat.testBit j) (y.toNat.testBit j)

theorem bitwise_or : Bitwise (· ||| ·) (· || ·) := fun x y j => by
  rw [UInt8.toNat_or, Nat.testBit_or]

theorem bitwise_and : Bitwise (· &&& ·) (· && ·) := fun x y j => by
  rw [UInt8.toNat_and, Nat.testBit_and]

/-- Behind the last bit there is none to set. -/
theorem Bitwise.false_false {op : UInt8 → UInt8 → UInt8} {f : Bool → Bool → Bool}
    (hop : Bitwise op f) : f false false = false := by
  have hzero := hop 0 0 8
  rw [show (0 : UInt8).toNat = 0 from rfl, Nat.zero_testBit] at hzero
  rw [← hzero]
  exact Nat.testBit_lt_two_pow (op 0 0).toNat_lt

/-- The bytes of two arrays put together. -/
theorem hasBit_zipWith {op : UInt8 → UInt8 → UInt8} {f : Bool → Bool → Bool} (hop : Bitwise op f)
    {a b : Bytes} (hlen : a.length = b.length) (k : ℕ) :
    hasBit (List.zipWith op a b) k = f (hasBit a k) (hasBit b k) := by
  simp only [hasBit, List.getD_eq_getElem?_getD, List.getElem?_zipWith]
  by_cases hk : k / 8 < a.length
  · rw [List.getElem?_eq_getElem hk, List.getElem?_eq_getElem (hlen ▸ hk)]
    exact hop _ _ _
  · rw [List.getElem?_eq_none (Nat.le_of_not_lt hk),
      List.getElem?_eq_none (hlen ▸ Nat.le_of_not_lt hk)]
    simp [hop.false_false]

/-- How many bits of the array are set. -/
def bitCount (a : Bytes) : ℕ := (List.range (8 * a.length)).countP (hasBit a)

@[simp] theorem bitCount_cons (c : UInt8) (a : Bytes) :
    bitCount (c :: a) = (List.range 8).countP (c.toNat.testBit ·) + bitCount a := by
  have hfirst : (List.range 8).countP (hasBit (c :: a))
      = (List.range 8).countP (c.toNat.testBit ·) := by
    refine List.countP_congr fun k hk => ?_
    have hlt := List.mem_range.1 hk
    rw [hasBit, Nat.div_eq_of_lt hlt, Nat.mod_eq_of_lt hlt]
    rfl
  have hrest : ∀ k, hasBit (c :: a) (8 + k) = hasBit a k := by
    intro k
    rw [hasBit, hasBit, Nat.add_div_left k (by decide), Nat.add_mod_left]
    rfl
  rw [bitCount, bitCount, List.length_cons, Nat.mul_succ, Nat.add_comm, List.range_add,
    List.countP_append, hfirst, List.countP_map]
  exact congrArg _ (List.countP_congr fun k _ => by rw [Function.comp, hrest])

end Core
