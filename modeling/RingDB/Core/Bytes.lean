import Mathlib.Data.List.Basic
import Mathlib.Order.Compare

/-!
# Bounded byte arrays

C arrays of bytes as lists, with every access checked: `readAt` and `writeAt` answer
`outOfBounds` where the C program would leave the array.  The other kinds of `Fault` name the
remaining ways in which a step of a C++ program has no defined outcome.
-/

namespace Core

/-- Why a step has no defined outcome. -/
inductive Fault where
  /-- A null pointer is dereferenced. -/
  | nullDeref
  /-- A pointer that was never set is dereferenced. -/
  | wildPointer
  /-- An array is left. -/
  | outOfBounds
  /-- A variable that was never set is read. -/
  | uninitialised
  /-- An integer is divided by zero. -/
  | divByZero
  /-- A signed integer leaves its range. -/
  | overflow
  /-- A loop was still running when its observation ended. -/
  | diverges
  deriving DecidableEq, Repr

/-- A sequence of two steps has an outcome only through an outcome of the first. -/
theorem bind_eq_ok {φ α β : Type} {x : Except φ α} {f : α → Except φ β} {b : β} :
    (x >>= f) = .ok b ↔ ∃ a, x = .ok a ∧ f a = .ok b := by
  cases x with
  | error e => simp [bind, Except.bind]
  | ok a => simp [bind, Except.bind]

/-- So has a step whose outcome is converted. -/
theorem map_eq_ok {φ α β : Type} {x : Except φ α} {f : α → β} {b : β} :
    (f <$> x) = .ok b ↔ ∃ a, x = .ok a ∧ f a = b := by
  cases x with
  | error e => simp [Functor.map, Except.map]
  | ok a => simp [Functor.map, Except.map]

/-- A sequence of two steps fails where one of them does. -/
theorem bind_eq_error {φ α β : Type} {x : Except φ α} {f : α → Except φ β} {e : φ} :
    (x >>= f) = .error e ↔ x = .error e ∨ ∃ a, x = .ok a ∧ f a = .error e := by
  cases x with
  | error e => simp [bind, Except.bind]
  | ok a => simp [bind, Except.bind]

/-- The step has an outcome, and the outcome passes the test. -/
def okAnd {φ α : Type} (x : Except φ α) (p : α → Bool) : Bool :=
  match x with
  | .error _ => false
  | .ok a => p a

theorem okAnd_iff {φ α : Type} {x : Except φ α} {p : α → Bool} :
    okAnd x p = true ↔ ∃ a, x = .ok a ∧ p a = true := by
  cases x with
  | error e => simp [okAnd]
  | ok a => simp [okAnd]

abbrev Bytes := List UInt8

/-- `n` bytes of `a` from offset `off` on. -/
def readAt (a : Bytes) (off n : ℕ) : Except Fault Bytes :=
  if off + n ≤ a.length then .ok ((a.drop off).take n) else .error .outOfBounds

/-- `a` with the bytes from offset `off` on replaced by `b`. -/
def writeAt (a : Bytes) (off : ℕ) (b : Bytes) : Except Fault Bytes :=
  if off + b.length ≤ a.length then .ok (a.take off ++ b ++ a.drop (off + b.length))
  else .error .outOfBounds

/-- `std::memcmp` of two byte strings of equal length: the first difference decides, bytes
compared as unsigned numbers. -/
def memcmp : Bytes → Bytes → Ordering
  | a :: as, b :: bs => if a < b then .lt else if b < a then .gt else memcmp as bs
  | [], [] => .eq
  | [], _ :: _ => .lt
  | _ :: _, [] => .gt

/-- A run of `n` NUL bytes. -/
def nulBytes (n : ℕ) : Bytes := List.replicate n 0

@[simp] theorem length_nulBytes (n : ℕ) : (nulBytes n).length = n := List.length_replicate ..

/-- The C string that begins at offset `off`: the bytes before the first NUL. -/
def cString (a : Bytes) (off : ℕ) : Except Fault Bytes :=
  let rest := a.drop off
  let str := rest.takeWhile (· != 0)
  if str.length < rest.length then .ok str else .error .outOfBounds

theorem readAt_of_le {a : Bytes} {off n : ℕ} (h : off + n ≤ a.length) :
    readAt a off n = .ok ((a.drop off).take n) := if_pos h

theorem writeAt_of_le {a : Bytes} {off : ℕ} {b : Bytes} (h : off + b.length ≤ a.length) :
    writeAt a off b = .ok (a.take off ++ b ++ a.drop (off + b.length)) := if_pos h

theorem writeAt_ok_iff {a : Bytes} {off : ℕ} {b c : Bytes} :
    writeAt a off b = .ok c
      ↔ off + b.length ≤ a.length ∧ c = a.take off ++ b ++ a.drop (off + b.length) := by
  unfold writeAt
  split <;> rename_i h
  · simp only [Except.ok.injEq, h, true_and]; exact eq_comm
  · simp [h]

/-- Writing does not change the length of an array. -/
theorem length_of_writeAt {a b c : Bytes} {off : ℕ} (h : writeAt a off b = .ok c) :
    c.length = a.length := by
  rcases writeAt_ok_iff.1 h with ⟨hle, rfl⟩
  simp only [List.length_append, List.length_take, List.length_drop]
  omega

/-- A write leaves every range that lies before it or behind it as it was. -/
theorem readAt_writeAt_disjoint {a b c : Bytes} {off off' n : ℕ} (h : writeAt a off b = .ok c)
    (hdis : off' + n ≤ off ∨ off + b.length ≤ off') : readAt c off' n = readAt a off' n := by
  have hlen := length_of_writeAt h
  rcases writeAt_ok_iff.1 h with ⟨hle, rfl⟩
  have hpre : (a.take off).length = off := by rw [List.length_take]; omega
  unfold readAt
  rw [hlen]
  split_ifs with hin
  · congr 1
    rcases hdis with hd | hd
    · rw [List.append_assoc, List.drop_append_of_le_length (by omega),
        List.take_append_of_le_length (by rw [List.length_drop]; omega), List.drop_take,
        List.take_take, Nat.min_eq_left (by omega)]
    · have hdrop : (a.take off ++ b ++ a.drop (off + b.length)).drop off' = a.drop off' := by
        rw [List.drop_append, List.drop_eq_nil_of_le (by
          rw [List.length_append, hpre]; omega), List.nil_append, List.drop_drop]
        congr 1
        rw [List.length_append, hpre]
        omega
      rw [hdrop]
  · rfl

/-- What was written is read back. -/
theorem readAt_writeAt_self {a b c : Bytes} {off : ℕ} (h : writeAt a off b = .ok c) :
    readAt c off b.length = .ok b := by
  have hlen := length_of_writeAt h
  rcases writeAt_ok_iff.1 h with ⟨hle, rfl⟩
  have hpre : (a.take off).length = off := by rw [List.length_take]; omega
  rw [readAt_of_le (hlen ▸ hle), List.append_assoc, List.drop_append_of_le_length (by omega),
    List.drop_eq_nil_of_le (by omega), List.nil_append, List.take_left]

theorem length_of_readAt {a b : Bytes} {off n : ℕ} (h : readAt a off n = .ok b) : b.length = n := by
  unfold readAt at h
  split_ifs at h with hin
  rw [← Except.ok.inj h, List.length_take, List.length_drop]
  omega

/-- The beginning of a range that is read. -/
theorem readAt_prefix {a b c : Bytes} {off m n : ℕ} (h : readAt a off n = .ok (b ++ c))
    (hb : b.length = m) (hle : m ≤ n) : readAt a off m = .ok b := by
  unfold readAt at h
  split_ifs at h with hin
  rw [readAt_of_le (by omega), ← Nat.min_eq_left hle, ← List.take_take, Except.ok.inj h,
    List.take_left' hb]

/-- What is read from an array of NUL bytes is NUL. -/
theorem eq_nulBytes_of_readAt {b : Bytes} {m off n : ℕ} (h : readAt (nulBytes m) off n = .ok b) :
    b = nulBytes n := by
  unfold readAt at h
  split_ifs at h with hin
  rw [length_nulBytes] at hin
  rw [← Except.ok.inj h]
  simp only [nulBytes, List.drop_replicate, List.take_replicate]
  rw [Nat.min_eq_left (by omega)]

/-! ## Flat memory

Socket buffers are ranges of one region, addressed by their first byte. -/

abbrev Memory := ℕ → UInt8

/-- `n` bytes of memory from address `p` on. -/
def bytesAt (mem : Memory) (p n : ℕ) : Bytes := (List.range n).map fun j => mem (p + j)

/-- Memory after `b` was copied to address `p`. -/
def store (mem : Memory) (p : ℕ) (b : Bytes) : Memory := fun q =>
  if p ≤ q then b.getD (q - p) (mem q) else mem q

/-- The C string at address `p`, as long as it is shorter than `limit`. -/
def cStringAt (mem : Memory) : ℕ → ℕ → Except Fault Bytes
  | 0, _ => .error .diverges
  | limit + 1, p => if mem p = 0 then .ok [] else (mem p :: ·) <$> cStringAt mem limit (p + 1)

@[simp] theorem length_bytesAt (mem : Memory) (p n : ℕ) : (bytesAt mem p n).length = n := by
  simp [bytesAt]

/-- What was copied to an address is there. -/
theorem bytesAt_store_self (mem : Memory) (p : ℕ) (b : Bytes) :
    bytesAt (store mem p b) p b.length = b := by
  refine List.ext_getElem (length_bytesAt ..) fun j _ hj => ?_
  simp [bytesAt, store, hj]

/-- Two ranges, one behind the other. -/
theorem bytesAt_add (mem : Memory) (p m n : ℕ) :
    bytesAt mem p (m + n) = bytesAt mem p m ++ bytesAt mem (p + m) n := by
  simp only [bytesAt, List.range_add, List.map_append, List.map_map]
  congr 1
  refine List.map_congr_left fun j _ => ?_
  simp [Nat.add_assoc]

/-- A copy leaves every range that lies before it or behind it as it was. -/
theorem bytesAt_store_disjoint {mem : Memory} {p q n : ℕ} {b : Bytes}
    (h : q + n ≤ p ∨ p + b.length ≤ q) : bytesAt (store mem p b) q n = bytesAt mem q n := by
  refine List.map_congr_left fun j hj => ?_
  have hlt := List.mem_range.1 hj
  unfold store
  split_ifs with hle
  · have hout : b.length ≤ q + j - p := by omega
    rw [List.getD_eq_getElem?_getD, List.getElem?_eq_none hout, Option.getD_none]
  · rfl

/-- Outside a copied range memory stays as it is. -/
theorem store_outside {mem : Memory} {p q : ℕ} {b : Bytes} (h : q < p ∨ p + b.length ≤ q) :
    store mem p b q = mem q := by
  unfold store
  split_ifs with hle
  · rw [List.getD_eq_getElem?_getD, List.getElem?_eq_none (by omega), Option.getD_none]
  · rfl

/-- Of two copies to one address the second remains, if it is at least as long. -/
theorem store_overwrite (mem : Memory) (p : ℕ) {a b : Bytes} (h : a.length ≤ b.length) :
    store (store mem p a) p b = store mem p b := by
  funext q
  simp only [store]
  split_ifs with hle
  · by_cases hq : q - p < b.length
    · simp [hq]
    · have ha : a.length ≤ q - p := by omega
      simp [Nat.le_of_not_lt hq, ha]
  · rfl

/-- To copy the same bytes once more changes nothing. -/
theorem store_store (mem : Memory) (p : ℕ) (b : Bytes) :
    store (store mem p b) p b = store mem p b :=
  store_overwrite mem p (Nat.le_refl _)

/-- To copy what is there changes nothing. -/
theorem store_bytesAt (mem : Memory) (p n : ℕ) : store mem p (bytesAt mem p n) = mem := by
  funext q
  simp only [store]
  split_ifs with hle
  · by_cases hq : q - p < n
    · have hpq : p + (q - p) = q := by omega
      simp [bytesAt, hq, hpq]
    · have hout : (bytesAt mem p n).length ≤ q - p := by simpa using Nat.le_of_not_lt hq
      rw [List.getD_eq_getElem?_getD, List.getElem?_eq_none hout, Option.getD_none]
  · rfl

/-! ## `memcmp` decides equality and is total -/

theorem memcmp_self : ∀ a : Bytes, memcmp a a = .eq
  | [] => rfl
  | a :: as => by simp [memcmp, memcmp_self as]

theorem memcmp_eq_iff : ∀ {a b : Bytes}, memcmp a b = .eq ↔ a = b
  | [], [] => by simp [memcmp]
  | [], _ :: _ => by simp [memcmp]
  | _ :: _, [] => by simp [memcmp]
  | a :: as, b :: bs => by
      simp only [memcmp]
      split_ifs with h₁ h₂
      · simp only [List.cons.injEq, false_iff, not_and]
        rintro rfl
        exact absurd h₁ (UInt8.lt_irrefl a)
      · simp only [List.cons.injEq, false_iff, not_and]
        rintro rfl
        exact absurd h₂ (UInt8.lt_irrefl a)
      · have hab : a = b := UInt8.le_antisymm (UInt8.not_lt.1 h₂) (UInt8.not_lt.1 h₁)
        simp [hab, memcmp_eq_iff (a := as) (b := bs)]

/-- The order is the lexicographic one of the bytes' values. -/
theorem memcmp_lt_iff : ∀ {a b : Bytes},
    memcmp a b = .lt ↔ a.map UInt8.toNat < b.map UInt8.toNat
  | [], [] => by simp [memcmp]
  | [], _ :: _ => by simp [memcmp]
  | _ :: _, [] => by simp [memcmp]
  | a :: as, b :: bs => by
      simp only [memcmp, List.map_cons, List.cons_lt_cons_iff]
      rw [← memcmp_lt_iff, ← UInt8.lt_iff_toNat_lt, UInt8.toNat_inj]
      split_ifs with h₁ h₂
      · simp [h₁]
      · have hne : a ≠ b := by
          rintro rfl
          exact UInt8.lt_irrefl a h₂
        simp [h₁, hne]
      · have hab : a = b := UInt8.le_antisymm (UInt8.not_lt.1 h₂) (UInt8.not_lt.1 h₁)
        simp [hab]

/-- What is above one string has it below. -/
theorem memcmp_gt_iff : ∀ {a b : Bytes}, memcmp a b = .gt ↔ memcmp b a = .lt
  | [], [] => by simp [memcmp]
  | [], _ :: _ => by simp [memcmp]
  | _ :: _, [] => by simp [memcmp]
  | a :: as, b :: bs => by
      simp only [memcmp]
      by_cases hab : a < b
      · simp [hab, UInt8.not_lt.2 (UInt8.le_of_lt hab)]
      · by_cases hba : b < a
        · simp [hab, hba]
        · simp [hab, hba, memcmp_gt_iff (a := as) (b := bs)]

theorem memcmp_trans {a b c : Bytes} (hab : memcmp a b ≠ .gt) (hbc : memcmp b c ≠ .gt) :
    memcmp a c ≠ .gt := by
  rw [Ne, memcmp_gt_iff, memcmp_lt_iff, List.not_lt] at hab hbc ⊢
  exact List.le_trans hab hbc

/-- Two strings neither of which is above the other are the same. -/
theorem memcmp_antisymm {a b : Bytes} (hab : memcmp a b ≠ .gt) (hba : memcmp b a ≠ .gt) :
    a = b := by
  rw [Ne, memcmp_gt_iff] at hba
  cases h : memcmp a b with
  | lt => exact absurd h hba
  | eq => exact memcmp_eq_iff.1 h
  | gt => exact absurd h hab

/-- A byte string that is not all NUL is above the NUL string. -/
theorem memcmp_nulBytes_lt : ∀ {n : ℕ} {a : Bytes}, a.length = n → a ≠ nulBytes n →
    memcmp (nulBytes n) a = .lt
  | 0, a, h, hne => by
      rw [List.length_eq_zero_iff] at h
      exact absurd h hne
  | n + 1, [], h, _ => by simp at h
  | n + 1, a :: as, h, hne => by
      simp only [nulBytes, List.replicate_succ, memcmp]
      by_cases ha : (0 : UInt8) < a
      · rw [if_pos ha]
      · have h0 : a = 0 := UInt8.le_antisymm (UInt8.not_lt.1 ha) (by simp)
        subst h0
        rw [if_neg ha, if_neg ha]
        refine memcmp_nulBytes_lt (by simpa using h) ?_
        rintro rfl
        exact hne (by simp [nulBytes, List.replicate_succ])

/-- The mirror image: the NUL string is below it. -/
theorem memcmp_nulBytes_gt {n : ℕ} {a : Bytes} (h : a.length = n) (hne : a ≠ nulBytes n) :
    memcmp a (nulBytes n) = .gt :=
  memcmp_gt_iff.2 (memcmp_nulBytes_lt h hne)

/-- Nothing but the NUL string itself is at or below the NUL string. -/
theorem eq_nulBytes_of_memcmp_ne_gt {n : ℕ} {a : Bytes} (h : a.length = n)
    (hle : memcmp (nulBytes n) a ≠ .lt) : a = nulBytes n := by
  by_contra hne
  exact hle (memcmp_nulBytes_lt h hne)

end Core
