import RingDB.Config
import RingDB.Core.Bytes

/-!
# The filter of an SSTable

`Filter` wraps the vendored Bloom filter: `insert_key` and `prob_contains_key` hash a C string,
`empty` asks whether any string was ever added.  A key is passed as a bare pointer, so the string
that is hashed runs from the key's first byte to the next NUL, wherever that is.

`bloom_filter_check_string_alt` adds up the values of `CHECK_BIT`, which is the masked byte and
not `1`, and compares the sum with the number of hashes.
-/

namespace RingDB

open Core

/-- `__fnv_1a` -/
def fnv1a (str : Bytes) (seed : ℕ) : UInt64 :=
  str.foldl (fun h c => (h ^^^ c.toUInt64) * 1099511628211)
    (14695981039346656037 + UInt64.ofNat (31 * seed))

/-- `__default_hash` -/
def defaultHash (numHashes : ℕ) (str : Bytes) : List UInt64 :=
  (List.range numHashes).map (fnv1a str)

/-- `Filter`.  Of the array `bloom` the positions of the set bits are kept. -/
structure Filter where
  setBits : List ℕ := []
  elementsAdded : ℕ := 0
  deriving DecidableEq, Repr

namespace Filter

variable (cfg : Config)

/-- The bits that a string selects, `hashes[i] % number_bits`. -/
def bitsOf (str : Bytes) : Except Fault (List ℕ) :=
  (defaultHash cfg.numberHashes str).mapM fun h =>
    if cfg.numberBits = 0 then .error .divByZero
    else
      let bit := h.toNat % cfg.numberBits
      if bit / 8 < cfg.bloomLength then .ok bit else .error .outOfBounds

def insertKey (f : Filter) (str : Bytes) : Except Fault Filter := do
  let bits ← bitsOf cfg str
  pure { setBits := f.setBits ++ bits, elementsAdded := (f.elementsAdded + 1) % 2 ^ 64 }

/-- `CHECK_BIT` -/
def checkBit (f : Filter) (bit : ℕ) : ℕ := if bit ∈ f.setBits then 2 ^ (bit % 8) else 0

def probContainsKey (f : Filter) (str : Bytes) : Except Fault Bool := do
  let bits ← bitsOf cfg str
  pure ((bits.map f.checkBit).sum == cfg.numberHashes)

def empty (f : Filter) : Bool := f.elementsAdded == 0

/-- The filter as constructed. -/
@[simp] theorem empty_new : ({} : Filter).empty = true := rfl

end Filter

end RingDB
