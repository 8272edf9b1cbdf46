import RingDB.Levels.BloomFilter

/-!
# The parallel loops of the Bloom filter

Both loops of the filter are OpenMP loops: the threads of the team take the iterations in an order
of their own, and the update at the end of an iteration is atomic.  Here an order is any arrangement
of the indices, and the loops are run in it.

* `insertKeyIn_ok_iff`, `checkStringAlt_ok_iff` — the order of the hashes, which
  `Levels.BloomFilter` takes, is one of them and stands for all.
* **`filter_order_independent`** — neither the order of the iterations nor the order of the
  insertions shows in the filter or in an answer.
-/

namespace RingDB

open Core

namespace BloomFilter

section Model

variable (cfg : Config) (hashes : List UInt64) (numberHashesPassed : ℕ)

/-- The order in which the threads execute the iterations. -/
def IsSchedule (order : List ℕ) : Prop := order.Perm (List.range cfg.numberHashes)

/-- `hashes[i] % number_bits` -/
def hashedBit (i : ℕ) : Except Fault ℕ :=
  match hashes[i]? with
  | none => .error .outOfBounds
  | some h => if cfg.numberBits = 0 then .error .divByZero else .ok (h.toNat % cfg.numberBits)

/-- `bloom_filter_add_string_alt`, with its return value. -/
def addStringAlt (order : List ℕ) (bf : BloomFilter) : Except Fault (Bool × BloomFilter) :=
  if numberHashesPassed < cfg.numberHashes then .ok (false, bf)
  else do
    let bloom ← order.foldlM (fun bloom i => hashedBit cfg hashes i >>= setBit bloom) bf.bloom
    pure (true, { bloom, elementsAdded := (bf.elementsAdded + 1) % 2 ^ 64 })

/-- `r += CHECK_BIT(..)`: `r` is an `int`, and no update lowers it. -/
def addMasked (bloom : Bytes) (r k : ℕ) : Except Fault ℕ := do
  let c ← maskBit bloom k
  if r + c ≤ intMax then pure (r + c) else .error .overflow

/-- `bloom_filter_check_string_alt` -/
def checkStringAlt (order : List ℕ) (bf : BloomFilter) : Except Fault Bool :=
  if numberHashesPassed < cfg.numberHashes then .ok false
  else do
    let r ← order.foldlM (fun r i => hashedBit cfg hashes i >>= addMasked bf.bloom r) 0
    pure (r == cfg.numberHashes)

/-- `Filter::insert_key`, with the order that its loop takes. -/
def insertKeyIn (hf : BloomHashFunction) (bf : BloomFilter) (ins : Bytes × List ℕ) :
    Except Fault BloomFilter := do
  let hashes := hf.hashes (asInt cfg.numberHashes) ins.1
  let res ← addStringAlt cfg hashes cfg.numberHashes ins.2 bf
  pure res.2

/-- A sequence of insertions, each with an order. -/
def insertKeysIn (hf : BloomHashFunction) (bf : BloomFilter) (inss : List (Bytes × List ℕ)) :
    Except Fault BloomFilter :=
  inss.foldlM (insertKeyIn cfg hf) bf

end Model

section Exchange

variable {cfg : Config} {hf : BloomHashFunction}

theorem addMasked_exchange (bloom : Bytes) : Exchange (addMasked bloom) := by
  intro r j k t h
  rcases foldlM_cons_ok.1 h with ⟨r₁, hj, h₁⟩
  rcases foldlM_cons_ok.1 h₁ with ⟨r₂, hk, h₂⟩
  cases h₂
  rcases bind_eq_ok.1 hj with ⟨cj, hcj, hj'⟩
  rcases bind_eq_ok.1 hk with ⟨ck, hck, hk'⟩
  split_ifs at hj' with hle₁
  cases hj'
  split_ifs at hk' with hle₂
  cases hk'
  -- masked bytes are not negative: if the sum of both fits, so does either alone
  have hfirst : addMasked bloom r k = .ok (r + ck) :=
    bind_eq_ok.2 ⟨ck, hck, if_pos (by omega)⟩
  have hsecond : addMasked bloom (r + ck) j = .ok (r + cj + ck) := by
    refine bind_eq_ok.2 ⟨cj, hcj, ?_⟩
    rw [if_pos (by omega), Nat.add_right_comm]
    rfl
  exact foldlM_cons_ok.2 ⟨_, hfirst, foldlM_cons_ok.2 ⟨_, hsecond, rfl⟩⟩

/-- An iteration is its update once the bit is known, so iterations can be exchanged as well. -/
theorem exchange_bind {α β γ : Type} {g : α → Except Fault γ} {f : β → γ → Except Fault β}
    (hf : Exchange f) : Exchange fun b a => g a >>= f b := by
  intro b x y c h
  rcases bind_eq_ok.1 (foldlM_bind_ok.1 h) with ⟨ks, hks, hc⟩
  simp only [List.mapM_cons, List.mapM_nil, bind_eq_ok] at hks
  rcases hks with ⟨j, hj, _, ⟨k, hk, _, ⟨⟩, ⟨⟩⟩, ⟨⟩⟩
  refine foldlM_bind_ok.2 (bind_eq_ok.2 ⟨[k, j], ?_, hf b j k c hc⟩)
  simp only [List.mapM_cons, List.mapM_nil, bind_eq_ok]
  exact ⟨k, hk, _, ⟨j, hj, _, rfl, rfl⟩, rfl⟩

end Exchange

section Orders

variable {cfg : Config} {hf : BloomHashFunction} {order order' : List ℕ}

theorem addStringAlt_ok_of_perm (hashes : List UInt64) (numberHashesPassed : ℕ) (bf : BloomFilter)
    (hp : order.Perm order') (res : Bool × BloomFilter) :
    addStringAlt cfg hashes numberHashesPassed order bf = .ok res
      ↔ addStringAlt cfg hashes numberHashesPassed order' bf = .ok res := by
  have hloop := foldlM_ok_of_perm (exchange_bind (g := hashedBit cfg hashes) setBit_exchange) hp
    bf.bloom
  simp only [addStringAlt]
  split_ifs
  · rfl
  · simp only [bind_eq_ok, hloop]

theorem checkStringAlt_ok_of_perm (hashes : List UInt64) (numberHashesPassed : ℕ)
    (bf : BloomFilter) (hp : order.Perm order') (verdict : Bool) :
    checkStringAlt cfg hashes numberHashesPassed order bf = .ok verdict
      ↔ checkStringAlt cfg hashes numberHashesPassed order' bf = .ok verdict := by
  have hloop := foldlM_ok_of_perm
    (exchange_bind (g := hashedBit cfg hashes) (addMasked_exchange bf.bloom)) hp 0
  simp only [checkStringAlt]
  split_ifs
  · rfl
  · simp only [bind_eq_ok, hloop]

/-- In whatever order its iterations run, an insertion is the one in the order of the hashes. -/
theorem insertKeyIn_ok_iff {ins : Bytes × List ℕ} (horder : IsSchedule cfg ins.2)
    (bf bf' : BloomFilter) :
    insertKeyIn cfg hf bf ins = .ok bf' ↔ insertKey cfg hf bf ins.1 = .ok bf' := by
  have hperm : ∀ res, addStringAlt cfg (hf.hashes (asInt cfg.numberHashes) ins.1)
      cfg.numberHashes ins.2 bf = .ok res ↔ _ :=
    addStringAlt_ok_of_perm (hf.hashes (asInt cfg.numberHashes) ins.1) cfg.numberHashes bf horder
  have hloop : ∀ bloom,
      (List.range cfg.numberHashes).foldlM (fun bloom i =>
          hashedBit cfg (hf.hashes (asInt cfg.numberHashes) ins.1) i >>= setBit bloom) bf.bloom
        = .ok bloom
      ↔ (places cfg hf ins.1 >>= setBits bf.bloom) = .ok bloom := fun _ => foldlM_bind_ok
  simp only [insertKeyIn, bind_eq_ok, hperm]
  simp only [addStringAlt, Nat.lt_irrefl, if_false, bind_eq_ok, hloop, insertKey]
  constructor
  · rintro ⟨_, ⟨bloom, ⟨ks, hks, hset⟩, ⟨⟩⟩, hbf⟩
    exact ⟨ks, hks, bloom, hset, hbf⟩
  · rintro ⟨ks, hks, bloom, hset, hbf⟩
    exact ⟨_, ⟨bloom, ⟨ks, hks, hset⟩, rfl⟩, hbf⟩

theorem sumBits_eq_foldlM (bloom : Bytes) : ∀ (ks : List ℕ) (r : ℕ),
    sumBits bloom ks r = ks.foldlM (addMasked bloom) r := by
  intro ks
  induction ks with
  | nil =>
      intro r
      rfl
  | cons k ks ih =>
      intro r
      simp only [sumBits, List.foldlM_cons, addMasked]
      cases maskBit bloom k with
      | error e => rfl
      | ok c =>
          simp only [bind, Except.bind, pure, Except.pure]
          split_ifs
          · exact ih _
          · rfl

/-- In whatever order its iterations run, a check is the one in the order of the hashes. -/
theorem checkStringAlt_ok_iff (horder : IsSchedule cfg order) (bf : BloomFilter) (str : Bytes)
    (verdict : Bool) :
    checkStringAlt cfg (hf.hashes (asInt cfg.numberHashes) str) cfg.numberHashes order bf
        = .ok verdict
      ↔ probContainsKey cfg hf bf str = .ok verdict := by
  have hloop : ∀ r,
      (List.range cfg.numberHashes).foldlM (fun r i =>
          hashedBit cfg (hf.hashes (asInt cfg.numberHashes) str) i >>= addMasked bf.bloom r) 0
        = .ok r
      ↔ (places cfg hf str >>= fun ks => ks.foldlM (addMasked bf.bloom) 0) = .ok r :=
    fun _ => foldlM_bind_ok
  rw [checkStringAlt_ok_of_perm _ _ _ horder]
  simp only [checkStringAlt, Nat.lt_irrefl, if_false, bind_eq_ok, hloop, probContainsKey,
    sumBits_eq_foldlM]
  constructor
  · rintro ⟨r, ⟨ks, hks, hsum⟩, hr⟩
    exact ⟨ks, hks, r, hsum, hr⟩
  · rintro ⟨ks, hks, r, hsum, hr⟩
    exact ⟨r, ⟨ks, hks, hsum⟩, hr⟩

end Orders

section Insertions

variable {cfg : Config} {hf : BloomHashFunction}

theorem insertKey_ok_iff {bf bf' : BloomFilter} {str : Bytes} :
    insertKey cfg hf bf str = .ok bf' ↔ ∃ ks, places cfg hf str = .ok ks ∧
      setBits bf.bloom ks = .ok bf'.bloom ∧
      bf'.elementsAdded = (bf.elementsAdded + 1) % 2 ^ 64 := by
  simp only [insertKey, bind_eq_ok]
  constructor
  · rintro ⟨ks, hks, bloom, hset, ⟨⟩⟩
    exact ⟨ks, hks, hset, rfl⟩
  · rintro ⟨ks, hks, hset, hadded⟩
    refine ⟨ks, hks, bf'.bloom, hset, ?_⟩
    rw [← hadded]
    rfl

/-- Two insertions in a row can be exchanged: together they set the bits of both. -/
theorem insertKey_exchange : Exchange (insertKey cfg hf) := by
  intro bf s t c h
  rcases foldlM_cons_ok.1 h with ⟨bf₁, hs, h₁⟩
  rcases foldlM_cons_ok.1 h₁ with ⟨_, ht, h₂⟩
  cases h₂
  rcases insertKey_ok_iff.1 hs with ⟨ks, hks, hset, hadded⟩
  rcases insertKey_ok_iff.1 ht with ⟨kt, hkt, hset', hadded'⟩
  have hboth : setBits bf.bloom (ks ++ kt) = .ok c.bloom := by
    rw [setBits, List.foldlM_append]
    exact bind_eq_ok.2 ⟨_, hset, hset'⟩
  have hother : setBits bf.bloom (kt ++ ks) = .ok c.bloom :=
    (foldlM_ok_of_perm setBit_exchange List.perm_append_comm _ _).1 hboth
  rw [setBits, List.foldlM_append] at hother
  rcases bind_eq_ok.1 hother with ⟨bloom, hfirst, hsecond⟩
  have ht' : insertKey cfg hf bf t = .ok { bloom, elementsAdded := bf₁.elementsAdded } :=
    insertKey_ok_iff.2 ⟨kt, hkt, hfirst, hadded⟩
  have hs' : insertKey cfg hf { bloom, elementsAdded := bf₁.elementsAdded } s = .ok c :=
    insertKey_ok_iff.2 ⟨ks, hks, hsecond, hadded'⟩
  exact foldlM_cons_ok.2 ⟨_, ht', foldlM_cons_ok.2 ⟨_, hs', rfl⟩⟩

theorem insertKeysIn_ok_iff : ∀ {inss : List (Bytes × List ℕ)} {bf bf' : BloomFilter},
    (∀ ins ∈ inss, IsSchedule cfg ins.2) →
    (insertKeysIn cfg hf bf inss = .ok bf'
      ↔ insertKeys cfg hf bf (inss.map Prod.fst) = .ok bf') := by
  intro inss
  induction inss with
  | nil =>
      intro bf bf' _
      rfl
  | cons ins inss ih =>
      intro bf bf' h
      rw [insertKeysIn, insertKeys, List.map_cons, foldlM_cons_ok, foldlM_cons_ok]
      simp only [insertKeyIn_ok_iff (h ins (by simp))]
      exact exists_congr fun bf₁ => and_congr_right fun _ =>
        ih fun ins' hins' => h ins' (List.mem_cons_of_mem _ hins')

end Insertions

/-- Of two orders of the iterations of a loop both lead to the same outcome: the same return value
and filter, the same verdict.  And of two sequences of insertions of the same keys both lead to the
same filter, each insertion in an order of its own. -/
theorem filter_order_independent (cfg : Config) :
    (∀ (hashes : List UInt64) (numberHashesPassed : ℕ) (bf : BloomFilter) (order order' : List ℕ),
      IsSchedule cfg order → IsSchedule cfg order' →
      (∀ res, addStringAlt cfg hashes numberHashesPassed order bf = .ok res
        ↔ addStringAlt cfg hashes numberHashesPassed order' bf = .ok res) ∧
      ∀ verdict, checkStringAlt cfg hashes numberHashesPassed order bf = .ok verdict
        ↔ checkStringAlt cfg hashes numberHashesPassed order' bf = .ok verdict) ∧
    ∀ (hf : BloomHashFunction) (bf : BloomFilter) (inss inss' : List (Bytes × List ℕ)),
      (∀ ins ∈ inss, IsSchedule cfg ins.2) → (∀ ins ∈ inss', IsSchedule cfg ins.2) →
      (inss.map Prod.fst).Perm (inss'.map Prod.fst) →
      ∀ res, insertKeysIn cfg hf bf inss = .ok res ↔ insertKeysIn cfg hf bf inss' = .ok res := by
  refine ⟨?_, ?_⟩
  · intro hashes passed bf order order' horder horder'
    have hp : order.Perm order' := horder.trans horder'.symm
    exact ⟨addStringAlt_ok_of_perm hashes passed bf hp,
      checkStringAlt_ok_of_perm hashes passed bf hp⟩
  · intro hf bf inss inss' h h' hp res
    rw [insertKeysIn_ok_iff h, insertKeysIn_ok_iff h']
    exact foldlM_ok_of_perm insertKey_exchange hp bf res

/-- Forwards and backwards: the seven iterations as shipped, and two insertions. -/
theorem filter_order_reversed :
    (∀ verdict, checkStringAlt shippedConfig (defaultHash 7 [1]) 7 (List.range 7)
        (new shippedConfig)
        = .ok verdict
      ↔ checkStringAlt shippedConfig (defaultHash 7 [1]) 7 (List.range 7).reverse
        (new shippedConfig) = .ok verdict) ∧
    ∀ res, insertKeysIn shippedConfig defaultHashFunction (new shippedConfig)
        [([1], List.range 7), ([2], (List.range 7).reverse)] = .ok res
      ↔ insertKeysIn shippedConfig defaultHashFunction (new shippedConfig)
        [([2], List.range 7), ([1], List.range 7)] = .ok res := by
  have hforth : IsSchedule shippedConfig (List.range 7) := List.Perm.refl _
  have hback : IsSchedule shippedConfig (List.range 7).reverse := List.reverse_perm _
  have h := filter_order_independent shippedConfig
  refine ⟨(h.1 _ _ _ _ _ hforth hback).2, h.2 _ _ _ _ ?_ ?_ (List.Perm.swap ..)⟩
  · simp [hforth, hback]
  · simp [hforth]

end BloomFilter

end RingDB
