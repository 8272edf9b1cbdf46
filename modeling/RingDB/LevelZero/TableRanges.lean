import RingDB.LevelZero.MemTableMap
import RingDB.Core.Run

/-!
# The ranges of the memtables

A write keeps the range of its memtable in the sparse index.  At the end of the table it sets the
maximum key, in front of the first entry the minimum key, and in both places it passes the address
of the value where the key belongs.  The first write goes to the end, so that no minimum key is set.

* `LeastOf`, `GreatestOf` — the ends of a list of keys in the order of `memcmp`.
* `RangesExact` — the bounds in the sparse index are the ends of the keys that were written.
* `SetsRange` — when one write keeps them exact.
* **`ranges_exact_iff`** — the bounds are exact along a run if and only if every write does.
* `ranges_wrong_of_key` — they are not where the first key is not null.
-/

namespace RingDB

open Core

namespace MemTable

variable {cfg : Config}

section Model

def LeastOf (keys : List Bytes) (m : Bytes) : Prop := m ∈ keys ∧ ∀ k ∈ keys, memcmp m k ≠ .gt

def GreatestOf (keys : List Bytes) (m : Bytes) : Prop := m ∈ keys ∧ ∀ k ∈ keys, memcmp k m ≠ .gt

/-- A memtable, the sparse index, and the keys that were written to the table. -/
structure RangedTable (cfg : Config) where
  table : MemTable cfg
  index : SparseIndex cfg
  keys : List Bytes

def RangedTable.fresh (cfg : Config) : RangedTable cfg :=
  ⟨MemTable.fresh cfg, SparseIndex.fresh cfg, []⟩

def RangedTable.minKey (s : RangedTable cfg) (tableNum : ℕ) : Bytes :=
  (s.index.getTableMinKey tableNum).take cfg.keyLength

def RangedTable.maxKey (s : RangedTable cfg) (tableNum : ℕ) : Bytes :=
  (s.index.getTableMaxKey tableNum).take cfg.keyLength

def writeRanged (tableNum : ℕ) (s : RangedTable cfg) (w : Write) :
    Except Fault (RangedTable cfg) := do
  let (tbl, ix) ← s.table.write w.mem w.key w.value tableNum s.index
  pure ⟨tbl, ix, s.keys ++ [w.keyBytes cfg]⟩

/-- Once there are keys, the bounds are the least and the greatest of them. -/
def RangesExact (tableNum : ℕ) (s : RangedTable cfg) : Prop :=
  s.keys ≠ [] → LeastOf s.keys (s.minKey tableNum) ∧ GreatestOf s.keys (s.maxKey tableNum)

/-- The bytes that `write` takes for the bound. -/
def Write.bound (cfg : Config) (w : Write) : Bytes := bytesAt w.mem w.value cfg.keyLength

/-- Where the search ends at the end of the table, the value begins with the greatest key, and the
first key is null.  Elsewhere the value of a null key begins with that key, and any other key is at
or below one that was written. -/
def SetsRange (s : RangedTable cfg) (w : Write) : Prop :=
  if s.table.search (w.keyBytes cfg) = .ok s.table.size then
    GreatestOf (s.keys ++ [w.keyBytes cfg]) (w.bound cfg) ∧
      (s.keys = [] → w.keyBytes cfg = nullKey cfg)
  else if w.keyBytes cfg = nullKey cfg then w.bound cfg = nullKey cfg
  else ∃ k ∈ s.keys, memcmp (w.keyBytes cfg) k ≠ .gt

end Model

section Order

/-- No key is below the null key. -/
theorem nullKey_le {k : Bytes} (hk : k.length = cfg.keyLength) : memcmp (nullKey cfg) k ≠ .gt := by
  by_cases hnull : k = nullKey cfg
  · rw [hnull, memcmp_self]
    rintro ⟨⟩
  · rw [nullKey, memcmp_nulBytes_lt hk hnull]
    rintro ⟨⟩

theorem eq_nullKey_of_le {k : Bytes} (hk : k.length = cfg.keyLength)
    (h : memcmp k (nullKey cfg) ≠ .gt) : k = nullKey cfg :=
  memcmp_antisymm h (nullKey_le hk)

/-- A further key that is at or below another one leaves the greatest as it is. -/
theorem GreatestOf.append {keys : List Bytes} {m k k' : Bytes} (h : GreatestOf keys m)
    (hk' : k' ∈ keys) (hle : memcmp k k' ≠ .gt) : GreatestOf (keys ++ [k]) m := by
  refine ⟨List.mem_append_left _ h.1, fun x hx => ?_⟩
  rcases List.mem_append.1 hx with hx | hx
  · exact h.2 x hx
  · rw [List.mem_singleton.1 hx]
    exact memcmp_trans hle (h.2 k' hk')

end Order

section Steps

variable {tableNum : ℕ} {s s' : RangedTable cfg} {w : Write}

/-- What holds of a table whose range is exact: the null key is its least key. -/
structure Ranged (tableNum : ℕ) (s : RangedTable cfg) : Prop where
  head : HeadNul s.table
  used : s.keys = [] ↔ s.table.size = 0
  lengths : ∀ k ∈ s.keys, k.length = cfg.keyLength
  min : s.minKey tableNum = nullKey cfg
  null : s.keys ≠ [] → nullKey cfg ∈ s.keys
  max : s.keys ≠ [] → GreatestOf s.keys (s.maxKey tableNum)

theorem ranged_fresh (htable : tableNum < cfg.levelFactor) :
    Ranged tableNum (RangedTable.fresh cfg) where
  head := headNul_fresh cfg
  used := ⟨fun _ => rfl, fun _ => rfl⟩
  lengths := fun _ hk => nomatch hk
  min := eq_nulBytes_of_readAt ((SparseIndex.fresh cfg).readAt_minKey htable)
  null := fun h => absurd rfl h
  max := fun h => absurd rfl h

theorem search_fresh (cfg : Config) (key : Bytes) :
    (RangedTable.fresh cfg).table.search key = .ok (RangedTable.fresh cfg).table.size :=
  bisect_of_le (Nat.le_refl 0)

theorem Ranged.exact (h : Ranged tableNum s) : RangesExact tableNum s := by
  refine fun hne => ⟨⟨?_, fun k hk => ?_⟩, h.max hne⟩
  · rw [h.min]
    exact h.null hne
  · rw [h.min]
    exact nullKey_le (h.lengths k hk)

/-- **What a write does to the bounds**, in a table whose first key is null. -/
theorem writeRanged_cases (htable : tableNum < cfg.levelFactor) (hhead : HeadNul s.table)
    (h : writeRanged tableNum s w = .ok s') :
    s'.keys = s.keys ++ [w.keyBytes cfg] ∧ HeadNul s'.table ∧ 0 < s'.table.size ∧
      ((s.table.search (w.keyBytes cfg) = .ok s.table.size ∧ s'.minKey tableNum = s.minKey tableNum
        ∧ s'.maxKey tableNum = w.bound cfg) ∨
        (s.table.search (w.keyBytes cfg) ≠ .ok s.table.size ∧ 0 < s.table.size ∧
          s'.maxKey tableNum = s.maxKey tableNum ∧
          (w.keyBytes cfg = nullKey cfg → s'.minKey tableNum = w.bound cfg) ∧
          (w.keyBytes cfg ≠ nullKey cfg → s'.minKey tableNum = s.minKey tableNum))) := by
  rcases bind_eq_ok.1 h with ⟨⟨tbl, ix⟩, hwrite, ⟨⟩⟩
  have hbound : (bytesAt w.mem w.value cfg.keyLength).length = cfg.keyLength := length_bytesAt ..
  rcases hhead.write hwrite with ⟨hhead', hsize'⟩
  refine ⟨rfl, hhead', hsize', ?_⟩
  rcases write_cases hwrite with ⟨left, hsearch, -, hplace⟩
  rcases hplace with ⟨rfl, -, hmax⟩ | ⟨hleft, -, hfront, hbehind⟩
  · rcases SparseIndex.setTableMaxKey_spec htable hbound hmax with ⟨hmax', hmin'⟩
    exact .inl ⟨hsearch, hmin', hmax'⟩
  · have hne : s.table.search (w.keyBytes cfg) ≠ .ok s.table.size := by
      rw [hsearch]
      exact fun heq => hleft (Except.ok.inj heq)
    -- the search in an empty table ends at its end
    have hpos : 0 < s.table.size := by
      rcases Nat.eq_zero_or_pos s.table.size with hzero | hpos
      · have hstart : s.table.search (w.keyBytes cfg) = .ok 0 := bisect_of_le (by omega)
        rw [hstart] at hsearch
        cases hsearch
        exact absurd hzero.symm hleft
      · exact hpos
    by_cases hzero : left = 0
    · subst hzero
      have hnull := hhead.eq_nullKey (length_bytesAt ..) hpos hsearch
      rcases SparseIndex.setTableMinKey_spec htable hbound (hfront rfl) with ⟨hmin', hmax'⟩
      exact .inr ⟨hne, hpos, hmax', fun _ => hmin', fun h => absurd hnull h⟩
    · obtain rfl := hbehind hzero
      refine .inr ⟨hne, hpos, rfl, fun hnull => ?_, fun _ => rfl⟩
      rw [hnull] at hsearch
      exact absurd (search_nullKey_eq hsearch) hzero

theorem Ranged.step (htable : tableNum < cfg.levelFactor) (h : Ranged tableNum s)
    (hsets : SetsRange s w) (hstep : writeRanged tableNum s w = .ok s') : Ranged tableNum s' := by
  rcases writeRanged_cases htable h.head hstep with ⟨hkeys, hhead', hsize', hcases⟩
  have hlen : (w.keyBytes cfg).length = cfg.keyLength := length_bytesAt ..
  have hne : s'.keys ≠ [] := by
    rw [hkeys]
    exact List.append_ne_nil_of_right_ne_nil _ (by nofun)
  have hlengths : ∀ k ∈ s'.keys, k.length = cfg.keyLength := by
    intro k hk
    rw [hkeys] at hk
    rcases List.mem_append.1 hk with hk | hk
    · exact h.lengths k hk
    · rw [List.mem_singleton.1 hk]
      exact hlen
  have hused : s'.keys = [] ↔ s'.table.size = 0 := ⟨fun hnil => absurd hnil hne, fun _ => by omega⟩
  rcases hcases with ⟨hend, hmin', hmax'⟩ | ⟨hend, hpos, hmax', hfront, hbehind⟩
  · rw [SetsRange, if_pos hend] at hsets
    refine ⟨hhead', hused, hlengths, hmin'.trans h.min, fun _ => ?_, fun _ => ?_⟩
    · rw [hkeys]
      by_cases hnil : s.keys = []
      · exact List.mem_append_right _ (List.mem_singleton.2 (hsets.2 hnil).symm)
      · exact List.mem_append_left _ (h.null hnil)
    · rw [hkeys, hmax']
      exact hsets.1
  · have hsome : s.keys ≠ [] := fun hnil => by have := h.used.1 hnil; omega
    have hnull' : nullKey cfg ∈ s'.keys := by
      rw [hkeys]
      exact List.mem_append_left _ (h.null hsome)
    rw [SetsRange, if_neg hend] at hsets
    by_cases hnull : w.keyBytes cfg = nullKey cfg
    · rw [if_pos hnull] at hsets
      refine ⟨hhead', hused, hlengths, (hfront hnull).trans hsets, fun _ => hnull', fun _ => ?_⟩
      rw [hkeys, hmax', hnull]
      exact (h.max hsome).append (h.null hsome) (nullKey_le (length_nullKey cfg))
    · rw [if_neg hnull] at hsets
      rcases hsets with ⟨k, hk, hle⟩
      refine ⟨hhead', hused, hlengths, (hbehind hnull).trans h.min, fun _ => hnull', fun _ => ?_⟩
      rw [hkeys, hmax']
      exact (h.max hsome).append hk hle

/-- Only such a write leaves the bounds exact. -/
theorem Ranged.setsRange (htable : tableNum < cfg.levelFactor) (h : Ranged tableNum s)
    (hstep : writeRanged tableNum s w = .ok s') (hexact : RangesExact tableNum s') :
    SetsRange s w := by
  rcases writeRanged_cases htable h.head hstep with ⟨hkeys, -, -, hcases⟩
  have hlast : w.keyBytes cfg ∈ s.keys ++ [w.keyBytes cfg] :=
    List.mem_append_right _ (List.mem_singleton_self _)
  rw [RangesExact, hkeys] at hexact
  rcases hexact (List.append_ne_nil_of_right_ne_nil _ (by nofun)) with ⟨hleast, hgreatest⟩
  rcases hcases with ⟨hend, hmin', hmax'⟩ | ⟨hend, hpos, hmax', hfront, hbehind⟩
  · rw [hmax'] at hgreatest
    rw [hmin', h.min] at hleast
    rw [SetsRange, if_pos hend]
    refine ⟨hgreatest, fun hnil => ?_⟩
    rw [hnil] at hleast
    exact (List.mem_singleton.1 hleast.1).symm
  · have hsome : s.keys ≠ [] := fun hnil => by have := h.used.1 hnil; omega
    rw [SetsRange, if_neg hend]
    split_ifs with hnull
    · rw [hfront hnull] at hleast
      exact eq_nullKey_of_le (length_bytesAt ..) (hleast.2 _ (hnull ▸ hlast))
    · rw [hmax'] at hgreatest
      exact ⟨_, (h.max hsome).1, hgreatest.2 _ hlast⟩

end Steps

section Runs

variable {tableNum : ℕ}

/-- **The ranges of the memtables.**  For every sequence of writes to a memtable from fresh, its
bounds in the sparse index are the least and the greatest key written after every write if and only
if every write sets the range. -/
theorem ranges_exact_iff (htable : tableNum < cfg.levelFactor) (ws : List Write) :
    Throughout (writeRanged tableNum) (RangesExact tableNum) (RangedTable.fresh cfg) ws
      ↔ StepsMeet (writeRanged tableNum) SetsRange (RangedTable.fresh cfg) ws :=
  throughout_iff_stepsMeet (fun _ => Ranged.exact)
    (fun _ _ _ h hsets hstep => h.step htable hsets hstep)
    (fun _ _ _ h hstep hexact => h.setsRange htable hstep hexact) (ranged_fresh htable)

/-- A null key whose value begins with NUL bytes. -/
theorem null_write_exact :
    Throughout (writeRanged 0) (RangesExact 0) (RangedTable.fresh shippedConfig)
      [⟨fun _ => 0, 5, 6⟩] :=
  (@ranges_exact_iff shippedConfig 0 (by decide) _).2 fun _ _ =>
    ⟨by rw [SetsRange, if_pos (search_fresh ..)]; exact ⟨⟨by decide, by decide⟩, fun _ => rfl⟩,
      trivial⟩

/-- The first write of a key that is not null leaves the table without its minimum key. -/
theorem ranges_wrong_of_key (htable : tableNum < cfg.levelFactor)
    (hroom : cfg.memtableEntryLength ≤ cfg.memtableSize) {w : Write}
    (hkey : w.keyBytes cfg ≠ nullKey cfg) (ws : List Write) :
    ¬ Throughout (writeRanged tableNum) (RangesExact tableNum) (RangedTable.fresh cfg)
      (w :: ws) := by
  intro h
  rcases (holds_fresh cfg).write_first w (SparseIndex.fresh cfg) htable hroom
    with ⟨tbl, ix, hwrite, -⟩
  have hstep : writeRanged tableNum (RangedTable.fresh cfg) w = .ok ⟨tbl, ix, [w.keyBytes cfg]⟩ :=
    bind_eq_ok.2 ⟨(tbl, ix), hwrite, rfl⟩
  have hsets := (ranged_fresh htable).setsRange htable hstep (h.2 _ hstep).start
  rw [SetsRange, if_pos (search_fresh ..)] at hsets
  exact hkey (hsets.2 rfl)

/-- The first write of any key, here `a`. -/
theorem first_write_wrong : ¬ Throughout (writeRanged 0) (RangesExact 0)
    (RangedTable.fresh shippedConfig) [⟨fun _ => 97, 5, 6⟩] :=
  ranges_wrong_of_key (by decide) (by decide +kernel) (by decide) []

end Runs

end MemTable

end RingDB
