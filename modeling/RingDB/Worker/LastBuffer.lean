import RingDB.Worker.Conservation
import RingDB.Core.Run

/-!
# Whether an SSTable keeps a buffer

An SSTable gives buffers of its own away in two places.  How many is computed from
`cur_num_buffers`, and they are taken from `insert_buffers_from`.  An idle SSTable lowers both.  One
that hands a batch to the next level leaves `cur_num_buffers` as it is, so the next batch takes as
many buffers again, until `insert_buffers_from` is below zero.  And with one SSTable on a level, an
idle SSTable gives all it has.

* `Gives` — the transfer gives away buffers that the SSTable owned before.
* `KeepsOne` — behind the give it has a buffer left, and `insert_buffers_from` did not pass zero.
* `Enough` — the condition on the counters under which it does.
* `Bounded` — what the transfers keep of the sizes.
* **`keepsOne_iff`** — an SSTable never gives away its last buffer along a run if and only if there
  is enough before every give.
* **`upstream_keepsOne`** — between batches there is, if a level has more than one SSTable.
-/

namespace RingDB

open Core

variable {α : Type} {cfg : Config}

/-- The buffers below the slot of the last one that was given away, which behind the give is below
`insert_buffers_from` again. -/
def Holding.stillOwned (h : Holding α) : List (Option α) :=
  h.pageCacheBuffers.take (h.insertBuffersFrom - 1)

namespace Buffers

section Model

/-- `cur_num_buffers - num_new_buffers` -/
def oldCount (q : BufferQueue α) : ℕ := (q.curNumBuffers + 2 ^ 32 - q.numNewBuffers) % 2 ^ 32

/-- `old_num_old_buffers`, which is an `int`. -/
def oldBuffers (q : BufferQueue α) : ℤ := asInt (oldCount q)

/-- The shares of the SSTables that have room, together. -/
def openShares (cfg : Config) (qs : List (BufferQueue α)) (targets : List (ℕ × ℕ)) : ℕ :=
  (targets.map fun t =>
    match qs[t.1]? with
    | none => 0
    | some q => if q.curNumBuffers < cfg.maxSstableHeight then t.2 else 0).sum

def Transfer.giver : Transfer → ℕ
  | .upstream n => n
  | .collect n => n
  | .downstream n _ => n

/-- Upstream: below the first level, without new buffers and with a positive count.  Downstream:
there are old buffers, and somebody has room for a share. -/
def Gives (cfg : Config) (s : Buffers α) : Transfer → Prop
  | .upstream n => cfg.levelFactor ≤ n ∧
      ∃ q ∈ s.queues[n]?, q.numNewBuffers = 0 ∧ q.curNumBuffers ≠ 0
  | .collect _ => False
  | .downstream n targets => openShares cfg s.queues targets ≠ 0 ∧
      ∃ q ∈ s.queues[n]?, oldBuffers q ≠ 0

instance (cfg : Config) (s : Buffers α) : ∀ t : Transfer, Decidable (Gives cfg s t)
  | .upstream _ => inferInstanceAs (Decidable (_ ∧ _))
  | .collect _ => inferInstanceAs (Decidable False)
  | .downstream _ _ => inferInstanceAs (Decidable (_ ∧ _))

/-- The give does not take `insert_buffers_from` through zero, the first number passed to
`remove_buffer_range` is positive, and the SSTable still owns a buffer. -/
def KeepsOne (cfg : Config) (s : Buffers α) (t : Transfer) : Prop :=
  ∃ s' h, transfer cfg s t = .ok s' ∧ s'.holdings[t.giver]? = some h ∧
    1 ≤ h.insertBuffersFrom ∧ h.stillOwned ≠ []

/-- At least two buffers, and more than the part of a level of what the queue counts.  Downstream
there are also new buffers, which fit in `new_buffers`, and the shares may be fewer than the buffers
instead. -/
def Enough (cfg : Config) (s : Buffers α) : Transfer → Prop
  | .upstream n => ∀ q ∈ s.queues[n]?, ∀ h ∈ s.holdings[n]?,
      1 < h.insertBuffersFrom ∧
        min q.curNumBuffers cfg.maxSstableHeight < cfg.levelFactor * h.insertBuffersFrom
  | .collect _ => True
  | .downstream n targets => ∀ q ∈ s.queues[n]?, ∀ h ∈ s.holdings[n]?,
      q.numNewBuffers ≠ 0 ∧ q.numNewBuffers ≤ cfg.maxSstableHeight ∧
        (openShares cfg s.queues targets < h.insertBuffersFrom ∨
          1 < h.insertBuffersFrom ∧ oldBuffers q < cfg.levelFactor * h.insertBuffersFrom)

instance (cfg : Config) (s : Buffers α) : ∀ t : Transfer, Decidable (Enough cfg s t)
  | .upstream n => inferInstanceAs (Decidable (∀ q ∈ s.queues[n]?, ∀ h ∈ s.holdings[n]?, _ ∧ _))
  | .collect _ => inferInstanceAs (Decidable True)
  | .downstream n _ =>
      inferInstanceAs (Decidable (∀ q ∈ s.queues[n]?, ∀ h ∈ s.holdings[n]?, _ ∧ _ ∧ (_ ∨ _ ∧ _)))

/-- The SSTables have queues, their slots are in the array, and the counters are of their type. -/
structure Bounded (s : Buffers α) : Prop where
  length_eq : s.holdings.length = s.queues.length
  insert_le : ∀ h ∈ s.holdings, h.insertBuffersFrom ≤ h.pageCacheBuffers.length
  length_lt : ∀ h ∈ s.holdings, h.pageCacheBuffers.length < uintMax
  numNew_lt : ∀ q ∈ s.queues, q.numNewBuffers < 2 ^ 32

end Model

section Quantities

variable {q : BufferQueue α} {h : Holding α} {i k : ℕ}

theorem toGive_lt_iff (hcur : q.curNumBuffers ≠ 0) :
    toGive cfg q < i ↔ 1 < i ∧ min q.curNumBuffers cfg.maxSstableHeight < cfg.levelFactor * i := by
  rw [toGive, if_neg hcur, Nat.max_lt, Nat.div_lt_iff_lt_mul cfg.levelFactor_pos,
    Nat.mul_comm i, and_comm]

theorem oldBufferLimit_lt_iff (hold : oldBuffers q ≠ 0) :
    oldBufferLimit cfg q < i ↔ 1 < i ∧ oldBuffers q < cfg.levelFactor * i := by
  have hpos : (0 : ℤ) < cfg.levelFactor := Int.natCast_pos.2 cfg.levelFactor_pos
  have hlimit : oldBufferLimit cfg q = (max ((oldBuffers q).tdiv cfg.levelFactor) 1).toNat :=
    if_neg hold
  have hpart : (oldBuffers q).tdiv cfg.levelFactor < i ∧ 1 < i
      ↔ 1 < i ∧ oldBuffers q < cfg.levelFactor * i := by
    rw [and_comm]
    refine and_congr_right fun hi => ?_
    rcases le_or_gt 0 (oldBuffers q) with hnonneg | hneg
    · rw [Int.tdiv_eq_ediv_of_nonneg hnonneg, Int.ediv_lt_iff_lt_mul hpos, mul_comm]
    · -- a negative number of old buffers is below either bound
      have hflip := Int.tdiv_nonneg (a := -oldBuffers q) (by omega) hpos.le
      rw [Int.neg_tdiv] at hflip
      have hprod : (0 : ℤ) ≤ cfg.levelFactor * i :=
        Int.mul_nonneg hpos.le (Int.natCast_nonneg i)
      exact iff_of_true (by omega) (by omega)
  rw [← hpart, hlimit]
  omega

/-- As many buffers as there are can be taken. -/
theorem takeBack_of_le (hk : k ≤ h.insertBuffersFrom)
    (hlen : h.insertBuffersFrom ≤ h.pageCacheBuffers.length) : ∃ r, h.takeBack k = .ok r := by
  induction k generalizing h with
  | zero => exact ⟨_, rfl⟩
  | succ k ih =>
      cases hi : h.insertBuffersFrom with
      | zero => omega
      | succ i =>
          have hlt : i < h.pageCacheBuffers.length := by omega
          have hget : h.pageCacheBuffers[i]? = some h.pageCacheBuffers[i] :=
            List.getElem?_eq_getElem hlt
          have hk' : k ≤ ({ h with insertBuffersFrom := i } : Holding α).insertBuffersFrom := by
            show k ≤ i
            omega
          rcases ih hk' (by show i ≤ h.pageCacheBuffers.length; omega) with ⟨⟨bs, h'⟩, hrest⟩
          simp only [Holding.takeBack, hi, hget]
          exact ⟨_, bind_eq_ok.2 ⟨_, hrest, rfl⟩⟩

/-- What is left when `k` buffers were given away. -/
theorem stillOwned_ne_iff (hlen : h.insertBuffersFrom ≤ h.pageCacheBuffers.length) :
    (Holding.advance { h with insertBuffersFrom := h.insertBuffersFrom - k }).stillOwned ≠ []
      ↔ k < h.insertBuffersFrom := by
  show h.pageCacheBuffers.take (h.insertBuffersFrom - k + 1 - 1) ≠ [] ↔ _
  rw [Nat.add_sub_cancel, ← List.length_pos_iff, List.length_take]
  omega

end Quantities

section Shares

variable {qs qs' : List (BufferQueue α)} {targets : List (ℕ × ℕ)} {h h' : Holding α}
  {oldLimit given given' : ℕ}

theorem openShares_cons {q : BufferQueue α} {m share : ℕ} (hq : qs[m]? = some q) :
    openShares cfg qs ((m, share) :: targets)
      = (if q.curNumBuffers < cfg.maxSstableHeight then share else 0)
        + openShares cfg qs targets := by
  rw [openShares, List.map_cons, List.sum_cons, hq]
  rfl

/-- A queue that gets no share does not matter. -/
theorem openShares_set {m : ℕ} (hm : m ∉ targets.map Prod.fst) (q : BufferQueue α) :
    openShares cfg (qs.set m q) targets = openShares cfg qs targets := by
  refine congrArg List.sum (List.map_congr_left fun t ht => ?_)
  have hne : m ≠ t.1 := fun heq => hm (heq ▸ List.mem_map_of_mem ht)
  rw [List.getElem?_set_ne hne]

/-- **How many buffers are given**: the shares of the SSTables with room, up to the limit. -/
theorem giveShares_given_eq (hnodup : (targets.map Prod.fst).Nodup) (hgiven : given ≤ oldLimit)
    (hok : giveShares cfg oldLimit targets given h qs = .ok (given', h', qs')) :
    given' = min (given + openShares cfg qs targets) oldLimit ∧
      given' - given ≤ h.insertBuffersFrom ∧
      h' = { h with insertBuffersFrom := h.insertBuffersFrom - (given' - given) } := by
  induction targets generalizing given h qs with
  | nil =>
      cases hok
      refine ⟨(Nat.min_eq_left hgiven).symm, by omega, ?_⟩
      rw [Nat.sub_self]
      rfl
  | cons t targets ih =>
      rcases t with ⟨m, share⟩
      rcases bind_eq_ok.1 hok with ⟨q, hq, hok⟩
      rcases List.nodup_cons.1 hnodup with ⟨hm, hnodup'⟩
      rw [openShares_cons (elementAt_ok.1 hq)]
      split_ifs at hok ⊢ with hroom
      · rcases bind_eq_ok.1 hok with ⟨⟨bs, h₁⟩, htake, hrest⟩
        rcases Holding.takeBack_spec htake with ⟨hle, -, rfl, -⟩
        rcases ih hnodup' (by omega) hrest with ⟨hgiven', hle', rfl⟩
        rw [openShares_set hm] at hgiven'
        dsimp only at hle' ⊢
        refine ⟨by omega, by omega, ?_⟩
        congr 1
        omega
      · rw [Nat.zero_add]
        exact ih hnodup' hgiven hok

/-- They can be given if there are as many. -/
theorem giveShares_of_le (hnodup : (targets.map Prod.fst).Nodup)
    (hin : ∀ t ∈ targets, t.1 < qs.length) (hgiven : given ≤ oldLimit)
    (hlen : h.insertBuffersFrom ≤ h.pageCacheBuffers.length)
    (hle : min (given + openShares cfg qs targets) oldLimit ≤ given + h.insertBuffersFrom) :
    ∃ r, giveShares cfg oldLimit targets given h qs = .ok r := by
  induction targets generalizing given h qs with
  | nil => exact ⟨_, rfl⟩
  | cons t targets ih =>
      rcases t with ⟨m, share⟩
      rcases List.nodup_cons.1 hnodup with ⟨hm, hnodup'⟩
      have hlt : m < qs.length := hin (m, share) List.mem_cons_self
      have hget : qs[m]? = some qs[m] := List.getElem?_eq_getElem hlt
      have hin' : ∀ t ∈ targets, t.1 < qs.length := fun t ht => hin t (List.mem_cons_of_mem _ ht)
      rw [openShares_cons hget] at hle
      simp only [giveShares, elementAt_ok.2 hget, bind, Except.bind]
      split_ifs at hle ⊢ with hroom
      · rcases takeBack_of_le (k := min share (oldLimit - given)) (by omega) hlen
          with ⟨⟨bs, h₁⟩, htake⟩
        rcases Holding.takeBack_spec htake with ⟨hle', -, rfl, -⟩
        rw [htake]
        refine ih hnodup' (fun t ht => ?_) (by omega) ?_ ?_
        · rw [List.length_set]
          exact hin' t ht
        · show h.insertBuffersFrom - _ ≤ h.pageCacheBuffers.length
          omega
        · rw [openShares_set hm]
          dsimp only
          omega
      · rw [Nat.zero_add] at hle
        exact ih hnodup' hin' hgiven hlen hle

end Shares

section Steps

variable {s s' : Buffers α} {t : Transfer}

/-- Every queue has its SSTable. -/
theorem Bounded.holding (hs : s.Bounded) {n : ℕ} (hn : n < s.queues.length) :
    ∃ h, s.holdings[n]? = some h ∧ h.insertBuffersFrom ≤ h.pageCacheBuffers.length := by
  have hlt : n < s.holdings.length := by rw [hs.length_eq]; exact hn
  have hh : s.holdings[n]? = some s.holdings[n] := List.getElem?_eq_getElem hlt
  exact ⟨_, hh, hs.insert_le _ (List.mem_of_getElem? hh)⟩

section Upstream

variable {n : ℕ} {q prev : BufferQueue α} {h : Holding α}

theorem enough_upstream_iff (hq : s.queues[n]? = some q) (hh : s.holdings[n]? = some h)
    (hcur : q.curNumBuffers ≠ 0) :
    Enough cfg s (.upstream n) ↔ toGive cfg q < h.insertBuffersFrom := by
  rw [toGive_lt_iff hcur, Enough, hq, hh]
  simp

theorem transfer_upstream (hlevel : cfg.levelFactor ≤ n) (hq : s.queues[n]? = some q)
    (hprev : s.queues[n - cfg.levelFactor]? = some prev) (hh : s.holdings[n]? = some h)
    (hnew : q.numNewBuffers = 0) (hcur : q.curNumBuffers ≠ 0) :
    transfer cfg s (.upstream n) = (h.takeBack (toGive cfg q) >>= fun r =>
      .ok
        { holdings := s.holdings.set n r.2.advance
          queues :=
            (s.queues.set n { q with curNumBuffers := q.curNumBuffers - toGive cfg q }).set
              (n - cfg.levelFactor) (prev.pushAll r.1) }) := by
  have hpos : ¬ toGive cfg q = 0 := fun h0 => hcur ((toGive_eq_zero cfg q).1 h0)
  simp only [transfer, upstream, if_neg (Nat.not_lt.2 hlevel), elementAt_ok.2 hq, hnew, ne_eq,
    not_true_eq_false, if_false, give, elementAt_ok.2 hprev, elementAt_ok.2 hh, bind, Except.bind,
    if_neg hpos]
  rfl

/-- An idle SSTable keeps a buffer if and only if it has enough. -/
theorem upstream_keepsOne_iff (hs : s.Bounded) (hn : n < s.queues.length)
    (hgives : Gives cfg s (.upstream n)) :
    KeepsOne cfg s (.upstream n) ↔ Enough cfg s (.upstream n) := by
  rcases hgives with ⟨hlevel, q, hq, hnew, hcur⟩
  rcases hs.holding hn with ⟨h, hh, hlen⟩
  obtain ⟨prev, hprev⟩ : ∃ prev, s.queues[n - cfg.levelFactor]? = some prev :=
    ⟨_, List.getElem?_eq_getElem (by omega)⟩
  have hlt := (List.getElem?_eq_some_iff.1 hh).1
  have hgive := transfer_upstream hlevel hq hprev hh hnew hcur
  rw [enough_upstream_iff hq hh hcur]
  constructor
  · rintro ⟨s', h', htransfer, hh', -, howned⟩
    rw [hgive] at htransfer
    rcases bind_eq_ok.1 htransfer with ⟨⟨bs, h₁⟩, htake, ⟨⟩⟩
    rw [show Transfer.giver (.upstream n) = n from rfl, List.getElem?_set_self hlt] at hh'
    cases hh'
    rcases Holding.takeBack_spec htake with ⟨-, -, rfl, -⟩
    exact (stillOwned_ne_iff hlen).1 howned
  · intro hltq
    rcases takeBack_of_le hltq.le hlen with ⟨⟨bs, h₁⟩, htake⟩
    rcases Holding.takeBack_spec htake with ⟨-, -, rfl, -⟩
    exact ⟨_, _, hgive.trans (bind_eq_ok.2 ⟨_, htake, rfl⟩), List.getElem?_set_self hlt,
      Nat.succ_pos _, (stillOwned_ne_iff hlen).2 hltq⟩

end Upstream

section Downstream

variable {n oldLimit : ℕ} {q : BufferQueue α} {h h₁ : Holding α} {targets : List (ℕ × ℕ)}

/-- An SSTable gives nothing to itself. -/
theorem Targets.notMem (ht : Targets cfg s n targets) : n ∉ targets.map Prod.fst := by
  intro hmem
  rcases List.mem_map.1 hmem with ⟨t, ht', heq⟩
  exact ht.ne ht' heq

theorem oldBufferLimit_ne_zero (hold : oldBuffers q ≠ 0) : oldBufferLimit cfg q ≠ 0 := by
  have hone : ¬ oldBufferLimit cfg q < 1 := fun h1 =>
    absurd ((oldBufferLimit_lt_iff hold).1 h1).1 (by simp)
  omega

theorem enough_downstream_iff (hq : s.queues[n]? = some q) (hh : s.holdings[n]? = some h)
    (hold : oldBuffers q ≠ 0) : Enough cfg s (.downstream n targets)
      ↔ q.numNewBuffers ≠ 0 ∧ q.numNewBuffers ≤ cfg.maxSstableHeight ∧
        min (openShares cfg s.queues targets) (oldBufferLimit cfg q) < h.insertBuffersFrom := by
  rw [min_lt_iff, oldBufferLimit_lt_iff hold, Enough, hq, hh]
  simp

/-- Without new buffers, or with more than `new_buffers` holds, nothing is given away: the arrays
are left before. -/
theorem transfer_downstream_ne (hs : s.Bounded) (hq : s.queues[n]? = some q)
    (hh : s.holdings[n]? = some h)
    (hnew : q.numNewBuffers = 0 ∨ cfg.maxSstableHeight < q.numNewBuffers)
    (targets : List (ℕ × ℕ)) (s' : Buffers α) :
    transfer cfg s (.downstream n targets) ≠ .ok s' := by
  rcases Nat.eq_zero_or_pos q.numNewBuffers with hzero | hpos
  · exact insertIntoWqs_empty (hs.length_lt h (List.mem_of_getElem? hh)) hq hh hzero targets
  · intro hok
    have hinsert := @insertIntoWqs_of_pos α cfg s n q h (hs.numNew_lt q (List.mem_of_getElem? hq))
      hq hh hpos.ne' targets
    rw [if_pos (hnew.resolve_left hpos.ne')] at hinsert
    cases hinsert.symm.trans hok

theorem transfer_downstream (hs : s.Bounded) (hq : s.queues[n]? = some q)
    (hh : s.holdings[n]? = some h) (hnew : q.numNewBuffers ≠ 0)
    (hfits : q.numNewBuffers ≤ cfg.maxSstableHeight) (hold : oldBuffers q ≠ 0)
    (targets : List (ℕ × ℕ)) : transfer cfg s (.downstream n targets)
      = (giveShares cfg (oldBufferLimit cfg q) targets 0 h
          (s.queues.set n (BufferQueue.popMany q.numNewBuffers q).2) >>= fun r =>
        .ok
          { holdings := s.holdings.set n (if r.1 = 0 then r.2.1 else r.2.1.advance)
            queues := r.2.2 }) := by
  have hinsert := @insertIntoWqs_of_pos α cfg s n q h (hs.numNew_lt q (List.mem_of_getElem? hq))
    hq hh hnew targets
  rw [if_neg (Nat.not_lt.2 hfits), if_neg (oldBufferLimit_ne_zero hold)] at hinsert
  exact hinsert

/-- What is left of the own buffers behind the shares, with the slot of the last one counted
again. -/
theorem giveShares_left {given : ℕ} {qs : List (BufferQueue α)} (ht : Targets cfg s n targets)
    (hshares : openShares cfg s.queues targets ≠ 0) (hlimit : oldLimit ≠ 0)
    (hshare : giveShares cfg oldLimit targets 0 h (s.queues.set n q) = .ok (given, h₁, qs)) :
    (if given = 0 then h₁ else h₁.advance) = Holding.advance
      { h with
        insertBuffersFrom :=
          h.insertBuffersFrom - min (openShares cfg s.queues targets) oldLimit } := by
  rcases giveShares_given_eq ht.nodup (Nat.zero_le _) hshare with ⟨hgiven, -, rfl⟩
  rw [openShares_set ht.notMem, Nat.zero_add] at hgiven
  have hpos : given ≠ 0 := by omega
  rw [if_neg hpos, Nat.sub_zero, hgiven]

/-- So does one that hands on a batch. -/
theorem downstream_keepsOne_iff (hs : s.Bounded) (hp : Possible cfg s (.downstream n targets))
    (hgives : Gives cfg s (.downstream n targets)) :
    KeepsOne cfg s (.downstream n targets) ↔ Enough cfg s (.downstream n targets) := by
  rcases hgives with ⟨hshares, q, hq, hold⟩
  rcases hp with ⟨hn, ht⟩
  rcases hs.holding hn with ⟨h, hh, hlen⟩
  have hlt := (List.getElem?_eq_some_iff.1 hh).1
  have hlimit : oldBufferLimit cfg q ≠ 0 := oldBufferLimit_ne_zero hold
  rw [enough_downstream_iff hq hh hold]
  by_cases hout : q.numNewBuffers = 0 ∨ cfg.maxSstableHeight < q.numNewBuffers
  · refine iff_of_false ?_ ?_
    · rintro ⟨s', h', htransfer, -⟩
      exact transfer_downstream_ne hs hq hh hout targets s' htransfer
    · rintro ⟨hpos, hfits, -⟩
      exact hout.elim hpos (Nat.not_lt.2 hfits)
  rw [not_or, Nat.not_lt] at hout
  rcases hout with ⟨hnew, hfits⟩
  have hgive := transfer_downstream hs hq hh hnew hfits hold targets
  constructor
  · rintro ⟨s', h', htransfer, hh', -, howned⟩
    refine ⟨hnew, hfits, ?_⟩
    rcases bind_eq_ok.1 (hgive.symm.trans htransfer) with ⟨⟨given, h₁, qs⟩, hshare, ⟨⟩⟩
    rw [show Transfer.giver (.downstream n targets) = n from rfl,
      List.getElem?_set_self hlt] at hh'
    cases hh'
    dsimp only at howned
    rw [giveShares_left ht hshares hlimit hshare] at howned
    exact (stillOwned_ne_iff hlen).1 howned
  · rintro ⟨-, -, hltq⟩
    have hin : ∀ t ∈ targets,
        t.1 < (s.queues.set n (BufferQueue.popMany q.numNewBuffers q).2).length := by
      intro t ht'
      rw [List.length_set]
      exact ht.lt t ht'
    have hle : min (0 + openShares cfg
        (s.queues.set n (BufferQueue.popMany q.numNewBuffers q).2) targets) (oldBufferLimit cfg q)
          ≤ 0 + h.insertBuffersFrom := by
      rw [openShares_set ht.notMem, Nat.zero_add, Nat.zero_add]
      exact hltq.le
    rcases giveShares_of_le ht.nodup hin (Nat.zero_le (oldBufferLimit cfg q)) hlen hle
      with ⟨⟨given, h₁, qs⟩, hshare⟩
    refine ⟨_, _, hgive.trans (bind_eq_ok.2 ⟨_, hshare, rfl⟩), List.getElem?_set_self hlt, ?_, ?_⟩
    all_goals
      dsimp only
      rw [giveShares_left ht hshares hlimit hshare]
    · exact Nat.succ_pos _
    · exact (stillOwned_ne_iff hlen).2 hltq

end Downstream

theorem step_keepsOne_iff (hs : s.Bounded) (hp : Possible cfg s t) (hgives : Gives cfg s t) :
    KeepsOne cfg s t ↔ Enough cfg s t := by
  cases t with
  | upstream n => exact upstream_keepsOne_iff hs hp hgives
  | collect n => exact hgives.elim
  | downstream n targets => exact downstream_keepsOne_iff hs hp hgives

end Steps

section Sizes

variable {q : BufferQueue α} {s s' : Buffers α} {t : Transfer}

theorem numNew_lt_popMany {n : ℕ} (h : q.numNewBuffers < 2 ^ 32) :
    (BufferQueue.popMany n q).2.numNewBuffers < 2 ^ 32 := by
  rw [BufferQueue.numNew_popMany h]
  exact Nat.mod_lt _ (by decide)

theorem numNew_lt_pushAll {bs : List (Option α)} (h : q.numNewBuffers < 2 ^ 32) :
    (q.pushAll bs).numNewBuffers < 2 ^ 32 := by
  induction bs generalizing q with
  | nil => exact h
  | cons b bs ih => exact ih (Nat.mod_lt _ (by decide))

/-- One SSTable and its queue are exchanged. -/
theorem Bounded.set (hs : s.Bounded) {n : ℕ} {h : Holding α} {qs : List (BufferQueue α)}
    (hh : h.insertBuffersFrom ≤ h.pageCacheBuffers.length)
    (hlen : h.pageCacheBuffers.length < uintMax) (hqs : qs.length = s.queues.length)
    (hnum : ∀ q ∈ qs, q.numNewBuffers < 2 ^ 32) :
    Bounded { holdings := s.holdings.set n h, queues := qs } where
  length_eq := by
    rw [List.length_set, hs.length_eq, hqs]
  insert_le := fun h' hh' => by
    rcases List.mem_or_eq_of_mem_set hh' with hh' | rfl
    · exact hs.insert_le h' hh'
    · exact hh
  length_lt := fun h' hh' => by
    rcases List.mem_or_eq_of_mem_set hh' with hh' | rfl
    · exact hs.length_lt h' hh'
    · exact hlen
  numNew_lt := hnum

theorem numNew_lt_set {qs : List (BufferQueue α)} (h : ∀ p ∈ qs, p.numNewBuffers < 2 ^ 32) {n : ℕ}
    (hq : q.numNewBuffers < 2 ^ 32) : ∀ p ∈ qs.set n q, p.numNewBuffers < 2 ^ 32 := by
  intro p hp
  rcases List.mem_or_eq_of_mem_set hp with hp | rfl
  · exact h p hp
  · exact hq

/-- What the loops keep of the holding. -/
theorem addLoop_sizes {fuel : ℕ} {h h' : Holding α} {q' : BufferQueue α}
    (hok : addLoop fuel h q = .ok (h', q')) :
    h'.insertBuffersFrom = h.insertBuffersFrom ∧
      h'.pageCacheBuffers.length = h.pageCacheBuffers.length := by
  induction fuel generalizing h q with
  | zero => cases hok
  | succ fuel ih =>
      simp only [addLoop] at hok
      split at hok
      · cases hok
        exact ⟨rfl, rfl⟩
      · split_ifs at hok
        rcases ih hok with ⟨hinsert, hlen⟩
        exact ⟨hinsert, hlen.trans (List.length_set ..)⟩

theorem keepRest_sizes {k : ℕ} {h h' : Holding α} {q' : BufferQueue α}
    (hok : keepRest k h q = .ok (h', q')) (hnum : q.numNewBuffers < 2 ^ 32)
    (hh : h.insertBuffersFrom ≤ h.pageCacheBuffers.length) :
    q'.numNewBuffers < 2 ^ 32 ∧ h'.insertBuffersFrom ≤ h'.pageCacheBuffers.length ∧
      h'.pageCacheBuffers.length = h.pageCacheBuffers.length := by
  induction k generalizing h q with
  | zero =>
      cases hok
      exact ⟨hnum, hh, rfl⟩
  | succ k ih =>
      simp only [keepRest] at hok
      split_ifs at hok with hlt
      rcases ih hok (Nat.mod_lt _ (by decide)) (by rw [List.length_set]; exact hlt)
        with ⟨hnum', hle, hlen⟩
      exact ⟨hnum', hle, hlen.trans (List.length_set ..)⟩

theorem giveShares_sizes {oldLimit given given' : ℕ} {targets : List (ℕ × ℕ)} {h h' : Holding α}
    {qs qs' : List (BufferQueue α)} (hqs : ∀ p ∈ qs, p.numNewBuffers < 2 ^ 32)
    (hok : giveShares cfg oldLimit targets given h qs = .ok (given', h', qs')) :
    qs'.length = qs.length ∧ ∀ p ∈ qs', p.numNewBuffers < 2 ^ 32 := by
  induction targets generalizing given h qs with
  | nil =>
      cases hok
      exact ⟨rfl, hqs⟩
  | cons t targets ih =>
      rcases bind_eq_ok.1 hok with ⟨p, hp, hok⟩
      split_ifs at hok
      · rcases bind_eq_ok.1 hok with ⟨⟨bs, h₁⟩, -, hrest⟩
        have hp' := hqs p (List.mem_of_getElem? (elementAt_ok.1 hp))
        rcases ih (numNew_lt_set hqs (numNew_lt_pushAll hp')) hrest with ⟨hlen, hnum⟩
        exact ⟨hlen.trans (List.length_set ..), hnum⟩
      · exact ih hqs hok

/-- **What an idle SSTable does**: nothing, or it passes new buffers on, or it gives its own
away. -/
theorem upstream_cases {n : ℕ} (hok : upstream cfg s n = .ok s') :
    s' = s ∨ ∃ q prev, s.queues[n]? = some q ∧ s.queues[n - cfg.levelFactor]? = some prev ∧
      cfg.levelFactor ≤ n ∧
      ((∃ k, s' = { s with
          queues := (s.queues.set n (BufferQueue.popMany k q).2).set (n - cfg.levelFactor)
            (prev.pushAll (BufferQueue.popMany k q).1.reverse) }) ∨
        (q.numNewBuffers = 0 ∧ 0 < toGive cfg q ∧ ∃ h bs, s.holdings[n]? = some h ∧
          toGive cfg q ≤ h.insertBuffersFrom ∧ s' =
            { holdings := s.holdings.set n (Holding.advance
                { h with insertBuffersFrom := h.insertBuffersFrom - toGive cfg q })
              queues :=
                (s.queues.set n { q with curNumBuffers := q.curNumBuffers - toGive cfg q }).set
                  (n - cfg.levelFactor) (prev.pushAll bs) })) := by
  unfold upstream at hok
  split_ifs at hok with hn
  · cases hok
    exact .inl rfl
  rcases bind_eq_ok.1 hok with ⟨q₀, hq₀, hok⟩
  split_ifs at hok with hnew
  · rcases bind_eq_ok.1 hok with ⟨q, hq, hok⟩
    rcases bind_eq_ok.1 hok with ⟨prev, hprev, ⟨⟩⟩
    exact .inr ⟨q, prev, elementAt_ok.1 hq, elementAt_ok.1 hprev, Nat.not_lt.1 hn, .inl ⟨_, rfl⟩⟩
  · rcases bind_eq_ok.1 hok with ⟨q, hq, hok⟩
    obtain rfl : q₀ = q := Except.ok.inj (hq₀.symm.trans hq)
    rcases bind_eq_ok.1 hok with ⟨prev, hprev, hok⟩
    rcases bind_eq_ok.1 hok with ⟨h, hh, hok⟩
    split_ifs at hok with hpos
    · cases hok
      exact .inl rfl
    · rcases bind_eq_ok.1 hok with ⟨⟨bs, h₁⟩, htake, ⟨⟩⟩
      rcases Holding.takeBack_spec htake with ⟨hle, -, rfl, -⟩
      exact .inr ⟨q₀, prev, elementAt_ok.1 hq, elementAt_ok.1 hprev, Nat.not_lt.1 hn, .inr
        ⟨not_not.1 hnew, Nat.pos_of_ne_zero hpos, h, bs, elementAt_ok.1 hh, hle, rfl⟩⟩

theorem upstream_bounded {n : ℕ} (hs : s.Bounded) (hok : upstream cfg s n = .ok s') :
    s'.Bounded ∧ s'.queues.length = s.queues.length := by
  rcases upstream_cases hok with rfl | ⟨q, prev, hq, hprev, -, hmoved⟩
  · exact ⟨hs, rfl⟩
  have hq' := hs.numNew_lt q (List.mem_of_getElem? hq)
  have hprev' := hs.numNew_lt prev (List.mem_of_getElem? hprev)
  rcases hmoved with ⟨k, rfl⟩ | ⟨-, hpos, h, bs, hh, hle, rfl⟩
  · refine ⟨⟨?_, hs.insert_le, hs.length_lt, ?_⟩, by simp⟩
    · simpa using hs.length_eq
    · exact numNew_lt_set (numNew_lt_set hs.numNew_lt (numNew_lt_popMany hq'))
        (numNew_lt_pushAll hprev')
  · have hh' := hs.insert_le h (List.mem_of_getElem? hh)
    refine ⟨hs.set ?_ (hs.length_lt h (List.mem_of_getElem? hh)) (by simp) ?_, by simp⟩
    · show h.insertBuffersFrom - toGive cfg q + 1 ≤ h.pageCacheBuffers.length
      omega
    · exact numNew_lt_set (numNew_lt_set hs.numNew_lt
        (q := { q with curNumBuffers := q.curNumBuffers - toGive cfg q }) hq')
        (numNew_lt_pushAll hprev')

theorem collect_bounded {n : ℕ} (hs : s.Bounded) (hok : tryAddBuffersNonblockingly s n = .ok s') :
    s'.Bounded ∧ s'.queues.length = s.queues.length := by
  rcases bind_eq_ok.1 hok with ⟨q, hq, hok⟩
  rcases bind_eq_ok.1 hok with ⟨h, hh, hok⟩
  rcases bind_eq_ok.1 hok with ⟨⟨h', q'⟩, hloop, ⟨⟩⟩
  rcases addLoop_sizes hloop with ⟨hinsert, hlen⟩
  rcases addLoop_spec hloop with ⟨j, -, rfl, -⟩
  have hq' := hs.numNew_lt q (List.mem_of_getElem? (elementAt_ok.1 hq))
  have hh' := hs.insert_le h (List.mem_of_getElem? (elementAt_ok.1 hh))
  have hlt := hlen.trans_lt (hs.length_lt h (List.mem_of_getElem? (elementAt_ok.1 hh)))
  exact ⟨hs.set (by omega) hlt (by simp) (numNew_lt_set hs.numNew_lt (numNew_lt_popMany hq')),
    by simp⟩

theorem downstream_bounded {n : ℕ} {targets : List (ℕ × ℕ)} (hs : s.Bounded)
    (hnodup : (targets.map Prod.fst).Nodup) (hok : insertIntoWqs cfg s n targets = .ok s') :
    s'.Bounded ∧ s'.queues.length = s.queues.length := by
  rcases bind_eq_ok.1 hok with ⟨q, hq, hok⟩
  rcases bind_eq_ok.1 hok with ⟨h, hh, hok⟩
  have hq' := hs.numNew_lt q (List.mem_of_getElem? (elementAt_ok.1 hq))
  have hh' := hs.insert_le h (List.mem_of_getElem? (elementAt_ok.1 hh))
  dsimp only at hok
  generalize (if q.numNewBuffers = 0 then 1 else q.numNewBuffers) = newLimit at hok
  by_cases hfits : cfg.maxSstableHeight < newLimit
  · rw [if_pos hfits] at hok
    cases hok
  rw [if_neg hfits] at hok
  rcases bind_eq_ok.1 hok with ⟨⟨h₁, q₁⟩, hkeep, hok⟩
  rcases keepRest_sizes hkeep (numNew_lt_popMany hq') hh' with ⟨hq₁, hh₁, hlen₁⟩
  have hlt₁ := hlen₁.trans_lt (hs.length_lt h (List.mem_of_getElem? (elementAt_ok.1 hh)))
  have hqueues := numNew_lt_set (n := n) hs.numNew_lt hq₁
  dsimp only at hok
  by_cases hlimit : oldBufferLimit cfg q = 0
  · rw [if_pos hlimit] at hok
    cases hok
    exact ⟨hs.set hh₁ hlt₁ (by simp) hqueues, by simp⟩
  · rw [if_neg hlimit] at hok
    rcases bind_eq_ok.1 hok with ⟨⟨given, h₂, qs⟩, hshare, ⟨⟩⟩
    rcases giveShares_sizes hqueues hshare with ⟨hlen, hnum⟩
    rcases giveShares_given_eq hnodup (Nat.zero_le _) hshare with ⟨-, hle, rfl⟩
    rw [List.length_set] at hlen
    refine ⟨hs.set ?_ ?_ hlen hnum, hlen⟩
    all_goals split_ifs with hgiven
    · exact (Nat.sub_le _ _).trans hh₁
    · show h₁.insertBuffersFrom - (given - 0) + 1 ≤ h₁.pageCacheBuffers.length
      omega
    · exact hlt₁
    · exact hlt₁

theorem Bounded.step (hs : s.Bounded) (hp : Possible cfg s t) (hok : transfer cfg s t = .ok s') :
    s'.Bounded ∧ s'.queues.length = s.queues.length := by
  cases t with
  | upstream n => exact upstream_bounded hs hok
  | collect n => exact collect_bounded hs hok
  | downstream n targets => exact downstream_bounded hs hp.2.nodup hok

/-- Whether a transfer is possible depends on the number of SSTables only. -/
theorem Possible.congr (hp : Possible cfg s t) (hlen : s'.queues.length = s.queues.length) :
    Possible cfg s' t := by
  cases t with
  | upstream n => exact Nat.lt_of_lt_of_eq hp hlen.symm
  | collect n => exact Nat.lt_of_lt_of_eq hp hlen.symm
  | downstream n targets =>
      exact ⟨Nat.lt_of_lt_of_eq hp.1 hlen.symm, hp.2.nodup, hp.2.nextLevel,
        fun t ht => Nat.lt_of_lt_of_eq (hp.2.lt t ht) hlen.symm⟩

end Sizes

section Runs

/-- SSTables as constructed, over page caches that hold any buffers. -/
def constructed (cfg : Config) (caches : List (List (Option α))) : Buffers α where
  holdings := caches.map fun c => ⟨c, cfg.maxSstableHeight⟩
  queues := caches.map fun _ => BufferQueue.new α cfg

theorem bounded_constructed {caches : List (List (Option α))}
    (h : ∀ c ∈ caches, cfg.maxSstableHeight ≤ c.length ∧ c.length < uintMax) :
    (constructed cfg caches).Bounded where
  length_eq := by simp [constructed]
  insert_le := fun h' hh' => by
    rcases List.mem_map.1 hh' with ⟨c, hc, rfl⟩
    exact (h c hc).1
  length_lt := fun h' hh' => by
    rcases List.mem_map.1 hh' with ⟨c, hc, rfl⟩
    exact (h c hc).2
  numNew_lt := fun q hq => by
    rcases List.mem_map.1 hq with ⟨c, -, rfl⟩
    exact Nat.two_pow_pos 32

end Runs

/-! ## Between batches -/

section Idle

/-- What an SSTable has as long as it hands on no batch: two buffers, and as many as its queue
counts. -/
structure Stocked (s : Buffers α) : Prop where
  bounded : s.Bounded
  two_le : ∀ h ∈ s.holdings, 1 < h.insertBuffersFrom
  cur_lt : ∀ q ∈ s.queues, q.curNumBuffers < 2 ^ 32
  old_le : ∀ (n : ℕ) (q : BufferQueue α) (h : Holding α), s.queues[n]? = some q →
    s.holdings[n]? = some h → oldCount q ≤ h.insertBuffersFrom

/-- A transfer that is not part of handing on a batch. -/
def Transfer.Idle : Transfer → Prop
  | .downstream _ _ => False
  | _ => True

variable {s s' : Buffers α} {q q' : BufferQueue α} {t : Transfer}

theorem stocked_constructed {caches : List (List (Option α))} (htwo : 2 ≤ cfg.maxSstableHeight)
    (hlt : cfg.maxSstableHeight < 2 ^ 32)
    (h : ∀ c ∈ caches, cfg.maxSstableHeight ≤ c.length ∧ c.length < uintMax) :
    (constructed cfg caches).Stocked where
  bounded := bounded_constructed h
  two_le := fun h' hh' => by
    rcases List.mem_map.1 hh' with ⟨c, -, rfl⟩
    exact htwo
  cur_lt := fun q hq => by
    rcases List.mem_map.1 hq with ⟨c, -, rfl⟩
    exact hlt
  old_le := fun n q h' hq hh' => by
    rcases List.mem_map.1 (List.mem_of_getElem? hq) with ⟨c, -, rfl⟩
    rcases List.mem_map.1 (List.mem_of_getElem? hh') with ⟨c', -, rfl⟩
    show (cfg.maxSstableHeight + 2 ^ 32 - 0) % 2 ^ 32 ≤ cfg.maxSstableHeight
    omega

/-- Pushes and pops change both counters alike. -/
theorem oldCount_pushAll {bs : List (Option α)} (hcur : q.curNumBuffers < 2 ^ 32)
    (hnum : q.numNewBuffers < 2 ^ 32) :
    oldCount (q.pushAll bs) = oldCount q ∧ (q.pushAll bs).curNumBuffers < 2 ^ 32 := by
  induction bs generalizing q with
  | nil => exact ⟨rfl, hcur⟩
  | cons b bs ih =>
      have hone : oldCount (q.pushBack b) = oldCount q := by
        simp only [oldCount, BufferQueue.pushBack]
        omega
      have hlast : ∀ m : ℕ, m % 2 ^ 32 < 2 ^ 32 := fun m => Nat.mod_lt m (by decide)
      rcases @ih (q.pushBack b) (hlast _) (hlast _) with ⟨hrest, hcur'⟩
      exact ⟨hrest.trans hone, hcur'⟩

theorem oldCount_popMany {n : ℕ} (hcur : q.curNumBuffers < 2 ^ 32)
    (hnum : q.numNewBuffers < 2 ^ 32) : oldCount (BufferQueue.popMany n q).2 = oldCount q ∧
      (BufferQueue.popMany n q).2.curNumBuffers < 2 ^ 32 := by
  induction n generalizing q with
  | zero => exact ⟨rfl, hcur⟩
  | succ n ih =>
      have hone : oldCount q.popFront = oldCount q := by
        simp only [oldCount, BufferQueue.popFront, uintMax]
        omega
      have hlast : ∀ m : ℕ, m % 2 ^ 32 < 2 ^ 32 := fun m => Nat.mod_lt m (by decide)
      rcases @ih q.popFront (hlast _) (hlast _) with ⟨hrest, hcur'⟩
      exact ⟨hrest.trans hone, hcur'⟩

/-- A holding and its queue are exchanged. -/
theorem Stocked.set (hs : s.Stocked) {n : ℕ} {h : Holding α} (hn : n < s.queues.length)
    (hnum : q.numNewBuffers < 2 ^ 32) (hcur : q.curNumBuffers < 2 ^ 32)
    (hlen : h.insertBuffersFrom ≤ h.pageCacheBuffers.length)
    (hlt : h.pageCacheBuffers.length < uintMax) (htwo : 1 < h.insertBuffersFrom)
    (hold : oldCount q ≤ h.insertBuffersFrom) :
    Stocked { holdings := s.holdings.set n h, queues := s.queues.set n q } where
  bounded := hs.bounded.set hlen hlt (List.length_set ..) (numNew_lt_set hs.bounded.numNew_lt hnum)
  two_le := fun h' hh' => by
    rcases List.mem_or_eq_of_mem_set hh' with hh' | rfl
    · exact hs.two_le h' hh'
    · exact htwo
  cur_lt := fun p hp => by
    rcases List.mem_or_eq_of_mem_set hp with hp | rfl
    · exact hs.cur_lt p hp
    · exact hcur
  old_le := fun m p h' hp hh' => by
    by_cases hm : n = m
    · subst hm
      rw [List.getElem?_set_self hn] at hp
      rw [List.getElem?_set_self (hs.bounded.length_eq ▸ hn)] at hh'
      cases hp
      cases hh'
      exact hold
    · rw [List.getElem?_set_ne hm] at hp hh'
      exact hs.old_le m p h' hp hh'

/-- A queue is exchanged for one that counts the same. -/
theorem Stocked.setQueue (hs : s.Stocked) {n : ℕ} (hq : s.queues[n]? = some q)
    (hnum : q'.numNewBuffers < 2 ^ 32)
    (hcounts : oldCount q' = oldCount q ∧ q'.curNumBuffers < 2 ^ 32) :
    Stocked { s with queues := s.queues.set n q' } := by
  have hn := (List.getElem?_eq_some_iff.1 hq).1
  obtain ⟨h, hh⟩ : ∃ h, s.holdings[n]? = some h :=
    ⟨_, List.getElem?_eq_getElem (hs.bounded.length_eq ▸ hn)⟩
  have hmem := List.mem_of_getElem? hh
  have hset := hs.set hn hnum hcounts.2 (hs.bounded.insert_le _ hmem)
    (hs.bounded.length_lt _ hmem) (hs.two_le _ hmem) (hcounts.1.trans_le (hs.old_le n q _ hq hh))
  rwa [set_of_getElem? hh] at hset

/-- An SSTable with stock has enough to give. -/
theorem Stocked.enough (hs : s.Stocked) (hfactor : 2 ≤ cfg.levelFactor) (hidle : t.Idle)
    (hgives : Gives cfg s t) : Enough cfg s t := by
  cases t with
  | upstream n =>
      rcases hgives with ⟨-, q, hq, hnew, -⟩
      intro q' hq' h hh
      obtain rfl : q = q' := Option.some.inj (hq.symm.trans hq')
      have htwo := hs.two_le h (List.mem_of_getElem? hh)
      have hcur := hs.cur_lt q (List.mem_of_getElem? hq)
      have hold := hs.old_le n q h hq hh
      have hdouble : 2 * h.insertBuffersFrom ≤ cfg.levelFactor * h.insertBuffersFrom :=
        Nat.mul_le_mul_right _ hfactor
      rw [oldCount, hnew] at hold
      exact ⟨htwo, by omega⟩
  | collect n => exact hgives.elim
  | downstream n targets => exact hidle.elim

/-- What an idle SSTable gives is less than it has, and leaves both of its counters. -/
theorem Stocked.give (hs : s.Stocked) (hfactor : 2 ≤ cfg.levelFactor) {n : ℕ} {h : Holding α}
    (hq : s.queues[n]? = some q) (hh : s.holdings[n]? = some h)
    (hgives : Gives cfg s (.upstream n)) :
    Stocked
      { holdings := s.holdings.set n (Holding.advance
          { h with insertBuffersFrom := h.insertBuffersFrom - toGive cfg q })
        queues :=
          s.queues.set n { q with curNumBuffers := q.curNumBuffers - toGive cfg q } } := by
  have hlt := hs.enough hfactor (t := .upstream n) trivial hgives q hq h hh
  rcases hgives with ⟨-, q₀, hq₀, hnew, hcur⟩
  obtain rfl : q = q₀ := Option.some.inj (hq.symm.trans hq₀)
  rw [← toGive_lt_iff hcur] at hlt
  have hlen := hs.bounded.insert_le h (List.mem_of_getElem? hh)
  have hnum := hs.bounded.numNew_lt q (List.mem_of_getElem? hq)
  have hcur' := hs.cur_lt q (List.mem_of_getElem? hq)
  have hold := hs.old_le n q h hq hh
  have hpos : toGive cfg q ≠ 0 := fun h0 => hcur ((toGive_eq_zero cfg q).1 h0)
  rw [oldCount, hnew] at hold
  refine hs.set (List.getElem?_eq_some_iff.1 hq).1 hnum ?_ ?_
    (hs.bounded.length_lt h (List.mem_of_getElem? hh)) ?_ ?_
  · show q.curNumBuffers - toGive cfg q < 2 ^ 32
    omega
  · show h.insertBuffersFrom - toGive cfg q + 1 ≤ h.pageCacheBuffers.length
    omega
  · show 1 < h.insertBuffersFrom - toGive cfg q + 1
    omega
  · show (q.curNumBuffers - toGive cfg q + 2 ^ 32 - q.numNewBuffers) % 2 ^ 32
      ≤ h.insertBuffersFrom - toGive cfg q + 1
    omega

theorem Stocked.upstream (hs : s.Stocked) (hfactor : 2 ≤ cfg.levelFactor) {n : ℕ}
    (hok : upstream cfg s n = .ok s') : s'.Stocked := by
  rcases upstream_cases hok with rfl | ⟨q, prev, hq, hprev, hlevel, hmoved⟩
  · exact hs
  have hnum := hs.bounded.numNew_lt q (List.mem_of_getElem? hq)
  have hcur := hs.cur_lt q (List.mem_of_getElem? hq)
  have hnum' := hs.bounded.numNew_lt prev (List.mem_of_getElem? hprev)
  have hcur' := hs.cur_lt prev (List.mem_of_getElem? hprev)
  -- the queue that the buffers are pushed to is not the one that they come from
  have hsame : ∀ p : BufferQueue α, (s.queues.set n p)[n - cfg.levelFactor]? = some prev := by
    intro p
    rw [List.getElem?_set_ne (prev_ne hlevel)]
    exact hprev
  rcases hmoved with ⟨k, rfl⟩ | ⟨hnew, hpos, h, bs, hh, hle, rfl⟩
  · exact (hs.setQueue hq (numNew_lt_popMany hnum) (oldCount_popMany hcur hnum)).setQueue
      (hsame _) (numNew_lt_pushAll hnum') (oldCount_pushAll hcur' hnum')
  · have hgives : Gives cfg s (.upstream n) :=
      ⟨hlevel, q, hq, hnew, fun h0 => hpos.ne' ((toGive_eq_zero cfg q).2 h0)⟩
    exact (hs.give hfactor hq hh hgives).setQueue (hsame _) (numNew_lt_pushAll hnum')
      (oldCount_pushAll hcur' hnum')

theorem Stocked.collect (hs : s.Stocked) {n : ℕ} (hok : transfer cfg s (.collect n) = .ok s') :
    s'.Stocked := by
  rcases bind_eq_ok.1 hok with ⟨q, hq, hok⟩
  rcases bind_eq_ok.1 hok with ⟨h, hh, hok⟩
  rcases bind_eq_ok.1 hok with ⟨⟨h', q'⟩, hloop, ⟨⟩⟩
  rw [elementAt_ok] at hq hh
  rcases addLoop_sizes hloop with ⟨hinsert, hlen⟩
  rcases addLoop_spec hloop with ⟨j, -, rfl, -⟩
  have hnum := hs.bounded.numNew_lt q (List.mem_of_getElem? hq)
  have hcounts := @oldCount_popMany _ q j (hs.cur_lt q (List.mem_of_getElem? hq)) hnum
  have hmem := List.mem_of_getElem? hh
  refine hs.set (List.getElem?_eq_some_iff.1 hq).1 (numNew_lt_popMany hnum) hcounts.2 ?_
    (hlen.trans_lt (hs.bounded.length_lt h hmem)) ?_ ?_
  · rw [hinsert, hlen]
    exact hs.bounded.insert_le h hmem
  · rw [hinsert]
    exact hs.two_le h hmem
  · rw [hinsert, hcounts.1]
    exact hs.old_le n q h hq hh

theorem Stocked.step (hs : s.Stocked) (hfactor : 2 ≤ cfg.levelFactor) (hidle : t.Idle)
    (hok : transfer cfg s t = .ok s') : s'.Stocked := by
  cases t with
  | upstream n => exact hs.upstream hfactor hok
  | collect n => exact hs.collect hok
  | downstream n targets => exact hidle.elim

/-- **Between batches** an SSTable never gives away its last buffer, if its level has another
one. -/
theorem upstream_keepsOne (hfactor : 2 ≤ cfg.levelFactor) {ts : List Transfer} {s : Buffers α}
    (hs : s.Stocked) (hidle : ∀ t ∈ ts, t.Idle) (hp : ∀ t ∈ ts, Possible cfg s t) :
    AttemptsMeet (transfer cfg) (fun s t => Gives cfg s t → KeepsOne cfg s t) s ts := by
  induction ts generalizing s with
  | nil => trivial
  | cons t ts ih =>
      have hpt := hp t (by simp)
      have hit := hidle t (by simp)
      refine ⟨fun hgives => (step_keepsOne_iff hs.bounded hpt hgives).2
        (hs.enough hfactor hit hgives), fun s' hok => ?_⟩
      have hlen := (hs.bounded.step hpt hok).2
      exact ih (hs.step hfactor hit hok) (fun t' ht' => hidle t' (List.mem_cons_of_mem _ ht'))
        fun t' ht' => (hp t' (List.mem_cons_of_mem _ ht')).congr hlen

end Idle

end Buffers

end RingDB
