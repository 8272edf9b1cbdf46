import RingDB.Worker.Transfers

/-!
# Which transfers conserve the buffers

Each transfer is described by one equation between what is owned before and after it:

* `relay` moves buffers from one queue to another, and loses none as long as the other queue has
  room;
* `give` moves `insert_buffers_from` back by one too few, so the last buffer that it gives away
  stays with its owner as well (`Holding.takeBack_advance`);
* `tryAddBuffersNonblockingly` stores every buffer to the same slot and does not count it in, so
  whatever it takes is lost;
* `insertIntoWqs` loses its new buffers and, with an empty queue, takes a counter through zero and
  runs out of the array.
-/

namespace RingDB

open Core

namespace Buffers

variable {α : Type} {cfg : Config} {s s' : Buffers α} {n : ℕ} {q prev : BufferQueue α}
  {h : Holding α}

theorem WellFormed.consistentAt (hs : s.WellFormed cfg) (hq : s.queues[n]? = some q) :
    q.Consistent ∧ q.queue.length = cfg.maxBufferSetSize :=
  ⟨hs.consistent q (List.mem_of_getElem? hq), hs.length_queue q (List.mem_of_getElem? hq)⟩

/-- A transfer that touches queues only. -/
theorem WellFormed.conserves (hs : s.WellFormed cfg) {qs : List (BufferQueue α)}
    (hlen : qs.length = s.queues.length)
    (hqs : ∀ q ∈ qs, q.Consistent ∧ q.queue.length = cfg.maxBufferSetSize)
    (hsum : queueSum qs = queueSum s.queues) : Conserves cfg s { s with queues := qs } := by
  have howned : owned { s with queues := qs } = s.owned := by simp only [owned, hsum]
  refine ⟨?_, howned⟩
  exact
    { length_eq := hs.length_eq.trans hlen.symm
      length_queue := fun q hq => (hqs q hq).2
      length_buffers := hs.length_buffers
      insert_le := hs.insert_le
      buffers := hs.buffers
      consistent := fun q hq => (hqs q hq).1
      nodup := howned ▸ hs.nodup }

theorem queueSum_set (hq : s.queues[n]? = some q) (q' : BufferQueue α) :
    queueSum (s.queues.set n q') + q.entries = queueSum s.queues + q'.entries :=
  sum_map_set _ hq q'

theorem heldSum_set (hh : s.holdings[n]? = some h) (h' : Holding α) :
    heldSum (s.holdings.set n h') + h.held = heldSum s.holdings + h'.held :=
  sum_map_set _ hh h'

/-- Two queues exchanged. -/
theorem queueSum_set_set {m : ℕ} {p : BufferQueue α} (hq : s.queues[n]? = some q)
    (hp : s.queues[m]? = some p) (hne : n ≠ m) (q' p' : BufferQueue α) :
    queueSum ((s.queues.set n q').set m p') + (q.entries + p.entries)
      = queueSum s.queues + (q'.entries + p'.entries) := by
  have hp' : (s.queues.set n q')[m]? = some p := by rw [List.getElem?_set_ne hne, hp]
  have h₁ := queueSum_set hq q'
  have h₂ : queueSum ((s.queues.set n q').set m p') + p.entries
      = queueSum (s.queues.set n q') + p'.entries := sum_map_set _ hp' p'
  calc queueSum ((s.queues.set n q').set m p') + ((q.entries : Multiset α) + p.entries)
      = queueSum ((s.queues.set n q').set m p') + p.entries + q.entries := by abel
    _ = queueSum (s.queues.set n q') + q.entries + p'.entries := by rw [h₂]; abel
    _ = queueSum s.queues + (q'.entries + p'.entries) := by rw [h₁]; abel

/-- The second of two queues that are replaced is there. -/
theorem mem_set_set {β : Type} {l : List β} {m : ℕ} {p : β} (hp : l[m]? = some p) (n : ℕ)
    (a b : β) : b ∈ (l.set n a).set m b := by
  refine List.mem_of_getElem? (List.getElem?_set_self ?_)
  rw [List.length_set]
  exact (List.getElem?_eq_some_iff.1 hp).1

/-! ## Upstream -/

section Upstream

theorem toGive_eq_zero (cfg : Config) (q : BufferQueue α) :
    toGive cfg q = 0 ↔ q.curNumBuffers = 0 := by
  unfold toGive
  split_ifs with h0
  · simp [h0]
  · simp only [h0, iff_false]
    omega

theorem prev_ne (hn : cfg.levelFactor ≤ n) : n ≠ n - cfg.levelFactor := by
  have hpos := cfg.levelFactor_pos
  omega

variable (hs : s.WellFormed cfg) (hn : cfg.levelFactor ≤ n) (hq : s.queues[n]? = some q)
  (hprev : s.queues[n - cfg.levelFactor]? = some prev)

include hs hn hq hprev

/-- New buffers that are passed on are conserved if and only if the queue of the previous SSTable
has room for them. -/
theorem relay_conserves_iff :
    (∃ s', relay cfg s n = .ok s' ∧ Conserves cfg s s')
      ↔ prev.numNewBuffers + min cfg.maxSstableHeight q.numNewBuffers < cfg.maxBufferSetSize := by
  have hne := prev_ne hn
  rcases hs.consistentAt hq with ⟨hc, hlength⟩
  rcases hs.consistentAt hprev with ⟨hcp, hlengthp⟩
  have hk : min cfg.maxSstableHeight q.numNewBuffers ≤ q.numNewBuffers := Nat.min_le_right _ _
  simp only [relay, elementAt_ok.2 hq, elementAt_ok.2 hprev, bind, Except.bind, pure, Except.pure,
    Except.ok.injEq, exists_eq_left']
  generalize min cfg.maxSstableHeight q.numNewBuffers = k at hk
  rcases hc.popMany hk with ⟨hc', -, -, hlen⟩
  have hentries := hc.entries_popMany hk
  rw [← hlengthp]
  constructor
  · rintro ⟨hwf, -⟩
    have hlen31 : (BufferQueue.popMany k q).1.reverse.length ≤ 2 ^ 31 := by
      rw [List.length_reverse, hlen]
      have := hc.numNew_lt
      have := hc.length_le
      omega
    have hroom := hcp.pushAll_room hlen31 (hwf.consistent _ (mem_set_set hprev _ _ _))
    rwa [List.length_reverse, hlen] at hroom
  · intro hroom
    have hroom' : prev.numNewBuffers + (BufferQueue.popMany k q).1.reverse.length
        < prev.queue.length := by rwa [List.length_reverse, hlen]
    have hpushed := hcp.entries_pushAll hroom'
    rw [reduceOption_reverse, Multiset.coe_reverse] at hpushed
    refine hs.conserves (by simp) ?_ ?_
    · intro p hp
      rcases List.mem_or_eq_of_mem_set hp with hp | rfl
      · rcases List.mem_or_eq_of_mem_set hp with hp | rfl
        · exact ⟨hs.consistent p hp, hs.length_queue p hp⟩
        · exact ⟨hc', (BufferQueue.length_popMany _ _).trans hlength⟩
      · exact ⟨(hcp.pushAll hroom').1, (BufferQueue.length_pushAll _ _).trans hlengthp⟩
    · have hsum := queueSum_set_set hq hprev hne (BufferQueue.popMany k q).2
        (prev.pushAll (BufferQueue.popMany k q).1.reverse)
      rw [hpushed, hentries] at hsum
      refine add_right_cancel (b := ((BufferQueue.popMany k q).1.reduceOption : Multiset α)
        + (BufferQueue.popMany k q).2.entries + prev.entries) (hsum.trans ?_)
      abel

/-- The increment behind the give leaves one of the buffers with the SSTable: counted on both sides,
it is there twice. -/
theorem not_conserves_give (hh : s.holdings[n]? = some h) {bs : List (Option α)} {h' : Holding α}
    (ht : h.takeBack (toGive cfg q) = .ok (bs, h')) (hpos : toGive cfg q ≠ 0) :
    ¬ Conserves cfg s
      { holdings := s.holdings.set n h'.advance
        queues := (s.queues.set n { q with curNumBuffers := q.curNumBuffers - toGive cfg q }).set
          (n - cfg.levelFactor) (prev.pushAll bs) } := by
  rintro ⟨hwf, howned⟩
  rcases hs.consistentAt hq with ⟨hc, hlength⟩
  rcases hs.consistentAt hprev with ⟨hcp, -⟩
  rcases Holding.takeBack_spec ht with ⟨hle, hlen, -, -⟩
  rcases Holding.takeBack_advance ht hpos with ⟨y, hy, hkept⟩
  have hins := hs.insert_le h (List.mem_of_getElem? hh)
  have hlen31 : bs.length ≤ 2 ^ 31 := by
    have := hc.length_le
    omega
  have hroom := hcp.pushAll_room hlen31 (hwf.consistent _ (mem_set_set hprev _ _ _))
  have hqueues := queueSum_set_set hq hprev (prev_ne hn)
    { q with curNumBuffers := q.curNumBuffers - toGive cfg q } (prev.pushAll bs)
  have hholds := heldSum_set hh h'.advance
  have hsame : ({ q with curNumBuffers := q.curNumBuffers - toGive cfg q } :
      BufferQueue α).entries = q.entries := rfl
  rw [hsame, hcp.entries_pushAll hroom] at hqueues
  have hy' : (y.toList : Multiset α).card = 1 := by
    cases y with
    | none => exact absurd hy (hs.buffers h (List.mem_of_getElem? hh))
    | some b => rfl
  have hcard := congrArg Multiset.card howned
  have hcardq := congrArg Multiset.card hqueues
  have hcardh := congrArg Multiset.card hholds
  have hcardk := congrArg Multiset.card hkept
  simp only [owned, Multiset.card_add] at hcard hcardq hcardh hcardk
  omega

/-- An SSTable that has buffers to give away keeps one of them. -/
theorem give_conserves_iff (hh : s.holdings[n]? = some h) :
    (∃ s', give cfg s n = .ok s' ∧ Conserves cfg s s') ↔ q.curNumBuffers = 0 := by
  rw [← toGive_eq_zero cfg]
  simp only [give, elementAt_ok.2 hq, elementAt_ok.2 hprev, elementAt_ok.2 hh, bind, Except.bind]
  constructor
  · rintro ⟨s', hok, hconserves⟩
    by_contra hpos
    rw [if_neg hpos] at hok
    cases ht : h.takeBack (toGive cfg q) with
    | error e =>
        rw [ht] at hok
        cases hok
    | ok r =>
        rw [ht] at hok
        cases hok
        exact not_conserves_give hs hn hq hprev hh ht hpos hconserves
  · intro h0
    rw [if_pos h0]
    exact ⟨s, rfl, hs, rfl⟩

end Upstream

/-! ## Collecting -/

/-- The loop pops buffers as long as there are any, and none of them is counted in. -/
theorem addLoop_spec {fuel : ℕ} {h h' : Holding α} {q q' : BufferQueue α}
    (hok : addLoop fuel h q = .ok (h', q')) :
    ∃ j < fuel, q' = (BufferQueue.popMany j q).2 ∧ none ∉ (BufferQueue.popMany j q).1 ∧
      h'.used = h.used ∧ (j = 0 → q.front = none) := by
  induction fuel generalizing h q with
  | zero => cases hok
  | succ fuel ih =>
      cases hfront : q.front with
      | none =>
          simp only [addLoop, hfront] at hok
          cases hok
          exact ⟨0, Nat.succ_pos _, rfl, by simp [BufferQueue.popMany], rfl, fun _ => rfl⟩
      | some b =>
          simp only [addLoop, hfront] at hok
          split_ifs at hok
          rcases ih hok with ⟨j, hj, rfl, hnone, hused, -⟩
          refine ⟨j + 1, Nat.succ_lt_succ hj, rfl, ?_, ?_, fun h0 => absurd h0 (Nat.succ_ne_zero j)⟩
          · rw [BufferQueue.popMany, hfront]
            simpa using hnone
          · rw [hused]
            exact List.take_set_of_le (Nat.le_refl _)

/-- Whatever an SSTable collects is lost: it is in no queue any more, and below no counter. -/
theorem not_conserves_collected (hs : s.WellFormed cfg) (hq : s.queues[n]? = some q)
    (hh : s.holdings[n]? = some h) {h' : Holding α} {j : ℕ} (hj : j < q.queue.length + 1)
    (hpos : j ≠ 0) (hnone : none ∉ (BufferQueue.popMany j q).1) (hused : h'.used = h.used) :
    ¬ Conserves cfg s
      { holdings := s.holdings.set n h'
        queues := s.queues.set n (BufferQueue.popMany j q).2 } := by
  rintro ⟨hwf, howned⟩
  rcases hs.consistentAt hq with ⟨hc, -⟩
  have hmem : (BufferQueue.popMany j q).2 ∈ s.queues.set n (BufferQueue.popMany j q).2 :=
    List.mem_of_getElem? (List.getElem?_set_self (List.getElem?_eq_some_iff.1 hq).1)
  have h₁ := hc.length_le
  have h₂ := hc.numNew_lt
  -- a counter that went through zero is larger than any queue
  have hle : j ≤ q.numNewBuffers := by
    by_contra hgt
    have hnum := BufferQueue.numNew_popMany (q := q) (n := j) (by omega)
    have hlt := (hwf.consistent _ hmem).numNew_lt
    rw [hnum, BufferQueue.length_popMany] at hlt
    simp only [uintMax] at hlt
    omega
  have hlen := (hc.popMany hle).2.2.2
  have hqueues := queueSum_set hq (BufferQueue.popMany j q).2
  have hholds := heldSum_set hh h'
  have hheld : h'.held = h.held := by simp only [Holding.held, hused]
  rw [hheld] at hholds
  rw [hc.entries_popMany hle] at hqueues
  have hcount : (BufferQueue.popMany j q).1.reduceOption.length = j := by
    rw [List.reduceOption_length_eq_iff.2, hlen]
    intro x hx
    cases x with
    | none => exact absurd hx hnone
    | some b => rfl
  have hcard := congrArg Multiset.card howned
  have hcardq := congrArg Multiset.card hqueues
  have hcardh := congrArg Multiset.card hholds
  simp only [owned, Multiset.card_add, Multiset.coe_card, hcount] at hcard hcardq hcardh
  omega

theorem tryAdd_conserves_iff (hs : s.WellFormed cfg) (hq : s.queues[n]? = some q)
    (hh : s.holdings[n]? = some h) :
    (∃ s', tryAddBuffersNonblockingly s n = .ok s' ∧ Conserves cfg s s') ↔ q.front = none := by
  simp only [tryAddBuffersNonblockingly, elementAt_ok.2 hq, elementAt_ok.2 hh, bind, Except.bind]
  constructor
  · rintro ⟨s', hok, hconserves⟩
    cases hloop : addLoop (q.queue.length + 1) h q with
    | error e =>
        rw [hloop] at hok
        cases hok
    | ok r =>
        rcases r with ⟨h', q'⟩
        rw [hloop] at hok
        cases hok
        rcases addLoop_spec hloop with ⟨j, hj, rfl, hnone, hused, hstart⟩
        by_contra hne
        exact not_conserves_collected hs hq hh hj (fun h0 => hne (hstart h0)) hnone hused hconserves
  · intro hfront
    have hloop : addLoop (q.queue.length + 1) h q = .ok (h, q) := by simp only [addLoop, hfront]
    rw [hloop]
    refine ⟨_, rfl, ?_⟩
    rw [set_of_getElem? hq, set_of_getElem? hh]
    exact ⟨hs, rfl⟩

/-! ## Downstream -/

theorem keepRest_ok {k : ℕ} {h h' : Holding α} {q q' : BufferQueue α}
    (hok : keepRest k h q = .ok (h', q')) :
    k = 0 ∨ h.insertBuffersFrom + k ≤ h.pageCacheBuffers.length := by
  induction k generalizing h q with
  | zero => exact .inl rfl
  | succ k ih =>
      simp only [keepRest] at hok
      split_ifs at hok with hlt
      rcases ih hok with rfl | hle
      · exact .inr hlt
      · simp only [List.length_set] at hle
        exact .inr (by omega)

section Shares

variable {oldLimit given given' : ℕ} {targets : List (ℕ × ℕ)} {h h' : Holding α}
  {qs qs' : List (BufferQueue α)}

/-- Queues that get no share stay as they are. -/
theorem giveShares_frame {m : ℕ}
    (hok : giveShares cfg oldLimit targets given h qs = .ok (given', h', qs'))
    (hm : m ∉ targets.map Prod.fst) : qs'[m]? = qs[m]? := by
  induction targets generalizing given h qs with
  | nil =>
      cases hok
      rfl
  | cons t targets ih =>
      rcases t with ⟨m', share⟩
      rcases bind_eq_ok.1 hok with ⟨q, hq, hok⟩
      simp only [List.map_cons, List.mem_cons, not_or] at hm
      split_ifs at hok
      · rcases bind_eq_ok.1 hok with ⟨⟨bs, h₁⟩, -, hok⟩
        rw [ih hok hm.2, List.getElem?_set_ne (Ne.symm hm.1)]
      · exact ih hok hm.2

/-- **All shares.**  Together they are taken from the back of the holding; if no queue is overfull
in the end, they are in the queues. -/
theorem giveShares_spec (hlen : h.insertBuffersFrom ≤ 2 ^ 31)
    (hok : giveShares cfg oldLimit targets given h qs = .ok (given', h', qs'))
    (hnodup : (targets.map Prod.fst).Nodup) (hc : ∀ q ∈ qs, q.Consistent)
    (hc' : ∀ q ∈ qs', q.Consistent) :
    ∃ bs, h.takeBack (given' - given) = .ok (bs, h') ∧ given ≤ given' ∧
      queueSum qs' = queueSum qs + bs.reduceOption := by
  induction targets generalizing given h qs with
  | nil =>
      cases hok
      exact ⟨[], by rw [Nat.sub_self]; rfl, Nat.le_refl _, by simp⟩
  | cons t targets ih =>
      rcases t with ⟨m, share⟩
      rcases bind_eq_ok.1 hok with ⟨q, hq, hok'⟩
      rcases List.nodup_cons.1 hnodup with ⟨hm, hnodup'⟩
      split_ifs at hok'
      · rcases bind_eq_ok.1 hok' with ⟨⟨bs, h₁⟩, htake, hok₁⟩
        rcases Holding.takeBack_spec htake with ⟨hle, hlenbs, hh₁, -⟩
        have hget := elementAt_ok.1 hq
        have hlt := (List.getElem?_eq_some_iff.1 hget).1
        have hself : (qs.set m (q.pushAll bs))[m]? = some (q.pushAll bs) :=
          List.getElem?_set_self hlt
        -- the queue of this share is not touched again
        have hfinal : qs'[m]? = some (q.pushAll bs) := (giveShares_frame hok₁ hm).trans hself
        have hroom := (hc q (List.mem_of_getElem? hget)).pushAll_room (by omega)
          (hc' _ (List.mem_of_getElem? hfinal))
        have hcq := (hc q (List.mem_of_getElem? hget)).pushAll hroom
        have hc₁ : ∀ p ∈ qs.set m (q.pushAll bs), p.Consistent := by
          intro p hp
          rcases List.mem_or_eq_of_mem_set hp with hp | rfl
          · exact hc p hp
          · exact hcq.1
        have hlen₁ : h₁.insertBuffersFrom ≤ 2 ^ 31 := by
          rw [hh₁]
          exact (Nat.sub_le _ _).trans hlen
        rcases ih hlen₁ hok₁ hnodup' hc₁ with ⟨cs, htake₁, hgiven, hsum⟩
        refine ⟨bs ++ cs, ?_, by omega, ?_⟩
        · rw [← Holding.takeBack_add htake htake₁]
          congr 1
          omega
        · have hset : queueSum (qs.set m (q.pushAll bs)) + q.entries
              = queueSum qs + (q.pushAll bs).entries := sum_map_set _ hget (q.pushAll bs)
          rw [(hc q (List.mem_of_getElem? hget)).entries_pushAll hroom] at hset
          have hset' : queueSum (qs.set m (q.pushAll bs)) = queueSum qs + bs.reduceOption := by
            refine add_right_cancel (b := (q.entries : Multiset α)) (hset.trans ?_)
            abel
          rw [hsum, hset', List.reduceOption_append, ← Multiset.coe_add, add_assoc]
      · exact ih hlen hok' hnodup' hc

/-- Shares of no buffers change nothing. -/
theorem giveShares_zero
    (hin : ∀ t ∈ targets, ∃ p, qs[t.1]? = some p ∧
      (p.curNumBuffers < cfg.maxSstableHeight → t.2 = 0)) :
    giveShares cfg oldLimit targets given h qs = .ok (given, h, qs) := by
  induction targets with
  | nil => rfl
  | cons t targets ih =>
      rcases hin t (by simp) with ⟨p, hp, hzero⟩
      have ih' := ih fun t' ht' => hin t' (List.mem_cons_of_mem _ ht')
      refine bind_eq_ok.2 ⟨p, elementAt_ok.2 hp, ?_⟩
      split_ifs with hlt
      · have hself : qs.set t.1 (p.pushAll []) = qs := set_of_getElem? hp
        simp only [hzero hlt, Nat.zero_min, Holding.takeBack, bind, Except.bind, Nat.add_zero,
          hself]
        exact ih'
      · exact ih'

theorem giveShares_le
    (hok : giveShares cfg oldLimit targets given h qs = .ok (given', h', qs')) :
    given ≤ given' := by
  induction targets generalizing given h qs with
  | nil =>
      cases hok
      exact Nat.le_refl _
  | cons t targets ih =>
      rcases bind_eq_ok.1 hok with ⟨q, -, hok⟩
      split_ifs at hok
      · rcases bind_eq_ok.1 hok with ⟨⟨bs, h₁⟩, -, hok⟩
        exact (Nat.le_add_right _ _).trans (ih hok)
      · exact ih hok

/-- If nothing was given, all shares were of no buffers. -/
theorem giveShares_given (hpos : oldLimit ≠ 0)
    (hok : giveShares cfg oldLimit targets 0 h qs = .ok (0, h', qs')) :
    h' = h ∧ qs' = qs ∧ ∀ t ∈ targets, ∃ p, qs[t.1]? = some p ∧
      (p.curNumBuffers < cfg.maxSstableHeight → t.2 = 0) := by
  induction targets with
  | nil =>
      cases hok
      exact ⟨rfl, rfl, by simp⟩
  | cons t targets ih =>
      rcases bind_eq_ok.1 hok with ⟨p, hp, hrest⟩
      have hget := elementAt_ok.1 hp
      split_ifs at hrest with hlt
      · rcases bind_eq_ok.1 hrest with ⟨⟨bs, h₁⟩, htake, hrest₁⟩
        have hle := giveShares_le hrest₁
        have hshare : t.2 = 0 := by omega
        have hself : qs.set t.1 (p.pushAll []) = qs := set_of_getElem? hget
        simp only [hshare, Nat.zero_min, Holding.takeBack] at htake
        cases htake
        simp only [hshare, Nat.zero_min, Nat.add_zero, hself] at hrest₁
        rcases ih hrest₁ with ⟨hh, hqs, hall⟩
        refine ⟨hh, hqs, ?_⟩
        intro t' ht'
        rcases List.mem_cons.1 ht' with rfl | ht'
        · exact ⟨p, hget, fun _ => hshare⟩
        · exact hall t' ht'
      · rcases ih hrest with ⟨hh, hqs, hall⟩
        refine ⟨hh, hqs, ?_⟩
        intro t' ht'
        rcases List.mem_cons.1 ht' with rfl | ht'
        · exact ⟨p, hget, fun h' => absurd h' hlt⟩
        · exact hall t' ht'

end Shares

/-- SSTables of the next level, each at most once. -/
structure Targets (cfg : Config) (s : Buffers α) (n : ℕ) (targets : List (ℕ × ℕ)) : Prop where
  nodup : (targets.map Prod.fst).Nodup
  nextLevel : ∀ t ∈ targets, t.1 / cfg.levelFactor = n / cfg.levelFactor + 1
  lt : ∀ t ∈ targets, t.1 < s.queues.length

theorem Targets.ne {targets : List (ℕ × ℕ)} (ht : Targets cfg s n targets) {t : ℕ × ℕ}
    (h : t ∈ targets) : t.1 ≠ n := by
  intro heq
  have hnext := ht.nextLevel t h
  rw [heq] at hnext
  omega

/-- What `insert_into_wqs` does not lose: there is something in the queue, all of it null pointers,
which fit in the array `new_buffers`, and no SSTable of the next level gets a share. -/
structure NothingMoves (cfg : Config) (s : Buffers α) (q : BufferQueue α)
    (targets : List (ℕ × ℕ)) : Prop where
  pos : q.numNewBuffers ≠ 0
  fits : q.numNewBuffers ≤ cfg.maxSstableHeight
  null : ∀ b ∈ ringSlots q.queue q.queueFront q.numNewBuffers, b = none
  shares : oldBufferLimit cfg q = 0 ∨ ∀ t ∈ targets, ∀ p ∈ s.queues[t.1]?,
    p.curNumBuffers < cfg.maxSstableHeight → t.2 = 0

/-- The queue after its new buffers were taken out, and what is owned then. -/
theorem collect_spec (hc : q.Consistent) (hq : s.queues[n]? = some q) :
    (BufferQueue.popMany q.numNewBuffers q).2.Consistent ∧
      (BufferQueue.popMany q.numNewBuffers q).2.numNewBuffers = 0 ∧
      queueSum (s.queues.set n (BufferQueue.popMany q.numNewBuffers q).2)
        + (ringSlots q.queue q.queueFront q.numNewBuffers).reduceOption = queueSum s.queues := by
  rcases hc.popMany (Nat.le_refl _) with ⟨hc', -, hnum, -⟩
  refine ⟨hc', by rw [hnum, Nat.sub_self], ?_⟩
  have hentries := hc.entries_popMany (Nat.le_refl _)
  have hset := queueSum_set hq (BufferQueue.popMany q.numNewBuffers q).2
  rw [hentries, BufferQueue.popMany_slots hc.front_lt] at hset
  refine add_right_cancel
    (b := ((BufferQueue.popMany q.numNewBuffers q).2.entries : Multiset α)) (Eq.trans ?_ hset)
  abel

/-- A queue that is empty has its counter taken through zero, and the SSTable then runs out of its
array. -/
theorem insertIntoWqs_empty (hlen : h.pageCacheBuffers.length < uintMax)
    (hq : s.queues[n]? = some q) (hh : s.holdings[n]? = some h) (hzero : q.numNewBuffers = 0)
    (targets : List (ℕ × ℕ)) : insertIntoWqs cfg s n targets ≠ .ok s' := by
  intro hok
  rcases bind_eq_ok.1 hok with ⟨q₀, hq₀, hok₁⟩
  cases Option.some.inj (hq.symm.trans (elementAt_ok.1 hq₀))
  rcases bind_eq_ok.1 hok₁ with ⟨h₀, hh₀, hok₂⟩
  cases Option.some.inj (hh.symm.trans (elementAt_ok.1 hh₀))
  simp only [hzero, if_true] at hok₂
  by_cases hheight : cfg.maxSstableHeight < 1
  · rw [if_pos hheight] at hok₂
    cases hok₂
  rw [if_neg hheight] at hok₂
  rcases bind_eq_ok.1 hok₂ with ⟨⟨h₁, q₁⟩, hkeep, -⟩
  have hnum : (BufferQueue.popMany 1 q).2.numNewBuffers = uintMax := by
    rw [BufferQueue.numNew_popMany (by omega), hzero]
    norm_num [uintMax]
  rw [hnum] at hkeep
  rcases keepRest_ok hkeep with h0 | hroom
  · exact absurd h0 (by decide)
  · omega

/-- Otherwise the new buffers are taken out, and shares given. -/
theorem insertIntoWqs_of_pos (hlt : q.numNewBuffers < 2 ^ 32) (hq : s.queues[n]? = some q)
    (hh : s.holdings[n]? = some h) (hpos : q.numNewBuffers ≠ 0) (targets : List (ℕ × ℕ)) :
    insertIntoWqs cfg s n targets
      = if cfg.maxSstableHeight < q.numNewBuffers then .error .outOfBounds
        else if oldBufferLimit cfg q = 0 then
          .ok { s with queues := s.queues.set n (BufferQueue.popMany q.numNewBuffers q).2 }
        else
          giveShares cfg (oldBufferLimit cfg q) targets 0 h
              (s.queues.set n (BufferQueue.popMany q.numNewBuffers q).2) >>= fun r =>
            .ok
              { holdings := s.holdings.set n (if r.1 = 0 then r.2.1 else r.2.1.advance)
                queues := r.2.2 } := by
  have hnum := BufferQueue.numNew_popMany_self hlt
  simp only [insertIntoWqs, elementAt_ok.2 hq, elementAt_ok.2 hh, bind, Except.bind, if_neg hpos,
    hnum, keepRest, set_of_getElem? hh]
  rfl

theorem mem_sum_map {β : Type} {f : β → Multiset α} {l : List β} {a : β} {b : α} (ha : a ∈ l)
    (hb : b ∈ f a) : b ∈ (l.map f).sum := by
  induction l with
  | nil => cases ha
  | cons c l ih =>
      rw [List.map_cons, List.sum_cons, Multiset.mem_add]
      rcases List.mem_cons.1 ha with rfl | ha
      · exact .inl hb
      · exact .inr (ih ha)

/-- A buffer is not both held and queued. -/
theorem WellFormed.not_queued (hs : s.WellFormed cfg) (hq : s.queues[n]? = some q)
    (hh : s.holdings[n]? = some h) {b : α} (hb : b ∈ h.held) : b ∉ q.entries := by
  intro hb'
  have hdisjoint := (Multiset.nodup_add.1 hs.nodup).2.2
  exact Multiset.disjoint_left.1 hdisjoint
    (mem_sum_map (List.mem_of_getElem? hh) (Multiset.mem_coe.2 hb))
    (mem_sum_map (List.mem_of_getElem? hq) (Multiset.mem_coe.2 hb'))

section Collected

variable (hs : s.WellFormed cfg) (hq : s.queues[n]? = some q)

include hs hq

/-- If the new buffers are taken out and nothing else happens, they have to be null pointers. -/
theorem collected_null
    (howned : owned { s with queues := s.queues.set n (BufferQueue.popMany q.numNewBuffers q).2 }
      = s.owned) :
    ∀ b ∈ ringSlots q.queue q.queueFront q.numNewBuffers, b = none := by
  have hsum := (collect_spec (hs.consistentAt hq).1 hq).2.2
  have hqueues := add_left_cancel howned
  rw [hqueues] at hsum
  have hnil : ((ringSlots q.queue q.queueFront q.numNewBuffers).reduceOption : Multiset α) = 0 :=
    add_left_cancel (hsum.trans (add_zero _).symm)
  rw [Multiset.coe_eq_zero] at hnil
  intro b hb
  cases b with
  | none => rfl
  | some x =>
      have hmem := List.reduceOption_mem_iff.2 hb
      rw [hnil] at hmem
      cases hmem

theorem collected_conserves
    (hnull : ∀ b ∈ ringSlots q.queue q.queueFront q.numNewBuffers, b = none) :
    Conserves cfg s
      { s with queues := s.queues.set n (BufferQueue.popMany q.numNewBuffers q).2 } := by
  rcases hs.consistentAt hq with ⟨hc, hlength⟩
  rcases collect_spec hc hq with ⟨hc', -, hsum⟩
  have hnil : (ringSlots q.queue q.queueFront q.numNewBuffers).reduceOption = [] := by
    rw [List.reduceOption, List.filterMap_eq_nil_iff]
    exact fun b hb => hnull b hb
  refine hs.conserves (by simp) ?_ ?_
  · intro p hp
    rcases List.mem_or_eq_of_mem_set hp with hp | rfl
    · exact ⟨hs.consistent p hp, hs.length_queue p hp⟩
    · exact ⟨hc', (BufferQueue.length_popMany _ _).trans hlength⟩
  · rw [hnil, Multiset.coe_nil, add_zero] at hsum
    exact hsum

/-- Shares that are given are not conserved: the last buffer stays with its owner, and no buffer
that was lost makes up for it. -/
theorem shares_not_conserved (hh : s.holdings[n]? = some h) {targets : List (ℕ × ℕ)}
    (ht : Targets cfg s n targets) {given : ℕ} {h' : Holding α} {qs : List (BufferQueue α)}
    (hpos : given ≠ 0)
    (hok : giveShares cfg (oldBufferLimit cfg q) targets 0 h
      (s.queues.set n (BufferQueue.popMany q.numNewBuffers q).2) = .ok (given, h', qs)) :
    ¬ Conserves cfg s { holdings := s.holdings.set n h'.advance, queues := qs } := by
  rintro ⟨hwf, howned⟩
  rcases hs.consistentAt hq with ⟨hc, hlength⟩
  rcases collect_spec hc hq with ⟨hc', -, hsum⟩
  have hc₁ : ∀ p ∈ s.queues.set n (BufferQueue.popMany q.numNewBuffers q).2, p.Consistent := by
    intro p hp
    rcases List.mem_or_eq_of_mem_set hp with hp | rfl
    · exact hs.consistent p hp
    · exact hc'
  have hins : h.insertBuffersFrom ≤ 2 ^ 31 := by
    have := hs.insert_le h (List.mem_of_getElem? hh)
    have := hc.length_le
    omega
  rcases giveShares_spec hins hok ht.nodup hc₁ hwf.consistent with ⟨bs, htake, -, hgiven⟩
  rw [Nat.sub_zero] at htake
  rcases Holding.takeBack_advance htake hpos with ⟨y, hy, hkept⟩
  have hholds := heldSum_set hh h'.advance
  -- what was lost is what is there twice
  have hlost : ((ringSlots q.queue q.queueFront q.numNewBuffers).reduceOption : Multiset α)
      = y.toList := by
    classical
    refine Multiset.ext' fun b => ?_
    have h₁ := congrArg (Multiset.count b) howned
    have h₂ := congrArg (Multiset.count b) hholds
    have h₃ := congrArg (Multiset.count b) hkept
    have h₄ := congrArg (Multiset.count b) hgiven
    have h₅ := congrArg (Multiset.count b) hsum
    simp only [owned, Multiset.count_add] at h₁ h₂ h₃ h₄ h₅
    omega
  cases y with
  | none => exact hs.buffers h (List.mem_of_getElem? hh) hy
  | some b =>
      have hheld : b ∈ h.held := List.reduceOption_mem_iff.2 hy
      have hpopped : b ∈ (ringSlots q.queue q.queueFront q.numNewBuffers).reduceOption := by
        rw [← Multiset.mem_coe, hlost]
        simp
      refine hs.not_queued hq hh hheld ?_
      have hentries := hc.entries_popMany (Nat.le_refl _)
      rw [BufferQueue.popMany_slots hc.front_lt] at hentries
      rw [← Multiset.mem_coe, hentries, Multiset.mem_add]
      exact .inl (Multiset.mem_coe.2 hpopped)

/-- The call conserves the buffers if and only if it moves none. -/
theorem insertIntoWqs_conserves_iff (hh : s.holdings[n]? = some h) {targets : List (ℕ × ℕ)}
    (ht : Targets cfg s n targets) :
    (∃ s', insertIntoWqs cfg s n targets = .ok s' ∧ Conserves cfg s s')
      ↔ NothingMoves cfg s q targets := by
  by_cases hpos : q.numNewBuffers = 0
  · refine iff_of_false ?_ fun hmoves => hmoves.pos hpos
    rintro ⟨s', hok, -⟩
    rcases hs.consistentAt hq with ⟨hc, hlength⟩
    have hlen := hs.length_buffers h (List.mem_of_getElem? hh)
    have hle := hc.length_le
    refine insertIntoWqs_empty ?_ hq hh hpos targets hok
    simp only [uintMax]
    omega
  rcases hs.consistentAt hq with ⟨hc, -⟩
  have hlt : q.numNewBuffers < 2 ^ 32 := by
    have h₁ := hc.length_le
    have h₂ := hc.numNew_lt
    omega
  rw [insertIntoWqs_of_pos hlt hq hh hpos]
  have hother : ∀ t ∈ targets, (s.queues.set n (BufferQueue.popMany q.numNewBuffers q).2)[t.1]?
      = s.queues[t.1]? := fun t h' => List.getElem?_set_ne (ht.ne h').symm
  constructor
  · rintro ⟨s', hok, hcons⟩
    split_ifs at hok with hfits hold
    · cases hok
      exact ⟨hpos, Nat.not_lt.1 hfits, collected_null hs hq hcons.2, .inl hold⟩
    · rcases bind_eq_ok.1 hok with ⟨⟨given, h', qs⟩, hshares, hs'⟩
      cases hs'
      by_cases hgiven : given = 0
      · subst hgiven
        rcases giveShares_given hold hshares with ⟨rfl, rfl, hzero⟩
        have howned := hcons.2
        simp only [if_true, set_of_getElem? hh] at howned
        refine ⟨hpos, Nat.not_lt.1 hfits, collected_null hs hq howned, .inr ?_⟩
        intro t h' p hp
        rcases hzero t h' with ⟨p', hp', hz⟩
        rw [hother t h'] at hp'
        rw [Option.mem_def, hp'] at hp
        cases hp
        exact hz
      · rw [if_neg hgiven] at hcons
        exact absurd hcons (shares_not_conserved hs hq hh ht hgiven hshares)
  · rintro ⟨-, hfits, hnull, hshares⟩
    rw [if_neg (Nat.not_lt.2 hfits)]
    have hcons := collected_conserves hs hq hnull
    split_ifs with hold
    · exact ⟨_, rfl, hcons⟩
    · have hzero := hshares.resolve_left hold
      refine ⟨_, bind_eq_ok.2 ⟨_, giveShares_zero ?_, rfl⟩, ?_⟩
      · intro t h'
        rcases List.getElem?_eq_some_iff.2 ⟨ht.lt t h', rfl⟩ with hp
        exact ⟨_, (hother t h').trans hp, hzero t h' _ hp⟩
      · simp only [if_true, set_of_getElem? hh]
        exact hcons

end Collected

/-! ## All transfers -/

inductive Transfer where
  /-- SSTable `n` is idle: it passes on new buffers, or gives away its own. -/
  | upstream (n : ℕ)
  /-- SSTable `n` begins a batch of reads. -/
  | collect (n : ℕ)
  /-- SSTable `n` hands a batch to the next level, where these SSTables get a part of it. -/
  | downstream (n : ℕ) (targets : List (ℕ × ℕ))

def transfer (cfg : Config) (s : Buffers α) : Transfer → Except Fault (Buffers α)
  | .upstream n => upstream cfg s n
  | .collect n => tryAddBuffersNonblockingly s n
  | .downstream n targets => insertIntoWqs cfg s n targets

/-- The SSTables are there. -/
def Possible (cfg : Config) (s : Buffers α) : Transfer → Prop
  | .upstream n => n < s.queues.length
  | .collect n => n < s.queues.length
  | .downstream n targets => n < s.queues.length ∧ Targets cfg s n targets

/-- The transfers that go well: an SSTable of the first level does nothing; new buffers are passed
on to a queue with room for them, or there are no buffers to give; there is nothing to collect;
nothing moves downstream. -/
def GoesWell (cfg : Config) (s : Buffers α) : Transfer → Prop
  | .upstream n => n < cfg.levelFactor ∨
      ∀ q ∈ s.queues[n]?, ∀ prev ∈ s.queues[n - cfg.levelFactor]?,
        if q.numNewBuffers ≠ 0 then
          prev.numNewBuffers + min cfg.maxSstableHeight q.numNewBuffers < cfg.maxBufferSetSize
        else q.curNumBuffers = 0
  | .collect n => ∀ q ∈ s.queues[n]?, q.front = none
  | .downstream n targets => ∀ q ∈ s.queues[n]?, NothingMoves cfg s q targets

/-- A transfer from a state in which every buffer has one owner leads to such a state with the same
buffers if and only if it is one of those that go well. -/
theorem conserved_iff (cfg : Config) {s : Buffers α} (hs : s.WellFormed cfg) {t : Transfer}
    (ht : Possible cfg s t) :
    (∃ s', transfer cfg s t = .ok s' ∧ Conserves cfg s s') ↔ GoesWell cfg s t := by
  have hqueue : ∀ {n}, n < s.queues.length → ∃ q, s.queues[n]? = some q := fun hn =>
    ⟨_, List.getElem?_eq_getElem hn⟩
  have hholding : ∀ {n}, n < s.queues.length → ∃ h, s.holdings[n]? = some h := fun hn =>
    ⟨_, List.getElem?_eq_getElem (hs.length_eq.symm ▸ hn)⟩
  cases t with
  | upstream n =>
      have hlt : n < s.queues.length := ht
      by_cases hn : n < cfg.levelFactor
      · simp only [transfer, upstream, hn, if_true, GoesWell, true_or, iff_true]
        exact ⟨s, rfl, hs, rfl⟩
      · rcases hqueue hlt with ⟨q, hq⟩
        rcases hqueue (lt_of_le_of_lt (Nat.sub_le n cfg.levelFactor) hlt) with ⟨prev, hprev⟩
        rcases hholding hlt with ⟨h, hh⟩
        have hup : upstream cfg s n
            = if q.numNewBuffers ≠ 0 then relay cfg s n else give cfg s n := by
          rw [upstream, if_neg hn, elementAt_ok.2 hq]
          rfl
        simp only [transfer, hup, GoesWell, hn, false_or, hq, hprev, Option.mem_def,
          Option.some.injEq, forall_eq']
        by_cases hnew : q.numNewBuffers ≠ 0
        · rw [if_pos hnew, if_pos hnew]
          exact relay_conserves_iff hs (Nat.not_lt.1 hn) hq hprev
        · rw [if_neg hnew, if_neg hnew]
          exact give_conserves_iff hs (Nat.not_lt.1 hn) hq hprev hh
  | collect n =>
      have hlt : n < s.queues.length := ht
      rcases hqueue hlt with ⟨q, hq⟩
      rcases hholding hlt with ⟨h, hh⟩
      simp only [transfer, GoesWell, hq, Option.mem_def, Option.some.injEq, forall_eq']
      exact tryAdd_conserves_iff hs hq hh
  | downstream n targets =>
      have hlt : n < s.queues.length := ht.1
      rcases hqueue hlt with ⟨q, hq⟩
      rcases hholding hlt with ⟨h, hh⟩
      simp only [transfer, GoesWell, hq, Option.mem_def, Option.some.injEq, forall_eq']
      exact insertIntoWqs_conserves_iff hs hq hh ht.2

/-- Two SSTables of two levels, each with buffers of its own in `k` slots. -/
def twoTables (k : ℕ) (queues : List (BufferQueue ℕ)) : Buffers ℕ where
  holdings :=
    [⟨(List.range 20).map some, k⟩, ⟨(List.range' 20 20).map some, k⟩]
  queues

/-- New buffers for the second one. -/
def newBuffers : BufferQueue ℕ := (BufferQueue.new ℕ pagedConfig).pushAll [some 40, some 41]

theorem consistent_new : (BufferQueue.new ℕ pagedConfig).Consistent where
  front_lt := by decide
  length_le := by decide
  numNew_lt := by decide
  back_eq := by decide

theorem maxBufferSetSize_pagedConfig : pagedConfig.maxBufferSetSize = 20 := by decide

theorem twoTables_wellFormed {k : ℕ} {q p : BufferQueue ℕ} (hk : k ≤ 20) (hq : q.Consistent)
    (hp : p.Consistent) (hq' : q.queue.length = 20) (hp' : p.queue.length = 20)
    (hnodup : (twoTables k [q, p]).owned.Nodup) :
    (twoTables k [q, p]).WellFormed pagedConfig where
  length_eq := rfl
  length_queue := by simp [twoTables, hq', hp', maxBufferSetSize_pagedConfig]
  length_buffers := by simp [twoTables, maxBufferSetSize_pagedConfig]
  insert_le := by simp [twoTables, hk, maxBufferSetSize_pagedConfig]
  buffers := by simp [twoTables, Holding.used, ← List.map_take]
  consistent := by simp [twoTables, hq, hp]
  nodup := hnodup

/-- The second SSTable passes its new buffers on. -/
theorem conserved_relay :
    ∃ s', transfer pagedConfig (twoTables 3 [BufferQueue.new ℕ pagedConfig, newBuffers])
        (.upstream 1) = .ok s' ∧
      Conserves pagedConfig (twoTables 3 [BufferQueue.new ℕ pagedConfig, newBuffers]) s' := by
  have hnew : newBuffers.Consistent := (consistent_new.pushAll (by decide)).1
  have hwf := twoTables_wellFormed (k := 3) (by decide) consistent_new hnew rfl rfl
    (by decide +kernel)
  have hpossible : 1 < (twoTables 3 [BufferQueue.new ℕ pagedConfig, newBuffers]).queues.length := by
    decide
  refine (conserved_iff pagedConfig hwf (t := .upstream 1) hpossible).2 (.inr ?_)
  decide +kernel

/-- It has no new buffers and gives its own ones away, all twenty of them: one of these stays. -/
theorem buffer_given_and_kept :
    (twoTables 20 (List.replicate 2 (BufferQueue.new ℕ pagedConfig))).WellFormed pagedConfig ∧
      ¬ ∃ s', transfer pagedConfig (twoTables 20 (List.replicate 2 (BufferQueue.new ℕ pagedConfig)))
          (.upstream 1) = .ok s' ∧
        Conserves pagedConfig (twoTables 20 (List.replicate 2 (BufferQueue.new ℕ pagedConfig)))
          s' := by
  have hwf := twoTables_wellFormed (k := 20) (by decide) consistent_new consistent_new rfl rfl
    (by decide +kernel)
  refine ⟨hwf, fun hcons => ?_⟩
  have hcur := (give_conserves_iff hwf (n := 1) (by decide) rfl rfl rfl).1 hcons
  exact absurd hcur (by decide)

end Buffers

end RingDB
