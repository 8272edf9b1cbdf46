import RingDB.Network.Thread

/-!
# The loop of the network thread over its completion ring

Each round waits for `BATCH_NUM_REQUESTS` completions, visits every completion between the head and
the tail of the ring, and then advances the head by `BATCH_NUM_REQUESTS`, however many it has
visited.  A surplus stays in the ring and is visited again.

* `Loop.iterate` — one round, in which a group of completions arrives.
* **`visitedOnce_iff`** — every completion is visited exactly once if and only if all groups but the
  last have exactly the size by which the head is advanced.
-/

namespace RingDB.Network

open Core

variable {cfg : Config}

/-- The network thread with its completion ring. -/
structure Loop (cfg : Config) where
  net : State cfg
  /-- Every completion that was ever posted; the tail of the ring is its length. -/
  posted : List Completion := []
  head : ℕ := 0
  /-- The places in `posted` of the completions visited so far. -/
  visits : List ℕ := []

namespace Loop

/-- One round: a group of completions arrives, `io_uring_for_each_cqe` visits all there are, and
`io_uring_cq_advance` moves the head. -/
def iterate (alloc : Allocator cfg) (l : Loop cfg) (group : List Completion) :
    Except Fault (Loop cfg) := do
  let posted := l.posted ++ group
  let net ← l.net.pass alloc (posted.drop l.head)
  pure { net
         posted
         head := l.head + cfg.batchNumRequests
         visits := l.visits ++ List.range' l.head (posted.length - l.head) }

/-- Every completion that was posted has been visited once. -/
def VisitedOnce (l : Loop cfg) : Prop := ∀ k < l.posted.length, l.visits.count k = 1

/-- What holds between two rounds as long as nothing was visited twice. -/
structure Regular (l : Loop cfg) : Prop where
  once : l.VisitedOnce
  visited : ∀ k ∈ l.visits, k < l.posted.length
  head_le : l.head ≤ l.posted.length

section

variable {alloc : Allocator cfg} {l l' : Loop cfg} {group : List Completion}

theorem count_range (a n k : ℕ) :
    (List.range' a n).count k = if a ≤ k ∧ k < a + n then 1 else 0 := by
  rw [List.Nodup.count (List.nodup_range' 1)]
  simp only [List.mem_range'_1]

theorem iterate_cases (h : l.iterate alloc group = .ok l') :
    l'.posted = l.posted ++ group ∧ l'.head = l.head + cfg.batchNumRequests ∧
      l'.visits = l.visits
        ++ List.range' l.head (l.posted.length + group.length - l.head) := by
  rcases bind_eq_ok.1 h with ⟨net, -, h⟩
  cases h
  exact ⟨rfl, rfl, by rw [List.length_append]⟩

/-- A round that begins where the last one ended visits what is new. -/
theorem Regular.next (hr : l.Regular) (hhead : l.head = l.posted.length)
    (hsize : cfg.batchNumRequests ≤ group.length) (h : l.iterate alloc group = .ok l') :
    l'.Regular := by
  rcases iterate_cases h with ⟨hposted, hhead', hvisits⟩
  have hrange : l.posted.length + group.length - l.head = group.length := by omega
  rw [hrange, hhead] at hvisits
  constructor
  · intro k hk
    rw [hposted, List.length_append] at hk
    rw [hvisits, List.count_append, count_range]
    by_cases hold : k < l.posted.length
    · rw [hr.once k hold, if_neg (by omega)]
    · have hnew : l.visits.count k = 0 :=
        List.count_eq_zero.2 fun hmem => hold (hr.visited k hmem)
      rw [hnew, if_pos (by omega)]
  · intro k hk
    rw [hposted, List.length_append]
    rw [hvisits, List.mem_append, List.mem_range'_1] at hk
    rcases hk with hk | hk
    · have := hr.visited k hk
      omega
    · omega
  · rw [hhead', hposted, List.length_append]
    omega

/-- Visits are only ever added. -/
theorem visits_run {groups : List (List Completion)}
    (h : runEvents (iterate alloc) l groups = .ok l') :
    l.visits <+: l'.visits ∧ l.posted.length ≤ l'.posted.length := by
  induction groups generalizing l with
  | nil =>
      cases h
      exact ⟨List.prefix_rfl, Nat.le_refl _⟩
  | cons g groups ih =>
      rcases runEvents_cons_eq_ok h with ⟨t, ht, h⟩
      rcases iterate_cases ht with ⟨hposted, -, hvisits⟩
      rcases ih h with ⟨hpre, hle⟩
      rw [hvisits] at hpre
      rw [hposted, List.length_append] at hle
      exact ⟨(List.prefix_append _ _).trans hpre, by omega⟩

/-- A surplus is visited again. -/
theorem Regular.surplus {groups : List (List Completion)} (hr : l.Regular)
    (hhead : l.head < l.posted.length) (hne : groups ≠ [])
    (h : runEvents (iterate alloc) l groups = .ok l') : ¬ l'.VisitedOnce := by
  cases groups with
  | nil => exact absurd rfl hne
  | cons g groups =>
      rcases runEvents_cons_eq_ok h with ⟨t, ht, h⟩
      rcases iterate_cases ht with ⟨hposted, -, hvisits⟩
      rcases visits_run h with ⟨hpre, hle⟩
      intro honce
      have htwice : t.visits.count l.head = 2 := by
        rw [hvisits, List.count_append, hr.once l.head hhead, count_range,
          if_pos (by omega)]
      have hmono := hpre.sublist.count_le l.head
      have hlt : l.head < l'.posted.length := by
        rw [hposted, List.length_append] at hle
        omega
      rw [htwice, honce l.head hlt] at hmono
      omega

theorem Regular.once_iff {groups : List (List Completion)} (hr : l.Regular)
    (hsize : ∀ g ∈ groups, cfg.batchNumRequests ≤ g.length)
    (h : runEvents (iterate alloc) l groups = .ok l') :
    l'.VisitedOnce ↔ (groups = [] ∨ l.head = l.posted.length)
      ∧ ∀ g ∈ groups.dropLast, g.length = cfg.batchNumRequests := by
  induction groups generalizing l with
  | nil =>
      cases h
      exact iff_of_true hr.once ⟨.inl rfl, fun _ hg => absurd hg List.not_mem_nil⟩
  | cons g groups ih =>
      by_cases hhead : l.head = l.posted.length
      · rcases runEvents_cons_eq_ok h with ⟨t, ht, hrun⟩
        have hg := hsize g List.mem_cons_self
        have hrest := ih (hr.next hhead hg ht)
          (fun g' hg' => hsize g' (List.mem_cons_of_mem _ hg')) hrun
        rcases iterate_cases ht with ⟨hposted, hhead', -⟩
        -- the head catches up with the tail exactly if the group had the size of the advance
        have hcatch : t.head = t.posted.length ↔ g.length = cfg.batchNumRequests := by
          rw [hposted, hhead', hhead, List.length_append]
          omega
        rw [hrest, hcatch]
        cases groups with
        | nil => simp [hhead]
        | cons g' groups => simp [hhead]
      · refine iff_of_false (hr.surplus (by have := hr.head_le; omega) (by simp) h) ?_
        simp [hhead]

end

end Loop

/-- **When every completion is visited once.**  The completions arrive in groups of at least
`BATCH_NUM_REQUESTS` per wait.  After any number of rounds each of them has been visited exactly
once if and only if every group but the last has exactly `BATCH_NUM_REQUESTS` completions. -/
theorem visitedOnce_iff (alloc : Allocator cfg) (net : State cfg)
    (groups : List (List Completion)) (l : Loop cfg)
    (hsize : ∀ g ∈ groups, cfg.batchNumRequests ≤ g.length)
    (hrun : runEvents (Loop.iterate alloc) { net } groups = .ok l) :
    l.VisitedOnce ↔ ∀ g ∈ groups.dropLast, g.length = cfg.batchNumRequests := by
  have hr : Loop.Regular { net } :=
    ⟨fun k hk => absurd hk (Nat.not_lt_zero k), fun k hk => absurd hk List.not_mem_nil,
      Nat.le_refl 0⟩
  rw [hr.once_iff hsize hrun]
  simp

/-- The network thread of `pairConfig`, with three places for connections. -/
def idleLoop : Loop pairConfig where
  net := State.start (.zeroed pairConfig) [] (fun _ => 0) (.new 3 0)

/-- `n` accepts that found no connection. -/
def failedAccepts (n : ℕ) : List Completion := List.replicate n (.accept 0 true)

/-- A group of two, by which the head is advanced, and one of three after it. -/
theorem visitedOnce_two_three :
    ∃ l, runEvents (Loop.iterate (.zeroed pairConfig)) idleLoop
        [failedAccepts 2, failedAccepts 3] = .ok l ∧ l.VisitedOnce := by
  obtain ⟨l, hl, -⟩ := okAnd_iff.1 (show okAnd (runEvents (Loop.iterate (.zeroed pairConfig))
    idleLoop [failedAccepts 2, failedAccepts 3]) (fun _ => true) = true by decide +kernel)
  exact ⟨l, hl, (visitedOnce_iff _ _ _ l (by decide) hl).2 (by decide)⟩

/-- The other way round the third completion is visited in both rounds. -/
theorem surplus_visited_twice :
    ∃ l, runEvents (Loop.iterate (.zeroed pairConfig)) idleLoop
        [failedAccepts 3, failedAccepts 2] = .ok l
      ∧ l.visits = [0, 1, 2, 2, 3, 4] ∧ ¬ l.VisitedOnce := by
  obtain ⟨l, hl, htest⟩ := okAnd_iff.1 (show okAnd (runEvents (Loop.iterate (.zeroed pairConfig))
    idleLoop [failedAccepts 3, failedAccepts 2])
    (fun l => decide (l.visits = [0, 1, 2, 2, 3, 4]) && decide (l.posted.length = 5)) = true
    by decide +kernel)
  simp only [Bool.and_eq_true, decide_eq_true_eq] at htest
  refine ⟨l, hl, htest.1, fun honce => ?_⟩
  have htwo := honce 2 (by rw [htest.2]; decide)
  rw [htest.1] at htwo
  exact absurd htwo (by decide)

end RingDB.Network
