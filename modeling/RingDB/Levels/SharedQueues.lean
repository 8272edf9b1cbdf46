import RingDB.Core.Pointwise
import RingDB.Levels.System

/-!
# Wait queues of a level, single-threaded and shared

A queue that several threads use is *shared*: its producer guard has to be had before a push, and
its consumer guard before a pop.  Both guards are constructed as 1 and released to 1.  So the loop
of `insert_into_wqs`, which tries with a fresh 0 every time, never has the guard of a shared queue;
and a worker, whose loop tries with the 1 that it found, always has it and pops from an empty list.

Here a level has any mix of the two, and a decomposition any parts.

* `Shows` — what a queue is to its users: a list of batches, or shared.
* `Passed.pass`, `Passed.pass_again` — one pass of the loop does all it ever does.
* **`queues_of_level`** — insertions and pops on a level in any order are those of FIFO lists; an
  insertion into a shared queue never returns, and a pop from one has no node to follow.
-/

namespace RingDB

open Core Enqueue

variable {cfg : Config}

/-! ## Queues as they are used -/

/-- What a queue is to those who use it: the list of a single-threaded queue, or nothing. -/
def Shows (q : WaitQueue) : Option (List ℕ) → Prop
  | some l => Quiet q l
  | none => q.isSingleThread = false ∧ q.producerGuard ≠ 0 ∧ q.front = none

/-- A decomposition that counts its parts, the catch-all among them. -/
structure Counted (cfg : Config) where
  decomp : Decomposition cfg
  numReqBatches_eq : decomp.numReqBatches = decomp.slots.data.countP Option.isSome

/-- What happens to the queues of a level. -/
inductive QueueEvent (cfg : Config) where
  /-- `insert_into_wqs`, with what it finds in `could_contend_with_consumer`. -/
  | insert (d : Counted cfg) (stale : List Bool)
  /-- A worker takes the first batch of an SSTable. -/
  | take (i : ℕ)

/-- The queues of a level, and what was taken from which. -/
structure LevelQueues where
  queues : List WaitQueue
  taken : List (ℕ × Option ℕ) := []

/-- One event; the loop of an insertion is observed for `fuel` passes.  The consumer guard, which is
1, is had by the second exchange, and released by the pop. -/
def LevelQueues.step (fuel : ℕ) (s : LevelQueues) : QueueEvent cfg → Except Fault LevelQueues
  | .insert d stale => do
      let queues ← enqueue d.decomp fuel s.queues stale
      pure { s with queues }
  | .take i =>
      match s.queues[i]? with
      | none => .error .outOfBounds
      | some q => do
          let (q, b) ← q.popFront
          pure { queues := s.queues.set i q, taken := s.taken ++ [(i, b)] }

/-- The lists of a level, and what was taken from which. -/
structure LevelLists where
  lists : List (Option (List ℕ))
  taken : List (ℕ × Option ℕ) := []

/-- A part is for a shared queue. -/
def NeedsShared (d : Decomposition cfg) (lists : List (Option (List ℕ))) : Prop :=
  ∃ i ∈ List.range cfg.levelFactor, (part d i).isSome = true ∧ lists[i]? = some none

instance (d : Decomposition cfg) (lists : List (Option (List ℕ))) :
    Decidable (NeedsShared d lists) := List.decidableBEx _ _

/-- An insertion on the lists: every part goes to its list, the catch-all behind the first. -/
def deliverToLists (d : Decomposition cfg) (lists : List (Option (List ℕ))) :
    Except Fault (List (Option (List ℕ))) :=
  if d.totalDecompSize = 0 then .error .divByZero
  else if d.numReqBatches = 0 then .ok lists
  else if NeedsShared d lists then .error .diverges
  else
    match firstPart d with
    | none => .error .diverges
    | some j => .ok (lists.mapIdx fun i l => l.map fun l =>
        l ++ (part d i).toList ++ if i = j then (part d cfg.levelFactor).toList else [])

def LevelLists.step (s : LevelLists) : QueueEvent cfg → Except Fault LevelLists
  | .insert d _ => do
      let lists ← deliverToLists d.decomp s.lists
      pure { s with lists }
  | .take i =>
      match s.lists[i]? with
      | none => .error .outOfBounds
      | some none => .error .nullDeref
      | some (some l) =>
          .ok {
            lists := s.lists.modify i (Option.map List.tail)
            taken := s.taken ++ [(i, l.head?)] }

/-- The lists are what the queues of the level show. -/
structure ShowsLevel (cfg : Config) (s : LevelQueues) (t : LevelLists) : Prop where
  length : s.queues.length = cfg.levelFactor
  shows : List.Forall₂ Shows s.queues t.lists
  taken : s.taken = t.taken

/-! ## One pass of the loop -/

/-- A stricter predicate counts less, if it leaves one element out. -/
theorem countP_lt_countP {α : Type*} {p q : α → Bool} {l : List α} {a : α}
    (hpq : ∀ b ∈ l, p b = true → q b = true) (ha : a ∈ l) (hq : q a = true) (hp : p a = false) :
    l.countP p < l.countP q := by
  rcases List.append_of_mem ha with ⟨s, t, rfl⟩
  have hs : s.countP p ≤ s.countP q := List.countP_mono_left fun b hb => hpq b (by simp [hb])
  have ht : t.countP p ≤ t.countP q := List.countP_mono_left fun b hb => hpq b (by simp [hb])
  simp only [List.countP_append, List.countP_cons, hq, hp, if_true, Bool.false_eq_true, if_false]
  omega

namespace Enqueue

section Pass

variable {d : Decomposition cfg} {lists : List (Option (List ℕ))}

/-- A part whose queue is single-threaded. -/
def served (d : Decomposition cfg) (lists : List (Option (List ℕ))) (i : ℕ) : Bool :=
  (part d i).isSome && lists[i]?.join.isSome

/-- An SSTable below `k` was served. -/
def begun (d : Decomposition cfg) (lists : List (Option (List ℕ))) (k : ℕ) : Bool :=
  (List.range k).any (served d lists)

theorem begun_succ (k : ℕ) : begun d lists (k + 1) = (begun d lists k || served d lists k) := by
  simp only [begun, List.range_succ, List.any_append, List.any_cons, List.any_nil, Bool.or_false]

/-- What SSTable `i` is given: its part, and the catch-all if no other was served before. -/
def load (d : Decomposition cfg) (lists : List (Option (List ℕ))) (i : ℕ) : List ℕ :=
  (part d i).toList ++ if served d lists i && !begun d lists i then
    (part d cfg.levelFactor).toList else []

/-- The lists when the SSTables below `k` were given their loads. -/
def loaded (d : Decomposition cfg) (lists : List (Option (List ℕ))) :
    ℕ → List (Option (List ℕ))
  | 0 => lists
  | k + 1 => (loaded d lists k).modify k (Option.map (· ++ load d lists k))

theorem loaded_getElem? (k i : ℕ) :
    (loaded d lists k)[i]?
      = if i < k then lists[i]?.map (Option.map (· ++ load d lists i)) else lists[i]? := by
  induction k with
  | zero => rw [loaded, if_neg (Nat.not_lt_zero _)]
  | succ k ih =>
      rw [loaded, List.getElem?_modify, ih]
      rcases Nat.lt_trichotomy i k with h | rfl | h
      · rw [if_pos h, if_pos (by omega)]
        simp [Nat.ne_of_gt h]
      · simp
      · rw [if_neg (by omega), if_neg (by omega)]
        simp [Nat.ne_of_lt h]

/-- The loop when it has been at the SSTables below `k`. -/
structure Passed (d : Decomposition cfg) (lists : List (Option (List ℕ))) (k : ℕ) (st : Enqueue) :
    Prop where
  shows : List.Forall₂ Shows st.queues (loaded d lists k)
  length_inserted : st.inserted.length = cfg.levelFactor
  inserted : ∀ i < cfg.levelFactor,
    st.inserted.getD i false = (decide (i < k) && served d lists i)
  catchAll : st.catchAll = if begun d lists k then none else part d cfg.levelFactor
  numQueued : st.numQueued = (List.range k).countP (served d lists)
    + if begun d lists k then (part d cfg.levelFactor).toList.length else 0

theorem served_eq_false_iff {i : ℕ} :
    served d lists i = false ↔ part d i = none ∨ lists[i]?.join = none := by
  rw [served, Bool.and_eq_false_iff, Option.isSome_eq_false_iff, Option.isNone_iff_eq_none,
    Option.isSome_eq_false_iff, Option.isNone_iff_eq_none]

/-- A list that no part goes to stays as it is. -/
theorem loaded_succ_of_not_served {k : ℕ} (h : served d lists k = false) :
    loaded d lists (k + 1) = loaded d lists k := by
  apply List.ext_getElem?
  intro i
  rw [loaded, List.getElem?_modify]
  by_cases hi : k = i
  · subst hi
    rw [loaded_getElem?, if_neg (Nat.lt_irrefl k)]
    simp only [if_true, Option.map_eq_map]
    rcases served_eq_false_iff.1 h with hpart | hlist
    · simp [load, hpart, h]
    · rcases hk : lists[k]? with _ | _ | l
      · rfl
      · rfl
      · rw [hk] at hlist
        cases hlist
  · simp [hi]

/-- An SSTable that is not served leaves everything as it is. -/
theorem Passed.skip {k : ℕ} {st : Enqueue} (h : Passed d lists k st)
    (hserved : served d lists k = false) : Passed d lists (k + 1) st := by
  have hbegun : begun d lists (k + 1) = begun d lists k := by
    rw [begun_succ, hserved, Bool.or_false]
  refine ⟨?_, h.length_inserted, fun i hi => ?_, ?_, ?_⟩
  · rw [loaded_succ_of_not_served hserved]
    exact h.shows
  · rw [h.inserted i hi]
    rcases Nat.lt_or_ge i k with hik | hik
    · simp [hik, Nat.lt_succ_of_lt hik]
    · rcases Nat.eq_or_lt_of_le hik with rfl | hik
      · simp [hserved]
      · simp [Nat.not_lt.2 hik.le, show ¬ i < k + 1 by omega]
  · rw [hbegun]
    exact h.catchAll
  · rw [hbegun, List.range_succ, List.countP_append, List.countP_singleton, hserved]
    exact h.numQueued

/-- What the catch-all does to a quiet queue. -/
theorem ride_quiet (st : Enqueue) {q : WaitQueue} {l : List ℕ} (hq : Quiet q l) :
    ∃ q', st.ride q = .ok (q', st.numQueued + 1 + st.catchAll.toList.length)
      ∧ Quiet q' (l ++ st.catchAll.toList) := by
  cases hcatch : st.catchAll with
  | none => exact ⟨q, by simp only [ride, hcatch]; rfl, by simpa using hq⟩
  | some c =>
      rcases WaitQueue.standardPushBack_holds hq.1 c hq.2 with ⟨q', hpush, hholds, hs⟩
      exact ⟨q', by simp only [ride, hcatch, hpush]; rfl, hholds, hs⟩

/-- A push onto a quiet queue, and what rides on it. -/
theorem push_quiet (st : Enqueue) (k p : ℕ) {q : WaitQueue} {l : List ℕ} (hq : Quiet q l) :
    ∃ q', st.push k p q = .ok { st with
          queues := st.queues.set k q'
          inserted := st.inserted.set k true
          couldContendWithConsumer := st.couldContendWithConsumer.set k false
          catchAll := none
          numQueued := st.numQueued + 1 + st.catchAll.toList.length }
      ∧ Quiet q' (l ++ [p] ++ st.catchAll.toList) := by
  rcases WaitQueue.tryPushBack_holds hq.1 p (st.couldContendWithConsumer.getD k false) hq.2 with
    ⟨q₁, hpush, hholds, hs⟩
  rcases ride_quiet { st with
    couldContendWithConsumer := st.couldContendWithConsumer.set k false } ⟨hholds, hs⟩ with
    ⟨q', hride, hquiet⟩
  refine ⟨q', ?_, hquiet⟩
  simp only [push, hpush, hride, hquiet.2, bind, Except.bind, pure, Except.pure, Bool.not_true,
    if_true]

/-- An SSTable that is served. -/
theorem Passed.serve {k p : ℕ} {l : List ℕ} {st : Enqueue} {q : WaitQueue}
    (h : Passed d lists k st) (hpart : part d k = some p)
    (hl : lists[k]? = some (some l)) (stale : List Bool)
    (hq : Quiet q (l ++ [p] ++ st.catchAll.toList)) :
    Passed d lists (k + 1) { st with
      queues := st.queues.set k q
      inserted := st.inserted.set k true
      couldContendWithConsumer := stale
      catchAll := none
      numQueued := st.numQueued + 1 + st.catchAll.toList.length } := by
  have hserved : served d lists k = true := by simp [served, hpart, hl]
  have hbegun : begun d lists (k + 1) = true := by rw [begun_succ, hserved, Bool.or_true]
  have hload : load d lists k = [p] ++ st.catchAll.toList := by
    rw [load, hpart, hserved, h.catchAll]
    cases begun d lists k <;> rfl
  refine ⟨?_, ?_, fun i hi => ?_, ?_, ?_⟩
  · refine forall₂_set_modify h.shows fun o ho => ?_
    rw [loaded_getElem?, if_neg (Nat.lt_irrefl k), hl] at ho
    cases ho
    rw [hload, Option.map_some, ← List.append_assoc]
    exact hq
  · simpa using h.length_inserted
  · rw [List.getD_eq_getElem?_getD, List.getElem?_set]
    by_cases hik : k = i
    · subst hik
      simp [h.length_inserted, hi, hserved]
    · rw [if_neg hik, ← List.getD_eq_getElem?_getD, h.inserted i hi]
      congr 1
      exact decide_eq_decide.2 (by omega)
  · rw [hbegun]
    rfl
  · rw [hbegun, List.range_succ, List.countP_append, List.countP_singleton, hserved]
    change st.numQueued + 1 + st.catchAll.toList.length = _
    rw [h.numQueued, h.catchAll]
    cases begun d lists k
    · simp
    · simp only [if_true, Option.toList_none, List.length_nil]
      omega

/-- **One SSTable.** -/
theorem Passed.offer {k : ℕ} {st : Enqueue} (h : Passed d lists k st) (hk : k < cfg.levelFactor)
    (hlen : st.queues.length = cfg.levelFactor) :
    ∃ st', Enqueue.offer d k st = .ok st' ∧ st'.queues.length = cfg.levelFactor
      ∧ Passed d lists (k + 1) st' := by
  have hqueue : st.queues[k]? = some st.queues[k] := List.getElem?_eq_getElem (by omega)
  rcases forall₂_getElem? h.shows hqueue with ⟨o, ho, hshows⟩
  rw [loaded_getElem?, if_neg (Nat.lt_irrefl k)] at ho
  cases hpart : part d k with
  | none =>
      exact ⟨st, offer_null (by omega) hpart, hlen,
        h.skip (served_eq_false_iff.2 (Or.inl hpart))⟩
  | some p =>
      have hins : st.inserted.getD k false = false := by
        rw [h.inserted k hk, decide_eq_false (Nat.lt_irrefl k), Bool.false_and]
      cases o with
      | none =>
          -- a shared queue: its guard is not 0
          refine ⟨st, ?_, hlen, h.skip (served_eq_false_iff.2 (Or.inr (by rw [ho]; rfl)))⟩
          simp only [Enqueue.offer, hqueue, hpart, hins, hshows.1, hshows.2.1, if_false,
            Bool.false_eq_true]
      | some l =>
          rcases push_quiet st k p hshows with ⟨q, hpush, hquiet⟩
          refine ⟨_, ?_, ?_, h.serve hpart ho (st.couldContendWithConsumer.set k false) hquiet⟩
          · simp only [Enqueue.offer, hqueue, hpart, hins, hshows.2, Bool.false_eq_true, if_false,
              if_true]
            exact hpush
          · simpa using hlen

/-- **One pass.** -/
theorem Passed.pass {n k : ℕ} {st : Enqueue} (h : Passed d lists k st)
    (hn : k + n = cfg.levelFactor) (hlen : st.queues.length = cfg.levelFactor) :
    ∃ st', Enqueue.pass d n k st = .ok st' ∧ st'.queues.length = cfg.levelFactor
      ∧ Passed d lists cfg.levelFactor st' := by
  induction n generalizing k st with
  | zero => exact ⟨st, rfl, hlen, by rwa [← hn]⟩
  | succ n ih =>
      rcases h.offer (by omega) hlen with ⟨st₁, hoffer, hlen₁, h₁⟩
      rcases ih h₁ (by omega) hlen₁ with ⟨st', hpass, hlen', h'⟩
      refine ⟨st', ?_, hlen', h'⟩
      rw [Enqueue.pass, hoffer]
      exact hpass

/-- Behind a pass, no SSTable takes anything any more. -/
theorem Passed.offer_again {i : ℕ} {st : Enqueue} (h : Passed d lists cfg.levelFactor st)
    (hi : i < cfg.levelFactor) (hlen : st.queues.length = cfg.levelFactor) :
    Enqueue.offer d i st = .ok st := by
  have hqueue : st.queues[i]? = some st.queues[i] := List.getElem?_eq_getElem (by omega)
  rcases forall₂_getElem? h.shows hqueue with ⟨o, ho, hshows⟩
  rw [loaded_getElem?, if_pos hi] at ho
  cases hpart : part d i with
  | none => exact offer_null (by omega) hpart
  | some p =>
      rcases hl : lists[i]? with _ | _ | l
      · rw [hl] at ho
        cases ho
      · rw [hl] at ho
        cases ho
        have hins : st.inserted.getD i false = false := by
          rw [h.inserted i hi, served_eq_false_iff.2 (Or.inr (by rw [hl]; rfl)), Bool.and_false]
        simp only [Enqueue.offer, hqueue, hpart, hins, hshows.1, hshows.2.1, if_false,
          Bool.false_eq_true]
      · have hins : st.inserted.getD i false = true := by
          rw [h.inserted i hi]
          simp [hi, served, hpart, hl]
        simp only [Enqueue.offer, hqueue, hpart, hins, if_true]

/-- **A further pass does nothing.** -/
theorem Passed.pass_again {n i : ℕ} {st : Enqueue} (h : Passed d lists cfg.levelFactor st)
    (hn : i + n = cfg.levelFactor) (hlen : st.queues.length = cfg.levelFactor) :
    Enqueue.pass d n i st = .ok st := by
  induction n generalizing i with
  | zero => rfl
  | succ n ih =>
      rw [Enqueue.pass, h.offer_again (by omega) hlen]
      exact ih (by omega)

/-- What the loop comes to: it ends behind the first pass or never. -/
theorem Passed.enqueueLoop {st : Enqueue} (h : Passed d lists cfg.levelFactor st)
    (hlen : st.queues.length = cfg.levelFactor) (fuel : ℕ) :
    Enqueue.enqueueLoop d fuel st
      = if st.numQueued < d.numReqBatches then .error .diverges else .ok st := by
  induction fuel with
  | zero => rw [Enqueue.enqueueLoop]
  | succ fuel ih =>
      rw [Enqueue.enqueueLoop]
      split_ifs with hmore
      · rw [h.pass_again (Nat.zero_add _) hlen]
        change Enqueue.enqueueLoop d fuel st = _
        rw [ih, if_pos hmore]
      · rfl

/-! ## What has been counted -/

/-- The parts and the catch-all, counted. -/
theorem countP_slots (d : Decomposition cfg) :
    d.slots.data.countP Option.isSome
      = (List.range cfg.levelFactor).countP (fun i => (part d i).isSome)
        + (part d cfg.levelFactor).toList.length := by
  have hdata : d.slots.data = (List.range (cfg.levelFactor + 1)).map (part d) := by
    refine List.ext_getElem (by simp [d.slots.length_data]) fun i hi _ => ?_
    rw [List.getElem_map, List.getElem_range, part, List.getElem?_eq_getElem hi]
    rfl
  rw [hdata, List.range_succ, List.map_append, List.countP_append, List.countP_map]
  cases h : part d cfg.levelFactor <;> simp [h, Function.comp_def]

theorem not_needsShared_iff :
    ¬ NeedsShared d lists ↔
      ∀ i < cfg.levelFactor, (part d i).isSome = true → lists[i]? ≠ some none := by
  simp [NeedsShared]

/-- Where no shared queue is needed, every part is served. -/
theorem served_of_not_needsShared (hlen : lists.length = cfg.levelFactor)
    (h : ¬ NeedsShared d lists) {i : ℕ} (hi : i < cfg.levelFactor) :
    served d lists i = (part d i).isSome := by
  rw [served]
  cases hpart : (part d i).isSome
  · rfl
  · have hne := not_needsShared_iff.1 h i hi hpart
    have hlt : i < lists.length := by omega
    rw [List.getElem?_eq_getElem hlt] at hne ⊢
    rcases hl : lists[i] with _ | l
    · rw [hl] at hne
      exact absurd rfl hne
    · rfl

theorem firstPart_eq_some_iff {j : ℕ} :
    firstPart d = some j
      ↔ j < cfg.levelFactor ∧ (part d j).isSome = true ∧ ∀ i < j, (part d i).isSome = false := by
  rw [firstPart, List.find?_range_eq_some]
  simp [and_left_comm]

theorem firstPart_eq_none_iff :
    firstPart d = none ↔ ∀ i < cfg.levelFactor, (part d i).isSome = false := by
  simp [firstPart]

theorem begun_eq_true_iff {k : ℕ} : begun d lists k = true ↔ ∃ i < k, served d lists i = true := by
  simp [begun]

/-- **When the loop goes on for ever**: a part is for a shared queue, or the catch-all is alone. -/
theorem Passed.numQueued_lt_iff {st : Enqueue} (h : Passed d lists cfg.levelFactor st)
    (hlen : lists.length = cfg.levelFactor) (hnum : d.numReqBatches ≠ 0)
    (hcount : d.numReqBatches = d.slots.data.countP Option.isSome) :
    st.numQueued < d.numReqBatches ↔ NeedsShared d lists ∨ firstPart d = none := by
  rw [hcount, countP_slots] at hnum ⊢
  rw [h.numQueued]
  by_cases hshared : NeedsShared d lists
  · refine iff_of_true ?_ (Or.inl hshared)
    rcases hshared with ⟨i, hi, hpart, hl⟩
    have hlt : (List.range cfg.levelFactor).countP (served d lists)
        < (List.range cfg.levelFactor).countP fun i => (part d i).isSome :=
      countP_lt_countP (fun i _ hi => (Bool.and_eq_true_iff.1 hi).1) hi hpart
        (served_eq_false_iff.2 (Or.inr (congrArg Option.join hl)))
    split_ifs
    · exact Nat.add_lt_add_right hlt _
    · exact Nat.add_lt_add_of_lt_of_le hlt (Nat.zero_le _)
  · have heq : (List.range cfg.levelFactor).countP (served d lists)
        = (List.range cfg.levelFactor).countP fun i => (part d i).isSome :=
      List.countP_congr fun i hi => by
        rw [served_of_not_needsShared hlen hshared (List.mem_range.1 hi)]
    cases hfirst : firstPart d with
    | none =>
        refine iff_of_true ?_ (Or.inr rfl)
        have hnone := firstPart_eq_none_iff.1 hfirst
        have hzero : (List.range cfg.levelFactor).countP (fun i => (part d i).isSome) = 0 :=
          List.countP_eq_zero.2 fun i hi => by simp [hnone i (List.mem_range.1 hi)]
        have hbegun : begun d lists cfg.levelFactor = false := by
          rw [Bool.eq_false_iff, Ne, begun_eq_true_iff]
          rintro ⟨i, hi, hs⟩
          rw [served_of_not_needsShared hlen hshared hi, hnone i hi] at hs
          cases hs
        rw [heq, hzero, hbegun, if_neg Bool.false_ne_true]
        omega
    | some j =>
        refine iff_of_false ?_ (by simp [hshared])
        rcases firstPart_eq_some_iff.1 hfirst with ⟨hj, hpart, -⟩
        have hbegun : begun d lists cfg.levelFactor = true :=
          begun_eq_true_iff.2 ⟨j, hj, by rw [served_of_not_needsShared hlen hshared hj, hpart]⟩
        rw [heq, if_pos hbegun]
        exact Nat.lt_irrefl _

/-- The lists behind the loop, when every part is served. -/
theorem loaded_of_not_needsShared (hlen : lists.length = cfg.levelFactor)
    (hshared : ¬ NeedsShared d lists) {j : ℕ} (hfirst : firstPart d = some j) :
    loaded d lists cfg.levelFactor = lists.mapIdx fun i l => l.map fun l =>
      l ++ (part d i).toList ++ if i = j then (part d cfg.levelFactor).toList else [] := by
  rcases firstPart_eq_some_iff.1 hfirst with ⟨hj, hpart, hbefore⟩
  have hrider : ∀ i < cfg.levelFactor,
      (served d lists i && !begun d lists i) = true ↔ i = j := by
    intro i hi
    rw [served_of_not_needsShared hlen hshared hi, Bool.and_eq_true, Bool.not_eq_true',
      Bool.eq_false_iff, Ne, begun_eq_true_iff]
    constructor
    · rintro ⟨hpart', hbegun⟩
      rcases Nat.lt_trichotomy i j with h | h | h
      · rw [hbefore i h] at hpart'
        cases hpart'
      · exact h
      · exact absurd ⟨j, h, by rw [served_of_not_needsShared hlen hshared hj, hpart]⟩ hbegun
    · rintro rfl
      refine ⟨hpart, ?_⟩
      rintro ⟨k, hk, hs⟩
      rw [served_of_not_needsShared hlen hshared (hk.trans hj), hbefore k hk] at hs
      cases hs
  apply List.ext_getElem?
  intro i
  rw [loaded_getElem?, List.getElem?_mapIdx]
  by_cases hi : i < cfg.levelFactor
  · simp only [if_pos hi, load, hrider i hi, List.append_assoc]
  · rw [if_neg hi, List.getElem?_eq_none (hlen ▸ Nat.le_of_not_lt hi)]
    rfl

end Pass

end Enqueue

/-! ## Single steps -/

section

variable {s : LevelQueues} {t : LevelLists}

/-- The state before the loop. -/
theorem passed_start (d : Decomposition cfg) {queues : List WaitQueue}
    {lists : List (Option (List ℕ))} (h : List.Forall₂ Shows queues lists) (stale : List Bool) :
    Passed d lists 0 (start d queues stale) := by
  refine ⟨h, List.length_replicate .., fun i hi => ?_, rfl, rfl⟩
  rw [decide_eq_false (Nat.not_lt_zero _), Bool.false_and]
  simp [start, hi]

/-- **An insertion is a delivery to the lists.** -/
theorem enqueue_agrees (d : Counted cfg) {queues : List WaitQueue}
    {lists : List (Option (List ℕ))} (hlen : queues.length = cfg.levelFactor)
    (h : List.Forall₂ Shows queues lists) (stale : List Bool) (fuel : ℕ) :
    Agree (fun queues lists => queues.length = cfg.levelFactor ∧ List.Forall₂ Shows queues lists)
      (enqueue d.decomp (fuel + 1) queues stale) (deliverToLists d.decomp lists) := by
  have hlen' : lists.length = cfg.levelFactor := h.length_eq ▸ hlen
  rw [enqueue, deliverToLists]
  split_ifs with hsize hnum hshared
  · rfl
  · rw [enqueueLoop, if_neg (by rw [hnum]; exact Nat.not_lt_zero _)]
    exact ⟨hlen, h⟩
  all_goals
    rcases (passed_start d.decomp h stale).pass (Nat.zero_add _) hlen with ⟨st, hpass, hst, hpassed⟩
    have hmore := hpassed.numQueued_lt_iff hlen' hnum d.numReqBatches_eq
    have hbegin : (start d.decomp queues stale).numQueued < d.decomp.numReqBatches :=
      Nat.pos_of_ne_zero hnum
    rw [enqueueLoop, if_pos hbegin, hpass]
    change Agree _ (Enqueue.queues <$> enqueueLoop d.decomp fuel st) _
    rw [hpassed.enqueueLoop hst]
  · rw [if_pos (hmore.2 (Or.inl hshared))]
    rfl
  · cases hfirst : firstPart d.decomp with
    | none =>
        rw [if_pos (hmore.2 (Or.inr hfirst))]
        rfl
    | some j =>
        rw [if_neg (by rw [hmore]; simp [hshared, hfirst])]
        simp only []
        rw [← loaded_of_not_needsShared hlen' hshared hfirst]
        exact ⟨hst, hpassed.shows⟩

/-- Taking the first batch of a queue. -/
theorem popFront_shows {q : WaitQueue} {o : Option (List ℕ)} (h : Shows q o) :
    match o with
    | none => q.popFront = .error .nullDeref
    | some l => ∃ q', q.popFront = .ok (q', l.head?) ∧ Shows q' (some l.tail) := by
  cases o with
  | none =>
      simp only [WaitQueue.popFront, WaitQueue.unlinkFront, h.1, h.2.2, Bool.false_eq_true,
        if_false, Option.bind_none, bind, Except.bind]
  | some l =>
      cases l with
      | nil =>
          rcases h with ⟨⟨hfront, -⟩ | ⟨p, b, -, -, hlinks⟩, hs⟩
          · exact ⟨q, by rw [WaitQueue.popFront, if_pos hs, if_pos hfront]; rfl,
              Or.inl ⟨hfront, rfl⟩, hs⟩
          · cases hlinks
      | cons r l => exact WaitQueue.popFront_holds h.1 h.2

/-- **Any event.** -/
theorem step_agrees (fuel : ℕ) {s : LevelQueues} {t : LevelLists} (h : ShowsLevel cfg s t)
    (e : QueueEvent cfg) :
    Agree (ShowsLevel cfg) (s.step (fuel + 1) e) (t.step e) := by
  cases e with
  | insert d stale =>
      refine (enqueue_agrees d h.length h.shows stale fuel).bind fun queues lists _ _ hnext => ?_
      exact ⟨hnext.1, hnext.2, h.taken⟩
  | take i =>
      cases hq : s.queues[i]? with
      | none =>
          have hl : t.lists[i]? = none := forall₂_getElem?_none h.shows hq
          simp only [LevelQueues.step, LevelLists.step, hq, hl]
          rfl
      | some q =>
          rcases forall₂_getElem? h.shows hq with ⟨o, ho, hshows⟩
          have hpop := popFront_shows hshows
          cases o with
          | none =>
              simp only [] at hpop
              simp only [LevelQueues.step, LevelLists.step, hq, ho, hpop]
              rfl
          | some l =>
              rcases hpop with ⟨q', hpop, hshows'⟩
              simp only [LevelQueues.step, LevelLists.step, hq, ho, hpop]
              refine ⟨(List.length_set ..).trans h.length, ?_, by rw [h.taken]⟩
              refine forall₂_set_modify h.shows fun o ho' => ?_
              rw [ho] at ho'
              cases ho'
              exact hshows'

end

/-! ## Runs -/

/-- The queues of a level as constructed; `isSingleThread i` is what the constructor of SSTable `i`
finds. -/
def LevelQueues.constructed (cfg : Config) (isSingleThread : ℕ → Bool) : LevelQueues where
  queues := (List.range cfg.levelFactor).map fun i => { isSingleThread := isSingleThread i }

def LevelLists.constructed (cfg : Config) (isSingleThread : ℕ → Bool) : LevelLists where
  lists := (List.range cfg.levelFactor).map fun i => if isSingleThread i then some [] else none

theorem shows_constructed (isSingleThread : ℕ → Bool) :
    ShowsLevel cfg (LevelQueues.constructed cfg isSingleThread)
      (LevelLists.constructed cfg isSingleThread) := by
  refine ⟨by simp [LevelQueues.constructed], ?_, rfl⟩
  rw [LevelQueues.constructed, LevelLists.constructed, List.forall₂_map_left_iff,
    List.forall₂_map_right_iff, List.forall₂_same]
  intro i _
  cases h : isSingleThread i
  · exact ⟨rfl, Nat.one_ne_zero, rfl⟩
  · exact ⟨Or.inl ⟨rfl, rfl⟩, rfl⟩

/-- **The queues of a level.**  Whatever is inserted and taken, in any order, the queues of a level
do what their lists do: parts are appended, the catch-all behind the first, and taken from the
front.  The run breaks off where the lists say: an insertion that needs a shared queue, or has the
catch-all alone, never returns, however long it is observed, and a worker that takes from a shared
queue follows a null pointer. -/
theorem queues_of_level (isSingleThread : ℕ → Bool) (fuel : ℕ) (events : List (QueueEvent cfg)) :
    Agree (ShowsLevel cfg)
      (runEvents (LevelQueues.step (fuel + 1)) (LevelQueues.constructed cfg isSingleThread) events)
      (runEvents LevelLists.step (LevelLists.constructed cfg isSingleThread) events) :=
  run_agree (fun _ _ e h => step_agrees fuel h e) (shows_constructed isSingleThread)

/-- A decomposition that `decompose` returns counts its parts. -/
def Returned.counted (r : Returned cfg) : Counted cfg where
  decomp := r.decomp
  numReqBatches_eq := by
    rcases LevelInfo.decompose_cases r.decompose_eq with ⟨b, -, ⟨-, -, hout⟩ | ⟨-, -, i, hi, hd, -⟩⟩
    · rcases hout.parts with ⟨-, -, hslots, hnum⟩ | ⟨-, hnum, p, hp⟩
      · rw [hnum, hslots]
        simp [Slots.null, List.countP_replicate]
      · rw [hnum, LevelInfo.Slots.countP_isSome hout.below hp]
        rfl
    · have hone : (List.range cfg.levelFactor).count i = 1 := by rw [List.count_range, if_pos hi]
      have hpart : ∀ j, (part (LevelInfo.assign cfg r.reqBatch i) j).isSome = (j == i) := by
        intro j
        rw [part_assign _ hi]
        split_ifs with hj <;> simp [hj]
      simp only [countP_slots, hd, hpart, part_assign _ hi cfg.levelFactor,
        if_neg (Nat.ne_of_gt hi)]
      exact hone.symm

/-- Where every queue is single-threaded, the lists are those of the system. -/
theorem deliverToLists_map_some (d : Decomposition cfg) (lists : List (List ℕ)) :
    deliverToLists d (lists.map some) = (List.map some) <$> deliver d lists := by
  have hshared : ¬ NeedsShared d (lists.map some) := by
    rintro ⟨i, -, -, hl⟩
    rw [List.getElem?_map] at hl
    cases h : lists[i]? <;> simp [h] at hl
  rw [deliverToLists, deliver, if_neg hshared]
  split_ifs
  · rfl
  · rfl
  · cases firstPart d with
    | none => rfl
    | some j =>
        refine congrArg Except.ok (List.ext_getElem? fun i => ?_)
        simp [Function.comp_def]

/-- **The loop over linked nodes and `deliver` agree**, for any number of passes. -/
theorem enqueue_agrees_deliver (r : Returned cfg) {queues : List WaitQueue}
    {lists : List (List ℕ)} (hlen : queues.length = cfg.levelFactor)
    (h : List.Forall₂ Quiet queues lists) (stale : List Bool) (fuel : ℕ) :
    Agree (fun queues lists => queues.length = cfg.levelFactor ∧ List.Forall₂ Quiet queues lists)
      (enqueue r.decomp (fuel + 1) queues stale) (deliver r.decomp lists) := by
  have hshows : List.Forall₂ Shows queues (lists.map some) := by
    rw [List.forall₂_map_right_iff]
    exact h
  have hagree := enqueue_agrees r.counted hlen hshows stale fuel
  rw [deliverToLists_map_some] at hagree
  refine hagree.of_map_right.mono fun qs ls hqs => ⟨hqs.1, ?_⟩
  have hall := hqs.2
  rwa [List.forall₂_map_right_iff] at hall

end RingDB
