import RingDB.Config
import RingDB.Core.Bytes

/-!
# The wait queue of an SSTable

`RequestBatchWaitQueue` is a singly linked list with a pointer to either end, a counter and two
guards.  A queue that is declared single-threaded ignores the counter and the guards; the other
branches of `try_push_back` choose by the counter they happen to load, and the one for a queue of
one element links the new node without moving `back`.

`Holds` relates the nodes to the list of batches they represent.  **`standardPushBack_holds`** and
**`popFront_holds`** say that a single-threaded queue is a queue.
-/

namespace RingDB

open Core

/-- `RequestBatchWaitQueueNode`: a batch pointer and the next node. -/
structure Node where
  reqBatch : ℕ
  next : Option ℕ
  deriving DecidableEq, Repr

/-- `RequestBatchWaitQueue`.  A node pointer is the node's place in `nodes`; `back` is not set by
the constructor. -/
structure WaitQueue where
  nodes : List Node := []
  front : Option ℕ := none
  back : Option ℕ := none
  /-- The counter, an `atomic_uint`. -/
  size : ℕ := 0
  consumerGuard : ℕ := 1
  producerGuard : ℕ := 1
  isSingleThread : Bool
  deriving DecidableEq, Repr

namespace WaitQueue

/-- `front = back = new Node(req_batch)` -/
def linkFirst (q : WaitQueue) (reqBatch : ℕ) : WaitQueue :=
  { q with
    nodes := q.nodes ++ [⟨reqBatch, none⟩]
    front := some q.nodes.length
    back := some q.nodes.length }

/-- `back->next = new Node(req_batch)`, with or without moving `back`. -/
def linkBack (q : WaitQueue) (reqBatch : ℕ) (move : Bool) : Except Fault WaitQueue :=
  match q.back.bind fun b => q.nodes[b]? with
  | none => .error .wildPointer
  | some node =>
      .ok { q with
        nodes := q.nodes.set (q.back.getD 0) { node with next := some q.nodes.length }
          ++ [⟨reqBatch, none⟩]
        back := if move then some q.nodes.length else q.back }

/-- `guard.size.fetch_add(1)` -/
def countUp (q : WaitQueue) : WaitQueue := { q with size := (q.size + 1) % 2 ^ 32 }

def standardPushBack (q : WaitQueue) (reqBatch : ℕ) : Except Fault WaitQueue := do
  let q ← if q.front = none then pure (q.linkFirst reqBatch) else q.linkBack reqBatch true
  pure (if q.isSingleThread then q else q.countUp)

/-- `try_push_back`: the queue and whether the push was done.  The counter is loaded into an
`int`. -/
def tryPushBack (q : WaitQueue) (reqBatch : ℕ) (couldContendWithConsumer : Bool) :
    Except Fault (WaitQueue × Bool) :=
  if q.isSingleThread then (·, true) <$> q.standardPushBack reqBatch
  else if couldContendWithConsumer then
    if q.consumerGuard = 0 then .ok (q, false) else (·, true) <$> q.standardPushBack reqBatch
  else if 1 < q.size ∧ q.size < 2 ^ 31 then
    (fun q => (q.countUp, true)) <$> q.linkBack reqBatch true
  else if q.size = 0 then
    if q.consumerGuard = 0 then .ok (q, false) else .ok ((q.linkFirst reqBatch).countUp, true)
  else if q.size = 1 then
    if q.consumerGuard = 0 then .ok (q, false)
    else (fun q => (q.countUp, true)) <$> q.linkBack reqBatch false
  else .ok ((q.linkFirst reqBatch).countUp, true)

/-- Unlink the first node and return its batch. -/
def unlinkFront (q : WaitQueue) : Except Fault (WaitQueue × Option ℕ) :=
  match q.front.bind fun f => q.nodes[f]? with
  | none => .error .nullDeref
  | some node => .ok ({ q with front := node.next }, some node.reqBatch)

/-- `pop_front`.  The counter is unsigned, so the difference compared with zero is never
negative. -/
def popFront (q : WaitQueue) : Except Fault (WaitQueue × Option ℕ) :=
  if q.isSingleThread then
    if q.front = none then .ok (q, none) else q.unlinkFront
  else do
    let (q, b) ← { q with size := (q.size + (2 ^ 32 - 1)) % 2 ^ 32 }.unlinkFront
    pure ({ q with consumerGuard := 1 }, b)

/-! ## The list that a queue holds -/

/-- The nodes from `p` on are linked, end in node `b`, and carry the batches of the list. -/
inductive Links (nodes : List Node) : ℕ → List ℕ → ℕ → Prop
  | last {p r : ℕ} : nodes[p]? = some ⟨r, none⟩ → Links nodes p [r] p
  | cons {p r q b : ℕ} {l : List ℕ} :
      nodes[p]? = some ⟨r, some q⟩ → Links nodes q l b → Links nodes p (r :: l) b

/-- The batches in the queue, first one first. -/
def Holds (q : WaitQueue) (l : List ℕ) : Prop :=
  (q.front = none ∧ l = []) ∨
    ∃ p b, q.front = some p ∧ q.back = some b ∧ Links q.nodes p l b

/-- The last node has no successor. -/
theorem Links.back {nodes : List Node} {p b : ℕ} {l : List ℕ} (h : Links nodes p l b) :
    ∃ r, nodes[b]? = some ⟨r, none⟩ := by
  induction h with
  | last hp => exact ⟨_, hp⟩
  | cons _ _ ih => exact ih

/-- Linking a new node behind the last one appends its batch. -/
theorem Links.snoc {nodes : List Node} {p b r : ℕ} {l : List ℕ} (h : Links nodes p l b)
    (hb : nodes[b]? = some ⟨r, none⟩) (reqBatch : ℕ) :
    Links (nodes.set b ⟨r, some nodes.length⟩ ++ [⟨reqBatch, none⟩]) p (l ++ [reqBatch])
      nodes.length := by
  have hnew : (nodes.set b ⟨r, some nodes.length⟩ ++ [⟨reqBatch, none⟩])[nodes.length]?
      = some ⟨reqBatch, none⟩ := by
    rw [List.getElem?_append_right (by rw [List.length_set]), List.length_set]
    simp
  induction h with
  | last hp =>
      rw [hp] at hb
      cases hb
      have hlt := (List.getElem?_eq_some_iff.1 hp).1
      refine Links.cons ?_ (Links.last hnew)
      rw [List.getElem?_append_left (by rw [List.length_set]; exact hlt),
        List.getElem?_set_self hlt]
  | @cons p r' q b l hp _ ih =>
      have hlt := (List.getElem?_eq_some_iff.1 hp).1
      -- an inner node has a successor, so it is not the one that is changed
      have hne : b ≠ p := by
        rintro rfl
        rw [hp] at hb
        cases hb
      refine Links.cons ?_ (ih hb hnew)
      rw [List.getElem?_append_left (by rw [List.length_set]; exact hlt),
        List.getElem?_set_ne hne]
      exact hp

theorem linkFirst_holds (q : WaitQueue) (reqBatch : ℕ) : (q.linkFirst reqBatch).Holds [reqBatch] :=
  Or.inr ⟨q.nodes.length, q.nodes.length, rfl, rfl, Links.last (by simp [linkFirst])⟩

/-- **`standard_push_back` appends.** -/
theorem standardPushBack_holds {q : WaitQueue} {l : List ℕ} (h : q.Holds l) (reqBatch : ℕ)
    (hs : q.isSingleThread = true) :
    ∃ q', q.standardPushBack reqBatch = .ok q' ∧ q'.Holds (l ++ [reqBatch])
      ∧ q'.isSingleThread = true := by
  rcases h with ⟨hfront, rfl⟩ | ⟨p, b, hfront, hback, hlinks⟩
  · refine ⟨q.linkFirst reqBatch, ?_, linkFirst_holds q reqBatch, hs⟩
    have hflag : (q.linkFirst reqBatch).isSingleThread = true := hs
    simp [standardPushBack, hfront, hflag, pure, Except.pure, bind, Except.bind]
  · rcases hlinks.back with ⟨r, hr⟩
    refine ⟨{ q with
      nodes := q.nodes.set b ⟨r, some q.nodes.length⟩ ++ [⟨reqBatch, none⟩]
      back := some q.nodes.length }, ?_, ?_, hs⟩
    · simp [standardPushBack, linkBack, hfront, hback, hr, hs, pure, Except.pure, bind,
        Except.bind]
    · exact Or.inr ⟨p, q.nodes.length, hfront, rfl, hlinks.snoc hr reqBatch⟩

/-- `try_push_back` on a single-threaded queue. -/
theorem tryPushBack_holds {q : WaitQueue} {l : List ℕ} (h : q.Holds l) (reqBatch : ℕ)
    (contend : Bool) (hs : q.isSingleThread = true) :
    ∃ q', q.tryPushBack reqBatch contend = .ok (q', true) ∧ q'.Holds (l ++ [reqBatch])
      ∧ q'.isSingleThread = true := by
  rcases standardPushBack_holds h reqBatch hs with ⟨q', hpush, hholds, hs'⟩
  exact ⟨q', by rw [tryPushBack, if_pos hs, hpush]; rfl, hholds, hs'⟩

/-- **`pop_front` takes the first batch off.** -/
theorem popFront_holds {q : WaitQueue} {r : ℕ} {l : List ℕ} (h : q.Holds (r :: l))
    (hs : q.isSingleThread = true) :
    ∃ q', q.popFront = .ok (q', some r) ∧ q'.Holds l ∧ q'.isSingleThread = true := by
  rcases h with ⟨-, hnil⟩ | ⟨p, b, hfront, hback, hlinks⟩
  · cases hnil
  · cases hlinks with
    | last hp =>
        refine ⟨{ q with front := none }, ?_, Or.inl ⟨rfl, rfl⟩, hs⟩
        simp [popFront, unlinkFront, hs, hfront, hp]
    | cons hp hrest =>
        refine ⟨{ q with front := _ }, ?_, Or.inr ⟨_, b, rfl, hback, hrest⟩, hs⟩
        simp [popFront, unlinkFront, hs, hfront, hp]

end WaitQueue

end RingDB
