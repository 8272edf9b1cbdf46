import RingDB.Core.Run
import RingDB.Requests.WaitQueue

/-!
# The wait queue between two threads

The queue that is not single-threaded, with every operation executed without interruption and the
consumer guard free.  The counter then is the number of queued batches modulo `2 ^ 32`, so the
branches of `try_push_back` are chosen by the number of queued batches.

The branch for one queued batch links the new node and leaves `back` at the old one.  As long as
batches are only popped this does no harm; the next push, whichever it is, writes its node over the
link to the last batch, or behind a node that was popped.  `Careful` says of a sequence of
operations that no push comes that late.

* `Sound` — what the queue is while the operations are careful.
* `Short` — what it is from the first careless push on: fewer batches can be reached from `front`
  than are queued, and that stays so.
* **`fifo_iff_careful`** — the queue is a queue if and only if the operations are careful.
* **`popFront_empty`** — an empty queue cannot be polled.

Nodes are not taken out of `nodes` when they are popped and deleted.
-/

namespace RingDB

open Core

namespace WaitQueue

section Model

/-- Through which function, and with which argument, a batch is pushed. -/
inductive Push where
  | standard
  | contended
  | uncontended
  deriving DecidableEq, Repr

inductive QueueOp where
  | push (reqBatch : ℕ) (how : Push)
  | pop
  deriving DecidableEq, Repr

/-- The queue, the batches that were accepted and what the pops returned. -/
structure Trace where
  queue : WaitQueue
  accepted : List ℕ := []
  popped : List (Option ℕ) := []

def pushBack (q : WaitQueue) (reqBatch : ℕ) : Push → Except Fault (WaitQueue × Bool)
  | .standard => (·, true) <$> q.standardPushBack reqBatch
  | .contended => q.tryPushBack reqBatch true
  | .uncontended => q.tryPushBack reqBatch false

def stepQueue (t : Trace) : QueueOp → Except Fault Trace
  | .push reqBatch how => do
      let res ← t.queue.pushBack reqBatch how
      pure { t with
        queue := res.1
        accepted := if res.2 then t.accepted ++ [reqBatch] else t.accepted }
  | .pop => do
      let res ← t.queue.popFront
      pure { t with queue := res.1, popped := t.popped ++ [res.2] }

/-- The constructed queue of two threads. -/
def freshTrace : Trace where
  queue := { isSingleThread := false }

/-- The number of queued batches after the operations, from `n` on, if no pop finds none. -/
def pendingAfter : ℕ → List QueueOp → Option ℕ
  | n, [] => some n
  | n, .push _ _ :: ops => pendingAfter (n + 1) ops
  | 0, .pop :: _ => none
  | n + 1, .pop :: ops => pendingAfter n ops

/-- A push comes late if an earlier one left `back` behind; and an uncontended push takes a queue
for an empty one if its counter is zero or negative. -/
def CarefulPush (n : ℕ) (stale : Bool) (how : Push) : Prop :=
  stale = false ∧ (how = .uncontended → n ≠ 0 → n % 2 ^ 32 ≠ 0 ∧ n % 2 ^ 32 < 2 ^ 31)

/-- Whether a push leaves `back` behind: an uncontended one that finds one batch. -/
def staleAfter (n : ℕ) (how : Push) : Bool := how == .uncontended && n % 2 ^ 32 == 1

/-- All pushes are careful.  `back` is of no importance any more once the queue is empty. -/
def Careful : ℕ → Bool → List QueueOp → Prop
  | _, _, [] => True
  | n, stale, .push _ how :: ops => CarefulPush n stale how ∧ Careful (n + 1) (staleAfter n how) ops
  | n, stale, .pop :: ops => Careful (n - 1) (stale && n != 1) ops

end Model

section Links

/-- The nodes from a pointer on, up to the null pointer, carry the batches of the list. -/
inductive Chain (nodes : List Node) : Option ℕ → List ℕ → Prop
  | nil : Chain nodes none []
  | cons {p r : ℕ} {next : Option ℕ} {l : List ℕ} :
      nodes[p]? = some ⟨r, next⟩ → Chain nodes next l → Chain nodes (some p) (r :: l)

variable {nodes : List Node} {l : List ℕ} {b : ℕ}

theorem Links.chain {p : ℕ} (h : Links nodes p l b) : Chain nodes (some p) l := by
  induction h with
  | last hp => exact .cons hp .nil
  | cons hp _ ih => exact .cons hp ih

theorem Holds.chain {q : WaitQueue} (h : q.Holds l) : Chain q.nodes q.front l := by
  rcases h with ⟨hfront, rfl⟩ | ⟨p, b, hfront, -, hlinks⟩
  · rw [hfront]
    exact .nil
  · rw [hfront]
    exact hlinks.chain

theorem Chain.eq_none {p : Option ℕ} (h : Chain nodes p []) : p = none := by
  cases h
  rfl

/-- A node that is linked behind any node adds at most one batch to what is reached, and none if
that node had a successor, which it then loses. -/
theorem Chain.linkBack {p : Option ℕ} (h : Chain nodes p l) {node : Node}
    (hb : nodes[b]? = some node) (reqBatch : ℕ) :
    ∃ l', Chain (nodes.set b { node with next := some nodes.length } ++ [⟨reqBatch, none⟩]) p l' ∧
      l'.length ≤ l.length + 1 ∧ (node.next ≠ none → l'.length ≤ l.length) := by
  have hlt := (List.getElem?_eq_some_iff.1 hb).1
  have hnew : (nodes.set b { node with next := some nodes.length }
      ++ [(⟨reqBatch, none⟩ : Node)])[nodes.length]? = some ⟨reqBatch, none⟩ := by
    rw [List.getElem?_append_right (by rw [List.length_set]), List.length_set]
    simp
  induction h with
  | nil => exact ⟨[], .nil, by simp, by simp⟩
  | @cons p r next l hp hl ih =>
      rcases ih with ⟨l', hchain, hle, hle'⟩
      by_cases hbp : b = p
      · subst hbp
        rw [hp] at hb
        cases hb
        refine ⟨[r, reqBatch], .cons ?_ (.cons hnew .nil), by simp, fun hnext => ?_⟩
        · rw [List.getElem?_append_left (by rw [List.length_set]; exact hlt),
            List.getElem?_set_self hlt]
        · -- the successor was reached as well
          cases hl with
          | nil => exact absurd rfl hnext
          | cons _ _ => simp
      · refine ⟨r :: l', .cons ?_ hchain, by simpa using hle,
        fun hnext => by simpa using hle' hnext⟩
        have hplt := (List.getElem?_eq_some_iff.1 hp).1
        rw [List.getElem?_append_left (by rw [List.length_set]; exact hplt),
          List.getElem?_set_ne hbp]
        exact hp

end Links

section Pushes

/-- Where a push puts its node: at the front of an empty queue, behind the last node, or behind the
last node without becoming it. -/
inductive Link where
  | first
  | last
  | stale
  deriving DecidableEq, Repr

def linkAs (q : WaitQueue) (reqBatch : ℕ) : Link → Except Fault WaitQueue
  | .first => .ok (q.linkFirst reqBatch)
  | .last => q.linkBack reqBatch true
  | .stale => q.linkBack reqBatch false

def linkOf (q : WaitQueue) : Push → Link
  | .uncontended =>
      if 1 < q.size ∧ q.size < 2 ^ 31 then .last
      else if q.size = 0 then .first
      else if q.size = 1 then .stale
      else .first
  | _ => if q.front = none then .first else .last

/-- A queue of two threads between two operations, with `n` batches in it. -/
structure Ready (q : WaitQueue) (n : ℕ) : Prop where
  twoThreads : q.isSingleThread = false
  guardFree : q.consumerGuard = 1
  size : q.size = n % 2 ^ 32

variable {q q' : WaitQueue} {n : ℕ}

/-- Every push is accepted and links its node in one of three ways. -/
theorem Ready.pushBack_eq (h : Ready q n) (reqBatch : ℕ) (how : Push) :
    q.pushBack reqBatch how
      = (fun q => (q.countUp, true)) <$> q.linkAs reqBatch (q.linkOf how) := by
  have hguard : q.consumerGuard ≠ 0 := by
    rw [h.guardFree]
    decide
  have hstandard : (·, true) <$> q.standardPushBack reqBatch
      = (fun q => (q.countUp, true)) <$>
        q.linkAs reqBatch (if q.front = none then .first else .last) := by
    rw [standardPushBack]
    split_ifs
    · simp [linkAs, linkFirst, h.twoThreads, pure, Except.pure, bind, Except.bind]
    · rw [linkAs, linkBack]
      split
      · rfl
      · simp [h.twoThreads, pure, Except.pure, bind, Except.bind]
  cases how with
  | standard => exact hstandard
  | contended =>
      rw [pushBack, tryPushBack, if_neg (by simp [h.twoThreads]), if_pos rfl, if_neg hguard]
      exact hstandard
  | uncontended =>
      rw [pushBack, tryPushBack, if_neg (by simp [h.twoThreads]), if_neg (by simp), linkOf]
      split_ifs with h₁ h₂ h₃
      · rfl
      · rfl
      · rfl
      · rfl

theorem linkBack_ok {reqBatch : ℕ} {move : Bool} (h : q.linkBack reqBatch move = .ok q') :
    ∃ b node, q.back = some b ∧ q.nodes[b]? = some node ∧
      q' = { q with
        nodes := q.nodes.set b { node with next := some q.nodes.length } ++ [⟨reqBatch, none⟩]
        back := if move then some q.nodes.length else some b } := by
  unfold linkBack at h
  split at h
  · cases h
  · rename_i node hnode
    rcases Option.bind_eq_some_iff.1 hnode with ⟨b, hback, hget⟩
    refine ⟨b, node, hback, hget, ?_⟩
    cases h
    simp [hback]

theorem Ready.countUp (h : Ready q n) {reqBatch : ℕ} {link : Link}
    (hlink : q.linkAs reqBatch link = .ok q') : Ready q'.countUp (n + 1) := by
  have hsame : q'.isSingleThread = q.isSingleThread ∧ q'.consumerGuard = q.consumerGuard ∧
      q'.size = q.size := by
    cases link with
    | first =>
        cases hlink
        exact ⟨rfl, rfl, rfl⟩
    | last =>
        rcases linkBack_ok hlink with ⟨_, _, -, -, rfl⟩
        exact ⟨rfl, rfl, rfl⟩
    | stale =>
        rcases linkBack_ok hlink with ⟨_, _, -, -, rfl⟩
        exact ⟨rfl, rfl, rfl⟩
  refine ⟨hsame.1.trans h.twoThreads, hsame.2.1.trans h.guardFree, ?_⟩
  show (q'.size + 1) % 2 ^ 32 = _
  rw [hsame.2.2, h.size]
  omega

/-- A push that has an outcome adds at most one batch to what is reached. -/
theorem linkAs_chain {l : List ℕ} (h : Chain q.nodes q.front l) {reqBatch : ℕ} {link : Link}
    (hlink : q.linkAs reqBatch link = .ok q') :
    ∃ l', Chain q'.nodes q'.front l' ∧ l'.length ≤ l.length + 1 := by
  have hback : ∀ {move}, q.linkBack reqBatch move = .ok q' →
      ∃ l', Chain q'.nodes q'.front l' ∧ l'.length ≤ l.length + 1 := by
    intro move hlink
    rcases linkBack_ok hlink with ⟨b, node, -, hget, rfl⟩
    rcases h.linkBack hget reqBatch with ⟨l', hchain, hle, -⟩
    exact ⟨l', hchain, hle⟩
  cases link with
  | first =>
      cases hlink
      exact ⟨[reqBatch], (linkFirst_holds q reqBatch).chain, by simp⟩
  | last => exact hback hlink
  | stale => exact hback hlink

end Pushes

section Pops

variable {q : WaitQueue} {n r : ℕ} {l : List ℕ}

/-- Where no batch is reached a pop follows the null pointer: the counter is unsigned, and what is
left of it after the subtraction is never below zero. -/
theorem Ready.popFront_nil (h : Ready q n) (hchain : Chain q.nodes q.front []) :
    q.popFront = .error .nullDeref := by
  simp [popFront, h.twoThreads, unlinkFront, hchain.eq_none, bind, Except.bind]

/-- Otherwise it takes the first batch. -/
theorem Ready.popFront_cons (h : Ready q (n + 1)) (hchain : Chain q.nodes q.front (r :: l)) :
    ∃ q', q.popFront = .ok (q', some r) ∧ Ready q' n ∧ q'.nodes = q.nodes ∧ q'.back = q.back ∧
      Chain q'.nodes q'.front l ∧ (q.Holds (r :: l) → q'.Holds l) := by
  rcases hfront : q.front with _ | p
  · rw [hfront] at hchain
    cases hchain
  · rw [hfront] at hchain
    cases hchain with
    | @cons _ _ next _ hp hrest =>
        refine ⟨{ q with
          size := (q.size + (2 ^ 32 - 1)) % 2 ^ 32
          front := next
          consumerGuard := 1 }, ?_, ⟨h.twoThreads, rfl, ?_⟩, rfl, rfl, hrest, ?_⟩
        · simp [popFront, h.twoThreads, unlinkFront, hfront, hp, bind, Except.bind, pure,
          Except.pure]
        · show (q.size + (2 ^ 32 - 1)) % 2 ^ 32 = n % 2 ^ 32
          rw [h.size]
          omega
        · rintro (⟨hnone, -⟩ | ⟨p', b, hfront', hback, hlinks⟩)
          · rw [hfront] at hnone
            cases hnone
          · rw [hfront] at hfront'
            cases hfront'
            cases hlinks with
            | last hlast =>
                rw [hp] at hlast
                cases hlast
                exact .inl ⟨rfl, rfl⟩
            | cons hcons hlinks =>
                rw [hp] at hcons
                cases hcons
                exact .inr ⟨_, b, rfl, hback, hlinks⟩

end Pops

section Runs

variable {t t' : Trace} {n : ℕ} {ops : List QueueOp}

/-- From `front` fewer batches can be reached than are queued. -/
def Short (q : WaitQueue) (n : ℕ) : Prop :=
  Ready q n ∧ ∃ l, Chain q.nodes q.front l ∧ l.length < n

theorem stepQueue_push_ok {reqBatch : ℕ} {how : Push} (h : Ready t.queue n)
    (hstep : stepQueue t (.push reqBatch how) = .ok t') :
    ∃ q', t.queue.linkAs reqBatch (t.queue.linkOf how) = .ok q' ∧
      t' = { t with queue := q'.countUp, accepted := t.accepted ++ [reqBatch] } := by
  rcases bind_eq_ok.1 hstep with ⟨res, hpush, ⟨⟩⟩
  rw [h.pushBack_eq] at hpush
  cases hlink : t.queue.linkAs reqBatch (t.queue.linkOf how) with
  | error f =>
      rw [hlink] at hpush
      cases hpush
  | ok q' =>
      rw [hlink] at hpush
      cases hpush
      exact ⟨q', rfl, rfl⟩

/-- What is missing stays missing: such a queue cannot be emptied. -/
theorem Short.run (h : Short t.queue n) (hpending : pendingAfter n ops = some 0) :
    runEvents stepQueue t ops ≠ .ok t' := by
  induction ops generalizing t n with
  | nil =>
      cases hpending
      rcases h with ⟨-, l, -, hlt⟩
      omega
  | cons op ops ih =>
      intro hrun
      rcases runEvents_cons_eq_ok hrun with ⟨t₁, hstep, hrest⟩
      rcases h with ⟨hready, l, hchain, hlt⟩
      cases op with
      | push reqBatch how =>
          rcases stepQueue_push_ok hready hstep with ⟨q', hlink, rfl⟩
          rcases linkAs_chain hchain hlink with ⟨l', hchain', hle⟩
          exact ih ⟨hready.countUp hlink, l', hchain', by omega⟩ hpending hrest
      | pop =>
          rcases n with _ | n
          · omega
          · rcases bind_eq_ok.1 hstep with ⟨res, hpop, ⟨⟩⟩
            rcases l with _ | ⟨r, l⟩
            · rw [hready.popFront_nil hchain] at hpop
              cases hpop
            · rcases hready.popFront_cons hchain with ⟨q', hpop', hready', -, -, hchain', -⟩
              rw [hpop'] at hpop
              cases hpop
              exact ih ⟨hready', l, hchain', by simpa using hlt⟩ hpending hrest

/-- What the queue is between careful operations, with these batches in it. -/
structure Sound (q : WaitQueue) (stale : Bool) (l : List ℕ) : Prop where
  ready : Ready q l.length
  chain : Chain q.nodes q.front l
  holds : stale = false → q.Holds l
  /-- After the push that left `back` behind, its node has a successor. -/
  behind : stale = true →
    l ≠ [] ∧ ∃ b node, q.back = some b ∧ q.nodes[b]? = some node ∧ node.next ≠ none

theorem sound_fresh : Sound freshTrace.queue false [] where
  ready := ⟨rfl, rfl, rfl⟩
  chain := .nil
  holds _ := .inl ⟨rfl, rfl⟩
  behind h := by cases h

variable {q : WaitQueue} {stale : Bool} {l : List ℕ}

theorem Holds.front_eq_none (h : q.Holds l) : q.front = none ↔ l = [] := by
  rcases h with ⟨hfront, rfl⟩ | ⟨p, b, hfront, -, hlinks⟩
  · simp [hfront]
  · have hne : l ≠ [] := by
      rintro rfl
      cases hlinks
    simp [hfront, hne]

/-- A batch that is linked behind the last one comes last, whether `back` is moved or not. -/
theorem Holds.linkBack (h : q.Holds l) (hne : l ≠ []) (reqBatch : ℕ) (move : Bool) :
    ∃ q', q.linkBack reqBatch move = .ok q' ∧ Chain q'.nodes q'.front (l ++ [reqBatch]) ∧
      (move = true → q'.Holds (l ++ [reqBatch])) ∧
      (move = false → ∃ b node, q'.back = some b ∧ q'.nodes[b]? = some node
        ∧ node.next ≠ none) := by
  rcases h with ⟨-, hnil⟩ | ⟨p, b, hfront, hback, hlinks⟩
  · exact absurd hnil hne
  · rcases hlinks.back with ⟨r, hr⟩
    have hlt := (List.getElem?_eq_some_iff.1 hr).1
    have hsnoc := hlinks.snoc hr reqBatch
    refine ⟨{ q with
      nodes := q.nodes.set b ⟨r, some q.nodes.length⟩ ++ [⟨reqBatch, none⟩]
      back := if move then some q.nodes.length else some b }, ?_, ?_, ?_, ?_⟩
    · simp [WaitQueue.linkBack, hback, hr]
    · show Chain _ q.front _
      rw [hfront]
      exact hsnoc.chain
    · rintro rfl
      exact .inr ⟨p, q.nodes.length, hfront, rfl, hsnoc⟩
    · rintro rfl
      refine ⟨b, ⟨r, some q.nodes.length⟩, rfl, ?_, by simp⟩
      show (q.nodes.set b ⟨r, some q.nodes.length⟩ ++ [(⟨reqBatch, none⟩ : Node)])[b]? = _
      rw [List.getElem?_append_left (by rw [List.length_set]; exact hlt),
        List.getElem?_set_self hlt]

/-- Which way a careful push links its node. -/
theorem Sound.linkOf_cases (h : Sound q stale l) {how : Push}
    (hc : CarefulPush l.length stale how) :
    q.linkOf how = .first ∧ l = [] ∧ staleAfter l.length how = false ∨
    q.linkOf how = .last ∧ l ≠ [] ∧ staleAfter l.length how = false ∨
    q.linkOf how = .stale ∧ l ≠ [] ∧ staleAfter l.length how = true := by
  have hfront := (h.holds hc.1).front_eq_none
  have hsize := h.ready.size
  have hother : how ≠ .uncontended → q.linkOf how = (if q.front = none then .first else .last) ∧
      staleAfter l.length how = false := by
    intro hne
    cases how with
    | uncontended => exact absurd rfl hne
    | standard => exact ⟨rfl, rfl⟩
    | contended => exact ⟨rfl, rfl⟩
  by_cases hu : how = .uncontended
  · subst hu
    have hcount := hc.2 rfl
    simp only [linkOf, staleAfter, hsize]
    by_cases hone : l.length % 2 ^ 32 = 1
    · have hne : l ≠ [] := by
        rintro rfl
        cases hone
      rw [hone]
      simp [hne]
    · by_cases hzero : l = []
      · subst hzero
        simp
      · have hmod := hcount (by simpa using hzero)
        have hstale : (l.length % 2 ^ 32 == 1) = false := beq_eq_false_iff_ne.2 hone
        rw [if_pos (by omega), hstale]
        simp [hzero]
  · rcases hother hu with ⟨hlink, hstale⟩
    rw [hlink, hstale]
    by_cases hnil : l = []
    · simp [hnil, hfront]
    · simp [hnil, hfront]

theorem Sound.push (h : Sound q stale l) (reqBatch : ℕ) {how : Push}
    (hc : CarefulPush l.length stale how) :
    ∃ q', q.linkAs reqBatch (q.linkOf how) = .ok q' ∧
      Sound q'.countUp (staleAfter l.length how) (l ++ [reqBatch]) := by
  have hready : ∀ {q'}, q.linkAs reqBatch (q.linkOf how) = .ok q' →
      Ready q'.countUp (l ++ [reqBatch]).length := by
    intro q' hlink
    rw [List.length_append]
    exact h.ready.countUp hlink
  rcases h.linkOf_cases hc with ⟨hlink, rfl, hstale⟩ | ⟨hlink, hne, hstale⟩ | ⟨hlink, hne, hstale⟩
  · have hholds := linkFirst_holds q reqBatch
    refine ⟨q.linkFirst reqBatch, by rw [hlink]; rfl, hready (by rw [hlink]; rfl), hholds.chain,
      fun _ => hholds, ?_⟩
    rw [hstale]
    exact fun h => nomatch h
  · rcases (h.holds hc.1).linkBack hne reqBatch true with ⟨q', hback, hchain, hholds, -⟩
    refine ⟨q', by rw [hlink]; exact hback, hready (by rw [hlink]; exact hback), hchain,
      fun _ => hholds rfl, ?_⟩
    rw [hstale]
    exact fun h => nomatch h
  · rcases (h.holds hc.1).linkBack hne reqBatch false with ⟨q', hback, hchain, -, hbehind⟩
    refine ⟨q', by rw [hlink]; exact hback, hready (by rw [hlink]; exact hback), hchain, ?_,
      fun _ => ⟨by simp, hbehind rfl⟩⟩
    rw [hstale]
    exact fun h => nomatch h

/-- A push that is not careful loses a batch. -/
theorem Sound.short (h : Sound q stale l) {reqBatch : ℕ} {how : Push} {q' : WaitQueue}
    (hc : ¬ CarefulPush l.length stale how)
    (hlink : q.linkAs reqBatch (q.linkOf how) = .ok q') : Short q'.countUp (l.length + 1) := by
  refine ⟨h.ready.countUp hlink, ?_⟩
  -- a queue that is taken for an empty one
  have hfirst : l ≠ [] → q.linkOf how = .first →
      ∃ l', Chain q'.nodes q'.front l' ∧ l'.length < l.length + 1 := by
    intro hne heq
    rw [heq] at hlink
    cases hlink
    exact ⟨[reqBatch], (linkFirst_holds q reqBatch).chain,
      by simpa using List.length_pos_iff.2 hne⟩
  rcases Bool.eq_false_or_eq_true stale with hstale | hstale
  · rcases h.behind hstale with ⟨hne, b, node, hback, hget, hnext⟩
    have hlast : ∀ {move}, q.linkBack reqBatch move = .ok q' →
        ∃ l', Chain q'.nodes q'.front l' ∧ l'.length < l.length + 1 := by
      intro move hok
      rcases linkBack_ok hok with ⟨b', node', hback', hget', rfl⟩
      rw [hback] at hback'
      cases hback'
      rw [hget] at hget'
      cases hget'
      rcases h.chain.linkBack hget reqBatch with ⟨l', hchain, -, hle⟩
      exact ⟨l', hchain, Nat.lt_succ_of_le (hle hnext)⟩
    cases heq : q.linkOf how with
    | first => exact hfirst hne heq
    | last =>
        rw [heq] at hlink
        exact hlast hlink
    | stale =>
        rw [heq] at hlink
        exact hlast hlink
  · have hcount : how = .uncontended ∧ l.length ≠ 0 ∧
        ¬ (l.length % 2 ^ 32 ≠ 0 ∧ l.length % 2 ^ 32 < 2 ^ 31) := by
      by_contra hno
      refine hc ⟨hstale, fun hu hne => ?_⟩
      by_contra hbad
      exact hno ⟨hu, hne, hbad⟩
    rcases hcount with ⟨rfl, hne, hbad⟩
    refine hfirst (by simpa using hne) ?_
    have hsize := h.ready.size
    simp only [linkOf, hsize]
    split_ifs with h₁ h₂ h₃
    · omega
    · rfl
    · omega
    · rfl

theorem Sound.pop {r : ℕ} (h : Sound q stale (r :: l)) :
    ∃ q', q.popFront = .ok (q', some r) ∧ Sound q' (stale && (r :: l).length != 1) l := by
  rcases h.ready.popFront_cons h.chain with ⟨q', hpop, hready, hnodes, hback, hchain, hholds⟩
  refine ⟨q', hpop, hready, hchain, fun hfalse => ?_, fun htrue => ?_⟩
  · rcases Bool.and_eq_false_iff.1 hfalse with hfresh | hone
    · exact hholds (h.holds hfresh)
    · -- the queue is empty, and `back` of no importance
      have hnil : l = [] := by simpa using hone
      subst hnil
      exact .inl ⟨hchain.eq_none, rfl⟩
  · rcases Bool.and_eq_true_iff.1 htrue with ⟨hstale, hmore⟩
    rcases (h.behind hstale).2 with ⟨b, node, hb, hget, hnext⟩
    exact ⟨by simpa using hmore, b, node, hback.trans hb, hnodes ▸ hget, hnext⟩

/-- Careful operations that empty the queue deliver every batch, in the order in which they were
accepted. -/
theorem Sound.run (h : Sound t.queue stale l)
    (horder : t.accepted.map some = t.popped ++ l.map some)
    (hc : Careful l.length stale ops) (hpending : pendingAfter l.length ops = some 0) :
    ∃ t', runEvents stepQueue t ops = .ok t' ∧ t'.popped = t'.accepted.map some := by
  induction ops generalizing t l stale with
  | nil =>
      have hnil : l = [] := List.length_eq_zero_iff.1 (Option.some.inj hpending)
      subst hnil
      exact ⟨t, rfl, by simpa using horder.symm⟩
  | cons op ops ih =>
      cases op with
      | push reqBatch how =>
          rcases h.push reqBatch hc.1 with ⟨q', hlink, hsound⟩
          have hstep : stepQueue t (.push reqBatch how)
              = .ok { t with queue := q'.countUp, accepted := t.accepted ++ [reqBatch] } := by
            refine bind_eq_ok.2 ⟨(q'.countUp, true), ?_, rfl⟩
            rw [h.ready.pushBack_eq, hlink]
            rfl
          rw [runEvents_cons_ok hstep]
          refine ih hsound ?_ (by simpa using hc.2) (by simpa [pendingAfter] using hpending)
          simp [horder]
      | pop =>
          rcases l with _ | ⟨r, l⟩
          · cases hpending
          · rcases h.pop with ⟨q', hpop, hsound⟩
            have hstep : stepQueue t .pop = .ok { t with
                queue := q', popped := t.popped ++ [some r] } :=
              bind_eq_ok.2 ⟨(q', some r), hpop, rfl⟩
            rw [runEvents_cons_ok hstep]
            exact ih hsound (by simp [horder]) hc hpending

/-- If the operations empty the queue, they were careful. -/
theorem Sound.careful (h : Sound t.queue stale l) (hpending : pendingAfter l.length ops = some 0)
    (hrun : runEvents stepQueue t ops = .ok t') : Careful l.length stale ops := by
  induction ops generalizing t l stale with
  | nil => trivial
  | cons op ops ih =>
      rcases runEvents_cons_eq_ok hrun with ⟨t₁, hstep, hrest⟩
      cases op with
      | push reqBatch how =>
          rcases stepQueue_push_ok h.ready hstep with ⟨q', hlink, rfl⟩
          by_cases hc : CarefulPush l.length stale how
          · rcases h.push reqBatch hc with ⟨q'', hlink', hsound⟩
            rw [hlink] at hlink'
            cases hlink'
            refine ⟨hc, ?_⟩
            have := ih hsound (by simpa [pendingAfter] using hpending) hrest
            simpa using this
          · exact absurd hrest ((h.short hc hlink).run hpending)
      | pop =>
          rcases l with _ | ⟨r, l⟩
          · cases hpending
          · rcases h.pop with ⟨q', hpop, hsound⟩
            rcases bind_eq_ok.1 hstep with ⟨res, hpop', ⟨⟩⟩
            rw [hpop] at hpop'
            cases hpop'
            exact ih hsound hpending hrest

theorem pendingAfter_append_pops {k : ℕ} (h : pendingAfter n ops = some k) :
    pendingAfter n (ops ++ List.replicate k .pop) = some 0 := by
  induction ops generalizing n with
  | nil =>
      cases h
      induction k with
      | zero => rfl
      | succ k ih => exact ih
  | cons op ops ih =>
      cases op with
      | push reqBatch how => exact ih h
      | pop =>
          cases n with
          | zero => cases h
          | succ n => exact ih h

theorem careful_append_pops (k : ℕ) :
    Careful n stale (ops ++ List.replicate k .pop) ↔ Careful n stale ops := by
  induction ops generalizing n stale with
  | nil =>
      induction k generalizing n stale with
      | zero => rfl
      | succ k ih => exact ih
  | cons op ops ih =>
      cases op with
      | push reqBatch how => exact and_congr_right fun _ => ih
      | pop => exact ih

/-- Whatever was done to the queue, its counter is the number of batches that were accepted and not
popped, and not more than that are reached from `front`. -/
theorem counter_of_run {s t : Trace} {k : ℕ} {l : List ℕ} (hready : Ready s.queue k)
    (hchain : Chain s.queue.nodes s.queue.front l) (hle : l.length ≤ k)
    (hcount : s.accepted.length = s.popped.length + k)
    (hrun : runEvents stepQueue s ops = .ok t) :
    ∃ k l, Ready t.queue k ∧ Chain t.queue.nodes t.queue.front l ∧ l.length ≤ k ∧
      t.accepted.length = t.popped.length + k := by
  induction ops generalizing s k l with
  | nil =>
      cases hrun
      exact ⟨k, l, hready, hchain, hle, hcount⟩
  | cons op ops ih =>
      rcases runEvents_cons_eq_ok hrun with ⟨s₁, hstep, hrest⟩
      cases op with
      | push reqBatch how =>
          rcases stepQueue_push_ok hready hstep with ⟨q', hlink, rfl⟩
          rcases linkAs_chain hchain hlink with ⟨l', hchain', hle'⟩
          exact ih (hready.countUp hlink) hchain' (by omega) (by simp; omega) hrest
      | pop =>
          rcases bind_eq_ok.1 hstep with ⟨res, hpop, ⟨⟩⟩
          rcases l with _ | ⟨r, l⟩
          · rw [hready.popFront_nil hchain] at hpop
            cases hpop
          · rcases Nat.exists_eq_add_of_le' (Nat.lt_of_lt_of_le (Nat.succ_pos _) hle)
              with ⟨k, rfl⟩
            rcases hready.popFront_cons hchain with ⟨q', hpop', hready', -, -, hchain', -⟩
            rw [hpop'] at hpop
            cases hpop
            exact ih hready' hchain' (by simpa using hle) (by simp; omega) hrest

end Runs

/-- Operations of which no pop finds the queue empty, and then pops for what is left, deliver every
accepted batch once and in order, if and only if the operations are careful. -/
theorem fifo_iff_careful (ops : List QueueOp) {k : ℕ} (hk : pendingAfter 0 ops = some k) :
    (∃ t, runEvents stepQueue freshTrace (ops ++ List.replicate k .pop) = .ok t ∧
        t.popped = t.accepted.map some)
      ↔ Careful 0 false ops := by
  have hpending := pendingAfter_append_pops hk
  constructor
  · rintro ⟨t, hrun, -⟩
    exact (careful_append_pops k).1 (sound_fresh.careful hpending hrun)
  · intro hc
    exact sound_fresh.run rfl ((careful_append_pops k).2 hc) hpending

/-- The second push leaves `back` behind, but the queue is empty before the third. -/
theorem fifo_late_push :
    ∃ t, runEvents stepQueue freshTrace ([.push 7 .uncontended, .push 8 .uncontended, .pop, .pop,
        .push 9 .standard] ++ List.replicate 1 .pop) = .ok t ∧ t.popped = t.accepted.map some :=
  (fifo_iff_careful [.push 7 .uncontended, .push 8 .uncontended, .pop, .pop, .push 9 .standard]
    rfl).2 (by simp [Careful, CarefulPush, staleAfter])

/-- Three pushes in a row: the second batch is never popped. -/
theorem push_three_loses :
    (fun t => (t.accepted, t.popped)) <$> runEvents stepQueue freshTrace
        [.push 7 .uncontended, .push 8 .uncontended, .push 9 .uncontended, .pop, .pop]
      = .ok ([7, 8, 9], [some 7, some 9]) ∧
    runEvents stepQueue freshTrace
        [.push 7 .uncontended, .push 8 .uncontended, .push 9 .uncontended, .pop, .pop, .pop]
      = .error .nullDeref :=
  ⟨rfl, rfl⟩

/-- After every run the counter is right, modulo `2 ^ 32`; and a pop of an empty queue is no
harmless one, whatever was done before. -/
theorem popFront_empty (ops : List QueueOp) (t : Trace)
    (hrun : runEvents stepQueue freshTrace ops = .ok t) :
    t.popped.length ≤ t.accepted.length ∧
    t.queue.size = (t.accepted.length - t.popped.length) % 2 ^ 32 ∧
    (t.popped.length = t.accepted.length → t.queue.popFront = .error .nullDeref) := by
  rcases counter_of_run sound_fresh.ready .nil (Nat.le_refl _) rfl hrun
    with ⟨k, l, hready, hchain, hle, hcount⟩
  refine ⟨by omega, by rw [hready.size]; congr 1; omega, fun heq => ?_⟩
  have hnil : l = [] := List.length_eq_zero_iff.1 (by omega)
  subst hnil
  exact hready.popFront_nil hchain

/-- One batch in and out. -/
theorem popFront_empty_again : ∃ t : Trace,
    runEvents stepQueue freshTrace [.push 7 .uncontended, .pop] = .ok t ∧
      t.queue.popFront = .error .nullDeref :=
  ⟨_, rfl, (popFront_empty [.push 7 .uncontended, .pop] _ rfl).2.2 rfl⟩

/-- The first poll of a fresh queue. -/
theorem poll_fresh_faults : freshTrace.queue.popFront = .error .nullDeref := rfl

end WaitQueue

end RingDB
