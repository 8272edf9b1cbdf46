import Mathlib.Data.Fintype.Basic
import Mathlib.Logic.Function.Basic
import Mathlib.Logic.Relation

/-!
# The hand-written guards

`LevelInfo::guard`, `BufferQueue::guard` and the two guards of `RequestBatchWaitQueue` are all
the same protocol on one `std::atomic_uchar`: the atomic is constructed as `1`, a thread acquires
it with `compare_exchange_weak(my_zero, 1)` where `my_zero` starts as `0`, and releases it with
`store(1)`.  The model has one shared byte, and for every thread its `my_zero` and whether it
stands between a successful exchange and its release; each atomic operation is one step, so a
path of steps is a sequentially consistent interleaving.

The polarity is wrong.  The byte is `1` when it is free and `1` when it is taken, so it is `1`
always (`guard_eq_one`):

* an exchange that expects `0` fails in every reachable state, also when nobody is inside;
* it leaves the observed `1` in `my_zero`, so the next pass of the retry loop expects `1` and
  succeeds, also when somebody is inside.
-/

namespace RingDB

/-- One guard and the `n` threads that use it. -/
structure GuardState (n : ℕ) where
  atomicGuard : UInt8
  /-- The variable each thread passes as the expected value. -/
  myZero : Fin n → UInt8
  /-- The thread is between a successful acquire and its release. -/
  inside : Fin n → Bool

/-- `atomic_guard{1}`, every expected variable `0`. -/
def GuardState.init (n : ℕ) : GuardState n where
  atomicGuard := 1
  myZero := fun _ => 0
  inside := fun _ => false

/-- `compare_exchange(expected, 1)`: whether it succeeds, the new value of the atomic and the new
value of the expected variable.  A failed exchange loads the observed value. -/
def compareExchange (value expected : UInt8) : Bool × UInt8 × UInt8 :=
  if value = expected then (true, 1, expected) else (false, value, value)

/-- One atomic step of one thread. -/
inductive GuardStep {n : ℕ} : GuardState n → GuardState n → Prop where
  /-- The exchange of a retry loop or of a one-shot try. -/
  | exchange (s : GuardState n) (t : Fin n) (houtside : s.inside t = false) :
      GuardStep s
        { atomicGuard := (compareExchange s.atomicGuard (s.myZero t)).2.1
          myZero := Function.update s.myZero t (compareExchange s.atomicGuard (s.myZero t)).2.2
          inside := Function.update s.inside t (compareExchange s.atomicGuard (s.myZero t)).1 }
  /-- The weak exchange may fail although the values agree. -/
  | spurious (s : GuardState n) (t : Fin n) (houtside : s.inside t = false) :
      GuardStep s { s with myZero := Function.update s.myZero t s.atomicGuard }
  /-- A new try begins with a new variable that is `0`. -/
  | retry (s : GuardState n) (t : Fin n) (houtside : s.inside t = false) :
      GuardStep s { s with myZero := Function.update s.myZero t 0 }
  /-- `store(1)`, after which the callers put `my_zero` back to `0`. -/
  | release (s : GuardState n) (t : Fin n) (hinside : s.inside t = true) :
      GuardStep s
        { atomicGuard := 1
          myZero := Function.update s.myZero t 0
          inside := Function.update s.inside t false }

def GuardReachable {n : ℕ} (s : GuardState n) : Prop :=
  Relation.ReflTransGen GuardStep (GuardState.init n) s

/-! ## The protocol's two promises -/

/-- At most one thread is inside at any time. -/
def MutualExclusion (n : ℕ) : Prop :=
  ∀ s : GuardState n, GuardReachable s → ∀ t u, s.inside t = true → s.inside u = true → t = u

/-- Whenever nobody is inside, an exchange that expects `0` can succeed. -/
def AcquirePossible (n : ℕ) : Prop :=
  ∀ s : GuardState n, GuardReachable s → (∀ t, s.inside t = false) →
    (compareExchange s.atomicGuard 0).1 = true

/-- What the guards are for. -/
def GuardProtocol (n : ℕ) : Prop := MutualExclusion n ∧ AcquirePossible n

/-! ## The byte never moves -/

/-- An exchange on a byte that is `1` leaves it `1`, whatever it expected. -/
theorem compareExchange_one (expected : UInt8) : (compareExchange 1 expected).2.1 = 1 := by
  unfold compareExchange
  split <;> rfl

theorem guardStep_one {n : ℕ} {s s' : GuardState n} (h : GuardStep s s')
    (h1 : s.atomicGuard = 1) : s'.atomicGuard = 1 := by
  cases h with
  | exchange t _ => simp only [h1, compareExchange_one]
  | spurious t _ => exact h1
  | retry t _ => exact h1
  | release t _ => rfl

/-- **The guard is `1` in every reachable state**, free or taken. -/
theorem guard_eq_one {n : ℕ} {s : GuardState n} (h : GuardReachable s) : s.atomicGuard = 1 := by
  induction h with
  | refl => rfl
  | tail _ hstep ih => exact guardStep_one hstep ih

/-- No exchange that expects `0` succeeds in any reachable state. -/
theorem compareExchange_zero_fails {n : ℕ} {s : GuardState n} (h : GuardReachable s) :
    (compareExchange s.atomicGuard 0).1 = false := by
  rw [guard_eq_one h]
  rfl

theorem not_acquirePossible (n : ℕ) : ¬ AcquirePossible n := by
  intro h
  have hinit : GuardReachable (GuardState.init n) := Relation.ReflTransGen.refl
  have hok := h _ hinit (fun _ => rfl)
  rw [compareExchange_zero_fails hinit] at hok
  exact Bool.noConfusion hok

/-! ## Everybody gets in -/

/-- The two passes of a retry loop: the first exchange fails and loads `1`, the second one
succeeds.  Nobody else has to move, and nobody else is looked at. -/
theorem enter_of_retry {n : ℕ} {s : GuardState n} (hs : GuardReachable s) (t : Fin n)
    (hout : s.inside t = false) (hzero : s.myZero t = 0) :
    ∃ s', GuardReachable s' ∧ s'.inside = Function.update s.inside t true
      ∧ ∀ u, u ≠ t → s'.myZero u = s.myZero u := by
  have h1 := guard_eq_one hs
  have hfail := GuardStep.exchange s t hout
  have hce : compareExchange 1 0 = (false, 1, 1) := rfl
  rw [h1, hzero, hce] at hfail
  have hout' : Function.update s.inside t false t = false := Function.update_self ..
  have hsucc := GuardStep.exchange
    { atomicGuard := 1, myZero := Function.update s.myZero t 1,
      inside := Function.update s.inside t false } t hout'
  have hce' : compareExchange 1 1 = (true, 1, 1) := rfl
  simp only [Function.update_self, hce', Function.update_idem] at hsucc
  refine ⟨_, (hs.tail hfail).tail hsucc, rfl, fun u hu => ?_⟩
  simp [Function.update_of_ne hu]

/-- With two threads or more, two of them stand inside together in some interleaving. -/
theorem two_inside {n : ℕ} {t u : Fin n} (htu : t ≠ u) :
    ∃ s, GuardReachable s ∧ s.inside t = true ∧ s.inside u = true := by
  have hinit : GuardReachable (GuardState.init n) := Relation.ReflTransGen.refl
  rcases enter_of_retry hinit t rfl rfl with ⟨s₁, hr₁, hin₁, hz₁⟩
  have hout : s₁.inside u = false := by
    rw [hin₁, Function.update_of_ne htu.symm]
    rfl
  have hzero : s₁.myZero u = 0 := hz₁ u htu.symm
  rcases enter_of_retry hr₁ u hout hzero with ⟨s₂, hr₂, hin₂, -⟩
  refine ⟨s₂, hr₂, ?_, ?_⟩
  · rw [hin₂, Function.update_of_ne htu, hin₁, Function.update_self]
  · rw [hin₂, Function.update_self]

theorem mutualExclusion_iff (n : ℕ) : MutualExclusion n ↔ n ≤ 1 := by
  constructor
  · intro h
    by_contra hn
    have h0 : 0 < n := by omega
    have h1 : 1 < n := by omega
    have hne : (⟨0, h0⟩ : Fin n) ≠ ⟨1, h1⟩ := by simp
    rcases two_inside hne with ⟨s, hr, ht, hu⟩
    exact hne (h s hr _ _ ht hu)
  · intro hn s _ t u _ _
    ext
    have := t.isLt
    have := u.isLt
    omega

/-- **The guard protocol fails for every number of threads.**  Acquiring with the expected value
`0` is never possible, and exclusion holds only where there is nobody to exclude. -/
theorem guardProtocol_fails (n : ℕ) :
    ¬ GuardProtocol n ∧ ¬ AcquirePossible n ∧ (MutualExclusion n ↔ n ≤ 1) :=
  ⟨fun h => not_acquirePossible n h.2, not_acquirePossible n, mutualExclusion_iff n⟩

/-- Two threads: both are inside after two exchanges each, and a free guard refuses. -/
theorem guardProtocol_fails_two :
    (∃ s : GuardState 2, GuardReachable s ∧ s.inside 0 = true ∧ s.inside 1 = true)
      ∧ (compareExchange (GuardState.init 2).atomicGuard 0).1 = false
      ∧ ¬ GuardProtocol 2 := by
  refine ⟨two_inside (by decide), rfl, ?_⟩
  rintro ⟨hme, -⟩
  exact absurd ((mutualExclusion_iff 2).1 hme) (by decide)

end RingDB
