import RingDB.Requests.Batch
import RingDB.Core.Run

/-!
# The order of a traversal stack

`push_top` fills `data[back]` and then moves `back` up, `pop_top` moves it down again, and `top`
reads `data[back]`: the slot above the one that was filled last.  What is there was popped from it,
or the allocator left it there.

* `Lifo` — the stack as it is meant, with the slots above its elements.
* `IsLifo` — `top` is the newest element, and nothing outside the array is touched.
* `Shadowed` — the slot above the newest element has the same quadruple.
* `Represents` — the slots are the elements from the oldest one on, and behind them the rest.
* **`isLifo_iff`** — a stack is last-in-first-out along a run if and only if its newest element is
  shadowed all the way.
-/

namespace RingDB

open Core

namespace Stack

variable {length : ℕ}

section Model

inductive StackOp where
  | push (q : Quad)
  | pop

def apply (st : Stack length) : StackOp → Except Fault (Stack length)
  | .push q => st.pushTop q
  | .pop => .ok st.popTop

/-- The elements, the newest first, and the slots above them. -/
structure Lifo where
  pushed : List Quad
  above : List Quad

/-- Only operations that keep the depth between `0` and the length are considered. -/
def Lifo.step (f : Lifo) : StackOp → Except Fault Lifo
  | .push q =>
      match f.above with
      | [] => .error .outOfBounds
      | _ :: above => .ok ⟨q :: f.pushed, above⟩
  | .pop =>
      match f.pushed with
      | [] => .error .outOfBounds
      | q :: pushed => .ok ⟨pushed, q :: f.above⟩

/-- The stack of the source next to the one that is meant. -/
def stepBoth (s : Stack length × Lifo) (op : StackOp) : Except Fault (Stack length × Lifo) := do
  let f ← s.2.step op
  let st ← s.1.apply op
  pure (st, f)

/-- `empty` tells whether there are elements, `top` is the newest one, and every operation that is
considered stays in the array. -/
structure IsLifo (s : Stack length × Lifo) : Prop where
  empty_iff : s.1.empty = true ↔ s.2.pushed = []
  top : ∀ q, s.2.pushed.head? = some q → s.1.top = .ok q
  inside : ∀ op f, s.2.step op = .ok f → ∃ st, s.1.apply op = .ok st

/-- The slot above the newest element has the same quadruple. -/
def Shadowed (f : Lifo) : Prop := ∀ q, f.pushed.head? = some q → f.above.head? = some q

instance (f : Lifo) : Decidable (Shadowed f) :=
  inferInstanceAs (Decidable (∀ q ∈ f.pushed.head?, f.above.head? = some q))

end Model

section Representation

variable {st : Stack length} {f f' : Lifo}

structure Represents (st : Stack length) (f : Lifo) : Prop where
  data : st.data = f.pushed.reverse ++ f.above
  back : st.back = f.pushed.length

theorem represents_new {slots : List Quad} (h : slots.length = length) :
    Represents (Stack.new slots h) ⟨[], slots⟩ where
  data := rfl
  back := rfl

theorem Represents.length_eq (h : Represents st f) : f.pushed.length + f.above.length = length := by
  rw [← st.length_data, h.data, List.length_append, List.length_reverse]

/-- `top` reads the slot above the newest element. -/
theorem Represents.top_eq (h : Represents st f) :
    st.top = match f.above.head? with
      | none => .error .outOfBounds
      | some q => .ok q := by
  have hslot : st.data[st.back]? = f.above.head? := by
    rw [h.data, h.back, List.getElem?_append_right (by rw [List.length_reverse]),
      List.length_reverse, Nat.sub_self, List.head?_eq_getElem?]
  cases hhead : f.above.head? with
  | none => simp only [Stack.top, hslot, hhead]
  | some q => simp only [Stack.top, hslot, hhead]

theorem Represents.empty_iff (h : Represents st f) : st.empty = true ↔ f.pushed = [] := by
  rw [Stack.empty, h.back, beq_iff_eq, List.length_eq_zero_iff]

/-- A push replaces the slot above the newest element. -/
theorem Represents.push {q unused : Quad} {above : List Quad} (h : Represents st f)
    (habove : f.above = unused :: above) :
    ∃ st', st.pushTop q = .ok st' ∧ Represents st' ⟨q :: f.pushed, above⟩ := by
  have hlen := h.length_eq
  have hback := h.back
  rw [habove, List.length_cons] at hlen
  have hroom : st.back < length := by omega
  rw [pushTop, if_pos hroom]
  refine ⟨_, rfl, ?_, ?_⟩
  · show st.data.set st.back q = (q :: f.pushed).reverse ++ above
    simp [h.data, h.back, habove, List.set_append_right]
  · show st.back + 1 = (q :: f.pushed).length
    rw [h.back, List.length_cons]

/-- A popped element stays where it is, above the others. -/
theorem Represents.pop {q : Quad} {pushed : List Quad} (hlt : length < 2 ^ 32)
    (h : Represents st f) (hpushed : f.pushed = q :: pushed) :
    Represents st.popTop ⟨pushed, q :: f.above⟩ := by
  have hlen := h.length_eq
  have hback := h.back
  rw [hpushed, List.length_cons] at hlen hback
  constructor
  · show st.popTop.data = pushed.reverse ++ q :: f.above
    rw [data_popTop, h.data, hpushed, List.reverse_cons, List.append_assoc]
    rfl
  · show (st.back + uintMax) % 2 ^ 32 = pushed.length
    simp only [uintMax]
    omega

theorem Represents.step (hlt : length < 2 ^ 32) {op : StackOp} (h : Represents st f)
    (hstep : f.step op = .ok f') : ∃ st', st.apply op = .ok st' ∧ Represents st' f' := by
  cases op with
  | push q =>
      simp only [Lifo.step] at hstep
      split at hstep
      · cases hstep
      · next habove =>
          cases hstep
          exact h.push habove
  | pop =>
      simp only [Lifo.step] at hstep
      split at hstep
      · cases hstep
      · next hpushed =>
          cases hstep
          exact ⟨st.popTop, rfl, h.pop hlt hpushed⟩

theorem Represents.isLifo_shadowed (hlt : length < 2 ^ 32) (h : Represents st f) :
    IsLifo (st, f) ↔ Shadowed f := by
  have htop := h.top_eq
  constructor
  · intro hlifo q hq
    have hq' : st.top = .ok q := hlifo.top q hq
    rw [hq'] at htop
    split at htop
    · cases htop
    · next q' hq' =>
        cases htop
        exact hq'
  · intro hshadowed
    refine ⟨h.empty_iff, fun q hq => ?_, fun op f' hstep => ?_⟩
    · have hq' := hshadowed q hq
      rw [hq'] at htop
      exact htop
    · obtain ⟨st', happly, -⟩ := h.step hlt hstep
      exact ⟨st', happly⟩

end Representation

section Runs

theorem stepBoth_ok_iff {st : Stack length} {f : Lifo} {op : StackOp} {s : Stack length × Lifo} :
    stepBoth (st, f) op = .ok s ↔
      ∃ f' st', f.step op = .ok f' ∧ st.apply op = .ok st' ∧ (st', f') = s := by
  simp only [stepBoth, bind_eq_ok, exists_and_left]
  refine exists_congr fun f' => and_congr_right fun _ => exists_congr fun st' =>
    and_congr_right fun _ => ⟨Except.ok.inj, congrArg _⟩

/-- **The order of a stack.**  For every length, whatever the slots hold at first, and every
sequence of `push_top` and `pop_top` that keeps the depth between `0` and the length: `top` is the
newest element all the way, without an access outside the array, if and only if at every moment with
an element there is a slot above the newest one, and it has the same quadruple. -/
theorem isLifo_iff {slots : List Quad} (hlt : slots.length < 2 ^ 32) (ops : List StackOp) :
    Throughout stepBoth IsLifo (Stack.new slots rfl, ⟨[], slots⟩) ops
      ↔ Throughout Lifo.step Shadowed ⟨[], slots⟩ ops := by
  refine throughout_iff_of_related (R := fun s f => s.2 = f ∧ Represents s.1 f)
    ?_ ?_ ?_ ⟨rfl, represents_new rfl⟩
  · rintro ⟨st, f⟩ _ ⟨rfl, h⟩
    exact h.isLifo_shadowed hlt
  · rintro ⟨st, f⟩ _ op s' ⟨rfl, h⟩ hstep
    obtain ⟨f', st', hf', hst', rfl⟩ := stepBoth_ok_iff.1 hstep
    obtain ⟨st'', hst'', hrep⟩ := h.step hlt hf'
    cases hst'.symm.trans hst''
    exact ⟨f', hf', rfl, hrep⟩
  · rintro ⟨st, f⟩ _ op f' ⟨rfl, h⟩ hf'
    obtain ⟨st', hst', hrep⟩ := h.step hlt hf'
    exact ⟨(st', f'), stepBoth_ok_iff.2 ⟨f', st', hf', hst', rfl⟩, rfl, hrep⟩

/-- Above every element that is the newest one at some time, the allocator left the same. -/
theorem same_left_above_isLifo :
    Throughout stepBoth IsLifo
      (Stack.new [(0, 0, 0, 0), (1, 2, 3, 4), (5, 6, 7, 8)] rfl,
        ⟨[], [(0, 0, 0, 0), (1, 2, 3, 4), (5, 6, 7, 8)]⟩)
      [.push (1, 2, 3, 4), .pop, .push (1, 2, 3, 4), .push (5, 6, 7, 8)] := by
  refine (@isLifo_iff [(0, 0, 0, 0), (1, 2, 3, 4), (5, 6, 7, 8)] (by decide) _).2 ?_
  decide

/-- After a push onto zeroed slots, `top` is a zeroed slot. -/
theorem zeroed_stack_not_lifo :
    ¬ Throughout stepBoth IsLifo
      (Stack.new (List.replicate 2 (0, 0, 0, 0)) rfl, ⟨[], List.replicate 2 (0, 0, 0, 0)⟩)
      [.push (1, 2, 3, 4)] := by
  intro h
  have htop := (h.2 _ rfl).start.top (1, 2, 3, 4) rfl
  cases htop

end Runs

end Stack

end RingDB
