import RingDB.Core.Sort

/-!
# Bisection with cursors that wrap around

`Core.Search` adds the two ends of a range as natural numbers.  In a register the sum is taken
modulo some `M`, and the middle of a range in the upper half of the register is then a place in the
lower half, which may lie outside the range.

* `wrappedBisect` — the loop with such a sum, and with an outcome only if it ends.
* `wrappedBisect_eq` — up to the middle of the register it is `bisect`.
* **`wrappedBisect_boundary`**, **`wrappedBisect_diverges`** — there it finds the boundary of a
  sorted range.  Beyond, it does not end if the boundary is in the upper half.
* `exists_boundary`, `iff_lt_countP` — a sorted range has a boundary, and for a list it is the
  number of elements on its left.
-/

namespace Core

/-- The loop with the sum of the cursors modulo `M`, observed for `fuel` passes. -/
def wrappedBisect (M : ℕ) (below : ℕ → Except Fault Bool) : ℕ → ℕ → ℕ → Except Fault ℕ
  | 0, left, right => if left < right then .error .diverges else .ok left
  | fuel + 1, left, right =>
      if left < right then
        match below ((left + right) % M / 2) with
        | .error f => .error f
        | .ok true => wrappedBisect M below fuel (((left + right) % M / 2 + 1) % M) right
        | .ok false => wrappedBisect M below fuel left ((left + right) % M / 2)
      else .ok left

section Loop

variable {M : ℕ} {below : ℕ → Except Fault Bool}

/-- One pass. -/
theorem wrappedBisect_succ (fuel left right : ℕ) :
    wrappedBisect M below (fuel + 1) left right =
      if left < right then
        match below ((left + right) % M / 2) with
        | .error f => .error f
        | .ok true => wrappedBisect M below fuel (((left + right) % M / 2 + 1) % M) right
        | .ok false => wrappedBisect M below fuel left ((left + right) % M / 2)
      else .ok left :=
  rfl

/-- With an empty range there is nothing to search. -/
theorem wrappedBisect_of_le {fuel left right : ℕ} (h : right ≤ left) :
    wrappedBisect M below fuel left right = .ok left := by
  cases fuel with
  | zero => exact if_neg (Nat.not_lt.2 h)
  | succ fuel => rw [wrappedBisect_succ, if_neg (Nat.not_lt.2 h)]

/-- In the lower half of the register no sum wraps around, and as many passes as there are places
are enough. -/
theorem wrappedBisect_eq {fuel left right : ℕ} (hfuel : right - left ≤ fuel)
    (hright : 2 * right ≤ M) :
    wrappedBisect M below fuel left right = bisect below (· + 1) fuel left right := by
  induction fuel generalizing left right with
  | zero =>
      rw [wrappedBisect_of_le (by omega), bisect_of_le (by omega)]
  | succ fuel ih =>
      rw [wrappedBisect_succ, bisect_succ]
      by_cases hlt : left < right
      · have hsum : (left + right) % M = left + right := Nat.mod_eq_of_lt (by omega)
        have hnext : ((left + right) / 2 + 1) % M = (left + right) / 2 + 1 :=
          Nat.mod_eq_of_lt (by omega)
        rw [if_pos hlt, if_pos hlt, hsum]
        cases hmid : below ((left + right) / 2) with
        | error f => rfl
        | ok b =>
            cases b with
            | true =>
                simp only [hnext]
                exact ih (by omega) hright
            | false => exact ih (by omega) (by omega)
      · rw [if_neg hlt, if_neg hlt]

/-- Where it ends, `bisect` ends as well. -/
theorem bisect_of_wrappedBisect {fuel fuel' left right pos : ℕ} (hfuel : right - left ≤ fuel)
    (hright : 2 * right ≤ M) (h : wrappedBisect M below fuel' left right = .ok pos) :
    bisect below (· + 1) fuel left right = .ok pos := by
  induction fuel' generalizing fuel left right with
  | zero =>
      rw [wrappedBisect] at h
      split_ifs at h with hlt
      cases h
      exact bisect_of_le (Nat.not_lt.1 hlt)
  | succ fuel' ih =>
      by_cases hlt : left < right
      · obtain ⟨fuel, rfl⟩ : ∃ n, fuel = n + 1 := ⟨fuel - 1, by omega⟩
        have hsum : (left + right) % M = left + right := Nat.mod_eq_of_lt (by omega)
        have hnext : ((left + right) / 2 + 1) % M = (left + right) / 2 + 1 :=
          Nat.mod_eq_of_lt (by omega)
        rw [wrappedBisect_succ, if_pos hlt, hsum] at h
        rw [bisect_succ, if_pos hlt]
        cases hmid : below ((left + right) / 2) with
        | error f => simp only [hmid] at h; cases h
        | ok b =>
            simp only [hmid] at h ⊢
            cases b with
            | true =>
                rw [hnext] at h
                exact ih (by omega) hright h
            | false => exact ih (by omega) (by omega) h
      · rw [wrappedBisect_of_le (Nat.not_lt.1 hlt)] at h
        cases h
        exact bisect_of_le (Nat.not_lt.1 hlt)

/-- Bisection finds the boundary. -/
theorem wrappedBisect_boundary {pos fuel left right : ℕ} (hleft : left ≤ pos) (hpos : pos ≤ right)
    (hfuel : right - left ≤ fuel) (hright : 2 * right ≤ M)
    (hbelow : ∀ j, left ≤ j → j < pos → below j = .ok true)
    (habove : ∀ j, pos ≤ j → j < right → below j = .ok false) :
    wrappedBisect M below fuel left right = .ok pos := by
  rw [wrappedBisect_eq hfuel hright]
  exact bisect_boundary hleft hpos hfuel hbelow habove

/-- A search that ends has made its first comparison. -/
theorem wrappedBisect_first {fuel left right pos : ℕ} (hlt : left < right)
    (h : wrappedBisect M below fuel left right = .ok pos) :
    ∃ b, below ((left + right) % M / 2) = .ok b := by
  cases fuel with
  | zero =>
      rw [wrappedBisect, if_pos hlt] at h
      cases h
  | succ fuel =>
      rw [wrappedBisect_succ, if_pos hlt] at h
      cases hmid : below ((left + right) % M / 2) with
      | error f => simp only [hmid] at h; cases h
      | ok b => exact ⟨b, rfl⟩

/-- Where it ends does not depend on how long it is observed. -/
theorem wrappedBisect_unique {fuel fuel' left right pos pos' : ℕ}
    (h : wrappedBisect M below fuel left right = .ok pos)
    (h' : wrappedBisect M below fuel' left right = .ok pos') : pos = pos' := by
  induction fuel generalizing fuel' left right with
  | zero =>
      rw [wrappedBisect] at h
      split_ifs at h with hlt
      rw [wrappedBisect_of_le (Nat.not_lt.1 hlt)] at h'
      cases h
      cases h'
      rfl
  | succ fuel ih =>
      by_cases hlt : left < right
      · cases fuel' with
        | zero =>
            rw [wrappedBisect, if_pos hlt] at h'
            cases h'
        | succ fuel' =>
            rw [wrappedBisect_succ, if_pos hlt] at h h'
            cases hmid : below ((left + right) % M / 2) with
            | error f => simp only [hmid] at h; cases h
            | ok b =>
                simp only [hmid] at h h'
                cases b with
                | true => exact ih h h'
                | false => exact ih h h'
      · rw [wrappedBisect_of_le (Nat.not_lt.1 hlt)] at h h'
        cases h
        cases h'
        rfl

/-- A search ends where it began, or one behind a place in the lower half. -/
theorem wrappedBisect_cases (hM : 2 ≤ M) {fuel left right pos : ℕ}
    (h : wrappedBisect M below fuel left right = .ok pos) :
    pos = left ∨ (0 < pos ∧ 2 * pos ≤ M + 1) := by
  induction fuel generalizing left right with
  | zero =>
      rw [wrappedBisect] at h
      split_ifs at h
      cases h
      exact .inl rfl
  | succ fuel ih =>
      rw [wrappedBisect_succ] at h
      split_ifs at h with hlt
      · have hmod := Nat.mod_lt (left + right) (Nat.zero_lt_of_lt hM)
        have hnext : ((left + right) % M / 2 + 1) % M = (left + right) % M / 2 + 1 :=
          Nat.mod_eq_of_lt (by omega)
        cases hmid : below ((left + right) % M / 2) with
        | error f => simp only [hmid] at h; cases h
        | ok b =>
            simp only [hmid] at h
            cases b with
            | true =>
                rw [hnext] at h
                rcases ih h with hpos | hpos
                · exact .inr (by omega)
                · exact .inr hpos
            | false => exact ih h
      · cases h
        exact .inl rfl

/-- A search whose right end is in the upper half, and which is sent to the right from every place
in the lower half, does not end: the middle is always in the lower half. -/
theorem wrappedBisect_diverges {right : ℕ} (hM : 0 < M) (hright : M + 2 ≤ 2 * right)
    (hbelow : ∀ j, 2 * j < M → below j = .ok true) {fuel left : ℕ} (hleft : 2 * left ≤ M + 1) :
    wrappedBisect M below fuel left right = .error .diverges := by
  induction fuel generalizing left with
  | zero => exact if_pos (by omega)
  | succ fuel ih =>
      have hmod := Nat.mod_lt (left + right) hM
      have hnext := Nat.mod_le ((left + right) % M / 2 + 1) M
      rw [wrappedBisect_succ, if_pos (by omega), hbelow _ (by omega)]
      exact ih (by omega)

end Loop

/-! ## Boundaries -/

/-- A property that every place passes on to the places before it holds up to a boundary. -/
theorem exists_boundary {p : ℕ → Prop} : ∀ {n : ℕ}, (∀ i j, i < j → j < n → p j → p i) →
    ∃ pos ≤ n, ∀ j < n, p j ↔ j < pos
  | 0, _ => ⟨0, Nat.le_refl 0, fun _ hj => absurd hj (Nat.not_lt_zero _)⟩
  | n + 1, h => by
      by_cases hn : p n
      · refine ⟨n + 1, Nat.le_refl _, fun j hj => iff_of_true ?_ hj⟩
        rcases Nat.lt_succ_iff_lt_or_eq.1 hj with hj | rfl
        · exact h j n hj (Nat.lt_succ_self n) hn
        · exact hn
      · rcases exists_boundary fun i j hij hj => h i j hij (hj.trans (Nat.lt_succ_self n))
          with ⟨pos, hpos, hiff⟩
        refine ⟨pos, hpos.trans (Nat.le_succ n), fun j hj => ?_⟩
        rcases Nat.lt_succ_iff_lt_or_eq.1 hj with hj | rfl
        · exact hiff j hj
        · exact iff_of_false hn (Nat.not_lt.2 hpos)

/-- In a list it is the number of elements with the property. -/
theorem iff_lt_countP {α : Type*} {p : α → Bool} {l : List α}
    (hl : l.Pairwise fun a b => p b = true → p a = true) {j : ℕ} {b : α} (hb : l[j]? = some b) :
    p b = true ↔ j < l.countP p := by
  induction l generalizing j with
  | nil => simp at hb
  | cons c l ih =>
      rw [List.pairwise_cons] at hl
      by_cases hc : p c = true
      · rw [List.countP_cons_of_pos hc]
        cases j with
        | zero =>
            cases hb
            exact iff_of_true hc (Nat.succ_pos _)
        | succ j => exact (ih hl.2 hb).trans Nat.succ_lt_succ_iff.symm
      · have hnone : ∀ a ∈ l, ¬ p a = true := fun a ha hpa => hc (hl.1 a ha hpa)
        rw [List.countP_cons_of_neg hc, List.countP_eq_zero.2 hnone]
        refine iff_of_false ?_ (Nat.not_lt_zero j)
        cases j with
        | zero =>
            cases hb
            exact hc
        | succ j => exact hnone b (List.mem_of_getElem? hb)

end Core
