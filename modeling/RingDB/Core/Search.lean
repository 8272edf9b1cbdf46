import Mathlib.Algebra.Group.Nat.Defs
import RingDB.Core.Bytes

/-!
# Bisection of a sorted range

The loop `while (left < right) { mid = (left + right) >> 1; … }` that every sorted array of the
source is searched with.  `below mid` decides to which side of `mid` the search goes on, `next`
is where the right part begins.
-/

namespace Core

/-- The loop, observed for `fuel` passes.  `right - left` passes are always enough. -/
def bisect (below : ℕ → Except Fault Bool) (next : ℕ → ℕ) : ℕ → ℕ → ℕ → Except Fault ℕ
  | 0, left, _ => .ok left
  | fuel + 1, left, right =>
      if left < right then
        match below ((left + right) / 2) with
        | .error f => .error f
        | .ok true => bisect below next fuel (next ((left + right) / 2)) right
        | .ok false => bisect below next fuel left ((left + right) / 2)
      else .ok left

variable {below : ℕ → Except Fault Bool}

/-- One pass. -/
theorem bisect_succ {next : ℕ → ℕ} (fuel left right : ℕ) :
    bisect below next (fuel + 1) left right =
      if left < right then
        match below ((left + right) / 2) with
        | .error f => .error f
        | .ok true => bisect below next fuel (next ((left + right) / 2)) right
        | .ok false => bisect below next fuel left ((left + right) / 2)
      else .ok left :=
  rfl

/-- With an empty range there is nothing to search. -/
theorem bisect_of_le {next : ℕ → ℕ} {fuel left right : ℕ} (h : right ≤ left) :
    bisect below next fuel left right = .ok left := by
  cases fuel with
  | zero => rfl
  | succ fuel => rw [bisect_succ, if_neg (Nat.not_lt.2 h)]

/-- A search that is never sent to the right ends where it began. -/
theorem bisect_of_false {next : ℕ → ℕ} {fuel left right pos : ℕ}
    (hb : ∀ j b, below j = .ok b → b = false)
    (h : bisect below next fuel left right = .ok pos) : pos = left := by
  induction fuel generalizing right with
  | zero =>
      cases h
      rfl
  | succ fuel ih =>
      rw [bisect_succ] at h
      split_ifs at h
      · cases hmid : below ((left + right) / 2) with
        | error f => simp only [hmid] at h; cases h
        | ok b =>
            cases hb _ _ hmid
            simp only [hmid] at h
            exact ih h
      · cases h
        rfl

/-- If no comparison on the way down to zero sends the search to the right, it ends at zero. -/
theorem bisect_down {next : ℕ → ℕ} : ∀ {fuel right : ℕ}, right ≤ fuel →
    (∀ j, j ≤ right / 2 → below j = .ok false) → bisect below next fuel 0 right = .ok 0 := by
  intro fuel
  induction fuel with
  | zero =>
      intro right _ _
      rfl
  | succ fuel ih =>
      intro right hfuel hb
      rw [bisect_succ]
      split_ifs with hlt
      · have hmid := hb ((0 + right) / 2) (by omega)
        simp only [hmid]
        exact ih (by omega) fun j hj => hb j (by omega)
      · rfl

/-- A search whose comparisons are all defined is defined, however far it steps. -/
theorem bisect_defined {next : ℕ → ℕ} {fuel left right : ℕ}
    (hb : ∀ j, j < right → ∃ b, below j = .ok b) :
    ∃ pos, bisect below next fuel left right = .ok pos := by
  induction fuel generalizing left right with
  | zero => exact ⟨left, rfl⟩
  | succ fuel ih =>
      rw [bisect_succ]
      split_ifs with hlt
      · rcases hb ((left + right) / 2) (by omega) with ⟨b, hmid⟩
        simp only [hmid]
        cases b with
        | true => exact ih hb
        | false => exact ih fun j hj => hb j (by omega)
      · exact ⟨left, rfl⟩

/-- A search that ends has made its first comparison. -/
theorem bisect_first {next : ℕ → ℕ} {fuel left right pos : ℕ} (hlt : left < right)
    (hfuel : 0 < fuel) (h : bisect below next fuel left right = .ok pos) :
    ∃ b, below ((left + right) / 2) = .ok b := by
  cases fuel with
  | zero => omega
  | succ fuel =>
      rw [bisect_succ, if_pos hlt] at h
      cases hmid : below ((left + right) / 2) with
      | error f => simp only [hmid] at h; cases h
      | ok b => exact ⟨b, rfl⟩

/-- The search moves in steps of at least `len`. -/
theorem bisect_cases {len fuel left right pos : ℕ}
    (h : bisect below (· + len) fuel left right = .ok pos) : pos = left ∨ left + len ≤ pos := by
  induction fuel generalizing left right with
  | zero =>
      cases h
      exact .inl rfl
  | succ fuel ih =>
      rw [bisect_succ] at h
      split_ifs at h with hlt
      · cases hmid : below ((left + right) / 2) with
        | error f => simp only [hmid] at h; cases h
        | ok b =>
            simp only [hmid] at h
            cases b with
            | true => rcases ih h with hpos | hpos <;> omega
            | false => exact ih h
      · cases h
        exact .inl rfl

/-- The search passes the end of its range by less than one step. -/
theorem bisect_lt_add {len fuel left right pos : ℕ} (hlen : 0 < len) (hle : left < right + len)
    (h : bisect below (· + len) fuel left right = .ok pos) : pos < right + len := by
  induction fuel generalizing left right with
  | zero =>
      cases h
      exact hle
  | succ fuel ih =>
      rw [bisect_succ] at h
      split_ifs at h with hlt
      · cases hmid : below ((left + right) / 2) with
        | error f => simp only [hmid] at h; cases h
        | ok b =>
            simp only [hmid] at h
            cases b with
            | true => exact ih (by omega) h
            | false =>
                have := ih (by omega) h
                omega
      · cases h
        exact hle

/-- A search that is never sent to the left ends behind its range. -/
theorem bisect_of_true {len fuel left right pos : ℕ} (hlen : 0 < len) (hfuel : right - left ≤ fuel)
    (hb : ∀ j b, below j = .ok b → b = true)
    (h : bisect below (· + len) fuel left right = .ok pos) : right ≤ pos := by
  induction fuel generalizing left with
  | zero =>
      cases h
      omega
  | succ fuel ih =>
      rw [bisect_succ] at h
      split_ifs at h with hlt
      · cases hmid : below ((left + right) / 2) with
        | error f => simp only [hmid] at h; cases h
        | ok b =>
            cases hb _ _ hmid
            simp only [hmid] at h
            exact ih (by omega) h
      · cases h
        omega

/-- A search that does not move has found its first place not below. -/
theorem bisect_stays {len fuel left right : ℕ} (hlen : 0 < len) (hlt : left < right)
    (hfuel : right - left ≤ fuel) (h : bisect below (· + len) fuel left right = .ok left) :
    below left = .ok false := by
  induction fuel generalizing right with
  | zero => omega
  | succ fuel ih =>
      rw [bisect_succ, if_pos hlt] at h
      cases hmid : below ((left + right) / 2) with
      | error f => simp only [hmid] at h; cases h
      | ok b =>
          simp only [hmid] at h
          cases b with
          | true => rcases bisect_cases h with hpos | hpos <;> omega
          | false =>
              by_cases hend : (left + right) / 2 = left
              · rwa [hend] at hmid
              · exact ih (by omega) (by omega) h

section Blocks

/-! ### A range of blocks whose first bytes are below -/

variable {len : ℕ}

/-- Inside one block the search leaves the block: its first byte is below. -/
theorem bisect_block {fuel start right : ℕ} (hfuel : right - start ≤ fuel) (hlt : start < right)
    (hright : right ≤ start + len) (hstart : below start = .ok true)
    (hb : ∀ j, start ≤ j → j ≤ start + len / 2 → ∃ b, below j = .ok b) :
    ∃ pos, bisect below (· + len) fuel start right = .ok pos ∧ start + len ≤ pos := by
  induction fuel generalizing right with
  | zero => omega
  | succ fuel ih =>
      rcases hb ((start + right) / 2) (by omega) (by omega) with ⟨b, hmid⟩
      rw [bisect_succ, if_pos hlt]
      simp only [hmid]
      cases b with
      | true =>
          refine ⟨_, bisect_of_le (by omega), ?_⟩
          omega
      | false =>
          have hne : (start + right) / 2 ≠ start := by
            intro h
            rw [h, hstart] at hmid
            cases hmid
          exact ih (by omega) (by omega) (by omega)

/-- Where halving the number of blocks always falls between two of them, the search passes all of
them.  That is so for `2 * 2 ^ j - 2` and for `3 * 2 ^ j - 2` blocks. -/
theorem bisect_blocks {n : ℕ} (hstart : ∀ i, i < n → below (i * len) = .ok true)
    (hb : ∀ i j, i < n → i * len ≤ j → j ≤ i * len + len / 2 → ∃ b, below j = .ok b)
    (hlen : 0 < len) : ∀ (e : ℕ) {a fuel : ℕ}, n * len - a * len ≤ fuel →
      (n + 2 = a + 2 * 2 ^ e ∨ n + 2 = a + 3 * 2 ^ e) →
      ∃ pos, bisect below (· + len) fuel (a * len) (n * len) = .ok pos ∧ n * len ≤ pos := by
  intro e
  induction e with
  | zero =>
      intro a fuel hfuel hn
      rcases hn with hn | hn
      · obtain rfl : n = a := by omega
        exact ⟨_, bisect_of_le (Nat.le_refl _), Nat.le_refl _⟩
      · obtain rfl : n = a + 1 := by omega
        have hsucc : (a + 1) * len = a * len + len := Nat.succ_mul a len
        rw [hsucc] at hfuel ⊢
        exact bisect_block hfuel (by omega) (Nat.le_refl _) (hstart a (by omega))
          fun j h₁ h₂ => hb a j (by omega) h₁ h₂
  | succ e ih =>
      intro a fuel hfuel hn
      have hpow : 0 < 2 ^ e := Nat.two_pow_pos e
      -- the block in the middle, and the blocks behind it
      rcases (show ∃ m, n = a + 2 * m + 2 ∧ (m + 2 = 2 * 2 ^ e ∨ m + 2 = 3 * 2 ^ e) by
        rcases hn with hn | hn
        · exact ⟨2 * 2 ^ e - 2, by rw [Nat.pow_succ] at hn; omega, by omega⟩
        · exact ⟨3 * 2 ^ e - 2, by rw [Nat.pow_succ] at hn; omega, by omega⟩) with ⟨m, hm, hm'⟩
      have hmid : (a * len + n * len) / 2 = (a + m + 1) * len := by
        have : a * len + n * len = (a + m + 1) * len * 2 := by
          rw [hm, ← Nat.add_mul, Nat.mul_assoc, Nat.mul_comm len 2, ← Nat.mul_assoc]
          congr 1
          omega
        rw [this, Nat.mul_div_cancel _ (by decide)]
      have hnext : (a + m + 1) * len + len = (a + m + 2) * len := (Nat.succ_mul _ len).symm
      have hle : (a + m + 2) * len ≤ n * len := Nat.mul_le_mul_right _ (by omega)
      have hlt : a * len + 2 * len ≤ n * len := by
        rw [← Nat.add_mul]
        exact Nat.mul_le_mul_right _ (by omega)
      have hgt : a * len + 2 * len ≤ (a + m + 2) * len := by
        rw [← Nat.add_mul]
        exact Nat.mul_le_mul_right _ (by omega)
      cases fuel with
      | zero => omega
      | succ fuel =>
          rw [bisect_succ, if_pos (by omega), hmid]
          simp only [hstart (a + m + 1) (by omega), hnext]
          exact ih (by omega) (by omega)

end Blocks

/-- A search that steps one entry at a time ends inside its range. -/
theorem bisect_le {fuel left right pos : ℕ} (hle : left ≤ right)
    (h : bisect below (· + 1) fuel left right = .ok pos) : left ≤ pos ∧ pos ≤ right := by
  induction fuel generalizing left right with
  | zero =>
      cases h
      exact ⟨Nat.le_refl _, hle⟩
  | succ fuel ih =>
      rw [bisect_succ] at h
      split_ifs at h with hlt
      · cases hb : below ((left + right) / 2) with
        | error f => simp only [hb] at h; cases h
        | ok b =>
            simp only [hb] at h
            cases b with
            | true =>
                rcases ih (by omega) h with ⟨h₁, h₂⟩
                exact ⟨by omega, h₂⟩
            | false =>
                rcases ih (by omega) h with ⟨h₁, h₂⟩
                exact ⟨h₁, by omega⟩
      · cases h
        exact ⟨Nat.le_refl _, hle⟩

/-- A search whose comparisons are all defined is defined. -/
theorem bisect_ok {fuel left right : ℕ} (hle : left ≤ right)
    (hb : ∀ j, left ≤ j → j < right → ∃ b, below j = .ok b) :
    ∃ pos, bisect below (· + 1) fuel left right = .ok pos ∧ left ≤ pos ∧ pos ≤ right := by
  suffices h : ∃ pos, bisect below (· + 1) fuel left right = .ok pos by
    rcases h with ⟨pos, hpos⟩
    exact ⟨pos, hpos, bisect_le hle hpos⟩
  induction fuel generalizing left right with
  | zero => exact ⟨left, rfl⟩
  | succ fuel ih =>
      rw [bisect_succ]
      split_ifs with hlt
      · rcases hb ((left + right) / 2) (by omega) (by omega) with ⟨b, hmid⟩
        simp only [hmid]
        cases b with
        | true => exact ih (by omega) fun j h₁ h₂ => hb j (by omega) h₂
        | false => exact ih (by omega) fun j h₁ h₂ => hb j h₁ (by omega)
      · exact ⟨left, rfl⟩

end Core
