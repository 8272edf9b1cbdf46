import Mathlib.Data.List.Sort
import RingDB.Core.Search

/-!
# Insertion sort by a key

Lists that are sorted by a key `κ`, of which different elements may have the same.  Mathlib's
`List.insertionSort` is *stable*: elements of one key keep their order.

* `bisect_boundary` — the bisection of a range that is below the key up to some place, and not from
  there on, finds that place.
* `take_drop_eq_orderedInsert` — inserting there is `List.orderedInsert`.
* `filter_insertionSort` — stability, key by key.
* `eq_of_filter_eq` — a sorted list is determined by its elements of each key, in their order.
-/

namespace Core

/-- Bisection finds the boundary. -/
theorem bisect_boundary {below : ℕ → Except Fault Bool} {pos : ℕ} {fuel left right : ℕ}
    (hleft : left ≤ pos) (hright : pos ≤ right) (hfuel : right - left ≤ fuel)
    (hbelow : ∀ j, left ≤ j → j < pos → below j = .ok true)
    (habove : ∀ j, pos ≤ j → j < right → below j = .ok false) :
    bisect below (· + 1) fuel left right = .ok pos := by
  induction fuel generalizing left right with
  | zero =>
      have hpos : left = pos := by omega
      exact congrArg Except.ok hpos
  | succ fuel ih =>
      rw [bisect_succ]
      split_ifs with hlt
      · by_cases hmid : (left + right) / 2 < pos
        · simp only [hbelow _ (by omega) hmid]
          exact ih (by omega) hright (by omega) (fun j h₁ h₂ => hbelow j (by omega) h₂) habove
        · simp only [habove _ (Nat.not_lt.1 hmid) (by omega)]
          exact ih hleft (by omega) (by omega) hbelow fun j h₁ h₂ => habove j h₁ (by omega)
      · have hpos : left = pos := by omega
        rw [hpos]

section

variable {α K : Type*} [LinearOrder K] (κ : α → K)

/-- The order by key. -/
def KeyLe (a b : α) : Prop := κ a ≤ κ b

instance : DecidableRel (KeyLe κ) := fun a b => inferInstanceAs (Decidable (κ a ≤ κ b))

instance : IsTrans α (KeyLe κ) := ⟨fun _ _ _ hab hbc => le_trans hab hbc⟩

instance : Std.Total (KeyLe κ) := ⟨fun a b => le_total (κ a) (κ b)⟩

variable {κ}

/-- The place where `a` is inserted into a list: behind the elements with smaller keys. -/
def placeOf (κ : α → K) (a : α) (l : List α) : ℕ := (l.takeWhile fun b => κ b < κ a).length

theorem placeOf_le (a : α) (l : List α) : placeOf κ a l ≤ l.length :=
  (l.takeWhile_prefix _).length_le

theorem key_lt_of_lt_placeOf {a b : α} {l : List α} {j : ℕ} (hj : j < placeOf κ a l)
    (hb : l[j]? = some b) : κ b < κ a := by
  have hget : (l.takeWhile fun b => κ b < κ a)[j]? = some b := by
    rw [List.getElem?_eq_getElem hj, ← hb, (l.takeWhile_prefix _).getElem hj,
      List.getElem?_eq_getElem]
  have hall := List.all_takeWhile (p := fun b => decide (κ b < κ a)) (l := l)
  exact of_decide_eq_true (List.all_eq_true.1 hall b (List.mem_of_getElem? hget))

/-- In a sorted list no smaller key comes after it. -/
theorem not_key_lt_of_placeOf_le {a b : α} {l : List α} (hl : l.Pairwise (KeyLe κ)) {j : ℕ}
    (hj : placeOf κ a l ≤ j) (hb : l[j]? = some b) : ¬ κ b < κ a := by
  induction l generalizing j with
  | nil => simp at hb
  | cons c l ih =>
      rw [List.pairwise_cons] at hl
      unfold placeOf at hj
      by_cases hc : κ c < κ a
      · rw [List.takeWhile_cons_of_pos (by simpa using hc), List.length_cons] at hj
        cases j with
        | zero => omega
        | succ j => exact ih hl.2 (Nat.le_of_succ_le_succ hj) hb
      · cases j with
        | zero =>
            cases hb
            exact hc
        | succ j =>
            have hcb : κ c ≤ κ b := hl.1 b (List.mem_of_getElem? hb)
            exact not_lt.2 ((not_lt.1 hc).trans hcb)

/-- Inserting at that place is `orderedInsert`. -/
theorem take_drop_eq_orderedInsert (a : α) (l : List α) :
    l.take (placeOf κ a l) ++ a :: l.drop (placeOf κ a l) = l.orderedInsert (KeyLe κ) a := by
  induction l with
  | nil => rfl
  | cons b l ih =>
      unfold placeOf at ih ⊢
      rw [List.orderedInsert_cons]
      by_cases hb : κ b < κ a
      · have hab : ¬ KeyLe κ a b := not_le.2 hb
        rw [List.takeWhile_cons_of_pos (by simpa using hb), if_neg hab, ← ih]
        rfl
      · have hab : KeyLe κ a b := not_lt.1 hb
        rw [List.takeWhile_cons_of_neg (by simpa using hb), if_pos hab]
        rfl

/-! ## Stability -/

variable [DecidableEq K]

theorem filter_orderedInsert (a : α) (l : List α) (k : K) :
    (l.orderedInsert (KeyLe κ) a).filter (κ · = k) = (a :: l).filter (κ · = k) := by
  induction l with
  | nil => rfl
  | cons b l ih =>
      rw [List.orderedInsert_cons]
      split_ifs with hab
      · rfl
      · -- `b` goes first, so it is of a smaller key than `a`
        have hba : κ b < κ a := not_le.1 hab
        rw [List.filter_cons, ih]
        by_cases hb : κ b = k
        · have ha : κ a ≠ k := fun ha => absurd hba (by rw [ha, hb]; exact lt_irrefl k)
          simp [ha, hb]
        · simp [List.filter_cons, hb]

/-- Insertion sort keeps the order of the elements of one key. -/
theorem filter_insertionSort (l : List α) (k : K) :
    (l.insertionSort (KeyLe κ)).filter (κ · = k) = l.filter (κ · = k) := by
  induction l with
  | nil => rfl
  | cons a l ih => rw [List.insertionSort_cons, filter_orderedInsert, List.filter_cons, ih,
      List.filter_cons]

/-- Two sorted lists with the same elements of each key, in the same order, are the same. -/
theorem eq_of_filter_eq {l₁ l₂ : List α} (h₁ : l₁.Pairwise (KeyLe κ))
    (h₂ : l₂.Pairwise (KeyLe κ)) (h : ∀ k, l₁.filter (κ · = k) = l₂.filter (κ · = k)) :
    l₁ = l₂ := by
  -- the first element of one list is in the other, so its key is not below the first key there
  have hhead : ∀ {a b : α} {m₁ m₂ : List α}, (b :: m₂).Pairwise (KeyLe κ) →
      (a :: m₁).filter (κ · = κ a) = (b :: m₂).filter (κ · = κ a) → κ b ≤ κ a := by
    intro a b m₁ m₂ hm hf
    have hmem : a ∈ (b :: m₂).filter (κ · = κ a) := by
      rw [← hf]
      simp
    rcases List.mem_cons.1 (List.mem_filter.1 hmem).1 with rfl | hin
    · exact le_rfl
    · exact (List.pairwise_cons.1 hm).1 a hin
  induction l₁ generalizing l₂ with
  | nil =>
      cases l₂ with
      | nil => rfl
      | cons b l₂ =>
          have hb := h (κ b)
          simp at hb
  | cons a l₁ ih =>
      cases l₂ with
      | nil =>
          have ha := h (κ a)
          simp at ha
      | cons b l₂ =>
          have hab : κ a = κ b := le_antisymm (hhead h₁ (h (κ b)).symm) (hhead h₂ (h (κ a)))
          have heq : a = b := by
            have hk := h (κ a)
            simp only [List.filter_cons, hab, decide_true, if_true, List.cons.injEq] at hk
            exact hk.1
          subst heq
          rw [ih (List.pairwise_cons.1 h₁).2 (List.pairwise_cons.1 h₂).2 fun k => ?_]
          have hk := h k
          by_cases hak : κ a = k
          · simpa [List.filter_cons, hak] using hk
          · simpa [List.filter_cons, hak] using hk

end

end Core
