import Mathlib.Data.List.Forall2

/-!
# Lists that are related element by element

What becomes of `List.Forall₂ R as bs` when both lists are changed at one place, or all over.

* `forall₂_getElem?` — at a place there are related elements, or none in either list.
* `forall₂_set_modify`, `forall₂_modify` — a change at one place.
* `forall₂_zipWith` — a change all over, by two further lists that are related.
* `map_erase_of_find?` — an erasure in a list and in its image.
-/

namespace Core

variable {α β γ δ ε ζ : Type*} {R : α → β → Prop} {as : List α} {bs : List β}

/-- Related lists have related elements at a place. -/
theorem forall₂_getElem? (h : List.Forall₂ R as bs) {i : ℕ} {a : α} (ha : as[i]? = some a) :
    ∃ b, bs[i]? = some b ∧ R a b := by
  rcases List.getElem?_eq_some_iff.1 ha with ⟨hi, rfl⟩
  have hi' : i < bs.length := h.length_eq ▸ hi
  exact ⟨bs[i], List.getElem?_eq_getElem hi', h.get hi hi'⟩

theorem forall₂_getElem?_none (h : List.Forall₂ R as bs) {i : ℕ} (ha : as[i]? = none) :
    bs[i]? = none := by
  rw [List.getElem?_eq_none_iff] at ha ⊢
  rwa [← h.length_eq]

/-- Changing related lists at one place, where the new element of the first list is known. -/
theorem forall₂_set_modify (h : List.Forall₂ R as bs) {i : ℕ} {a : α} {f : β → β}
    (hnew : ∀ b, bs[i]? = some b → R a (f b)) :
    List.Forall₂ R (as.set i a) (bs.modify i f) := by
  induction h generalizing i with
  | nil => cases i <;> exact List.Forall₂.nil
  | cons hab hrest ih =>
      cases i with
      | zero => exact List.Forall₂.cons (hnew _ rfl) hrest
      | succ i => exact List.Forall₂.cons hab (ih hnew)

/-- Changing both elements at one place. -/
theorem forall₂_modify (h : List.Forall₂ R as bs) {i : ℕ} {f : α → α} {g : β → β}
    (hnew : ∀ a b, as[i]? = some a → bs[i]? = some b → R a b → R (f a) (g b)) :
    List.Forall₂ R (as.modify i f) (bs.modify i g) := by
  induction h generalizing i with
  | nil => cases i <;> exact List.Forall₂.nil
  | cons hab hrest ih =>
      cases i with
      | zero => exact List.Forall₂.cons (hnew _ _ rfl rfl hab) hrest
      | succ i => exact List.Forall₂.cons hab (ih hnew)

/-- Setting both elements at one place. -/
theorem forall₂_set (h : List.Forall₂ R as bs) (i : ℕ) {a : α} {b : β} (hab : R a b) :
    List.Forall₂ R (as.set i a) (bs.set i b) := by
  induction h generalizing i with
  | nil => cases i <;> exact List.Forall₂.nil
  | cons hcd hrest ih =>
      cases i with
      | zero => exact List.Forall₂.cons hab hrest
      | succ i => exact List.Forall₂.cons hcd (ih i)

/-- Combining two pairs of related lists. -/
theorem forall₂_zipWith {S : γ → δ → Prop} {T : ε → ζ → Prop} {cs : List γ} {ds : List δ}
    {f : α → γ → ε} {g : β → δ → ζ} (h : List.Forall₂ R as bs) (h' : List.Forall₂ S cs ds)
    (hfg : ∀ a b c d, R a b → S c d → T (f a c) (g b d)) :
    List.Forall₂ T (List.zipWith f as cs) (List.zipWith g bs ds) := by
  induction h generalizing cs ds with
  | nil => exact List.Forall₂.nil
  | cons hab _ ih =>
      cases h' with
      | nil => exact List.Forall₂.nil
      | cons hcd hrest => exact List.Forall₂.cons (hfg _ _ _ _ hab hcd) (ih hrest)

/-- Erasing the first element of a kind, and what is left of it. -/
theorem map_erase_of_find? [BEq α] [LawfulBEq α] [BEq β] [LawfulBEq β] {g : α → β} {b : β}
    {l : List α} {a : α} (h : l.find? (g · == b) = some a) :
    (l.erase a).map g = (l.map g).erase b := by
  have ha : (g a == b) = true := List.find?_some (p := (g · == b)) h
  induction l with
  | nil => cases h
  | cons x l ih =>
      rw [List.find?_cons] at h
      by_cases hx : g x = b
      · simp only [hx, beq_self_eq_true] at h
        cases h
        simp [hx]
      · simp only [beq_eq_false_iff_ne.2 hx] at h
        have hne : x ≠ a := by
          rintro rfl
          exact hx (beq_iff_eq.1 ha)
        rw [List.erase_cons_tail (by simpa using hne), List.map_cons, List.map_cons,
          List.erase_cons_tail (by simpa using hx), ih h]

end Core
